import StackMips.Proofs.Booleans.Expr

/-!
# Booleans of statements

The code of a statement leaves the stack as it was and the boolean variables canonical, or jumps to
the exit of the function.  A loop is safe because each iteration is, for fewer steps than the one
before it.
-/

namespace StackMips

open Mips

namespace Process

variable {P : Process} {F : Frame} {n : Nat} {x y z : Config} {cond body first second : Script}
  {done : Label}

/-! ## Branches -/

theorem Runs.label (label : Label) : P.Runs F n [Action.emit (.label label none)] :=
  .inert (by simp [Action.isInert])

theorem Pushes.drop {property : Word → Prop} (h : P.Pushes F n cond property) :
    P.Runs F n (cond ++ [Action.pop .t0]) :=
  fun _ hx => h.pop rfl hx fun _ hz _ => .nil hz

/-- A condition is evaluated, and code is skipped if it is false. -/
theorem Pushes.branchIfFalse (hcond : P.Pushes F n cond Ty.bool.Fits)
    (hfall : P.Runs F n (body ++ ([Action.emit (.label done none)] ++ second)))
    (htaken : P.Runs F n ([Action.emit (.label done none)] ++ second)) :
    P.Runs F n (cond ++ Action.pop .t0 :: ([Action.op (.beq .t0 0 done)] ++ body ++
      ([Action.emit (.label done none)] ++ second))) := by
  intro x hx
  refine hcond.pop rfl hx fun z hz hword => ?_
  refine .branch hz.stays.flags rfl ?_ (fun t ht => Image.cases_of_branch ht) ?_ fun pc => ?_
  · simpa [Operation.tested?] using hword rfl
  · have hnext : P.Rests F x ⟨z.state.next, z.active⟩ := hz.of_eq rfl rfl rfl rfl
    exact (hfall _ hnext.stays).mono fun _ => hnext.trans
  · have hjump : P.Rests F x ⟨z.state.jump pc, z.active⟩ := hz.of_eq rfl rfl rfl rfl
    exact (htaken _ hjump.stays).mono fun _ => hjump.trans

/-- The code of a statement follows a note and the labels that it needs. -/
theorem Runs.minted (c : Context) (text : String) (count : Nat) (h : P.Runs F n body) :
    P.Runs F n (c.note text ++ (List.replicate count Action.mint ++ body)) := by
  have hmint : ∀ action ∈ List.replicate count Action.mint, action.isInert := by
    intro action haction
    rw [List.eq_of_mem_replicate haction]
    rfl
  exact (Runs.inert (c.isInert_note text)).append ((Runs.inert hmint).append h)

theorem Runs.ifThen (done : Label) (hcond : P.Pushes F n cond Ty.bool.Fits)
    (hbody : P.Runs F n body) :
    P.Runs F n (cond ++ Action.pop .t0 :: ([Action.op (.beq .t0 0 done)] ++ body ++
      ([Action.emit (.label done none)] ++ []))) :=
  hcond.branchIfFalse (hbody.append (.label done)) (.label done)

/-- The code of the first branch jumps over the code of the second. -/
theorem Runs.ifElse (otherwise done : Label) (hcond : P.Pushes F n cond Ty.bool.Fits)
    (hfirst : P.Runs F n first) (hsecond : P.Runs F n second) :
    P.Runs F n (cond ++ Action.pop .t0 :: ([Action.op (.beq .t0 0 otherwise)] ++
      (first ++ [Action.op (.b done)]) ++
      ([Action.emit (.label otherwise none)] ++
        (second ++ [Action.emit (.label done none)])))) := by
  have hrest : P.Runs F n ([Action.emit (.label otherwise none)] ++
      (second ++ [Action.emit (.label done none)])) :=
    (Runs.label otherwise).append (hsecond.append (.label done))
  refine hcond.branchIfFalse ?_ hrest
  rw [List.append_assoc]
  refine hfirst.append fun x hx => ?_
  have hskip : P.Leads n ([Action.op (.b done)] ++
      ([Action.emit (.label otherwise none)] ++ second) ++
      ([Action.emit (.label done none)] ++ [])) x (P.Rests F x) := by
    refine .branch hx.flags rfl (by simp [Operation.tested?]) (fun t ht => ?_) ?_ fun pc => ?_
    · obtain ⟨pc, htarget, rfl⟩ := Option.map_eq_some_iff.mp ht
      exact .inr ⟨pc, htarget, rfl⟩
    · have hnext : P.Rests F x ⟨x.state.next, x.active⟩ := (Rests.refl hx).of_eq rfl rfl rfl rfl
      rw [List.append_nil, List.append_assoc]
      exact (hrest _ hnext.stays).mono fun _ => hnext.trans
    · have hjump : P.Rests F x ⟨x.state.jump pc, x.active⟩ := (Rests.refl hx).of_eq rfl rfl rfl rfl
      exact (Runs.label done _ hjump.stays).mono fun _ => hjump.trans
  simpa using hskip

/-! ## Loops -/

/-- The step index decreases with every iteration, by the line that jumps back. -/
theorem Runs.whileLoop (start done : Label) (hcond : ∀ m ≤ n, P.Pushes F m cond Ty.bool.Fits)
    (hbody : ∀ m ≤ n, P.Runs F m body) :
    P.Runs F n ([Action.emit (.label start none)] ++ (cond ++ Action.pop .t0 ::
      ([Action.op (.beq .t0 0 done)] ++ (body ++ [Action.op (.b start)]) ++
        ([Action.emit (.label done none)] ++ [])))) := by
  induction n using Nat.strong_induction_on with
  | _ n ih =>
      intro x hx hat hbehind
      have hstart : P.image.target start = some x.state.pc :=
        Image.target_of_line (Image.at_cons.mp hat).1
      have hback : ∀ y, P.Rests F x y →
          P.Leads n ([Action.op (.b start)] ++ [Action.emit (.label done none)]) y
            (P.Rests F x) := by
        intro y hy
        refine .jump hy.stays.flags fun m hm pc hpc => ?_
        obtain rfl := Option.some.inj (hstart.symm.trans hpc)
        have hjump : P.Rests F x ⟨y.state.jump x.state.pc, y.active⟩ :=
          hy.of_eq rfl rfl rfl rfl
        exact ih m hm (fun k hk => hcond k (hk.trans hm.le)) (fun k hk => hbody k (hk.trans hm.le))
          _ hjump.stays hat fun z hpc hz => (hbehind z hpc (hjump.trans hz)).mono hm.le
      refine Leads.seq (Runs.label start x hx) (fun y hy => ?_) hat hbehind
      refine (hcond n le_rfl).pop rfl hy.stays fun z hz hword => ?_
      refine .branch hz.stays.flags rfl ?_ (fun t ht => Image.cases_of_branch ht) ?_ fun pc => ?_
      · simpa [Operation.tested?] using hword rfl
      · have hnext : P.Rests F x ⟨z.state.next, z.active⟩ := (hy.trans hz).of_eq rfl rfl rfl rfl
        rw [List.append_assoc]
        exact (hbody n le_rfl _ hnext.stays).seq fun w hw => hback w (hnext.trans hw)
      · have hjump : P.Rests F x ⟨z.state.jump pc, z.active⟩ := (hy.trans hz).of_eq rfl rfl rfl rfl
        exact (Runs.label done _ hjump.stays).mono fun _ => hjump.trans

/-- The counter of a loop, which lies on top of the stack, changes. -/
theorem Yields.count (hF : P.Holds F) (hx : P.Stays F x) (h : P.Yields F (fun _ => True) x y)
    (word : Word) :
    P.Yields F (fun _ => True) x
      ⟨(y.state.store (x.state.reg .sp) word).next, y.active⟩ where
  stays := h.stays.store hF (by have := hx.room; omega) hx.below word
  sp := h.sp
  word := trivial
  keeps a ha hle := by
    have hne : a ≠ x.state.reg .sp := by
      rintro rfl
      exact Nat.lt_irrefl _ ha
    simp [hne, h.keeps a ha hle]

/-- While the loop runs, its counter stays on the stack. -/
theorem Yields.leads_countdown (start done : Label) (hF : P.Holds F) (hx : P.Stays F x)
    (hbody : ∀ m ≤ n, P.Runs F m body) (h : P.Yields F (fun _ => True) x y) :
    P.Leads n ([Action.emit (.label start none)] ++ (Action.op (.lw .t0 (.indexed wordSize .sp)) ::
      ([Action.op (.ble .t0 0 done)] ++ ([Action.op (.alu .sub .t0 .t0 (.imm 1)),
        Action.op (.sw .t0 (.indexed wordSize .sp))] ++ (body ++ [Action.op (.b start)])) ++
        ([Action.emit (.label done none)] ++ [Action.pop .t0])))) y (P.Rests F x) := by
  induction n using Nat.strong_induction_on generalizing y with
  | _ n ih =>
      intro hat hbehind
      have hstart : P.image.target start = some y.state.pc :=
        Image.target_of_line (Image.at_cons.mp hat).1
      have hback : ∀ z, P.Yields F (fun _ => True) x z →
          P.Leads n ([Action.op (.b start)] ++ ([Action.emit (.label done none)] ++
            [Action.pop .t0])) z (P.Rests F x) := by
        intro z hz
        refine .jump hz.stays.flags fun m hm pc hpc => ?_
        obtain rfl := Option.some.inj (hstart.symm.trans hpc)
        have hjump : P.Rests F z ⟨z.state.jump y.state.pc, z.active⟩ :=
          (Rests.refl hz.stays).of_eq rfl rfl rfl rfl
        exact ih m hm (fun k hk => hbody k (hk.trans hm.le)) (hz.rests hx hjump) hat
          fun w hpc hw => (hbehind w hpc hw).mono hm.le
      refine Leads.seq (Runs.label start y h.stays) (fun z hz => ?_) hat hbehind
      have hload : P.Leads n [Action.op (.lw .t0 (.indexed wordSize .sp))] z
          (P.Sets F .t0 (fun _ => True) y z) := by
        refine hz.leads_set rfl rfl fun t ht => ?_
        obtain rfl := Image.eq_of_lw ht
        exact ⟨_, trivial, rfl⟩
      refine hload.cons fun w hw => ?_
      refine .branch hw.rests.stays.flags rfl (by simp [Operation.tested?])
        (fun t ht => Image.cases_of_branch ht) ?_ fun pc => ?_
      · have hnext : P.Rests F y ⟨w.state.next, w.active⟩ := hw.rests.of_eq rfl rfl rfl rfl
        have hsub : P.Leads n [Action.op (.alu .sub .t0 .t0 (.imm 1))] ⟨w.state.next, w.active⟩
            (P.Sets F .t0 (fun _ => True) y ⟨w.state.next, w.active⟩) := by
          refine hnext.leads_set rfl rfl fun t ht => ?_
          obtain ⟨word, _, rfl⟩ := Image.exists_of_alu ht
          exact ⟨word, trivial, rfl⟩
        rw [List.append_assoc, List.append_assoc]
        refine hsub.cons fun v hv => ?_
        have hcount := h.rests hx hv.rests
        have hstore : P.Leads n [Action.op (.sw .t0 (.indexed wordSize .sp))] v
            (P.Yields F (fun _ => True) x) := by
          refine .quiet hcount.stays.flags rfl fun t ht _ _ => ?_
          obtain rfl := Image.eq_of_sw ht
          have haddress : P.image.address v.state (.indexed wordSize .sp) = x.state.reg .sp := by
            rw [Image.address, hcount.sp]
            exact BitVec.sub_add_cancel _ _
          rw [haddress]
          exact ⟨rfl, hcount.count hF hx _⟩
        refine hstore.cons fun u hu => ?_
        exact (hbody n le_rfl u hu.stays).seq fun r hr => hback r (hu.rests hx hr)
      · have hjump : P.Rests F y ⟨w.state.jump pc, w.active⟩ := hw.rests.of_eq rfl rfl rfl rfl
        refine .seq (Runs.label done _ hjump.stays) fun v hv => ?_
        exact ((h.rests hx (hjump.trans hv)).leads_pop hx rfl).mono fun _ hu => hu.rests

/-! ## Services -/

theorem Rests.leads_syscall (h : P.Rests F x y) (number : Int) :
    P.Leads n [Action.op (.li .v0 number), Action.op .syscall] y (P.Rests F x) := by
  have hset : P.Leads n [Action.op (.li .v0 number)] y (P.Rests F x) := by
    refine .quiet h.stays.flags rfl fun t ht _ _ => ?_
    cases ht
    exact ⟨rfl, h.set (by decide) (by decide) _⟩
  refine hset.cons fun z hz => ?_
  refine .quiet hz.stays.flags rfl fun t ht _ _ => ?_
  obtain ⟨hpc, hmem, hreg⟩ := Image.of_syscall ht
  exact ⟨hpc, hz.of_eq rfl (hreg _ (by decide)) (hreg _ (by decide)) hmem⟩

/-! ## Leaving -/

variable (P F)

/-- The exit of the function has been reached.  If it was by a return statement, `$v0` holds a value
of the type of the function. -/
structure Leaves (x : Config) : Prop where
  active : ∃ answered, x.active = F.active answered ∧
    (answered = true → F.fn.signature.returnType.Fits (x.state.reg .v0))
  intact : F.Intact x.state
  flags : ∀ a ∈ P.flags x.active, (x.state.mem a).IsFlag

/-- What the body of a function relies on: calls are safe for fewer steps, and the exit is safe. -/
structure Surrounds (exit : Label) (n : Nat) : Prop where
  calls : ∀ m < n, P.Callable m
  exit : ∀ x, P.image.target exit = some x.state.pc → P.Leaves F x → P.Safe n x

variable {P F} {exit : Label}

theorem Surrounds.mono (h : P.Surrounds F exit n) {m : Nat} (hm : m ≤ n) :
    P.Surrounds F exit m where
  calls k hk := h.calls k (hk.trans_le hm)
  exit x hpc hx := (h.exit x hpc hx).mono hm

theorem Leaves.leads (hexit : ∀ x, P.image.target exit = some x.state.pc → P.Leaves F x →
    P.Safe n x) {post : Config → Prop} (h : P.Leaves F x) :
    P.Leads n [Action.op (.b exit)] x post := by
  have hjump : P.Leads n ([Action.op (.b exit)] ++ []) x post := by
    refine .jump h.flags fun m hm pc hpc => (hexit _ hpc ?_).mono hm.le
    exact ⟨h.active, h.intact.of_eq rfl rfl, h.flags⟩
  exact hjump

theorem Stays.leaves (h : P.Stays F x) : P.Leaves F x :=
  ⟨⟨false, h.active, by simp⟩, h.intact, h.flags⟩

/-- The value of a return statement is popped into `$v0`. -/
theorem Yields.leads_return (hx : P.Stays F x)
    (h : P.Yields F F.fn.signature.returnType.Fits x y) :
    P.Leads n [Action.pop .v0] y (P.Leaves F) := by
  have hactive : P.track y (.lw .v0 (.indexed wordSize .sp)) = F.active true := by
    simp [track, h.stays.active, Frame.active]
  obtain ⟨hrests, hword⟩ := h.pop hx (show Register.fp ≠ .v0 by decide) (by decide)
  refine .pop h.stays.flags (by decide) ⟨⟨true, hactive, fun _ => hword⟩, hrests.stays.intact, ?_⟩
  rw [flags_track_lw]
  exact h.stays.flags

end Process

/-! ## Statements -/

namespace Stmt

open Process

variable {P : Process} {F : Frame} {n : Nat} {calls : Label → Nat → Prop} {stored : Label → Prop}
  {exit : Label} {c : Context} {stmt : Stmt}

structure Placed (P : Process) (F : Frame) (calls : Label → Nat → Prop) (stored : Label → Prop)
    (stmt : Stmt) : Prop extends
    stmt.Admissible calls stored P.resolved.context F.fn.signature.returnType where
  knows : ∀ e ∈ stmt.allExprs, ∀ node ∈ e.nodes, P.Knows F node

theorem Placed.inside (h : stmt.Placed P F calls stored) {body : Block} (hbody : body ∈ stmt.bodies)
    {inner : Stmt} (hinner : inner ∈ body.stmts) : inner.Placed P F calls stored where
  toAdmissible := h.inner body hbody inner hinner
  knows e he := h.knows e (allExprs_subset_of_body body hbody hinner he)

section Code

variable (hP : P.Valid) (h : stmt.Placed P F calls stored) (hc : c.Like P.resolved.context)
include hP h hc

theorem Placed.target {target : Expr} (he : target ∈ stmt.exprs) (hplace : target.isLocation)
    {ty : Ty} (hty : target.HasType P.symbols ty) (hvalue : ty.isValue) :
    ∃ id location, target = .name id ∧ c.symbols.location? id = some location ∧
      P.Variable F ty (P.image.locate F.top location) := by
  have hall := stmt.exprs_subset he
  have hblocked := (Expr.blockedTarget_eq_nil_iff hplace).mpr (h.plain target hall)
  obtain ⟨id, rfl⟩ := Expr.eq_name_of_blockedTarget hplace hblocked
  obtain ⟨location, hlocation, hvariable⟩ :=
    Expr.location_of_knows hP hty hvalue (h.knows _ hall _ (Expr.self_mem_nodes _))
  rw [symbols, ← hc.symbols] at hlocation
  exact ⟨id, location, rfl, hlocation, hvariable⟩

variable (hF : P.Holds F)
include hF

theorem Placed.pushes (hcalls : ∀ m < n, P.Callable m) {e : Expr} (he : e ∈ stmt.exprs) {ty : Ty}
    (hty : e.HasType P.symbols ty) (hvalue : ty.isValue) :
    P.Pushes F n (e.script c) ty.Fits :=
  have hgrammar := h.grammar.exprs he
  have hall := stmt.exprs_subset he
  Expr.pushes hP hF hcalls hty hvalue hgrammar
    ((Expr.blocked_eq_nil_iff hgrammar).mpr (h.plain e hall)) (h.knows e hall) hc

/-- The address of an integer stays in `$t1` while its value is loaded. -/
theorem Placed.runs_step {target : Expr} (he : target ∈ stmt.exprs) (hplace : target.isLocation)
    (hty : target.HasType P.symbols .int) (op : AluOp) (text : String) :
    P.Runs F n (c.step op text target) := by
  obtain ⟨id, location, rfl, hlocation, hvariable⟩ := h.target hP hc he hplace hty rfl
  simp only [Context.step, List.append_assoc]
  refine (Runs.inert (c.isInert_note _)).append fun x hx => ?_
  refine (leads_loadAddress hF hx hlocation).seq fun y hy => ?_
  refine (hy.1.leads_pop hx rfl).cons fun z hz => ?_
  refine (leads_load hF hz.rests.stays hlocation hvariable).seq fun w hw => ?_
  refine (hw.1.leads_pop hz.rests.stays rfl).cons fun v hv => ?_
  have hquiet : (Operation.alu op .t0 .t0 (.imm 1)).isQuiet := by
    cases op <;> rfl
  have hset : P.Leads n [Action.op (.alu op .t0 .t0 (.imm 1))] v
      (P.Sets F .t0 (fun _ => True) x v) := by
    refine (hz.rests.trans hv.rests).leads_set hquiet rfl fun t ht => ?_
    obtain ⟨word, _, rfl⟩ := Image.exists_of_alu ht
    exact ⟨word, trivial, rfl⟩
  refine hset.cons fun u hu => ?_
  have haddress : u.state.reg .t1 = P.image.locate F.top location :=
    calc u.state.reg .t1 = v.state.reg .t1 := hu.others .t1 (by decide) (by decide)
      _ = w.state.reg .t1 := hv.others .t1 (by decide) (by decide)
      _ = z.state.reg .t1 := hw.2 .t1 (by decide) (by decide)
      _ = _ := hz.word
  refine .quiet hu.rests.stays.flags rfl fun t ht _ _ => ?_
  obtain rfl := Image.eq_of_sw ht
  refine ⟨rfl, ?_⟩
  simpa [Image.address, haddress] using
    hu.rests.assign hvariable (Ty.fits_of_ne (by simp) (u.state.reg .t0))

/-- The word that is read into a boolean variable is 0 or 1 by assumption. -/
theorem Placed.runs_read {target : Expr} (he : target ∈ stmt.exprs) (hplace : target.isLocation)
    {ty : Ty} (hty : target.HasType P.symbols ty) (hvalue : ty.isValue) :
    P.Runs F n ((Stmt.read target).script c exit) := by
  obtain ⟨id, location, rfl, hlocation, hvariable⟩ := h.target hP hc he hplace hty hvalue
  simp only [script, List.append_assoc]
  refine (Runs.inert (c.isInert_note _)).append fun x hx => ?_
  refine ((Rests.refl hx).leads_syscall _).seq fun y hy => ?_
  refine (leads_loadAddress hF hy.stays hlocation).seq fun z hz => ?_
  refine (hz.1.leads_pop hy.stays rfl).cons fun w hw => ?_
  have hrests := hy.trans hw.rests
  refine .quiet hrests.stays.flags rfl fun t ht hpermits _ => ?_
  obtain rfl := Image.eq_of_sw ht
  have hword : ty.Fits (w.state.reg .v0) := by
    intro hbool
    apply hpermits
    rw [hw.word, hrests.stays.active]
    exact hvariable.flag.mp hbool
  have haddress : P.image.address w.state (.indexed 0 .t0) = P.image.locate F.top location := by
    simp [Image.address, hw.word]
  rw [haddress]
  exact ⟨rfl, hrests.assign hvariable hword⟩

theorem Placed.runs_call (hcalls : ∀ m < n, P.Callable m) {callee : Ident} {args : List Expr}
    (he : Expr.call callee args ∈ stmt.exprs) {ty : Ty}
    (hty : (Expr.call callee args).HasType P.symbols ty) :
    P.Runs F n ((Stmt.call callee args).script c exit) := by
  have hall := stmt.exprs_subset he
  have hgrammar := h.grammar.exprs he
  have hblocked := (Expr.blocked_eq_nil_iff hgrammar).mpr (h.plain _ hall)
  rw [Expr.blocked, Expr.blockedAll_eq_flatMap, List.flatMap_eq_nil_iff] at hblocked
  rw [script, List.append_assoc, Expr.yields_eq hc.symbols hty]
  refine (Runs.inert (c.isInert_note _)).append ?_
  cases hvoid : ty.isVoid with
  | true =>
      intro x hx
      have hcall := Expr.leads_call hP hF hcalls hty (h.knows _ hall _ (Expr.self_mem_nodes _))
        (fun arg harg ty hty hvalue c hc => Expr.pushes hP hF hcalls hty hvalue
          (hgrammar.call arg harg) (hblocked arg harg)
          (fun node hnode => h.knows _ hall node (Expr.nodes_subset_call harg hnode)) hc) hc hx
      simpa [Expr.script, Expr.yields_eq hc.symbols hty, hvoid] using
        hcall.mono fun _ hz => hz.1
  | false =>
      have hvalue : ty.isValue := by
        cases hty with
        | call hcallee _ _ =>
            exact Ty.isValue_of_isReturnable (hP.complete.info hcallee).returnable hvoid
      exact (h.pushes hP hc hF hcalls he hty hvalue).drop

end Code

theorem runs_scriptAll {stmts : List Stmt}
    (h : ∀ stmt ∈ stmts, ∀ {c : Context}, c.Like P.resolved.context →
      P.Runs F n (stmt.script c exit)) (hc : c.Like P.resolved.context) :
    P.Runs F n (Stmt.scriptAll c exit stmts) := by
  induction stmts generalizing c with
  | nil => exact fun x hx => .nil (.refl hx)
  | cons stmt stmts ih =>
      rw [List.forall_mem_cons] at h
      rw [Stmt.scriptAll]
      exact (h.1 hc).append (ih h.2 (hc.after _))

theorem runs_body {body : Block}
    (h : ∀ stmt ∈ body.stmts, ∀ {c : Context}, c.Like P.resolved.context →
      P.Runs F n (stmt.script c exit)) (hc : c.Like P.resolved.context) :
    P.Runs F n (body.script c exit) := by
  obtain ⟨decls, stmts⟩ := body
  exact runs_scriptAll h hc

/-- The code of a statement leaves the stack as it was, or the function. -/
theorem runs (hP : P.Valid) (hF : P.Holds F) (h : stmt.Placed P F calls stored)
    (hsurrounds : P.Surrounds F exit n) (hc : c.Like P.resolved.context) :
    P.Runs F n (stmt.script c exit) := by
  induction stmt using Stmt.induction generalizing n c with
  | assign target value =>
      cases h.typed _ (self_mem_nodes _) with
      | assign hty =>
          have hplace := (h.grammar.exprs (e := .assign target value) (by simp [exprs])).assign.1
          obtain ⟨ty, hty, hvalue⟩ := hasValue_of_assign hP.complete.typed hplace hty
          exact (h.pushes hP hc hF hsurrounds.calls (by simp [exprs]) hty hvalue).drop
  | increment target =>
      cases h.typed _ (self_mem_nodes _) with
      | increment hty => exact h.runs_step hP hc hF (by simp [exprs]) h.grammar.isFormed hty _ _
  | decrement target =>
      cases h.typed _ (self_mem_nodes _) with
      | decrement hty => exact h.runs_step hP hc hF (by simp [exprs]) h.grammar.isFormed hty _ _
  | read target =>
      cases h.typed _ (self_mem_nodes _) with
      | read hty hreadable =>
          have hplace : target.isLocation := h.grammar.isFormed
          exact h.runs_read hP hc hF (by simp [exprs]) hplace hty
            (isValue_of_isReadable hP.complete.typed hplace hty hreadable)
  | write value =>
      cases h.typed _ (self_mem_nodes _) with
      | write hty hwritable =>
          obtain ⟨ty, hty, hvalue⟩ := hasValue_of_isWritable hP.complete.typed hty hwritable
          rw [script, List.append_assoc]
          refine (Runs.inert (c.isInert_note _)).append fun x hx => ?_
          exact (h.pushes hP hc hF hsurrounds.calls (by simp [exprs]) hty hvalue).pop rfl hx
            fun z hz _ => hz.leads_syscall _
  | ifThen cond body ih =>
      cases h.typed _ (self_mem_nodes _) with
      | ifThen hty =>
          have hc := hc.minted 1
          have hcond := h.pushes hP hc hF hsurrounds.calls (by simp [exprs]) hty rfl
          have hbody := runs_body (fun inner hinner _ hc =>
            ih inner hinner (h.inside (by simp [bodies]) hinner) hsurrounds hc) (hc.after
              ((c.minted 1).branchIfFalse cond (Context.synthetic c.labels)))
          have hcode := (Runs.ifThen (Context.synthetic c.labels) hcond hbody).minted c "IF STMT" 1
          simpa [script, Context.branchIfFalse] using hcode
  | ifElse cond thenBody elseBody ihthen ihelse =>
      cases h.typed _ (self_mem_nodes _) with
      | ifElse hty =>
          have hc := hc.minted 2
          have hcond := h.pushes hP hc hF hsurrounds.calls (by simp [exprs]) hty rfl
          have hthen := runs_body (fun inner hinner _ hc =>
            ihthen inner hinner (h.inside (by simp [bodies]) hinner) hsurrounds hc) (hc.after
              ((c.minted 2).branchIfFalse cond (Context.synthetic c.labels)))
          have helse := runs_body (fun inner hinner _ hc =>
            ihelse inner hinner (h.inside (by simp [bodies]) hinner) hsurrounds hc) ((hc.after
              ((c.minted 2).branchIfFalse cond (Context.synthetic c.labels))).after
                (thenBody.script ((c.minted 2).after
                  ((c.minted 2).branchIfFalse cond (Context.synthetic c.labels))) exit))
          have hcode := (Runs.ifElse (Context.synthetic c.labels)
            (Context.synthetic (c.labels + 1)) hcond hthen helse).minted c "IF ELSE STMT" 2
          simpa [script, Context.branchIfFalse] using hcode
  | whileLoop cond body ih =>
      cases h.typed _ (self_mem_nodes _) with
      | whileLoop hty =>
          have hc := hc.minted 2
          have hcond := fun m (hm : m ≤ n) =>
            h.pushes hP hc hF (hsurrounds.mono hm).calls (by simp [exprs]) hty rfl
          have hbody := fun m (hm : m ≤ n) => runs_body (fun inner hinner _ hc =>
            ih inner hinner (h.inside (by simp [bodies]) hinner) (hsurrounds.mono hm) hc) (hc.after
              ((c.minted 2).branchIfFalse cond (Context.synthetic (c.labels + 1))))
          have hcode := (Runs.whileLoop (Context.synthetic c.labels)
            (Context.synthetic (c.labels + 1)) hcond hbody).minted c "WHILE STMT" 2
          simpa [script, Context.branchIfFalse] using hcode
  | repeatLoop count body ih =>
      cases h.typed _ (self_mem_nodes _) with
      | repeatLoop hty =>
          have hc := hc.minted 2
          have hcount := h.pushes hP hc hF hsurrounds.calls (by simp [exprs]) hty rfl
          have hbody := fun m (hm : m ≤ n) => runs_body (fun inner hinner _ hc =>
            ih inner hinner (h.inside (by simp [bodies]) hinner) (hsurrounds.mono hm) hc) (hc.after
              (count.script (c.minted 2)))
          have hloop : P.Runs F n _ := fun x hx => (hcount x hx).seq fun y hy =>
            Yields.leads_countdown (Context.synthetic c.labels) (Context.synthetic (c.labels + 1))
              hF hx hbody ⟨hy.stays, hy.sp, trivial, hy.keeps⟩
          simpa [script] using hloop.minted c "REPEAT STMT" 2
  | call callee args =>
      cases h.typed _ (self_mem_nodes _) with
      | call hty => exact h.runs_call hP hc hF hsurrounds.calls (by simp [exprs]) hty
  | ret value? pos =>
      cases h.typed _ (self_mem_nodes _) with
      | ret _ =>
          simp only [script, List.nil_append, List.append_assoc]
          exact (Runs.inert (c.isInert_note _)).append fun x hx => hx.leaves.leads hsurrounds.exit
      | retValue hty hvoid =>
          have hvalue := Ty.isValue_of_isReturnable F.fn.returnType.isReturnable_toTy hvoid
          simp only [script, List.append_assoc]
          refine (Runs.inert (c.isInert_note _)).append fun x hx => ?_
          refine (h.pushes hP hc hF hsurrounds.calls (by simp [exprs]) hty hvalue x hx).seq
            fun y hy => ?_
          exact (hy.leads_return hx).cons fun z hz => hz.leads hsurrounds.exit

end Stmt

end StackMips
