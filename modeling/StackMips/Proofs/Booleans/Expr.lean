import StackMips.Proofs.Booleans.Layout
import StackMips.Proofs.Simulation.Expr

/-!
# Booleans of expressions

The code of an expression of type `bool` pushes 0 or 1.  A call is safe because its arguments have
the types of the formals, and because the function that it leads to is safe for fewer steps.
-/

namespace StackMips

open Mips

namespace Process

variable (P : Process) (F : Frame)

/-! ## Calls -/

/-- The function has been called, and its label is next. -/
structure Enters (x : Config) : Prop where
  pc : P.image.target (P.resolved.context.functionLabel F.fn.id.name) = some x.state.pc
  active : x.active = F.active false
  sp : x.state.reg .sp = F.top.below F.fn.formals.length
  ra : x.state.reg .ra = F.back
  fp : x.state.reg .fp = F.link
  above : ∀ a : Word, F.top.toNat < a.toNat → x.state.mem a = F.before a
  flags : ∀ a ∈ P.flags x.active, (x.state.mem a).IsFlag

structure Returns (x : Config) : Prop where
  pc : P.image.lineAt F.back = some x.state.pc
  active : x.active = F.outer
  sp : x.state.reg .sp = F.top
  fp : x.state.reg .fp = F.link
  above : ∀ a : Word, F.top.toNat < a.toNat → x.state.mem a = F.before a
  flags : ∀ a ∈ P.flags x.active, (x.state.mem a).IsFlag
  result : F.fn.signature.returnType.Fits (x.state.reg .v0)

/-- Calls are safe for a number of steps, provided that what follows them is.  The program ends with
its entry point, so nothing follows that. -/
def Callable (n : Nat) : Prop :=
  ∀ F : Frame, F.fn ∈ P.resolved.program.functions → P.Holds F →
    (P.resolved.context.isEntryPoint F.fn.id.name = false → ∀ y, P.Returns F y → P.Safe n y) →
    ∀ x, P.Enters F x → P.Safe n x

/-- Arguments of these types have been pushed. -/
structure Passes (tys : List Ty) (x y : Config) : Prop where
  stays : P.Stays F y
  sp : (y.state.reg .sp).toNat + 4 * tys.length = (x.state.reg .sp).toNat
  args : ∀ (i : Nat) (ty : Ty), tys[i]? = some ty →
    ty.Fits (y.state.mem ((x.state.reg .sp).below i))
  keeps : Keeps F x y

variable {P F} {x y z : Config} {n : Nat} {tys : List Ty}

theorem Stays.passes (h : P.Stays F x) : P.Passes F [] x x where
  stays := h
  sp := rfl
  args i ty hi := by cases hi
  keeps _ _ _ := rfl

theorem Passes.eq_below (h : P.Passes F tys x y) :
    y.state.reg .sp = (x.state.reg .sp).below tys.length := by
  have hsp := h.sp
  apply BitVec.eq_of_toNat_eq
  rw [Word.toNat_below (by omega)]
  omega

theorem Passes.push (h : P.Passes F tys x y) (hx : P.Stays F x) {ty : Ty}
    (hyields : P.Yields F ty.Fits y z) : P.Passes F (tys ++ [ty]) x z where
  stays := hyields.stays
  sp := by
    have hsp := h.sp
    have hpushed := hyields.toNat_sp h.stays
    rw [List.length_append, List.length_singleton]
    omega
  args i ty' hi := by
    have hsp := h.sp
    have hbelow := hx.below
    by_cases hlt : i < tys.length
    · rw [List.getElem?_append_left hlt] at hi
      have hvalue := Word.toNat_below (show 4 * i ≤ (x.state.reg .sp).toNat by omega)
      rw [hyields.keeps _ (by omega) (by omega)]
      exact h.args i ty' hi
    · have hlast : i = tys.length := by
        have := (List.getElem?_eq_some_iff.mp hi).1
        rw [List.length_append, List.length_singleton] at this
        omega
      subst hlast
      obtain rfl : ty = ty' := by simpa using hi
      rw [← h.eq_below]
      exact hyields.word
  keeps a ha hle := by
    have hsp := h.sp
    rw [hyields.keeps a (by omega) hle, h.keeps a ha hle]

def callee (P : Process) (F : Frame) (fn : FnDecl) (x y : Config) : Frame where
  fn
  top := x.state.reg .sp
  outer := y.active
  back := P.image.returnAddress (y.state.pc + 1)
  link := F.top
  before := y.state.mem

section Call

variable {fn : FnDecl} (h : P.Passes F fn.signature.paramTypes x y)
include h

theorem Passes.activation_eq : fn.activation y.state = ⟨fn, x.state.reg .sp, false⟩ := by
  have hlength : fn.signature.paramTypes.length = fn.formals.length := List.length_map _
  have hsp := h.eq_below
  rw [hlength] at hsp
  simp only [FnDecl.activation, hsp, Word.below, BitVec.sub_add_cancel]

variable (hF : P.Holds F) (hx : P.Stays F x)
include hF hx

/-- The frame of the caller is as it was before the arguments were pushed. -/
theorem Passes.rests (hz : P.Returns (P.callee F fn x y) z) : P.Rests F x z := by
  have hbelow := hx.below
  have hroom := hF.room
  have hsize : F.fn.formals.length + 2 ≤ F.fn.frameSize := Nat.le_add_right _ _
  have habove : ∀ a : Word, (x.state.reg .sp).toNat < a.toNat → z.state.mem a = y.state.mem a :=
    hz.above
  have hsaved : ∀ k < F.fn.frameSize,
      z.state.mem (F.top.below k) = y.state.mem (F.top.below k) := by
    intro k hk
    apply habove
    rw [Word.toNat_below (by omega)]
    omega
  have hintact : F.Intact z.state :=
    { fp := hz.fp
      back := by rw [hsaved _ (by omega), h.stays.intact.back]
      link := by rw [hsaved _ (by omega), h.stays.intact.link]
      above := fun a ha => by rw [habove a (by omega), h.stays.intact.above a ha] }
  refine ⟨⟨hz.active.trans h.stays.active, hintact, ?_, ?_, hz.flags⟩, hz.sp, ?_⟩
  · rw [hz.sp]
    exact hx.below
  · rw [hz.sp]
    exact hx.room
  · intro a ha hle
    rw [habove a ha, h.keeps a ha hle]

/-- A function that is called with arguments of the right types. -/
theorem Passes.leads_jal (hP : P.Valid) (hcalls : ∀ m < n, P.Callable m)
    (hfn : fn ∈ P.resolved.program.functions) :
    P.Leads n [Action.op (.jal (P.resolved.context.functionLabel fn.id.name))] y
      fun z => P.Rests F x z ∧ fn.signature.returnType.Fits (z.state.reg .v0) := by
  intro hat hbehind
  have hline := (Image.at_cons.mp hat).1
  refine safe_of_line hline ⟨h.stays.flags, ?_⟩ fun m hm t ht hpermitted _ => ?_
  · rw [Image.operation?, hline]
    simp [Line.operation?, Line.instr?, Operation.tested?]
  obtain ⟨pc, htarget, rfl⟩ := Option.map_eq_some_iff.mp ht
  obtain ⟨hroom, hlocals⟩ := hpermitted _ rfl fn (hP.callee fn hfn)
  rw [h.activation_eq] at hroom hlocals
  have hactive :
      ((Line.operation? (.op ⟨.jal (P.resolved.context.functionLabel fn.id.name), none⟩)).map
        (P.track y)).getD y.active = (P.callee F fn x y).active false := by
    simp [Line.operation?, Line.instr?, track, hP.callee fn hfn, h.activation_eq, Frame.active,
      callee]
  -- The variables of all who wait lie above the arguments.
  have houter : ∀ a ∈ y.active.flatMap (Activation.flags P.symbols),
      (x.state.reg .sp).toNat < a.toNat := by
    have hbelow := hx.below
    rw [h.stays.active, Frame.active, List.flatMap_cons]
    intro a ha
    rcases List.mem_append.mp ha with hown | houter
    · have := hF.own a hown
      omega
    · have := hF.outer a houter
      omega
  rw [hactive]
  refine hcalls m hm (P.callee F fn x y) hfn (hP.holds hfn hroom houter) (fun _ z hz => ?_) _ ?_
  · have hpc : z.state.pc = y.state.pc + 1 :=
      Option.some.inj (hz.pc.symm.trans (P.image.lineAt_returnAddress hline))
    exact (hbehind z hpc ⟨h.rests hF hx hz, hz.result⟩).mono hm.le
  · have hsp := h.eq_below
    rw [show fn.signature.paramTypes.length = fn.formals.length from List.length_map _] at hsp
    refine ⟨htarget, rfl, hsp, by simp [callee], h.stays.intact.fp, fun _ _ => rfl, ?_⟩
    intro a ha
    have hflags := h.stays.flags a
    rw [flags_active, List.mem_append] at hflags
    rw [flags_active, Frame.active, List.flatMap_cons, List.mem_append, List.mem_append] at ha
    rcases ha with hglobal | hown | hwaiting
    · exact hflags (.inl hglobal)
    · exact hP.flags_of_call hfn h.args hlocals false a hown
    · exact hflags (.inr hwaiting)

end Call

/-! ## Leaves -/

/-- What a node of an expression refers to: a variable that has a place, or a function. -/
def Knows (P : Process) (F : Frame) : Expr → Prop
  | .name id => ∀ ty, P.symbols.ty? id = some ty → ty.isStorable →
    ∃ location, P.symbols.location? id = some location ∧
      P.Variable F ty (P.image.locate F.top location)
  | .call callee _ => ∃ fn ∈ P.resolved.program.functions, callee.name = fn.id.name ∧
    P.symbols.info? callee = some fn.signature
  | _ => True

section Leaves

variable {c : Context} {location : Location} {id : Ident}

theorem Variable.fits {ty : Ty} {a : Word} (h : P.Variable F ty a) (hx : P.Stays F x) :
    ty.Fits (x.state.mem a) := by
  intro hbool
  apply hx.flags
  rw [hx.active]
  exact h.flag.mp hbool

variable (hF : P.Holds F) (hx : P.Stays F x)
include hF hx

theorem leads_constant {value : Int} {property : Word → Prop} (h : property (.ofInt 32 value)) :
    P.Leads n (c.constant value) x (P.Yields F property x) := by
  refine ((Rests.refl hx).leads_set_push hF rfl rfl fun t ht => ?_).mono fun _ hz => hz.1
  cases ht
  exact ⟨_, h, rfl⟩

theorem leads_load (hlocation : c.symbols.location? id = some location) {ty : Ty}
    (h : P.Variable F ty (P.image.locate F.top location)) :
    P.Leads n (c.load id) x fun z =>
      P.Yields F ty.Fits x z ∧ ∀ r, r ≠ .t0 → r ≠ .sp → z.state.reg r = x.state.reg r := by
  have hfp := hx.intact.fp
  rw [Context.load, hlocation]
  cases location with
  | frame offset =>
      refine (Rests.refl hx).leads_set_push hF rfl rfl fun t ht => ?_
      obtain rfl := Image.eq_of_lw ht
      refine ⟨_, ?_, rfl⟩
      rw [Image.address, hfp]
      exact h.fits hx
  | global label =>
      refine (Rests.refl hx).leads_set_push hF rfl rfl fun t ht => ?_
      obtain rfl := Image.eq_of_lw ht
      exact ⟨_, h.fits hx, rfl⟩

theorem leads_loadAddress (hlocation : c.symbols.location? id = some location) :
    P.Leads n (c.loadAddress id) x fun z =>
      P.Yields F (· = P.image.locate F.top location) x z ∧
        ∀ r, r ≠ .t0 → r ≠ .sp → z.state.reg r = x.state.reg r := by
  have hfp := hx.intact.fp
  rw [Context.loadAddress, hlocation]
  cases location with
  | frame offset =>
      refine (Rests.refl hx).leads_set_push hF rfl rfl fun t ht => ?_
      cases ht
      exact ⟨_, by rw [Image.address, hfp]; rfl, rfl⟩
  | global label =>
      refine (Rests.refl hx).leads_set_push hF rfl rfl fun t ht => ?_
      cases ht
      exact ⟨_, rfl, rfl⟩

end Leaves

/-! ## Operators -/

section Operators

variable {c : Context} {left right operand : Script}

theorem Rests.leads_label_push (hF : P.Holds F) {register : Register} {property : Word → Prop}
    (h : P.Rests F x y) (hword : property (y.state.reg register)) (label : Label) :
    P.Leads n ([Action.emit (.label label none)] ++ [Action.push register]) y
      (P.Yields F property x) := by
  refine .seq (.inert h.stays.flags (by simp [Action.isInert]) rfl) ?_
  rintro _ rfl
  exact ((h.past _).push hF hword).mono fun _ hz => hz.1

variable (hF : P.Holds F)
include hF

theorem Pushes.neg {property : Word → Prop} (h : P.Pushes F n operand property) :
    P.Pushes F n (operand ++ [Action.pop .t0, Action.op (UnaryOp.operation .neg), Action.push .t0])
      Ty.int.Fits := by
  intro x hx
  refine h.pop rfl hx fun z hz _ => ?_
  refine (hz.leads_set_push hF rfl rfl fun t ht => ?_).mono fun _ hw => hw.1
  simp only [UnaryOp.operation, Image.exec, Option.ite_none_left_eq_some, Option.some.injEq] at ht
  obtain ⟨_, rfl⟩ := ht
  exact ⟨_, Ty.fits_of_ne (by simp) _, rfl⟩

/-- The operand of a negation is tested. -/
theorem Pushes.not (h : P.Pushes F n operand Ty.bool.Fits) :
    P.Pushes F n (operand ++ [Action.pop .t0, Action.op (UnaryOp.operation .not), Action.push .t0])
      Ty.bool.Fits := by
  intro x hx
  refine h.pop rfl hx fun z hz hword => ?_
  have hset : P.Leads n [Action.op (UnaryOp.operation .not)] z fun w =>
      P.Rests F x w ∧ (w.state.reg .t0).IsFlag := by
    refine .op hz.stays.flags ?_ fun t ht _ _ => ?_
    · simpa [UnaryOp.operation, Operation.tested?] using hword rfl
    · cases ht
      have hflag : (Word.flag (z.state.reg .t0 == z.state.source (.imm 0))).IsFlag :=
        Word.flag_eq _
      exact ⟨rfl, hz.set (by decide) (by decide) _, by simpa using hflag⟩
  exact hset.cons fun w hw => (hw.1.push hF fun _ => hw.2).mono fun _ hv => hv.1

/-- Both operands are popped and combined. -/
theorem Pushes.strict {alu : AluOp} {property property' property'' : Word → Prop}
    (hleft : P.Pushes F n left property) (hright : P.Pushes F n right property')
    (heval : ∀ a b word, alu.eval a b = some word → property'' word) :
    P.Pushes F n (left ++ (right ++
      [Action.pop .t1, .pop .t0, .op (.alu alu .t0 .t0 (.reg .t1)), .push .t0])) property'' := by
  intro x hx
  refine (hleft x hx).seq fun y hy => hright.pop rfl hy.stays fun z hz _ => ?_
  refine ((hy.rests hx hz).leads_pop hx rfl).cons fun w hw => ?_
  have hquiet : (Operation.alu alu .t0 .t0 (.reg .t1)).isQuiet := by
    cases alu <;> rfl
  refine (hw.rests.leads_set_push hF hquiet rfl fun t ht => ?_).mono fun _ hv => hv.1
  obtain ⟨word, hword, rfl⟩ := Image.exists_of_alu ht
  exact ⟨word, heval _ _ _ hword, rfl⟩

/-- The value of an assignment is stored and pushed again. -/
theorem Pushes.assign {value : Script} {ty : Ty} {id : Ident} {location : Location}
    (hvalue : P.Pushes F n value ty.Fits) (hlocation : c.symbols.location? id = some location)
    (hvariable : P.Variable F ty (P.image.locate F.top location)) :
    P.Pushes F n (value ++ (c.loadAddress id ++
      [Action.pop .t0, .pop .t1, .op (.sw .t1 (.indexed 0 .t0)), .push .t1])) ty.Fits := by
  intro x hx
  refine (hvalue x hx).seq fun y hy => ?_
  refine (leads_loadAddress hF hy.stays hlocation).seq fun z hz => ?_
  refine (hz.1.leads_pop hy.stays rfl).cons fun w hw => ?_
  refine ((hy.rests hx hw.rests).leads_pop hx rfl).cons fun v hv => ?_
  have haddress : v.state.reg .t0 = P.image.locate F.top location :=
    (hv.others .t0 (by decide) (by decide)).trans hw.word
  have hstore : P.Leads n [Action.op (.sw .t1 (.indexed 0 .t0))] v fun u =>
      P.Rests F x u ∧ ty.Fits (u.state.reg .t1) := by
    refine .quiet hv.rests.stays.flags rfl fun t ht _ _ => ?_
    obtain rfl := Image.eq_of_sw ht
    refine ⟨rfl, ?_, hv.word⟩
    simpa [Image.address, haddress] using hv.rests.assign hvariable hv.word
  exact hstore.cons fun u hu => (hu.1.push hF hu.2).mono fun _ hr => hr.1

/-- The left operand is tested, and the right one may be skipped. -/
theorem Pushes.skipping (decisive : Int) (done : Label)
    (hleft : P.Pushes F n left Ty.bool.Fits) (hright : P.Pushes F n right Ty.bool.Fits) :
    P.Pushes F n (left ++ Action.pop .t0 :: ([Action.op (.beq .t0 decisive done)] ++
      (right ++ [Action.pop .t0]) ++ ([Action.emit (.label done none)] ++ [Action.push .t0])))
      Ty.bool.Fits := by
  intro x hx
  refine hleft.pop rfl hx fun z hz hword => ?_
  refine .branch hz.stays.flags rfl ?_ (fun t ht => Image.cases_of_branch ht) ?_ fun pc => ?_
  · simpa [Operation.tested?] using hword rfl
  · have hnext : P.Rests F x ⟨z.state.next, z.active⟩ := hz.of_eq rfl rfl rfl rfl
    rw [List.append_assoc]
    exact hright.pop rfl hnext.stays fun w hw hword =>
      (hnext.trans hw).leads_label_push hF hword done
  · have hjump : P.Rests F x ⟨z.state.jump pc, z.active⟩ := hz.of_eq rfl rfl rfl rfl
    exact hjump.leads_label_push hF hword done

end Operators

end Process

/-! ## Expressions -/

theorem BinaryOp.fits_of_eval {symbols : Arena} {op : BinaryOp} {left right : Expr} {ty : Ty}
    (h : (Expr.binary op left right).HasType symbols ty) {alu : AluOp} {text : String}
    (hcode : op.code = .strict alu text) {a b word : Word} (heval : alu.eval a b = some word) :
    ty.Fits word := by
  have hflag : op.family = .relational ∨ op.family = .equality → word.IsFlag := by
    intro hop
    cases op <;> rcases hop with hop | hop <;> cases hop <;> cases hcode <;> cases heval <;>
      exact Word.flag_eq _
  cases h with
  | arithmetic _ _ _ => exact Ty.fits_of_ne (by simp) word
  | logical hop _ _ => cases op <;> cases hop <;> cases hcode
  | relational hop _ _ => exact fun _ => hflag (.inl hop)
  | equality hop _ _ _ => exact fun _ => hflag (.inr hop)

theorem BinaryOp.operands_of_skipping {symbols : Arena} {op : BinaryOp} {left right : Expr}
    {ty : Ty} (h : (Expr.binary op left right).HasType symbols ty) {decisive : Int} {text : String}
    (hcode : op.code = .skipping decisive text) :
    ty = .bool ∧ left.HasType symbols .bool ∧ right.HasType symbols .bool := by
  cases h with
  | logical _ hleft hright => exact ⟨rfl, hleft, hright⟩
  | arithmetic hop _ _ | relational hop _ _ | equality hop _ _ _ =>
      cases op <;> cases hop <;> cases hcode

namespace Expr

open Process

variable {P : Process} {F : Frame} {n : Nat} {x : Config} {c : Context}

theorem location_of_knows (hP : P.Valid) {id : Ident} {ty : Ty}
    (h : (name id).HasType P.symbols ty) (hvalue : ty.isValue) (hknows : P.Knows F (.name id)) :
    ∃ location, P.symbols.location? id = some location ∧
      P.Variable F ty (P.image.locate F.top location) := by
  cases h with
  | name hid =>
      have hstring := (hP.complete.of_ty? hid).2.2
      exact hknows ty hid (by simpa [Ty.isValue, hstring] using hvalue)

theorem leads_scriptAll {args : List Expr} {tys passed : List Ty} (hx : P.Stays F x)
    (hargs : List.Forall₂ (fun arg ty => ∀ c : Context, c.Like P.resolved.context →
      P.Pushes F n (arg.script c) ty.Fits) args tys) (hc : c.Like P.resolved.context)
    {y : Config} (hy : P.Passes F passed x y) :
    P.Leads n (Expr.scriptAll c args) y (P.Passes F (passed ++ tys) x) := by
  induction hargs generalizing c passed y with
  | nil => exact .nil (by simpa using hy)
  | cons harg _ ih =>
      refine (harg c hc y hy.stays).seq fun z hz => ?_
      simpa using ih (hc.after _) (hy.push hx hz)

section Code

variable (hP : P.Valid) (hF : P.Holds F) (hcalls : ∀ m < n, P.Callable m)
include hP hF hcalls

/-- A call leaves what it returns in `$v0`. -/
theorem leads_call {callee : Ident} {args : List Expr} {ty : Ty}
    (h : (call callee args).HasType P.symbols ty) (hknows : P.Knows F (.call callee args))
    (hargs : ∀ arg ∈ args, ∀ ty, arg.HasType P.symbols ty → ty.isValue → ∀ c : Context,
      c.Like P.resolved.context → P.Pushes F n (arg.script c) ty.Fits)
    (hc : c.Like P.resolved.context) (hx : P.Stays F x) :
    P.Leads n (c.note "FUNCTION CALL" ++ (Expr.scriptAll c args ++
      [Action.op (.jal (c.functionLabel callee.name)), .release args.length])) x
      fun z => P.Rests F x z ∧ ty.Fits (z.state.reg .v0) := by
  obtain ⟨fn, hfn, hname, hinfo⟩ := hknows
  cases h with
  | call hcallee _ hforall =>
      obtain rfl := Option.some.inj (hinfo.symm.trans hcallee)
      have hstorable := (hP.complete.info hcallee).storable
      have hpushes : List.Forall₂ (fun arg ty => ∀ c : Context, c.Like P.resolved.context →
          P.Pushes F n (arg.script c) ty.Fits) args fn.signature.paramTypes := by
        rw [List.forall₂_iff_get] at hforall ⊢
        refine ⟨hforall.1, fun i hi hi' => ?_⟩
        exact hargs _ (List.get_mem _ _) _ (hforall.2 i hi hi')
          (Ty.isValue_of_isStorable (hstorable _ (List.get_mem _ _)))
      refine (Runs.inert (c.isInert_note _) x hx).seq fun y hy => ?_
      refine (leads_scriptAll hy.stays hpushes hc hy.stays.passes).seq fun z hz => ?_
      rw [hc.functionLabel, hname]
      refine (hz.leads_jal hF hy.stays hP hcalls hfn).cons fun w hw => ?_
      refine .inert hw.1.stays.flags (by simp [Action.isInert]) ?_
      exact ⟨hy.trans (hw.1.past _), hw.2⟩

/-- The code of an expression pushes a word of its type. -/
theorem pushes {e : Expr} {ty : Ty} (h : e.HasType P.symbols ty) (hvalue : ty.isValue)
    (hgrammar : e.InGrammar) (hblocked : e.blocked = []) (hknows : ∀ node ∈ e.nodes, P.Knows F node)
    (hc : c.Like P.resolved.context) : P.Pushes F n (e.script c) ty.Fits := by
  induction e using Expr.induction generalizing ty c with
  | int value pos =>
      cases h with
      | int => exact fun x hx => leads_constant hF hx (Ty.fits_of_ne (by simp) _)
  | bool value pos =>
      refine fun x hx => leads_constant hF hx fun _ => ?_
      cases value
      · exact .inl rfl
      · exact .inr rfl
  | str text pos =>
      cases h with
      | str =>
          refine (Runs.inert (c.isInert_pooling text)).pushes fun x hx => ?_
          refine ((Rests.refl hx).leads_set_push hF rfl rfl fun t ht => ?_).mono fun _ hz => hz.1
          cases ht
          exact ⟨_, Ty.fits_of_ne (by simp) _, rfl⟩
  | name id =>
      obtain ⟨location, hlocation, hvariable⟩ :=
        location_of_knows hP h hvalue (hknows _ (self_mem_nodes _))
      rw [symbols, ← hc.symbols] at hlocation
      exact fun x hx => (leads_load hF hx hlocation hvariable).mono fun _ hz => hz.1
  | field base id _ => cases hblocked
  | assign target value _ ih =>
      obtain ⟨hvalueBlocked, htargetBlocked⟩ := List.append_eq_nil_iff.mp hblocked
      obtain ⟨hplace, _, hvalueGrammar⟩ := hgrammar.assign
      obtain ⟨id, rfl⟩ := eq_name_of_blockedTarget hplace htargetBlocked
      cases h with
      | assign htarget hsource _ =>
          obtain ⟨location, hlocation, hvariable⟩ :=
            location_of_knows hP htarget hvalue (hknows _ (by simp [nodes]))
          rw [symbols, ← hc.symbols] at hlocation
          have hpushed := ih hsource hvalue hvalueGrammar hvalueBlocked
            (fun node hnode => hknows node (by simp [nodes, hnode])) hc
          simp only [script, List.append_assoc]
          exact (Runs.inert (c.isInert_note _)).pushes (hpushed.assign hF hlocation hvariable)
  | call callee args ih =>
      rw [blocked, blockedAll_eq_flatMap, List.flatMap_eq_nil_iff] at hblocked
      intro x hx
      have hcall := leads_call hP hF hcalls h (hknows _ (self_mem_nodes _))
        (fun arg harg ty hty hvalue c hc => ih arg harg hty hvalue (hgrammar.call arg harg)
          (hblocked arg harg) (fun node hnode => hknows node (nodes_subset_call harg hnode)) hc)
        hc hx
      have hpush := hcall.seq fun z hz => (hz.1.push hF hz.2).mono fun _ hw => hw.1
      simpa [script, yields_eq hc.symbols h, Ty.isVoid_of_isValue hvalue] using hpush
  | unary op operand ih =>
      have hoperand := fun {ty : Ty} (h : operand.HasType P.symbols ty) (hvalue : ty.isValue) =>
        ih h hvalue hgrammar.unary hblocked
          (fun node hnode => hknows node (by simp [nodes, hnode])) hc
      rw [script, List.append_assoc]
      refine (Runs.inert (c.isInert_note _)).pushes ?_
      cases h with
      | neg h => exact (hoperand h rfl).neg hF
      | not h => exact (hoperand h rfl).not hF
  | binary op left right ihleft ihright =>
      obtain ⟨hleftBlocked, hrightBlocked⟩ := List.append_eq_nil_iff.mp hblocked
      have hleft := fun {ty : Ty} {c : Context} (h : left.HasType P.symbols ty)
          (hvalue : ty.isValue) (hc : c.Like P.resolved.context) =>
        ihleft h hvalue hgrammar.binary.1 hleftBlocked
          (fun node hnode => hknows node (by simp [nodes, hnode])) hc
      have hright := fun {ty : Ty} {c : Context} (h : right.HasType P.symbols ty)
          (hvalue : ty.isValue) (hc : c.Like P.resolved.context) =>
        ihright h hvalue hgrammar.binary.2 hrightBlocked
          (fun node hnode => hknows node (by simp [nodes, hnode])) hc
      rw [script]
      cases hcode : op.code with
      | strict alu text =>
          obtain ⟨⟨_, htyLeft, hvalueLeft⟩, _, htyRight, hvalueRight⟩ :=
            HasValue.binary ⟨ty, h, hvalue⟩
          simp only [List.append_assoc]
          exact (Runs.inert (c.isInert_note _)).pushes ((hleft htyLeft hvalueLeft hc).strict hF
            (hright htyRight hvalueRight (hc.after _))
            fun _ _ _ heval => BinaryOp.fits_of_eval h hcode heval)
      | skipping decisive text =>
          obtain ⟨rfl, htyLeft, htyRight⟩ := BinaryOp.operands_of_skipping h hcode
          have hc := hc.minted 1
          have hhead : ∀ action ∈ [Action.mint] ++ c.note text, action.isInert := by
            simpa [Action.isInert] using c.isInert_note text
          have hpushes : P.Pushes F n _ Ty.bool.Fits := (Runs.inert hhead).pushes
            ((hleft htyLeft rfl hc).skipping hF decisive (Context.synthetic c.labels)
              (hright htyRight rfl (hc.after (left.script (c.minted 1)))))
          simpa using hpushes

end Code

end Expr

end StackMips
