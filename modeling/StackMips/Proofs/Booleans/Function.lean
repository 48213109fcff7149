import StackMips.Proofs.Booleans.Stmt

/-!
# Booleans of functions

The code in front of the body of a function saves two registers in its frame, the code behind it
restores them.  By induction on the number of steps, every call is safe.
-/

namespace StackMips

open Mips

namespace Context

def leaving (c : Context) (name : String) : Script :=
  if c.isEntryPoint name then
    [c.opWith (.li .v0 (Syscall.number .exit)) "load exit code for syscall",
      c.opWith .syscall "only for main exit"]
  else [c.opWith (.jr .ra) "return"]

/-- The lines of an epilogue from the exit label on. -/
def closing (c : Context) (fn : FnDecl) : Script :=
  c.restoring (c.exitLabel fn.id.name) fn.signature ++ c.leaving fn.id.name

/-- The lines of a prologue from the label of the function on. -/
def opening (c : Context) (fn : FnDecl) : Script :=
  [Action.emit (.label (c.functionLabel fn.id.name) none)] ++ c.entering fn.signature

end Context

theorem FnDecl.script_eq (c : Context) (fn : FnDecl) :
    fn.script c = (c.exiting fn.id.name ++ c.heading fn.id.name) ++
      (c.opening fn ++ (fn.bodyScript c ++ (c.note "FUNCTION EXIT" ++ c.closing fn))) := by
  simp [script, Context.prologue_eq, Context.epilogue, Context.opening, Context.closing,
    Context.restoring, Context.leaving]

namespace Process

variable {P : Process} {F : Frame} {n : Nat} {x : Config} {c : Context}

/-! ## Entering -/

/-- No boolean variable lies where the registers are saved. -/
theorem Valid.saved_not_mem (h : P.Valid) (hfn : F.fn ∈ P.resolved.program.functions)
    (hF : P.Holds F) {k : Nat} (hk : k = F.fn.formals.length ∨ k = F.fn.formals.length + 1)
    (answered : Bool) : F.top.below k ∉ P.flags (F.active answered) := by
  obtain ⟨index, hframed⟩ := h.framed F.fn hfn
  have hroom := hF.room
  have hsize : F.fn.formals.length + 2 ≤ F.fn.frameSize := Nat.le_add_right _ _
  have hvalue := Word.toNat_below (show 4 * k ≤ F.top.toNat by omega)
  rw [flags_active, Frame.active, List.flatMap_cons, List.mem_append, List.mem_append]
  rintro (hglobal | hown | houter)
  · have := hF.globals _ hglobal
    omega
  · obtain ⟨_, _, _, position, hposition, _, heq⟩ := hframed.mem_flags.mp hown
    have hlt := F.fn.slot_lt hposition
    have hne := F.fn.slot_ne_formals position
    exact Word.below_ne (by omega) (by omega) (by omega) heq
  · have := hF.outer _ houter
    omega

/-- The frame has been set up: two registers have been saved in it. -/
theorem Enters.stays (hP : P.Valid) (hfn : F.fn ∈ P.resolved.program.functions) (hF : P.Holds F)
    (h : P.Enters F x) {t : State} (hfp : t.reg .fp = F.top)
    (hsp : t.reg .sp = F.top.below F.fn.frameSize)
    (hmem : t.mem = Function.update (Function.update x.state.mem
      (F.top.below F.fn.formals.length) (x.state.reg .ra))
      (F.top.below (F.fn.formals.length + 1)) (x.state.reg .fp)) :
    P.Stays F ⟨t, x.active⟩ := by
  have hroom := hF.room
  have hsize : F.fn.formals.length + 2 ≤ F.fn.frameSize := Nat.le_add_right _ _
  have hvalue := Word.toNat_below (show 4 * F.fn.frameSize ≤ F.top.toNat by omega)
  have hother : ∀ a, a ≠ F.top.below F.fn.formals.length →
      a ≠ F.top.below (F.fn.formals.length + 1) → t.mem a = x.state.mem a := by
    intro a hback hlink
    rw [hmem, Function.update_of_ne hlink, Function.update_of_ne hback]
  have hne : F.top.below F.fn.formals.length ≠ F.top.below (F.fn.formals.length + 1) :=
    Word.below_ne (by omega) (by omega) (by omega)
  have hintact : F.Intact t :=
    { fp := hfp
      back := by rw [hmem, Function.update_of_ne hne, Function.update_self, h.ra]
      link := by rw [hmem, Function.update_self, h.fp]
      above := by
        intro a ha
        have hbelow : ∀ k ≤ F.fn.frameSize, a ≠ F.top.below k := by
          rintro k hk rfl
          rw [Word.toNat_below (by omega)] at ha
          omega
        rw [hother a (hbelow _ (by omega)) (hbelow _ (by omega)), h.above a ha] }
  have hbelow : (t.reg .sp).toNat + 4 * F.fn.frameSize ≤ F.top.toNat := by
    rw [hsp]
    omega
  have habove : P.floor + 4 ≤ (t.reg .sp).toNat := by
    rw [hsp]
    omega
  refine ⟨h.active, hintact, hbelow, habove, fun a ha => ?_⟩
  have hsaved : ∀ k, k = F.fn.formals.length ∨ k = F.fn.formals.length + 1 →
      a ≠ F.top.below k := by
    rintro k hk rfl
    rw [h.active] at ha
    exact hP.saved_not_mem hfn hF hk false ha
  rw [hother a (hsaved _ (.inl rfl)) (hsaved _ (.inr rfl))]
  exact h.flags a ha

section Lines

variable {post : Config → Prop} {register : Register}
  (hflags : ∀ a ∈ P.flags x.active, (x.state.mem a).IsFlag)
include hflags

theorem Leads.set {operation : Operation} {comment : Option String} {word : Word}
    (hquiet : operation.isQuiet)
    (hexec : ∀ t, P.image.exec x.state operation = some t → t = (x.state.set register word).next)
    (h : post ⟨(x.state.set register word).next, x.active⟩) :
    P.Leads n [.emit (.op ⟨operation, comment⟩)] x post := by
  refine .quiet hflags hquiet fun t ht _ _ => ?_
  obtain rfl := hexec t ht
  exact ⟨rfl, h⟩

/-- Saving a register is like pushing it. -/
theorem Leads.storeWord (hapart : x.state.reg .sp ∉ P.flags x.active)
    (h : (∀ a ∈ P.flags x.active, ((x.state.push register).mem a).IsFlag) →
      post ⟨x.state.push register, x.active⟩) :
    P.Leads n (Context.storeWord register) x post := by
  have hpush : P.Leads n [Action.push register] x post := by
    refine .push hflags hapart fun _ => h fun a ha => ?_
    have hne : a ≠ x.state.reg .sp := fun heq => hapart (heq ▸ ha)
    simpa [hne] using hflags a ha
  exact hpush.of_lines rfl

end Lines

/-- The registers of the caller have been saved in the frame. -/
structure Saves (P : Process) (F : Frame) (x y : Config) : Prop where
  active : y.active = x.active
  sp : y.state.reg .sp = F.top.below (F.fn.formals.length + 2)
  mem : y.state.mem = Function.update (Function.update x.state.mem
    (F.top.below F.fn.formals.length) (x.state.reg .ra))
    (F.top.below (F.fn.formals.length + 1)) (x.state.reg .fp)
  flags : ∀ a ∈ P.flags y.active, (y.state.mem a).IsFlag

theorem Enters.leads_saving (hP : P.Valid) (hfn : F.fn ∈ P.resolved.program.functions)
    (hF : P.Holds F) (h : P.Enters F x) (label : Label) :
    P.Leads n ([Action.emit (.label label none)] ++
      (Context.storeWord .ra ++ Context.storeWord .fp)) x (P.Saves F x) := by
  have hsaved : ∀ k, k = F.fn.formals.length ∨ k = F.fn.formals.length + 1 →
      F.top.below k ∉ P.flags x.active := by
    rw [h.active]
    exact fun k hk => hP.saved_not_mem hfn hF hk false
  let entered := x.state.past [Action.emit (.label label none)]
  let first := entered.push .ra
  have hsp : first.reg .sp = F.top.below (F.fn.formals.length + 1) := by
    simp [first, entered, State.past, h.sp, Word.sub_word]
  refine .seq (.inert h.flags (by simp [Action.isInert]) rfl) ?_
  rintro _ rfl
  have hra : P.Leads n (Context.storeWord .ra) ⟨entered, x.active⟩
      fun y => y = ⟨first, x.active⟩ ∧ ∀ a ∈ P.flags x.active, (first.mem a).IsFlag :=
    .storeWord h.flags (h.sp ▸ hsaved _ (.inl rfl)) fun hfirst => ⟨rfl, hfirst⟩
  refine hra.seq ?_
  rintro _ ⟨rfl, hfirst⟩
  refine .storeWord hfirst (hsp ▸ hsaved _ (.inr rfl)) fun hsecond => ⟨rfl, ?_, ?_, hsecond⟩
  · simp [hsp, Word.sub_word]
  · rw [State.mem_push, hsp]
    simp [first, entered, State.past, h.sp]

/-- Behind the prologue the function is running. -/
theorem Enters.leads (hP : P.Valid) (hfn : F.fn ∈ P.resolved.program.functions) (hF : P.Holds F)
    (h : P.Enters F x) (c : Context) :
    P.Leads n (c.opening F.fn) x (P.Stays F) := by
  have hshape : ∀ a b c d e : Script, a ++ (b ++ c ++ d ++ e) = (a ++ (b ++ c)) ++ (d ++ e) := by
    simp
  rw [Context.opening, Context.entering, hshape]
  refine (h.leads_saving hP hfn hF _).seq fun y hy => ?_
  have htop : y.state.reg .sp + y.state.source (.imm (F.fn.signature.paramsSize + linkageSize)) =
      F.top := by
    have hframe :
        F.fn.signature.paramsSize + linkageSize = 4 * (F.fn.formals.length + 2 : Nat) := by
      simp only [FnDecl.signature, wordSize, linkageSize]
      omega
    rw [hy.sp, hframe]
    exact Word.below_add_ofInt _ _
  have hset : P.Leads n [c.opWith (.alu .addu .fp .sp
      (.imm (F.fn.signature.paramsSize + linkageSize))) "set the FP"] y
      (· = ⟨(y.state.set .fp F.top).next, y.active⟩) := by
    refine .set hy.flags rfl (fun t ht => ?_) rfl
    obtain ⟨word, hword, rfl⟩ := Image.exists_of_alu ht
    rw [← Option.some.inj hword, htop]
  refine hset.seq ?_
  rintro _ rfl
  rw [hy.active]
  split
  · refine .quiet (hy.active ▸ hy.flags) rfl fun t ht _ _ => ?_
    obtain ⟨word, hword, rfl⟩ := Image.exists_of_alu ht
    obtain rfl : F.top.below F.fn.frameSize = word := by
      refine Eq.trans ?_ (Option.some.inj hword)
      rw [State.reg_next, State.reg_set, if_neg (by decide), hy.sp]
      exact (Word.below_below _ _ _).symm
    exact ⟨rfl, h.stays hP hfn hF (by simp) (by simp) hy.mem⟩
  · next hnone =>
      have hframe : F.fn.frameSize = F.fn.formals.length + 2 := by
        simp only [FnDecl.signature, wordSize] at hnone
        rw [FnDecl.frameSize]
        omega
      exact .nil (h.stays hP hfn hF (by simp) (by simp [hy.sp, hframe]) hy.mem)

/-! ## Leaving -/

structure Restores (F : Frame) (x y : Config) : Prop where
  active : y.active = x.active
  mem : y.state.mem = x.state.mem
  ra : y.state.reg .ra = F.back
  sp : y.state.reg .sp = F.top
  fp : y.state.reg .fp = F.link
  v0 : y.state.reg .v0 = x.state.reg .v0

theorem Leaves.flags_of_restores {y : Config} (h : P.Leaves F x) (hy : Restores F x y) :
    ∀ a ∈ P.flags y.active, (y.state.mem a).IsFlag := by
  rw [hy.active, hy.mem]
  exact h.flags

/-- The code behind the exit label restores the registers of the caller. -/
theorem Leaves.leads_restoring (h : P.Leaves F x) (c : Context) (exit : Label) :
    P.Leads n (c.restoring exit F.fn.signature) x (Restores F x) := by
  have hsize : F.fn.signature.paramsSize + wordSize = 4 * (F.fn.formals.length + 1 : Nat) := by
    simp only [FnDecl.signature, wordSize]
    omega
  have hback : ∀ s : State, s.reg .fp = F.top →
      P.image.address s (.indexed (-F.fn.signature.paramsSize) .fp) =
        F.top.below F.fn.formals.length := by
    intro s hs
    rw [Image.address, hs]
    exact Word.add_ofInt _ _
  have hlink : ∀ s : State, s.reg .fp = F.top →
      P.image.address s (.indexed (-(F.fn.signature.paramsSize + wordSize)) .fp) =
        F.top.below (F.fn.formals.length + 1) := by
    intro s hs
    rw [Image.address, hs, hsize]
    exact Word.add_ofInt _ _
  let entered := x.state.past [Action.emit (.label exit none)]
  let loaded := (entered.set .ra F.back).next
  let saved := (loaded.set .t0 F.top).next
  let restored := (saved.set .fp F.link).next
  have hlabel : P.Leads n [Action.emit (.label exit none)] x (· = ⟨entered, x.active⟩) :=
    .inert h.flags (by simp [Action.isInert]) rfl
  refine hlabel.cons ?_
  rintro _ rfl
  have hload : P.Leads n [c.opWith (.lw .ra (.indexed (-F.fn.signature.paramsSize) .fp))
      "load return address"] ⟨entered, x.active⟩ (· = ⟨loaded, x.active⟩) := by
    refine Leads.set (x := ⟨entered, x.active⟩) h.flags rfl (fun t ht => ?_) rfl
    rw [Image.eq_of_lw ht, hback entered h.intact.fp]
    exact congrArg (fun word => (entered.set .ra word).next) h.intact.back
  refine hload.cons ?_
  rintro _ rfl
  have hmove : P.Leads n [c.opWith (.move .t0 .fp) "save control link"] ⟨loaded, x.active⟩
      (· = ⟨saved, x.active⟩) := by
    refine Leads.set (x := ⟨loaded, x.active⟩) h.flags rfl (fun t ht => ?_) rfl
    rw [← Option.some.inj ht]
    exact congrArg (fun word => (loaded.set .t0 word).next) h.intact.fp
  refine hmove.cons ?_
  rintro _ rfl
  have hrestore : P.Leads n
      [c.opWith (.lw .fp (.indexed (-(F.fn.signature.paramsSize + wordSize)) .fp)) "restore FP"]
      ⟨saved, x.active⟩ (· = ⟨restored, x.active⟩) := by
    refine Leads.set (x := ⟨saved, x.active⟩) h.flags rfl (fun t ht => ?_) rfl
    rw [Image.eq_of_lw ht, hlink saved h.intact.fp]
    exact congrArg (fun word => (saved.set .fp word).next) h.intact.link
  refine hrestore.cons ?_
  rintro _ rfl
  refine Leads.quiet (x := ⟨restored, x.active⟩) h.flags rfl fun t ht _ _ => ?_
  cases ht
  exact ⟨rfl, rfl, rfl, by simp [restored, saved, loaded], by simp [restored, saved],
    by simp [restored], by simp [restored, saved, loaded, entered, State.past]⟩

/-- The function returns to where it was called. -/
theorem Leaves.leads_jr {y : Config} (h : P.Leaves F x) (hy : Restores F x y)
    (hreturns : ∀ z, P.Returns F z → P.Safe n z) {comment : Option String}
    {post : Config → Prop} :
    P.Leads n [.emit (.op ⟨.jr .ra, comment⟩)] y post := by
  intro hat _
  obtain ⟨answered, hanswered, hvalue⟩ := h.active
  have hflags := h.flags_of_restores hy
  have hactive := hy.active.trans hanswered
  have hline := (Image.at_cons.mp hat).1
  refine safe_of_line hline ⟨hflags, ?_⟩ fun m hm t ht hpermitted _ => ?_
  · rw [Image.operation?, hline]
    simp [Line.operation?, Line.instr?, Operation.tested?]
  obtain ⟨pc, hpc, rfl⟩ := Option.map_eq_some_iff.mp ht
  have houter : ((Line.operation? (.op ⟨.jr .ra, comment⟩)).map (P.track y)).getD y.active =
      F.outer := by
    simp [Line.operation?, Line.instr?, track, hactive, Frame.active]
  rw [houter]
  refine Safe.mono (hreturns _ ⟨?_, rfl, hy.sp, hy.fp, ?_, ?_, ?_⟩) hm.le
  · rw [← hy.ra]
    exact hpc
  · intro a ha
    rw [State.mem_jump, hy.mem, h.intact.above a ha]
  · intro a ha
    apply hflags
    rw [hactive, flags_active, Frame.active, List.flatMap_cons]
    rw [flags_active] at ha
    simp only [List.mem_append] at ha ⊢
    exact ha.imp_right .inr
  · intro hbool
    cases answered with
    | true =>
        rw [State.reg_jump, hy.v0]
        exact hvalue rfl hbool
    | false =>
        exact hpermitted _ rfl ⟨F.fn, F.top, false⟩ (by simp [hactive, Frame.active])
          (TypeName.toTy_eq_bool.mp hbool) rfl

/-- The exit of a function is safe if what it returns to is.  The entry point ends the program. -/
theorem Leaves.safe (h : P.Leaves F x) (hat : P.image.At x.state.pc (c.closing F.fn).lines)
    (hreturns : c.isEntryPoint F.fn.id.name = false → ∀ y, P.Returns F y → P.Safe n y) :
    P.Safe n x := by
  have hleads : P.Leads n (c.closing F.fn) x (fun _ => False) := by
    refine (h.leads_restoring c _).seq fun y hy => ?_
    unfold Context.leaving
    split
    · have hflags := h.flags_of_restores hy
      let ending := (y.state.set .v0 (.ofInt 32 (Syscall.number .exit))).next
      have hset : P.Leads n [c.opWith (.li .v0 (Syscall.number .exit))
          "load exit code for syscall"] y (· = ⟨ending, y.active⟩) :=
        .set hflags rfl (fun t ht => (Option.some.inj ht).symm) rfl
      refine hset.cons ?_
      rintro _ rfl
      refine Leads.quiet (x := ⟨ending, y.active⟩) hflags rfl fun t ht _ _ => ?_
      simp [ending, Image.exec, Image.syscall, Syscall.number] at ht
    · next hentry =>
        exact h.leads_jr hy (hreturns (by simpa using hentry))
  exact hleads hat fun _ _ hfalse => hfalse.elim

/-! ## Calls -/

namespace Hosts

variable {program : Program} {options : Options} {assembly : Assembly}
  (hanalyze : program.analyze { options } = .done P.resolved [])
  (hemits : P.resolved.Emits assembly) (h : P.Hosts assembly)
include hemits h

/-- The lines of a function stand together, and its labels lead to them. -/
theorem exists_code {fn : FnDecl} (hfn : fn ∈ P.resolved.program.functions) :
    ∃ c : Context, c.Like P.resolved.context ∧ ∃ pc pc',
      P.image.target (P.resolved.context.functionLabel fn.id.name) = some pc ∧
      P.image.target (c.exitLabel fn.id.name) = some pc' ∧
      P.image.At pc (Script.lines
        (c.opening fn ++ (fn.bodyScript c ++ (c.note "FUNCTION EXIT" ++ c.closing fn)))) ∧
      P.image.At pc' (c.closing fn).lines := by
  obtain ⟨c, hc, pc, hat⟩ := hemits.exists_at h.lines (Program.mem_functions.mp hfn)
  rw [Decl.script, fn.script_eq, Script.lines_append, Image.at_append] at hat
  obtain ⟨-, hcode⟩ := hat
  have hclosing := hcode
  simp only [Script.lines_append, Image.at_append] at hclosing
  obtain ⟨-, -, -, hclosing⟩ := hclosing
  rw [← hc.functionLabel]
  exact ⟨c, hc, _, _, Image.target_of_line (Image.at_cons.mp hcode).1,
    Image.target_of_line (Image.at_cons.mp hclosing).1, hcode, hclosing⟩

include hanalyze

theorem knows (hfn : F.fn ∈ P.resolved.program.functions) (hF : P.Holds F) {e : Expr}
    (he : e ∈ F.fn.body.allExprs) {node : Expr} (hnode : node ∈ e.nodes) : P.Knows F node := by
  cases node with
  | name id =>
      have hid : id ∈ F.fn.body.uses :=
        List.mem_flatMap.mpr ⟨e, he, List.mem_filterMap.mpr ⟨_, hnode, rfl⟩⟩
      exact fun ty hty => h.variable_of_use hanalyze hemits hfn hF hid hty
  | call callee args =>
      have hcall : (callee, args) ∈ P.resolved.program.calls := List.mem_flatMap.mpr ⟨F.fn, hfn,
        List.mem_flatMap.mpr ⟨e, he, List.mem_filterMap.mpr ⟨_, hnode, rfl⟩⟩⟩
      obtain ⟨fn, hfn, _, _, hname, _, hinfo⟩ := hemits.clean.callee hcall
      exact ⟨fn, hfn, hname, hinfo⟩
  | int _ _ | str _ _ | bool _ _ | field _ _ | assign _ _ | unary _ _ | binary _ _ _ => trivial

/-- The code of the body leads to the exit of the function. -/
theorem runs_body (hfn : F.fn ∈ P.resolved.program.functions) (hF : P.Holds F) {exit : Label}
    (hsurrounds : P.Surrounds F exit n) (hc : c.Like P.resolved.context) :
    P.Runs F n (F.fn.body.script c exit) := by
  refine Stmt.runs_body (fun stmt hstmt c hc => ?_) hc
  have hall : stmt.allExprs ⊆ F.fn.body.allExprs := by
    rw [Block.allExprs_eq]
    exact fun e he => List.mem_flatMap.mpr ⟨stmt, hstmt, he⟩
  have hplaced : stmt.Placed P F P.resolved.Calls P.resolved.Stores :=
    { toAdmissible := hemits.admissible hanalyze hfn hstmt
      knows := fun e he node hnode => h.knows hanalyze hemits hfn hF (hall he) hnode }
  exact Stmt.runs (h.valid hanalyze hemits) hF hplaced hsurrounds hc

/-- Calls are safe for any number of steps. -/
theorem callable (n : Nat) : P.Callable n := by
  induction n using Nat.strong_induction_on with
  | _ n ih =>
      intro F hfn hF hreturns x hx
      obtain ⟨c, hc, pc, pc', hlabel, hexit, hcode, hclosing⟩ := h.exists_code hemits hfn
      obtain rfl := Option.some.inj (hlabel.symm.trans hx.pc)
      have hentry : c.isEntryPoint F.fn.id.name =
          P.resolved.context.isEntryPoint F.fn.id.name := by
        simp [Context.isEntryPoint, hc.options]
      rw [← hentry] at hreturns
      have hsurrounds : P.Surrounds F (c.exitLabel F.fn.id.name) n := by
        refine ⟨ih, fun y hpc hy => ?_⟩
        obtain rfl := Option.some.inj (hexit.symm.trans hpc)
        exact hy.safe hclosing hreturns
      have hbody := h.runs_body hanalyze hemits hfn hF hsurrounds
        (hc.after (c.exiting F.fn.id.name))
      have hleads : P.Leads n _ x (fun _ => False) :=
        (hx.leads (h.valid hanalyze hemits) hfn hF c).seq fun y hy => (hbody y hy).seq fun z hz =>
          (Runs.inert (c.isInert_note "FUNCTION EXIT") z hz.stays).seq fun w hw =>
            fun hat _ => hw.stays.leaves.safe hat hreturns
      exact hleads hcode fun _ _ hfalse => hfalse.elim

end Hosts

end Process

end StackMips
