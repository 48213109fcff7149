import StackMips.Proofs.CallingConvention
import StackMips.Proofs.LabelClosure
import StackMips.Proofs.Lowering.Displacement
import StackMips.Proofs.Lowering.Labels
import StackMips.Proofs.Lowering.Ranges

/-!
# Stack discipline

In the code of an accepted program, every line between the prologue and the exit of a function has
one displacement: the number of operands that are on the stack whichever way the line is reached.
On a machine that runs the code, the stack pointer is where the displacement says.
-/

namespace StackMips

open Mips

/-! ## Displaced code -/

/-- The lines move the stack pointer as their displacements say, from an empty operand stack to an
empty one, and a branch leads to a label with the displacement of the branch, unless it leads to the
exit. -/
structure Displaced (calls : Label → Nat → Prop) (exit : Label) (code : DisplacedCode) : Prop where
  flow : StackFlow calls 0 code 0
  branches : ∀ line d, (line, d) ∈ code → ∀ instr ∈ line.instr?, ∀ label,
    instr.operation.branch? = some label → label ≠ exit →
      (.label label none, d) ∈ code ∧ ∀ instr? k, (.label label instr?, k) ∈ code → k = d

theorem DisplacedCode.eq_of_label {code : DisplacedCode}
    (h : ((code.map Prod.fst).filterMap Line.label?).Nodup) {label : Label} {x y : Line × Nat}
    (hx : x ∈ code) (hy : y ∈ code) (hxlabel : x.1.label? = some label)
    (hylabel : y.1.label? = some label) : x = y := by
  by_contra hne
  rw [List.filterMap_map, List.Nodup, List.pairwise_filterMap] at h
  have hpairwise : code.Pairwise fun x y =>
      ¬(x.1.label? = some label ∧ y.1.label? = some label) :=
    h.imp fun hlabels hboth => hlabels label hboth.1 label hboth.2 rfl
  have : Std.Symm fun x y : Line × Nat =>
      ¬(x.1.label? = some label ∧ y.1.label? = some label) :=
    ⟨fun _ _ hxy hboth => hxy hboth.symm⟩
  exact hpairwise.forall hx hy hne ⟨hxlabel, hylabel⟩

namespace Script.Structured

variable {calls : Label → Nat → Prop} {stored : Label → Prop} {exit : Label} {c : Context}
  {d d' : Nat} {script : Script}

theorem nodup_labels {targets : Marks}
    (h : Structured calls stored exit targets c d script d' []) : script.labels.Nodup := by
  obtain ⟨n, _, hlabels⟩ := h.defines
  rw [List.map_nil, List.append_nil] at hlabels
  exact hlabels.nodup_iff.mpr ((List.nodup_range').map Context.synthetic_injective)

theorem displaced (h : Structured calls stored exit [] c 0 script 0 []) :
    Displaced calls exit (script.code 0) where
  flow := h.stackFlow
  branches line d hline instr hinstr label hlabel hexit := by
    have hcode : (.label label none, d) ∈ script.code 0 := by
      simpa [hexit] using h.branches _ hline instr hinstr label hlabel
    refine ⟨hcode, fun instr? k hother => ?_⟩
    have hnodup := h.nodup_labels
    rw [labels, ← map_fst_code 0] at hnodup
    cases DisplacedCode.eq_of_label hnodup hother hcode rfl rfl
    rfl

end Script.Structured

/-! ## On the machine -/

/-- The displacement of the line with an index; behind the code it is the last one. -/
def DisplacedCode.displacement (code : DisplacedCode) (last i : Nat) : Nat :=
  (code[i]?.map Prod.snd).getD last

@[simp] theorem DisplacedCode.displacement_succ (x : Line × Nat) (code : DisplacedCode)
    (last i : Nat) : displacement (x :: code) last (i + 1) = displacement code last i := rfl

theorem DisplacedCode.displacement_eq {code : DisplacedCode} {i d : Nat} {line : Line}
    (h : code[i]? = some (line, d)) (last : Nat) : code.displacement last i = d := by
  simp [displacement, h]

inductive Mips.Line.Moves (calls : Label → Nat → Prop) : Line → Nat → Nat → Prop
  | keep {line k} (h : ∀ instr ∈ line.instr?, instr.operation.keepsStack) : Moves calls line k k
  | push {k} : Moves calls (.op { operation := .alu .subu .sp .sp (.imm wordSize) }) k (k + 1)
  | pop {k} : Moves calls (.op { operation := .alu .addu .sp .sp (.imm wordSize) }) (k + 1) k
  | call {k label words} (h : calls label words) :
      Moves calls (.op { operation := .jal label }) (k + words) k

namespace StackFlow

variable {calls : Label → Nat → Prop} {d d' : Nat} {code : DisplacedCode}

@[simp] theorem displacement_zero (h : StackFlow calls d code d') : code.displacement d' 0 = d := by
  cases h <;> rfl

/-- Every line changes the displacement to that of the next line. -/
theorem moves (h : StackFlow calls d code d') {i k : Nat} {line : Line}
    (hline : code[i]? = some (line, k)) :
    line.Moves calls k (code.displacement d' (i + 1)) := by
  induction h generalizing i with
  | nil => cases hline
  | line h hcode ih =>
      rcases i with _ | i
      · cases hline
        simpa [hcode.displacement_zero] using Line.Moves.keep h
      · exact ih hline
  | push register hcode ih =>
      rcases i with _ | _ | i
      · cases hline
        exact .keep (by simp [Line.instr?, Operation.keepsStack])
      · cases hline
        simpa [hcode.displacement_zero] using Line.Moves.push
      · exact ih hline
  | pop hregister hcode ih =>
      rcases i with _ | _ | i
      · cases hline
        exact .keep (by simpa [Line.instr?, Operation.keepsStack] using hregister)
      · cases hline
        simpa [hcode.displacement_zero] using Line.Moves.pop
      · exact ih hline
  | call h hcode ih =>
      rcases i with _ | i
      · cases hline
        simpa [hcode.displacement_zero] using Line.Moves.call h
      · exact ih hline

end StackFlow

namespace Mips

variable {image : Image} {calls : Label → Nat → Prop} {s t : State} {base : Word}

theorem State.sp_set {register : Register} (h : register != .sp) (s : State) (word : Word) :
    (s.set register word).reg .sp = s.reg .sp := by
  have hne : Register.sp ≠ register := by simpa using (bne_iff_ne.mp h).symm
  rw [State.reg_set, if_neg hne]

theorem Image.syscall_keepsStack (h : image.syscall s = some t) :
    t.reg .sp = s.reg .sp ∧ t.pc = s.pc + 1 := by
  unfold syscall at h
  split at h
  · cases h
    exact ⟨rfl, rfl⟩
  · split at h
    · obtain ⟨text, _, rfl⟩ := Option.map_eq_some_iff.mp h
      exact ⟨rfl, rfl⟩
    · split at h
      · split at h
        · cases h
        · cases h
          exact ⟨by simp [State.emit], rfl⟩
      · cases h

/-- An operation that keeps the stack does so on the machine, and goes on to the next line or
branches. -/
theorem Image.exec_keepsStack {operation : Operation} (h : operation.keepsStack)
    (hexec : image.exec s operation = some t) : t.reg .sp = s.reg .sp ∧
      (t.pc = s.pc + 1 ∨
        ∃ label, operation.branch? = some label ∧ image.target label = some t.pc) := by
  have hjump : ∀ label, (image.target label).map s.jump = some t →
      t.reg .sp = s.reg .sp ∧ image.target label = some t.pc := by
    intro label htarget
    obtain ⟨pc, hpc, rfl⟩ := Option.map_eq_some_iff.mp htarget
    exact ⟨rfl, hpc⟩
  cases operation with
  | li dst _ | la dst _ | move dst _ =>
      cases hexec
      exact ⟨State.sp_set h s _, .inl rfl⟩
  | lw dst address =>
      obtain ⟨_, ⟨⟩⟩ := Option.ite_none_right_eq_some.mp hexec
      exact ⟨State.sp_set h s _, .inl rfl⟩
  | sw src address =>
      obtain ⟨_, ⟨⟩⟩ := Option.ite_none_right_eq_some.mp hexec
      exact ⟨rfl, .inl rfl⟩
  | alu op dst left right =>
      obtain ⟨_, _, rfl⟩ := Option.map_eq_some_iff.mp hexec
      exact ⟨State.sp_set h s _, .inl rfl⟩
  | neg dst src =>
      obtain ⟨_, ⟨⟩⟩ := Option.ite_none_left_eq_some.mp hexec
      exact ⟨State.sp_set h s _, .inl rfl⟩
  | b label =>
      obtain ⟨hsp, htarget⟩ := hjump label hexec
      exact ⟨hsp, .inr ⟨label, rfl, htarget⟩⟩
  | beq left right label | ble left right label =>
      simp only [exec] at hexec
      split at hexec
      · obtain ⟨hsp, htarget⟩ := hjump label hexec
        exact ⟨hsp, .inr ⟨label, rfl, htarget⟩⟩
      · cases hexec
        exact ⟨rfl, .inl rfl⟩
  | syscall =>
      obtain ⟨hsp, hpc⟩ := syscall_keepsStack hexec
      exact ⟨hsp, .inl hpc⟩
  | globl _ | align _ | space _ | asciiz _ =>
      cases hexec
      exact ⟨rfl, .inl rfl⟩
  | jal _ | jr _ | raw _ _ => cases h

/-- One step of the machine moves the stack pointer as the line says, unless it is a call. -/
theorem Image.execLine_moves {line : Line} {k k' : Nat} (h : line.Moves calls k k')
    (hcall : ∀ instr ∈ line.instr?, ∀ label, instr.operation ≠ .jal label)
    (hsp : s.reg .sp = base.below k) (hexec : image.execLine s line = some t) :
    t.pc = s.pc + 1 ∧ t.reg .sp = base.below k' ∨
      ∃ instr ∈ line.instr?, ∃ label, instr.operation.branch? = some label ∧
        image.target label = some t.pc ∧ t.reg .sp = base.below k := by
  cases h with
  | keep h =>
      unfold execLine at hexec
      split at hexec
      · next instr hinstr =>
          obtain ⟨hkeeps, hpc | ⟨label, hlabel, htarget⟩⟩ :=
            exec_keepsStack (h instr hinstr) hexec
          · exact .inl ⟨hpc, hkeeps.trans hsp⟩
          · exact .inr ⟨instr, hinstr, label, hlabel, htarget, hkeeps.trans hsp⟩
      · cases hexec
        exact .inl ⟨rfl, hsp⟩
  | push =>
      cases hexec
      refine .inl ⟨rfl, ?_⟩
      rw [← Word.sub_word, ← hsp]
      rfl
  | pop =>
      cases hexec
      refine .inl ⟨rfl, ?_⟩
      have hword := Word.below_add_ofInt (base.below k') 1
      rw [Word.below_below, ← hsp] at hword
      exact hword
  | call _ => exact absurd rfl (hcall _ rfl _)

/-- The machine is at a line of the code or just behind it, and the operands of this place are on
its stack. -/
def State.Stands (base : Word) (start : Nat) (code : DisplacedCode) (s : State) : Prop :=
  ∃ i ≤ code.length, s.pc = start + i ∧ s.reg .sp = base.below (code.displacement 0 i)

/-- A step inside a function: one of the machine, or a call that has returned and has removed the
words of its callee. -/
inductive Image.Proceeds (image : Image) (calls : Label → Nat → Prop) : State → State → Prop
  | step {s t line} (hline : image.lines[s.pc]? = some line)
      (hcall : ∀ instr ∈ line.instr?, ∀ label, instr.operation ≠ .jal label)
      (h : image.step s = some t) : Proceeds image calls s t
  | call {s t label words comment}
      (hline : image.lines[s.pc]? = some (.op ⟨.jal label, comment⟩)) (h : calls label words)
      (hpc : t.pc = s.pc + 1) (hsp : t.reg .sp = s.reg .sp + .ofInt 32 (4 * words)) :
      Proceeds image calls s t

def Image.ProceedsIn (image : Image) (calls : Label → Nat → Prop) (start : Nat)
    (code : DisplacedCode) (s t : State) : Prop :=
  start ≤ s.pc ∧ s.pc < start + code.length ∧ image.Proceeds calls s t

end Mips

theorem Mips.Image.At.getElem? {image : Image} {start : Nat} {lines : List Line}
    (h : image.At start lines) {i : Nat} (hi : i < lines.length) :
    image.lines[start + i]? = lines[i]? := by
  obtain ⟨rest, hrest⟩ := h
  rw [← List.getElem?_drop, ← hrest, List.getElem?_append_left hi]

namespace Displaced

variable {image : Image} {calls : Label → Nat → Prop} {exit : Label} {code : DisplacedCode}
  {start : Nat} {base : Word} {s t : State}

/-- A step in displaced code leads to where the displacements say, or to the exit. -/
theorem stands_of_step (h : Displaced calls exit code)
    (hcalls : ∀ {label m n}, calls label m → calls label n → m = n)
    (hat : image.At start (code.map Prod.fst)) (hs : s.Stands base start code)
    (hstep : image.ProceedsIn calls start code s t) :
    t.Stands base start code ∨ image.target exit = some t.pc := by
  obtain ⟨i, hi, hpc, hsp⟩ := hs
  obtain ⟨_, hlt, hstep⟩ := hstep
  have hi : i < code.length := by omega
  obtain ⟨⟨line, d⟩, hcode⟩ : ∃ x, code[i]? = some x := ⟨_, List.getElem?_eq_getElem hi⟩
  have hline : image.lines[s.pc]? = some line := by
    rw [hpc, hat.getElem? (by simpa using hi)]
    simp [hcode]
  rw [DisplacedCode.displacement_eq hcode] at hsp
  have hmoves := h.flow.moves hcode
  cases hstep with
  | step hline' hcall hstep =>
      cases hline.symm.trans hline'
      have hexec : image.execLine s line = some t := by
        rwa [Image.step, hline] at hstep
      rcases Image.execLine_moves hmoves hcall hsp hexec with
        ⟨hnext, hsp⟩ | ⟨instr, hinstr, label, hlabel, htarget, hsp⟩
      · exact .inl ⟨i + 1, hi, by omega, hsp⟩
      · by_cases hexit : label = exit
        · exact .inr (hexit ▸ htarget)
        · obtain ⟨hmem, _⟩ := h.branches line d (List.mem_of_getElem? hcode) instr hinstr label
            hlabel hexit
          obtain ⟨j, hj⟩ := List.mem_iff_getElem?.mp hmem
          have hjlt := (List.getElem?_eq_some_iff.mp hj).1
          have hlabel : image.lines[start + j]? = some (.label label none) := by
            rw [hat.getElem? (by simpa using hjlt)]
            simp [hj]
          have hjpc := Option.some.inj (htarget.symm.trans (Image.target_of_line hlabel))
          exact .inl ⟨j, Nat.le_of_lt hjlt, hjpc, by rw [DisplacedCode.displacement_eq hj, hsp]⟩
  | call hline' hcall hnext hback =>
      cases hline.symm.trans hline'
      refine .inl ⟨i + 1, hi, by omega, ?_⟩
      generalize code.displacement 0 (i + 1) = k at hmoves ⊢
      cases hmoves with
      | keep hkeeps => cases hkeeps _ rfl
      | call hcall' =>
          cases hcalls hcall hcall'
          rw [hback, hsp, ← Word.below_below, Word.below_add_ofInt]

/-- Displaced code that is run from its first line keeps to its displacements until the function is
left through its exit. -/
theorem stands_of_run (h : Displaced calls exit code)
    (hcalls : ∀ {label m n}, calls label m → calls label n → m = n)
    (hat : image.At start (code.map Prod.fst)) {leave : Nat}
    (hexit : image.target exit = some leave) (hleave : start + code.length ≤ leave)
    (hs : s.Stands base start code)
    (hrun : Relation.ReflTransGen (image.ProceedsIn calls start code) s t) :
    t.Stands base start code ∨ t.pc = leave := by
  induction hrun with
  | refl => exact .inl hs
  | tail _ hstep ih =>
      rcases ih with hstands | hpc
      · refine (h.stands_of_step hcalls hat hstands hstep).imp_right fun htarget => ?_
        exact Option.some.inj (htarget.symm.trans hexit)
      · have hlt := hstep.2.1
        omega

/-- A line that is reached from the first line finds the operands of its displacement on the stack,
whichever way it is reached. -/
theorem sp_of_run (h : Displaced calls exit code)
    (hcalls : ∀ {label m n}, calls label m → calls label n → m = n)
    (hat : image.At start (code.map Prod.fst)) {leave : Nat}
    (hexit : image.target exit = some leave) (hleave : start + code.length ≤ leave)
    (hpc : s.pc = start)
    (hrun : Relation.ReflTransGen (image.ProceedsIn calls start code) s t) :
    t.reg .sp = (s.reg .sp).below (code.displacement 0 (t.pc - start)) ∨ t.pc = leave := by
  have hstands : s.Stands (s.reg .sp) start code :=
    ⟨0, Nat.zero_le _, hpc, by rw [h.flow.displacement_zero, Word.below_zero]⟩
  refine (h.stands_of_run hcalls hat hexit hleave hstands hrun).imp_left ?_
  rintro ⟨i, _, hi, hsp⟩
  rw [hsp, hi, Nat.add_sub_cancel_left]

end Displaced

/-! ## The generator on its way through a function -/

/-- The states of the generator while it lowers a function: when it comes to the function, before
and behind the prologue, and before and behind the epilogue. -/
structure FnDecl.Passes (fn : FnDecl) (info : FunctionInfo)
    (g entered inside outside left : Generator) : Prop where
  lower : fn.lower g = .ok () left
  info_eq : fn.info g.context.symbols = .ok info
  exitLabel : ∃ exit g', Gen.exitLabel fn.id.name g = .ok exit g' ∧ entered = { g' with exit }
  prologue : Gen.prologue fn.id.name info entered = .ok () inside
  body : fn.body.lower inside = .ok () outside
  epilogue : Gen.epilogue fn.id.name info outside = .ok () left

/-- There is at most a comment between the body of a function and its exit. -/
theorem Context.lines_epilogue (c : Context) (exit : Label) (name : String) (info : FunctionInfo) :
    ∃ notes leaving, Script.lines (c.epilogue exit name info) =
        notes ++ .label exit none :: leaving ∧ ∀ line ∈ notes, ∃ text, line = .comment text := by
  refine ⟨Script.lines (c.note "FUNCTION EXIT"), _, by
    simp only [epilogue, Script.lines_append, List.append_assoc]; rfl, ?_⟩
  unfold note
  split <;> simp [Action.lines]

namespace FnDecl

variable {symbols : Arena} {index : Nat} {fn : FnDecl}

def beforeBody (fn : FnDecl) (g : Generator) : Generator :=
  (fn.beforePrologue g).perform (g.context.prologue fn.id.name fn.signature)

@[simp] theorem context_beforeBody (fn : FnDecl) (g : Generator) :
    (fn.beforeBody g).context = fn.bodyContext g.context := by
  simp [beforeBody, beforePrologue, bodyContext]

@[simp] theorem exit_beforeBody (fn : FnDecl) (g : Generator) :
    (fn.beforeBody g).exit = g.context.exitLabel fn.id.name := by
  simp [beforeBody, beforePrologue]

@[simp] theorem depth_beforeBody (fn : FnDecl) (g : Generator) :
    (fn.beforeBody g).depth = g.depth := by
  simp [beforeBody, beforePrologue]

theorem like_beforeBody (fn : FnDecl) {g : Generator} {c : Context} (h : g.context.Like c) :
    (fn.beforeBody g).context.Like c := by
  rw [context_beforeBody]
  exact h.after _

theorem passes (hframed : fn.Framed symbols index) (hfits : fn.signature.Fits)
    (hbody : fn.body.Lowers symbols) (hblocked : fn.body.blocked = []) {g : Generator}
    (hg : g.context.symbols = symbols) (hdepth : g.depth = 0) :
    ∃ outside left,
      fn.Passes fn.signature g (fn.beforePrologue g) (fn.beforeBody g) outside left := by
  have hprologue : Gen.prologue fn.id.name fn.signature (fn.beforePrologue g) =
      .ok () (fn.beforeBody g) := by
    have hperforms := Gen.prologue_performs fn.id.name hfits (fn.beforePrologue g)
    have hcontext : (fn.beforePrologue g).context.prologue fn.id.name fn.signature =
        g.context.prologue fn.id.name fn.signature := by
      simp [beforePrologue]
    rwa [hcontext] at hperforms
  have hlower := hbody.performs (fn.beforeBody g) (by simpa [bodyContext] using hg)
  rw [hblocked] at hlower
  have hepilogue := Gen.epilogue_performs fn.id.name hfits ((fn.beforeBody g).perform
    (fn.body.script (fn.beforeBody g).context (fn.beforeBody g).exit))
  refine ⟨_, _, ?_, hg ▸ hframed.info_eq, ⟨_, _, Gen.exitLabel_apply _ g, rfl⟩, hprologue, hlower,
    hepilogue⟩
  rw [lower_eq hframed hg, Gen.bind_of_ok hprologue, Gen.get_bind, if_neg (by simp [hdepth])]
  exact (Gen.bind_of_ok hlower).trans hepilogue

end FnDecl

/-! ## Programs -/

/-- The code of a function in an accepted program is displaced as the generator tracks the operand
stack. -/
theorem Resolved.Emits.displaced {program : Program} {options : Options} {resolved : Resolved}
    {assembly : Assembly} (hanalyze : program.analyze { options } = .done resolved [])
    (h : resolved.Emits assembly) {fn : FnDecl} (hfn : fn ∈ resolved.program.functions)
    {g : Generator} (hg : g.context.Like resolved.context) (hdepth : g.depth = 0) :
    Displaced resolved.Calls g.exit (g.trace (fn.body.script g.context g.exit)) := by
  have hstructured := h.structured hanalyze hfn g.exit hg 0
  rw [hstructured.runs.trace hdepth]
  exact hstructured.displaced

theorem Resolved.Emits.map_fst_trace {program : Program} {options : Options} {resolved : Resolved}
    {assembly : Assembly} (h : resolved.Emits assembly)
    (hanalyze : program.analyze { options } = .done resolved []) {fn : FnDecl}
    (hfn : fn ∈ resolved.program.functions) {g : Generator}
    (hg : g.context.Like resolved.context) (hdepth : g.depth = 0) :
    ((fn.beforeBody g).trace (fn.body.script (fn.beforeBody g).context
      (fn.beforeBody g).exit)).map Prod.fst = (fn.bodyScript g.context).lines := by
  have hscript := (h.structured hanalyze hfn (fn.beforeBody g).exit (fn.like_beforeBody hg) 0).runs
  rw [hscript.trace ((fn.depth_beforeBody g).trans hdepth), Script.map_fst_code,
    fn.exit_beforeBody, fn.context_beforeBody]
  rfl

/-- Lowering the body of a function in an accepted program is running its script. -/
theorem Resolved.Emits.lower_eq_gen {program : Program} {options : Options} {resolved : Resolved}
    {assembly : Assembly} (hanalyze : program.analyze { options } = .done resolved [])
    (h : resolved.Emits assembly) {fn : FnDecl} (hfn : fn ∈ resolved.program.functions)
    {g : Generator} (hg : g.context.Like resolved.context) :
    fn.body.lower g = (fn.body.script g.context g.exit).gen g := by
  have hperforms := (h.clean.body_lowers hfn).performs g hg.symbols
  rw [List.flatMap_eq_nil_iff.mp h.blocked fn hfn] at hperforms
  exact Eq.trans hperforms ((h.structured hanalyze hfn g.exit hg g.depth).runs.gen rfl).symm

/-- All functions that a label can stand for take the same number of words, if no label is defined
twice. -/
theorem Resolved.Emits.calls_inj {program : Program} {options : Options} {resolved : Resolved}
    {assembly : Assembly} (hanalyze : program.analyze { options } = .done resolved [])
    (h : resolved.Emits assembly) (hnodup : assembly.labels.Nodup) {label : Label} {m n : Nat}
    (hm : resolved.Calls label m) (hn : resolved.Calls label n) : m = n := by
  obtain ⟨fn, hfn, rfl, info, hinfo, hsize⟩ := hm
  obtain ⟨other, hother, hlabel, info', hinfo', hsize'⟩ := hn
  obtain rfl := h.eq_of_functionLabel hanalyze hnodup hfn hother hlabel
  cases hinfo.symm.trans hinfo'
  simp only [wordSize] at hsize hsize'
  omega

namespace Program

/-- The functions of an accepted program keep the following discipline.  The generator emits a
prologue, the lines of the body, at most a comment, and the exit label.  It lowers the body by
running commands, and the depth that it tracks when it emits a line is the displacement of the line.
Pushes, pops and calls change the displacement as they change the stack pointer, which nothing else
does, and branches that do not lead to the exit lead to a label of the same displacement. -/
theorem compile_displaces {program linked : Program} {options : Options} {assembly : Assembly}
    (h : program.compile options = .ok (linked, .ok assembly)) :
    ∃ resolved visits, program.analyze { options } = .done resolved [] ∧
      linked = resolved.program ∧
      visits = Decl.visits { context := resolved.context } linked.decls ∧
      visits.map Prod.fst = linked.decls ∧
      assembly.lines = visits.flatMap (fun visit => Gen.emitted visit.1.lower visit.2) ∧
      ∀ fn g, (.fn fn, g) ∈ visits → ∃ info entered inside outside left,
        fn.Passes info g entered inside outside left ∧
        (∀ g' : Generator, g'.context.Like resolved.context →
          fn.body.lower g' = (fn.body.script g'.context g'.exit).gen g') ∧
        ∃ code notes leaving,
          code = inside.trace (fn.body.script inside.context inside.exit) ∧
          Gen.emitted fn.lower g = Gen.emitted (Gen.prologue fn.id.name info) entered ++
            (code.map Prod.fst ++ (notes ++ .label inside.exit none :: leaving)) ∧
          (∀ line ∈ notes, ∃ text, line = .comment text) ∧
          Displaced resolved.Calls inside.exit code := by
  obtain ⟨resolved, hanalyze, rfl, _, hemits⟩ := emits_of_compile h
  obtain ⟨hfst, hlines, hvisits⟩ := hemits.visits rfl
  refine ⟨resolved, _, hanalyze, rfl, rfl, hfst, hlines, fun fn g hvisit => ?_⟩
  obtain ⟨hmem, hg, hdepth, hemitted⟩ := hvisits (.fn fn, g) hvisit
  have hfn := mem_functions.mpr hmem
  obtain ⟨index, _, hframed, _⟩ := hemits.clean.functions fn hfn
  have hblocked := List.flatMap_eq_nil_iff.mp hemits.blocked fn hfn
  obtain ⟨outside, left, hpasses⟩ := FnDecl.passes hframed (hemits.fits fn hfn)
    (hemits.clean.body_lowers hfn) hblocked hg.symbols hdepth
  have hempty : (fn.beforeBody g).depth = 0 := (fn.depth_beforeBody g).trans hdepth
  obtain ⟨notes, leaving, hleaving, hnotes⟩ := g.context.lines_epilogue
    (g.context.exitLabel fn.id.name) fn.id.name fn.signature
  refine ⟨_, _, _, _, _, hpasses, fun g' hg' => hemits.lower_eq_gen hanalyze hfn hg', _, notes,
    leaving, rfl, ?_, hnotes, hemits.displaced hanalyze hfn (fn.like_beforeBody hg) hempty⟩
  rw [Gen.emitted_of_lines hpasses.prologue (Generator.lines_perform _ _),
    hemits.map_fst_trace hanalyze hfn hg hdepth, fn.exit_beforeBody, ← hleaving]
  exact hemitted.trans (fn.lines_script g.context)

/-- A function that calls itself in the middle of an expression, in a loop that keeps its counter on
the stack. -/
def growFn (grow n : Option SymbolId) : FnDecl where
  returnType := .int
  id := ⟨"grow", ⟨1, 5⟩, grow⟩
  formals := [⟨.int, ⟨"n", ⟨1, 14⟩, n⟩⟩]
  body := ⟨[], [
    .repeatLoop (.name ⟨"n", ⟨2, 10⟩, n⟩) ⟨[], [
      .assign (.name ⟨"n", ⟨3, 5⟩, n⟩) (.binary .add (.int 1 ⟨3, 9⟩)
        (.call ⟨"grow", ⟨3, 13⟩, grow⟩ [.int 0 ⟨3, 18⟩]))]⟩,
    .ret (some (.name ⟨"n", ⟨5, 10⟩, n⟩)) ⟨5, 3⟩]⟩

def grow : Program where
  decls := [.fn (growFn none none), .fn ⟨.void, ⟨"main", ⟨8, 6⟩, none⟩, [], ⟨[], []⟩⟩]

def growLinked : FnDecl := growFn (some 0) (some 1)

/-- The displacement is 3 at the call: the counter, the summand and the argument are on the
stack. -/
theorem grow_displaces : ∃ linked info entered inside outside left code,
    grow.compile {} = .ok (linked, .ok (grow.code {})) ∧
      growLinked.Passes info { context := (grow.linked {}).context } entered inside outside left ∧
      code = inside.trace (growLinked.body.script inside.context inside.exit) ∧
      code.map Prod.snd = [0, 0, 0, 0, 1, 1, 1, 1, 1, 1, 1, 1, 1, 1, 2, 2, 2, 2, 3, 2, 2, 3, 3, 2,
        2, 1, 1, 1, 2, 2, 2, 3, 3, 2, 2, 1, 1, 1, 2, 2, 1, 1, 1, 1, 0, 0, 0, 0, 1, 1, 0] ∧
      (.op { operation := .jal "_grow" }, 3) ∈ code ∧
      Displaced (grow.linked {}).Calls inside.exit code := by
  have hquiet : grow.analyze {} = .done (grow.linked {}) [] :=
    analyze_of_check sound_empty (by decide) (by decide) rfl
  have hcompile : grow.compile {} = .ok ((grow.linked {}).program, .ok (grow.code {})) :=
    compile_eq_code (by decide) hquiet rfl
  obtain ⟨resolved, _, hanalyze, _, rfl, _, _, hfunctions⟩ := compile_displaces hcompile
  cases hquiet.symm.trans hanalyze
  obtain ⟨info, _, inside, outside, left, hpasses, _, code, _, _, hcode, _, _, hdisplaced⟩ :=
    hfunctions growLinked _ (.head _)
  have hinfo : growLinked.signature = info := Except.ok.inj hpasses.info_eq
  obtain ⟨exit, g', hexit, rfl⟩ := hpasses.exitLabel
  subst hinfo
  cases hexit
  have hprologue := Gen.prologue_performs "grow" (show growLinked.signature.Fits from
    ⟨by decide, by decide⟩) (growLinked.beforePrologue { context := (grow.linked {}).context })
  cases hpasses.prologue.symm.trans hprologue
  refine ⟨_, _, _, _, outside, left, code, hcompile, hpasses, hcode, ?_, ?_, hdisplaced⟩
  · rw [hcode]
    decide +kernel
  · rw [hcode]
    decide +kernel

/-- On a machine with the code of an accepted program, the stack pointer follows the depth that the
generator tracks: as long as a run through the body of a function has not reached the exit, the
line where it stands says how far the stack pointer is below its first value. -/
theorem compile_tracks_sp {program linked : Program} {options : Options} {assembly : Assembly}
    (h : program.compile options = .ok (linked, .ok assembly)) {image : Image}
    (himage : image.lines = assembly.lines) :
    ∃ resolved, program.analyze { options } = .done resolved [] ∧ linked = resolved.program ∧
      ∀ fn g, (.fn fn, g) ∈ Decl.visits { context := resolved.context } linked.decls →
        ∃ code start leave,
          code = (fn.beforeBody g).trace
            (fn.body.script (fn.beforeBody g).context (fn.beforeBody g).exit) ∧
          image.At start (code.map Prod.fst) ∧
          image.target (fn.beforeBody g).exit = some leave ∧
          ∀ s t, s.pc = start →
            Relation.ReflTransGen (image.ProceedsIn resolved.Calls start code) s t →
            t.reg .sp = (s.reg .sp).below (code.displacement 0 (t.pc - start)) ∨
              t.pc = leave := by
  obtain ⟨resolved, hanalyze, rfl, _, hemits⟩ := emits_of_compile h
  refine ⟨resolved, hanalyze, rfl, fun fn g hvisit => ?_⟩
  obtain ⟨hmem, hg, hdepth, _⟩ := (hemits.visits rfl).2.2 _ hvisit
  have hfn := mem_functions.mpr hmem
  have hempty : (fn.beforeBody g).depth = 0 := (fn.depth_beforeBody g).trans hdepth
  have hlines := hemits.map_fst_trace hanalyze hfn hg hdepth
  obtain ⟨pc, hat⟩ := hemits.at_visit himage hvisit
  obtain ⟨notes, leaving, hleaving, _⟩ := g.context.lines_epilogue
    (g.context.exitLabel fn.id.name) fn.id.name fn.signature
  rw [Decl.script, fn.lines_script, hleaving, Image.at_append, Image.at_append,
    Image.at_append, Image.at_cons] at hat
  obtain ⟨_, hbody, _, hexit, _⟩ := hat
  have htarget := Image.target_of_line hexit
  rw [← fn.exit_beforeBody] at htarget
  refine ⟨_, _, _, rfl, hlines ▸ hbody, htarget, fun s t hpc hrun => ?_⟩
  refine (hemits.displaced hanalyze hfn (fn.like_beforeBody hg) hempty).sp_of_run
    (hemits.calls_inj hanalyze (Image.labels_nodup himage)) (hlines ▸ hbody) htarget ?_ hpc hrun
  rw [← hlines, List.length_map]
  exact Nat.le_add_right _ _

end Program

end StackMips
