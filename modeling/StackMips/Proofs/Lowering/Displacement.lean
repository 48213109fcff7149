import StackMips.Proofs.Lowering.Structured

/-!
# Displacements

Every line of generated code is emitted at some depth of the operand stack.  In structured code
these depths say how far the stack pointer is from where it was, whichever way the line is reached:
each line changes the depth as it changes the stack pointer, and a branch leads to a label of its
depth.  The depths are those that the generator tracks while it emits the lines.
-/

namespace StackMips

open Mips

/-- Lines, each with the number of operands on the stack before it. -/
abbrev DisplacedCode := List (Line × Nat)

namespace Script

def code (depth : Nat) : Script → DisplacedCode
  | [] => []
  | action :: script => action.lines.map (·, depth) ++ code (action.depth depth) script

@[simp] theorem code_append (d : Nat) (a b : Script) :
    code d (a ++ b) = code d a ++ code (depth d a) b := by
  induction a generalizing d with
  | nil => rfl
  | cons action a ih => simp [code, ih]

theorem map_fst_code (d : Nat) (script : Script) : (script.code d).map Prod.fst = script.lines := by
  induction script generalizing d with
  | nil => rfl
  | cons action script ih => simp [code, ih, Function.comp_def]

theorem code_mints (d n : Nat) : code d (List.replicate n .mint) = [] := by
  rw [← List.map_eq_nil_iff (f := Prod.fst), map_fst_code, lines_mints]

end Script

/-- The lines move the stack pointer by words as their displacements say: a push and a pop are two
lines each, a call removes the words of its callee, and no other line changes the stack pointer. -/
inductive StackFlow (calls : Label → Nat → Prop) : Nat → DisplacedCode → Nat → Prop
  | nil {d} : StackFlow calls d [] d
  | line {d d' line code} (h : ∀ instr ∈ line.instr?, instr.operation.keepsStack)
      (hcode : StackFlow calls d code d') : StackFlow calls d ((line, d) :: code) d'
  | push {d d' code} (register : Register) (hcode : StackFlow calls (d + 1) code d') :
      StackFlow calls d ((.op { operation := .sw register (.indexed 0 .sp) }, d) ::
        (.op { operation := .alu .subu .sp .sp (.imm wordSize) }, d) :: code) d'
  | pop {d d' code} {register : Register} (h : register ≠ .sp) (hcode : StackFlow calls d code d') :
      StackFlow calls (d + 1) ((.op { operation := .lw register (.indexed wordSize .sp) }, d + 1) ::
        (.op { operation := .alu .addu .sp .sp (.imm wordSize) }, d + 1) :: code) d'
  | call {d d' code label words} (h : calls label words) (hcode : StackFlow calls d code d') :
      StackFlow calls (d + words) ((.op { operation := .jal label }, d + words) :: code) d'

namespace StackFlow

variable {calls : Label → Nat → Prop} {d d' d'' : Nat} {a b : DisplacedCode}

theorem append (ha : StackFlow calls d a d') (hb : StackFlow calls d' b d'') :
    StackFlow calls d (a ++ b) d'' := by
  induction ha with
  | nil => exact hb
  | line h _ ih => exact .line h (ih hb)
  | push register _ ih => exact .push register (ih hb)
  | pop h _ ih => exact .pop h (ih hb)
  | call h _ ih => exact .call h (ih hb)

end StackFlow

namespace Script.Structured

variable {calls : Label → Nat → Prop} {stored : Label → Prop} {exit : Label} {targets : Marks}
  {c : Context} {d d' : Nat} {script : Script} {marks : Marks}

/-- Structured code moves the stack pointer as the generator tracks it. -/
theorem stackFlow (h : Structured calls stored exit targets c d script d' marks) :
    StackFlow calls d (script.code d) d' := by
  induction h with
  | nil => exact .nil
  | append ha _ iha ihb =>
      rw [code_append, ha.depth]
      exact iha.append ihb
  | @step _ _ d action h =>
      cases action with
      | emit line =>
          cases line with
          | op instr => exact .line (by simpa [Line.instr?] using h.1) .nil
          | comment text => exact .line (by simp [Line.instr?]) .nil
          | label _ _ | region _ => cases h
      | push register => exact .push register .nil
      | pop register =>
          obtain ⟨d, rfl⟩ := Nat.exists_eq_succ_of_ne_zero (Nat.pos_iff_ne_zero.mp h.2)
          exact .pop h.1 .nil
      | release _ | mint | pool _ _ => cases h
  | call h => exact .call h (by simpa [code, Action.lines] using StackFlow.nil)
  | text c text comment =>
      unfold Context.pooling
      split
      · exact .line (by simp [Line.instr?, Operation.keepsStack]) .nil
      · refine .line ?_ (.line ?_ (.line ?_ (.line ?_ .nil))) <;>
          simp [Line.instr?, Operation.keepsStack]
  | branch h _ => exact .line (by simpa [Line.instr?] using Operation.keepsStack_of_branch? h) .nil
  | leave => exact .line (by simp [Line.instr?, Operation.keepsStack]) .nil
  | mark label => exact .line (by simp [Line.instr?]) .nil
  | scope own _ _ _ ih =>
      rw [code_append, code_mints, List.nil_append, depth_mints]
      exact ih

/-- The labels that a script defines stand in its code at their depths. -/
theorem marked (h : Structured calls stored exit targets c d script d' marks) :
    ∀ mark ∈ marks, (.label mark.1 none, mark.2) ∈ script.code d := by
  induction h with
  | nil | step _ | call _ | text _ _ _ | branch _ _ | leave => simp
  | append ha _ iha ihb =>
      rw [List.forall_mem_append, code_append, ha.depth]
      exact ⟨fun mark hmark => List.mem_append_left _ (iha mark hmark),
        fun mark hmark => List.mem_append_right _ (ihb mark hmark)⟩
  | mark label => simp [code, Action.lines]
  | scope own _ _ hinner ih =>
      rw [code_append, code_mints, List.nil_append, depth_mints]
      exact fun mark hmark => ih mark (hinner.mem_iff.mpr (List.mem_append_right _ hmark))

/-- A branch leads out of the function, or to a label at the depth of the branch: one that was
given, or one that stands in the code. -/
theorem branches (h : Structured calls stored exit targets c d script d' marks) :
    ∀ x ∈ script.code d, ∀ instr ∈ x.1.instr?, ∀ label, instr.operation.branch? = some label →
      label = exit ∨ (label, x.2) ∈ targets ∨ (.label label none, x.2) ∈ script.code d := by
  induction h with
  | nil => simp [code]
  | append ha _ iha ihb =>
      rw [code_append, ha.depth]
      intro x hx instr hinstr label hlabel
      rw [List.mem_append]
      rcases List.mem_append.mp hx with hx | hx
      · exact (iha x hx instr hinstr label hlabel).imp_right (.imp_right .inl)
      · exact (ihb x hx instr hinstr label hlabel).imp_right (.imp_right .inr)
  | @step _ _ d action h =>
      cases action with
      | emit line =>
          cases line with
          | op instr => simp_all [code, Action.lines, Line.instr?, Action.IsStraight]
          | comment text => simp [code, Action.lines, Line.instr?]
          | label _ _ | region _ => cases h
      | push _ | pop _ => simp [code, Action.lines, Line.instr?, Operation.branch?]
      | release _ | mint | pool _ _ => cases h
  | call h => simp [code, Action.lines, Action.op, Line.instr?, Operation.branch?]
  | text c text comment =>
      unfold Context.pooling
      split <;> simp [code, Action.lines, Context.opWith, Line.instr?, Operation.branch?]
  | branch h htarget => simp_all [code, Action.lines, Action.op, Line.instr?]
  | leave => simp [code, Action.lines, Action.op, Line.instr?, Operation.branch?]
  | mark label => simp [code, Action.lines, Line.instr?]
  | scope own _ hscript hinner ih =>
      rw [code_append, code_mints, List.nil_append, depth_mints]
      intro x hx instr hinstr label hlabel
      rcases ih x hx instr hinstr label hlabel with hexit | htarget | hcode
      · exact .inl hexit
      · rcases List.mem_append.mp htarget with hown | htarget
        · exact .inr (.inr (hscript.marked _ (hinner.mem_iff.mpr (List.mem_append_left _ hown))))
        · exact .inr (.inl htarget)
      · exact .inr (.inr hcode)

end Script.Structured

/-! ## The generator at work -/

def Script.gen (script : Script) : Gen Unit := script.forM Action.gen

/-- The lines that the commands of a script emit, each with the depth that the generator tracks when
it comes to the command.  A command changes the depth only after its lines. -/
def Generator.trace (g : Generator) : Script → DisplacedCode
  | [] => []
  | action :: script =>
    match action.gen g with
    | .ok _ g' => (g'.lines.toList.drop g.lines.size).map (·, g.depth) ++ g'.trace script
    | .error _ _ => []

/-- The step can be taken at a depth: there are enough operands. -/
def Action.Runs (depth : Nat) (action : Action) : Prop :=
  ∀ g : Generator, g.depth = depth → action.gen g = .ok () (g.perform [action])

namespace Action

variable (d : Nat)

theorem runs_emit (line : Line) : (emit line).Runs d := fun g _ => Gen.emit_apply line g

theorem runs_push (register : Register) : (push register).Runs d :=
  fun g _ => Gen.push_apply register g

theorem runs_pop (register : Register) (h : 0 < d) : (pop register).Runs d :=
  fun _ hg => Gen.pop_apply register (hg ▸ h)

theorem runs_release (words : Nat) (h : words ≤ d) : (release words).Runs d :=
  fun _ hg => Gen.release_apply (hg ▸ h)

theorem runs_mint : mint.Runs d := fun g _ => Gen.bind_of_ok (Gen.freshLabel_apply g)

theorem runs_pool (text : String) (label : Label) : (pool text label).Runs d :=
  fun g _ => Gen.pool_apply text label g

end Action

namespace Script

def Runs : Nat → Script → Prop
  | _, [] => True
  | depth, action :: script => action.Runs depth ∧ Runs (action.depth depth) script

theorem Runs.append {d : Nat} {a b : Script} (ha : a.Runs d) (hb : b.Runs (a.depth d)) :
    (a ++ b).Runs d := by
  induction a generalizing d with
  | nil => exact hb
  | cons action a ih => exact ⟨ha.1, ih ha.2 hb⟩

theorem Runs.gen {d : Nat} {script : Script} (h : script.Runs d) {g : Generator}
    (hg : g.depth = d) : script.gen g = .ok () (g.perform script) := by
  induction script generalizing d g with
  | nil => rfl
  | cons action script ih =>
      exact (Gen.bind_of_ok (h.1 g hg)).trans (ih h.2 (by simp [hg]))

theorem Runs.trace {d : Nat} {script : Script} (h : script.Runs d) {g : Generator}
    (hg : g.depth = d) : g.trace script = script.code d := by
  induction script generalizing d g with
  | nil => rfl
  | cons action script ih =>
      have hlines : (g.perform [action]).lines.toList.drop g.lines.size = action.lines := by
        simp [Generator.lines_perform]
      rw [Generator.trace, h.1 g hg]
      simp only [hlines, hg, ih h.2 (g := g.perform [action]) (by simp [hg]), code]

/-- The generator can take the steps of structured code. -/
theorem Structured.runs {calls : Label → Nat → Prop} {stored : Label → Prop} {exit : Label}
    {targets : Marks} {c : Context} {d d' : Nat} {script : Script} {marks : Marks}
    (h : Structured calls stored exit targets c d script d' marks) : script.Runs d := by
  induction h with
  | nil => trivial
  | append ha _ iha ihb => exact iha.append (by rwa [ha.depth])
  | @step _ _ d action h =>
      refine ⟨?_, trivial⟩
      cases action with
      | emit line => exact Action.runs_emit d line
      | push register => exact Action.runs_push d register
      | pop register => exact Action.runs_pop d register h.2
      | release _ | mint | pool _ _ => cases h
  | @call _ _ d _ words _ =>
      exact ⟨Action.runs_emit _ _, Action.runs_release _ words (Nat.le_add_left words d), trivial⟩
  | @text _ d c text _ =>
      refine Runs.append ?_ ⟨Action.runs_emit _ _, trivial⟩
      unfold Context.pooling
      split
      · trivial
      · exact ⟨Action.runs_mint d, Action.runs_pool d _ _, Action.runs_emit d _,
          Action.runs_emit d _, Action.runs_emit d _, trivial⟩
  | branch _ _ | leave | mark _ => exact ⟨Action.runs_emit _ _, trivial⟩
  | @scope _ _ d _ _ _ _ own _ _ _ ih =>
      have hmints : ∀ n, Runs d (List.replicate n .mint) := by
        intro n
        induction n with
        | zero => trivial
        | succ n ih => exact ⟨Action.runs_mint d, ih⟩
      exact (hmints _).append (by rwa [depth_mints])

end Script

end StackMips
