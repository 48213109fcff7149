import StackMips.Proofs.Simulation.Run

/-!
# Straight-line code

Code without branches can only be run from its first line to the line behind its last one.  The
machine gets there, or it stops inside the code at a line that traps; symbolic execution of the
script decides which.
-/

namespace StackMips

open Mips

namespace Mips

/-! ## Finishing and trapping -/

namespace Image

/-- Zero or more steps, each of them from a line of the code that stands at `pc`. -/
def StepsIn (image : Image) (pc : Nat) (code : List Line) : State → State → Prop :=
  Relation.ReflTransGen fun s t =>
    (pc ≤ s.pc ∧ s.pc < pc + code.length) ∧ image.step s = some t

structure Finishes (image : Image) (code : List Line) (s t : State) : Prop where
  steps : image.StepsIn s.pc code s t
  pc : t.pc = s.pc + code.length

/-- The machine runs from the first line of the code to a line of it and cannot go on there. -/
def Traps (image : Image) (code : List Line) (s : State) : Prop :=
  ∃ t, image.StepsIn s.pc code s t ∧ (s.pc ≤ t.pc ∧ t.pc < s.pc + code.length) ∧
    image.step t = none

variable {image : Image} {code : List Line} {s t u : State}

/-- Two runs through the code to places where it ends are one run. -/
theorem StepsIn.eq_of_ended {pc : Nat} (ht : image.StepsIn pc code s t)
    (hu : image.StepsIn pc code s u)
    (htended : ¬ (pc ≤ t.pc ∧ t.pc < pc + code.length) ∨ image.step t = none)
    (huended : ¬ (pc ≤ u.pc ∧ u.pc < pc + code.length) ∨ image.step u = none) : t = u := by
  have hunique : Relator.RightUnique fun s t : State =>
      (pc ≤ s.pc ∧ s.pc < pc + code.length) ∧ image.step s = some t :=
    fun _ _ _ hab hac => Option.some.inj (hab.2.symm.trans hac.2)
  have hended {v w : State}
      (h : ¬ (pc ≤ v.pc ∧ v.pc < pc + code.length) ∨ image.step v = none)
      (hsteps : image.StepsIn pc code v w) : v = w := by
    rcases Relation.ReflTransGen.cases_head hsteps with heq | ⟨next, ⟨hinside, hstep⟩, -⟩
    · exact heq
    · rcases h with h | h
      · exact absurd hinside h
      · simp [h] at hstep
  rcases Relation.ReflTransGen.total_of_right_unique hunique ht hu with h | h
  · exact hended htended h
  · exact (hended huended h).symm

theorem Finishes.not_traps (h : image.Finishes code s t) : ¬ image.Traps code s := by
  rintro ⟨u, hsteps, hinside, hstep⟩
  have hbehind : ¬ (s.pc ≤ t.pc ∧ t.pc < s.pc + code.length) := by
    rw [h.pc]
    omega
  rw [h.steps.eq_of_ended hsteps (.inl hbehind) (.inr hstep)] at hbehind
  exact hbehind hinside

theorem StepsIn.cons {line : Line} (h : image.StepsIn (s.pc + 1) code t u) :
    image.StepsIn s.pc (line :: code) t u := by
  refine Relation.ReflTransGen.mono (fun _ _ hstep => ⟨?_, hstep.2⟩) _ _ h
  rw [List.length_cons]
  omega

theorem StepsIn.head {line : Line} (hstep : image.step s = some t)
    (h : image.StepsIn (s.pc + 1) code t u) : image.StepsIn s.pc (line :: code) s u := by
  refine Relation.ReflTransGen.head ⟨?_, hstep⟩ h.cons
  rw [List.length_cons]
  omega

end Image

/-! ## Lines -/

def Operation.isStraight : Operation → Bool
  | .b _ | .beq _ _ _ | .ble _ _ _ | .jal _ | .jr _ => false
  | _ => true

def Line.isStraight (line : Line) : Bool :=
  line.instr?.all (·.operation.isStraight)

namespace Image

variable {image : Image} {s t : State}

theorem pc_of_exec {operation : Operation} (hstraight : operation.isStraight)
    (h : image.exec s operation = some t) : t.pc = s.pc + 1 := by
  cases operation with
  | b _ | beq _ _ _ | ble _ _ _ | jal _ | jr _ => cases hstraight
  | li _ _ | la _ _ | move _ _ | globl _ | align _ | space _ | asciiz _ =>
      cases h
      rfl
  | lw _ _ | sw _ _ =>
      simp only [exec, Option.ite_none_right_eq_some, Option.some.injEq] at h
      obtain ⟨-, rfl⟩ := h
      rfl
  | neg _ _ =>
      simp only [exec, Option.ite_none_left_eq_some, Option.some.injEq] at h
      obtain ⟨-, rfl⟩ := h
      rfl
  | alu _ _ _ _ =>
      obtain ⟨word, -, rfl⟩ := Option.map_eq_some_iff.mp h
      rfl
  | syscall =>
      simp only [exec, syscall] at h
      split_ifs at h
      · cases h
        rfl
      · obtain ⟨text, -, rfl⟩ := Option.map_eq_some_iff.mp h
        rfl
      · cases hinput : s.input with
        | nil => simp [hinput] at h
        | cons word input =>
            simp only [hinput, Option.some.injEq] at h
            subst h
            rfl
  | raw _ _ => cases h

theorem pc_of_execLine {line : Line} (hstraight : line.isStraight)
    (h : image.execLine s line = some t) : t.pc = s.pc + 1 := by
  cases hinstr : line.instr? with
  | none =>
      simp only [execLine, hinstr, Option.some.injEq] at h
      subst h
      rfl
  | some instr =>
      simp only [execLine, hinstr] at h
      exact pc_of_exec (by simpa [Line.isStraight, hinstr] using hstraight) h

def execLines (image : Image) : List Line → State → Option State
  | [], s => some s
  | line :: lines, s => (image.execLine s line).bind (image.execLines lines)

theorem execLines_append (image : Image) (a b : List Line) (s : State) :
    image.execLines (a ++ b) s = (image.execLines a s).bind (image.execLines b) := by
  induction a generalizing s with
  | nil => rfl
  | cons line a ih =>
      rw [List.cons_append, execLines, execLines, Option.bind_assoc]
      exact congrArg _ (funext ih)

variable {lines : List Line}

theorem finishes_of_execLines (hstraight : ∀ line ∈ lines, line.isStraight)
    (hat : image.At s.pc lines) (h : image.execLines lines s = some t) :
    image.Finishes lines s t := by
  induction lines generalizing s with
  | nil =>
      cases h
      exact ⟨.refl, rfl⟩
  | cons line lines ih =>
      rw [List.forall_mem_cons] at hstraight
      obtain ⟨u, hline, hlines⟩ := Option.bind_eq_some_iff.mp h
      have hpc := pc_of_execLine hstraight.1 hline
      have hrest := ih hstraight.2 (hpc ▸ (at_cons.mp hat).2) hlines
      refine ⟨.head ((step_of_at hat).trans hline) (hpc ▸ hrest.steps), ?_⟩
      rw [hrest.pc, hpc, List.length_cons]
      omega

theorem traps_of_execLines (hstraight : ∀ line ∈ lines, line.isStraight)
    (hat : image.At s.pc lines) (h : image.execLines lines s = none) : image.Traps lines s := by
  induction lines generalizing s with
  | nil => cases h
  | cons line lines ih =>
      rw [List.forall_mem_cons] at hstraight
      cases hline : image.execLine s line with
      | none =>
          refine ⟨s, .refl, ⟨Nat.le_refl _, ?_⟩, (step_of_at hat).trans hline⟩
          rw [List.length_cons]
          omega
      | some u =>
          rw [execLines, hline, Option.bind_some] at h
          have hpc := pc_of_execLine hstraight.1 hline
          obtain ⟨t, hsteps, hinside, hstep⟩ := ih hstraight.2 (hpc ▸ (at_cons.mp hat).2) h
          refine ⟨t, .head ((step_of_at hat).trans hline) (hpc ▸ hsteps), ?_, hstep⟩
          rw [hpc] at hinside
          rw [List.length_cons]
          omega

end Image

end Mips

/-! ## Scripts -/

/-- The lines of the step go straight on, and a pop leaves the stack pointer alone. -/
def Action.isStraight : Action → Bool
  | .emit line => line.isStraight
  | .pop register => register ≠ .sp
  | _ => true

namespace Action

variable {action : Action}

theorem lines_isStraight (h : action.isStraight) : ∀ line ∈ action.lines, line.isStraight := by
  cases action with
  | emit line => simpa [lines, isStraight] using h
  | push _ | pop _ => simp [lines, Line.isStraight, Line.instr?, Operation.isStraight]
  | release _ | mint | pool _ _ => simp [lines]

/-- Symbolic execution of a straight step fails only where the machine does. -/
theorem exec_eq_execLines (h : action.isStraight) (image : Image) (s : State) :
    action.exec image s = image.execLines action.lines s := by
  cases action with
  | emit line =>
      simp only [exec, lines, Image.execLines]
      cases hline : image.execLine s line with
      | none => rfl
      | some t => exact if_pos (Image.pc_of_execLine h hline)
  | push register =>
      by_cases haligned : (s.reg .sp).Aligned
      · simp [exec, lines, Image.execLines, Image.execLine, Line.instr?, Image.exec, Image.address,
          State.source, AluOp.eval, wordSize, haligned]
        rfl
      · simp [exec, lines, Image.execLines, Image.execLine, Line.instr?, Image.exec, Image.address,
          haligned]
  | pop register =>
      have hregister : register ≠ .sp := by simpa [isStraight] using h
      by_cases haligned : (s.reg .sp + 4#32).Aligned
      · simp [exec, lines, Image.execLines, Image.execLine, Line.instr?, Image.exec, Image.address,
          State.source, AluOp.eval, wordSize, haligned, hregister, hregister.symm]
        rfl
      · simp [exec, lines, Image.execLines, Image.execLine, Line.instr?, Image.exec, Image.address,
          wordSize, haligned]
  | release _ | mint | pool _ _ => rfl

end Action

namespace Script

variable {script : Script} {image : Image} {s t : State}

theorem exec_eq_execLines (h : ∀ action ∈ script, action.isStraight) (s : State) :
    script.exec image s = image.execLines script.lines s := by
  induction script generalizing s with
  | nil => rfl
  | cons action script ih =>
      rw [List.forall_mem_cons] at h
      rw [exec_cons, lines_cons, Image.execLines_append, Action.exec_eq_execLines h.1]
      exact congrArg _ (funext (ih h.2))

theorem lines_isStraight (h : ∀ action ∈ script, action.isStraight) :
    ∀ line ∈ script.lines, line.isStraight := by
  intro line hline
  obtain ⟨action, haction, hline⟩ := List.mem_flatMap.mp hline
  exact Action.lines_isStraight (h action haction) line hline

theorem finishes_of_exec (hstraight : ∀ action ∈ script, action.isStraight)
    (hat : image.At s.pc script.lines) (h : script.exec image s = some t) :
    image.Finishes script.lines s t :=
  Image.finishes_of_execLines (lines_isStraight hstraight) hat
    (exec_eq_execLines hstraight s ▸ h)

theorem traps_of_exec (hstraight : ∀ action ∈ script, action.isStraight)
    (hat : image.At s.pc script.lines) (h : script.exec image s = none) :
    image.Traps script.lines s :=
  Image.traps_of_execLines (lines_isStraight hstraight) hat
    (exec_eq_execLines hstraight s ▸ h)

end Script

end StackMips
