import StackMips.Proofs.Simulation.Setting

/-!
# Completing a script

Code of statements ends behind its last line or at the exit of the function.  This module says how
such ends compose along sequences, branches and loops, and what the machine shares with the source
when it gets there.
-/

namespace StackMips

open Mips

namespace Mips.Image

variable {image : Image} {exit : Label} {a b : Script} {s t : State} {mid post : State → Prop}
  {completion : Completion} {value? : Option Value}

def Lands (image : Image) (exit : Label) (behind : Nat) (t : State) : Completion → Prop
  | .normal => t.pc = behind
  | .returned _ => image.target exit = some t.pc

/-- If the lines of the script are next, the machine gets to their end, or to the exit, to a state
with a property. -/
def Completes (image : Image) (exit : Label) (script : Script) (s : State)
    (completion : Completion) (post : State → Prop) : Prop :=
  image.At s.pc script.lines → ∃ t, image.Steps s t ∧
    image.Lands exit (s.pc + script.lines.length) t completion ∧ post t

theorem Reaches.completes (h : image.Reaches a s post) : image.Completes exit a s .normal post := by
  intro hat
  obtain ⟨t, hperforms, ht⟩ := h hat
  exact ⟨t, hperforms.steps, hperforms.pc, ht⟩

namespace Completes

theorem reaches (h : image.Completes exit a s .normal post) : image.Reaches a s post := by
  intro hat
  obtain ⟨t, hsteps, hpc, ht⟩ := h hat
  exact ⟨t, ⟨hsteps, hpc⟩, ht⟩

theorem mono (h : image.Completes exit a s completion mid) (hpost : ∀ t, mid t → post t) :
    image.Completes exit a s completion post := by
  intro hat
  obtain ⟨t, hsteps, hlands, ht⟩ := h hat
  exact ⟨t, hsteps, hlands, hpost t ht⟩

theorem seq (ha : image.Reaches a s mid)
    (hb : ∀ t, mid t → image.Completes exit b t completion post) :
    image.Completes exit (a ++ b) s completion post := by
  intro hat
  have hsplit := hat
  rw [Script.lines_append, at_append] at hsplit
  obtain ⟨t, hperforms, ht⟩ := ha hsplit.1
  obtain ⟨u, hsteps, hlands, hu⟩ := hb t ht (hperforms.at_of_append hat)
  refine ⟨u, hperforms.steps.trans hsteps, ?_, hu⟩
  rwa [Script.lines_append, List.length_append, ← Nat.add_assoc, ← hperforms.pc]

/-- What stands behind a return is not reached. -/
theorem leave (h : image.Completes exit a s (.returned value?) post) :
    image.Completes exit (a ++ b) s (.returned value?) post := by
  intro hat
  rw [Script.lines_append, at_append] at hat
  exact h hat.1

theorem skip {operation : Operation} {label : Label} {skipped rest : Script}
    (hexec : ∀ pc, image.target label = some pc → image.exec s operation = some (s.jump pc))
    (hrest : ∀ pc,
      image.Completes exit ([Action.emit (.label label none)] ++ rest) (s.jump pc) completion
        post) :
    image.Completes exit
      ([Action.op operation] ++ skipped ++ ([Action.emit (.label label none)] ++ rest)) s
      completion post := by
  intro hat
  obtain ⟨pc, hstep, hafter, hpc⟩ := step_forward hat hexec
  obtain ⟨t, hsteps, hlands, ht⟩ := hrest pc hafter
  refine ⟨t, .head hstep hsteps, ?_, ht⟩
  rwa [State.pc_jump, hpc, Nat.add_assoc, ← List.length_append, ← Script.lines_append] at hlands

theorem branch_exit {pc : Nat} (hexit : image.target exit = some pc) (hpost : post (s.jump pc)) :
    image.Completes exit [.op (.b exit)] s (.returned value?) post := by
  intro hat
  have hjump : image.step s = some (s.jump pc) := by
    rw [step_of_at hat]
    simp [execLine, Line.instr?, exec, hexit]
  exact ⟨s.jump pc, .single hjump, hexit, hpost⟩

/-- A loop runs again from its first label. -/
theorem again {start : Label} {body rest : Script}
    (hbody : image.Reaches ([Action.emit (.label start none)] ++ body) s mid)
    (hagain : ∀ t, mid t → image.Completes exit
      ([Action.emit (.label start none)] ++ body ++ ([Action.op (.b start)] ++ rest)) (t.jump s.pc)
      completion post) :
    image.Completes exit
      ([Action.emit (.label start none)] ++ body ++ ([Action.op (.b start)] ++ rest)) s
      completion post := by
  intro hat
  have hsplit := hat
  rw [Script.lines_append, at_append] at hsplit
  obtain ⟨t, hperforms, ht⟩ := hbody hsplit.1
  have hstart : image.target start = some s.pc := target_of_line (at_cons.mp hat).1
  have hjump : image.step t = some (t.jump s.pc) := by
    rw [step_of_at (hperforms.at_of_append hat)]
    simp [execLine, Line.instr?, exec, hstart]
  obtain ⟨u, hsteps, hlands, hu⟩ := hagain t ht hat
  exact ⟨u, hperforms.steps.trans (.head hjump hsteps), hlands, hu⟩

end Completes

end Mips.Image

namespace Setting

variable {S : Setting} {s t u : State} {base : Word} {store : Store} {input : List Word}

structure Meets (S : Setting) (snapshot : Snapshot) (s : State) : Prop where
  sits : S.Sits snapshot.store s
  canonical : S.Canonical snapshot.store
  input : s.input = snapshot.input

/-- What a completion leaves on the machine: the stack as it was, or the result in `$v0`. -/
def Ends (S : Setting) (sp : Word) (t : State) : Completion → Prop
  | .normal => t.reg .sp = sp
  | .returned none => True
  | .returned (some value) => S.Represents (t.reg .v0) value

/-- From one state to another the machine did what the source did, and only variables and words
below an address changed. -/
structure Follows (S : Setting) (base : Word) (events : List Event) (completion : Completion)
    (after : Snapshot) (s t : State) : Prop where
  meets : S.Meets after t
  mem : ∀ a : Word, S.Spares base a → (∀ link, ¬S.Place link a) → t.mem a = s.mem a
  events : t.events = s.events ++ events
  ends : S.Ends (s.reg .sp) t completion

theorem Rests.meets (h : S.Rests store s t) (hcanonical : S.Canonical store)
    (hinput : s.input = input) : S.Meets ⟨store, input⟩ t :=
  ⟨h.sits, hcanonical, h.keeps.input.trans hinput⟩

theorem Rests.follows (h : S.Rests store s t) (hcanonical : S.Canonical store)
    (hinput : s.input = input) : S.Follows (s.reg .sp) [] .normal ⟨store, input⟩ s t where
  meets := h.meets hcanonical hinput
  mem := h.keeps.mem
  events := by rw [h.keeps.events, List.append_nil]
  ends := h.sp

namespace Follows

variable {events events' : List Event} {completion : Completion} {middle after : Snapshot}

theorem mono {base' : Word} (h : S.Follows base events completion after s t)
    (hle : base.toNat ≤ base'.toNat) : S.Follows base' events completion after s t where
  meets := h.meets
  mem a ha := h.mem a (ha.mono hle)
  events := h.events
  ends := h.ends

theorem trans (h : S.Follows base events .normal middle s t)
    (h' : S.Follows base events' completion after t u) :
    S.Follows base (events ++ events') completion after s u where
  meets := h'.meets
  mem a ha hplace := (h'.mem a ha hplace).trans (h.mem a ha hplace)
  events := by rw [h'.events, h.events, List.append_assoc]
  ends := by
    have hsp : t.reg .sp = s.reg .sp := h.ends
    exact hsp ▸ h'.ends

theorem jump (h : S.Follows base events .normal after s t) (pc : Nat) :
    S.Follows base events .normal after s (t.jump pc) where
  meets := ⟨h.meets.sits.of_eq rfl rfl rfl, h.meets.canonical, h.meets.input⟩
  mem := h.mem
  events := h.events
  ends := h.ends

theorem trailing {exit : Label} {script last : Script} {start : State}
    (hlast : ∀ action ∈ last, action.isInert)
    (h : S.image.Completes exit script s completion
      (S.Follows base events completion after start)) :
    S.image.Completes exit (script ++ last) s completion
      (S.Follows base events completion after start) := by
  cases completion with
  | normal => exact .seq h.reaches fun t ht => (Image.Reaches.inert hlast (ht.jump _)).completes
  | returned value? => exact h.leave

end Follows

/-- The stack after a pure part of the code is that of its first state. -/
theorem Rests.follows_trans {events : List Event} {completion : Completion} {after : Snapshot}
    (h : S.Rests store s t) (hcanonical : S.Canonical store) (hinput : s.input = input)
    (h' : S.Follows (t.reg .sp) events completion after t u) :
    S.Follows (s.reg .sp) events completion after s u :=
  (h.follows hcanonical hinput).trans (h.sp ▸ h')

/-! ## A word on the stack while code runs -/

section Held

variable {store' : Store} {value : Value} {events : List Event} {after : Snapshot}
  (h : S.Yields value store s t)
include h

theorem Yields.returned {value? : Option Value}
    (h' : S.Follows (s.reg .sp) events (.returned value?) after t u) :
    S.Follows (s.reg .sp) events (.returned value?) after s u where
  meets := h'.meets
  mem a ha hplace := (h'.mem a ha hplace).trans (h.keeps.mem a ha hplace)
  events := by rw [h'.events, h.keeps.events]
  ends := by
    cases value? with
    | none => trivial
    | some _ => exact h'.ends

theorem Yields.popped (hs : S.Sits store' s)
    (h' : S.Follows (s.reg .sp) events .normal after t u) :
    S.Follows (s.reg .sp) events .normal after s (u.pop .t0) := by
  have hsp : u.reg .sp + 4#32 = s.reg .sp := by
    have hends : u.reg .sp = t.reg .sp := h'.ends
    rw [hends, h.sp_add]
  refine ⟨⟨⟨?_, ?_, ?_, ?_, h'.meets.sits.holds⟩, h'.meets.canonical, h'.meets.input⟩, ?_, ?_, ?_⟩
  · simpa using h'.meets.sits.fp
  · simpa [hsp] using hs.below
  · simpa [hsp] using hs.above
  · simpa [hsp] using hs.aligned
  · exact fun a ha hplace => (h'.mem a ha hplace).trans (h.keeps.mem a ha hplace)
  · rw [State.events_pop, h'.events, h.keeps.events]
  · simpa [Ends] using hsp

end Held

end Setting

end StackMips
