import Mathlib.Order.Nat
import StackMips.Proofs.Booleans.Run

/-!
# Safe code

Code is safe if whatever stands behind it is.  This module says how safety gets through the steps of
a script, one kind of line at a time: lines that do nothing, operations, pushes and pops, and
branches.
-/

namespace StackMips

open Mips

def Mips.Operation.isQuiet : Operation → Bool
  | .lw .v0 _ | .jal _ | .jr _ | .beq _ _ _ | .alu .seq _ _ (.imm 0) => false
  | _ => true

theorem Mips.Operation.tested?_of_isQuiet {operation : Operation} (h : operation.isQuiet) :
    operation.tested? = none := by
  unfold isQuiet at h
  split at h <;> cases h
  unfold tested?
  split <;> simp_all

/-! ## What operations do -/

namespace Mips.Image

variable {image : Image} {s t : State}

theorem eq_of_sw {src : Register} {address : Address}
    (h : image.exec s (.sw src address) = some t) :
    t = (s.store (image.address s address) (s.reg src)).next := by
  simp only [exec, Option.ite_none_right_eq_some, Option.some.injEq] at h
  exact h.2.symm

theorem eq_of_lw {dst : Register} {address : Address}
    (h : image.exec s (.lw dst address) = some t) :
    t = (s.set dst (s.mem (image.address s address))).next := by
  simp only [exec, Option.ite_none_right_eq_some, Option.some.injEq] at h
  exact h.2.symm

theorem exists_of_alu {op : AluOp} {dst left : Register} {right : Source}
    (h : image.exec s (.alu op dst left right) = some t) :
    ∃ word, op.eval (s.reg left) (s.source right) = some word ∧ t = (s.set dst word).next := by
  obtain ⟨word, heval, rfl⟩ := Option.map_eq_some_iff.mp h
  exact ⟨word, heval, rfl⟩

theorem cases_of_branch {taken : Prop} [Decidable taken] {label : Label}
    (h : (if taken then (image.target label).map s.jump else some s.next) = some t) :
    t = s.next ∨ ∃ pc, image.target label = some pc ∧ t = s.jump pc := by
  split at h
  · obtain ⟨pc, htarget, rfl⟩ := Option.map_eq_some_iff.mp h
    exact .inr ⟨pc, htarget, rfl⟩
  · cases h
    exact .inl rfl

/-- A service of the simulator changes no register but `$v0`, and no word. -/
theorem of_syscall (h : image.exec s .syscall = some t) :
    t.pc = s.pc + 1 ∧ t.mem = s.mem ∧
      ∀ register ≠ Register.v0, t.reg register = s.reg register := by
  simp only [exec, syscall] at h
  split at h
  · cases h
    exact ⟨rfl, rfl, fun _ _ => rfl⟩
  · split at h
    · obtain ⟨_, _, rfl⟩ := Option.map_eq_some_iff.mp h
      exact ⟨rfl, rfl, fun _ _ => rfl⟩
    · split at h
      · split at h
        · cases h
        · cases h
          exact ⟨rfl, rfl, fun register hregister => by simp [hregister]⟩
      · cases h

end Mips.Image

namespace Process

/-- Whenever the lines of the script are next, and all states behind them that have a property are
safe for a number of steps, this state is. -/
def Leads (P : Process) (n : Nat) (script : Script) (x : Config) (post : Config → Prop) : Prop :=
  P.image.At x.state.pc script.lines →
    (∀ y, y.state.pc = x.state.pc + script.lines.length → post y → P.Safe n y) → P.Safe n x

variable {P : Process} {n : Nat} {x : Config} {a b script : Script} {mid post : Config → Prop}

theorem track_of_isQuiet {operation : Operation} (h : operation.isQuiet) :
    P.track x operation = x.active := by
  unfold Operation.isQuiet at h
  split at h <;> cases h
  unfold track
  split <;> simp_all

theorem flags_track_lw (x : Config) (register : Register) (address : Address) :
    P.flags (P.track x (.lw register address)) = P.flags x.active := by
  cases register with
  | v0 => cases hactive : x.active <;> simp [track, flags, hactive, Activation.flags]
  | _ => rfl

namespace Leads

theorem nil (h : post x) : P.Leads n [] x post :=
  fun _ hbehind => hbehind x rfl h

theorem mono (h : P.Leads n script x mid) (hpost : ∀ y, mid y → post y) :
    P.Leads n script x post :=
  fun hat hbehind => h hat fun y hpc hy => hbehind y hpc (hpost y hy)

theorem of_lines (h : P.Leads n a x post) (hlines : b.lines = a.lines) : P.Leads n b x post := by
  rw [Leads, hlines]
  exact h

theorem seq (ha : P.Leads n a x mid) (hb : ∀ y, mid y → P.Leads n b y post) :
    P.Leads n (a ++ b) x post := by
  intro hat hbehind
  rw [Script.lines_append, Image.at_append] at hat
  refine ha hat.1 fun y hpc hy => hb y hy (hpc ▸ hat.2) fun z hz => hbehind z ?_
  rw [hz, hpc, Script.lines_append, List.length_append, Nat.add_assoc]

theorem cons {action : Action} (h : P.Leads n [action] x mid)
    (hscript : ∀ y, mid y → P.Leads n script y post) : P.Leads n (action :: script) x post :=
  h.seq hscript

/-! ## Single lines -/

section Lines

variable (hflags : ∀ a ∈ P.flags x.active, (x.state.mem a).IsFlag)
include hflags

theorem op {operation : Operation} {comment : Option String}
    (htested : ∀ register ∈ operation.tested?, (x.state.reg register).IsFlag)
    (h : ∀ t, P.image.exec x.state operation = some t → P.Permits x operation →
      P.floor + 4 ≤ (t.reg .sp).toNat → t.pc = x.state.pc + 1 ∧ post ⟨t, P.track x operation⟩) :
    P.Leads n [.emit (.op ⟨operation, comment⟩)] x post := by
  intro hat hbehind
  have hline := (Image.at_cons.mp hat).1
  refine safe_of_line hline ⟨hflags, ?_⟩ fun m hm t hexec hpermitted hroom => ?_
  · rw [Image.operation?, hline]
    simpa [Line.operation?, Line.instr?] using htested
  · obtain ⟨hpc, hpost⟩ := h t hexec (hpermitted _ rfl) hroom
    exact (hbehind _ hpc hpost).mono hm.le

theorem quiet {operation : Operation} {comment : Option String} (hquiet : operation.isQuiet)
    (h : ∀ t, P.image.exec x.state operation = some t → P.Permits x operation →
      P.floor + 4 ≤ (t.reg .sp).toNat → t.pc = x.state.pc + 1 ∧ post ⟨t, x.active⟩) :
    P.Leads n [.emit (.op ⟨operation, comment⟩)] x post := by
  refine op hflags ?_ ?_
  · simp [Operation.tested?_of_isQuiet hquiet]
  · rwa [track_of_isQuiet hquiet]

theorem inertAction {action : Action} (h : action.isInert)
    (hpost : post ⟨x.state.past [action], x.active⟩) : P.Leads n [action] x post := by
  have hemit : ∀ line, (∀ operation ∈ line.operation?, operation.isQuiet) →
      P.image.execLine x.state line = some x.state.next → post ⟨x.state.next, x.active⟩ →
      P.Leads n [.emit line] x post := by
    intro line hquiet hexec hpost hat hbehind
    have hline := (Image.at_cons.mp hat).1
    refine safe_of_line hline ⟨hflags, ?_⟩ fun m hm t ht _ _ => ?_
    · rw [Image.operation?, hline, Option.bind_some]
      intro operation hoperation
      simp [Operation.tested?_of_isQuiet (hquiet operation hoperation)]
    · cases ht.symm.trans hexec
      have hactive : (line.operation?.map (P.track x)).getD x.active = x.active := by
        cases hoperation : line.operation? with
        | none => rfl
        | some operation => exact track_of_isQuiet (hquiet operation hoperation)
      rw [hactive]
      exact (hbehind _ rfl hpost).mono hm.le
  unfold Action.isInert at h
  split at h
  · exact hemit _ (by simp [Line.operation?, Line.instr?]) rfl hpost
  · exact hemit _ (by simp [Line.operation?, Line.instr?]) rfl hpost
  · exact hemit _ (by simp [Line.operation?, Line.instr?]) rfl hpost
  · exact hemit _ (by simp [Line.operation?, Line.instr?, Operation.isQuiet]) rfl hpost
  · exact fun _ hbehind => hbehind _ rfl hpost
  · exact fun _ hbehind => hbehind _ rfl hpost
  · exact fun _ hbehind => hbehind _ rfl hpost
  · cases h

theorem inert (h : ∀ action ∈ script, action.isInert)
    (hpost : post ⟨x.state.past script, x.active⟩) : P.Leads n script x post := by
  induction script generalizing x with
  | nil => exact nil hpost
  | cons action script ih =>
      rw [List.forall_mem_cons] at h
      rw [← List.singleton_append]
      refine (inertAction hflags h.1 rfl).seq ?_
      rintro _ rfl
      refine ih hflags h.2 ?_
      simpa [State.past, State.jump, Nat.add_assoc] using hpost

theorem push {register : Register} (hapart : x.state.reg .sp ∉ P.flags x.active)
    (h : P.floor + 4 ≤ (x.state.reg .sp - 4#32).toNat →
      post ⟨x.state.push register, x.active⟩) : P.Leads n [Action.push register] x post := by
  let stored := (x.state.store (x.state.reg .sp) (x.state.reg register)).next
  have hstore : P.Leads n [Action.op (.sw register (.indexed 0 .sp))] x
      (· = ⟨stored, x.active⟩) := by
    refine quiet hflags rfl fun t ht _ _ => ?_
    obtain rfl := Image.eq_of_sw ht
    simp [stored, Image.address]
  have hkept : ∀ a ∈ P.flags x.active, (stored.mem a).IsFlag := by
    intro a ha
    have hne : a ≠ x.state.reg .sp := fun heq => hapart (heq ▸ ha)
    simpa [stored, hne] using hflags a ha
  have hsub : P.Leads n [Action.op (.alu .subu .sp .sp (.imm wordSize))] ⟨stored, x.active⟩
      post := by
    refine quiet hkept rfl fun t ht _ hroom => ?_
    cases ht
    exact ⟨rfl, h (by simpa [stored, State.source, wordSize] using hroom)⟩
  have hboth := hstore.seq fun y (hy : y = _) => hy ▸ hsub
  exact hboth.of_lines rfl

/-- Loading `$v0` is tracked: it is what a return statement does. -/
theorem pop {register : Register} (hregister : register ≠ .sp)
    (h : post ⟨x.state.pop register, P.track x (.lw register (.indexed wordSize .sp))⟩) :
    P.Leads n [Action.pop register] x post := by
  let loaded := (x.state.set register (x.state.mem (x.state.reg .sp + 4#32))).next
  let active := P.track x (.lw register (.indexed wordSize .sp))
  have hload : P.Leads n [Action.op (.lw register (.indexed wordSize .sp))] x
      (· = ⟨loaded, active⟩) := by
    refine op hflags (by simp [Operation.tested?]) fun t ht _ _ => ?_
    obtain rfl := Image.eq_of_lw ht
    simp [loaded, active, Image.address, wordSize]
  have hkept : ∀ a ∈ P.flags active, (loaded.mem a).IsFlag := by
    rw [flags_track_lw]
    exact hflags
  have hadd : P.Leads n [Action.op (.alu .addu .sp .sp (.imm wordSize))] ⟨loaded, active⟩ post := by
    refine quiet hkept rfl fun t ht _ _ => ?_
    have hstate : (loaded.set .sp (loaded.reg .sp + loaded.source (.imm wordSize))).next =
        x.state.pop register := by
      simp [loaded, State.source, State.pop, State.set, State.next, hregister.symm, wordSize]
    obtain rfl := Option.some.inj (ht.symm.trans (congrArg some hstate))
    exact ⟨rfl, h⟩
  have hboth := hload.seq fun y (hy : y = _) => hy ▸ hadd
  exact hboth.of_lines rfl

/-! ## Branches -/

/-- A forward branch that can be taken or not. -/
theorem branch {operation : Operation} {label : Label} {skipped rest : Script}
    (htrack : P.track x operation = x.active)
    (htested : ∀ register ∈ operation.tested?, (x.state.reg register).IsFlag)
    (hexec : ∀ t, P.image.exec x.state operation = some t →
      t = x.state.next ∨ ∃ pc, P.image.target label = some pc ∧ t = x.state.jump pc)
    (hfall : P.Leads n (skipped ++ ([Action.emit (.label label none)] ++ rest))
      ⟨x.state.next, x.active⟩ post)
    (htaken : ∀ pc, P.Leads n ([Action.emit (.label label none)] ++ rest)
      ⟨x.state.jump pc, x.active⟩ post) :
    P.Leads n ([Action.op operation] ++ skipped ++ ([Action.emit (.label label none)] ++ rest)) x
      post := by
  intro hat hbehind
  rw [List.append_assoc, Script.lines_append, Image.at_append] at hat
  obtain ⟨hop, hrest⟩ := hat
  have hline := (Image.at_cons.mp hop).1
  refine safe_of_line hline ⟨hflags, ?_⟩ fun m hm t ht _ _ => ?_
  · rw [Image.operation?, hline]
    simpa [Line.operation?, Line.instr?] using htested
  · have hactive : ((Line.operation? (.op { operation })).map (P.track x)).getD x.active =
        x.active := htrack
    rw [hactive]
    refine Safe.mono ?_ hm.le
    simp only [Script.lines_append, List.length_append, ← Nat.add_assoc] at hbehind
    rcases hexec t ht with rfl | ⟨pc, htarget, rfl⟩
    · refine hfall hrest fun y hpc => hbehind y ?_
      simp only [hpc, Script.lines_append, List.length_append, ← Nat.add_assoc]
      rfl
    · rw [Script.lines_append, Image.at_append] at hrest
      cases (Image.target_of_line (Image.at_cons.mp hrest.2).1).symm.trans htarget
      refine htaken _ hrest.2 fun y hpc => hbehind y ?_
      simp only [hpc, Script.lines_append, List.length_append, ← Nat.add_assoc]
      rfl

theorem jump {label : Label} {rest : Script}
    (h : ∀ m < n, ∀ pc, P.image.target label = some pc → P.Safe m ⟨x.state.jump pc, x.active⟩) :
    P.Leads n ([Action.op (.b label)] ++ rest) x post := by
  intro hat _
  have hline := (Image.at_cons.mp hat).1
  refine safe_of_line hline ⟨hflags, ?_⟩ fun m hm t ht _ _ => ?_
  · rw [Image.operation?, hline]
    simp [Line.operation?, Line.instr?, Operation.tested?]
  · obtain ⟨pc, htarget, rfl⟩ := Option.map_eq_some_iff.mp ht
    exact h m hm pc htarget

end Lines

end Leads

end Process

end StackMips
