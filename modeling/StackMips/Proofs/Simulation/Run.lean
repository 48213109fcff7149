import StackMips.Proofs.Lowering.Performs
import StackMips.Proofs.Machine

/-!
# Running scripts

What the machine does with the lines of a script that has no branch in it, one action of the
generator at a time.
-/

namespace StackMips

open Mips

namespace Mips.State

def push (s : State) (register : Register) : State :=
  { s with
    pc := s.pc + 2
    reg := Function.update s.reg .sp (s.reg .sp - 4#32)
    mem := Function.update s.mem (s.reg .sp) (s.reg register) }

def pop (s : State) (register : Register) : State :=
  { s with
    pc := s.pc + 2
    reg := Function.update (Function.update s.reg register (s.mem (s.reg .sp + 4#32))) .sp
      (s.reg .sp + 4#32) }

section Fields

variable (s : State) (register r : Register) (word address : Word) (event : Event) (pc : Nat)

@[simp] theorem pc_next : s.next.pc = s.pc + 1 := rfl
@[simp] theorem reg_next : s.next.reg = s.reg := rfl
@[simp] theorem mem_next : s.next.mem = s.mem := rfl
@[simp] theorem input_next : s.next.input = s.input := rfl
@[simp] theorem events_next : s.next.events = s.events := rfl

@[simp] theorem pc_jump : (s.jump pc).pc = pc := rfl
@[simp] theorem reg_jump : (s.jump pc).reg = s.reg := rfl
@[simp] theorem mem_jump : (s.jump pc).mem = s.mem := rfl
@[simp] theorem input_jump : (s.jump pc).input = s.input := rfl
@[simp] theorem events_jump : (s.jump pc).events = s.events := rfl

@[simp] theorem pc_set : (s.set register word).pc = s.pc := rfl
@[simp] theorem reg_set :
    (s.set register word).reg r = if r = register then word else s.reg r :=
  Function.update_apply _ _ _ _
@[simp] theorem mem_set : (s.set register word).mem = s.mem := rfl
@[simp] theorem input_set : (s.set register word).input = s.input := rfl
@[simp] theorem events_set : (s.set register word).events = s.events := rfl

@[simp] theorem pc_store : (s.store address word).pc = s.pc := rfl
@[simp] theorem reg_store : (s.store address word).reg = s.reg := rfl
@[simp] theorem mem_store :
    (s.store address word).mem = Function.update s.mem address word := rfl
@[simp] theorem input_store : (s.store address word).input = s.input := rfl
@[simp] theorem events_store : (s.store address word).events = s.events := rfl

@[simp] theorem pc_emit : (s.emit event).pc = s.pc := rfl
@[simp] theorem reg_emit : (s.emit event).reg = s.reg := rfl
@[simp] theorem mem_emit : (s.emit event).mem = s.mem := rfl
@[simp] theorem input_emit : (s.emit event).input = s.input := rfl
@[simp] theorem events_emit : (s.emit event).events = s.events ++ [event] := rfl

@[simp] theorem pc_push : (s.push register).pc = s.pc + 2 := rfl
@[simp] theorem reg_push :
    (s.push register).reg r = if r = .sp then s.reg .sp - 4#32 else s.reg r :=
  Function.update_apply _ _ _ _
@[simp] theorem mem_push :
    (s.push register).mem = Function.update s.mem (s.reg .sp) (s.reg register) := rfl
@[simp] theorem input_push : (s.push register).input = s.input := rfl
@[simp] theorem events_push : (s.push register).events = s.events := rfl

@[simp] theorem pc_pop : (s.pop register).pc = s.pc + 2 := rfl
@[simp] theorem reg_pop : (s.pop register).reg r =
    if r = .sp then s.reg .sp + 4#32 else
      if r = register then s.mem (s.reg .sp + 4#32) else s.reg r := by
  simp [pop, Function.update_apply]
@[simp] theorem mem_pop : (s.pop register).mem = s.mem := rfl
@[simp] theorem input_pop : (s.pop register).input = s.input := rfl
@[simp] theorem events_pop : (s.pop register).events = s.events := rfl

end Fields

end Mips.State

/-- The state after an action, if the machine gets to the next line. -/
def Action.exec (image : Image) (s : State) : Action → Option State
  | .emit line => (image.execLine s line).bind fun t => if t.pc = s.pc + 1 then some t else none
  | .push register => if (s.reg .sp).Aligned then some (s.push register) else none
  | .pop register =>
    if (s.reg .sp + 4#32).Aligned ∧ register ≠ .sp then some (s.pop register) else none
  | .release _ | .mint | .pool _ _ => some s

def Script.exec (image : Image) : Script → State → Option State
  | [], s => some s
  | action :: script, s => (action.exec image s).bind (Script.exec image script)

/-- The machine gets from the first line of a script to the line behind it. -/
structure Mips.Image.Performs (image : Image) (script : Script) (s t : State) : Prop where
  steps : image.Steps s t
  pc : t.pc = s.pc + script.lines.length

namespace Mips.Image

variable {image : Image} {s t u : State}

theorem Performs.append {a b : Script} (ha : image.Performs a s t) (hb : image.Performs b t u) :
    image.Performs (a ++ b) s u where
  steps := ha.steps.trans hb.steps
  pc := by rw [hb.pc, ha.pc, Script.lines_append, List.length_append, Nat.add_assoc]

theorem performs_nil : image.Performs [] s s := ⟨.refl, rfl⟩

theorem Performs.at_of_append {a b : Script} (h : image.Performs a s t)
    (hat : image.At s.pc (Script.lines (a ++ b))) : image.At t.pc (Script.lines b) := by
  rw [Script.lines_append, at_append] at hat
  rw [h.pc]
  exact hat.2

theorem performs_line {line : Line} (hat : image.At s.pc [line])
    (h : image.execLine s line = some t) (hpc : t.pc = s.pc + 1) :
    image.Performs [.emit line] s t where
  steps := .single ((step_of_at hat).trans h)
  pc := hpc

theorem performs_push {register : Register} (hat : image.At s.pc (Action.push register).lines)
    (h : (s.reg .sp).Aligned) : image.Performs [.push register] s (s.push register) where
  steps := by
    obtain ⟨hstore, hsub⟩ := at_cons.mp hat
    have hfirst : image.step s = some (s.store (s.reg .sp) (s.reg register)).next := by
      rw [step_of_at hat]
      simp [execLine, Line.instr?, exec, address, h]
    have hsecond : image.step (s.store (s.reg .sp) (s.reg register)).next =
        some (s.push register) := by
      rw [step_of_at hsub]
      simp [execLine, Line.instr?, exec, State.source, AluOp.eval, wordSize]
      rfl
    exact .head hfirst (.single hsecond)
  pc := rfl

theorem performs_pop {register : Register} (hat : image.At s.pc (Action.pop register).lines)
    (h : (s.reg .sp + 4#32).Aligned) (hregister : register ≠ .sp) :
    image.Performs [.pop register] s (s.pop register) where
  steps := by
    obtain ⟨hload, hadd⟩ := at_cons.mp hat
    have hfirst : image.step s = some (s.set register (s.mem (s.reg .sp + 4#32))).next := by
      rw [step_of_at hat]
      simp [execLine, Line.instr?, exec, address, wordSize, h]
    have hsecond : image.step (s.set register (s.mem (s.reg .sp + 4#32))).next =
        some (s.pop register) := by
      rw [step_of_at hadd]
      simp [execLine, Line.instr?, exec, State.source, AluOp.eval, wordSize, hregister.symm]
      rfl
    exact .head hfirst (.single hsecond)
  pc := rfl

theorem performs_action {action : Action} (hat : image.At s.pc action.lines)
    (h : action.exec image s = some t) : image.Performs [action] s t := by
  cases action with
  | emit line =>
      simp only [Action.exec, Option.bind_eq_some_iff, Option.ite_none_right_eq_some,
        Option.some.injEq] at h
      obtain ⟨_, hexec, hpc, rfl⟩ := h
      exact performs_line hat hexec hpc
  | push register =>
      simp only [Action.exec, Option.ite_none_right_eq_some, Option.some.injEq] at h
      obtain ⟨haligned, rfl⟩ := h
      exact performs_push hat haligned
  | pop register =>
      simp only [Action.exec, Option.ite_none_right_eq_some, Option.some.injEq] at h
      obtain ⟨⟨haligned, hregister⟩, rfl⟩ := h
      exact performs_pop hat haligned hregister
  | release _ | mint | pool _ _ =>
      cases h
      exact ⟨.refl, rfl⟩

/-- Symbolic execution agrees with the machine. -/
theorem performs_of_exec {script : Script} (hat : image.At s.pc script.lines)
    (h : script.exec image s = some t) : image.Performs script s t := by
  induction script generalizing s with
  | nil =>
      cases h
      exact performs_nil
  | cons action script ih =>
      obtain ⟨u, haction, hscript⟩ := Option.bind_eq_some_iff.mp h
      rw [Script.lines_cons, at_append] at hat
      have hfirst := performs_action hat.1 haction
      refine hfirst.append (ih ?_ hscript)
      have hpc := hfirst.pc
      simp only [Script.lines_cons, Script.lines_nil, List.append_nil] at hpc
      rw [hpc]
      exact hat.2

end Mips.Image

/-! ## Symbolic execution -/

section Exec

variable (image : Image) (s : State)

@[simp] theorem Script.exec_nil : Script.exec image [] s = some s := rfl

@[simp] theorem Script.exec_cons (action : Action) (script : Script) :
    Script.exec image (action :: script) s =
      (action.exec image s).bind (Script.exec image script) := rfl

theorem Script.exec_append (a b : Script) :
    Script.exec image (a ++ b) s = (Script.exec image a s).bind (Script.exec image b) := by
  induction a generalizing s with
  | nil => rfl
  | cons action a ih =>
      rw [List.cons_append, Script.exec_cons, Script.exec_cons, Option.bind_assoc]
      exact congrArg _ (funext ih)

@[simp] theorem Action.exec_push (register : Register) :
    (Action.push register).exec image s =
      if (s.reg .sp).Aligned then some (s.push register) else none := rfl

@[simp] theorem Action.exec_pop (register : Register) : (Action.pop register).exec image s =
    if (s.reg .sp + 4#32).Aligned ∧ register ≠ .sp then some (s.pop register) else none := rfl

@[simp] theorem Action.exec_op (operation : Operation) : (Action.op operation).exec image s =
    (image.exec s operation).bind fun t => if t.pc = s.pc + 1 then some t else none := rfl

@[simp] theorem Context.exec_opWith (c : Context) (operation : Operation) (text : String) :
    (c.opWith operation text).exec image s =
      (image.exec s operation).bind fun t => if t.pc = s.pc + 1 then some t else none := rfl

@[simp] theorem Action.exec_label (label : Label) :
    (Action.emit (.label label none)).exec image s = some s.next :=
  if_pos rfl

end Exec

/-! ## Lines that do nothing -/

/-- Comments, labels and switches of the region do nothing, and neither does a stored text. -/
def Action.isInert : Action → Bool
  | .emit (.comment _) | .emit (.region _) | .emit (.label _ none)
  | .emit (.label _ (some ⟨.asciiz _, _⟩)) | .release _ | .mint | .pool _ _ => true
  | _ => false

def Mips.State.past (s : State) (script : Script) : State := s.jump (s.pc + script.lines.length)

theorem Action.exec_of_isInert {image : Image} {s : State} {action : Action}
    (h : action.isInert) : action.exec image s = some (s.past [action]) := by
  have hemit : ∀ line, image.execLine s line = some s.next →
      (Action.emit line).exec image s = some (s.past [.emit line]) := by
    intro line hline
    rw [Action.exec, hline]
    exact if_pos rfl
  unfold Action.isInert at h
  split at h
  · exact hemit _ rfl
  · exact hemit _ rfl
  · exact hemit _ rfl
  · exact hemit _ rfl
  · rfl
  · rfl
  · rfl
  · cases h

theorem Script.exec_of_isInert {image : Image} {script : Script}
    (h : ∀ action ∈ script, action.isInert) (s : State) :
    script.exec image s = some (s.past script) := by
  induction script generalizing s with
  | nil => rfl
  | cons action script ih =>
      rw [List.forall_mem_cons] at h
      rw [exec_cons, Action.exec_of_isInert h.1, Option.bind_some, ih h.2]
      simp [State.past, State.jump, Nat.add_assoc]

theorem Mips.Image.performs_inert {image : Image} {script : Script} {s : State}
    (h : ∀ action ∈ script, action.isInert) (hat : image.At s.pc script.lines) :
    image.Performs script s (s.past script) :=
  performs_of_exec hat (Script.exec_of_isInert h s)

theorem Context.isInert_note (c : Context) (text : String) :
    ∀ action ∈ c.note text, action.isInert := by
  unfold Context.note
  split <;> simp [Action.isInert]

theorem Context.isInert_pooling (c : Context) (text : String) :
    ∀ action ∈ c.pooling text, action.isInert := by
  unfold Context.pooling
  split <;> simp [Action.isInert]

/-! ## Reaching a state behind a script -/

/-- If the lines of the script are next, the machine gets behind them, to a state with a
property. -/
def Mips.Image.Reaches (image : Image) (script : Script) (s : State) (post : State → Prop) : Prop :=
  image.At s.pc script.lines → ∃ t, image.Performs script s t ∧ post t

theorem Mips.Image.step_forward {image : Image} {s : State} {operation : Operation} {label : Label}
    {skipped rest : Script}
    (hat : image.At s.pc
      (Script.lines
        ([Action.op operation] ++ skipped ++ ([Action.emit (.label label none)] ++ rest))))
    (hexec : ∀ pc, image.target label = some pc → image.exec s operation = some (s.jump pc)) :
    ∃ pc, image.step s = some (s.jump pc) ∧
      image.At pc (Script.lines ([Action.emit (.label label none)] ++ rest)) ∧
      pc = s.pc + (Script.lines ([Action.op operation] ++ skipped)).length := by
  rw [Script.lines_append, at_append] at hat
  obtain ⟨hbefore, hafter⟩ := hat
  have hlabel := (at_cons.mp hafter).1
  exact ⟨_, (step_of_at hbefore).trans (hexec _ (target_of_line hlabel)), hafter, rfl⟩

namespace Mips.Image.Reaches

variable {image : Image} {a b script : Script} {s t : State} {mid post : State → Prop}

theorem seq (ha : image.Reaches a s mid) (hb : ∀ t, mid t → image.Reaches b t post) :
    image.Reaches (a ++ b) s post := by
  intro hat
  have hsplit := hat
  rw [Script.lines_append, at_append] at hsplit
  obtain ⟨t, hperforms, ht⟩ := ha hsplit.1
  obtain ⟨u, hperforms', hu⟩ := hb t ht (hperforms.at_of_append hat)
  exact ⟨u, hperforms.append hperforms', hu⟩

theorem exec (h : script.exec image s = some t) (hpost : post t) :
    image.Reaches script s post :=
  fun hat => ⟨t, performs_of_exec hat h, hpost⟩

theorem inert (h : ∀ action ∈ script, action.isInert) (hpost : post (s.past script)) :
    image.Reaches script s post :=
  fun hat => ⟨s.past script, performs_inert h hat, hpost⟩

theorem mono (h : image.Reaches script s mid) (hpost : ∀ t, mid t → post t) :
    image.Reaches script s post := by
  intro hat
  obtain ⟨t, hperforms, ht⟩ := h hat
  exact ⟨t, hperforms, hpost t ht⟩

/-- A forward branch that is taken skips the lines up to its label. -/
theorem skip {operation : Operation} {label : Label} {skipped rest : Script}
    (hexec : ∀ pc, image.target label = some pc → image.exec s operation = some (s.jump pc))
    (hrest : ∀ pc, image.Reaches ([Action.emit (.label label none)] ++ rest) (s.jump pc) post) :
    image.Reaches
      ([Action.op operation] ++ skipped ++ ([Action.emit (.label label none)] ++ rest)) s post := by
  intro hat
  obtain ⟨pc, hstep, hafter, hpc⟩ := step_forward hat hexec
  obtain ⟨t, hperforms, ht⟩ := hrest pc hafter
  refine ⟨t, ⟨.head hstep hperforms.steps, ?_⟩, ht⟩
  rw [hperforms.pc, State.pc_jump, hpc, Nat.add_assoc, ← List.length_append, ← Script.lines_append]

end Mips.Image.Reaches

end StackMips
