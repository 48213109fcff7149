import Mathlib.Data.BitVec
import StackMips.Proofs.CallingConvention
import StackMips.Proofs.Lowering.Stmt
import StackMips.Proofs.Simulation.Straight

/-!
# Steps and the assignments they abbreviate

A step adds one to a variable or takes one away, as an assignment can do.  Both find the variable at
the same address and store the same word there, as long as the word has a neighbour in the range of
signed words.  At the end of the range they differ: the operation of a step traps, the operator in
an assignment wraps around.
-/

namespace StackMips

open Mips

/-! ## Steps -/

inductive Step where
  | up
  | down
  deriving DecidableEq

namespace Step

/-- The statement `x++` or `x--`. -/
def short (x : Ident) : Step → Stmt
  | .up => .increment (.name x)
  | .down => .decrement (.name x)

def operator : Step → BinaryOp
  | .up => .add
  | .down => .sub

/-- The assignment `x = x + 1` or `x = x - 1`, with positions for its three leaves. -/
def long (step : Step) (x : Ident) (target operand one : Pos) : Stmt :=
  .assign (.name { x with pos := target })
    (.binary step.operator (.name { x with pos := operand }) (.int 1 one))

def trapping : Step → AluOp
  | .up => .add
  | .down => .sub

def wrapping : Step → AluOp
  | .up => .addu
  | .down => .subu

def note : Step → String
  | .up => "POSTINC"
  | .down => "POSTDEC"

/-- The next word in the direction of the step, modulo 2^32. -/
def apply (word : Word) : Step → Word
  | .up => word + 1
  | .down => word - 1

def limit : Step → Word
  | .up => .intMax 32
  | .down => .intMin 32

theorem eval_wrapping (step : Step) (word : Word) :
    step.wrapping.eval word 1#32 = some (step.apply word) := by
  cases step <;> rfl

theorem saddOverflow_one_iff (word : Word) : word.saddOverflow 1#32 ↔ word = .intMax 32 := by
  have hlt := word.toInt_lt
  have hle := word.le_toInt
  have hone : (1#32).toInt = 1 := by decide
  have hmax : (BitVec.intMax 32).toInt = 2 ^ 31 - 1 := by decide
  rw [← BitVec.toInt_inj, hmax]
  simp only [BitVec.saddOverflow, hone, Bool.or_eq_true, decide_eq_true_eq]
  omega

theorem ssubOverflow_one_iff (word : Word) : word.ssubOverflow 1#32 ↔ word = .intMin 32 := by
  have hlt := word.toInt_lt
  have hle := word.le_toInt
  have hone : (1#32).toInt = 1 := by decide
  have hmin : (BitVec.intMin 32).toInt = -2 ^ 31 := by decide
  rw [← BitVec.toInt_inj, hmin]
  simp only [BitVec.ssubOverflow, hone, Bool.or_eq_true, decide_eq_true_eq]
  omega

theorem eval_trapping_limit (step : Step) : step.trapping.eval step.limit 1#32 = none := by
  cases step <;> rfl

theorem eval_trapping (step : Step) {word : Word} (h : word ≠ step.limit) :
    step.trapping.eval word 1#32 = some (step.apply word) := by
  cases step with
  | up => exact if_neg (mt (saddOverflow_one_iff word).mp h)
  | down => exact if_neg (mt (ssubOverflow_one_iff word).mp h)

end Step

/-! ## Running the code -/

/-- Code for a statement has stored a word.  Apart from it only the two free words that are next on
the stack may have changed in memory. -/
structure Mips.State.Writes (s t : State) (a word : Word) : Prop where
  sp : t.reg .sp = s.reg .sp
  fp : t.reg .fp = s.reg .fp
  input : t.input = s.input
  events : t.events = s.events
  target : t.mem a = word
  others : ∀ address, address ≠ a → address ≠ s.reg .sp → address ≠ s.reg .sp - 4#32 →
    t.mem address = s.mem address

/-- The word at an address after the address itself has been pushed. -/
def Mips.State.found (s : State) (a : Word) : Word :=
  if a = s.reg .sp then a else s.mem a

/-- Two states that the code for a statement can leave, if it starts with this stack pointer.  They
differ at most in the two free words that are next on the stack and in registers that nothing is
kept in. -/
structure Mips.State.Agrees (t : State) (top : Word) (t' : State) : Prop where
  sp : t.reg .sp = t'.reg .sp
  fp : t.reg .fp = t'.reg .fp
  input : t.input = t'.input
  events : t.events = t'.events
  mem : ∀ address, address ≠ top → address ≠ top - 4#32 → t.mem address = t'.mem address

namespace Mips.State

variable {s t t' : State} {a word word' : Word}

theorem found_of_ne (h : a ≠ s.reg .sp) : s.found a = s.mem a := if_neg h

theorem Writes.of_jump {pc : Nat} (h : (s.jump pc).Writes t a word) : s.Writes t a word :=
  ⟨h.sp, h.fp, h.input, h.events, h.target, h.others⟩

theorem Writes.agrees (h : s.Writes t a word) (h' : s.Writes t' a word')
    (hword : a ≠ s.reg .sp → word = word') : t.Agrees (s.reg .sp) t' where
  sp := h.sp.trans h'.sp.symm
  fp := h.fp.trans h'.fp.symm
  input := h.input.trans h'.input.symm
  events := h.events.trans h'.events.symm
  mem address hsp hnext := by
    by_cases ha : address = a
    · subst ha
      exact h.target.trans ((hword hsp).trans h'.target.symm)
    · exact (h.others address ha hsp hnext).trans (h'.others address ha hsp hnext).symm

/-- The state behind the code of a step.  The address of the variable is pushed before its value is
loaded. -/
def stepped (s : State) (note : Script) (a result : Word) : State :=
  let addressed := (((s.past note).set .t0 a).next.push .t0).pop .t1
  let loaded := ((addressed.set .t0 (s.found a)).next.push .t0).pop .t0
  ((loaded.set .t0 result).next.store a result).next

theorem writes_stepped (s : State) (note : Script) (a result : Word) :
    s.Writes (s.stepped note a result) a result := by
  constructor <;> simp +contextual [stepped, past]

/-- The state behind the code of an assignment that adds one or takes it away.  The value of the
variable is loaded before anything is pushed. -/
def assigned (s : State) (assign operation : Script) (a result : Word) : State :=
  let left := (((s.past assign).past operation).set .t0 (s.mem a)).next.push .t0
  let right := (left.set .t0 1#32).next.push .t0
  let computed := (((right.pop .t1).pop .t0).set .t0 result).next.push .t0
  let addressed := (computed.set .t0 a).next.push .t0
  ((((addressed.pop .t0).pop .t1).store a result).next.push .t1).pop .t0

theorem writes_assigned (s : State) (assign operation : Script) (a result : Word) :
    s.Writes (s.assigned assign operation a result) a result := by
  have hne : s.reg .sp ≠ s.reg .sp - 4#32 := by bv_omega
  constructor <;>
    simp +contextual [assigned, past, Function.update_apply, hne]

end Mips.State

theorem Mips.Image.address_location (image : Image) (s : State) (location : Location) :
    image.address s location.address = image.locate (s.reg .fp) location := by
  cases location <;> rfl

section Exec

variable {c : Context} {x : Ident} {location : Location} {image : Image} {s : State} {a : Word}

namespace Context

theorem exec_load (h : c.symbols.location? x = some location) :
    Script.exec image (c.load x) s =
      if (image.locate (s.reg .fp) location).Aligned ∧ (s.reg .sp).Aligned then
        some ((s.set .t0 (s.mem (image.locate (s.reg .fp) location))).next.push .t0)
      else none := by
  have hload : Script.exec image (c.load x) s =
      Script.exec image [.op (.lw .t0 location.address), .push .t0] s := by
    cases location <;> rw [load, h] <;> rfl
  rw [hload]
  by_cases ha : (image.locate (s.reg .fp) location).Aligned <;>
    by_cases hsp : (s.reg .sp).Aligned <;> simp [Image.exec, image.address_location, ha, hsp]

theorem exec_loadAddress (h : c.symbols.location? x = some location) :
    Script.exec image (c.loadAddress x) s =
      if (s.reg .sp).Aligned then
        some ((s.set .t0 (image.locate (s.reg .fp) location)).next.push .t0)
      else none := by
  have hload : Script.exec image (c.loadAddress x) s =
      Script.exec image [.op (.la .t0 location.address), .push .t0] s := by
    cases location <;> rw [loadAddress, h] <;> rfl
  rw [hload]
  by_cases hsp : (s.reg .sp).Aligned <;> simp [Image.exec, image.address_location, hsp]

theorem exec_constant (value : Int) :
    Script.exec image (c.constant value) s =
      if (s.reg .sp).Aligned then some ((s.set .t0 (.ofInt 32 value)).next.push .t0)
      else none := by
  by_cases hsp : (s.reg .sp).Aligned <;> simp [constant, Image.exec, hsp]

theorem exec_step (hx : c.symbols.location? x = some location)
    (hlocate : image.locate (s.reg .fp) location = a) (op : AluOp) (text : String) :
    Script.exec image (c.step op text (.name x)) s =
      if (s.reg .sp).Aligned ∧ a.Aligned then
        (op.eval (s.found a) 1#32).map (s.stepped (c.note text) a)
      else none := by
  by_cases hsp : (s.reg .sp).Aligned
  · by_cases ha : a.Aligned
    · cases heval : op.eval (s.found a) 1#32 <;> rw [State.found] at heval <;>
        simp [step, Script.exec_append, Script.exec_of_isInert (c.isInert_note text), address,
          exec_loadAddress hx, Expr.script, exec_load hx, State.past, hsp, ha, hlocate, Image.exec,
          Image.address, State.source, Function.update_apply, heval, State.stepped, State.found]
    · simp [step, Script.exec_append, Script.exec_of_isInert (c.isInert_note text), address,
        exec_loadAddress hx, Expr.script, exec_load hx, State.past, hsp, ha, hlocate]
  · simp [step, Script.exec_append, Script.exec_of_isInert (c.isInert_note text), address,
      exec_loadAddress hx, State.past, hsp]

end Context

theorem Stmt.exec_assign {y : Ident} (hx : c.symbols.location? x = some location)
    (hy : c.symbols.location? y = some location) (hlocate : image.locate (s.reg .fp) location = a)
    {op : BinaryOp} {alu : AluOp} {text : String} (hop : op.code = .strict alu text) (one : Pos)
    (exit : Label) :
    Script.exec image ((assign (.name x) (.binary op (.name y) (.int 1 one))).script c exit) s =
      if (s.reg .sp).Aligned ∧ a.Aligned then
        (alu.eval (s.mem a) 1#32).map (s.assigned (c.note "ASSIGN") (c.note text) a)
      else none := by
  by_cases haligned : (s.reg .sp).Aligned ∧ a.Aligned
  · obtain ⟨hsp, ha⟩ := haligned
    have hbelow : (s.reg .sp - 4#32).Aligned := Word.aligned_below hsp 1
    have hne : s.reg .sp ≠ s.reg .sp - 4#32 := by bv_omega
    cases heval : alu.eval (s.mem a) 1#32 <;>
      simp [script, Expr.script, hop, Script.exec_append,
        Script.exec_of_isInert (c.isInert_note _), Context.exec_load hy,
        Context.exec_loadAddress hx, Context.address, Context.exec_constant, State.past, hsp, ha,
        hlocate, Image.exec, Image.address, State.source, Function.update_apply, hbelow, hne, heval,
        State.assigned]
  · have hload : ¬ (a.Aligned ∧ (s.reg .sp).Aligned) := fun h => haligned h.symm
    simp [script, Expr.script, hop, Script.exec_append, Script.exec_of_isInert (c.isInert_note _),
      Context.exec_load hy, State.past, hlocate, hload, haligned]

end Exec

/-! ## The code is straight -/

namespace Context

theorem isStraight_note (c : Context) (text : String) :
    ∀ action ∈ c.note text, action.isStraight := by
  unfold note
  split <;> simp [Action.isStraight, Line.isStraight, Line.instr?]

theorem isStraight_load (c : Context) (x : Ident) : ∀ action ∈ c.load x, action.isStraight := by
  unfold load
  split <;> simp [opWith, Action.isStraight, Line.isStraight, Line.instr?, Operation.isStraight]

theorem isStraight_loadAddress (c : Context) (x : Ident) :
    ∀ action ∈ c.loadAddress x, action.isStraight := by
  unfold loadAddress
  split <;>
    simp [opWith, Action.op, Action.isStraight, Line.isStraight, Line.instr?,
      Operation.isStraight]

theorem isStraight_step (c : Context) (op : AluOp) (text : String) (x : Ident) :
    ∀ action ∈ c.step op text (.name x), action.isStraight := by
  simp only [step, address, Expr.script, List.forall_mem_append]
  refine ⟨⟨⟨⟨c.isStraight_note text, c.isStraight_loadAddress x⟩, ?_⟩, c.isStraight_load x⟩, ?_⟩
  · simp [Action.isStraight]
  · simp [Action.op, Action.isStraight, Line.isStraight, Line.instr?, Operation.isStraight]

end Context

/-! ## The code that is emitted -/

namespace Step

variable {g : Generator} {x : Ident}

theorem code_operator (step : Step) : ∃ text, step.operator.code = .strict step.wrapping text := by
  cases step <;> exact ⟨_, rfl⟩

theorem short_performs (step : Step) (hx : g.context.symbols.ty? x = some .int) :
    Performs (step.short x).lower g (g.context.step step.trapping step.note (.name x)) [] := by
  have hlowers : (step.short x).Lowers g.context.symbols := by
    cases step with
    | up =>
        exact Stmt.step_lowers ⟨.int, .name hx, rfl⟩ rfl (Expr.name_lowers hx)
          (by rw [short, Stmt.lower, Gen.increment]) (fun _ _ => by rw [short, Stmt.script])
          (by rw [short, Stmt.blocked])
    | down =>
        exact Stmt.step_lowers ⟨.int, .name hx, rfl⟩ rfl (Expr.name_lowers hx)
          (by rw [short, Stmt.lower, Gen.decrement]) (fun _ _ => by rw [short, Stmt.script])
          (by rw [short, Stmt.blocked])
  have hperforms := hlowers.performs g rfl
  cases step <;> exact hperforms

theorem long_performs (step : Step) (target operand one : Pos)
    (hx : g.context.symbols.ty? x = some .int) :
    Performs (step.long x target operand one).lower g
      ((step.long x target operand one).script g.context g.exit) [] := by
  have hfamily : step.operator.family = .arithmetic := by cases step <;> rfl
  have hvalue : (Expr.binary step.operator (.name { x with pos := operand })
      (.int 1 one)).Lowers g.context.symbols :=
    Expr.binary_lowers (Expr.name_lowers hx) (Expr.int_lowers 1 one)
  have htyped : (Expr.assign (.name { x with pos := target })
      (.binary step.operator (.name { x with pos := operand }) (.int 1 one))).HasType
        g.context.symbols .int :=
    .assign (.name hx) (.arithmetic hfamily (.name hx) (.int 1 one)) rfl
  exact (Stmt.assign_lowers ⟨.int, htyped, rfl⟩ rfl hvalue).performs g rfl

theorem isStraight_long (step : Step) (target operand one : Pos) (c : Context) (exit : Label) :
    ∀ action ∈ (step.long x target operand one).script c exit, action.isStraight := by
  obtain ⟨text, hcode⟩ := step.code_operator
  simp only [long, Stmt.script, Expr.script, hcode, Context.address, List.forall_mem_append]
  refine ⟨⟨⟨⟨c.isStraight_note _, ⟨⟨c.isStraight_note text, c.isStraight_load _⟩, ?_⟩, ?_⟩,
    c.isStraight_loadAddress _⟩, ?_⟩, ?_⟩ <;>
    simp [Context.constant, Context.opWith, Action.op, Action.isStraight, Line.isStraight,
      Line.instr?, Operation.isStraight]

/-! ## How the code ends -/

section Ends

variable {c : Context} {location : Location} {image : Image} {s : State} {a : Word}
  (hx : c.symbols.location? x = some location) (hlocate : image.locate (s.reg .fp) location = a)
include hx hlocate

/-- The code of the short statement traps at an address that is not aligned, and at the limit. -/
theorem short_traps (step : Step)
    (hat : image.At s.pc (c.step step.trapping step.note (.name x)).lines)
    (h : ¬ ((s.reg .sp).Aligned ∧ a.Aligned) ∨ s.found a = step.limit) :
    image.Traps (c.step step.trapping step.note (.name x)).lines s := by
  refine Script.traps_of_exec (c.isStraight_step _ _ x) hat ?_
  rw [Context.exec_step hx hlocate]
  by_cases haligned : (s.reg .sp).Aligned ∧ a.Aligned
  · rw [if_pos haligned, h.resolve_left (not_not_intro haligned), step.eval_trapping_limit]
    rfl
  · rw [if_neg haligned]

theorem short_finishes (step : Step)
    (hat : image.At s.pc (c.step step.trapping step.note (.name x)).lines)
    (hsp : (s.reg .sp).Aligned) (ha : a.Aligned) (hlimit : s.found a ≠ step.limit) :
    ∃ t, image.Finishes (c.step step.trapping step.note (.name x)).lines s t ∧
      s.Writes t a (step.apply (s.found a)) := by
  refine ⟨_, Script.finishes_of_exec (c.isStraight_step _ _ x) hat ?_,
    s.writes_stepped (c.note step.note) a _⟩
  rw [Context.exec_step hx hlocate, if_pos ⟨hsp, ha⟩, step.eval_trapping hlimit, Option.map_some]

variable {target operand one : Pos} {exit : Label}

theorem exec_long (step : Step) : ∃ note,
    Script.exec image ((step.long x target operand one).script c exit) s =
      if (s.reg .sp).Aligned ∧ a.Aligned then
        some (s.assigned (c.note "ASSIGN") note a (step.apply (s.mem a)))
      else none := by
  obtain ⟨text, hcode⟩ := step.code_operator
  have hexec := Stmt.exec_assign (x := { x with pos := target }) (y := { x with pos := operand })
    hx hx hlocate hcode one exit
  rw [step.eval_wrapping] at hexec
  exact ⟨c.note text, hexec⟩

theorem long_traps (step : Step)
    (hat : image.At s.pc ((step.long x target operand one).script c exit).lines)
    (hunaligned : ¬ ((s.reg .sp).Aligned ∧ a.Aligned)) :
    image.Traps ((step.long x target operand one).script c exit).lines s := by
  obtain ⟨note, hexec⟩ := step.exec_long hx hlocate
  exact Script.traps_of_exec (step.isStraight_long _ _ _ c exit) hat
    (hexec.trans (if_neg hunaligned))

theorem long_finishes (step : Step)
    (hat : image.At s.pc ((step.long x target operand one).script c exit).lines)
    (hsp : (s.reg .sp).Aligned) (ha : a.Aligned) :
    ∃ t, image.Finishes ((step.long x target operand one).script c exit).lines s t ∧
      s.Writes t a (step.apply (s.mem a)) := by
  obtain ⟨note, hexec⟩ := step.exec_long hx hlocate
  exact ⟨_, Script.finishes_of_exec (step.isStraight_long _ _ _ c exit) hat
    (hexec.trans (if_pos ⟨hsp, ha⟩)), s.writes_assigned _ note a _⟩

end Ends

/-! ## Comparing the two statements -/

/-- How the code of the two statements ends, if both find the variable at the same address.  The
short one loads the variable when its address has been pushed, the assignment before anything is
pushed. -/
structure Compares (step : Step) (image image' : Image) (short long : List Line) (a : Word)
    (s s' : State) : Prop where
  /-- An address that is not aligned makes both trap. -/
  unaligned : ¬ ((s.reg .sp).Aligned ∧ a.Aligned) → image.Traps short s ∧ image'.Traps long s'
  /-- Before the limit both finish with the next word in the variable and agree on the rest. -/
  before : (s.reg .sp).Aligned → a.Aligned → s.found a ≠ step.limit →
    ∃ t t', image.Finishes short s t ∧ image'.Finishes long s' t' ∧
      s.Writes t a (step.apply (s.found a)) ∧ s.Writes t' a (step.apply (s.mem a)) ∧
      t.Agrees (s.reg .sp) t'
  /-- At the limit the short statement traps, and the assignment wraps around. -/
  limit : (s.reg .sp).Aligned → a.Aligned → s.found a = step.limit →
    image.Traps short s ∧
      ∃ t', image'.Finishes long s' t' ∧ s.Writes t' a (step.apply (s.mem a))

/-- A step and the assignment that it abbreviates have code for every variable of the type `int`.
In every state the two trap together, or finish in states that agree, unless the word that the step
finds is the last one in its direction. -/
theorem lower_compares (step : Step) (hx : g.context.symbols.ty? x = some .int)
    (target operand one : Pos) :
    ∃ location short long, g.context.symbols.location? x = some location ∧
      Gen.Emits (step.short x).lower g short ∧
      Gen.Emits (step.long x target operand one).lower g long ∧
      ∀ (image image' : Image) (s : State) (pc : Nat) (a : Word),
        image.At s.pc short → image'.At pc long →
        image.locate (s.reg .fp) location = a → image'.locate (s.reg .fp) location = a →
        step.Compares image image' short long a s (s.jump pc) := by
  obtain ⟨location, hlocation⟩ := Arena.location?_isSome hx
  refine ⟨location, _, _, hlocation, (Gen.emits_iff_of_performs (step.short_performs hx)).mpr rfl,
    (Gen.emits_iff_of_performs (step.long_performs target operand one hx)).mpr rfl, ?_⟩
  intro image image' s pc a hshort hlong ha ha'
  have hlong : image'.At (s.jump pc).pc _ := hlong
  have ha' : image'.locate ((s.jump pc).reg .fp) location = a := ha'
  constructor
  case unaligned =>
    intro hunaligned
    exact ⟨step.short_traps hlocation ha hshort (.inl hunaligned),
      step.long_traps hlocation ha' hlong hunaligned⟩
  case before =>
    intro hsp haligned hlimit
    obtain ⟨t, hfinishes, hwrites⟩ := step.short_finishes hlocation ha hshort hsp haligned hlimit
    obtain ⟨t', hfinishes', hwrites'⟩ := step.long_finishes hlocation ha' hlong hsp haligned
    have hsame (hne : a ≠ s.reg .sp) : step.apply (s.found a) = step.apply (s.mem a) := by
      rw [State.found_of_ne hne]
    exact ⟨t, t', hfinishes, hfinishes', hwrites, hwrites'.of_jump,
      hwrites.agrees hwrites'.of_jump hsame⟩
  case limit =>
    intro hsp haligned hlimit
    obtain ⟨t', hfinishes', hwrites'⟩ := step.long_finishes hlocation ha' hlong hsp haligned
    exact ⟨step.short_traps hlocation ha hshort (.inr hlimit), t', hfinishes', hwrites'.of_jump⟩

/-! ## A counter that rolls over -/

def odometerName : Ident := ⟨"x", ⟨3, 3⟩, some 0⟩

def odometer : Program where
  decls := [.var ⟨.int, ⟨"x", ⟨1, 5⟩, none⟩⟩,
    .fn ⟨.void, ⟨"main", ⟨2, 6⟩, none⟩, [], ⟨[], [up.short { odometerName with link := none }]⟩⟩]

def odometerGenerator : Generator where
  context := (odometer.linked { options := { comments := false } }).context
  exit := "main_Exit"

def odometerShort : List Line :=
  (odometerGenerator.context.step .add "POSTINC" (.name odometerName)).lines

def odometerLong : List Line :=
  ((up.long odometerName ⟨3, 3⟩ ⟨3, 7⟩ ⟨3, 11⟩).script odometerGenerator.context "main_Exit").lines

/-- The counter, and behind it the two ways to count. -/
def odometerImage : Image :=
  .load ([.region .data, .label "_x" (some { operation := .space wordSize })] ++
    (odometerShort ++ odometerLong)) (by decide +kernel) (by decide +kernel)

def odometerStart (word : Word) : State where
  pc := 2
  reg
    | .sp => 0x7fffefec
    | .fp => 0x7fffeffc
    | _ => 0
  mem address := if address = 0x10010004 then word else 0
  input := []
  events := []

theorem odometer_ty : odometerGenerator.context.symbols.ty? odometerName = some .int := rfl

theorem odometer_location :
    odometerGenerator.context.symbols.location? odometerName = some (.global "_x") := rfl

theorem odometerImage_at :
    odometerImage.At 2 odometerShort ∧
      odometerImage.At (2 + odometerShort.length) odometerLong := by
  have hat : odometerImage.At 0 (_ ++ (odometerShort ++ odometerLong)) := List.prefix_refl _
  rw [Image.at_append, Image.at_append] at hat
  exact hat.2

theorem odometerImage_locate (fp : Word) :
    odometerImage.locate fp (.global "_x") = 0x10010004 := by
  change odometerImage.dataAddress "_x" = 0x10010004
  decide +kernel

theorem odometerShort_emitted :
    Gen.Emits (up.short odometerName).lower odometerGenerator odometerShort :=
  (Gen.emits_iff_of_performs (up.short_performs odometer_ty)).mpr rfl

theorem odometerLong_emitted :
    Gen.Emits (up.long odometerName ⟨3, 3⟩ ⟨3, 7⟩ ⟨3, 11⟩).lower odometerGenerator odometerLong :=
  (Gen.emits_iff_of_performs (up.long_performs _ _ _ odometer_ty)).mpr rfl

/-- The last signed word makes the step trap, and the assignment finish. -/
theorem odometer_rolls_over :
    Gen.Emits (up.short odometerName).lower odometerGenerator odometerShort ∧
    Gen.Emits (up.long odometerName ⟨3, 3⟩ ⟨3, 7⟩ ⟨3, 11⟩).lower odometerGenerator odometerLong ∧
    odometerImage.At 2 odometerShort ∧ odometerImage.At (2 + odometerShort.length) odometerLong ∧
    odometerImage.Traps odometerShort (odometerStart 0x7fffffff) ∧
    (∃ t, odometerImage.Finishes odometerLong
      ((odometerStart 0x7fffffff).jump (2 + odometerShort.length)) t) ∧
    ¬ ((∃ t, odometerImage.Finishes odometerShort (odometerStart 0x7fffffff) t) ∨
      odometerImage.Traps odometerLong
        ((odometerStart 0x7fffffff).jump (2 + odometerShort.length))) := by
  obtain ⟨hshort, hlong⟩ := odometerImage_at
  have htraps : odometerImage.Traps odometerShort (odometerStart 0x7fffffff) :=
    up.short_traps odometer_location (odometerImage_locate _) hshort (.inr (by decide +kernel))
  obtain ⟨t, hfinishes, -⟩ := up.long_finishes
    (s := (odometerStart 0x7fffffff).jump (2 + odometerShort.length))
    odometer_location (odometerImage_locate _) hlong (by decide) (by decide)
  refine ⟨odometerShort_emitted, odometerLong_emitted, hshort, hlong, htraps, ⟨t, hfinishes⟩, ?_⟩
  rintro (⟨u, hu⟩ | hu)
  · exact hu.not_traps htraps
  · exact hfinishes.not_traps hu

/-- The word before the last one is counted up by both.  The last one is not: it makes the step
trap, and the assignment leaves the least signed word. -/
theorem odometer_lower_compares :
    (∃ t t', odometerImage.Finishes odometerShort (odometerStart 0x7ffffffe) t ∧
      odometerImage.Finishes odometerLong
        ((odometerStart 0x7ffffffe).jump (2 + odometerShort.length)) t' ∧
      t.mem 0x10010004 = 0x7fffffff ∧ t.Agrees 0x7fffefec t') ∧
    odometerImage.Traps odometerShort (odometerStart 0x7fffffff) ∧
    ∃ t', odometerImage.Finishes odometerLong
        ((odometerStart 0x7fffffff).jump (2 + odometerShort.length)) t' ∧
      t'.mem 0x10010004 = 0x80000000 := by
  obtain ⟨location, short, long, hlocation, hemits, hemits', h⟩ :=
    up.lower_compares odometer_ty ⟨3, 3⟩ ⟨3, 7⟩ ⟨3, 11⟩
  obtain rfl : .global "_x" = location := Option.some.inj (odometer_location.symm.trans hlocation)
  obtain rfl : short = odometerShort :=
    (Gen.emits_iff_of_performs (up.short_performs odometer_ty)).mp hemits
  obtain rfl : long = odometerLong :=
    (Gen.emits_iff_of_performs (up.long_performs _ _ _ odometer_ty)).mp hemits'
  have hcompares (word : Word) := h odometerImage odometerImage (odometerStart word) _ _
    odometerImage_at.1 odometerImage_at.2 (odometerImage_locate _) (odometerImage_locate _)
  obtain ⟨t, t', hfinishes, hfinishes', hwrites, -, hagrees⟩ :=
    (hcompares 0x7ffffffe).before (by decide) (by decide) (by decide +kernel)
  obtain ⟨htraps, u, hfinishesLast, hwritesLast⟩ :=
    (hcompares 0x7fffffff).limit (by decide) (by decide) (by decide +kernel)
  exact ⟨⟨t, t', hfinishes, hfinishes', hwrites.target, hagrees⟩, htraps, u, hfinishesLast,
    hwritesLast.target⟩

end Step

end StackMips
