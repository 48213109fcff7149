import StackMips.Proofs.CallingConvention

/-!
# Runs with calls

A run of a whole program, seen together with the functions that are active.  Boolean variables are
those of the program and of every active function.  A run is safe for a number of steps if they hold
0 or 1 as long as it goes on, and so does every word that is tested.
-/

namespace StackMips

open Mips

def iterate? {α : Type} (f : α → Option α) : Nat → α → Option α
  | 0, a => some a
  | n + 1, a => (f a).bind (iterate? f n)

theorem reaches_of_iterate? {α : Type} {f : α → Option α} {n : Nat} {a b : α}
    (h : iterate? f n a = some b) : Relation.ReflTransGen (fun a b => f a = some b) a b := by
  induction n generalizing a with
  | zero =>
      cases h
      exact .refl
  | succ n ih =>
      obtain ⟨c, hstep, hrest⟩ := Option.bind_eq_some_iff.mp h
      exact .head hstep (ih hrest)

/-! ## Active functions -/

def Mips.Word.IsFlag (word : Word) : Prop := word = 0 ∨ word = 1

instance (word : Word) : Decidable word.IsFlag :=
  inferInstanceAs (Decidable (_ ∨ _))

/-- A function that has been called and has not returned. -/
structure Activation where
  fn : FnDecl
  /-- The address of the first parameter. -/
  frame : Word
  /-- A return statement has loaded its value into `$v0`. -/
  answered : Bool := false

/-- The machine and the functions that are active, the innermost one first. -/
structure Config where
  state : State
  active : List Activation

def VarDecl.isBool (decl : VarDecl) : Bool := decl.type == .bool

def Decl.flagLabel? : Decl → Option Label
  | .var decl => if decl.isBool then some (globalLabel decl.id.name) else none
  | _ => none

def Activation.flags (symbols : Arena) (activation : Activation) : List Word :=
  symbols.addresses activation.frame (activation.fn.declared.filter VarDecl.isBool)

def FnDecl.activation (fn : FnDecl) (s : State) : Activation where
  fn
  frame := s.reg .sp + .ofNat 32 (4 * fn.formals.length)

/-- A program that has been analyzed, its code in memory, and the lowest address of its stack. -/
structure Process where
  resolved : Resolved
  image : Image
  floor : Nat

namespace Process

variable (P : Process)

abbrev symbols : Arena := P.resolved.context.symbols

def flags (active : List Activation) : List Word :=
  (P.resolved.program.decls.filterMap Decl.flagLabel?).map P.image.dataAddress ++
    active.flatMap (Activation.flags P.symbols)

def callee? (label : Label) : Option FnDecl :=
  P.resolved.program.functions.find? fun fn =>
    P.resolved.context.functionLabel fn.id.name == label

end Process

/-! ## Steps -/

def Mips.Line.operation? (line : Line) : Option Operation := line.instr?.map Instr.operation

def Mips.Image.operation? (image : Image) (s : State) : Option Operation :=
  image.lines[s.pc]?.bind Line.operation?

/-- The register that an operation takes for a boolean. -/
def Mips.Operation.tested? : Operation → Option Register
  | .beq register _ _ | .alu .seq _ register (.imm 0) => some register
  | _ => none

namespace Process

variable (P : Process)

/-- The active functions after an operation. -/
def track (x : Config) : Operation → List Activation
  | .jal label => ((P.callee? label).map (·.activation x.state)).toList ++ x.active
  | .jr _ => x.active.tail
  | .lw .v0 _ => x.active.modifyHead fun activation => { activation with answered := true }
  | _ => x.active

/-- What is assumed of an operation.  A word that is read into a boolean variable is 0 or 1; a
function that is called finds room for its frame above the floor, and 0 or 1 in its boolean locals;
a boolean function that is left without a return statement leaves 0 or 1 in `$v0`. -/
def Permits (x : Config) : Operation → Prop
  | .sw .v0 (.indexed 0 .t0) => x.state.reg .t0 ∈ P.flags x.active → (x.state.reg .v0).IsFlag
  | .jal label => ∀ fn ∈ P.callee? label,
    P.floor + 4 * (fn.frameSize + 1) ≤ (fn.activation x.state).frame.toNat ∧
      ∀ a ∈ P.symbols.addresses (fn.activation x.state).frame
          (fn.body.locals.filter VarDecl.isBool), (x.state.mem a).IsFlag
  | .jr _ => ∀ activation ∈ x.active.head?, activation.fn.returnType = .bool →
    activation.answered = false → (x.state.reg .v0).IsFlag
  | _ => True

/-- One step of a run whose stack stays above the floor. -/
structure Advances (x y : Config) : Prop where
  step : P.image.step x.state = some y.state
  active : y.active = ((P.image.operation? x.state).map (P.track x)).getD x.active
  permitted : ∀ operation ∈ P.image.operation? x.state, P.Permits x operation
  room : P.floor + 4 ≤ (y.state.reg .sp).toNat

/-! ## Computing steps -/

/-- The elements of a list are looked at, not all words there are. -/
instance (words : List Word) (p : Word → Prop) [DecidablePred p] : Decidable (∀ a ∈ words, p a) :=
  List.decidableBAll p words

instance (x : Config) (operation : Operation) : Decidable (P.Permits x operation) := by
  unfold Permits
  split <;> infer_instance

def advance? (x : Config) : Option Config :=
  (P.image.step x.state).bind fun state =>
    if (∀ operation ∈ P.image.operation? x.state, P.Permits x operation) ∧
        P.floor + 4 ≤ (state.reg .sp).toNat then
      some ⟨state, ((P.image.operation? x.state).map (P.track x)).getD x.active⟩
    else none

theorem advance?_eq_some_iff {x y : Config} : P.advance? x = some y ↔ P.Advances x y := by
  rw [advance?, Option.bind_eq_some_iff]
  constructor
  · rintro ⟨state, hstep, h⟩
    rw [Option.ite_none_right_eq_some] at h
    obtain ⟨⟨hpermitted, hroom⟩, hy⟩ := h
    cases hy
    exact ⟨hstep, rfl, hpermitted, hroom⟩
  · rintro ⟨hstep, hactive, hpermitted, hroom⟩
    refine ⟨y.state, hstep, ?_⟩
    rw [if_pos ⟨hpermitted, hroom⟩, ← hactive]

/-! ## Canonical booleans -/

/-- All boolean variables hold 0 or 1, and the word that is tested next is 0 or 1. -/
structure Canonical (x : Config) : Prop where
  flags : ∀ a ∈ P.flags x.active, (x.state.mem a).IsFlag
  tested : ∀ operation ∈ P.image.operation? x.state, ∀ register ∈ operation.tested?,
    (x.state.reg register).IsFlag

/-! ## Safety -/

/-- For a number of steps all booleans are canonical. -/
def Safe : Nat → Config → Prop
  | 0, x => P.Canonical x
  | n + 1, x => P.Canonical x ∧ ∀ y, P.Advances x y → Safe n y

variable {P} {x y : Config} {n : Nat}

theorem Safe.canonical (h : P.Safe n x) : P.Canonical x := by
  cases n with
  | zero => exact h
  | succ n => exact h.1

theorem Safe.pred (h : P.Safe (n + 1) x) : P.Safe n x := by
  induction n generalizing x with
  | zero => exact h.1
  | succ n ih => exact ⟨h.1, fun y hy => ih (h.2 y hy)⟩

theorem Safe.mono {m : Nat} (h : P.Safe n x) (hle : m ≤ n) : P.Safe m x := by
  induction hle with
  | refl => exact h
  | step _ ih => exact ih h.pred

/-- What is safe for any number of steps stays canonical. -/
theorem canonical_of_safe (h : ∀ n, P.Safe n x) (hrun : Relation.ReflTransGen P.Advances x y) :
    P.Canonical y := by
  suffices hsafe : ∀ n, P.Safe n y from (hsafe 0).canonical
  induction hrun with
  | refl => exact h
  | tail _ hstep ih => exact fun n => (ih (n + 1)).2 _ hstep

/-- A state is safe if the states that the next line can lead to are safe for fewer steps. -/
theorem safe_of_line {line : Line} (hline : P.image.lines[x.state.pc]? = some line)
    (hcanonical : P.Canonical x)
    (h : ∀ m < n, ∀ t, P.image.execLine x.state line = some t →
      (∀ operation ∈ line.operation?, P.Permits x operation) → P.floor + 4 ≤ (t.reg .sp).toNat →
      P.Safe m ⟨t, (line.operation?.map (P.track x)).getD x.active⟩) : P.Safe n x := by
  have hoperation : P.image.operation? x.state = line.operation? := by
    rw [Image.operation?, hline, Option.bind_some]
  cases n with
  | zero => exact hcanonical
  | succ n =>
      refine ⟨hcanonical, ?_⟩
      rintro ⟨t, active⟩ hstep
      have hexec : P.image.execLine x.state line = some t := by
        simpa [Image.step, hline] using hstep.step
      obtain rfl := hstep.active
      rw [hoperation]
      exact h n (Nat.lt_succ_self n) t hexec (hoperation ▸ hstep.permitted) hstep.room

end Process

end StackMips
