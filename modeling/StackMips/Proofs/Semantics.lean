import StackMips.Proofs.Machine
import StackMips.Proofs.Typing

/-!
# The meaning of resolved programs

Values are 32-bit words and texts.  Expressions are evaluated from left to right; statements run in
order and read and write words and texts.  The meaning of trees without calls and field accesses is
given here, as far as it does not trap.
-/

namespace StackMips

open Mips

abbrev Store := SymbolId → Word

inductive Value where
  | word (word : Word)
  | text (text : String)
  deriving DecidableEq

def Value.word? : Value → Option Word
  | .word w => some w
  | .text _ => none

def Value.event : Value → Event
  | .word w => .int w
  | .text t => .text t

/-! ## Expressions -/

/-- The smallest word has no negation. -/
def UnaryOp.apply (word : Word) : UnaryOp → Option Word
  | .neg => if word = .intMin 32 then none else some (-word)
  | .not => some (.flag (word == 0))

/-- Addition, subtraction and multiplication wrap; division truncates and has no result for the
divisor 0 or if the quotient is not a word; comparisons are signed. -/
def BinaryOp.onWords (a b : Word) : BinaryOp → Option Word
  | .add => some (a + b)
  | .sub => some (a - b)
  | .mul => some (a * b)
  | .div => if b = 0 ∨ a = .intMin 32 ∧ b = -1 then none else some (a.sdiv b)
  | .eq => some (.flag (a == b))
  | .ne => some (.flag (a != b))
  | .lt => some (.flag (a.toInt < b.toInt))
  | .gt => some (.flag (b.toInt < a.toInt))
  | .le => some (.flag (a.toInt ≤ b.toInt))
  | .ge => some (.flag (b.toInt ≤ a.toInt))
  | .and | .or => none

def BinaryOp.onTexts (a b : String) : BinaryOp → Option Word
  | .eq => some (.flag (a == b))
  | .ne => some (.flag (a != b))
  | _ => none

def BinaryOp.apply (op : BinaryOp) : Value → Value → Option Word
  | .word a, .word b => op.onWords a b
  | .text a, .text b => op.onTexts a b
  | _, _ => none

/-- The value of `left` for which `left op right` does not look at `right`. -/
def BinaryOp.decides? : BinaryOp → Option Bool
  | .and => some false
  | .or => some true
  | _ => none

def Expr.eval (store : Store) : Expr → Option (Value × Store)
  | .int value _ => some (.word value.toBitVec, store)
  | .str text _ => some (.text text, store)
  | .bool value _ => some (.word (.flag value), store)
  | .name id => id.link.map fun link => (.word (store link), store)
  | .field _ _ | .call _ _ => none
  | .assign target value => do
    let (value, store) ← value.eval store
    let word ← value.word?
    let link ← target.ident?.bind Ident.link
    return (.word word, Function.update store link word)
  | .unary op operand => do
    let (value, store) ← operand.eval store
    let word ← value.word?
    let word ← op.apply word
    return (.word word, store)
  | .binary op left right => do
    let (a, store) ← left.eval store
    match op.decides? with
    | some decisive => do
      let word ← a.word?
      if (word != 0) == decisive then some (.word (.flag decisive), store) else right.eval store
    | none => do
      let (b, store) ← right.eval store
      let word ← op.apply a b
      return (.word word, store)

namespace Expr

variable {store store' : Store} {result : Value}

theorem eval_assign {target value : Expr}
    (h : (assign target value).eval store = some (result, store')) :
    ∃ id link word middle, target = .name id ∧ id.link = some link ∧
      value.eval store = some (.word word, middle) ∧ result = .word word ∧
      store' = Function.update middle link word := by
  simp only [eval, Option.bind_eq_bind, Option.bind_eq_some_iff, Option.pure_def,
    Option.some.injEq, Prod.mk.injEq] at h
  obtain ⟨⟨value', middle⟩, hvalue, word, hword, link, ⟨id, hid, hlink⟩, rfl, rfl⟩ := h
  cases target <;> cases hid
  cases value' <;> cases hword
  exact ⟨_, link, word, middle, rfl, hlink, hvalue, rfl, rfl⟩

theorem eval_unary {op : UnaryOp} {operand : Expr}
    (h : (unary op operand).eval store = some (result, store')) :
    ∃ word word', operand.eval store = some (.word word, store') ∧
      op.apply word = some word' ∧ result = .word word' := by
  simp only [eval, Option.bind_eq_bind, Option.bind_eq_some_iff, Option.pure_def,
    Option.some.injEq, Prod.mk.injEq] at h
  obtain ⟨⟨value, middle⟩, hoperand, word, hword, word', hword', rfl, rfl⟩ := h
  cases value <;> cases hword
  exact ⟨word, word', hoperand, hword', rfl⟩

theorem eval_strict {op : BinaryOp} (hop : op.decides? = none) {left right : Expr}
    (h : (binary op left right).eval store = some (result, store')) :
    ∃ a middle b word, left.eval store = some (a, middle) ∧
      right.eval middle = some (b, store') ∧ op.apply a b = some word ∧ result = .word word := by
  simp only [eval, hop, Option.bind_eq_bind, Option.bind_eq_some_iff, Option.pure_def,
    Option.some.injEq, Prod.mk.injEq] at h
  obtain ⟨⟨a, middle⟩, hleft, ⟨b, last⟩, hright, word, hword, rfl, rfl⟩ := h
  exact ⟨a, middle, b, word, hleft, hright, hword, rfl⟩

theorem eval_skipping {op : BinaryOp} {decisive : Bool} (hop : op.decides? = some decisive)
    {left right : Expr} (h : (binary op left right).eval store = some (result, store')) :
    ∃ word middle, left.eval store = some (.word word, middle) ∧
      ((word != 0) = decisive ∧ result = .word (.flag decisive) ∧ store' = middle ∨
        (word != 0) ≠ decisive ∧ right.eval middle = some (result, store')) := by
  simp only [eval, hop, Option.bind_eq_bind, Option.bind_eq_some_iff] at h
  obtain ⟨⟨a, middle⟩, hleft, word, hword, h⟩ := h
  cases a <;> cases hword
  refine ⟨word, middle, hleft, ?_⟩
  split at h
  · next heq =>
      cases h
      exact .inl ⟨by simpa using heq, rfl, rfl⟩
  · next hne => exact .inr ⟨by simpa using hne, h⟩

end Expr

/-! ## Statements -/

structure Snapshot where
  store : Store
  /-- Words that are still to be read. -/
  input : List Word

inductive Completion where
  | normal
  | returned (value? : Option Value)

inductive Task where
  | stmt (stmt : Stmt)
  | stmts (stmts : List Stmt)
  /-- Run the body as long as the condition holds. -/
  | loop (cond : Expr) (body : Block)
  /-- Run the body a number of times. -/
  | times (count : Nat) (body : Block)

/-- Runs that end, in which nothing traps and only booleans are read into boolean variables. -/
inductive Task.Runs (symbols : Arena) :
    Task → Snapshot → List Event → Completion → Snapshot → Prop
  | assign {target value : Expr} {store store' : Store} {input : List Word} {result : Value}
      (h : (Expr.assign target value).eval store = some (result, store')) :
      Runs symbols (.stmt (.assign target value)) ⟨store, input⟩ [] .normal ⟨store', input⟩
  | increment {id : Ident} {link : SymbolId} {store : Store} {input : List Word}
      (hlink : id.link = some link) (h : (store link).saddOverflow 1 = false) :
      Runs symbols (.stmt (.increment (.name id))) ⟨store, input⟩ [] .normal
        ⟨Function.update store link (store link + 1), input⟩
  | decrement {id : Ident} {link : SymbolId} {store : Store} {input : List Word}
      (hlink : id.link = some link) (h : (store link).ssubOverflow 1 = false) :
      Runs symbols (.stmt (.decrement (.name id))) ⟨store, input⟩ [] .normal
        ⟨Function.update store link (store link - 1), input⟩
  | read {id : Ident} {link : SymbolId} {store : Store} {word : Word} {input : List Word}
      (hlink : id.link = some link) (h : symbols.ty? id = some .bool → word = 0 ∨ word = 1) :
      Runs symbols (.stmt (.read (.name id))) ⟨store, word :: input⟩ [.read word] .normal
        ⟨Function.update store link word, input⟩
  | write {value : Expr} {store store' : Store} {input : List Word} {result : Value}
      (h : value.eval store = some (result, store')) :
      Runs symbols (.stmt (.write value)) ⟨store, input⟩ [result.event] .normal ⟨store', input⟩
  | ifThen {cond : Expr} {body : Block} {store store' : Store} {input : List Word} {word : Word}
      {events : List Event} {completion : Completion} {after : Snapshot}
      (hcond : cond.eval store = some (.word word, store')) (htrue : word ≠ 0)
      (hbody : Runs symbols (.stmts body.stmts) ⟨store', input⟩ events completion after) :
      Runs symbols (.stmt (.ifThen cond body)) ⟨store, input⟩ events completion after
  | ifThenSkip {cond : Expr} {body : Block} {store store' : Store} {input : List Word}
      (hcond : cond.eval store = some (.word 0, store')) :
      Runs symbols (.stmt (.ifThen cond body)) ⟨store, input⟩ [] .normal ⟨store', input⟩
  | ifElse {cond : Expr} {thenBody elseBody : Block} {store store' : Store} {input : List Word}
      {word : Word} {events : List Event} {completion : Completion} {after : Snapshot}
      (hcond : cond.eval store = some (.word word, store'))
      (hbody : Runs symbols (.stmts (if word = 0 then elseBody else thenBody).stmts)
        ⟨store', input⟩ events completion after) :
      Runs symbols (.stmt (.ifElse cond thenBody elseBody)) ⟨store, input⟩ events completion after
  | whileLoop {cond : Expr} {body : Block} {before after : Snapshot} {events : List Event}
      {completion : Completion}
      (h : Runs symbols (.loop cond body) before events completion after) :
      Runs symbols (.stmt (.whileLoop cond body)) before events completion after
  | repeatLoop {count : Expr} {body : Block} {store store' : Store} {input : List Word}
      {word : Word} {events : List Event} {completion : Completion} {after : Snapshot}
      (hcount : count.eval store = some (.word word, store'))
      (h : Runs symbols (.times word.toInt.toNat body) ⟨store', input⟩ events completion after) :
      Runs symbols (.stmt (.repeatLoop count body)) ⟨store, input⟩ events completion after
  | retValue {value : Expr} {pos : Pos} {store store' : Store} {input : List Word} {result : Value}
      (h : value.eval store = some (result, store')) :
      Runs symbols (.stmt (.ret (some value) pos)) ⟨store, input⟩ [] (.returned (some result))
        ⟨store', input⟩
  | ret {pos : Pos} {before : Snapshot} :
      Runs symbols (.stmt (.ret none pos)) before [] (.returned none) before
  | done {before : Snapshot} : Runs symbols (.stmts []) before [] .normal before
  | andThen {stmt : Stmt} {stmts : List Stmt} {before middle after : Snapshot}
      {events events' : List Event} {completion : Completion}
      (hstmt : Runs symbols (.stmt stmt) before events .normal middle)
      (hstmts : Runs symbols (.stmts stmts) middle events' completion after) :
      Runs symbols (.stmts (stmt :: stmts)) before (events ++ events') completion after
  | leave {stmt : Stmt} {stmts : List Stmt} {before after : Snapshot} {events : List Event}
      {value? : Option Value}
      (hstmt : Runs symbols (.stmt stmt) before events (.returned value?) after) :
      Runs symbols (.stmts (stmt :: stmts)) before events (.returned value?) after
  | loopDone {cond : Expr} {body : Block} {store store' : Store} {input : List Word}
      (hcond : cond.eval store = some (.word 0, store')) :
      Runs symbols (.loop cond body) ⟨store, input⟩ [] .normal ⟨store', input⟩
  | loopStep {cond : Expr} {body : Block} {store store' : Store} {input : List Word} {word : Word}
      {middle after : Snapshot} {events events' : List Event} {completion : Completion}
      (hcond : cond.eval store = some (.word word, store')) (htrue : word ≠ 0)
      (hbody : Runs symbols (.stmts body.stmts) ⟨store', input⟩ events .normal middle)
      (hloop : Runs symbols (.loop cond body) middle events' completion after) :
      Runs symbols (.loop cond body) ⟨store, input⟩ (events ++ events') completion after
  | loopLeave {cond : Expr} {body : Block} {store store' : Store} {input : List Word} {word : Word}
      {after : Snapshot} {events : List Event} {value? : Option Value}
      (hcond : cond.eval store = some (.word word, store')) (htrue : word ≠ 0)
      (hbody : Runs symbols (.stmts body.stmts) ⟨store', input⟩ events (.returned value?) after) :
      Runs symbols (.loop cond body) ⟨store, input⟩ events (.returned value?) after
  | timesDone {body : Block} {before : Snapshot} :
      Runs symbols (.times 0 body) before [] .normal before
  | timesStep {count : Nat} {body : Block} {before middle after : Snapshot}
      {events events' : List Event} {completion : Completion}
      (hbody : Runs symbols (.stmts body.stmts) before events .normal middle)
      (htimes : Runs symbols (.times count body) middle events' completion after) :
      Runs symbols (.times (count + 1) body) before (events ++ events') completion after
  | timesLeave {count : Nat} {body : Block} {before after : Snapshot} {events : List Event}
      {value? : Option Value}
      (hbody : Runs symbols (.stmts body.stmts) before events (.returned value?) after) :
      Runs symbols (.times (count + 1) body) before events (.returned value?) after

def Block.Runs (symbols : Arena) (block : Block) (before : Snapshot) (events : List Event)
    (completion : Completion) (after : Snapshot) : Prop :=
  Task.Runs symbols (.stmts block.stmts) before events completion after

end StackMips
