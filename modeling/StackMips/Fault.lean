import StackMips.Scope
import StackMips.Tree.Printer

/-!
# Broken contracts

A fault says that a caller handed over something that the passes do not promise to handle, such
as a tree outside the grammar or an unlinked identifier in code generation.  It ends the pass at
once and is no report about the source program.
-/

namespace StackMips

inductive Fault where
  /-- An identifier is linked a second time. -/
  | alreadyLinked (id : Ident) (link : SymbolId)
  /-- Resolution met a target that is no storage location. -/
  | targetNotLocation (target : Expr)
  /-- Resolution met a field access on something other than a name or a field. -/
  | fieldBase (base : Expr)
  /-- A symbol table refused a name that had been found free. -/
  | insertionRefused (error : SymbolTable.Error)
  /-- A scope was left that had not been entered. -/
  | scopesUnbalanced (error : SymbolTable.Error)
  /-- A link points outside the arena. -/
  | symbolOutOfRange (size : Nat) (symbol : SymbolId)
  /-- Code generation needs the symbol of an unlinked identifier. -/
  | unresolved (name : String)
  | callOfNonFunction (name : String)
  | notLinkedToFunction (name : String)
  /-- Code generation needs the address of an expression that has none. -/
  | noAddress (target : Expr)
  | noShortCircuit (op : BinaryOp)
  | stackUnderflow
  /-- A function starts with words on the operand stack. -/
  | entryDepth (depth : Nat)
  /-- An expression, such as the call of a void function, did not push one word. -/
  | exprDepth (expr : Expr) (depth expected : Nat)
  /-- A statement did not leave the operand stack as it found it. -/
  | stmtDepth (depth expected : Nat)
  /-- A sum of frame sizes leaves the 32-bit range. -/
  | sumOverflow
  /-- A negated frame size leaves the 32-bit range. -/
  | negationOverflow
  /-- A caret stands too far to the right. -/
  | paddingTooWide

namespace Fault

/-- Two numbers that had to be equal, with the rule they break. -/
private def mismatch (rule : String) (left right : Nat) : String :=
  "assertion `left == right` failed: " ++ rule
    ++ "\n  left: " ++ toString left ++ "\n right: " ++ toString right

def message : Fault → String
  | .alreadyLinked id link =>
    "identifier '" ++ id.name ++ "' at " ++ id.pos.render ++ " is already linked to symbol #"
      ++ toString link
  | .targetNotLocation target =>
    "'" ++ target.render ++ "' at " ++ target.pos.render ++ " is not an assignable location"
  | .fieldBase base =>
    "dot access on '" ++ base.render ++ "' at " ++ base.pos.render ++ " is outside the grammar"
  | .insertionRefused error => "name resolution inserted after a failed check: " ++ error.message
  | .scopesUnbalanced error => "unbalanced scopes during name resolution: " ++ error.message
  | .symbolOutOfRange size symbol =>
    "index out of bounds: the len is " ++ toString size ++ " but the index is " ++ toString symbol
  | .unresolved name => "identifier '" ++ name ++ "' reached code generation unresolved"
  | .callOfNonFunction name => "call of non-function '" ++ name ++ "' reached code generation"
  | .notLinkedToFunction name => "function '" ++ name ++ "' is not linked to a function symbol"
  | .noAddress target => "expression '" ++ target.render ++ "' is not an assignable location"
  | .noShortCircuit op => "'" ++ op.render ++ "' does not short-circuit"
  | .stackUnderflow => "operand stack underflow"
  | .entryDepth depth => mismatch "operand stack must be empty at function entry" depth 0
  | .exprDepth expr depth expected =>
    mismatch ("expression must push exactly one word: " ++ expr.render) depth expected
  | .stmtDepth depth expected =>
    mismatch "statement left the operand stack unbalanced" depth expected
  | .sumOverflow => "attempt to add with overflow"
  | .negationOverflow => "attempt to negate with overflow"
  | .paddingTooWide => "Formatting argument out of range"

end Fault

end StackMips
