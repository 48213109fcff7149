import StackMips.Reporting

/-!
# Typing rules of operators

An operand whose type is `error` has been reported already: it is rejected without a further
report.
-/

namespace StackMips

/-- What an operator asks of each operand, how a violation is reported and what type results. -/
structure OperandRule where
  accepts : Ty → Bool
  code : Code
  result : Ty

def UnaryOp.rule : UnaryOp → OperandRule
  | .neg => ⟨Ty.isInt, .arithmeticOperand, .int⟩
  | .not => ⟨Ty.isBool, .logicalOperand, .bool⟩

/-- The rule of a family that looks at each operand alone.  Equality compares its operands. -/
def OpFamily.rule? : OpFamily → Option OperandRule
  | .arithmetic => some ⟨Ty.isInt, .arithmeticOperand, .int⟩
  | .logical => some ⟨Ty.isBool, .logicalOperand, .bool⟩
  | .relational => some ⟨Ty.isInt, .relationalOperand, .bool⟩
  | .equality => none

/-- The two uses of an operator whose operands must have one type. -/
inductive Comparison where
  | equality
  | assignment
  deriving DecidableEq

/-- Why two types other than `error` cannot be compared or assigned. -/
def Comparison.objection? : Comparison → Ty → Ty → Option Code
  | .equality, .void, .void => some .equalityOfVoids
  | .equality, .function _ _, .function _ _ => some .equalityOfFunctions
  | .equality, .structDef _, .structDef _ => some .equalityOfStructNames
  | .equality, .struct _, .struct _ => some .equalityOfStructs
  | .assignment, .function _ _, .function _ _ => some .functionAssignment
  | .assignment, .structDef _, .structDef _ => some .structNameAssignment
  | .assignment, .struct _, .struct _ => some .structAssignment
  | _, left, right => if left.agrees right then none else some .typeMismatch

namespace Typing

/-- Check one operand and say whether it is acceptable. -/
def checkOperand (ty : Ty) (pos : Pos) (accepts : Ty → Bool) (code : Code) : Reporting Bool := do
  if ty.isError then
    return false
  if accepts ty then
    return true
  Reporting.report code pos
  return false

/-- Check two operands that must have the same type, reporting at most once. -/
def checkSameKind (comparison : Comparison) (left right : Ty) (pos : Pos) : Reporting Bool := do
  if left.isError || right.isError then
    return false
  match comparison.objection? left right with
  | none => return true
  | some code =>
    Reporting.report code pos
    return false

def checkUnary (op : UnaryOp) (ty : Ty) (pos : Pos) : Reporting Ty := do
  let accepted ← checkOperand ty pos op.rule.accepts op.rule.code
  return if accepted then op.rule.result else .error

/-- Check both operands, so that each bad one is reported. -/
def checkBinary (op : BinaryOp) (left : Ty) (leftPos : Pos) (right : Ty) (rightPos : Pos) :
    Reporting Ty := do
  match op.family.rule? with
  | some rule =>
    let leftAccepted ← checkOperand left leftPos rule.accepts rule.code
    let rightAccepted ← checkOperand right rightPos rule.accepts rule.code
    return if leftAccepted && rightAccepted then rule.result else .error
  | none =>
    let accepted ← checkSameKind .equality left right leftPos
    return if accepted then .bool else .error

end Typing

end StackMips
