import StackMips.Lowering.Variable

/-!
# Code of expressions

The code of an expression pushes one word, its value.  Operands are evaluated from left to right
and popped into `$t0` and `$t1`; an assignment evaluates its value before the address.
-/

namespace StackMips

open Mips

/-- How a binary operator is computed. -/
inductive OpCode where
  /-- Both operands are evaluated and combined by one operation. -/
  | strict (op : AluOp) (comment : String)
  /-- The right operand is skipped when the left one has the deciding value. -/
  | skipping (decisive : Int) (comment : String)
  deriving DecidableEq

def BinaryOp.code : BinaryOp → OpCode
  | .add => .strict .addu "ADDITION"
  | .sub => .strict .subu "SUBTRACTION"
  | .mul => .strict .mul "MULTIPLICATION"
  | .div => .strict .div "DIVISION"
  | .eq => .strict .seq "EQUALS"
  | .ne => .strict .sne "NOT EQUALS"
  | .lt => .strict .slt "LESS THAN"
  | .gt => .strict .sgt "GREATER THAN"
  | .le => .strict .sle "LESS OR EQUAL"
  | .ge => .strict .sge "GREATER OR EQUAL"
  | .and => .skipping 0 "AND"
  | .or => .skipping 1 "OR"

namespace Gen

/-- Run the code of an expression and make sure that it pushed one word. -/
def pushing (e : Expr) (code : Gen Unit) : Gen Unit := do
  let before := (← get).depth
  code
  let after := (← get).depth
  if after ≠ before + 1 then
    fault (.exprDepth e after (before + 1))

/-- Push a constant. -/
def constant (value : Int) : Gen Unit := do
  opWith (.li .t0 value) "load value into T0"
  push .t0

def string (text : String) : Gen Unit := do
  let label ← stringLabel text
  opWith (.la .t0 (.label label)) "load addr into $t0"
  push .t0

def unary (op : UnaryOp) (operand : Gen Unit) : Gen Unit := do
  comment (match op with | .neg => "UNARY MINUS" | .not => "NOT")
  operand
  pop .t0
  match op with
  | .neg => Gen.op (.neg .t0 .t0)
  | .not => Gen.op (.alu .seq .t0 .t0 (.imm 0))
  push .t0

def strict (op : AluOp) (text : String) (left right : Gen Unit) : Gen Unit := do
  comment text
  left
  right
  pop .t1
  pop .t0
  Gen.op (.alu op .t0 .t0 (.reg .t1))
  push .t0

def skipping (decisive : Int) (text : String) (left right : Gen Unit) : Gen Unit := do
  let done ← freshLabel
  comment text
  left
  pop .t0
  op (.beq .t0 decisive done)
  right
  pop .t0
  defineLabel done
  push .t0

def binary (op : BinaryOp) (left right : Gen Unit) : Gen Unit :=
  match op.code with
  | .strict op text => strict op text left right
  | .skipping decisive text => skipping decisive text left right

/-- The code of `&&` and `||` only. -/
def shortCircuit (op : BinaryOp) (left right : Gen Unit) : Gen Unit :=
  match op.code with
  | .strict _ _ => fault (.noShortCircuit op)
  | .skipping decisive text => skipping decisive text left right

/-- Push the address of a storage location. -/
def address : Expr → Gen Unit
  | .name id => loadAddress id
  | .field _ id => unsupported .fieldAssignment id.pos
  | target => fault (.noAddress target)

/-- Store a value and push it again. -/
def assign (target : Expr) (value : Gen Unit) : Gen Unit := do
  let ty ← target.typeOf (← get).context.symbols
  if ty.isStruct then
    unsupported .structAssignment target.pos
  comment "ASSIGN"
  value
  address target
  pop .t0
  pop .t1
  op (.sw .t1 (.indexed 0 .t0))
  push .t1

/-- Call a function with arguments that are pushed by `args`; the callee removes them.  A result
is pushed only if there is one. -/
def call (callee : Ident) (count : Nat) (args : Gen Unit) : Gen Unit := do
  comment "FUNCTION CALL"
  args
  op (.jal (← functionLabel callee.name))
  release count
  if ← callee.returnsValue (← get).context.symbols then
    push .v0

end Gen

mutual

/-- Emit the code that pushes the value of an expression. -/
def Expr.lower (e : Expr) : Gen Unit :=
  Gen.pushing e <|
    match e with
    | .int value _ => Gen.constant value.toInt
    | .str text _ => Gen.string text
    | .bool value _ => Gen.constant (if value then 1 else 0)
    | .name id => Gen.load id
    | .field _ id => Gen.unsupported .fieldAccess id.pos
    | .assign target value => Gen.assign target value.lower
    | .call callee args => Gen.call callee args.length (Expr.lowerAll args)
    | .unary op operand => Gen.unary op operand.lower
    | .binary op left right => Gen.binary op left.lower right.lower

def Expr.lowerAll : List Expr → Gen Unit
  | [] => return ()
  | e :: es => do
    e.lower
    Expr.lowerAll es

end

end StackMips
