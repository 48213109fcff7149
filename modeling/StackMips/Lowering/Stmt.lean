import StackMips.Lowering.Expr

/-!
# Code of statements

A statement leaves the operand stack as it found it.  The remaining count of a `repeat` loop stays
on top of the stack while the body runs.
-/

namespace StackMips

open Mips

namespace Gen

/-- Run the code of a statement and make sure that the operand stack is as deep as before. -/
def balanced (code : Gen Unit) : Gen Unit := do
  let before := (← get).depth
  code
  let after := (← get).depth
  if after ≠ before then
    fault (.stmtDepth after before)

/-! ## Control flow -/

def branch (target : Label) : Gen Unit :=
  op (.b target)

def branchIfFalse (cond : Gen Unit) (target : Label) : Gen Unit := do
  cond
  pop .t0
  op (.beq .t0 0 target)

def ifThen (cond body : Gen Unit) : Gen Unit := do
  comment "IF STMT"
  let done ← freshLabel
  branchIfFalse cond done
  body
  defineLabel done

def ifElse (cond thenBody elseBody : Gen Unit) : Gen Unit := do
  comment "IF ELSE STMT"
  let otherwise ← freshLabel
  let done ← freshLabel
  branchIfFalse cond otherwise
  thenBody
  branch done
  defineLabel otherwise
  elseBody
  defineLabel done

def whileLoop (cond body : Gen Unit) : Gen Unit := do
  comment "WHILE STMT"
  let start ← freshLabel
  let done ← freshLabel
  defineLabel start
  branchIfFalse cond done
  body
  branch start
  defineLabel done

def repeatLoop (count body : Gen Unit) : Gen Unit := do
  comment "REPEAT STMT"
  let start ← freshLabel
  let done ← freshLabel
  count
  defineLabel start
  op (.lw .t0 (.indexed wordSize .sp))
  op (.ble .t0 0 done)
  op (.alu .sub .t0 .t0 (.imm 1))
  op (.sw .t0 (.indexed wordSize .sp))
  body
  branch start
  defineLabel done
  pop .t0

/-! ## Simple statements -/

/-- Add to a variable, or subtract from it, one. -/
def step (stepOp : AluOp) (text : String) (target : Expr) : Gen Unit := do
  comment text
  address target
  pop .t1
  target.lower
  pop .t0
  op (.alu stepOp .t0 .t0 (.imm 1))
  op (.sw .t0 (.indexed 0 .t1))

def increment (target : Expr) : Gen Unit :=
  step .add "POSTINC" target

def decrement (target : Expr) : Gen Unit :=
  step .sub "POSTDEC" target

def read (target : Expr) : Gen Unit := do
  comment "READ"
  op (.li .v0 (Syscall.number .readInt))
  op .syscall
  address target
  pop .t0
  op (.sw .v0 (.indexed 0 .t0))

def write (value : Expr) : Gen Unit := do
  let ty ← value.typeOf (← get).context.symbols
  comment "WRITE"
  value.lower
  pop .a0
  op (.li .v0 (Syscall.number (if ty.isString then .printString else .printInt)))
  op .syscall

/-- A call whose result is dropped. -/
def callStmt (callee : Ident) (args : List Expr) : Gen Unit := do
  comment "CALL STMT"
  call callee args.length (Expr.lowerAll args)
  if ← callee.returnsValue (← get).context.symbols then
    pop .t0

/-- Leave the function through its exit label. -/
def ret (value? : Option Expr) : Gen Unit := do
  comment "RETURN"
  if let some value := value? then
    value.lower
    pop .v0
  branch (← get).exit

def assignStmt (target value : Expr) : Gen Unit := do
  assign target value.lower
  pop .t0

end Gen

mutual

def Stmt.lower : Stmt → Gen Unit
  | .assign target value => Gen.balanced (Gen.assignStmt target value)
  | .increment target => Gen.balanced (Gen.increment target)
  | .decrement target => Gen.balanced (Gen.decrement target)
  | .read target => Gen.balanced (Gen.read target)
  | .write value => Gen.balanced (Gen.write value)
  | .ifThen cond body => Gen.balanced (Gen.ifThen cond.lower body.lower)
  | .ifElse cond thenBody elseBody =>
    Gen.balanced (Gen.ifElse cond.lower thenBody.lower elseBody.lower)
  | .whileLoop cond body => Gen.balanced (Gen.whileLoop cond.lower body.lower)
  | .repeatLoop count body => Gen.balanced (Gen.repeatLoop count.lower body.lower)
  | .call callee args => Gen.balanced (Gen.callStmt callee args)
  | .ret value? _ => Gen.balanced (Gen.ret value?)

/-- Declarations have no code; their words belong to the frame. -/
def Block.lower : Block → Gen Unit
  | ⟨_, stmts⟩ => Stmt.lowerAll stmts

def Stmt.lowerAll : List Stmt → Gen Unit
  | [] => return ()
  | stmt :: stmts => do
    stmt.lower
    Stmt.lowerAll stmts

end

end StackMips
