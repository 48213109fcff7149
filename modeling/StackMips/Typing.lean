import StackMips.Symbol
import StackMips.Typing.Operator

/-!
# Type checking

Checking computes the type of an expression and reports what is wrong inside it.  Only function
bodies are checked; a call with the wrong number of arguments still has the declared return type.
-/

namespace StackMips

/-- The type of the symbol behind an identifier; an unlinked one has been reported before. -/
def Ident.ty (symbols : Arena) (id : Ident) : Except Fault Ty :=
  match id.link with
  | none => .ok .error
  | some link => do
    let symbol ← symbols.fetch link
    return symbol.ty

/-- The function behind an identifier. -/
def Ident.function? (symbols : Arena) (id : Ident) : Except Fault (Option FunctionInfo) :=
  match id.link with
  | none => .ok none
  | some link => do
    let symbol ← symbols.fetch link
    return symbol.function?

mutual

def Expr.check (symbols : Arena) : Expr → Reporting Ty
  | .int _ _ => return .int
  | .str _ _ => return .string
  | .bool _ _ => return .bool
  | .name id => id.ty symbols
  | .field _ id => id.ty symbols
  | .assign target value => do
    let targetTy ← target.check symbols
    let valueTy ← value.check symbols
    let accepted ← Typing.checkSameKind .assignment targetTy valueTy target.pos
    return if accepted then targetTy else .error
  | .call callee args => do
    let calleeTy ← callee.ty symbols
    if calleeTy.isError then
      return .error
    match ← callee.function? symbols with
    | none =>
      Reporting.report .calleeNotFunction callee.pos
      return .error
    | some info =>
      if args.length = info.numParams then
        Expr.checkArgs symbols args info.paramTypes
      else
        Reporting.report .argumentCount callee.pos
      return info.returnType
  | .unary op operand => do
    let ty ← operand.check symbols
    Typing.checkUnary op ty operand.pos
  | .binary op left right => do
    let leftTy ← left.check symbols
    let rightTy ← right.check symbols
    Typing.checkBinary op leftTy left.pos rightTy right.pos

/-- Check arguments against the types of accepted formals, as far as there are both. -/
def Expr.checkArgs (symbols : Arena) : List Expr → List Ty → Reporting Unit
  | [], _ | _, [] => return ()
  | arg :: args, formal :: formals => do
    let actual ← arg.check symbols
    if !actual.isError && !actual.agrees formal then
      Reporting.report .argumentType arg.pos
    Expr.checkArgs symbols args formals

end

/-- Why a value of this type cannot be read into. -/
def Ty.readObjection? : Ty → Option Code
  | .function _ _ => some .readFunction
  | .structDef _ => some .readStructName
  | .struct _ => some .readStruct
  | _ => none

/-- Why a value of this type cannot be written. -/
def Ty.writeObjection? : Ty → Option Code
  | .function _ _ => some .writeFunction
  | .structDef _ => some .writeStructName
  | .struct _ => some .writeStruct
  | .void => some .writeVoid
  | _ => none

namespace Typing

/-- Report an objection, if there is one. -/
def reportObjection (code? : Option Code) (pos : Pos) : Reporting Unit :=
  match code? with
  | none => return ()
  | some code => Reporting.report code pos

/-- Check an expression that must have a type of a certain sort. -/
def checkExpected (symbols : Arena) (e : Expr) (accepts : Ty → Bool) (code : Code) :
    Reporting Unit := do
  let ty ← e.check symbols
  let _ ← checkOperand ty e.pos accepts code

/-- Check the value of a return statement against the declared type. -/
def checkReturned (symbols : Arena) (returnType : Ty) (value : Expr) : Reporting Unit := do
  let ty ← value.check symbols
  if returnType.isVoid then
    Reporting.report .valueFromVoid value.pos
  else if !returnType.isError && !ty.isError && !ty.agrees returnType then
    Reporting.report .returnType value.pos

end Typing

mutual

/-- Check a statement of a function with the given return type. -/
def Stmt.check (symbols : Arena) (returnType : Ty) : Stmt → Reporting Unit
  | .assign target value => do
    let _ ← (Expr.assign target value).check symbols
  | .increment target | .decrement target =>
    Typing.checkExpected symbols target Ty.isInt .arithmeticOperand
  | .read target => do
    let ty ← target.check symbols
    Typing.reportObjection ty.readObjection? target.pos
  | .write value => do
    let ty ← value.check symbols
    Typing.reportObjection ty.writeObjection? value.pos
  | .ifThen cond body => do
    Typing.checkExpected symbols cond Ty.isBool .ifCondition
    body.check symbols returnType
  | .ifElse cond thenBody elseBody => do
    Typing.checkExpected symbols cond Ty.isBool .ifCondition
    thenBody.check symbols returnType
    elseBody.check symbols returnType
  | .whileLoop cond body => do
    Typing.checkExpected symbols cond Ty.isBool .whileCondition
    body.check symbols returnType
  | .repeatLoop count body => do
    Typing.checkExpected symbols count Ty.isInt .repeatCount
    body.check symbols returnType
  | .call callee args => do
    let _ ← (Expr.call callee args).check symbols
  | .ret (some value) _ => Typing.checkReturned symbols returnType value
  | .ret none pos =>
    if returnType.isVoid then return () else Reporting.report .missingValue pos

def Block.check (symbols : Arena) (returnType : Ty) : Block → Reporting Unit
  | ⟨_, stmts⟩ => Stmt.checkAll symbols returnType stmts

def Stmt.checkAll (symbols : Arena) (returnType : Ty) : List Stmt → Reporting Unit
  | [] => return ()
  | stmt :: stmts => do
    stmt.check symbols returnType
    Stmt.checkAll symbols returnType stmts

end

def FnDecl.check (symbols : Arena) (fn : FnDecl) : Reporting Unit :=
  fn.body.check symbols fn.returnType.toTy

def Decl.check (symbols : Arena) : Decl → Reporting Unit
  | .fn decl => decl.check symbols
  | _ => return ()

def Decl.checkAll (symbols : Arena) : List Decl → Reporting Unit
  | [] => return ()
  | decl :: decls => do
    decl.check symbols
    Decl.checkAll symbols decls

def Program.check (symbols : Arena) (program : Program) : Reporting Unit :=
  Decl.checkAll symbols program.decls

end StackMips
