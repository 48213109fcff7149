import StackMips.Lowering.Generator

/-!
# Symbols and variables in generated code

Generation runs on a linked tree, so the symbol and the type of every expression can be read off
its links.  A variable lives in its frame or, if its offset is positive, in the data region.
-/

namespace StackMips

open Mips

/-- The symbol of an identifier that must be linked. -/
def Ident.symbol (symbols : Arena) (id : Ident) : Except Fault Symbol :=
  match id.link with
  | some link => symbols.fetch link
  | none => .error (.unresolved id.name)

/-- The declared return type of a callee. -/
def Ident.returnType (symbols : Arena) (callee : Ident) : Except Fault Ty := do
  let symbol ← callee.symbol symbols
  match symbol.function? with
  | some info => return info.returnType
  | none => .error (.callOfNonFunction callee.name)

/-- Whether a call of this function yields a value. -/
def Ident.returnsValue (symbols : Arena) (callee : Ident) : Except Fault Bool := do
  let ty ← callee.returnType symbols
  return !ty.isVoid

/-- The type of an expression that has been checked before. -/
def Expr.typeOf (symbols : Arena) : Expr → Except Fault Ty
  | .int _ _ => return .int
  | .str _ _ => return .string
  | .bool _ _ => return .bool
  | .name id | .field _ id => do
    let symbol ← id.symbol symbols
    return symbol.ty
  | .assign target _ => target.typeOf symbols
  | .call callee _ => callee.returnType symbols
  | .unary .neg _ => return .int
  | .unary .not _ => return .bool
  | .binary op _ _ =>
    match op.family with
    | .arithmetic => return .int
    | .logical | .relational | .equality => return .bool

/-- Where a variable lives. -/
inductive Location where
  | frame (offset : Int)
  | global (label : Label)
  deriving DecidableEq

def Location.address : Location → Address
  | .frame offset => .indexed offset .fp
  | .global label => .label label

def Ident.location (symbols : Arena) (id : Ident) : Except Fault Location := do
  let symbol ← id.symbol symbols
  return if symbol.isGlobal then .global (globalLabel id.name) else .frame symbol.offset

namespace Gen

def location (id : Ident) : Gen Location := do
  id.location (← get).context.symbols

/-- Push the value of a variable. -/
def load (id : Ident) : Gen Unit := do
  let location ← location id
  match location with
  | .frame _ => opWith (.lw .t0 location.address) "load the value of local into T0"
  | .global _ => opWith (.lw .t0 location.address) "load the value of global into T0"
  push .t0

/-- Push the address of a variable. -/
def loadAddress (id : Ident) : Gen Unit := do
  let location ← location id
  match location with
  | .frame _ => opWith (.la .t0 location.address) "load the address of local into T0"
  | .global _ => op (.la .t0 location.address)
  push .t0

/-- Reserve an aligned word for a global variable. -/
def global (decl : VarDecl) : Gen Unit := do
  region .data
  opWith (.align 2) "align on a word boundary"
  emit (.label (globalLabel decl.id.name) (some { operation := .space wordSize }))

end Gen

end StackMips
