import StackMips.Resolution.Declaration

/-!
# Resolving function bodies

A name use is linked to the nearest declaration of the name.  A chain of field accesses is
followed from the left through the struct definitions it reaches and reported at most once.
-/

namespace StackMips

/-- Link a name use to its nearest declaration. -/
def Ident.resolve (id : Ident) : Resolve Ident := do
  match (← get).table.lookup id.name with
  | some symbol => id.linkTo symbol
  | none =>
    Resolve.report .undeclared id.pos
    return id

/-- How far a field access got. -/
inductive Access where
  /-- A part of the chain was reported, so the rest stays quiet. -/
  | broken
  /-- The field was found; a field that is a struct has a definition. -/
  | reached (definition? : Option SymbolId)

/-- Look a field up in the struct definition that the chain has reached so far. -/
def Ident.resolveField (id : Ident) : Option SymbolId → Resolve (Ident × Access)
  | none => return (id, .broken)
  | some definition => do
    let struct ← (← get).symbols.fetch definition
    match struct.fields?.bind (·.lookup id.name) with
    | none =>
      Resolve.report .unknownField id.pos
      return (id, .broken)
    | some symbol =>
      let id ← id.linkTo symbol
      let field ← (← get).symbols.fetch symbol
      return (id, .reached field.definition?)

/-- Resolve what stands before a dot and find the struct definition it has.  No definition means
that the reason has been reported. -/
def Expr.resolveBase : Expr → Resolve (Expr × Option SymbolId)
  | .name id => do
    let id ← id.resolve
    match id.link with
    | none => return (.name id, none)
    | some link =>
      let symbol ← (← get).symbols.fetch link
      if symbol.definition?.isNone then
        Resolve.report .fieldOfNonStruct id.pos
      return (.name id, symbol.definition?)
  | .field base id => do
    let (base, definition?) ← base.resolveBase
    let (id, access) ← id.resolveField definition?
    match access with
    | .broken => return (.field base id, none)
    | .reached definition? =>
      if definition?.isNone then
        Resolve.report .fieldOfNonStruct id.pos
      return (.field base id, definition?)
  | base => Resolve.stop (.fieldBase base)

/-- Only a name or a field can be assigned to. -/
def Expr.requireLocation (target : Expr) : Resolve Unit :=
  if target.isLocation then return () else Resolve.stop (.targetNotLocation target)

mutual

def Expr.resolve : Expr → Resolve Expr
  | .int value pos => return .int value pos
  | .str text pos => return .str text pos
  | .bool value pos => return .bool value pos
  | .name id => return .name (← id.resolve)
  | .field base id => do
    let (base, definition?) ← base.resolveBase
    let (id, _) ← id.resolveField definition?
    return .field base id
  | .assign target value => do
    target.requireLocation
    let target ← target.resolve
    let value ← value.resolve
    return .assign target value
  | .call callee args => do
    let callee ← callee.resolve
    let args ← Expr.resolveAll args
    return .call callee args
  | .unary op operand => return .unary op (← operand.resolve)
  | .binary op left right => do
    let left ← left.resolve
    let right ← right.resolve
    return .binary op left right

def Expr.resolveAll : List Expr → Resolve (List Expr)
  | [] => return []
  | e :: es => do
    let e ← e.resolve
    let es ← Expr.resolveAll es
    return e :: es

end

/-- Resolve the target of an assignment, a read or a step. -/
def Expr.resolveTarget (target : Expr) : Resolve Expr := do
  target.requireLocation
  target.resolve

mutual

def Stmt.resolve : Stmt → Resolve Stmt
  | .assign target value => do
    let target ← target.resolveTarget
    let value ← value.resolve
    return .assign target value
  | .increment target => return .increment (← target.resolveTarget)
  | .decrement target => return .decrement (← target.resolveTarget)
  | .read target => return .read (← target.resolveTarget)
  | .write value => return .write (← value.resolve)
  | .ifThen cond body => do
    let cond ← cond.resolve
    let body ← Resolve.inScope body.resolve
    return .ifThen cond body
  | .ifElse cond thenBody elseBody => do
    let cond ← cond.resolve
    let thenBody ← Resolve.inScope thenBody.resolve
    let elseBody ← Resolve.inScope elseBody.resolve
    return .ifElse cond thenBody elseBody
  | .whileLoop cond body => do
    let cond ← cond.resolve
    let body ← Resolve.inScope body.resolve
    return .whileLoop cond body
  | .repeatLoop count body => do
    let count ← count.resolve
    let body ← Resolve.inScope body.resolve
    return .repeatLoop count body
  | .call callee args => do
    let callee ← callee.resolve
    let args ← Expr.resolveAll args
    return .call callee args
  | .ret (some value) pos => return .ret (some (← value.resolve)) pos
  | .ret none pos => return .ret none pos

/-- Declarations, then statements, in the current scope. -/
def Block.resolve : Block → Resolve Block
  | ⟨decls, stmts⟩ => do
    let decls ← Resolve.declareLocals decls
    let stmts ← Stmt.resolveAll stmts
    return ⟨decls, stmts⟩

def Stmt.resolveAll : List Stmt → Resolve (List Stmt)
  | [] => return []
  | stmt :: stmts => do
    let stmt ← stmt.resolve
    let stmts ← Stmt.resolveAll stmts
    return stmt :: stmts

end

end StackMips
