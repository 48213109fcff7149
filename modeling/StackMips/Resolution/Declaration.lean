import StackMips.Context
import StackMips.Reporting
import StackMips.Tree.Link

/-!
# Declaring variables

A declaration is accepted when its type is not void, a struct name in its type is defined, and
its own name is free in the innermost scope.  Only an accepted declaration gets a symbol and a
place in the frame; each rule that a rejected one breaks is reported.  The offset of the next place
is an integer without a bound, which is a signed 32-bit word as long as it is at least `-2 ^ 31`.
-/

namespace StackMips

/-- What resolution changes while it walks over a tree. -/
structure Resolver where
  symbols : Arena
  table : SymbolTable
  /-- Offset of the next variable in the frame. -/
  frameOffset : Int
  /-- Locals accepted so far in the current function. -/
  localWords : Nat

abbrev Resolve := StateT Resolver Reporting

namespace Resolve

def report (code : Code) (pos : Pos) : Resolve Unit :=
  liftM (Reporting.report code pos)

def stop {α : Type} (fault : Fault) : Resolve α :=
  liftM (Reporting.stopped fault : Reporting α)

/-- Add a symbol to the arena. -/
def allocate (symbol : Symbol) : Resolve SymbolId := do
  let resolver ← get
  set { resolver with symbols := resolver.symbols.push symbol }
  return resolver.symbols.size

/-- Bind a name that is known to be free. -/
def insertInto (table : SymbolTable) (name : String) (symbol : SymbolId) : Resolve SymbolTable :=
  match table.declare name symbol with
  | .ok table => return table
  | .error error => stop (.insertionRefused error)

/-- Run a computation in a scope of its own. -/
def inScope {α : Type} (body : Resolve α) : Resolve α := do
  modify fun resolver => { resolver with table := resolver.table.enter }
  let result ← body
  match (← get).table.leave with
  | .ok table =>
    modify fun resolver => { resolver with table }
    return result
  | .error error => stop (.scopesUnbalanced error)

/-- The definition of a struct, if the nearest binding of the name is one. -/
def visibleStruct (name : String) : Resolve (Option SymbolId) := do
  let resolver ← get
  match resolver.table.lookup name with
  | none => return none
  | some symbol =>
    let definition ← resolver.symbols.fetch symbol
    return if definition.fields?.isSome then some symbol else none

/-- Link a struct name in a written type to its definition. -/
def structName (id : Ident) : Resolve (Ident × Option SymbolId) := do
  match ← visibleStruct id.name with
  | some definition => return (← id.linkTo definition, some definition)
  | none =>
    report .unknownStruct id.pos
    return (id, none)

/-- The kind of symbol that the written type of a declaration calls for. -/
def variableKind (decl : VarDecl) : Resolve (TypeName × Option SymbolKind) := do
  match decl.type with
  | .int | .bool => return (decl.type, some .scalar)
  | .void =>
    report .voidVariable decl.id.pos
    return (decl.type, none)
  | .struct id =>
    let (id, definition?) ← structName id
    return (.struct id, definition?.map .structInstance)

/-- Check a declaration against its type and against the names already taken. -/
def checkDecl (decl : VarDecl) (taken : Bool) : Resolve (TypeName × Option SymbolKind) := do
  let (type, kind?) ← variableKind decl
  if taken then
    report .multiplyDeclared decl.id.pos
    return (type, none)
  return (type, kind?)

/-- Declare a variable in the innermost scope of `target`, which is returned with the new name if
the declaration is accepted. -/
def declareInto (target : SymbolTable) (decl : VarDecl) (offset : Int) :
    Resolve (VarDecl × Option SymbolTable) := do
  let (type, kind?) ← checkDecl decl (target.lookupInnermost decl.id.name).isSome
  match kind? with
  | none => return ({ decl with type }, none)
  | some kind =>
    let symbol ← allocate
      { name := decl.id.name, ty := type.toTy, offset, kind, pos := decl.id.pos }
    let target ← insertInto target decl.id.name symbol
    let id ← decl.id.linkTo symbol
    return ({ type, id }, some target)

/-- Declare a variable in the current scope and say whether it was accepted. -/
def declareVariable (decl : VarDecl) (offset : Int) : Resolve (VarDecl × Bool) := do
  let (decl, table?) ← declareInto (← get).table decl offset
  match table? with
  | none => return (decl, false)
  | some table =>
    modify fun resolver => { resolver with table }
    return (decl, true)

/-- Declare a variable at the next place in the frame. -/
def declareInFrame (decl : VarDecl) : Resolve (VarDecl × Bool) := do
  let (decl, accepted) ← declareVariable decl (← get).frameOffset
  if accepted then
    modify fun resolver => { resolver with frameOffset := resolver.frameOffset - wordSize }
  return (decl, accepted)

def declareLocal (decl : VarDecl) : Resolve VarDecl := do
  let (decl, accepted) ← declareInFrame decl
  if accepted then
    modify fun resolver => { resolver with localWords := resolver.localWords + 1 }
  return decl

def declareLocals : List VarDecl → Resolve (List VarDecl)
  | [] => return []
  | decl :: decls => do
    let decl ← declareLocal decl
    let decls ← declareLocals decls
    return decl :: decls

/-- Declare the formals of a function; the types are those of the accepted ones. -/
def declareFormals : List VarDecl → Resolve (List VarDecl × List Ty)
  | [] => return ([], [])
  | decl :: decls => do
    let (decl, accepted) ← declareInFrame decl
    let (decls, types) ← declareFormals decls
    return (decl :: decls, if accepted then decl.type.toTy :: types else types)

/-- Declare the fields of a struct in a table of their own, one word apart. -/
def declareFields (fields : SymbolTable) (offset : Int) :
    List VarDecl → Resolve (List VarDecl × SymbolTable)
  | [] => return ([], fields)
  | decl :: decls => do
    let (decl, fields?) ← declareInto fields decl offset
    let (decls, fields) ←
      match fields? with
      | some fields => declareFields fields (offset - wordSize) decls
      | none => declareFields fields offset decls
    return (decl :: decls, fields)

end Resolve

end StackMips
