import StackMips.Resolution.Body

/-!
# Resolving programs

Top-level declarations are resolved in source order, so a function sees itself and what stands
before it.  A frame holds the parameters, then the saved return address and frame pointer, then
the locals, at offsets that go down by one word.  The fields of a struct are declared before the
struct itself.

Offsets and sizes are integers without a bound.  They are those of signed 32-bit words as long as a
function declares at most `2 ^ 29 - 2` parameters and locals, and a struct as many fields.
-/

namespace StackMips

/-- Link the struct name in a return type; an unknown one does not reject the function. -/
def TypeName.resolveReturn : TypeName → Resolve TypeName
  | .struct id => do
    let (id, _) ← Resolve.structName id
    return .struct id
  | type => return type

/-- Declare a name at top level unless it is taken. -/
def Resolve.declareGlobal (id : Ident) (taken : Bool) (symbol : Symbol) :
    Resolve (Ident × Option SymbolId) := do
  if taken then
    return (id, none)
  let index ← Resolve.allocate symbol
  let table ← Resolve.insertInto (← get).table id.name index
  modify fun resolver => { resolver with table }
  return (← id.linkTo index, some index)

/-- Record the signature and the frame of a function once its body has been resolved. -/
def Symbol.withFrame (symbol : Symbol) (paramTypes : List Ty) (returnType : Ty)
    (localWords : Nat) : Symbol :=
  { symbol with
    ty := .function paramTypes returnType
    kind :=
      match symbol.kind with
      | .function info =>
        .function
          { info with
            paramTypes
            paramsSize := wordSize * paramTypes.length
            localsSize := wordSize * localWords }
      | kind => kind }

/-- Resolve the formals and the body of a function in one scope and return the types of the
accepted formals. -/
def FnDecl.resolveFrame (fn : FnDecl) : Resolve (FnDecl × List Ty) :=
  Resolve.inScope do
    modify fun resolver => { resolver with frameOffset := 0, localWords := 0 }
    let (formals, paramTypes) ← Resolve.declareFormals fn.formals
    modify fun resolver => { resolver with frameOffset := resolver.frameOffset - linkageSize }
    let body ← fn.body.resolve
    return ({ fn with formals, body }, paramTypes)

def FnDecl.resolve (fn : FnDecl) : Resolve FnDecl := do
  let returnType ← fn.returnType.resolveReturn
  let taken := ((← get).table.lookupInnermost fn.id.name).isSome
  if taken then
    Resolve.report .multiplyDeclared fn.id.pos
  let (id, index?) ← Resolve.declareGlobal fn.id taken
    (Symbol.ofFunction fn.id.name returnType.toTy fn.formals.length fn.id.pos)
  let (fn, paramTypes) ← { fn with returnType, id }.resolveFrame
  if let some index := index? then
    modify fun resolver =>
      { resolver with
        symbols := resolver.symbols.modify index
          (·.withFrame paramTypes returnType.toTy resolver.localWords) }
  return fn

def StructDecl.resolve (struct : StructDecl) : Resolve StructDecl := do
  let taken := ((← get).table.lookupInnermost struct.id.name).isSome
  if taken then
    Resolve.report .multiplyDeclared struct.id.pos
  let (fields, table) ← Resolve.declareFields {} 0 struct.fields
  let (id, _) ← Resolve.declareGlobal struct.id taken
    (Symbol.ofStructDef struct.id.name table struct.id.pos)
  return { id, fields }

def Decl.resolve : Decl → Resolve Decl
  | .var decl => do
    let (decl, _) ← Resolve.declareVariable decl globalOffset
    return .var decl
  | .fn decl => return .fn (← decl.resolve)
  | .struct decl => return .struct (← decl.resolve)

def Decl.resolveAll : List Decl → Resolve (List Decl)
  | [] => return []
  | decl :: decls => do
    let decl ← decl.resolve
    let decls ← Decl.resolveAll decls
    return decl :: decls

/-- Report a program without a function of the entry point's name. -/
def Resolve.requireEntryPoint (name : String) : Resolve Unit := do
  let resolver ← get
  let found ←
    match resolver.table.lookup name with
    | none => pure false
    | some symbol => do
      let symbol ← resolver.symbols.fetch symbol
      pure symbol.function?.isSome
  if !found then
    Resolve.report .noEntryPoint Pos.nowhere

/-- A linked program with the symbols its links point to. -/
structure Resolved where
  program : Program
  context : Context
  /-- The global scope at the end of the program. -/
  table : SymbolTable

/-- Resolve a program, adding its symbols to those of the context. -/
def Program.resolve (program : Program) (context : Context) : Reporting Resolved := do
  let start : Resolver :=
    { symbols := context.symbols, table := {}, frameOffset := context.frameOffset, localWords := 0 }
  let walk : Resolve (List Decl) := do
    let decls ← Decl.resolveAll program.decls
    Resolve.requireEntryPoint context.options.entryPoint
    return decls
  let (decls, resolver) ← walk.run start
  return {
    program := ⟨decls⟩
    context := { context with symbols := resolver.symbols, frameOffset := resolver.frameOffset }
    table := resolver.table }

end StackMips
