import StackMips.Proofs.Tree
import StackMips.Resolution

/-!
# What resolution computes

Resolution of an unlinked tree in the grammar cannot fail, so it is a plain function of the state
it starts in.  This module says which links it sets, which state it ends in and what it reports, by
recursion over the tree and without a monad.
-/

namespace StackMips

namespace Arena

def fields? (symbols : Arena) (id : SymbolId) : Option SymbolTable :=
  (symbols.get? id).bind Symbol.fields?

def definition? (symbols : Arena) (id : SymbolId) : Option SymbolId :=
  (symbols.get? id).bind Symbol.definition?

def field? (symbols : Arena) (definition : SymbolId) (name : String) : Option SymbolId :=
  (symbols.fields? definition).bind (·.lookup name)

end Arena

/-- Bind a name in the innermost scope, where it must be free. -/
def SymbolTable.extend (table : SymbolTable) (name : String) (symbol : SymbolId) : SymbolTable :=
  { table with innermost := ⟨(name, symbol) :: table.innermost.bindings⟩ }

namespace Resolver

def struct? (r : Resolver) (name : String) : Option SymbolId :=
  (r.table.lookup name).filter fun symbol => (r.symbols.fields? symbol).isSome

def enter (r : Resolver) : Resolver :=
  { r with table := r.table.enter }

/-- Back in the scope of `outer`, after a walk through a scope inside it. -/
def backTo (r outer : Resolver) : Resolver :=
  { r with table := outer.table }

def allocate (r : Resolver) (symbol : Symbol) : Resolver :=
  { r with symbols := r.symbols.push symbol }

def accept (r : Resolver) (symbol : Symbol) : Resolver :=
  { r.allocate symbol with table := r.table.extend symbol.name r.symbols.size }

end Resolver

/-! ## Declarations -/

def TypeName.linked (r : Resolver) : TypeName → TypeName
  | .struct id => .struct { id with link := r.struct? id.name }
  | type => type

def TypeName.reports (r : Resolver) : TypeName → List Diagnostic
  | .struct id =>
    if (r.struct? id.name).isSome then [] else [Diagnostic.ofCode .unknownStruct id.pos]
  | _ => []

namespace VarDecl

def kind? (r : Resolver) (decl : VarDecl) : Option SymbolKind :=
  match decl.type with
  | .int | .bool => some .scalar
  | .void => none
  | .struct id => (r.struct? id.name).map .structInstance

/-- The kind of the symbol, if the declaration is accepted into the innermost scope of a table. -/
def accepted? (r : Resolver) (target : SymbolTable) (decl : VarDecl) : Option SymbolKind :=
  if (target.lookupInnermost decl.id.name).isSome then none else decl.kind? r

def typeReports (r : Resolver) (decl : VarDecl) : List Diagnostic :=
  match decl.type with
  | .void => [Diagnostic.ofCode .voidVariable decl.id.pos]
  | type => type.reports r

def reports (r : Resolver) (target : SymbolTable) (decl : VarDecl) : List Diagnostic :=
  decl.typeReports r ++
    if (target.lookupInnermost decl.id.name).isSome then
      [Diagnostic.ofCode .multiplyDeclared decl.id.pos]
    else []

def linked (r : Resolver) (target : SymbolTable) (decl : VarDecl) : VarDecl where
  type := decl.type.linked r
  id := { decl.id with link := (decl.accepted? r target).map fun _ => r.symbols.size }

def symbol (decl : VarDecl) (offset : Int) (kind : SymbolKind) : Symbol where
  name := decl.id.name
  ty := decl.type.toTy
  offset
  kind
  pos := decl.id.pos

end VarDecl

namespace Resolver

def declareGlobal (r : Resolver) (decl : VarDecl) : Resolver :=
  match decl.accepted? r r.table with
  | none => r
  | some kind => r.accept (decl.symbol globalOffset kind)

def declareFormal (r : Resolver) (decl : VarDecl) : Resolver :=
  match decl.accepted? r r.table with
  | none => r
  | some kind =>
    { r.accept (decl.symbol r.frameOffset kind) with frameOffset := r.frameOffset - wordSize }

def declareLocal (r : Resolver) (decl : VarDecl) : Resolver :=
  match decl.accepted? r r.table with
  | none => r
  | some kind =>
    { r.accept (decl.symbol r.frameOffset kind) with
      frameOffset := r.frameOffset - wordSize
      localWords := r.localWords + 1 }

def declareFormals (r : Resolver) (decls : List VarDecl) : Resolver :=
  decls.foldl declareFormal r

def declareLocals (r : Resolver) (decls : List VarDecl) : Resolver :=
  decls.foldl declareLocal r

end Resolver

namespace VarDecl

/-- Variables linked one after the other, each in the state its predecessors leave. -/
def linkedAll (declare : Resolver → VarDecl → Resolver) (r : Resolver) :
    List VarDecl → List VarDecl
  | [] => []
  | decl :: decls => decl.linked r r.table :: linkedAll declare (declare r decl) decls

def reportsAll (declare : Resolver → VarDecl → Resolver) (r : Resolver) :
    List VarDecl → List Diagnostic
  | [] => []
  | decl :: decls => decl.reports r r.table ++ reportsAll declare (declare r decl) decls

def isAccepted (decl : VarDecl) : Bool := decl.id.link.isSome

def acceptedTypes (decls : List VarDecl) : List Ty :=
  (decls.filter isAccepted).map (·.type.toTy)

end VarDecl

namespace StructDecl

/-- The state and the field table after the fields have been declared, the first one at an
offset. -/
def fieldsAfter (r : Resolver) (table : SymbolTable) (offset : Int) :
    List VarDecl → Resolver × SymbolTable
  | [] => (r, table)
  | decl :: decls =>
    match decl.accepted? r table with
    | none => fieldsAfter r table offset decls
    | some kind =>
      fieldsAfter (r.allocate (decl.symbol offset kind))
        (table.extend decl.id.name r.symbols.size) (offset - wordSize) decls

def fieldsLinked (r : Resolver) (table : SymbolTable) (offset : Int) :
    List VarDecl → List VarDecl
  | [] => []
  | decl :: decls =>
    decl.linked r table ::
      match decl.accepted? r table with
      | none => fieldsLinked r table offset decls
      | some kind =>
        fieldsLinked (r.allocate (decl.symbol offset kind))
          (table.extend decl.id.name r.symbols.size) (offset - wordSize) decls

def fieldsReports (r : Resolver) (table : SymbolTable) (offset : Int) :
    List VarDecl → List Diagnostic
  | [] => []
  | decl :: decls =>
    decl.reports r table ++
      match decl.accepted? r table with
      | none => fieldsReports r table offset decls
      | some kind =>
        fieldsReports (r.allocate (decl.symbol offset kind))
          (table.extend decl.id.name r.symbols.size) (offset - wordSize) decls

end StructDecl

/-! ## Expressions -/

namespace Ident

def linked (r : Resolver) (id : Ident) : Ident :=
  { id with link := r.table.lookup id.name }

def fieldLinked (r : Resolver) (definition? : Option SymbolId) (id : Ident) : Ident :=
  { id with link := definition?.bind (r.symbols.field? · id.name) }

def reports (r : Resolver) (id : Ident) : List Diagnostic :=
  if (r.table.lookup id.name).isSome then [] else [Diagnostic.ofCode .undeclared id.pos]

/-- A field must exist in the struct definition that has been reached, if there is one. -/
def fieldReports (r : Resolver) (definition? : Option SymbolId) (id : Ident) : List Diagnostic :=
  match definition? with
  | none => []
  | some definition =>
    if (r.symbols.field? definition id.name).isSome then []
    else [Diagnostic.ofCode .unknownField id.pos]

/-- What stands before a dot must be a struct, if it is known at all. -/
def baseReports (r : Resolver) (id : Ident) (symbol? : Option SymbolId) : List Diagnostic :=
  match symbol? with
  | none => []
  | some symbol =>
    if (r.symbols.definition? symbol).isSome then []
    else [Diagnostic.ofCode .fieldOfNonStruct id.pos]

end Ident

namespace Expr

def reached (r : Resolver) : Expr → Option SymbolId
  | .name id => (r.table.lookup id.name).bind r.symbols.definition?
  | .field base id =>
    ((base.reached r).bind (r.symbols.field? · id.name)).bind r.symbols.definition?
  | _ => none

def baseReports (r : Resolver) : Expr → List Diagnostic
  | .name id => id.reports r ++ id.baseReports r (r.table.lookup id.name)
  | .field base id =>
    base.baseReports r ++ id.fieldReports r (base.reached r) ++
      id.baseReports r ((base.reached r).bind (r.symbols.field? · id.name))
  | _ => []

end Expr

mutual

def Expr.linked (r : Resolver) : Expr → Expr
  | .int value pos => .int value pos
  | .str text pos => .str text pos
  | .bool value pos => .bool value pos
  | .name id => .name (id.linked r)
  | .field base id => .field (base.linked r) (id.fieldLinked r (base.reached r))
  | .assign target value => .assign (target.linked r) (value.linked r)
  | .call callee args => .call (callee.linked r) (Expr.linkedAll r args)
  | .unary op operand => .unary op (operand.linked r)
  | .binary op left right => .binary op (left.linked r) (right.linked r)

def Expr.linkedAll (r : Resolver) : List Expr → List Expr
  | [] => []
  | e :: es => e.linked r :: Expr.linkedAll r es

end

mutual

def Expr.reports (r : Resolver) : Expr → List Diagnostic
  | .int _ _ | .str _ _ | .bool _ _ => []
  | .name id => id.reports r
  | .field base id => base.baseReports r ++ id.fieldReports r (base.reached r)
  | .assign target value => target.reports r ++ value.reports r
  | .call callee args => callee.reports r ++ Expr.reportsAll r args
  | .unary _ operand => operand.reports r
  | .binary _ left right => left.reports r ++ right.reports r

def Expr.reportsAll (r : Resolver) : List Expr → List Diagnostic
  | [] => []
  | e :: es => e.reports r ++ Expr.reportsAll r es

end

@[simp] theorem Expr.linkedAll_eq_map (r : Resolver) (es : List Expr) :
    Expr.linkedAll r es = es.map (Expr.linked r) := by
  induction es with
  | nil => rfl
  | cons e es ih => rw [Expr.linkedAll, ih, List.map_cons]

@[simp] theorem Expr.reportsAll_eq_flatMap (r : Resolver) (es : List Expr) :
    Expr.reportsAll r es = es.flatMap (Expr.reports r) := by
  induction es with
  | nil => rfl
  | cons e es ih => rw [Expr.reportsAll, ih, List.flatMap_cons]

/-! ## Statements -/

mutual

/-- The state after a statement: its locals have been declared and its scopes left. -/
def Stmt.after (r : Resolver) : Stmt → Resolver
  | .ifThen _ body | .whileLoop _ body | .repeatLoop _ body => (body.after r.enter).backTo r
  | .ifElse _ thenBody elseBody =>
    (elseBody.after ((thenBody.after r.enter).backTo r).enter).backTo r
  | _ => r

def Block.after (r : Resolver) : Block → Resolver
  | ⟨decls, stmts⟩ => Stmt.afterAll (r.declareLocals decls) stmts

def Stmt.afterAll (r : Resolver) : List Stmt → Resolver
  | [] => r
  | stmt :: stmts => Stmt.afterAll (stmt.after r) stmts

end

mutual

def Stmt.linked (r : Resolver) : Stmt → Stmt
  | .assign target value => .assign (target.linked r) (value.linked r)
  | .increment target => .increment (target.linked r)
  | .decrement target => .decrement (target.linked r)
  | .read target => .read (target.linked r)
  | .write value => .write (value.linked r)
  | .ifThen cond body => .ifThen (cond.linked r) (body.linked r.enter)
  | .ifElse cond thenBody elseBody =>
    .ifElse (cond.linked r) (thenBody.linked r.enter)
      (elseBody.linked ((thenBody.after r.enter).backTo r).enter)
  | .whileLoop cond body => .whileLoop (cond.linked r) (body.linked r.enter)
  | .repeatLoop count body => .repeatLoop (count.linked r) (body.linked r.enter)
  | .call callee args => .call (callee.linked r) (Expr.linkedAll r args)
  | .ret value? pos => .ret (value?.map (Expr.linked r)) pos

def Block.linked (r : Resolver) : Block → Block
  | ⟨decls, stmts⟩ =>
    ⟨VarDecl.linkedAll Resolver.declareLocal r decls,
      Stmt.linkedAll (r.declareLocals decls) stmts⟩

def Stmt.linkedAll (r : Resolver) : List Stmt → List Stmt
  | [] => []
  | stmt :: stmts => stmt.linked r :: Stmt.linkedAll (stmt.after r) stmts

end

mutual

def Stmt.reports (r : Resolver) : Stmt → List Diagnostic
  | .assign target value => target.reports r ++ value.reports r
  | .increment target | .decrement target | .read target => target.reports r
  | .write value => value.reports r
  | .ifThen cond body | .whileLoop cond body => cond.reports r ++ body.reports r.enter
  | .ifElse cond thenBody elseBody =>
    cond.reports r ++ thenBody.reports r.enter ++
      elseBody.reports ((thenBody.after r.enter).backTo r).enter
  | .repeatLoop count body => count.reports r ++ body.reports r.enter
  | .call callee args => callee.reports r ++ Expr.reportsAll r args
  | .ret (some value) _ => value.reports r
  | .ret none _ => []

def Block.reports (r : Resolver) : Block → List Diagnostic
  | ⟨decls, stmts⟩ =>
    VarDecl.reportsAll Resolver.declareLocal r decls ++
      Stmt.reportsAll (r.declareLocals decls) stmts

def Stmt.reportsAll (r : Resolver) : List Stmt → List Diagnostic
  | [] => []
  | stmt :: stmts => stmt.reports r ++ Stmt.reportsAll (stmt.after r) stmts

end

/-! ## Programs -/

namespace FnDecl

def isTaken (r : Resolver) (fn : FnDecl) : Bool :=
  (r.table.lookupInnermost fn.id.name).isSome

def named (r : Resolver) (fn : FnDecl) : Resolver :=
  if fn.isTaken r then r
  else r.accept (Symbol.ofFunction fn.id.name fn.returnType.toTy fn.formals.length fn.id.pos)

/-- The state in which the formals are declared: a new scope and an empty frame. -/
def opened (r : Resolver) (fn : FnDecl) : Resolver :=
  { (fn.named r).enter with frameOffset := 0, localWords := 0 }

/-- The state in which the body is resolved, below the linkage words of the frame. -/
def inside (r : Resolver) (fn : FnDecl) : Resolver :=
  let formals := (fn.opened r).declareFormals fn.formals
  { formals with frameOffset := formals.frameOffset - linkageSize }

def linkedFormals (r : Resolver) (fn : FnDecl) : List VarDecl :=
  VarDecl.linkedAll Resolver.declareFormal (fn.opened r) fn.formals

/-- The state after the body, before the function's symbol gets its signature. -/
def walked (r : Resolver) (fn : FnDecl) : Resolver :=
  (fn.body.after (fn.inside r)).backTo (fn.named r)

def after (r : Resolver) (fn : FnDecl) : Resolver :=
  if fn.isTaken r then fn.walked r
  else
    { fn.walked r with
      symbols := (fn.walked r).symbols.modify r.symbols.size
        (·.withFrame (VarDecl.acceptedTypes (fn.linkedFormals r)) fn.returnType.toTy
          (fn.walked r).localWords) }

def linked (r : Resolver) (fn : FnDecl) : FnDecl where
  returnType := fn.returnType.linked r
  id := { fn.id with link := if fn.isTaken r then none else some r.symbols.size }
  formals := fn.linkedFormals r
  body := fn.body.linked (fn.inside r)

def reports (r : Resolver) (fn : FnDecl) : List Diagnostic :=
  fn.returnType.reports r ++
    (if fn.isTaken r then [Diagnostic.ofCode .multiplyDeclared fn.id.pos] else []) ++
    VarDecl.reportsAll Resolver.declareFormal (fn.opened r) fn.formals ++
    fn.body.reports (fn.inside r)

end FnDecl

namespace StructDecl

def isTaken (r : Resolver) (struct : StructDecl) : Bool :=
  (r.table.lookupInnermost struct.id.name).isSome

def walked (r : Resolver) (struct : StructDecl) : Resolver :=
  (fieldsAfter r {} 0 struct.fields).1

def fieldTable (r : Resolver) (struct : StructDecl) : SymbolTable :=
  (fieldsAfter r {} 0 struct.fields).2

def after (r : Resolver) (struct : StructDecl) : Resolver :=
  if struct.isTaken r then struct.walked r
  else
    (struct.walked r).accept
      (Symbol.ofStructDef struct.id.name (struct.fieldTable r) struct.id.pos)

def linked (r : Resolver) (struct : StructDecl) : StructDecl where
  id :=
    { struct.id with
      link := if struct.isTaken r then none else some (struct.walked r).symbols.size }
  fields := fieldsLinked r {} 0 struct.fields

def reports (r : Resolver) (struct : StructDecl) : List Diagnostic :=
  (if struct.isTaken r then [Diagnostic.ofCode .multiplyDeclared struct.id.pos] else []) ++
    fieldsReports r {} 0 struct.fields

end StructDecl

namespace Decl

def after (r : Resolver) : Decl → Resolver
  | .var decl => r.declareGlobal decl
  | .fn decl => decl.after r
  | .struct decl => decl.after r

def linked (r : Resolver) : Decl → Decl
  | .var decl => .var (decl.linked r r.table)
  | .fn decl => .fn (decl.linked r)
  | .struct decl => .struct (decl.linked r)

def reports (r : Resolver) : Decl → List Diagnostic
  | .var decl => decl.reports r r.table
  | .fn decl => decl.reports r
  | .struct decl => decl.reports r

def afterAll (r : Resolver) (decls : List Decl) : Resolver :=
  decls.foldl after r

def linkedAll (r : Resolver) : List Decl → List Decl
  | [] => []
  | decl :: decls => decl.linked r :: linkedAll (decl.after r) decls

def reportsAll (r : Resolver) : List Decl → List Diagnostic
  | [] => []
  | decl :: decls => decl.reports r ++ reportsAll (decl.after r) decls

end Decl

namespace Resolver

def hasFunction (r : Resolver) (name : String) : Bool :=
  (((r.table.lookup name).bind r.symbols.get?).bind Symbol.function?).isSome

def entryReports (r : Resolver) (name : String) : List Diagnostic :=
  if r.hasFunction name then [] else [Diagnostic.ofCode .noEntryPoint Pos.nowhere]

def start (context : Context) : Resolver where
  symbols := context.symbols
  table := {}
  frameOffset := context.frameOffset
  localWords := 0

end Resolver

namespace Program

def after (context : Context) (program : Program) : Resolver :=
  Decl.afterAll (Resolver.start context) program.decls

def linked (context : Context) (program : Program) : Resolved where
  program := ⟨Decl.linkedAll (Resolver.start context) program.decls⟩
  context :=
    { context with
      symbols := (program.after context).symbols
      frameOffset := (program.after context).frameOffset }
  table := (program.after context).table

def resolutionReports (context : Context) (program : Program) : List Diagnostic :=
  Decl.reportsAll (Resolver.start context) program.decls ++
    (program.after context).entryReports context.options.entryPoint

end Program

end StackMips
