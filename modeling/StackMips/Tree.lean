import StackMips.Pos
import StackMips.Ty

/-!
# The program tree

Programs are lists of top-level declarations: global variables, functions and structs.  An
identifier carries a link to its symbol, which is empty until names have been resolved.
-/

namespace StackMips

/-- Index of a symbol in its arena, in order of allocation. -/
abbrev SymbolId := Nat

structure Ident where
  name : String
  pos : Pos
  link : Option SymbolId := none
  deriving DecidableEq

/-- A type as it is written in a declaration. -/
inductive TypeName where
  | int
  | bool
  | void
  | struct (id : Ident)
  deriving DecidableEq

/-- The semantic type that a written type denotes. -/
def TypeName.toTy : TypeName → Ty
  | .int => .int
  | .bool => .bool
  | .void => .void
  | .struct id => .struct id.name

inductive UnaryOp where
  | neg
  | not
  deriving DecidableEq

inductive BinaryOp where
  | add | sub | mul | div
  | and | or
  | eq | ne
  | lt | gt | le | ge
  deriving DecidableEq

/-- Operators of one family share a typing rule. -/
inductive OpFamily where
  | arithmetic
  | logical
  | equality
  | relational
  deriving DecidableEq

def BinaryOp.family : BinaryOp → OpFamily
  | .add | .sub | .mul | .div => .arithmetic
  | .and | .or => .logical
  | .eq | .ne => .equality
  | .lt | .gt | .le | .ge => .relational

/-- Whether the right operand may be skipped at run time. -/
def BinaryOp.shortCircuits : BinaryOp → Bool
  | .and | .or => true
  | _ => false

inductive Expr where
  | int (value : Int32) (pos : Pos)
  /-- A string literal, stored without the surrounding quotes. -/
  | str (text : String) (pos : Pos)
  | bool (value : Bool) (pos : Pos)
  | name (id : Ident)
  /-- Access to a field of a struct. -/
  | field (base : Expr) (id : Ident)
  /-- An assignment used as a value. -/
  | assign (target value : Expr)
  | call (callee : Ident) (args : List Expr)
  | unary (op : UnaryOp) (operand : Expr)
  | binary (op : BinaryOp) (left right : Expr)

namespace Expr

/-- Where reports about an expression point: a composite expression is reported at its leftmost
operand, a call at its callee and a field access at the field. -/
def pos : Expr → Pos
  | .int _ pos | .str _ pos | .bool _ pos => pos
  | .name id => id.pos
  | .field _ id => id.pos
  | .assign target _ => target.pos
  | .call callee _ => callee.pos
  | .unary _ operand => operand.pos
  | .binary _ left _ => left.pos

/-- Whether the expression names a storage location. -/
def isLocation : Expr → Bool
  | .name _ | .field _ _ => true
  | _ => false

/-- The identifier of a plain name use. -/
def ident? : Expr → Option Ident
  | .name id => some id
  | _ => none

end Expr

/-- A variable, formal parameter or struct field. -/
structure VarDecl where
  type : TypeName
  id : Ident
  deriving DecidableEq

mutual

inductive Stmt where
  | assign (target value : Expr)
  | increment (target : Expr)
  | decrement (target : Expr)
  | read (target : Expr)
  | write (value : Expr)
  | ifThen (cond : Expr) (body : Block)
  | ifElse (cond : Expr) (thenBody elseBody : Block)
  | whileLoop (cond : Expr) (body : Block)
  /-- Runs the body as often as the count says; the count is evaluated once. -/
  | repeatLoop (count : Expr) (body : Block)
  | call (callee : Ident) (args : List Expr)
  | ret (value : Option Expr) (pos : Pos)

/-- Local declarations followed by statements. -/
structure Block where
  decls : List VarDecl := []
  stmts : List Stmt := []

end

def Block.isEmpty (block : Block) : Bool :=
  block.decls.isEmpty && block.stmts.isEmpty

structure FnDecl where
  returnType : TypeName
  id : Ident
  formals : List VarDecl
  body : Block

structure StructDecl where
  id : Ident
  fields : List VarDecl

inductive Decl where
  | var (decl : VarDecl)
  | fn (decl : FnDecl)
  | struct (decl : StructDecl)

/-- The declared identifier. -/
def Decl.id : Decl → Ident
  | .var decl => decl.id
  | .fn decl => decl.id
  | .struct decl => decl.id

structure Program where
  decls : List Decl := []

/-- The first function of that name. -/
def Program.function? (program : Program) (name : String) : Option FnDecl :=
  program.decls.findSome? fun
    | .fn decl => if decl.id.name == name then some decl else none
    | _ => none

end StackMips
