import StackMips.Tree

/-!
# Identifier occurrences

The identifiers of a tree in source order: a struct type name before the name it declares, the
base of a field access before the field, a target before the assigned value, a callee before its
arguments.
-/

namespace StackMips

/-- The struct name inside a written type. -/
def TypeName.idents : TypeName → List Ident
  | .struct id => [id]
  | _ => []

mutual

def Expr.idents : Expr → List Ident
  | .int _ _ | .str _ _ | .bool _ _ => []
  | .name id => [id]
  | .field base id => base.idents ++ [id]
  | .assign target value => target.idents ++ value.idents
  | .call callee args => callee :: Expr.identsAll args
  | .unary _ operand => operand.idents
  | .binary _ left right => left.idents ++ right.idents

def Expr.identsAll : List Expr → List Ident
  | [] => []
  | e :: es => e.idents ++ Expr.identsAll es

end

def VarDecl.idents (decl : VarDecl) : List Ident :=
  decl.type.idents ++ [decl.id]

mutual

def Stmt.idents : Stmt → List Ident
  | .assign target value => target.idents ++ value.idents
  | .increment target | .decrement target | .read target => target.idents
  | .write value => value.idents
  | .ifThen cond body | .whileLoop cond body => cond.idents ++ body.idents
  | .ifElse cond thenBody elseBody => cond.idents ++ thenBody.idents ++ elseBody.idents
  | .repeatLoop count body => count.idents ++ body.idents
  | .call callee args => callee :: Expr.identsAll args
  | .ret (some value) _ => value.idents
  | .ret none _ => []

def Block.idents : Block → List Ident
  | ⟨decls, stmts⟩ => decls.flatMap VarDecl.idents ++ Stmt.identsAll stmts

def Stmt.identsAll : List Stmt → List Ident
  | [] => []
  | stmt :: stmts => stmt.idents ++ Stmt.identsAll stmts

end

def FnDecl.idents (fn : FnDecl) : List Ident :=
  fn.returnType.idents ++ [fn.id] ++ fn.formals.flatMap VarDecl.idents ++ fn.body.idents

def StructDecl.idents (struct : StructDecl) : List Ident :=
  struct.id :: struct.fields.flatMap VarDecl.idents

def Decl.idents : Decl → List Ident
  | .var decl => decl.idents
  | .fn decl => decl.idents
  | .struct decl => decl.idents

def Program.idents (program : Program) : List Ident :=
  program.decls.flatMap Decl.idents

end StackMips
