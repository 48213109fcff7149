import StackMips.Text
import StackMips.Tree

/-!
# Source text of a tree

Every compound expression is printed in parentheses, so no precedence has to be known to read
the text back.  Blocks are indented by four blanks for each level.
-/

namespace StackMips

def UnaryOp.render : UnaryOp → String
  | .neg => "-"
  | .not => "!"

def BinaryOp.render : BinaryOp → String
  | .add => "+"
  | .sub => "-"
  | .mul => "*"
  | .div => "/"
  | .and => "&&"
  | .or => "||"
  | .eq => "=="
  | .ne => "!="
  | .lt => "<"
  | .gt => ">"
  | .le => "<="
  | .ge => ">="

def TypeName.render : TypeName → String
  | .int => "int"
  | .bool => "bool"
  | .void => "void"
  | .struct id => "struct " ++ id.name

mutual

def Expr.render : Expr → String
  | .int value _ => toString value.toInt
  | .str text _ => "\"" ++ text ++ "\""
  | .bool value _ => if value then "true" else "false"
  | .name id => id.name
  | .field base id => base.render ++ "." ++ id.name
  | .assign target value => "(" ++ target.render ++ " = " ++ value.render ++ ")"
  | .call callee args => callee.name ++ "(" ++ String.intercalate ", " (Expr.renderAll args) ++ ")"
  | .unary op operand => "(" ++ op.render ++ operand.render ++ ")"
  | .binary op left right =>
    "(" ++ left.render ++ " " ++ op.render ++ " " ++ right.render ++ ")"

def Expr.renderAll : List Expr → List String
  | [] => []
  | e :: es => e.render :: Expr.renderAll es

end

/-- A declaration as it stands among formals, without the closing semicolon. -/
def VarDecl.renderFormal (decl : VarDecl) : String :=
  decl.type.render ++ " " ++ decl.id.name

def VarDecl.render (decl : VarDecl) : String :=
  decl.renderFormal ++ ";"

/-- Columns by which a nested block is indented. -/
def indentStep : Nat := 4

/-- The end of the line in front of a block. -/
def Block.opening : String := " \x7b\n"

/-- The line behind a block. -/
def Block.closing : String := "\x7d\n"

/-- The line behind the fields of a struct. -/
def StructDecl.closing : String := "\x7d;\n"

mutual

/-- A statement on lines of its own, each ended by a line feed. -/
def Stmt.renderAt (indent : Nat) : Stmt → String
  | .assign target value =>
    Text.blanks indent ++ target.render ++ " = " ++ value.render ++ ";\n"
  | .increment target => Text.blanks indent ++ target.render ++ "++;\n"
  | .decrement target => Text.blanks indent ++ target.render ++ "--;\n"
  | .read target => Text.blanks indent ++ "cin >> " ++ target.render ++ ";\n"
  | .write value => Text.blanks indent ++ "cout << " ++ value.render ++ ";\n"
  | .ifThen cond body =>
    Text.blanks indent ++ "if (" ++ cond.render ++ ")" ++ Block.opening
      ++ body.renderAt (indent + indentStep)
      ++ Text.blanks indent ++ Block.closing
  | .ifElse cond thenBody elseBody =>
    Text.blanks indent ++ "if (" ++ cond.render ++ ")" ++ Block.opening
      ++ thenBody.renderAt (indent + indentStep)
      ++ Text.blanks indent ++ Block.closing
      ++ Text.blanks indent ++ "else" ++ Block.opening
      ++ elseBody.renderAt (indent + indentStep)
      ++ Text.blanks indent ++ Block.closing
  | .whileLoop cond body =>
    Text.blanks indent ++ "while (" ++ cond.render ++ ")" ++ Block.opening
      ++ body.renderAt (indent + indentStep)
      ++ Text.blanks indent ++ Block.closing
  | .repeatLoop count body =>
    Text.blanks indent ++ "repeat (" ++ count.render ++ ")" ++ Block.opening
      ++ body.renderAt (indent + indentStep)
      ++ Text.blanks indent ++ Block.closing
  | .call callee args =>
    Text.blanks indent ++ (Expr.call callee args).render ++ ";\n"
  | .ret (some value) _ => Text.blanks indent ++ "return " ++ value.render ++ ";\n"
  | .ret none _ => Text.blanks indent ++ "return;\n"

/-- Declarations, then statements. -/
def Block.renderAt (indent : Nat) : Block → String
  | ⟨decls, stmts⟩ =>
    String.join (decls.map fun decl => Text.blanks indent ++ decl.render ++ "\n")
      ++ Stmt.renderAllAt indent stmts

def Stmt.renderAllAt (indent : Nat) : List Stmt → String
  | [] => ""
  | stmt :: stmts => stmt.renderAt indent ++ Stmt.renderAllAt indent stmts

end

def Stmt.render (stmt : Stmt) : String :=
  stmt.renderAt 0

def Block.render (block : Block) : String :=
  block.renderAt 0

def FnDecl.render (fn : FnDecl) : String :=
  fn.returnType.render ++ " " ++ fn.id.name
    ++ "(" ++ String.intercalate ", " (fn.formals.map VarDecl.renderFormal) ++ ")" ++ Block.opening
    ++ fn.body.renderAt indentStep
    ++ Block.closing

def StructDecl.render (struct : StructDecl) : String :=
  "struct " ++ struct.id.name ++ Block.opening
    ++ String.join (struct.fields.map fun field => Text.blanks indentStep ++ field.render ++ "\n")
    ++ StructDecl.closing

def Decl.render : Decl → String
  | .var decl => decl.render ++ "\n"
  | .fn decl => decl.render
  | .struct decl => decl.render

/-- Declarations separated by an empty line. -/
def Program.render (program : Program) : String :=
  String.intercalate "\n" (program.decls.map Decl.render)

end StackMips
