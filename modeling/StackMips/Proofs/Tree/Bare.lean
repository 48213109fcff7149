import StackMips.Proofs.Tree
import StackMips.Tree.Printer

/-!
# Trees without positions and links

Two trees are the same program text if they differ at most in the positions and in the links they
carry.  Neither is ever printed.
-/

namespace StackMips

def Ident.bare (id : Ident) : Ident := ⟨id.name, Pos.nowhere, none⟩

def TypeName.bare : TypeName → TypeName
  | .struct id => .struct id.bare
  | type => type

def VarDecl.bare (decl : VarDecl) : VarDecl := ⟨decl.type.bare, decl.id.bare⟩

mutual

/-- The expression with all positions and links removed. -/
def Expr.bare : Expr → Expr
  | .int value _ => .int value Pos.nowhere
  | .str text _ => .str text Pos.nowhere
  | .bool value _ => .bool value Pos.nowhere
  | .name id => .name id.bare
  | .field base id => .field base.bare id.bare
  | .assign target value => .assign target.bare value.bare
  | .call callee args => .call callee.bare (Expr.bareAll args)
  | .unary op operand => .unary op operand.bare
  | .binary op left right => .binary op left.bare right.bare

def Expr.bareAll : List Expr → List Expr
  | [] => []
  | e :: es => e.bare :: Expr.bareAll es

end

mutual

def Stmt.bare : Stmt → Stmt
  | .assign target value => .assign target.bare value.bare
  | .increment target => .increment target.bare
  | .decrement target => .decrement target.bare
  | .read target => .read target.bare
  | .write value => .write value.bare
  | .ifThen cond body => .ifThen cond.bare body.bare
  | .ifElse cond thenBody elseBody => .ifElse cond.bare thenBody.bare elseBody.bare
  | .whileLoop cond body => .whileLoop cond.bare body.bare
  | .repeatLoop count body => .repeatLoop count.bare body.bare
  | .call callee args => .call callee.bare (Expr.bareAll args)
  | .ret value? _ => .ret (value?.map Expr.bare) Pos.nowhere

def Block.bare : Block → Block
  | ⟨decls, stmts⟩ => ⟨decls.map VarDecl.bare, Stmt.bareAll stmts⟩

def Stmt.bareAll : List Stmt → List Stmt
  | [] => []
  | stmt :: stmts => stmt.bare :: Stmt.bareAll stmts

end

def FnDecl.bare (fn : FnDecl) : FnDecl where
  returnType := fn.returnType.bare
  id := fn.id.bare
  formals := fn.formals.map VarDecl.bare
  body := fn.body.bare

def StructDecl.bare (struct : StructDecl) : StructDecl where
  id := struct.id.bare
  fields := struct.fields.map VarDecl.bare

def Decl.bare : Decl → Decl
  | .var decl => .var decl.bare
  | .fn decl => .fn decl.bare
  | .struct decl => .struct decl.bare

def Program.bare (program : Program) : Program := ⟨program.decls.map Decl.bare⟩

@[simp] theorem Expr.bareAll_eq_map (es : List Expr) : Expr.bareAll es = es.map Expr.bare := by
  induction es with
  | nil => rfl
  | cons e es ih => rw [Expr.bareAll, ih, List.map_cons]

@[simp] theorem Stmt.bareAll_eq_map (stmts : List Stmt) :
    Stmt.bareAll stmts = stmts.map Stmt.bare := by
  induction stmts with
  | nil => rfl
  | cons stmt stmts ih => rw [Stmt.bareAll, ih, List.map_cons]

theorem Block.bare_eq (block : Block) :
    block.bare = ⟨block.decls.map VarDecl.bare, block.stmts.map Stmt.bare⟩ := by
  cases block
  simp [Block.bare]

/-! ## Neither is printed -/

@[simp] theorem Expr.renderAll_eq_map (es : List Expr) :
    Expr.renderAll es = es.map Expr.render := by
  induction es with
  | nil => rfl
  | cons e es ih => rw [Expr.renderAll, ih, List.map_cons]

@[simp] theorem Stmt.renderAllAt_eq_join (indent : Nat) (stmts : List Stmt) :
    Stmt.renderAllAt indent stmts = String.join (stmts.map (Stmt.renderAt indent)) := by
  induction stmts with
  | nil => rfl
  | cons stmt stmts ih => rw [Stmt.renderAllAt, ih, List.map_cons, String.join_cons]

theorem Block.renderAt_eq (indent : Nat) (block : Block) : block.renderAt indent =
    String.join (block.decls.map fun decl => Text.blanks indent ++ decl.render ++ "\n") ++
      String.join (block.stmts.map (Stmt.renderAt indent)) := by
  cases block
  rw [Block.renderAt, Stmt.renderAllAt_eq_join]

@[simp] theorem TypeName.render_bare (type : TypeName) : type.bare.render = type.render := by
  cases type <;> rfl

@[simp] theorem VarDecl.renderFormal_bare (decl : VarDecl) :
    decl.bare.renderFormal = decl.renderFormal := by
  rw [renderFormal, renderFormal, bare, TypeName.render_bare, Ident.bare]

@[simp] theorem VarDecl.render_bare (decl : VarDecl) : decl.bare.render = decl.render := by
  rw [render, render, renderFormal_bare]

@[simp] theorem Expr.render_bare (e : Expr) : e.bare.render = e.render := by
  induction e using Expr.induction with
  | int _ _ | str _ _ | bool _ _ | name _ => rfl
  | field base id ih => rw [bare, render, render, ih, Ident.bare]
  | assign target value ihtarget ihvalue => rw [bare, render, render, ihtarget, ihvalue]
  | call callee args ih =>
      have hargs : (args.map bare).map render = args.map render := by
        rw [List.map_map]
        exact List.map_congr_left ih
      rw [bare, render, render, renderAll_eq_map, renderAll_eq_map, bareAll_eq_map, hargs,
        Ident.bare]
  | unary op operand ih => rw [bare, render, render, ih]
  | binary op left right ihleft ihright => rw [bare, render, render, ihleft, ihright]

theorem Block.renderAt_bare_of {block : Block}
    (h : ∀ stmt ∈ block.stmts, ∀ indent, stmt.bare.renderAt indent = stmt.renderAt indent)
    (indent : Nat) : block.bare.renderAt indent = block.renderAt indent := by
  have hstmts := List.map_congr_left fun stmt hstmt => h stmt hstmt indent
  rw [renderAt_eq, renderAt_eq, bare_eq, List.map_map, List.map_map, ← hstmts]
  simp [Function.comp_def]

@[simp] theorem Stmt.renderAt_bare (stmt : Stmt) (indent : Nat) :
    stmt.bare.renderAt indent = stmt.renderAt indent := by
  induction stmt using Stmt.induction generalizing indent with
  | assign _ _ | increment _ | decrement _ | read _ | write _ => simp [bare, renderAt]
  | ifThen cond body ih | whileLoop cond body ih | repeatLoop cond body ih =>
      simp [bare, renderAt, Block.renderAt_bare_of ih]
  | ifElse cond thenBody elseBody ihthen ihelse =>
      simp [bare, renderAt, Block.renderAt_bare_of ihthen, Block.renderAt_bare_of ihelse]
  | call callee args =>
      have hcall := (Expr.call callee args).render_bare
      rw [Expr.bare] at hcall
      rw [bare, renderAt, renderAt, hcall]
  | ret value? pos => cases value? <;> simp [bare, renderAt]

@[simp] theorem Block.renderAt_bare (block : Block) (indent : Nat) :
    block.bare.renderAt indent = block.renderAt indent :=
  renderAt_bare_of (fun stmt _ => stmt.renderAt_bare) indent

@[simp] theorem Decl.render_bare (decl : Decl) : decl.bare.render = decl.render := by
  cases decl with
  | var decl => simp [bare, render]
  | fn decl => simp [bare, render, FnDecl.bare, FnDecl.render, Ident.bare, Function.comp_def]
  | struct decl =>
      simp [bare, render, StructDecl.bare, StructDecl.render, Ident.bare, Function.comp_def]

theorem Program.render_bare (program : Program) : program.bare.render = program.render := by
  simp [bare, render, Function.comp_def]

end StackMips
