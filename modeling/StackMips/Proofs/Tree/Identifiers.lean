import Mathlib.Data.List.Basic
import StackMips.Proofs.Tree

/-!
# Exchanging identifiers

Two trees can differ in nothing but their identifiers.  Then one is the other with every identifier
exchanged, and the two agree in all that does not depend on names and links: the positions, the
nodes and what the grammar asks of them.
-/

namespace StackMips

def TypeName.mapIdents (f : Ident → Ident) : TypeName → TypeName
  | .struct id => .struct (f id)
  | type => type

def VarDecl.mapIdents (f : Ident → Ident) (decl : VarDecl) : VarDecl :=
  ⟨decl.type.mapIdents f, f decl.id⟩

mutual

def Expr.mapIdents (f : Ident → Ident) : Expr → Expr
  | .int value pos => .int value pos
  | .str text pos => .str text pos
  | .bool value pos => .bool value pos
  | .name id => .name (f id)
  | .field base id => .field (base.mapIdents f) (f id)
  | .assign target value => .assign (target.mapIdents f) (value.mapIdents f)
  | .call callee args => .call (f callee) (Expr.mapIdentsAll f args)
  | .unary op operand => .unary op (operand.mapIdents f)
  | .binary op left right => .binary op (left.mapIdents f) (right.mapIdents f)

def Expr.mapIdentsAll (f : Ident → Ident) : List Expr → List Expr
  | [] => []
  | e :: es => e.mapIdents f :: Expr.mapIdentsAll f es

end

mutual

def Stmt.mapIdents (f : Ident → Ident) : Stmt → Stmt
  | .assign target value => .assign (target.mapIdents f) (value.mapIdents f)
  | .increment target => .increment (target.mapIdents f)
  | .decrement target => .decrement (target.mapIdents f)
  | .read target => .read (target.mapIdents f)
  | .write value => .write (value.mapIdents f)
  | .ifThen cond body => .ifThen (cond.mapIdents f) (body.mapIdents f)
  | .ifElse cond thenBody elseBody =>
    .ifElse (cond.mapIdents f) (thenBody.mapIdents f) (elseBody.mapIdents f)
  | .whileLoop cond body => .whileLoop (cond.mapIdents f) (body.mapIdents f)
  | .repeatLoop count body => .repeatLoop (count.mapIdents f) (body.mapIdents f)
  | .call callee args => .call (f callee) (Expr.mapIdentsAll f args)
  | .ret value? pos => .ret (value?.map (Expr.mapIdents f)) pos

def Block.mapIdents (f : Ident → Ident) : Block → Block
  | ⟨decls, stmts⟩ => ⟨decls.map (VarDecl.mapIdents f), Stmt.mapIdentsAll f stmts⟩

def Stmt.mapIdentsAll (f : Ident → Ident) : List Stmt → List Stmt
  | [] => []
  | stmt :: stmts => stmt.mapIdents f :: Stmt.mapIdentsAll f stmts

end

def FnDecl.mapIdents (f : Ident → Ident) (fn : FnDecl) : FnDecl where
  returnType := fn.returnType.mapIdents f
  id := f fn.id
  formals := fn.formals.map (VarDecl.mapIdents f)
  body := fn.body.mapIdents f

def StructDecl.mapIdents (f : Ident → Ident) (struct : StructDecl) : StructDecl where
  id := f struct.id
  fields := struct.fields.map (VarDecl.mapIdents f)

def Decl.mapIdents (f : Ident → Ident) : Decl → Decl
  | .var decl => .var (decl.mapIdents f)
  | .fn decl => .fn (decl.mapIdents f)
  | .struct decl => .struct (decl.mapIdents f)

def Program.mapIdents (f : Ident → Ident) (program : Program) : Program :=
  ⟨program.decls.map (Decl.mapIdents f)⟩

variable {f : Ident → Ident}

@[simp] theorem Expr.mapIdentsAll_eq_map (es : List Expr) :
    Expr.mapIdentsAll f es = es.map (Expr.mapIdents f) := by
  induction es with
  | nil => rfl
  | cons e es ih => rw [Expr.mapIdentsAll, ih, List.map_cons]

@[simp] theorem Stmt.mapIdentsAll_eq_map (stmts : List Stmt) :
    Stmt.mapIdentsAll f stmts = stmts.map (Stmt.mapIdents f) := by
  induction stmts with
  | nil => rfl
  | cons stmt stmts ih => rw [Stmt.mapIdentsAll, ih, List.map_cons]

theorem Block.mapIdents_eq (block : Block) : block.mapIdents f =
    ⟨block.decls.map (VarDecl.mapIdents f), block.stmts.map (Stmt.mapIdents f)⟩ := by
  cases block
  simp [Block.mapIdents]

/-! ## Exchanging nothing -/

theorem TypeName.mapIdents_eq_self {type : TypeName} (h : ∀ id ∈ type.idents, f id = id) :
    type.mapIdents f = type := by
  cases type with
  | int | bool | void => rfl
  | struct id => rw [mapIdents, h id (by simp [idents])]

theorem VarDecl.mapIdents_eq_self {decl : VarDecl} (h : ∀ id ∈ decl.idents, f id = id) :
    decl.mapIdents f = decl := by
  rw [VarDecl.idents, List.forall_mem_append] at h
  rw [mapIdents, TypeName.mapIdents_eq_self h.1, h.2 decl.id (by simp)]

theorem VarDecl.map_mapIdents_eq_self {decls : List VarDecl}
    (h : ∀ id ∈ decls.flatMap VarDecl.idents, f id = id) :
    decls.map (VarDecl.mapIdents f) = decls := by
  rw [List.forall_mem_flatMap] at h
  exact (List.map_congr_left fun decl hdecl => mapIdents_eq_self (h decl hdecl)).trans decls.map_id

theorem Expr.mapIdents_eq_self {e : Expr} (h : ∀ id ∈ e.idents, f id = id) :
    e.mapIdents f = e := by
  induction e using Expr.induction with
  | int _ _ | str _ _ | bool _ _ => rfl
  | name id => rw [mapIdents, h id (by simp [idents])]
  | field base id ih =>
      simp only [idents, List.forall_mem_append, List.forall_mem_singleton] at h
      rw [mapIdents, ih h.1, h.2]
  | assign target value ihtarget ihvalue =>
      simp only [idents, List.forall_mem_append] at h
      rw [mapIdents, ihtarget h.1, ihvalue h.2]
  | call callee args ih =>
      simp only [idents, identsAll_eq_flatMap, List.forall_mem_cons, List.forall_mem_flatMap] at h
      rw [mapIdents, mapIdentsAll_eq_map, h.1,
        (List.map_congr_left fun arg harg => ih arg harg (h.2 arg harg)).trans args.map_id]
  | unary op operand ih => rw [mapIdents, ih h]
  | binary op left right ihleft ihright =>
      simp only [idents, List.forall_mem_append] at h
      rw [mapIdents, ihleft h.1, ihright h.2]

theorem Expr.mapIdents_self (e : Expr) : e.mapIdents (fun id => id) = e :=
  mapIdents_eq_self fun _ _ => rfl

theorem Block.mapIdents_eq_self_of {block : Block} (h : ∀ id ∈ block.idents, f id = id)
    (hstmts : ∀ stmt ∈ block.stmts, (∀ id ∈ stmt.idents, f id = id) → stmt.mapIdents f = stmt) :
    block.mapIdents f = block := by
  obtain ⟨decls, stmts⟩ := block
  rw [idents_eq, List.forall_mem_append] at h
  obtain ⟨hdecls, hrest⟩ := h
  rw [List.forall_mem_flatMap] at hrest
  have hmap := List.map_congr_left fun stmt hstmt => hstmts stmt hstmt (hrest stmt hstmt)
  rw [mapIdents_eq, VarDecl.map_mapIdents_eq_self hdecls, hmap.trans stmts.map_id]

theorem Stmt.mapIdents_eq_self {stmt : Stmt} (h : ∀ id ∈ stmt.idents, f id = id) :
    stmt.mapIdents f = stmt := by
  induction stmt using Stmt.induction with
  | assign target value =>
      simp only [idents, List.forall_mem_append] at h
      rw [mapIdents, Expr.mapIdents_eq_self h.1, Expr.mapIdents_eq_self h.2]
  | increment e | decrement e | read e | write e => rw [mapIdents, Expr.mapIdents_eq_self h]
  | ifThen cond body ih | whileLoop cond body ih | repeatLoop cond body ih =>
      simp only [idents, List.forall_mem_append] at h
      rw [mapIdents, Expr.mapIdents_eq_self h.1, Block.mapIdents_eq_self_of h.2 ih]
  | ifElse cond thenBody elseBody ihthen ihelse =>
      simp only [idents, List.forall_mem_append] at h
      rw [mapIdents, Expr.mapIdents_eq_self h.1.1, Block.mapIdents_eq_self_of h.1.2 ihthen,
        Block.mapIdents_eq_self_of h.2 ihelse]
  | call callee args =>
      have hcall := Expr.mapIdents_eq_self (e := .call callee args) h
      rw [Expr.mapIdents, Expr.call.injEq] at hcall
      rw [mapIdents, hcall.1, hcall.2]
  | ret value? pos =>
      cases value? with
      | none => rfl
      | some value => rw [mapIdents, Option.map_some, Expr.mapIdents_eq_self h]

theorem Decl.mapIdents_eq_self {decl : Decl} (h : ∀ id ∈ decl.idents, f id = id) :
    decl.mapIdents f = decl := by
  cases decl with
  | var decl => rw [mapIdents, VarDecl.mapIdents_eq_self h]
  | fn decl =>
      simp only [idents, FnDecl.idents, List.forall_mem_append, List.forall_mem_singleton] at h
      obtain ⟨⟨⟨htype, hid⟩, hformals⟩, hbody⟩ := h
      have hbody := Block.mapIdents_eq_self_of hbody fun stmt _ => Stmt.mapIdents_eq_self
      rw [mapIdents, FnDecl.mapIdents, TypeName.mapIdents_eq_self htype, hid,
        VarDecl.map_mapIdents_eq_self hformals, hbody]
  | struct decl =>
      simp only [idents, StructDecl.idents, List.forall_mem_cons] at h
      rw [mapIdents, StructDecl.mapIdents, h.1, VarDecl.map_mapIdents_eq_self h.2]

theorem Decl.map_mapIdents_eq_self {decls : List Decl}
    (h : ∀ id ∈ decls.flatMap Decl.idents, f id = id) : decls.map (Decl.mapIdents f) = decls := by
  rw [List.forall_mem_flatMap] at h
  exact (List.map_congr_left fun decl hdecl => mapIdents_eq_self (h decl hdecl)).trans decls.map_id

theorem Program.mapIdents_self (program : Program) :
    program.mapIdents (fun id => id) = program := by
  rw [mapIdents, Decl.map_mapIdents_eq_self fun _ _ => rfl]

/-! ## What stays -/

theorem Expr.pos_mapIdents (hf : ∀ id, (f id).pos = id.pos) (e : Expr) :
    (e.mapIdents f).pos = e.pos := by
  induction e using Expr.induction with
  | int _ _ | str _ _ | bool _ _ => rfl
  | name id | field _ id _ | call id _ _ => exact hf id
  | assign target value ih _ | binary _ target value ih _ => rwa [mapIdents, pos, pos]
  | unary op operand ih => rwa [mapIdents, pos, pos]

@[simp] theorem Expr.isLocation_mapIdents (e : Expr) :
    (e.mapIdents f).isLocation = e.isLocation := by
  cases e <;> rfl

@[simp] theorem Expr.isFormed_mapIdents (e : Expr) : (e.mapIdents f).isFormed = e.isFormed := by
  cases e <;> simp [mapIdents, isFormed]

theorem Expr.nodes_mapIdents (e : Expr) :
    (e.mapIdents f).nodes = e.nodes.map (Expr.mapIdents f) := by
  induction e using Expr.induction with
  | int _ _ | str _ _ | bool _ _ | name _ => rfl
  | field base id ih | unary op base ih => simp [mapIdents, nodes, ih]
  | assign left right ihleft ihright | binary op left right ihleft ihright =>
      simp [mapIdents, nodes, ihleft, ihright]
  | call callee args ih =>
      simp only [mapIdents, nodes, mapIdentsAll_eq_map, nodesAll_eq_flatMap, List.map_cons,
        List.map_flatMap, List.flatMap_map]
      congr 1
      exact List.flatMap_congr ih

theorem Expr.idents_mapIdents (e : Expr) : (e.mapIdents f).idents = e.idents.map f := by
  induction e using Expr.induction with
  | int _ _ | str _ _ | bool _ _ | name _ => rfl
  | field base id ih | unary op base ih => simp [mapIdents, idents, ih]
  | assign left right ihleft ihright | binary op left right ihleft ihright =>
      simp [mapIdents, idents, ihleft, ihright]
  | call callee args ih =>
      simp only [mapIdents, idents, mapIdentsAll_eq_map, identsAll_eq_flatMap, List.map_cons,
        List.map_flatMap, List.flatMap_map]
      congr 1
      exact List.flatMap_congr ih

theorem Expr.InGrammar.mapIdents {e : Expr} (h : e.InGrammar) : (e.mapIdents f).InGrammar := by
  rw [InGrammar, nodes_mapIdents, List.forall_mem_map]
  exact fun node hnode => (isFormed_mapIdents node).trans (h node hnode)

theorem VarDecl.idents_mapIdents (decl : VarDecl) :
    (decl.mapIdents f).idents = decl.idents.map f := by
  obtain ⟨type, id⟩ := decl
  cases type <;> rfl

theorem VarDecl.flatMap_idents_mapIdents (decls : List VarDecl) :
    (decls.map (mapIdents f)).flatMap idents = (decls.flatMap idents).map f := by
  rw [List.flatMap_map, List.map_flatMap]
  exact List.flatMap_congr fun decl _ => decl.idents_mapIdents

namespace Stmt

theorem exprs_mapIdents (stmt : Stmt) :
    (stmt.mapIdents f).exprs = stmt.exprs.map (Expr.mapIdents f) := by
  cases stmt with
  | ret value? pos => cases value? <;> rfl
  | assign _ _ | increment _ | decrement _ | read _ | write _ | ifThen _ _ | ifElse _ _ _
  | whileLoop _ _ | repeatLoop _ _ | call _ _ => rfl

@[simp] theorem isFormed_mapIdents (stmt : Stmt) :
    (stmt.mapIdents f).isFormed = stmt.isFormed := by
  cases stmt <;> simp [mapIdents, isFormed]

theorem nodes_body_mapIdents_of {block : Block}
    (h : ∀ stmt ∈ block.stmts, (stmt.mapIdents f).nodes = stmt.nodes.map (mapIdents f)) :
    (block.mapIdents f).nodes = block.nodes.map (mapIdents f) := by
  rw [Block.nodes_eq, Block.nodes_eq, Block.mapIdents_eq, List.flatMap_map, List.map_flatMap]
  exact List.flatMap_congr h

theorem nodes_mapIdents (stmt : Stmt) :
    (stmt.mapIdents f).nodes = stmt.nodes.map (mapIdents f) := by
  induction stmt using Stmt.induction with
  | assign _ _ | increment _ | decrement _ | read _ | write _ | call _ _ | ret _ _ => rfl
  | ifThen cond body ih | whileLoop cond body ih | repeatLoop cond body ih =>
      rw [mapIdents, nodes, nodes, nodes_body_mapIdents_of ih, List.map_cons, mapIdents]
  | ifElse cond thenBody elseBody ihthen ihelse =>
      rw [mapIdents, nodes, nodes, nodes_body_mapIdents_of ihthen, nodes_body_mapIdents_of ihelse,
        List.map_cons, List.map_append, mapIdents]

theorem InGrammar.mapIdents {stmt : Stmt} (h : stmt.InGrammar) : (stmt.mapIdents f).InGrammar := by
  rw [InGrammar, nodes_mapIdents, List.forall_mem_map]
  intro node hnode
  obtain ⟨hformed, hexprs⟩ := h node hnode
  refine ⟨(isFormed_mapIdents node).trans hformed, ?_⟩
  rw [exprs_mapIdents, List.forall_mem_map]
  exact fun e he => (hexprs e he).mapIdents

theorem idents_body_mapIdents_of {block : Block}
    (h : ∀ stmt ∈ block.stmts, (stmt.mapIdents f).idents = stmt.idents.map f) :
    (block.mapIdents f).idents = block.idents.map f := by
  rw [Block.idents_eq, Block.idents_eq, Block.mapIdents_eq, List.map_append,
    VarDecl.flatMap_idents_mapIdents, List.flatMap_map, List.map_flatMap (l := block.stmts)]
  exact congrArg _ (List.flatMap_congr h)

theorem idents_mapIdents (stmt : Stmt) : (stmt.mapIdents f).idents = stmt.idents.map f := by
  induction stmt using Stmt.induction with
  | assign target value => simp [mapIdents, idents, Expr.idents_mapIdents]
  | increment e | decrement e | read e | write e => simp [mapIdents, idents, Expr.idents_mapIdents]
  | ifThen cond body ih | whileLoop cond body ih | repeatLoop cond body ih =>
      simp [mapIdents, idents, Expr.idents_mapIdents, idents_body_mapIdents_of ih]
  | ifElse cond thenBody elseBody ihthen ihelse =>
      simp [mapIdents, idents, Expr.idents_mapIdents, idents_body_mapIdents_of ihthen,
        idents_body_mapIdents_of ihelse]
  | call callee args => exact (Expr.call callee args).idents_mapIdents
  | ret value? pos => cases value? <;> simp [mapIdents, idents, Expr.idents_mapIdents]

end Stmt

theorem Block.InGrammar.mapIdents {block : Block} (h : block.InGrammar) :
    (block.mapIdents f).InGrammar := by
  rw [InGrammar, Block.mapIdents_eq, List.forall_mem_map]
  exact fun stmt hstmt => (h stmt hstmt).mapIdents

theorem Decl.idents_mapIdents (decl : Decl) : (decl.mapIdents f).idents = decl.idents.map f := by
  cases decl with
  | var decl => exact decl.idents_mapIdents
  | fn decl =>
      have htype : (decl.returnType.mapIdents f).idents = decl.returnType.idents.map f := by
        cases decl.returnType <;> rfl
      have hbody := Stmt.idents_body_mapIdents_of fun stmt (_ : stmt ∈ decl.body.stmts) =>
        stmt.idents_mapIdents (f := f)
      simp [mapIdents, FnDecl.mapIdents, idents, FnDecl.idents, htype, hbody,
        VarDecl.flatMap_idents_mapIdents]
  | struct decl =>
      simp [mapIdents, StructDecl.mapIdents, idents, StructDecl.idents,
        VarDecl.flatMap_idents_mapIdents]

namespace Program

theorem idents_mapIdents (program : Program) :
    (program.mapIdents f).idents = program.idents.map f := by
  rw [idents, idents, mapIdents, List.flatMap_map, List.map_flatMap]
  exact List.flatMap_congr fun decl _ => decl.idents_mapIdents

theorem functions_mapIdents (program : Program) :
    (program.mapIdents f).functions = program.functions.map (FnDecl.mapIdents f) := by
  rw [functions, functions, mapIdents, List.filterMap_map, List.map_filterMap]
  refine List.filterMap_congr fun decl _ => ?_
  cases decl <;> rfl

theorem InGrammar.mapIdents {program : Program} (h : program.InGrammar) :
    (program.mapIdents f).InGrammar := by
  rw [InGrammar, functions_mapIdents, List.forall_mem_map]
  exact fun fn hfn => (h fn hfn).mapIdents

end Program

end StackMips
