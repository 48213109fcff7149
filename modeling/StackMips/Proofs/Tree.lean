import StackMips.Tree.Occurrence

/-!
# The structure of program trees

Induction over expressions and statements, and the views of a tree that its theory speaks about:
all expressions inside an expression, all statements inside a statement, the nested blocks and the
local declarations in the order of a walk.  What a program has to satisfy to be in the grammar is a
condition on each node alone.
-/

namespace StackMips

/-! ## Induction -/

/-- Induction over an expression; a call has the hypothesis for each argument. -/
@[elab_as_elim]
theorem Expr.induction {motive : Expr → Prop}
    (int : ∀ value pos, motive (.int value pos))
    (str : ∀ text pos, motive (.str text pos))
    (bool : ∀ value pos, motive (.bool value pos))
    (name : ∀ id, motive (.name id))
    (field : ∀ base id, motive base → motive (.field base id))
    (assign : ∀ target value, motive target → motive value → motive (.assign target value))
    (call : ∀ callee args, (∀ arg ∈ args, motive arg) → motive (.call callee args))
    (unary : ∀ op operand, motive operand → motive (.unary op operand))
    (binary : ∀ op left right, motive left → motive right → motive (.binary op left right))
    (e : Expr) : motive e :=
  @Expr.rec motive (fun es => ∀ e ∈ es, motive e)
    int str bool name field assign call unary binary
    (fun _ h => absurd h List.not_mem_nil)
    (fun _ _ hhead htail _ h => by
      rcases List.mem_cons.mp h with rfl | h
      · exact hhead
      · exact htail _ h)
    e

/-- Induction over a statement; a nested block has the hypothesis for each of its statements. -/
@[elab_as_elim]
theorem Stmt.induction {motive : Stmt → Prop}
    (assign : ∀ target value, motive (.assign target value))
    (increment : ∀ target, motive (.increment target))
    (decrement : ∀ target, motive (.decrement target))
    (read : ∀ target, motive (.read target))
    (write : ∀ value, motive (.write value))
    (ifThen : ∀ cond body, (∀ stmt ∈ body.stmts, motive stmt) → motive (.ifThen cond body))
    (ifElse : ∀ cond thenBody elseBody, (∀ stmt ∈ thenBody.stmts, motive stmt) →
      (∀ stmt ∈ elseBody.stmts, motive stmt) → motive (.ifElse cond thenBody elseBody))
    (whileLoop : ∀ cond body, (∀ stmt ∈ body.stmts, motive stmt) → motive (.whileLoop cond body))
    (repeatLoop : ∀ count body, (∀ stmt ∈ body.stmts, motive stmt) →
      motive (.repeatLoop count body))
    (call : ∀ callee args, motive (.call callee args))
    (ret : ∀ value? pos, motive (.ret value? pos))
    (stmt : Stmt) : motive stmt :=
  @Stmt.rec motive (fun block => ∀ stmt ∈ block.stmts, motive stmt)
    (fun stmts => ∀ stmt ∈ stmts, motive stmt)
    assign increment decrement read write ifThen ifElse whileLoop repeatLoop call ret
    (fun _ _ h => h)
    (fun _ h => absurd h List.not_mem_nil)
    (fun _ _ hhead htail _ h => by
      rcases List.mem_cons.mp h with rfl | h
      · exact hhead
      · exact htail _ h)
    stmt

/-! ## Expressions inside an expression -/

mutual

def Expr.nodes : Expr → List Expr
  | .int value pos => [.int value pos]
  | .str text pos => [.str text pos]
  | .bool value pos => [.bool value pos]
  | .name id => [.name id]
  | .field base id => .field base id :: base.nodes
  | .assign target value => .assign target value :: (target.nodes ++ value.nodes)
  | .call callee args => .call callee args :: Expr.nodesAll args
  | .unary op operand => .unary op operand :: operand.nodes
  | .binary op left right => .binary op left right :: (left.nodes ++ right.nodes)

def Expr.nodesAll : List Expr → List Expr
  | [] => []
  | e :: es => e.nodes ++ Expr.nodesAll es

end

@[simp] theorem Expr.nodesAll_eq_flatMap (es : List Expr) :
    Expr.nodesAll es = es.flatMap Expr.nodes := by
  induction es with
  | nil => rfl
  | cons e es ih => rw [Expr.nodesAll, ih, List.flatMap_cons]

@[simp] theorem Expr.identsAll_eq_flatMap (es : List Expr) :
    Expr.identsAll es = es.flatMap Expr.idents := by
  induction es with
  | nil => rfl
  | cons e es ih => rw [Expr.identsAll, ih, List.flatMap_cons]

namespace Expr

theorem self_mem_nodes (e : Expr) : e ∈ e.nodes := by
  cases e <;> simp [nodes]

theorem idents_subset {e node : Expr} (h : node ∈ e.nodes) : node.idents ⊆ e.idents := by
  induction e using Expr.induction with
  | int _ _ | str _ _ | bool _ _ | name _ =>
      obtain rfl := List.mem_singleton.mp h
      exact List.Subset.refl _
  | field base id ih | unary op base ih =>
      rcases List.mem_cons.mp h with rfl | h
      · exact List.Subset.refl _
      · exact fun x hx => by simp [idents, ih h hx]
  | assign left right ihleft ihright | binary op left right ihleft ihright =>
      simp only [nodes, List.mem_cons, List.mem_append] at h
      rcases h with rfl | h | h
      · exact List.Subset.refl _
      · exact fun x hx => by simp [idents, ihleft h hx]
      · exact fun x hx => by simp [idents, ihright h hx]
  | call callee args ih =>
      simp only [nodes, nodesAll_eq_flatMap, List.mem_cons, List.mem_flatMap] at h
      rcases h with rfl | ⟨arg, harg, h⟩
      · exact List.Subset.refl _
      · intro x hx
        simp only [idents, identsAll_eq_flatMap, List.mem_cons, List.mem_flatMap]
        exact .inr ⟨arg, harg, ih arg harg h hx⟩

theorem nodes_subset_call {callee : Ident} {args : List Expr} {arg : Expr} (harg : arg ∈ args) :
    arg.nodes ⊆ (call callee args).nodes := by
  intro node hnode
  simp only [nodes, nodesAll_eq_flatMap, List.mem_cons, List.mem_flatMap]
  exact .inr ⟨arg, harg, hnode⟩

theorem nodes_subset {e node : Expr} (h : node ∈ e.nodes) : node.nodes ⊆ e.nodes := by
  induction e using Expr.induction with
  | int _ _ | str _ _ | bool _ _ | name _ =>
      obtain rfl := List.mem_singleton.mp h
      exact List.Subset.refl _
  | field base id ih | unary op base ih =>
      rcases List.mem_cons.mp h with rfl | h
      · exact List.Subset.refl _
      · exact List.subset_cons_of_subset _ (ih h)
  | assign left right ihleft ihright | binary op left right ihleft ihright =>
      simp only [nodes, List.mem_cons, List.mem_append] at h
      rcases h with rfl | h | h
      · exact List.Subset.refl _
      · exact List.subset_cons_of_subset _ (List.subset_append_of_subset_left _ (ihleft h))
      · exact List.subset_cons_of_subset _ (List.subset_append_of_subset_right _ (ihright h))
  | call callee args ih =>
      simp only [nodes, nodesAll_eq_flatMap, List.mem_cons, List.mem_flatMap] at h
      rcases h with rfl | ⟨arg, harg, h⟩
      · exact List.Subset.refl _
      · exact List.Subset.trans (ih arg harg h) (nodes_subset_call harg)

def isField : Expr → Bool
  | .field _ _ => true
  | _ => false

def call? : Expr → Option (Ident × List Expr)
  | .call callee args => some (callee, args)
  | _ => none

/-- An assigned expression and the base of a field access are storage locations. -/
def isFormed : Expr → Bool
  | .field base _ => base.isLocation
  | .assign target _ => target.isLocation
  | _ => true

def InGrammar (e : Expr) : Prop := ∀ node ∈ e.nodes, node.isFormed

instance (e : Expr) : Decidable e.InGrammar :=
  inferInstanceAs (Decidable (∀ node ∈ e.nodes, node.isFormed))

theorem InGrammar.of_mem {e node : Expr} (h : e.InGrammar) (hnode : node ∈ e.nodes) :
    node.InGrammar :=
  fun inner hinner => h inner (nodes_subset hnode hinner)

def hasField (e : Expr) : Bool := e.nodes.any isField

def calls (e : Expr) : List (Ident × List Expr) := e.nodes.filterMap call?

@[simp] theorem calls_field (base : Expr) (id : Ident) : (field base id).calls = base.calls :=
  List.filterMap_cons_none rfl

@[simp] theorem calls_assign (target value : Expr) :
    (assign target value).calls = target.calls ++ value.calls :=
  (List.filterMap_cons_none rfl).trans List.filterMap_append

@[simp] theorem calls_call (callee : Ident) (args : List Expr) :
    (call callee args).calls = (callee, args) :: args.flatMap calls := by
  simp [calls, nodes, call?, List.filterMap_flatMap]
  rfl

@[simp] theorem calls_unary (op : UnaryOp) (operand : Expr) :
    (unary op operand).calls = operand.calls :=
  List.filterMap_cons_none rfl

@[simp] theorem calls_binary (op : BinaryOp) (left right : Expr) :
    (binary op left right).calls = left.calls ++ right.calls :=
  (List.filterMap_cons_none rfl).trans List.filterMap_append

/-- What is looked up in the scopes: a plain name or a callee. -/
def use? : Expr → Option Ident
  | .name id => some id
  | .call callee _ => some callee
  | _ => none

def uses (e : Expr) : List Ident := e.nodes.filterMap use?

@[simp] theorem uses_field (base : Expr) (id : Ident) : (field base id).uses = base.uses :=
  List.filterMap_cons_none rfl

@[simp] theorem uses_assign (target value : Expr) :
    (assign target value).uses = target.uses ++ value.uses :=
  (List.filterMap_cons_none rfl).trans List.filterMap_append

@[simp] theorem uses_call (callee : Ident) (args : List Expr) :
    (call callee args).uses = callee :: args.flatMap uses := by
  simp [uses, nodes, use?, List.filterMap_flatMap]
  rfl

@[simp] theorem uses_unary (op : UnaryOp) (operand : Expr) :
    (unary op operand).uses = operand.uses :=
  List.filterMap_cons_none rfl

@[simp] theorem uses_binary (op : BinaryOp) (left right : Expr) :
    (binary op left right).uses = left.uses ++ right.uses :=
  (List.filterMap_cons_none rfl).trans List.filterMap_append

theorem uses_subset (e : Expr) : e.uses ⊆ e.idents := by
  intro id hid
  obtain ⟨node, hnode, huse⟩ := List.mem_filterMap.mp hid
  refine idents_subset hnode ?_
  cases node <;> simp_all [use?, idents]

theorem uses_subset_of_mem {e node : Expr} (hnode : node ∈ e.nodes) : node.uses ⊆ e.uses :=
  List.filterMap_subset _ (nodes_subset hnode)

def isPlain (e : Expr) : Bool := e.nodes.all fun node => !node.isField && node.call?.isNone

end Expr

/-! ## Statements inside a statement -/

mutual

def Stmt.nodes : Stmt → List Stmt
  | .ifThen cond body => .ifThen cond body :: body.nodes
  | .ifElse cond thenBody elseBody =>
    .ifElse cond thenBody elseBody :: (thenBody.nodes ++ elseBody.nodes)
  | .whileLoop cond body => .whileLoop cond body :: body.nodes
  | .repeatLoop count body => .repeatLoop count body :: body.nodes
  | stmt => [stmt]

def Block.nodes : Block → List Stmt
  | ⟨_, stmts⟩ => Stmt.nodesAll stmts

def Stmt.nodesAll : List Stmt → List Stmt
  | [] => []
  | stmt :: stmts => stmt.nodes ++ Stmt.nodesAll stmts

end

mutual

/-- The local declarations of all nested blocks, in the order in which they are met. -/
def Stmt.locals : Stmt → List VarDecl
  | .ifThen _ body | .whileLoop _ body | .repeatLoop _ body => body.locals
  | .ifElse _ thenBody elseBody => thenBody.locals ++ elseBody.locals
  | _ => []

def Block.locals : Block → List VarDecl
  | ⟨decls, stmts⟩ => decls ++ Stmt.localsAll stmts

def Stmt.localsAll : List Stmt → List VarDecl
  | [] => []
  | stmt :: stmts => stmt.locals ++ Stmt.localsAll stmts

end

@[simp] theorem Stmt.nodesAll_eq_flatMap (stmts : List Stmt) :
    Stmt.nodesAll stmts = stmts.flatMap Stmt.nodes := by
  induction stmts with
  | nil => rfl
  | cons stmt stmts ih => rw [Stmt.nodesAll, ih, List.flatMap_cons]

@[simp] theorem Stmt.localsAll_eq_flatMap (stmts : List Stmt) :
    Stmt.localsAll stmts = stmts.flatMap Stmt.locals := by
  induction stmts with
  | nil => rfl
  | cons stmt stmts ih => rw [Stmt.localsAll, ih, List.flatMap_cons]

@[simp] theorem Stmt.identsAll_eq_flatMap (stmts : List Stmt) :
    Stmt.identsAll stmts = stmts.flatMap Stmt.idents := by
  induction stmts with
  | nil => rfl
  | cons stmt stmts ih => rw [Stmt.identsAll, ih, List.flatMap_cons]

theorem Block.nodes_eq (block : Block) : block.nodes = block.stmts.flatMap Stmt.nodes := by
  cases block
  simp [Block.nodes]

theorem Block.locals_eq (block : Block) :
    block.locals = block.decls ++ block.stmts.flatMap Stmt.locals := by
  cases block
  simp [Block.locals]

theorem Block.idents_eq (block : Block) :
    block.idents = block.decls.flatMap VarDecl.idents ++ block.stmts.flatMap Stmt.idents := by
  cases block
  simp [Block.idents]

namespace Stmt

theorem self_mem_nodes (stmt : Stmt) : stmt ∈ stmt.nodes := by
  cases stmt <;> simp [nodes]

def bodies : Stmt → List Block
  | .ifThen _ body | .whileLoop _ body | .repeatLoop _ body => [body]
  | .ifElse _ thenBody elseBody => [thenBody, elseBody]
  | _ => []

theorem nodes_eq (stmt : Stmt) : stmt.nodes = stmt :: stmt.bodies.flatMap Block.nodes := by
  cases stmt <;> simp [nodes, bodies]

theorem nodes_subset_of_body {stmt inner : Stmt} (body : Block) (hbody : body ∈ stmt.bodies)
    (hinner : inner ∈ body.stmts) : inner.nodes ⊆ stmt.nodes := by
  intro node hnode
  rw [nodes_eq, List.mem_cons, List.mem_flatMap]
  refine .inr ⟨body, hbody, ?_⟩
  rw [Block.nodes_eq]
  exact List.mem_flatMap.mpr ⟨inner, hinner, hnode⟩

/-- The expressions of the statement itself.  An assignment or a call is one expression. -/
def exprs : Stmt → List Expr
  | .assign target value => [.assign target value]
  | .increment target | .decrement target | .read target => [target]
  | .write value => [value]
  | .ifThen cond _ | .ifElse cond _ _ | .whileLoop cond _ => [cond]
  | .repeatLoop count _ => [count]
  | .call callee args => [.call callee args]
  | .ret value? _ => value?.toList

/-- What is stepped or read into is a storage location. -/
def isFormed : Stmt → Bool
  | .increment target | .decrement target | .read target => target.isLocation
  | _ => true

def InGrammar (stmt : Stmt) : Prop :=
  ∀ node ∈ stmt.nodes, node.isFormed ∧ ∀ e ∈ node.exprs, e.InGrammar

instance (stmt : Stmt) : Decidable stmt.InGrammar :=
  inferInstanceAs (Decidable (∀ node ∈ stmt.nodes, node.isFormed ∧ ∀ e ∈ node.exprs, e.InGrammar))

def allExprs (stmt : Stmt) : List Expr := stmt.nodes.flatMap exprs

theorem exprs_subset (stmt : Stmt) : stmt.exprs ⊆ stmt.allExprs :=
  fun _ he => List.mem_flatMap.mpr ⟨stmt, stmt.self_mem_nodes, he⟩

theorem allExprs_subset_of_body {stmt inner : Stmt} (body : Block) (hbody : body ∈ stmt.bodies)
    (hinner : inner ∈ body.stmts) : inner.allExprs ⊆ stmt.allExprs := by
  intro e he
  obtain ⟨node, hnode, he⟩ := List.mem_flatMap.mp he
  exact List.mem_flatMap.mpr ⟨node, nodes_subset_of_body body hbody hinner hnode, he⟩

end Stmt

namespace Block

def InGrammar (block : Block) : Prop := ∀ stmt ∈ block.stmts, stmt.InGrammar

instance (block : Block) : Decidable block.InGrammar :=
  inferInstanceAs (Decidable (∀ stmt ∈ block.stmts, stmt.InGrammar))

def allExprs (block : Block) : List Expr := block.nodes.flatMap Stmt.exprs

theorem allExprs_eq (block : Block) : block.allExprs = block.stmts.flatMap Stmt.allExprs := by
  rw [allExprs, nodes_eq, List.flatMap_assoc]
  rfl

def hasField (block : Block) : Bool := block.allExprs.any Expr.hasField

def calls (block : Block) : List (Ident × List Expr) := block.allExprs.flatMap Expr.calls

def uses (block : Block) : List Ident := block.allExprs.flatMap Expr.uses

def isPlain (block : Block) : Bool := block.allExprs.all Expr.isPlain

end Block

theorem Stmt.allExprs_eq (stmt : Stmt) :
    stmt.allExprs = stmt.exprs ++ stmt.bodies.flatMap Block.allExprs := by
  rw [Stmt.allExprs, Stmt.nodes_eq, List.flatMap_cons, List.flatMap_assoc]
  rfl

/-! ## Nested blocks -/

mutual

def Stmt.blocks : Stmt → List Block
  | .ifThen _ body | .whileLoop _ body | .repeatLoop _ body => body.blocks
  | .ifElse _ thenBody elseBody => thenBody.blocks ++ elseBody.blocks
  | _ => []

def Block.blocks : Block → List Block
  | ⟨decls, stmts⟩ => ⟨decls, stmts⟩ :: Stmt.blocksAll stmts

def Stmt.blocksAll : List Stmt → List Block
  | [] => []
  | stmt :: stmts => stmt.blocks ++ Stmt.blocksAll stmts

end

@[simp] theorem Stmt.blocksAll_eq_flatMap (stmts : List Stmt) :
    Stmt.blocksAll stmts = stmts.flatMap Stmt.blocks := by
  induction stmts with
  | nil => rfl
  | cons stmt stmts ih => rw [Stmt.blocksAll, ih, List.flatMap_cons]

theorem Block.nodes_subset_of {block : Block}
    (h : ∀ stmt ∈ block.stmts, ∀ inner ∈ stmt.blocks, inner.nodes ⊆ stmt.nodes) :
    ∀ inner ∈ block.blocks, inner.nodes ⊆ block.nodes := by
  obtain ⟨decls, stmts⟩ := block
  intro inner hinner
  simp only [blocks, Stmt.blocksAll_eq_flatMap, List.mem_cons, List.mem_flatMap] at hinner
  rcases hinner with rfl | ⟨stmt, hstmt, hinner⟩
  · exact List.Subset.refl _
  · intro node hnode
    rw [Block.nodes_eq]
    exact List.mem_flatMap.mpr ⟨stmt, hstmt, h stmt hstmt inner hinner hnode⟩

theorem Stmt.nodes_subset_of_blocks (stmt : Stmt) :
    ∀ inner ∈ stmt.blocks, inner.nodes ⊆ stmt.nodes := by
  induction stmt using Stmt.induction with
  | assign _ _ | increment _ | decrement _ | read _ | write _ | call _ _ | ret _ _ =>
      simp [blocks]
  | ifThen cond body ih | whileLoop cond body ih | repeatLoop cond body ih =>
      intro inner hinner
      rw [nodes]
      exact List.subset_cons_of_subset _ (Block.nodes_subset_of ih inner hinner)
  | ifElse cond thenBody elseBody ihthen ihelse =>
      intro inner hinner
      rw [blocks, List.mem_append] at hinner
      rw [nodes]
      refine List.subset_cons_of_subset _ ?_
      rcases hinner with hinner | hinner
      · exact List.subset_append_of_subset_left _ (Block.nodes_subset_of ihthen inner hinner)
      · exact List.subset_append_of_subset_right _ (Block.nodes_subset_of ihelse inner hinner)

theorem Block.nodes_subset_of_blocks {block inner : Block} (h : inner ∈ block.blocks) :
    inner.nodes ⊆ block.nodes :=
  Block.nodes_subset_of (fun stmt _ => stmt.nodes_subset_of_blocks) inner h

/-! ## Programs -/

/-- How many variables a function declares, formals included. -/
def FnDecl.declCount (fn : FnDecl) : Nat :=
  fn.formals.length + fn.body.locals.length

namespace Program

def functions (program : Program) : List FnDecl :=
  program.decls.filterMap fun
    | .fn decl => some decl
    | _ => none

@[simp] theorem mem_functions {program : Program} {fn : FnDecl} :
    fn ∈ program.functions ↔ .fn fn ∈ program.decls := by
  simp only [functions, List.mem_filterMap]
  constructor
  · rintro ⟨decl, hmem, hdecl⟩
    cases decl with
    | fn decl => cases hdecl; exact hmem
    | var _ | struct _ => cases hdecl
  · exact fun h => ⟨.fn fn, h, rfl⟩

def InGrammar (program : Program) : Prop := ∀ fn ∈ program.functions, fn.body.InGrammar

instance (program : Program) : Decidable program.InGrammar :=
  inferInstanceAs (Decidable (∀ fn ∈ program.functions, fn.body.InGrammar))

def Unlinked (program : Program) : Prop := ∀ id ∈ program.idents, id.link = none

instance (program : Program) : Decidable program.Unlinked :=
  inferInstanceAs (Decidable (∀ id ∈ program.idents, id.link = none))

def hasField (program : Program) : Bool := program.functions.any (·.body.hasField)

def calls (program : Program) : List (Ident × List Expr) :=
  program.functions.flatMap (·.body.calls)

end Program

end StackMips
