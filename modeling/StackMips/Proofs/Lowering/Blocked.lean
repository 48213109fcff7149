import Mathlib.Data.List.Basic
import StackMips.Lowering.Generator
import StackMips.Proofs.Resolution.Total

/-!
# What has no code

Field accesses cannot be lowered.  Those that are not inside another field access are listed in the
order in which code generation comes to them: the value of an assignment before its target.
-/

namespace StackMips

/-! ## Outermost field accesses -/

def Expr.blockedTarget : Expr → List Unsupported
  | .field _ id => [⟨.fieldAssignment, id.pos⟩]
  | _ => []

mutual

/-- The outermost field accesses of an expression, in the order of generation. -/
def Expr.blocked : Expr → List Unsupported
  | .int _ _ | .str _ _ | .bool _ _ | .name _ => []
  | .field _ id => [⟨.fieldAccess, id.pos⟩]
  | .assign target value => value.blocked ++ target.blockedTarget
  | .call _ args => Expr.blockedAll args
  | .unary _ operand => operand.blocked
  | .binary _ left right => left.blocked ++ right.blocked

def Expr.blockedAll : List Expr → List Unsupported
  | [] => []
  | e :: es => e.blocked ++ Expr.blockedAll es

end

mutual

def Stmt.blocked : Stmt → List Unsupported
  | .assign target value => value.blocked ++ target.blockedTarget
  | .increment target | .decrement target | .read target => target.blockedTarget
  | .write value => value.blocked
  | .ifThen cond body | .whileLoop cond body => cond.blocked ++ body.blocked
  | .ifElse cond thenBody elseBody => cond.blocked ++ thenBody.blocked ++ elseBody.blocked
  | .repeatLoop count body => count.blocked ++ body.blocked
  | .call _ args => Expr.blockedAll args
  | .ret (some value) _ => value.blocked
  | .ret none _ => []

def Block.blocked : Block → List Unsupported
  | ⟨_, stmts⟩ => Stmt.blockedAll stmts

def Stmt.blockedAll : List Stmt → List Unsupported
  | [] => []
  | stmt :: stmts => stmt.blocked ++ Stmt.blockedAll stmts

end

def Program.blocked (program : Program) : List Unsupported :=
  program.functions.flatMap (·.body.blocked)

@[simp] theorem Expr.blockedAll_eq_flatMap (es : List Expr) :
    Expr.blockedAll es = es.flatMap Expr.blocked := by
  induction es with
  | nil => rfl
  | cons e es ih => rw [Expr.blockedAll, ih, List.flatMap_cons]

@[simp] theorem Stmt.blockedAll_eq_flatMap (stmts : List Stmt) :
    Stmt.blockedAll stmts = stmts.flatMap Stmt.blocked := by
  induction stmts with
  | nil => rfl
  | cons stmt stmts ih => rw [Stmt.blockedAll, ih, List.flatMap_cons]

theorem Block.blocked_eq (block : Block) : block.blocked = block.stmts.flatMap Stmt.blocked := by
  cases block
  simp [Block.blocked]

/-! ## Blocked trees are those with field accesses -/

namespace Expr

theorem blockedTarget_eq_nil_iff {target : Expr} (h : target.isLocation) :
    target.blockedTarget = [] ↔ target.hasField = false := by
  cases target with
  | name id => simp [blockedTarget, hasField, nodes, isField]
  | field base id => simp [blockedTarget, hasField, nodes, isField]
  | int _ _ | str _ _ | bool _ _ | assign _ _ | call _ _ | unary _ _ | binary _ _ _ => cases h

theorem blocked_eq_nil_iff {e : Expr} (h : e.InGrammar) :
    e.blocked = [] ↔ e.hasField = false := by
  induction e using Expr.induction with
  | int _ _ | str _ _ | bool _ _ | name _ => simp [blocked, hasField, nodes, isField]
  | field base id _ => simp [blocked, hasField, nodes, isField]
  | assign target value _ ihvalue =>
      have hfield : (assign target value).hasField = (target.hasField || value.hasField) := by
        simp [hasField, nodes, isField]
      rw [blocked, List.append_eq_nil_iff, ihvalue h.assign.2.2,
        blockedTarget_eq_nil_iff h.assign.1, hfield, Bool.or_eq_false_iff, and_comm]
  | call callee args ih =>
      have hfield : (call callee args).hasField = args.any hasField := by
        simp [hasField, nodes, isField, List.any_flatMap]
        rfl
      rw [blocked, blockedAll_eq_flatMap, List.flatMap_eq_nil_iff, hfield, List.any_eq_false]
      simp only [Bool.not_eq_true]
      exact forall₂_congr fun arg harg => ih arg harg (h.call arg harg)
  | unary op operand ih =>
      have hfield : (unary op operand).hasField = operand.hasField := by
        simp [hasField, nodes, isField]
      rw [blocked, ih h.unary, hfield]
  | binary op left right ihleft ihright =>
      have hfield : (binary op left right).hasField = (left.hasField || right.hasField) := by
        simp [hasField, nodes, isField]
      rw [blocked, List.append_eq_nil_iff, ihleft h.binary.1, ihright h.binary.2, hfield,
        Bool.or_eq_false_iff]

end Expr

theorem Block.blocked_eq_nil_iff_of {block : Block}
    (h : ∀ stmt ∈ block.stmts, stmt.blocked = [] ↔ ∀ e ∈ stmt.allExprs, e.hasField = false) :
    block.blocked = [] ↔ ∀ e ∈ block.allExprs, e.hasField = false := by
  simp only [Block.blocked_eq, Block.allExprs_eq, List.flatMap_eq_nil_iff, List.mem_flatMap]
  constructor
  · rintro hblocked e ⟨stmt, hstmt, he⟩
    exact (h stmt hstmt).mp (hblocked stmt hstmt) e he
  · exact fun hfree stmt hstmt => (h stmt hstmt).mpr fun e he => hfree e ⟨stmt, hstmt, he⟩

theorem Stmt.blocked_eq_nil_iff {stmt : Stmt} (h : stmt.InGrammar) :
    stmt.blocked = [] ↔ ∀ e ∈ stmt.allExprs, e.hasField = false := by
  induction stmt using Stmt.induction with
  | assign target value =>
      have hassign :=
        Expr.blocked_eq_nil_iff (h.exprs (e := .assign target value) (by simp [exprs]))
      simpa [allExprs, nodes, exprs, blocked, Expr.blocked] using hassign
  | increment target | decrement target | read target =>
      simpa [allExprs, nodes, exprs, blocked] using Expr.blockedTarget_eq_nil_iff h.isFormed
  | write value =>
      have hvalue := Expr.blocked_eq_nil_iff (h.exprs (e := value) (by simp [exprs]))
      simpa [allExprs, nodes, exprs, blocked] using hvalue
  | ifThen cond body ih | whileLoop cond body ih | repeatLoop cond body ih =>
      have hcond := Expr.blocked_eq_nil_iff (h.exprs (e := cond) (by simp [exprs]))
      have hgrammar := Block.InGrammar.of_nodes body h fun node hnode => by simp [nodes, hnode]
      have hbody := Block.blocked_eq_nil_iff_of fun inner hinner =>
        ih inner hinner (hgrammar inner hinner)
      simp only [blocked, List.append_eq_nil_iff, hcond, hbody, allExprs_eq, exprs, bodies,
        List.flatMap_cons, List.flatMap_nil, List.append_nil, List.singleton_append,
        List.forall_mem_cons]
  | ifElse cond thenBody elseBody ihthen ihelse =>
      have hcond := Expr.blocked_eq_nil_iff (h.exprs (e := cond) (by simp [exprs]))
      have hthen := Block.InGrammar.of_nodes thenBody h fun node hnode => by simp [nodes, hnode]
      have helse := Block.InGrammar.of_nodes elseBody h fun node hnode => by simp [nodes, hnode]
      have hthen := Block.blocked_eq_nil_iff_of fun inner hinner =>
        ihthen inner hinner (hthen inner hinner)
      have helse := Block.blocked_eq_nil_iff_of fun inner hinner =>
        ihelse inner hinner (helse inner hinner)
      simp only [blocked, List.append_eq_nil_iff, hcond, hthen, helse, allExprs_eq, exprs, bodies,
        List.flatMap_cons, List.flatMap_nil, List.append_nil, List.singleton_append,
        List.forall_mem_cons, List.forall_mem_append, and_assoc]
  | call callee args =>
      have hcall := Expr.blocked_eq_nil_iff (h.exprs (e := .call callee args) (by simp [exprs]))
      simpa [allExprs, nodes, exprs, blocked, Expr.blocked] using hcall
  | ret value? pos =>
      cases value? with
      | none => simp [allExprs, nodes, exprs, blocked]
      | some value =>
          have hvalue := Expr.blocked_eq_nil_iff (h.exprs (e := value) (by simp [exprs]))
          simpa [allExprs, nodes, exprs, blocked] using hvalue

/-- Something is blocked exactly if a field is accessed somewhere. -/
theorem Program.blocked_eq_nil_iff {program : Program} (h : program.InGrammar) :
    program.blocked = [] ↔ program.hasField = false := by
  rw [blocked, List.flatMap_eq_nil_iff, hasField, List.any_eq_false]
  refine forall₂_congr fun fn hfn => ?_
  rw [Block.blocked_eq_nil_iff_of fun stmt hstmt => Stmt.blocked_eq_nil_iff (h fn hfn stmt hstmt),
    Block.hasField, List.any_eq_true, not_exists]
  simp

def Unsupported.IsField (u : Unsupported) (nodes : List Expr) : Prop :=
  (u.construct = .fieldAccess ∨ u.construct = .fieldAssignment) ∧
    ∃ base id, .field base id ∈ nodes ∧ u.pos = id.pos

theorem Unsupported.IsField.mono {u : Unsupported} {nodes nodes' : List Expr}
    (h : u.IsField nodes) (hsubset : nodes ⊆ nodes') : u.IsField nodes' := by
  obtain ⟨hconstruct, base, id, hmem, hpos⟩ := h
  exact ⟨hconstruct, base, id, hsubset hmem, hpos⟩

namespace Expr

theorem isField_blockedTarget (target : Expr) :
    ∀ u ∈ target.blockedTarget, u.IsField target.nodes := by
  cases target with
  | field base id =>
      simp only [blockedTarget, List.mem_singleton, forall_eq]
      exact ⟨.inr rfl, base, id, self_mem_nodes _, rfl⟩
  | int _ _ | str _ _ | bool _ _ | name _ | assign _ _ | call _ _ | unary _ _ | binary _ _ _ =>
      simp [blockedTarget]

theorem isField_blocked (e : Expr) : ∀ u ∈ e.blocked, u.IsField e.nodes := by
  induction e using Expr.induction with
  | int _ _ | str _ _ | bool _ _ | name _ => simp [blocked]
  | field base id _ =>
      simp only [blocked, List.mem_singleton, forall_eq]
      exact ⟨.inl rfl, base, id, self_mem_nodes _, rfl⟩
  | assign target value _ ih =>
      rw [blocked, List.forall_mem_append]
      exact ⟨fun u hu => (ih u hu).mono fun _ h => by simp [nodes, h],
        fun u hu => (isField_blockedTarget target u hu).mono fun _ h => by simp [nodes, h]⟩
  | call callee args ih =>
      simp only [blocked, blockedAll_eq_flatMap, List.mem_flatMap]
      rintro u ⟨arg, harg, hu⟩
      refine (ih arg harg u hu).mono fun node hnode => ?_
      simp only [nodes, nodesAll_eq_flatMap, List.mem_cons, List.mem_flatMap]
      exact .inr ⟨arg, harg, hnode⟩
  | unary op operand ih => exact fun u hu => (ih u hu).mono fun _ h => by simp [nodes, h]
  | binary op left right ihleft ihright =>
      rw [blocked, List.forall_mem_append]
      exact ⟨fun u hu => (ihleft u hu).mono fun _ h => by simp [nodes, h],
        fun u hu => (ihright u hu).mono fun _ h => by simp [nodes, h]⟩

end Expr

namespace Stmt

theorem isField_block_of {block : Block}
    (h : ∀ stmt ∈ block.stmts, ∀ u ∈ stmt.blocked, ∃ e ∈ stmt.allExprs, u.IsField e.nodes) :
    ∀ u ∈ block.blocked, ∃ e ∈ block.allExprs, u.IsField e.nodes := by
  intro u hu
  rw [Block.blocked_eq] at hu
  obtain ⟨stmt, hstmt, hu⟩ := List.mem_flatMap.mp hu
  obtain ⟨e, he, hfield⟩ := h stmt hstmt u hu
  rw [Block.allExprs_eq]
  exact ⟨e, List.mem_flatMap.mpr ⟨stmt, hstmt, he⟩, hfield⟩

theorem isField_blocked (stmt : Stmt) :
    ∀ u ∈ stmt.blocked, ∃ e ∈ stmt.allExprs, u.IsField e.nodes := by
  have hexpr : ∀ {stmt : Stmt} {e : Expr} {u : Unsupported}, e ∈ stmt.exprs → u.IsField e.nodes →
      ∃ e ∈ stmt.allExprs, u.IsField e.nodes :=
    fun he hu => ⟨_, exprs_subset _ he, hu⟩
  have hbody : ∀ {stmt : Stmt} (body : Block) {u : Unsupported}, body ∈ stmt.bodies →
      (∃ e ∈ body.allExprs, u.IsField e.nodes) → ∃ e ∈ stmt.allExprs, u.IsField e.nodes := by
    rintro stmt body u hmem ⟨e, he, hu⟩
    refine ⟨e, ?_, hu⟩
    rw [allExprs_eq, List.mem_append, List.mem_flatMap]
    exact .inr ⟨body, hmem, he⟩
  induction stmt using Stmt.induction with
  | assign target value =>
      exact fun u hu => hexpr (by simp [exprs]) ((Expr.assign target value).isField_blocked u hu)
  | increment target | decrement target | read target =>
      exact fun u hu => hexpr (by simp [exprs]) (target.isField_blockedTarget u hu)
  | write value => exact fun u hu => hexpr (by simp [exprs]) (value.isField_blocked u hu)
  | ifThen cond body ih | whileLoop cond body ih | repeatLoop cond body ih =>
      rw [blocked, List.forall_mem_append]
      exact ⟨fun u hu => hexpr (by simp [exprs]) (cond.isField_blocked u hu),
        fun u hu => hbody body (by simp [bodies]) (isField_block_of ih u hu)⟩
  | ifElse cond thenBody elseBody ihthen ihelse =>
      rw [blocked, List.forall_mem_append, List.forall_mem_append]
      exact ⟨⟨fun u hu => hexpr (by simp [exprs]) (cond.isField_blocked u hu),
        fun u hu => hbody thenBody (by simp [bodies]) (isField_block_of ihthen u hu)⟩,
        fun u hu => hbody elseBody (by simp [bodies]) (isField_block_of ihelse u hu)⟩
  | call callee args =>
      exact fun u hu => hexpr (by simp [exprs]) ((Expr.call callee args).isField_blocked u hu)
  | ret value? pos =>
      cases value? with
      | none => simp [blocked]
      | some value => exact fun u hu => hexpr (by simp [exprs]) (value.isField_blocked u hu)

end Stmt

/-- What is blocked is a field in some function body; no struct is ever assigned as a whole. -/
theorem Program.isField_blocked {program : Program} {u : Unsupported} (h : u ∈ program.blocked) :
    ∃ fn ∈ program.functions, ∃ e ∈ fn.body.allExprs, u.IsField e.nodes := by
  obtain ⟨fn, hfn, hu⟩ := List.mem_flatMap.mp h
  exact ⟨fn, hfn, Stmt.isField_block_of (fun stmt _ => stmt.isField_blocked) u hu⟩

/-! ## Linking changes nothing -/

namespace Expr

@[simp] theorem blockedTarget_linked (r : Resolver) (e : Expr) :
    (e.linked r).blockedTarget = e.blockedTarget := by
  cases e <;> rfl

@[simp] theorem blocked_linked (r : Resolver) (e : Expr) : (e.linked r).blocked = e.blocked := by
  induction e using Expr.induction with
  | int _ _ | str _ _ | bool _ _ | name _ => rfl
  | field base id _ => rfl
  | assign target value _ ih => simp [linked, blocked, ih]
  | unary op operand ih => simp [linked, blocked, ih]
  | binary op left right ihleft ihright => simp [linked, blocked, ihleft, ihright]
  | call callee args ih =>
      simp only [linked, blocked, linkedAll_eq_map, blockedAll_eq_flatMap, List.flatMap_map]
      exact List.flatMap_congr ih

end Expr

namespace Stmt

theorem blocked_linkedAll_of {stmts : List Stmt}
    (h : ∀ stmt ∈ stmts, ∀ r, (stmt.linked r).blocked = stmt.blocked) (r : Resolver) :
    (Stmt.linkedAll r stmts).flatMap blocked = stmts.flatMap blocked := by
  induction stmts generalizing r with
  | nil => rfl
  | cons stmt stmts ih =>
      rw [Stmt.linkedAll, List.flatMap_cons, List.flatMap_cons, h stmt (by simp),
        ih fun other hother => h other (by simp [hother])]

theorem blocked_linkedBlock_of {block : Block}
    (h : ∀ stmt ∈ block.stmts, ∀ r, (stmt.linked r).blocked = stmt.blocked) (r : Resolver) :
    (block.linked r).blocked = block.blocked := by
  obtain ⟨decls, stmts⟩ := block
  simp [Block.blocked_eq, Block.linked, blocked_linkedAll_of h]

theorem blocked_linked (r : Resolver) (stmt : Stmt) : (stmt.linked r).blocked = stmt.blocked := by
  induction stmt using Stmt.induction generalizing r with
  | assign _ _ | increment _ | decrement _ | read _ | write _ => simp [linked, blocked]
  | ifThen cond body ih | whileLoop cond body ih | repeatLoop cond body ih =>
      simp [linked, blocked, blocked_linkedBlock_of ih]
  | ifElse cond thenBody elseBody ihthen ihelse =>
      simp [linked, blocked, blocked_linkedBlock_of ihthen, blocked_linkedBlock_of ihelse]
  | call callee args => simp [linked, blocked, List.flatMap_map]
  | ret value? pos => cases value? <;> simp [linked, blocked]

end Stmt

theorem Block.blocked_linked (r : Resolver) (block : Block) :
    (block.linked r).blocked = block.blocked :=
  Stmt.blocked_linkedBlock_of (fun stmt _ r => stmt.blocked_linked r) r

theorem Program.blocked_linked (program : Program) (context : Context) :
    (program.linked context).program.blocked = program.blocked := by
  have h : ∀ (decls : List Decl) (r : Resolver),
      Program.blocked ⟨Decl.linkedAll r decls⟩ = Program.blocked ⟨decls⟩ := by
    intro decls
    induction decls with
    | nil => exact fun _ => rfl
    | cons decl decls ih =>
        intro r
        have ih := ih (decl.after r)
        cases decl with
        | var _ | struct _ => exact ih
        | fn fn =>
            simp only [Program.blocked, Program.functions] at ih
            simp [Decl.linkedAll, Decl.linked, Program.blocked, Program.functions, ih,
              FnDecl.linked, Block.blocked_linked]
  exact h program.decls _

end StackMips
