import Mathlib.Data.List.Basic
import StackMips.Proofs.Resolution.Program

/-!
# Links

Resolution links each expression in one state: the state that the walk has reached when it comes to
the expression.  What holds of all states of a walk therefore holds of the state behind every link
of the resolved tree.  The tree keeps its shape, so a linked tree is in the grammar when the
original one is.
-/

namespace StackMips

/-! ## Invariants of walks -/

namespace Resolver

/-- A property of states that every step of a walk through a body keeps. -/
structure IsInvariant (I : Resolver → Prop) : Prop where
  enter : ∀ r, I r → I r.enter
  declareLocal : ∀ r decl, I r → I (r.declareLocal decl)
  backTo : ∀ r r', I r → I r' → r.symbols.Extends r'.symbols → I (r'.backTo r)

theorem sound_isInvariant : IsInvariant Sound where
  enter _ := Sound.enter
  declareLocal r decl := (r.grows_declareLocal decl).sound
  backTo _ _ hr hr' hextends := ⟨hr'.symbols, hr.table.mono hextends.keeps⟩

namespace IsInvariant

theorem and {I J : Resolver → Prop} (hI : IsInvariant I) (hJ : IsInvariant J) :
    IsInvariant fun r => I r ∧ J r where
  enter r h := ⟨hI.enter r h.1, hJ.enter r h.2⟩
  declareLocal r decl h := ⟨hI.declareLocal r decl h.1, hJ.declareLocal r decl h.2⟩
  backTo r r' h h' hextends := ⟨hI.backTo r r' h.1 h'.1 hextends, hJ.backTo r r' h.2 h'.2 hextends⟩

variable {I : Resolver → Prop} (hI : IsInvariant I)

include hI

theorem isWalk : IsWalk fun r r' => r.Grows r' ∧ (I r → I r') where
  refl r := ⟨.refl r, id⟩
  trans _ _ _ hab hbc := ⟨hab.1.trans hbc.1, hbc.2 ∘ hab.2⟩
  declareLocal r decl := ⟨r.grows_declareLocal decl, hI.declareLocal r decl⟩
  backTo r r' h :=
    ⟨h.1.backTo, fun hr => hI.backTo r r' hr (h.2 (hI.enter r hr)) h.1.symbols⟩

theorem stmt {r : Resolver} (hr : I r) (stmt : Stmt) : I (stmt.after r) :=
  (hI.isWalk.stmt stmt r).2 hr

theorem declareLocals {r : Resolver} (hr : I r) (decls : List VarDecl) :
    I (r.declareLocals decls) :=
  (hI.isWalk.declareLocals decls r).2 hr

end IsInvariant

end Resolver

/-! ## Linked expressions -/

namespace Expr

@[simp] theorem isLocation_linked (r : Resolver) (e : Expr) :
    (e.linked r).isLocation = e.isLocation := by
  cases e <;> rfl

@[simp] theorem isFormed_linked (r : Resolver) (e : Expr) :
    (e.linked r).isFormed = e.isFormed := by
  cases e <;> simp [linked, isFormed]

theorem nodes_linked (r : Resolver) (e : Expr) :
    (e.linked r).nodes = e.nodes.map (Expr.linked r) := by
  induction e using Expr.induction with
  | int _ _ | str _ _ | bool _ _ | name _ => rfl
  | field base id ih | unary op base ih => simp [linked, nodes, ih]
  | assign left right ihleft ihright | binary op left right ihleft ihright =>
      simp [linked, nodes, ihleft, ihright]
  | call callee args ih =>
      simp only [linked, nodes, linkedAll_eq_map, nodesAll_eq_flatMap, List.map_cons,
        List.map_flatMap, List.flatMap_map]
      congr 1
      exact List.flatMap_congr ih

theorem InGrammar.linked {e : Expr} (h : e.InGrammar) (r : Resolver) :
    (e.linked r).InGrammar := by
  rw [InGrammar, nodes_linked, List.forall_mem_map]
  exact fun node hnode => (isFormed_linked r node).trans (h node hnode)

theorem uses_linked (r : Resolver) (e : Expr) :
    (e.linked r).uses = e.uses.map (Ident.linked r) := by
  have huse : ∀ node : Expr, (node.linked r).use? = node.use?.map (Ident.linked r) := by
    intro node
    cases node <;> rfl
  rw [uses, uses, nodes_linked, List.filterMap_map, List.map_filterMap]
  exact List.filterMap_congr fun node _ => huse node

end Expr

/-! ## Where links point -/

/-- A link leads to a symbol that has the name of the identifier. -/
def Ident.PointsInto (symbols : Arena) (id : Ident) : Prop :=
  ∀ link, id.link = some link → symbols.Knows id.name link

theorem Ident.PointsInto.mono {a b : Arena} {id : Ident} (h : id.PointsInto a)
    (hkeeps : a.Keeps b) : id.PointsInto b :=
  fun link hlink => (h link hlink).mono hkeeps

theorem Expr.pointsInto_linked {r : Resolver} (hr : r.Sound) (e : Expr) :
    ∀ id ∈ (e.linked r).idents, id.PointsInto r.symbols := by
  have hname : ∀ id : Ident, (id.linked r).PointsInto r.symbols :=
    fun id link hlink => hr.table.knows_of_lookup hlink
  induction e using Expr.induction with
  | int _ _ | str _ _ | bool _ _ => simp [linked, idents]
  | name id => simpa [linked, idents] using hname id
  | field base id ih =>
      simp only [linked, idents, List.forall_mem_append, List.forall_mem_singleton]
      refine ⟨ih, fun link hlink => ?_⟩
      obtain ⟨definition, _, hfield⟩ := Option.bind_eq_some_iff.mp hlink
      exact Arena.field?_knows hr.symbols hfield
  | assign left right ihleft ihright | binary op left right ihleft ihright =>
      simp only [linked, idents, List.forall_mem_append]
      exact ⟨ihleft, ihright⟩
  | call callee args ih =>
      simp only [linked, idents, linkedAll_eq_map, identsAll_eq_flatMap, List.forall_mem_cons,
        List.mem_flatMap, List.mem_map]
      refine ⟨hname callee, ?_⟩
      rintro id ⟨_, ⟨arg, harg, rfl⟩, hid⟩
      exact ih arg harg id hid
  | unary op operand ih => simpa [linked, idents] using ih

theorem Expr.reached_of_quiet {r : Resolver} {base : Expr} (hlocation : base.isLocation)
    (hgrammar : base.InGrammar) (h : base.baseReports r = []) :
    (base.reached r).isSome ∧ ∀ id ∈ (base.linked r).idents, id.link.isSome := by
  induction base using Expr.induction with
  | name id =>
      simp only [baseReports, List.append_eq_nil_iff, Ident.reports] at h
      cases hlookup : r.table.lookup id.name with
      | none => simp [hlookup] at h
      | some symbol =>
          have hdefinition := h.2
          simp only [Ident.baseReports, hlookup, ite_eq_left_iff, List.cons_ne_self, imp_false,
            Bool.not_eq_true, Bool.not_eq_false] at hdefinition
          simp [reached, linked, idents, Ident.linked, hlookup, hdefinition]
  | field base id ih =>
      simp only [baseReports, List.append_eq_nil_iff] at h
      obtain ⟨⟨hbase, hfield⟩, hstruct⟩ := h
      obtain ⟨hsome, hlinked⟩ := ih hgrammar.field.1 hgrammar.field.2 hbase
      obtain ⟨definition, hreached⟩ := Option.isSome_iff_exists.mp hsome
      simp only [Ident.fieldReports, hreached, ite_eq_left_iff, List.cons_ne_self, imp_false,
        Bool.not_eq_true, Bool.not_eq_false] at hfield
      obtain ⟨field, hfield⟩ := Option.isSome_iff_exists.mp hfield
      simp only [Ident.baseReports, hreached, Option.bind_some, hfield, ite_eq_left_iff,
        List.cons_ne_self, imp_false, Bool.not_eq_true, Bool.not_eq_false] at hstruct
      refine ⟨by simpa [reached, hreached, hfield] using hstruct, ?_⟩
      simp only [linked, idents, List.forall_mem_append, List.forall_mem_singleton]
      exact ⟨hlinked, by simp [Ident.fieldLinked, hreached, hfield]⟩
  | int _ _ | str _ _ | bool _ _ | assign _ _ | call _ _ | unary _ _ | binary _ _ _ =>
      cases hlocation

/-- A quiet expression has all its identifiers linked. -/
theorem Expr.isSome_link_of_quiet {r : Resolver} {e : Expr} (hgrammar : e.InGrammar)
    (h : e.reports r = []) : ∀ id ∈ (e.linked r).idents, id.link.isSome := by
  have hname : ∀ id : Ident, id.reports r = [] → (id.linked r).link.isSome := by
    intro id hid
    simpa [Ident.reports, Ident.linked, Option.isSome_iff_ne_none] using hid
  induction e using Expr.induction with
  | int _ _ | str _ _ | bool _ _ => simp [linked, idents]
  | name id => simpa [linked, idents] using hname id h
  | field base id _ =>
      simp only [reports, List.append_eq_nil_iff] at h
      obtain ⟨hbase, hfield⟩ := h
      obtain ⟨hsome, hlinked⟩ := reached_of_quiet hgrammar.field.1 hgrammar.field.2 hbase
      obtain ⟨definition, hreached⟩ := Option.isSome_iff_exists.mp hsome
      simp only [Ident.fieldReports, hreached, ite_eq_left_iff, List.cons_ne_self, imp_false,
        Bool.not_eq_true, Bool.not_eq_false] at hfield
      simp only [linked, idents, List.forall_mem_append, List.forall_mem_singleton]
      exact ⟨hlinked, by simpa [Ident.fieldLinked, hreached] using hfield⟩
  | assign target value ihtarget ihvalue =>
      simp only [reports, List.append_eq_nil_iff] at h
      simp only [linked, idents, List.forall_mem_append]
      exact ⟨ihtarget hgrammar.assign.2.1 h.1, ihvalue hgrammar.assign.2.2 h.2⟩
  | binary op left right ihleft ihright =>
      simp only [reports, List.append_eq_nil_iff] at h
      simp only [linked, idents, List.forall_mem_append]
      exact ⟨ihleft hgrammar.binary.1 h.1, ihright hgrammar.binary.2 h.2⟩
  | call callee args ih =>
      simp only [reports, reportsAll_eq_flatMap, List.append_eq_nil_iff,
        List.flatMap_eq_nil_iff] at h
      simp only [linked, idents, linkedAll_eq_map, identsAll_eq_flatMap, List.forall_mem_cons,
        List.mem_flatMap, List.mem_map]
      refine ⟨hname callee h.1, ?_⟩
      rintro id ⟨_, ⟨arg, harg, rfl⟩, hid⟩
      exact ih arg harg (hgrammar.call arg harg) (h.2 arg harg) id hid
  | unary op operand ih => simpa [linked, idents] using ih hgrammar.unary h

/-! ## Linked statements -/

namespace Stmt

theorem exprs_linked (r : Resolver) (stmt : Stmt) :
    (stmt.linked r).exprs = stmt.exprs.map (Expr.linked r) := by
  cases stmt with
  | ret value? pos => cases value? <;> rfl
  | assign _ _ | increment _ | decrement _ | read _ | write _ | ifThen _ _ | ifElse _ _ _
  | whileLoop _ _ | repeatLoop _ _ | call _ _ => rfl

@[simp] theorem isFormed_linked (r : Resolver) (stmt : Stmt) :
    (stmt.linked r).isFormed = stmt.isFormed := by
  cases stmt <;> simp [linked, isFormed]

theorem exprs_quiet {r : Resolver} {stmt : Stmt} (h : stmt.reports r = []) :
    ∀ e ∈ stmt.exprs, e.reports r = [] := by
  cases stmt with
  | ret value? pos =>
      cases value? with
      | none => simp [exprs]
      | some value => simpa [exprs, reports] using h
  | assign _ _ | call _ _ => simpa [exprs, reports, Expr.reports] using h
  | increment _ | decrement _ | read _ | write _ => simpa [exprs, reports] using h
  | ifThen _ _ | ifElse _ _ _ | whileLoop _ _ | repeatLoop _ _ =>
      simp only [reports, List.append_eq_nil_iff] at h
      simp [exprs, h]

/-- A node of a linked tree, `node'`, comes from a node of the original tree that was linked in a
state of the walk from `r` to `final`. -/
def Visited (I : Resolver → Prop) (final : Resolver) (quiet : Prop) (nodes : List Stmt)
    (node' : Stmt) : Prop :=
  ∃ node ∈ nodes, ∃ s, I s ∧ s.symbols.Extends final.symbols ∧ node' = node.linked s ∧
    (quiet → node.reports s = [])

theorem Visited.mono {I : Resolver → Prop} {final final' : Resolver} {quiet quiet' : Prop}
    {nodes nodes' : List Stmt} {node' : Stmt} (h : Visited I final quiet nodes node')
    (hextends : final.symbols.Extends final'.symbols) (hquiet : quiet' → quiet)
    (hnodes : nodes ⊆ nodes') : Visited I final' quiet' nodes' node' := by
  obtain ⟨node, hnode, s, hI, hs, rfl, hreports⟩ := h
  exact ⟨node, hnodes hnode, s, hI, hs.trans hextends, rfl, hreports ∘ hquiet⟩

section Visits

variable {I : Resolver → Prop} (hI : Resolver.IsInvariant I)

include hI

theorem visitedAll_of {stmts : List Stmt}
    (h : ∀ stmt ∈ stmts, ∀ r, I r → ∀ node' ∈ (stmt.linked r).nodes,
      Visited I (stmt.after r) (stmt.reports r = []) stmt.nodes node')
    {r : Resolver} (hr : I r) :
    ∀ node' ∈ (Stmt.linkedAll r stmts).flatMap Stmt.nodes,
      Visited I (Stmt.afterAll r stmts) (Stmt.reportsAll r stmts = []) (stmts.flatMap Stmt.nodes)
        node' := by
  induction stmts generalizing r with
  | nil => simp [Stmt.linkedAll]
  | cons stmt stmts ih =>
      have hrest := (hI.isWalk.afterAll stmts (stmt.after r)).1.symbols
      simp only [Stmt.linkedAll, List.flatMap_cons, List.forall_mem_append]
      refine ⟨fun node' hnode' => ?_, fun node' hnode' => ?_⟩
      · refine (h stmt (by simp) r hr node' hnode').mono hrest (fun hquiet => ?_) (by simp)
        exact (List.append_eq_nil_iff.mp hquiet).1
      · refine (ih (fun other hother => h other (by simp [hother])) (hI.stmt hr stmt) node'
          hnode').mono (.refl _) (fun hquiet => ?_) (by simp)
        exact (List.append_eq_nil_iff.mp hquiet).2

theorem visitedBlock_of {block : Block}
    (h : ∀ stmt ∈ block.stmts, ∀ r, I r → ∀ node' ∈ (stmt.linked r).nodes,
      Visited I (stmt.after r) (stmt.reports r = []) stmt.nodes node')
    {r : Resolver} (hr : I r) :
    ∀ node' ∈ (block.linked r).nodes,
      Visited I (block.after r) (block.reports r = []) block.nodes node' := by
  obtain ⟨decls, stmts⟩ := block
  intro node' hnode'
  rw [Block.nodes_eq] at hnode'
  refine (visitedAll_of hI h (hI.declareLocals hr decls) node' hnode').mono (.refl _)
    (fun hquiet => ?_) (by simp [Block.nodes_eq])
  exact (List.append_eq_nil_iff.mp hquiet).2

/-- Every statement of a linked statement was linked in a state of the walk. -/
theorem visited (stmt : Stmt) {r : Resolver} (hr : I r) :
    ∀ node' ∈ (stmt.linked r).nodes,
      Visited I (stmt.after r) (stmt.reports r = []) stmt.nodes node' := by
  have hself : ∀ (stmt : Stmt) (r : Resolver), I r →
      Visited I (stmt.after r) (stmt.reports r = []) stmt.nodes (stmt.linked r) :=
    fun stmt r hr => ⟨stmt, stmt.self_mem_nodes, r, hr, (hI.isWalk.stmt stmt r).1.symbols, rfl, id⟩
  induction stmt using Stmt.induction generalizing r with
  | assign _ _ | increment _ | decrement _ | read _ | write _ | call _ _ | ret _ _ =>
      intro node' hnode'
      obtain rfl := List.mem_singleton.mp hnode'
      exact hself _ r hr
  | ifThen cond body ih | whileLoop cond body ih | repeatLoop cond body ih =>
      simp only [linked, nodes, List.forall_mem_cons]
      refine ⟨hself _ r hr, fun node' hnode' => ?_⟩
      refine (visitedBlock_of hI (fun stmt hstmt _ hr => ih stmt hstmt hr) (hI.enter r hr) node'
        hnode').mono (.refl _) (fun hquiet => ?_) (List.subset_cons_self _ _)
      exact (List.append_eq_nil_iff.mp hquiet).2
  | ifElse cond thenBody elseBody ihthen ihelse =>
      have hbetween := hI.isWalk.backTo r _ (hI.isWalk.block thenBody r.enter)
      have helse := hI.isWalk.block elseBody ((thenBody.after r.enter).backTo r).enter
      simp only [linked, nodes, List.forall_mem_cons, List.forall_mem_append]
      refine ⟨hself _ r hr, fun node' hnode' => ?_, fun node' hnode' => ?_⟩
      · refine (visitedBlock_of hI (fun stmt hstmt _ hr => ihthen stmt hstmt hr) (hI.enter r hr)
          node' hnode').mono helse.1.symbols (fun hquiet => ?_) (by simp)
        simp only [reports, List.append_eq_nil_iff] at hquiet
        exact hquiet.1.2
      · refine (visitedBlock_of hI (fun stmt hstmt _ hr => ihelse stmt hstmt hr)
          (hI.enter _ (hbetween.2 hr)) node' hnode').mono (.refl _) (fun hquiet => ?_)
          (by simp)
        simp only [reports, List.append_eq_nil_iff] at hquiet
        exact hquiet.2

end Visits

end Stmt

theorem Block.exprs_visited {I : Resolver → Prop} (hI : Resolver.IsInvariant I) {r : Resolver}
    (hr : I r) (block : Block) :
    ∀ e' ∈ (block.linked r).allExprs, ∃ e ∈ block.allExprs, ∃ s, I s ∧
      s.symbols.Extends (block.after r).symbols ∧ e' = e.linked s ∧
      (block.reports r = [] → e.reports s = []) := by
  intro e' he'
  obtain ⟨node', hnode', he'⟩ := List.mem_flatMap.mp he'
  obtain ⟨node, hnode, s, hs, hextends, rfl, hquiet⟩ :=
    Stmt.visitedBlock_of hI (fun stmt _ _ hr => Stmt.visited hI stmt hr) hr node' hnode'
  rw [Stmt.exprs_linked] at he'
  obtain ⟨e, he, rfl⟩ := List.mem_map.mp he'
  exact ⟨e, List.mem_flatMap.mpr ⟨node, hnode, he⟩, s, hs, hextends, rfl,
    fun h => Stmt.exprs_quiet (hquiet h) e he⟩

theorem Block.InGrammar.linked {block : Block} (h : block.InGrammar) (r : Resolver) :
    (block.linked r).InGrammar := by
  have htrue : Resolver.IsInvariant fun _ => True := ⟨by simp, by simp, by simp⟩
  intro stmt' hstmt' node' hnode'
  have hmem : node' ∈ (block.linked r).nodes := by
    rw [Block.nodes_eq]
    exact List.mem_flatMap.mpr ⟨stmt', hstmt', hnode'⟩
  obtain ⟨node, hnode, s, _, _, rfl, _⟩ :=
    Stmt.visitedBlock_of htrue (fun stmt _ _ hr => Stmt.visited htrue stmt hr) trivial node' hmem
  rw [Block.nodes_eq] at hnode
  obtain ⟨stmt, hstmt, hnode⟩ := List.mem_flatMap.mp hnode
  obtain ⟨hformed, hexprs⟩ := h stmt hstmt node hnode
  refine ⟨(Stmt.isFormed_linked s node).trans hformed, ?_⟩
  rw [Stmt.exprs_linked, List.forall_mem_map]
  exact fun e he => (hexprs e he).linked s

end StackMips
