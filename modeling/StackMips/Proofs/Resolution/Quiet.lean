import StackMips.Proofs.Resolution.Program

/-!
# Quiet resolution

A resolution that reports nothing has linked every identifier and has accepted every target.  So
the tree it started from was unlinked and in the grammar: what is known of a quiet run needs no
further assumption about its input.
-/

namespace StackMips

/-- A tree that resolution has to be prepared for. -/
structure Expr.Fresh (e : Expr) : Prop where
  grammar : e.InGrammar
  unlinked : ∀ id ∈ e.idents, id.link = none

structure Stmt.Fresh (stmt : Stmt) : Prop where
  grammar : stmt.InGrammar
  unlinked : ∀ id ∈ stmt.idents, id.link = none

structure Block.Fresh (block : Block) : Prop where
  grammar : block.InGrammar
  unlinked : ∀ id ∈ block.idents, id.link = none

/-! ## Identifiers -/

namespace Ident

theorem link_of_linkTo {id id' : Ident} {symbol : SymbolId} (h : id.linkTo symbol = .ok id') :
    id.link = none ∧ id'.link = some symbol := by
  unfold linkTo at h
  split at h
  · cases h
  · next hlink =>
      cases h
      exact ⟨hlink, rfl⟩

theorem resolve_quiet {id id' : Ident} {r r' : Resolver}
    (h : id.resolve r = .done (id', r') []) : id.link = none ∧ id'.link.isSome := by
  cases hlookup : r.table.lookup id.name with
  | none => simp [resolve, Resolve.bind_apply, Resolve.map_apply, hlookup] at h
  | some symbol =>
      simp only [resolve, Resolve.bind_apply, Resolve.get_apply, Reporting.done_bind_eq,
        Reporting.after_nil, hlookup, Resolve.liftM_eq_quiet_iff] at h
      have hlink := link_of_linkTo h.1
      exact ⟨hlink.1, by simp [hlink.2]⟩

theorem resolveField_quiet {id id' : Ident} {definition : SymbolId} {access : Access}
    {r r' : Resolver} (h : id.resolveField (some definition) r = .done ((id', access), r') []) :
    id.link = none ∧ ∃ definition?, access = .reached definition? := by
  simp only [resolveField, Resolve.bind_eq_quiet_iff, Resolve.get_apply, Reporting.done.injEq,
    Prod.mk.injEq, and_true, Resolve.liftM_eq_quiet_iff] at h
  obtain ⟨_, _, ⟨rfl, rfl⟩, struct, _, ⟨_, rfl⟩, h⟩ := h
  cases hfield : struct.fields?.bind (·.lookup id.name) with
  | none => simp [Resolve.map_apply, hfield] at h
  | some symbol =>
      simp only [hfield, Resolve.bind_eq_quiet_iff, Resolve.liftM_eq_quiet_iff,
        Resolve.pure_apply, Reporting.done.injEq, Prod.mk.injEq] at h
      obtain ⟨_, _, ⟨hlink, -⟩, _, _, _, _, _, _, ⟨⟨-, rfl⟩, -⟩, -⟩ := h
      exact ⟨(link_of_linkTo hlink).1, _, rfl⟩

end Ident

/-! ## Expressions -/

namespace Expr

theorem resolveBase_quiet {base base' : Expr} {definition? : Option SymbolId} {r r' : Resolver}
    (h : base.resolveBase r = .done ((base', definition?), r') []) :
    base.Fresh ∧ base.isLocation ∧ definition?.isSome := by
  induction base using Expr.induction generalizing base' definition? r r' with
  | name id =>
      simp only [resolveBase, Resolve.bind_eq_quiet_iff] at h
      obtain ⟨id', _, hid, h⟩ := h
      obtain ⟨hunlinked, hlinked⟩ := Ident.resolve_quiet hid
      obtain ⟨link, hlink⟩ := Option.isSome_iff_exists.mp hlinked
      simp only [hlink, Resolve.bind_eq_quiet_iff, Resolve.get_apply, Reporting.done.injEq,
        Prod.mk.injEq, and_true, Resolve.liftM_eq_quiet_iff] at h
      obtain ⟨_, _, _, symbol, _, _, h⟩ := h
      refine ⟨⟨by simp [InGrammar, nodes, isFormed], by simpa [idents] using hunlinked⟩, rfl, ?_⟩
      cases hdefinition : symbol.definition? with
      | none => simp [hdefinition, Resolve.map_apply] at h
      | some definition =>
          simp [hdefinition] at h
          simp [← h.1.2]
  | field base id ih =>
      simp only [resolveBase, Resolve.bind_eq_quiet_iff] at h
      obtain ⟨⟨_, base?⟩, _, hbase, ⟨id', access⟩, _, hid, h⟩ := h
      obtain ⟨hfresh, hlocation, hsome⟩ := ih hbase
      obtain ⟨definition, rfl⟩ := Option.isSome_iff_exists.mp hsome
      obtain ⟨hunlinked, reached?, rfl⟩ := Ident.resolveField_quiet hid
      refine ⟨⟨?_, ?_⟩, rfl, ?_⟩
      · simpa [InGrammar, nodes, isFormed, hlocation] using hfresh.grammar
      · simp only [idents, List.mem_append, List.mem_singleton]
        rintro other (hother | rfl)
        · exact hfresh.unlinked other hother
        · exact hunlinked
      · cases reached? with
        | none => simp [Resolve.map_apply] at h
        | some definition =>
            simp at h
            simp [← h.1.2]
  | int _ _ | str _ _ | bool _ _ | assign _ _ | call _ _ | unary _ _ | binary _ _ _ =>
      simp [resolveBase] at h

theorem requireLocation_quiet {e : Expr} {r r' : Resolver} {u : Unit}
    (h : e.requireLocation r = .done (u, r') []) : e.isLocation := by
  unfold requireLocation at h
  split at h
  · assumption
  · simp at h

theorem resolveAll_quiet {es es' : List Expr} {r r' : Resolver}
    (hes : ∀ e ∈ es, ∀ e' r r', e.resolve r = .done (e', r') [] → e.Fresh)
    (h : Expr.resolveAll es r = .done (es', r') []) : ∀ e ∈ es, e.Fresh := by
  induction es generalizing es' r r' with
  | nil => simp
  | cons e es ih =>
      simp only [Expr.resolveAll, Resolve.bind_eq_quiet_iff] at h
      obtain ⟨_, _, he, _, _, htail, -⟩ := h
      simp only [List.mem_cons, forall_eq_or_imp]
      exact ⟨hes e (by simp) _ _ _ he, ih (fun other hother => hes other (by simp [hother])) htail⟩

theorem fresh_call {callee : Ident} {args : List Expr} (hcallee : callee.link = none)
    (hargs : ∀ arg ∈ args, arg.Fresh) : (call callee args).Fresh where
  grammar := by
    intro node hnode
    simp only [nodes, nodesAll_eq_flatMap, List.mem_cons, List.mem_flatMap] at hnode
    rcases hnode with rfl | ⟨arg, harg, hnode⟩
    · rfl
    · exact (hargs arg harg).grammar node hnode
  unlinked := by
    intro id hid
    simp only [idents, identsAll_eq_flatMap, List.mem_cons, List.mem_flatMap] at hid
    rcases hid with rfl | ⟨arg, harg, hid⟩
    · exact hcallee
    · exact (hargs arg harg).unlinked id hid

theorem fresh_assign {target value : Expr} (hlocation : target.isLocation)
    (htarget : target.Fresh) (hvalue : value.Fresh) : (assign target value).Fresh where
  grammar := by
    intro node hnode
    simp only [nodes, List.mem_cons, List.mem_append] at hnode
    rcases hnode with rfl | hnode | hnode
    · exact hlocation
    · exact htarget.grammar node hnode
    · exact hvalue.grammar node hnode
  unlinked := by
    intro id hid
    rcases List.mem_append.mp hid with hid | hid
    · exact htarget.unlinked id hid
    · exact hvalue.unlinked id hid

theorem resolve_quiet {e e' : Expr} {r r' : Resolver} (h : e.resolve r = .done (e', r') []) :
    e.Fresh := by
  induction e using Expr.induction generalizing e' r r' with
  | int _ _ | str _ _ | bool _ _ =>
      exact ⟨by simp [InGrammar, nodes, isFormed], by simp [idents]⟩
  | name id =>
      simp only [resolve, Resolve.bind_eq_quiet_iff] at h
      obtain ⟨_, _, hid, -⟩ := h
      exact ⟨by simp [InGrammar, nodes, isFormed],
        by simpa [idents] using (Ident.resolve_quiet hid).1⟩
  | field base id _ =>
      simp only [resolve, Resolve.bind_eq_quiet_iff] at h
      obtain ⟨⟨_, base?⟩, _, hbase, ⟨id', access⟩, _, hid, -⟩ := h
      obtain ⟨hfresh, hlocation, hsome⟩ := resolveBase_quiet hbase
      obtain ⟨definition, rfl⟩ := Option.isSome_iff_exists.mp hsome
      refine ⟨?_, ?_⟩
      · simpa [InGrammar, nodes, isFormed, hlocation] using hfresh.grammar
      · simp only [idents, List.mem_append, List.mem_singleton]
        rintro other (hother | rfl)
        · exact hfresh.unlinked other hother
        · exact (Ident.resolveField_quiet hid).1
  | assign target value ihtarget ihvalue =>
      simp only [resolve, Resolve.bind_eq_quiet_iff] at h
      obtain ⟨_, _, hlocation, _, _, htarget, _, _, hvalue, -⟩ := h
      exact fresh_assign (requireLocation_quiet hlocation) (ihtarget htarget) (ihvalue hvalue)
  | call callee args ih =>
      simp only [resolve, Resolve.bind_eq_quiet_iff] at h
      obtain ⟨_, _, hcallee, _, _, hargs, -⟩ := h
      exact fresh_call (Ident.resolve_quiet hcallee).1
        (resolveAll_quiet (fun arg harg _ _ _ => ih arg harg) hargs)
  | unary op operand ih =>
      simp only [resolve, Resolve.bind_eq_quiet_iff] at h
      obtain ⟨_, _, hoperand, -⟩ := h
      exact ⟨by simpa [InGrammar, nodes, isFormed] using (ih hoperand).grammar,
        by simpa [idents] using (ih hoperand).unlinked⟩
  | binary op left right ihleft ihright =>
      simp only [resolve, Resolve.bind_eq_quiet_iff] at h
      obtain ⟨_, _, hleft, _, _, hright, -⟩ := h
      have hl := ihleft hleft
      have hr := ihright hright
      refine ⟨?_, ?_⟩
      · simp only [InGrammar, nodes, List.mem_cons, List.mem_append]
        rintro node (rfl | hnode | hnode)
        · rfl
        · exact hl.grammar node hnode
        · exact hr.grammar node hnode
      · simp only [idents, List.mem_append]
        rintro id (hid | hid)
        · exact hl.unlinked id hid
        · exact hr.unlinked id hid

theorem resolveTarget_quiet {target target' : Expr} {r r' : Resolver}
    (h : target.resolveTarget r = .done (target', r') []) :
    target.isLocation ∧ target.Fresh := by
  simp only [resolveTarget, Resolve.bind_eq_quiet_iff] at h
  obtain ⟨_, _, hlocation, htarget⟩ := h
  exact ⟨requireLocation_quiet hlocation, resolve_quiet htarget⟩

end Expr

/-! ## Declarations -/

namespace Resolve

theorem structName_quiet {id id' : Ident} {definition? : Option SymbolId} {r r' : Resolver}
    (h : structName id r = .done ((id', definition?), r') []) :
    id.link = none ∧ definition?.isSome := by
  simp only [structName, bind_eq_quiet_iff] at h
  obtain ⟨visible?, _, _, h⟩ := h
  cases visible? with
  | none => simp [map_apply] at h
  | some definition =>
      simp only [bind_eq_quiet_iff, liftM_eq_quiet_iff, pure_apply, Reporting.done.injEq,
        Prod.mk.injEq] at h
      obtain ⟨_, _, ⟨hlink, -⟩, ⟨⟨-, rfl⟩, -⟩, -⟩ := h
      exact ⟨(Ident.link_of_linkTo hlink).1, rfl⟩

theorem variableKind_quiet {decl : VarDecl} {type : TypeName} {kind? : Option SymbolKind}
    {r r' : Resolver} (h : variableKind decl r = .done ((type, kind?), r') []) :
    (∀ id ∈ decl.type.idents, id.link = none) ∧ kind?.isSome := by
  cases htype : decl.type with
  | int | bool =>
      simp only [variableKind, htype, pure_apply, Reporting.done.injEq, Prod.mk.injEq] at h
      simp [TypeName.idents, ← h.1.1.2]
  | void => simp [variableKind, htype, map_apply] at h
  | struct id =>
      simp only [variableKind, htype, bind_eq_quiet_iff, pure_apply, Reporting.done.injEq,
        Prod.mk.injEq] at h
      obtain ⟨_, _, hid, ⟨⟨-, rfl⟩, -⟩, -⟩ := h
      simpa [TypeName.idents] using structName_quiet hid

theorem declareInto_quiet {target : SymbolTable} {decl decl' : VarDecl} {offset : Int}
    {table? : Option SymbolTable} {r r' : Resolver}
    (h : declareInto target decl offset r = .done ((decl', table?), r') []) :
    ∀ id ∈ decl.idents, id.link = none := by
  simp only [declareInto, checkDecl, bind_eq_quiet_iff] at h
  obtain ⟨⟨type, kind?⟩, _, ⟨⟨type', kind'?⟩, _, hkind, hcheck⟩, h⟩ := h
  obtain ⟨htype, hsome⟩ := variableKind_quiet hkind
  cases htaken : (target.lookupInnermost decl.id.name).isSome with
  | true => simp [htaken, map_apply] at hcheck
  | false =>
      simp only [htaken, Bool.false_eq_true, if_false, pure_apply, Reporting.done.injEq,
        Prod.mk.injEq] at hcheck
      obtain ⟨⟨⟨rfl, rfl⟩, rfl⟩, -⟩ := hcheck
      obtain ⟨kind, rfl⟩ := Option.isSome_iff_exists.mp hsome
      simp only [bind_eq_quiet_iff, liftM_eq_quiet_iff] at h
      obtain ⟨_, _, -, _, _, -, _, _, ⟨hlink, -⟩, -⟩ := h
      simp only [VarDecl.idents, List.mem_append, List.mem_singleton]
      rintro id (hid | rfl)
      · exact htype id hid
      · exact (Ident.link_of_linkTo hlink).1

theorem declareVariable_quiet {decl decl' : VarDecl} {offset : Int} {accepted : Bool}
    {r r' : Resolver} (h : declareVariable decl offset r = .done ((decl', accepted), r') []) :
    ∀ id ∈ decl.idents, id.link = none := by
  simp only [declareVariable, bind_eq_quiet_iff] at h
  obtain ⟨_, _, -, _, _, hinto, -⟩ := h
  exact declareInto_quiet hinto

theorem declareInFrame_quiet {decl decl' : VarDecl} {accepted : Bool} {r r' : Resolver}
    (h : declareInFrame decl r = .done ((decl', accepted), r') []) :
    ∀ id ∈ decl.idents, id.link = none := by
  simp only [declareInFrame, bind_eq_quiet_iff] at h
  obtain ⟨_, _, -, _, _, hvariable, -⟩ := h
  exact declareVariable_quiet hvariable

theorem declareLocals_quiet {decls decls' : List VarDecl} {r r' : Resolver}
    (h : declareLocals decls r = .done (decls', r') []) :
    ∀ id ∈ decls.flatMap VarDecl.idents, id.link = none := by
  induction decls generalizing decls' r r' with
  | nil => simp
  | cons decl decls ih =>
      simp only [declareLocals, declareLocal, bind_eq_quiet_iff] at h
      obtain ⟨_, _, ⟨_, _, hdecl, -⟩, _, _, hdecls, -⟩ := h
      rw [List.flatMap_cons, List.forall_mem_append]
      exact ⟨declareInFrame_quiet hdecl, ih hdecls⟩

theorem declareFormals_quiet {decls : List VarDecl} {result : List VarDecl × List Ty}
    {r r' : Resolver} (h : declareFormals decls r = .done (result, r') []) :
    ∀ id ∈ decls.flatMap VarDecl.idents, id.link = none := by
  induction decls generalizing result r r' with
  | nil => simp
  | cons decl decls ih =>
      simp only [declareFormals, bind_eq_quiet_iff] at h
      obtain ⟨_, _, hdecl, _, _, hdecls, -⟩ := h
      rw [List.flatMap_cons, List.forall_mem_append]
      exact ⟨declareInFrame_quiet hdecl, ih hdecls⟩

theorem declareFields_quiet {fields : SymbolTable} {offset : Int} {decls : List VarDecl}
    {result : List VarDecl × SymbolTable} {r r' : Resolver}
    (h : declareFields fields offset decls r = .done (result, r') []) :
    ∀ id ∈ decls.flatMap VarDecl.idents, id.link = none := by
  induction decls generalizing fields offset result r r' with
  | nil => simp
  | cons decl decls ih =>
      simp only [declareFields, bind_eq_quiet_iff] at h
      obtain ⟨⟨_, fields?⟩, _, hdecl, h⟩ := h
      rw [List.flatMap_cons, List.forall_mem_append]
      refine ⟨declareInto_quiet hdecl, ?_⟩
      cases fields? with
      | none | some _ =>
          simp only [bind_eq_quiet_iff] at h
          obtain ⟨_, _, hdecls, -⟩ := h
          exact ih hdecls

theorem declareGlobal_quiet {id id' : Ident} {symbol : Symbol} {index? : Option SymbolId}
    {r r' : Resolver} (h : declareGlobal id false symbol r = .done ((id', index?), r') []) :
    id.link = none := by
  simp only [declareGlobal, bind_eq_quiet_iff, liftM_eq_quiet_iff, Bool.false_eq_true,
    if_false] at h
  obtain ⟨_, _, -, _, _, -, _, _, -, _, _, -, _, _, ⟨hlink, -⟩, -⟩ := h
  exact (Ident.link_of_linkTo hlink).1

theorem inScope_quiet {α : Type} {body : Resolve α} {a : α} {r r' : Resolver}
    (h : inScope body r = .done (a, r') []) : ∃ s s', body s = .done (a, s') [] := by
  simp only [inScope, bind_eq_quiet_iff] at h
  obtain ⟨_, s, -, result, s', hbody, outer, _, -, h⟩ := h
  cases hleave : outer.table.leave with
  | error error => simp [hleave] at h
  | ok table =>
      simp [hleave, map_apply] at h
      exact ⟨s, s', h.1 ▸ hbody⟩

end Resolve

/-! ## Statements -/

theorem Block.Fresh.of_parts {block : Block}
    (hdecls : ∀ id ∈ block.decls.flatMap VarDecl.idents, id.link = none)
    (hstmts : ∀ stmt ∈ block.stmts, stmt.Fresh) : block.Fresh where
  grammar stmt hstmt := (hstmts stmt hstmt).grammar
  unlinked := by
    rw [Block.idents_eq, List.forall_mem_append]
    refine ⟨hdecls, fun id hid => ?_⟩
    obtain ⟨stmt, hstmt, hid⟩ := List.mem_flatMap.mp hid
    exact (hstmts stmt hstmt).unlinked id hid

namespace Stmt

theorem resolveAll_quiet {stmts stmts' : List Stmt} {r r' : Resolver}
    (hstmts : ∀ stmt ∈ stmts, ∀ stmt' r r', stmt.resolve r = .done (stmt', r') [] → stmt.Fresh)
    (h : Stmt.resolveAll stmts r = .done (stmts', r') []) : ∀ stmt ∈ stmts, stmt.Fresh := by
  induction stmts generalizing stmts' r r' with
  | nil => simp
  | cons stmt stmts ih =>
      simp only [Stmt.resolveAll, Resolve.bind_eq_quiet_iff] at h
      obtain ⟨_, _, hstmt, _, _, htail, -⟩ := h
      simp only [List.mem_cons, forall_eq_or_imp]
      exact ⟨hstmts stmt (by simp) _ _ _ hstmt,
        ih (fun other hother => hstmts other (by simp [hother])) htail⟩

theorem block_quiet {block block' : Block} {r r' : Resolver}
    (hstmts : ∀ stmt ∈ block.stmts, ∀ stmt' r r', stmt.resolve r = .done (stmt', r') [] →
      stmt.Fresh)
    (h : block.resolve r = .done (block', r') []) : block.Fresh := by
  obtain ⟨decls, stmts⟩ := block
  simp only [Block.resolve, Resolve.bind_eq_quiet_iff] at h
  obtain ⟨_, _, hdecls, _, _, htail, -⟩ := h
  exact .of_parts (Resolve.declareLocals_quiet hdecls) (resolveAll_quiet hstmts htail)

theorem Fresh.of_exprs {stmt : Stmt} (hnodes : stmt.nodes = [stmt])
    (hidents : stmt.idents = stmt.exprs.flatMap Expr.idents) (hformed : stmt.isFormed)
    (hexprs : ∀ e ∈ stmt.exprs, e.Fresh) : stmt.Fresh where
  grammar := by
    rw [InGrammar, hnodes]
    intro node hnode
    obtain rfl := List.mem_singleton.mp hnode
    exact ⟨hformed, fun e he => (hexprs e he).grammar⟩
  unlinked := by
    rw [hidents]
    intro id hid
    obtain ⟨e, he, hid⟩ := List.mem_flatMap.mp hid
    exact (hexprs e he).unlinked id hid

theorem Fresh.of_block {stmt : Stmt} {cond : Expr} {body : Block}
    (hnodes : stmt.nodes = stmt :: body.nodes) (hidents : stmt.idents = cond.idents ++ body.idents)
    (hexprs : stmt.exprs = [cond]) (hformed : stmt.isFormed) (hcond : cond.Fresh)
    (hbody : body.Fresh) : stmt.Fresh where
  grammar := by
    rw [InGrammar, hnodes, List.forall_mem_cons, hexprs]
    refine ⟨⟨hformed, by simpa using hcond.grammar⟩, fun node hnode => ?_⟩
    rw [Block.nodes_eq] at hnode
    obtain ⟨other, hother, hnode⟩ := List.mem_flatMap.mp hnode
    exact hbody.grammar other hother node hnode
  unlinked := by
    rw [hidents, List.forall_mem_append]
    exact ⟨hcond.unlinked, hbody.unlinked⟩

theorem resolve_quiet {stmt stmt' : Stmt} {r r' : Resolver}
    (h : stmt.resolve r = .done (stmt', r') []) : stmt.Fresh := by
  induction stmt using Stmt.induction generalizing stmt' r r' with
  | assign target value =>
      simp only [resolve, Resolve.bind_eq_quiet_iff] at h
      obtain ⟨_, _, htarget, _, _, hvalue, -⟩ := h
      obtain ⟨hlocation, hfresh⟩ := Expr.resolveTarget_quiet htarget
      refine .of_exprs rfl (by simp [idents, exprs, Expr.idents]) rfl ?_
      simpa [exprs] using Expr.fresh_assign hlocation hfresh (Expr.resolve_quiet hvalue)
  | increment target | decrement target | read target =>
      simp only [resolve, Resolve.bind_eq_quiet_iff] at h
      obtain ⟨_, _, htarget, -⟩ := h
      obtain ⟨hlocation, hfresh⟩ := Expr.resolveTarget_quiet htarget
      exact .of_exprs rfl (by simp [idents, exprs]) hlocation (by simpa [exprs] using hfresh)
  | write value =>
      simp only [resolve, Resolve.bind_eq_quiet_iff] at h
      obtain ⟨_, _, hvalue, -⟩ := h
      exact .of_exprs rfl (by simp [idents, exprs]) rfl
        (by simpa [exprs] using Expr.resolve_quiet hvalue)
  | ifThen cond body ih | whileLoop cond body ih | repeatLoop cond body ih =>
      simp only [resolve, Resolve.bind_eq_quiet_iff] at h
      obtain ⟨_, _, hcond, _, _, hbody, -⟩ := h
      obtain ⟨_, _, hbody⟩ := Resolve.inScope_quiet hbody
      exact .of_block rfl rfl rfl rfl (Expr.resolve_quiet hcond)
        (block_quiet (fun stmt hstmt _ _ _ => ih stmt hstmt) hbody)
  | ifElse cond thenBody elseBody ihthen ihelse =>
      simp only [resolve, Resolve.bind_eq_quiet_iff] at h
      obtain ⟨_, _, hcond, _, _, hthen, _, _, helse, -⟩ := h
      obtain ⟨_, _, hthen⟩ := Resolve.inScope_quiet hthen
      obtain ⟨_, _, helse⟩ := Resolve.inScope_quiet helse
      have hcond := Expr.resolve_quiet hcond
      have hthen := block_quiet (fun stmt hstmt _ _ _ => ihthen stmt hstmt) hthen
      have helse := block_quiet (fun stmt hstmt _ _ _ => ihelse stmt hstmt) helse
      refine ⟨?_, ?_⟩
      · intro node hnode
        simp only [nodes, List.mem_cons, List.mem_append, Block.nodes_eq, List.mem_flatMap] at hnode
        rcases hnode with rfl | ⟨other, hother, hnode⟩ | ⟨other, hother, hnode⟩
        · exact ⟨rfl, by simpa [exprs] using hcond.grammar⟩
        · exact hthen.grammar other hother node hnode
        · exact helse.grammar other hother node hnode
      · simp only [idents, List.mem_append]
        rintro id ((hid | hid) | hid)
        · exact hcond.unlinked id hid
        · exact hthen.unlinked id hid
        · exact helse.unlinked id hid
  | call callee args =>
      simp only [resolve, Resolve.bind_eq_quiet_iff] at h
      obtain ⟨_, _, hcallee, _, _, hargs, -⟩ := h
      refine .of_exprs rfl (by simp [idents, exprs, Expr.idents]) rfl ?_
      simpa [exprs] using Expr.fresh_call (Ident.resolve_quiet hcallee).1
        (Expr.resolveAll_quiet (fun _ _ _ _ _ => Expr.resolve_quiet) hargs)
  | ret value? pos =>
      cases value? with
      | none => exact .of_exprs rfl rfl rfl (by simp [exprs])
      | some value =>
          simp only [resolve, Resolve.bind_eq_quiet_iff] at h
          obtain ⟨_, _, hvalue, -⟩ := h
          exact .of_exprs rfl (by simp [idents, exprs]) rfl
            (by simpa [exprs] using Expr.resolve_quiet hvalue)

end Stmt

theorem Block.resolve_quiet {block block' : Block} {r r' : Resolver}
    (h : block.resolve r = .done (block', r') []) : block.Fresh :=
  Stmt.block_quiet (fun _ _ _ _ _ => Stmt.resolve_quiet) h

/-! ## Programs -/

theorem TypeName.resolveReturn_quiet {type type' : TypeName} {r r' : Resolver}
    (h : type.resolveReturn r = .done (type', r') []) : ∀ id ∈ type.idents, id.link = none := by
  cases type with
  | int | bool | void => simp [idents]
  | struct id =>
      simp only [resolveReturn, Resolve.bind_eq_quiet_iff] at h
      obtain ⟨_, _, hid, -⟩ := h
      simpa [idents] using (Resolve.structName_quiet hid).1

theorem FnDecl.resolveFrame_quiet {fn : FnDecl} {result : FnDecl × List Ty} {r r' : Resolver}
    (h : fn.resolveFrame r = .done (result, r') []) :
    fn.body.Fresh ∧ ∀ id ∈ fn.formals.flatMap VarDecl.idents, id.link = none := by
  obtain ⟨_, _, h⟩ := Resolve.inScope_quiet h
  simp only [Resolve.bind_eq_quiet_iff] at h
  obtain ⟨_, _, -, _, _, hformals, _, _, -, _, _, hbody, -⟩ := h
  exact ⟨Block.resolve_quiet hbody, Resolve.declareFormals_quiet hformals⟩

theorem FnDecl.resolve_quiet {fn fn' : FnDecl} {r r' : Resolver}
    (h : fn.resolve r = .done (fn', r') []) :
    fn.body.InGrammar ∧ ∀ id ∈ fn.idents, id.link = none := by
  simp only [resolve, Resolve.bind_eq_quiet_iff] at h
  obtain ⟨type, _, htype, s, _, -, h⟩ := h
  cases htaken : (s.table.lookupInnermost fn.id.name).isSome with
  | true => simp [htaken, Resolve.bind_eq_quiet_iff] at h
  | false =>
      simp only [htaken, Resolve.bind_eq_quiet_iff, Bool.false_eq_true, if_false] at h
      obtain ⟨_, _, hid, _, _, hframe, -⟩ := h
      obtain ⟨hbody, hformals⟩ := resolveFrame_quiet hframe
      refine ⟨hbody.grammar, ?_⟩
      simp only [idents, List.forall_mem_append, List.forall_mem_singleton]
      exact ⟨⟨⟨TypeName.resolveReturn_quiet htype, Resolve.declareGlobal_quiet hid⟩, hformals⟩,
        hbody.unlinked⟩

theorem StructDecl.resolve_quiet {struct struct' : StructDecl} {r r' : Resolver}
    (h : struct.resolve r = .done (struct', r') []) : ∀ id ∈ struct.idents, id.link = none := by
  simp only [resolve, Resolve.bind_eq_quiet_iff] at h
  obtain ⟨s, _, -, h⟩ := h
  cases htaken : (s.table.lookupInnermost struct.id.name).isSome with
  | true => simp [htaken, Resolve.bind_eq_quiet_iff] at h
  | false =>
      simp only [htaken, Resolve.bind_eq_quiet_iff, Bool.false_eq_true, if_false] at h
      obtain ⟨_, _, hfields, _, _, hid, -⟩ := h
      rw [idents, List.forall_mem_cons]
      exact ⟨Resolve.declareGlobal_quiet hid, Resolve.declareFields_quiet hfields⟩

namespace Decl

theorem resolve_quiet {decl decl' : Decl} {r r' : Resolver}
    (h : decl.resolve r = .done (decl', r') []) :
    decl.InGrammar ∧ ∀ id ∈ decl.idents, id.link = none := by
  cases decl with
  | var decl =>
      simp only [resolve, Resolve.bind_eq_quiet_iff] at h
      obtain ⟨_, _, hdecl, -⟩ := h
      exact ⟨trivial, Resolve.declareVariable_quiet hdecl⟩
  | fn decl =>
      simp only [resolve, Resolve.bind_eq_quiet_iff] at h
      obtain ⟨_, _, hdecl, -⟩ := h
      exact FnDecl.resolve_quiet hdecl
  | struct decl =>
      simp only [resolve, Resolve.bind_eq_quiet_iff] at h
      obtain ⟨_, _, hdecl, -⟩ := h
      exact ⟨trivial, StructDecl.resolve_quiet hdecl⟩

theorem resolveAll_quiet {decls decls' : List Decl} {r r' : Resolver}
    (h : resolveAll decls r = .done (decls', r') []) :
    (∀ decl ∈ decls, decl.InGrammar) ∧ ∀ id ∈ decls.flatMap Decl.idents, id.link = none := by
  induction decls generalizing decls' r r' with
  | nil => simp
  | cons decl decls ih =>
      simp only [resolveAll, Resolve.bind_eq_quiet_iff] at h
      obtain ⟨_, _, hdecl, _, _, hdecls, -⟩ := h
      have hdecl := resolve_quiet hdecl
      have hdecls := ih hdecls
      rw [List.forall_mem_cons, List.flatMap_cons, List.forall_mem_append]
      exact ⟨⟨hdecl.1, hdecls.1⟩, hdecl.2, hdecls.2⟩

end Decl

/-- A program that resolves quietly was unlinked and in the grammar. -/
theorem Program.resolve_quiet {program : Program} {context : Context} {resolved : Resolved}
    (h : program.resolve context = .done resolved []) :
    program.InGrammar ∧ program.Unlinked := by
  rw [Program.resolve, Reporting.bind_eq_quiet_iff] at h
  obtain ⟨⟨decls, r⟩, hwalk, -⟩ := h
  obtain ⟨_, _, hdecls, -⟩ := Resolve.bind_eq_quiet_iff.mp hwalk
  obtain ⟨hgrammar, hunlinked⟩ := Decl.resolveAll_quiet hdecls
  exact ⟨fun fn hfn => hgrammar _ (Program.mem_functions.mp hfn), hunlinked⟩

end StackMips
