import StackMips.Proofs.Resolution.Soundness
import StackMips.Proofs.Run

/-!
# Resolution is total

On an unlinked tree in the grammar, and from a sound state, resolution never stops at a fault: it
computes what `StackMips.Proofs.Resolution.Linking` says.
-/

namespace StackMips

/-! ## Identifiers -/

namespace Ident

theorem linkTo_of_unlinked {id : Ident} (h : id.link = none) (symbol : SymbolId) :
    id.linkTo symbol = .ok { id with link := some symbol } := by
  simp [linkTo, h]

theorem with_link_none {id : Ident} (h : id.link = none) : { id with link := none } = id := by
  cases id
  simp_all

theorem resolve_apply {id : Ident} (r : Resolver) (h : id.link = none) :
    id.resolve r = .done (id.linked r, r) (id.reports r) := by
  cases hlookup : r.table.lookup id.name with
  | none =>
      simp [resolve, linked, reports, Resolve.bind_apply, Resolve.map_apply, hlookup,
        with_link_none h]
  | some symbol =>
      simp [resolve, linked, reports, Resolve.bind_apply, hlookup, linkTo_of_unlinked h]

end Ident

theorem Arena.fetch_of_get? {symbols : Arena} {id : SymbolId} {symbol : Symbol}
    (h : symbols.get? id = some symbol) : symbols.fetch id = .ok symbol :=
  Arena.fetch_eq_ok_iff.mpr h

theorem Arena.field?_knows {symbols : Arena} (h : symbols.Sound) {definition field : SymbolId}
    {name : String} (hfield : symbols.field? definition name = some field) :
    symbols.Knows name field := by
  obtain ⟨table, htable, hlookup⟩ := Option.bind_eq_some_iff.mp hfield
  obtain ⟨symbol, hsymbol, hfields⟩ := Option.bind_eq_some_iff.mp htable
  exact ((h _ _ hsymbol).fields _ hfields).knows_of_lookup hlookup

theorem Arena.fields?_of_definition? {symbols : Arena} (h : symbols.Sound)
    {id definition : SymbolId} (hid : symbols.definition? id = some definition) :
    (symbols.fields? definition).isSome := by
  obtain ⟨symbol, hsymbol, hdefinition⟩ := Option.bind_eq_some_iff.mp hid
  exact (h _ _ hsymbol).definition _ hdefinition

/-- How far an access gets from the definition that has been reached before. -/
def Ident.access (r : Resolver) (definition? : Option SymbolId) (id : Ident) : Access :=
  match definition?.bind (r.symbols.field? · id.name) with
  | none => .broken
  | some field => .reached (r.symbols.definition? field)

theorem Ident.resolveField_apply {r : Resolver} (hr : r.Sound) {id : Ident}
    (h : id.link = none) {definition? : Option SymbolId}
    (hdefinition : ∀ definition, definition? = some definition →
      (r.symbols.fields? definition).isSome) :
    id.resolveField definition? r =
      .done ((id.fieldLinked r definition?, id.access r definition?), r)
        (id.fieldReports r definition?) := by
  cases definition? with
  | none => simp [resolveField, fieldLinked, access, fieldReports, with_link_none h]
  | some definition =>
      obtain ⟨table, htable⟩ := Option.isSome_iff_exists.mp (hdefinition definition rfl)
      obtain ⟨struct, hstruct, hfields⟩ := Option.bind_eq_some_iff.mp htable
      have hfetch := Arena.fetch_of_get? hstruct
      have hfield : r.symbols.field? definition id.name = table.lookup id.name := by
        rw [Arena.field?, htable, Option.bind_some]
      cases hlookup : table.lookup id.name with
      | none =>
          simp [resolveField, fieldLinked, access, fieldReports, Resolve.bind_apply,
            Resolve.map_apply, hfetch, hfields, hfield, hlookup, with_link_none h]
      | some field =>
          obtain ⟨symbol, hsymbol, _⟩ := Arena.field?_knows hr.symbols (hfield.trans hlookup)
          simp [resolveField, fieldLinked, access, fieldReports, Resolve.bind_apply,
            Resolve.map_apply, hfetch, hfields, hfield, hlookup, linkTo_of_unlinked h,
            Arena.fetch_of_get? hsymbol, Arena.definition?, hsymbol]

/-! ## Expressions -/

namespace Expr

theorem reached_fields {r : Resolver} (hr : r.Sound) {e : Expr} {definition : SymbolId}
    (h : e.reached r = some definition) : (r.symbols.fields? definition).isSome := by
  cases e with
  | name id =>
      obtain ⟨_, _, h⟩ := Option.bind_eq_some_iff.mp h
      exact Arena.fields?_of_definition? hr.symbols h
  | field base id =>
      obtain ⟨_, _, h⟩ := Option.bind_eq_some_iff.mp h
      exact Arena.fields?_of_definition? hr.symbols h
  | int _ _ | str _ _ | bool _ _ | assign _ _ | call _ _ | unary _ _ | binary _ _ _ => cases h

theorem InGrammar.field {base : Expr} {id : Ident} (h : (field base id).InGrammar) :
    base.isLocation ∧ base.InGrammar :=
  ⟨h _ (self_mem_nodes _), fun node hnode => h node (List.mem_cons_of_mem _ hnode)⟩

theorem resolveBase_apply {r : Resolver} (hr : r.Sound) {base : Expr}
    (hlocation : base.isLocation) (hgrammar : base.InGrammar)
    (hunlinked : ∀ id ∈ base.idents, id.link = none) :
    base.resolveBase r = .done ((base.linked r, base.reached r), r) (base.baseReports r) := by
  induction base using Expr.induction with
  | name id =>
      have hid := Ident.resolve_apply r (hunlinked id (by simp [idents]))
      cases hlookup : r.table.lookup id.name with
      | none =>
          simp [resolveBase, linked, reached, baseReports, Resolve.bind_apply, hid,
            Ident.linked, Ident.baseReports, hlookup]
      | some symbol =>
          obtain ⟨target, htarget, _⟩ := hr.table.knows_of_lookup hlookup
          cases hdefinition : target.definition? <;>
            simp [resolveBase, linked, reached, baseReports, Resolve.bind_apply,
              Resolve.map_apply, hid, Ident.linked, Ident.baseReports, hlookup,
              Arena.fetch_of_get? htarget, Arena.definition?, htarget, hdefinition]
  | field base id ih =>
      have hbase := ih hgrammar.field.1 hgrammar.field.2
        (fun other hother => hunlinked other (by simp [idents, hother]))
      have hid := Ident.resolveField_apply hr (hunlinked id (by simp [idents]))
        (fun _ => reached_fields (e := base) hr)
      cases hfield : (base.reached r).bind (r.symbols.field? · id.name) with
      | none =>
          simp [resolveBase, linked, reached, baseReports, Resolve.bind_apply, hbase, hid,
            Ident.access, Ident.baseReports, hfield]
      | some symbol =>
          cases hdefinition : r.symbols.definition? symbol <;>
            simp [resolveBase, linked, reached, baseReports, Resolve.bind_apply,
              Resolve.map_apply, hbase, hid, Ident.access, Ident.fieldLinked, Ident.baseReports,
              hfield, hdefinition]
  | int _ _ | str _ _ | bool _ _ | assign _ _ | call _ _ | unary _ _ | binary _ _ _ =>
      cases hlocation

theorem requireLocation_apply {e : Expr} (h : e.isLocation) (r : Resolver) :
    e.requireLocation r = .done ((), r) [] := by
  rw [requireLocation, if_pos h]
  rfl

theorem resolveAll_apply {r : Resolver} {es : List Expr}
    (h : ∀ e ∈ es, e.resolve r = .done (e.linked r, r) (e.reports r)) :
    Expr.resolveAll es r = .done (Expr.linkedAll r es, r) (Expr.reportsAll r es) := by
  induction es with
  | nil => rfl
  | cons e es ih =>
      have hes := ih fun other hother => h other (by simp [hother])
      simp [Expr.resolveAll, Resolve.bind_apply, Resolve.map_apply, h e, hes]

theorem InGrammar.assign {target value : Expr} (h : (assign target value).InGrammar) :
    target.isLocation ∧ target.InGrammar ∧ value.InGrammar :=
  ⟨h _ (self_mem_nodes _), fun node hnode => h node (by simp [nodes, hnode]),
    fun node hnode => h node (by simp [nodes, hnode])⟩

theorem InGrammar.call {callee : Ident} {args : List Expr} (h : (call callee args).InGrammar) :
    ∀ arg ∈ args, arg.InGrammar :=
  fun arg harg node hnode => h node (by
    simp only [nodes, nodesAll_eq_flatMap, List.mem_cons, List.mem_flatMap]
    exact .inr ⟨arg, harg, hnode⟩)

theorem InGrammar.unary {op : UnaryOp} {operand : Expr} (h : (unary op operand).InGrammar) :
    operand.InGrammar :=
  fun node hnode => h node (by simp [nodes, hnode])

theorem InGrammar.binary {op : BinaryOp} {left right : Expr}
    (h : (binary op left right).InGrammar) : left.InGrammar ∧ right.InGrammar :=
  ⟨fun node hnode => h node (by simp [nodes, hnode]),
    fun node hnode => h node (by simp [nodes, hnode])⟩

theorem resolve_apply {r : Resolver} (hr : r.Sound) {e : Expr} (hgrammar : e.InGrammar)
    (hunlinked : ∀ id ∈ e.idents, id.link = none) :
    e.resolve r = .done (e.linked r, r) (e.reports r) := by
  induction e using Expr.induction with
  | int _ _ | str _ _ | bool _ _ => rfl
  | name id =>
      have hid := Ident.resolve_apply r (hunlinked id (by simp [idents]))
      simp [resolve, linked, reports, Resolve.map_apply, hid]
  | field base id _ =>
      have hbase := resolveBase_apply hr hgrammar.field.1 hgrammar.field.2
        (fun other hother => hunlinked other (by simp [idents, hother]))
      have hid := Ident.resolveField_apply hr (hunlinked id (by simp [idents]))
        (fun _ => reached_fields (e := base) hr)
      simp [resolve, linked, reports, Resolve.bind_apply, Resolve.map_apply, hbase, hid]
  | assign target value ihtarget ihvalue =>
      obtain ⟨hlocation, htarget, hvalue⟩ := hgrammar.assign
      have htarget := ihtarget htarget fun id hid => hunlinked id (by simp [idents, hid])
      have hvalue := ihvalue hvalue fun id hid => hunlinked id (by simp [idents, hid])
      simp [resolve, linked, reports, Resolve.bind_apply, Resolve.map_apply,
        requireLocation_apply hlocation, htarget, hvalue]
  | call callee args ih =>
      have hcallee := Ident.resolve_apply r (hunlinked callee (by simp [idents]))
      have hargs := resolveAll_apply fun arg harg => ih arg harg (hgrammar.call arg harg)
        fun id hid => hunlinked id (by
          simp only [idents, identsAll_eq_flatMap, List.mem_cons, List.mem_flatMap]
          exact .inr ⟨arg, harg, hid⟩)
      simp [resolve, linked, reports, Resolve.bind_apply, Resolve.map_apply, hcallee, hargs]
  | unary op operand ih =>
      have hoperand := ih hgrammar.unary fun id hid => hunlinked id (by simpa [idents] using hid)
      simp [resolve, linked, reports, Resolve.map_apply, hoperand]
  | binary op left right ihleft ihright =>
      have hleft := ihleft hgrammar.binary.1 fun id hid => hunlinked id (by simp [idents, hid])
      have hright := ihright hgrammar.binary.2 fun id hid => hunlinked id (by simp [idents, hid])
      simp [resolve, linked, reports, Resolve.bind_apply, Resolve.map_apply, hleft, hright]

theorem resolveTarget_apply {r : Resolver} (hr : r.Sound) {target : Expr}
    (hlocation : target.isLocation) (hgrammar : target.InGrammar)
    (hunlinked : ∀ id ∈ target.idents, id.link = none) :
    target.resolveTarget r = .done (target.linked r, r) (target.reports r) := by
  simp [resolveTarget, Resolve.bind_apply, requireLocation_apply hlocation,
    resolve_apply hr hgrammar hunlinked]

end Expr

/-! ## Declarations -/

@[simp] theorem TypeName.toTy_linked (r : Resolver) (type : TypeName) :
    (type.linked r).toTy = type.toTy := by
  cases type <;> rfl

namespace Resolve

theorem visibleStruct_apply {r : Resolver} (hr : r.Sound) (name : String) :
    visibleStruct name r = .done (r.struct? name, r) [] := by
  cases hlookup : r.table.lookup name with
  | none => simp [visibleStruct, Resolver.struct?, bind_apply, hlookup]
  | some symbol =>
      obtain ⟨target, htarget, _⟩ := hr.table.knows_of_lookup hlookup
      cases hfields : target.fields? <;>
        simp [visibleStruct, Resolver.struct?, bind_apply, map_apply, hlookup,
          Arena.fetch_of_get? htarget, Arena.fields?, htarget, hfields, Option.filter]

theorem structName_apply {r : Resolver} (hr : r.Sound) {id : Ident} (h : id.link = none) :
    structName id r =
      .done (({ id with link := r.struct? id.name }, r.struct? id.name), r)
        ((TypeName.struct id).reports r) := by
  cases hstruct : r.struct? id.name with
  | none =>
      simp [structName, TypeName.reports, bind_apply, map_apply, visibleStruct_apply hr, hstruct,
        Ident.with_link_none h]
  | some definition =>
      simp [structName, TypeName.reports, bind_apply, map_apply, visibleStruct_apply hr, hstruct,
        Ident.linkTo_of_unlinked h]

theorem variableKind_apply {r : Resolver} (hr : r.Sound) (decl : VarDecl)
    (h : ∀ id ∈ decl.type.idents, id.link = none) :
    variableKind decl r = .done ((decl.type.linked r, decl.kind? r), r) (decl.typeReports r) := by
  cases htype : decl.type with
  | int | bool | void =>
      simp [variableKind, VarDecl.kind?, VarDecl.typeReports, TypeName.linked, TypeName.reports,
        bind_apply, htype]
  | struct id =>
      have hid := structName_apply hr (h id (by simp [htype, TypeName.idents]))
      simp [variableKind, VarDecl.kind?, VarDecl.typeReports, TypeName.linked, bind_apply,
        htype, hid]

def declared (r : Resolver) (target : SymbolTable) (decl : VarDecl) (offset : Int) : Resolver :=
  match decl.accepted? r target with
  | none => r
  | some kind => r.allocate (decl.symbol offset kind)

theorem declareInto_apply {r : Resolver} (hr : r.Sound) (target : SymbolTable) {decl : VarDecl}
    (h : ∀ id ∈ decl.idents, id.link = none) (offset : Int) :
    declareInto target decl offset r =
      .done ((decl.linked r target,
          (decl.accepted? r target).map fun _ => target.extend decl.id.name r.symbols.size),
        declared r target decl offset) (decl.reports r target) := by
  have hid : decl.id.link = none := h decl.id (by simp [VarDecl.idents])
  have hkind := variableKind_apply hr decl fun id hmem =>
    h id (by simp [VarDecl.idents, hmem])
  cases htaken : target.lookupInnermost decl.id.name with
  | some symbol =>
      simp [declareInto, checkDecl, declared, VarDecl.linked, VarDecl.accepted?, VarDecl.reports,
        bind_apply, map_apply, hkind, htaken, Ident.with_link_none hid]
  | none =>
      have hdeclare := SymbolTable.declare_of_free r.symbols.size htaken
      cases hk : decl.kind? r with
      | none =>
          simp [declareInto, checkDecl, declared, VarDecl.linked, VarDecl.accepted?,
            VarDecl.reports, bind_apply, hkind, htaken, hk, Ident.with_link_none hid]
      | some kind =>
          simp [declareInto, checkDecl, declared, VarDecl.linked, VarDecl.accepted?,
            VarDecl.reports, bind_apply, map_apply, hkind, htaken, hk, allocate, insertInto,
            hdeclare, Ident.linkTo_of_unlinked hid, Resolver.allocate, VarDecl.symbol]

def declaredHere (r : Resolver) (decl : VarDecl) (offset : Int) : Resolver :=
  match decl.accepted? r r.table with
  | none => r
  | some kind => r.accept (decl.symbol offset kind)

theorem declareVariable_apply {r : Resolver} (hr : r.Sound) {decl : VarDecl}
    (h : ∀ id ∈ decl.idents, id.link = none) (offset : Int) :
    declareVariable decl offset r =
      .done ((decl.linked r r.table, (decl.accepted? r r.table).isSome),
        declaredHere r decl offset) (decl.reports r r.table) := by
  have hinto := declareInto_apply hr r.table h offset
  cases hk : decl.accepted? r r.table <;>
    simp [declareVariable, declared, declaredHere, bind_apply, map_apply, hinto, hk,
      Resolver.accept, VarDecl.symbol]

theorem declareInFrame_apply {r : Resolver} (hr : r.Sound) (decl : VarDecl)
    (h : ∀ id ∈ decl.idents, id.link = none) :
    declareInFrame decl r =
      .done ((decl.linked r r.table, (decl.accepted? r r.table).isSome), r.declareFormal decl)
        (decl.reports r r.table) := by
  have hvar := declareVariable_apply hr h r.frameOffset
  cases hk : decl.accepted? r r.table <;>
    simp [declareInFrame, declaredHere, Resolver.declareFormal, bind_apply, map_apply, hvar, hk,
      Resolver.accept, Resolver.allocate]

theorem declareLocal_apply {r : Resolver} (hr : r.Sound) (decl : VarDecl)
    (h : ∀ id ∈ decl.idents, id.link = none) :
    declareLocal decl r =
      .done (decl.linked r r.table, r.declareLocal decl) (decl.reports r r.table) := by
  have hframe := declareInFrame_apply hr decl h
  cases hk : decl.accepted? r r.table <;>
    simp [declareLocal, Resolver.declareFormal, Resolver.declareLocal, bind_apply, map_apply,
      hframe, hk, Resolver.accept, Resolver.allocate]

theorem declareLocals_apply {r : Resolver} (hr : r.Sound) {decls : List VarDecl}
    (h : ∀ id ∈ decls.flatMap VarDecl.idents, id.link = none) :
    declareLocals decls r =
      .done (VarDecl.linkedAll Resolver.declareLocal r decls, r.declareLocals decls)
        (VarDecl.reportsAll Resolver.declareLocal r decls) := by
  induction decls generalizing r with
  | nil => rfl
  | cons decl decls ih =>
      have hdecl := declareLocal_apply hr decl fun id hid => h id (by simp [hid])
      have hdecls := ih ((r.grows_declareLocal decl).sound hr) fun id hid => h id (by
        rw [List.flatMap_cons, List.mem_append]
        exact .inr hid)
      simp [declareLocals, VarDecl.linkedAll, VarDecl.reportsAll, Resolver.declareLocals,
        bind_apply, map_apply, hdecl, hdecls]

theorem inScope_apply {α : Type} {body : Resolve α} {r r' : Resolver} {a : α}
    {reports : List Diagnostic} (h : body r.enter = .done (a, r') reports)
    (henclosing : r'.table.enclosing = r.table.scopes) :
    inScope body r = .done (a, r'.backTo r) reports := by
  have hleave : r'.table.leave = .ok r.table := by
    rw [SymbolTable.leave, henclosing]
    rfl
  have henter : body { r with table := r.table.enter } = .done (a, r') reports := h
  simp [inScope, bind_apply, map_apply, henter, hleave, Resolver.backTo]

end Resolve

/-! ## Statements -/

theorem Block.InGrammar.of_nodes {stmt : Stmt} (block : Block) (h : stmt.InGrammar)
    (hblock : block.nodes ⊆ stmt.nodes) : block.InGrammar := by
  intro inner hinner node hnode
  refine h node (hblock ?_)
  rw [Block.nodes_eq, List.mem_flatMap]
  exact ⟨inner, hinner, hnode⟩

theorem Block.InGrammar.allExprs {block : Block} (h : block.InGrammar) :
    ∀ e ∈ block.allExprs, e.InGrammar := by
  intro e he
  obtain ⟨node, hnode, he⟩ := List.mem_flatMap.mp he
  rw [Block.nodes_eq] at hnode
  obtain ⟨stmt, hstmt, hnode⟩ := List.mem_flatMap.mp hnode
  exact (h stmt hstmt node hnode).2 e he

theorem Stmt.InGrammar.exprs {stmt : Stmt} (h : stmt.InGrammar) {e : Expr}
    (he : e ∈ stmt.exprs) : e.InGrammar :=
  (h stmt stmt.self_mem_nodes).2 e he

theorem Stmt.InGrammar.isFormed {stmt : Stmt} (h : stmt.InGrammar) : stmt.isFormed :=
  (h stmt stmt.self_mem_nodes).1

theorem Stmt.resolveAll_apply {r : Resolver} (hr : r.Sound) {stmts : List Stmt}
    (h : ∀ stmt ∈ stmts, ∀ r : Resolver, r.Sound →
      stmt.resolve r = .done (stmt.linked r, stmt.after r) (stmt.reports r)) :
    Stmt.resolveAll stmts r =
      .done (Stmt.linkedAll r stmts, Stmt.afterAll r stmts) (Stmt.reportsAll r stmts) := by
  induction stmts generalizing r with
  | nil => rfl
  | cons stmt stmts ih =>
      have hstmt := h stmt (by simp) r hr
      have hstmts := ih ((Resolver.grows_isWalk.stmt stmt r).sound hr)
        fun other hother => h other (by simp [hother])
      simp [Stmt.resolveAll, Stmt.linkedAll, Stmt.afterAll, Stmt.reportsAll, Resolve.bind_apply,
        Resolve.map_apply, hstmt, hstmts]

theorem Block.resolve_apply_of {r : Resolver} (hr : r.Sound) {block : Block}
    (hdecls : ∀ id ∈ block.decls.flatMap VarDecl.idents, id.link = none)
    (h : ∀ stmt ∈ block.stmts, ∀ r : Resolver, r.Sound →
      stmt.resolve r = .done (stmt.linked r, stmt.after r) (stmt.reports r)) :
    block.resolve r = .done (block.linked r, block.after r) (block.reports r) := by
  obtain ⟨decls, stmts⟩ := block
  have hlocals := Resolve.declareLocals_apply hr hdecls
  have hstmts := Stmt.resolveAll_apply ((Resolver.grows_isWalk.declareLocals decls r).sound hr) h
  simp [Block.resolve, Block.linked, Block.after, Block.reports, Resolve.bind_apply,
    Resolve.map_apply, hlocals, hstmts]

theorem Block.resolve_inScope_of {r : Resolver} (hr : r.Sound) {block : Block}
    (hdecls : ∀ id ∈ block.decls.flatMap VarDecl.idents, id.link = none)
    (h : ∀ stmt ∈ block.stmts, ∀ r : Resolver, r.Sound →
      stmt.resolve r = .done (stmt.linked r, stmt.after r) (stmt.reports r)) :
    Resolve.inScope block.resolve r =
      .done (block.linked r.enter, (block.after r.enter).backTo r) (block.reports r.enter) :=
  Resolve.inScope_apply (Block.resolve_apply_of hr.enter hdecls h)
    (Resolver.grows_isWalk.block block r.enter).enclosing

theorem Block.unlinked_iff {block : Block} :
    (∀ id ∈ block.idents, id.link = none) ↔
      (∀ id ∈ block.decls.flatMap VarDecl.idents, id.link = none) ∧
        ∀ stmt ∈ block.stmts, ∀ id ∈ stmt.idents, id.link = none := by
  simp only [Block.idents_eq, List.forall_mem_append, List.forall_mem_flatMap]

theorem Stmt.resolve_apply {r : Resolver} (hr : r.Sound) {stmt : Stmt}
    (hgrammar : stmt.InGrammar) (hunlinked : ∀ id ∈ stmt.idents, id.link = none) :
    stmt.resolve r = .done (stmt.linked r, stmt.after r) (stmt.reports r) := by
  induction stmt using Stmt.induction generalizing r with
  | assign target value =>
      obtain ⟨hlocation, htarget, hvalue⟩ :=
        (hgrammar.exprs (e := .assign target value) (by simp [exprs])).assign
      have htarget := Expr.resolveTarget_apply hr hlocation htarget
        fun id hid => hunlinked id (by simp [idents, hid])
      have hvalue := Expr.resolve_apply hr hvalue
        fun id hid => hunlinked id (by simp [idents, hid])
      simp [Stmt.resolve, Stmt.linked, Stmt.after, Stmt.reports, Resolve.bind_apply,
        Resolve.map_apply, htarget, hvalue]
  | increment target | decrement target | read target =>
      have htarget := Expr.resolveTarget_apply hr hgrammar.isFormed
        (hgrammar.exprs (e := target) (by simp [exprs]))
        fun id hid => hunlinked id (by simpa [idents] using hid)
      simp [Stmt.resolve, Stmt.linked, Stmt.after, Stmt.reports, Resolve.map_apply, htarget]
  | write value =>
      have hvalue := Expr.resolve_apply hr (hgrammar.exprs (e := value) (by simp [exprs]))
        fun id hid => hunlinked id (by simpa [idents] using hid)
      simp [Stmt.resolve, Stmt.linked, Stmt.after, Stmt.reports, Resolve.map_apply, hvalue]
  | ifThen cond body ih | whileLoop cond body ih | repeatLoop cond body ih =>
      have hcond := Expr.resolve_apply hr (hgrammar.exprs (e := cond) (by simp [exprs]))
        fun id hid => hunlinked id (by simp [idents, hid])
      have hgrammar := Block.InGrammar.of_nodes body hgrammar
        fun node hnode => by simp [nodes, hnode]
      obtain ⟨hdecls, hstmts⟩ := Block.unlinked_iff.mp
        fun id (hid : id ∈ body.idents) => hunlinked id (by simp [idents, hid])
      have hbody := Block.resolve_inScope_of hr hdecls
        fun inner hinner r hr => ih inner hinner hr (hgrammar inner hinner) (hstmts inner hinner)
      simp [Stmt.resolve, Stmt.linked, Stmt.after, Stmt.reports, Resolve.bind_apply,
        Resolve.map_apply, hcond, hbody]
  | ifElse cond thenBody elseBody ihthen ihelse =>
      have hcond := Expr.resolve_apply hr (hgrammar.exprs (e := cond) (by simp [exprs]))
        fun id hid => hunlinked id (by simp [idents, hid])
      have hthenGrammar := Block.InGrammar.of_nodes thenBody hgrammar
        fun node hnode => by simp [nodes, hnode]
      have helseGrammar := Block.InGrammar.of_nodes elseBody hgrammar
        fun node hnode => by simp [nodes, hnode]
      obtain ⟨hthenDecls, hthenStmts⟩ := Block.unlinked_iff.mp
        fun id (hid : id ∈ thenBody.idents) => hunlinked id (by simp [idents, hid])
      obtain ⟨helseDecls, helseStmts⟩ := Block.unlinked_iff.mp
        fun id (hid : id ∈ elseBody.idents) => hunlinked id (by simp [idents, hid])
      have hthen := Block.resolve_inScope_of hr hthenDecls fun inner hinner r hr =>
        ihthen inner hinner hr (hthenGrammar inner hinner) (hthenStmts inner hinner)
      have hmid := (Resolver.grows_isWalk.block thenBody r.enter).backTo.sound hr
      have helse := Block.resolve_inScope_of hmid helseDecls fun inner hinner r hr =>
        ihelse inner hinner hr (helseGrammar inner hinner) (helseStmts inner hinner)
      simp [Stmt.resolve, Stmt.linked, Stmt.after, Stmt.reports, Resolve.bind_apply,
        Resolve.map_apply, hcond, hthen, helse]
      rfl
  | call callee args =>
      have hcallee := Ident.resolve_apply r (hunlinked callee (by simp [idents]))
      have hgrammar := (hgrammar.exprs (e := .call callee args) (by simp [exprs])).call
      have hargs := Expr.resolveAll_apply fun arg harg =>
        Expr.resolve_apply hr (hgrammar arg harg) fun id hid => hunlinked id (by
          simp only [idents, Expr.identsAll_eq_flatMap, List.mem_cons, List.mem_flatMap]
          exact .inr ⟨arg, harg, hid⟩)
      simp [Stmt.resolve, Stmt.linked, Stmt.after, Stmt.reports, Resolve.bind_apply,
        Resolve.map_apply, hcallee, hargs]
  | ret value? pos =>
      cases value? with
      | none => rfl
      | some value =>
          have hvalue := Expr.resolve_apply hr (hgrammar.exprs (e := value) (by simp [exprs]))
            fun id hid => hunlinked id (by simpa [idents] using hid)
          simp [Stmt.resolve, Stmt.linked, Stmt.after, Stmt.reports, Resolve.map_apply, hvalue]

theorem Block.resolve_apply {r : Resolver} (hr : r.Sound) {block : Block}
    (hgrammar : block.InGrammar) (hunlinked : ∀ id ∈ block.idents, id.link = none) :
    block.resolve r = .done (block.linked r, block.after r) (block.reports r) := by
  obtain ⟨hdecls, hstmts⟩ := Block.unlinked_iff.mp hunlinked
  exact Block.resolve_apply_of hr hdecls fun stmt hstmt r hr =>
    Stmt.resolve_apply hr (hgrammar stmt hstmt) (hstmts stmt hstmt)

end StackMips
