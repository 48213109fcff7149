import StackMips.Proofs.Resolution.StaticScope

/-!
# Reports account for missing links

Resolution reports about names exactly when it leaves an identifier unlinked: at each place where it
looks a name up or declares one, and hence in the whole program.  Whether there is an entry point is
a question of its own, asked once at the end.
-/

namespace StackMips

/-! ## Walks that link -/

/-- A relation between the ends of a walk, the declarations and the identifiers that the walk links,
and its reports.  It has to hold of single expressions and declarations, of two walks in a row, and
around a scope if it holds inside; then it holds of every walk through a body. -/
structure Resolver.IsLinking
    (P : Resolver → Resolver → List VarDecl → List Ident → List Diagnostic → Prop) : Prop where
  refl : ∀ r, P r r [] [] []
  append : ∀ {a b c decls decls' ids ids' reports reports'}, P a b decls ids reports →
    P b c decls' ids' reports' → P a c (decls ++ decls') (ids ++ ids') (reports ++ reports')
  expr : ∀ r (e : Expr), e.InGrammar → P r r [] (e.linked r).idents (e.reports r)
  declareLocal : ∀ r decl, P r (r.declareLocal decl) [decl.linked r r.table]
    (decl.linked r r.table).idents (decl.reports r r.table)
  backTo : ∀ {r r' decls ids reports}, P r.enter r' decls ids reports →
    P r (r'.backTo r) decls ids reports

namespace Resolver.IsLinking

variable {P : Resolver → Resolver → List VarDecl → List Ident → List Diagnostic → Prop}
  (hP : Resolver.IsLinking P)

include hP

theorem declareLocals (decls : List VarDecl) (r : Resolver) :
    P r (r.declareLocals decls) (VarDecl.linkedAll Resolver.declareLocal r decls)
      ((VarDecl.linkedAll Resolver.declareLocal r decls).flatMap VarDecl.idents)
      (VarDecl.reportsAll Resolver.declareLocal r decls) := by
  induction decls generalizing r with
  | nil => exact hP.refl r
  | cons decl decls ih => exact hP.append (hP.declareLocal r decl) (ih _)

theorem linkedAll_of {stmts : List Stmt}
    (h : ∀ stmt ∈ stmts, ∀ r,
      P r (stmt.after r) (stmt.linked r).locals (stmt.linked r).idents (stmt.reports r))
    (r : Resolver) :
    P r (Stmt.afterAll r stmts) ((Stmt.linkedAll r stmts).flatMap Stmt.locals)
      ((Stmt.linkedAll r stmts).flatMap Stmt.idents) (Stmt.reportsAll r stmts) := by
  induction stmts generalizing r with
  | nil => exact hP.refl r
  | cons stmt stmts ih =>
      exact hP.append (h stmt (by simp) r) (ih (fun other hother => h other (by simp [hother])) _)

theorem block_of {block : Block}
    (h : ∀ stmt ∈ block.stmts, ∀ r,
      P r (stmt.after r) (stmt.linked r).locals (stmt.linked r).idents (stmt.reports r))
    (r : Resolver) :
    P r (block.after r) (block.linked r).locals (block.linked r).idents (block.reports r) := by
  obtain ⟨decls, stmts⟩ := block
  rw [Block.locals_eq, Block.idents_eq]
  exact hP.append (hP.declareLocals decls r) (hP.linkedAll_of h _)

theorem stmt {stmt : Stmt} (hgrammar : stmt.InGrammar) (r : Resolver) :
    P r (stmt.after r) (stmt.linked r).locals (stmt.linked r).idents (stmt.reports r) := by
  induction stmt using Stmt.induction generalizing r with
  | assign target value =>
      exact hP.expr r (.assign target value) (hgrammar.exprs (by simp [Stmt.exprs]))
  | increment target | decrement target | read target | write target =>
      exact hP.expr r target (hgrammar.exprs (by simp [Stmt.exprs]))
  | call callee args =>
      exact hP.expr r (.call callee args) (hgrammar.exprs (by simp [Stmt.exprs]))
  | ret value? pos =>
      cases value? with
      | none => exact hP.refl r
      | some value => exact hP.expr r value (hgrammar.exprs (by simp [Stmt.exprs]))
  | ifThen cond body ih | whileLoop cond body ih | repeatLoop cond body ih =>
      have hbody := Block.InGrammar.of_nodes body hgrammar
        fun node hnode => by simp [Stmt.nodes, hnode]
      have hinside := hP.block_of (fun inner hinner => ih inner hinner (hbody inner hinner)) r.enter
      exact hP.append (hP.expr r cond (hgrammar.exprs (by simp [Stmt.exprs])))
        (hP.backTo hinside)
  | ifElse cond thenBody elseBody ihthen ihelse =>
      have hthen := Block.InGrammar.of_nodes thenBody hgrammar
        fun node hnode => by simp [Stmt.nodes, hnode]
      have helse := Block.InGrammar.of_nodes elseBody hgrammar
        fun node hnode => by simp [Stmt.nodes, hnode]
      have hinThen :=
        hP.block_of (fun inner hinner => ihthen inner hinner (hthen inner hinner)) r.enter
      have hinElse := hP.block_of (fun inner hinner => ihelse inner hinner (helse inner hinner))
        ((thenBody.after r.enter).backTo r).enter
      have hcond := hP.expr r cond (hgrammar.exprs (by simp [Stmt.exprs]))
      exact hP.append (hP.append hcond (hP.backTo hinThen)) (hP.backTo hinElse)

theorem block {block : Block} (hgrammar : block.InGrammar) (r : Resolver) :
    P r (block.after r) (block.linked r).locals (block.linked r).idents (block.reports r) :=
  hP.block_of (fun stmt hstmt => hP.stmt (hgrammar stmt hstmt)) r

end Resolver.IsLinking

/-! ## Accounts -/

/-- The reports about the links of some identifiers: there is one exactly if a link is missing, and
none is about the entry point. -/
structure Accounted (ids : List Ident) (reports : List Diagnostic) : Prop where
  quiet_iff : reports = [] ↔ ∀ id ∈ ids, id.link.isSome
  naming : ∀ report ∈ reports, report.code? ≠ some .noEntryPoint

namespace Accounted

theorem nil : Accounted [] [] := ⟨by simp, by simp⟩

theorem append {ids ids' : List Ident} {reports reports' : List Diagnostic}
    (h : Accounted ids reports) (h' : Accounted ids' reports') :
    Accounted (ids ++ ids') (reports ++ reports') where
  quiet_iff := by rw [List.append_eq_nil_iff, h.quiet_iff, h'.quiet_iff, List.forall_mem_append]
  naming := List.forall_mem_append.mpr ⟨h.naming, h'.naming⟩

theorem of_linked {ids : List Ident} (h : ∀ id ∈ ids, id.link.isSome) : Accounted ids [] :=
  ⟨by simpa using h, by simp⟩

theorem of_unlinked {ids : List Ident} {reports : List Diagnostic}
    (h : ∃ id ∈ ids, id.link = none) (hreports : reports ≠ [])
    (hnaming : ∀ report ∈ reports, report.code? ≠ some .noEntryPoint) : Accounted ids reports where
  quiet_iff := by
    obtain ⟨id, hid, hlink⟩ := h
    refine ⟨fun hquiet => absurd hquiet hreports, fun hlinked => ?_⟩
    simpa [hlink] using hlinked id hid
  naming := hnaming

theorem loud_iff {ids : List Ident} {reports : List Diagnostic} (h : Accounted ids reports) :
    reports ≠ [] ↔ ∃ id ∈ ids, id.link = none := by
  rw [ne_eq, h.quiet_iff]
  simp [Option.isSome_iff_ne_none]

theorem naming_optional (quiet : Bool) {code : Code} (hcode : code ≠ .noEntryPoint) (pos : Pos) :
    ∀ report ∈ (if quiet then [] else [Diagnostic.ofCode code pos]),
      report.code? ≠ some .noEntryPoint := by
  cases quiet <;> simp [hcode]

theorem single (id : Ident) {code : Code} (hcode : code ≠ .noEntryPoint) (pos : Pos) :
    Accounted [id] (if id.link.isSome then [] else [Diagnostic.ofCode code pos]) where
  quiet_iff := by simp [Option.isSome_iff_ne_none]
  naming := naming_optional id.link.isSome hcode pos

theorem flatMap {α : Type} {items : List α} {ids : α → List Ident} {reports : α → List Diagnostic}
    (h : ∀ item ∈ items, Accounted (ids item) (reports item)) :
    Accounted (items.flatMap ids) (items.flatMap reports) := by
  induction items with
  | nil => exact .nil
  | cons item items ih =>
      exact (h item (by simp)).append (ih fun other hother => h other (by simp [hother]))

end Accounted

/-! ## Expressions -/

namespace Expr

theorem naming_baseReports (r : Resolver) (e : Expr) :
    ∀ report ∈ e.baseReports r, report.code? ≠ some .noEntryPoint := by
  have hbase : ∀ (id : Ident) symbol?, ∀ report ∈ id.baseReports r symbol?,
      report.code? ≠ some .noEntryPoint := by
    intro id symbol?
    cases symbol? with
    | none => simp [Ident.baseReports]
    | some symbol => exact Accounted.naming_optional _ (by decide) id.pos
  induction e using Expr.induction with
  | name id =>
      exact List.forall_mem_append.mpr
        ⟨Accounted.naming_optional _ (by decide) id.pos, hbase _ _⟩
  | field base id ih =>
      refine List.forall_mem_append.mpr ⟨List.forall_mem_append.mpr ⟨ih, ?_⟩, hbase _ _⟩
      cases base.reached r with
      | none => simp [Ident.fieldReports]
      | some definition => exact Accounted.naming_optional _ (by decide) id.pos
  | int _ _ | str _ _ | bool _ _ | assign _ _ | call _ _ | unary _ _ | binary _ _ _ =>
      simp [baseReports]

theorem baseReports_of_reached {r : Resolver} {e : Expr} (h : (e.reached r).isSome) :
    e.baseReports r = [] := by
  induction e using Expr.induction with
  | name id =>
      obtain ⟨definition, hreached⟩ := Option.isSome_iff_exists.mp h
      obtain ⟨symbol, hlookup, hdefinition⟩ := Option.bind_eq_some_iff.mp hreached
      simp [baseReports, Ident.reports, Ident.baseReports, hlookup, hdefinition]
  | field base id ih =>
      obtain ⟨definition, hreached⟩ := Option.isSome_iff_exists.mp h
      obtain ⟨symbol, hfield, hdefinition⟩ := Option.bind_eq_some_iff.mp hreached
      obtain ⟨struct, hbase, hlookup⟩ := Option.bind_eq_some_iff.mp hfield
      simp [baseReports, Ident.fieldReports, Ident.baseReports, ih (by simp [hbase]), hbase,
        hlookup, hdefinition]
  | int _ _ | str _ _ | bool _ _ | assign _ _ | call _ _ | unary _ _ | binary _ _ _ => rfl

theorem accounted_linked {r : Resolver} {e : Expr} (hgrammar : e.InGrammar) :
    Accounted (e.linked r).idents (e.reports r) := by
  have hname : ∀ id : Ident, Accounted [id.linked r] (id.reports r) :=
    fun id => .single (id.linked r) (by decide) id.pos
  induction e using Expr.induction with
  | int _ _ | str _ _ | bool _ _ => exact .nil
  | name id => exact hname id
  | field base id _ =>
      cases hreached : base.reached r with
      | some definition =>
          have hquiet : base.baseReports r = [] := baseReports_of_reached (by simp [hreached])
          have hbase := (reached_of_quiet hgrammar.field.1 hgrammar.field.2 hquiet).2
          have hfield : Accounted [id.fieldLinked r (some definition)]
              (id.fieldReports r (some definition)) :=
            .single (id.fieldLinked r (some definition)) (by decide) id.pos
          simp only [linked, idents, reports, hreached, hquiet]
          exact (Accounted.of_linked hbase).append hfield
      | none =>
          -- the missing base is reported, and the field behind it has no link
          have hloud : base.baseReports r ≠ [] := fun hquiet => by
            have hsome := (reached_of_quiet hgrammar.field.1 hgrammar.field.2 hquiet).1
            simp [hreached] at hsome
          simp only [linked, idents, reports, hreached, Ident.fieldReports, List.append_nil]
          refine .of_unlinked ⟨id.fieldLinked r none, by simp, rfl⟩ hloud ?_
          exact naming_baseReports r base
  | assign target value ihtarget ihvalue =>
      exact (ihtarget hgrammar.assign.2.1).append (ihvalue hgrammar.assign.2.2)
  | call callee args ih =>
      have hargs := Accounted.flatMap fun arg harg => ih arg harg (hgrammar.call arg harg)
      simp only [linked, idents, reports, linkedAll_eq_map, identsAll_eq_flatMap,
        reportsAll_eq_flatMap, List.flatMap_map]
      exact (hname callee).append hargs
  | unary op operand ih => exact ih hgrammar.unary
  | binary op left right ihleft ihright =>
      exact (ihleft hgrammar.binary.1).append (ihright hgrammar.binary.2)

end Expr

/-! ## Declarations -/

theorem TypeName.accounted_linked (r : Resolver) (type : TypeName) :
    Accounted (type.linked r).idents (type.reports r) := by
  cases type with
  | int | bool | void => exact .nil
  | struct id => exact .single { id with link := r.struct? id.name } (by decide) id.pos

namespace VarDecl

theorem naming_reports (r : Resolver) (target : SymbolTable) (decl : VarDecl) :
    ∀ report ∈ decl.reports r target, report.code? ≠ some .noEntryPoint := by
  refine List.forall_mem_append.mpr ⟨?_, ?_⟩
  · cases hdecl : decl.type with
    | int | bool | struct id =>
        rw [typeReports, hdecl]
        exact (TypeName.accounted_linked r _).naming
    | void => simp [typeReports, hdecl]
  · split <;> simp

theorem type_of_kind? {r : Resolver} {decl : VarDecl} {kind : SymbolKind}
    (h : decl.kind? r = some kind) :
    decl.typeReports r = [] ∧ ∀ id ∈ (decl.type.linked r).idents, id.link.isSome := by
  rcases kind?_cases h with ⟨-, htype | htype⟩ | ⟨id, definition, htype, hstruct, -⟩
  · simp [typeReports, htype, TypeName.reports, TypeName.linked, TypeName.idents]
  · simp [typeReports, htype, TypeName.reports, TypeName.linked, TypeName.idents]
  · simp [typeReports, htype, TypeName.reports, TypeName.linked, TypeName.idents, hstruct]

/-- A rejected declaration has no link, whether its type or its name is at fault. -/
theorem accounted_linked (r : Resolver) (target : SymbolTable) (decl : VarDecl) :
    Accounted (decl.linked r target).idents (decl.reports r target) := by
  cases haccepted : decl.accepted? r target with
  | none =>
      have hlink : (decl.linked r target).id.link = none := by simp [linked, haccepted]
      refine .of_unlinked ⟨_, by simp [idents], hlink⟩ (fun hquiet => ?_)
        (decl.naming_reports r target)
      simpa [haccepted] using accepted_of_quiet hquiet
  | some kind =>
      have hfree := lookupInnermost_of_accepted? haccepted
      obtain ⟨hquiet, htype⟩ := type_of_kind? (kind?_of_accepted? haccepted)
      have hreports : decl.reports r target = [] := by simp [reports, hfree, hquiet]
      rw [hreports]
      exact .of_linked (List.forall_mem_append.mpr ⟨htype, by simp [linked, haccepted]⟩)

theorem accounted_linkedAll (declare : Resolver → VarDecl → Resolver) (r : Resolver)
    (decls : List VarDecl) :
    Accounted ((linkedAll declare r decls).flatMap idents) (reportsAll declare r decls) := by
  induction decls generalizing r with
  | nil => exact .nil
  | cons decl decls ih => exact (decl.accounted_linked r r.table).append (ih _)

end VarDecl

theorem Ident.accounted_global (id : Ident) (isTaken : Bool) (index : SymbolId) :
    Accounted [{ id with link := if isTaken then none else some index }]
      (if isTaken then [Diagnostic.ofCode .multiplyDeclared id.pos] else []) := by
  cases isTaken with
  | true => exact .of_unlinked (by simp) (by simp) (by simp)
  | false => exact .of_linked (by simp)

theorem Resolver.accounted_isLinking :
    IsLinking fun _ _ _ ids reports => Accounted ids reports where
  refl _ := .nil
  append := .append
  expr _ _ hgrammar := Expr.accounted_linked hgrammar
  declareLocal r decl := decl.accounted_linked r r.table
  backTo h := h

theorem FnDecl.accounted_linked {r : Resolver} {fn : FnDecl} (hgrammar : fn.body.InGrammar) :
    Accounted (fn.linked r).idents (fn.reports r) :=
  (((fn.returnType.accounted_linked r).append (fn.id.accounted_global (fn.isTaken r) _)).append
    (VarDecl.accounted_linkedAll _ _ fn.formals)).append
      (Resolver.accounted_isLinking.block hgrammar (fn.inside r))

namespace StructDecl

theorem accounted_fieldsLinked (r : Resolver) (table : SymbolTable) (offset : Int)
    (decls : List VarDecl) :
    Accounted ((fieldsLinked r table offset decls).flatMap VarDecl.idents)
      (fieldsReports r table offset decls) := by
  induction decls generalizing r table offset with
  | nil => exact .nil
  | cons decl decls ih =>
      rw [fieldsLinked, fieldsReports, List.flatMap_cons]
      cases decl.accepted? r table with
      | none => exact (decl.accounted_linked r table).append (ih _ _ _)
      | some kind => exact (decl.accounted_linked r table).append (ih _ _ _)

theorem accounted_linked (r : Resolver) (struct : StructDecl) :
    Accounted (struct.linked r).idents (struct.reports r) :=
  (struct.id.accounted_global (struct.isTaken r) _).append
    (accounted_fieldsLinked r {} 0 struct.fields)

end StructDecl

namespace Decl

theorem accounted_linked {r : Resolver} {decl : Decl} (hgrammar : decl.InGrammar) :
    Accounted (decl.linked r).idents (decl.reports r) := by
  cases decl with
  | var decl => exact decl.accounted_linked r r.table
  | fn decl => exact FnDecl.accounted_linked hgrammar
  | struct decl => exact decl.accounted_linked r

theorem accounted_linkedAll {decls : List Decl} (hgrammar : ∀ decl ∈ decls, decl.InGrammar)
    (r : Resolver) : Accounted ((linkedAll r decls).flatMap idents) (reportsAll r decls) := by
  induction decls generalizing r with
  | nil => exact .nil
  | cons decl decls ih =>
      exact (accounted_linked (hgrammar decl (by simp))).append
        (ih (fun other hother => hgrammar other (by simp [hother])) _)

end Decl

/-! ## Whole programs -/

def Resolved.HasEntryPoint (resolved : Resolved) (name : String) : Prop :=
  ∃ link symbol info, resolved.table.innermost.lookup name = some link ∧
    resolved.context.symbols.get? link = some symbol ∧ symbol.kind = .function info

namespace Program

variable {program : Program} {context : Context}

theorem hasFunction_iff : (program.after context).hasFunction context.options.entryPoint ↔
    (program.linked context).HasEntryPoint context.options.entryPoint := by
  have hglobal : (program.after context).table.lookup context.options.entryPoint =
      (program.linked context).table.innermost.lookup context.options.entryPoint := by
    simp [SymbolTable.lookup, SymbolTable.scopes, (program.binds_after context).1, linked]
  rw [Resolver.hasFunction, hglobal]
  constructor
  · intro hfunction
    obtain ⟨info, hinfo⟩ := Option.isSome_iff_exists.mp hfunction
    obtain ⟨symbol, hsymbol, hinfo⟩ := Option.bind_eq_some_iff.mp hinfo
    obtain ⟨link, hlink, hget⟩ := Option.bind_eq_some_iff.mp hsymbol
    exact ⟨link, symbol, info, hlink, hget, Symbol.function?_eq_some_iff.mp hinfo⟩
  · rintro ⟨link, symbol, info, hlink, hget, hkind⟩
    have hget : (program.after context).symbols.get? link = some symbol := hget
    simp [hlink, hget, Symbol.function?_eq_some_iff.mpr hkind]

/-- Resolution reports about names exactly if an identifier of the program is left without a link.
That there is no entry point is reported at the end, once, and exactly if the global scope, which is
the only one left, does not bind its name to a function. -/
theorem resolve_accounts (hcontext : context.symbols.Sound) (hgrammar : program.InGrammar)
    (hunlinked : program.Unlinked) :
    ∃ resolved naming entry, program.resolve context = .done resolved (naming ++ entry) ∧
      (∀ report ∈ naming, report.code? ≠ some .noEntryPoint) ∧
      (naming ≠ [] ↔ ∃ id ∈ resolved.program.idents, id.link = none) ∧
      resolved.table.enclosing = [] ∧
      (resolved.HasEntryPoint context.options.entryPoint ∧ entry = [] ∨
        ¬ resolved.HasEntryPoint context.options.entryPoint ∧
          entry = [Diagnostic.ofCode .noEntryPoint ⟨0, 0⟩]) := by
  have haccounted := Decl.accounted_linkedAll hgrammar.decl (Resolver.start context)
  refine ⟨_, _, _, resolve_eq hcontext hgrammar hunlinked, haccounted.naming,
    haccounted.loud_iff, (program.binds_after context).1, ?_⟩
  rw [← hasFunction_iff, Resolver.entryReports]
  cases (program.after context).hasFunction context.options.entryPoint with
  | true => exact .inl ⟨rfl, rfl⟩
  | false => exact .inr ⟨by simp, rfl⟩

/-- The entry point is a variable, a formal has no type, and one field does not exist. -/
def strays : Program where
  decls := [
    .var ⟨.int, ⟨"main", ⟨1, 5⟩, none⟩⟩,
    .struct ⟨⟨"Pair", ⟨2, 8⟩, none⟩, [⟨.int, ⟨"x", ⟨2, 19⟩, none⟩⟩]⟩,
    .fn ⟨.void, ⟨"swap", ⟨3, 6⟩, none⟩,
      [⟨.struct ⟨"Triple", ⟨3, 18⟩, none⟩, ⟨"t", ⟨3, 25⟩, none⟩⟩],
      ⟨[⟨.struct ⟨"Pair", ⟨4, 10⟩, none⟩, ⟨"p", ⟨4, 15⟩, none⟩⟩], [
        .assign (.field (.name ⟨"p", ⟨5, 3⟩, none⟩) ⟨"x", ⟨5, 5⟩, none⟩)
          (.field (.name ⟨"p", ⟨5, 9⟩, none⟩) ⟨"y", ⟨5, 11⟩, none⟩)]⟩⟩]

/-- The missing entry point is reported behind the missing links. -/
theorem resolve_strays_accounts : ∃ resolved naming, strays.resolve {} =
      .done resolved (naming ++ [Diagnostic.ofCode .noEntryPoint ⟨0, 0⟩]) ∧
    naming.length = 2 ∧ ∃ id ∈ resolved.program.idents, id.link = none := by
  have hresolve : strays.resolve {} =
      .done (strays.linked {}) (strays.resolutionReports {}) :=
    resolve_eq sound_empty (by decide) (by decide)
  obtain ⟨resolved, naming, entry, h, -, hnaming, -, hentry⟩ := resolve_accounts
    (show (Context.symbols {}).Sound from sound_empty)
    (show strays.InGrammar by decide) (by decide)
  obtain ⟨rfl, hreports⟩ := Reporting.done.inj (hresolve.symm.trans h)
  have hvariable : ¬ (strays.linked {}).HasEntryPoint "main" := by
    rintro ⟨link, symbol, info, hlookup, hget, hkind⟩
    obtain rfl : 0 = link := Option.some.inj hlookup
    obtain rfl := Option.some.inj hget
    cases hkind
  obtain ⟨-, rfl⟩ := hentry.resolve_left fun h => hvariable h.1
  have hlength : (strays.resolutionReports {}).length = 3 := by decide
  have hnames : naming.length = 2 := by
    rw [hreports, List.length_append] at hlength
    simpa using hlength
  exact ⟨_, _, h, hnames, hnaming.mp (by rintro rfl; cases hnames)⟩

end Program

end StackMips
