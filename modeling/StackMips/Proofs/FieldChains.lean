import Mathlib.Data.List.Chain
import Mathlib.Data.List.Induction
import StackMips.Proofs.Resolution.Declared

/-!
# Chains of field accesses

A chain of field accesses is followed from the left, through the struct definitions that it reaches.
It is linked up to the first element that has no place to go on from, and only that element is
reported.
-/

namespace StackMips

/-! ## States of the resolver -/

/-- The states in which an expression can be resolved: those that declarations, scopes and frames
lead to. -/
inductive Resolver.Reachable : Resolver → Prop where
  | start (context : Context) (h : context.symbols = {}) : Reachable (Resolver.start context)
  /-- Another program is resolved in the same context. -/
  | restart {r : Resolver} (hr : Reachable r) : Reachable { r with table := {} }
  | decl {r r' : Resolver} {decl resolved : Decl} {reports : List Diagnostic} (hr : Reachable r)
      (hgrammar : decl.InGrammar) (hunlinked : ∀ id ∈ decl.idents, id.link = none)
      (h : decl.resolve r = .done (resolved, r') reports) : Reachable r'
  /-- The name of a function is declared before its frame. -/
  | name {r r' : Resolver} {id id' : Ident} {index? : Option SymbolId} {reports : List Diagnostic}
      {returnType : Ty} {arity : Nat} (hr : Reachable r) (hunlinked : id.link = none)
      (h : Resolve.declareGlobal id (r.table.lookupInnermost id.name).isSome
        (Symbol.ofFunction id.name returnType arity id.pos) r = .done ((id', index?), r') reports) :
      Reachable r'
  | enter {r : Resolver} (hr : Reachable r) : Reachable { r with table := r.table.enter }
  | leave {r : Resolver} {table : SymbolTable} (hr : Reachable r)
      (h : r.table.leave = .ok table) : Reachable { r with table }
  | frame {r : Resolver} (hr : Reachable r) (frameOffset : Int) (localWords : Nat) :
      Reachable { r with frameOffset, localWords }
  /-- A formal or a local is declared. -/
  | declare {r r' : Resolver} {decl decl' : VarDecl} {accepted : Bool}
      {reports : List Diagnostic} (hr : Reachable r)
      (hunlinked : ∀ id ∈ decl.idents, id.link = none)
      (h : Resolve.declareInFrame decl r = .done ((decl', accepted), r') reports) : Reachable r'

theorem SymbolTable.Sound.leave {symbols : Arena} {table outer : SymbolTable}
    (h : table.Sound symbols) (hleave : table.leave = .ok outer) : outer.Sound symbols := by
  rcases table with ⟨innermost, _ | ⟨scope, scopes⟩⟩
  · cases hleave
  · cases hleave
    exact fun other hother => h other (List.mem_cons_of_mem _ hother)

theorem Resolver.Reachable.sound {r : Resolver} (h : r.Reachable) : r.Sound := by
  induction h with
  | start context h => exact start_sound (h ▸ Program.sound_empty)
  | restart _ ih => exact ⟨ih.symbols, SymbolTable.sound_empty _⟩
  | decl _ hgrammar hunlinked h ih =>
      rw [Decl.resolve_apply ih hgrammar hunlinked] at h
      cases h
      exact (Decl.grows_after _ _).sound ih
  | @name r r' id id' index? reports returnType arity _ hunlinked h ih =>
      rw [Resolve.declareGlobal_apply r hunlinked _ rfl] at h
      split at h
      · cases h
        exact ih
      · cases h
        exact ih.accept ⟨by rintro _ ⟨⟩, by rintro _ ⟨⟩⟩
  | enter _ ih => exact ih.enter
  | leave _ h ih => exact ⟨ih.symbols, ih.table.leave h⟩
  | frame _ _ _ ih => exact ⟨ih.symbols, ih.table⟩
  | declare _ hunlinked h ih =>
      rw [Resolve.declareInFrame_apply ih _ hunlinked] at h
      cases h
      exact (Resolver.grows_declareFormal _ _).sound ih

theorem Resolver.Reachable.decls {r : Resolver} (hr : r.Reachable) {decls : List Decl}
    (hgrammar : ∀ decl ∈ decls, decl.InGrammar)
    (hunlinked : ∀ decl ∈ decls, ∀ id ∈ decl.idents, id.link = none) :
    (Decl.afterAll r decls).Reachable := by
  induction decls generalizing r with
  | nil => exact hr
  | cons decl decls ih =>
      rw [List.forall_mem_cons] at hgrammar hunlinked
      have hdecl := Decl.resolve_apply hr.sound hgrammar.1 hunlinked.1
      exact ih (.decl hr hgrammar.1 hunlinked.1 hdecl) hgrammar.2 hunlinked.2

/-! ## Chains -/

/-- A field is linked to the symbol of its name in the field table of the struct definition that
the element before it is an instance of. -/
def Arena.Selects (symbols : Arena) (previous field : Ident) : Prop :=
  ∃ link definition symbol, previous.link = some link ∧
    symbols.definition? link = some definition ∧
    symbols.field? definition field.name = some symbol ∧
    symbols.Knows field.name symbol ∧ field.link = some symbol

/-- Why a chain that is linked up to some element goes no further, and what is reported: the base
is not declared, the last linked element is not a struct, or its struct has no field of the next
name. -/
inductive Arena.Breaks (symbols : Arena) (base : Ident) (linked rest : List Ident) :
    Diagnostic → Prop where
  | undeclared (hlinked : linked = []) (hlink : base.link = none) :
      Breaks symbols base linked rest (Diagnostic.ofCode .undeclared base.pos)
  | notStruct {last : Ident} {link : SymbolId} (hlast : last = linked.getLast?.getD base)
      (hlink : last.link = some link) (hdefinition : symbols.definition? link = none) :
      Breaks symbols base linked rest (Diagnostic.ofCode .fieldOfNonStruct last.pos)
  | unknownField {last next : Ident} {link definition : SymbolId}
      (hlast : last = linked.getLast?.getD base) (hlink : last.link = some link)
      (hdefinition : symbols.definition? link = some definition) (hnext : rest.head? = some next)
      (hfield : symbols.field? definition next.name = none) :
      Breaks symbols base linked rest (Diagnostic.ofCode .unknownField next.pos)

theorem Arena.Breaks.append {symbols : Arena} {base : Ident} {linked rest : List Ident}
    {report : Diagnostic} (h : symbols.Breaks base linked rest report) (id : Ident) :
    symbols.Breaks base linked (rest ++ [id]) report := by
  cases h with
  | undeclared hlinked hlink => exact .undeclared hlinked hlink
  | notStruct hlast hlink hdefinition => exact .notStruct hlast hlink hdefinition
  | unknownField hlast hlink hdefinition hnext hfield =>
      exact .unknownField hlast hlink hdefinition (by simp [hnext]) hfield

namespace Expr

/-- The chain of field accesses `base.f₁.….fₙ`. -/
def chain (base : Ident) (fields : List Ident) : Expr :=
  fields.foldl .field (.name base)

@[simp] theorem chain_nil (base : Ident) : chain base [] = .name base := rfl

@[simp] theorem chain_snoc (base : Ident) (fields : List Ident) (id : Ident) :
    chain base (fields ++ [id]) = .field (chain base fields) id := by
  simp [chain]

theorem chain_isLocation (base : Ident) (fields : List Ident) :
    (chain base fields).isLocation := by
  induction fields using List.reverseRecOn with
  | nil => rfl
  | append_singleton fields id => rw [chain_snoc]; rfl

theorem chain_inGrammar (base : Ident) (fields : List Ident) : (chain base fields).InGrammar := by
  induction fields using List.reverseRecOn with
  | nil => simp [InGrammar, nodes, isFormed]
  | append_singleton fields id ih =>
      rw [chain_snoc, InGrammar, nodes, List.forall_mem_cons]
      exact ⟨chain_isLocation base fields, ih⟩

theorem idents_chain (base : Ident) (fields : List Ident) :
    (chain base fields).idents = base :: fields := by
  induction fields using List.reverseRecOn with
  | nil => rfl
  | append_singleton fields id ih => rw [chain_snoc, idents, ih, List.cons_append]

/-- How far a chain is linked: the first fields are selected one after the other, the others stay
as they are. -/
structure LinkedUpTo (r : Resolver) (base : Ident) (fields linked rest : List Ident) : Prop where
  linked_eq : (chain base fields).linked r = chain (base.linked r) (linked ++ rest)
  fields_eq : linked.map Ident.unlink ++ rest = fields
  selects : (base.linked r :: linked).IsChain r.symbols.Selects

theorem linkedUpTo_nil (r : Resolver) (base : Ident) : LinkedUpTo r base [] [] [] :=
  ⟨rfl, rfl, .singleton _⟩

variable {r : Resolver} {base : Ident} {fields linked rest : List Ident}

theorem LinkedUpTo.skip {id : Ident} (hid : id.link = none)
    (h : LinkedUpTo r base fields linked rest)
    (hnone : ((chain base fields).reached r).bind (r.symbols.field? · id.name) = none) :
    LinkedUpTo r base (fields ++ [id]) linked (rest ++ [id]) where
  linked_eq := by
    rw [chain_snoc, Expr.linked, h.linked_eq, Ident.fieldLinked, hnone, Ident.with_link_none hid,
      ← List.append_assoc, chain_snoc]
  fields_eq := by rw [← List.append_assoc, h.fields_eq]
  selects := h.selects

theorem LinkedUpTo.select (hr : r.Sound) {id : Ident} (hid : id.link = none)
    {link definition symbol : SymbolId} (h : LinkedUpTo r base fields linked [])
    (hlink : (linked.getLast?.getD (base.linked r)).link = some link)
    (hdefinition : r.symbols.definition? link = some definition)
    (hreached : (chain base fields).reached r = some definition)
    (hfield : r.symbols.field? definition id.name = some symbol) :
    LinkedUpTo r base (fields ++ [id]) (linked ++ [{ id with link := some symbol }]) [] where
  linked_eq := by
    have hlinked := h.linked_eq
    rw [List.append_nil] at hlinked ⊢
    rw [chain_snoc, Expr.linked, hlinked, chain_snoc, Ident.fieldLinked, hreached,
      Option.bind_some, hfield]
  fields_eq := by
    have hfields := h.fields_eq
    rw [List.append_nil] at hfields
    rw [List.map_append, hfields, List.append_nil, List.map_singleton, Ident.unlink,
      Ident.with_link_none hid]
  selects := by
    rw [← List.cons_append, List.isChain_append]
    refine ⟨h.selects, .singleton _, ?_⟩
    rintro last hlast _ ⟨⟩
    rw [List.getLast?_cons, Option.mem_some_iff] at hlast
    subst hlast
    exact ⟨link, definition, symbol, hlink, hdefinition, hfield,
      Arena.field?_knows hr.symbols hfield, rfl⟩

/-- A chain that reaches a struct is linked as a whole and not reported. -/
theorem linkedUpTo_of_reached (hr : r.Sound) (hunlinked : ∀ id ∈ fields, id.link = none)
    {definition : SymbolId} (h : (chain base fields).reached r = some definition) :
    ∃ linked link, LinkedUpTo r base fields linked [] ∧
      (linked.getLast?.getD (base.linked r)).link = some link ∧
      r.symbols.definition? link = some definition ∧ (chain base fields).baseReports r = [] := by
  induction fields using List.reverseRecOn generalizing definition with
  | nil =>
      obtain ⟨link, hlink, hdefinition⟩ := Option.bind_eq_some_iff.mp h
      refine ⟨[], link, linkedUpTo_nil r base, hlink, hdefinition, ?_⟩
      simp [baseReports, Ident.reports, Ident.baseReports, hlink, hdefinition]
  | append_singleton fields id ih =>
      rw [List.forall_mem_append, List.forall_mem_singleton] at hunlinked
      rw [chain_snoc] at h ⊢
      obtain ⟨symbol, hsymbol, hdefinition⟩ := Option.bind_eq_some_iff.mp h
      obtain ⟨outer, houter, hfield⟩ := Option.bind_eq_some_iff.mp hsymbol
      obtain ⟨linked, link, hlinked, hlink, hlast, hquiet⟩ := ih hunlinked.1 houter
      refine ⟨_, symbol, hlinked.select hr hunlinked.2 hlink hlast houter hfield, by simp,
        hdefinition, ?_⟩
      simp [baseReports, Ident.fieldReports, Ident.baseReports, hquiet, houter, hfield, hdefinition]

/-- A chain that reaches no struct is reported once, where it breaks. -/
theorem breaks_of_reached_eq_none (hr : r.Sound) (hunlinked : ∀ id ∈ fields, id.link = none)
    (h : (chain base fields).reached r = none) :
    ∃ linked rest report, LinkedUpTo r base fields linked rest ∧
      r.symbols.Breaks (base.linked r) linked rest report ∧
      (chain base fields).baseReports r = [report] := by
  induction fields using List.reverseRecOn with
  | nil =>
      cases hlookup : r.table.lookup base.name with
      | none =>
          refine ⟨[], [], _, linkedUpTo_nil r base, .undeclared rfl hlookup, ?_⟩
          simp [baseReports, Ident.reports, Ident.baseReports, Ident.linked, hlookup]
      | some link =>
          have hdefinition : r.symbols.definition? link = none := by
            simpa [reached, hlookup] using h
          refine ⟨[], [], _, linkedUpTo_nil r base, .notStruct rfl hlookup hdefinition, ?_⟩
          simp [baseReports, Ident.reports, Ident.baseReports, Ident.linked, hlookup, hdefinition]
  | append_singleton fields id ih =>
      rw [List.forall_mem_append, List.forall_mem_singleton] at hunlinked
      rw [chain_snoc] at h ⊢
      cases houter : (chain base fields).reached r with
      | none =>
          obtain ⟨linked, rest, report, hlinked, hbreaks, hreports⟩ := ih hunlinked.1 houter
          refine ⟨linked, rest ++ [id], report, hlinked.skip hunlinked.2 (by rw [houter]; rfl),
            hbreaks.append id, ?_⟩
          simp [baseReports, Ident.fieldReports, Ident.baseReports, hreports, houter]
      | some outer =>
          obtain ⟨linked, link, hlinked, hlink, hlast, hquiet⟩ :=
            linkedUpTo_of_reached hr hunlinked.1 houter
          cases hfield : r.symbols.field? outer id.name with
          | none =>
              refine ⟨linked, [] ++ [id], _,
                hlinked.skip hunlinked.2 (by rw [houter]; exact hfield),
                .unknownField rfl hlink hlast rfl hfield, ?_⟩
              simp [baseReports, Ident.fieldReports, Ident.baseReports, hquiet, houter, hfield]
          | some symbol =>
              have hdefinition : r.symbols.definition? symbol = none := by
                simpa [reached, houter, hfield] using h
              refine ⟨_, [], _, hlinked.select hr hunlinked.2 hlink hlast houter hfield,
                .notStruct rfl (by simp) hdefinition, ?_⟩
              simp [baseReports, Ident.fieldReports, Ident.baseReports, hquiet, houter, hfield,
                hdefinition]

/-- Resolving a chain of field accesses links a prefix of its fields, each to the field of its name
in the struct that the element before it is an instance of.  If a field is left over, the chain is
reported once, for what stopped it behind the prefix; else it is not reported. -/
theorem resolve_chain (hr : r.Reachable) (hfields : fields ≠ []) (hbase : base.link = none)
    (hunlinked : ∀ id ∈ fields, id.link = none) :
    ∃ linked rest reports,
      (chain base fields).resolve r =
        .done (chain { base with link := r.table.lookup base.name } (linked ++ rest), r) reports ∧
      linked.map Ident.unlink ++ rest = fields ∧
      ({ base with link := r.table.lookup base.name } :: linked).IsChain r.symbols.Selects ∧
      (rest = [] ∧ reports = [] ∨
        rest ≠ [] ∧ ∃ report, reports = [report] ∧
          r.symbols.Breaks { base with link := r.table.lookup base.name } linked rest report) := by
  have hall : ∀ id ∈ (chain base fields).idents, id.link = none := by
    rw [idents_chain, List.forall_mem_cons]
    exact ⟨hbase, hunlinked⟩
  rw [resolve_apply hr.sound (chain_inGrammar base fields) hall]
  -- What stands before the last field decides how far the chain is linked.
  obtain ⟨before, id, rfl⟩ := (List.eq_nil_or_concat fields).resolve_left hfields
  rw [List.concat_eq_append, List.forall_mem_append, List.forall_mem_singleton] at hunlinked
  rw [List.concat_eq_append]
  cases hreached : (chain base before).reached r with
  | none =>
      obtain ⟨linked, rest, report, hlinked, hbreaks, hreports⟩ :=
        breaks_of_reached_eq_none hr.sound hunlinked.1 hreached
      have hlinked := hlinked.skip hunlinked.2 (by rw [hreached]; rfl)
      refine ⟨linked, rest ++ [id], [report], ?_, hlinked.fields_eq, hlinked.selects,
        .inr ⟨by simp, report, rfl, hbreaks.append id⟩⟩
      rw [hlinked.linked_eq, chain_snoc, reports, hreports, hreached]
      rfl
  | some definition =>
      obtain ⟨linked, link, hlinked, hlink, hlast, hquiet⟩ :=
        linkedUpTo_of_reached hr.sound hunlinked.1 hreached
      cases hfield : r.symbols.field? definition id.name with
      | none =>
          have hlinked := hlinked.skip hunlinked.2 (by rw [hreached]; exact hfield)
          refine ⟨linked, [id], [_], ?_, hlinked.fields_eq, hlinked.selects,
            .inr ⟨by simp, _, rfl, .unknownField rfl hlink hlast rfl hfield⟩⟩
          rw [hlinked.linked_eq, chain_snoc, reports, hquiet, hreached]
          simp [Ident.fieldReports, Ident.linked, hfield]
      | some symbol =>
          have hlinked := hlinked.select hr.sound hunlinked.2 hlink hlast hreached hfield
          refine ⟨_, [], [], ?_, hlinked.fields_eq, hlinked.selects, .inl ⟨rfl, rfl⟩⟩
          rw [hlinked.linked_eq, chain_snoc, reports, hquiet, hreached]
          simp [Ident.fieldReports, Ident.linked, hfield]

/-- The declarations `struct Engine { int power; }; struct Car { struct Engine engine; };` and
`struct Car car;`. -/
def garage : List Decl := [
  .struct ⟨⟨"Engine", ⟨1, 8⟩, none⟩, [⟨.int, ⟨"power", ⟨1, 21⟩, none⟩⟩]⟩,
  .struct ⟨⟨"Car", ⟨2, 8⟩, none⟩,
    [⟨.struct ⟨"Engine", ⟨2, 21⟩, none⟩, ⟨"engine", ⟨2, 28⟩, none⟩⟩]⟩,
  .var ⟨.struct ⟨"Car", ⟨3, 8⟩, none⟩, ⟨"car", ⟨3, 12⟩, none⟩⟩]

/-- The fields of `car.engine.power.unit`, whose power is no struct. -/
def unitOfPower : List Ident :=
  [⟨"engine", ⟨4, 5⟩, none⟩, ⟨"power", ⟨4, 12⟩, none⟩, ⟨"unit", ⟨4, 18⟩, none⟩]

theorem resolve_garage_chain : ∃ r : Resolver, r.Reachable ∧ ∃ linked rest reports,
    (chain ⟨"car", ⟨4, 1⟩, none⟩ unitOfPower).resolve r =
      .done (chain ⟨"car", ⟨4, 1⟩, some 4⟩ (linked ++ rest), r) reports ∧
    linked.map Ident.unlink ++ rest = unitOfPower ∧
    (⟨"car", ⟨4, 1⟩, some 4⟩ :: linked).IsChain r.symbols.Selects ∧
    reports = [Diagnostic.ofCode .fieldOfNonStruct ⟨4, 12⟩] := by
  have hr : (Decl.afterAll (Resolver.start {}) garage).Reachable :=
    Resolver.Reachable.decls (.start {} rfl) (by simp [garage, Decl.InGrammar]) (by decide)
  have hrun : (chain ⟨"car", ⟨4, 1⟩, none⟩ unitOfPower).resolve
        (Decl.afterAll (Resolver.start {}) garage) =
      .done (chain ⟨"car", ⟨4, 1⟩, some 4⟩
        [⟨"engine", ⟨4, 5⟩, some 2⟩, ⟨"power", ⟨4, 12⟩, some 0⟩, ⟨"unit", ⟨4, 18⟩, none⟩],
        Decl.afterAll (Resolver.start {}) garage)
        [Diagnostic.ofCode .fieldOfNonStruct ⟨4, 12⟩] := by
    rfl
  obtain ⟨linked, rest, reports, hresolve, hfields, hselects, -⟩ :=
    resolve_chain hr (by decide : unitOfPower ≠ [])
      (rfl : (⟨"car", ⟨4, 1⟩, none⟩ : Ident).link = none) (by decide)
  refine ⟨_, hr, linked, rest, reports, hresolve, hfields, hselects, ?_⟩
  rw [hrun] at hresolve
  exact (Reporting.done.inj hresolve).2.symm

end Expr

end StackMips
