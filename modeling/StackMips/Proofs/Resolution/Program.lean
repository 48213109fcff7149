import StackMips.Proofs.Resolution.Total

/-!
# Resolution of programs is total

Functions, structs and whole programs.  A top-level declaration adds symbols and changes none of
those that were there before it.
-/

namespace StackMips

/-! ## Functions -/

theorem VarDecl.acceptedTypes_cons (decl : VarDecl) (decls : List VarDecl) :
    acceptedTypes (decl :: decls) =
      if decl.isAccepted then decl.type.toTy :: acceptedTypes decls else acceptedTypes decls := by
  rw [acceptedTypes, List.filter_cons]
  split <;> rfl

namespace Resolve

theorem declareFormals_apply {r : Resolver} (hr : r.Sound) {decls : List VarDecl}
    (h : ∀ id ∈ decls.flatMap VarDecl.idents, id.link = none) :
    declareFormals decls r =
      .done ((VarDecl.linkedAll Resolver.declareFormal r decls,
          VarDecl.acceptedTypes (VarDecl.linkedAll Resolver.declareFormal r decls)),
        r.declareFormals decls) (VarDecl.reportsAll Resolver.declareFormal r decls) := by
  induction decls generalizing r with
  | nil => rfl
  | cons decl decls ih =>
      have hdecl := declareInFrame_apply hr decl fun id hid => h id (by simp [hid])
      have hdecls := ih ((r.grows_declareFormal decl).sound hr) fun id hid => h id (by
        rw [List.flatMap_cons, List.mem_append]
        exact .inr hid)
      cases hk : decl.accepted? r r.table <;>
        simp [declareFormals, VarDecl.linkedAll, VarDecl.reportsAll, Resolver.declareFormals,
          VarDecl.acceptedTypes_cons, VarDecl.isAccepted, VarDecl.linked, bind_apply, map_apply,
          hdecl, hdecls, hk]

theorem declareGlobal_apply (r : Resolver) {id : Ident} (h : id.link = none) (symbol : Symbol)
    (hname : symbol.name = id.name) :
    declareGlobal id (r.table.lookupInnermost id.name).isSome symbol r =
      if (r.table.lookupInnermost id.name).isSome then .done ((id, none), r) []
      else
        .done (({ id with link := some r.symbols.size }, some r.symbols.size), r.accept symbol)
          [] := by
  cases htaken : r.table.lookupInnermost id.name with
  | some other => simp [declareGlobal]
  | none =>
      have hdeclare := SymbolTable.declare_of_free r.symbols.size htaken
      simp [declareGlobal, allocate, insertInto, bind_apply, map_apply, hdeclare,
        Ident.linkTo_of_unlinked h, Resolver.accept, Resolver.allocate, hname]

end Resolve

theorem TypeName.resolveReturn_apply {r : Resolver} (hr : r.Sound) {type : TypeName}
    (h : ∀ id ∈ type.idents, id.link = none) :
    type.resolveReturn r = .done (type.linked r, r) (type.reports r) := by
  cases type with
  | int | bool | void => rfl
  | struct id =>
      have hid := Resolve.structName_apply hr (h id (by simp [TypeName.idents]))
      simp [TypeName.resolveReturn, TypeName.linked, Resolve.bind_apply, hid]

namespace Resolver

theorem grows_declareFormals (decls : List VarDecl) (r : Resolver) :
    r.Grows (r.declareFormals decls) := by
  induction decls generalizing r with
  | nil => exact .refl r
  | cons decl decls ih => exact (r.grows_declareFormal decl).trans (ih _)

end Resolver

namespace FnDecl

theorem sound_ofFunction (symbols : Arena) (fn : FnDecl) :
    (Symbol.ofFunction fn.id.name fn.returnType.toTy fn.formals.length fn.id.pos).Sound symbols :=
  ⟨nofun, nofun⟩

theorem grows_named (r : Resolver) (fn : FnDecl) : r.Grows (fn.named r) := by
  unfold named
  split
  · exact .refl r
  · exact ⟨fun h => h.accept (fn.sound_ofFunction _), r.symbols.extends_push _, rfl⟩

theorem opened_sound {r : Resolver} (hr : r.Sound) (fn : FnDecl) : (fn.opened r).Sound :=
  ⟨((fn.grows_named r).sound hr).enter.symbols, ((fn.grows_named r).sound hr).enter.table⟩

theorem grows_inside (r : Resolver) (fn : FnDecl) : (fn.opened r).Grows (fn.inside r) :=
  have h := Resolver.grows_declareFormals fn.formals (fn.opened r)
  ⟨fun hopened => ⟨(h.sound hopened).symbols, (h.sound hopened).table⟩, h.symbols, h.enclosing⟩

theorem inside_sound {r : Resolver} (hr : r.Sound) (fn : FnDecl) : (fn.inside r).Sound :=
  (fn.grows_inside r).sound (fn.opened_sound hr)

theorem grows_body (r : Resolver) (fn : FnDecl) :
    (fn.named r).enter.Grows (fn.body.after (fn.inside r)) :=
  have h := (fn.grows_inside r).trans (Resolver.grows_isWalk.block fn.body (fn.inside r))
  ⟨fun henter => h.sound ⟨henter.symbols, henter.table⟩, h.symbols, h.enclosing⟩

theorem grows_walked (r : Resolver) (fn : FnDecl) : r.Grows (fn.walked r) :=
  (fn.grows_named r).trans (fn.grows_body r).backTo

theorem resolveFrame_apply {r : Resolver} (hr : r.Sound) {fn : FnDecl}
    (hgrammar : fn.body.InGrammar)
    (hformals : ∀ id ∈ fn.formals.flatMap VarDecl.idents, id.link = none)
    (hbody : ∀ id ∈ fn.body.idents, id.link = none) (returnType : TypeName) (id : Ident) :
    { fn with returnType, id }.resolveFrame (fn.named r) =
      .done ((⟨returnType, id, fn.linkedFormals r, fn.body.linked (fn.inside r)⟩,
          VarDecl.acceptedTypes (fn.linkedFormals r)), fn.walked r)
        (VarDecl.reportsAll Resolver.declareFormal (fn.opened r) fn.formals ++
          fn.body.reports (fn.inside r)) := by
  have hformals := Resolve.declareFormals_apply (fn.opened_sound hr) hformals
  have hbody := Block.resolve_apply (fn.inside_sound hr) hgrammar hbody
  refine Resolve.inScope_apply ?_ (fn.grows_body r).enclosing
  simp only [Resolve.bind_apply, Resolve.modify_apply, Reporting.done_bind_eq, Reporting.after_nil]
  change (Resolve.declareFormals fn.formals (fn.opened r) >>= _) = _
  rw [hformals, Reporting.done_bind_eq]
  change Reporting.after _ (fn.body.resolve (fn.inside r) >>= _) = _
  rw [hbody, Reporting.done_bind_eq]
  simp [linkedFormals]

theorem unlinked_iff {fn : FnDecl} :
    (∀ id ∈ fn.idents, id.link = none) ↔
      (∀ id ∈ fn.returnType.idents, id.link = none) ∧ fn.id.link = none ∧
        (∀ id ∈ fn.formals.flatMap VarDecl.idents, id.link = none) ∧
        ∀ id ∈ fn.body.idents, id.link = none := by
  simp only [idents, List.forall_mem_append, List.forall_mem_singleton, and_assoc]

theorem resolve_apply {r : Resolver} (hr : r.Sound) {fn : FnDecl}
    (hgrammar : fn.body.InGrammar) (hunlinked : ∀ id ∈ fn.idents, id.link = none) :
    fn.resolve r = .done (fn.linked r, fn.after r) (fn.reports r) := by
  obtain ⟨hreturn, hid, hformals, hbody⟩ := unlinked_iff.mp hunlinked
  have hreturn := TypeName.resolveReturn_apply hr hreturn
  have hglobal := Resolve.declareGlobal_apply r hid
    (Symbol.ofFunction fn.id.name fn.returnType.toTy fn.formals.length fn.id.pos) rfl
  have hframe := resolveFrame_apply hr hgrammar hformals hbody (fn.returnType.linked r)
    { fn.id with link := if fn.isTaken r then none else some r.symbols.size }
  cases htaken : fn.isTaken r with
  | true =>
      have hsome : (r.table.lookupInnermost fn.id.name).isSome = true := htaken
      rw [hsome, if_pos rfl] at hglobal
      rw [named, if_pos htaken, htaken, if_pos rfl, Ident.with_link_none hid] at hframe
      simp [resolve, reports, linked, after, Resolve.bind_apply, hreturn, hsome, htaken, hglobal,
        hframe, Ident.with_link_none hid]
  | false =>
      have hnone : (r.table.lookupInnermost fn.id.name).isSome = false := htaken
      rw [hnone] at hglobal
      rw [named, htaken] at hframe
      simp only [Bool.false_eq_true, if_false] at hglobal hframe
      simp [resolve, reports, linked, after, Resolve.bind_apply, Resolve.map_apply, hreturn,
        hnone, htaken, hglobal, hframe]

theorem grows_after (r : Resolver) (fn : FnDecl) : r.Grows (fn.after r) := by
  have h := fn.grows_walked r
  unfold after
  split
  · exact h
  · have hsame := fun symbol => Symbol.sameRole_withFrame symbol
      (VarDecl.acceptedTypes (fn.linkedFormals r)) fn.returnType.toTy (fn.walked r).localWords
    refine ⟨fun hr => ⟨(h.sound hr).symbols.modify _ hsame, ?_⟩, ?_, h.enclosing⟩
    · exact (h.sound hr).table.mono (Arena.keeps_modify _ _ hsame)
    · exact Arena.extends_modify h.symbols (Nat.le_refl _) _

end FnDecl

/-! ## Structs -/

namespace StructDecl

/-- Declaring fields adds symbols and nothing else. -/
structure FieldsGrow (r : Resolver) (table : SymbolTable) (r' : Resolver) (table' : SymbolTable) :
    Prop where
  sound : r.Sound → table.Sound r.symbols → r'.Sound ∧ table'.Sound r'.symbols
  symbols : r.symbols.Extends r'.symbols
  state : r' = { r with symbols := r'.symbols }
  enclosing : table'.enclosing = table.enclosing

theorem fieldsAfter_grow (r : Resolver) (table : SymbolTable) (offset : Int)
    (decls : List VarDecl) :
    FieldsGrow r table (fieldsAfter r table offset decls).1
      (fieldsAfter r table offset decls).2 := by
  induction decls generalizing r table offset with
  | nil => exact ⟨fun hr ht => ⟨hr, ht⟩, .refl _, rfl, rfl⟩
  | cons decl decls ih =>
      rw [fieldsAfter]
      split
      · exact ih r table offset
      · next kind hkind =>
          have hsymbol := VarDecl.symbol_sound hkind offset
          have hext := r.symbols.extends_push (decl.symbol offset kind)
          have h := ih (r.allocate (decl.symbol offset kind))
            (table.extend decl.id.name r.symbols.size) (offset - wordSize)
          refine ⟨fun hr ht => ?_, hext.trans h.symbols, h.state, h.enclosing⟩
          exact h.sound (hr.allocate hsymbol)
            ((ht.mono hext.keeps).extend (r.knows_allocate (decl.symbol offset kind)))

theorem grows_walked (r : Resolver) (struct : StructDecl) : r.Grows (struct.walked r) := by
  have h := fieldsAfter_grow r {} 0 struct.fields
  refine ⟨fun hr => (h.sound hr (SymbolTable.sound_empty _)).1, h.symbols, ?_⟩
  rw [walked, h.state]

theorem walked_table (r : Resolver) (struct : StructDecl) : (struct.walked r).table = r.table := by
  rw [walked, (fieldsAfter_grow r {} 0 struct.fields).state]

theorem sound_ofStructDef {r : Resolver} (hr : r.Sound) (struct : StructDecl) :
    (Symbol.ofStructDef struct.id.name (struct.fieldTable r) struct.id.pos).Sound
      (struct.walked r).symbols := by
  have h := (fieldsAfter_grow r {} 0 struct.fields).sound hr (SymbolTable.sound_empty _)
  refine ⟨nofun, fun table htable => ?_⟩
  cases htable
  exact h.2

theorem grows_after (r : Resolver) (struct : StructDecl) : r.Grows (struct.after r) := by
  have h := struct.grows_walked r
  unfold after
  split
  · exact h
  · refine ⟨fun hr => (h.sound hr).accept (struct.sound_ofStructDef hr),
      h.symbols.trans ((struct.walked r).symbols.extends_push _), h.enclosing⟩

theorem declareFields_apply {r : Resolver} (hr : r.Sound) (table : SymbolTable) (offset : Int)
    {decls : List VarDecl} (h : ∀ id ∈ decls.flatMap VarDecl.idents, id.link = none) :
    Resolve.declareFields table offset decls r =
      .done ((fieldsLinked r table offset decls, (fieldsAfter r table offset decls).2),
        (fieldsAfter r table offset decls).1) (fieldsReports r table offset decls) := by
  induction decls generalizing r table offset with
  | nil => rfl
  | cons decl decls ih =>
      have hid : ∀ id ∈ decl.idents, id.link = none := fun id hid => h id (by simp [hid])
      have hdecl := Resolve.declareInto_apply hr table hid offset
      have hunlinked : ∀ id ∈ decls.flatMap VarDecl.idents, id.link = none := fun id hid =>
        h id (by rw [List.flatMap_cons, List.mem_append]; exact .inr hid)
      cases hk : decl.accepted? r table with
      | none =>
          have hdecls := ih hr table offset hunlinked
          simp [Resolve.declareFields, fieldsLinked, fieldsAfter, fieldsReports,
            Resolve.bind_apply, Resolve.map_apply, Resolve.declared, hdecl, hk, hdecls]
      | some kind =>
          have hdecls := ih (hr.allocate (VarDecl.symbol_sound hk offset))
            (table.extend decl.id.name r.symbols.size) (offset - wordSize) hunlinked
          simp [Resolve.declareFields, fieldsLinked, fieldsAfter, fieldsReports,
            Resolve.bind_apply, Resolve.map_apply, Resolve.declared, hdecl, hk, hdecls]

theorem resolve_apply {r : Resolver} (hr : r.Sound) {struct : StructDecl}
    (hunlinked : ∀ id ∈ struct.idents, id.link = none) :
    struct.resolve r = .done (struct.linked r, struct.after r) (struct.reports r) := by
  have hid : struct.id.link = none := hunlinked _ (by simp [idents])
  have hmembers : ∀ id ∈ struct.fields.flatMap VarDecl.idents, id.link = none :=
    fun id hid => hunlinked id (List.mem_cons_of_mem _ hid)
  have hfields := declareFields_apply hr {} 0 hmembers
  have hglobal := Resolve.declareGlobal_apply (struct.walked r) hid
    (Symbol.ofStructDef struct.id.name (struct.fieldTable r) struct.id.pos) rfl
  rw [walked_table] at hglobal
  cases htaken : struct.isTaken r with
  | true =>
      have hsome : (r.table.lookupInnermost struct.id.name).isSome = true := htaken
      simp only [hsome, if_true, walked, fieldTable] at hglobal
      simp [resolve, linked, after, reports, walked, Resolve.bind_apply, Resolve.map_apply,
        htaken, hsome, hfields, hglobal, Ident.with_link_none hid]
  | false =>
      have hnone : (r.table.lookupInnermost struct.id.name).isSome = false := htaken
      simp only [hnone, Bool.false_eq_true, if_false, walked, fieldTable] at hglobal
      simp [resolve, linked, after, reports, walked, fieldTable, Resolve.bind_apply,
        Resolve.map_apply, htaken, hnone, hfields, hglobal]

end StructDecl

/-! ## Programs -/

namespace Resolver

theorem grows_declareGlobal (r : Resolver) (decl : VarDecl) : r.Grows (r.declareGlobal decl) := by
  unfold declareGlobal
  split
  · exact .refl r
  · next kind hkind =>
      exact ⟨fun h => h.accept (VarDecl.symbol_sound hkind _), r.symbols.extends_push _, rfl⟩

end Resolver

namespace Decl

theorem grows_after (r : Resolver) (decl : Decl) : r.Grows (decl.after r) := by
  cases decl with
  | var decl => exact r.grows_declareGlobal decl
  | fn decl => exact decl.grows_after r
  | struct decl => exact decl.grows_after r

theorem grows_afterAll (r : Resolver) (decls : List Decl) : r.Grows (afterAll r decls) := by
  induction decls generalizing r with
  | nil => exact .refl r
  | cons decl decls ih => exact (decl.grows_after r).trans (ih _)

def InGrammar : Decl → Prop
  | .fn decl => decl.body.InGrammar
  | _ => True

theorem resolve_apply {r : Resolver} (hr : r.Sound) {decl : Decl} (hgrammar : decl.InGrammar)
    (hunlinked : ∀ id ∈ decl.idents, id.link = none) :
    decl.resolve r = .done (decl.linked r, decl.after r) (decl.reports r) := by
  cases decl with
  | var decl =>
      have h := Resolve.declareVariable_apply hr hunlinked globalOffset
      simp [resolve, linked, after, reports, Resolve.bind_apply, h]
      rfl
  | fn decl =>
      have h := FnDecl.resolve_apply hr hgrammar hunlinked
      simp [resolve, linked, after, reports, Resolve.map_apply, h]
  | struct decl =>
      have h := StructDecl.resolve_apply hr hunlinked
      simp [resolve, linked, after, reports, Resolve.map_apply, h]

theorem resolveAll_apply {r : Resolver} (hr : r.Sound) {decls : List Decl}
    (hgrammar : ∀ decl ∈ decls, decl.InGrammar)
    (hunlinked : ∀ id ∈ decls.flatMap Decl.idents, id.link = none) :
    resolveAll decls r = .done (linkedAll r decls, afterAll r decls) (reportsAll r decls) := by
  induction decls generalizing r with
  | nil => rfl
  | cons decl decls ih =>
      have hdecl := resolve_apply hr (hgrammar decl (by simp))
        fun id hid => hunlinked id (by simp [hid])
      have hdecls := ih ((decl.grows_after r).sound hr)
        (fun other hother => hgrammar other (by simp [hother]))
        fun id hid => hunlinked id (by rw [List.flatMap_cons, List.mem_append]; exact .inr hid)
      simp [resolveAll, linkedAll, afterAll, reportsAll, Resolve.bind_apply, Resolve.map_apply,
        hdecl, hdecls]

end Decl

theorem Resolve.requireEntryPoint_apply {r : Resolver} (hr : r.Sound) (name : String) :
    requireEntryPoint name r = .done ((), r) (r.entryReports name) := by
  cases hlookup : r.table.lookup name with
  | none =>
      simp [requireEntryPoint, Resolver.entryReports, Resolver.hasFunction, bind_apply, hlookup]
  | some symbol =>
      obtain ⟨target, htarget, _⟩ := hr.table.knows_of_lookup hlookup
      cases hfunction : target.function? <;>
        simp [requireEntryPoint, Resolver.entryReports, Resolver.hasFunction, bind_apply,
          hlookup, Arena.fetch_of_get? htarget, htarget, hfunction]

theorem Program.sound_empty : ({} : Arena).Sound := by
  intro id symbol hget
  simp [Arena.get?] at hget

theorem Resolver.start_sound {context : Context} (h : context.symbols.Sound) :
    (Resolver.start context).Sound :=
  ⟨h, SymbolTable.sound_empty _⟩

theorem Program.InGrammar.decl {program : Program} (h : program.InGrammar) :
    ∀ decl ∈ program.decls, decl.InGrammar := by
  intro decl hdecl
  cases decl with
  | fn fn => exact h fn (Program.mem_functions.mpr hdecl)
  | var _ | struct _ => trivial

/-- Resolution of an unlinked program in the grammar is done, with known links and reports. -/
theorem Program.resolve_eq {program : Program} {context : Context}
    (hcontext : context.symbols.Sound) (hgrammar : program.InGrammar)
    (hunlinked : program.Unlinked) :
    program.resolve context =
      .done (program.linked context) (program.resolutionReports context) := by
  have hstart := Resolver.start_sound hcontext
  have hdecls := Decl.resolveAll_apply hstart hgrammar.decl hunlinked
  have hentry := Resolve.requireEntryPoint_apply
    ((Decl.grows_afterAll _ program.decls).sound hstart) context.options.entryPoint
  have hwalk : (do
      let decls ← Decl.resolveAll program.decls
      Resolve.requireEntryPoint context.options.entryPoint
      return decls : Resolve (List Decl)) (Resolver.start context) =
      .done (Decl.linkedAll (Resolver.start context) program.decls, program.after context)
        (program.resolutionReports context) := by
    simp [Resolve.bind_apply, Resolve.map_apply, hdecls, hentry, Program.after,
      Program.resolutionReports]
  rw [Program.resolve]
  change (do
      let decls ← Decl.resolveAll program.decls
      Resolve.requireEntryPoint context.options.entryPoint
      return decls : Resolve (List Decl)) (Resolver.start context) >>= _ = _
  rw [hwalk]
  simp [Program.linked]

end StackMips
