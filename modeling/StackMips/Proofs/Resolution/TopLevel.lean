import StackMips.Proofs.Analysis
import StackMips.Proofs.Resolution.Declared
import StackMips.Proofs.Resolution.Layout

/-!
# Top-level declarations of accepted programs

In a program that is resolved without a report, the names of the top-level declarations are
different, and a name that stands for a global variable is the name of its declaration.
-/

namespace StackMips

/-! ## Names are different -/

namespace Decl

theorem name_linked (r : Resolver) (decl : Decl) : (decl.linked r).id.name = decl.id.name := by
  cases decl <;> rfl

/-- A declaration that is resolved without a report has a free name and is accepted. -/
theorem free_of_quiet {r : Resolver} {decl : Decl} (h : decl.reports r = []) :
    r.table.lookupInnermost decl.id.name = none ∧ (decl.linked r).id.link.isSome := by
  cases decl with
  | var decl =>
      obtain ⟨kind, hkind⟩ := Option.isSome_iff_exists.mp (VarDecl.accepted_of_quiet h)
      exact ⟨VarDecl.lookupInnermost_of_accepted? hkind, VarDecl.isSome_link_of_quiet h⟩
  | fn decl =>
      have htaken := (FnDecl.quiet_parts h).1
      exact ⟨by simpa [FnDecl.isTaken, Decl.id] using htaken,
        by simp [Decl.linked, Decl.id, FnDecl.linked, htaken]⟩
  | struct decl =>
      have htaken : decl.isTaken r = false := by
        by_contra htaken
        simp [Decl.reports, StructDecl.reports, htaken] at h
      exact ⟨by simpa [StructDecl.isTaken, Decl.id] using htaken,
        by simp [Decl.linked, Decl.id, StructDecl.linked, htaken]⟩

/-- Declarations that are resolved without a report have names that differ from each other and from
those before them. -/
theorem nodup_names {r : Resolver} {before : List Binder} (h : r.Mirrors [before])
    (hlinked : ∀ binder ∈ before, binder.id.link.isSome)
    (hnodup : (before.map (·.id.name)).Nodup) {decls : List Decl}
    (hquiet : reportsAll r decls = []) :
    (before.map (·.id.name) ++ (linkedAll r decls).map (·.id.name)).Nodup := by
  induction decls generalizing r before with
  | nil => simpa [linkedAll] using hnodup
  | cons decl decls ih =>
      obtain ⟨hdecl, hdecls⟩ := List.append_eq_nil_iff.mp hquiet
      obtain ⟨hfree, hlink⟩ := free_of_quiet hdecl
      have hnew : decl.id.name ∉ before.map (·.id.name) := by
        intro hmem
        obtain ⟨binder, hbinder, hname⟩ := List.mem_map.mp hmem
        obtain ⟨id, hid⟩ := Option.isSome_iff_exists.mp (hlinked binder hbinder)
        have hbound := ((List.forall₂_cons.mp h.scopes).1 _ _).mpr ⟨binder, hbinder, hname, hid⟩
        cases hfree.symm.trans hbound
      have hnodup : ((before ++ [(decl.linked r).binder]).map (·.id.name)).Nodup := by
        rw [List.map_append, List.map_singleton, id_binder, name_linked]
        exact hnodup.append (List.nodup_singleton _) (List.disjoint_singleton.mpr hnew)
      have hrest := ih (decl.mirrors_after h)
        (List.forall_mem_append.mpr ⟨hlinked, by simpa using hlink⟩) hnodup hdecls
      simpa [linkedAll] using hrest

end Decl

/-- The top-level declarations of a program that is resolved without a report have different
names. -/
theorem Program.nodup_names {program : Program} {options : Options} {resolved : Resolved}
    (h : program.resolve { options } = .done resolved []) :
    (resolved.program.decls.map (·.id.name)).Nodup := by
  rw [(linked_of_resolve h).1]
  exact Decl.nodup_names (start_mirrors { options }) (by simp) (by simp)
    (reportsAll_of_resolve h)

/-- Without its links, a program that is resolved without a report is what it was before. -/
theorem Program.unlink_of_resolve {program : Program} {options : Options} {resolved : Resolved}
    (h : program.resolve { options } = .done resolved []) : resolved.program.unlink = program := by
  obtain ⟨-, hunlinked⟩ := resolve_quiet h
  rw [(linked_of_resolve h).1, unlink, linked, Decl.unlink_linkedAll hunlinked]

theorem Program.exists_entry {program : Program} {options : Options} {resolved : Resolved}
    (h : program.resolve { options } = .done resolved []) :
    ∃ fn, Decl.fn fn ∈ resolved.program.decls ∧ fn.id.name = options.entryPoint := by
  obtain ⟨hgrammar, hunlinked⟩ := resolve_quiet h
  have hreports := h
  rw [resolve_eq sound_empty hgrammar hunlinked, Reporting.done.injEq] at hreports
  have hentry := (List.append_eq_nil_iff.mp hreports.2).2
  obtain ⟨rfl, hlinked⟩ := linked_of_resolve h
  have hfunction : (program.after { options }).hasFunction options.entryPoint := by
    by_contra hnone
    simp [Resolver.entryReports, hnone] at hentry
  obtain ⟨info, hinfo⟩ := Option.isSome_iff_exists.mp hfunction
  obtain ⟨symbol, hsymbol, hinfo⟩ := Option.bind_eq_some_iff.mp hinfo
  obtain ⟨index, hlookup, hget⟩ := Option.bind_eq_some_iff.mp hsymbol
  have hsound : (program.after { options }).Sound :=
    (Decl.grows_afterAll _ program.decls).sound (Resolver.start_sound sound_empty)
  obtain ⟨other, hother, hname⟩ := hsound.table.knows_of_lookup hlookup
  cases hget.symm.trans hother
  rcases hlinked.symbols index symbol hget with hvariable | hstruct | ⟨fn, hfn, hframed⟩
  · cases hvariable.function.symm.trans hinfo
  · cases hstruct.function.symm.trans hinfo
  · cases hframed.symbol.symm.trans hget
    exact ⟨fn, mem_functions.mp hfn, hname⟩

/-! ## Global variables -/

theorem Decl.isStruct_of_link {r : Resolver} {decls : List Decl} {decl : StructDecl}
    (h : Decl.struct decl ∈ linkedAll r decls) {link : SymbolId}
    (hlink : decl.id.link = some link) :
    ∃ symbol, (afterAll r decls).symbols.get? link = some symbol ∧ symbol.IsStruct := by
  induction decls generalizing r with
  | nil => simp [linkedAll] at h
  | cons other decls ih =>
      rcases List.mem_cons.mp h with hother | hdecls
      · cases other with
        | var _ | fn _ => cases hother
        | struct struct =>
            cases hother
            have htaken : struct.isTaken r = false := by
              by_contra htaken
              simp [StructDecl.linked, htaken] at hlink
            have hlink : (struct.walked r).symbols.size = link := by
              simpa [StructDecl.linked, htaken] using hlink
            have hget : (struct.after r).symbols.get? link = some
                (Symbol.ofStructDef struct.id.name (struct.fieldTable r) struct.id.pos) := by
              rw [StructDecl.after, htaken, ← hlink]
              exact Arena.get?_push_size _ _
            exact ⟨_, (grows_afterAll _ decls).symbols _ _ hget, rfl, rfl⟩
      · exact ih hdecls

/-- A name of a storable type stands for a variable of its function or for a global variable of the
same name. -/
theorem Program.variable_cases {program : Program} {options : Options} {resolved : Resolved}
    (h : program.resolve { options } = .done resolved []) {fn : FnDecl}
    (hfn : fn ∈ resolved.program.functions) {id : Ident} (hid : id ∈ fn.body.uses)
    {link : SymbolId} (hlink : id.link = some link) {symbol : Symbol}
    (hget : resolved.context.symbols.get? link = some symbol) (hstorable : symbol.ty.isStorable) :
    link ∈ fn.acceptedFormals ++ fn.acceptedLocals ∨
      ∃ decl, Decl.var decl ∈ resolved.program.decls ∧ decl.id.link = some link ∧
        decl.id.name = id.name := by
  obtain ⟨rfl, hlinked⟩ := linked_of_resolve h
  refine (use_cases sound_empty hfn hid hlink).imp_right ?_
  rintro ⟨decl, hdecl, hdeclared, hname⟩
  cases decl with
  | var decl => exact ⟨decl, hdecl, hdeclared, hname⟩
  | fn decl =>
      obtain ⟨index, _, hframed, _⟩ := hlinked.functions decl (mem_functions.mpr hdecl)
      cases hframed.link.symm.trans hdeclared
      cases hframed.symbol.symm.trans hget
      cases hstorable
  | struct decl =>
      obtain ⟨other, hother, hstruct⟩ := Decl.isStruct_of_link hdecl hdeclared
      cases hget.symm.trans hother
      have hdef := hstruct.ty
      cases htype : symbol.ty <;> simp_all [Ty.isStructDef, Ty.isStorable]

/-- A name of a storable type that is found among the global data is the name of a global
variable. -/
theorem Program.global_of_use {program : Program} {options : Options} {resolved : Resolved}
    (h : program.resolve { options } = .done resolved []) {fn : FnDecl}
    (hfn : fn ∈ resolved.program.functions) {id : Ident} (hid : id ∈ fn.body.uses) {ty : Ty}
    (hty : resolved.context.symbols.ty? id = some ty) (hstorable : ty.isStorable) {label : String}
    (hlocation : id.location resolved.context.symbols = .ok (.global label)) :
    label = globalLabel id.name ∧
      ∃ decl, Decl.var decl ∈ resolved.program.decls ∧ decl.id.name = id.name := by
  obtain ⟨symbol, hsymbol, rfl⟩ := Option.map_eq_some_iff.mp hty
  obtain ⟨link, hlink, hget⟩ := Option.bind_eq_some_iff.mp hsymbol
  rcases variable_cases h hfn hid hlink hget hstorable with hown | ⟨decl, hdecl, hdeclared, hname⟩
  · obtain ⟨rfl, -⟩ := linked_of_resolve h
    obtain ⟨offset, hoffset, hle, -⟩ := (laidOut_of_mem hfn).offset?_of_mem hown
    rw [Ident.location_of_offset? hlink hoffset, if_neg (by omega)] at hlocation
    cases hlocation
  · obtain ⟨rfl, -⟩ := linked_of_resolve h
    have hglobal := offset?_of_decl sound_empty hdecl hdeclared
    rw [Ident.location_of_offset? hlink hglobal, if_pos (by decide)] at hlocation
    cases hlocation
    exact ⟨rfl, decl, hdecl, hname⟩

theorem Program.variable_of_use {program : Program} {options : Options} {resolved : Resolved}
    (h : program.resolve { options } = .done resolved []) {fn : FnDecl}
    (hfn : fn ∈ resolved.program.functions) {id : Ident} (hid : id ∈ fn.body.uses) {ty : Ty}
    (hty : resolved.context.symbols.ty? id = some ty) (hstorable : ty.isStorable) {label : String}
    (hlocation : id.location resolved.context.symbols = .ok (.global label)) :
    ∃ decl, Decl.var decl ∈ resolved.program.decls ∧ label = globalLabel decl.id.name := by
  obtain ⟨hlabel, decl, hdecl, hname⟩ := global_of_use h hfn hid hty hstorable hlocation
  exact ⟨decl, hdecl, by rw [hlabel, hname]⟩

end StackMips
