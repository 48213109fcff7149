import StackMips.Proofs.Resolution.SymbolArena
import StackMips.Proofs.Simulation.Frame

/-!
# Names of resolved functions

Also in a program with rejected declarations, the names of a function lead to symbols of types that
values have, and its variables have different places.
-/

namespace StackMips

/-! ## Types of symbols -/

namespace Symbol.Formed

variable {symbols : Arena} {index : Nat} {symbol : Symbol} (h : symbol.Formed symbols index)
include h

/-- No kind of symbol has the type `error`, `void` or `string`. -/
theorem isTyped :
    symbol.ty.isError = false ∧ symbol.ty.isVoid = false ∧ symbol.ty.isString = false := by
  cases hkind : symbol.kind with
  | scalar =>
      rcases h.scalar hkind with hty | hty <;> simp [hty, Ty.isError, Ty.isVoid, Ty.isString]
  | function info => simp [(h.function info hkind).1, Ty.isError, Ty.isVoid, Ty.isString]
  | structDef fields => simp [(h.structDef fields hkind).1, Ty.isError, Ty.isVoid, Ty.isString]
  | structInstance definition =>
      obtain ⟨name, hty, -⟩ := h.structInstance definition hkind
      simp [hty, Ty.isError, Ty.isVoid, Ty.isString]

/-- Only variables have types of values. -/
theorem isVariable (hty : symbol.ty.isStorable) : symbol.IsVariable where
  function := by
    cases hfunction : symbol.function? with
    | none => rfl
    | some info =>
        rw [(h.function info (Symbol.function?_eq_some_iff.mp hfunction)).1] at hty
        cases hty
  ty := hty

end Symbol.Formed

theorem VarDecl.isStorable_of_mem_linkedAll {declare : Resolver → VarDecl → Resolver}
    {decls : List VarDecl} {r : Resolver} {decl : VarDecl} (h : decl ∈ linkedAll declare r decls)
    (haccepted : decl.isAccepted) : decl.type.toTy.isStorable := by
  induction decls generalizing r with
  | nil => cases h
  | cons first decls ih =>
      rcases List.mem_cons.mp h with rfl | hmem
      · cases hkind : first.accepted? r r.table with
        | none => simp [isAccepted, linked, hkind] at haccepted
        | some kind =>
            rw [toTy_linked]
            exact isStorable_of_kind? (kind?_of_accepted? hkind)
      · exact ih hmem

/-! ## Frames -/

namespace FnDecl

theorem mem_accepted_iff {fn : FnDecl} {link : SymbolId} :
    link ∈ fn.acceptedFormals ++ fn.acceptedLocals ↔
      ∃ decl ∈ fn.declared, decl.id.link = some link := by
  rw [acceptedFormals, acceptedLocals, ← VarDecl.links_append, VarDecl.links, List.mem_filterMap]
  rfl

/-- What a function declares is linked to its own words of the frame. -/
theorem mem_accepted_of_symbol? {symbols : Arena} {fn : FnDecl} {decl : VarDecl}
    (hdecl : decl ∈ fn.declared) {symbol : Symbol} (h : symbols.symbol? decl.id = some symbol) :
    ∃ link ∈ fn.acceptedFormals ++ fn.acceptedLocals, decl.id.link = some link ∧
      symbols.get? link = some symbol := by
  obtain ⟨link, hlink, hget⟩ := Option.bind_eq_some_iff.mp h
  exact ⟨link, mem_accepted_iff.mpr ⟨decl, hdecl, hlink⟩, hlink, hget⟩

theorem LaidOut.offset_of_mem {symbols : Arena} {fn : FnDecl} (h : fn.LaidOut symbols)
    {link : SymbolId} (hlink : link ∈ fn.acceptedFormals ++ fn.acceptedLocals) {symbol : Symbol}
    (hget : symbols.get? link = some symbol) : symbol.offset ≤ 0 ∧ symbol.offset % 4 = 0 := by
  have hmem := List.mem_map_of_mem (f := symbols.offset?) hlink
  rw [h.map_offset?, List.mem_append] at hmem
  simp only [List.mem_map, List.mem_range, Arena.offset?, hget, Option.map_some,
    Option.some.injEq] at hmem
  rcases hmem with ⟨k, -, hoffset⟩ | ⟨j, -, hoffset⟩ <;> omega

end FnDecl

/-! ## Whole programs -/

namespace Program

variable {program : Program} {options : Options}

/-- The symbols of a program have types, whether or not all declarations are accepted. -/
theorem typed_linked (program : Program) (options : Options) :
    (program.linked { options }).context.symbols.Typed where
  ty index symbol hget := (program.formed_after options index symbol hget).isTyped
  function index symbol info hget hfunction := by
    rcases Decl.exists_declares hget hfunction with hold | ⟨fn', hfn, hdeclares⟩
    · simp [Resolver.start, Arena.get?] at hold
    · obtain ⟨symbol', info', hget', hfunction', -, hreturn⟩ :=
        declares_of_link (mem_functions.mpr hfn) hdeclares.link
      cases hget.symm.trans hget'
      cases hfunction.symm.trans hfunction'
      refine ⟨fun ty hty => ?_, hreturn ▸ fn'.returnType.isReturnable_toTy⟩
      obtain ⟨fn, -, r, -, rfl, -⟩ := Decl.fn_visited (Resolver.start_atTop sound_empty) hfn
      rw [hdeclares.paramTypes] at hty
      obtain ⟨formal, hformal, rfl⟩ := List.mem_map.mp hty
      obtain ⟨hmem, haccepted⟩ := List.mem_filter.mp hformal
      exact VarDecl.isStorable_of_mem_linkedAll hmem haccepted

section Function

variable {fn : FnDecl} (hfn : fn ∈ (program.linked { options }).program.functions)
include hfn

theorem lookup_of_isGlobal {id : Ident} (hid : id ∈ fn.body.uses) {symbol : Symbol}
    (h : (program.linked { options }).context.symbols.symbol? id = some symbol)
    (hglobal : symbol.isGlobal) :
    (program.after { options }).table.innermost.lookup id.name = id.link := by
  obtain ⟨link, hlink, hget⟩ := Option.bind_eq_some_iff.mp h
  rcases use_cases sound_empty hfn hid hlink with hown | ⟨decl, hdecl, hdeclared, hname⟩
  · have hoffset := ((laidOut_of_mem hfn).offset_of_mem hown hget).1
    simp only [Symbol.isGlobal, decide_eq_true_eq] at hglobal
    omega
  · rw [hlink]
    refine ((program.binds_after { options }).2 id.name link).mpr ⟨decl.binder, ?_⟩
    exact ⟨List.mem_map_of_mem hdecl, by rw [Decl.id_binder, hname],
      by rw [Decl.id_binder, hdeclared]⟩

/-- Different variables of a function have different places. -/
theorem separates_of_mem :
    fn.Separates (program.linked { options }).context.symbols where
  names id hid := by
    obtain ⟨e, he, hmem⟩ := List.mem_flatMap.mp hid
    exact pointsInto_linked program sound_empty (mem_functions.mp hfn) e he id
      (e.uses_subset hmem)
  cases id hid link symbol hlink hget := by
    rcases use_cases sound_empty hfn hid hlink with hown | ⟨decl, hdecl, hdeclared, -⟩
    · exact .inl (FnDecl.mem_accepted_iff.mp hown)
    · have hoffset := offset?_of_decl sound_empty hdecl hdeclared
      rw [Arena.offset?, hget, Option.map_some, Option.some.injEq] at hoffset
      exact .inr (by simp [Symbol.isGlobal, hoffset, globalOffset])
  slots decl hdecl symbol hsymbol := by
    obtain ⟨link, hmem, -, hget⟩ := FnDecl.mem_accepted_of_symbol? hdecl hsymbol
    exact (laidOut_of_mem hfn).offset_of_mem hmem hget
  slots_inj decl hdecl decl' hdecl' symbol symbol' hsymbol hsymbol' hoffset := by
    obtain ⟨link, hmem, hlink, hget⟩ := FnDecl.mem_accepted_of_symbol? hdecl hsymbol
    obtain ⟨link', hmem', hlink', hget'⟩ := FnDecl.mem_accepted_of_symbol? hdecl' hsymbol'
    have hsame := List.inj_on_of_nodup_map (laidOut_of_mem hfn).nodup hmem hmem'
      (by simp [Arena.offset?, hget, hget', hoffset])
    rw [hlink, hlink', hsame]
  globals_inj id hid id' hid' symbol symbol' hsymbol hsymbol' hglobal hglobal' hname := by
    rw [← lookup_of_isGlobal hfn hid hsymbol hglobal,
      ← lookup_of_isGlobal hfn hid' hsymbol' hglobal', hname]

end Function

end Program

end StackMips
