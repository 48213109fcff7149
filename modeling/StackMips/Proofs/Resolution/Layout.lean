import Mathlib.Data.List.Nodup
import StackMips.Lowering.Frame
import StackMips.Proofs.Resolution.StaticScope

/-!
# Frame layout

Where the variables of a function are, in every program: also in one with rejected declarations,
which get no symbol and no word of the frame.  The sign of the offset tells the variables of a frame
from what is declared at top level.
-/

namespace StackMips

/-! ## Offsets -/

namespace Arena

def offset? (symbols : Arena) (id : SymbolId) : Option Int := (symbols.get? id).map Symbol.offset

theorem Keeps.offset? {a b : Arena} (h : a.Keeps b) {id : SymbolId} {offset : Int}
    (hoffset : a.offset? id = some offset) : b.offset? id = some offset := by
  obtain ⟨symbol, hget, rfl⟩ := Option.map_eq_some_iff.mp hoffset
  obtain ⟨symbol', hget', hsame⟩ := h _ _ hget
  rw [Arena.offset?, hget', Option.map_some, hsame.offset]

end Arena

theorem Resolver.Slots.offset? {r r' : Resolver} {decls : List VarDecl} (hslots : r.Slots r')
    (hnumbers : r.Numbers r' decls) {i : Nat} {link : SymbolId}
    (h : (VarDecl.links decls)[i]? = some link) :
    r'.symbols.offset? link = some (r.frameOffset - 4 * i) := by
  obtain ⟨hi, -⟩ := List.getElem?_eq_some_iff.mp h
  have hlink : link = r.symbols.size + i := by
    rw [hnumbers.links, List.getElem?_range' hi] at h
    simpa using h.symm
  have hsize := hnumbers.size
  obtain ⟨symbol, hget⟩ := Arena.exists_get?_of_lt
    (show r.symbols.size + i < r'.symbols.size by omega)
  have hoffset := (hslots.slot _ symbol (by omega) hget).2
  rw [hlink, Arena.offset?, hget, Option.map_some]
  simp only [wordSize] at hoffset
  congr 1
  omega

theorem Ident.symbol_eq_ok_iff {symbols : Arena} {id : Ident} {symbol : Symbol} :
    id.symbol symbols = .ok symbol ↔
      ∃ link, id.link = some link ∧ symbols.get? link = some symbol := by
  cases hlink : id.link with
  | none => simp [Ident.symbol, hlink]
  | some link => simp [Ident.symbol, hlink, Arena.fetch_eq_ok_iff]

namespace FnDecl

def acceptedFormals (fn : FnDecl) : List SymbolId := VarDecl.links fn.formals

def acceptedLocals (fn : FnDecl) : List SymbolId := VarDecl.links fn.body.locals

/-- The accepted variables have consecutive words of the frame, two of which are left out between
the formals and the locals, and the function knows how many there are. -/
structure LaidOut (symbols : Arena) (fn : FnDecl) : Prop where
  formalAt : ∀ (k : Nat) link, fn.acceptedFormals[k]? = some link →
    symbols.offset? link = some (-(4 * (k : Int)))
  localAt : ∀ (j : Nat) link, fn.acceptedLocals[j]? = some link →
    symbols.offset? link = some (-(4 * (fn.acceptedFormals.length : Int) + 8 + 4 * j))
  info : fn.id.link.isSome → ∃ info, fn.info symbols = .ok info ∧
    info.paramsSize = 4 * fn.acceptedFormals.length ∧
    info.localsSize = 4 * fn.acceptedLocals.length

theorem info_eq_ok_iff {symbols : Arena} {fn : FnDecl} {info : FunctionInfo} :
    fn.info symbols = .ok info ↔ ∃ link symbol, fn.id.link = some link ∧
      symbols.get? link = some symbol ∧ symbol.function? = some info := by
  have hinfo : fn.info symbols = .ok info ↔
      ∃ symbol, fn.id.symbol symbols = .ok symbol ∧ symbol.function? = some info := by
    unfold FnDecl.info
    cases fn.id.symbol symbols with
    | error fault => simp [bind, Except.bind]
    | ok symbol =>
        cases hfunction : symbol.function? <;>
          simp [bind, Except.bind, pure, Except.pure, hfunction]
  simp only [hinfo, Ident.symbol_eq_ok_iff]
  constructor
  · rintro ⟨symbol, ⟨link, hlink, hget⟩, hfunction⟩
    exact ⟨link, symbol, hlink, hget, hfunction⟩
  · rintro ⟨link, symbol, hlink, hget, hfunction⟩
    exact ⟨symbol, ⟨link, hlink, hget⟩, hfunction⟩

namespace LaidOut

variable {symbols : Arena} {fn : FnDecl} (h : fn.LaidOut symbols)
include h

theorem mono {symbols' : Arena} (hextends : symbols.Extends symbols') : fn.LaidOut symbols' where
  formalAt k link hlink := hextends.keeps.offset? (h.formalAt k link hlink)
  localAt j link hlink := hextends.keeps.offset? (h.localAt j link hlink)
  info hlink := by
    obtain ⟨info, hinfo, hsizes⟩ := h.info hlink
    obtain ⟨link, symbol, hlink, hget, hfunction⟩ := info_eq_ok_iff.mp hinfo
    exact ⟨info, info_eq_ok_iff.mpr ⟨link, symbol, hlink, hextends _ _ hget, hfunction⟩, hsizes⟩

/-- The offsets of all accepted variables. -/
theorem map_offset? : (fn.acceptedFormals ++ fn.acceptedLocals).map symbols.offset? =
    ((List.range fn.acceptedFormals.length).map fun k : Nat => some (-(4 * (k : Int)))) ++
      (List.range fn.acceptedLocals.length).map fun j : Nat =>
        some (-(4 * (fn.acceptedFormals.length : Int) + 8 + 4 * j)) := by
  rw [List.map_append]
  congr 1
  · refine List.ext_getElem (by simp) fun k hk _ => ?_
    rw [List.length_map] at hk
    simpa using h.formalAt k _ (List.getElem?_eq_getElem hk)
  · refine List.ext_getElem (by simp) fun j hj _ => ?_
    rw [List.length_map] at hj
    simpa using h.localAt j _ (List.getElem?_eq_getElem hj)

theorem nodup : ((fn.acceptedFormals ++ fn.acceptedLocals).map symbols.offset?).Nodup := by
  rw [h.map_offset?, List.nodup_append]
  refine ⟨?_, ?_, ?_⟩
  · refine List.Nodup.map (fun a b hab => ?_) List.nodup_range
    rw [Option.some.injEq] at hab
    omega
  · refine List.Nodup.map (fun a b hab => ?_) List.nodup_range
    rw [Option.some.injEq] at hab
    omega
  · simp only [List.mem_map, List.mem_range]
    rintro _ ⟨k, hk, rfl⟩ _ ⟨j, hj, rfl⟩ heq
    rw [Option.some.injEq] at heq
    omega

/-- No variable is positive, and none is at the two words between formals and locals. -/
theorem offset?_of_mem {link : SymbolId} (hlink : link ∈ fn.acceptedFormals ++ fn.acceptedLocals) :
    ∃ offset, symbols.offset? link = some offset ∧ offset ≤ 0 ∧
      offset ≠ -(4 * (fn.acceptedFormals.length : Int)) ∧
      offset ≠ -(4 * (fn.acceptedFormals.length : Int) + 4) := by
  have hmem := List.mem_map_of_mem (f := symbols.offset?) hlink
  rw [h.map_offset?, List.mem_append] at hmem
  simp only [List.mem_map, List.mem_range] at hmem
  rcases hmem with ⟨k, hk, hoffset⟩ | ⟨j, hj, hoffset⟩
  · exact ⟨_, hoffset.symm, by omega, by omega, by omega⟩
  · exact ⟨_, hoffset.symm, by omega, by omega, by omega⟩

end LaidOut

/-! ## The walk through a function -/

variable (r : Resolver) (fn : FnDecl)

theorem length_acceptedTypes (decls : List VarDecl) :
    (VarDecl.acceptedTypes decls).length = (VarDecl.links decls).length := by
  rw [VarDecl.acceptedTypes, VarDecl.links, List.length_map, List.length_filterMap_eq_countP,
    List.countP_eq_length_filter]
  rfl

/-- Every function is laid out, whatever is wrong with it. -/
theorem laidOut_linked : (fn.linked r).LaidOut (fn.after r).symbols where
  formalAt k link hlink := by
    have hoffset := (slots_inside r fn).offset? ((numbers_formals r fn).of_symbols rfl rfl) hlink
    have hstart : (fn.opened r).frameOffset = 0 := rfl
    rw [hstart, Int.zero_sub] at hoffset
    exact (keeps_after r fn).offset? ((slots_body r fn).symbols.keeps.offset? hoffset)
  localAt j link hlink := by
    have hoffset := (slots_body r fn).offset? (numbers_locals r fn) hlink
    rw [(keeps_after r fn).offset? hoffset, frameOffset_inside]
    simp only [wordSize, linkageSize, acceptedFormals]
    congr 1
    omega
  info hlink := by
    have htaken : fn.isTaken r = false := by
      cases htaken : fn.isTaken r with
      | false => rfl
      | true => simp [linked, htaken] at hlink
    refine ⟨{ paramTypes := VarDecl.acceptedTypes (fn.linkedFormals r)
              returnType := fn.returnType.toTy
              numParams := fn.formals.length
              paramsSize := wordSize * (VarDecl.acceptedTypes (fn.linkedFormals r)).length
              localsSize := wordSize * (fn.walked r).localWords }, ?_, ?_, ?_⟩
    · exact info_eq_ok_iff.mpr ⟨_, _, by simp [linked, htaken], get?_own htaken, rfl⟩
    · rw [length_acceptedTypes]
      rfl
    · rw [localWords_walked]
      rfl

/-- A name in a body stands for a variable of the function or is bound in the global scope. -/
theorem use_cases {r : Resolver} (hr : r.AtTop) (fn : FnDecl) :
    ∀ id ∈ (fn.linked r).body.uses, ∀ link, id.link = some link →
      link ∈ (fn.linked r).acceptedFormals ++ (fn.linked r).acceptedLocals ∨
        (fn.named r).table.innermost.lookup id.name = some link := by
  intro id hid link hlink
  obtain ⟨e', he', huse⟩ := List.mem_flatMap.mp hid
  obtain ⟨e, _, s, ⟨hsound, hinside⟩, hextends, rfl, _⟩ := exprs_visited hr fn e' he'
  rw [Expr.uses_linked] at huse
  obtain ⟨id, -, rfl⟩ := List.mem_map.mp huse
  refine (hinside.lookup hlink).imp_left fun hbase => ?_
  have hlt := (hsound.table.knows_of_lookup hlink).lt_size
  have hle := hextends.size_le
  have hopened : (fn.opened r).symbols.size = (fn.named r).symbols.size := rfl
  have hformals := numbers_formals r fn
  have hlocals := numbers_locals r fn
  have hsize := hformals.size
  have hsize' := hlocals.size
  rw [acceptedFormals, acceptedLocals, hformals.links, hlocals.links, List.mem_append,
    List.mem_range'_1, List.mem_range'_1]
  rcases Nat.lt_or_ge link (fn.inside r).symbols.size with hlink | hlink
  · exact .inl ⟨by omega, by omega⟩
  · exact .inr ⟨by omega, by omega⟩

end FnDecl

/-! ## Whole programs -/

namespace Decl

theorem atTop_afterAll {r : Resolver} (hr : r.AtTop) (decls : List Decl) :
    (afterAll r decls).AtTop := by
  induction decls generalizing r with
  | nil => exact hr
  | cons decl decls ih => exact ih (hr.decl decl)

theorem linkedAll_append (r : Resolver) (before behind : List Decl) :
    linkedAll r (before ++ behind) =
      linkedAll r before ++ linkedAll (afterAll r before) behind := by
  induction before generalizing r with
  | nil => rfl
  | cons decl before ih =>
      rw [List.cons_append, linkedAll, ih, linkedAll, List.cons_append]
      rfl

theorem fn_behind {r : Resolver} {decls : List Decl} {fn' : FnDecl}
    (h : Decl.fn fn' ∈ linkedAll r decls) :
    ∃ before fn behind, decls = before ++ .fn fn :: behind ∧
      fn' = fn.linked (afterAll r before) := by
  induction decls generalizing r with
  | nil => simp [linkedAll] at h
  | cons decl decls ih =>
      rcases List.mem_cons.mp h with hdecl | hdecls
      · cases decl with
        | var _ | struct _ => cases hdecl
        | fn fn =>
            cases hdecl
            exact ⟨[], fn, decls, rfl, rfl⟩
      · obtain ⟨before, fn, behind, rfl, hfn⟩ := ih hdecls
        exact ⟨decl :: before, fn, behind, rfl, hfn⟩

end Decl

theorem Ident.location_of_offset? {symbols : Arena} {id : Ident} {link : SymbolId} {offset : Int}
    (hlink : id.link = some link) (hoffset : symbols.offset? link = some offset) :
    id.location symbols =
      .ok (if 0 < offset then .global (globalLabel id.name) else .frame offset) := by
  obtain ⟨symbol, hget, rfl⟩ := Option.map_eq_some_iff.mp hoffset
  rw [Ident.location, Ident.symbol_eq_ok_iff.mpr ⟨link, hlink, hget⟩]
  simp [bind, Except.bind, Symbol.isGlobal, pure, Except.pure]

namespace Program

variable {program : Program} {context : Context}

/-- The accepted top-level declarations lie outside the frames. -/
theorem offset?_of_decl (hcontext : context.symbols.Sound) {decl : Decl}
    (hdecl : decl ∈ (program.linked context).program.decls) {link : SymbolId}
    (hlink : decl.id.link = some link) :
    (program.linked context).context.symbols.offset? link = some globalOffset := by
  have htop : (program.after context).AtTop :=
    Decl.atTop_afterAll (Resolver.start_atTop hcontext) program.decls
  have hlookup := ((program.binds_after context).2 decl.id.name link).mpr
    ⟨decl.binder, List.mem_map_of_mem hdecl, by rw [Decl.id_binder], by rw [Decl.id_binder, hlink]⟩
  obtain ⟨symbol, hget, hoffset⟩ := htop.globals _ (Scope.mem_of_lookup hlookup)
  exact Option.map_eq_some_iff.mpr ⟨symbol, hget, hoffset⟩

theorem laidOut_of_mem {fn : FnDecl} (hfn : fn ∈ (program.linked context).program.functions) :
    fn.LaidOut (program.linked context).context.symbols := by
  obtain ⟨before, fn, behind, hdecls, rfl⟩ := Decl.fn_behind (mem_functions.mp hfn)
  refine (fn.laidOut_linked _).mono ?_
  have hafter : program.after context =
      Decl.afterAll (fn.after (Decl.afterAll (Resolver.start context) before)) behind := by
    simp [Program.after, hdecls, Decl.afterAll, Decl.after]
  change Arena.Extends _ (program.after context).symbols
  rw [hafter]
  exact (Decl.grows_afterAll _ behind).symbols

/-- A name in a body stands for a variable of its function or for a top-level declaration. -/
theorem use_cases (hcontext : context.symbols.Sound) {fn : FnDecl}
    (hfn : fn ∈ (program.linked context).program.functions) {id : Ident}
    (hid : id ∈ fn.body.uses) {link : SymbolId} (hlink : id.link = some link) :
    link ∈ fn.acceptedFormals ++ fn.acceptedLocals ∨
      ∃ decl ∈ (program.linked context).program.decls,
        decl.id.link = some link ∧ decl.id.name = id.name := by
  obtain ⟨before, fn, behind, hdecls, rfl⟩ := Decl.fn_behind (mem_functions.mp hfn)
  have htop := Decl.atTop_afterAll (Resolver.start_atTop hcontext) before
  refine (fn.use_cases htop id hid link hlink).imp_right fun hlookup => ?_
  have hmirrors := FnDecl.mirrors_named
    (Decl.mirrors_afterAll (start_mirrors context) before) fn
  obtain ⟨binder, hbinder, hname, hbound⟩ :=
    ((List.forall₂_cons.mp hmirrors.scopes).1 id.name link).mp hlookup
  have hlinked : (program.linked context).program.decls =
      Decl.linkedAll (Resolver.start context) before ++
        Decl.linkedAll (Decl.afterAll (Resolver.start context) before) (.fn fn :: behind) := by
    rw [← Decl.linkedAll_append, ← hdecls]
    rfl
  rw [hlinked]
  simp only [List.nil_append, List.mem_append, List.mem_map, List.mem_singleton] at hbinder
  rcases hbinder with ⟨decl, hdecl, rfl⟩ | rfl
  · exact ⟨decl, by simp [hdecl], by simpa using hbound, by simpa using hname⟩
  · exact ⟨.fn (fn.linked _), by simp [Decl.linkedAll, Decl.linked], hbound, hname⟩

/-- The variables of every function are laid out in its frame, whether or not all declarations are
accepted.  Top-level declarations have positive offsets, variables of frames do not, and a name is
addressed by a label exactly if it stands for a top-level declaration. -/
theorem resolve_layout (hcontext : context.symbols.Sound) (hgrammar : program.InGrammar)
    (hunlinked : program.Unlinked) :
    ∃ resolved reports, program.resolve context = .done resolved reports ∧
      (∀ fn ∈ resolved.program.functions, fn.LaidOut resolved.context.symbols ∧
        ((fn.acceptedFormals ++ fn.acceptedLocals).map
          resolved.context.symbols.offset?).Nodup ∧
        ∀ link ∈ fn.acceptedFormals ++ fn.acceptedLocals, ∃ offset,
          resolved.context.symbols.offset? link = some offset ∧ offset ≤ 0 ∧
          offset ≠ -(4 * (fn.acceptedFormals.length : Int)) ∧
          offset ≠ -(4 * (fn.acceptedFormals.length : Int) + 4)) ∧
      (∀ decl ∈ resolved.program.decls, ∀ link, decl.id.link = some link → ∃ offset,
        resolved.context.symbols.offset? link = some offset ∧ 0 < offset) ∧
      ∀ fn ∈ resolved.program.functions, ∀ id ∈ fn.body.uses, ∀ link, id.link = some link →
        ∃ location, id.location resolved.context.symbols = .ok location ∧
          ((∃ label, location = .global label) ↔
            ∃ decl ∈ resolved.program.decls, decl.id.link = some link) := by
  refine ⟨_, _, resolve_eq hcontext hgrammar hunlinked, ?_, ?_, ?_⟩
  · intro fn hfn
    have hlaid := laidOut_of_mem hfn
    exact ⟨hlaid, hlaid.nodup, fun link => hlaid.offset?_of_mem⟩
  · intro decl hdecl link hlink
    exact ⟨_, offset?_of_decl hcontext hdecl hlink, by decide⟩
  · intro fn hfn id hid link hlink
    rcases use_cases hcontext hfn hid hlink with hown | ⟨decl, hdecl, hdeclared, -⟩
    · obtain ⟨offset, hoffset, hle, -⟩ := (laidOut_of_mem hfn).offset?_of_mem hown
      refine ⟨_, Ident.location_of_offset? hlink hoffset, ?_⟩
      rw [if_neg (by omega)]
      refine ⟨nofun, fun ⟨decl, hdecl, hdeclared⟩ => ?_⟩
      have hglobal := offset?_of_decl hcontext hdecl hdeclared
      rw [hoffset, Option.some.injEq] at hglobal
      simp only [globalOffset] at hglobal
      omega
    · refine ⟨_, Ident.location_of_offset? hlink (offset?_of_decl hcontext hdecl hdeclared), ?_⟩
      rw [if_pos (by decide)]
      exact ⟨fun _ => ⟨decl, hdecl, hdeclared⟩, fun _ => ⟨_, rfl⟩⟩

/-- Two of the six variables are rejected, and the others are consecutive. -/
theorem resolve_shadowing_layout : ∃ resolved reports,
    shadowing.resolve {} = .done resolved reports ∧ ∃ fn ∈ resolved.program.functions,
      fn.formals.length + fn.body.locals.length = 6 ∧
      (fn.acceptedFormals ++ fn.acceptedLocals).map resolved.context.symbols.offset? =
        [some 0, some (-12), some (-16), some (-20)] := by
  have hresolve : shadowing.resolve {} =
      .done (shadowing.linked {}) (shadowing.resolutionReports {}) :=
    resolve_eq sound_empty (by decide) (by decide)
  obtain ⟨resolved, reports, h, hlayout, -⟩ := resolve_layout
    (show (Context.symbols {}).Sound from sound_empty)
    (show shadowing.InGrammar by decide +kernel) (by decide +kernel)
  obtain ⟨rfl, rfl⟩ := Reporting.done.inj (hresolve.symm.trans h)
  obtain ⟨fn, hfn⟩ : ∃ fn, (shadowing.linked {}).program.functions = [fn] := ⟨_, rfl⟩
  have hmem : fn ∈ (shadowing.linked {}).program.functions := by simp [hfn]
  refine ⟨_, _, hresolve, fn, hmem, ?_, ?_⟩
  · have hcount : ∀ fn ∈ (shadowing.linked {}).program.functions,
        fn.formals.length + fn.body.locals.length = 6 := by decide +kernel
    exact hcount fn hmem
  · have haccepted : ∀ fn ∈ (shadowing.linked {}).program.functions,
        fn.acceptedFormals.length = 1 ∧ fn.acceptedLocals.length = 3 := by decide +kernel
    obtain ⟨hformals, hlocals⟩ := haccepted fn hmem
    rw [(hlayout fn hmem).1.map_offset?, hformals, hlocals]
    rfl

end Program

end StackMips
