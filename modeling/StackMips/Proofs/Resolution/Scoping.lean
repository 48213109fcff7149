import StackMips.Proofs.Resolution.Frame

/-!
# Scopes of a function

Inside a function every name is bound to a variable of its own frame or, in the one global scope, to
what has been declared at top level.  So two names of a function body that lead to different symbols
live in different places.
-/

namespace StackMips

/-! ## Inside a function -/

/-- The scopes inside a function: those above `globals` bind the symbols from `base` on. -/
structure Resolver.Inside (base : Nat) (globals : Scope) (r : Resolver) : Prop where
  base_le : base ≤ r.symbols.size
  scopes : ∃ inner, inner ≠ [] ∧ r.table.scopes = inner ++ [globals] ∧
    ∀ scope ∈ inner, ∀ binding ∈ scope.bindings, base ≤ binding.2

namespace Resolver

variable {base : Nat} {globals : Scope}

theorem Inside.enter {r : Resolver} (h : r.Inside base globals) : r.enter.Inside base globals := by
  obtain ⟨inner, _, hscopes, hinner⟩ := h.scopes
  refine ⟨h.base_le, {} :: inner, by simp, ?_, ?_⟩
  · simp [Resolver.enter, SymbolTable.enter, SymbolTable.scopes, ← hscopes]
  · simpa using hinner

theorem Inside.accept {r : Resolver} (h : r.Inside base globals) (symbol : Symbol) :
    (r.accept symbol).Inside base globals := by
  have hle := h.base_le
  obtain ⟨inner, hne, hscopes, hinner⟩ := h.scopes
  refine ⟨by simp only [Resolver.accept, allocate, Arena.size_push]; omega, ?_⟩
  cases inner with
  | nil => exact absurd rfl hne
  | cons first inner =>
      simp only [SymbolTable.scopes, List.cons_append, List.cons.injEq] at hscopes
      obtain ⟨rfl, henclosing⟩ := hscopes
      refine ⟨_ :: inner, by simp, by simp [Resolver.accept, SymbolTable.extend,
        SymbolTable.scopes, henclosing, allocate]; rfl, ?_⟩
      simp only [List.forall_mem_cons] at hinner ⊢
      exact ⟨⟨hle, hinner.1⟩, hinner.2⟩

theorem Inside.declareFormal {r : Resolver} (h : r.Inside base globals) (decl : VarDecl) :
    (r.declareFormal decl).Inside base globals := by
  unfold Resolver.declareFormal
  split
  · exact h
  · exact ⟨(h.accept _).base_le, (h.accept _).scopes⟩

theorem Inside.declareFormals {r : Resolver} (h : r.Inside base globals) (decls : List VarDecl) :
    (r.declareFormals decls).Inside base globals := by
  induction decls generalizing r with
  | nil => exact h
  | cons decl decls ih => exact ih (h.declareFormal decl)

theorem inside_isInvariant (base : Nat) (globals : Scope) :
    IsInvariant (Resolver.Inside base globals) where
  enter _ := Inside.enter
  declareLocal r decl h := by
    unfold Resolver.declareLocal
    split
    · exact h
    · exact ⟨(h.accept _).base_le, (h.accept _).scopes⟩
  backTo _ _ h h' _ := ⟨h'.base_le, h.scopes⟩

/-- A name is bound in the frame or in the global scope. -/
theorem Inside.lookup {r : Resolver} (h : r.Inside base globals) {name : String} {id : Nat}
    (hid : r.table.lookup name = some id) : base ≤ id ∨ globals.lookup name = some id := by
  obtain ⟨inner, _, hscopes, hinner⟩ := h.scopes
  rw [SymbolTable.lookup, hscopes, List.findSome?_append] at hid
  cases hfound : inner.findSome? (·.lookup name) with
  | some found =>
      obtain ⟨scope, hscope, hlookup⟩ := List.exists_of_findSome?_eq_some hfound
      simp only [hfound, Option.some_or, Option.some.injEq] at hid
      exact .inl (hid ▸ hinner scope hscope _ (Scope.mem_of_lookup hlookup))
  | none =>
      simp only [hfound, Option.none_or, List.findSome?_cons, List.findSome?_nil] at hid
      cases hglobal : globals.lookup name with
      | none => simp [hglobal] at hid
      | some found => exact .inr (by simpa [hglobal] using hid)

end Resolver

/-! ## Between the top-level declarations -/

/-- All names are bound to symbols that live outside the frames. -/
def Scope.IsGlobal (symbols : Arena) (scope : Scope) : Prop :=
  ∀ binding ∈ scope.bindings, ∃ symbol, symbols.get? binding.2 = some symbol ∧
    symbol.offset = globalOffset

theorem Scope.IsGlobal.mono {a b : Arena} {scope : Scope} (h : scope.IsGlobal a)
    (hkeeps : a.Keeps b) : scope.IsGlobal b := by
  intro binding hbinding
  obtain ⟨symbol, hget, hoffset⟩ := h binding hbinding
  obtain ⟨symbol', hget', hsame⟩ := hkeeps _ _ hget
  exact ⟨symbol', hget', hsame.offset.trans hoffset⟩

structure Resolver.AtTop (r : Resolver) : Prop where
  sound : r.Sound
  enclosing : r.table.enclosing = []
  globals : r.table.innermost.IsGlobal r.symbols

namespace Resolver

theorem AtTop.of_keeps {r r' : Resolver} (h : r.AtTop) (hsound : r'.Sound)
    (htable : r'.table = r.table) (hkeeps : r.symbols.Keeps r'.symbols) : r'.AtTop where
  sound := hsound
  enclosing := htable ▸ h.enclosing
  globals := htable ▸ h.globals.mono hkeeps

theorem AtTop.accept {r : Resolver} (h : r.AtTop) {symbol : Symbol}
    (hsound : symbol.Sound r.symbols) (hoffset : symbol.offset = globalOffset) :
    (r.accept symbol).AtTop where
  sound := h.sound.accept hsound
  enclosing := h.enclosing
  globals := by
    have hold := h.globals.mono (r.symbols.extends_push symbol).keeps
    simp only [Scope.IsGlobal, Resolver.accept, SymbolTable.extend, List.forall_mem_cons]
    exact ⟨⟨symbol, r.symbols.get?_push_size symbol, hoffset⟩, hold⟩

theorem start_atTop {context : Context} (h : context.symbols.Sound) :
    (Resolver.start context).AtTop :=
  ⟨Resolver.start_sound h, rfl, by simp [Scope.IsGlobal, Resolver.start]⟩

theorem AtTop.declareGlobal {r : Resolver} (h : r.AtTop) (decl : VarDecl) :
    (r.declareGlobal decl).AtTop := by
  unfold Resolver.declareGlobal
  split
  · exact h
  · next kind hkind => exact h.accept (VarDecl.symbol_sound hkind _) rfl

theorem AtTop.named {r : Resolver} (h : r.AtTop) (fn : FnDecl) : (fn.named r).AtTop := by
  unfold FnDecl.named
  split
  · exact h
  · exact h.accept (fn.sound_ofFunction _) rfl

theorem AtTop.fn {r : Resolver} (h : r.AtTop) (fn : FnDecl) : (fn.after r).AtTop := by
  have hwalked : (fn.walked r).AtTop := (h.named fn).of_keeps
    ((fn.grows_walked r).sound h.sound) rfl (fn.grows_body r).backTo.symbols.keeps
  have hsound := (fn.grows_after r).sound h.sound
  unfold FnDecl.after at hsound ⊢
  split at hsound
  · next htaken =>
      rw [if_pos htaken]
      exact hwalked
  · next htaken =>
      rw [if_neg htaken]
      exact hwalked.of_keeps hsound rfl
        (Arena.keeps_modify _ _ fun symbol => Symbol.sameRole_withFrame symbol _ _ _)

theorem AtTop.struct {r : Resolver} (h : r.AtTop) (struct : StructDecl) :
    (struct.after r).AtTop := by
  have hwalked : (struct.walked r).AtTop := h.of_keeps ((struct.grows_walked r).sound h.sound)
    (struct.walked_table r) (struct.grows_walked r).symbols.keeps
  unfold StructDecl.after
  split
  · exact hwalked
  · exact hwalked.accept (struct.sound_ofStructDef h.sound) rfl

theorem AtTop.decl {r : Resolver} (h : r.AtTop) (decl : Decl) : (decl.after r).AtTop := by
  cases decl with
  | var decl => exact h.declareGlobal decl
  | fn decl => exact h.fn decl
  | struct decl => exact h.struct decl

/-- The walk through a function starts inside the function. -/
theorem AtTop.inside {r : Resolver} (h : r.AtTop) (fn : FnDecl) :
    (fn.inside r).Inside (fn.named r).symbols.size (fn.named r).table.innermost := by
  have hopened : (fn.opened r).Inside (fn.named r).symbols.size (fn.named r).table.innermost := by
    refine ⟨Nat.le_refl _, [{}], by simp, ?_, by simp⟩
    simp [FnDecl.opened, Resolver.enter, SymbolTable.enter, SymbolTable.scopes,
      (h.named fn).enclosing]
  have hformals := hopened.declareFormals fn.formals
  exact ⟨hformals.base_le, hformals.scopes⟩

end Resolver

/-! ## Names in a resolved function -/

structure FnDecl.Scoped (symbols : Arena) (index : Nat) (globals : Scope) (fn : FnDecl) :
    Prop where
  linked : ∀ e ∈ fn.body.allExprs, ∀ id ∈ e.idents, id.link.isSome ∧ id.PointsInto symbols
  uses : ∀ id ∈ fn.body.uses, ∃ link : Nat, id.link = some link ∧
    (index < link ∧ link ≤ index + fn.formals.length + fn.body.locals.length ∨
      link ≤ index ∧ globals.lookup id.name = some link)
  isGlobal : globals.IsGlobal symbols

namespace FnDecl

theorem Scoped.mono {a b : Arena} {index : Nat} {globals : Scope} {fn : FnDecl}
    (h : fn.Scoped a index globals) (hextends : a.Extends b) : fn.Scoped b index globals where
  linked e he id hid := ⟨(h.linked e he id hid).1, (h.linked e he id hid).2.mono hextends.keeps⟩
  uses := h.uses
  isGlobal := h.isGlobal.mono hextends.keeps

theorem keeps_after (r : Resolver) (fn : FnDecl) :
    (fn.body.after (fn.inside r)).symbols.Keeps (fn.after r).symbols := by
  unfold after
  split
  · exact (Arena.Extends.refl _).keeps
  · exact Arena.keeps_modify _ _ fun symbol => Symbol.sameRole_withFrame symbol _ _ _

theorem exprs_visited {r : Resolver} (hr : r.AtTop) (fn : FnDecl) :
    ∀ e' ∈ (fn.linked r).body.allExprs, ∃ e ∈ fn.body.allExprs, ∃ s : Resolver,
      (s.Sound ∧ s.Inside (fn.named r).symbols.size (fn.named r).table.innermost) ∧
      s.symbols.Extends (fn.body.after (fn.inside r)).symbols ∧ e' = e.linked s ∧
      (fn.body.reports (fn.inside r) = [] → e.reports s = []) :=
  Block.exprs_visited (Resolver.sound_isInvariant.and (Resolver.inside_isInvariant _ _))
    ⟨fn.inside_sound hr.sound, hr.inside fn⟩ fn.body

theorem scoped_linked {r : Resolver} (hr : r.AtTop) {fn : FnDecl} (hgrammar : fn.body.InGrammar)
    (h : fn.reports r = []) :
    (fn.linked r).Scoped (fn.after r).symbols r.symbols.size (fn.named r).table.innermost := by
  obtain ⟨htaken, _, hbody⟩ := quiet_parts h
  have hnamed : (fn.named r).symbols.size = r.symbols.size + 1 := size_opened h
  have htop := hr.named fn
  refine ⟨fun e' he' id hid => ?_, fun id hid => ?_, ?_⟩
  · obtain ⟨e, he, s, ⟨hsound, _⟩, hextends, rfl, hquiet⟩ := exprs_visited hr fn e' he'
    have hlinked := Expr.isSome_link_of_quiet (hgrammar.allExprs e he) (hquiet hbody) id hid
    have hpoints := (Expr.pointsInto_linked hsound e id hid).mono hextends.keeps
    exact ⟨hlinked, hpoints.mono (keeps_after r fn)⟩
  · obtain ⟨e', he', huse⟩ := List.mem_flatMap.mp hid
    obtain ⟨e, he, s, ⟨hsound, hinside⟩, hextends, rfl, hquiet⟩ := exprs_visited hr fn e' he'
    have hlinked := Expr.isSome_link_of_quiet (hgrammar.allExprs e he) (hquiet hbody) id
      (Expr.uses_subset _ huse)
    obtain ⟨(link : Nat), hlink⟩ := Option.isSome_iff_exists.mp hlinked
    rw [Expr.uses_linked] at huse
    obtain ⟨id, -, rfl⟩ := List.mem_map.mp huse
    have hlt := (hsound.table.knows_of_lookup hlink).lt_size
    have hle := hextends.size_le
    have hsize := size_body h
    refine ⟨link, hlink, ?_⟩
    rcases hinside.lookup hlink with hbase | hglobal
    · exact .inl ⟨by omega, by omega⟩
    · have hmem := Scope.mem_of_lookup hglobal
      have hlt := (htop.sound.table _ (by simp [SymbolTable.scopes]) _ hmem).lt_size
      exact .inr ⟨by omega, hglobal⟩
  · have hextends := (fn.grows_body r).backTo.symbols
    exact (htop.globals.mono hextends.keeps).mono (keeps_after r fn)

end FnDecl

/-! ## Whole programs -/

theorem Decl.fn_visited {decls : List Decl} {r : Resolver} (hr : r.AtTop) {fn' : FnDecl}
    (h : Decl.fn fn' ∈ linkedAll r decls) :
    ∃ fn, Decl.fn fn ∈ decls ∧ ∃ s : Resolver, s.AtTop ∧ fn' = fn.linked s ∧
      (fn.after s).symbols.Extends (afterAll r decls).symbols ∧
      (reportsAll r decls = [] → fn.reports s = []) := by
  induction decls generalizing r with
  | nil => simp [linkedAll] at h
  | cons decl decls ih =>
      rcases List.mem_cons.mp h with hdecl | hdecls
      · cases decl with
        | var _ | struct _ => cases hdecl
        | fn fn =>
            cases hdecl
            refine ⟨fn, by simp, r, hr, rfl, (grows_afterAll _ decls).symbols, fun hquiet => ?_⟩
            exact (List.append_eq_nil_iff.mp hquiet).1
      · obtain ⟨fn, hfn, s, hs, heq, hextends, hquiet⟩ := ih (hr.decl decl) hdecls
        refine ⟨fn, by simp [hfn], s, hs, heq, hextends, fun hreports => ?_⟩
        exact hquiet (List.append_eq_nil_iff.mp hreports).2

structure Symbol.IsStruct (symbol : Symbol) : Prop where
  function : symbol.function? = none
  ty : symbol.ty.isStructDef

theorem StructDecl.fieldsAfter_variables (r : Resolver) (table : SymbolTable) (offset : Int)
    (decls : List VarDecl) {id : SymbolId} {symbol : Symbol}
    (h : (fieldsAfter r table offset decls).1.symbols.get? id = some symbol) :
    r.symbols.get? id = some symbol ∨ symbol.IsVariable := by
  induction decls generalizing r table offset with
  | nil => exact .inl h
  | cons decl decls ih =>
      rw [fieldsAfter] at h
      split at h
      · exact ih _ _ _ h
      · next kind hkind =>
          rcases ih _ _ _ h with hget | hvariable
          · rw [Resolver.allocate, Arena.get?_push] at hget
            split at hget
            · cases hget
              exact .inr (VarDecl.symbol_isVariable (VarDecl.kind?_of_accepted? hkind) offset)
            · exact .inl hget
          · exact .inr hvariable

theorem StructDecl.after_symbols (r : Resolver) (struct : StructDecl) {id : SymbolId}
    {symbol : Symbol} (h : (struct.after r).symbols.get? id = some symbol) :
    r.symbols.get? id = some symbol ∨ symbol.IsVariable ∨ symbol.IsStruct := by
  have hwalked : (struct.walked r).symbols.get? id = some symbol →
      r.symbols.get? id = some symbol ∨ symbol.IsVariable ∨ symbol.IsStruct := fun hget =>
    (fieldsAfter_variables r {} 0 struct.fields hget).imp_right .inl
  unfold after at h
  split at h
  · exact hwalked h
  · rw [Resolver.accept, Resolver.allocate, Arena.get?_push] at h
    split at h
    · cases h
      exact .inr (.inr ⟨rfl, rfl⟩)
    · exact hwalked h

theorem Resolver.declareGlobal_symbols (r : Resolver) (decl : VarDecl) {id : SymbolId}
    {symbol : Symbol} (h : (r.declareGlobal decl).symbols.get? id = some symbol) :
    r.symbols.get? id = some symbol ∨ symbol.IsVariable := by
  unfold declareGlobal at h
  split at h
  · exact .inl h
  · next kind hkind =>
      rw [accept, allocate, Arena.get?_push] at h
      split at h
      · cases h
        exact .inr (VarDecl.symbol_isVariable (VarDecl.kind?_of_accepted? hkind) _)
      · exact .inl h

theorem FnDecl.walked_symbols {r : Resolver} {fn : FnDecl} {id : Nat} {symbol : Symbol}
    (h : (fn.walked r).symbols.get? id = some symbol) :
    (fn.opened r).symbols.get? id = some symbol ∨ symbol.IsVariable := by
  rcases Nat.lt_or_ge id (fn.inside r).symbols.size with hinside | hbody
  · obtain ⟨formal, hformal⟩ := Arena.exists_get?_of_lt hinside
    obtain rfl : formal = symbol :=
      Option.some.inj (((slots_body r fn).symbols _ _ hformal).symm.trans h)
    rcases Nat.lt_or_ge id (fn.opened r).symbols.size with hopened | hnew
    · obtain ⟨old, hold⟩ := Arena.exists_get?_of_lt hopened
      obtain rfl : old = formal :=
        Option.some.inj (((slots_inside r fn).symbols _ _ hold).symm.trans hformal)
      exact .inl hold
    · exact .inr ((slots_inside r fn).slot id formal hnew hformal).1
  · exact .inr ((slots_body r fn).slot id symbol hbody h).1

theorem FnDecl.after_symbols {r : Resolver} {fn : FnDecl} {id : Nat} {symbol : Symbol}
    (h : (fn.after r).symbols.get? id = some symbol) :
    r.symbols.get? id = some symbol ∨ symbol.IsVariable ∨
      (id = r.symbols.size ∧ fn.isTaken r = false) := by
  cases htaken : fn.isTaken r with
  | true =>
      rw [after, if_pos htaken] at h
      exact (opened_of_taken htaken ▸ walked_symbols h).imp_right .inl
  | false =>
      by_cases hid : r.symbols.size = id
      · exact .inr (.inr ⟨hid.symm, rfl⟩)
      · simp only [after, htaken, Bool.false_eq_true, if_false, Arena.get?_modify,
          if_neg hid] at h
        rcases walked_symbols h with hopened | hvariable
        · rw [opened_eq htaken, Arena.get?_push, if_neg (Ne.symm hid)] at hopened
          exact .inl hopened
        · exact .inr (.inl hvariable)

/-- The symbols of a program that resolves quietly: variables, struct names, and functions that
have been given their frames. -/
theorem Decl.afterAll_symbols {decls : List Decl} {r : Resolver}
    (hquiet : reportsAll r decls = []) {id : Nat} {symbol : Symbol}
    (h : (afterAll r decls).symbols.get? id = some symbol) :
    r.symbols.get? id = some symbol ∨ symbol.IsVariable ∨ symbol.IsStruct ∨
      ∃ fn, Decl.fn fn ∈ linkedAll r decls ∧ fn.Framed (afterAll r decls).symbols id := by
  induction decls generalizing r with
  | nil => exact .inl h
  | cons decl decls ih =>
      obtain ⟨hdecl, hdecls⟩ := List.append_eq_nil_iff.mp hquiet
      rcases ih hdecls h with hget | hvariable | hstruct | ⟨fn, hfn, hframed⟩
      · cases decl with
        | var decl =>
            exact (r.declareGlobal_symbols decl hget).imp_right .inl
        | struct decl =>
            rcases decl.after_symbols r hget with hold | hvariable | hstruct
            · exact .inl hold
            · exact .inr (.inl hvariable)
            · exact .inr (.inr (.inl hstruct))
        | fn decl =>
            rcases FnDecl.after_symbols hget with hold | hvariable | ⟨rfl, -⟩
            · exact .inl hold
            · exact .inr (.inl hvariable)
            · refine .inr (.inr (.inr ⟨decl.linked r, by simp [linkedAll, linked], ?_⟩))
              exact (FnDecl.framed_linked hdecl).mono (grows_afterAll _ decls).symbols
      · exact .inr (.inl hvariable)
      · exact .inr (.inr (.inl hstruct))
      · exact .inr (.inr (.inr ⟨fn, by simp [linkedAll, hfn], hframed⟩))

end StackMips
