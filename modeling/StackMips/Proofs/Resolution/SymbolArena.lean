import Mathlib.Logic.Relation
import StackMips.Proofs.Resolution.Layout

/-!
# The symbol arena

Every symbol has the type that its kind calls for, and what it points at was allocated before it.
This holds in every state of resolution: while the body of a function is resolved, the function is
in the arena with an empty signature, and the fields of a struct are there before the struct, even
if the struct is rejected.
-/

namespace StackMips

/-! ## Types without errors -/

namespace Ty

mutual

def isErrorFree : Ty → Bool
  | .error => false
  | .function params result => areErrorFree params && result.isErrorFree
  | _ => true

def areErrorFree : List Ty → Bool
  | [] => true
  | ty :: tys => ty.isErrorFree && areErrorFree tys

end

@[simp] theorem areErrorFree_eq_all (tys : List Ty) : areErrorFree tys = tys.all isErrorFree := by
  induction tys with
  | nil => rfl
  | cons ty tys ih => rw [areErrorFree, ih, List.all_cons]

theorem isError_of_isErrorFree {ty : Ty} (h : ty.isErrorFree) : ty.isError = false := by
  cases ty <;> simp_all [isErrorFree, isError]

end Ty

theorem TypeName.isErrorFree_toTy (type : TypeName) : type.toTy.isErrorFree := by
  cases type <;> rfl

/-! ## Symbols -/

def Arena.Defines (symbols : Arena) (name : String) (id : SymbolId) : Prop :=
  ∃ symbol, symbols.get? id = some symbol ∧ symbol.name = name ∧ symbol.fields?.isSome

theorem Arena.Defines.mono {a b : Arena} {name : String} {id : SymbolId} (h : a.Defines name id)
    (hkeeps : a.Keeps b) : b.Defines name id := by
  obtain ⟨symbol, hget, hname, hfields⟩ := h
  obtain ⟨symbol', hget', hsame⟩ := hkeeps _ _ hget
  exact ⟨symbol', hget', hsame.name.trans hname, by rwa [hsame.fields]⟩

/-- What the kind of the symbol at an index says about its type and about the symbols it points
at. -/
structure Symbol.Formed (symbols : Arena) (index : Nat) (symbol : Symbol) : Prop where
  scalar : symbol.kind = .scalar → symbol.ty = .int ∨ symbol.ty = .bool
  structInstance : ∀ definition : Nat, symbol.kind = .structInstance definition →
    ∃ name, symbol.ty = .struct name ∧ symbols.Defines name definition ∧ definition < index
  structDef : ∀ fields, symbol.kind = .structDef fields →
    symbol.ty = .structDef symbol.name ∧ fields.depth = 1 ∧
      ∀ name (field : Nat), fields.lookup name = some field →
        symbols.Knows name field ∧ field < index
  function : ∀ info, symbol.kind = .function info →
    symbol.ty = .function info.paramTypes info.returnType ∧
      info.paramTypes.length ≤ info.numParams ∧ info.paramsSize = 4 * info.paramTypes.length
  errorFree : symbol.ty.isErrorFree

theorem Symbol.Formed.mono {a b : Arena} {index : Nat} {symbol : Symbol}
    (h : symbol.Formed a index) (hkeeps : a.Keeps b) : symbol.Formed b index where
  scalar := h.scalar
  structInstance definition hkind := by
    obtain ⟨name, hty, hdefines, hlt⟩ := h.structInstance definition hkind
    exact ⟨name, hty, hdefines.mono hkeeps, hlt⟩
  structDef fields hkind := by
    obtain ⟨hty, hdepth, hfields⟩ := h.structDef fields hkind
    refine ⟨hty, hdepth, fun name field hfield => ?_⟩
    exact ⟨(hfields name field hfield).1.mono hkeeps, (hfields name field hfield).2⟩
  function := h.function
  errorFree := h.errorFree

/-- A variable of an accepted declaration; a struct in its type was defined before. -/
theorem VarDecl.symbol_formed {r : Resolver} (hr : r.Sound) {target : SymbolTable}
    {decl : VarDecl} {kind : SymbolKind} (h : decl.accepted? r target = some kind) (offset : Int) :
    (decl.symbol offset kind).Formed r.symbols r.symbols.size := by
  rcases kind?_cases (kind?_of_accepted? h) with ⟨rfl, htype⟩ | ⟨id, struct, htype, hstruct, rfl⟩
  · refine ⟨fun _ => ?_, by rintro _ ⟨⟩, by rintro _ ⟨⟩, by rintro _ ⟨⟩,
      decl.type.isErrorFree_toTy⟩
    rcases htype with htype | htype <;> simp [symbol, htype, TypeName.toTy]
  · refine ⟨by rintro ⟨⟩, ?_, by rintro _ ⟨⟩, by rintro _ ⟨⟩, decl.type.isErrorFree_toTy⟩
    rintro definition hkind
    obtain rfl : struct = definition := SymbolKind.structInstance.inj hkind
    obtain ⟨hlookup, hfields⟩ := Option.filter_eq_some_iff.mp hstruct
    obtain ⟨found, hget, hname⟩ := hr.table.knows_of_lookup hlookup
    refine ⟨id.name, by simp [symbol, htype, TypeName.toTy], ⟨found, hget, hname, ?_⟩,
      Arena.lt_size_of_get? hget⟩
    simpa [Arena.fields?, hget] using hfields

theorem VarDecl.length_acceptedTypes_le (decls : List VarDecl) :
    (acceptedTypes decls).length ≤ decls.length := by
  rw [acceptedTypes, List.length_map]
  exact List.length_filter_le _ _

namespace FnDecl

theorem ofFunction_formed (fn : FnDecl) (symbols : Arena) (index : Nat) :
    (Symbol.ofFunction fn.id.name fn.returnType.toTy fn.formals.length fn.id.pos).Formed symbols
      index := by
  refine ⟨by rintro ⟨⟩, by rintro _ ⟨⟩, by rintro _ ⟨⟩, ?_, ?_⟩
  · rintro info hkind
    cases hkind
    exact ⟨rfl, Nat.zero_le _, rfl⟩
  · simp [Symbol.ofFunction, Ty.isErrorFree, fn.returnType.isErrorFree_toTy]

theorem withFrame_formed (r : Resolver) (fn : FnDecl) (symbols : Arena) (index : Nat) :
    ((Symbol.ofFunction fn.id.name fn.returnType.toTy fn.formals.length fn.id.pos).withFrame
      (VarDecl.acceptedTypes (fn.linkedFormals r)) fn.returnType.toTy
      (fn.walked r).localWords).Formed symbols index := by
  have hlength := VarDecl.length_acceptedTypes_le (fn.linkedFormals r)
  rw [linkedFormals, VarDecl.length_linkedAll] at hlength
  refine ⟨by rintro ⟨⟩, by rintro _ ⟨⟩, by rintro _ ⟨⟩, ?_, ?_⟩
  · rintro info hkind
    cases hkind
    exact ⟨rfl, hlength, rfl⟩
  · simp [Symbol.withFrame, Ty.isErrorFree, VarDecl.acceptedTypes, TypeName.isErrorFree_toTy]

end FnDecl

/-! ## Arenas -/

def Arena.Formed (symbols : Arena) : Prop :=
  ∀ (index : Nat) symbol, symbols.get? index = some symbol → symbol.Formed symbols index

theorem Arena.formed_empty : ({} : Arena).Formed := by
  intro index symbol hget
  simp [Arena.get?] at hget

namespace Arena.Formed

variable {symbols : Arena} (h : symbols.Formed)
include h

theorem push {symbol : Symbol} (hsymbol : symbol.Formed symbols symbols.size) :
    (symbols.push symbol).Formed := by
  have hkeeps := (symbols.extends_push symbol).keeps
  intro index other hget
  rw [Arena.get?_push] at hget
  split at hget
  · next hindex =>
      cases hget
      exact hindex ▸ hsymbol.mono hkeeps
  · exact (h index other hget).mono hkeeps

theorem modify (id : Nat) {f : Symbol → Symbol}
    (hsame : ∀ symbol, Symbol.SameRole symbol (f symbol))
    (hf : ∀ symbol, symbols.get? id = some symbol → (f symbol).Formed symbols id) :
    (symbols.modify id f).Formed := by
  have hkeeps := symbols.keeps_modify id hsame
  intro index symbol' hget
  rw [Arena.get?_modify] at hget
  split at hget
  · next hindex =>
      obtain ⟨symbol, hold, rfl⟩ := Option.map_eq_some_iff.mp hget
      subst hindex
      exact (hf symbol hold).mono hkeeps
  · exact (h index symbol' hget).mono hkeeps

end Arena.Formed

/-! ## Walks -/

theorem VarDecl.IsDeclaring.formed {declare : Resolver → VarDecl → Resolver}
    (hdeclare : IsDeclaring declare) {r : Resolver} (hr : r.Sound) (h : r.symbols.Formed)
    (decl : VarDecl) : (declare r decl).symbols.Formed := by
  have hresult := hdeclare r decl
  cases hkind : decl.accepted? r r.table with
  | none =>
      simp only [hkind] at hresult
      rwa [hresult]
  | some kind =>
      simp only [hkind] at hresult
      obtain ⟨offset, -, hsymbols⟩ := hresult
      rw [hsymbols]
      exact h.push (symbol_formed hr hkind offset)

theorem Resolver.formed_isInvariant :
    IsInvariant fun r => r.Sound ∧ r.symbols.Formed where
  enter _ h := ⟨h.1.enter, h.2⟩
  declareLocal r decl h :=
    ⟨(r.grows_declareLocal decl).sound h.1,
      VarDecl.declareLocal_isDeclaring.formed h.1 h.2 decl⟩
  backTo r r' h h' hextends := ⟨sound_isInvariant.backTo r r' h.1 h'.1 hextends, h'.2⟩

theorem Resolver.formed_declareFormals {r : Resolver} (hr : r.Sound) (h : r.symbols.Formed)
    (decls : List VarDecl) : (r.declareFormals decls).symbols.Formed := by
  induction decls generalizing r with
  | nil => exact h
  | cons decl decls ih =>
      exact ih ((r.grows_declareFormal decl).sound hr)
        (VarDecl.declareFormal_isDeclaring.formed hr h decl)

namespace FnDecl

variable {r : Resolver} (hr : r.Sound) (h : r.symbols.Formed)
include hr h

theorem formed_walked (fn : FnDecl) : (fn.walked r).symbols.Formed := by
  have hopened : (fn.opened r).symbols.Formed := by
    change (fn.named r).symbols.Formed
    unfold named
    split
    · exact h
    · exact h.push (fn.ofFunction_formed _ _)
  have hinside : (fn.inside r).symbols.Formed :=
    Resolver.formed_declareFormals (fn.opened_sound hr) hopened fn.formals
  exact ((Resolver.formed_isInvariant.isWalk.block fn.body _).2 ⟨fn.inside_sound hr, hinside⟩).2

theorem formed_after (fn : FnDecl) : (fn.after r).symbols.Formed := by
  have hwalked := formed_walked hr h fn
  unfold after
  cases htaken : fn.isTaken r with
  | true => exact hwalked
  | false =>
      -- the symbol that gets its signature is the one with which the walk began
      refine hwalked.modify r.symbols.size
        (fun symbol => Symbol.sameRole_withFrame symbol _ _ _) fun symbol hget => ?_
      obtain rfl := Option.some.inj ((get?_walked_own htaken).symm.trans hget)
      exact fn.withFrame_formed r _ _

end FnDecl

namespace StructDecl

theorem formed_fieldsAfter {r : Resolver} {table : SymbolTable} (hr : r.Sound)
    (h : r.symbols.Formed) (offset : Int) (decls : List VarDecl) :
    (fieldsAfter r table offset decls).1.symbols.Formed := by
  induction decls generalizing r table offset with
  | nil => exact h
  | cons decl decls ih =>
      rw [fieldsAfter]
      split
      · exact ih hr h offset
      · next kind hkind =>
          exact ih (hr.allocate (VarDecl.symbol_sound hkind offset))
            (h.push (VarDecl.symbol_formed hr hkind offset)) _

/-- The symbol of a struct comes after those of its fields. -/
theorem ofStructDef_formed {r : Resolver} (hr : r.Sound) (struct : StructDecl) :
    (Symbol.ofStructDef struct.id.name (struct.fieldTable r) struct.id.pos).Formed
      (struct.walked r).symbols (struct.walked r).symbols.size := by
  have hgrow := fieldsAfter_grow r {} 0 struct.fields
  have htable := (hgrow.sound hr (SymbolTable.sound_empty _)).2
  refine ⟨by rintro ⟨⟩, by rintro _ ⟨⟩, fun fields hkind => ?_, by rintro _ ⟨⟩, rfl⟩
  obtain rfl : struct.fieldTable r = fields := SymbolKind.structDef.inj hkind
  refine ⟨rfl, ?_, fun name field hfield => ?_⟩
  · simp [SymbolTable.depth, fieldTable, hgrow.enclosing]
  · have hknows := htable.knows_of_lookup hfield
    exact ⟨hknows, hknows.lt_size⟩

theorem formed_after {r : Resolver} (hr : r.Sound) (h : r.symbols.Formed) (struct : StructDecl) :
    (struct.after r).symbols.Formed := by
  have hwalked : (struct.walked r).symbols.Formed := formed_fieldsAfter hr h 0 struct.fields
  unfold after
  split
  · exact hwalked
  · exact hwalked.push (struct.ofStructDef_formed hr)

end StructDecl

namespace Decl

theorem formed_after {r : Resolver} (hr : r.Sound) (h : r.symbols.Formed) (decl : Decl) :
    (decl.after r).symbols.Formed := by
  cases decl with
  | var decl => exact VarDecl.declareGlobal_isDeclaring.formed hr h decl
  | fn decl => exact decl.formed_after hr h
  | struct decl => exact decl.formed_after hr h

theorem formed_afterAll {r : Resolver} (hr : r.Sound) (h : r.symbols.Formed) (decls : List Decl) :
    (afterAll r decls).symbols.Formed := by
  induction decls generalizing r with
  | nil => exact h
  | cons decl decls ih => exact ih ((decl.grows_after r).sound hr) (formed_after hr h decl)

end Decl

/-! ## Functions and their declarations -/

/-- The signature of a function has the types of those formals of the declaration that have been
accepted. -/
structure FnDecl.Declares (fn : FnDecl) (index : SymbolId) (info : FunctionInfo) : Prop where
  link : fn.id.link = some index
  numParams : info.numParams = fn.formals.length
  paramTypes : info.paramTypes = VarDecl.acceptedTypes fn.formals

theorem FnDecl.Declares.all_accepted_iff {fn : FnDecl} {index : SymbolId} {info : FunctionInfo}
    (h : fn.Declares index info) :
    info.paramTypes.length = info.numParams ↔ ∀ formal ∈ fn.formals, formal.isAccepted := by
  rw [h.paramTypes, h.numParams, VarDecl.acceptedTypes, List.length_map]
  exact List.length_filter_eq_length_iff

theorem FnDecl.declares_linked {r : Resolver} {fn : FnDecl} (hfree : fn.isTaken r = false)
    {symbol : Symbol} {info : FunctionInfo}
    (hget : (fn.after r).symbols.get? r.symbols.size = some symbol)
    (hfunction : symbol.function? = some info) :
    (fn.linked r).Declares r.symbols.size info := by
  obtain rfl := Option.some.inj ((get?_own hfree).symm.trans hget)
  obtain rfl := Option.some.inj hfunction
  exact ⟨by simp [linked, hfree], (VarDecl.length_linkedAll _ _ _).symm, rfl⟩

/-- Every function symbol that a program adds has been declared by one of its functions. -/
theorem Decl.exists_declares {decls : List Decl} {r : Resolver} {index : Nat} {symbol : Symbol}
    {info : FunctionInfo} (h : (afterAll r decls).symbols.get? index = some symbol)
    (hfunction : symbol.function? = some info) :
    r.symbols.get? index = some symbol ∨
      ∃ fn, Decl.fn fn ∈ linkedAll r decls ∧ fn.Declares index info := by
  have hvariable : ¬ symbol.IsVariable := fun hvariable => by
    rw [hvariable.function] at hfunction
    cases hfunction
  induction decls generalizing r with
  | nil => exact .inl h
  | cons decl decls ih =>
      rcases ih h with hget | ⟨fn, hfn, hdeclares⟩
      · cases decl with
        | var decl =>
            exact .inl ((r.declareGlobal_symbols decl hget).resolve_right hvariable)
        | struct decl =>
            rcases decl.after_symbols r hget with hold | hnew | hstruct
            · exact .inl hold
            · exact absurd hnew hvariable
            · rw [hstruct.function] at hfunction
              cases hfunction
        | fn decl =>
            rcases FnDecl.after_symbols hget with hold | hnew | ⟨rfl, hfree⟩
            · exact .inl hold
            · exact absurd hnew hvariable
            · exact .inr ⟨decl.linked r, by simp [linkedAll, linked],
                FnDecl.declares_linked hfree hget hfunction⟩
      · exact .inr ⟨fn, by simp [linkedAll, hfn], hdeclares⟩

/-- An accepted function is in the arena, with the accepted ones of its formals. -/
theorem FnDecl.declares_of_link {r : Resolver} {fn : FnDecl} {link : SymbolId}
    (h : (fn.linked r).id.link = some link) :
    ∃ symbol info, (fn.after r).symbols.get? link = some symbol ∧ symbol.function? = some info ∧
      (fn.linked r).Declares link info ∧ info.returnType = (fn.linked r).returnType.toTy := by
  have hfree : fn.isTaken r = false := by
    by_contra htaken
    simp [linked, htaken] at h
  obtain rfl : r.symbols.size = link := by simpa [linked, hfree] using h
  exact ⟨_, _, get?_own hfree, rfl, declares_linked hfree (get?_own hfree) rfl,
    (TypeName.toTy_linked r fn.returnType).symm⟩

/-! ## Containment of structs -/

namespace Arena

/-- A struct definition has a field that is an instance of another one. -/
def Contains (symbols : Arena) (outer inner : SymbolId) : Prop :=
  ∃ name field, symbols.field? outer name = some field ∧ symbols.definition? field = some inner

/-- A contained struct has been defined before. -/
theorem Formed.lt_of_contains {symbols : Arena} (h : symbols.Formed) {outer inner : Nat}
    (hcontains : symbols.Contains outer inner) : inner < outer := by
  obtain ⟨name, field, hfield, hdefinition⟩ := hcontains
  obtain ⟨fields, hfields, hlookup⟩ := Option.bind_eq_some_iff.mp hfield
  obtain ⟨struct, hstruct, hfields⟩ := Option.bind_eq_some_iff.mp hfields
  obtain ⟨member, hmember, hinner⟩ := Option.bind_eq_some_iff.mp hdefinition
  have houter := (h outer struct hstruct).structDef fields (Symbol.fields?_eq_some_iff.mp hfields)
  obtain ⟨_, _, _, hlt⟩ :=
    (h field member hmember).structInstance inner (Symbol.definition?_eq_some_iff.mp hinner)
  exact Nat.lt_trans hlt (houter.2.2 name field hlookup).2

theorem Formed.not_contains_self {symbols : Arena} (h : symbols.Formed) (id : SymbolId) :
    ¬ Relation.TransGen symbols.Contains id id := by
  intro hcycle
  have hlt : ∀ {outer inner : Nat}, Relation.TransGen symbols.Contains outer inner →
      inner < outer := by
    intro outer inner hpath
    induction hpath with
    | single hcontains => exact h.lt_of_contains hcontains
    | tail _ hcontains ih => exact Nat.lt_trans (h.lt_of_contains hcontains) ih
  exact Nat.lt_irrefl id (hlt hcycle)

end Arena

/-! ## Whole programs -/

namespace Program

theorem formed_after (program : Program) (options : Options) :
    (program.after { options }).symbols.Formed :=
  Decl.formed_afterAll (r := .start { options }) (Resolver.start_sound sound_empty)
    Arena.formed_empty program.decls

theorem declares_of_link {program : Program} {options : Options} {fn : FnDecl}
    (hfn : fn ∈ (program.linked { options }).program.functions) {link : SymbolId}
    (hlink : fn.id.link = some link) :
    ∃ symbol info, (program.linked { options }).context.symbols.get? link = some symbol ∧
      symbol.function? = some info ∧ fn.Declares link info ∧
      info.returnType = fn.returnType.toTy := by
  obtain ⟨fn, -, r, -, rfl, hextends, -⟩ :=
    Decl.fn_visited (Resolver.start_atTop sound_empty) (mem_functions.mp hfn)
  obtain ⟨symbol, info, hget, hdeclares⟩ := FnDecl.declares_of_link hlink
  exact ⟨symbol, info, hextends _ _ hget, hdeclares⟩

/-- Every symbol of a resolved program has the type of its kind, and refers to earlier symbols only;
so no struct contains itself.  The signature of a function is complete exactly if all its formals
have been accepted. -/
theorem resolve_formed {program : Program} {options : Options} (hgrammar : program.InGrammar)
    (hunlinked : program.Unlinked) :
    ∃ resolved reports, program.resolve { options } = .done resolved reports ∧
      (∀ index symbol, resolved.context.symbols.get? index = some symbol →
        symbol.Formed resolved.context.symbols index ∧
        ∀ info, symbol.kind = .function info → ∃ fn ∈ resolved.program.functions,
          fn.id.link = some index ∧ info.numParams = fn.formals.length ∧
          (info.paramTypes.length = info.numParams ↔ ∀ formal ∈ fn.formals, formal.isAccepted)) ∧
      ∀ id, ¬ Relation.TransGen resolved.context.symbols.Contains id id := by
  have hformed := program.formed_after options
  refine ⟨_, _, resolve_eq sound_empty hgrammar hunlinked, fun index symbol hget => ?_,
    hformed.not_contains_self⟩
  refine ⟨hformed index symbol hget, fun info hkind => ?_⟩
  rcases Decl.exists_declares hget (Symbol.function?_eq_some_iff.mpr hkind) with
    hold | ⟨fn, hfn, hdeclares⟩
  · simp [Resolver.start, Arena.get?] at hold
  · exact ⟨fn, mem_functions.mpr hfn, hdeclares.link, hdeclares.numParams,
      hdeclares.all_accepted_iff⟩

/-- Structs inside structs, a struct that would contain itself, and declarations that are rejected:
a field, a struct after its field has been allocated, and two formals of three. -/
def nested : Program where
  decls := [
    .struct ⟨⟨"In", ⟨1, 8⟩, none⟩,
      [⟨.int, ⟨"a", ⟨1, 17⟩, none⟩⟩, ⟨.bool, ⟨"a", ⟨1, 25⟩, none⟩⟩]⟩,
    .struct ⟨⟨"Out", ⟨2, 8⟩, none⟩,
      [⟨.struct ⟨"In", ⟨2, 21⟩, none⟩, ⟨"first", ⟨2, 24⟩, none⟩⟩,
        ⟨.struct ⟨"Out", ⟨2, 38⟩, none⟩, ⟨"self", ⟨2, 42⟩, none⟩⟩]⟩,
    .struct ⟨⟨"In", ⟨3, 8⟩, none⟩, [⟨.int, ⟨"lost", ⟨3, 17⟩, none⟩⟩]⟩,
    .fn ⟨.int, ⟨"pick", ⟨4, 5⟩, none⟩,
      [⟨.struct ⟨"Out", ⟨4, 17⟩, none⟩, ⟨"o", ⟨4, 21⟩, none⟩⟩,
        ⟨.void, ⟨"x", ⟨4, 29⟩, none⟩⟩, ⟨.int, ⟨"o", ⟨4, 36⟩, none⟩⟩],
      ⟨[], [.ret (some (.int 1 ⟨5, 10⟩)) ⟨5, 3⟩]⟩⟩,
    .fn ⟨.void, ⟨"main", ⟨7, 6⟩, none⟩, [], ⟨[], []⟩⟩]

/-- `Out` contains `In` but not itself, and `pick` has one parameter of three. -/
theorem resolve_nested_formed : ∃ resolved reports,
    nested.resolve {} = .done resolved reports ∧ resolved.context.symbols.Contains 3 1 ∧
      ¬ Relation.TransGen resolved.context.symbols.Contains 3 3 ∧
      ∃ fn ∈ resolved.program.functions, fn.id.link = some 5 ∧ fn.formals.length = 3 ∧
        ¬ ∀ formal ∈ fn.formals, formal.isAccepted := by
  have hresolve : nested.resolve {} =
      .done (nested.linked {}) (nested.resolutionReports {}) :=
    resolve_eq sound_empty (by decide) (by decide)
  obtain ⟨resolved, reports, h, hsymbols, hacyclic⟩ :=
    resolve_formed (show nested.InGrammar by decide) (by decide)
  obtain ⟨rfl, rfl⟩ := Reporting.done.inj (hresolve.symm.trans h)
  obtain ⟨pick, hpick, info, hinfo, hshort⟩ : ∃ pick,
      (nested.linked {}).context.symbols.get? 5 = some pick ∧ ∃ info,
        pick.kind = .function info ∧ info.paramTypes.length = 1 ∧ info.numParams = 3 :=
    ⟨_, rfl, _, rfl, rfl, rfl⟩
  obtain ⟨fn, hfn, hlink, hformals, hcomplete⟩ := (hsymbols 5 pick hpick).2 info hinfo
  refine ⟨_, _, hresolve, ⟨"first", 2, rfl, rfl⟩, hacyclic 3, fn, hfn, hlink, by omega, ?_⟩
  rw [← hcomplete]
  omega

end Program

end StackMips
