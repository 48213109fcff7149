import StackMips.Proofs.Resolution.Linking

/-!
# Sound resolver states

In a sound state every name is bound to a symbol of that name, in the scopes as well as in the
field tables of structs, and every struct instance points at a definition.  A walk through a body
keeps the state sound, only adds symbols, and changes no scope but the innermost one.
-/

namespace StackMips

/-! ## Arenas that only grow -/

namespace Arena

/-- All symbols of `a` are in `b`, under the same indices. -/
def Extends (a b : Arena) : Prop :=
  ∀ id symbol, a.get? id = some symbol → b.get? id = some symbol

theorem Extends.refl (a : Arena) : a.Extends a := fun _ _ h => h

theorem Extends.trans {a b c : Arena} (hab : a.Extends b) (hbc : b.Extends c) : a.Extends c :=
  fun id symbol h => hbc id symbol (hab id symbol h)

theorem get?_eq_none_of_le {a : Arena} {id : Nat} (h : a.size ≤ id) : a.get? id = none :=
  Array.getElem?_eq_none h

theorem lt_size_of_get? {a : Arena} {id : Nat} {symbol : Symbol}
    (h : a.get? id = some symbol) : id < a.size := by
  rcases Nat.lt_or_ge id a.size with hlt | hge
  · exact hlt
  · rw [get?_eq_none_of_le hge] at h
    cases h

theorem exists_get?_of_lt {a : Arena} {id : Nat} (h : id < a.size) :
    ∃ symbol, a.get? id = some symbol :=
  ⟨_, Array.getElem?_eq_getElem h⟩

theorem Extends.size_le {a b : Arena} (h : a.Extends b) : a.size ≤ b.size := by
  rcases Nat.lt_or_ge b.size a.size with hlt | hge
  · obtain ⟨symbol, hsymbol⟩ := exists_get?_of_lt hlt
    have hsize := lt_size_of_get? (h _ _ hsymbol)
    omega
  · exact hge

theorem extends_push (a : Arena) (symbol : Symbol) : a.Extends (a.push symbol) := by
  intro id old h
  rw [get?_push, if_neg (Nat.ne_of_lt (lt_size_of_get? h)), h]

@[simp] theorem get?_push_size (a : Arena) (symbol : Symbol) :
    (a.push symbol).get? a.size = some symbol := by
  rw [get?_push, if_pos rfl]

/-- A symbol behind the end of the old arena can change without the old symbols noticing. -/
theorem extends_modify {a b : Arena} (h : a.Extends b) {id : Nat} (hid : a.size ≤ id)
    (f : Symbol → Symbol) : a.Extends (b.modify id f) := by
  intro other symbol hother
  have hlt := lt_size_of_get? hother
  rw [get?_modify, if_neg (Nat.ne_of_gt (Nat.lt_of_lt_of_le hlt hid)), h _ _ hother]

end Arena

namespace Symbol

variable {symbol : Symbol}

theorem function?_eq_some_iff {info : FunctionInfo} :
    symbol.function? = some info ↔ symbol.kind = .function info := by
  unfold function?
  cases symbol.kind <;> simp

theorem fields?_eq_some_iff {fields : SymbolTable} :
    symbol.fields? = some fields ↔ symbol.kind = .structDef fields := by
  unfold fields?
  cases symbol.kind <;> simp

theorem definition?_eq_some_iff {definition : SymbolId} :
    symbol.definition? = some definition ↔ symbol.kind = .structInstance definition := by
  unfold definition?
  cases symbol.kind <;> simp

end Symbol

/-- Two symbols of one declaration, which can differ in the signature of a function. -/
structure Symbol.SameRole (a b : Symbol) : Prop where
  name : b.name = a.name
  offset : b.offset = a.offset
  pos : b.pos = a.pos
  definition : b.definition? = a.definition?
  fields : b.fields? = a.fields?

theorem Symbol.SameRole.refl (a : Symbol) : a.SameRole a :=
  ⟨rfl, rfl, rfl, rfl, rfl⟩

theorem Symbol.SameRole.trans {a b c : Symbol} (hab : a.SameRole b) (hbc : b.SameRole c) :
    a.SameRole c :=
  ⟨hbc.name.trans hab.name, hbc.offset.trans hab.offset, hbc.pos.trans hab.pos,
    hbc.definition.trans hab.definition, hbc.fields.trans hab.fields⟩

theorem Symbol.sameRole_withFrame (symbol : Symbol) (paramTypes : List Ty) (returnType : Ty)
    (localWords : Nat) : symbol.SameRole (symbol.withFrame paramTypes returnType localWords) := by
  obtain ⟨name, ty, offset, kind, pos⟩ := symbol
  cases kind <;> exact ⟨rfl, rfl, rfl, rfl, rfl⟩

namespace Arena

def Keeps (a b : Arena) : Prop :=
  ∀ id symbol, a.get? id = some symbol → ∃ symbol', b.get? id = some symbol' ∧
    symbol.SameRole symbol'

theorem Extends.keeps {a b : Arena} (h : a.Extends b) : a.Keeps b :=
  fun id symbol hget => ⟨symbol, h id symbol hget, .refl symbol⟩

theorem Keeps.trans {a b c : Arena} (hab : a.Keeps b) (hbc : b.Keeps c) : a.Keeps c := by
  intro id symbol hget
  obtain ⟨symbol', hget', hsame⟩ := hab id symbol hget
  obtain ⟨symbol'', hget'', hsame'⟩ := hbc id symbol' hget'
  exact ⟨symbol'', hget'', hsame.trans hsame'⟩

theorem keeps_modify (a : Arena) (id : SymbolId) {f : Symbol → Symbol}
    (hf : ∀ symbol, Symbol.SameRole symbol (f symbol)) : a.Keeps (a.modify id f) := by
  intro other symbol hget
  rw [get?_modify, hget]
  split
  · exact ⟨f symbol, rfl, hf symbol⟩
  · exact ⟨symbol, rfl, .refl symbol⟩

def Knows (symbols : Arena) (name : String) (id : SymbolId) : Prop :=
  ∃ symbol, symbols.get? id = some symbol ∧ symbol.name = name

theorem Knows.mono {a b : Arena} {name : String} {id : SymbolId} (h : a.Knows name id)
    (hkeeps : a.Keeps b) : b.Knows name id := by
  obtain ⟨symbol, hget, hname⟩ := h
  obtain ⟨symbol', hget', hsame⟩ := hkeeps _ _ hget
  exact ⟨symbol', hget', hsame.name.trans hname⟩

theorem Knows.lt_size {a : Arena} {name : String} {id : Nat} (h : a.Knows name id) :
    id < a.size := by
  obtain ⟨_, hget, _⟩ := h
  exact lt_size_of_get? hget

end Arena

/-! ## Tables -/

theorem Scope.mem_of_lookup {scope : Scope} {name : String} {id : SymbolId}
    (h : scope.lookup name = some id) : (name, id) ∈ scope.bindings := by
  obtain ⟨before, rest, heq, _⟩ := List.lookup_eq_some_iff.mp h
  rw [heq]
  simp

namespace SymbolTable

/-- Every name is bound to a symbol of that name. -/
def Sound (symbols : Arena) (table : SymbolTable) : Prop :=
  ∀ scope ∈ table.scopes, ∀ binding ∈ scope.bindings, symbols.Knows binding.1 binding.2

theorem Sound.mono {a b : Arena} {table : SymbolTable} (h : table.Sound a) (hkeeps : a.Keeps b) :
    table.Sound b :=
  fun scope hscope binding hbinding => (h scope hscope binding hbinding).mono hkeeps

theorem sound_empty (symbols : Arena) : ({} : SymbolTable).Sound symbols := by
  intro scope hscope binding hbinding
  simp only [scopes, List.mem_singleton] at hscope
  subst hscope
  simp at hbinding

theorem Sound.enter {symbols : Arena} {table : SymbolTable} (h : table.Sound symbols) :
    table.enter.Sound symbols := by
  intro scope hscope binding hbinding
  simp only [SymbolTable.enter, scopes, List.mem_cons] at hscope
  rcases hscope with rfl | hscope
  · simp at hbinding
  · exact h scope (by simpa [scopes] using hscope) binding hbinding

theorem Sound.extend {symbols : Arena} {table : SymbolTable} (h : table.Sound symbols)
    {name : String} {id : SymbolId} (hid : symbols.Knows name id) :
    (table.extend name id).Sound symbols := by
  intro scope hscope binding hbinding
  simp only [SymbolTable.extend, scopes, List.mem_cons] at hscope
  rcases hscope with rfl | hscope
  · rcases List.mem_cons.mp hbinding with rfl | hbinding
    · exact hid
    · exact h _ (by simp [scopes]) _ hbinding
  · exact h scope (by simp [scopes, hscope]) binding hbinding

theorem Sound.knows_of_lookup {symbols : Arena} {table : SymbolTable} (h : table.Sound symbols)
    {name : String} {id : SymbolId} (hlookup : table.lookup name = some id) :
    symbols.Knows name id := by
  obtain ⟨scope, hscope, hid⟩ := List.exists_of_findSome?_eq_some hlookup
  exact h scope hscope _ (Scope.mem_of_lookup hid)

theorem declare_of_free {table : SymbolTable} {name : String} (id : SymbolId)
    (h : table.lookupInnermost name = none) :
    table.declare name id = .ok (table.extend name id) :=
  declare_eq_ok_iff.mpr ⟨h, rfl⟩

end SymbolTable

/-! ## States -/

structure Symbol.Sound (symbols : Arena) (symbol : Symbol) : Prop where
  definition : ∀ id, symbol.definition? = some id → (symbols.fields? id).isSome
  fields : ∀ table, symbol.fields? = some table → table.Sound symbols

theorem Symbol.Sound.mono {a b : Arena} {symbol : Symbol} (h : symbol.Sound a)
    (hkeeps : a.Keeps b) : symbol.Sound b where
  definition id hid := by
    obtain ⟨table, htable⟩ := Option.isSome_iff_exists.mp (h.definition id hid)
    obtain ⟨definition, hget, hfields⟩ := Option.bind_eq_some_iff.mp htable
    obtain ⟨definition', hget', hsame⟩ := hkeeps _ _ hget
    simp [Arena.fields?, hget', hsame.fields, hfields]
  fields table htable := (h.fields table htable).mono hkeeps

def Arena.Sound (symbols : Arena) : Prop :=
  ∀ id symbol, symbols.get? id = some symbol → symbol.Sound symbols

theorem Arena.Sound.push {symbols : Arena} (h : symbols.Sound) {symbol : Symbol}
    (hsymbol : symbol.Sound symbols) : (symbols.push symbol).Sound := by
  have hkeeps := (symbols.extends_push symbol).keeps
  intro id other hother
  rw [Arena.get?_push] at hother
  split at hother
  · cases hother
    exact hsymbol.mono hkeeps
  · exact (h id other hother).mono hkeeps

theorem Arena.Sound.modify {symbols : Arena} (h : symbols.Sound) (id : SymbolId)
    {f : Symbol → Symbol} (hf : ∀ symbol, Symbol.SameRole symbol (f symbol)) :
    (symbols.modify id f).Sound := by
  have hkeeps := symbols.keeps_modify id hf
  have hsound : ∀ other symbol, symbols.get? other = some symbol →
      (f symbol).Sound (symbols.modify id f) := by
    intro other symbol hget
    have hmono := (h other symbol hget).mono hkeeps
    exact ⟨fun definition hdefinition =>
        hmono.definition definition ((hf symbol).definition ▸ hdefinition),
      fun table htable => hmono.fields table ((hf symbol).fields ▸ htable)⟩
  intro other symbol' hget'
  rw [Arena.get?_modify] at hget'
  split at hget'
  · obtain ⟨symbol, hget, rfl⟩ := Option.map_eq_some_iff.mp hget'
    exact hsound other symbol hget
  · exact (h other symbol' hget').mono hkeeps

structure Resolver.Sound (r : Resolver) : Prop where
  symbols : r.symbols.Sound
  table : r.table.Sound r.symbols

namespace Resolver

theorem Sound.enter {r : Resolver} (h : r.Sound) : r.enter.Sound :=
  ⟨h.symbols, h.table.enter⟩

theorem Sound.allocate {r : Resolver} (h : r.Sound) {symbol : Symbol}
    (hsymbol : symbol.Sound r.symbols) : (r.allocate symbol).Sound :=
  ⟨h.symbols.push hsymbol, h.table.mono (r.symbols.extends_push symbol).keeps⟩

theorem knows_allocate (r : Resolver) (symbol : Symbol) :
    (r.allocate symbol).symbols.Knows symbol.name r.symbols.size :=
  ⟨symbol, r.symbols.get?_push_size symbol, rfl⟩

theorem Sound.accept {r : Resolver} (h : r.Sound) {symbol : Symbol}
    (hsymbol : symbol.Sound r.symbols) : (r.accept symbol).Sound :=
  ⟨(h.allocate hsymbol).symbols, (h.allocate hsymbol).table.extend (r.knows_allocate symbol)⟩

theorem struct?_isSome {r : Resolver} {name : String} {id : SymbolId}
    (h : r.struct? name = some id) : (r.symbols.fields? id).isSome := by
  obtain ⟨-, h⟩ := Option.filter_eq_some_iff.mp h
  exact h

end Resolver

theorem VarDecl.kind?_of_accepted? {r : Resolver} {target : SymbolTable} {decl : VarDecl}
    {kind : SymbolKind} (h : decl.accepted? r target = some kind) : decl.kind? r = some kind := by
  unfold VarDecl.accepted? at h
  split at h
  · cases h
  · exact h

theorem VarDecl.kind?_cases {r : Resolver} {decl : VarDecl} {kind : SymbolKind}
    (h : decl.kind? r = some kind) :
    (kind = .scalar ∧ (decl.type = .int ∨ decl.type = .bool)) ∨
      ∃ id definition, decl.type = .struct id ∧ r.struct? id.name = some definition ∧
        kind = .structInstance definition := by
  unfold VarDecl.kind? at h
  split at h
  · next htype => exact .inl ⟨(Option.some.inj h).symm, .inl htype⟩
  · next htype => exact .inl ⟨(Option.some.inj h).symm, .inr htype⟩
  · cases h
  · next id htype =>
      obtain ⟨definition, hdefinition, rfl⟩ := Option.map_eq_some_iff.mp h
      exact .inr ⟨id, definition, htype, hdefinition, rfl⟩

theorem VarDecl.symbol_sound {r : Resolver} {target : SymbolTable} {decl : VarDecl}
    {kind : SymbolKind} (h : decl.accepted? r target = some kind) (offset : Int) :
    (decl.symbol offset kind).Sound r.symbols := by
  rcases kind?_cases (kind?_of_accepted? h) with ⟨rfl, _⟩ | ⟨id, definition, _, hstruct, rfl⟩
  · exact ⟨nofun, nofun⟩
  · refine ⟨fun id hid => ?_, nofun⟩
    cases hid
    exact Resolver.struct?_isSome hstruct

/-! ## Walks through bodies -/

/-- What a walk through a body does to the state: symbols are added, the state stays sound and the
scopes around the innermost one stay. -/
structure Resolver.Grows (r r' : Resolver) : Prop where
  sound : r.Sound → r'.Sound
  symbols : r.symbols.Extends r'.symbols
  enclosing : r'.table.enclosing = r.table.enclosing

namespace Resolver

theorem Grows.refl (r : Resolver) : r.Grows r :=
  ⟨id, .refl _, rfl⟩

theorem Grows.trans {a b c : Resolver} (hab : a.Grows b) (hbc : b.Grows c) : a.Grows c :=
  ⟨hbc.sound ∘ hab.sound, hab.symbols.trans hbc.symbols, hbc.enclosing.trans hab.enclosing⟩

theorem grows_declareFormal (r : Resolver) (decl : VarDecl) : r.Grows (r.declareFormal decl) := by
  unfold declareFormal
  split
  · exact .refl r
  · next kind hkind =>
      exact ⟨fun h => ⟨(h.accept (VarDecl.symbol_sound hkind _)).symbols,
        (h.accept (VarDecl.symbol_sound hkind _)).table⟩, r.symbols.extends_push _, rfl⟩

theorem grows_declareLocal (r : Resolver) (decl : VarDecl) : r.Grows (r.declareLocal decl) := by
  unfold declareLocal
  split
  · exact .refl r
  · next kind hkind =>
      exact ⟨fun h => ⟨(h.accept (VarDecl.symbol_sound hkind _)).symbols,
        (h.accept (VarDecl.symbol_sound hkind _)).table⟩, r.symbols.extends_push _, rfl⟩

/-- A walk through a scope of its own leaves the scopes outside alone. -/
theorem Grows.backTo {r r' : Resolver} (h : r.enter.Grows r') : r.Grows (r'.backTo r) :=
  ⟨fun hr => ⟨(h.sound hr.enter).symbols, hr.table.mono h.symbols.keeps⟩, h.symbols, rfl⟩

end Resolver

/-- A relation between states that declaring a local keeps, and that holds around a scope when it
holds inside.  Such a relation holds between the ends of every walk through a body. -/
structure Resolver.IsWalk (R : Resolver → Resolver → Prop) : Prop where
  refl : ∀ r, R r r
  trans : ∀ a b c, R a b → R b c → R a c
  declareLocal : ∀ r decl, R r (r.declareLocal decl)
  backTo : ∀ r r', R r.enter r' → R r (r'.backTo r)

theorem Resolver.grows_isWalk : Resolver.IsWalk Resolver.Grows where
  refl := .refl
  trans _ _ _ := .trans
  declareLocal := grows_declareLocal
  backTo _ _ := .backTo

namespace Resolver.IsWalk

variable {R : Resolver → Resolver → Prop} (hR : Resolver.IsWalk R)

include hR

theorem declareLocals (decls : List VarDecl) (r : Resolver) : R r (r.declareLocals decls) := by
  induction decls generalizing r with
  | nil => exact hR.refl r
  | cons decl decls ih => exact hR.trans _ _ _ (hR.declareLocal r decl) (ih _)

theorem afterAll_of {stmts : List Stmt} (h : ∀ stmt ∈ stmts, ∀ r, R r (stmt.after r))
    (r : Resolver) : R r (Stmt.afterAll r stmts) := by
  induction stmts generalizing r with
  | nil => exact hR.refl r
  | cons stmt stmts ih =>
      have hstmt := h stmt (by simp) r
      exact hR.trans _ _ _ hstmt (ih (fun other hother => h other (by simp [hother])) _)

theorem block_of {block : Block} (h : ∀ stmt ∈ block.stmts, ∀ r, R r (stmt.after r))
    (r : Resolver) : R r (block.after r) := by
  obtain ⟨decls, stmts⟩ := block
  rw [Block.after]
  exact hR.trans _ _ _ (hR.declareLocals decls r) (hR.afterAll_of h _)

theorem stmt (stmt : Stmt) (r : Resolver) : R r (stmt.after r) := by
  induction stmt using Stmt.induction generalizing r with
  | ifThen cond body ih | whileLoop cond body ih | repeatLoop cond body ih =>
      rw [Stmt.after]
      exact hR.backTo _ _ (hR.block_of ih _)
  | ifElse cond thenBody elseBody ihthen ihelse =>
      rw [Stmt.after]
      exact hR.trans _ _ _ (hR.backTo _ _ (hR.block_of ihthen _))
        (hR.backTo _ _ (hR.block_of ihelse _))
  | assign _ _ | increment _ | decrement _ | read _ | write _ | call _ _ | ret _ _ =>
      exact hR.refl r

theorem afterAll (stmts : List Stmt) (r : Resolver) : R r (Stmt.afterAll r stmts) :=
  hR.afterAll_of (fun stmt _ => hR.stmt stmt) r

theorem block (block : Block) (r : Resolver) : R r (block.after r) :=
  hR.block_of (fun stmt _ => hR.stmt stmt) r

end Resolver.IsWalk

end StackMips
