import StackMips.Proofs.Resolution.Links

/-!
# Frames

The variables of a function are allocated one after the other, at frame offsets one word apart.  So
the offset of a variable is determined by its index in the arena: along a walk, the sum of the
offset and four times the index is the same for all new symbols.
-/

namespace StackMips

/-! ## Variables -/

def Ty.isStorable : Ty → Bool
  | .int | .bool | .struct _ => true
  | _ => false

structure Symbol.IsVariable (symbol : Symbol) : Prop where
  function : symbol.function? = none
  ty : symbol.ty.isStorable

theorem VarDecl.isStorable_of_kind? {r : Resolver} {decl : VarDecl} {kind : SymbolKind}
    (h : decl.kind? r = some kind) : decl.type.toTy.isStorable := by
  rcases VarDecl.kind?_cases h with ⟨_, htype | htype⟩ | ⟨_, _, htype, _⟩ <;>
    rw [htype] <;> rfl

theorem VarDecl.symbol_isVariable {r : Resolver} {decl : VarDecl} {kind : SymbolKind}
    (h : decl.kind? r = some kind) (offset : Int) : (decl.symbol offset kind).IsVariable where
  function := by
    rcases VarDecl.kind?_cases h with ⟨rfl, _⟩ | ⟨_, _, _, _, rfl⟩ <;> rfl
  ty := VarDecl.isStorable_of_kind? h

/-! ## Consecutive slots -/

/-- The walk from `r` to `r'` allocates variables only, in consecutive words of the frame. -/
structure Resolver.Slots (r r' : Resolver) : Prop where
  symbols : r.symbols.Extends r'.symbols
  anchor : r'.frameOffset + wordSize * r'.symbols.size = r.frameOffset + wordSize * r.symbols.size
  slot : ∀ (id : Nat) symbol, r.symbols.size ≤ id → r'.symbols.get? id = some symbol →
    symbol.IsVariable ∧ symbol.offset + wordSize * id = r.frameOffset + wordSize * r.symbols.size

namespace Resolver

theorem Slots.refl (r : Resolver) : r.Slots r where
  symbols := .refl _
  anchor := rfl
  slot id symbol hid hget := by
    rw [Arena.get?_eq_none_of_le hid] at hget
    cases hget

theorem Slots.trans {a b c : Resolver} (hab : a.Slots b) (hbc : b.Slots c) : a.Slots c where
  symbols := hab.symbols.trans hbc.symbols
  anchor := hbc.anchor.trans hab.anchor
  slot id symbol hid hget := by
    rcases Nat.lt_or_ge id b.symbols.size with hlt | hge
    · obtain ⟨old, hold⟩ := Arena.exists_get?_of_lt hlt
      obtain rfl : old = symbol := Option.some.inj ((hbc.symbols _ _ hold).symm.trans hget)
      exact hab.slot id old hid hold
    · obtain ⟨hvariable, hoffset⟩ := hbc.slot id symbol hge hget
      exact ⟨hvariable, hoffset.trans hab.anchor⟩

theorem slots_accept {r r' : Resolver} {decl : VarDecl} {kind : SymbolKind}
    (hkind : decl.kind? r = some kind)
    (hsymbols : r'.symbols = r.symbols.push (decl.symbol r.frameOffset kind))
    (hoffset : r'.frameOffset = r.frameOffset - wordSize) : r.Slots r' where
  symbols := hsymbols ▸ r.symbols.extends_push _
  anchor := by
    rw [hsymbols, hoffset, Arena.size_push]
    simp only [wordSize]
    omega
  slot id symbol hid hget := by
    rw [hsymbols, Arena.get?_push] at hget
    split at hget
    · next heq =>
        cases hget
        subst heq
        exact ⟨VarDecl.symbol_isVariable hkind _, rfl⟩
    · rw [Arena.get?_eq_none_of_le hid] at hget
      cases hget

theorem slots_declareFormal (r : Resolver) (decl : VarDecl) : r.Slots (r.declareFormal decl) := by
  unfold declareFormal
  split
  · exact .refl r
  · next kind hkind => exact slots_accept (VarDecl.kind?_of_accepted? hkind) rfl rfl

theorem slots_declareLocal (r : Resolver) (decl : VarDecl) : r.Slots (r.declareLocal decl) := by
  unfold declareLocal
  split
  · exact .refl r
  · next kind hkind => exact slots_accept (VarDecl.kind?_of_accepted? hkind) rfl rfl

theorem slots_declareFormals (decls : List VarDecl) (r : Resolver) :
    r.Slots (r.declareFormals decls) := by
  induction decls generalizing r with
  | nil => exact .refl r
  | cons decl decls ih => exact (r.slots_declareFormal decl).trans (ih _)

theorem slots_isWalk : IsWalk Slots where
  refl := .refl
  trans _ _ _ := .trans
  declareLocal := slots_declareLocal
  backTo _ _ h := ⟨h.symbols, h.anchor, h.slot⟩

/-- Locals are counted as they are allocated. -/
theorem localWords_isWalk :
    IsWalk fun r r' => r'.localWords + r.symbols.size = r.localWords + r'.symbols.size where
  refl _ := rfl
  trans a b c hab hbc := by omega
  declareLocal r decl := by
    unfold declareLocal
    split
    · rfl
    · simp only [accept, allocate, Arena.size_push]
      omega
  backTo _ _ h := h

end Resolver

/-! ## Links of declarations -/

namespace VarDecl

def links (decls : List VarDecl) : List SymbolId := decls.filterMap (·.id.link)

theorem links_append (before after : List VarDecl) :
    links (before ++ after) = links before ++ links after :=
  List.filterMap_append

/-- A declaration takes the next index exactly if it is accepted. -/
def Allocates (declare : Resolver → VarDecl → Resolver) : Prop :=
  ∀ r decl, (declare r decl).symbols.size =
    r.symbols.size + (links [decl.linked r r.table]).length

theorem length_links_singleton (r : Resolver) (decl : VarDecl) :
    (links [decl.linked r r.table]).length =
      if (decl.accepted? r r.table).isSome then 1 else 0 := by
  cases h : decl.accepted? r r.table <;> simp [links, linked, h]

theorem links_singleton (r : Resolver) (decl : VarDecl) :
    links [decl.linked r r.table] =
      List.range' r.symbols.size (links [decl.linked r r.table]).length := by
  cases h : decl.accepted? r r.table <;> simp [links, linked, h]

theorem allocates_declareFormal : Allocates Resolver.declareFormal := by
  intro r decl
  rw [length_links_singleton, Resolver.declareFormal]
  cases h : decl.accepted? r r.table <;> simp [Resolver.accept, Resolver.allocate]

theorem allocates_declareLocal : Allocates Resolver.declareLocal := by
  intro r decl
  rw [length_links_singleton, Resolver.declareLocal]
  cases h : decl.accepted? r r.table <;> simp [Resolver.accept, Resolver.allocate]

end VarDecl

structure Resolver.Numbers (r r' : Resolver) (decls : List VarDecl) : Prop where
  size : r'.symbols.size = r.symbols.size + (VarDecl.links decls).length
  links : VarDecl.links decls = List.range' r.symbols.size (VarDecl.links decls).length

namespace Resolver

theorem Numbers.nil (r : Resolver) : r.Numbers r [] := ⟨rfl, rfl⟩

theorem Numbers.append {a b c : Resolver} {before after : List VarDecl}
    (hab : a.Numbers b before) (hbc : b.Numbers c after) : a.Numbers c (before ++ after) where
  size := by
    rw [VarDecl.links_append, List.length_append, hbc.size, hab.size]
    omega
  links := by
    rw [VarDecl.links_append, List.length_append, ← List.range'_append_1, ← hab.size, ← hab.links,
      ← hbc.links]

theorem Numbers.of_symbols {a a' b b' : Resolver} {decls : List VarDecl} (h : a.Numbers b decls)
    (ha : a'.symbols = a.symbols) (hb : b'.symbols = b.symbols) : a'.Numbers b' decls :=
  ⟨by rw [ha, hb, h.size], by rw [ha]; exact h.links⟩

theorem numbers_linkedAll {declare : Resolver → VarDecl → Resolver}
    (hdeclare : VarDecl.Allocates declare) (decls : List VarDecl) (r : Resolver) :
    r.Numbers (decls.foldl declare r) (VarDecl.linkedAll declare r decls) := by
  induction decls generalizing r with
  | nil => exact .nil r
  | cons decl decls ih =>
      have hdecl : r.Numbers (declare r decl) [decl.linked r r.table] :=
        ⟨hdeclare r decl, VarDecl.links_singleton r decl⟩
      exact hdecl.append (ih _)

theorem numbers_linkedStmts_of {stmts : List Stmt}
    (h : ∀ stmt ∈ stmts, ∀ r : Resolver, r.Numbers (stmt.after r) (stmt.linked r).locals)
    (r : Resolver) :
    r.Numbers (Stmt.afterAll r stmts) ((Stmt.linkedAll r stmts).flatMap Stmt.locals) := by
  induction stmts generalizing r with
  | nil => exact .nil r
  | cons stmt stmts ih =>
      rw [Stmt.linkedAll, Stmt.afterAll, List.flatMap_cons]
      exact (h stmt (by simp) r).append (ih (fun other hother => h other (by simp [hother])) _)

theorem numbers_block_of {block : Block}
    (h : ∀ stmt ∈ block.stmts, ∀ r : Resolver, r.Numbers (stmt.after r) (stmt.linked r).locals)
    (r : Resolver) : r.Numbers (block.after r) (block.linked r).locals := by
  obtain ⟨decls, stmts⟩ := block
  rw [Block.locals_eq]
  exact (numbers_linkedAll VarDecl.allocates_declareLocal decls r).append
    (numbers_linkedStmts_of h _)

theorem numbers_stmt (stmt : Stmt) (r : Resolver) :
    r.Numbers (stmt.after r) (stmt.linked r).locals := by
  induction stmt using Stmt.induction generalizing r with
  | ifThen cond body ih | whileLoop cond body ih | repeatLoop cond body ih =>
      exact (numbers_block_of ih r.enter).of_symbols rfl rfl
  | ifElse cond thenBody elseBody ihthen ihelse =>
      have hthen : r.Numbers ((thenBody.after r.enter).backTo r) _ :=
        (numbers_block_of ihthen r.enter).of_symbols rfl rfl
      exact hthen.append ((numbers_block_of ihelse _).of_symbols rfl rfl)
  | assign _ _ | increment _ | decrement _ | read _ | write _ | call _ _ | ret _ _ =>
      exact .nil r

theorem numbers_block (block : Block) (r : Resolver) :
    r.Numbers (block.after r) (block.linked r).locals :=
  numbers_block_of (fun stmt _ => numbers_stmt stmt) r

end Resolver

/-! ## Quiet declarations -/

namespace VarDecl

theorem accepted_of_quiet {r : Resolver} {target : SymbolTable} {decl : VarDecl}
    (h : decl.reports r target = []) : (decl.accepted? r target).isSome := by
  obtain ⟨htype, htaken⟩ := List.append_eq_nil_iff.mp h
  have hfree : (target.lookupInnermost decl.id.name).isSome = false := by
    cases hsome : (target.lookupInnermost decl.id.name).isSome with
    | false => rfl
    | true => simp [hsome] at htaken
  rw [accepted?, hfree]
  cases hdecl : decl.type with
  | int | bool => simp [kind?, hdecl]
  | void => simp [typeReports, hdecl] at htype
  | struct id =>
      cases hstruct : r.struct? id.name with
      | none => simp [typeReports, hdecl, TypeName.reports, hstruct] at htype
      | some definition => simp [kind?, hdecl, hstruct]

@[simp] theorem toTy_linked (r : Resolver) (target : SymbolTable) (decl : VarDecl) :
    (decl.linked r target).type.toTy = decl.type.toTy :=
  TypeName.toTy_linked r decl.type

theorem isSome_link_of_quiet {r : Resolver} {target : SymbolTable} {decl : VarDecl}
    (h : decl.reports r target = []) : (decl.linked r target).id.link.isSome := by
  simpa [linked] using accepted_of_quiet h

theorem linkedAll_quiet {declare : Resolver → VarDecl → Resolver} {decls : List VarDecl}
    {r : Resolver} (h : reportsAll declare r decls = []) :
    ∀ decl ∈ linkedAll declare r decls, decl.id.link.isSome ∧ decl.type.toTy.isStorable := by
  induction decls generalizing r with
  | nil => simp [linkedAll]
  | cons decl decls ih =>
      obtain ⟨hdecl, hdecls⟩ := List.append_eq_nil_iff.mp h
      obtain ⟨kind, hkind⟩ := Option.isSome_iff_exists.mp (accepted_of_quiet hdecl)
      simp only [linkedAll, List.forall_mem_cons, toTy_linked]
      exact ⟨⟨isSome_link_of_quiet hdecl, isStorable_of_kind? (kind?_of_accepted? hkind)⟩,
        ih hdecls⟩

theorem map_toTy_linkedAll (declare : Resolver → VarDecl → Resolver) (r : Resolver)
    (decls : List VarDecl) :
    (linkedAll declare r decls).map (·.type.toTy) = decls.map (·.type.toTy) := by
  induction decls generalizing r with
  | nil => rfl
  | cons decl decls ih => simp [linkedAll, ih]

theorem length_linkedAll (declare : Resolver → VarDecl → Resolver) (r : Resolver)
    (decls : List VarDecl) : (linkedAll declare r decls).length = decls.length := by
  simpa using congrArg List.length (map_toTy_linkedAll declare r decls)

theorem map_link_eq {decls : List VarDecl} (h : ∀ decl ∈ decls, decl.id.link.isSome) :
    decls.map (·.id.link) = (links decls).map some := by
  induction decls with
  | nil => rfl
  | cons decl decls ih =>
      obtain ⟨hdecl, hdecls⟩ := List.forall_mem_cons.mp h
      obtain ⟨link, hlink⟩ := Option.isSome_iff_exists.mp hdecl
      simp [links, hlink, ih hdecls]

theorem acceptedTypes_eq {decls : List VarDecl} (h : ∀ decl ∈ decls, decl.id.link.isSome) :
    acceptedTypes decls = decls.map (·.type.toTy) := by
  have hall : decls.filter isAccepted = decls := List.filter_eq_self.mpr h
  rw [acceptedTypes, hall]

end VarDecl

namespace Stmt

theorem length_locals_linkedAll_of {stmts : List Stmt}
    (h : ∀ stmt ∈ stmts, ∀ r, (stmt.linked r).locals.length = stmt.locals.length) (r : Resolver) :
    ((Stmt.linkedAll r stmts).flatMap locals).length = (stmts.flatMap locals).length := by
  induction stmts generalizing r with
  | nil => rfl
  | cons stmt stmts ih =>
      rw [Stmt.linkedAll, List.flatMap_cons, List.flatMap_cons, List.length_append,
        List.length_append, h stmt (by simp), ih (fun other hother => h other (by simp [hother]))]

theorem length_locals_block_of {block : Block}
    (h : ∀ stmt ∈ block.stmts, ∀ r, (stmt.linked r).locals.length = stmt.locals.length)
    (r : Resolver) : (block.linked r).locals.length = block.locals.length := by
  obtain ⟨decls, stmts⟩ := block
  simp [Block.locals_eq, Block.linked, VarDecl.length_linkedAll, length_locals_linkedAll_of h]

theorem length_locals_linked (r : Resolver) (stmt : Stmt) :
    (stmt.linked r).locals.length = stmt.locals.length := by
  induction stmt using Stmt.induction generalizing r with
  | ifThen cond body ih | whileLoop cond body ih | repeatLoop cond body ih =>
      exact length_locals_block_of ih r.enter
  | ifElse cond thenBody elseBody ihthen ihelse =>
      simp [linked, locals, length_locals_block_of ihthen, length_locals_block_of ihelse]
  | assign _ _ | increment _ | decrement _ | read _ | write _ | call _ _ | ret _ _ => rfl

theorem locals_quiet_of {stmts : List Stmt}
    (h : ∀ stmt ∈ stmts, ∀ r, stmt.reports r = [] →
      ∀ decl ∈ (stmt.linked r).locals, decl.id.link.isSome)
    {r : Resolver} (hquiet : Stmt.reportsAll r stmts = []) :
    ∀ decl ∈ (Stmt.linkedAll r stmts).flatMap locals, decl.id.link.isSome := by
  induction stmts generalizing r with
  | nil => simp [Stmt.linkedAll]
  | cons stmt stmts ih =>
      obtain ⟨hstmt, hstmts⟩ := List.append_eq_nil_iff.mp hquiet
      rw [Stmt.linkedAll, List.flatMap_cons, List.forall_mem_append]
      exact ⟨h stmt (by simp) r hstmt, ih (fun other hother => h other (by simp [hother])) hstmts⟩

theorem locals_quiet_block_of {block : Block}
    (h : ∀ stmt ∈ block.stmts, ∀ r, stmt.reports r = [] →
      ∀ decl ∈ (stmt.linked r).locals, decl.id.link.isSome)
    {r : Resolver} (hquiet : block.reports r = []) :
    ∀ decl ∈ (block.linked r).locals, decl.id.link.isSome := by
  obtain ⟨decls, stmts⟩ := block
  obtain ⟨hdecls, hstmts⟩ := List.append_eq_nil_iff.mp hquiet
  rw [Block.locals_eq, List.forall_mem_append]
  exact ⟨fun decl hdecl => (VarDecl.linkedAll_quiet hdecls decl hdecl).1,
    locals_quiet_of h hstmts⟩

theorem locals_quiet (stmt : Stmt) (r : Resolver) (hquiet : stmt.reports r = []) :
    ∀ decl ∈ (stmt.linked r).locals, decl.id.link.isSome := by
  induction stmt using Stmt.induction generalizing r with
  | ifThen cond body ih | whileLoop cond body ih | repeatLoop cond body ih =>
      exact locals_quiet_block_of ih (List.append_eq_nil_iff.mp hquiet).2
  | ifElse cond thenBody elseBody ihthen ihelse =>
      simp only [reports, List.append_eq_nil_iff] at hquiet
      rw [linked, locals, List.forall_mem_append]
      exact ⟨locals_quiet_block_of ihthen hquiet.1.2, locals_quiet_block_of ihelse hquiet.2⟩
  | assign _ _ | increment _ | decrement _ | read _ | write _ | call _ _ | ret _ _ =>
      simp [linked, locals]

end Stmt

namespace Block

theorem length_locals_linked (r : Resolver) (block : Block) :
    (block.linked r).locals.length = block.locals.length :=
  Stmt.length_locals_block_of (fun stmt _ r => stmt.length_locals_linked r) r

theorem locals_quiet {r : Resolver} {block : Block} (h : block.reports r = []) :
    ∀ decl ∈ (block.linked r).locals, decl.id.link.isSome :=
  Stmt.locals_quiet_block_of (fun stmt _ r => stmt.locals_quiet r) h

end Block

/-! ## The frame of a function -/

namespace FnDecl

def signature (fn : FnDecl) : FunctionInfo where
  paramTypes := fn.formals.map (·.type.toTy)
  returnType := fn.returnType.toTy
  numParams := fn.formals.length
  paramsSize := wordSize * fn.formals.length
  localsSize := wordSize * fn.body.locals.length

/-- What the arena says about a function that is linked to `index`: its own symbol has its
signature, and its variables follow, in the order of the frame. -/
structure Framed (symbols : Arena) (index : Nat) (fn : FnDecl) : Prop where
  link : fn.id.link = some index
  symbol : symbols.get? index = some
    { name := fn.id.name
      ty := .function fn.signature.paramTypes fn.signature.returnType
      offset := globalOffset
      kind := .function fn.signature
      pos := fn.id.pos }
  storable : ∀ ty ∈ fn.signature.paramTypes, ty.isStorable
  formalLinks : fn.formals.map (·.id.link) =
    (List.range' (index + 1) fn.formals.length).map some
  localLinks : fn.body.locals.map (·.id.link) =
    (List.range' (index + 1 + fn.formals.length) fn.body.locals.length).map some
  formalSlot : ∀ i < fn.formals.length, ∃ symbol, symbols.get? (index + 1 + i) = some symbol ∧
    symbol.IsVariable ∧ symbol.offset = -(wordSize * i)
  localSlot : ∀ j < fn.body.locals.length, ∃ symbol,
    symbols.get? (index + 1 + fn.formals.length + j) = some symbol ∧ symbol.IsVariable ∧
      symbol.offset = -(wordSize * fn.formals.length + linkageSize + wordSize * j)

theorem Framed.mono {a b : Arena} {index : Nat} {fn : FnDecl} (h : fn.Framed a index)
    (hextends : a.Extends b) : fn.Framed b index where
  link := h.link
  symbol := hextends _ _ h.symbol
  storable := h.storable
  formalLinks := h.formalLinks
  localLinks := h.localLinks
  formalSlot i hi := by
    obtain ⟨symbol, hget, hsymbol⟩ := h.formalSlot i hi
    exact ⟨symbol, hextends _ _ hget, hsymbol⟩
  localSlot j hj := by
    obtain ⟨symbol, hget, hsymbol⟩ := h.localSlot j hj
    exact ⟨symbol, hextends _ _ hget, hsymbol⟩

theorem signature_linked (r : Resolver) (fn : FnDecl) : (fn.linked r).signature = fn.signature := by
  simp [signature, linked, linkedFormals, VarDecl.map_toTy_linkedAll, VarDecl.length_linkedAll,
    Block.length_locals_linked]

theorem quiet_parts {r : Resolver} {fn : FnDecl} (h : fn.reports r = []) :
    fn.isTaken r = false ∧ VarDecl.reportsAll Resolver.declareFormal (fn.opened r) fn.formals = [] ∧
      fn.body.reports (fn.inside r) = [] := by
  simp only [reports, List.append_eq_nil_iff] at h
  obtain ⟨⟨⟨_, htaken⟩, hformals⟩, hbody⟩ := h
  refine ⟨?_, hformals, hbody⟩
  cases hcase : fn.isTaken r with
  | false => rfl
  | true => simp [hcase] at htaken

theorem opened_of_taken {r : Resolver} {fn : FnDecl} (h : fn.isTaken r = true) :
    (fn.opened r).symbols = r.symbols := by
  simp [opened, named, h, Resolver.enter]

/-- The state in which the formals are declared, if the name of the function is free. -/
theorem opened_eq {r : Resolver} {fn : FnDecl} (h : fn.isTaken r = false) :
    (fn.opened r).symbols = r.symbols.push
      (Symbol.ofFunction fn.id.name fn.returnType.toTy fn.formals.length fn.id.pos) := by
  simp [opened, named, h, Resolver.enter, Resolver.accept, Resolver.allocate]

theorem slots_inside (r : Resolver) (fn : FnDecl) :
    (fn.opened r).Slots ((fn.opened r).declareFormals fn.formals) :=
  Resolver.slots_declareFormals fn.formals _

theorem slots_body (r : Resolver) (fn : FnDecl) :
    (fn.inside r).Slots (fn.body.after (fn.inside r)) :=
  Resolver.slots_isWalk.block fn.body _

theorem localWords_inside (r : Resolver) (fn : FnDecl) : (fn.inside r).localWords = 0 := by
  have h : ∀ (decls : List VarDecl) (s : Resolver),
      (s.declareFormals decls).localWords = s.localWords := by
    intro decls
    induction decls with
    | nil => exact fun _ => rfl
    | cons decl decls ih =>
        intro s
        refine (ih _).trans ?_
        unfold Resolver.declareFormal
        split <;> rfl
  exact h fn.formals _

theorem numbers_formals (r : Resolver) (fn : FnDecl) :
    (fn.opened r).Numbers (fn.inside r) (fn.linked r).formals :=
  (Resolver.numbers_linkedAll VarDecl.allocates_declareFormal fn.formals _).of_symbols rfl rfl

theorem numbers_locals (r : Resolver) (fn : FnDecl) :
    (fn.inside r).Numbers (fn.body.after (fn.inside r)) (fn.linked r).body.locals :=
  Resolver.numbers_block fn.body _

theorem localWords_walked (r : Resolver) (fn : FnDecl) :
    (fn.walked r).localWords = (VarDecl.links (fn.linked r).body.locals).length := by
  have hwalk := Resolver.localWords_isWalk.block fn.body (fn.inside r)
  have hsize := (numbers_locals r fn).size
  have hzero := localWords_inside r fn
  change (fn.body.after (fn.inside r)).localWords = _
  omega

theorem frameOffset_inside (r : Resolver) (fn : FnDecl) : (fn.inside r).frameOffset =
    -(wordSize * (VarDecl.links (fn.linked r).formals).length + linkageSize) := by
  have hanchor := (slots_inside r fn).anchor
  have hsize : ((fn.opened r).declareFormals fn.formals).symbols.size = _ :=
    (numbers_formals r fn).size
  have hstart : (fn.opened r).frameOffset = 0 := rfl
  change ((fn.opened r).declareFormals fn.formals).frameOffset - linkageSize = _
  rw [hsize, hstart] at hanchor
  simp only [wordSize, linkageSize] at hanchor ⊢
  omega

/-- During the walk through a function, its symbol has an empty signature. -/
theorem get?_walked_own {r : Resolver} {fn : FnDecl} (h : fn.isTaken r = false) :
    (fn.walked r).symbols.get? r.symbols.size =
      some (Symbol.ofFunction fn.id.name fn.returnType.toTy fn.formals.length fn.id.pos) := by
  have hown : (fn.opened r).symbols.get? r.symbols.size = some
      (Symbol.ofFunction fn.id.name fn.returnType.toTy fn.formals.length fn.id.pos) := by
    rw [opened_eq h, Arena.get?_push_size]
  exact (slots_body r fn).symbols _ _ ((slots_inside r fn).symbols _ _ hown)

theorem get?_own {r : Resolver} {fn : FnDecl} (h : fn.isTaken r = false) :
    (fn.after r).symbols.get? r.symbols.size =
      some ((Symbol.ofFunction fn.id.name fn.returnType.toTy fn.formals.length fn.id.pos).withFrame
        (VarDecl.acceptedTypes (fn.linkedFormals r)) fn.returnType.toTy
        (fn.walked r).localWords) := by
  rw [after, h]
  simp [Arena.get?_modify, get?_walked_own h]

section Quiet

variable {r : Resolver} {fn : FnDecl} (h : fn.reports r = [])

include h

theorem formals_quiet : ∀ decl ∈ (fn.linked r).formals,
    decl.id.link.isSome ∧ decl.type.toTy.isStorable :=
  VarDecl.linkedAll_quiet (quiet_parts h).2.1

theorem locals_quiet : ∀ decl ∈ (fn.linked r).body.locals, decl.id.link.isSome :=
  Block.locals_quiet (quiet_parts h).2.2

theorem size_opened : (fn.opened r).symbols.size = r.symbols.size + 1 := by
  rw [opened_eq (quiet_parts h).1, Arena.size_push]

theorem length_links_formals :
    (VarDecl.links (fn.linked r).formals).length = (fn.linked r).formals.length := by
  have hmap := VarDecl.map_link_eq fun decl hdecl => (formals_quiet h decl hdecl).1
  simpa using (congrArg List.length hmap).symm

theorem length_links_locals :
    (VarDecl.links (fn.linked r).body.locals).length = (fn.linked r).body.locals.length := by
  simpa using (congrArg List.length (VarDecl.map_link_eq (locals_quiet h))).symm

theorem size_inside :
    (fn.inside r).symbols.size = r.symbols.size + 1 + (fn.linked r).formals.length := by
  rw [(numbers_formals r fn).size, size_opened h, length_links_formals h]

theorem size_body : (fn.body.after (fn.inside r)).symbols.size =
    r.symbols.size + 1 + (fn.linked r).formals.length + (fn.linked r).body.locals.length := by
  rw [(numbers_locals r fn).size, size_inside h, length_links_locals h]

/-- The symbols of a function are those of its walk, its own one completed. -/
theorem get?_after (id : Nat) : (fn.after r).symbols.get? id =
    if r.symbols.size = id then some
      { name := fn.id.name
        ty := .function fn.signature.paramTypes fn.signature.returnType
        offset := globalOffset
        kind := .function fn.signature
        pos := fn.id.pos }
    else (fn.body.after (fn.inside r)).symbols.get? id := by
  have htaken := (quiet_parts h).1
  split
  · next heq =>
      have htypes : VarDecl.acceptedTypes (fn.linkedFormals r) = fn.formals.map (·.type.toTy) :=
        (VarDecl.acceptedTypes_eq fun decl hdecl => (formals_quiet h decl hdecl).1).trans
          (VarDecl.map_toTy_linkedAll _ _ _)
      have hlocals : (fn.linked r).body.locals.length = fn.body.locals.length :=
        Block.length_locals_linked _ _
      subst heq
      rw [get?_own htaken, htypes, localWords_walked, length_links_locals h, hlocals]
      simp [Symbol.withFrame, Symbol.ofFunction, signature]
  · next hne =>
      rw [after, htaken]
      simp only [Bool.false_eq_true, if_false, Arena.get?_modify, if_neg hne]
      rfl

/-- A function that resolves quietly gets a complete frame. -/
theorem framed_linked : (fn.linked r).Framed (fn.after r).symbols r.symbols.size where
  link := by simp [linked, (quiet_parts h).1]
  symbol := by
    rw [get?_after h, if_pos rfl, signature_linked]
    rfl
  storable := by
    simp only [signature, List.mem_map]
    rintro _ ⟨decl, hdecl, rfl⟩
    exact (formals_quiet h decl hdecl).2
  formalLinks := by
    rw [VarDecl.map_link_eq fun decl hdecl => (formals_quiet h decl hdecl).1,
      (numbers_formals r fn).links, length_links_formals h, size_opened h]
  localLinks := by
    rw [VarDecl.map_link_eq (locals_quiet h), (numbers_locals r fn).links, length_links_locals h,
      size_inside h]
  formalSlot i hi := by
    have hsize := size_inside h
    have hopened := size_opened h
    obtain ⟨symbol, hget⟩ := Arena.exists_get?_of_lt
      (show r.symbols.size + 1 + i < (fn.inside r).symbols.size by omega)
    obtain ⟨hvariable, hoffset⟩ := (slots_inside r fn).slot _ symbol (by omega) hget
    refine ⟨symbol, ?_, hvariable, ?_⟩
    · rw [get?_after h, if_neg (by omega)]
      exact (slots_body r fn).symbols _ _ hget
    · have hstart : (fn.opened r).frameOffset = 0 := rfl
      rw [hopened, hstart] at hoffset
      simp only [wordSize] at hoffset ⊢
      omega
  localSlot j hj := by
    have hsize := size_inside h
    have hbody := size_body h
    have hstart := frameOffset_inside r fn
    obtain ⟨symbol, hget⟩ := Arena.exists_get?_of_lt
      (show r.symbols.size + 1 + (fn.linked r).formals.length + j <
        (fn.body.after (fn.inside r)).symbols.size by omega)
    obtain ⟨hvariable, hoffset⟩ := (slots_body r fn).slot _ symbol (by omega) hget
    refine ⟨symbol, ?_, hvariable, ?_⟩
    · rw [get?_after h, if_neg (by omega), hget]
    · rw [hsize, hstart, length_links_formals h] at hoffset
      simp only [wordSize, linkageSize] at hoffset ⊢
      omega

end Quiet

end FnDecl

end StackMips
