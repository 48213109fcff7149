import StackMips.Proofs.Analysis
import StackMips.Proofs.Simulation.Setting

/-!
# Where the variables of a function lie

The variables that a function declares lie in its frame, at the offsets that resolution gave them;
the global variables that it uses lie in the data region.  While the function is active, they are
all in different words, and the stack does not reach them.
-/

namespace StackMips

open Mips

def Symbol.location (symbol : Symbol) : Location :=
  if symbol.isGlobal then .global (globalLabel symbol.name) else .frame symbol.offset

theorem globalLabel_inj {name name' : String} :
    globalLabel name = globalLabel name' ↔ name = name' :=
  String.append_right_inj _

namespace FnDecl

def declared (fn : FnDecl) : List VarDecl := fn.formals ++ fn.body.locals

def slotOffset (fn : FnDecl) (position : Nat) : Int :=
  -(wordSize * position + if position < fn.formals.length then 0 else linkageSize)

theorem slotOffset_nonpos (fn : FnDecl) (position : Nat) : fn.slotOffset position ≤ 0 := by
  simp only [slotOffset, wordSize, linkageSize]
  split <;> omega

theorem slotOffset_inj {fn : FnDecl} {position other : Nat}
    (h : fn.slotOffset position = fn.slotOffset other) : position = other := by
  simp only [slotOffset, wordSize, linkageSize] at h
  split at h <;> split at h <;> omega

theorem slotOffset_mod (fn : FnDecl) (position : Nat) : fn.slotOffset position % 4 = 0 := by
  simp only [slotOffset, wordSize, linkageSize]
  split <;> omega

/-- The identifiers through which a function knows variables. -/
def mentions (fn : FnDecl) : List Ident := fn.declared.map (·.id) ++ fn.body.uses

def Place (image : Image) (symbols : Arena) (fn : FnDecl) (fp : Word) (link : SymbolId) (a : Word) :
    Prop :=
  ∃ id ∈ fn.mentions, id.link = some link ∧ ∃ symbol, symbols.get? link = some symbol ∧
    symbol.IsVariable ∧ a = image.locate fp symbol.location

/-- The function is being executed: its variables lie above `$sp`, and data lies neither in the
frame nor between `floor` and `$sp`, where the stack is. -/
structure Active (image : Image) (symbols : Arena) (fn : FnDecl) (floor : Nat) (s : State) :
    Prop where
  sp_aligned : (s.reg .sp).Aligned
  fp_aligned : (s.reg .fp).Aligned
  frame : ∀ decl ∈ fn.declared, ∀ symbol, symbols.symbol? decl.id = some symbol →
    ((s.reg .sp).toNat : Int) < (s.reg .fp).toNat + symbol.offset
  data : ∀ {name comment}, .label name (some ⟨.space wordSize, comment⟩) ∈ image.lines →
    (image.dataAddress name).toNat ≤ floor ∨ (s.reg .sp).toNat < (image.dataAddress name).toNat ∧
      (s.reg .fp).toNat < (image.dataAddress name).toNat

def Stored (image : Image) (symbols : Arena) (fn : FnDecl) : Prop :=
  ∀ id ∈ fn.body.uses, ∀ symbol, symbols.symbol? id = some symbol → symbol.IsVariable →
    symbol.isGlobal →
    ∃ comment, .label (globalLabel id.name) (some ⟨.space wordSize, comment⟩) ∈ image.lines

section Framed

variable {symbols : Arena} {index : Nat} {globals : Scope} {fn : FnDecl}

theorem Framed.slot (h : fn.Framed symbols index) {position : Nat}
    (hposition : position < fn.declCount) :
    ∃ symbol, symbols.get? (index + 1 + position) = some symbol ∧ symbol.IsVariable ∧
      symbol.offset = fn.slotOffset position := by
  rw [declCount] at hposition
  rw [slotOffset]
  rcases Nat.lt_or_ge position fn.formals.length with hlt | hge
  · obtain ⟨symbol, hget, hvariable, hoffset⟩ := h.formalSlot position hlt
    exact ⟨symbol, hget, hvariable, by simp [hoffset, hlt]⟩
  · obtain ⟨rest, rfl⟩ := Nat.exists_eq_add_of_le hge
    obtain ⟨symbol, hget, hvariable, hoffset⟩ := h.localSlot rest (by omega)
    rw [Nat.add_assoc] at hget
    refine ⟨symbol, hget, hvariable, ?_⟩
    rw [hoffset, if_neg (by omega)]
    simp only [wordSize, linkageSize]
    omega

theorem Framed.links (h : fn.Framed symbols index) :
    fn.declared.map (·.id.link) = (List.range' (index + 1) fn.declCount).map some := by
  rw [declared, List.map_append, h.formalLinks, h.localLinks, ← List.map_append, declCount,
    ← List.range'_append_1]

theorem Framed.link_of_mem (h : fn.Framed symbols index) {decl : VarDecl}
    (hdecl : decl ∈ fn.declared) :
    ∃ position < fn.declCount, decl.id.link = some (index + 1 + position) := by
  have hlink : decl.id.link ∈ fn.declared.map (·.id.link) := List.mem_map_of_mem hdecl
  rw [h.links, List.mem_map] at hlink
  obtain ⟨link, hmem, heq⟩ := hlink
  obtain ⟨position, hposition, rfl⟩ := List.mem_range'.mp hmem
  exact ⟨position, hposition, by simpa using heq.symm⟩

theorem Framed.mem_of_link (h : fn.Framed symbols index) {position : Nat}
    (hposition : position < fn.declCount) :
    ∃ decl ∈ fn.declared, decl.id.link = some (index + 1 + position) := by
  have hlink : some (index + 1 + position) ∈ fn.declared.map (·.id.link) := by
    rw [h.links, List.mem_map]
    exact ⟨index + 1 + position, List.mem_range'.mpr ⟨position, hposition, by simp⟩, rfl⟩
  obtain ⟨decl, hdecl, heq⟩ := List.mem_map.mp hlink
  exact ⟨decl, hdecl, heq⟩

end Framed

/-- Where the names of the function lead.  The variables that it declares have different words of
the frame; the other variables that it uses are global and have different names. -/
structure Separates (symbols : Arena) (fn : FnDecl) : Prop where
  names : ∀ id ∈ fn.body.uses, id.PointsInto symbols
  cases : ∀ id ∈ fn.body.uses, ∀ (link : SymbolId) symbol, id.link = some link →
    symbols.get? link = some symbol →
    (∃ decl ∈ fn.declared, decl.id.link = some link) ∨ symbol.isGlobal
  slots : ∀ decl ∈ fn.declared, ∀ symbol, symbols.symbol? decl.id = some symbol →
    symbol.offset ≤ 0 ∧ symbol.offset % 4 = 0
  slots_inj : ∀ decl ∈ fn.declared, ∀ decl' ∈ fn.declared, ∀ symbol symbol',
    symbols.symbol? decl.id = some symbol → symbols.symbol? decl'.id = some symbol' →
    symbol.offset = symbol'.offset → decl.id.link = decl'.id.link
  globals_inj : ∀ id ∈ fn.body.uses, ∀ id' ∈ fn.body.uses, ∀ symbol symbol',
    symbols.symbol? id = some symbol → symbols.symbol? id' = some symbol' → symbol.isGlobal →
    symbol'.isGlobal → id.name = id'.name → id.link = id'.link

/-- The names of a function that was resolved without a report. -/
theorem Framed.separates {symbols : Arena} {index : Nat} {globals : Scope} {fn : FnDecl}
    (hframed : fn.Framed symbols index) (hscoped : fn.Scoped symbols index globals) :
    fn.Separates symbols := by
  have hslot : ∀ decl ∈ fn.declared, ∀ symbol, symbols.symbol? decl.id = some symbol →
      ∃ position < fn.declCount, decl.id.link = some (index + 1 + position) ∧
        symbol.offset = fn.slotOffset position := by
    intro decl hdecl symbol hsymbol
    obtain ⟨position, hposition, hlink⟩ := hframed.link_of_mem hdecl
    obtain ⟨symbol', hget, _, hoffset⟩ := hframed.slot hposition
    have hsame : symbols.symbol? decl.id = some symbol' := by
      simpa [Arena.symbol?, hlink] using hget
    cases hsymbol.symm.trans hsame
    exact ⟨position, hposition, hlink, hoffset⟩
  have hcases : ∀ id ∈ fn.body.uses, ∀ link symbol, id.link = some link →
      symbols.get? link = some symbol →
      (∃ decl ∈ fn.declared, decl.id.link = some link) ∨
        symbol.isGlobal ∧ globals.lookup id.name = some link := by
    intro id hid link symbol hlink hget
    obtain ⟨link', hlink', hcase⟩ := hscoped.uses id hid
    cases hlink.symm.trans hlink'
    rcases hcase with ⟨hlt, hle⟩ | ⟨_, hlookup⟩
    · obtain ⟨position, rfl⟩ := Nat.exists_eq_add_of_le hlt
      exact .inl (hframed.mem_of_link (by rw [declCount]; omega))
    · obtain ⟨symbol', hget', hoffset⟩ := hscoped.isGlobal _ (Scope.mem_of_lookup hlookup)
      cases hget.symm.trans hget'
      exact .inr ⟨by simp [Symbol.isGlobal, hoffset, globalOffset], hlookup⟩
  -- What is global is not in the frame, so its name is looked up among the globals.
  have hglobal : ∀ id ∈ fn.body.uses, ∀ symbol, symbols.symbol? id = some symbol →
      symbol.isGlobal → ∃ link, id.link = some link ∧ globals.lookup id.name = some link := by
    intro id hid symbol hsymbol hglobal
    obtain ⟨link, hlink, hget⟩ := Option.bind_eq_some_iff.mp hsymbol
    rcases hcases id hid link symbol hlink hget with ⟨decl, hdecl, hdeclared⟩ | ⟨_, hlookup⟩
    · obtain ⟨position, _, _, hoffset⟩ := hslot decl hdecl symbol
        (by simpa [Arena.symbol?, hdeclared] using hget)
      have hnonpos := fn.slotOffset_nonpos position
      simp only [Symbol.isGlobal, decide_eq_true_eq] at hglobal
      omega
    · exact ⟨link, hlink, hlookup⟩
  refine ⟨fun id hid => ?_, fun id hid link symbol hlink hget => ?_,
    fun decl hdecl symbol hsymbol => ?_, ?_, ?_⟩
  · obtain ⟨e, he, hmem⟩ := List.mem_flatMap.mp hid
    exact (hscoped.linked e he id (e.uses_subset hmem)).2
  · exact (hcases id hid link symbol hlink hget).imp_right And.left
  · obtain ⟨position, _, _, hoffset⟩ := hslot decl hdecl symbol hsymbol
    rw [hoffset]
    exact ⟨fn.slotOffset_nonpos position, fn.slotOffset_mod position⟩
  · intro decl hdecl decl' hdecl' symbol symbol' hsymbol hsymbol' hsame
    obtain ⟨position, _, hlink, hoffset⟩ := hslot decl hdecl symbol hsymbol
    obtain ⟨position', _, hlink', hoffset'⟩ := hslot decl' hdecl' symbol' hsymbol'
    rw [hlink, hlink', slotOffset_inj (hoffset.symm.trans (hsame.trans hoffset'))]
  · intro id hid id' hid' symbol symbol' hsymbol hsymbol' hsymbolGlobal hsymbolGlobal' hname
    obtain ⟨link, hlink, hlookup⟩ := hglobal id hid symbol hsymbol hsymbolGlobal
    obtain ⟨link', hlink', hlookup'⟩ := hglobal id' hid' symbol' hsymbol' hsymbolGlobal'
    rw [hname, hlookup'] at hlookup
    rw [hlink, hlink', hlookup]

/-- The variables of the function lie above `$sp`, and the global ones either there or at most at
`floor`, but not in the frame. -/
structure Clear (image : Image) (symbols : Arena) (fn : FnDecl) (floor : Nat) (s : State) :
    Prop where
  sp_aligned : (s.reg .sp).Aligned
  fp_aligned : (s.reg .fp).Aligned
  frame : ∀ decl ∈ fn.declared, ∀ symbol, symbols.symbol? decl.id = some symbol →
    ((s.reg .sp).toNat : Int) < (s.reg .fp).toNat + symbol.offset
  data : ∀ id ∈ fn.body.uses, ∀ symbol, symbols.symbol? id = some symbol → symbol.IsVariable →
    symbol.isGlobal →
    ((s.reg .sp).toNat < (image.dataAddress (globalLabel id.name)).toNat ∨
      (image.dataAddress (globalLabel id.name)).toNat ≤ floor) ∧
    ∀ decl ∈ fn.declared, ∀ symbol', symbols.symbol? decl.id = some symbol' →
      image.dataAddress (globalLabel id.name) ≠ s.reg .fp + .ofInt 32 symbol'.offset

section Layout

variable {image : Image} {symbols : Arena} {fn : FnDecl} {floor : Nat} {s : State}
  (hseparates : fn.Separates symbols)
include hseparates

theorem place_cases {fp : Word} {link : SymbolId} {a : Word}
    (h : fn.Place image symbols fp link a) :
    (∃ decl ∈ fn.declared, decl.id.link = some link ∧ ∃ symbol,
      symbols.symbol? decl.id = some symbol ∧ a = fp + .ofInt 32 symbol.offset) ∨
    ∃ id ∈ fn.body.uses, id.link = some link ∧ ∃ symbol, symbols.symbol? id = some symbol ∧
      symbol.IsVariable ∧ symbol.isGlobal ∧ a = image.dataAddress (globalLabel id.name) := by
  obtain ⟨id, hid, hlink, symbol, hget, hvariable, rfl⟩ := h
  have hframe : (∃ decl ∈ fn.declared, decl.id.link = some link) →
      ∃ decl ∈ fn.declared, decl.id.link = some link ∧ ∃ symbol',
        symbols.symbol? decl.id = some symbol' ∧
          image.locate fp symbol.location = fp + .ofInt 32 symbol'.offset := by
    rintro ⟨decl, hdecl, hdeclared⟩
    have hsymbol : symbols.symbol? decl.id = some symbol := by
      simpa [Arena.symbol?, hdeclared] using hget
    have hlocal : symbol.isGlobal = false := by
      simpa [Symbol.isGlobal] using (hseparates.slots decl hdecl symbol hsymbol).1
    exact ⟨decl, hdecl, hdeclared, symbol, hsymbol,
      by simp [Symbol.location, hlocal, Image.locate]⟩
  rw [mentions, List.mem_append] at hid
  rcases hid with hdeclared | huse
  · obtain ⟨decl, hdecl, rfl⟩ := List.mem_map.mp hdeclared
    exact .inl (hframe ⟨decl, hdecl, hlink⟩)
  · rcases hseparates.cases id huse link symbol hlink hget with hdeclared | hglobal
    · exact .inl (hframe hdeclared)
    · obtain ⟨symbol', hget', hname⟩ := hseparates.names id huse link hlink
      cases hget.symm.trans hget'
      exact .inr ⟨id, huse, hlink, symbol, by simpa [Arena.symbol?, hlink] using hget, hvariable,
        hglobal, by simp [Symbol.location, hglobal, Image.locate, hname]⟩

/-- The words of the frame lie between `$sp` and `$fp`. -/
theorem toNat_slot
    (hframe : ∀ decl ∈ fn.declared, ∀ symbol, symbols.symbol? decl.id = some symbol →
      ((s.reg .sp).toNat : Int) < (s.reg .fp).toNat + symbol.offset)
    {decl : VarDecl} (hdecl : decl ∈ fn.declared) {symbol : Symbol}
    (hsymbol : symbols.symbol? decl.id = some symbol) :
    ((s.reg .fp + .ofInt 32 symbol.offset).toNat : Int) = (s.reg .fp).toNat + symbol.offset := by
  have habove := hframe decl hdecl symbol hsymbol
  have hnonpos := (hseparates.slots decl hdecl symbol hsymbol).1
  have hlt := (s.reg .fp).isLt
  rw [BitVec.toNat_add, BitVec.toNat_ofInt]
  omega

/-- While the function is active, the stack reaches none of its variables. -/
theorem Active.clear (hactive : fn.Active image symbols floor s)
    (hstored : fn.Stored image symbols) (hfloor : floor ≤ (s.reg .sp).toNat) :
    fn.Clear image symbols floor s where
  sp_aligned := hactive.sp_aligned
  fp_aligned := hactive.fp_aligned
  frame := hactive.frame
  data id hid symbol hsymbol hvariable hglobal := by
    obtain ⟨comment, hmem⟩ := hstored id hid symbol hsymbol hvariable hglobal
    have hdata := hactive.data hmem
    refine ⟨by omega, fun decl hdecl symbol' hsymbol' heq => ?_⟩
    have hvalue := toNat_slot hseparates hactive.frame hdecl hsymbol'
    have habove := hactive.frame decl hdecl symbol' hsymbol'
    have hnonpos := (hseparates.slots decl hdecl symbol' hsymbol').1
    rw [← heq] at hvalue
    omega

variable (hclear : fn.Clear image symbols floor s)
include hclear

/-- Different variables lie in different words. -/
theorem place_inj (hstored : fn.Stored image symbols) {link link' : SymbolId} {a : Word}
    (h : fn.Place image symbols (s.reg .fp) link a)
    (h' : fn.Place image symbols (s.reg .fp) link' a) : link = link' := by
  rcases place_cases hseparates h with ⟨decl, hdecl, hlink, symbol, hsymbol, ha⟩ |
    ⟨id, hid, hlink, symbol, hsymbol, hvariable, hglobal, ha⟩ <;>
  rcases place_cases hseparates h' with ⟨decl', hdecl', hlink', symbol', hsymbol', ha'⟩ |
    ⟨id', hid', hlink', symbol', hsymbol', hvariable', hglobal', ha'⟩
  · have hvalue := toNat_slot hseparates hclear.frame hdecl hsymbol
    have hvalue' := toNat_slot hseparates hclear.frame hdecl' hsymbol'
    rw [← ha, ha', hvalue'] at hvalue
    have hsame := hseparates.slots_inj decl hdecl decl' hdecl' symbol symbol' hsymbol hsymbol'
      (by omega)
    rw [hlink, hlink', Option.some.injEq] at hsame
    exact hsame
  · exact absurd (ha'.symm.trans ha)
      ((hclear.data id' hid' symbol' hsymbol' hvariable' hglobal').2 decl hdecl symbol hsymbol)
  · exact absurd (ha.symm.trans ha')
      ((hclear.data id hid symbol hsymbol hvariable hglobal).2 decl' hdecl' symbol' hsymbol')
  · obtain ⟨comment, hmem⟩ := hstored id hid symbol hsymbol hvariable hglobal
    obtain ⟨comment', hmem'⟩ := hstored id' hid' symbol' hsymbol' hvariable' hglobal'
    have hname := globalLabel_inj.mp (image.apart hmem hmem' (ha.symm.trans ha'))
    have hsame := hseparates.globals_inj id hid id' hid' symbol symbol' hsymbol hsymbol' hglobal
      hglobal' hname
    rw [hlink, hlink', Option.some.injEq] at hsame
    exact hsame

theorem place_outside {link : SymbolId} {a : Word}
    (h : fn.Place image symbols (s.reg .fp) link a) :
    (s.reg .sp).toNat < a.toNat ∨ a.toNat ≤ floor := by
  rcases place_cases hseparates h with ⟨decl, hdecl, _, symbol, hsymbol, rfl⟩ |
    ⟨id, hid, _, symbol, hsymbol, hvariable, hglobal, rfl⟩
  · have hvalue := toNat_slot hseparates hclear.frame hdecl hsymbol
    have habove := hclear.frame decl hdecl symbol hsymbol
    exact .inl (by omega)
  · exact (hclear.data id hid symbol hsymbol hvariable hglobal).1

theorem place_aligned (hstored : fn.Stored image symbols) {link : SymbolId} {a : Word}
    (h : fn.Place image symbols (s.reg .fp) link a) : a.Aligned := by
  rcases place_cases hseparates h with ⟨decl, hdecl, _, symbol, hsymbol, rfl⟩ |
    ⟨id, hid, _, symbol, hsymbol, hvariable, hglobal, rfl⟩
  · have hvalue := toNat_slot hseparates hclear.frame hdecl hsymbol
    have hmod := (hseparates.slots decl hdecl symbol hsymbol).2
    have haligned : (s.reg .fp).toNat % 4 = 0 := hclear.fp_aligned
    rw [Word.Aligned]
    omega
  · obtain ⟨comment, hmem⟩ := hstored id hid symbol hsymbol hvariable hglobal
    exact image.aligned hmem

def setting (htyped : symbols.Typed) (hstored : fn.Stored image symbols) (pool : StringPool)
    (htexts : ∀ {text label}, pool.lookup text = some label →
      ∃ comment, .label label (some ⟨.asciiz text, comment⟩) ∈ image.lines) : Setting where
  image
  symbols
  pool
  fp := s.reg .fp
  top := s.reg .sp
  floor
  Place := fn.Place image symbols (s.reg .fp)
  typed := htyped
  texts := htexts
  unique {link link' a a'} h h' := by
    constructor
    · rintro rfl
      obtain ⟨_, _, _, symbol, hget, _, rfl⟩ := h
      obtain ⟨_, _, _, symbol', hget', _, rfl⟩ := h'
      obtain rfl := Option.some.inj (hget.symm.trans hget')
      rfl
    · rintro rfl
      exact place_inj hseparates hclear hstored h h'
  outside h := place_outside hseparates hclear h
  aligned h := place_aligned hseparates hclear hstored h

end Layout

theorem covers_uses {S : Setting} {fn : FnDecl} (hseparates : fn.Separates S.symbols)
    (hplace : ∀ {link a}, fn.Place S.image S.symbols S.fp link a → S.Place link a)
    (hvariable : ∀ link symbol, S.symbols.get? link = some symbol → symbol.ty.isStorable →
      symbol.IsVariable) : S.Covers fn.body.uses := by
  intro id hid ty hty hstorable
  obtain ⟨symbol, hsymbol, rfl⟩ := Option.map_eq_some_iff.mp hty
  obtain ⟨link, hlink, hget⟩ := Option.bind_eq_some_iff.mp hsymbol
  obtain ⟨symbol', hget', hname⟩ := hseparates.names id hid link hlink
  cases hget.symm.trans hget'
  have hlocation : S.symbols.location? id = some symbol.location := by
    simp [Arena.location?, hsymbol, Symbol.location, hname]
  refine ⟨link, symbol.location, hlink, hlocation, hplace ?_⟩
  exact ⟨id, List.mem_append_right _ hid, hlink, symbol, hget, hvariable link symbol hget hstorable,
    rfl⟩

end FnDecl

end StackMips
