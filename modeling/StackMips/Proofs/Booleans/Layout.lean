import StackMips.Proofs.Booleans.Frame
import StackMips.Proofs.LabelClosure
import StackMips.Proofs.Resolution.VariableTypes

/-!
# Where boolean variables lie

In a loaded program, the variables of a function lie in its frame or among the data, and the
boolean ones among them are exactly those that are declared to be so.
-/

namespace StackMips

open Mips

/-! ## Slots of a frame -/

theorem Arena.mem_addresses {symbols : Arena} {fp a : Word} {decls : List VarDecl} :
    a ∈ symbols.addresses fp decls ↔
      ∃ decl ∈ decls, ∃ symbol, symbols.symbol? decl.id = some symbol ∧
        fp + .ofInt 32 symbol.offset = a := by
  simp [addresses, List.mem_filterMap]

theorem TypeName.toTy_eq_bool {type : TypeName} : type.toTy = .bool ↔ type = .bool := by
  cases type <;> simp [toTy]

namespace FnDecl

/-- The number of words between the frame pointer and a declared variable. -/
def slot (fn : FnDecl) (position : Nat) : Nat :=
  if position < fn.formals.length then position else position + 2

variable {symbols : Arena} {index : Nat} {fn : FnDecl}

theorem slotOffset_eq (fn : FnDecl) (position : Nat) :
    fn.slotOffset position = -(4 * fn.slot position : Nat) := by
  simp only [slotOffset, slot, wordSize, linkageSize]
  split <;> omega

theorem slot_lt {position : Nat} (h : position < fn.declCount) :
    fn.slot position < fn.frameSize := by
  simp only [declCount] at h
  simp only [slot, frameSize]
  split <;> omega

theorem slot_ne_formals (fn : FnDecl) (position : Nat) :
    fn.slot position ≠ fn.formals.length ∧ fn.slot position ≠ fn.formals.length + 1 := by
  simp only [slot]
  split <;> omega

theorem slot_inj {position other : Nat} (h : fn.slot position = fn.slot other) :
    position = other := by
  simp only [slot] at h
  split at h <;> split at h <;> omega

/-- A declared variable lies in the slot of its position. -/
theorem Framed.symbol_of_mem (h : fn.Framed symbols index) {decl : VarDecl}
    (hdecl : decl ∈ fn.declared) : ∃ position < fn.declCount, ∃ symbol,
      decl.id.link = some (index + 1 + position) ∧ symbols.symbol? decl.id = some symbol ∧
        symbol.offset = fn.slotOffset position := by
  obtain ⟨position, hposition, hlink⟩ := h.link_of_mem hdecl
  obtain ⟨symbol, hget, _, hoffset⟩ := h.slot hposition
  exact ⟨position, hposition, symbol, hlink, by simpa [Arena.symbol?, hlink] using hget, hoffset⟩

theorem add_slotOffset (fn : FnDecl) (top : Word) (position : Nat) :
    top + .ofInt 32 (fn.slotOffset position) = top.below (fn.slot position) := by
  rw [slotOffset_eq]
  push_cast
  exact Word.add_ofInt top _

/-- The boolean variables of an active function, by their positions. -/
theorem Framed.mem_flags (h : fn.Framed symbols index) {top a : Word} {answered : Bool} :
    a ∈ Activation.flags symbols ⟨fn, top, answered⟩ ↔
      ∃ decl ∈ fn.declared, decl.type = .bool ∧ ∃ position < fn.declCount,
        decl.id.link = some (index + 1 + position) ∧ a = top.below (fn.slot position) := by
  simp only [Activation.flags, Arena.mem_addresses, List.mem_filter, VarDecl.isBool, beq_iff_eq]
  constructor
  · rintro ⟨decl, ⟨hdecl, hbool⟩, symbol, hsymbol, rfl⟩
    obtain ⟨position, hposition, symbol', hlink, hsymbol', hoffset⟩ := h.symbol_of_mem hdecl
    cases hsymbol.symm.trans hsymbol'
    exact ⟨decl, hdecl, hbool, position, hposition, hlink, by rw [hoffset, add_slotOffset]⟩
  · rintro ⟨decl, hdecl, hbool, position, _, hlink, rfl⟩
    obtain ⟨position', _, symbol, hlink', hsymbol, hoffset⟩ := h.symbol_of_mem hdecl
    obtain rfl : position = position' := by
      simpa using Option.some.inj (hlink.symm.trans hlink')
    exact ⟨decl, ⟨hdecl, hbool⟩, symbol, hsymbol, by rw [hoffset, add_slotOffset]⟩

/-- A formal lies as many words below the frame pointer as there are formals before it. -/
theorem Framed.address_formal (h : fn.Framed symbols index) {i : Nat} {decl : VarDecl}
    (hdecl : fn.formals[i]? = some decl) {symbol : Symbol}
    (hsymbol : symbols.symbol? decl.id = some symbol) (top : Word) :
    top + .ofInt 32 symbol.offset = top.below i := by
  obtain ⟨hi, _⟩ := List.getElem?_eq_some_iff.mp hdecl
  have hlink : decl.id.link = some (index + 1 + i) := by
    have hlinks := congrArg (·[i]?) h.formalLinks
    simp only [List.getElem?_map, hdecl, List.getElem?_range' hi, Option.map_some] at hlinks
    simpa using hlinks
  obtain ⟨symbol', hget, _, hoffset⟩ := h.formalSlot i hi
  obtain rfl : symbol = symbol' := by
    simpa [Arena.symbol?, hlink, hget] using hsymbol.symm
  rw [hoffset]
  exact Word.add_ofInt top i

end FnDecl

namespace Process

/-! ## Frames of a process -/

/-- What is known of the functions and the data of a process. -/
structure Valid (P : Process) : Prop where
  globals : ∀ a ∈ P.flags [], a.toNat ≤ P.floor
  callee : ∀ fn ∈ P.resolved.program.functions,
    P.callee? (P.resolved.context.functionLabel fn.id.name) = some fn
  framed : ∀ fn ∈ P.resolved.program.functions, ∃ index, fn.Framed P.symbols index
  complete : P.symbols.Complete

variable {P : Process} {F : Frame}

/-- A frame for which there is room lies where it should. -/
theorem Valid.holds (h : P.Valid) (hfn : F.fn ∈ P.resolved.program.functions)
    (hroom : P.floor + 4 * (F.fn.frameSize + 1) ≤ F.top.toNat)
    (houter : ∀ a ∈ F.outer.flatMap (Activation.flags P.symbols), F.top.toNat < a.toNat) :
    P.Holds F where
  room := hroom
  globals := h.globals
  own a ha := by
    obtain ⟨index, hframed⟩ := h.framed F.fn hfn
    obtain ⟨_, _, _, position, hposition, _, rfl⟩ := hframed.mem_flags.mp ha
    have hlt := F.fn.slot_lt hposition
    rw [Word.toNat_below (by omega)]
    omega
  outer := houter

/-- The boolean variables of a function that is called hold 0 or 1 if its arguments have the right
types and its boolean locals hold 0 or 1. -/
theorem Valid.flags_of_call (h : P.Valid) {fn : FnDecl} (hfn : fn ∈ P.resolved.program.functions)
    {top : Word} {mem : Word → Word}
    (hargs : ∀ (i : Nat) (ty : Ty), fn.signature.paramTypes[i]? = some ty →
      ty.Fits (mem (top.below i)))
    (hlocals : ∀ a ∈ P.symbols.addresses top (fn.body.locals.filter VarDecl.isBool),
      (mem a).IsFlag) (answered : Bool) :
    ∀ a ∈ Activation.flags P.symbols ⟨fn, top, answered⟩, (mem a).IsFlag := by
  intro a ha
  obtain ⟨index, hframed⟩ := h.framed fn hfn
  obtain ⟨decl, hdecl, symbol, hsymbol, rfl⟩ := Arena.mem_addresses.mp ha
  rw [FnDecl.declared, List.filter_append, List.mem_append] at hdecl
  rcases hdecl with hformal | hlocal
  · obtain ⟨hformal, hbool⟩ := List.mem_filter.mp hformal
    obtain ⟨i, hi⟩ := List.mem_iff_getElem?.mp hformal
    have hty : fn.signature.paramTypes[i]? = some decl.type.toTy := by
      simp [FnDecl.signature, hi]
    rw [hframed.address_formal hi hsymbol]
    exact hargs i _ hty (TypeName.toTy_eq_bool.mpr (by simpa [VarDecl.isBool] using hbool))
  · exact hlocals _ (Arena.mem_addresses.mpr ⟨decl, hlocal, symbol, hsymbol, rfl⟩)

/-! ## Loaded programs -/

/-- The assembly is in memory, and the global variables lie below the stack. -/
structure Hosts (P : Process) (assembly : Assembly) : Prop where
  lines : P.image.lines = assembly.lines
  data : ∀ decl, Decl.var decl ∈ P.resolved.program.decls →
    (P.image.dataAddress (globalLabel decl.id.name)).toNat ≤ P.floor

theorem mem_flags_nil {a : Word} : a ∈ P.flags [] ↔
    ∃ decl, Decl.var decl ∈ P.resolved.program.decls ∧ decl.type = .bool ∧
      P.image.dataAddress (globalLabel decl.id.name) = a := by
  simp only [flags, List.flatMap_nil, List.append_nil, List.mem_map, List.mem_filterMap]
  constructor
  · rintro ⟨label, ⟨decl, hdecl, hlabel⟩, rfl⟩
    cases decl with
    | var decl =>
        simp only [Decl.flagLabel?, VarDecl.isBool, beq_iff_eq, Option.ite_none_right_eq_some,
          Option.some.injEq] at hlabel
        obtain ⟨hbool, rfl⟩ := hlabel
        exact ⟨decl, hdecl, hbool, rfl⟩
    | fn _ | struct _ => cases hlabel
  · rintro ⟨decl, hdecl, hbool, rfl⟩
    exact ⟨_, ⟨_, hdecl, by simp [Decl.flagLabel?, VarDecl.isBool, hbool]⟩, rfl⟩

namespace Hosts

variable {program : Program} {options : Options} {assembly : Assembly}
  (hanalyze : program.analyze { options } = .done P.resolved [])
  (hemits : P.resolved.Emits assembly) (h : P.Hosts assembly)
include hanalyze hemits h

theorem valid : P.Valid where
  globals a ha := by
    obtain ⟨decl, hdecl, _, rfl⟩ := mem_flags_nil.mp ha
    exact h.data decl hdecl
  callee fn hfn := by
    cases hcallee : P.callee? (P.resolved.context.functionLabel fn.id.name) with
    | none => simpa using List.find?_eq_none.mp hcallee fn hfn
    | some other =>
        have hlabel := List.find?_some hcallee
        exact congrArg some (hemits.eq_of_functionLabel hanalyze (Image.labels_nodup h.lines)
          (List.mem_of_find?_eq_some hcallee) hfn (by simpa using hlabel))
  framed fn hfn := by
    obtain ⟨index, _, hframed, _⟩ := hemits.clean.functions fn hfn
    exact ⟨index, hframed⟩
  complete := hemits.clean.complete

/-- The type of a variable in the frame says whether it is one of the boolean ones. -/
theorem variable_frame (hfn : F.fn ∈ P.resolved.program.functions) (hF : P.Holds F)
    {decl : VarDecl} (hdecl : decl ∈ F.fn.declared) {symbol : Symbol}
    (hsymbol : P.symbols.symbol? decl.id = some symbol) :
    P.Variable F symbol.ty (F.top + .ofInt 32 symbol.offset) := by
  obtain ⟨index, hframed⟩ := (h.valid hanalyze hemits).framed F.fn hfn
  have htyped := (Program.isTyped_of_resolve (Program.resolve_of_analyze hanalyze)).2 F.fn hfn
  have hty : ∀ decl ∈ F.fn.declared, ∀ link, decl.id.link = some link → ∀ symbol,
      P.symbols.get? link = some symbol → symbol.ty = decl.type.toTy := by
    intro decl hdecl link hlink symbol hget
    obtain ⟨symbol', hget', hty⟩ := htyped decl hdecl link hlink
    cases hget.symm.trans hget'
    exact hty
  obtain ⟨position, hposition, symbol', hlink, hsymbol', hoffset⟩ := hframed.symbol_of_mem hdecl
  cases hsymbol.symm.trans hsymbol'
  have hget : P.symbols.get? (index + 1 + position) = some symbol := by
    simpa [Arena.symbol?, hlink] using hsymbol
  have hroom := hF.room
  have hlt := F.fn.slot_lt hposition
  have hne := F.fn.slot_ne_formals position
  have hsize : F.fn.formals.length + 2 ≤ F.fn.frameSize := Nat.le_add_right _ _
  have hvalue := Word.toNat_below (show 4 * F.fn.slot position ≤ F.top.toNat by omega)
  rw [hoffset, F.fn.add_slotOffset]
  refine ⟨?_, Word.below_ne (by omega) (by omega) hne.1, Word.below_ne (by omega) (by omega) hne.2,
    by omega, .inl (by omega)⟩
  rw [flags_active, Frame.active, List.flatMap_cons, List.mem_append, List.mem_append]
  constructor
  · intro hbool
    refine .inr (.inl (hframed.mem_flags.mpr ⟨decl, hdecl, ?_, position, hposition, hlink, rfl⟩))
    rw [← TypeName.toTy_eq_bool, ← hty decl hdecl _ hlink symbol hget, hbool]
  · rintro (hglobal | hown | houter)
    · have := hF.globals _ hglobal
      omega
    · obtain ⟨other, hother, hbool, position', hposition', hlink', heq⟩ := hframed.mem_flags.mp hown
      have hlt' := F.fn.slot_lt hposition'
      obtain rfl : position = position' := by
        by_contra hpositions
        exact Word.below_ne (by omega) (by omega)
          (fun hslots => hpositions (FnDecl.slot_inj hslots)) heq
      rw [hty other hother _ hlink' symbol hget, hbool]
      rfl
    · have := hF.outer _ houter
      omega

/-- The type of a global variable says whether it is one of the boolean ones. -/
theorem variable_global (hF : P.Holds F) {decl : VarDecl}
    (hdecl : Decl.var decl ∈ P.resolved.program.decls) {symbol : Symbol}
    (hsymbol : P.symbols.symbol? decl.id = some symbol) :
    P.Variable F symbol.ty (P.image.dataAddress (globalLabel decl.id.name)) := by
  have hresolve := Program.resolve_of_analyze hanalyze
  have hty : ∀ decl, Decl.var decl ∈ P.resolved.program.decls → ∀ symbol,
      P.symbols.symbol? decl.id = some symbol → symbol.ty = decl.type.toTy := by
    intro decl hdecl symbol hsymbol
    obtain ⟨link, hlink, hget⟩ := Option.bind_eq_some_iff.mp hsymbol
    obtain ⟨symbol', hget', hty⟩ := (Program.isTyped_of_resolve hresolve).1 decl hdecl link hlink
    cases hget.symm.trans hget'
    exact hty
  have hspace : ∀ decl, Decl.var decl ∈ P.resolved.program.decls →
      .label (globalLabel decl.id.name) (some { operation := .space wordSize }) ∈
        P.image.lines := by
    intro decl hdecl
    obtain ⟨_, _, _, hmem⟩ := hemits.space_of_stores ⟨decl, hdecl, rfl⟩
    exact h.lines ▸ hmem
  have hdata := h.data decl hdecl
  have hroom := hF.room
  have hsize : F.fn.formals.length + 2 ≤ F.fn.frameSize := Nat.le_add_right _ _
  have hsaved : ∀ k < F.fn.frameSize,
      P.image.dataAddress (globalLabel decl.id.name) ≠ F.top.below k := by
    intro k hk heq
    rw [heq, Word.toNat_below (by omega)] at hdata
    omega
  refine ⟨?_, hsaved _ (by omega), hsaved _ (by omega), by omega, .inr hdata⟩
  rw [flags_active, Frame.active, List.flatMap_cons, List.mem_append, List.mem_append]
  constructor
  · intro hbool
    refine .inl (mem_flags_nil.mpr ⟨decl, hdecl, ?_, rfl⟩)
    rw [← TypeName.toTy_eq_bool, ← hty decl hdecl symbol hsymbol, hbool]
  · rintro (hglobal | hown | houter)
    · obtain ⟨other, hother, hbool, haddress⟩ := mem_flags_nil.mp hglobal
      have hname := globalLabel_inj.mp (P.image.apart (hspace other hother) (hspace decl hdecl)
        haddress)
      obtain rfl : other = decl := by
        simpa using List.inj_on_of_nodup_map (Program.nodup_names hresolve) hother hdecl hname
      rw [hty other hother symbol hsymbol, hbool]
      rfl
    · have := hF.own _ hown
      omega
    · have := hF.outer _ houter
      omega

theorem variable_of_use (hfn : F.fn ∈ P.resolved.program.functions) (hF : P.Holds F) {id : Ident}
    (hid : id ∈ F.fn.body.uses) {ty : Ty} (hty : P.symbols.ty? id = some ty)
    (hstorable : ty.isStorable) :
    ∃ location, P.symbols.location? id = some location ∧
      P.Variable F ty (P.image.locate F.top location) := by
  have hresolve := Program.resolve_of_analyze hanalyze
  obtain ⟨symbol, hsymbol, rfl⟩ := Option.map_eq_some_iff.mp hty
  obtain ⟨link, hlink, hget⟩ := Option.bind_eq_some_iff.mp hsymbol
  have hother : ∀ other : Ident, other.link = some link →
      P.symbols.symbol? other = some symbol := by
    intro other hlink
    simpa [Arena.symbol?, hlink] using hget
  rcases Program.variable_cases hresolve hfn hid hlink hget hstorable with
    hown | ⟨decl, hdecl, hdeclared, hname⟩
  · rw [FnDecl.acceptedFormals, FnDecl.acceptedLocals, ← VarDecl.links_append] at hown
    obtain ⟨decl, hdecl, hdeclared⟩ := List.mem_filterMap.mp hown
    have hvariable := h.variable_frame hanalyze hemits hfn hF hdecl (hother _ hdeclared)
    obtain ⟨index, hframed⟩ := (h.valid hanalyze hemits).framed F.fn hfn
    obtain ⟨position, _, symbol', _, hsymbol', hoffset⟩ := hframed.symbol_of_mem hdecl
    cases (hother _ hdeclared).symm.trans hsymbol'
    have hlocal : symbol.isGlobal = false := by
      simpa [Symbol.isGlobal, hoffset] using F.fn.slotOffset_nonpos position
    exact ⟨.frame symbol.offset, by simp [Arena.location?, hsymbol, hlocal], hvariable⟩
  · have hvariable := h.variable_global hanalyze hemits hF hdecl (hother _ hdeclared)
    have hlinked := (Program.linked_of_resolve hresolve).1
    have hoffset : P.symbols.offset? link = some globalOffset := by
      rw [symbols, hlinked]
      rw [hlinked] at hdecl
      exact Program.offset?_of_decl Program.sound_empty hdecl hdeclared
    have hglobal : symbol.isGlobal := by
      rw [Arena.offset?, hget, Option.map_some, Option.some.injEq] at hoffset
      simp [Symbol.isGlobal, hoffset, globalOffset]
    exact ⟨.global (globalLabel id.name), by simp [Arena.location?, hsymbol, hglobal],
      hname ▸ hvariable⟩

end Hosts

end Process

end StackMips
