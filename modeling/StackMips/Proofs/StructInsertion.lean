import StackMips.Proofs.Exchange.Lowering
import StackMips.Proofs.Exchange.Resolution
import StackMips.Proofs.Exchange.Typing
import StackMips.Proofs.Outcome
import StackMips.Proofs.Resolution.SymbolArena
import StackMips.Proofs.Resolution.TopLevel

/-!
# Struct declarations have no code

A new struct can be declared anywhere at top level.  Its fields and its name get symbols of their
own, so that all symbols declared behind it have higher numbers than before.  Nothing else changes:
the program has the same reports and the same code.
-/

namespace StackMips

open Mips

mutual

theorem Ty.rename_id (ty : Ty) : ty.rename id = ty := by
  cases ty with
  | int | bool | void | string | error | struct _ | structDef _ => rfl
  | function params result => rw [rename, renameAll_id params, rename_id result]

theorem Ty.renameAll_id (tys : List Ty) : Ty.renameAll id tys = tys := by
  cases tys with
  | nil => rfl
  | cons ty tys => rw [renameAll, rename_id ty, renameAll_id tys]

end

theorem FunctionInfo.rename_id (info : FunctionInfo) : info.rename id = info := by
  rw [rename, ← Ty.renameAll_eq_map, Ty.renameAll_id, Ty.rename_id]

/-! ## A gap in the numbers -/

/-- The names stay, and the numbers from `first` on move up to make room for new symbols.  The name
`fresh` is not looked at. -/
def Exchange.shift (fresh : String) (first gap : Nat) : Exchange where
  name := id
  link index := if index < first then index else index + gap
  admits name := name ≠ fresh
  name_injective := Function.injective_id
  link_strictMono := by
    intro i j hij
    dsimp only
    split <;> split <;> omega

section

variable {fresh : String} {first gap : Nat}

theorem Exchange.shift_link_of_lt {index : Nat} (h : index < first) :
    (shift fresh first gap).link index = index := if_pos h

theorem Exchange.shift_link_of_le {index : Nat} (h : first ≤ index) :
    (shift fresh first gap).link index = index + gap := if_neg (by omega)

/-- Identifiers without a link, or with a link below the gap, stay. -/
theorem Exchange.ident_shift {id : Ident} (h : ∀ link : Nat, id.link = some link → link < first) :
    (shift fresh first gap).ident id = id := by
  obtain ⟨name, pos, link⟩ := id
  cases link with
  | none => rfl
  | some link => simp [ident, shift, h link rfl]

/-- A scope that binds no number from `first` on corresponds to itself. -/
theorem Scope.corresponds_shift {scope : Scope}
    (h : ∀ name (index : Nat), scope.lookup name = some index → index < first) :
    scope.Corresponds (.shift fresh first gap) scope := by
  intro name _
  change scope.lookup name = _
  cases hlookup : scope.lookup name with
  | none => rfl
  | some index => rw [Option.map_some, Exchange.shift_link_of_lt (h name index hlookup)]

theorem SymbolTable.lookup_of_enclosing {table : SymbolTable} (h : table.enclosing = [])
    (name : String) : table.lookup name = table.innermost.lookup name := by
  rw [SymbolTable.lookup, SymbolTable.scopes, h, List.findSome?_cons]
  cases table.innermost.lookup name <;> rfl

/-- The symbols below the gap point at symbols below the gap only. -/
theorem Symbol.Formed.corresponds_shift {symbols : Arena} {index : Nat} {symbol : Symbol}
    (h : symbol.Formed symbols index) (hindex : index < first) :
    symbol.Corresponds (.shift fresh first gap) symbol where
  ty := (Ty.rename_id _).symm
  offset := rfl
  kind := by
    cases hkind : symbol.kind with
    | scalar => exact .scalar
    | function info =>
        have hinfo := SymbolKind.Corresponds.function (x := .shift fresh first gap) info
        rwa [show info.rename (Exchange.shift fresh first gap).name = info from
          info.rename_id] at hinfo
    | structInstance definition =>
        obtain ⟨-, -, -, hlt⟩ := h.structInstance definition hkind
        have hinstance := SymbolKind.Corresponds.structInstance (x := .shift fresh first gap)
          definition
        rwa [Exchange.shift_link_of_lt (Nat.lt_trans hlt hindex)] at hinstance
    | structDef fields =>
        obtain ⟨-, hdepth, hfields⟩ := h.structDef fields hkind
        have henclosing : fields.enclosing = [] := by
          simpa [SymbolTable.depth, SymbolTable.scopes] using hdepth
        refine .structDef ⟨Scope.corresponds_shift fun name field hfield => ?_, ?_⟩
        · rw [← SymbolTable.lookup_of_enclosing henclosing] at hfield
          exact Nat.lt_trans (hfields name field hfield).2 hindex
        · rw [henclosing]
          exact .nil

end

/-! ## A struct that is declared without a report -/

theorem Resolver.Mirrors.struct?_of_mem {r : Resolver} {before : List Binder}
    (h : r.Mirrors [before]) {binder : Binder} (hmem : binder ∈ before)
    (hstruct : binder.isStruct) {link : SymbolId} (hlink : binder.id.link = some link) :
    r.struct? binder.id.name = some link := by
  obtain ⟨hinnermost, henclosing⟩ := List.forall₂_cons.mp h.scopes
  rw [Resolver.struct?,
    SymbolTable.lookup_of_enclosing (List.forall₂_nil_right_iff.mp henclosing),
    (hinnermost _ _).mpr ⟨binder, hmem, rfl, hlink⟩]
  obtain ⟨symbol, hget, hfields⟩ := h.known before (by simp) binder hmem link hlink
  simp [Option.filter, Arena.fields?, hget, hfields, hstruct]

/-- A type that a variable can have behind declarations: `int`, `bool` or a struct that one of them
defines. -/
def TypeName.IsDefined (before : List Decl) : TypeName → Prop
  | .int | .bool => True
  | .void => False
  | .struct id => ∃ struct : StructDecl, Decl.struct struct ∈ before ∧
      struct.id.name = id.name ∧ struct.id.link.isSome

theorem VarDecl.isSome_kind?_of_isDefined {r : Resolver} {before : List Decl}
    (h : r.Mirrors [before.map Decl.binder]) {decl : VarDecl} (hdecl : decl.type.IsDefined before) :
    (decl.kind? r).isSome := by
  unfold kind?
  cases htype : decl.type with
  | int | bool => rfl
  | void =>
      rw [htype] at hdecl
      exact hdecl.elim
  | struct id =>
      rw [htype] at hdecl
      obtain ⟨struct, hstruct, hname, hlink⟩ := hdecl
      obtain ⟨link, hlink⟩ := Option.isSome_iff_exists.mp hlink
      have hfound := h.struct?_of_mem (List.mem_map_of_mem hstruct) rfl hlink
      simp only [Decl.id_binder, Decl.id, hname] at hfound
      simp [hfound]

theorem VarDecl.reports_eq_nil {r : Resolver} {table : SymbolTable} {decl : VarDecl}
    {kind : SymbolKind} (hkind : decl.kind? r = some kind)
    (hfree : table.lookupInnermost decl.id.name = none) :
    decl.accepted? r table = some kind ∧ decl.reports r table = [] := by
  rcases kind?_cases hkind with ⟨rfl, htype | htype⟩ | ⟨id, definition, htype, hstruct, rfl⟩
  · simp [accepted?, hfree, hkind, reports, typeReports, htype, TypeName.reports]
  · simp [accepted?, hfree, hkind, reports, typeReports, htype, TypeName.reports]
  · simp [accepted?, hfree, hkind, reports, typeReports, htype, TypeName.reports, hstruct]

namespace StructDecl

theorem fieldsReports_eq_nil {r : Resolver} {chain : Chain} (h : r.Mirrors chain)
    {table : SymbolTable} (offset : Int) {fields : List VarDecl}
    (hkinds : ∀ field ∈ fields, (field.kind? r).isSome)
    (hfree : ∀ field ∈ fields, table.lookupInnermost field.id.name = none)
    (hnodup : (fields.map (·.id.name)).Nodup) : fieldsReports r table offset fields = [] := by
  induction fields generalizing r table offset with
  | nil => rfl
  | cons field fields ih =>
      obtain ⟨hfield, hfields⟩ := List.forall_mem_cons.mp hkinds
      obtain ⟨hname, hnames⟩ := List.forall_mem_cons.mp hfree
      obtain ⟨hnew, hnodup⟩ := List.nodup_cons.mp hnodup
      obtain ⟨kind, hkind⟩ := Option.isSome_iff_exists.mp hfield
      obtain ⟨haccepted, hreports⟩ := VarDecl.reports_eq_nil hkind hname
      have hallocate : (r.allocate (field.symbol offset kind)).Mirrors chain :=
        h.of_keeps rfl (r.symbols.extends_push _).keeps
      -- The tables of names stay, so a new symbol for a field changes no type.
      have hsame : ∀ other : VarDecl,
          other.kind? (r.allocate (field.symbol offset kind)) = other.kind? r := by
        intro other
        simp only [VarDecl.kind?, hallocate.struct?, h.struct?]
      rw [fieldsReports, haccepted, hreports]
      refine ih hallocate _ (fun other hother => ?_) (fun other hother => ?_) hnodup
      · rw [hsame]
        exact hfields other hother
      · have hne : other.id.name ≠ field.id.name := by
          intro heq
          exact hnew (List.mem_map.mpr ⟨other, hother, heq⟩)
        have hlookup := hnames other hother
        rw [SymbolTable.lookupInnermost, Scope.lookup] at hlookup ⊢
        rw [SymbolTable.extend, List.lookup_cons, beq_eq_false_iff_ne.mpr hne]
        exact hlookup

variable {r : Resolver} {struct : StructDecl}

/-- A struct with a new name, whose fields have different names and known types, is declared without
a report. -/
theorem reports_eq_nil {before : List Decl} (h : r.Mirrors [before.map Decl.binder])
    (hname : ∀ decl ∈ before, decl.id.name ≠ struct.id.name)
    (hfields : (struct.fields.map (·.id.name)).Nodup)
    (htypes : ∀ field ∈ struct.fields, field.type.IsDefined before) :
    struct.isTaken r = false ∧ struct.reports r = [] := by
  have htaken : struct.isTaken r = false := by
    rw [isTaken, SymbolTable.lookupInnermost, Option.isSome_eq_false_iff, Option.isNone_iff_eq_none,
      Option.eq_none_iff_forall_ne_some]
    intro link hlink
    obtain ⟨binder, hbinder, hbound, -⟩ := ((List.forall₂_cons.mp h.scopes).1 _ _).mp hlink
    obtain ⟨decl, hdecl, rfl⟩ := List.mem_map.mp hbinder
    rw [Decl.id_binder] at hbound
    exact hname decl hdecl hbound
  refine ⟨htaken, ?_⟩
  rw [reports, htaken]
  exact fieldsReports_eq_nil h 0 (fun field hfield => VarDecl.isSome_kind?_of_isDefined h
    (htypes field hfield)) (fun _ _ => rfl) hfields

/-- What changes for the declarations behind a struct: its name is bound, and the numbers of new
symbols are higher. -/
def exchange (r : Resolver) (struct : StructDecl) : Exchange :=
  .shift struct.id.name r.symbols.size ((struct.after r).symbols.size - r.symbols.size)

theorem corresponds_after (hsound : r.Sound) (hformed : r.symbols.Formed)
    (henclosing : r.table.enclosing = []) (htaken : struct.isTaken r = false) :
    r.Corresponds (struct.exchange r) (struct.after r) := by
  have hextends := (struct.grows_after r).symbols
  have hle := hextends.size_le
  have hstate : struct.walked r = { r with symbols := (struct.walked r).symbols } :=
    (fieldsAfter_grow r {} 0 struct.fields).state
  refine ⟨⟨?_, fun i hi => ?_, fun i symbol hget => ?_⟩, ⟨fun other hother => ?_, ?_⟩, ?_, ?_⟩
  · rw [exchange, Exchange.shift_link_of_le (Nat.le_refl _)]
    omega
  · rw [exchange, Exchange.shift_link_of_le hi, Exchange.shift_link_of_le (by omega)]
    omega
  · have hlt := Arena.lt_size_of_get? hget
    rw [exchange, Exchange.shift_link_of_lt hlt]
    exact ⟨symbol, hextends i symbol hget, (hformed i symbol hget).corresponds_shift hlt⟩
  · -- Only the name of the struct is new in the table.
    have hsame : (struct.after r).table.innermost.lookup other =
        r.table.innermost.lookup other := by
      rw [after, htaken, hstate]
      have hne : other ≠ struct.id.name := hother
      simp only [Bool.false_eq_true, if_false, Resolver.accept, SymbolTable.extend, Scope.lookup,
        Symbol.ofStructDef, List.lookup_cons, beq_eq_false_iff_ne.mpr hne]
    have hself : r.table.innermost.Corresponds (struct.exchange r) r.table.innermost :=
      Scope.corresponds_shift fun name index hlookup =>
        (hsound.table _ (by simp [SymbolTable.scopes]) _ (Scope.mem_of_lookup hlookup)).lt_size
    exact hsame.trans (hself other hother)
  · rw [henclosing, (struct.grows_after r).enclosing, henclosing]
    exact .nil
  · rw [after, htaken, hstate]
    rfl
  · rw [after, htaken, hstate]
    rfl

end StructDecl

/-! ## The program with the struct -/

namespace Decl

theorem checkAll_insert (symbols : Arena) (before after : List Decl) (struct : StructDecl) :
    checkAll symbols (before ++ .struct struct :: after) = checkAll symbols (before ++ after) := by
  induction before with
  | nil => simp [checkAll, check]
  | cons decl before ih => rw [List.cons_append, List.cons_append, checkAll, checkAll, ih]

theorem lowerAll_insert (before after : List Decl) (struct : StructDecl) :
    lowerAll (before ++ .struct struct :: after) = lowerAll (before ++ after) := by
  induction before with
  | nil => simp [lowerAll, lower]
  | cons decl before ih => rw [List.cons_append, List.cons_append, lowerAll, lowerAll, ih]

end Decl

def Program.insertStruct (program : Program) (index : Nat) (struct : StructDecl) : Program :=
  ⟨program.decls.take index ++ .struct struct :: program.decls.drop index⟩

/-- A struct whose name does not occur in the program, whose fields have different names and whose
types are defined in front of the position where it is declared. -/
structure StructDecl.FitsAt (program : Program) (options : Options) (index : Nat)
    (struct : StructDecl) : Prop where
  unlinked : ∀ id ∈ struct.idents, id.link = none
  name : ∀ id ∈ program.idents, id.name ≠ struct.id.name
  entryPoint : options.entryPoint ≠ struct.id.name
  fields : (struct.fields.map (·.id.name)).Nodup
  types : ∀ field ∈ struct.fields,
    field.type.IsDefined ((program.linked { options }).program.decls.take index)

namespace Decl

theorem take_linkedAll (r : Resolver) (decls : List Decl) (index : Nat) :
    (linkedAll r decls).take index = linkedAll r (decls.take index) := by
  induction decls generalizing r index with
  | nil => simp [linkedAll]
  | cons decl decls ih =>
      cases index with
      | zero => rfl
      | succ index => rw [linkedAll, List.take_succ_cons, ih, List.take_succ_cons, linkedAll]

theorem reportsAll_append (r : Resolver) (before behind : List Decl) :
    reportsAll r (before ++ behind) =
      reportsAll r before ++ reportsAll (afterAll r before) behind := by
  rw [(all_eq_pass _ _).2, (all_eq_pass _ _).2, (all_eq_pass _ _).2, Pass.reportsAll_append]
  rfl

theorem map_name_linkedAll (r : Resolver) (decls : List Decl) :
    (linkedAll r decls).map (·.id.name) = decls.map (·.id.name) := by
  induction decls generalizing r with
  | nil => rfl
  | cons decl decls ih => rw [linkedAll, List.map_cons, List.map_cons, name_linked, ih]

theorem id_mem_idents (decl : Decl) : decl.id ∈ decl.idents := by
  cases decl <;> simp [id, idents, VarDecl.idents, FnDecl.idents, StructDecl.idents]

end Decl

namespace Program

variable (program : Program) (options : Options) (index : Nat)

def stateAt : Resolver := Decl.afterAll (.start { options }) (program.decls.take index)

theorem stateAt_atTop : (program.stateAt options index).AtTop :=
  Decl.atTop_afterAll (Resolver.start_atTop sound_empty) _

theorem linked_decls : (program.linked { options }).program.decls =
    Decl.linkedAll (.start { options }) (program.decls.take index) ++
      Decl.linkedAll (program.stateAt options index) (program.decls.drop index) := by
  rw [linked, stateAt, ← Decl.linkedAll_append, List.take_append_drop]

theorem after_eq : program.after { options } =
    Decl.afterAll (program.stateAt options index) (program.decls.drop index) := by
  rw [after, stateAt, Decl.afterAll, Decl.afterAll, Decl.afterAll, ← List.foldl_append,
    List.take_append_drop]

variable {program options index} {struct : StructDecl}
  (hstruct : struct.FitsAt program options index)
include hstruct

theorem quiet_insert : struct.isTaken (program.stateAt options index) = false ∧
    struct.reports (program.stateAt options index) = [] := by
  have hmirrors := Decl.mirrors_afterAll (start_mirrors { options }) (program.decls.take index)
  rw [List.nil_append] at hmirrors
  have htypes := hstruct.types
  rw [linked, Decl.take_linkedAll] at htypes
  refine StructDecl.reports_eq_nil hmirrors (fun linked hlinked hname => ?_) hstruct.fields htypes
  have hmem : linked.id.name ∈ (program.decls.take index).map (·.id.name) := by
    rw [← Decl.map_name_linkedAll (.start { options })]
    exact List.mem_map_of_mem hlinked
  obtain ⟨decl, hdecl, hsame⟩ := List.mem_map.mp hmem
  have hid : decl.id ∈ program.idents :=
    List.mem_flatMap.mpr ⟨decl, List.mem_of_mem_take hdecl, decl.id_mem_idents⟩
  exact hstruct.name decl.id hid (hsame.trans hname)

theorem corresponds_insert : (program.stateAt options index).Corresponds
    (struct.exchange (program.stateAt options index))
    (struct.after (program.stateAt options index)) := by
  have htop := program.stateAt_atTop options index
  exact StructDecl.corresponds_after htop.sound (formed_after ⟨program.decls.take index⟩ options)
    htop.enclosing (quiet_insert hstruct).1

variable (hunlinked : program.Unlinked)
include hunlinked

/-- Behind the struct, resolution goes the same way as without it. -/
theorem behind_insert :
    (program.after { options }).Corresponds (struct.exchange (program.stateAt options index))
      ((program.insertStruct index struct).after { options }) ∧
    Decl.linkedAll (struct.after (program.stateAt options index)) (program.decls.drop index) =
      (Decl.linkedAll (program.stateAt options index) (program.decls.drop index)).map
        (Decl.mapIdents (struct.exchange (program.stateAt options index)).ident) ∧
    Decl.reportsAll (struct.after (program.stateAt options index)) (program.decls.drop index) =
      Decl.reportsAll (program.stateAt options index) (program.decls.drop index) := by
  have hcommutes : Decl.pass.all.Commutes
      (Resolver.Corresponds (struct.exchange (program.stateAt options index)))
      (List.map (Decl.mapIdents (struct.exchange (program.stateAt options index)).ident))
      (program.decls.drop index) := by
    refine Pass.Commutes.all fun decl hdecl => Decl.commutes fun id hid => ?_
    exact hstruct.name id (List.mem_flatMap.mpr ⟨decl, List.mem_of_mem_drop hdecl, hid⟩)
  -- There is nothing to exchange in the declarations before they are linked.
  have hself : (program.decls.drop index).map
      (Decl.mapIdents (struct.exchange (program.stateAt options index)).ident) =
        program.decls.drop index := by
    refine Decl.map_mapIdents_eq_self fun id hid => Exchange.ident_shift fun link hlink => ?_
    obtain ⟨decl, hdecl, hid⟩ := List.mem_flatMap.mp hid
    have hnone := hunlinked id (List.mem_flatMap.mpr ⟨decl, List.mem_of_mem_drop hdecl, hid⟩)
    cases hnone.symm.trans hlink
  have hstart := corresponds_insert hstruct
  have hafter := hcommutes.after _ _ hstart
  have hlinked := hcommutes.linked _ _ hstart
  have hreports := hcommutes.reports _ _ hstart
  rw [hself] at hafter hlinked hreports
  refine ⟨?_, ?_, ?_⟩
  · have hinserted : (program.insertStruct index struct).after { options } =
        Decl.afterAll (struct.after (program.stateAt options index))
          (program.decls.drop index) := by
      rw [after, insertStruct, Decl.afterAll, List.foldl_append]
      rfl
    rw [program.after_eq options index, hinserted]
    exact hafter
  · rw [(Decl.all_eq_pass _ _).1, (Decl.all_eq_pass _ _).1]
    exact hlinked
  · rw [(Decl.all_eq_pass _ _).2, (Decl.all_eq_pass _ _).2]
    exact hreports

theorem resolutionReports_insert : (program.insertStruct index struct).resolutionReports
    { options } = program.resolutionReports { options } := by
  obtain ⟨hafter, -, hbehind⟩ := behind_insert hstruct hunlinked
  have hfunction : ((program.insertStruct index struct).after { options }).hasFunction
      options.entryPoint = (program.after { options }).hasFunction options.entryPoint :=
    hafter.hasFunction hstruct.entryPoint
  have hreports : Decl.reportsAll (.start { options }) (program.insertStruct index struct).decls =
      Decl.reportsAll (.start { options }) program.decls := by
    rw [insertStruct, Decl.reportsAll_append, Decl.reportsAll]
    change _ ++ (struct.reports (program.stateAt options index) ++
      Decl.reportsAll (struct.after (program.stateAt options index)) _) = _
    rw [(quiet_insert hstruct).2, hbehind, List.nil_append, stateAt, ← Decl.reportsAll_append,
      List.take_append_drop]
  rw [resolutionReports, resolutionReports, hreports, Resolver.entryReports, Resolver.entryReports,
    hfunction]

variable (hgrammar : program.InGrammar)
include hgrammar

/-- The linked program is the one without the struct, with higher numbers behind it. -/
theorem linked_insert : ∃ front back,
    (program.linked { options }).program.mapIdents
      (struct.exchange (program.stateAt options index)).ident = ⟨front ++ back⟩ ∧
    ((program.insertStruct index struct).linked { options }).program =
      ⟨front ++ .struct (struct.linked (program.stateAt options index)) :: back⟩ := by
  obtain ⟨-, hbehind, -⟩ := behind_insert hstruct hunlinked
  -- The links in front of the struct lead to symbols in front of it.
  have hfront : (Decl.linkedAll (.start { options }) (program.decls.take index)).map
      (Decl.mapIdents (struct.exchange (program.stateAt options index)).ident) =
        Decl.linkedAll (.start { options }) (program.decls.take index) := by
    have hdecls : ∀ decl ∈ program.decls.take index, decl.InGrammar :=
      fun decl hdecl => hgrammar.decl decl (List.mem_of_mem_take hdecl)
    refine Decl.map_mapIdents_eq_self fun id hid => Exchange.ident_shift fun link hlink => ?_
    have hpoints := (Decl.adds_afterAll hdecls (Resolver.start_sound sound_empty)).points id hid
    exact (hpoints link hlink).lt_size
  refine ⟨Decl.linkedAll (.start { options }) (program.decls.take index),
    Decl.linkedAll (struct.after (program.stateAt options index)) (program.decls.drop index),
    ?_, ?_⟩
  · rw [mapIdents, program.linked_decls options index, List.map_append, hfront, hbehind]
  · rw [linked, insertStruct, Decl.linkedAll_append]
    rfl

theorem same_insert (symbols : Arena) (g : Generator) :
    ((program.insertStruct index struct).linked { options }).program.check symbols =
      ((program.linked { options }).program.mapIdents
        (struct.exchange (program.stateAt options index)).ident).check symbols ∧
    g.finish ((program.insertStruct index struct).linked { options }).program =
      g.finish ((program.linked { options }).program.mapIdents
        (struct.exchange (program.stateAt options index)).ident) := by
  obtain ⟨front, back, hleft, hright⟩ := linked_insert hstruct hunlinked hgrammar
  rw [hleft, hright, check, check, Decl.checkAll_insert, Generator.finish, Generator.finish,
    Decl.lowerAll_insert]
  exact ⟨rfl, rfl⟩

omit hgrammar in
theorem unlinked_insert : (program.insertStruct index struct).Unlinked := by
  intro id hid
  obtain ⟨decl, hdecl, hid⟩ := List.mem_flatMap.mp hid
  rcases List.mem_append.mp hdecl with htake | hrest
  · exact hunlinked id (List.mem_flatMap.mpr ⟨decl, List.mem_of_mem_take htake, hid⟩)
  · rcases List.mem_cons.mp hrest with rfl | hdrop
    · exact hstruct.unlinked id hid
    · exact hunlinked id (List.mem_flatMap.mpr ⟨decl, List.mem_of_mem_drop hdrop, hid⟩)

omit hstruct hunlinked in
theorem inGrammar_insert : (program.insertStruct index struct).InGrammar := by
  intro fn hfn
  refine hgrammar fn (mem_functions.mpr ?_)
  rcases List.mem_append.mp (mem_functions.mp hfn) with htake | hrest
  · exact List.mem_of_mem_take htake
  · rcases List.mem_cons.mp hrest with hcase | hdrop
    · cases hcase
    · exact List.mem_of_mem_drop hdrop

/-- Both programs are analyzed with the same reports. -/
theorem analyze_insert : ∃ reports,
    program.analyze { options } = .done (program.linked { options }) reports ∧
    (program.insertStruct index struct).analyze { options } =
      .done ((program.insertStruct index struct).linked { options }) reports := by
  obtain ⟨typing, hcheck, hanalyze⟩ :=
    @analyze_eq program { options } sound_empty hgrammar hunlinked
  obtain ⟨typing', hcheck', hanalyze'⟩ :=
    @analyze_eq (program.insertStruct index struct) { options } sound_empty
      (inGrammar_insert hgrammar) (unlinked_insert hstruct hunlinked)
  have hsame : typing' = typing := by
    have halike := alike_check (behind_insert hstruct hunlinked).1.symbols
      (program.linked { options }).program
    rw [← (same_insert hstruct hunlinked hgrammar _ { context := { options } }).1] at halike
    cases hcheck ▸ hcheck' ▸ halike
    rfl
  refine ⟨_, hanalyze, ?_⟩
  rw [hanalyze', hsame, resolutionReports_insert hstruct hunlinked]

theorem finished_insert
    (hanalyze : program.analyze { options } = .done (program.linked { options }) []) :
    (Pairing.exchanged (struct.exchange (program.stateAt options index))
        (program.linked { options }).context
        ((program.insertStruct index struct).linked { options }).context rfl).Finished
      (Generator.finish { context := (program.linked { options }).context }
        (program.linked { options }).program)
      (Generator.finish
        { context := ((program.insertStruct index struct).linked { options }).context }
        ((program.insertStruct index struct).linked { options }).program) := by
  have hoptions : ((program.insertStruct index struct).linked { options }).context.options =
      (program.linked { options }).context.options := rfl
  have hmatches := matchesDecl_exchanged hoptions hanalyze
    (behind_insert hstruct hunlinked).1.symbols (fun _ _ => rfl) (fun _ _ => rfl)
  rw [(same_insert hstruct hunlinked hgrammar {} _).2]
  exact Pairing.finished hmatches rfl rfl rfl

end Program

namespace Program

/-- A struct declaration has no code.  If its name does not occur in the program, its fields have
different names and the types of its fields are defined in front of it, then the program with the
struct has the same outcome: the same reports, the same construct without code or the same
assembly. -/
theorem compile_insertStruct {program : Program} {struct : StructDecl} {options : Options}
    {index : Nat} (hunlinked : program.Unlinked) (hgrammar : program.InGrammar)
    (hstruct : struct.FitsAt program options index) :
    (∀ linked outcome, program.compile options = .ok (linked, outcome) →
      ∃ linked', (program.insertStruct index struct).compile options = .ok (linked', outcome)) ∧
    (∀ fault, program.compile options = .error fault →
      ∃ fault', (program.insertStruct index struct).compile options = .error fault') ∧
    ((∀ fn ∈ program.functions, fn.declCount < 2 ^ 28) →
      ∃ result, program.compile options = .ok result) := by
  obtain ⟨reports, hanalyze, hanalyze'⟩ := analyze_insert hstruct hunlinked hgrammar
  have hboth := compile_cases_of_finish hanalyze hanalyze' fun hquiet => by
    subst hquiet
    exact (finished_insert hstruct hunlinked hgrammar hanalyze).of_exchanged
  refine ⟨?_, ?_, compile_isOk options hunlinked hgrammar⟩
  · intro linked outcome hcompile
    rcases hboth with ⟨outcome', hleft, hright⟩ | ⟨fault, fault', hleft, -⟩
    · cases hleft.symm.trans hcompile
      exact ⟨_, hright⟩
    · cases hleft.symm.trans hcompile
  · intro fault hcompile
    rcases hboth with ⟨outcome', hleft, -⟩ | ⟨other, fault', -, hright⟩
    · cases hleft.symm.trans hcompile
    · exact ⟨fault', hright⟩

/-- A program with a struct, a global and a local behind it. -/
def outline : Program where
  decls := [
    .struct ⟨⟨"Point", ⟨1, 8⟩, none⟩, [⟨.int, ⟨"at", ⟨1, 20⟩, none⟩⟩]⟩,
    .var ⟨.struct ⟨"Point", ⟨2, 8⟩, none⟩, ⟨"origin", ⟨2, 14⟩, none⟩⟩,
    .fn ⟨.void, ⟨"main", ⟨3, 6⟩, none⟩, [], ⟨[⟨.int, ⟨"at", ⟨4, 7⟩, none⟩⟩], [
      .assign (.name ⟨"at", ⟨5, 3⟩, none⟩) (.int 7 ⟨5, 8⟩),
      .write (.name ⟨"at", ⟨6, 9⟩, none⟩)]⟩⟩]

/-- A struct with fields of all three sorts of types, one of them under a name of the program. -/
def outlineStruct : StructDecl where
  id := ⟨"Line", ⟨7, 8⟩, none⟩
  fields := [
    ⟨.struct ⟨"Point", ⟨7, 22⟩, none⟩, ⟨"start", ⟨7, 28⟩, none⟩⟩,
    ⟨.bool, ⟨"open", ⟨7, 40⟩, none⟩⟩,
    ⟨.int, ⟨"at", ⟨7, 50⟩, none⟩⟩]

def outlineWithStruct : Program where
  decls := [
    .struct ⟨⟨"Point", ⟨1, 8⟩, none⟩, [⟨.int, ⟨"at", ⟨1, 20⟩, none⟩⟩]⟩,
    .struct outlineStruct,
    .var ⟨.struct ⟨"Point", ⟨2, 8⟩, none⟩, ⟨"origin", ⟨2, 14⟩, none⟩⟩,
    .fn ⟨.void, ⟨"main", ⟨3, 6⟩, none⟩, [], ⟨[⟨.int, ⟨"at", ⟨4, 7⟩, none⟩⟩], [
      .assign (.name ⟨"at", ⟨5, 3⟩, none⟩) (.int 7 ⟨5, 8⟩),
      .write (.name ⟨"at", ⟨6, 9⟩, none⟩)]⟩⟩]

theorem outlineStruct_fitsAt : outlineStruct.FitsAt outline {} 1 where
  unlinked := by decide
  name := by decide
  entryPoint := by decide
  fields := by decide
  types := by
    have hfront : (outline.linked {}).program.decls.take 1 =
        [.struct ⟨⟨"Point", ⟨1, 8⟩, some 1⟩, [⟨.int, ⟨"at", ⟨1, 20⟩, some 0⟩⟩]⟩] := rfl
    rw [hfront]
    simp [outlineStruct, TypeName.IsDefined]

/-- Both programs compile to the same assembly. -/
theorem outline_withStruct : ∃ linked linked' assembly,
    outline.compile {} = .ok (linked, .ok assembly) ∧
    outlineWithStruct.compile {} = .ok (linked', .ok assembly) := by
  have hcompile : outline.compile {} =
      .ok ((outline.linked {}).program, .ok (outline.code {})) :=
    compile_of_check (by decide) (by decide) (by decide) rfl rfl rfl
  obtain ⟨hsame, -⟩ := @compile_insertStruct outline outlineStruct {} 1 (by decide) (by decide)
    outlineStruct_fitsAt
  obtain ⟨linked', hcompile'⟩ := hsame _ _ hcompile
  exact ⟨_, linked', _, hcompile, hcompile'⟩

end Program

end StackMips
