import StackMips.Proofs.Resolution.Declared
import StackMips.Proofs.Tree.Identifiers

/-!
# Resolution reports in source order

Resolution walks over a tree in source order and reports about each identifier at its own position.
An identifier is reported at most once, except for the name of a void variable that is declared
again: it is reported for both.  So if the positions of the identifiers go up in source order, the
positions of the reports do, too.
-/

namespace StackMips

/-! ## Source order -/

/-- A position is before another one if its line is, or in the same line its column. -/
instance : LT Pos where
  lt a b := a.line < b.line ∨ a.line = b.line ∧ a.column < b.column

instance (a b : Pos) : Decidable (a < b) :=
  inferInstanceAs (Decidable (_ ∨ _))

instance : LE Pos where
  le a b := a < b ∨ a = b

theorem Pos.ne_of_lt {a b : Pos} (h : a < b) : a ≠ b := by
  rintro rfl
  rcases h with h | ⟨-, h⟩ <;> exact Nat.lt_irrefl _ h

/-- The reports of a walk over identifiers, in their order.  There is none about an identifier, or
one at its position, or, at a declared name, the two that it is a variable of type void and that it
is taken. -/
inductive Located (declared : List Ident) : List Ident → List Diagnostic → Prop where
  | nil : Located declared [] []
  | quiet (id : Ident) {ids : List Ident} {reports : List Diagnostic}
      (h : Located declared ids reports) : Located declared (id :: ids) reports
  | once (id : Ident) (code : Code) {ids : List Ident} {reports : List Diagnostic}
      (h : Located declared ids reports) :
      Located declared (id :: ids) (Diagnostic.ofCode code id.pos :: reports)
  | twice {id : Ident} (hid : id ∈ declared) {ids : List Ident} {reports : List Diagnostic}
      (h : Located declared ids reports) :
      Located declared (id :: ids)
        (Diagnostic.ofCode .voidVariable id.pos ::
          Diagnostic.ofCode .multiplyDeclared id.pos :: reports)

namespace Located

variable {declared declared' ids ids' : List Ident} {reports reports' : List Diagnostic}

theorem mono (h : Located declared ids reports) (hsubset : declared ⊆ declared') :
    Located declared' ids reports := by
  induction h with
  | nil => exact .nil
  | quiet id _ ih => exact .quiet id ih
  | once id code _ ih => exact .once id code ih
  | twice hid _ ih => exact .twice (hsubset hid) ih

theorem append_right (h : Located declared ids reports) (h' : Located declared ids' reports') :
    Located declared (ids ++ ids') (reports ++ reports') := by
  induction h with
  | nil => exact h'
  | quiet id _ ih => exact .quiet id ih
  | once id code _ ih => exact .once id code ih
  | twice hid _ ih => exact .twice hid ih

theorem append (h : Located declared ids reports) (h' : Located declared' ids' reports') :
    Located (declared ++ declared') (ids ++ ids') (reports ++ reports') :=
  (h.mono (List.subset_append_left _ _)).append_right (h'.mono (List.subset_append_right _ _))

theorem none (ids : List Ident) : Located declared ids [] := by
  induction ids with
  | nil => exact .nil
  | cons id ids ih => exact .quiet id ih

theorem single (id : Ident) (quiet : Bool) (code : Code) {pos : Pos} (hpos : pos = id.pos) :
    Located declared [id] (if quiet then [] else [Diagnostic.ofCode code pos]) := by
  subst hpos
  cases quiet with
  | true => exact .quiet id .nil
  | false => exact .once id code .nil

theorem flatMap {α : Type} {items : List α} {ids : α → List Ident} {reports : α → List Diagnostic}
    (h : ∀ item ∈ items, Located declared (ids item) (reports item)) :
    Located declared (items.flatMap ids) (items.flatMap reports) := by
  induction items with
  | nil => exact .nil
  | cons item items ih =>
      rw [List.forall_mem_cons] at h
      exact h.1.append_right (ih h.2)

theorem forall_pos {P : Pos → Prop} (h : Located declared ids reports)
    (hids : ∀ id ∈ ids, P id.pos) : ∀ report ∈ reports, P report.pos := by
  induction h with
  | nil => simp
  | quiet id _ ih => exact ih (List.forall_mem_cons.mp hids).2
  | once id code _ ih =>
      rw [List.forall_mem_cons] at hids ⊢
      exact ⟨hids.1, ih hids.2⟩
  | twice _ _ ih =>
      rw [List.forall_mem_cons] at hids
      rw [List.forall_mem_cons, List.forall_mem_cons]
      exact ⟨hids.1, hids.1, ih hids.2⟩

/-- Two reports, the first one of which is at an earlier position, unless both are about one
declared name. -/
def InOrder (declared : List Ident) (first second : Diagnostic) : Prop :=
  first.pos < second.pos ∨
    ∃ id ∈ declared, first = Diagnostic.ofCode .voidVariable id.pos ∧
      second = Diagnostic.ofCode .multiplyDeclared id.pos

theorem pairwise (h : Located declared ids reports)
    (hids : ids.Pairwise fun first second => first.pos < second.pos) :
    reports.Pairwise (InOrder declared) := by
  induction h with
  | nil => exact .nil
  | quiet id _ ih => exact ih hids.of_cons
  | once id code h ih =>
      rw [List.pairwise_cons] at hids
      exact .cons (fun report hreport => .inl (h.forall_pos hids.1 report hreport)) (ih hids.2)
  | @twice id hid _ _ h ih =>
      rw [List.pairwise_cons] at hids
      have hbehind := h.forall_pos hids.1
      refine .cons (List.forall_mem_cons.mpr ⟨.inr ⟨id, hid, rfl, rfl⟩, ?_⟩)
        (.cons ?_ (ih hids.2))
      · exact fun report hreport => .inl (hbehind report hreport)
      · exact fun report hreport => .inl (hbehind report hreport)

end Located

/-! ## Expressions -/

namespace Expr

/-- A chain of field accesses is reported where it breaks. -/
theorem located_baseReports (r : Resolver) (e : Expr) :
    Located [] (e.linked r).idents (e.baseReports r) := by
  induction e using Expr.induction with
  | name id =>
      rw [baseReports]
      cases hlookup : r.table.lookup id.name with
      | none =>
          simp only [Ident.reports, hlookup, Ident.baseReports]
          exact .once (id.linked r) .undeclared .nil
      | some symbol =>
          simp only [Ident.reports, hlookup, Ident.baseReports]
          exact .single (id.linked r) _ .fieldOfNonStruct rfl
  | field base id ih =>
      rw [baseReports, linked, idents]
      cases hreached : base.reached r with
      | none =>
          rw [Ident.fieldReports, List.append_nil]
          exact ih.append_right (.none _)
      | some definition =>
          rw [baseReports_of_reached (by simp [hreached]), List.append_assoc]
          refine Located.append_right (.none _) ?_
          cases hfield : r.symbols.field? definition id.name with
          | none =>
              simp only [Ident.fieldReports, hfield, Option.bind_some, Ident.baseReports]
              exact .once (id.fieldLinked r (some definition)) .unknownField .nil
          | some symbol =>
              simp only [Ident.fieldReports, hfield, Option.bind_some, Ident.baseReports]
              exact .single (id.fieldLinked r (some definition)) _ .fieldOfNonStruct rfl
  | int _ _ | str _ _ | bool _ _ | assign _ _ | call _ _ | unary _ _ | binary _ _ _ =>
      exact .none _

theorem located_linked (r : Resolver) (e : Expr) :
    Located [] (e.linked r).idents (e.reports r) := by
  have hname (id : Ident) : Located [] [id.linked r] (id.reports r) :=
    .single (id.linked r) _ .undeclared rfl
  induction e using Expr.induction with
  | int _ _ | str _ _ | bool _ _ => exact .nil
  | name id => exact hname id
  | field base id _ =>
      rw [linked, idents, reports]
      cases hreached : base.reached r with
      | none => exact (base.located_baseReports r).append_right (.none _)
      | some definition =>
          rw [baseReports_of_reached (by simp [hreached])]
          exact (Located.none _).append_right (.single (id.fieldLinked r _) _ .unknownField rfl)
  | assign target value ihtarget ihvalue => exact ihtarget.append_right ihvalue
  | call callee args ih =>
      simp only [linked, idents, reports, linkedAll_eq_map, identsAll_eq_flatMap,
        reportsAll_eq_flatMap, List.flatMap_map]
      exact (hname callee).append_right (.flatMap ih)
  | unary op operand ih => exact ih
  | binary op left right ihleft ihright => exact ihleft.append_right ihright

end Expr

/-! ## Declarations -/

theorem TypeName.located_linked (r : Resolver) (type : TypeName) :
    Located [] (type.linked r).idents (type.reports r) := by
  cases type with
  | int | bool | void => exact .nil
  | struct id => exact .single { id with link := r.struct? id.name } _ .unknownStruct rfl

theorem Ident.located_taken {declared : List Ident} (id : Ident) (isTaken : Bool) {pos : Pos}
    (hpos : pos = id.pos) :
    Located declared [id]
      (if isTaken then [Diagnostic.ofCode .multiplyDeclared pos] else []) := by
  subst hpos
  cases isTaken with
  | true => exact .once id .multiplyDeclared .nil
  | false => exact .none _

namespace VarDecl

theorem located_linked (r : Resolver) (target : SymbolTable) (decl : VarDecl) :
    Located [(decl.linked r target).id] (decl.linked r target).idents (decl.reports r target) := by
  rw [reports]
  cases htype : decl.type with
  | int | bool | struct _ =>
      have hreports : decl.typeReports r = decl.type.reports r := by rw [typeReports, htype]
      rw [hreports]
      exact (decl.type.located_linked r).append ((decl.linked r target).id.located_taken _ rfl)
  | void =>
      -- Both reports about a void variable are at its name.
      have hreports : decl.typeReports r = [Diagnostic.ofCode .voidVariable decl.id.pos] := by
        rw [typeReports, htype]
      have hidents : (decl.linked r target).idents = [(decl.linked r target).id] := by
        simp [idents, linked, htype, TypeName.linked, TypeName.idents]
      rw [hreports, hidents]
      cases (target.lookupInnermost decl.id.name).isSome with
      | true => exact .twice List.mem_cons_self .nil
      | false => exact .once (decl.linked r target).id .voidVariable .nil

theorem located_linkedAll (declare : Resolver → VarDecl → Resolver) (r : Resolver)
    (decls : List VarDecl) :
    Located ((linkedAll declare r decls).map (·.id)) ((linkedAll declare r decls).flatMap idents)
      (reportsAll declare r decls) := by
  induction decls generalizing r with
  | nil => exact .nil
  | cons decl decls ih => exact (decl.located_linked r r.table).append (ih _)

end VarDecl

theorem Resolver.located_isLinking :
    IsLinking fun _ _ decls ids reports => Located (decls.map (·.id)) ids reports where
  refl _ := .nil
  append h h' := by
    rw [List.map_append]
    exact h.append h'
  expr r e _ := e.located_linked r
  declareLocal r decl := decl.located_linked r r.table
  backTo h := h

theorem FnDecl.located_linked {r : Resolver} {fn : FnDecl} (hgrammar : fn.body.InGrammar) :
    Located (fn.linked r).declaredIds (fn.linked r).idents (fn.reports r) := by
  have hname : Located [] ((fn.linked r).returnType.idents ++ [(fn.linked r).id])
      (fn.returnType.reports r ++
        if fn.isTaken r then [Diagnostic.ofCode .multiplyDeclared fn.id.pos] else []) :=
    (fn.returnType.located_linked r).append_right ((fn.linked r).id.located_taken _ rfl)
  have hformals := VarDecl.located_linkedAll Resolver.declareFormal (fn.opened r) fn.formals
  have hbody := Resolver.located_isLinking.block hgrammar (fn.inside r)
  exact ((hname.append hformals).append hbody).mono (List.subset_cons_self _ _)

namespace StructDecl

theorem located_fieldsLinked (r : Resolver) (table : SymbolTable) (offset : Int)
    (decls : List VarDecl) :
    Located ((fieldsLinked r table offset decls).map (·.id))
      ((fieldsLinked r table offset decls).flatMap VarDecl.idents)
      (fieldsReports r table offset decls) := by
  induction decls generalizing r table offset with
  | nil => exact .nil
  | cons decl decls ih =>
      rw [fieldsLinked, fieldsReports, List.flatMap_cons, List.map_cons]
      cases decl.accepted? r table with
      | none => exact (decl.located_linked r table).append (ih _ _ _)
      | some kind => exact (decl.located_linked r table).append (ih _ _ _)

theorem located_linked (r : Resolver) (struct : StructDecl) :
    Located (struct.linked r).declaredIds (struct.linked r).idents (struct.reports r) := by
  have hfields : Located (struct.linked r).declaredIds
      ((struct.linked r).fields.flatMap VarDecl.idents) (fieldsReports r {} 0 struct.fields) :=
    (located_fieldsLinked r {} 0 struct.fields).mono (List.subset_append_left _ _)
  exact ((struct.linked r).id.located_taken (struct.isTaken r) rfl).append_right hfields

end StructDecl

namespace Decl

theorem located_linked {r : Resolver} {decl : Decl} (hgrammar : decl.InGrammar) :
    Located (decl.linked r).declaredIds (decl.linked r).idents (decl.reports r) := by
  cases decl with
  | var decl => exact decl.located_linked r r.table
  | fn decl => exact FnDecl.located_linked hgrammar
  | struct decl => exact decl.located_linked r

theorem located_linkedAll {decls : List Decl} (hgrammar : ∀ decl ∈ decls, decl.InGrammar)
    (r : Resolver) :
    Located ((linkedAll r decls).flatMap declaredIds) ((linkedAll r decls).flatMap idents)
      (reportsAll r decls) := by
  induction decls generalizing r with
  | nil => exact .nil
  | cons decl decls ih =>
      rw [List.forall_mem_cons] at hgrammar
      exact (located_linked hgrammar.1).append (ih hgrammar.2 _)

end Decl

/-! ## Positions of a linked program -/

theorem TypeName.unlink_eq_mapIdents (type : TypeName) :
    type.unlink = type.mapIdents Ident.unlink := by
  cases type <;> rfl

theorem VarDecl.unlink_eq_mapIdents (decl : VarDecl) :
    decl.unlink = decl.mapIdents Ident.unlink := by
  rw [unlink, mapIdents, TypeName.unlink_eq_mapIdents]

theorem Expr.unlink_eq_mapIdents (e : Expr) : e.unlink = e.mapIdents Ident.unlink := by
  induction e using Expr.induction with
  | int _ _ | str _ _ | bool _ _ | name _ => rfl
  | field base id ih | unary op base ih => rw [unlink, mapIdents, ih]
  | assign left right ihleft ihright | binary op left right ihleft ihright =>
      rw [unlink, mapIdents, ihleft, ihright]
  | call callee args ih =>
      rw [unlink, mapIdents, unlinkAll_eq_map, mapIdentsAll_eq_map, List.map_congr_left ih]

namespace Stmt

theorem unlink_block_eq_mapIdents_of {block : Block}
    (h : ∀ stmt ∈ block.stmts, stmt.unlink = stmt.mapIdents Ident.unlink) :
    block.unlink = block.mapIdents Ident.unlink := by
  obtain ⟨decls, stmts⟩ := block
  rw [Block.unlink, Block.mapIdents, unlinkAll_eq_map, mapIdentsAll_eq_map, List.map_congr_left h,
    List.map_congr_left fun decl _ => decl.unlink_eq_mapIdents]

theorem unlink_eq_mapIdents (stmt : Stmt) : stmt.unlink = stmt.mapIdents Ident.unlink := by
  induction stmt using Stmt.induction with
  | assign target value =>
      rw [unlink, mapIdents, Expr.unlink_eq_mapIdents, Expr.unlink_eq_mapIdents]
  | increment e | decrement e | read e | write e => rw [unlink, mapIdents, Expr.unlink_eq_mapIdents]
  | ifThen cond body ih | whileLoop cond body ih | repeatLoop cond body ih =>
      rw [unlink, mapIdents, Expr.unlink_eq_mapIdents, unlink_block_eq_mapIdents_of ih]
  | ifElse cond thenBody elseBody ihthen ihelse =>
      rw [unlink, mapIdents, Expr.unlink_eq_mapIdents, unlink_block_eq_mapIdents_of ihthen,
        unlink_block_eq_mapIdents_of ihelse]
  | call callee args =>
      rw [unlink, mapIdents, Expr.unlinkAll_eq_map, Expr.mapIdentsAll_eq_map,
        List.map_congr_left fun arg _ => arg.unlink_eq_mapIdents]
  | ret value? pos => cases value? <;> simp [unlink, mapIdents, Expr.unlink_eq_mapIdents]

end Stmt

theorem Decl.unlink_eq_mapIdents (decl : Decl) : decl.unlink = decl.mapIdents Ident.unlink := by
  have hdecls (decls : List VarDecl) :
      decls.map VarDecl.unlink = decls.map (VarDecl.mapIdents Ident.unlink) :=
    List.map_congr_left fun decl _ => decl.unlink_eq_mapIdents
  cases decl with
  | var decl => rw [unlink, mapIdents, VarDecl.unlink_eq_mapIdents]
  | fn decl =>
      rw [unlink, mapIdents, FnDecl.unlink, FnDecl.mapIdents, TypeName.unlink_eq_mapIdents, hdecls,
        Stmt.unlink_block_eq_mapIdents_of fun stmt _ => stmt.unlink_eq_mapIdents]
  | struct decl => rw [unlink, mapIdents, StructDecl.unlink, StructDecl.mapIdents, hdecls]

namespace Program

theorem idents_unlink (program : Program) :
    program.unlink.idents = program.idents.map Ident.unlink := by
  rw [← idents_mapIdents, unlink, mapIdents,
    List.map_congr_left fun decl _ => decl.unlink_eq_mapIdents]

variable {program : Program} {options : Options}

theorem pairwise_pos_linked (hunlinked : program.Unlinked) {context : Context}
    {R : Pos → Pos → Prop}
    (h : program.idents.Pairwise fun first second => R first.pos second.pos) :
    (program.linked context).program.idents.Pairwise fun first second =>
      R first.pos second.pos := by
  have hunlink : (program.linked context).program.unlink = program := by
    rw [unlink, linked, Decl.unlink_linkedAll hunlinked]
  rw [← hunlink, idents_unlink, List.pairwise_map] at h
  exact h

/-- If the positions of the identifiers go up in source order, the positions of the reports never go
down; a missing entry point, reported last, has no position.  Two reports at one position are about
a declared name, and say that it is a void variable and that it is taken. -/
theorem resolve_in_order (hgrammar : program.InGrammar) (hunlinked : program.Unlinked)
    (hpos : program.idents.Pairwise fun first second => first.pos < second.pos) :
    ∃ resolved naming entry, program.resolve { options } = .done resolved (naming ++ entry) ∧
      resolved.program.unlink = program ∧
      (entry = [] ∨ entry = [Diagnostic.ofCode .noEntryPoint ⟨0, 0⟩]) ∧
      (∀ report ∈ naming, report.code? ≠ some .noEntryPoint) ∧
      (naming.Pairwise fun first second => first.pos ≤ second.pos) ∧
      naming.Pairwise fun first second => first.pos = second.pos →
        ∃ id ∈ resolved.program.declaredIds,
          first = Diagnostic.ofCode .voidVariable id.pos ∧
            second = Diagnostic.ofCode .multiplyDeclared id.pos := by
  have hlocated := Decl.located_linkedAll hgrammar.decl (Resolver.start { options })
  have hordered := hlocated.pairwise (pairwise_pos_linked hunlinked hpos)
  refine ⟨_, _, _, resolve_eq sound_empty hgrammar hunlinked, ?_, ?_,
    (Decl.accounted_linkedAll hgrammar.decl _).naming, hordered.imp ?_, hordered.imp ?_⟩
  · rw [unlink, linked, Decl.unlink_linkedAll hunlinked]
  · rw [Resolver.entryReports]
    split
    · exact .inl rfl
    · exact .inr rfl
  · rintro first second (hlt | ⟨id, -, rfl, rfl⟩)
    · exact .inl hlt
    · exact .inr rfl
  · rintro first second (hlt | hpair) heq
    · exact absurd heq (Pos.ne_of_lt hlt)
    · exact hpair

/-- A program with an error in most of its declarations, and no entry point. -/
def untidy : Program where
  decls := [
    .var ⟨.int, ⟨"x", ⟨1, 5⟩, none⟩⟩,
    .var ⟨.void, ⟨"x", ⟨2, 6⟩, none⟩⟩,
    .struct ⟨⟨"P", ⟨3, 8⟩, none⟩, [⟨.bool, ⟨"b", ⟨3, 17⟩, none⟩⟩, ⟨.int, ⟨"b", ⟨3, 24⟩, none⟩⟩]⟩,
    .fn ⟨.struct ⟨"Q", ⟨4, 8⟩, none⟩, ⟨"f", ⟨4, 10⟩, none⟩,
      [⟨.struct ⟨"P", ⟨4, 19⟩, none⟩, ⟨"p", ⟨4, 21⟩, none⟩⟩], ⟨[], [
        .assign (.field (.name ⟨"p", ⟨5, 3⟩, none⟩) ⟨"c", ⟨5, 5⟩, none⟩)
          (.name ⟨"y", ⟨5, 9⟩, none⟩)]⟩⟩]

theorem resolve_untidy_in_order : ∃ resolved naming entry,
    untidy.resolve {} = .done resolved (naming ++ entry) ∧
      naming ++ entry = [
        Diagnostic.ofCode .voidVariable ⟨2, 6⟩, Diagnostic.ofCode .multiplyDeclared ⟨2, 6⟩,
        Diagnostic.ofCode .multiplyDeclared ⟨3, 24⟩, Diagnostic.ofCode .unknownStruct ⟨4, 8⟩,
        Diagnostic.ofCode .unknownField ⟨5, 5⟩, Diagnostic.ofCode .undeclared ⟨5, 9⟩,
        Diagnostic.ofCode .noEntryPoint ⟨0, 0⟩] ∧
      naming.Pairwise fun first second => first.pos ≤ second.pos := by
  have hresolve : untidy.resolve {} =
      .done (untidy.linked {}) (untidy.resolutionReports {}) :=
    resolve_eq sound_empty (by decide) (by decide)
  obtain ⟨resolved, naming, entry, h, -, -, -, hordered, -⟩ := resolve_in_order
    (show untidy.InGrammar by decide) (by decide) (by decide)
  obtain ⟨rfl, hreports⟩ := Reporting.done.inj (hresolve.symm.trans h)
  exact ⟨_, naming, entry, h, hreports.symm.trans (by decide), hordered⟩

end Program

end StackMips
