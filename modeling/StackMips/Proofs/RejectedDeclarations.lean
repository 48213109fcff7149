import StackMips.Proofs.Analysis
import StackMips.Proofs.Resolution.Rejection

/-!
# Rejected declarations leave no trace

A variable declaration that resolution rejects, for whatever reason, could as well not be there: the
program without it is analyzed with the same symbols, the same links and the same reports, except
those about the declaration itself.
-/

namespace StackMips

/-! ## Checking -/

theorem Stmt.checkAll_append (symbols : Arena) (returnType : Ty) (before after : List Stmt) :
    Stmt.checkAll symbols returnType (before ++ after) =
      (do
        Stmt.checkAll symbols returnType before
        Stmt.checkAll symbols returnType after) := by
  induction before with
  | nil => simp [checkAll]
  | cons stmt before ih => simp [checkAll, ih]

theorem Block.check_cut {place : Place} {decl : VarDecl} {block rest : Block}
    (h : block.cut place = some (decl, rest)) (symbols : Arena) (returnType : Ty) :
    rest.check symbols returnType = block.check symbols returnType := by
  refine of_cut (R := fun block rest =>
    rest.check symbols returnType = block.check symbols returnType) ?_ ?_ h
  · intro before decl after stmts
    rfl
  · intro decls before stmt stmt' after hvaries
    have hstmt : stmt'.check symbols returnType = stmt.check symbols returnType := by
      cases hvaries with
      | ifThen h | thenBody h | elseBody h | whileLoop h | repeatLoop h =>
          rw [Stmt.check, Stmt.check, h]
    rw [Block.check, Block.check, Stmt.checkAll_append, Stmt.checkAll_append, Stmt.checkAll,
      Stmt.checkAll, hstmt]

theorem Decl.checkAll_append (symbols : Arena) (before after : List Decl) :
    Decl.checkAll symbols (before ++ after) =
      (do
        Decl.checkAll symbols before
        Decl.checkAll symbols after) := by
  induction before with
  | nil => simp [checkAll]
  | cons decl before ih => simp [checkAll, ih]

namespace Program

variable {place : Place} {decl : VarDecl} {program rest : Program}

theorem check_cut (h : program.cut place = some (decl, rest)) (symbols : Arena) :
    rest.check symbols = program.check symbols := by
  obtain ⟨before, whole, after, left, hdecls, hloses, hrest⟩ := loses_of_cut h
  have hwhole : Decl.checkAll symbols left.toList = whole.check symbols := by
    cases hloses with
    | var => rfl
    | field => rfl
    | body hcut =>
        rename_i fn _ _
        simp only [Option.toList, Decl.checkAll, Decl.check, FnDecl.check, Block.check_cut hcut]
        cases fn.body.check symbols fn.returnType.toTy <;> simp
  rw [check, check, hdecls, hrest, List.append_assoc, Decl.checkAll_append, Decl.checkAll_append,
    Decl.checkAll_append, hwhole, Decl.checkAll]

/-- A rejected declaration leaves no trace in the program. -/
theorem spares_cut (hcut : program.cut place = some (decl, rest)) :
    Decl.pass.all.Spares (cutAt (Decl.cut place.inside) place.index) decl program.decls
      rest.decls := by
  obtain ⟨⟨decl', decls⟩, hdecls, heq⟩ := Option.map_eq_some_iff.mp hcut
  cases heq
  exact Decl.pass.spares_cutAt (fun _ _ => Decl.spares_cut) hdecls

theorem analyze_cut (options : Options) (hunlinked : program.Unlinked)
    (hgrammar : program.InGrammar) (hcut : program.cut place = some (decl, rest)) :
    ∃ resolved reports linkedDecl linkedRest,
      program.analyze { options } = .done resolved reports ∧
      resolved.program.cut place = some (linkedDecl, linkedRest) ∧
      (linkedDecl.id.link = none →
        ∃ before own behind, own ≠ [] ∧ own.Sublist decl.objections ∧
          reports = before ++ own ++ behind ∧
          rest.analyze { options } = .done { resolved with program := linkedRest }
            (before ++ behind)) := by
  obtain ⟨typing, hcheck, hanalyze⟩ :=
    @analyze_eq program { options } sound_empty hgrammar hunlinked
  obtain ⟨typing', hcheck', hanalyze'⟩ := @analyze_eq rest { options } sound_empty
    (inGrammar_cut hcut hgrammar) (unlinked_cut hcut hunlinked)
  obtain ⟨linkedDecl, decls, hlinkedCut, hmisses⟩ := spares_cut hcut (Resolver.start { options })
  have hlinked : (program.linked { options }).program.cut place = some (linkedDecl, ⟨decls⟩) := by
    have hdecls : Decl.pass.all.linked (Resolver.start { options }) program.decls =
        (program.linked { options }).program.decls := (Decl.all_eq_pass _ _).1.symm
    rw [hdecls] at hlinkedCut
    rw [cut, hlinkedCut]
    rfl
  refine ⟨_, _, linkedDecl, ⟨decls⟩, hanalyze, hlinked, ?_⟩
  intro hlink
  obtain ⟨hafter, hrest, before, own, behind, hown, hobjections, hreports, hreports'⟩ :=
    hmisses hlink
  have hstate : rest.after { options } = program.after { options } := hafter
  have hresolved : rest.linked { options } =
      { program.linked { options } with program := ⟨decls⟩ } := by
    have hdecls : Decl.linkedAll (Resolver.start { options }) rest.decls = decls :=
      (Decl.all_eq_pass _ _).1.trans hrest
    rw [linked, hstate, hdecls]
    rfl
  have htyping : typing' = typing := by
    rw [hresolved] at hcheck'
    have hsame := (check_cut hlinked _).symm.trans hcheck'
    exact (Reporting.done.inj (hcheck.symm.trans hsame)).2.symm
  refine ⟨before, own,
    behind ++ (program.after { options }).entryReports options.entryPoint ++ typing, hown,
    hobjections, ?_, ?_⟩
  · have hdecls := (Decl.all_eq_pass _ _).2.trans hreports
    rw [resolutionReports, hdecls]
    simp only [List.append_assoc]
  · have hdecls := (Decl.all_eq_pass _ _).2.trans hreports'
    rw [hanalyze', hresolved, htyping, resolutionReports, hdecls, hstate]
    simp only [List.append_assoc]

/-- A variable declaration whose name stays unlinked could as well not be there, wherever it stands.
Without it, analysis ends with the same symbols, frame offset, table and links, and with the same
reports but those at the declaration. -/
theorem analyze_without_rejected (options : Options) (hunlinked : program.Unlinked)
    (hgrammar : program.InGrammar) :
    (∀ decl ∈ program.variables, ∃ place rest, program.cut place = some (decl, rest)) ∧
    ∀ place decl rest, program.cut place = some (decl, rest) →
      ∃ resolved reports linkedDecl linkedRest,
        program.analyze { options } = .done resolved reports ∧
        resolved.program.cut place = some (linkedDecl, linkedRest) ∧
        (linkedDecl.id.link = none →
          ∃ before own behind, own ≠ [] ∧ own.Sublist decl.objections ∧
            reports = before ++ own ++ behind ∧
            rest.analyze { options } = .done { resolved with program := linkedRest }
              (before ++ behind)) :=
  ⟨fun _ => exists_cut, fun _ _ _ => analyze_cut options hunlinked hgrammar⟩

/-- A program that declares a local a second time, with a struct type that does not exist. -/
def careless : Program where
  decls := [
    .fn ⟨.void, ⟨"main", ⟨1, 6⟩, none⟩, [], ⟨[], [
      .whileLoop (.bool true ⟨2, 10⟩) ⟨[
        ⟨.int, ⟨"x", ⟨3, 9⟩, none⟩⟩,
        ⟨.struct ⟨"Point", ⟨4, 12⟩, none⟩, ⟨"x", ⟨4, 18⟩, none⟩⟩], [
        .increment (.name ⟨"x", ⟨5, 5⟩, none⟩)]⟩]⟩⟩]

def careful : Program where
  decls := [
    .fn ⟨.void, ⟨"main", ⟨1, 6⟩, none⟩, [], ⟨[], [
      .whileLoop (.bool true ⟨2, 10⟩) ⟨[
        ⟨.int, ⟨"x", ⟨3, 9⟩, none⟩⟩], [
        .increment (.name ⟨"x", ⟨5, 5⟩, none⟩)]⟩]⟩⟩]

/-- Both reports go with the declaration, and the use of the local keeps its link. -/
theorem careless_without_rejected :
    careless.cut ⟨0, .body (.stmt 0 0 (.decl 1))⟩ = some
      (⟨.struct ⟨"Point", ⟨4, 12⟩, none⟩, ⟨"x", ⟨4, 18⟩, none⟩⟩, careful) ∧
    ∃ resolved linkedRest,
      careless.analyze {} = .done resolved
        [Diagnostic.ofCode .unknownStruct ⟨4, 12⟩, Diagnostic.ofCode .multiplyDeclared ⟨4, 18⟩] ∧
      careful.analyze {} = .done { resolved with program := linkedRest } [] := by
  have hcut : careless.cut ⟨0, .body (.stmt 0 0 (.decl 1))⟩ = some
      (⟨.struct ⟨"Point", ⟨4, 12⟩, none⟩, ⟨"x", ⟨4, 18⟩, none⟩⟩, careful) := rfl
  obtain ⟨resolved, reports, linkedDecl, linkedRest, hanalyze, hlinked, hrejected⟩ :=
    (@analyze_without_rejected careless {} (by decide) (by decide)).2 _ _ _ hcut
  have hdone : careless.analyze {} = .done (careless.linked {})
      [Diagnostic.ofCode .unknownStruct ⟨4, 12⟩, Diagnostic.ofCode .multiplyDeclared ⟨4, 18⟩] := rfl
  obtain ⟨rfl, rfl⟩ := Reporting.done.inj (hanalyze.symm.trans hdone)
  have hlink : linkedDecl.id.link = none := by
    have hdecl : (careless.linked {}).program.cut ⟨0, .body (.stmt 0 0 (.decl 1))⟩ = some
        (⟨.struct ⟨"Point", ⟨4, 12⟩, none⟩, ⟨"x", ⟨4, 18⟩, none⟩⟩, (careful.linked {}).program) :=
      rfl
    cases hlinked.symm.trans hdecl
    rfl
  obtain ⟨before, own, behind, _, _, _, hrest⟩ := hrejected hlink
  have hquiet : careful.analyze {} = .done (careful.linked {}) [] := rfl
  refine ⟨hcut, _, linkedRest, hdone, ?_⟩
  rw [hrest, Reporting.done.injEq]
  exact ⟨rfl, (Reporting.done.inj (hrest.symm.trans hquiet)).2⟩

end Program

end StackMips
