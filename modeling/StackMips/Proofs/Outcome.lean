import StackMips.Proofs.Lowering.Program

/-!
# Outcomes of compilation

Compilation of an unlinked program in the grammar ends without a fault.  What it ends with depends
on two things only: whether analysis reported something, and whether a field is accessed.
-/

namespace StackMips

open Mips

namespace FnDecl

theorem declCount_linked (r : Resolver) (fn : FnDecl) : (fn.linked r).declCount = fn.declCount := by
  simp [declCount, linked, linkedFormals, VarDecl.length_linkedAll, Block.length_locals_linked]

end FnDecl

namespace Program

variable {program : Program} {options : Options}

theorem declCount_linked {context : Context} (hcontext : context.symbols.Sound) {bound : Nat}
    (h : ∀ fn ∈ program.functions, fn.declCount < bound) :
    ∀ fn ∈ (program.linked context).program.functions, fn.declCount < bound := by
  intro fn' hfn'
  obtain ⟨fn, hfn, r, _, rfl, _⟩ :=
    Decl.fn_visited (Resolver.start_atTop hcontext) (mem_functions.mp hfn')
  rw [FnDecl.declCount_linked]
  exact h fn (mem_functions.mpr hfn)

theorem lowerAll_of_quiet (hsize : ∀ fn ∈ program.functions, fn.declCount < 2 ^ 28)
    (hquiet : program.analyze { options } = .done (program.linked { options }) []) :
    Generates (Decl.lowerAll (program.linked { options }).program.decls)
      { context := (program.linked { options }).context }
      (Decl.scriptAll (program.linked { options }).context
        (program.linked { options }).program.decls) program.blocked := by
  have hgenerates := (clean_of_analyze hquiet).2.lowerAll_generates fun fn hfn =>
    fn.signature_fits (declCount_linked sound_empty hsize fn hfn)
  rwa [blocked_linked] at hgenerates

/-- A program without reports compiles to its code if it accesses no field. -/
theorem compile_eq_code (hsize : ∀ fn ∈ program.functions, fn.declCount < 2 ^ 28)
    (hquiet : program.analyze { options } = .done (program.linked { options }) [])
    (hblocked : program.blocked = []) : program.compile options =
      .ok ((program.linked { options }).program, .ok (program.code options)) := by
  have hgenerates := lowerAll_of_quiet hsize hquiet
  rw [hblocked] at hgenerates
  obtain ⟨exit, hlower⟩ := hgenerates
  simp only [compile, hquiet, Generator.finish, hlower]
  rfl

/-- Conditions under which a program compiles to its code, all of which can be evaluated. -/
theorem compile_of_check (hsize : ∀ fn ∈ program.functions, fn.declCount < 2 ^ 28)
    (hgrammar : program.InGrammar) (hunlinked : program.Unlinked)
    (hresolution : program.resolutionReports { options } = [])
    (hcheck : (program.linked { options }).program.check
      (program.linked { options }).context.symbols = .done () [])
    (hblocked : program.blocked = []) : program.compile options =
      .ok ((program.linked { options }).program, .ok (program.code options)) := by
  have hquiet := @analyze_of_check program { options } sound_empty hgrammar hunlinked [] hcheck
  rw [hresolution] at hquiet
  exact compile_eq_code hsize hquiet hblocked

/-- Code generation ends at the first field access. -/
theorem compile_of_blocked (hsize : ∀ fn ∈ program.functions, fn.declCount < 2 ^ 28)
    (hquiet : program.analyze { options } = .done (program.linked { options }) [])
    {u : Unsupported} {rest : List Unsupported}
    (hblocked : program.blocked = u :: rest) : program.compile options =
      .ok ((program.linked { options }).program, .error (.lowering u)) := by
  have hgenerates := lowerAll_of_quiet hsize hquiet
  rw [hblocked] at hgenerates
  obtain ⟨g', hlower⟩ := hgenerates
  simp only [compile, hquiet, Generator.finish, hlower]

/-- Compilation of a program whose frames fit ends without a fault. -/
theorem compile_isOk (options : Options) (hunlinked : program.Unlinked)
    (hgrammar : program.InGrammar) (hsize : ∀ fn ∈ program.functions, fn.declCount < 2 ^ 28) :
    ∃ result, program.compile options = .ok result := by
  obtain ⟨typing, _, hanalyze⟩ := @analyze_eq program { options } sound_empty hgrammar hunlinked
  cases hreports : program.resolutionReports { options } ++ typing with
  | cons report reports =>
      rw [compile, hanalyze, hreports]
      exact ⟨_, rfl⟩
  | nil =>
      have hquiet := hreports ▸ hanalyze
      cases hhead : program.blocked with
      | nil => exact ⟨_, compile_eq_code hsize hquiet hhead⟩
      | cons u rest => exact ⟨_, compile_of_blocked hsize hquiet hhead⟩

/-- Compilation never ends with a fault.  It reports what resolution and type checking reported, if
anything; else the first field access that generation comes to, if there is one; and else it
succeeds. -/
theorem compile_outcome (options : Options) (hunlinked : program.Unlinked)
    (hgrammar : program.InGrammar) (hsize : ∀ fn ∈ program.functions, fn.declCount < 2 ^ 28) :
    ∃ resolved resolution typing outcome,
      program.resolve { options } = .done resolved resolution ∧
      resolved.program.check resolved.context.symbols = .done () typing ∧
      program.compile options = .ok (resolved.program, outcome) ∧
      (∀ reports, outcome = .error (.semantic reports) ↔
        reports ≠ [] ∧ reports = resolution ++ typing) ∧
      (∀ u, outcome = .error (.lowering u) ↔
        resolution ++ typing = [] ∧ program.hasField ∧ program.blocked.head? = some u) ∧
      (∀ u, outcome = .error (.lowering u) →
        ∃ fn ∈ program.functions, ∃ e ∈ fn.body.allExprs, u.IsField e.nodes) ∧
      ((∃ assembly, outcome = .ok assembly) ↔
        resolution ++ typing = [] ∧ program.hasField = false) := by
  have hcontext : Context.symbols { options } |>.Sound := sound_empty
  obtain ⟨typing, hcheck, hanalyze⟩ := analyze_eq hcontext hgrammar hunlinked
  have hresolve := resolve_eq hcontext hgrammar hunlinked
  have hblocked := blocked_eq_nil_iff hgrammar
  refine ⟨program.linked { options }, program.resolutionReports { options }, typing, ?_⟩
  cases hreports : program.resolutionReports { options } ++ typing with
  | cons report reports =>
      refine ⟨.error (.semantic (report :: reports)), hresolve, hcheck, ?_, ?_⟩
      · rw [compile, hanalyze, hreports]
      · refine ⟨fun other => ?_, by simp, by simp, by simp⟩
        rw [Except.error.injEq, CompileError.semantic.injEq]
        exact ⟨fun h => by simp [← h], fun h => h.2.symm⟩
  | nil =>
      have hquiet := hreports ▸ hanalyze
      cases hhead : program.blocked with
      | nil =>
          refine ⟨.ok (program.code options), hresolve, hcheck,
            compile_eq_code hsize hquiet hhead, ?_⟩
          simp [hblocked.mp hhead]
      | cons u rest =>
          have hfield : program.hasField = true := by
            rw [← Bool.not_eq_false, ← hblocked, hhead]
            exact List.cons_ne_nil u rest
          refine ⟨.error (.lowering u), hresolve, hcheck,
            compile_of_blocked hsize hquiet hhead, ?_⟩
          have hmem : u ∈ program.blocked := by simp [hhead]
          simpa [hfield] using isField_blocked hmem

def fieldWriter : Program where
  decls := [
    .struct ⟨⟨"Point", ⟨1, 8⟩, none⟩, [⟨.int, ⟨"x", ⟨1, 20⟩, none⟩⟩]⟩,
    .var ⟨.struct ⟨"Point", ⟨2, 8⟩, none⟩, ⟨"origin", ⟨2, 14⟩, none⟩⟩,
    .fn ⟨.void, ⟨"main", ⟨3, 6⟩, none⟩, [],
      ⟨[], [.write (.field (.name ⟨"origin", ⟨4, 9⟩, none⟩) ⟨"x", ⟨4, 16⟩, none⟩)]⟩⟩]

/-- The field is the only thing that is wrong with this program. -/
theorem compile_fieldWriter : ∃ resolved, fieldWriter.compile {} =
    .ok (resolved, .error (.lowering ⟨.fieldAccess, ⟨4, 16⟩⟩)) := by
  obtain ⟨resolved, resolution, typing, outcome, hresolve, hcheck, hcompile, _, hlowering, _⟩ :=
    @compile_outcome fieldWriter {} (by decide) (by decide) (by decide)
  have hresolved : Reporting.done resolved resolution = .done (fieldWriter.linked {}) [] :=
    hresolve.symm.trans (resolve_eq sound_empty (by decide) (by decide))
  obtain ⟨rfl, rfl⟩ := Reporting.done.inj hresolved
  have htyping : Reporting.done () typing = .done () [] := hcheck.symm.trans rfl
  obtain ⟨_, rfl⟩ := Reporting.done.inj htyping
  obtain rfl := (hlowering ⟨.fieldAccess, ⟨4, 16⟩⟩).mpr ⟨rfl, by decide, by decide⟩
  exact ⟨_, hcompile⟩

end Program

end StackMips
