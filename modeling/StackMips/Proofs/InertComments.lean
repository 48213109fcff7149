import StackMips.Proofs.Lowering.PairedTrees
import StackMips.Proofs.Outcome

/-!
# Comments

Comments are the only thing that the option for them changes: without it, code generation writes
the same lines less the comments.
-/

namespace StackMips

open Mips

/-! ## Lines without their comments -/

namespace Mips

def Instr.quiet (instr : Instr) : Instr := { instr with comment := none }

namespace Line

/-- The line without its comment; nothing is left of a comment line. -/
def quiet? : Line → Option Line
  | .op instr => some (.op instr.quiet)
  | .label name instr? => some (.label name (instr?.map Instr.quiet))
  | .region switch => some (.region switch)
  | .comment _ => none

def hasComment : Line → Bool
  | .op instr => instr.comment.isSome
  | .label _ instr? => instr?.any (·.comment.isSome)
  | .region _ => false
  | .comment _ => true

theorem hasComment_of_quiet? {line rest : Line} (h : line.quiet? = some rest) :
    rest.hasComment = false := by
  cases line with
  | op instr => exact Option.some.inj h ▸ rfl
  | label name instr? =>
      obtain rfl := Option.some.inj h
      cases instr? <;> rfl
  | region region => exact Option.some.inj h ▸ rfl
  | comment text => contradiction

end Line

def Assembly.quiet (assembly : Assembly) : Assembly :=
  { assembly with lines := assembly.lines.filterMap Line.quiet? }

theorem Assembly.hasComment_quiet (assembly : Assembly) :
    ∀ line ∈ assembly.quiet.lines, line.hasComment = false := by
  intro line hline
  obtain ⟨noisy, _, hquiet⟩ := List.mem_filterMap.mp hline
  exact Line.hasComment_of_quiet? hquiet

end Mips

/-! ## A run with comments beside a run without -/

/-- Exactly the lines of the run with comments, less the comments. -/
def Pairing.muted (context : Context) (entryPoint : String) : Pairing where
  left := { context with options := { comments := true, entryPoint } }
  right := { context with options := { comments := false, entryPoint } }
  exchange := fun id => id
  between a a' := a' = a.filterMap Line.quiet?
  inside a a' := a' = a.filterMap Line.quiet?
  faults := Eq
  entryPoint := rfl
  pos_exchange := Pairing.pos_self
  faults_refl := Eq.refl
  faults_exprDepth := Pairing.exprDepth_self
  faults_noAddress := Pairing.noAddress_self
  op h _ := by rw [h, List.filterMap_append]; rfl
  opWith _ h _ := by rw [h, List.filterMap_append]; rfl
  note _ h := by rw [h, List.filterMap_append]; rfl
  label _ h := by rw [h, List.filterMap_append]; rfl
  stored _ _ h := by rw [h, List.filterMap_append]; rfl
  enter h := by rw [h, List.filterMap_append]; rfl
  leave h := h
  global _ h := by rw [h, List.filterMap_append]; rfl

theorem Pairing.Finished.of_muted {context : Context} {entryPoint : String}
    {result result' : Except Stop Assembly}
    (h : (Pairing.muted context entryPoint).Finished result result') :
    result' = result.map Assembly.quiet := by
  cases h with
  | ok lines strings maxDepth =>
      rename_i assembly assembly'
      have hlines : assembly'.lines = assembly.lines.filterMap Line.quiet? := lines
      obtain ⟨lines', strings', maxDepth'⟩ := assembly'
      simp only at hlines strings maxDepth
      rw [hlines, strings, maxDepth]
      rfl
  | unsupported u => rfl
  | fault hfault => exact hfault ▸ rfl

/-- Without comments, code generation stops at the same place or ends with the same lines, less the
comments. -/
theorem Generator.finish_without_comments (context : Context) (entryPoint : String)
    (program : Program) :
    Generator.finish { context := { context with options := { comments := false, entryPoint } } }
        program =
      (Generator.finish
        { context := { context with options := { comments := true, entryPoint } } } program).map
          Assembly.quiet := by
  have hmatches := fun decl (_ : decl ∈ program.decls) =>
    Pairing.matchesDecl_self (p := .muted context entryPoint) rfl rfl decl
  have hfinished := Pairing.finished hmatches rfl rfl rfl
  apply Pairing.Finished.of_muted
  rwa [show (Pairing.muted context entryPoint).exchange = fun id => id from rfl,
    program.mapIdents_self] at hfinished

namespace Program

variable {program : Program}

theorem analyze_without_comments (entryPoint : String) (hunlinked : program.Unlinked)
    (hgrammar : program.InGrammar) : ∃ resolved reports,
    program.analyze { options := { comments := true, entryPoint } } = .done resolved reports ∧
    program.analyze { options := { comments := false, entryPoint } } =
      .done
        { resolved with
          context := { resolved.context with options := { comments := false, entryPoint } } }
        reports ∧
    resolved.context.options = { comments := true, entryPoint } := by
  obtain ⟨typing, hcheck, hanalyze⟩ :=
    @analyze_eq program { options := { comments := true, entryPoint } } sound_empty hgrammar
      hunlinked
  obtain ⟨typing', hcheck', hanalyze'⟩ :=
    @analyze_eq program { options := { comments := false, entryPoint } } sound_empty hgrammar
      hunlinked
  have htyping : Reporting.done () typing' = .done () typing := hcheck'.symm.trans hcheck
  obtain ⟨_, rfl⟩ := Reporting.done.inj htyping
  exact ⟨_, _, hanalyze, hanalyze', rfl⟩

/-- Comments are inert.  Without them compilation has the same outcome, and if that is an assembly,
it is the same one less its comment lines and the comments behind operations. -/
theorem compile_without_comments (entryPoint : String) (hunlinked : program.Unlinked)
    (hgrammar : program.InGrammar) :
    program.compile { comments := false, entryPoint } =
      (program.compile { comments := true, entryPoint }).map
        (fun result => (result.1, result.2.map Assembly.quiet)) ∧
    (∀ linked assembly,
      program.compile { comments := false, entryPoint } = .ok (linked, .ok assembly) →
        ∀ line ∈ assembly.lines, line.hasComment = false) ∧
    ((∀ fn ∈ program.functions, fn.declCount < 2 ^ 28) →
      ∃ result, program.compile { comments := true, entryPoint } = .ok result) := by
  have hcompile : program.compile { comments := false, entryPoint } =
      (program.compile { comments := true, entryPoint }).map
        fun result => (result.1, result.2.map Assembly.quiet) := by
    obtain ⟨resolved, reports, hnoisy, hquiet, hoptions⟩ :=
      analyze_without_comments entryPoint hunlinked hgrammar
    have hfinish := Generator.finish_without_comments resolved.context entryPoint resolved.program
    rw [← hoptions] at hfinish
    rw [compile, compile, hnoisy, hquiet]
    cases reports with
    | cons report reports => rfl
    | nil =>
        simp only [hfinish]
        cases Generator.finish { context := resolved.context } resolved.program with
        | ok assembly => rfl
        | error stop => cases stop <;> rfl
  refine ⟨hcompile, ?_, compile_isOk _ hunlinked hgrammar⟩
  intro linked assembly hassembly
  rw [hcompile] at hassembly
  cases hnoisy : program.compile { comments := true, entryPoint } with
  | error fault => simp [hnoisy, Except.map] at hassembly
  | ok result =>
      obtain ⟨linked', outcome⟩ := result
      cases outcome with
      | error error => simp [hnoisy, Except.map] at hassembly
      | ok noisy =>
          have hquiet : linked' = linked ∧ noisy.quiet = assembly := by
            simpa [hnoisy, Except.map] using hassembly
          exact hquiet.2 ▸ noisy.hasComment_quiet

def greeting : Program where
  decls := [
    .var ⟨.int, ⟨"n", ⟨1, 5⟩, none⟩⟩,
    .fn ⟨.void, ⟨"main", ⟨2, 6⟩, none⟩, [⟨.int, ⟨"times", ⟨2, 15⟩, none⟩⟩], ⟨[], [
      .repeatLoop (.name ⟨"times", ⟨3, 11⟩, none⟩) ⟨[], [
        .increment (.name ⟨"n", ⟨4, 5⟩, none⟩),
        .write (.str "hi" ⟨5, 13⟩)]⟩]⟩⟩]

/-- Five lines and eleven comments behind operations go. -/
theorem greeting_without_comments : ∃ linked,
    greeting.compile { comments := true, entryPoint := "main" } =
      .ok (linked, .ok (greeting.code {})) ∧
    greeting.compile { comments := false, entryPoint := "main" } =
      .ok (linked, .ok (greeting.code {}).quiet) ∧
    (greeting.code {}).lines.countP Line.hasComment = 16 ∧
    (greeting.code {}).quiet.lines.countP Line.hasComment = 0 := by
  have hnoisy : greeting.compile { comments := true, entryPoint := "main" } =
      .ok ((greeting.linked {}).program, .ok (greeting.code {})) :=
    compile_of_check (by decide) (by decide) (by decide) rfl rfl rfl
  obtain ⟨hquiet, hcomments, _⟩ :=
    @compile_without_comments greeting "main" (by decide) (by decide)
  rw [hnoisy] at hquiet
  refine ⟨_, hnoisy, hquiet, by decide, ?_⟩
  rw [List.countP_eq_zero]
  intro line hline
  simp [hcomments _ _ hquiet line hline]

end Program

end StackMips
