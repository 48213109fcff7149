import StackMips.Proofs.Lines
import StackMips.Proofs.Lowering.PairedTrees
import StackMips.Proofs.Outcome

/-!
# Regions of an assembly

Code stands in the text region and storage in the data region.  Storage is met between functions and
in the middle of code: a global variable leaves the data region open, a text switches back to the
text region.  So the invariant between two declarations is weaker than the one inside a function,
and a function opens the text region by itself.
-/

namespace StackMips

open Mips

namespace Mips.Line

/-- The region where the line belongs: storage in the data region, all other operations and the
labels of code in the text region. -/
def home? : Line → Option Region
  | .op instr => some instr.operation.region
  | .label _ (some instr) => some instr.operation.region
  | .label _ none => some .text
  | .region _ | .comment _ => none

def switch? : Line → Option Region
  | .region target => some target
  | _ => none

def isComment : Line → Bool
  | .comment _ => true
  | _ => false

def regionAfter (lines : List Line) : Option Region :=
  (lines.filterMap switch?).getLast?

theorem regionAfter_append (a b : List Line) :
    regionAfter (a ++ b) = (regionAfter b).or (regionAfter a) := by
  rw [regionAfter, List.filterMap_append, List.getLast?_append]
  rfl

/-- A line in the region where it belongs.  A line that reserves storage comes right after the
alignment to a word, comments aside. -/
structure InPlace (before : List Line) (line : Line) : Prop where
  region : ∀ home, line.home? = some home → regionAfter before = some home
  aligned : ∀ instr bytes, line.instr? = some instr → instr.operation = .space bytes →
    ∃ align, (before.filter (!·.isComment)).getLast? = some (.op align) ∧
      align.operation = .align 2

def Sectioned (lines : List Line) : Prop :=
  AtEach (fun before line _ => InPlace before line) lines

variable {before : List Line} {line : Line}

/-- A line of code, a comment or a switch has its place where the text region is open. -/
theorem inPlace_of_text (hregion : regionAfter before = some .text)
    (hline : ∀ home, line.home? = some home → home = .text) : line.InPlace before where
  region home hhome := hregion.trans (congrArg some (hline home hhome).symm)
  aligned instr bytes hinstr hspace := by
    have hhome : line.home? = some instr.operation.region := by
      cases line with
      | op other => exact congrArg (Option.map (·.operation.region)) hinstr
      | label name instr? =>
          obtain rfl : instr? = some instr := hinstr
          rfl
      | region target => cases hinstr
      | comment text => cases hinstr
    have htext := hline _ hhome
    rw [hspace] at htext
    cases htext

theorem inPlace_region (before : List Line) (target : Region) :
    InPlace before (.region target) where
  region home hhome := by cases hhome
  aligned instr bytes hinstr := by cases hinstr

theorem Sectioned.append {a b : List Line} (ha : Sectioned a)
    (hb : AtEach (fun before line _ => InPlace (a ++ before) line) b) : Sectioned (a ++ b) :=
  atEach_append ha hb

theorem Sectioned.concat {a : List Line} (ha : Sectioned a) (hline : line.InPlace a) :
    Sectioned (a ++ [line]) :=
  ha.append (atEach_cons (by rwa [List.append_nil]) atEach_nil)

theorem sectioned_code {a : List Line} (h : Sectioned a ∧ regionAfter a = some .text)
    (hline : ∀ home, line.home? = some home → home = .text) (hswitch : line.switch? = none) :
    Sectioned (a ++ [line]) ∧ regionAfter (a ++ [line]) = some .text := by
  refine ⟨h.1.concat (inPlace_of_text h.2 hline), ?_⟩
  rw [regionAfter_append, h.2, regionAfter, List.filterMap_cons_none hswitch]
  rfl

theorem Sectioned.stored {a : List Line} (h : Sectioned a) (name : Label) (text : String) :
    Sectioned (a ++ storingText name text) ∧
      regionAfter (a ++ storingText name text) = some .text := by
  have hstored : InPlace (a ++ [.region .data])
      (.label name (some { operation := .asciiz text })) := by
    constructor
    · intro home hhome
      rw [regionAfter_append]
      exact hhome
    · intro instr bytes hinstr hspace
      cases hinstr
      cases hspace
  refine ⟨h.append (atEach_cons (inPlace_region _ _) (atEach_cons hstored
    (atEach_cons (inPlace_region _ _) atEach_nil))), ?_⟩
  rw [regionAfter_append]
  rfl

/-- Storage of a global variable. -/
theorem Sectioned.global {a : List Line} (h : Sectioned a) (options : Options) (name : Label) :
    Sectioned (a ++ options.globalLines name) := by
  have hopen : regionAfter (a ++ [.region .data]) = some .data := by
    rw [regionAfter_append]
    rfl
  have halign : InPlace (a ++ [.region .data])
      (.op (options.instr (.align 2) "align on a word boundary")) := by
    constructor
    · intro home hhome
      exact hopen.trans hhome
    · intro instr bytes hinstr hspace
      cases hinstr
      cases hspace
  have hspace : InPlace (a ++ [.region .data,
      .op (options.instr (.align 2) "align on a word boundary")])
      (.label name (some { operation := .space wordSize })) := by
    constructor
    · intro home hhome
      rw [regionAfter_append]
      exact hhome
    · intro instr bytes _ _
      refine ⟨options.instr (.align 2) "align on a word boundary", ?_, rfl⟩
      rw [List.filter_append, List.getLast?_append]
      rfl
  exact h.append (atEach_cons (inPlace_region _ _) (atEach_cons halign
    (atEach_cons hspace atEach_nil)))

end Mips.Line

def Pairing.sectioned (context : Context) : Pairing where
  left := context
  right := context
  exchange := fun id => id
  between a _ := Line.Sectioned a
  inside a _ := Line.Sectioned a ∧ Line.regionAfter a = some .text
  faults := Eq
  entryPoint := rfl
  pos_exchange := Pairing.pos_self
  faults_refl := Eq.refl
  faults_exprDepth := Pairing.exprDepth_self
  faults_noAddress := Pairing.noAddress_self
  op h ho := Line.sectioned_code h (by rintro _ ⟨⟩; exact ho) rfl
  opWith _ h ho := Line.sectioned_code h (by rintro _ ⟨⟩; exact ho) rfl
  note text h := by
    rw [Options.note]
    split
    · exact Line.sectioned_code h (by rintro _ ⟨⟩) rfl
    · rwa [List.append_nil]
  label _ h := Line.sectioned_code h (by rintro _ ⟨⟩; rfl) rfl
  stored name text h := h.1.stored name text
  enter h := ⟨h.concat (Line.inPlace_region _ _), by rw [Line.regionAfter_append]; rfl⟩
  leave h := h.1
  global name h := h.global _ name

theorem Generator.sectioned_of_finish {context : Context} {program : Program} {assembly : Assembly}
    (h : Generator.finish { context } program = .ok assembly) : Line.Sectioned assembly.lines := by
  have hmatches := fun decl (_ : decl ∈ program.decls) =>
    Pairing.matchesDecl_self (p := .sectioned context) rfl rfl decl
  have hfinished := Pairing.finished hmatches Line.atEach_nil rfl rfl
  rw [show (Pairing.sectioned context).left = context from rfl, h] at hfinished
  generalize Generator.finish _ _ = result at hfinished
  cases hfinished with
  | ok lines => exact lines

namespace Program

/-- An assembly is what code generation makes of the analyzed program. -/
theorem finish_of_compile {program linked : Program} {options : Options} {assembly : Assembly}
    (h : program.compile options = .ok (linked, .ok assembly)) :
    ∃ resolved, program.analyze { options } = .done resolved [] ∧ linked = resolved.program ∧
      Generator.finish { context := resolved.context } resolved.program = .ok assembly := by
  rw [compile] at h
  cases hanalyze : program.analyze { options } with
  | stopped fault => simp [hanalyze] at h
  | done resolved reports =>
      cases reports with
      | cons report reports => simp [hanalyze] at h
      | nil =>
          rw [hanalyze] at h
          cases hfinish : Generator.finish { context := resolved.context } resolved.program with
          | error stop => cases stop <;> simp [hfinish] at h
          | ok other =>
              simp only [hfinish, Except.ok.injEq, Prod.mk.injEq] at h
              exact ⟨resolved, rfl, h.1.symm, by rw [hfinish, h.2]⟩

/-- Every line of an assembly stands in the region where it belongs, and every word that is reserved
is aligned. -/
theorem compile_sectioned {program linked : Program} {options : Options} {assembly : Assembly}
    (h : program.compile options = .ok (linked, .ok assembly)) :
    Line.AtEach (fun before line _ => line.InPlace before) assembly.lines := by
  obtain ⟨resolved, _, _, hfinish⟩ := finish_of_compile h
  exact Generator.sectioned_of_finish hfinish

def postscript : Program where
  decls := [
    .var ⟨.int, ⟨"first", ⟨1, 5⟩, none⟩⟩,
    .fn ⟨.void, ⟨"main", ⟨2, 6⟩, none⟩, [], ⟨[], [.write (.str "text" ⟨3, 11⟩)]⟩⟩,
    .var ⟨.bool, ⟨"last", ⟨5, 6⟩, none⟩⟩]

theorem postscript_sectioned : ∃ linked,
    postscript.compile {} = .ok (linked, .ok (postscript.code {})) ∧
    (postscript.code {}).lines.filterMap Line.switch? = [.data, .text, .data, .text, .data] ∧
    Line.AtEach (fun before line _ => line.InPlace before) (postscript.code {}).lines := by
  have hcompile : postscript.compile {} =
      .ok ((postscript.linked {}).program, .ok (postscript.code {})) :=
    compile_of_check (by decide) (by decide) (by decide) rfl rfl rfl
  exact ⟨_, hcompile, by decide, compile_sectioned hcompile⟩

end Program

end StackMips
