import Mathlib.Data.List.Basic
import StackMips.Diagnostic.Excerpt
import StackMips.Text

/-!
# The caret of an excerpt

An excerpt shows a source line behind its number and a bar, and below it a caret.  The two lines
have the same margin, so the caret stands under the column of the diagnostic, whatever the width of
the number and whatever the line holds.
-/

namespace StackMips

/-! ## Lines of a text -/

namespace Text

/-- The text consists of these lines.  A line ends at a line feed or at a carriage return with a
line feed, and a line that ends at the end of the text is not empty.  What ends a line is not part
of it, while any other carriage return is. -/
inductive Lined : List Char → List (List Char) → Prop where
  | nil : Lined [] []
  | last {line : List Char} (hline : '\n' ∉ line) (hne : line ≠ []) : Lined line [line]
  | lf {line rest : List Char} {lines : List (List Char)} (hline : '\n' ∉ line)
      (hreturn : line.getLast? ≠ some '\r') (h : Lined rest lines) :
      Lined (line ++ '\n' :: rest) (line :: lines)
  | crlf {line rest : List Char} {lines : List (List Char)} (hline : '\n' ∉ line)
      (h : Lined rest lines) : Lined (line ++ '\r' :: '\n' :: rest) (line :: lines)

theorem Lined.newline_not_mem {text : List Char} {lines : List (List Char)} (h : Lined text lines) :
    ∀ line ∈ lines, '\n' ∉ line := by
  induction h with
  | nil => simp
  | last hline _ => simpa using hline
  | lf hline _ _ ih | crlf hline _ ih => exact List.forall_mem_cons.mpr ⟨hline, ih⟩

/-- A further character at the front belongs to the first line. -/
theorem Lined.cons {c : Char} {rest line : List Char} {lines : List (List Char)}
    (h : Lined rest (line :: lines)) (hc : c ≠ '\n')
    (hreturn : ∀ more, c = '\r' → rest ≠ '\n' :: more) :
    Lined (c :: rest) ((c :: line) :: lines) := by
  have hmem (hline : '\n' ∉ line) : '\n' ∉ c :: line := by simp [hc.symm, hline]
  cases h with
  | last hline _ => exact .last (hmem hline) (by simp)
  | lf hline hlast h =>
      refine .lf (hmem hline) ?_ h
      cases line with
      | nil =>
          intro hc
          exact hreturn _ (by simpa using hc) rfl
      | cons d line => rwa [List.getLast?_cons_cons]
  | crlf hline h => exact .crlf (hmem hline) h

theorem Lined.eq_nil_of_nil {text : List Char} (h : Lined text []) : text = [] := by
  cases h
  rfl

theorem lined_splitLines (text : List Char) : Lined text (splitLines text) := by
  fun_induction splitLines text with
  | case1 => exact .nil
  | case2 rest ih => exact .lf List.not_mem_nil (by simp) ih
  | case3 rest ih => exact .crlf List.not_mem_nil ih
  | case4 c rest hc hreturn hrest ih =>
      rw [hrest] at ih
      obtain rfl := ih.eq_nil_of_nil
      exact .last (by simpa using Ne.symm hc) (by simp)
  | case5 c rest hc hreturn line lines hrest ih =>
      rw [hrest] at ih
      exact ih.cons hc hreturn

theorem splitLines_append {line tail : List Char} (hne : line ≠ []) (hline : '\n' ∉ line)
    (hreturn : ∀ more, line.getLast? = some '\r' → tail ≠ '\n' :: more) :
    splitLines (line ++ tail) =
      (line ++ (splitLines tail).headD []) :: (splitLines tail).tail := by
  induction line with
  | nil => contradiction
  | cons c line ih =>
      obtain ⟨hc, hline⟩ := List.ne_and_not_mem_of_not_mem_cons hline
      cases line with
      | nil =>
          rw [List.singleton_append, splitLines.eq_4 _ _ hc.symm (by simpa using hreturn)]
          cases splitLines tail <;> rfl
      | cons d line =>
          obtain ⟨hd, -⟩ := List.ne_and_not_mem_of_not_mem_cons hline
          rw [List.getLast?_cons_cons] at hreturn
          rw [List.cons_append, splitLines.eq_4 _ _ hc.symm (by simp [hd.symm]),
            ih (by simp) hline hreturn]
          rfl

/-- Splitting gives the lines of the text, and no other division of the text is one into lines. -/
theorem lined_iff {text : List Char} {lines : List (List Char)} :
    Lined text lines ↔ lines = splitLines text := by
  constructor
  · intro h
    symm
    induction h with
    | nil => rfl
    | @last line hline hne =>
        have hsplit := splitLines_append hne hline fun _ _ => (List.cons_ne_nil _ _).symm
        simpa [splitLines] using hsplit
    | @lf line rest lines hline hreturn h ih =>
        by_cases hne : line = []
        · simp [hne, splitLines, ih]
        · rw [splitLines_append hne hline fun _ h => absurd h hreturn]
          simp [splitLines, ih]
    | @crlf line rest lines hline h ih =>
        by_cases hne : line = []
        · simp [hne, splitLines, ih]
        · rw [splitLines_append hne hline (by simp)]
          simp [splitLines, ih]
  · rintro rfl
    exact lined_splitLines text

theorem not_mem_toString_of_isDigit_eq_false {c : Char} (hc : c.isDigit = false) (n : Nat) :
    c ∉ (toString n).toList := by
  intro h
  rw [Nat.toString_eq_ofList_toDigits, String.toList_ofList] at h
  simp [Nat.isDigit_of_mem_toDigits (by decide) (by decide) h] at hc

end Text

/-! ## The caret -/

namespace Diagnostic

/-- The line below a numbered line has a bar under the bar and a caret under a column of what is
shown behind the bar, or where that column would be. -/
structure PointsAt (column : Nat) (shown numbered below : List Char) : Prop where
  /-- Besides blanks there are only the bar and the caret. -/
  marks : ∃ before between, below =
    List.replicate before ' ' ++ '|' :: (List.replicate between ' ' ++ ['^'])
  bar : below.idxOf '|' = numbered.idxOf '|'
  caret : below.idxOf '^' + shown.length + 1 = numbered.length + column
  under : numbered[below.idxOf '^']? = shown[column - 1]?

def marks (margin column : Nat) : List Char :=
  List.replicate margin ' ' ++ ' ' :: '|' :: ' ' :: (List.replicate (column - 1) ' ' ++ ['^'])

theorem idxOf_caret_marks (margin column : Nat) :
    (marks margin column).idxOf '^' = margin + (column - 1 + 3) := by
  have hblanks : (List.replicate (column - 1) ' ' ++ ['^']).idxOf '^' = column - 1 := by
    simp [List.idxOf_append]
  rw [marks, List.idxOf_append_of_notMem (by simp), List.length_replicate]
  simp [hblanks]

/-- A margin as wide as the number puts bar and caret in their places. -/
theorem pointsAt_marks {number : List Char} (hnumber : '|' ∉ number) (shown : List Char)
    {column : Nat} (hcolumn : 1 ≤ column) :
    PointsAt column shown (number ++ ' ' :: '|' :: ' ' :: shown) (marks number.length column) where
  marks := by
    refine ⟨number.length + 1, column - 1 + 1, ?_⟩
    rw [marks, List.replicate_succ' (n := number.length), List.replicate_succ]
    simp
  bar := by simp [marks, List.idxOf_append, hnumber]
  caret := by
    rw [idxOf_caret_marks]
    simp only [List.length_append, List.length_cons]
    omega
  under := by
    rw [idxOf_caret_marks, List.getElem?_append_right (Nat.le_add_right _ _),
      Nat.add_sub_cancel_left]
    rfl

/-! ## The lines of an excerpt -/

theorem headline_eq_line {diagnostic : Diagnostic} (hmessage : '\n' ∉ diagnostic.message.toList) :
    ∃ line, diagnostic.headline.toList = line ++ ['\n'] ∧ '\n' ∉ line := by
  unfold headline
  split
  · next code _ =>
      have hcode : '\n' ∉ code.render.toList := by cases code <;> decide
      refine ⟨("error[" ++ code.render ++ "]: " ++ diagnostic.message).toList, by simp, ?_⟩
      simp [hcode, hmessage]
  · refine ⟨("error: " ++ diagnostic.message).toList, by simp, ?_⟩
    simp [hmessage]

def place (diagnostic : Diagnostic) (file? : Option String) : String :=
  "  --> " ++ file?.getD "<input>" ++ ":" ++ diagnostic.pos.render

theorem newline_not_mem_place {diagnostic : Diagnostic} {file? : Option String}
    (hfile : ∀ file ∈ file?, '\n' ∉ file.toList) : '\n' ∉ (diagnostic.place file?).toList := by
  have hdigits := Text.not_mem_toString_of_isDigit_eq_false (c := '\n') rfl
  have hname : '\n' ∉ (file?.getD "<input>").toList := by
    cases file? with
    | none => decide
    | some file => exact hfile file rfl
  simp only [place, Pos.render, String.toList_append, List.mem_append, hname, hdigits, or_false]
  decide

/-- Behind the headline an excerpt has four lines. -/
theorem excerpt_eq_lines {diagnostic : Diagnostic} (source : String) (file? : Option String)
    (hline : 1 ≤ diagnostic.pos.line) (hwidth : diagnostic.pos.column ≤ 65536) :
    ∃ text, diagnostic.excerpt source file? = .ok text ∧
      text.toList = diagnostic.headline.toList ++
        [(diagnostic.place file?).toList,
          List.replicate (toString diagnostic.pos.line).toList.length ' ' ++ [' ', '|'],
          (toString diagnostic.pos.line).toList ++ ' ' :: '|' :: ' ' ::
            ((Text.splitLines source.toList)[diagnostic.pos.line - 1]?).getD [],
          marks (toString diagnostic.pos.line).toList.length diagnostic.pos.column].flatMap
            (· ++ ['\n']) := by
  have hsome : diagnostic.pos ≠ Pos.nowhere := by
    intro h
    rw [h] at hline
    cases hline
  have hpadding : ¬maxPadding < diagnostic.pos.column - 1 := by
    simp only [maxPadding]
    omega
  refine ⟨_, by rw [excerpt, if_neg hsome, if_neg hpadding], ?_⟩
  rw [String.length_toList]
  cases hshown : (Text.splitLines source.toList)[diagnostic.pos.line - 1]? <;>
    simp [place, Text.blanks, Text.lines, marks, hshown]

/-- The text has five lines.  The fourth shows the line of the source that the diagnostic points at,
behind its number, and the caret in the fifth is under the column of the diagnostic.  A line that
the source does not have is shown empty. -/
def Pinpoints (diagnostic : Diagnostic) (source text : String) : Prop :=
  ∃ lines first second third fourth fifth,
    text.toList = [first, second, third, fourth, fifth].flatMap (· ++ ['\n']) ∧
    (∀ line ∈ [first, second, third, fourth, fifth], '\n' ∉ line) ∧
    (∀ division, Text.Lined source.toList division ↔ division = lines) ∧
    fourth = (toString diagnostic.pos.line).toList ++ ' ' :: '|' :: ' ' ::
      (lines[diagnostic.pos.line - 1]?).getD [] ∧
    PointsAt diagnostic.pos.column ((lines[diagnostic.pos.line - 1]?).getD []) fourth fifth

/-- The caret points at the column. -/
theorem excerpt_pinpoints (diagnostic : Diagnostic) (source : String) (file? : Option String)
    (hline : 1 ≤ diagnostic.pos.line) (hcolumn : 1 ≤ diagnostic.pos.column)
    (hwidth : diagnostic.pos.column ≤ 65536) (hmessage : '\n' ∉ diagnostic.message.toList)
    (hfile : ∀ file ∈ file?, '\n' ∉ file.toList) :
    ∃ text, diagnostic.excerpt source file? = .ok text ∧ diagnostic.Pinpoints source text := by
  obtain ⟨text, htext, hchars⟩ := excerpt_eq_lines source file? hline hwidth
  obtain ⟨first, hfirst, hheadline⟩ := headline_eq_line hmessage
  have hbar := Text.not_mem_toString_of_isDigit_eq_false (c := '|') rfl diagnostic.pos.line
  have hdigits := Text.not_mem_toString_of_isDigit_eq_false (c := '\n') rfl diagnostic.pos.line
  have hshown : '\n' ∉ ((Text.splitLines source.toList)[diagnostic.pos.line - 1]?).getD [] := by
    cases hget : (Text.splitLines source.toList)[diagnostic.pos.line - 1]? with
    | none => simp
    | some line =>
        exact (Text.lined_iff.mpr rfl).newline_not_mem line (List.mem_of_getElem? hget)
  rw [hfirst] at hchars
  refine ⟨text, htext, _, first, _, _, _, _, hchars, ?_, fun _ => Text.lined_iff, rfl,
    pointsAt_marks hbar _ hcolumn⟩
  simp only [List.forall_mem_cons]
  refine ⟨hheadline, newline_not_mem_place hfile, by simp, ?_, ?_, by simp⟩
  · simp only [List.mem_append, List.mem_cons, hdigits, hshown]
    decide
  · simp [marks]

def stray : Diagnostic := .ofCode .undeclared ⟨10, 9⟩

/-- Nine ends of lines of either kind, and a last line without one. -/
def sprawl : String := "int ä;\n\n\r\n\n\r\n\n\n\n\x7d\r\nä = ü + x;\r"

/-- The caret under the tenth line takes the second digit of the number into account. -/
theorem stray_pinpoints :
    (1 ≤ stray.pos.line ∧ 1 ≤ stray.pos.column ∧ stray.pos.column ≤ 65536 ∧
      '\n' ∉ stray.message.toList ∧ ∀ file ∈ some "sprawl", '\n' ∉ file.toList) ∧
      ∃ text, stray.excerpt sprawl (some "sprawl") = .ok text ∧ stray.Pinpoints sprawl text :=
  ⟨by decide, excerpt_pinpoints stray sprawl (some "sprawl") (by decide) (by decide) (by decide)
    (by decide) (by decide)⟩

example : ((ofCode .undeclared ⟨2, 3⟩).excerpt "int ü;\r\nü+x;\n" none).toOption =
    some ("error[E200]: Undeclared identifier\n  --> <input>:2:3\n  |\n2 | ü+x;\n" ++
      "  |   ^\n") := by
  decide

end Diagnostic

end StackMips
