import StackMips.Mips.Assembly

/-!
# Lines in their places

What is said of a line of an assembly often depends on the lines before it and behind it.
-/

namespace StackMips.Mips.Line

/-- What holds of every line together with the lines before it and behind it. -/
def AtEach (P : List Line → Line → List Line → Prop) (lines : List Line) : Prop :=
  ∀ before line behind, lines = before ++ line :: behind → P before line behind

variable {P : List Line → Line → List Line → Prop}

theorem atEach_nil : AtEach P [] := by
  intro before line behind h
  simp at h

theorem atEach_append {a b : List Line} (ha : AtEach (fun before line behind =>
      P before line (behind ++ b)) a) (hb : AtEach (fun before => P (a ++ before)) b) :
    AtEach P (a ++ b) := by
  intro before line behind h
  rcases List.append_eq_append_iff.mp h with ⟨rest, rfl, hrest⟩ | ⟨rest, rfl, hrest⟩
  · exact hb rest line behind hrest
  · rcases List.cons_eq_append_iff.mp hrest with ⟨rfl, hbehind⟩ | ⟨rest, rfl, rfl⟩
    · simpa using hb [] line behind hbehind
    · exact ha before line rest rfl

theorem atEach_cons {line : Line} {lines : List Line} (hline : P [] line lines)
    (hlines : AtEach (fun before => P (line :: before)) lines) : AtEach P (line :: lines) := by
  intro before other behind h
  cases before with
  | nil =>
      cases h
      exact hline
  | cons first before =>
      cases h
      exact hlines before other behind rfl

theorem atEach_of_forall {lines : List Line}
    (h : ∀ line ∈ lines, ∀ before behind, P before line behind) : AtEach P lines := by
  rintro before line behind rfl
  exact h line (by simp) before behind

theorem AtEach.mono {Q : List Line → Line → List Line → Prop} {lines : List Line}
    (h : AtEach P lines) (hPQ : ∀ before line behind, P before line behind → Q before line behind) :
    AtEach Q lines :=
  fun before line behind hlines => hPQ before line behind (h before line behind hlines)

end StackMips.Mips.Line
