import Mathlib.Algebra.Order.BigOperators.Group.List
import Mathlib.Data.List.Basic
import StackMips.Text
import StackMips.Tree

/-!
# Readers

A reader takes a value off the front of a text.  It is meant for texts that have been printed, so it
has little to reject, but it has to find out where a value ends: a printed value is read back in
front of every text that is not mistaken for its continuation.
-/

namespace StackMips

/-- Takes a value off the front of a text and leaves the rest. -/
abbrev Reader (α : Type) := List Char → Option (α × List Char)

namespace Reader

variable {α β : Type}

/-- The reader takes the value off the text in front of every rest that can follow. -/
def Reads (reader : Reader α) (text : List Char) (value : α) (follows : List Char → Prop) : Prop :=
  ∀ rest, follows rest → reader (text ++ rest) = some (value, rest)

def Avoids (kind : Char → Bool) (text : List Char) : Prop :=
  ∀ c ∈ text.head?, kind c = false

def Begins (kind : Char → Bool) (text : List Char) : Prop :=
  ∃ c ∈ text.head?, kind c = true

instance (kind : Char → Bool) (text : List Char) : Decidable (Begins kind text) :=
  decidable_of_iff (text.head?.any kind) (by simp [Begins, Option.any_eq_true])

section

variable {kind : Char → Bool} {text rest : List Char}

@[simp] theorem avoids_nil : Avoids kind [] := by
  simp [Avoids]

@[simp] theorem avoids_cons {c : Char} : Avoids kind (c :: rest) ↔ kind c = false := by
  simp [Avoids]

theorem Avoids.mono {kind' : Char → Bool} (h : Avoids kind rest)
    (hkind : ∀ c, kind c = false → kind' c = false) : Avoids kind' rest :=
  fun c hc => hkind c (h c hc)

@[simp] theorem begins_cons {c : Char} : Begins kind (c :: rest) ↔ kind c = true := by
  simp [Begins]

theorem Begins.mono {kind' : Char → Bool} (h : Begins kind text)
    (hkind : ∀ c, kind c = true → kind' c = true) : Begins kind' text := by
  obtain ⟨c, hc, hkind'⟩ := h
  exact ⟨c, hc, hkind c hkind'⟩

theorem Begins.append (h : Begins kind text) (rest : List Char) : Begins kind (text ++ rest) := by
  cases text with
  | nil => simp [Begins] at h
  | cons c text => simpa using h

theorem Begins.avoids {kind' : Char → Bool} (h : Begins kind text)
    (hkind : ∀ c, kind c = true → kind' c = false) : Avoids kind' text := by
  obtain ⟨c, hc, hkind'⟩ := h
  intro d hd
  obtain rfl := Option.mem_unique hc hd
  exact hkind c hkind'

theorem Begins.avoids_append (h : Begins (fun c => !kind c) text) (rest : List Char) :
    Avoids kind (text ++ rest) :=
  (h.append rest).avoids fun _ hc => Bool.not_eq_true' _ ▸ hc

theorem Begins.ne_nil (h : Begins kind text) : text ≠ [] := by
  rintro rfl
  simp [Begins] at h

theorem takeWhile_append_of_avoids (htext : ∀ c ∈ text, kind c) (hrest : Avoids kind rest) :
    (text ++ rest).takeWhile kind = text := by
  have hnone : rest.takeWhile kind = [] := by
    cases rest <;> simp_all
  rw [List.takeWhile_append_of_pos htext, hnone, List.append_nil]

theorem dropWhile_append_of_avoids (htext : ∀ c ∈ text, kind c) (hrest : Avoids kind rest) :
    (text ++ rest).dropWhile kind = rest := by
  rw [List.dropWhile_append_of_pos htext]
  cases rest <;> simp_all

end

/-! ## Fixed texts -/

/-- What stands behind the fixed text. -/
def literal (text : String) (input : List Char) : Option (List Char) :=
  text.toList.isPrefixOf? input

def behind (text : String) (reader : Reader α) : Reader α :=
  fun input => (literal text input).bind reader

@[simp] theorem literal_append (text : String) (rest : List Char) :
    literal text (text.toList ++ rest) = some rest := by
  rw [literal]
  induction text.toList with
  | nil => rfl
  | cons c text ih => simp [List.isPrefixOf?, ih]

@[simp] theorem behind_append (text : String) (reader : Reader α) (rest : List Char) :
    behind text reader (text.toList ++ rest) = reader rest := by
  rw [behind, literal_append, Option.bind_some]

theorem Reads.behind {reader : Reader α} {text : List Char} {value : α} {follows : List Char → Prop}
    (h : reader.Reads text value follows) (before : String) :
    (behind before reader).Reads (before.toList ++ text) value follows := by
  intro rest hrest
  rw [List.append_assoc, behind_append, h rest hrest]

def skipBlanks (input : List Char) : List Char := input.dropWhile (· == ' ')

@[simp] theorem skipBlanks_blanks_append (n : Nat) {rest : List Char}
    (hrest : Avoids (· == ' ') rest) : skipBlanks ((Text.blanks n).toList ++ rest) = rest :=
  dropWhile_append_of_avoids (by simp [Text.blanks]) hrest

/-! ## Words -/

def isWordChar (c : Char) : Bool := c.isAlphanum || c == '_'

/-- The longest word at the front of the text: a name, a keyword or a number, or no character. -/
def word (input : List Char) : String × List Char :=
  (String.ofList (input.takeWhile isWordChar), input.dropWhile isWordChar)

theorem word_append {text : String} {rest : List Char} (htext : text.toList.all isWordChar)
    (hrest : Avoids isWordChar rest) : word (text.toList ++ rest) = (text, rest) := by
  rw [List.all_eq_true] at htext
  rw [word, takeWhile_append_of_avoids htext hrest, dropWhile_append_of_avoids htext hrest,
    String.ofList_toList]

theorem word_cons {c : Char} (hc : isWordChar c = false) (input : List Char) :
    word (c :: input) = ("", c :: input) := by
  simp [word, hc]

def keywords : List String :=
  ["int", "bool", "void", "struct", "true", "false", "if", "else", "while", "repeat", "return",
    "cin", "cout"]

/-- A name is a letter or an underscore, followed by letters, digits and underscores, but not a
keyword. -/
def isName (name : String) : Bool :=
  match name.toList with
  | [] => false
  | c :: cs => (c.isAlpha || c == '_') && cs.all isWordChar && name ∉ keywords

section

variable {name : String}

theorem not_mem_keywords_of_isName (h : isName name) : name ∉ keywords := by
  simp only [isName] at h
  split at h
  · cases h
  · simp_all

theorem isDigit_eq_false_of_isAlpha {c : Char} (h : c.isAlpha) : c.isDigit = false := by
  delta Char.isAlpha Char.isUpper Char.isLower at h
  delta Char.isDigit
  grind

theorem exists_cons_of_isName (h : isName name) :
    ∃ c cs, name.toList = c :: cs ∧ c.isDigit = false ∧ ∀ d ∈ c :: cs, isWordChar d := by
  simp only [isName] at h
  split at h
  · cases h
  · next c cs heq =>
      simp only [Bool.and_eq_true, Bool.or_eq_true, List.all_eq_true, beq_iff_eq] at h
      have hfirst : c.isDigit = false ∧ isWordChar c := by
        rcases h.1.1 with halpha | rfl
        · exact ⟨isDigit_eq_false_of_isAlpha halpha, by simp [isWordChar, Char.isAlphanum, halpha]⟩
        · decide
      exact ⟨c, cs, heq, hfirst.1, List.forall_mem_cons.mpr ⟨hfirst.2, h.1.2⟩⟩

theorem word_name_append (h : isName name) {rest : List Char} (hrest : Avoids isWordChar rest) :
    word (name.toList ++ rest) = (name, rest) := by
  obtain ⟨c, cs, hname, -, hchars⟩ := exists_cons_of_isName h
  exact word_append (List.all_eq_true.mpr (hname ▸ hchars)) hrest

end

/-! ## Repetition -/

/-- Reads values as long as another one begins, but at most `limit` of them. -/
def collect (next : List Char → Bool) (item : Reader α) : Nat → Reader (List α)
  | 0, input => some ([], input)
  | limit + 1, input =>
    if next input then do
      let (value, input) ← item input
      let (values, input) ← collect next item limit input
      return (value :: values, input)
    else some ([], input)

def many (next : List Char → Bool) (item : Reader α) : Reader (List α) :=
  fun input => collect next item input.length input

/-- Reads values between commas, and the parenthesis behind them. -/
def listing (item : Reader α) : Reader (List α) := fun input =>
  if input.head? = some ')' then some ([], input.tail)
  else do
    let (first, input) ← item input
    let (others, input) ← many (·.head? = some ',') (behind ", " item) input
    return (first :: others, ← literal ")" input)

section

variable {next : List Char → Bool} {item : Reader α} {text : β → List Char} {value : β → α}
  {follows : List Char → Prop} {xs : List β} {rest : List Char}

theorem collect_flatMap (hnext : ∀ x ∈ xs, ∀ rest, next (text x ++ rest))
    (hitem : ∀ x ∈ xs, item.Reads (text x) (value x) follows)
    (hfollows : ∀ x ∈ xs, ∀ rest, follows (text x ++ rest)) (hrest : follows rest)
    (hstop : next rest = false) {limit : Nat} (hlimit : xs.length ≤ limit) :
    collect next item limit (xs.flatMap text ++ rest) = some (xs.map value, rest) := by
  induction xs generalizing limit with
  | nil => cases limit <;> simp [collect, hstop]
  | cons x xs ih =>
      simp only [List.forall_mem_cons] at hnext hitem hfollows
      cases limit with
      | zero => simp at hlimit
      | succ limit =>
          have hx : follows (xs.flatMap text ++ rest) := by
            cases xs with
            | nil => exact hrest
            | cons y ys =>
                rw [List.flatMap_cons, List.append_assoc]
                exact hfollows.2 y (by simp) _
          rw [List.flatMap_cons, List.append_assoc, collect, if_pos (hnext.1 _), hitem.1 _ hx]
          simp [ih hnext.2 hitem.2 hfollows.2 (Nat.le_of_succ_le_succ hlimit)]

/-- A sequence of printed values is read back in front of a text with which none begins. -/
theorem many_flatMap (follows : List Char → Prop) (hnext : ∀ x ∈ xs, ∀ rest, next (text x ++ rest))
    (hitem : ∀ x ∈ xs, item.Reads (text x) (value x) follows)
    (hfollows : ∀ x ∈ xs, ∀ rest, follows (text x ++ rest)) (hrest : follows rest)
    (hstop : next rest = false) (hne : ∀ x ∈ xs, text x ≠ []) :
    many next item (xs.flatMap text ++ rest) = some (xs.map value, rest) := by
  have hlength : xs.length ≤ (xs.flatMap text).length := by
    rw [List.length_flatMap, ← List.length_map (fun x => (text x).length)]
    refine List.length_le_sum_of_one_le _ ?_
    simpa only [List.forall_mem_map, Nat.one_le_iff_ne_zero, ne_eq, List.length_eq_zero_iff]
      using hne
  refine collect_flatMap hnext hitem hfollows hrest hstop ?_
  rw [List.length_append]
  exact Nat.le_add_right_of_le hlength

theorem intercalate_cons (separator line : List Char) (lines : List (List Char)) :
    separator.intercalate (line :: lines) = line ++ lines.flatMap (separator ++ ·) := by
  induction lines generalizing line with
  | nil => simp
  | cons other lines ih => simp [List.intercalate_cons_cons, ih]

theorem length_le_length_intercalate (separator : List Char) {line : List Char}
    {lines : List (List Char)} (h : line ∈ lines) :
    line.length ≤ (separator.intercalate lines).length := by
  induction lines with
  | nil => cases h
  | cons first lines ih =>
      cases lines with
      | nil => simp_all
      | cons second lines =>
          rw [List.intercalate_cons_cons, List.length_append, List.length_append]
          rcases List.mem_cons.mp h with rfl | h
          · omega
          · have hrest := ih h
            omega

theorem listing_intercalate (hstart : ∀ x ∈ xs, ∀ rest, Avoids (· == ')') (text x ++ rest))
    (hitem : ∀ x ∈ xs, item.Reads (text x) (value x) follows)
    (hcomma : ∀ rest, follows (',' :: rest)) (hclose : ∀ rest, follows (')' :: rest))
    (rest : List Char) :
    listing item ([',', ' '].intercalate (xs.map text) ++ ')' :: rest) =
      some (xs.map value, rest) := by
  cases xs with
  | nil => simp [listing]
  | cons x xs =>
      simp only [List.forall_mem_cons] at hstart hitem
      set others := xs.flatMap (fun x => ',' :: ' ' :: text x) ++ ')' :: rest with hothers
      have hhead : ¬(text x ++ others).head? = some ')' := by
        intro h
        simpa using hstart.1 others ')' h
      have hfollows : follows others := by
        cases xs with
        | nil => exact hclose rest
        | cons y ys => exact hcomma _
      have hmany : many (·.head? = some ',') (behind ", " item) others =
          some (xs.map value, ')' :: rest) := by
        exact many_flatMap follows (by simp) (fun y hy => (hitem.2 y hy).behind ", ")
          (by simp [hcomma]) (hclose rest) rfl (by simp)
      have htext :
          [',', ' '].intercalate ((x :: xs).map text) ++ ')' :: rest = text x ++ others := by
        simp [intercalate_cons, hothers, List.flatMap_map]
      rw [htext, listing, if_neg hhead, hitem.1 others hfollows]
      simp only [Option.bind_eq_bind, Option.bind_some, hmany]
      rfl

end

end Reader

end StackMips
