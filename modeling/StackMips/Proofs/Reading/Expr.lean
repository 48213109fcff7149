import StackMips.Proofs.Lowering.Literals
import StackMips.Proofs.Reading.Reader
import StackMips.Proofs.Tree.Bare

/-!
# Reading expressions

A printed expression is read back.  An access to a field is printed without parentheses, so an
expression is read as a head and the fields behind it.  What makes reading less than obvious is the
minus sign: behind a parenthesis it can begin an operation of sign, and it can belong to a number
that is the left operand of another operation.  The two are told apart by what stands behind the
number and its fields.
-/

namespace StackMips

open Reader

/-! ## The readers -/

namespace UnaryOp

def sign : UnaryOp → Char
  | .neg => '-'
  | .not => '!'

@[simp] theorem toList_render (op : UnaryOp) : op.render.toList = [op.sign] := by
  cases op <;> rfl

end UnaryOp

namespace BinaryOp

def all : List BinaryOp :=
  [.add, .sub, .mul, .div, .and, .or, .eq, .ne, .lt, .gt, .le, .ge]

def ofText? (text : String) : Option BinaryOp := all.find? (·.render == text)

theorem ofText?_render (op : BinaryOp) : ofText? op.render = some op := by
  cases op <;> decide

end BinaryOp

namespace Ident

def ofName (name : String) : Ident := ⟨name, Pos.nowhere, none⟩

@[simp] theorem ofName_name (id : Ident) : ofName id.name = id.bare := rfl

def reader : Reader Ident := fun input => some (ofName (word input).1, (word input).2)

theorem reader_name {id : Ident} (hid : isName id.name) :
    reader.Reads id.name.toList id.bare (Avoids isWordChar) := by
  intro rest hrest
  rw [reader, word_name_append hid hrest, ofName_name]

end Ident

/-- The identifiers are names, and no string literal contains the quote that ends it. -/
structure Spelling (idents : List Ident) (texts : List String) : Prop where
  names : ∀ id ∈ idents, isName id.name
  texts : ∀ text ∈ texts, '"' ∉ text.toList

namespace Spelling

instance (idents : List Ident) (texts : List String) : Decidable (Spelling idents texts) :=
  decidable_of_iff
    ((∀ id ∈ idents, isName id.name) ∧ ∀ text ∈ texts, '"' ∉ text.toList)
    ⟨fun h => ⟨h.1, h.2⟩, fun h => ⟨h.names, h.texts⟩⟩

theorem append_iff {idents idents' : List Ident} {texts texts' : List String} :
    Spelling (idents ++ idents') (texts ++ texts') ↔
      Spelling idents texts ∧ Spelling idents' texts' := by
  constructor
  · rintro ⟨hnames, htexts⟩
    rw [List.forall_mem_append] at hnames htexts
    exact ⟨⟨hnames.1, htexts.1⟩, hnames.2, htexts.2⟩
  · rintro ⟨h, h'⟩
    exact ⟨List.forall_mem_append.mpr ⟨h.names, h'.names⟩,
      List.forall_mem_append.mpr ⟨h.texts, h'.texts⟩⟩

theorem flatMap_iff {α : Type} {xs : List α} {idents : α → List Ident} {texts : α → List String} :
    Spelling (xs.flatMap idents) (xs.flatMap texts) ↔
      ∀ x ∈ xs, Spelling (idents x) (texts x) := by
  constructor
  · intro h x hx
    exact ⟨List.forall_mem_flatMap.mp h.names x hx, List.forall_mem_flatMap.mp h.texts x hx⟩
  · intro h
    exact ⟨List.forall_mem_flatMap.mpr fun x hx => (h x hx).names,
      List.forall_mem_flatMap.mpr fun x hx => (h x hx).texts⟩

end Spelling

namespace Expr

/-- The text does not go on with what stands in front of it, unless that has a field. -/
abbrev HeadStops : List Char → Prop := Avoids fun c => isWordChar c || c == '('

abbrev Stops : List Char → Prop := Avoids fun c => isWordChar c || c == '(' || c == '.'

def ofDigits (sign : Int) (digits : String) : Expr :=
  .int (Int32.ofInt (sign * Nat.ofDigitChars 10 digits.toList 0)) Pos.nowhere

/-- The operation with this symbol; an assignment is printed like an operation. -/
def ofSymbol? (symbol : String) (left right : Expr) : Option Expr :=
  if symbol = "=" then some (.assign left right)
  else (BinaryOp.ofText? symbol).map (.binary · left right)

def readUnary (inner : Reader Expr) (op : UnaryOp) : Reader Expr := behind op.render fun input => do
  let (operand, input) ← inner input
  return (.unary op operand, ← literal ")" input)

def readOperation (inner : Reader Expr) : Reader Expr := fun input => do
  let (left, input) ← inner input
  let input ← literal " " input
  let symbol := String.ofList (input.takeWhile (· != ' '))
  let (right, input) ← behind " " inner (input.dropWhile (· != ' '))
  let e ← ofSymbol? symbol left right
  return (e, ← literal ")" input)

/-- Reads what does not begin with a word. -/
def readMarked (inner : Reader Expr) : Reader Expr
  | '"' :: input => do
    let input' ← literal "\"" (input.dropWhile (· != '"'))
    return (.str (String.ofList (input.takeWhile (· != '"'))) Pos.nowhere, input')
  | '-' :: input => some (ofDigits (-1) (word input).1, (word input).2)
  | '(' :: input =>
    -- a minus sign that belongs to the left operand is no sign: its number is not closed at once
    (readUnary inner .not input).or ((readUnary inner .neg input).or (readOperation inner input))
  | _ => none

def readHead (inner : Reader Expr) : Reader Expr := fun input =>
  let (first, rest) := word input
  if first = "" then readMarked inner input
  else if first = "true" then some (.bool true Pos.nowhere, rest)
  else if first = "false" then some (.bool false Pos.nowhere, rest)
  else if first.toList.all Char.isDigit then some (ofDigits 1 first, rest)
  else if rest.head? = some '(' then do
    let (args, rest) ← listing inner rest.tail
    return (.call (.ofName first) args, rest)
  else some (.name (.ofName first), rest)

/-- Reads an expression that is nested at most so deep. -/
def readAt : Nat → Reader Expr
  | 0, _ => none
  | depth + 1, input => do
    let (head, input) ← readHead (readAt depth) input
    let (fields, input) ← many (·.head? = some '.') (behind "." Ident.reader) input
    return (fields.foldl .field head, input)

def reader : Reader Expr := fun input => readAt input.length input

def Spelled (e : Expr) : Prop := Spelling e.idents e.texts

/-! ## Printed expressions -/

theorem toList_render_field (base : Expr) (id : Ident) :
    (field base id).render.toList = base.render.toList ++ '.' :: id.name.toList := by
  simp [render]

theorem toList_render_unary (op : UnaryOp) (operand : Expr) :
    (unary op operand).render.toList = '(' :: op.sign :: (operand.render.toList ++ [')']) := by
  simp [render]

theorem toList_render_call (callee : Ident) (args : List Expr) :
    (call callee args).render.toList = callee.name.toList ++
      '(' :: ([',', ' '].intercalate (args.map fun arg => arg.render.toList) ++ [')']) := by
  simp [render, Function.comp_def]

/-! ## Words and numbers -/

variable {inner : Reader Expr} {rest : List Char}

theorem HeadStops.word (h : HeadStops rest) : Avoids isWordChar rest :=
  h.mono fun _ hc => (Bool.or_eq_false_iff.mp hc).1

theorem HeadStops.head?_ne (h : HeadStops rest) : ¬rest.head? = some '(' := by
  intro hopen
  simpa using h '(' hopen

theorem Stops.head (h : Stops rest) : HeadStops rest :=
  h.mono fun _ hc => (Bool.or_eq_false_iff.mp hc).1

theorem toList_repr (n : Nat) : n.repr.toList = Nat.toDigits 10 n := by
  rw [Nat.repr_eq_ofList_toDigits, String.toList_ofList]

theorem toList_toString_negSucc (n : Nat) :
    (toString (Int.negSucc n)).toList = '-' :: (n + 1).repr.toList := by
  simp [toString, Int.repr]

theorem isDigit_of_mem_repr {n : Nat} {c : Char} (h : c ∈ n.repr.toList) : c.isDigit := by
  rw [toList_repr] at h
  exact Nat.isDigit_of_mem_toDigits (by decide) (by decide) h

theorem all_isDigit_repr (n : Nat) : n.repr.toList.all Char.isDigit :=
  List.all_eq_true.mpr fun _ => isDigit_of_mem_repr

theorem isWordChar_of_isDigit {c : Char} (h : c.isDigit) : isWordChar c := by
  simp [isWordChar, Char.isAlphanum, h]

theorem word_repr_append (n : Nat) (hrest : Avoids isWordChar rest) :
    word (n.repr.toList ++ rest) = (n.repr, rest) :=
  word_append (List.all_eq_true.mpr fun _ hc => isWordChar_of_isDigit (isDigit_of_mem_repr hc))
    hrest

theorem ofDigits_repr (sign : Int) (n : Nat) :
    ofDigits sign n.repr = .int (Int32.ofInt (sign * n)) Pos.nowhere := by
  rw [ofDigits, toList_repr, Nat.ofDigitChars_ten_toDigits]

theorem readHead_repr (n : Nat) :
    (readHead inner).Reads n.repr.toList (.int (Int32.ofInt n) Pos.nowhere) HeadStops := by
  intro rest hrest
  have hempty : n.repr ≠ "" := by
    intro h
    have hdigits := toList_repr n
    rw [h] at hdigits
    exact Nat.toDigits_ne_nil hdigits.symm
  have hdigits := all_isDigit_repr n
  have hne {text : String} (htext : ¬text.toList.all Char.isDigit) : n.repr ≠ text := by
    rintro rfl
    exact htext hdigits
  simp only [readHead, word_repr_append n hrest.word]
  rw [if_neg hempty, if_neg (hne (by decide)), if_neg (hne (by decide)), if_pos hdigits,
    ofDigits_repr, Int.one_mul]

theorem readHead_cons {c : Char} (hc : isWordChar c = false) (input : List Char) :
    readHead inner (c :: input) = readMarked inner (c :: input) := by
  rw [readHead, word_cons hc]
  rfl

theorem readHead_int (value : Int32) (pos : Pos) :
    (readHead inner).Reads (render (.int value pos)).toList (bare (.int value pos)) HeadStops := by
  intro rest hrest
  have hofInt := Int32.ofInt_toInt value
  rw [render, bare]
  cases hvalue : value.toInt with
  | ofNat n =>
      rw [hvalue] at hofInt
      exact (readHead_repr n rest hrest).trans (by rw [← hofInt]; rfl)
  | negSucc n =>
      rw [toList_toString_negSucc, List.cons_append, readHead_cons rfl, readMarked,
        word_repr_append _ hrest.word, ofDigits_repr, Int.neg_one_mul, ← hofInt, hvalue]
      rfl

theorem readHead_str {text : String} (htext : '"' ∉ text.toList) (pos : Pos) :
    (readHead inner).Reads (render (.str text pos)).toList (bare (.str text pos)) HeadStops := by
  intro rest hrest
  have hkind : ∀ c ∈ text.toList, (c != '"') = true := by
    intro c hc
    simpa using ne_of_mem_of_not_mem hc htext
  have hstop : Avoids (· != '"') ('"' :: rest) := by simp
  have htext : (render (.str text pos)).toList ++ rest = '"' :: (text.toList ++ '"' :: rest) := by
    simp [render]
  rw [htext, readHead_cons rfl, readMarked, takeWhile_append_of_avoids hkind hstop,
    dropWhile_append_of_avoids hkind hstop, String.ofList_toList]
  rfl

theorem word_bool_append (value : Bool) (pos : Pos) (hrest : Avoids isWordChar rest) :
    word ((render (.bool value pos)).toList ++ rest) = (render (.bool value pos), rest) := by
  refine word_append ?_ hrest
  rw [render]
  cases value <;> decide

theorem readHead_bool (value : Bool) (pos : Pos) :
    (readHead inner).Reads (render (.bool value pos)).toList (bare (.bool value pos))
      HeadStops := by
  intro rest hrest
  simp only [readHead, word_bool_append value pos hrest.word]
  cases value <;> rfl

/-- A word that is a name is a callee if a parenthesis follows. -/
theorem readHead_word {name : String} (hname : isName name) (hrest : Avoids isWordChar rest) :
    readHead inner (name.toList ++ rest) =
      if rest.head? = some '(' then
        (listing inner rest.tail).map fun (args, rest) => (.call (.ofName name) args, rest)
      else some (.name (.ofName name), rest) := by
  have hkeyword := not_mem_keywords_of_isName hname
  obtain ⟨c, cs, hchars, hdigit, -⟩ := exists_cons_of_isName hname
  have hempty : name ≠ "" := by
    rintro rfl
    cases hchars
  have hdigits : ¬name.toList.all Char.isDigit := by
    simp [hchars, hdigit]
  simp only [readHead, word_name_append hname hrest]
  rw [if_neg hempty, if_neg (by rintro rfl; exact hkeyword (by decide)),
    if_neg (by rintro rfl; exact hkeyword (by decide)), if_neg hdigits]
  congr 1
  cases listing inner rest.tail <;> rfl

theorem readHead_name {id : Ident} (hid : isName id.name) :
    (readHead inner).Reads (render (.name id)).toList (bare (.name id)) HeadStops := by
  intro rest hrest
  rw [render, readHead_word hid hrest.word, if_neg hrest.head?_ne]
  rfl

theorem readHead_call {callee : Ident} {args : List Expr} (hcallee : isName callee.name)
    (hargs : ∀ arg ∈ args, inner.Reads arg.render.toList arg.bare Stops)
    (hstart : ∀ arg ∈ args, ∀ rest, Avoids (· == ')') (arg.render.toList ++ rest)) :
    (readHead inner).Reads (render (.call callee args)).toList (bare (.call callee args))
      HeadStops := by
  intro rest hrest
  have htext : (render (.call callee args)).toList ++ rest = callee.name.toList ++
      '(' :: ([',', ' '].intercalate (args.map fun arg => arg.render.toList) ++ ')' :: rest) := by
    simp [toList_render_call]
  rw [htext, readHead_word hcallee (by simp [isWordChar]), List.head?_cons, if_pos rfl,
    List.tail_cons, listing_intercalate hstart hargs (by simp [isWordChar]) (by simp [isWordChar])]
  simp [bare]

/-! ## Beginnings -/

def opens (c : Char) : Bool := isWordChar c || c == '"' || c == '(' || c == '-'

theorem avoids_of_opens (c : Char) (hc : opens c = false) {text : List Char}
    (h : Begins opens text) : Avoids (· == c) text := by
  refine h.avoids fun d hd => ?_
  rw [beq_eq_false_iff_ne]
  rintro rfl
  simp_all

theorem begins_repr (n : Nat) : Begins Char.isDigit n.repr.toList := by
  cases hdigits : n.repr.toList with
  | nil => exact absurd ((toList_repr n).symm.trans hdigits) Nat.toDigits_ne_nil
  | cons c cs =>
      rw [begins_cons]
      exact isDigit_of_mem_repr (hdigits ▸ List.mem_cons_self)

theorem begins_name {name : String} (h : isName name) : Begins isWordChar name.toList := by
  obtain ⟨c, cs, hname, -, hchars⟩ := exists_cons_of_isName h
  simpa [hname] using hchars c (by simp)

theorem begins_render {e : Expr} (hnames : ∀ id ∈ e.idents, isName id.name) :
    Begins opens e.render.toList := by
  induction e using Expr.induction with
  | int value pos =>
      rw [render]
      cases value.toInt with
      | ofNat n => exact (begins_repr n).mono fun c hc => by simp [opens, isWordChar_of_isDigit hc]
      | negSucc n => rw [toList_toString_negSucc, begins_cons]; rfl
  | bool value pos => cases value <;> simp [render, opens, isWordChar]
  | name id =>
      exact (begins_name (hnames id (by simp [idents]))).mono fun c hc => by simp [opens, hc]
  | field base id ih =>
      simp only [idents, List.forall_mem_append] at hnames
      rw [toList_render_field]
      exact (ih hnames.1).append _
  | call callee args ih =>
      have hcallee := (begins_name (hnames callee (by simp [idents]))).mono fun c hc =>
        show opens c = true by simp [opens, hc]
      rw [toList_render_call]
      exact hcallee.append _
  | str _ _ | assign _ _ _ _ | unary _ _ _ | binary _ _ _ _ _ => simp [render, opens]

def path (fields : List Ident) : List Char := fields.flatMap fun id => '.' :: id.name.toList

/-- Only a negative number, perhaps with fields behind it, begins with a minus sign. -/
theorem exists_number_of_minus {e : Expr} (hnames : ∀ id ∈ e.idents, isName id.name)
    {text : List Char} (h : e.render.toList = '-' :: text) :
    ∃ (n : Nat) (fields : List Ident), (∀ id ∈ fields, isName id.name) ∧
      text = n.repr.toList ++ path fields := by
  induction e using Expr.induction generalizing text with
  | int value pos =>
      rw [render] at h
      cases hvalue : value.toInt with
      | ofNat n =>
          rw [hvalue] at h
          have hbegins := begins_repr n
          rw [show n.repr.toList = '-' :: text from h] at hbegins
          simp at hbegins
      | negSucc n =>
          rw [hvalue, toList_toString_negSucc] at h
          exact ⟨n + 1, [], by simp, by simpa [path] using (List.cons.inj h).2.symm⟩
  | str text pos => simp [render] at h
  | bool value pos => cases value <;> simp [render] at h
  | name id =>
      have hbegins := begins_name (hnames id (by simp [idents]))
      rw [show id.name.toList = '-' :: text from h] at hbegins
      simp [isWordChar] at hbegins
  | field base id ih =>
      simp only [idents, List.forall_mem_append, List.forall_mem_singleton] at hnames
      have hne := (begins_render hnames.1).ne_nil
      obtain ⟨c, inside, hbase⟩ := List.exists_cons_of_ne_nil hne
      rw [toList_render_field, hbase] at h
      obtain ⟨rfl, rfl⟩ := List.cons.inj h
      obtain ⟨n, fields, hfields, rfl⟩ := ih hnames.1 hbase
      refine ⟨n, fields ++ [id], ?_, by simp [path]⟩
      exact List.forall_mem_append.mpr ⟨hfields, List.forall_mem_singleton.mpr hnames.2⟩
  | call callee args ih =>
      have hbegins := (begins_name (hnames callee (by simp [idents]))).append
        ('(' :: ([',', ' '].intercalate (args.map fun arg => arg.render.toList) ++ [')']))
      rw [← toList_render_call, h] at hbegins
      simp [isWordChar] at hbegins
  | assign _ _ _ _ | unary _ _ _ | binary _ _ _ _ _ => simp [render] at h

/-! ## Operations -/

theorem readUnary_append (op : UnaryOp) {text : List Char} {value : Expr}
    (h : inner.Reads text value Stops) (rest : List Char) :
    readUnary inner op (op.sign :: (text ++ ')' :: rest)) = some (.unary op value, rest) := by
  have hinner := h (')' :: rest) (by simp [isWordChar])
  simp [readUnary, behind, literal, List.isPrefixOf?, hinner]

theorem readUnary_of_avoids (op : UnaryOp) {input : List Char} (h : Avoids (· == op.sign) input) :
    readUnary inner op input = none := by
  have hliteral : literal op.render input = none := by
    cases input with
    | nil => simp [literal, List.isPrefixOf?]
    | cons c input =>
        have hc : op.sign ≠ c := Ne.symm (by simpa using h)
        simp [literal, List.isPrefixOf?, hc]
  rw [readUnary, behind, hliteral, Option.bind_none]

theorem readOperation_append {symbol : String} (hsymbol : ' ' ∉ symbol.toList)
    {left right : List Char} {leftValue rightValue : Expr}
    (hleft : inner.Reads left leftValue Stops) (hright : inner.Reads right rightValue Stops)
    (rest : List Char) :
    readOperation inner (left ++ ' ' :: (symbol.toList ++ ' ' :: (right ++ ')' :: rest))) =
      (ofSymbol? symbol leftValue rightValue).map (·, rest) := by
  have hkind : ∀ c ∈ symbol.toList, (c != ' ') = true := by
    intro c hc
    simpa using ne_of_mem_of_not_mem hc hsymbol
  have hstop : Avoids (· != ' ') (' ' :: (right ++ ')' :: rest)) := by simp
  have hleft' := hleft (' ' :: (symbol.toList ++ ' ' :: (right ++ ')' :: rest)))
    (by simp [isWordChar])
  have hright' := hright (')' :: rest) (by simp [isWordChar])
  have hblank (input : List Char) : literal " " (' ' :: input) = some input := rfl
  simp only [readOperation, hleft', Option.bind_eq_bind, Option.bind_some, hblank, behind, hright',
    takeWhile_append_of_avoids hkind hstop, dropWhile_append_of_avoids hkind hstop,
    String.ofList_toList]
  cases ofSymbol? symbol leftValue rightValue <;> rfl

/-- Behind a number and its fields comes the blank before the symbol of an operation, and not the
parenthesis that would close an operation of sign. -/
theorem readUnary_number {left : List Char} {value : Expr} (h : inner.Reads left value Stops)
    (op : UnaryOp) (rest : List Char) :
    readUnary inner op (op.sign :: (left ++ ' ' :: rest)) = none := by
  have hinner := h (' ' :: rest) (by simp [isWordChar])
  simp [readUnary, behind, literal, List.isPrefixOf?, hinner]

def ReadsNumbers (inner : Reader Expr) : Prop :=
  ∀ (n : Nat) (fields : List Ident), (∀ id ∈ fields, isName id.name) →
    ∃ value, inner.Reads (n.repr.toList ++ path fields) value Stops

/-- No sign is read where the left operand of an operation stands. -/
theorem readUnary_left {left : Expr} (hnames : ∀ id ∈ left.idents, isName id.name)
    (hnumbers : ReadsNumbers inner) (op : UnaryOp) (rest : List Char) :
    readUnary inner op (left.render.toList ++ ' ' :: rest) = none := by
  obtain ⟨c, hc, hopens⟩ := begins_render hnames
  obtain ⟨text, htext⟩ := List.head?_eq_some_iff.mp hc
  rw [htext, List.cons_append]
  by_cases hsign : c = op.sign
  · cases op with
    | not =>
        subst hsign
        exact absurd hopens (by decide)
    | neg =>
        obtain ⟨n, fields, hfields, rfl⟩ := exists_number_of_minus hnames (hsign ▸ htext)
        obtain ⟨value, hvalue⟩ := hnumbers n fields hfields
        rw [hsign]
        exact readUnary_number hvalue .neg rest
  · exact readUnary_of_avoids op (by simpa using hsign)

/-- Operations and assignments are read back. -/
theorem readHead_operation {symbol : String} (hsymbol : ' ' ∉ symbol.toList)
    {left right value : Expr} (hnames : ∀ id ∈ left.idents, isName id.name)
    (hnumbers : ReadsNumbers inner)
    (hleft : inner.Reads left.render.toList left.bare Stops)
    (hright : inner.Reads right.render.toList right.bare Stops)
    (hvalue : ofSymbol? symbol left.bare right.bare = some value) (rest : List Char) :
    readHead inner ('(' :: (left.render.toList ++ ' ' :: (symbol.toList ++
      ' ' :: (right.render.toList ++ ')' :: rest)))) = some (value, rest) := by
  rw [readHead_cons rfl, readMarked, readUnary_left hnames hnumbers, Option.none_or,
    readUnary_left hnames hnumbers, Option.none_or, readOperation_append hsymbol hleft hright,
    hvalue]
  rfl

theorem readHead_unary (op : UnaryOp) {operand : Expr}
    (h : inner.Reads operand.render.toList operand.bare Stops) :
    (readHead inner).Reads (render (.unary op operand)).toList (bare (.unary op operand))
      HeadStops := by
  intro rest hrest
  have htext : (render (.unary op operand)).toList ++ rest =
      '(' :: op.sign :: (operand.render.toList ++ ')' :: rest) := by
    simp [toList_render_unary]
  have hread := readUnary_append op h rest
  rw [htext, readHead_cons rfl, readMarked, bare]
  cases op with
  | not => rw [hread, Option.some_or]
  | neg =>
      have hnot : readUnary inner .not
          (UnaryOp.neg.sign :: (operand.render.toList ++ ')' :: rest)) = none :=
        readUnary_of_avoids .not (by simp [UnaryOp.sign])
      rw [hnot, Option.none_or, hread, Option.some_or]

/-! ## Expressions -/

/-- An expression is read back if its head is, with all fields behind it. -/
theorem readAt_of_head {depth : Nat} {text : List Char} {head : Expr}
    (h : (readHead (readAt depth)).Reads text head HeadStops) {fields : List Ident}
    (hfields : ∀ id ∈ fields, isName id.name) :
    (readAt (depth + 1)).Reads (text ++ path fields)
      ((fields.map Ident.bare).foldl .field head) Stops := by
  intro rest hrest
  have hpath : many (·.head? = some '.') (behind "." Ident.reader) (path fields ++ rest) =
      some (fields.map Ident.bare, rest) := by
    refine many_flatMap (Avoids isWordChar) (by simp) ?_ (by simp [isWordChar]) hrest.head.word ?_
      (by simp)
    · exact fun id hid => (Ident.reader_name (hfields id hid)).behind "."
    · rw [decide_eq_false_iff_not]
      intro hdot
      simpa using hrest '.' hdot
  have hhead : HeadStops (path fields ++ rest) := by
    cases fields with
    | nil => exact hrest.head
    | cons id fields => simp [path, isWordChar]
  rw [List.append_assoc, readAt, h _ hhead]
  simp [hpath]

theorem readsNumbers_readAt (depth : Nat) : ReadsNumbers (readAt (depth + 1)) :=
  fun n _ hfields => ⟨_, readAt_of_head (readHead_repr n) hfields⟩

/-- The expression is read back, with all fields behind it, if the reader can go as deep as the text
of the expression is long. -/
def IsReadBack (e : Expr) : Prop :=
  ∀ depth, e.render.toList.length ≤ depth → ∀ fields : List Ident, (∀ id ∈ fields, isName id.name) →
    (readAt depth).Reads (e.render.toList ++ path fields)
      ((fields.map Ident.bare).foldl .field e.bare) Stops

namespace IsReadBack

theorem reads {e : Expr} (h : e.IsReadBack) {depth : Nat}
    (hdepth : e.render.toList.length ≤ depth) :
    (readAt depth).Reads e.render.toList e.bare Stops := by
  simpa [path] using h depth hdepth [] (by simp)

theorem of_head {e : Expr} (hne : e.render.toList ≠ [])
    (h : ∀ depth, e.render.toList.length ≤ depth + 1 →
      (readHead (readAt depth)).Reads e.render.toList e.bare HeadStops) : e.IsReadBack := by
  intro depth hdepth fields hfields
  cases depth with
  | zero => exact absurd (List.length_eq_zero_iff.mp (Nat.le_zero.mp hdepth)) hne
  | succ depth => exact readAt_of_head (h depth hdepth) hfields

theorem field {base : Expr} {id : Ident} (h : base.IsReadBack) (hid : isName id.name) :
    (Expr.field base id).IsReadBack := by
  intro depth hdepth fields hfields
  have htext : (Expr.field base id).render.toList ++ path fields =
      base.render.toList ++ path (id :: fields) := by
    simp [toList_render_field, path]
  have hbase : base.render.toList.length ≤ depth := by
    rw [toList_render_field, List.length_append] at hdepth
    omega
  rw [htext]
  exact h depth hbase (id :: fields) (List.forall_mem_cons.mpr ⟨hid, hfields⟩)

theorem operation {e left right : Expr} {symbol : String} (hsymbol : ' ' ∉ symbol.toList)
    (htext : e.render = "(" ++ left.render ++ " " ++ symbol ++ " " ++ right.render ++ ")")
    (hvalue : ofSymbol? symbol left.bare right.bare = some e.bare)
    (hnames : ∀ id ∈ left.idents, isName id.name) (hleft : left.IsReadBack)
    (hright : right.IsReadBack) : e.IsReadBack := by
  have hchars : e.render.toList = '(' :: (left.render.toList ++ ' ' :: (symbol.toList ++
      ' ' :: (right.render.toList ++ [')']))) := by
    simp [htext]
  refine of_head (by simp [hchars]) fun depth hdepth rest hrest => ?_
  rw [hchars] at hdepth ⊢
  simp only [List.length_append, List.length_cons, List.length_nil] at hdepth
  obtain ⟨inside, rfl⟩ : ∃ inside, depth = inside + 1 := ⟨depth - 1, by omega⟩
  have hread := readHead_operation hsymbol hnames (readsNumbers_readAt inside)
    (hleft.reads (by omega)) (hright.reads (by omega)) hvalue rest
  simpa using hread

end IsReadBack

theorem length_le_length_call (callee : Ident) {args : List Expr} {arg : Expr} (h : arg ∈ args) :
    arg.render.toList.length + 2 ≤ (call callee args).render.toList.length := by
  have hinside := length_le_length_intercalate [',', ' ']
    (List.mem_map_of_mem (f := fun arg => arg.render.toList) h)
  simp only [toList_render_call, List.length_append, List.length_cons, List.length_nil]
  omega

/-- Every printed expression is read back. -/
theorem isReadBack {e : Expr} (hnames : ∀ id ∈ e.idents, isName id.name)
    (htexts : ∀ text ∈ e.texts, '"' ∉ text.toList) : e.IsReadBack := by
  induction e using Expr.induction with
  | int value pos =>
      exact .of_head (begins_render hnames).ne_nil fun _ _ => readHead_int value pos
  | str text pos =>
      have htext := htexts text (by simp [texts, nodes, text?])
      exact .of_head (begins_render hnames).ne_nil fun _ _ => readHead_str htext pos
  | bool value pos =>
      exact .of_head (begins_render hnames).ne_nil fun _ _ => readHead_bool value pos
  | name id =>
      have hid := hnames id (by simp [idents])
      exact .of_head (begins_render hnames).ne_nil fun _ _ => readHead_name hid
  | field base id ih =>
      simp only [idents, List.forall_mem_append, List.forall_mem_singleton] at hnames
      rw [texts_field] at htexts
      exact (ih hnames.1 htexts).field hnames.2
  | assign target value ihtarget ihvalue =>
      simp only [idents, texts_assign, List.forall_mem_append] at hnames htexts
      have htext : (assign target value).render =
          "(" ++ target.render ++ " " ++ "=" ++ " " ++ value.render ++ ")" := by
        rw [← String.toList_inj]
        simp [render]
      exact .operation (by decide) htext rfl hnames.1 (ihtarget hnames.1 htexts.1)
        (ihvalue hnames.2 htexts.2)
  | call callee args ih =>
      refine .of_head (begins_render hnames).ne_nil fun depth hdepth => ?_
      simp only [idents, identsAll_eq_flatMap, texts_call, List.forall_mem_cons,
        List.forall_mem_flatMap] at hnames htexts
      refine readHead_call hnames.1 (fun arg harg => ?_) fun arg harg rest => ?_
      · refine (ih arg harg (hnames.2 arg harg) (htexts arg harg)).reads ?_
        have hlength := length_le_length_call callee harg
        omega
      · exact avoids_of_opens ')' (by decide) ((begins_render (hnames.2 arg harg)).append rest)
  | unary op operand ih =>
      refine .of_head (begins_render hnames).ne_nil fun depth hdepth => ?_
      rw [texts_unary] at htexts
      refine readHead_unary op ((ih hnames htexts).reads ?_)
      simp only [toList_render_unary, List.length_cons, List.length_append] at hdepth
      omega
  | binary op left right ihleft ihright =>
      simp only [idents, texts_binary, List.forall_mem_append] at hnames htexts
      have hvalue :
          ofSymbol? op.render left.bare right.bare = some (binary op left right).bare := by
        rw [ofSymbol?, if_neg (by cases op <;> decide), BinaryOp.ofText?_render, Option.map_some,
          bare]
      exact .operation (by cases op <;> decide) rfl hvalue hnames.1 (ihleft hnames.1 htexts.1)
        (ihright hnames.2 htexts.2)

/-- A printed expression is read back in front of every text that does not go on with it. -/
theorem reader_render {e : Expr} (h : e.Spelled) : reader.Reads e.render.toList e.bare Stops := by
  intro rest hrest
  exact (isReadBack h.names h.texts).reads (by simp) rest hrest

end Expr

end StackMips
