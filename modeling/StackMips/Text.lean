/-!
# Plain text

Blanks, padding and source lines.  All widths count Unicode scalar values.
-/

namespace StackMips.Text

/-- A run of `n` blanks. -/
def blanks (n : Nat) : String :=
  String.ofList (List.replicate n ' ')

/-- Fill `text` up to `width` characters with blanks on the right.  A longer text is left alone. -/
def padRight (width : Nat) (text : String) : String :=
  text ++ blanks (width - text.length)

/-- A line ends at a line feed, together with one carriage return directly before it.  Any other
carriage return belongs to its line.  A final line feed starts no further line. -/
def splitLines : List Char → List (List Char)
  | [] => []
  | '\n' :: rest => [] :: splitLines rest
  | '\r' :: '\n' :: rest => [] :: splitLines rest
  | c :: rest =>
    match splitLines rest with
    | [] => [[c]]
    | line :: lines => (c :: line) :: lines

/-- The lines of a source text, without their ends. -/
def lines (text : String) : List String :=
  (splitLines text.toList).map String.ofList

end StackMips.Text
