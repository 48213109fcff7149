import StackMips.Diagnostic
import StackMips.Fault

/-!
# Diagnostics with a source excerpt

A diagnostic is shown with the source line it points at and a caret under its column.
-/

namespace StackMips.Diagnostic

/-- The widest run of blanks that can be put before a caret. -/
def maxPadding : Nat := 65535

/-- The message with its code, if it has one. -/
def headline (diagnostic : Diagnostic) : String :=
  match diagnostic.code? with
  | some code => "error[" ++ code.render ++ "]: " ++ diagnostic.message ++ "\n"
  | none => "error: " ++ diagnostic.message ++ "\n"

/-- A diagnostic without a position has no excerpt.  A line that the source does not have is shown
empty, and the caret may stand beyond the end of its line. -/
def excerpt (diagnostic : Diagnostic) (source : String) (file? : Option String) :
    Except Fault String :=
  let pos := diagnostic.pos
  let file := file?.getD "<input>"
  if pos = Pos.nowhere then
    .ok (diagnostic.headline ++ "  --> " ++ file ++ "\n")
  else if maxPadding < pos.column - 1 then
    .error .paddingTooWide
  else
    let number := toString pos.line
    let margin := Text.blanks number.length
    let line := ((Text.lines source)[pos.line - 1]?).getD ""
    .ok (diagnostic.headline
      ++ "  --> " ++ file ++ ":" ++ pos.render ++ "\n"
      ++ margin ++ " |\n"
      ++ number ++ " | " ++ line ++ "\n"
      ++ margin ++ " | " ++ Text.blanks (pos.column - 1) ++ "^\n")

end StackMips.Diagnostic
