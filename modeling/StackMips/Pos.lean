/-!
# Source positions

A position is a line and a column.  The passes never compute with positions, they only carry
them from the tree to the reports.
-/

namespace StackMips

structure Pos where
  line : Nat
  column : Nat
  deriving DecidableEq

namespace Pos

/-- The position of a report that belongs to no place in the source. -/
def nowhere : Pos := ⟨0, 0⟩

def render (pos : Pos) : String :=
  toString pos.line ++ ":" ++ toString pos.column

end Pos

end StackMips
