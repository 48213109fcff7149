import StackMips.Symbol

/-!
# Compilation context

What one compilation keeps beside its tree: the symbols, the running frame offset, the pooled
string literals and the label counter.
-/

namespace StackMips

structure Options where
  /-- Write comment lines and trailing comments into the assembly. -/
  comments : Bool := true
  /-- Name of the function in which a program starts. -/
  entryPoint : String := "main"
  deriving DecidableEq

/-- Labels of string literals, in order of first use. -/
structure StringPool where
  entries : List (String × String) := []
  deriving DecidableEq

namespace StringPool

/-- The label under which a text was recorded last. -/
def lookup (pool : StringPool) (text : String) : Option String :=
  (pool.entries.reverse.find? (·.2 == text)).map (·.1)

/-- Record a label for a text. -/
def insert (pool : StringPool) (text label : String) : StringPool :=
  ⟨pool.entries ++ [(label, text)]⟩

def size (pool : StringPool) : Nat :=
  pool.entries.length

end StringPool

structure Context where
  symbols : Arena := {}
  /-- Offset of the next variable of the function being resolved. -/
  frameOffset : Int := 0
  strings : StringPool := {}
  options : Options := {}
  /-- Number of labels minted so far. -/
  labels : Nat := 0

namespace Context

/-- The synthetic label of a number. -/
def synthetic (n : Nat) : String :=
  ".L" ++ toString n

/-- Mint a label that no earlier call returned. -/
def freshLabel (context : Context) : String × Context :=
  (synthetic context.labels, { context with labels := context.labels + 1 })

def isEntryPoint (context : Context) (name : String) : Bool :=
  name == context.options.entryPoint

end Context

end StackMips
