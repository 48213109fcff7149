import StackMips.Mips.Operation

/-!
# Assembly text

An assembly is a list of lines: operations, labels, switches between the text and the data region,
and comments.
-/

namespace StackMips.Mips

/-- An operation with a trailing comment. -/
structure Instr where
  operation : Operation
  comment : Option String := none
  deriving DecidableEq

def Instr.render (instr : Instr) : String :=
  match instr.comment with
  | none => instr.operation.render
  | some comment => instr.operation.render ++ "  # " ++ comment

inductive Region where
  | text
  | data
  deriving DecidableEq

def Region.render : Region → String
  | .text => ".text"
  | .data => ".data"

inductive Line where
  | op (instr : Instr)
  /-- A label, on a line of its own or in front of an operation. -/
  | label (name : Label) (instr? : Option Instr)
  | region (target : Region)
  | comment (text : String)
  deriving DecidableEq

namespace Line

/-- Columns before a line that defines no label. -/
def margin : String :=
  Text.blanks 4

def render : Line → String
  | .op instr => margin ++ instr.render
  | .label name none => name ++ ":"
  | .label name (some instr) => name ++ ": " ++ instr.render
  | .region target => margin ++ target.render
  | .comment text => margin ++ "# " ++ text

/-- The label that a line defines. -/
def label? : Line → Option Label
  | .label name _ => some name
  | _ => none

/-- The operation on a line. -/
def instr? : Line → Option Instr
  | .op instr => some instr
  | .label _ instr? => instr?
  | _ => none

end Line

structure Assembly where
  lines : List Line
  /-- Labels and texts of the pooled string literals. -/
  strings : List (Label × String)
  /-- The largest number of words on the operand stack. -/
  maxDepth : Nat
  deriving DecidableEq

namespace Assembly

def render (assembly : Assembly) : String :=
  String.join (assembly.lines.map fun line => line.render ++ "\n")

/-- All labels, in order of definition. -/
def labels (assembly : Assembly) : List Label :=
  assembly.lines.filterMap Line.label?

/-- All operations with a mnemonic, in order. -/
def withMnemonic (assembly : Assembly) (mnemonic : String) : List Instr :=
  (assembly.lines.filterMap Line.instr?).filter (·.operation.mnemonic == mnemonic)

end Assembly

end StackMips.Mips
