import StackMips.Context
import StackMips.Mips.Assembly

/-!
# The code generator's state

Code is emitted line by line.  The generator keeps track of the operand stack: every word that
code pushes or pops at run time is counted while the code is emitted.
-/

namespace StackMips

open Mips

/-- What has no code. -/
inductive Construct where
  | fieldAccess
  | fieldAssignment
  | structAssignment
  deriving DecidableEq

def Construct.render : Construct → String
  | .fieldAccess => "struct field access"
  | .fieldAssignment => "assignment to a struct field"
  | .structAssignment => "struct assignment"

/-- A construct that cannot be lowered, and where it stands. -/
structure Unsupported where
  construct : Construct
  pos : Pos
  deriving DecidableEq

def Unsupported.message (unsupported : Unsupported) : String :=
  unsupported.construct.render ++ " at " ++ unsupported.pos.render
    ++ " is not supported by the code generator"

/-- Why generation ended early. -/
inductive Stop where
  | unsupported (unsupported : Unsupported)
  | fault (fault : Fault)

structure Generator where
  context : Context
  lines : Array Line := #[]
  /-- Words on the operand stack. -/
  depth : Nat := 0
  maxDepth : Nat := 0
  /-- The exit label of the function being generated. -/
  exit : Label := ""

/-- Generation keeps what was emitted before it ended early. -/
abbrev Gen := EStateM Stop Generator

namespace Gen

def fault {α : Type} (fault : Fault) : Gen α :=
  throw (.fault fault)

def unsupported {α : Type} (construct : Construct) (pos : Pos) : Gen α :=
  throw (.unsupported ⟨construct, pos⟩)

/-- Run a computation that emits nothing. -/
def ofExcept {α : Type} : Except Fault α → Gen α
  | .ok a => pure a
  | .error error => fault error

instance : MonadLift (Except Fault) Gen where
  monadLift := ofExcept

/-! ## Lines -/

def emit (line : Line) : Gen Unit :=
  modify fun g => { g with lines := g.lines.push line }

def op (operation : Operation) : Gen Unit :=
  emit (.op { operation })

/-- Emit an operation whose comment is dropped when comments are off. -/
def opWith (operation : Operation) (comment : String) : Gen Unit := do
  let g ← get
  emit (.op { operation, comment := if g.context.options.comments then some comment else none })

/-- Emit a comment line, unless comments are off. -/
def comment (text : String) : Gen Unit := do
  if (← get).context.options.comments then
    emit (.comment text)

def region (region : Region) : Gen Unit :=
  emit (.region region)

def defineLabel (label : Label) : Gen Unit :=
  emit (.label label none)

/-! ## The operand stack

The stack pointer points at the free word below the stack, so the top of the stack is one word
above it. -/

/-- Store a register below the stack without counting it as an operand. -/
def storeWord (register : Register) : Gen Unit := do
  op (.sw register (.indexed 0 .sp))
  op (.alu .subu .sp .sp (.imm wordSize))

def push (register : Register) : Gen Unit := do
  storeWord register
  modify fun g => { g with depth := g.depth + 1, maxDepth := max g.maxDepth (g.depth + 1) }

def pop (register : Register) : Gen Unit := do
  if (← get).depth = 0 then
    fault .stackUnderflow
  op (.lw register (.indexed wordSize .sp))
  op (.alu .addu .sp .sp (.imm wordSize))
  modify fun g => { g with depth := g.depth - 1 }

/-- Forget operands that a callee removes from the stack. -/
def release (words : Nat) : Gen Unit := do
  if (← get).depth < words then
    fault .stackUnderflow
  modify fun g => { g with depth := g.depth - words }

/-! ## Labels -/

def freshLabel : Gen Label := do
  let g ← get
  let (label, context) := g.context.freshLabel
  set { g with context }
  return label

end Gen

/-- The code label of a function.  Only the entry point keeps its plain name. -/
def Context.functionLabel (context : Context) (name : String) : Label :=
  if context.isEntryPoint name then name else "_" ++ name

/-- The data label of a global variable. -/
def globalLabel (name : String) : Label :=
  "_" ++ name

namespace Gen

def functionLabel (name : String) : Gen Label :=
  return (← get).context.functionLabel name

/-- The exit label of a function; one that is not the entry point gets a fresh label. -/
def exitLabel (name : String) : Gen Label := do
  if (← get).context.isEntryPoint name then
    return name ++ "_Exit"
  freshLabel

/-- The label of a string literal.  The first use stores the text in the data region. -/
def stringLabel (text : String) : Gen Label := do
  match (← get).context.strings.lookup text with
  | some label => return label
  | none =>
    let label ← freshLabel
    modify fun g =>
      { g with context := { g.context with strings := g.context.strings.insert text label } }
    region .data
    emit (.label label (some { operation := .asciiz text }))
    region .text
    return label

end Gen

end StackMips
