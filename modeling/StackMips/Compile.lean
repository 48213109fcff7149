import StackMips.Lowering.Frame
import StackMips.Resolution
import StackMips.Typing

/-!
# Compilation

A program is resolved, then checked, and lowered only if nothing was reported.
-/

namespace StackMips

/-- The language that is compiled. -/
def languageName : String := "Carrot"

def version : String := "0.1.0"

/-- Resolve names, then check types.  Checking goes on after resolution has reported something:
names it left unlinked have the type `error`. -/
def Program.analyze (program : Program) (context : Context) : Reporting Resolved := do
  let resolved ← program.resolve context
  resolved.program.check resolved.context.symbols
  return resolved

inductive CompileError where
  | semantic (diagnostics : List Diagnostic)
  | lowering (unsupported : Unsupported)
  deriving DecidableEq

def CompileError.message : CompileError → String
  | .semantic diagnostics =>
    "compilation failed with " ++ toString diagnostics.length ++ " diagnostic(s)"
  | .lowering unsupported => unsupported.message

/-- Compile a program.  The linked tree is a result also when compilation fails. -/
def Program.compile (program : Program) (options : Options) :
    Except Fault (Program × Except CompileError Mips.Assembly) :=
  match program.analyze { options } with
  | .stopped fault => .error fault
  | .done resolved [] =>
    match Generator.finish { context := resolved.context } resolved.program with
    | .ok assembly => .ok (resolved.program, .ok assembly)
    | .error (.unsupported unsupported) =>
      .ok (resolved.program, .error (.lowering unsupported))
    | .error (.fault fault) => .error fault
  | .done resolved reports => .ok (resolved.program, .error (.semantic reports))

end StackMips
