import StackMips.Lowering.Stmt

/-!
# Frames and functions

A caller pushes the arguments from left to right.  The prologue saves the return address and the
caller's frame pointer below them and points `$fp` at the first argument; locals follow below.  The
epilogue restores both and sets `$sp` back to the first argument, which also removes the arguments.
-/

namespace StackMips

open Mips

/-- Whether a number is a signed machine word. -/
def fitsWord (n : Int) : Bool :=
  -0x80000000 ≤ n && n < 0x80000000

/-- The sum of two frame sizes. -/
def addSizes (m n : Int) : Except Fault Int :=
  if fitsWord (m + n) then .ok (m + n) else .error .sumOverflow

/-- The offset of what lies a number of bytes below the frame pointer. -/
def below (size : Int) : Except Fault Int :=
  if fitsWord (-size) then .ok (-size) else .error .negationOverflow

namespace Gen

def prologue (name : String) (info : FunctionInfo) : Gen Unit := do
  let label ← functionLabel name
  region .text
  if (← get).context.isEntryPoint name then
    op (.globl label)
  comment "FUNCTION ENTRY"
  defineLabel label
  storeWord .ra
  storeWord .fp
  let size ← addSizes info.paramsSize linkageSize
  opWith (.alu .addu .fp .sp (.imm size)) "set the FP"
  if 0 < info.localsSize then
    opWith (.alu .subu .sp .sp (.imm info.localsSize)) "push space for locals"

def epilogue (name : String) (info : FunctionInfo) : Gen Unit := do
  comment "FUNCTION EXIT"
  defineLabel (← get).exit
  let savedReturn ← below info.paramsSize
  opWith (.lw .ra (.indexed savedReturn .fp)) "load return address"
  opWith (.move .t0 .fp) "save control link"
  let savedFrame ← below (← addSizes info.paramsSize wordSize)
  opWith (.lw .fp (.indexed savedFrame .fp)) "restore FP"
  opWith (.move .sp .t0) "restore SP"
  if (← get).context.isEntryPoint name then
    opWith (.li .v0 (Syscall.number .exit)) "load exit code for syscall"
    opWith .syscall "only for main exit"
  else
    opWith (.jr .ra) "return"

end Gen

/-- The signature and frame of a declared function. -/
def FnDecl.info (symbols : Arena) (fn : FnDecl) : Except Fault FunctionInfo := do
  let symbol ← fn.id.symbol symbols
  match symbol.function? with
  | some info => return info
  | none => .error (.notLinkedToFunction fn.id.name)

def FnDecl.lower (fn : FnDecl) : Gen Unit := do
  let info ← fn.info (← get).context.symbols
  let exit ← Gen.exitLabel fn.id.name
  modify fun g => { g with exit }
  Gen.prologue fn.id.name info
  let depth := (← get).depth
  if depth ≠ 0 then
    Gen.fault (.entryDepth depth)
  fn.body.lower
  Gen.epilogue fn.id.name info

/-- Structs have no code. -/
def Decl.lower : Decl → Gen Unit
  | .var decl => Gen.global decl
  | .fn decl => decl.lower
  | .struct _ => return ()

def Decl.lowerAll : List Decl → Gen Unit
  | [] => return ()
  | decl :: decls => do
    decl.lower
    Decl.lowerAll decls

/-- What has been emitted so far. -/
def Generator.assembly (g : Generator) : Assembly where
  lines := g.lines.toList
  strings := g.context.strings.entries
  maxDepth := g.maxDepth

/-- Emit the code of a whole program and hand over the result. -/
def Generator.finish (g : Generator) (program : Program) : Except Stop Assembly :=
  match Decl.lowerAll program.decls g with
  | .ok _ g => .ok g.assembly
  | .error stop _ => .error stop

end StackMips
