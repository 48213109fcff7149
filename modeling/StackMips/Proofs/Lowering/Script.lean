import StackMips.Lowering.Frame
import StackMips.Proofs.Typing

/-!
# Scripts

Code generation takes a few kinds of steps: it emits a line, pushes or pops a word, gives up words
that a callee removes, takes a label or records a string.  A script is a list of such steps.  This
module says which script the generator follows for a tree, by recursion and without a monad.
-/

namespace StackMips

open Mips

/-- One step of the generator. -/
inductive Action where
  | emit (line : Line)
  | push (register : Register)
  | pop (register : Register)
  /-- Give up operands that a callee removes. -/
  | release (words : Nat)
  /-- Take the next synthetic label. -/
  | mint
  /-- Record the label of a string literal. -/
  | pool (text : String) (label : Label)

abbrev Script := List Action

namespace Action

def gen : Action → Gen Unit
  | .emit line => Gen.emit line
  | .push register => Gen.push register
  | .pop register => Gen.pop register
  | .release words => Gen.release words
  | .mint => do
    let _ ← Gen.freshLabel
  | .pool text label => modify fun g =>
    { g with context := { g.context with strings := g.context.strings.insert text label } }

def op (operation : Operation) : Action :=
  .emit (.op { operation })

def lines : Action → List Line
  | .emit line => [line]
  | .push register =>
    [.op { operation := .sw register (.indexed 0 .sp) },
      .op { operation := .alu .subu .sp .sp (.imm wordSize) }]
  | .pop register =>
    [.op { operation := .lw register (.indexed wordSize .sp) },
      .op { operation := .alu .addu .sp .sp (.imm wordSize) }]
  | _ => []

def depth (depth : Nat) : Action → Nat
  | .push _ => depth + 1
  | .pop _ => depth - 1
  | .release words => depth - words
  | _ => depth

def maxDepth (g : Generator) : Action → Nat
  | .push _ => max g.maxDepth (g.depth + 1)
  | _ => g.maxDepth

def context (context : Context) : Action → Context
  | .mint => { context with labels := context.labels + 1 }
  | .pool text label => { context with strings := context.strings.insert text label }
  | _ => context

def apply (g : Generator) (action : Action) : Generator where
  context := action.context g.context
  lines := g.lines ++ action.lines
  depth := action.depth g.depth
  maxDepth := action.maxDepth g
  exit := g.exit

end Action

namespace Script

def lines (script : Script) : List Line := script.flatMap Action.lines

def depth (depth : Nat) (script : Script) : Nat := script.foldl Action.depth depth

end Script

def Context.after (context : Context) (script : Script) : Context :=
  script.foldl Action.context context

def Generator.perform (g : Generator) (script : Script) : Generator :=
  script.foldl Action.apply g

/-! ## Expressions -/

namespace Context

def opWith (c : Context) (operation : Operation) (comment : String) : Action :=
  .emit (.op { operation, comment := if c.options.comments then some comment else none })

def note (c : Context) (text : String) : Script :=
  if c.options.comments then [.emit (.comment text)] else []

def minted (c : Context) (count : Nat) : Context := { c with labels := c.labels + count }

def constant (c : Context) (value : Int) : Script :=
  [c.opWith (.li .t0 value) "load value into T0", .push .t0]

/-- The steps that make a string literal known. -/
def pooling (c : Context) (text : String) : Script :=
  match c.strings.lookup text with
  | some _ => []
  | none =>
    [.mint, .pool text (synthetic c.labels), .emit (.region .data),
      .emit (.label (synthetic c.labels) (some { operation := .asciiz text })),
      .emit (.region .text)]

/-- The label of a string literal that is known or becomes known next. -/
def stringLabel (c : Context) (text : String) : Label :=
  (c.strings.lookup text).getD (synthetic c.labels)

def string (c : Context) (text : String) : Script :=
  c.pooling text ++
    [c.opWith (.la .t0 (.label (c.stringLabel text))) "load addr into $t0", .push .t0]

end Context

def Arena.location? (symbols : Arena) (id : Ident) : Option Location :=
  (symbols.symbol? id).map fun symbol =>
    if symbol.isGlobal then .global (globalLabel id.name) else .frame symbol.offset

namespace Context

def load (c : Context) (id : Ident) : Script :=
  match c.symbols.location? id with
  | some (.frame offset) =>
    [c.opWith (.lw .t0 (.indexed offset .fp)) "load the value of local into T0", .push .t0]
  | some (.global label) =>
    [c.opWith (.lw .t0 (.label label)) "load the value of global into T0", .push .t0]
  | none => []

def loadAddress (c : Context) (id : Ident) : Script :=
  match c.symbols.location? id with
  | some (.frame offset) =>
    [c.opWith (.la .t0 (.indexed offset .fp)) "load the address of local into T0", .push .t0]
  | some (.global label) => [.op (.la .t0 (.label label)), .push .t0]
  | none => []

/-- Only a plain name has an address. -/
def address (c : Context) : Expr → Script
  | .name id => c.loadAddress id
  | _ => []

def yields (c : Context) (callee : Ident) : Bool :=
  (c.symbols.info? callee).any fun info => !info.returnType.isVoid

end Context

def UnaryOp.note : UnaryOp → String
  | .neg => "UNARY MINUS"
  | .not => "NOT"

def UnaryOp.operation : UnaryOp → Operation
  | .neg => .neg .t0 .t0
  | .not => .alu .seq .t0 .t0 (.imm 0)

mutual

/-- The steps that push the value of an expression.  A field access has no code. -/
def Expr.script (c : Context) : Expr → Script
  | .int value _ => c.constant value.toInt
  | .str text _ => c.string text
  | .bool value _ => c.constant (if value then 1 else 0)
  | .name id => c.load id
  | .field _ _ => []
  | .assign target value =>
    c.note "ASSIGN" ++ value.script c ++ c.address target ++
      [Action.pop .t0, .pop .t1, .op (.sw .t1 (.indexed 0 .t0)), .push .t1]
  | .call callee args =>
    c.note "FUNCTION CALL" ++ Expr.scriptAll c args ++
      [Action.op (.jal (c.functionLabel callee.name)), .release args.length] ++
      if c.yields callee then [.push .v0] else []
  | .unary op operand =>
    c.note op.note ++ operand.script c ++ [Action.pop .t0, .op op.operation, .push .t0]
  | .binary op left right =>
    match op.code with
    | .strict alu text =>
      c.note text ++ left.script c ++ right.script (c.after (left.script c)) ++
        [Action.pop .t1, .pop .t0, .op (.alu alu .t0 .t0 (.reg .t1)), .push .t0]
    | .skipping decisive text =>
      let done := Context.synthetic c.labels
      let head := left.script (c.minted 1)
      [Action.mint] ++ c.note text ++ head ++ [Action.pop .t0, .op (.beq .t0 decisive done)] ++
        right.script ((c.minted 1).after head) ++
        [Action.pop .t0, .emit (.label done none), .push .t0]

def Expr.scriptAll (c : Context) : List Expr → Script
  | [] => []
  | e :: es => e.script c ++ Expr.scriptAll (c.after (e.script c)) es

end

/-! ## Statements -/

namespace Context

/-- Add to a variable, or subtract from it, one. -/
def step (c : Context) (op : AluOp) (text : String) (target : Expr) : Script :=
  c.note text ++ c.address target ++ [Action.pop .t1] ++ target.script c ++
    [Action.pop .t0, .op (.alu op .t0 .t0 (.imm 1)), .op (.sw .t0 (.indexed 0 .t1))]

def printer (c : Context) (value : Expr) : Syscall :=
  match value.typeOf c.symbols with
  | .ok .string => .printString
  | _ => .printInt

def branchIfFalse (c : Context) (cond : Expr) (target : Label) : Script :=
  cond.script c ++ [Action.pop .t0, .op (.beq .t0 0 target)]

end Context

mutual

/-- The steps of a statement in a function that is left through `exit`. -/
def Stmt.script (c : Context) (exit : Label) : Stmt → Script
  | .assign target value => (Expr.assign target value).script c ++ [Action.pop .t0]
  | .increment target => c.step .add "POSTINC" target
  | .decrement target => c.step .sub "POSTDEC" target
  | .read target =>
    c.note "READ" ++ [Action.op (.li .v0 (Syscall.number .readInt)), .op .syscall] ++
      c.address target ++ [Action.pop .t0, .op (.sw .v0 (.indexed 0 .t0))]
  | .write value =>
    c.note "WRITE" ++ value.script c ++
      [Action.pop .a0, .op (.li .v0 (Syscall.number (c.printer value))), .op .syscall]
  | .ifThen cond body =>
    let done := Context.synthetic c.labels
    let head := (c.minted 1).branchIfFalse cond done
    c.note "IF STMT" ++ [Action.mint] ++ head ++ body.script ((c.minted 1).after head) exit ++
      [Action.emit (.label done none)]
  | .ifElse cond thenBody elseBody =>
    let otherwise := Context.synthetic c.labels
    let done := Context.synthetic (c.labels + 1)
    let head := (c.minted 2).branchIfFalse cond otherwise
    let first := thenBody.script ((c.minted 2).after head) exit
    c.note "IF ELSE STMT" ++ [Action.mint, .mint] ++ head ++ first ++
      [Action.op (.b done), .emit (.label otherwise none)] ++
      elseBody.script (((c.minted 2).after head).after first) exit ++
      [Action.emit (.label done none)]
  | .whileLoop cond body =>
    let start := Context.synthetic c.labels
    let done := Context.synthetic (c.labels + 1)
    let head := (c.minted 2).branchIfFalse cond done
    c.note "WHILE STMT" ++ [Action.mint, .mint, .emit (.label start none)] ++ head ++
      body.script ((c.minted 2).after head) exit ++
      [Action.op (.b start), .emit (.label done none)]
  | .repeatLoop count body =>
    let start := Context.synthetic c.labels
    let done := Context.synthetic (c.labels + 1)
    let head := count.script (c.minted 2)
    c.note "REPEAT STMT" ++ [Action.mint, .mint] ++ head ++
      [Action.emit (.label start none), .op (.lw .t0 (.indexed wordSize .sp)),
        .op (.ble .t0 0 done), .op (.alu .sub .t0 .t0 (.imm 1)),
        .op (.sw .t0 (.indexed wordSize .sp))] ++
      body.script ((c.minted 2).after head) exit ++
      [Action.op (.b start), .emit (.label done none), .pop .t0]
  | .call callee args =>
    c.note "CALL STMT" ++ (Expr.call callee args).script c ++
      if c.yields callee then [.pop .t0] else []
  | .ret value? _ =>
    c.note "RETURN" ++
      (match value? with
        | some value => value.script c ++ [Action.pop .v0]
        | none => []) ++
      [Action.op (.b exit)]

def Block.script (c : Context) (exit : Label) : Block → Script
  | ⟨_, stmts⟩ => Stmt.scriptAll c exit stmts

def Stmt.scriptAll (c : Context) (exit : Label) : List Stmt → Script
  | [] => []
  | stmt :: stmts =>
    stmt.script c exit ++ Stmt.scriptAll (c.after (stmt.script c exit)) exit stmts

end

/-! ## Peaks

How many words the code of a tree has on the operand stack at the same time. -/

mutual

def Expr.peak (symbols : Arena) : Expr → Nat
  | .int _ _ | .str _ _ | .bool _ _ | .name _ | .field _ _ => 1
  | .assign _ value => max (value.peak symbols) 2
  | .call callee args =>
    max (Expr.peakAll symbols 0 args)
      (if (symbols.info? callee).any (!·.returnType.isVoid) then 1 else 0)
  | .unary _ operand => operand.peak symbols
  | .binary op left right =>
    match op.code with
    | .strict _ _ => max (left.peak symbols) (1 + right.peak symbols)
    | .skipping _ _ => max (left.peak symbols) (right.peak symbols)

/-- The arguments of a call after a number of others that are on the stack. -/
def Expr.peakAll (symbols : Arena) (pushed : Nat) : List Expr → Nat
  | [] => 0
  | e :: es => max (pushed + e.peak symbols) (Expr.peakAll symbols (pushed + 1) es)

end

mutual

def Stmt.peak (symbols : Arena) : Stmt → Nat
  | .assign target value => (Expr.assign target value).peak symbols
  | .increment _ | .decrement _ | .read _ => 1
  | .write value | .ret (some value) _ => value.peak symbols
  | .ret none _ => 0
  | .ifThen cond body | .whileLoop cond body => max (cond.peak symbols) (body.peak symbols)
  | .ifElse cond thenBody elseBody =>
    max (cond.peak symbols) (max (thenBody.peak symbols) (elseBody.peak symbols))
  | .repeatLoop count body => max (count.peak symbols) (1 + body.peak symbols)
  | .call callee args => (Expr.call callee args).peak symbols

def Block.peak (symbols : Arena) : Block → Nat
  | ⟨_, stmts⟩ => Stmt.peakAll symbols stmts

def Stmt.peakAll (symbols : Arena) : List Stmt → Nat
  | [] => 0
  | stmt :: stmts => max (stmt.peak symbols) (Stmt.peakAll symbols stmts)

end

/-! ## Functions and programs -/

namespace Context

/-- Store a register below the stack without counting it. -/
def storeWord (register : Register) : Script :=
  [.op (.sw register (.indexed 0 .sp)), .op (.alu .subu .sp .sp (.imm wordSize))]

def prologue (c : Context) (name : String) (info : FunctionInfo) : Script :=
  [Action.emit (.region .text)] ++
    (if c.isEntryPoint name then [.op (.globl (c.functionLabel name))] else []) ++
    c.note "FUNCTION ENTRY" ++ [Action.emit (.label (c.functionLabel name) none)] ++
    storeWord .ra ++ storeWord .fp ++
    [c.opWith (.alu .addu .fp .sp (.imm (info.paramsSize + linkageSize))) "set the FP"] ++
    if 0 < info.localsSize then
      [c.opWith (.alu .subu .sp .sp (.imm info.localsSize)) "push space for locals"]
    else []

def epilogue (c : Context) (exit : Label) (name : String) (info : FunctionInfo) : Script :=
  c.note "FUNCTION EXIT" ++
    [Action.emit (.label exit none),
      c.opWith (.lw .ra (.indexed (-info.paramsSize) .fp)) "load return address",
      c.opWith (.move .t0 .fp) "save control link",
      c.opWith (.lw .fp (.indexed (-(info.paramsSize + wordSize)) .fp)) "restore FP",
      c.opWith (.move .sp .t0) "restore SP"] ++
    if c.isEntryPoint name then
      [c.opWith (.li .v0 (Syscall.number .exit)) "load exit code for syscall",
        c.opWith .syscall "only for main exit"]
    else [c.opWith (.jr .ra) "return"]

def exitLabel (c : Context) (name : String) : Label :=
  if c.isEntryPoint name then name ++ "_Exit" else synthetic c.labels

def exiting (c : Context) (name : String) : Script :=
  if c.isEntryPoint name then [] else [.mint]

end Context

namespace FnDecl

def bodyContext (c : Context) (fn : FnDecl) : Context := c.after (c.exiting fn.id.name)

def bodyScript (c : Context) (fn : FnDecl) : Script :=
  fn.body.script (fn.bodyContext c) (c.exitLabel fn.id.name)

def script (c : Context) (fn : FnDecl) : Script :=
  c.exiting fn.id.name ++ c.prologue fn.id.name fn.signature ++ fn.bodyScript c ++
    c.epilogue (c.exitLabel fn.id.name) fn.id.name fn.signature

end FnDecl

namespace Decl

def script (c : Context) : Decl → Script
  | .var decl =>
    [.emit (.region .data), c.opWith (.align 2) "align on a word boundary",
      .emit (.label (globalLabel decl.id.name) (some { operation := .space wordSize }))]
  | .fn decl => decl.script c
  | .struct _ => []

def scriptAll (c : Context) : List Decl → Script
  | [] => []
  | decl :: decls => decl.script c ++ scriptAll (c.after (decl.script c)) decls

end Decl

end StackMips
