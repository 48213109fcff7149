import StackMips.Text

/-!
# Machine operations

The operations of the SPIM assembler that generated code consists of, directives included.
Operations stay symbolic; their text is written only when an assembly is rendered.
-/

namespace StackMips.Mips

abbrev Label := String

inductive Register where
  | fp
  | sp
  | ra
  | v0
  | a0
  | t0
  | t1
  /-- Any other register, by its text. -/
  | named (text : String)
  deriving DecidableEq

def Register.render : Register → String
  | .fp => "$fp"
  | .sp => "$sp"
  | .ra => "$ra"
  | .v0 => "$v0"
  | .a0 => "$a0"
  | .t0 => "$t0"
  | .t1 => "$t1"
  | .named text => text

/-- The register with this text. -/
def Register.ofText (text : String) : Register :=
  ([.fp, .sp, .ra, .v0, .a0, .t0, .t1].find? (·.render == text)).getD (.named text)

/-- A place in memory. -/
inductive Address where
  | indexed (offset : Int) (base : Register)
  | label (name : Label)
  deriving DecidableEq

def Address.render : Address → String
  | .indexed offset base => toString offset ++ "(" ++ base.render ++ ")"
  | .label name => name

/-- The last operand of an operation with three of them. -/
inductive Source where
  | reg (register : Register)
  | imm (value : Int)
  deriving DecidableEq

def Source.render : Source → String
  | .reg register => register.render
  | .imm value => toString value

/-- Arithmetic and comparisons.  A comparison yields 1 or 0; `add` and `sub` trap on overflow
where `addu` and `subu` wrap. -/
inductive AluOp where
  | add | addu | sub | subu | mul | div
  | seq | sne | slt | sgt | sle | sge
  deriving DecidableEq

def AluOp.mnemonic : AluOp → String
  | .add => "add"
  | .addu => "addu"
  | .sub => "sub"
  | .subu => "subu"
  | .mul => "mul"
  | .div => "div"
  | .seq => "seq"
  | .sne => "sne"
  | .slt => "slt"
  | .sgt => "sgt"
  | .sle => "sle"
  | .sge => "sge"

/-- Services of the simulator. -/
inductive Syscall where
  | printInt
  | printString
  | readInt
  | exit
  deriving DecidableEq

/-- The number by which a service is selected in `$v0`. -/
def Syscall.number : Syscall → Int
  | .printInt => 1
  | .printString => 4
  | .readInt => 5
  | .exit => 10

inductive Operation where
  | li (dst : Register) (value : Int)
  | la (dst : Register) (address : Address)
  | lw (dst : Register) (address : Address)
  | sw (src : Register) (address : Address)
  | move (dst src : Register)
  | alu (op : AluOp) (dst left : Register) (right : Source)
  | neg (dst src : Register)
  | b (target : Label)
  | beq (left : Register) (right : Int) (target : Label)
  | ble (left : Register) (right : Int) (target : Label)
  | jal (target : Label)
  | jr (target : Register)
  | syscall
  | globl (name : Label)
  /-- Align the next datum to a power of two. -/
  | align (power : Nat)
  | space (bytes : Int)
  | asciiz (text : String)
  /-- Any other operation, by its text. -/
  | raw (mnemonic : String) (operands : List String)
  deriving DecidableEq

namespace Operation

def mnemonic : Operation → String
  | .li _ _ => "li"
  | .la _ _ => "la"
  | .lw _ _ => "lw"
  | .sw _ _ => "sw"
  | .move _ _ => "move"
  | .alu op _ _ _ => op.mnemonic
  | .neg _ _ => "neg"
  | .b _ => "b"
  | .beq _ _ _ => "beq"
  | .ble _ _ _ => "ble"
  | .jal _ => "jal"
  | .jr _ => "jr"
  | .syscall => "syscall"
  | .globl _ => ".globl"
  | .align _ => ".align"
  | .space _ => ".space"
  | .asciiz _ => ".asciiz"
  | .raw mnemonic _ => mnemonic

def operands : Operation → List String
  | .li dst value => [dst.render, toString value]
  | .la dst address | .lw dst address => [dst.render, address.render]
  | .sw src address => [src.render, address.render]
  | .move dst src | .neg dst src => [dst.render, src.render]
  | .alu _ dst left right => [dst.render, left.render, right.render]
  | .b target | .jal target => [target]
  | .beq left right target | .ble left right target => [left.render, toString right, target]
  | .jr target => [target.render]
  | .syscall => []
  | .globl name => [name]
  | .align power => [toString power]
  | .space bytes => [toString bytes]
  | .asciiz text => ["\"" ++ text ++ "\""]
  | .raw _ operands => operands

/-- Columns taken by a mnemonic that has operands. -/
def mnemonicWidth : Nat := 6

def render (operation : Operation) : String :=
  match operation.operands with
  | [] => operation.mnemonic
  | operands =>
    Text.padRight mnemonicWidth operation.mnemonic ++ " " ++ String.intercalate ", " operands

end Operation

end StackMips.Mips
