import Mathlib.Algebra.Group.Nat.Defs
import Mathlib.Logic.Function.Basic
import Mathlib.Logic.Relation
import StackMips.Lowering.Variable

/-!
# The machine

A machine with 32-bit words that runs the lines of an assembly: operations change the registers and
the memory, labels and directives are passed over.  An image is an assembly that has been loaded; it
says where data and return addresses are, as far as programs can tell.
-/

namespace StackMips.Mips

abbrev Word := BitVec 32

/-- What the outside sees of a run. -/
inductive Event where
  | read (word : Word)
  | int (word : Word)
  | text (text : String)
  deriving DecidableEq

structure State where
  /-- The line to run next. -/
  pc : Nat
  reg : Register → Word
  mem : Word → Word
  /-- Words that are still to be read. -/
  input : List Word
  /-- What happened so far. -/
  events : List Event

def Word.flag (b : Bool) : Word := if b then 1 else 0

/-- Whether a word can be loaded from an address or stored there. -/
def Word.Aligned (address : Word) : Prop := address.toNat % 4 = 0

instance (address : Word) : Decidable address.Aligned :=
  inferInstanceAs (Decidable (_ = _))

/-! ## Operations -/

def AluOp.eval (a b : Word) : AluOp → Option Word
  | .add => if a.saddOverflow b then none else some (a + b)
  | .addu => some (a + b)
  | .sub => if a.ssubOverflow b then none else some (a - b)
  | .subu => some (a - b)
  | .mul => some (a * b)
  | .div => if b = 0 ∨ a = .intMin 32 ∧ b = -1 then none else some (a.sdiv b)
  | .seq => some (.flag (a == b))
  | .sne => some (.flag (a != b))
  | .slt => some (.flag (a.slt b))
  | .sgt => some (.flag (b.slt a))
  | .sle => some (.flag (a.sle b))
  | .sge => some (.flag (b.sle a))

namespace State

def next (s : State) : State := { s with pc := s.pc + 1 }

def jump (s : State) (pc : Nat) : State := { s with pc }

def set (s : State) (register : Register) (word : Word) : State :=
  { s with reg := Function.update s.reg register word }

def store (s : State) (address word : Word) : State :=
  { s with mem := Function.update s.mem address word }

def emit (s : State) (event : Event) : State := { s with events := s.events ++ [event] }

def source (s : State) : Source → Word
  | .reg register => s.reg register
  | .imm value => .ofInt 32 value

end State

def Line.text? : Line → Option (Label × String)
  | .label name (some ⟨.asciiz text, _⟩) => some (name, text)
  | _ => none

theorem Line.text?_eq_some_iff {line : Line} {name : Label} {text : String} :
    line.text? = some (name, text) ↔
      ∃ comment, line = .label name (some ⟨.asciiz text, comment⟩) := by
  constructor
  · intro h
    unfold Line.text? at h
    split at h
    · cases h
      exact ⟨_, rfl⟩
    · cases h
  · rintro ⟨comment, rfl⟩
    rfl

/-- An assembly in memory. -/
structure Image where
  lines : List Line
  /-- Where a datum is stored. -/
  dataAddress : Label → Word
  /-- The address of a line that is returned to. -/
  returnAddress : Nat → Word
  /-- The line at an address. -/
  lineAt : Word → Option Nat
  nodup : (lines.filterMap Line.label?).Nodup
  apart : ∀ {name name' instr instr'}, .label name (some instr) ∈ lines →
    .label name' (some instr') ∈ lines → dataAddress name = dataAddress name' → name = name'
  aligned : ∀ {name comment}, .label name (some ⟨.space wordSize, comment⟩) ∈ lines →
    (dataAddress name).Aligned
  lineAt_returnAddress : ∀ {pc target comment},
    lines[pc]? = some (.op ⟨.jal target, comment⟩) → lineAt (returnAddress (pc + 1)) = some (pc + 1)

namespace Image

def target (image : Image) (label : Label) : Option Nat :=
  image.lines.findIdx? fun line => line.label? == some label

def textAt (image : Image) (address : Word) : Option String :=
  ((image.lines.filterMap Line.text?).find? (image.dataAddress ·.1 = address)).map (·.2)

def address (image : Image) (s : State) : Address → Word
  | .indexed offset base => s.reg base + .ofInt 32 offset
  | .label name => image.dataAddress name

/-- A service of the simulator, selected by `$v0`. -/
def syscall (image : Image) (s : State) : Option State :=
  if s.reg .v0 = .ofInt 32 (Syscall.number .printInt) then
    some (s.emit (.int (s.reg .a0))).next
  else if s.reg .v0 = .ofInt 32 (Syscall.number .printString) then
    (image.textAt (s.reg .a0)).map fun text => (s.emit (.text text)).next
  else if s.reg .v0 = .ofInt 32 (Syscall.number .readInt) then
    match s.input with
    | [] => none
    | word :: input => some (({ s with input }.emit (.read word)).set .v0 word).next
  else none

/-- One operation.  There is no next state after a trap, the exit of the program or an operation
that is not known. -/
def exec (image : Image) (s : State) : Operation → Option State
  | .li dst value => some (s.set dst (.ofInt 32 value)).next
  | .la dst address => some (s.set dst (image.address s address)).next
  | .lw dst address =>
    if (image.address s address).Aligned then
      some (s.set dst (s.mem (image.address s address))).next
    else none
  | .sw src address =>
    if (image.address s address).Aligned then
      some (s.store (image.address s address) (s.reg src)).next
    else none
  | .move dst src => some (s.set dst (s.reg src)).next
  | .alu op dst left right =>
    (op.eval (s.reg left) (s.source right)).map fun word => (s.set dst word).next
  | .neg dst src =>
    if s.reg src = .intMin 32 then none else some (s.set dst (-s.reg src)).next
  | .b label => (image.target label).map s.jump
  | .beq left right label =>
    if s.reg left = .ofInt 32 right then (image.target label).map s.jump else some s.next
  | .ble left right label =>
    if (s.reg left).sle (.ofInt 32 right) then (image.target label).map s.jump else some s.next
  | .jal label => (image.target label).map (s.set .ra (image.returnAddress (s.pc + 1))).jump
  | .jr register => (image.lineAt (s.reg register)).map s.jump
  | .syscall => image.syscall s
  | .globl _ | .align _ | .space _ | .asciiz _ => some s.next
  | .raw _ _ => none

def execLine (image : Image) (s : State) (line : Line) : Option State :=
  match line.instr? with
  | some instr => image.exec s instr.operation
  | none => some s.next

def step (image : Image) (s : State) : Option State :=
  image.lines[s.pc]?.bind (image.execLine s)

abbrev Steps (image : Image) : State → State → Prop :=
  Relation.ReflTransGen fun s t => image.step s = some t

/-! ## Code in an image -/

/-- The lines stand in the image from `pc` on. -/
def At (image : Image) (pc : Nat) (lines : List Line) : Prop :=
  lines <+: image.lines.drop pc

variable {image : Image} {pc : Nat}

theorem at_of_lines {before lines behind : List Line}
    (h : image.lines = before ++ (lines ++ behind)) : image.At before.length lines :=
  ⟨behind, by rw [h, List.drop_left]⟩

theorem at_append {a b : List Line} :
    image.At pc (a ++ b) ↔ image.At pc a ∧ image.At (pc + a.length) b := by
  constructor
  · rintro ⟨rest, hrest⟩
    refine ⟨⟨b ++ rest, by rw [← hrest, List.append_assoc]⟩, rest, ?_⟩
    rw [← List.drop_drop, ← hrest, List.append_assoc, List.drop_left]
  · rintro ⟨⟨rest, ha⟩, rest', hb⟩
    refine ⟨rest', ?_⟩
    rw [← List.drop_drop, ← ha, List.drop_left] at hb
    rw [List.append_assoc, hb, ha]

theorem at_cons {line : Line} {lines : List Line} :
    image.At pc (line :: lines) ↔ image.lines[pc]? = some line ∧ image.At (pc + 1) lines := by
  have hhead : image.At pc [line] ↔ image.lines[pc]? = some line := by
    rw [At, List.singleton_prefix_iff_head?_eq_some, List.head?_drop]
  rw [← List.singleton_append, at_append, hhead, List.length_singleton]

theorem step_of_at {s : State} {line : Line} {lines : List Line}
    (h : image.At s.pc (line :: lines)) : image.step s = image.execLine s line := by
  rw [step, (at_cons.mp h).1, Option.bind_some]

/-- A label is defined only once, so a branch finds it wherever it stands. -/
theorem target_of_line {name : Label} {instr? : Option Instr}
    (h : image.lines[pc]? = some (.label name instr?)) : image.target name = some pc := by
  obtain ⟨hpc, hline⟩ := List.getElem?_eq_some_iff.mp h
  refine List.findIdx?_eq_some_iff_getElem.mpr ⟨hpc, by simp [hline, Line.label?], ?_⟩
  intro before hbefore
  have hpairwise := List.pairwise_filterMap.mp image.nodup
  have hne := List.pairwise_iff_getElem.mp hpairwise before pc (by omega) hpc hbefore
  cases hlabel : image.lines[before].label? with
  | none => simp
  | some name' =>
      have hname := hne name' hlabel name (by simp [hline, Line.label?])
      simpa using hname

theorem instr?_unique {name : Label} {instr? other? : Option Instr}
    (h : .label name instr? ∈ image.lines) (h' : .label name other? ∈ image.lines) :
    instr? = other? := by
  obtain ⟨pc, hpc⟩ := List.mem_iff_getElem?.mp h
  obtain ⟨pc', hpc'⟩ := List.mem_iff_getElem?.mp h'
  obtain rfl := Option.some.inj ((target_of_line hpc).symm.trans (target_of_line hpc'))
  cases hpc.symm.trans hpc'
  rfl

theorem labels_nodup {assembly : Assembly} (h : image.lines = assembly.lines) :
    assembly.labels.Nodup := by
  rw [Assembly.labels, ← h]
  exact image.nodup

theorem textAt_of_mem {name : Label} {text : String} {comment : Option String}
    (h : .label name (some ⟨.asciiz text, comment⟩) ∈ image.lines) :
    image.textAt (image.dataAddress name) = some text := by
  have hmem : (name, text) ∈ image.lines.filterMap Line.text? :=
    List.mem_filterMap.mpr ⟨_, h, rfl⟩
  cases hfind : (image.lines.filterMap Line.text?).find?
      (image.dataAddress ·.1 = image.dataAddress name) with
  | none => simpa using List.find?_eq_none.mp hfind _ hmem
  | some datum =>
      obtain ⟨name', text'⟩ := datum
      obtain ⟨line, hline, htext⟩ := List.mem_filterMap.mp (List.mem_of_find?_eq_some hfind)
      obtain ⟨comment', rfl⟩ := Line.text?_eq_some_iff.mp htext
      obtain rfl := image.apart hline h (by simpa using List.find?_some hfind)
      cases instr?_unique hline h
      rw [textAt, hfind]
      rfl

/-! ## Loading -/

def dataBase : Nat := 0x10010000

def textBase : Nat := 0x00400000

def lineOf (lines : List Line) (name : Label) : Nat :=
  lines.findIdx fun line => line.label? == some name

theorem lineOf_lt {lines : List Line} {name : Label} {instr? : Option Instr}
    (h : .label name instr? ∈ lines) : lineOf lines name < lines.length :=
  List.findIdx_lt_length_of_exists ⟨_, h, by simp [Line.label?]⟩

theorem lineOf_inj {lines : List Line} {name name' : Label} (h : lineOf lines name < lines.length)
    (heq : lineOf lines name = lineOf lines name') : name = name' := by
  have hname := List.findIdx_getElem (w := h)
  have hname' := List.findIdx_getElem (w := heq ▸ h)
  simp only [beq_iff_eq] at hname hname'
  unfold lineOf at heq
  simp only [← heq] at hname'
  exact Option.some.inj (hname.symm.trans hname')

/-- Lines with different labels can be loaded, one word for each of them. -/
def load (lines : List Line) (hnodup : (lines.filterMap Line.label?).Nodup)
    (hsize : lines.length < 2 ^ 20) : Image where
  lines
  dataAddress name := .ofNat 32 (dataBase + 4 * lineOf lines name)
  returnAddress pc := .ofNat 32 (textBase + 4 * pc)
  lineAt address := some ((address.toNat - textBase) / 4)
  nodup := hnodup
  apart {name name' instr instr'} h h' heq := by
    have hlt := lineOf_lt h
    have hlt' := lineOf_lt h'
    refine lineOf_inj hlt ?_
    have heq := congrArg BitVec.toNat heq
    simp only [BitVec.toNat_ofNat, dataBase] at heq
    omega
  aligned {name comment} h := by
    have hlt := lineOf_lt h
    simp only [Word.Aligned, BitVec.toNat_ofNat, dataBase]
    omega
  lineAt_returnAddress {pc target comment} h := by
    have hlt := (List.getElem?_eq_some_iff.mp h).1
    simp only [BitVec.toNat_ofNat, textBase, Option.some.injEq]
    omega

end Image

end StackMips.Mips
