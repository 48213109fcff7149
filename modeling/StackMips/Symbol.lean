import StackMips.Fault

/-!
# Symbols

Every declaration that resolution accepts becomes a symbol of the arena.  Identifiers and scopes
refer to symbols by index, so a struct instance can point at its definition.
-/

namespace StackMips

/-- Bytes in a machine word. -/
def wordSize : Int := 4

/-- Bytes between the parameters and the locals of a frame: the saved return address and the
caller's frame pointer. -/
def linkageSize : Int := 2 * wordSize

/-- The offset of everything declared at top level.  Frame offsets are never positive. -/
def globalOffset : Int := 1

/-- Signature and frame of a function. -/
structure FunctionInfo where
  /-- Types of the accepted formals, in order. -/
  paramTypes : List Ty
  returnType : Ty
  /-- Number of formals written in the declaration. -/
  numParams : Nat
  /-- Bytes occupied by the parameters. -/
  paramsSize : Int
  /-- Bytes reserved for locals. -/
  localsSize : Int

inductive SymbolKind where
  /-- A variable, parameter or field that is not a struct. -/
  | scalar
  | function (info : FunctionInfo)
  | structDef (fields : SymbolTable)
  | structInstance (definition : SymbolId)

structure Symbol where
  name : String
  ty : Ty
  /-- Offset from the frame pointer, or a positive number for a global symbol. -/
  offset : Int
  kind : SymbolKind
  pos : Pos

namespace Symbol

/-- A function whose formals have not been looked at. -/
def ofFunction (name : String) (returnType : Ty) (numParams : Nat) (pos : Pos) : Symbol where
  name
  ty := .function [] returnType
  offset := globalOffset
  kind := .function
    { paramTypes := [], returnType, numParams, paramsSize := 0, localsSize := 0 }
  pos

def ofScalar (name : String) (ty : Ty) (pos : Pos) : Symbol where
  name
  ty
  offset := globalOffset
  kind := .scalar
  pos

def ofStructDef (name : String) (fields : SymbolTable) (pos : Pos) : Symbol where
  name
  ty := .structDef name
  offset := globalOffset
  kind := .structDef fields
  pos

def ofStructInstance (name struct : String) (definition : SymbolId) (pos : Pos) : Symbol where
  name
  ty := .struct struct
  offset := globalOffset
  kind := .structInstance definition
  pos

def isGlobal (symbol : Symbol) : Bool :=
  0 < symbol.offset

def function? (symbol : Symbol) : Option FunctionInfo :=
  match symbol.kind with
  | .function info => some info
  | _ => none

def fields? (symbol : Symbol) : Option SymbolTable :=
  match symbol.kind with
  | .structDef fields => some fields
  | _ => none

def definition? (symbol : Symbol) : Option SymbolId :=
  match symbol.kind with
  | .structInstance definition => some definition
  | _ => none

end Symbol

/-- All symbols of a compilation, in order of allocation. -/
structure Arena where
  symbols : Array Symbol := #[]

namespace Arena

def size (arena : Arena) : Nat :=
  arena.symbols.size

def get? (arena : Arena) (id : SymbolId) : Option Symbol :=
  arena.symbols[id]?

/-- The symbol behind a link. -/
def fetch (arena : Arena) (id : SymbolId) : Except Fault Symbol :=
  match arena.get? id with
  | some symbol => .ok symbol
  | none => .error (.symbolOutOfRange arena.size id)

/-- Add a symbol; its index is the size before. -/
def push (arena : Arena) (symbol : Symbol) : Arena :=
  ⟨arena.symbols.push symbol⟩

/-- Change the symbol at an index.  An index outside the arena changes nothing. -/
def modify (arena : Arena) (id : SymbolId) (f : Symbol → Symbol) : Arena :=
  ⟨arena.symbols.modify id f⟩

@[simp] theorem size_push (arena : Arena) (symbol : Symbol) :
    (arena.push symbol).size = arena.size + 1 := by
  simp [push, size]

@[simp] theorem size_modify (arena : Arena) (id : SymbolId) (f : Symbol → Symbol) :
    (arena.modify id f).size = arena.size := by
  simp [modify, size]

theorem get?_push (arena : Arena) (symbol : Symbol) (id : SymbolId) :
    (arena.push symbol).get? id = if id = arena.size then some symbol else arena.get? id :=
  Array.getElem?_push

theorem get?_modify (arena : Arena) (id other : SymbolId) (f : Symbol → Symbol) :
    (arena.modify id f).get? other = if id = other then (arena.get? other).map f
      else arena.get? other :=
  Array.getElem?_modify

theorem fetch_eq_ok_iff {arena : Arena} {id : SymbolId} {symbol : Symbol} :
    arena.fetch id = .ok symbol ↔ arena.get? id = some symbol := by
  unfold fetch
  cases arena.get? id <;> simp

end Arena

end StackMips
