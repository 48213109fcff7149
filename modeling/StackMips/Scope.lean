import StackMips.Tree

/-!
# Scopes and symbol tables

A scope binds each name at most once.  A symbol table is a stack of scopes that is never empty:
the outermost scope is the global one and cannot be left.
-/

namespace StackMips

structure Scope where
  /-- The newest binding comes first. -/
  bindings : List (String × SymbolId) := []

namespace Scope

def lookup (scope : Scope) (name : String) : Option SymbolId :=
  scope.bindings.lookup name

/-- Bind a new name.  A name that is taken stays with its symbol, which is the error. -/
def define (scope : Scope) (name : String) (symbol : SymbolId) : Except SymbolId Scope :=
  match scope.lookup name with
  | some existing => .error existing
  | none => .ok ⟨(name, symbol) :: scope.bindings⟩

def size (scope : Scope) : Nat :=
  scope.bindings.length

@[simp] theorem lookup_empty (name : String) : ({} : Scope).lookup name = none := rfl

theorem define_eq_ok_iff {scope extended : Scope} {name : String} {symbol : SymbolId} :
    scope.define name symbol = .ok extended ↔
      scope.lookup name = none ∧ extended = ⟨(name, symbol) :: scope.bindings⟩ := by
  unfold define
  cases h : scope.lookup name with
  | none => simp [eq_comm]
  | some existing => simp

theorem lookup_of_define {scope extended : Scope} {name : String} {symbol : SymbolId}
    (h : scope.define name symbol = .ok extended) (other : String) :
    extended.lookup other = if other = name then some symbol else scope.lookup other := by
  obtain ⟨-, rfl⟩ := define_eq_ok_iff.mp h
  by_cases hname : other = name
  · simp [lookup, hname]
  · have hne : (other == name) = false := by simpa using hname
    simp [lookup, List.lookup_cons, hname, hne]

end Scope

structure SymbolTable where
  innermost : Scope := {}
  /-- The scopes around the innermost one, from the inside out. -/
  enclosing : List Scope := []

namespace SymbolTable

/-- Misuse of a symbol table. -/
inductive Error where
  | duplicate (name : String)
  | onlyGlobalScope
  deriving DecidableEq

def Error.message : Error → String
  | .duplicate name => "symbol '" ++ name ++ "' is already declared in this scope"
  | .onlyGlobalScope => "no scope left to remove"

/-- All open scopes, from the inside out. -/
def scopes (table : SymbolTable) : List Scope :=
  table.innermost :: table.enclosing

def depth (table : SymbolTable) : Nat :=
  table.enclosing.length + 1

def isGlobal (table : SymbolTable) : Bool :=
  table.enclosing.isEmpty

/-- Open a new innermost scope. -/
def enter (table : SymbolTable) : SymbolTable :=
  { enclosing := table.scopes }

/-- Close the innermost scope. -/
def leave (table : SymbolTable) : Except Error SymbolTable :=
  match table.enclosing with
  | [] => .error .onlyGlobalScope
  | scope :: scopes => .ok ⟨scope, scopes⟩

/-- Bind a name in the innermost scope. -/
def declare (table : SymbolTable) (name : String) (symbol : SymbolId) : Except Error SymbolTable :=
  match table.innermost.define name symbol with
  | .error _ => .error (.duplicate name)
  | .ok scope => .ok { table with innermost := scope }

/-- The symbol of a name in the innermost scope. -/
def lookupInnermost (table : SymbolTable) (name : String) : Option SymbolId :=
  table.innermost.lookup name

/-- The symbol of a name in the innermost scope that binds it. -/
def lookup (table : SymbolTable) (name : String) : Option SymbolId :=
  table.scopes.findSome? (·.lookup name)

theorem declare_eq_ok_iff {table extended : SymbolTable} {name : String} {symbol : SymbolId} :
    table.declare name symbol = .ok extended ↔
      table.lookupInnermost name = none ∧
        extended = { table with innermost := ⟨(name, symbol) :: table.innermost.bindings⟩ } := by
  unfold declare
  cases h : table.innermost.define name symbol with
  | error existing =>
      have hfree : table.innermost.lookup name ≠ none := fun hnone => by
        simp [Scope.define, hnone] at h
      simp [lookupInnermost, hfree]
  | ok scope =>
      obtain ⟨hfree, rfl⟩ := Scope.define_eq_ok_iff.mp h
      simp [lookupInnermost, hfree, eq_comm]

end SymbolTable

end StackMips
