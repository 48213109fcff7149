import Mathlib.Order.Monotone.Basic
import StackMips.Proofs.Resolution.Soundness
import StackMips.Proofs.Tree.Identifiers

/-!
# Other names and other numbers

Two runs of resolution can differ in the names they meet and in the numbers that symbols get.  An
exchange says which name stands for which and which number for which.  States of the two runs
correspond if every name that occurs is found in the same scope, under the corresponding number, and
the symbols there are the same up to the exchange.
-/

namespace StackMips

theorem Option.bind_of_rel {α β γ δ : Type} {R : α → β → Prop} {o : Option α} {o' : Option β}
    (h : Option.Rel R o o') {f : α → Option γ} {f' : β → Option δ} {g : γ → δ}
    (hf : ∀ a b, R a b → f' b = (f a).map g) : o'.bind f' = (o.bind f).map g := by
  cases h with
  | some h => exact hf _ _ h
  | none => rfl

/-! ## Types -/

namespace Ty

mutual

def rename (f : String → String) : Ty → Ty
  | .int => .int
  | .bool => .bool
  | .void => .void
  | .string => .string
  | .struct name => .struct (f name)
  | .structDef name => .structDef (f name)
  | .function params result => .function (renameAll f params) (result.rename f)
  | .error => .error

def renameAll (f : String → String) : List Ty → List Ty
  | [] => []
  | ty :: tys => ty.rename f :: renameAll f tys

end

variable {f : String → String}

@[simp] theorem renameAll_eq_map (tys : List Ty) : renameAll f tys = tys.map (rename f) := by
  induction tys with
  | nil => rfl
  | cons ty tys ih => rw [renameAll, ih, List.map_cons]

@[simp] theorem isInt_rename (ty : Ty) : (ty.rename f).isInt = ty.isInt := by
  cases ty <;> rfl

@[simp] theorem isBool_rename (ty : Ty) : (ty.rename f).isBool = ty.isBool := by
  cases ty <;> rfl

@[simp] theorem isVoid_rename (ty : Ty) : (ty.rename f).isVoid = ty.isVoid := by
  cases ty <;> rfl

@[simp] theorem isString_rename (ty : Ty) : (ty.rename f).isString = ty.isString := by
  cases ty <;> rfl

@[simp] theorem isStruct_rename (ty : Ty) : (ty.rename f).isStruct = ty.isStruct := by
  cases ty <;> rfl

@[simp] theorem isError_rename (ty : Ty) : (ty.rename f).isError = ty.isError := by
  cases ty <;> rfl

mutual

/-- Types agree under other names exactly if they agree, as different names stay different. -/
theorem agrees_rename (hf : Function.Injective f) : ∀ a b : Ty,
    (a.rename f).agrees (b.rename f) = a.agrees b
  | .int, b | .bool, b | .void, b | .string, b | .error, b => by
      cases b <;> rfl
  | .struct _, b | .structDef _, b => by
      cases b <;> simp [rename, agrees, Bool.beq_eq_decide_eq, hf.eq_iff]
  | .function params result, b => by
      cases b with
      | function params' result' =>
          simp only [rename, agrees]
          rw [agreeAll_rename hf, agrees_rename hf]
      | _ => rfl

theorem agreeAll_rename (hf : Function.Injective f) : ∀ as bs : List Ty,
    agreeAll (renameAll f as) (renameAll f bs) = agreeAll as bs
  | [], [] | [], _ :: _ | _ :: _, [] => rfl
  | a :: as, b :: bs => by
      simp only [renameAll, agreeAll]
      rw [agrees_rename hf, agreeAll_rename hf]

end

end Ty

def FunctionInfo.rename (f : String → String) (info : FunctionInfo) : FunctionInfo :=
  { info with
    paramTypes := info.paramTypes.map (Ty.rename f)
    returnType := info.returnType.rename f }

/-! ## Exchanges -/

/-- Other names, and other numbers in the same order.  Only the names that are admitted have to be
found again. -/
structure Exchange where
  name : String → String
  link : Nat → Nat
  admits : String → Prop
  name_injective : Function.Injective name
  link_strictMono : StrictMono link

namespace Exchange

def ident (x : Exchange) (id : Ident) : Ident where
  name := x.name id.name
  pos := id.pos
  link := id.link.map x.link

def Admits (x : Exchange) (ids : List Ident) : Prop := ∀ id ∈ ids, x.admits id.name

variable {x : Exchange}

theorem link_inj {i j : Nat} : x.link i = x.link j ↔ i = j := x.link_strictMono.injective.eq_iff

@[simp] theorem admits_cons {id : Ident} {ids : List Ident} :
    x.Admits (id :: ids) ↔ x.admits id.name ∧ x.Admits ids := List.forall_mem_cons

@[simp] theorem admits_append {ids ids' : List Ident} :
    x.Admits (ids ++ ids') ↔ x.Admits ids ∧ x.Admits ids' := List.forall_mem_append

@[simp] theorem admits_flatMap {α : Type} {idents : α → List Ident} {trees : List α} :
    x.Admits (trees.flatMap idents) ↔ ∀ tree ∈ trees, x.Admits (idents tree) :=
  List.forall_mem_flatMap

end Exchange

variable {x : Exchange}

theorem TypeName.toTy_exchange (type : TypeName) :
    (type.mapIdents x.ident).toTy = type.toTy.rename x.name := by
  cases type <;> rfl

/-! ## Scopes -/

def Scope.Corresponds (x : Exchange) (scope scope' : Scope) : Prop :=
  ∀ name, x.admits name → scope'.lookup (x.name name) = (scope.lookup name).map x.link

namespace SymbolTable

structure Corresponds (x : Exchange) (table table' : SymbolTable) : Prop where
  innermost : table.innermost.Corresponds x table'.innermost
  enclosing : List.Forall₂ (Scope.Corresponds x) table.enclosing table'.enclosing

variable {table table' : SymbolTable}

theorem corresponds_empty : Corresponds x {} {} where
  innermost _ _ := rfl
  enclosing := .nil

namespace Corresponds

variable (h : table.Corresponds x table')
include h

theorem lookupInnermost {name : String} (hname : x.admits name) :
    table'.lookupInnermost (x.name name) = (table.lookupInnermost name).map x.link :=
  h.innermost name hname

theorem lookup {name : String} (hname : x.admits name) :
    table'.lookup (x.name name) = (table.lookup name).map x.link := by
  have hscopes : List.Forall₂ (Scope.Corresponds x) table.scopes table'.scopes :=
    .cons h.innermost h.enclosing
  rw [SymbolTable.lookup, SymbolTable.lookup]
  generalize table.scopes = scopes, table'.scopes = scopes' at hscopes
  induction hscopes with
  | nil => rfl
  | @cons scope scope' scopes scopes' hscope _ ih =>
      rw [List.findSome?_cons, List.findSome?_cons, hscope name hname]
      cases scope.lookup name with
      | none => exact ih
      | some link => rfl

theorem enter : table.enter.Corresponds x table'.enter where
  innermost _ _ := rfl
  enclosing := .cons h.innermost h.enclosing

/-- Names that differ still differ, so a new binding hides the same names. -/
theorem extend (name : String) (link : Nat) :
    (table.extend name link).Corresponds x (table'.extend (x.name name) (x.link link)) where
  innermost other hother := by
    have hscope := h.innermost other hother
    rw [Scope.lookup, Scope.lookup] at hscope ⊢
    rw [SymbolTable.extend, SymbolTable.extend, List.lookup_cons, List.lookup_cons]
    -- The exchange merges no names, so the new binding hides `other` on both sides or on neither.
    by_cases heq : other = name
    · simp [heq]
    · have hne : x.name other ≠ x.name name := fun hname => heq (x.name_injective hname)
      rw [beq_eq_false_iff_ne.mpr heq, beq_eq_false_iff_ne.mpr hne]
      exact hscope
  enclosing := h.enclosing

end Corresponds

end SymbolTable

/-! ## Symbols -/

inductive SymbolKind.Corresponds (x : Exchange) : SymbolKind → SymbolKind → Prop
  | scalar : Corresponds x .scalar .scalar
  | function (info : FunctionInfo) :
      Corresponds x (.function info) (.function (info.rename x.name))
  | structDef {fields fields' : SymbolTable} (h : fields.Corresponds x fields') :
      Corresponds x (.structDef fields) (.structDef fields')
  | structInstance (definition : Nat) :
      Corresponds x (.structInstance definition) (.structInstance (x.link definition))

structure Symbol.Corresponds (x : Exchange) (symbol symbol' : Symbol) : Prop where
  ty : symbol'.ty = symbol.ty.rename x.name
  offset : symbol'.offset = symbol.offset
  kind : symbol.kind.Corresponds x symbol'.kind

namespace Symbol.Corresponds

variable {symbol symbol' : Symbol} (h : symbol.Corresponds x symbol')
include h

theorem function? : symbol'.function? = symbol.function?.map (FunctionInfo.rename x.name) := by
  have hkind := h.kind
  rw [Symbol.function?, Symbol.function?]
  generalize symbol.kind = kind, symbol'.kind = kind' at hkind
  cases hkind <;> rfl

theorem definition? : symbol'.definition? = symbol.definition?.map x.link := by
  have hkind := h.kind
  rw [Symbol.definition?, Symbol.definition?]
  generalize symbol.kind = kind, symbol'.kind = kind' at hkind
  cases hkind <;> rfl

theorem fields? : Option.Rel (SymbolTable.Corresponds x) symbol.fields? symbol'.fields? := by
  have hkind := h.kind
  rw [Symbol.fields?, Symbol.fields?]
  generalize symbol.kind = kind, symbol'.kind = kind' at hkind
  cases hkind with
  | structDef hfields => exact .some hfields
  | scalar | function | structInstance => exact .none

theorem isGlobal : symbol'.isGlobal = symbol.isGlobal := by
  rw [Symbol.isGlobal, Symbol.isGlobal, h.offset]

/-- Functions get frames of the same size. -/
theorem withFrame (paramTypes : List Ty) (returnType : Ty) (localWords : Nat) :
    (symbol.withFrame paramTypes returnType localWords).Corresponds x
      (symbol'.withFrame (paramTypes.map (Ty.rename x.name)) (returnType.rename x.name)
        localWords) where
  ty := by simp [Symbol.withFrame, Ty.rename]
  offset := h.offset
  kind := by
    have hkind := h.kind
    rw [Symbol.withFrame, Symbol.withFrame]
    generalize symbol.kind = kind, symbol'.kind = kind' at hkind
    cases hkind with
    | scalar => exact .scalar
    | function info =>
        have hinfo := SymbolKind.Corresponds.function (x := x)
          { info with
            paramTypes
            paramsSize := wordSize * paramTypes.length
            localsSize := wordSize * localWords }
        simpa [FunctionInfo.rename] using hinfo
    | structDef hfields => exact .structDef hfields
    | structInstance definition => exact .structInstance definition

end Symbol.Corresponds

namespace Arena

/-- Arenas whose symbols correspond.  The next symbol has the corresponding number in both, and so
have all that follow. -/
structure Corresponds (x : Exchange) (a a' : Arena) : Prop where
  size : a'.size = x.link a.size
  step : ∀ i, a.size ≤ i → x.link (i + 1) = x.link i + 1
  symbols : ∀ (i : Nat) symbol, a.get? i = some symbol →
    ∃ symbol', a'.get? (x.link i) = some symbol' ∧ symbol.Corresponds x symbol'

namespace Corresponds

variable {a a' : Arena} (h : a.Corresponds x a')
include h

theorem get? (i : Nat) : Option.Rel (Symbol.Corresponds x) (a.get? i) (a'.get? (x.link i)) := by
  by_cases hlt : i < a.size
  · obtain ⟨symbol, hget⟩ := exists_get?_of_lt hlt
    obtain ⟨symbol', hget', hsymbol⟩ := h.symbols i symbol hget
    rw [hget, hget']
    exact .some hsymbol
  · -- Past the end of one arena is past the end of the other, as the numbers keep their order.
    have hle : a.size ≤ i := by omega
    have hle' : a'.size ≤ x.link i := h.size ▸ x.link_strictMono.monotone hle
    rw [get?_eq_none_of_le hle, get?_eq_none_of_le hle']
    exact .none

theorem function? (i : Nat) : (a'.get? (x.link i)).bind Symbol.function? =
    ((a.get? i).bind Symbol.function?).map (FunctionInfo.rename x.name) :=
  Option.bind_of_rel (h.get? i) fun _ _ hsymbol => hsymbol.function?

theorem definition? (i : Nat) : a'.definition? (x.link i) = (a.definition? i).map x.link :=
  Option.bind_of_rel (h.get? i) fun _ _ hsymbol => hsymbol.definition?

theorem fields? (i : Nat) :
    Option.Rel (SymbolTable.Corresponds x) (a.fields? i) (a'.fields? (x.link i)) := by
  have hrel := h.get? i
  rw [Arena.fields?, Arena.fields?]
  generalize a.get? i = found, a'.get? (x.link i) = found' at hrel
  cases hrel with
  | some hsymbol => exact hsymbol.fields?
  | none => exact .none

theorem isSome_fields? (i : Nat) : (a'.fields? (x.link i)).isSome = (a.fields? i).isSome := by
  have hrel := h.fields? i
  generalize a.fields? i = fields, a'.fields? (x.link i) = fields' at hrel
  cases hrel <;> rfl

theorem field? (definition : Nat) {name : String} (hname : x.admits name) :
    a'.field? (x.link definition) (x.name name) = (a.field? definition name).map x.link :=
  Option.bind_of_rel (h.fields? definition) fun _ _ hfields => hfields.lookup hname

theorem push {symbol symbol' : Symbol} (hsymbol : symbol.Corresponds x symbol') :
    (a.push symbol).Corresponds x (a'.push symbol') where
  size := by rw [size_push, size_push, h.size, h.step _ (Nat.le_refl _)]
  step i hi := h.step i (by rw [size_push] at hi; omega)
  symbols i other hget := by
    rw [get?_push] at hget ⊢
    by_cases hi : i = a.size
    · rw [if_pos hi, Option.some.injEq] at hget
      subst hget
      rw [if_pos (by rw [hi, h.size])]
      exact ⟨symbol', rfl, hsymbol⟩
    · rw [if_neg hi] at hget
      rw [if_neg (by rw [h.size, Exchange.link_inj]; exact hi)]
      exact h.symbols i other hget

theorem modify (i : Nat) {f f' : Symbol → Symbol}
    (hf : ∀ symbol symbol', symbol.Corresponds x symbol' → (f symbol).Corresponds x (f' symbol')) :
    (a.modify i f).Corresponds x (a'.modify (x.link i) f') where
  size := by rw [size_modify, size_modify, h.size]
  step j hj := h.step j (by rwa [size_modify] at hj)
  symbols j other hget := by
    rw [get?_modify] at hget ⊢
    by_cases hij : i = j
    · rw [if_pos hij] at hget
      rw [if_pos (by rw [hij])]
      obtain ⟨symbol, hsymbol, rfl⟩ := Option.map_eq_some_iff.mp hget
      obtain ⟨symbol', hget', hcorresponds⟩ := h.symbols j symbol hsymbol
      exact ⟨f' symbol', by rw [hget']; rfl, hf _ _ hcorresponds⟩
    · rw [if_neg hij] at hget
      rw [if_neg (by rw [Exchange.link_inj]; exact hij)]
      exact h.symbols j other hget

end Corresponds

end Arena

/-! ## States of resolution -/

namespace Resolver

structure Corresponds (x : Exchange) (r r' : Resolver) : Prop where
  symbols : r.symbols.Corresponds x r'.symbols
  table : r.table.Corresponds x r'.table
  frameOffset : r'.frameOffset = r.frameOffset
  localWords : r'.localWords = r.localWords

namespace Corresponds

variable {r r' s s' : Resolver} (h : r.Corresponds x r')
include h

theorem struct? {name : String} (hname : x.admits name) :
    r'.struct? (x.name name) = (r.struct? name).map x.link := by
  rw [Resolver.struct?, Resolver.struct?, h.table.lookup hname]
  cases r.table.lookup name with
  | none => rfl
  | some link =>
      simp only [Option.map_some, Option.filter, h.symbols.isSome_fields?]
      split <;> rfl

theorem enter : r.enter.Corresponds x r'.enter :=
  { h with table := h.table.enter }

theorem backTo (hs : s.Corresponds x s') : (s.backTo r).Corresponds x (s'.backTo r') :=
  { hs with table := h.table }

theorem allocate {symbol symbol' : Symbol} (hsymbol : symbol.Corresponds x symbol') :
    (r.allocate symbol).Corresponds x (r'.allocate symbol') :=
  { h with symbols := h.symbols.push hsymbol }

theorem accept {symbol symbol' : Symbol} (hsymbol : symbol.Corresponds x symbol')
    (hname : symbol'.name = x.name symbol.name) :
    (r.accept symbol).Corresponds x (r'.accept symbol') where
  symbols := h.symbols.push hsymbol
  table := by
    rw [Resolver.accept, Resolver.accept, hname, h.symbols.size]
    exact h.table.extend symbol.name r.symbols.size
  frameOffset := h.frameOffset
  localWords := h.localWords

end Corresponds

end Resolver

end StackMips
