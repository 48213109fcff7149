import Mathlib.Data.List.Forall2
import StackMips.Proofs.Resolution.Scoping
import StackMips.Lowering.Variable
import StackMips.Typing

/-!
# Typing rules

A declarative account of well-typed expressions and statements.  Checking a linked tree is total,
and a tree that is checked without a report is well typed.
-/

namespace StackMips

/-! ## Agreement of types -/

namespace Ty

mutual

theorem eq_of_agrees : ∀ {a b : Ty}, a.agrees b = true → a = b
  | .int, b, h | .bool, b, h | .void, b, h | .string, b, h => by
      cases b <;> simp_all [agrees]
  | .struct _, b, h | .structDef _, b, h => by
      cases b <;> simp_all [agrees]
  | .error, b, h => by
      cases b <;> simp_all [agrees]
  | .function params result, b, h => by
      cases b with
      | function params' result' =>
          simp only [agrees, Bool.and_eq_true] at h
          rw [eq_of_agreeAll h.1, eq_of_agrees h.2]
      | _ => simp [agrees] at h

theorem eq_of_agreeAll : ∀ {as bs : List Ty}, agreeAll as bs = true → as = bs
  | [], [], _ => rfl
  | [], _ :: _, h | _ :: _, [], h => by simp [agreeAll] at h
  | a :: as, b :: bs, h => by
      simp only [agreeAll, Bool.and_eq_true] at h
      rw [eq_of_agrees h.1, eq_of_agreeAll h.2]

end

theorem eq_int_of_isInt {ty : Ty} (h : ty.isInt) : ty = .int := by
  cases ty <;> simp_all [isInt]

theorem eq_bool_of_isBool {ty : Ty} (h : ty.isBool) : ty = .bool := by
  cases ty <;> simp_all [isBool]

theorem eq_void_of_isVoid {ty : Ty} (h : ty.isVoid) : ty = .void := by
  cases ty <;> simp_all [isVoid]

def isComparable : Ty → Bool
  | .int | .bool | .string => true
  | _ => false

def isAssignable : Ty → Bool
  | .int | .bool | .void | .string => true
  | _ => false

def isReadable : Ty → Bool
  | .function _ _ | .structDef _ | .struct _ => false
  | _ => true

def isWritable (ty : Ty) : Bool := ty.isReadable && !ty.isVoid

theorem readObjection?_eq_none_iff {ty : Ty} : ty.readObjection? = none ↔ ty.isReadable := by
  cases ty <;> simp [readObjection?, isReadable]

theorem writeObjection?_eq_none_iff {ty : Ty} : ty.writeObjection? = none ↔ ty.isWritable := by
  cases ty <;> simp [writeObjection?, isWritable, isReadable, isVoid]

def isReturnable (ty : Ty) : Bool := ty.isStorable || ty.isVoid

/-- Types that operands can have.  Names of functions and structs are no operands. -/
def isValue (ty : Ty) : Bool := ty.isStorable || ty.isString

theorem isVoid_of_isValue {ty : Ty} (h : ty.isValue) : ty.isVoid = false := by
  cases ty <;> simp_all [isValue, isStorable, isString, isVoid]

theorem isValue_of_isStorable {ty : Ty} (h : ty.isStorable) : ty.isValue := by
  simp [isValue, h]

theorem isValue_of_isComparable {ty : Ty} (h : ty.isComparable) : ty.isValue := by
  cases ty <;> first | rfl | cases h

theorem isValue_of_isReturnable {ty : Ty} (h : ty.isReturnable) (hvoid : ty.isVoid = false) :
    ty.isValue := by
  simp_all [isReturnable, isValue]

theorem isVoid_of_isStorable {ty : Ty} (h : ty.isStorable) : ty.isVoid = false := by
  cases ty <;> simp_all [isStorable, isVoid]

theorem isString_of_isStorable {ty : Ty} (h : ty.isStorable) : ty.isString = false := by
  cases ty <;> simp_all [isStorable, isString]

theorem isError_of_isStorable {ty : Ty} (h : ty.isStorable) : ty.isError = false := by
  cases ty <;> simp_all [isStorable, isError]

theorem isError_of_isReturnable {ty : Ty} (h : ty.isReturnable) : ty.isError = false := by
  cases ty <;> simp_all [isReturnable, isStorable, isVoid, isError]

end Ty

/-! ## Expressions -/

namespace Arena

def symbol? (symbols : Arena) (id : Ident) : Option Symbol := id.link.bind symbols.get?

def ty? (symbols : Arena) (id : Ident) : Option Ty := (symbols.symbol? id).map Symbol.ty

def info? (symbols : Arena) (id : Ident) : Option FunctionInfo :=
  (symbols.symbol? id).bind Symbol.function?

end Arena

inductive Expr.HasType (symbols : Arena) : Expr → Ty → Prop
  | int (value : Int32) (pos : Pos) : HasType symbols (.int value pos) .int
  | str (text : String) (pos : Pos) : HasType symbols (.str text pos) .string
  | bool (value : Bool) (pos : Pos) : HasType symbols (.bool value pos) .bool
  | name {id : Ident} {ty : Ty} (hid : symbols.ty? id = some ty) : HasType symbols (.name id) ty
  | field {base : Expr} {id : Ident} {ty : Ty} (hid : symbols.ty? id = some ty) :
      HasType symbols (.field base id) ty
  | assign {target value : Expr} {ty : Ty} (htarget : HasType symbols target ty)
      (hvalue : HasType symbols value ty) (hty : ty.isAssignable) :
      HasType symbols (.assign target value) ty
  | call {callee : Ident} {args : List Expr} {info : FunctionInfo}
      (hcallee : symbols.info? callee = some info) (hcount : args.length = info.numParams)
      (hargs : List.Forall₂ (HasType symbols) args info.paramTypes) :
      HasType symbols (.call callee args) info.returnType
  | neg {operand : Expr} (hoperand : HasType symbols operand .int) :
      HasType symbols (.unary .neg operand) .int
  | not {operand : Expr} (hoperand : HasType symbols operand .bool) :
      HasType symbols (.unary .not operand) .bool
  | arithmetic {op : BinaryOp} {left right : Expr} (hop : op.family = .arithmetic)
      (hleft : HasType symbols left .int) (hright : HasType symbols right .int) :
      HasType symbols (.binary op left right) .int
  | logical {op : BinaryOp} {left right : Expr} (hop : op.family = .logical)
      (hleft : HasType symbols left .bool) (hright : HasType symbols right .bool) :
      HasType symbols (.binary op left right) .bool
  | relational {op : BinaryOp} {left right : Expr} (hop : op.family = .relational)
      (hleft : HasType symbols left .int) (hright : HasType symbols right .int) :
      HasType symbols (.binary op left right) .bool
  | equality {op : BinaryOp} {left right : Expr} {ty : Ty} (hop : op.family = .equality)
      (hleft : HasType symbols left ty) (hright : HasType symbols right ty)
      (hty : ty.isComparable) : HasType symbols (.binary op left right) .bool

/-! ## Checking is total -/

section Total

open Reporting

variable {symbols : Arena}

theorem Ident.ty_isDone {id : Ident} (h : id.PointsInto symbols) :
    ∃ ty, id.ty symbols = .ok ty := by
  cases hlink : id.link with
  | none => exact ⟨.error, by simp [Ident.ty, hlink]⟩
  | some link =>
      obtain ⟨symbol, hget, _⟩ := h link hlink
      exact ⟨symbol.ty, by simp [Ident.ty, hlink, Arena.fetch_of_get? hget]⟩

theorem Ident.function?_isDone {id : Ident} (h : id.PointsInto symbols) :
    ∃ info?, id.function? symbols = .ok info? := by
  cases hlink : id.link with
  | none => exact ⟨none, by simp [Ident.function?, hlink]⟩
  | some link =>
      obtain ⟨symbol, hget, _⟩ := h link hlink
      exact ⟨symbol.function?, by simp [Ident.function?, hlink, Arena.fetch_of_get? hget]⟩

theorem Typing.checkOperand_isDone (ty : Ty) (pos : Pos) (accepts : Ty → Bool) (code : Code) :
    (checkOperand ty pos accepts code).IsDone := by
  unfold checkOperand
  split
  · exact isDone_done _ _
  · split
    · exact isDone_done _ _
    · exact (isDone_done _ _).bind fun _ => isDone_done _ _

theorem Typing.checkSameKind_isDone (comparison : Comparison) (left right : Ty) (pos : Pos) :
    (checkSameKind comparison left right pos).IsDone := by
  unfold checkSameKind
  split
  · exact isDone_done _ _
  · split
    · exact isDone_done _ _
    · exact (isDone_done _ _).bind fun _ => isDone_done _ _

theorem Expr.checkArgs_isDone {args : List Expr} (h : ∀ arg ∈ args, (arg.check symbols).IsDone)
    (formals : List Ty) : (Expr.checkArgs symbols args formals).IsDone := by
  induction args generalizing formals with
  | nil => exact isDone_done _ _
  | cons arg args ih =>
      cases formals with
      | nil => exact isDone_done _ _
      | cons formal formals =>
          have hargs := ih (fun other hother => h other (by simp [hother])) formals
          refine (h arg (by simp)).bind fun actual => ?_
          split
          · exact (isDone_done _ _).bind fun _ => hargs
          · exact hargs

theorem Expr.check_isDone {e : Expr} (h : ∀ id ∈ e.idents, id.PointsInto symbols) :
    (e.check symbols).IsDone := by
  induction e using Expr.induction with
  | int _ _ | str _ _ | bool _ _ => exact isDone_done _ _
  | name id | field base id _ =>
      obtain ⟨ty, hty⟩ := Ident.ty_isDone (h id (by simp [idents]))
      exact isDone_liftM hty
  | assign target value ihtarget ihvalue =>
      refine (ihtarget fun id hid => h id (by simp [idents, hid])).bind fun _ => ?_
      refine (ihvalue fun id hid => h id (by simp [idents, hid])).bind fun _ => ?_
      exact (Typing.checkSameKind_isDone _ _ _ _).bind fun _ => isDone_done _ _
  | call callee args ih =>
      have hcallee := h callee (by simp [idents])
      have hargs := fun formals => checkArgs_isDone (fun arg harg => ih arg harg fun id hid =>
        h id (by
          simp only [idents, identsAll_eq_flatMap, List.mem_cons, List.mem_flatMap]
          exact .inr ⟨arg, harg, hid⟩)) formals
      obtain ⟨ty, hty⟩ := Ident.ty_isDone hcallee
      obtain ⟨info?, hinfo⟩ := Ident.function?_isDone hcallee
      refine (isDone_liftM hty).bind fun calleeTy => ?_
      split
      · exact isDone_done _ _
      · refine (isDone_liftM hinfo).bind fun info? => ?_
        cases info? with
        | none => exact (isDone_done _ _).bind fun _ => isDone_done _ _
        | some info =>
            simp only
            split
            · exact (hargs _).bind fun _ => isDone_done _ _
            · exact (isDone_done _ _).bind fun _ => isDone_done _ _
  | unary op operand ih =>
      refine (ih fun id hid => h id (by simpa [idents] using hid)).bind fun _ => ?_
      exact (Typing.checkOperand_isDone _ _ _ _).bind fun _ => isDone_done _ _
  | binary op left right ihleft ihright =>
      refine (ihleft fun id hid => h id (by simp [idents, hid])).bind fun _ => ?_
      refine (ihright fun id hid => h id (by simp [idents, hid])).bind fun _ => ?_
      unfold Typing.checkBinary
      split
      · refine (Typing.checkOperand_isDone _ _ _ _).bind fun _ => ?_
        exact (Typing.checkOperand_isDone _ _ _ _).bind fun _ => isDone_done _ _
      · exact (Typing.checkSameKind_isDone _ _ _ _).bind fun _ => isDone_done _ _

theorem Typing.checkExpected_isDone {e : Expr} (h : ∀ id ∈ e.idents, id.PointsInto symbols)
    (accepts : Ty → Bool) (code : Code) : (checkExpected symbols e accepts code).IsDone :=
  (Expr.check_isDone h).bind fun _ =>
    (checkOperand_isDone _ _ _ _).bind fun _ => isDone_done _ _

theorem Typing.reportObjection_isDone (code? : Option Code) (pos : Pos) :
    (reportObjection code? pos).IsDone := by
  cases code? <;> exact isDone_done _ _

theorem Typing.checkReturned_isDone {value : Expr} (h : ∀ id ∈ value.idents, id.PointsInto symbols)
    (returnType : Ty) : (checkReturned symbols returnType value).IsDone := by
  refine (Expr.check_isDone h).bind fun _ => ?_
  split
  · exact isDone_done _ _
  · split <;> exact isDone_done _ _

theorem Stmt.checkAll_isDone_of {returnType : Ty} {stmts : List Stmt}
    (h : ∀ stmt ∈ stmts, (stmt.check symbols returnType).IsDone) :
    (Stmt.checkAll symbols returnType stmts).IsDone := by
  induction stmts with
  | nil => exact isDone_done _ _
  | cons stmt stmts ih =>
      exact (h stmt (by simp)).bind fun _ => ih fun other hother => h other (by simp [hother])

theorem Block.check_isDone_of {returnType : Ty} {block : Block}
    (h : ∀ stmt ∈ block.stmts, (stmt.check symbols returnType).IsDone) :
    (block.check symbols returnType).IsDone := by
  obtain ⟨decls, stmts⟩ := block
  exact Stmt.checkAll_isDone_of h

theorem Stmt.check_isDone {returnType : Ty} {stmt : Stmt}
    (h : ∀ e ∈ stmt.allExprs, ∀ id ∈ e.idents, id.PointsInto symbols) :
    (stmt.check symbols returnType).IsDone := by
  induction stmt using Stmt.induction with
  | assign target value =>
      exact (Expr.check_isDone (h _ (exprs_subset _ (by simp [exprs])))).bind fun _ =>
        isDone_done _ _
  | increment target | decrement target =>
      exact Typing.checkExpected_isDone (h target (exprs_subset _ (by simp [exprs]))) _ _
  | read target | write target =>
      exact (Expr.check_isDone (h target (exprs_subset _ (by simp [exprs])))).bind fun _ =>
        Typing.reportObjection_isDone _ _
  | ifThen cond body ih | whileLoop cond body ih | repeatLoop cond body ih =>
      have hcond := h cond (exprs_subset _ (by simp [exprs]))
      refine (Typing.checkExpected_isDone hcond _ _).bind fun _ => ?_
      refine Block.check_isDone_of fun inner hinner => ih inner hinner fun e he => h e ?_
      exact allExprs_subset_of_body body (by simp [bodies]) hinner he
  | ifElse cond thenBody elseBody ihthen ihelse =>
      have hcond := h cond (exprs_subset _ (by simp [exprs]))
      refine (Typing.checkExpected_isDone hcond _ _).bind fun _ => ?_
      refine (Block.check_isDone_of fun inner hinner => ?_).bind fun _ =>
        Block.check_isDone_of fun inner hinner => ?_
      · exact ihthen inner hinner fun e he =>
          h e (allExprs_subset_of_body thenBody (by simp [bodies]) hinner he)
      · exact ihelse inner hinner fun e he =>
          h e (allExprs_subset_of_body elseBody (by simp [bodies]) hinner he)
  | call callee args =>
      exact (Expr.check_isDone (h _ (exprs_subset _ (by simp [exprs])))).bind fun _ =>
        isDone_done _ _
  | ret value? pos =>
      cases value? with
      | none =>
          rw [Stmt.check]
          split <;> exact isDone_done _ _
      | some value =>
          exact Typing.checkReturned_isDone (h value (exprs_subset _ (by simp [exprs]))) _

/-- Checking a block whose links lead into the arena never stops at a fault. -/
theorem Block.check_isDone {returnType : Ty} {block : Block}
    (h : ∀ e ∈ block.allExprs, ∀ id ∈ e.idents, id.PointsInto symbols) :
    (block.check symbols returnType).IsDone := by
  rw [Block.allExprs_eq] at h
  exact Block.check_isDone_of fun stmt hstmt => Stmt.check_isDone fun e he =>
    h e (List.mem_flatMap.mpr ⟨stmt, hstmt, he⟩)

theorem Decl.checkAll_isDone {decls : List Decl}
    (h : ∀ fn, Decl.fn fn ∈ decls → ∀ e ∈ fn.body.allExprs, ∀ id ∈ e.idents,
      id.PointsInto symbols) : (Decl.checkAll symbols decls).IsDone := by
  induction decls with
  | nil => exact isDone_done _ _
  | cons decl decls ih =>
      refine IsDone.bind ?_ fun _ => ih fun fn hfn => h fn (by simp [hfn])
      cases decl with
      | var _ | struct _ => exact isDone_done _ _
      | fn fn => exact Block.check_isDone (h fn (by simp))

end Total

/-! ## Checking is sound -/

/-- A function whose known parameters are variables, and which returns a value or nothing. -/
structure FunctionInfo.Typed (info : FunctionInfo) : Prop where
  storable : ∀ ty ∈ info.paramTypes, ty.isStorable
  returnable : info.returnType.isReturnable

/-- No symbol has the type `error`, `void` or `string`, and all functions have types of
functions. -/
structure Arena.Typed (symbols : Arena) : Prop where
  ty : ∀ id symbol, symbols.get? id = some symbol →
    symbol.ty.isError = false ∧ symbol.ty.isVoid = false ∧ symbol.ty.isString = false
  function : ∀ id symbol info, symbols.get? id = some symbol → symbol.function? = some info →
    info.Typed

/-- Every function knows the types of all its parameters. -/
structure Arena.Complete (symbols : Arena) : Prop extends typed : symbols.Typed where
  count : ∀ id symbol info, symbols.get? id = some symbol → symbol.function? = some info →
    info.paramTypes.length = info.numParams

namespace Arena

variable {symbols : Arena} {id : Ident}

theorem ty_eq_ok {ty : Ty} (hlink : id.link.isSome) (h : id.ty symbols = .ok ty) :
    symbols.ty? id = some ty := by
  obtain ⟨link, hlink⟩ := Option.isSome_iff_exists.mp hlink
  cases hget : symbols.get? link with
  | none => simp [Ident.ty, hlink, fetch, hget] at h
  | some symbol =>
      simp only [Ident.ty, hlink, fetch_of_get? hget] at h
      cases h
      simp [ty?, symbol?, hlink, hget]

theorem function?_eq_ok {found? : Option FunctionInfo} (h : id.function? symbols = .ok found?) :
    symbols.info? id = found? := by
  cases hlink : id.link with
  | none =>
      simp only [Ident.function?, hlink, Except.ok.injEq] at h
      simp [info?, symbol?, hlink, h]
  | some link =>
      cases hget : symbols.get? link with
      | none => simp [Ident.function?, hlink, fetch, hget] at h
      | some symbol =>
          simp only [Ident.function?, hlink, fetch_of_get? hget] at h
          cases h
          simp [info?, symbol?, hlink, hget]

theorem Typed.of_ty? (h : symbols.Typed) {ty : Ty} (hty : symbols.ty? id = some ty) :
    ty.isError = false ∧ ty.isVoid = false ∧ ty.isString = false := by
  obtain ⟨symbol, hsymbol, rfl⟩ := Option.map_eq_some_iff.mp hty
  obtain ⟨link, _, hget⟩ := Option.bind_eq_some_iff.mp hsymbol
  exact h.ty link symbol hget

theorem exists_of_info? {info : FunctionInfo} (h : symbols.info? id = some info) :
    ∃ link symbol, symbols.get? link = some symbol ∧ symbol.function? = some info := by
  obtain ⟨symbol, hsymbol, hfunction⟩ := Option.bind_eq_some_iff.mp h
  obtain ⟨link, _, hget⟩ := Option.bind_eq_some_iff.mp hsymbol
  exact ⟨link, symbol, hget, hfunction⟩

theorem Typed.info (h : symbols.Typed) {info : FunctionInfo}
    (hinfo : symbols.info? id = some info) : info.Typed := by
  obtain ⟨link, symbol, hget, hfunction⟩ := exists_of_info? hinfo
  exact h.function link symbol info hget hfunction

theorem Complete.length_paramTypes (h : symbols.Complete) {info : FunctionInfo}
    (hinfo : symbols.info? id = some info) : info.paramTypes.length = info.numParams := by
  obtain ⟨link, symbol, hget, hfunction⟩ := exists_of_info? hinfo
  exact h.count link symbol info hget hfunction

end Arena

namespace Ident

variable {symbols : Arena} {id : Ident}

theorem symbol_eq {symbol : Symbol} (h : symbols.symbol? id = some symbol) :
    id.symbol symbols = .ok symbol := by
  obtain ⟨link, hlink, hget⟩ := Option.bind_eq_some_iff.mp h
  rw [Ident.symbol, hlink]
  exact Arena.fetch_of_get? hget

theorem returnType_eq {info : FunctionInfo} (h : symbols.info? id = some info) :
    id.returnType symbols = .ok info.returnType := by
  obtain ⟨symbol, hsymbol, hfunction⟩ := Option.bind_eq_some_iff.mp h
  simp [Ident.returnType, symbol_eq hsymbol, hfunction, bind, Except.bind, pure, Except.pure]

end Ident

namespace Typing

theorem checkOperand_quiet {ty : Ty} {pos : Pos} {accepts : Ty → Bool} {code : Code}
    {accepted : Bool} (hty : ty.isError = false)
    (h : checkOperand ty pos accepts code = .done accepted []) : accepts ty ∧ accepted = true := by
  unfold checkOperand at h
  rw [hty] at h
  cases haccepts : accepts ty with
  | true => simpa [haccepts, eq_comm] using h
  | false => simp [haccepts] at h

theorem checkSameKind_quiet {comparison : Comparison} {left right : Ty} {pos : Pos}
    {accepted : Bool} (hleft : left.isError = false) (hright : right.isError = false)
    (h : checkSameKind comparison left right pos = .done accepted []) :
    comparison.objection? left right = none ∧ accepted = true := by
  unfold checkSameKind at h
  rw [hleft, hright] at h
  cases hobjection : comparison.objection? left right with
  | none => simpa [hobjection, eq_comm] using h
  | some code => simp [hobjection] at h

end Typing

theorem Comparison.eq_of_equality {left right : Ty}
    (h : Comparison.equality.objection? left right = none) (hleft : left.isError = false) :
    left = right ∧ left.isComparable := by
  have hagrees : left.agrees right = true := by
    cases left <;> cases right <;> simp_all [objection?]
  obtain rfl := Ty.eq_of_agrees hagrees
  refine ⟨rfl, ?_⟩
  cases left <;> simp_all [objection?, Ty.isComparable, Ty.isError]

theorem Comparison.eq_of_assignment {left right : Ty}
    (h : Comparison.assignment.objection? left right = none) (hleft : left.isError = false) :
    left = right ∧ left.isAssignable := by
  have hagrees : left.agrees right = true := by
    cases left <;> cases right <;> simp_all [objection?]
  obtain rfl := Ty.eq_of_agrees hagrees
  refine ⟨rfl, ?_⟩
  cases left <;> simp_all [objection?, Ty.isAssignable, Ty.isError]

theorem Typing.checkBinary_quiet {op : BinaryOp} {left right ty : Ty} {leftPos rightPos : Pos}
    (hleft : left.isError = false) (hright : right.isError = false)
    (h : checkBinary op left leftPos right rightPos = .done ty []) :
    (op.family = .arithmetic ∧ left = .int ∧ right = .int ∧ ty = .int) ∨
      (op.family = .logical ∧ left = .bool ∧ right = .bool ∧ ty = .bool) ∨
      (op.family = .relational ∧ left = .int ∧ right = .int ∧ ty = .bool) ∨
      (op.family = .equality ∧ left = right ∧ left.isComparable ∧ ty = .bool) := by
  unfold checkBinary at h
  cases hrule : op.family.rule? with
  | none =>
      simp only [hrule, Reporting.bind_eq_quiet_iff] at h
      obtain ⟨accepted, haccepted, h⟩ := h
      obtain ⟨hobjection, rfl⟩ := checkSameKind_quiet hleft hright haccepted
      obtain ⟨heq, hcomparable⟩ := Comparison.eq_of_equality hobjection hleft
      cases h
      cases hfamily : op.family <;> simp_all [OpFamily.rule?]
  | some rule =>
      simp only [hrule, Reporting.bind_eq_quiet_iff] at h
      obtain ⟨leftAccepted, hl, rightAccepted, hr, h⟩ := h
      obtain ⟨haccepts, rfl⟩ := checkOperand_quiet hleft hl
      obtain ⟨haccepts', rfl⟩ := checkOperand_quiet hright hr
      cases h
      cases hfamily : op.family with
      | arithmetic =>
          rw [hfamily] at hrule
          cases hrule
          exact .inl ⟨rfl, Ty.eq_int_of_isInt haccepts, Ty.eq_int_of_isInt haccepts', rfl⟩
      | logical =>
          rw [hfamily] at hrule
          cases hrule
          exact .inr (.inl
            ⟨rfl, Ty.eq_bool_of_isBool haccepts, Ty.eq_bool_of_isBool haccepts', rfl⟩)
      | relational =>
          rw [hfamily] at hrule
          cases hrule
          exact .inr (.inr (.inl
            ⟨rfl, Ty.eq_int_of_isInt haccepts, Ty.eq_int_of_isInt haccepts', rfl⟩))
      | equality => simp [hfamily, OpFamily.rule?] at hrule

namespace Expr

variable {symbols : Arena}

theorem HasType.isError (hsymbols : symbols.Typed) {e : Expr} {ty : Ty}
    (h : e.HasType symbols ty) : ty.isError = false := by
  cases h with
  | name hid | field hid => exact (hsymbols.of_ty? hid).1
  | assign _ _ hty => cases ty <;> simp_all [Ty.isAssignable, Ty.isError]
  | call hcallee _ _ =>
      have hreturn := (hsymbols.info hcallee).returnable
      cases hty : FunctionInfo.returnType _ <;>
        simp_all [Ty.isReturnable, Ty.isStorable, Ty.isVoid, Ty.isError]
  | int _ _ | str _ _ | bool _ _ | neg _ | not _ | arithmetic _ _ _ | logical _ _ _
  | relational _ _ _ | equality _ _ _ _ => rfl

theorem checkArgs_sound {args : List Expr} {formals : List Ty}
    (h : ∀ arg ∈ args, ∀ ty, arg.check symbols = .done ty [] → arg.HasType symbols ty)
    (hsymbols : symbols.Typed) (hcount : args.length = formals.length)
    (hquiet : Expr.checkArgs symbols args formals = .done () []) :
    List.Forall₂ (HasType symbols) args formals := by
  induction args generalizing formals with
  | nil =>
      obtain rfl := List.length_eq_zero_iff.mp hcount.symm
      exact .nil
  | cons arg args ih =>
      cases formals with
      | nil => cases hcount
      | cons formal formals =>
          simp only [Expr.checkArgs, Reporting.bind_eq_quiet_iff] at hquiet
          obtain ⟨actual, hactual, hquiet⟩ := hquiet
          have hty := h arg (by simp) actual hactual
          have hargs := ih (fun other hother => h other (by simp [hother]))
            (Nat.succ.inj hcount)
          cases hagrees : actual.agrees formal with
          | false => simp [hty.isError hsymbols, hagrees] at hquiet
          | true =>
              obtain rfl := Ty.eq_of_agrees hagrees
              simp only [hagrees, Bool.not_true, Bool.and_false, Bool.false_eq_true,
                if_false] at hquiet
              exact .cons hty (hargs hquiet)

/-- An expression that is checked quietly has the type that checking computes, if the functions that
it calls know the types of all their parameters. -/
theorem check_sound_of (hsymbols : symbols.Typed) {e : Expr} {ty : Ty}
    (hcounts : ∀ call ∈ e.calls, ∀ info, symbols.info? call.1 = some info →
      info.paramTypes.length = info.numParams)
    (hlinked : ∀ id ∈ e.idents, id.link.isSome) (h : e.check symbols = .done ty []) :
    e.HasType symbols ty := by
  induction e using Expr.induction generalizing ty with
  | int value pos => cases h; exact .int value pos
  | str text pos => cases h; exact .str text pos
  | bool value pos => cases h; exact .bool value pos
  | name id =>
      obtain ⟨hty, -⟩ := Reporting.liftM_eq_done_iff.mp h
      exact .name (Arena.ty_eq_ok (hlinked id (by simp [idents])) hty)
  | field base id _ =>
      obtain ⟨hty, -⟩ := Reporting.liftM_eq_done_iff.mp h
      exact .field (Arena.ty_eq_ok (hlinked id (by simp [idents])) hty)
  | assign target value ihtarget ihvalue =>
      simp only [check, Reporting.bind_eq_quiet_iff] at h
      obtain ⟨targetTy, htarget, valueTy, hvalue, accepted, haccepted, h⟩ := h
      rw [calls_assign, List.forall_mem_append] at hcounts
      have htarget := ihtarget hcounts.1 (fun id hid => hlinked id (by simp [idents, hid])) htarget
      have hvalue := ihvalue hcounts.2 (fun id hid => hlinked id (by simp [idents, hid])) hvalue
      obtain ⟨hobjection, rfl⟩ := Typing.checkSameKind_quiet (htarget.isError hsymbols)
        (hvalue.isError hsymbols) haccepted
      obtain ⟨rfl, hassignable⟩ := Comparison.eq_of_assignment hobjection
        (htarget.isError hsymbols)
      cases h
      exact .assign htarget hvalue hassignable
  | call callee args ih =>
      simp only [check, Reporting.bind_eq_quiet_iff, Reporting.liftM_eq_done_iff, and_true] at h
      obtain ⟨calleeTy, hcalleeTy, h⟩ := h
      rw [calls_call, List.forall_mem_cons, List.forall_mem_flatMap] at hcounts
      have hcallee := Arena.ty_eq_ok (hlinked callee (by simp [idents])) hcalleeTy
      simp only [(hsymbols.of_ty? hcallee).1, Bool.false_eq_true, if_false,
        Reporting.bind_eq_quiet_iff, Reporting.liftM_eq_done_iff, and_true] at h
      obtain ⟨info?, hinfo, h⟩ := h
      cases info? with
      | none => simp at h
      | some info =>
          have hinfo := Arena.function?_eq_ok hinfo
          by_cases hcount : args.length = info.numParams
          · simp only [hcount, if_true, Reporting.bind_eq_quiet_iff] at h
            obtain ⟨_, hargs, h⟩ := h
            cases h
            refine .call hinfo hcount (checkArgs_sound (fun arg harg _ =>
              ih arg harg (hcounts.2 arg harg) ?_) hsymbols
              (hcount.trans (hcounts.1 info hinfo).symm) hargs)
            intro id hid
            refine hlinked id ?_
            simp only [idents, identsAll_eq_flatMap, List.mem_cons, List.mem_flatMap]
            exact .inr ⟨arg, harg, hid⟩
          · simp [hcount] at h
  | unary op operand ih =>
      simp only [check, Typing.checkUnary, Reporting.bind_eq_quiet_iff] at h
      obtain ⟨operandTy, hoperand, accepted, haccepted, h⟩ := h
      rw [calls_unary] at hcounts
      have hoperand := ih hcounts (fun id hid => hlinked id (by simpa [idents] using hid)) hoperand
      obtain ⟨haccepts, rfl⟩ := Typing.checkOperand_quiet (hoperand.isError hsymbols) haccepted
      cases h
      cases op with
      | neg =>
          obtain rfl := Ty.eq_int_of_isInt haccepts
          exact .neg hoperand
      | not =>
          obtain rfl := Ty.eq_bool_of_isBool haccepts
          exact .not hoperand
  | binary op left right ihleft ihright =>
      simp only [check, Reporting.bind_eq_quiet_iff] at h
      obtain ⟨leftTy, hleft, rightTy, hright, h⟩ := h
      rw [calls_binary, List.forall_mem_append] at hcounts
      have hleft := ihleft hcounts.1 (fun id hid => hlinked id (by simp [idents, hid])) hleft
      have hright := ihright hcounts.2 (fun id hid => hlinked id (by simp [idents, hid])) hright
      rcases Typing.checkBinary_quiet (hleft.isError hsymbols) (hright.isError hsymbols) h with
        ⟨hop, rfl, rfl, rfl⟩ | ⟨hop, rfl, rfl, rfl⟩ | ⟨hop, rfl, rfl, rfl⟩ | ⟨hop, rfl, hty, rfl⟩
      · exact .arithmetic hop hleft hright
      · exact .logical hop hleft hright
      · exact .relational hop hleft hright
      · exact .equality hop hleft hright hty

theorem check_sound (hsymbols : symbols.Complete) {e : Expr} {ty : Ty}
    (hlinked : ∀ id ∈ e.idents, id.link.isSome) (h : e.check symbols = .done ty []) :
    e.HasType symbols ty :=
  check_sound_of hsymbols.typed (fun _ _ _ hinfo => hsymbols.length_paramTypes hinfo) hlinked h

/-- The type that code generation reads off the links is the type of the expression. -/
theorem typeOf_eq {e : Expr} {ty : Ty} (h : e.HasType symbols ty) :
    e.typeOf symbols = .ok ty := by
  have hname : ∀ {id : Ident} {ty : Ty}, symbols.ty? id = some ty →
      (do let symbol ← id.symbol symbols; return symbol.ty : Except Fault Ty) = .ok ty := by
    intro id ty hid
    obtain ⟨symbol, hsymbol, rfl⟩ := Option.map_eq_some_iff.mp hid
    rw [Ident.symbol_eq hsymbol]
    rfl
  induction e using Expr.induction generalizing ty with
  | int _ _ | str _ _ | bool _ _ => cases h; rfl
  | name id => cases h with | name hid => exact hname hid
  | field base id _ => cases h with | field hid => exact hname hid
  | assign target value ihtarget _ =>
      cases h with | assign htarget _ _ => exact ihtarget htarget
  | call callee args _ =>
      cases h with
      | call hcallee _ _ => exact Ident.returnType_eq hcallee
  | unary op operand _ => cases h <;> rfl
  | binary op left right _ _ =>
      cases h with
      | arithmetic hop _ _ | logical hop _ _ | relational hop _ _ | equality hop _ _ _ =>
          rw [typeOf, hop]
          rfl

theorem HasType.arg {callee : Ident} {args : List Expr} {ty : Ty}
    (h : (Expr.call callee args).HasType symbols ty) :
    ∀ arg ∈ args, ∃ ty, arg.HasType symbols ty := by
  cases h with
  | @call _ _ info _ hcount hargs =>
      clear hcount
      generalize info.paramTypes = formals at hargs
      induction hargs with
      | nil => simp
      | cons harg _ ih => exact List.forall_mem_cons.mpr ⟨⟨_, harg⟩, ih⟩

theorem calls_of_isLocation {e : Expr} (hlocation : e.isLocation) (hgrammar : e.InGrammar) :
    e.calls = [] := by
  induction e using Expr.induction with
  | name id => rfl
  | field base id ih => simpa using ih hgrammar.field.1 hgrammar.field.2
  | int _ _ | str _ _ | bool _ _ | assign _ _ | call _ _ | unary _ _ | binary _ _ _ =>
      cases hlocation

theorem HasType.calls {e : Expr} {ty : Ty} (h : e.HasType symbols ty) (hgrammar : e.InGrammar) :
    ∀ c ∈ e.calls, ∃ ty, (Expr.call c.1 c.2).HasType symbols ty := by
  induction e using Expr.induction generalizing ty with
  | int _ _ | str _ _ | bool _ _ | name _ => simp [Expr.calls, nodes, call?]
  | field base id _ =>
      rw [calls_field, calls_of_isLocation hgrammar.field.1 hgrammar.field.2]
      simp
  | assign target value ihtarget ihvalue =>
      cases h with
      | assign htarget hvalue _ =>
          rw [calls_assign, List.forall_mem_append]
          exact ⟨ihtarget htarget hgrammar.assign.2.1, ihvalue hvalue hgrammar.assign.2.2⟩
  | call callee args ih =>
      rw [calls_call, List.forall_mem_cons]
      refine ⟨⟨ty, h⟩, fun c hc => ?_⟩
      obtain ⟨arg, harg, hc⟩ := List.mem_flatMap.mp hc
      obtain ⟨ty', harg'⟩ := h.arg arg harg
      exact ih arg harg harg' (hgrammar.call arg harg) c hc
  | unary op operand ih =>
      rw [calls_unary]
      cases h with
      | neg hoperand | not hoperand => exact ih hoperand hgrammar.unary
  | binary op left right ihleft ihright =>
      rw [calls_binary, List.forall_mem_append]
      cases h with
      | arithmetic _ hleft hright | logical _ hleft hright | relational _ hleft hright
      | equality _ hleft hright _ =>
          exact ⟨ihleft hleft hgrammar.binary.1, ihright hright hgrammar.binary.2⟩

end Expr

/-! ## Statements -/

/-- The typing rule of a statement, blocks inside it apart. -/
inductive Stmt.IsTyped (symbols : Arena) (returnType : Ty) : Stmt → Prop
  | assign {target value : Expr} {ty : Ty} (h : (Expr.assign target value).HasType symbols ty) :
      IsTyped symbols returnType (.assign target value)
  | increment {target : Expr} (h : target.HasType symbols .int) :
      IsTyped symbols returnType (.increment target)
  | decrement {target : Expr} (h : target.HasType symbols .int) :
      IsTyped symbols returnType (.decrement target)
  | read {target : Expr} {ty : Ty} (h : target.HasType symbols ty)
      (hty : ty.isReadable) : IsTyped symbols returnType (.read target)
  | write {value : Expr} {ty : Ty} (h : value.HasType symbols ty)
      (hty : ty.isWritable) : IsTyped symbols returnType (.write value)
  | ifThen {cond : Expr} {body : Block} (h : cond.HasType symbols .bool) :
      IsTyped symbols returnType (.ifThen cond body)
  | ifElse {cond : Expr} {thenBody elseBody : Block} (h : cond.HasType symbols .bool) :
      IsTyped symbols returnType (.ifElse cond thenBody elseBody)
  | whileLoop {cond : Expr} {body : Block} (h : cond.HasType symbols .bool) :
      IsTyped symbols returnType (.whileLoop cond body)
  | repeatLoop {count : Expr} {body : Block} (h : count.HasType symbols .int) :
      IsTyped symbols returnType (.repeatLoop count body)
  | call {callee : Ident} {args : List Expr} {ty : Ty}
      (h : (Expr.call callee args).HasType symbols ty) :
      IsTyped symbols returnType (.call callee args)
  | retValue {value : Expr} {pos : Pos} (h : value.HasType symbols returnType)
      (hty : returnType.isVoid = false) : IsTyped symbols returnType (.ret (some value) pos)
  | ret {pos : Pos} (hty : returnType = .void) : IsTyped symbols returnType (.ret none pos)

def Block.WellTyped (symbols : Arena) (returnType : Ty) (block : Block) : Prop :=
  ∀ node ∈ block.nodes, node.IsTyped symbols returnType

theorem Stmt.IsTyped.exprs {symbols : Arena} {returnType : Ty} {stmt : Stmt}
    (h : stmt.IsTyped symbols returnType) : ∀ e ∈ stmt.exprs, ∃ ty, e.HasType symbols ty := by
  cases h with
  | ret _ => simp [Stmt.exprs]
  | assign h | increment h | decrement h | read h _ | write h _ | ifThen h | ifElse h | whileLoop h
  | repeatLoop h | call h | retValue h _ => simpa [Stmt.exprs] using ⟨_, h⟩

theorem Block.WellTyped.exprs {symbols : Arena} {returnType : Ty} {block : Block}
    (h : block.WellTyped symbols returnType) :
    ∀ e ∈ block.allExprs, ∃ ty, e.HasType symbols ty := by
  intro e he
  obtain ⟨node, hnode, he⟩ := List.mem_flatMap.mp he
  exact (h node hnode).exprs e he

section Sound

variable {symbols : Arena} {returnType : Ty}

theorem Typing.checkExpected_sound (hsymbols : symbols.Complete) {e : Expr}
    {accepts : Ty → Bool} {code : Code} {u : Unit} (hlinked : ∀ id ∈ e.idents, id.link.isSome)
    (h : checkExpected symbols e accepts code = .done u []) :
    ∃ ty, e.HasType symbols ty ∧ accepts ty := by
  simp only [checkExpected, Reporting.bind_eq_quiet_iff] at h
  obtain ⟨ty, hty, _, haccepted, -⟩ := h
  have hty := Expr.check_sound hsymbols hlinked hty
  exact ⟨ty, hty, (checkOperand_quiet (hty.isError hsymbols.typed) haccepted).1⟩

theorem Typing.reportObjection_quiet {code? : Option Code} {pos : Pos} {u : Unit}
    (h : reportObjection code? pos = .done u []) : code? = none := by
  cases code? with
  | none => rfl
  | some code => simp [reportObjection] at h

theorem Typing.checkReturned_sound (hsymbols : symbols.Complete) {value : Expr} {u : Unit}
    (hlinked : ∀ id ∈ value.idents, id.link.isSome) (hreturn : returnType.isError = false)
    (h : checkReturned symbols returnType value = .done u []) :
    value.HasType symbols returnType ∧ returnType.isVoid = false := by
  simp only [checkReturned, Reporting.bind_eq_quiet_iff] at h
  obtain ⟨ty, hty, h⟩ := h
  have hty := Expr.check_sound hsymbols hlinked hty
  cases hvoid : returnType.isVoid with
  | true => simp [hvoid] at h
  | false =>
      cases hagrees : ty.agrees returnType with
      | true => exact ⟨Ty.eq_of_agrees hagrees ▸ hty, rfl⟩
      | false => simp [hvoid, hreturn, hagrees, hty.isError hsymbols.typed] at h

theorem Stmt.checkAll_sound_of {stmts : List Stmt}
    (h : ∀ stmt ∈ stmts, ∀ u, stmt.check symbols returnType = .done u [] →
      ∀ node ∈ stmt.nodes, node.IsTyped symbols returnType) {u : Unit}
    (hquiet : Stmt.checkAll symbols returnType stmts = .done u []) :
    ∀ node ∈ stmts.flatMap Stmt.nodes, node.IsTyped symbols returnType := by
  induction stmts with
  | nil => simp
  | cons stmt stmts ih =>
      simp only [Stmt.checkAll, Reporting.bind_eq_quiet_iff] at hquiet
      obtain ⟨_, hstmt, hstmts⟩ := hquiet
      rw [List.flatMap_cons, List.forall_mem_append]
      exact ⟨h stmt (by simp) _ hstmt, ih (fun other hother => h other (by simp [hother])) hstmts⟩

theorem Block.check_sound_of {block : Block}
    (h : ∀ stmt ∈ block.stmts, ∀ u, stmt.check symbols returnType = .done u [] →
      ∀ node ∈ stmt.nodes, node.IsTyped symbols returnType) {u : Unit}
    (hquiet : block.check symbols returnType = .done u []) :
    block.WellTyped symbols returnType := by
  obtain ⟨decls, stmts⟩ := block
  rw [Block.WellTyped, Block.nodes_eq]
  exact Stmt.checkAll_sound_of h hquiet

/-- A statement that is checked quietly is well typed, with all statements inside it. -/
theorem Stmt.check_sound (hsymbols : symbols.Complete) (hreturn : returnType.isError = false)
    {stmt : Stmt} {u : Unit} (hlinked : ∀ e ∈ stmt.allExprs, ∀ id ∈ e.idents, id.link.isSome)
    (h : stmt.check symbols returnType = .done u []) :
    ∀ node ∈ stmt.nodes, node.IsTyped symbols returnType := by
  induction stmt using Stmt.induction generalizing u with
  | assign target value =>
      simp only [Stmt.check, Reporting.bind_eq_quiet_iff] at h
      obtain ⟨ty, hty, -⟩ := h
      have hty := Expr.check_sound hsymbols (hlinked _ (exprs_subset _ (by simp [exprs]))) hty
      simpa [nodes] using .assign hty
  | increment target =>
      obtain ⟨ty, hty, hint⟩ := Typing.checkExpected_sound hsymbols
        (hlinked target (exprs_subset _ (by simp [exprs]))) h
      simpa [nodes] using .increment (Ty.eq_int_of_isInt hint ▸ hty)
  | decrement target =>
      obtain ⟨ty, hty, hint⟩ := Typing.checkExpected_sound hsymbols
        (hlinked target (exprs_subset _ (by simp [exprs]))) h
      simpa [nodes] using .decrement (Ty.eq_int_of_isInt hint ▸ hty)
  | read target =>
      simp only [Stmt.check, Reporting.bind_eq_quiet_iff] at h
      obtain ⟨ty, hty, hobjection⟩ := h
      have hty := Expr.check_sound hsymbols (hlinked _ (exprs_subset _ (by simp [exprs]))) hty
      simpa [nodes] using
        .read hty (Ty.readObjection?_eq_none_iff.mp (Typing.reportObjection_quiet hobjection))
  | write value =>
      simp only [Stmt.check, Reporting.bind_eq_quiet_iff] at h
      obtain ⟨ty, hty, hobjection⟩ := h
      have hty := Expr.check_sound hsymbols (hlinked _ (exprs_subset _ (by simp [exprs]))) hty
      simpa [nodes] using
        .write hty (Ty.writeObjection?_eq_none_iff.mp (Typing.reportObjection_quiet hobjection))
  | ifThen cond body ih =>
      simp only [Stmt.check, Reporting.bind_eq_quiet_iff] at h
      obtain ⟨_, hcond, hbody⟩ := h
      obtain ⟨ty, hty, hbool⟩ := Typing.checkExpected_sound hsymbols
        (hlinked cond (exprs_subset _ (by simp [exprs]))) hcond
      rw [nodes, List.forall_mem_cons]
      refine ⟨.ifThen (Ty.eq_bool_of_isBool hbool ▸ hty), Block.check_sound_of ?_ hbody⟩
      intro inner hinner _ hquiet
      exact ih inner hinner (fun e he => hlinked e
        (allExprs_subset_of_body body (by simp [bodies]) hinner he)) hquiet
  | whileLoop cond body ih =>
      simp only [Stmt.check, Reporting.bind_eq_quiet_iff] at h
      obtain ⟨_, hcond, hbody⟩ := h
      obtain ⟨ty, hty, hbool⟩ := Typing.checkExpected_sound hsymbols
        (hlinked cond (exprs_subset _ (by simp [exprs]))) hcond
      rw [nodes, List.forall_mem_cons]
      refine ⟨.whileLoop (Ty.eq_bool_of_isBool hbool ▸ hty), Block.check_sound_of ?_ hbody⟩
      intro inner hinner _ hquiet
      exact ih inner hinner (fun e he => hlinked e
        (allExprs_subset_of_body body (by simp [bodies]) hinner he)) hquiet
  | repeatLoop count body ih =>
      simp only [Stmt.check, Reporting.bind_eq_quiet_iff] at h
      obtain ⟨_, hcount, hbody⟩ := h
      obtain ⟨ty, hty, hint⟩ := Typing.checkExpected_sound hsymbols
        (hlinked count (exprs_subset _ (by simp [exprs]))) hcount
      rw [nodes, List.forall_mem_cons]
      refine ⟨.repeatLoop (Ty.eq_int_of_isInt hint ▸ hty), Block.check_sound_of ?_ hbody⟩
      intro inner hinner _ hquiet
      exact ih inner hinner (fun e he => hlinked e
        (allExprs_subset_of_body body (by simp [bodies]) hinner he)) hquiet
  | ifElse cond thenBody elseBody ihthen ihelse =>
      simp only [Stmt.check, Reporting.bind_eq_quiet_iff] at h
      obtain ⟨_, hcond, _, hthen, helse⟩ := h
      obtain ⟨ty, hty, hbool⟩ := Typing.checkExpected_sound hsymbols
        (hlinked cond (exprs_subset _ (by simp [exprs]))) hcond
      rw [nodes, List.forall_mem_cons, List.forall_mem_append]
      refine ⟨.ifElse (Ty.eq_bool_of_isBool hbool ▸ hty), Block.check_sound_of ?_ hthen,
        Block.check_sound_of ?_ helse⟩
      · intro inner hinner _ hquiet
        exact ihthen inner hinner (fun e he => hlinked e
          (allExprs_subset_of_body thenBody (by simp [bodies]) hinner he)) hquiet
      · intro inner hinner _ hquiet
        exact ihelse inner hinner (fun e he => hlinked e
          (allExprs_subset_of_body elseBody (by simp [bodies]) hinner he)) hquiet
  | call callee args =>
      simp only [Stmt.check, Reporting.bind_eq_quiet_iff] at h
      obtain ⟨ty, hty, -⟩ := h
      have hty := Expr.check_sound hsymbols (hlinked _ (exprs_subset _ (by simp [exprs]))) hty
      simpa [nodes] using .call hty
  | ret value? pos =>
      cases value? with
      | none =>
          have hvoid : returnType.isVoid := by
            cases hvoid : returnType.isVoid with
            | true => rfl
            | false => simp [Stmt.check, hvoid] at h
          simpa [nodes] using .ret (Ty.eq_void_of_isVoid hvoid)
      | some value =>
          obtain ⟨hvalue, hvoid⟩ := Typing.checkReturned_sound hsymbols
            (hlinked value (exprs_subset _ (by simp [exprs]))) hreturn h
          simpa [nodes] using .retValue hvalue hvoid

theorem Block.check_sound (hsymbols : symbols.Complete) (hreturn : returnType.isError = false)
    {block : Block} {u : Unit} (hlinked : ∀ e ∈ block.allExprs, ∀ id ∈ e.idents, id.link.isSome)
    (h : block.check symbols returnType = .done u []) : block.WellTyped symbols returnType := by
  rw [Block.allExprs_eq] at hlinked
  exact Block.check_sound_of (fun stmt hstmt _ hquiet => Stmt.check_sound hsymbols hreturn
    (fun e he => hlinked e (List.mem_flatMap.mpr ⟨stmt, hstmt, he⟩)) hquiet) h

theorem Decl.checkAll_quiet {decls : List Decl} {u : Unit}
    (h : Decl.checkAll symbols decls = .done u []) {fn : FnDecl} (hfn : Decl.fn fn ∈ decls) :
    fn.body.check symbols fn.returnType.toTy = .done () [] := by
  induction decls generalizing u with
  | nil => simp at hfn
  | cons decl decls ih =>
      simp only [Decl.checkAll, Reporting.bind_eq_quiet_iff] at h
      obtain ⟨_, hdecl, hdecls⟩ := h
      rcases List.mem_cons.mp hfn with rfl | hfn
      · exact hdecl
      · exact ih hdecls hfn

end Sound

end StackMips
