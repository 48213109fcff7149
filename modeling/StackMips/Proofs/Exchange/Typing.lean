import StackMips.Proofs.Exchange.Symbols
import StackMips.Typing

/-!
# Checking after an exchange

Checking looks at types only through the symbols behind identifiers, and compares names of structs
with each other and with nothing else.  So a tree with other names gets the renamed types and the
same reports.
-/

namespace StackMips

namespace Reporting

/-- Computations that report the same, the second with the corresponding result, or that both
stop. -/
inductive Alike {α β : Type} (f : α → β) : Reporting α → Reporting β → Prop
  | done {a : α} {b : β} (h : b = f a) (reports : List Diagnostic) :
      Alike f (.done a reports) (.done b reports)
  | stopped (fault fault' : Fault) : Alike f (.stopped fault) (.stopped fault')

namespace Alike

variable {α β γ δ : Type} {f : α → β} {g : γ → δ}

theorem bind {c : Reporting α} {c' : Reporting β} (hc : Alike f c c') {k : α → Reporting γ}
    {k' : β → Reporting δ} (hk : ∀ a, Alike g (k a) (k' (f a))) :
    Alike g (c >>= k) (c' >>= k') := by
  cases hc with
  | stopped fault fault' => exact .stopped fault fault'
  | @done a b h reports =>
      subst h
      have hk := hk a
      rw [done_bind, done_bind]
      generalize k a = d, k' (f a) = d' at hk
      cases hk with
      | stopped fault fault' => exact .stopped fault fault'
      | done h more => exact .done h (reports ++ more)

theorem self (c : Reporting α) : Alike id c c := by
  cases c with
  | done a reports => exact .done rfl reports
  | stopped fault => exact .stopped fault fault

/-- Only what follows the same computation has to be compared. -/
theorem after (c : Reporting α) {k : α → Reporting γ} {k' : α → Reporting δ}
    (hk : ∀ a, Alike g (k a) (k' a)) : Alike g (c >>= k) (c >>= k') :=
  (self c).bind hk

end Alike

abbrev SameReports : Reporting Unit → Reporting Unit → Prop := Alike id

end Reporting

variable {x : Exchange}

/-! ## Operators -/

namespace Typing

theorem objection?_rename (comparison : Comparison) (left right : Ty) :
    comparison.objection? (left.rename x.name) (right.rename x.name) =
      comparison.objection? left right := by
  have hagrees := Ty.agrees_rename x.name_injective left right
  cases comparison <;> cases left <;> cases right <;>
    simp only [Ty.rename, Comparison.objection?] at hagrees ⊢ <;> rw [hagrees]

theorem checkOperand_rename {accepts : Ty → Bool}
    (haccepts : ∀ ty, accepts (Ty.rename x.name ty) = accepts ty) (ty : Ty) (pos : Pos)
    (code : Code) :
    checkOperand (ty.rename x.name) pos accepts code = checkOperand ty pos accepts code := by
  rw [checkOperand, checkOperand, Ty.isError_rename, haccepts]

theorem checkSameKind_rename (comparison : Comparison) (left right : Ty) (pos : Pos) :
    checkSameKind comparison (left.rename x.name) (right.rename x.name) pos =
      checkSameKind comparison left right pos := by
  rw [checkSameKind, checkSameKind, Ty.isError_rename, Ty.isError_rename, objection?_rename]

theorem alike_checkUnary (op : UnaryOp) (ty : Ty) (pos : Pos) :
    Reporting.Alike (Ty.rename x.name) (checkUnary op ty pos)
      (checkUnary op (ty.rename x.name) pos) := by
  have haccepts : ∀ ty, op.rule.accepts (Ty.rename x.name ty) = op.rule.accepts ty := by
    cases op
    · exact Ty.isInt_rename
    · exact Ty.isBool_rename
  rw [checkUnary, checkUnary, checkOperand_rename haccepts]
  apply Reporting.Alike.after
  intro accepted
  cases accepted <;> cases op <;> exact .done rfl _

theorem alike_checkOperands {rule : OperandRule}
    (haccepts : ∀ ty, rule.accepts (Ty.rename x.name ty) = rule.accepts ty)
    (hresult : rule.result.rename x.name = rule.result) (left right : Ty)
    (leftPos rightPos : Pos) : Reporting.Alike (Ty.rename x.name)
      (do
        let leftAccepted ← checkOperand left leftPos rule.accepts rule.code
        let rightAccepted ← checkOperand right rightPos rule.accepts rule.code
        return if leftAccepted && rightAccepted then rule.result else .error)
      (do
        let leftAccepted ← checkOperand (left.rename x.name) leftPos rule.accepts rule.code
        let rightAccepted ← checkOperand (right.rename x.name) rightPos rule.accepts rule.code
        return if leftAccepted && rightAccepted then rule.result else .error) := by
  rw [checkOperand_rename haccepts, checkOperand_rename haccepts]
  refine Reporting.Alike.after _ fun leftAccepted => Reporting.Alike.after _ fun rightAccepted => ?_
  split
  · exact .done hresult.symm []
  · exact .done rfl []

theorem alike_checkBinary (op : BinaryOp) (left right : Ty) (leftPos rightPos : Pos) :
    Reporting.Alike (Ty.rename x.name) (checkBinary op left leftPos right rightPos)
      (checkBinary op (left.rename x.name) leftPos (right.rename x.name) rightPos) := by
  rw [checkBinary, checkBinary]
  cases op.family with
  | arithmetic | relational => exact alike_checkOperands Ty.isInt_rename rfl _ _ _ _
  | logical => exact alike_checkOperands Ty.isBool_rename rfl _ _ _ _
  | equality =>
      simp only [OpFamily.rule?, checkSameKind_rename]
      apply Reporting.Alike.after
      intro accepted
      cases accepted <;> exact .done rfl _

end Typing

namespace Ident

variable {a a' : Arena} (h : a.Corresponds x a') (id : Ident)
include h

theorem alike_ty : Reporting.Alike (Ty.rename x.name) (Reporting.ofExcept (id.ty a))
    (Reporting.ofExcept ((x.ident id).ty a')) := by
  obtain ⟨name, pos, link⟩ := id
  cases link with
  | none => exact .done rfl []
  | some link =>
      have hget := h.get? link
      simp only [Ident.ty, Exchange.ident, Option.map_some, Arena.fetch]
      generalize a.get? link = found, a'.get? (x.link link) = found' at hget
      cases hget with
      | none => exact .stopped _ _
      | some hsymbol => exact .done hsymbol.ty []

theorem alike_function? : Reporting.Alike (Option.map (FunctionInfo.rename x.name))
    (Reporting.ofExcept (id.function? a)) (Reporting.ofExcept ((x.ident id).function? a')) := by
  obtain ⟨name, pos, link⟩ := id
  cases link with
  | none => exact .done rfl []
  | some link =>
      have hget := h.get? link
      simp only [Ident.function?, Exchange.ident, Option.map_some, Arena.fetch]
      generalize a.get? link = found, a'.get? (x.link link) = found' at hget
      cases hget with
      | none => exact .stopped _ _
      | some hsymbol => exact .done hsymbol.function? []

end Ident

/-! ## Expressions -/

namespace Expr

variable {a a' : Arena}

theorem pos_exchange (e : Expr) : (e.mapIdents x.ident).pos = e.pos :=
  e.pos_mapIdents (f := x.ident) fun _ => rfl

theorem alike_checkArgs {args : List Expr}
    (h : ∀ arg ∈ args, Reporting.Alike (Ty.rename x.name) (arg.check a)
      ((arg.mapIdents x.ident).check a')) (formals : List Ty) :
    Reporting.SameReports (checkArgs a args formals)
      (checkArgs a' (args.map (mapIdents x.ident)) (formals.map (Ty.rename x.name))) := by
  induction args generalizing formals with
  | nil => exact .done rfl []
  | cons arg args ih =>
      obtain ⟨harg, hargs⟩ := List.forall_mem_cons.mp h
      cases formals with
      | nil => exact .done rfl []
      | cons formal formals =>
          rw [List.map_cons, List.map_cons, checkArgs, checkArgs]
          apply harg.bind
          intro actual
          rw [Ty.isError_rename, Ty.agrees_rename x.name_injective, pos_exchange]
          by_cases hreport : !actual.isError && !actual.agrees formal
          · rw [if_pos hreport, if_pos hreport]
            exact Reporting.Alike.after _ fun _ => ih hargs formals
          · rw [if_neg hreport, if_neg hreport]
            exact ih hargs formals

theorem alike_check (h : a.Corresponds x a') (e : Expr) :
    Reporting.Alike (Ty.rename x.name) (e.check a) ((e.mapIdents x.ident).check a') := by
  induction e using Expr.induction with
  | int _ _ => exact .done rfl []
  | str _ _ => exact .done rfl []
  | bool _ _ => exact .done rfl []
  | name id => exact id.alike_ty h
  | field base id _ => exact id.alike_ty h
  | assign target value ihtarget ihvalue =>
      rw [mapIdents, check, check]
      apply ihtarget.bind
      intro targetTy
      apply ihvalue.bind
      intro valueTy
      rw [Typing.checkSameKind_rename, pos_exchange]
      apply Reporting.Alike.after
      intro accepted
      cases accepted <;> exact .done rfl _
  | call callee args ih =>
      rw [mapIdents, check, check, mapIdentsAll_eq_map]
      apply (callee.alike_ty h).bind
      intro calleeTy
      rw [Ty.isError_rename]
      split
      · exact .done rfl []
      apply (callee.alike_function? h).bind
      intro info?
      cases info? with
      | none => exact Reporting.Alike.after _ fun _ => .done rfl []
      | some info =>
          simp only [Option.map_some, List.length_map, FunctionInfo.rename]
          by_cases hcount : args.length = info.numParams
          · rw [if_pos hcount, if_pos hcount]
            exact (alike_checkArgs ih info.paramTypes).bind fun _ => .done rfl []
          · rw [if_neg hcount, if_neg hcount]
            exact Reporting.Alike.after _ fun _ => .done rfl []
  | unary op operand ih =>
      rw [mapIdents, check, check, pos_exchange]
      exact ih.bind fun ty => Typing.alike_checkUnary op ty operand.pos
  | binary op left right ihleft ihright =>
      rw [mapIdents, check, check, pos_exchange, pos_exchange]
      exact ihleft.bind fun leftTy => ihright.bind fun rightTy =>
        Typing.alike_checkBinary op leftTy rightTy left.pos right.pos

end Expr

/-! ## Statements -/

namespace Typing

variable {a a' : Arena} (h : a.Corresponds x a')
include h

theorem alike_checkExpected (e : Expr) {accepts : Ty → Bool}
    (haccepts : ∀ ty, accepts (Ty.rename x.name ty) = accepts ty) (code : Code) :
    Reporting.SameReports (checkExpected a e accepts code)
      (checkExpected a' (e.mapIdents x.ident) accepts code) := by
  rw [checkExpected, checkExpected]
  apply (e.alike_check h).bind
  intro ty
  rw [checkOperand_rename haccepts, e.pos_exchange]
  exact Reporting.Alike.after _ fun _ => .done rfl []

theorem alike_checkReturned (returnType : Ty) (value : Expr) :
    Reporting.SameReports (checkReturned a returnType value)
      (checkReturned a' (returnType.rename x.name) (value.mapIdents x.ident)) := by
  rw [checkReturned, checkReturned]
  apply (value.alike_check h).bind
  intro ty
  rw [Ty.isVoid_rename, Ty.isError_rename, Ty.isError_rename, Ty.agrees_rename x.name_injective,
    value.pos_exchange]
  exact Reporting.Alike.self _

end Typing

theorem Ty.readObjection?_rename {f : String → String} (ty : Ty) :
    (ty.rename f).readObjection? = ty.readObjection? := by
  cases ty <;> rfl

theorem Ty.writeObjection?_rename {f : String → String} (ty : Ty) :
    (ty.rename f).writeObjection? = ty.writeObjection? := by
  cases ty <;> rfl

theorem Stmt.alike_checkAll {a a' : Arena} {returnType : Ty} {stmts : List Stmt}
    (h : ∀ stmt ∈ stmts, Reporting.SameReports (stmt.check a returnType)
      ((stmt.mapIdents x.ident).check a' (returnType.rename x.name))) :
    Reporting.SameReports (checkAll a returnType stmts)
      (checkAll a' (returnType.rename x.name) (stmts.map (mapIdents x.ident))) := by
  induction stmts with
  | nil => exact .done rfl []
  | cons stmt stmts ih =>
      obtain ⟨hstmt, hstmts⟩ := List.forall_mem_cons.mp h
      exact hstmt.bind fun _ => ih hstmts

theorem Block.alike_check_of {a a' : Arena} {returnType : Ty} {block : Block}
    (h : ∀ stmt ∈ block.stmts, Reporting.SameReports (stmt.check a returnType)
      ((stmt.mapIdents x.ident).check a' (returnType.rename x.name))) :
    Reporting.SameReports (block.check a returnType)
      ((block.mapIdents x.ident).check a' (returnType.rename x.name)) := by
  obtain ⟨decls, stmts⟩ := block
  rw [mapIdents, check, check, Stmt.mapIdentsAll_eq_map]
  exact Stmt.alike_checkAll h

section

variable {a a' : Arena} (h : a.Corresponds x a') (returnType : Ty)
include h

theorem Stmt.alike_check (stmt : Stmt) : Reporting.SameReports (stmt.check a returnType)
    ((stmt.mapIdents x.ident).check a' (returnType.rename x.name)) := by
  induction stmt using Stmt.induction with
  | assign target value =>
      exact (Expr.alike_check h (.assign target value)).bind fun _ => .done rfl []
  | increment target | decrement target =>
      exact Typing.alike_checkExpected h target Ty.isInt_rename _
  | read target =>
      rw [mapIdents, check, check]
      apply (target.alike_check h).bind
      intro ty
      rw [Ty.readObjection?_rename, target.pos_exchange]
      exact Reporting.Alike.self _
  | write value =>
      rw [mapIdents, check, check]
      apply (value.alike_check h).bind
      intro ty
      rw [Ty.writeObjection?_rename, value.pos_exchange]
      exact Reporting.Alike.self _
  | ifThen cond body ih | whileLoop cond body ih =>
      exact (Typing.alike_checkExpected h cond Ty.isBool_rename _).bind fun _ =>
        Block.alike_check_of ih
  | repeatLoop count body ih =>
      exact (Typing.alike_checkExpected h count Ty.isInt_rename _).bind fun _ =>
        Block.alike_check_of ih
  | ifElse cond thenBody elseBody ihthen ihelse =>
      exact (Typing.alike_checkExpected h cond Ty.isBool_rename _).bind fun _ =>
        (Block.alike_check_of ihthen).bind fun _ => Block.alike_check_of ihelse
  | call callee args =>
      exact (Expr.alike_check h (.call callee args)).bind fun _ => .done rfl []
  | ret value? pos =>
      cases value? with
      | none =>
          rw [mapIdents, Option.map_none, check, check, Ty.isVoid_rename]
          exact Reporting.Alike.self _
      | some value => exact Typing.alike_checkReturned h returnType value

end

theorem Decl.alike_check {a a' : Arena} (h : a.Corresponds x a') (decl : Decl) :
    Reporting.SameReports (decl.check a) ((decl.mapIdents x.ident).check a') := by
  cases decl with
  | var _ | struct _ => exact .done rfl []
  | fn fn =>
      have hbody := Block.alike_check_of fun stmt (_ : stmt ∈ fn.body.stmts) =>
        stmt.alike_check h fn.returnType.toTy
      rw [← TypeName.toTy_exchange] at hbody
      exact hbody

theorem Program.alike_check {a a' : Arena} (h : a.Corresponds x a') (program : Program) :
    Reporting.SameReports (program.check a) ((program.mapIdents x.ident).check a') := by
  obtain ⟨decls⟩ := program
  rw [Program.check, Program.check, Program.mapIdents]
  induction decls with
  | nil => exact .done rfl []
  | cons decl decls ih => exact (decl.alike_check h).bind fun _ => ih

end StackMips
