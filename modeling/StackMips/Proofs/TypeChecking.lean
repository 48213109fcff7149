import StackMips.Proofs.Analysis

/-!
# Type checking decides the typing rules

Checking accepts every tree that the rules give a type, and computes that type.  With soundness this
makes the checker exact: a program that was resolved without a report is checked without one exactly
when all its function bodies are well typed.
-/

namespace StackMips

/-! ## Checking is complete -/

namespace Ty

theorem agrees_self_of_isAssignable {ty : Ty} (h : ty.isAssignable) : ty.agrees ty := by
  cases ty <;> simp_all [isAssignable, agrees]

theorem agrees_self_of_isReturnable {ty : Ty} (h : ty.isReturnable) : ty.agrees ty := by
  cases ty <;> simp_all [isReturnable, isStorable, isVoid, agrees]

theorem isAssignable_of_isComparable {ty : Ty} (h : ty.isComparable) : ty.isAssignable := by
  cases ty <;> simp_all [isComparable, isAssignable]

theorem isError_of_isAssignable {ty : Ty} (h : ty.isAssignable) : ty.isError = false := by
  cases ty <;> simp_all [isAssignable, isError]

theorem isReturnable_of_isStorable {ty : Ty} (h : ty.isStorable) : ty.isReturnable := by
  simp [isReturnable, h]

end Ty

namespace Comparison

theorem equality_objection? {ty : Ty} (h : ty.isComparable) :
    Comparison.equality.objection? ty ty = none := by
  have hagrees := Ty.agrees_self_of_isAssignable (Ty.isAssignable_of_isComparable h)
  cases ty <;> simp_all [objection?, Ty.isComparable]

theorem assignment_objection? {ty : Ty} (h : ty.isAssignable) :
    Comparison.assignment.objection? ty ty = none := by
  have hagrees := Ty.agrees_self_of_isAssignable h
  cases ty <;> simp_all [objection?, Ty.isAssignable]

end Comparison

namespace Typing

theorem checkOperand_eq {ty : Ty} {accepts : Ty → Bool} (herror : ty.isError = false)
    (h : accepts ty) (pos : Pos) (code : Code) :
    checkOperand ty pos accepts code = .done true [] := by
  simp [checkOperand, herror, h]

theorem checkSameKind_eq {comparison : Comparison} {ty : Ty} (herror : ty.isError = false)
    (h : comparison.objection? ty ty = none) (pos : Pos) :
    checkSameKind comparison ty ty pos = .done true [] := by
  simp [checkSameKind, herror, h]

theorem checkBinary_rule {op : BinaryOp} {rule : OperandRule} {ty : Ty}
    (hrule : op.family.rule? = some rule) (herror : ty.isError = false) (h : rule.accepts ty)
    (leftPos rightPos : Pos) : checkBinary op ty leftPos ty rightPos = .done rule.result [] := by
  simp [checkBinary, hrule, checkOperand_eq herror h]

theorem checkBinary_equality {op : BinaryOp} {ty : Ty} (hop : op.family = .equality)
    (h : ty.isComparable) (leftPos rightPos : Pos) :
    checkBinary op ty leftPos ty rightPos = .done .bool [] := by
  have herror := Ty.isError_of_isAssignable (Ty.isAssignable_of_isComparable h)
  simp [checkBinary, hop, OpFamily.rule?,
    checkSameKind_eq herror (Comparison.equality_objection? h)]

end Typing

namespace Ident

variable {symbols : Arena} {id : Ident}

theorem ty_eq {ty : Ty} (h : symbols.ty? id = some ty) : id.ty symbols = .ok ty := by
  obtain ⟨symbol, hsymbol, rfl⟩ := Option.map_eq_some_iff.mp h
  obtain ⟨link, hlink, hget⟩ := Option.bind_eq_some_iff.mp hsymbol
  simp [Ident.ty, hlink, Arena.fetch_of_get? hget]

theorem function?_eq {info : FunctionInfo} (h : symbols.info? id = some info) :
    id.function? symbols = .ok (some info) := by
  obtain ⟨symbol, hsymbol, hfunction⟩ := Option.bind_eq_some_iff.mp h
  obtain ⟨link, hlink, hget⟩ := Option.bind_eq_some_iff.mp hsymbol
  simp [Ident.function?, hlink, Arena.fetch_of_get? hget, hfunction]

theorem exists_ty_of_info {info : FunctionInfo} (h : symbols.info? id = some info) :
    ∃ ty, symbols.ty? id = some ty := by
  obtain ⟨symbol, hsymbol, _⟩ := Option.bind_eq_some_iff.mp h
  exact ⟨symbol.ty, by rw [Arena.ty?, hsymbol, Option.map_some]⟩

end Ident

section Complete

variable {symbols : Arena} {returnType : Ty}

theorem Expr.checkArgs_complete {args : List Expr} {formals : List Ty}
    (h : ∀ arg ∈ args, ∀ ty, arg.HasType symbols ty → arg.check symbols = .done ty [])
    (hformals : ∀ ty ∈ formals, ty.isStorable)
    (hargs : List.Forall₂ (Expr.HasType symbols) args formals) :
    Expr.checkArgs symbols args formals = .done () [] := by
  induction hargs with
  | nil => rfl
  | @cons arg formal args formals harg _ ih =>
      have hagrees := Ty.agrees_self_of_isReturnable
        (Ty.isReturnable_of_isStorable (hformals formal (by simp)))
      have hrest := ih (fun other hother => h other (by simp [hother]))
        fun ty hty => hformals ty (by simp [hty])
      simp [Expr.checkArgs, h arg (by simp) formal harg, hagrees, hrest]

/-- An expression with a type is checked quietly, and checking computes the type. -/
theorem Expr.check_complete (hsymbols : symbols.Complete) {e : Expr} {ty : Ty}
    (h : e.HasType symbols ty) : e.check symbols = .done ty [] := by
  induction e using Expr.induction generalizing ty with
  | int _ _ | str _ _ | bool _ _ =>
      cases h
      rfl
  | name id =>
      cases h with
      | name hid => rw [check, Ident.ty_eq hid, Reporting.liftM_ok]
  | field base id _ =>
      cases h with
      | field hid => rw [check, Ident.ty_eq hid, Reporting.liftM_ok]
  | assign target value ihtarget ihvalue =>
      cases h with
      | assign htarget hvalue hty =>
          have hsame := Typing.checkSameKind_eq (Ty.isError_of_isAssignable hty)
            (Comparison.assignment_objection? hty) target.pos
          simp [check, ihtarget htarget, ihvalue hvalue, hsame]
  | call callee args ih =>
      cases h with
      | @call _ _ info hcallee hcount hargs =>
          obtain ⟨calleeTy, hty⟩ := Ident.exists_ty_of_info hcallee
          have hchecked := checkArgs_complete (fun arg harg _ => ih arg harg)
            (hsymbols.info hcallee).storable hargs
          simp [check, Ident.ty_eq hty, (hsymbols.of_ty? hty).1, Ident.function?_eq hcallee, hcount,
            hchecked]
  | unary op operand ih =>
      cases h with
      | neg hoperand | not hoperand =>
          simp [check, ih hoperand, Typing.checkUnary, Typing.checkOperand, UnaryOp.rule,
            Ty.isError, Ty.isInt, Ty.isBool]
  | binary op left right ihleft ihright =>
      cases h with
      | arithmetic hop hleft hright | logical hop hleft hright | relational hop hleft hright =>
          have hrule := congrArg OpFamily.rule? hop
          simp only [check, ihleft hleft, ihright hright, Reporting.done_bind_eq,
            Reporting.after_nil]
          exact Typing.checkBinary_rule hrule rfl rfl _ _
      | equality hop hleft hright hty =>
          simp [check, ihleft hleft, ihright hright, Typing.checkBinary_equality hop hty]

theorem Typing.checkExpected_complete (hsymbols : symbols.Complete) {e : Expr} {ty : Ty}
    {accepts : Ty → Bool} (h : e.HasType symbols ty) (haccepts : accepts ty) (code : Code) :
    checkExpected symbols e accepts code = .done () [] := by
  simp [checkExpected, Expr.check_complete hsymbols h,
    checkOperand_eq (h.isError hsymbols.typed) haccepts]

theorem Typing.checkExpected_int (hsymbols : symbols.Complete) {e : Expr}
    (h : e.HasType symbols .int) (code : Code) :
    checkExpected symbols e Ty.isInt code = .done () [] :=
  checkExpected_complete hsymbols h rfl code

theorem Typing.checkExpected_bool (hsymbols : symbols.Complete) {e : Expr}
    (h : e.HasType symbols .bool) (code : Code) :
    checkExpected symbols e Ty.isBool code = .done () [] :=
  checkExpected_complete hsymbols h rfl code

theorem Stmt.checkAll_complete_of {stmts : List Stmt}
    (h : ∀ stmt ∈ stmts, stmt.check symbols returnType = .done () []) :
    Stmt.checkAll symbols returnType stmts = .done () [] := by
  induction stmts with
  | nil => rfl
  | cons stmt stmts ih =>
      obtain ⟨hstmt, hstmts⟩ := List.forall_mem_cons.mp h
      rw [Stmt.checkAll, hstmt, Reporting.done_bind_eq, ih hstmts, Reporting.after_nil]

theorem Block.check_complete_of {block : Block}
    (ih : ∀ stmt ∈ block.stmts, (∀ node ∈ stmt.nodes, node.IsTyped symbols returnType) →
      stmt.check symbols returnType = .done () [])
    (h : block.WellTyped symbols returnType) :
    block.check symbols returnType = .done () [] := by
  obtain ⟨decls, stmts⟩ := block
  rw [Block.WellTyped, Block.nodes_eq] at h
  exact Stmt.checkAll_complete_of fun stmt hstmt => ih stmt hstmt fun node hnode =>
    h node (List.mem_flatMap.mpr ⟨stmt, hstmt, hnode⟩)

theorem Stmt.wellTyped_of_bodies {stmt : Stmt}
    (h : ∀ node ∈ stmt.nodes, node.IsTyped symbols returnType) :
    ∀ body ∈ stmt.bodies, body.WellTyped symbols returnType := by
  intro body hbody node hnode
  rw [nodes_eq, List.forall_mem_cons] at h
  exact h.2 node (List.mem_flatMap.mpr ⟨body, hbody, hnode⟩)

/-- A statement is checked quietly if it and all statements inside it are well typed. -/
theorem Stmt.check_complete (hsymbols : symbols.Complete) (hreturn : returnType.isReturnable)
    {stmt : Stmt} (h : ∀ node ∈ stmt.nodes, node.IsTyped symbols returnType) :
    stmt.check symbols returnType = .done () [] := by
  induction stmt using Stmt.induction with
  | assign target value =>
      cases h _ (self_mem_nodes _) with
      | assign hty => simp [Stmt.check, Expr.check_complete hsymbols hty]
  | increment target =>
      cases h _ (self_mem_nodes _) with
      | increment hty => exact Typing.checkExpected_int hsymbols hty _
  | decrement target =>
      cases h _ (self_mem_nodes _) with
      | decrement hty => exact Typing.checkExpected_int hsymbols hty _
  | read target =>
      cases h _ (self_mem_nodes _) with
      | read hty hreadable =>
          simp [Stmt.check, Expr.check_complete hsymbols hty,
            Ty.readObjection?_eq_none_iff.mpr hreadable, Typing.reportObjection]
  | write value =>
      cases h _ (self_mem_nodes _) with
      | write hty hwritable =>
          simp [Stmt.check, Expr.check_complete hsymbols hty,
            Ty.writeObjection?_eq_none_iff.mpr hwritable, Typing.reportObjection]
  | ifThen cond body ih =>
      have hbody := Block.check_complete_of ih (wellTyped_of_bodies h body (by simp [bodies]))
      cases h _ (self_mem_nodes _) with
      | ifThen hty => simp [Stmt.check, Typing.checkExpected_bool hsymbols hty, hbody]
  | whileLoop cond body ih =>
      have hbody := Block.check_complete_of ih (wellTyped_of_bodies h body (by simp [bodies]))
      cases h _ (self_mem_nodes _) with
      | whileLoop hty => simp [Stmt.check, Typing.checkExpected_bool hsymbols hty, hbody]
  | repeatLoop count body ih =>
      have hbody := Block.check_complete_of ih (wellTyped_of_bodies h body (by simp [bodies]))
      cases h _ (self_mem_nodes _) with
      | repeatLoop hty => simp [Stmt.check, Typing.checkExpected_int hsymbols hty, hbody]
  | ifElse cond thenBody elseBody ihthen ihelse =>
      have hthen := Block.check_complete_of ihthen
        (wellTyped_of_bodies h thenBody (by simp [bodies]))
      have helse := Block.check_complete_of ihelse
        (wellTyped_of_bodies h elseBody (by simp [bodies]))
      cases h _ (self_mem_nodes _) with
      | ifElse hty =>
          simp [Stmt.check, Typing.checkExpected_bool hsymbols hty, hthen, helse]
  | call callee args =>
      cases h _ (self_mem_nodes _) with
      | call hty => simp [Stmt.check, Expr.check_complete hsymbols hty]
  | ret value? pos =>
      cases h _ (self_mem_nodes _) with
      | retValue hty hvoid =>
          simp [Stmt.check, Typing.checkReturned, Expr.check_complete hsymbols hty, hvoid,
            Ty.agrees_self_of_isReturnable hreturn]
      | ret hty =>
          subst hty
          rfl

theorem Block.check_complete (hsymbols : symbols.Complete) (hreturn : returnType.isReturnable)
    {block : Block} (h : block.WellTyped symbols returnType) :
    block.check symbols returnType = .done () [] :=
  Block.check_complete_of (fun _ _ => Stmt.check_complete hsymbols hreturn) h

theorem Decl.checkAll_complete (hsymbols : symbols.Complete) {decls : List Decl}
    (h : ∀ fn, Decl.fn fn ∈ decls → fn.body.WellTyped symbols fn.returnType.toTy) :
    Decl.checkAll symbols decls = .done () [] := by
  induction decls with
  | nil => rfl
  | cons decl decls ih =>
      have hdecls := ih fun fn hfn => h fn (by simp [hfn])
      cases decl with
      | var _ | struct _ => simp [Decl.checkAll, Decl.check, hdecls]
      | fn fn =>
          have hbody := Block.check_complete hsymbols fn.returnType.isReturnable_toTy
            (h fn (by simp))
          simp [Decl.checkAll, Decl.check, FnDecl.check, hbody, hdecls]

end Complete

/-! ## Whole programs -/

/-- The expression is linked throughout, so the rules and the checker agree on it. -/
theorem Expr.check_eq_quiet_iff {symbols : Arena} (hsymbols : symbols.Complete) {e : Expr} {ty : Ty}
    (hlinked : ∀ id ∈ e.idents, id.link.isSome) :
    e.check symbols = .done ty [] ↔ e.HasType symbols ty :=
  ⟨check_sound hsymbols hlinked, check_complete hsymbols⟩

namespace Resolved.Linked

variable {resolved : Resolved} (h : resolved.Linked)
include h

theorem check_eq_quiet_iff : resolved.program.check resolved.context.symbols = .done () [] ↔
    ∀ fn ∈ resolved.program.functions,
      fn.body.WellTyped resolved.context.symbols fn.returnType.toTy := by
  constructor
  · exact h.wellTyped_of_check
  · intro htyped
    exact Decl.checkAll_complete h.complete fun fn hfn => htyped fn (Program.mem_functions.mpr hfn)

end Resolved.Linked

namespace Program

/-- Checking a program that was resolved without a report ends, and it ends without a report exactly
when all function bodies are well typed.  For each expression in them, the type that is computed
without a report is the one that the rules give. -/
theorem check_exact {program : Program} {options : Options} {resolved : Resolved}
    (h : program.resolve { options } = .done resolved []) :
    (∃ reports, resolved.program.check resolved.context.symbols = .done () reports ∧
      (reports = [] ↔ ∀ fn ∈ resolved.program.functions,
        fn.body.WellTyped resolved.context.symbols fn.returnType.toTy)) ∧
      ∀ fn ∈ resolved.program.functions, ∀ e ∈ fn.body.allExprs, ∀ node ∈ e.nodes,
        ∃ ty reports, node.check resolved.context.symbols = .done ty reports ∧
          ∀ ty', node.HasType resolved.context.symbols ty' ↔ reports = [] ∧ ty' = ty := by
  obtain ⟨heq, hlinked⟩ := linked_of_resolve h
  have hpoints : ∀ fn ∈ resolved.program.functions, ∀ e ∈ fn.body.allExprs, ∀ id ∈ e.idents,
      id.PointsInto resolved.context.symbols := by
    rw [heq]
    exact fun fn hfn => pointsInto_linked program sound_empty (mem_functions.mp hfn)
  constructor
  · obtain ⟨_, reports, hcheck⟩ := Decl.checkAll_isDone fun fn hfn =>
      hpoints fn (mem_functions.mpr hfn)
    refine ⟨reports, hcheck, ?_⟩
    rw [← hlinked.check_eq_quiet_iff, Program.check, hcheck]
    simp
  · intro fn hfn e he node hnode
    have hsubset := Expr.idents_subset hnode
    obtain ⟨ty, reports, hcheck⟩ := Expr.check_isDone fun id hid =>
      hpoints fn hfn e he id (hsubset hid)
    refine ⟨ty, reports, hcheck, fun ty' => ?_⟩
    rw [← Expr.check_eq_quiet_iff hlinked.complete fun id hid =>
      hlinked.isSome_link hfn e he id (hsubset hid), hcheck, Reporting.done.injEq, and_comm,
      eq_comm (a := ty)]

/-- A program that writes a value, behind a recursive function. -/
def writes (value : Expr) : Program where
  decls := [
    .fn ⟨.int, ⟨"rest", ⟨1, 5⟩, none⟩,
      [⟨.int, ⟨"a", ⟨1, 14⟩, none⟩⟩, ⟨.bool, ⟨"b", ⟨1, 22⟩, none⟩⟩],
      ⟨[], [
        .ifThen (.binary .or (.name ⟨"b", ⟨2, 7⟩, none⟩)
          (.binary .lt (.name ⟨"a", ⟨2, 12⟩, none⟩) (.int 2 ⟨2, 16⟩))) ⟨[], [
            .ret (some (.name ⟨"a", ⟨3, 12⟩, none⟩)) ⟨3, 5⟩]⟩,
        .ret (some (.call ⟨"rest", ⟨5, 10⟩, none⟩ [
          .binary .sub (.name ⟨"a", ⟨5, 15⟩, none⟩) (.int 2 ⟨5, 19⟩),
          .binary .eq (.name ⟨"b", ⟨5, 22⟩, none⟩) (.bool true ⟨5, 27⟩)])) ⟨5, 3⟩]⟩⟩,
    .fn ⟨.void, ⟨"main", ⟨7, 6⟩, none⟩, [], ⟨[], [.write value]⟩⟩]

def writesResult : Program :=
  writes (.call ⟨"rest", ⟨8, 9⟩, none⟩ [.int 7 ⟨8, 14⟩, .bool false ⟨8, 17⟩])

def writesFunction : Program := writes (.name ⟨"rest", ⟨8, 9⟩, none⟩)

/-- The result of a function can be written, the function cannot. -/
theorem check_writes_exact :
    (∀ fn ∈ (writesResult.linked {}).program.functions,
      fn.body.WellTyped (writesResult.linked {}).context.symbols fn.returnType.toTy) ∧
    ¬ ∀ fn ∈ (writesFunction.linked {}).program.functions,
      fn.body.WellTyped (writesFunction.linked {}).context.symbols fn.returnType.toTy := by
  constructor
  · have hresolve : writesResult.resolve {} = .done (writesResult.linked {}) [] :=
      resolve_eq sound_empty (by decide) (by decide)
    obtain ⟨⟨reports, hcheck, hiff⟩, -⟩ := check_exact hresolve
    have hquiet : (writesResult.linked {}).program.check (writesResult.linked {}).context.symbols =
      .done () [] := rfl
    exact hiff.mp (Reporting.done.inj (hcheck.symm.trans hquiet)).2
  · have hresolve : writesFunction.resolve {} = .done (writesFunction.linked {}) [] :=
      resolve_eq sound_empty (by decide) (by decide)
    obtain ⟨⟨reports, hcheck, hiff⟩, -⟩ := check_exact hresolve
    have hreport : (writesFunction.linked {}).program.check
        (writesFunction.linked {}).context.symbols =
      .done () [Diagnostic.ofCode .writeFunction ⟨8, 9⟩] := rfl
    rw [← hiff, (Reporting.done.inj (hcheck.symm.trans hreport)).2]
    simp

end Program

end StackMips
