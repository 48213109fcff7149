import StackMips.Proofs.Lowering.Stmt
import StackMips.Proofs.TypeChecking

/-!
# Recovered types

Code generation does not check expressions again.  It reads their types off the links, by rules that
look at less than checking does: an operator is known by its family, an assignment by its target and
a call by its callee.  This module shows that nothing is lost.  Whatever checking reports, the type
that it computes is the recovered one, unless it is `error`.
-/

namespace StackMips

open Mips

/-! ## Operators -/

def OpFamily.result : OpFamily → Ty
  | .arithmetic => .int
  | .logical | .relational | .equality => .bool

namespace Typing

open Reporting

theorem checkUnary_result {op : UnaryOp} {ty result : Ty} {pos : Pos} {reports : List Diagnostic}
    (h : checkUnary op ty pos = .done result reports) (hresult : result ≠ .error) :
    result = op.rule.result := by
  obtain ⟨accepted, _, _, _, hdone, _⟩ := bind_eq_done_iff.mp h
  cases hdone
  cases accepted with
  | true => rfl
  | false => exact absurd rfl hresult

/-- A binary operator has the type of its family, or the type `error`. -/
theorem checkBinary_result {op : BinaryOp} {left right result : Ty} {leftPos rightPos : Pos}
    {reports : List Diagnostic}
    (h : checkBinary op left leftPos right rightPos = .done result reports)
    (hresult : result ≠ .error) : result = op.family.result := by
  unfold checkBinary at h
  cases hfamily : op.family with
  | equality =>
      rw [hfamily] at h
      obtain ⟨accepted, _, _, _, hdone, _⟩ := bind_eq_done_iff.mp h
      cases hdone
      cases accepted with
      | true => rfl
      | false => exact absurd rfl hresult
  | arithmetic | logical | relational =>
      rw [hfamily] at h
      obtain ⟨accepted, _, _, _, hright, _⟩ := bind_eq_done_iff.mp h
      obtain ⟨accepted', _, _, _, hdone, _⟩ := bind_eq_done_iff.mp hright
      cases hdone
      cases hboth : accepted && accepted' with
      | true => rfl
      | false => exact absurd (by rw [hboth]; rfl) hresult

end Typing

/-! ## Expressions -/

theorem Ident.symbol_of_ty {symbols : Arena} {id : Ident} {ty : Ty} (h : id.ty symbols = .ok ty)
    (hty : ty ≠ .error) :
    (do let symbol ← id.symbol symbols; return symbol.ty : Except Fault Ty) = .ok ty := by
  unfold Ident.ty at h
  unfold Ident.symbol
  cases hlink : id.link with
  | none =>
      rw [hlink] at h
      cases h
      exact absurd rfl hty
  | some link =>
      rw [hlink] at h
      exact h

namespace Expr

open Reporting

variable {symbols : Arena}

/-- The type of a call is the return type of the callee, whatever is wrong with the arguments. -/
theorem returnType_of_check_call {callee : Ident} {args : List Expr} {ty : Ty}
    {reports : List Diagnostic} (h : (call callee args).check symbols = .done ty reports)
    (hty : ty ≠ .error) : callee.returnType symbols = .ok ty := by
  simp only [check, bind_eq_done_iff, liftM_eq_done_iff] at h
  obtain ⟨calleeTy, _, rest, _, hrest, _⟩ := h
  split at hrest
  · cases hrest
    exact absurd rfl hty
  · obtain ⟨info?, _, more, hfetched, hmore, _⟩ := bind_eq_done_iff.mp hrest
    have hinfo := Arena.function?_eq_ok (liftM_eq_done_iff.mp hfetched).1
    cases info? with
    | none =>
        obtain ⟨_, _, _, _, hdone, _⟩ := bind_eq_done_iff.mp hmore
        cases hdone
        exact absurd rfl hty
    | some info =>
        have hreturn : ty = info.returnType := by
          by_cases hcount : args.length = info.numParams
          · simp only [hcount, if_true] at hmore
            obtain ⟨_, _, _, _, hdone, _⟩ := bind_eq_done_iff.mp hmore
            cases hdone
            rfl
          · simp only [hcount, if_false] at hmore
            obtain ⟨_, _, _, _, hdone, _⟩ := bind_eq_done_iff.mp hmore
            cases hdone
            rfl
        rw [hreturn]
        exact Ident.returnType_eq hinfo

/-- A type that checking computes can be recovered, unless it is `error`. -/
theorem typeOf_of_check {e : Expr} {ty : Ty} {reports : List Diagnostic}
    (h : e.check symbols = .done ty reports) (hty : ty ≠ .error) : e.typeOf symbols = .ok ty := by
  induction e using Expr.induction generalizing ty reports with
  | int _ _ | str _ _ | bool _ _ =>
      cases h
      rfl
  | name id | field base id _ => exact Ident.symbol_of_ty (liftM_eq_done_iff.mp h).1 hty
  | assign target value ihtarget _ =>
      simp only [check, bind_eq_done_iff] at h
      obtain ⟨targetTy, _, _, htarget, ⟨_, _, _, _, ⟨accepted, _, _, _, hdone, _⟩, _⟩, _⟩ := h
      cases hdone
      -- an accepted assignment has the type of its target
      cases accepted with
      | true => exact ihtarget htarget hty
      | false => exact absurd rfl hty
  | call callee args _ => exact returnType_of_check_call h hty
  | unary op operand _ =>
      obtain ⟨_, _, _, _, hop, _⟩ := bind_eq_done_iff.mp h
      rw [Typing.checkUnary_result hop hty]
      cases op <;> rfl
  | binary op left right _ _ =>
      simp only [check, bind_eq_done_iff] at h
      obtain ⟨_, _, _, _, ⟨_, _, _, _, hop, _⟩, _⟩ := h
      rw [Typing.checkBinary_result hop hty, typeOf]
      cases op.family <;> rfl

end Expr

/-! ## What code generation does with a type -/

/-- The command succeeds exactly when nothing is blocked, and then it has performed the script. -/
theorem Performs.eq_ok_iff {m : Gen Unit} {g g' : Generator} {script : Script}
    {blocked : List Unsupported} (h : Performs m g script blocked) :
    m g = .ok () g' ↔ blocked = [] ∧ g' = g.perform script := by
  cases blocked with
  | nil =>
      have h : m g = .ok () (g.perform script) := h
      simp [h, eq_comm]
  | cons u blocked =>
      obtain ⟨_, h⟩ := h
      simp [h]

def Mips.Syscall.lines (service : Syscall) : List Line :=
  [.op { operation := .li .v0 service.number }, .op { operation := .syscall }]

/-- The code that writes a value of this type ends with the service for it. -/
def Stmt.WritesAs (symbols : Arena) (value : Expr) (ty : Ty) : Prop :=
  ∀ g : Generator, g.context.symbols = symbols →
    ((∃ g', (Stmt.write value).lower g = .ok () g') ↔ value.hasField = false) ∧
    ∀ g', (Stmt.write value).lower g = .ok () g' →
      ∃ (code : List Line) (service : Syscall),
        g'.lines.toList = g.lines.toList ++ code ++ service.lines ∧
        (service = .printString ↔ ty = .string) ∧ (service = .printInt ↔ ty ≠ .string)

/-- The code of a call of this type ends with the jump to the callee, or pushes a result behind
it. -/
def Expr.CallsAs (symbols : Arena) (callee : Ident) (args : List Expr) (ty : Ty) : Prop :=
  ∀ g : Generator, g.context.symbols = symbols →
    ((∃ g', Gen.call callee args.length (Expr.lowerAll args) g = .ok () g') ↔
      (Expr.call callee args).hasField = false) ∧
    ∀ g', Gen.call callee args.length (Expr.lowerAll args) g = .ok () g' →
      ∃ (code : List Line) (pushed : Script),
        g'.lines.toList = g.lines.toList ++ code ++
          [.op { operation := .jal (g.context.functionLabel callee.name) }] ++ pushed.lines ∧
        g'.depth = g.depth + pushed.length ∧
        (pushed = [.push .v0] ↔ ty ≠ .void) ∧ (pushed = [] ↔ ty = .void)

section Consequences

variable {symbols : Arena} (hsymbols : symbols.Complete)
include hsymbols

theorem Stmt.writesAs_of_hasType {value : Expr} {ty : Ty} (h : value.HasType symbols ty)
    (hty : ty.isWritable) (hgrammar : value.InGrammar) : WritesAs symbols value ty := by
  intro g hg
  have hvalue := hasValue_of_isWritable hsymbols.typed h hty
  have hperforms := (write_lowers hsymbols.typed hvalue hgrammar).performs g hg
  have hblocked : (write value).blocked = [] ↔ value.hasField = false :=
    Expr.blocked_eq_nil_iff hgrammar
  refine ⟨by simp [hperforms.eq_ok_iff, hblocked], fun g' hg' => ?_⟩
  obtain ⟨-, rfl⟩ := hperforms.eq_ok_iff.mp hg'
  refine ⟨(g.context.note "WRITE" ++ value.script g.context ++ [Action.pop .a0]).lines,
    g.context.printer value, ?_, ?_⟩
  · rw [Generator.lines_perform]
    simp [script, Syscall.lines, Action.op, Action.lines]
  · rw [printer_eq hg h]
    cases ty <;> simp [Ty.isString]

theorem Expr.callsAs_of_hasType {callee : Ident} {args : List Expr} {ty : Ty}
    (h : (Expr.call callee args).HasType symbols ty)
    (hgrammar : (Expr.call callee args).InGrammar) : CallsAs symbols callee args ty := by
  intro g hg
  have hargs : ∀ arg ∈ args, arg.Lowers symbols := fun arg harg =>
    lowers hsymbols.typed (hasValue_args hsymbols.typed h arg harg) (hgrammar.call arg harg)
  have hperforms := call_performs h hargs hg
  refine ⟨by simp [hperforms.eq_ok_iff, blocked_eq_nil_iff hgrammar], fun g' hg' => ?_⟩
  obtain ⟨hblocked, rfl⟩ := hperforms.eq_ok_iff.mp hg'
  rw [blocked, blockedAll_eq_flatMap, List.flatMap_eq_nil_iff] at hblocked
  have hdepth := depth_call hg h (depth_scriptAll_of hg fun arg harg c d hc =>
    (hargs arg harg).depth c d hc (hblocked arg harg)) g.depth
  refine ⟨(g.context.note "FUNCTION CALL" ++ scriptAll g.context args).lines,
    if ty.isVoid then [] else [.push .v0], ?_, ?_, ?_⟩
  · rw [Generator.lines_perform, script, yields_eq hg h]
    cases ty.isVoid <;> simp [Action.op, Action.lines]
  · rw [Generator.depth_perform, hdepth]
    cases ty.isVoid <;> rfl
  · cases ty <;> simp [Ty.isVoid]

end Consequences

/-! ## Whole programs -/

theorem Resolved.Linked.inGrammar_call {resolved : Resolved} (h : resolved.Linked)
    {call : Ident × List Expr} (hcall : call ∈ resolved.program.calls) :
    (Expr.call call.1 call.2).InGrammar := by
  obtain ⟨fn, hfn, hcall⟩ := List.mem_flatMap.mp hcall
  obtain ⟨e, he, hcall⟩ := List.mem_flatMap.mp hcall
  obtain ⟨node, hnode, hcall⟩ := List.mem_filterMap.mp hcall
  have hgrammar := (h.grammar fn hfn).allExprs e he
  cases node <;> simp only [Expr.call?, reduceCtorEq, Option.some.injEq] at hcall
  subst hcall
  exact hgrammar.of_mem hnode

namespace Program

/-- Every expression of a resolved program is checked, and a type other than `error` that it is
given is the type that code generation recovers.  So in a program without reports the service that
writes a value, and whether a call leaves a result, follow from the checked types. -/
theorem recovers_checked_types {program : Program} {options : Options}
    (hgrammar : program.InGrammar) (hunlinked : program.Unlinked) :
    ∃ resolved resolution, program.resolve { options } = .done resolved resolution ∧
      (∀ fn ∈ resolved.program.functions, ∀ e ∈ fn.body.allExprs, ∀ node ∈ e.nodes,
        ∃ ty reports, node.check resolved.context.symbols = .done ty reports ∧
          (ty ≠ .error → node.typeOf resolved.context.symbols = .ok ty)) ∧
      (program.analyze { options } = .done resolved [] →
        (∀ fn ∈ resolved.program.functions, ∀ value, .write value ∈ fn.body.nodes →
          ∃ ty, value.check resolved.context.symbols = .done ty [] ∧
            Stmt.WritesAs resolved.context.symbols value ty) ∧
        ∀ call ∈ resolved.program.calls,
          ∃ ty, (Expr.call call.1 call.2).check resolved.context.symbols = .done ty [] ∧
            Expr.CallsAs resolved.context.symbols call.1 call.2 ty) := by
  refine ⟨_, _, resolve_eq sound_empty hgrammar hunlinked, fun fn hfn e he node hnode => ?_,
    fun hanalyze => ?_⟩
  · obtain ⟨ty, reports, hcheck⟩ := Expr.check_isDone fun id hid =>
      pointsInto_linked program sound_empty (mem_functions.mp hfn) e he id
        (Expr.idents_subset hnode hid)
    exact ⟨ty, reports, hcheck, Expr.typeOf_of_check hcheck⟩
  · obtain ⟨-, hclean⟩ := clean_of_analyze hanalyze
    have hsymbols := hclean.complete
    refine ⟨fun fn hfn value hvalue => ?_, fun call hcall => ?_⟩
    · have hmem : value ∈ fn.body.allExprs :=
        List.mem_flatMap.mpr ⟨_, hvalue, by simp [Stmt.exprs]⟩
      have hgrammar : value.InGrammar := (hclean.grammar fn hfn).allExprs value hmem
      cases hclean.typed fn hfn _ hvalue with
      | write hty hwritable =>
          exact ⟨_, Expr.check_complete hsymbols hty,
            Stmt.writesAs_of_hasType hsymbols hty hwritable hgrammar⟩
    · obtain ⟨ty, hty⟩ := hclean.hasType_call hcall
      exact ⟨ty, Expr.check_complete hsymbols hty,
        Expr.callsAs_of_hasType hsymbols hty (hclean.inGrammar_call hcall)⟩

/-- A program that writes a string and the result of a call with these arguments. -/
def doubling (args : List Expr) : Program where
  decls := [
    .fn ⟨.int, ⟨"twice", ⟨1, 5⟩, none⟩, [⟨.int, ⟨"n", ⟨1, 15⟩, none⟩⟩],
      ⟨[], [.ret (some (.binary .add (.name ⟨"n", ⟨2, 12⟩, none⟩) (.name ⟨"n", ⟨2, 16⟩, none⟩)))
        ⟨2, 5⟩]⟩⟩,
    .fn ⟨.void, ⟨"main", ⟨4, 6⟩, none⟩, [],
      ⟨[], [.write (.str "sum" ⟨5, 13⟩), .write (.call ⟨"twice", ⟨6, 13⟩, none⟩ args)]⟩⟩]

def doublingOne : Program := doubling [.int 2 ⟨6, 19⟩]

def doublingTwo : Program := doubling [.int 1 ⟨6, 19⟩, .int 2 ⟨6, 22⟩]

/-- A call with too many arguments is reported and still has its type.  With one argument nothing is
reported; the string goes to one service, and the call leaves a result. -/
theorem recovers_doubling_types :
    (∃ resolved resolution, doublingTwo.resolve {} = .done resolved resolution ∧
      ∃ fn ∈ resolved.program.functions, ∃ e ∈ fn.body.allExprs, ∃ report,
        e.check resolved.context.symbols = .done .int [report] ∧
          e.typeOf resolved.context.symbols = .ok .int) ∧
    ∃ resolved, doublingOne.analyze {} = .done resolved [] ∧
      (∃ fn ∈ resolved.program.functions, ∃ value, .write value ∈ fn.body.nodes ∧
        Stmt.WritesAs resolved.context.symbols value .string) ∧
      ∃ call ∈ resolved.program.calls,
        Expr.CallsAs resolved.context.symbols call.1 call.2 .int := by
  constructor
  · obtain ⟨resolved, resolution, hresolve, hrecovers, -⟩ :=
      @recovers_checked_types doublingTwo {} (by decide) (by decide)
    have hlinked : doublingTwo.resolve {} = .done (doublingTwo.linked {}) [] :=
      resolve_eq sound_empty (by decide) (by decide)
    obtain ⟨rfl, rfl⟩ := Reporting.done.inj (hlinked.symm.trans hresolve)
    let twice : Expr := .call ⟨"twice", ⟨6, 13⟩, some 0⟩ [.int 1 ⟨6, 19⟩, .int 2 ⟨6, 22⟩]
    obtain ⟨ty, reports, hcheck, htypeOf⟩ :=
      hrecovers _ (.tail _ (.head _)) twice (.tail _ (.head _)) _ twice.self_mem_nodes
    cases hcheck
    exact ⟨_, _, hresolve, _, .tail _ (.head _), twice, .tail _ (.head _), _, rfl,
      htypeOf Ty.noConfusion⟩
  · obtain ⟨resolved, resolution, hresolve, -, hcode⟩ :=
      @recovers_checked_types doublingOne {} (by decide) (by decide)
    have hlinked : doublingOne.resolve {} = .done (doublingOne.linked {}) [] :=
      resolve_eq sound_empty (by decide) (by decide)
    have hanalyze : doublingOne.analyze {} = .done (doublingOne.linked {}) [] :=
      analyze_of_check sound_empty (by decide) (by decide) rfl
    obtain ⟨rfl, rfl⟩ := Reporting.done.inj (hlinked.symm.trans hresolve)
    obtain ⟨hwrites, hcalls⟩ := hcode hanalyze
    obtain ⟨_, hstring, hwrites⟩ := hwrites _ (.tail _ (.head _)) (.str "sum" ⟨5, 13⟩) (.head _)
    obtain ⟨_, hint, hcalls⟩ := hcalls (⟨"twice", ⟨6, 13⟩, some 0⟩, [.int 2 ⟨6, 19⟩]) (.head _)
    cases hstring
    cases hint
    exact ⟨_, hanalyze, ⟨_, .tail _ (.head _), _, .head _, hwrites⟩, _, .head _, hcalls⟩

end Program

end StackMips
