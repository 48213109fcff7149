import Mathlib.Algebra.GroupWithZero.Nat
import StackMips.Proofs.Analysis
import StackMips.Proofs.Resolution.Accounting
import StackMips.Proofs.Resolution.SymbolArena

/-!
# Error types

The type `error` marks an expression that has been reported, or that has an identifier which was
reported when it was left without a link.  An operand of that type is rejected in silence, so each
report of an operator uses up an operand that was fine.  Hence there are at most as many reports as
leaves, until calls come in: the result of a call is fine whatever has been reported about it.
-/

namespace StackMips

/-! ## Leaves -/

mutual

/-- The leaves of an expression.  An access to a field is one leaf, and so is a callee. -/
def Expr.leaves : Expr → Nat
  | .int _ _ | .str _ _ | .bool _ _ | .name _ | .field _ _ => 1
  | .assign target value => target.leaves + value.leaves
  | .call _ args => 1 + Expr.leavesAll args
  | .unary _ operand => operand.leaves
  | .binary _ left right => left.leaves + right.leaves

def Expr.leavesAll : List Expr → Nat
  | [] => 0
  | e :: es => e.leaves + Expr.leavesAll es

end

def Expr.maxReports (e : Expr) : Nat := e.leaves + e.calls.length

theorem Expr.maxReports_call (callee : Ident) (args : List Expr) :
    (call callee args).maxReports = 2 + (args.map maxReports).sum := by
  have hleaves : ∀ es : List Expr, leavesAll es + (es.flatMap calls).length =
      (es.map maxReports).sum := by
    intro es
    induction es with
    | nil => rfl
    | cons e es ih =>
        simp only [leavesAll, List.flatMap_cons, List.length_append, List.map_cons, List.sum_cons,
          maxReports, ← ih]
        omega
  rw [maxReports, leaves, calls_call, List.length_cons, ← hleaves]
  omega

/-! ## Chains of fields -/

/-- A field has a link only if all that stands before it has. -/
def Expr.Chained (e : Expr) : Prop :=
  ∀ base id, Expr.field base id ∈ e.nodes → id.link.isSome →
    ∀ other ∈ base.idents, other.link.isSome

theorem Expr.Chained.of_nodes {e inner : Expr} (h : e.Chained) (hnodes : inner.nodes ⊆ e.nodes) :
    inner.Chained :=
  fun base id hmem => h base id (hnodes hmem)

theorem Expr.chained_linked {e : Expr} (hgrammar : e.InGrammar) (r : Resolver) :
    (e.linked r).Chained := by
  intro base' id' hmem hlink
  rw [nodes_linked] at hmem
  obtain ⟨node, hnode, heq⟩ := List.mem_map.mp hmem
  cases node with
  | field base id =>
      obtain ⟨rfl, rfl⟩ := Expr.field.inj heq
      have hfield := hgrammar.of_mem hnode
      have hreached : (base.reached r).isSome := by
        cases hreached : base.reached r with
        | none => simp [Ident.fieldLinked, hreached] at hlink
        | some definition => rfl
      exact (reached_of_quiet hfield.field.1 hfield.field.2 (baseReports_of_reached hreached)).2
  | int _ _ | str _ _ | bool _ _ | name _ | assign _ _ | call _ _ | unary _ _ | binary _ _ _ =>
      cases heq

/-! ## Operators -/

theorem OpFamily.isError_result {family : OpFamily} {rule : OperandRule}
    (h : family.rule? = some rule) : rule.result.isError = false := by
  cases family <;> cases h <;> rfl

namespace Typing

/-- What a rule says about the types of operands.  If it accepts them, none is `error`; if it does
not, it reports unless one is. -/
structure Verdict (tys : List Ty) (accepted : Bool) (reports : List Diagnostic) : Prop where
  clean : accepted → reports = [] ∧ ∀ ty ∈ tys, ty.isError = false
  blamed : accepted = false → reports ≠ [] ∨ ∃ ty ∈ tys, ty.isError
  count : reports.length + accepted.toNat ≤ tys.countP (!·.isError)

theorem Verdict.append {tys tys' : List Ty} {accepted accepted' : Bool}
    {reports reports' : List Diagnostic} (h : Verdict tys accepted reports)
    (h' : Verdict tys' accepted' reports') :
    Verdict (tys ++ tys') (accepted && accepted') (reports ++ reports') where
  clean hboth := by
    obtain ⟨hleft, hright⟩ := Bool.and_eq_true_iff.mp hboth
    rw [(h.clean hleft).1, (h'.clean hright).1, List.forall_mem_append]
    exact ⟨rfl, (h.clean hleft).2, (h'.clean hright).2⟩
  blamed hone := by
    rcases Bool.and_eq_false_iff.mp hone with hleft | hright
    · rcases h.blamed hleft with hreports | ⟨ty, hty, herror⟩
      · exact .inl (by simp [hreports])
      · exact .inr ⟨ty, by simp [hty], herror⟩
    · rcases h'.blamed hright with hreports | ⟨ty, hty, herror⟩
      · exact .inl (by simp [hreports])
      · exact .inr ⟨ty, by simp [hty], herror⟩
  count := by
    have hcount := h.count
    have hcount' := h'.count
    have hboth : (accepted && accepted').toNat ≤ accepted.toNat + accepted'.toNat := by
      cases accepted <;> cases accepted' <;> decide
    rw [List.length_append, List.countP_append]
    omega

theorem checkOperand_verdict {ty : Ty} {pos : Pos} {accepts : Ty → Bool} {code : Code}
    {accepted : Bool} {reports : List Diagnostic}
    (h : checkOperand ty pos accepts code = .done accepted reports) :
    Verdict [ty] accepted reports := by
  unfold checkOperand at h
  split at h
  · next herror =>
      cases h
      exact ⟨by rintro ⟨⟩, fun _ => .inr ⟨ty, by simp, herror⟩, by simp⟩
  · next hfine =>
      split at h
      · cases h
        exact ⟨fun _ => ⟨rfl, by simpa using hfine⟩, by rintro ⟨⟩, by simp [hfine]⟩
      · cases h
        exact ⟨by rintro ⟨⟩, fun _ => .inl (by simp), by simp [hfine]⟩

theorem checkSameKind_verdict {comparison : Comparison} {left right : Ty} {pos : Pos}
    {accepted : Bool} {reports : List Diagnostic}
    (h : checkSameKind comparison left right pos = .done accepted reports) :
    Verdict [left, right] accepted reports := by
  unfold checkSameKind at h
  split at h
  · next herror =>
      cases h
      exact ⟨by rintro ⟨⟩, fun _ => .inr (by simpa using herror), by simp⟩
  · next hfine =>
      simp only [Bool.or_eq_true, not_or, Bool.not_eq_true] at hfine
      split at h
      · cases h
        exact ⟨fun _ => ⟨rfl, by simpa using hfine⟩, by rintro ⟨⟩, by simp [hfine]⟩
      · cases h
        exact ⟨by rintro ⟨⟩, fun _ => .inl (by simp), by simp [hfine]⟩

/-! ## Findings -/

/-- What checking finds out about some expressions.  An `error` among their types is blamed on a
report or on a missing link, and without calls these are only there if a type is `error`.  Each type
that is not `error` leaves room for one more report. -/
structure Findings (es : List Expr) (tys : List Ty) (reports : List Diagnostic) : Prop where
  blamed : (∃ ty ∈ tys, ty.isError) →
    reports ≠ [] ∨ ∃ id ∈ es.flatMap Expr.idents, id.link = none
  silent : es.flatMap Expr.calls = [] → (∀ ty ∈ tys, ty.isError = false) →
    reports = [] ∧ ∀ id ∈ es.flatMap Expr.idents, id.link.isSome
  count : reports.length + tys.countP (!·.isError) ≤ (es.map Expr.maxReports).sum

namespace Findings

variable {es es' : List Expr} {tys tys' : List Ty} {reports reports' : List Diagnostic}

theorem append (h : Findings es tys reports) (h' : Findings es' tys' reports') :
    Findings (es ++ es') (tys ++ tys') (reports ++ reports') where
  blamed := by
    rintro ⟨ty, hty, herror⟩
    rw [List.flatMap_append]
    rcases List.mem_append.mp hty with hty | hty
    · rcases h.blamed ⟨ty, hty, herror⟩ with hreports | ⟨id, hid, hlink⟩
      · exact .inl (by simp [hreports])
      · exact .inr ⟨id, List.mem_append_left _ hid, hlink⟩
    · rcases h'.blamed ⟨ty, hty, herror⟩ with hreports | ⟨id, hid, hlink⟩
      · exact .inl (by simp [hreports])
      · exact .inr ⟨id, List.mem_append_right _ hid, hlink⟩
  silent hcalls hfine := by
    rw [List.flatMap_append, List.append_eq_nil_iff] at hcalls
    rw [List.forall_mem_append] at hfine
    obtain ⟨hreports, hlinks⟩ := h.silent hcalls.1 hfine.1
    obtain ⟨hreports', hlinks'⟩ := h'.silent hcalls.2 hfine.2
    rw [hreports, hreports', List.flatMap_append, List.forall_mem_append]
    exact ⟨rfl, hlinks, hlinks'⟩
  count := by
    have hcount := h.count
    have hcount' := h'.count
    rw [List.length_append, List.countP_append, List.map_append, List.sum_append]
    omega

/-- Nothing is reported about a leaf, which is `error` exactly if a link is missing. -/
theorem leaf {e : Expr} {ty : Ty}
    (herror : ty.isError → ∃ id ∈ e.idents, id.link = none)
    (hfine : ty.isError = false → ∀ id ∈ e.idents, id.link.isSome) (hleaves : e.leaves = 1) :
    Findings [e] [ty] [] where
  blamed := by
    rintro ⟨_, hty, hblamed⟩
    obtain rfl := List.mem_singleton.mp hty
    exact .inr (by simpa using herror hblamed)
  silent _ hty := ⟨rfl, by simpa using hfine (hty ty (by simp))⟩
  count := by
    have hone : [ty].countP (!·.isError) ≤ 1 := List.countP_le_length
    rw [List.map_singleton, List.sum_singleton, Expr.maxReports, hleaves, List.length_nil]
    omega

theorem operator {e : Expr} {ty : Ty} {accepted : Bool} (h : Findings es tys reports)
    (hverdict : Verdict tys accepted reports') (hty : ty.isError = !accepted)
    (hidents : e.idents = es.flatMap Expr.idents) (hcalls : e.calls = es.flatMap Expr.calls)
    (hmax : e.maxReports = (es.map Expr.maxReports).sum) :
    Findings [e] [ty] (reports ++ reports') where
  blamed := by
    simp only [List.mem_singleton, exists_eq_left, hty, Bool.not_eq_true', List.flatMap_singleton,
      hidents]
    intro hrejected
    rcases hverdict.blamed hrejected with hreports | herror
    · exact .inl (by simp [hreports])
    · rcases h.blamed herror with hreports | hlink
      · exact .inl (by simp [hreports])
      · exact .inr hlink
  silent := by
    simp only [List.forall_mem_singleton, hty, Bool.not_eq_false', List.flatMap_singleton, hidents,
      hcalls]
    intro hnone haccepted
    obtain ⟨hreports', hfine⟩ := hverdict.clean haccepted
    obtain ⟨hreports, hlinks⟩ := h.silent hnone hfine
    exact ⟨by rw [hreports, hreports', List.append_nil], hlinks⟩
  count := by
    have hcount := h.count
    have hroom := hverdict.count
    have hresult : [ty].countP (!·.isError) = accepted.toNat := by
      cases accepted <;> simp [hty]
    rw [hresult, List.length_append, List.map_singleton, List.sum_singleton, hmax]
    omega

section Single

variable {e : Expr} {ty : Ty} (h : Findings [e] [ty] reports)
include h

theorem blamed_of_error (hty : ty = .error) :
    reports ≠ [] ∨ ∃ id ∈ e.idents, id.link = none := by
  simpa using h.blamed ⟨ty, by simp, by simp [hty, Ty.isError]⟩

theorem error_of_blamed (hcalls : e.calls = [])
    (hblamed : reports ≠ [] ∨ ∃ id ∈ e.idents, id.link = none) : ty = .error := by
  by_contra hty
  have hfine : ty.isError = false := by cases ty <;> first | rfl | exact absurd rfl hty
  obtain ⟨hreports, hlinks⟩ := h.silent (by simpa using hcalls) (by simpa using hfine)
  rcases hblamed with hloud | ⟨id, hid, hlink⟩
  · exact hloud hreports
  · simpa [hlink] using hlinks id (by simpa using hid)

theorem length_le : reports.length ≤ e.leaves + e.calls.length := by
  have hcount := h.count
  rw [List.map_singleton, List.sum_singleton, Expr.maxReports] at hcount
  omega

end Single

end Findings

end Typing

/-! ## Expressions -/

/-- No symbol has the type `error`; only an identifier without a link has it. -/
theorem Ident.isError_ty_iff {symbols : Arena} (hsymbols : symbols.Formed) {id : Ident} {ty : Ty}
    (h : id.ty symbols = .ok ty) : ty.isError ↔ id.link = none := by
  cases hlink : id.link with
  | none =>
      simp only [Ident.ty, hlink, Except.ok.injEq] at h
      simp [← h, Ty.isError]
  | some link =>
      cases hget : symbols.get? link with
      | none => simp [Ident.ty, hlink, Arena.fetch, hget] at h
      | some symbol =>
          simp only [Ident.ty, hlink, Arena.fetch_of_get? hget] at h
          cases h
          simp [Ty.isError_of_isErrorFree (hsymbols link symbol hget).errorFree]

theorem Arena.Formed.isError_returnType {symbols : Arena} (h : symbols.Formed) {callee : Ident}
    {info : FunctionInfo} (hinfo : symbols.info? callee = some info) :
    info.returnType.isError = false := by
  obtain ⟨symbol, hsymbol, hfunction⟩ := Option.bind_eq_some_iff.mp hinfo
  obtain ⟨link, -, hget⟩ := Option.bind_eq_some_iff.mp hsymbol
  have hformed := h link symbol hget
  have hfree := hformed.errorFree
  rw [(hformed.function info (Symbol.function?_eq_some_iff.mp hfunction)).1, Ty.isErrorFree,
    Bool.and_eq_true] at hfree
  exact Ty.isError_of_isErrorFree hfree.2

namespace Expr

open Typing Reporting

variable {symbols : Arena}

/-- A mismatch between an argument and its formal is reported if the argument is not `error`; there
is room for this report. -/
theorem length_checkArgs_le {args : List Expr}
    (h : ∀ arg ∈ args, ∀ ty reports, arg.check symbols = .done ty reports →
      Findings [arg] [ty] reports)
    {formals : List Ty} {u : Unit} {reports : List Diagnostic}
    (hcheck : checkArgs symbols args formals = .done u reports) :
    reports.length ≤ (args.map maxReports).sum := by
  induction args generalizing formals reports with
  | nil =>
      cases hcheck
      simp
  | cons arg args ih =>
      cases formals with
      | nil =>
          cases hcheck
          simp
      | cons formal formals =>
          simp only [checkArgs, bind_eq_done_iff] at hcheck
          obtain ⟨ty, first, rest, harg, hrest, rfl⟩ := hcheck
          have hcount := (h arg (by simp) ty first harg).count
          simp only [List.map_singleton, List.sum_singleton] at hcount
          rw [List.length_append, List.map_cons, List.sum_cons]
          split at hrest
          · next hmismatch =>
              obtain ⟨_, report, more, hreport, hmore, rfl⟩ := bind_eq_done_iff.mp hrest
              cases hreport
              have hfine : ty.isError = false := by
                simpa using (Bool.and_eq_true_iff.mp hmismatch).1
              have hle := ih (fun other hother => h other (by simp [hother])) hmore
              simp [hfine] at hcount ⊢
              omega
          · have hle := ih (fun other hother => h other (by simp [hother])) hrest
            omega

theorem findings_call (hsymbols : symbols.Formed) {callee : Ident} {args : List Expr}
    (h : ∀ arg ∈ args, ∀ ty reports, arg.check symbols = .done ty reports →
      Findings [arg] [ty] reports)
    {ty : Ty} {reports : List Diagnostic}
    (hcheck : (call callee args).check symbols = .done ty reports) :
    Findings [.call callee args] [ty] reports := by
  simp only [check, bind_eq_done_iff, liftM_eq_done_iff] at hcheck
  obtain ⟨calleeTy, _, rest, ⟨hcallee, rfl⟩, hrest, rfl⟩ := hcheck
  have hsilent : [call callee args].flatMap calls ≠ [] := by simp
  have hmax : ([call callee args].map maxReports).sum = 2 + (args.map maxReports).sum := by
    simp [maxReports_call]
  split at hrest
  · next herror =>
      cases hrest
      have hlink := (Ident.isError_ty_iff hsymbols hcallee).mp herror
      exact ⟨fun _ => .inr ⟨callee, by simp [idents], hlink⟩, fun hcalls => absurd hcalls hsilent,
        by simp [Ty.isError]⟩
  · obtain ⟨info?, _, more, hfetched, hmore, rfl⟩ := bind_eq_done_iff.mp hrest
    obtain ⟨hinfo, rfl⟩ := liftM_eq_done_iff.mp hfetched
    cases info? with
    | none =>
        obtain ⟨_, report, _, hreport, hresult, rfl⟩ := bind_eq_done_iff.mp hmore
        cases hreport
        cases hresult
        have herror : [Ty.error].countP (!·.isError) = 0 := rfl
        refine ⟨fun _ => .inl (by simp), fun hcalls => absurd hcalls hsilent, ?_⟩
        rw [hmax, herror]
        simp only [List.length_append, List.length_nil, List.length_singleton]
        omega
    | some info =>
        have hfine := hsymbols.isError_returnType (Arena.function?_eq_ok hinfo)
        have hreturned : ∀ reports : List Diagnostic,
            reports.length ≤ 1 + (args.map maxReports).sum →
            Findings [call callee args] [info.returnType] reports := by
          intro reports hlength
          refine ⟨by simp [hfine], fun hcalls => absurd hcalls hsilent, ?_⟩
          rw [hmax]
          simp only [List.countP_singleton, hfine, Bool.not_false, if_true]
          omega
        by_cases hcount : args.length = info.numParams
        · simp only [hcount, if_true] at hmore
          obtain ⟨_, reports, _, hargs, hresult, rfl⟩ := bind_eq_done_iff.mp hmore
          cases hresult
          have hle := length_checkArgs_le h hargs
          exact hreturned _ (by simp; omega)
        · simp only [hcount, if_false] at hmore
          obtain ⟨_, report, _, hreport, hresult, rfl⟩ := bind_eq_done_iff.mp hmore
          cases hreport
          cases hresult
          exact hreturned _ (by simp)

theorem findings (hsymbols : symbols.Formed) {e : Expr} (hchained : e.Chained) {ty : Ty}
    {reports : List Diagnostic} (h : e.check symbols = .done ty reports) :
    Findings [e] [ty] reports := by
  induction e using Expr.induction generalizing ty reports with
  | int _ _ | str _ _ | bool _ _ =>
      cases h
      exact .leaf (by rintro ⟨⟩) (by simp [idents]) rfl
  | name id =>
      obtain ⟨hty, rfl⟩ := liftM_eq_done_iff.mp h
      have herror := Ident.isError_ty_iff hsymbols hty
      refine .leaf (fun hblamed => ⟨id, by simp [idents], herror.mp hblamed⟩) (fun hfine => ?_) rfl
      rw [← Bool.not_eq_true, herror] at hfine
      simpa [idents, Option.isSome_iff_ne_none] using hfine
  | field base id _ =>
      obtain ⟨hty, rfl⟩ := liftM_eq_done_iff.mp h
      have herror := Ident.isError_ty_iff hsymbols hty
      refine .leaf (fun hblamed => ⟨id, by simp [idents], herror.mp hblamed⟩) (fun hfine => ?_) rfl
      rw [← Bool.not_eq_true, herror] at hfine
      have hlink := Option.isSome_iff_ne_none.mpr hfine
      rw [idents, List.forall_mem_append]
      exact ⟨hchained base id (self_mem_nodes _) hlink, by simpa using hlink⟩
  | assign target value ihtarget ihvalue =>
      simp only [check, bind_eq_done_iff] at h
      obtain ⟨targetTy, first, _, htarget, ⟨valueTy, second, _, hvalue,
        ⟨accepted, third, _, hkind, hresult, rfl⟩, rfl⟩, rfl⟩ := h
      cases hresult
      have hoperands := (ihtarget (hchained.of_nodes (by simp [nodes])) htarget).append
        (ihvalue (hchained.of_nodes (by simp [nodes])) hvalue)
      have hverdict := checkSameKind_verdict hkind
      have hresult : (if accepted then targetTy else .error).isError = !accepted := by
        cases accepted with
        | false => rfl
        | true => exact (hverdict.clean rfl).2 targetTy (by simp)
      rw [List.append_nil, ← List.append_assoc]
      exact hoperands.operator hverdict hresult (by simp [idents]) (by simp)
        (by simp [maxReports, leaves]; omega)
  | call callee args ih =>
      exact findings_call hsymbols (fun arg harg ty reports =>
        ih arg harg (hchained.of_nodes (nodes_subset_call harg))) h
  | unary op operand ih =>
      simp only [check, checkUnary, bind_eq_done_iff] at h
      obtain ⟨operandTy, first, _, hoperand, ⟨accepted, second, _, haccepted, hresult, rfl⟩,
        rfl⟩ := h
      cases hresult
      have hresult : (if accepted then op.rule.result else .error).isError = !accepted := by
        cases accepted <;> cases op <;> rfl
      rw [List.append_nil]
      exact (ih (hchained.of_nodes (by simp [nodes])) hoperand).operator
        (checkOperand_verdict haccepted) hresult (by simp [idents]) (by simp)
        (by simp [maxReports, leaves])
  | binary op left right ihleft ihright =>
      simp only [check, checkBinary, bind_eq_done_iff] at h
      obtain ⟨leftTy, first, _, hleft, ⟨rightTy, second, third, hright, hrule, rfl⟩, rfl⟩ := h
      have hoperands := (ihleft (hchained.of_nodes (by simp [nodes])) hleft).append
        (ihright (hchained.of_nodes (by simp [nodes])) hright)
      rw [← List.append_assoc]
      split at hrule
      · next rule hfamily =>
          simp only [bind_eq_done_iff] at hrule
          obtain ⟨accepted, _, _, haccepted, ⟨accepted', _, _, haccepted', hresult, rfl⟩,
            rfl⟩ := hrule
          cases hresult
          have hresult : (if accepted && accepted' then rule.result else .error).isError =
              !(accepted && accepted') := by
            cases accepted && accepted' with
            | false => rfl
            | true => exact OpFamily.isError_result hfamily
          rw [List.append_nil]
          exact hoperands.operator
            ((checkOperand_verdict haccepted).append (checkOperand_verdict haccepted')) hresult
            (by simp [idents]) (by simp) (by simp [maxReports, leaves]; omega)
      · obtain ⟨accepted, _, _, hkind, hresult, rfl⟩ := bind_eq_done_iff.mp hrule
        cases hresult
        have hresult : (if accepted then Ty.bool else .error).isError = !accepted := by
          cases accepted <;> rfl
        rw [List.append_nil]
        exact hoperands.operator (checkSameKind_verdict hkind) hresult (by simp [idents]) (by simp)
          (by simp [maxReports, leaves]; omega)

end Expr

/-! ## Whole programs -/

namespace Program

/-- The expressions of a resolved program have their fields linked from the left. -/
theorem chained_linked {program : Program} (hgrammar : program.InGrammar) {context : Context}
    (hcontext : context.symbols.Sound) {fn' : FnDecl}
    (hfn : fn' ∈ (program.linked context).program.functions) :
    ∀ e ∈ fn'.body.allExprs, e.Chained := by
  intro e' he'
  obtain ⟨fn, hmem, r, hr, rfl, -, -⟩ :=
    Decl.fn_visited (Resolver.start_atTop hcontext) (mem_functions.mp hfn)
  obtain ⟨e, he, s, -, -, rfl, -⟩ := fn.exprs_visited hr e' he'
  exact Expr.chained_linked ((hgrammar fn (mem_functions.mpr hmem)).allExprs e he) s

/-- An expression has the type `error` only if checking has reported something in it, or an
identifier in it has no link.  In an expression without calls these do make the type `error`, and
there are at most as many reports as leaves. -/
theorem check_error_types {program : Program} {options : Options} (hgrammar : program.InGrammar)
    (hunlinked : program.Unlinked) :
    ∃ resolved resolution, program.resolve { options } = .done resolved resolution ∧
      ∀ fn ∈ resolved.program.functions, ∀ e ∈ fn.body.allExprs, ∀ node ∈ e.nodes,
        ∃ ty reports, node.check resolved.context.symbols = .done ty reports ∧
          (ty = .error → reports ≠ [] ∨ ∃ id ∈ node.idents, id.link = none) ∧
          reports.length ≤ node.leaves + node.calls.length ∧
          (node.calls = [] →
            (ty = .error ↔ reports ≠ [] ∨ ∃ id ∈ node.idents, id.link = none) ∧
            reports.length ≤ node.leaves) := by
  refine ⟨_, _, resolve_eq sound_empty hgrammar hunlinked, fun fn hfn e he node hnode => ?_⟩
  obtain ⟨ty, reports, hcheck⟩ := Expr.check_isDone fun id hid =>
    pointsInto_linked program sound_empty (mem_functions.mp hfn) e he id
      (Expr.idents_subset hnode hid)
  have hchained := (chained_linked hgrammar sound_empty hfn e he).of_nodes
    (Expr.nodes_subset hnode)
  have hfindings := Expr.findings (program.formed_after options) hchained hcheck
  refine ⟨ty, reports, hcheck, hfindings.blamed_of_error, hfindings.length_le, fun hcalls => ?_⟩
  exact ⟨⟨hfindings.blamed_of_error, hfindings.error_of_blamed hcalls⟩,
    by simpa [hcalls] using hfindings.length_le⟩

/-- A program that compares a sum with an unknown field to the negation of a number. -/
def muted : Program where
  decls := [
    .struct ⟨⟨"Pair", ⟨1, 8⟩, none⟩, [⟨.int, ⟨"x", ⟨1, 19⟩, none⟩⟩]⟩,
    .fn ⟨.void, ⟨"main", ⟨2, 6⟩, none⟩, [],
      ⟨[⟨.struct ⟨"Pair", ⟨3, 10⟩, none⟩, ⟨"p", ⟨3, 15⟩, none⟩⟩], [
        .write (.binary .eq
          (.binary .add (.field (.name ⟨"p", ⟨4, 12⟩, none⟩) ⟨"y", ⟨4, 14⟩, none⟩) (.int 1 ⟨4, 18⟩))
          (.unary .not (.int 3 ⟨4, 26⟩)))]⟩⟩]

/-- All operators but one are silent about the operands that they reject. -/
theorem check_muted_error_types : ∃ resolved resolution,
    muted.resolve {} = .done resolved resolution ∧ ∃ fn ∈ resolved.program.functions,
      ∃ e ∈ fn.body.allExprs, e.calls = [] ∧ (∃ id ∈ e.idents, id.link = none) ∧
        ∃ reports, e.check resolved.context.symbols = .done .error reports ∧
          reports.length ≤ 3 := by
  have hresolve : muted.resolve {} =
      .done (muted.linked {}) (muted.resolutionReports {}) :=
    resolve_eq sound_empty (by decide) (by decide)
  obtain ⟨resolved, resolution, h, hcheck⟩ :=
    check_error_types (show muted.InGrammar by decide) (by decide)
  obtain ⟨rfl, rfl⟩ := Reporting.done.inj (hresolve.symm.trans h)
  obtain ⟨fn, hfn, e, he, hcalls, hleaves, hlink⟩ :
      ∃ fn ∈ (muted.linked {}).program.functions, ∃ e ∈ fn.body.allExprs,
        e.calls = [] ∧ e.leaves = 3 ∧ ∃ id ∈ e.idents, id.link = none := by decide
  obtain ⟨ty, reports, hdone, -, -, hconverse⟩ := hcheck fn hfn e he e e.self_mem_nodes
  obtain ⟨herror, hlength⟩ := hconverse hcalls
  obtain rfl := herror.mpr (.inr hlink)
  exact ⟨_, _, hresolve, fn, hfn, e, he, hcalls, hlink, reports, hdone, hleaves ▸ hlength⟩

end Program

end StackMips
