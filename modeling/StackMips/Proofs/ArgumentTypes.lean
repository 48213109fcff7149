import StackMips.Proofs.Analysis
import StackMips.Proofs.Resolution.SymbolArena
import StackMips.Proofs.TypeChecking

/-!
# Arguments and formals

A call is checked against the signature of its callee, which counts the formals that are written but
lists the types of the accepted ones only.  Arguments and types are paired from the left, so behind
a rejected formal an argument meets the type of another formal, and the last arguments are not
looked at.  A call is checked formal by formal exactly if none has been rejected.
-/

namespace StackMips

def VarDecl.acceptedType? (decl : VarDecl) : Option Ty :=
  if decl.isAccepted then some decl.type.toTy else none

namespace Expr

/-- What is reported about an argument for a formal: what is wrong inside the argument, and then a
mismatch exactly if the formal has a type and the argument has another one, which is not `error`. -/
def Passed (symbols : Arena) (arg : Expr) (formal? : Option Ty) (reports : List Diagnostic) :
    Prop :=
  ∃ ty inside mismatch, arg.check symbols = .done ty inside ∧ reports = inside ++ mismatch ∧
    (mismatch = [] ∨ mismatch = [Diagnostic.ofCode .argumentType arg.pos]) ∧
    (mismatch ≠ [] ↔ ∃ formal, formal? = some formal ∧ ty ≠ .error ∧ ty ≠ formal)

inductive PassedAll (symbols : Arena) : List Expr → List (Option Ty) → List Diagnostic → Prop
  | nil : PassedAll symbols [] [] []
  | cons {arg : Expr} {formal? : Option Ty} {args : List Expr} {formals : List (Option Ty)}
      {reports rest : List Diagnostic} (harg : arg.Passed symbols formal? reports)
      (hargs : PassedAll symbols args formals rest) :
      PassedAll symbols (arg :: args) (formal? :: formals) (reports ++ rest)

end Expr

/-! ## Pairing from the left -/

theorem Ty.mismatch_iff (ty : Ty) {formal : Ty} (h : formal.isReturnable) :
    !ty.isError && !ty.agrees formal ↔ ty ≠ .error ∧ ty ≠ formal := by
  have herror : ty.isError ↔ ty = .error := by cases ty <;> simp [isError]
  have hagrees : ty.agrees formal ↔ ty = formal :=
    ⟨eq_of_agrees, by rintro rfl; exact agrees_self_of_isReturnable h⟩
  rw [Bool.and_eq_true, Bool.not_eq_true', Bool.not_eq_true', ← Bool.not_eq_true,
    ← Bool.not_eq_true, herror, hagrees]

namespace Expr

open Reporting

variable {symbols : Arena}

/-- Arguments are paired with types as far as there are types. -/
theorem checkArgs_passed {args : List Expr} (hargs : ∀ arg ∈ args, (arg.check symbols).IsDone)
    {formals : List Ty} (hformals : ∀ ty ∈ formals, ty.isReturnable)
    (hcount : formals.length ≤ args.length) :
    ∃ reports, checkArgs symbols args formals = .done () reports ∧
      PassedAll symbols (args.take formals.length) (formals.map some) reports := by
  induction formals generalizing args with
  | nil => exact ⟨[], by cases args <;> rfl, .nil⟩
  | cons formal formals ih =>
      cases args with
      | nil => simp at hcount
      | cons arg args =>
          obtain ⟨hformal, hformals⟩ := List.forall_mem_cons.mp hformals
          obtain ⟨⟨ty, inside, hty⟩, hargs⟩ := List.forall_mem_cons.mp hargs
          obtain ⟨rest, hrest, hpassed⟩ := ih hargs hformals (by simpa using hcount)
          have hmismatch := Ty.mismatch_iff ty hformal
          rw [checkArgs, hty, done_bind_eq, hrest]
          by_cases hreported : !ty.isError && !ty.agrees formal
          · refine ⟨inside ++ [Diagnostic.ofCode .argumentType arg.pos] ++ rest, ?_,
              .cons ⟨ty, inside, _, hty, rfl, .inr rfl, ?_⟩ hpassed⟩
            · rw [if_pos hreported]
              simp
            · simpa using hmismatch.mp hreported
          · refine ⟨inside ++ [] ++ rest, ?_,
              .cons ⟨ty, inside, _, hty, rfl, .inl rfl, ?_⟩ hpassed⟩
            · rw [if_neg hreported]
              simp
            · simpa using mt hmismatch.mpr hreported

/-- A call with the right number of arguments is checked against the types of the signature. -/
theorem check_call {callee : Ident} {args : List Expr} {info : FunctionInfo} {ty : Ty}
    (hty : callee.ty symbols = .ok ty) (herror : ty.isError = false)
    (hinfo : callee.function? symbols = .ok (some info)) (hcount : args.length = info.numParams)
    {reports : List Diagnostic}
    (hargs : checkArgs symbols args info.paramTypes = .done () reports) :
    (call callee args).check symbols = .done info.returnType reports := by
  simp [check, hty, herror, hinfo, hcount, hargs]

/-- An argument that fits no formal, for what is wrong inside it. -/
def negatedTrue : Expr := .unary .neg (.bool true Pos.nowhere)

theorem check_negatedTrue : negatedTrue.check symbols =
    .done .error [Diagnostic.ofCode .arithmeticOperand Pos.nowhere] := rfl

/-- Each of these arguments is reported once, so the reports count them. -/
theorem PassedAll.length_negatedTrue {n : Nat} {formals : List (Option Ty)}
    {reports : List Diagnostic}
    (h : PassedAll symbols (List.replicate n negatedTrue) formals reports) :
    reports.length = n := by
  induction n generalizing formals reports with
  | zero =>
      cases h
      rfl
  | succ n ih =>
      cases h with
      | cons harg hargs =>
          obtain ⟨ty, inside, mismatch, hcheck, rfl, -, hmismatch⟩ := harg
          cases check_negatedTrue.symm.trans hcheck
          have hquiet : mismatch = [] := by simpa using hmismatch
          simp [ih hargs, hquiet]

end Expr

/-! ## Functions -/

/-- A call of the function with as many arguments as it has formals. -/
structure FnDecl.Called (symbols : Arena) (fn : FnDecl) (callee : Ident) (args : List Expr) :
    Prop where
  link : callee.link = fn.id.link
  count : args.length = fn.formals.length
  inside : ∀ arg ∈ args, ∀ id ∈ arg.idents, id.PointsInto symbols

section Calls

variable {program : Program} {options : Options} {fn : FnDecl}
  (hfn : fn ∈ (program.linked { options }).program.functions) (haccepted : fn.id.link.isSome)
include hfn haccepted

/-- The arguments of a call are paired with the types of the accepted formals. -/
theorem FnDecl.Called.check_eq {callee : Ident} {args : List Expr}
    (h : fn.Called (program.linked { options }).context.symbols callee args) :
    ∃ reports, (Expr.call callee args).check (program.linked { options }).context.symbols =
        .done fn.returnType.toTy reports ∧
      Expr.PassedAll (program.linked { options }).context.symbols
        (args.take (VarDecl.acceptedTypes fn.formals).length)
        ((VarDecl.acceptedTypes fn.formals).map some) reports := by
  obtain ⟨link, hlink⟩ := Option.isSome_iff_exists.mp haccepted
  obtain ⟨symbol, info, hget, hfunction, hdeclares, hreturn⟩ := Program.declares_of_link hfn hlink
  have hcallee : callee.link = some link := h.link.trans hlink
  have hformed := program.formed_after options link symbol hget
  have hcount := (hformed.function info (Symbol.function?_eq_some_iff.mp hfunction)).2.1
  rw [hdeclares.paramTypes, hdeclares.numParams, ← h.count] at hcount
  have hreturnable : ∀ ty ∈ VarDecl.acceptedTypes fn.formals, ty.isReturnable := by
    intro ty hty
    obtain ⟨formal, -, rfl⟩ := List.mem_map.mp hty
    exact formal.type.isReturnable_toTy
  obtain ⟨reports, hchecked, hpassed⟩ := Expr.checkArgs_passed
    (fun arg harg => Expr.check_isDone (h.inside arg harg)) hreturnable hcount
  refine ⟨reports, ?_, hpassed⟩
  rw [← hreturn]
  have hty : callee.ty (program.linked { options }).context.symbols = .ok symbol.ty := by
    simp [Ident.ty, hcallee, Arena.fetch_of_get? hget]
  refine Expr.check_call hty (Ty.isError_of_isErrorFree hformed.errorFree) ?_
    (h.count.trans hdeclares.numParams.symm) (hdeclares.paramTypes ▸ hchecked)
  simp [Ident.function?, hcallee, Arena.fetch_of_get? hget, hfunction]

/-- All arguments are checked formal by formal exactly if there is a type for each. -/
theorem FnDecl.called_passes_iff :
    (∀ callee args, fn.Called (program.linked { options }).context.symbols callee args →
      ∃ reports, (Expr.call callee args).check (program.linked { options }).context.symbols =
          .done fn.returnType.toTy reports ∧
        Expr.PassedAll (program.linked { options }).context.symbols args
          (fn.formals.map VarDecl.acceptedType?) reports) ↔
      ∀ formal ∈ fn.formals, formal.isAccepted := by
  have hall : (VarDecl.acceptedTypes fn.formals).length = fn.formals.length ↔
      ∀ formal ∈ fn.formals, formal.isAccepted := by
    rw [VarDecl.acceptedTypes, List.length_map]
    exact List.length_filter_eq_length_iff
  constructor
  · intro hpasses
    have hcalled : fn.Called (program.linked { options }).context.symbols fn.id
        (List.replicate fn.formals.length Expr.negatedTrue) :=
      ⟨rfl, List.length_replicate, by simp [Expr.negatedTrue, Expr.idents]⟩
    obtain ⟨reports, hcheck, hpassed⟩ := hpasses _ _ hcalled
    obtain ⟨reports', hcheck', hpassed'⟩ := hcalled.check_eq hfn haccepted
    cases hcheck.symm.trans hcheck'
    rw [List.take_replicate] at hpassed'
    -- each argument that is looked at is reported once
    have hcount := hpassed.length_negatedTrue.symm.trans hpassed'.length_negatedTrue
    have hle := VarDecl.length_acceptedTypes_le fn.formals
    exact hall.mp (by omega)
  · intro haccepts callee args hcalled
    obtain ⟨reports, hcheck, hpassed⟩ := hcalled.check_eq hfn haccepted
    have htypes : (VarDecl.acceptedTypes fn.formals).map some =
        fn.formals.map VarDecl.acceptedType? := by
      rw [VarDecl.acceptedTypes_eq haccepts, List.map_map]
      exact List.map_congr_left fun formal hformal => (if_pos (haccepts formal hformal)).symm
    rw [hall.mpr haccepts, ← hcalled.count, List.take_length, htypes] at hpassed
    exact ⟨reports, hcheck, hpassed⟩

end Calls

/-! ## Whole programs -/

namespace Program

/-- In every resolved program the arguments of a call of an accepted function are paired with the
types of the accepted formals, from the left, and the arguments behind them are not looked at.  So
each argument is checked, and compared with the formal it is passed for, exactly if the function has
no rejected formal. -/
theorem check_calls_iff {program : Program} {options : Options} (hgrammar : program.InGrammar)
    (hunlinked : program.Unlinked) :
    ∃ resolved resolution, program.resolve { options } = .done resolved resolution ∧
      ∀ fn ∈ resolved.program.functions, fn.id.link.isSome →
        (∀ callee args, fn.Called resolved.context.symbols callee args →
          ∃ reports, (Expr.call callee args).check resolved.context.symbols =
              .done fn.returnType.toTy reports ∧
            Expr.PassedAll resolved.context.symbols
              (args.take (VarDecl.acceptedTypes fn.formals).length)
              ((VarDecl.acceptedTypes fn.formals).map some) reports) ∧
        ((∀ callee args, fn.Called resolved.context.symbols callee args →
          ∃ reports, (Expr.call callee args).check resolved.context.symbols =
              .done fn.returnType.toTy reports ∧
            Expr.PassedAll resolved.context.symbols args
              (fn.formals.map VarDecl.acceptedType?) reports) ↔
          ∀ formal ∈ fn.formals, formal.isAccepted) :=
  ⟨_, _, resolve_eq sound_empty hgrammar hunlinked, fun _ hfn haccepted =>
    ⟨fun _ _ hcalled => hcalled.check_eq hfn haccepted, FnDecl.called_passes_iff hfn haccepted⟩⟩

def passedArgs : List Expr :=
  [.int 1 ⟨3, 5⟩, .int 2 ⟨3, 8⟩, .unary .neg (.bool true ⟨3, 12⟩)]

/-- A program that calls a function with three formals; the first one is `a`. -/
def passing (second : String) : Program where
  decls := [
    .fn ⟨.void, ⟨"f", ⟨1, 6⟩, none⟩, [⟨.int, ⟨"a", ⟨1, 12⟩, none⟩⟩,
      ⟨.int, ⟨second, ⟨1, 19⟩, none⟩⟩, ⟨.bool, ⟨"b", ⟨1, 27⟩, none⟩⟩], ⟨[], []⟩⟩,
    .fn ⟨.void, ⟨"main", ⟨2, 6⟩, none⟩, [], ⟨[], [.call ⟨"f", ⟨3, 3⟩, none⟩ passedArgs]⟩⟩]

def passingDistinct : Program := passing "c"

def passingTwice : Program := passing "a"

/-- If the second formal has a name of its own, all arguments are compared with the formals; if it
is rejected, two of the three are compared, the second one with the type of the third formal. -/
theorem check_passing_calls :
    (∃ resolved resolution, passingDistinct.resolve {} = .done resolved resolution ∧
      ∃ fn ∈ resolved.program.functions, ∀ callee args,
        fn.Called resolved.context.symbols callee args →
          ∃ reports, (Expr.call callee args).check resolved.context.symbols =
              .done .void reports ∧
            Expr.PassedAll resolved.context.symbols args [some .int, some .int, some .bool]
              reports) ∧
    ∃ resolved resolution, passingTwice.resolve {} = .done resolved resolution ∧
      ∃ fn ∈ resolved.program.functions, ∀ callee args,
        fn.Called resolved.context.symbols callee args →
          ∃ reports, (Expr.call callee args).check resolved.context.symbols =
              .done .void reports ∧
            Expr.PassedAll resolved.context.symbols (args.take 2) [some .int, some .bool]
              reports := by
  constructor
  · obtain ⟨resolved, resolution, hresolve, hcalls⟩ :=
      @check_calls_iff passingDistinct {} (by decide) (by decide)
    have hlinked : passingDistinct.resolve {} = .done (passingDistinct.linked {}) [] :=
      resolve_eq sound_empty (by decide) (by decide)
    obtain ⟨rfl, rfl⟩ := Reporting.done.inj (hlinked.symm.trans hresolve)
    exact ⟨_, _, hresolve, _, .head _, (hcalls _ (.head _) rfl).2.mpr (by decide)⟩
  · obtain ⟨resolved, resolution, hresolve, hcalls⟩ :=
      @check_calls_iff passingTwice {} (by decide) (by decide)
    have hlinked : passingTwice.resolve {} =
        .done (passingTwice.linked {}) (passingTwice.resolutionReports {}) :=
      resolve_eq sound_empty (by decide) (by decide)
    obtain ⟨rfl, rfl⟩ := Reporting.done.inj (hlinked.symm.trans hresolve)
    exact ⟨_, _, hresolve, _, .head _, (hcalls _ (.head _) rfl).1⟩

/-- The second argument is reported although its formal has been rejected, and what is wrong inside
the third one is not. -/
theorem passingTwice_checks_amiss : ∃ resolved,
    passingTwice.analyze {} = .done resolved [Diagnostic.ofCode .multiplyDeclared ⟨1, 19⟩,
      Diagnostic.ofCode .argumentType ⟨3, 8⟩] ∧
    ∃ fn ∈ resolved.program.functions, fn.id.link.isSome ∧
      fn.formals.map VarDecl.acceptedType? = [some .int, none, some .bool] ∧
      ∃ callee, (callee, passedArgs) ∈ resolved.program.calls ∧
        fn.Called resolved.context.symbols callee passedArgs ∧
        ¬ ∃ reports, (Expr.call callee passedArgs).check resolved.context.symbols =
            .done .void reports ∧
          Expr.PassedAll resolved.context.symbols passedArgs [some .int, none, some .bool]
            reports := by
  have hanalyze : passingTwice.analyze {} = .done (passingTwice.linked {})
      [Diagnostic.ofCode .multiplyDeclared ⟨1, 19⟩, Diagnostic.ofCode .argumentType ⟨3, 8⟩] :=
    analyze_of_check sound_empty (by decide) (by decide) rfl
  refine ⟨_, hanalyze, _, .head _, rfl, rfl, ⟨"f", ⟨3, 3⟩, some 0⟩, .head _,
    ⟨rfl, rfl, by simp [passedArgs, Expr.idents]⟩, ?_⟩
  rintro ⟨reports, hcheck, hpassed⟩
  have hreports : [Diagnostic.ofCode .argumentType ⟨3, 8⟩] = reports :=
    (Reporting.done.inj hcheck).2
  have hmissing : Diagnostic.ofCode .arithmeticOperand ⟨3, 12⟩ ∈ reports := by
    cases hpassed with
    | cons _ hpassed =>
        cases hpassed with
        | cons _ hpassed =>
            cases hpassed with
            | cons hthird _ =>
                obtain ⟨_, inside, _, harg, rfl, -⟩ := hthird
                have hinside : [Diagnostic.ofCode .arithmeticOperand ⟨3, 12⟩] = inside :=
                  (Reporting.done.inj harg).2
                simp [← hinside]
  rw [← hreports] at hmissing
  revert hmissing
  decide

end Program

end StackMips
