import StackMips.Proofs.Typing

/-!
# Agreement of types

Types agree exactly if they are the same tree and the tree holds no `error`.  One `error` buried
among the parameters of a parameter is enough for a type not to agree with itself.
-/

namespace StackMips.Ty

/-- A type occurs in a type: it is the whole type, or it occurs in a parameter or in the result of
a function type. -/
inductive Occurs (part : Ty) : Ty → Prop where
  | whole : Occurs part part
  | param {params : List Ty} {result param : Ty} (hparam : param ∈ params)
      (h : Occurs part param) : Occurs part (.function params result)
  | result {params : List Ty} {result : Ty} (h : Occurs part result) :
      Occurs part (.function params result)

theorem occurs_error_function_iff {params : List Ty} {result : Ty} :
    Occurs .error (.function params result) ↔
      (∃ param ∈ params, Occurs .error param) ∨ Occurs .error result := by
  constructor
  · intro h
    cases h with
    | param hparam h => exact .inl ⟨_, hparam, h⟩
    | result h => exact .inr h
  · rintro (⟨param, hparam, h⟩ | h)
    · exact .param hparam h
    · exact .result h

mutual

/-- A type agrees with itself exactly if `error` does not occur in it. -/
theorem agrees_self_iff : ∀ ty : Ty, ty.agrees ty = true ↔ ¬Occurs .error ty
  | .int | .bool | .void | .string | .struct _ | .structDef _ => by
      simp only [agrees, beq_self_eq_true, true_iff]
      intro h
      cases h
  | .error => by
      simp only [agrees, Bool.false_eq_true, false_iff, not_not]
      exact .whole
  | .function params result => by
      rw [agrees, Bool.and_eq_true, agreeAll_self_iff params, agrees_self_iff result,
        occurs_error_function_iff]
      simp

theorem agreeAll_self_iff : ∀ tys : List Ty,
    agreeAll tys tys = true ↔ ∀ ty ∈ tys, ¬Occurs .error ty
  | [] => by simp [agreeAll]
  | ty :: tys => by
      rw [agreeAll, Bool.and_eq_true, agrees_self_iff ty, agreeAll_self_iff tys,
        List.forall_mem_cons]

end

theorem agrees_iff {a b : Ty} : a.agrees b = true ↔ a = b ∧ ¬Occurs .error a := by
  constructor
  · intro h
    obtain rfl := eq_of_agrees h
    exact ⟨rfl, (agrees_self_iff a).mp h⟩
  · rintro ⟨rfl, h⟩
    exact (agrees_self_iff a).mpr h

/-- Agreement is equality on the types without `error`.  Hence it is symmetric and transitive, and
it is reflexive on these types and on no other. -/
theorem agrees_is_equality_without_error :
    (∀ a b : Ty, a.agrees b = true ↔ a = b ∧ ¬Occurs .error a) ∧
      (∀ a b : Ty, a.agrees b = true → b.agrees a = true) ∧
      (∀ a b c : Ty, a.agrees b = true → b.agrees c = true → a.agrees c = true) ∧
      ∀ a : Ty, a.agrees a = true ↔ ¬Occurs .error a := by
  refine ⟨fun _ _ => agrees_iff, ?_, ?_, agrees_self_iff⟩
  · intro a b hab
    obtain ⟨rfl, -⟩ := agrees_iff.mp hab
    exact hab
  · intro a b c hab hbc
    obtain ⟨rfl, -⟩ := agrees_iff.mp hab
    exact hbc

-- Two copies of a function type agree, but not if a parameter takes an `error`.
example :
    (function [.function [.int] .bool] .void).agrees (.function [.function [.int] .bool] .void) ∧
      ¬(function [.function [.error] .bool] .void).agrees
        (.function [.function [.error] .bool] .void) := by
  decide

end StackMips.Ty
