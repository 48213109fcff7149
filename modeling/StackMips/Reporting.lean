import StackMips.Diagnostic
import StackMips.Fault

/-!
# Computations that report

A pass yields its result together with the diagnostics it reported, in report order, or stops at
a fault.  The reports of a computation do not depend on what was reported before it.
-/

namespace StackMips

inductive Reporting (α : Type) where
  | done (value : α) (reports : List Diagnostic)
  | stopped (fault : Fault)

namespace Reporting

protected def bind {α β : Type} (x : Reporting α) (f : α → Reporting β) : Reporting β :=
  match x with
  | .stopped fault => .stopped fault
  | .done a reports =>
    match f a with
    | .stopped fault => .stopped fault
    | .done b more => .done b (reports ++ more)

instance : Monad Reporting where
  pure a := .done a []
  bind := Reporting.bind

/-- Lift a computation that reports nothing. -/
def ofExcept {α : Type} : Except Fault α → Reporting α
  | .error fault => .stopped fault
  | .ok a => .done a []

instance : MonadLift (Except Fault) Reporting where
  monadLift := ofExcept

/-- Report one diagnostic. -/
def report (code : Code) (pos : Pos) : Reporting Unit :=
  .done () [Diagnostic.ofCode code pos]

@[simp] theorem pure_eq {α : Type} (a : α) : (pure a : Reporting α) = .done a [] :=
  rfl

@[simp] theorem stopped_bind {α β : Type} (fault : Fault) (f : α → Reporting β) :
    (.stopped fault : Reporting α) >>= f = .stopped fault :=
  rfl

theorem done_bind {α β : Type} (a : α) (reports : List Diagnostic) (f : α → Reporting β) :
    (.done a reports : Reporting α) >>= f =
      match f a with
      | .stopped fault => .stopped fault
      | .done b more => .done b (reports ++ more) :=
  rfl

instance : LawfulMonad Reporting :=
  LawfulMonad.mk' Reporting
    (fun x => by
      cases x with
      | stopped fault => rfl
      | done a reports =>
        change (Reporting.done a reports >>= fun a => pure a) = _
        simp [done_bind])
    (fun a f => by
      cases h : f a <;> simp [done_bind, h])
    (fun x f g => by
      cases x with
      | stopped fault => rfl
      | done a reports =>
        cases hf : f a with
        | stopped fault => simp [done_bind, hf]
        | done b more => cases hg : g b <;> simp [done_bind, hf, hg])

end Reporting

end StackMips
