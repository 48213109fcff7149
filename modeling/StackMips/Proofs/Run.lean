import StackMips.Resolution.Declaration

/-!
# Runs of computations that report

What a sequence of computations does, from what its parts do.  A run is computed forwards by the
`apply` lemmas and taken apart by the `iff` lemmas.
-/

namespace StackMips

namespace Reporting

variable {α β : Type}

def after (reports : List Diagnostic) : Reporting α → Reporting α
  | .stopped fault => .stopped fault
  | .done a more => .done a (reports ++ more)

@[simp] theorem after_done (reports more : List Diagnostic) (a : α) :
    after reports (.done a more) = .done a (reports ++ more) := rfl

@[simp] theorem after_nil (x : Reporting α) : after [] x = x := by
  cases x <;> rfl

@[simp] theorem after_eq_quiet_iff {reports : List Diagnostic} {x : Reporting α} {a : α} :
    after reports x = .done a [] ↔ reports = [] ∧ x = .done a [] := by
  cases x <;> simp [after, and_left_comm]

@[simp] theorem done_bind_eq (a : α) (reports : List Diagnostic) (f : α → Reporting β) :
    (.done a reports : Reporting α) >>= f = (f a).after reports := by
  rw [done_bind]
  cases f a <;> rfl

@[simp] theorem report_eq (code : Code) (pos : Pos) :
    report code pos = .done () [Diagnostic.ofCode code pos] := rfl

@[simp] theorem liftM_ok (a : α) :
    (liftM (Except.ok a : Except Fault α) : Reporting α) = .done a [] := rfl

/-- A sequence is done exactly when both parts are, and reports what they report. -/
theorem bind_eq_done_iff {x : Reporting α} {f : α → Reporting β} {b : β}
    {reports : List Diagnostic} :
    x >>= f = .done b reports ↔
      ∃ a first second, x = .done a first ∧ f a = .done b second ∧ reports = first ++ second := by
  cases x with
  | stopped fault => simp
  | done a first =>
      rw [done_bind_eq]
      cases h : f a with
      | stopped fault => simp [after, h]
      | done c second =>
          simp only [after_done, done.injEq]
          constructor
          · rintro ⟨rfl, rfl⟩
            exact ⟨a, first, second, ⟨rfl, rfl⟩, h, rfl⟩
          · rintro ⟨_, _, _, ⟨rfl, rfl⟩, hf, rfl⟩
            rw [h, done.injEq] at hf
            exact ⟨hf.1, by rw [hf.2]⟩

theorem bind_eq_quiet_iff {x : Reporting α} {f : α → Reporting β} {b : β} :
    x >>= f = .done b [] ↔ ∃ a, x = .done a [] ∧ f a = .done b [] := by
  rw [bind_eq_done_iff]
  constructor
  · rintro ⟨a, first, second, hx, hf, hnil⟩
    obtain ⟨rfl, rfl⟩ := List.append_eq_nil_iff.mp hnil.symm
    exact ⟨a, hx, hf⟩
  · rintro ⟨a, hx, hf⟩
    exact ⟨a, [], [], hx, hf, rfl⟩

theorem liftM_eq_done_iff {x : Except Fault α} {a : α} {reports : List Diagnostic} :
    (liftM x : Reporting α) = .done a reports ↔ x = .ok a ∧ reports = [] := by
  cases x with
  | error fault =>
      change Reporting.stopped fault = _ ↔ _
      simp
  | ok b =>
      rw [liftM_ok, done.injEq, Except.ok.injEq, eq_comm (a := reports)]

/-- The computation does not stop at a fault. -/
def IsDone (x : Reporting α) : Prop := ∃ a reports, x = .done a reports

theorem isDone_done (a : α) (reports : List Diagnostic) : IsDone (.done a reports) :=
  ⟨a, reports, rfl⟩

theorem IsDone.bind {x : Reporting α} {f : α → Reporting β} (hx : x.IsDone)
    (hf : ∀ a, (f a).IsDone) : (x >>= f).IsDone := by
  obtain ⟨a, reports, rfl⟩ := hx
  obtain ⟨b, more, hb⟩ := hf a
  exact ⟨b, reports ++ more, by rw [done_bind_eq, hb, after_done]⟩

theorem isDone_liftM {x : Except Fault α} {a : α} (h : x = .ok a) :
    (liftM x : Reporting α).IsDone :=
  ⟨a, [], by rw [h, liftM_ok]⟩

end Reporting

namespace Resolve

variable {α β : Type} {r : Resolver}

theorem bind_apply (m : Resolve α) (f : α → Resolve β) (r : Resolver) :
    (m >>= f) r = (m r >>= fun p => f p.1 p.2) := rfl

theorem map_apply (m : Resolve α) (f : α → β) (r : Resolver) :
    (f <$> m) r = (m r >>= fun p => .done (f p.1, p.2) []) := rfl

@[simp] theorem pure_apply (a : α) : (pure a : Resolve α) r = .done (a, r) [] := rfl

@[simp] theorem get_apply : (get : Resolve Resolver) r = .done (r, r) [] := rfl

@[simp] theorem set_apply (r' : Resolver) :
    (set r' : Resolve PUnit) r = .done (⟨⟩, r') [] := rfl

@[simp] theorem modify_apply (f : Resolver → Resolver) :
    (modify f : Resolve PUnit) r = .done (⟨⟩, f r) [] := rfl

@[simp] theorem report_apply (code : Code) (pos : Pos) :
    report code pos r = .done ((), r) [Diagnostic.ofCode code pos] := rfl

@[simp] theorem stop_apply (fault : Fault) : (stop fault : Resolve α) r = .stopped fault := rfl

@[simp] theorem liftM_ok (a : α) :
    (liftM (Except.ok a : Except Fault α) : Resolve α) r = .done (a, r) [] := rfl

theorem bind_eq_quiet_iff {m : Resolve α} {f : α → Resolve β} {b : β} {r' : Resolver} :
    (m >>= f) r = .done (b, r') [] ↔
      ∃ a mid, m r = .done (a, mid) [] ∧ f a mid = .done (b, r') [] := by
  rw [bind_apply, Reporting.bind_eq_quiet_iff]
  exact ⟨fun ⟨⟨a, mid⟩, h⟩ => ⟨a, mid, h⟩, fun ⟨a, mid, h⟩ => ⟨(a, mid), h⟩⟩

theorem liftM_eq_quiet_iff {x : Except Fault α} {a : α} {r' : Resolver} :
    (liftM x : Resolve α) r = .done (a, r') [] ↔ x = .ok a ∧ r' = r := by
  cases x with
  | error fault =>
      change Reporting.stopped fault = _ ↔ _
      simp
  | ok b =>
      rw [liftM_ok, Reporting.done.injEq, Prod.mk.injEq, Except.ok.injEq, eq_comm (a := r)]
      simp

end Resolve

end StackMips
