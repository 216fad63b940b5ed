import Mathlib.Tactic.Common

/-!
Computations that return a value or an error, taken apart step by step.
-/

namespace Except

variable {ε δ α β : Type}

@[simp] theorem ok_bind_eq (a : α) (f : α → Except ε β) : (Except.ok a >>= f) = f a := rfl

@[simp] theorem error_bind_eq (e : ε) (f : α → Except ε β) : (Except.error e >>= f) = .error e :=
  rfl

variable {x : Except ε α}

theorem bind_eq_ok_iff {f : α → Except ε β} {b : β} :
    (x >>= f) = .ok b ↔ ∃ a, x = .ok a ∧ f a = .ok b := by
  cases x with
  | error e => simp
  | ok a => simp

theorem mapError_eq_ok_iff {f : ε → δ} {a : α} : x.mapError f = .ok a ↔ x = .ok a := by
  cases x <;> simp [Except.mapError]

/-- What every step keeps holds after the loop. -/
theorem foldlM_invariant {motive : β → Prop} {step : β → α → Except ε β} {items : List α}
    {start final : β} (h : items.foldlM step start = .ok final) (hstart : motive start)
    (hstep : ∀ state, ∀ item ∈ items, motive state → ∀ next, step state item = .ok next →
      motive next) :
    motive final := by
  induction items generalizing start with
  | nil => exact Except.ok.inj h ▸ hstart
  | cons item rest ih =>
    obtain ⟨next, hnext, hrest⟩ := bind_eq_ok_iff.mp h
    refine ih hrest (hstep start item (List.mem_cons_self ..) hstart next hnext) ?_
    exact fun state other hother => hstep state other (List.mem_cons_of_mem _ hother)

theorem forM_eq_ok {check : α → Except ε Unit} {items : List α}
    (h : ∀ item ∈ items, check item = .ok ()) : items.forM check = .ok () := by
  induction items with
  | nil => rfl
  | cons item items ih =>
    show (check item >>= fun _ => items.forM check) = .ok ()
    rw [h item (List.mem_cons_self ..), ok_bind_eq]
    exact ih fun other hother => h other (List.mem_cons_of_mem _ hother)

end Except
