import Mathlib.Logic.Basic

/-! Runs of a machine whose steps are a partial function of an action, and the invariant rule. -/
namespace Machine

/-- States reached by runs whose steps all meet `ok`, a condition on the state before the step
and the action. -/
inductive Run (step : α → σ → Option σ) (ok : σ → α → Prop) (start : σ) : σ → Prop
  | refl : Run step ok start start
  | tail (before : Run step ok start s) (a : α) (good : ok s a) (next : step a s = some s') : Run step ok start s'

theorem Run.invariant {step : α → σ → Option σ} {ok : σ → α → Prop} (inv : σ → Prop) (base : inv start)
    (keep : ∀ s a s', inv s → ok s a → step a s = some s' → inv s') (run : Run step ok start s) : inv s := by
  induction run with
  | refl => exact base
  | tail _ a good next ih => exact keep _ a _ ih good next

/-- A run is one under a weaker condition. -/
theorem Run.mono {step : α → σ → Option σ} {ok ok' : σ → α → Prop} (weaker : ∀ s a, ok s a → ok' s a) (run : Run step ok start s) :
    Run step ok' start s := by
  induction run with
  | refl => exact .refl
  | tail _ a good next ih => exact ih.tail a (weaker _ a good) next

/-- Actions one after the other; `none` when one of them is not enabled or does not meet the
condition. -/
def exec (step : α → σ → Option σ) (ok : σ → α → Prop) [∀ s a, Decidable (ok s a)] : List α → σ → Option σ
  | [], s => some s
  | a :: rest, s => if ok s a then (step a s).bind (exec step ok rest) else none

theorem Run.exec {step : α → σ → Option σ} {ok : σ → α → Prop} [∀ s a, Decidable (ok s a)]
    (before : Run step ok start s) (done : Machine.exec step ok actions s = some s') : Run step ok start s' := by
  induction actions generalizing s with
  | nil =>
    cases done
    exact before
  | cons a rest ih =>
    rw [Machine.exec] at done
    split at done
    · rename_i good
      obtain ⟨middle,next,done⟩ := Option.bind_eq_some_iff.mp done
      exact ih (before.tail a good next) done
    · cases done

end Machine
