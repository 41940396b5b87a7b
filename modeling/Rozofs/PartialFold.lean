import Mathlib.Data.List.Basic

/-! Loops whose steps may be undefined, as folds in `Option`. A loop all of whose steps are defined is
an ordinary fold; a loop that meets a step defined on no state is undefined. -/
namespace PartialFold

variable {σ ι κ : Type}

theorem foldlM_flatMap (run : σ → ι → Option σ) (cells : κ → List ι) (outer : List κ) (s : σ) :
    (outer.flatMap cells).foldlM run s = outer.foldlM (fun s x => (cells x).foldlM run s) s := by
  induction outer generalizing s with
  | nil => rfl
  | cons x outer ih =>
    simp only [List.flatMap_cons,List.foldlM_append,List.foldlM_cons]
    congr 1
    funext s
    exact ih s

/-- Steps that leave the state unchanged can be skipped. -/
theorem foldlM_defined (run : σ → ι → Option σ) (step : σ → ι → σ) (keep : ι → Bool) (cells : List ι) (s : σ)
    (kept : ∀ x ∈ cells, keep x = true → ∀ s, run s x = some (step s x))
    (skipped : ∀ x ∈ cells, keep x = false → ∀ s, run s x = some s) :
    cells.foldlM run s = some ((cells.filter keep).foldl step s) := by
  induction cells generalizing s with
  | nil => rfl
  | cons x cells ih =>
    have rest := fun s => ih s (fun y member => kept y (List.mem_cons_of_mem _ member))
      fun y member => skipped y (List.mem_cons_of_mem _ member)
    rw [List.foldlM_cons]
    cases visited : keep x with
    | true =>
      rw [kept x List.mem_cons_self visited,List.filter_cons_of_pos visited,List.foldl_cons]
      exact rest _
    | false =>
      rw [skipped x List.mem_cons_self visited,List.filter_cons_of_neg (by simp [visited])]
      exact rest _

theorem foldlM_undefined (run : σ → ι → Option σ) (cells : List ι) {x : ι} (member : x ∈ cells)
    (stuck : ∀ s, run s x = none) (s : σ) : cells.foldlM run s = none := by
  induction cells generalizing s with
  | nil => cases member
  | cons y cells ih =>
    rw [List.foldlM_cons]
    cases List.mem_cons.mp member with
    | inl here =>
      subst here
      rw [stuck]
      rfl
    | inr later =>
      cases run s y with
      | none => rfl
      | some s' => exact ih later s'

end PartialFold
