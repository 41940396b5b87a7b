import Mathlib.Logic.Basic

/-! Arrays as functions of their index, and the copy of a run of elements into one. -/
namespace Overlay

/-- `count` elements of `data` are copied at index `start`. -/
def overlay (f : Nat → β) (start count : Nat) (data : Nat → β) : Nat → β :=
  fun i => if start ≤ i ∧ i < start + count then data (i - start) else f i

theorem overlay_inside {f : Nat → β} (low : start ≤ i) (high : i < start + count) :
    overlay f start count data i = data (i - start) := if_pos ⟨low,high⟩

theorem overlay_outside {f : Nat → β} (outside : i < start ∨ start + count ≤ i) :
    overlay f start count data i = f i := by
  apply if_neg
  rintro ⟨low,high⟩
  rcases outside with before | after
  · exact absurd low (Nat.not_le.mpr before)
  · exact absurd high (Nat.not_lt.mpr after)

/-- An array that agrees with `g` from `base` on still does after the same copy into both. -/
theorem overlay_shift {f g : Nat → β} (inside : base ≤ start) (above : base ≤ i)
    (agree : i < start ∨ start + count ≤ i → f (i - base) = g i) :
    overlay f (start - base) count data (i - base) = overlay g start count data i := by
  by_cases here : start ≤ i ∧ i < start + count
  · rw [overlay_inside here.1 here.2,overlay_inside (Nat.sub_le_sub_right here.1 base) (by omega)]
    congr 1
    omega
  · have outside : i < start ∨ start + count ≤ i := by omega
    rw [overlay_outside outside,overlay_outside (by omega),agree outside]

end Overlay
