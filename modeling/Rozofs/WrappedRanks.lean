import Mathlib.Data.Nat.ModEq
import Mathlib.Algebra.Order.Group.Nat
import Mathlib.Tactic.Linarith

/-! Ranks added to a start value in words of finite size, then reduced modulo a number of places.
The sum may wrap before it is reduced, which shifts the places of the ranks after the wrap by the
remainder of the word size. -/
namespace WrappedRanks

/-- The place of a rank, for words of `W` values. -/
def place (W m h rank : Nat) : Nat := (h + rank) % W % m

variable {W m h n : Nat}

theorem place_of_lt (inside : h + rank < W) : place W m h rank = (h + rank) % m := by
  rw [place,Nat.mod_eq_of_lt inside]

theorem place_of_le (low : h < W) (small : rank ≤ W) (wraps : W ≤ h + rank) :
    place W m h rank = (h + rank - W) % m := by
  have once : h + rank - W < W := by omega
  rw [place,Nat.mod_eq_sub_mod wraps,Nat.mod_eq_of_lt once]

/-- Two sums that have the same remainder differ by a multiple of the modulo. -/
theorem apart_of_lt (close : b < m) (less : 0 < b) : a % m ≠ (a + b) % m := by
  intro same
  have divides : m ∣ a + b - a := (Nat.modEq_iff_dvd' (Nat.le_add_right a b)).mp same
  rw [Nat.add_sub_cancel_left] at divides
  exact absurd (Nat.le_of_dvd less divides) (Nat.not_le.mpr close)

/-- Ranks on the two sides of the wrap clash when they differ by the remainder of the word size. -/
theorem wrapped_clash (before : h + r < W) (after : W ≤ h + r') (low : h < W) (small : r' ≤ W)
    (less : r < r') (close : r' - r < m) : place W m h r = place W m h r' ↔ r' - r = W % m := by
  rw [place_of_lt before,place_of_le low small after]
  -- the two sums differ by the word size less the distance of the ranks
  have sum : h + r = h + r' - W + (W - (r' - r)) := by omega
  have whole : W - (r' - r) + (r' - r) = W := by omega
  constructor
  · intro same
    have divides : m ∣ h + r - (h + r' - W) := (Nat.modEq_iff_dvd' (by omega)).mp same.symm
    rw [sum,Nat.add_sub_cancel_left] at divides
    obtain ⟨q,eq⟩ := divides
    rw [← whole,eq,Nat.mul_add_mod,Nat.mod_eq_of_lt close]
  · intro remainder
    have split := Nat.div_add_mod W m
    have part : W - (r' - r) = m * (W / m) := by omega
    rw [sum,part,Nat.add_mul_mod_self_left]

/-- Ranks up to `n` have places of their own, unless the sum wraps between two ranks at the distance
of the remainder of the word size. -/
theorem places_apart_iff (low : h < W) (bound : n ≤ m) (small : n ≤ W) :
    (∀ r r', r < r' → r' < n → place W m h r ≠ place W m h r') ↔
      h + n ≤ W ∨ m ∣ W ∨ n ≤ W % m := by
  constructor
  · intro apart
    by_contra fails
    obtain ⟨wraps,fails⟩ := not_or.mp fails
    obtain ⟨divides,far⟩ := not_or.mp fails
    have positive : 0 < W % m := Nat.pos_of_ne_zero fun zero => divides (Nat.dvd_of_mod_eq_zero zero)
    -- the last rank before the wrap, or the first one of all
    have clash : place W m h (W - h - W % m) = place W m h (W - h - W % m + W % m) :=
      (wrapped_clash (by omega) (by omega) low (by omega) (by omega) (by omega)).mpr (by omega)
    exact apart _ _ (by omega) (by omega) clash
  · intro safe r r' less last same
    by_cases wraps : W ≤ h + r'
    · by_cases both : W ≤ h + r
      · rw [place_of_le low (by omega) both,place_of_le low (by omega) wraps,
          show h + r' - W = h + r - W + (r' - r) by omega] at same
        exact apart_of_lt (by omega) (by omega) same
      · have remainder := (wrapped_clash (by omega) wraps low (by omega) less (by omega)).mp same
        obtain inside | divides | near := safe
        · omega
        · rw [Nat.mod_eq_zero_of_dvd divides] at remainder
          omega
        · omega
    · rw [place_of_lt (by omega),place_of_lt (by omega),show h + r' = h + r + (r' - r) by omega] at same
      exact apart_of_lt (by omega) (by omega) same

end WrappedRanks
