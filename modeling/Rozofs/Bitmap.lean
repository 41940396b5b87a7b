import Mathlib.Logic.Function.Basic
import Mathlib.Data.List.Basic

/-! Bitmaps stored in bytes, read with tables that give the lowest bit of a byte. -/
namespace Bitmap
open Function (update)

/-- The rank of the lowest 1 of a byte. -/
def lowest1 (v : BitVec 8) : Nat := ((List.range 8).find? fun bit => v.getLsbD bit).getD 0

/-- The rank of the lowest 0 of a byte. -/
def lowest0 (v : BitVec 8) : Nat := ((List.range 8).find? fun bit => !v.getLsbD bit).getD 0

/-- The bits that a loop over the 1s of a byte visits; it clears each one before the next. -/
def ones : Nat → BitVec 8 → List Nat
  | 0, _ => []
  | n + 1, v => if v = 0#8 then [] else lowest1 v :: ones n (v &&& ~~~(1#8 <<< lowest1 v))

/-- The bits that a loop over the 0s of a byte visits; it sets each one before the next. -/
def zeros : Nat → BitVec 8 → List Nat
  | 0, _ => []
  | n + 1, v => if v = 0xFF#8 then [] else lowest0 v :: zeros n (v ||| (1#8 <<< lowest0 v))

def set (m : Nat → BitVec 8) (byte bit : Nat) : Nat → BitVec 8 := update m byte (m byte ||| (1#8 <<< bit))

def clear (m : Nat → BitVec 8) (byte bit : Nat) : Nat → BitVec 8 := update m byte (m byte &&& ~~~(1#8 <<< bit))

/-- The first of `n` bytes that is not `v`. -/
def firstNot (v : BitVec 8) (n : Nat) (m : Nat → BitVec 8) : Option Nat := (List.range n).find? fun byte => m byte ≠ v

def test (m : Nat → BitVec 8) (i : Nat) : Bool := (m (i / 8)).getLsbD (i % 8)

theorem mem_ones (v : BitVec 8) (bit : Nat) : bit ∈ ones 8 v ↔ bit < 8 ∧ v.getLsbD bit = true := by
  have all : ∀ v : BitVec 8, ones 8 v = (List.range 8).filter fun bit => v.getLsbD bit := by decide +kernel
  simp [all]

theorem mem_zeros (v : BitVec 8) (bit : Nat) : bit ∈ zeros 8 v ↔ bit < 8 ∧ v.getLsbD bit = false := by
  have all : ∀ v : BitVec 8, zeros 8 v = (List.range 8).filter fun bit => !v.getLsbD bit := by decide +kernel
  simp [all]

theorem lowest0_spec (v : BitVec 8) (some : v ≠ 0xFF#8) : lowest0 v < 8 ∧ v.getLsbD (lowest0 v) = false := by
  have all : ∀ v : BitVec 8, v ≠ 0xFF#8 → lowest0 v < 8 ∧ v.getLsbD (lowest0 v) = false := by decide +kernel
  exact all v some

theorem eq_ones_iff (v : BitVec 8) : v = 0xFF#8 ↔ ∀ bit < 8, v.getLsbD bit = true := by
  have all : ∀ v : BitVec 8, v = 0xFF#8 ↔ ∀ bit < 8, v.getLsbD bit = true := by decide +kernel
  exact all v

theorem eq_zero_iff (v : BitVec 8) : v = 0#8 ↔ ∀ bit < 8, v.getLsbD bit = false := by
  have all : ∀ v : BitVec 8, v = 0#8 ↔ ∀ bit < 8, v.getLsbD bit = false := by decide +kernel
  exact all v

theorem getLsbD_mask (inside : bit < 8) (low : j < 8) : (1#8 <<< bit).getLsbD j = decide (j = bit) := by
  have all : ∀ bit < 8, ∀ j < 8, (1#8 <<< bit).getLsbD j = decide (j = bit) := by decide +kernel
  exact all bit inside j low

theorem test_set (m : Nat → BitVec 8) (byte i : Nat) (inside : bit < 8) :
    test (set m byte bit) i = (decide (i = 8 * byte + bit) || test m i) := by
  have low : i % 8 < 8 := Nat.mod_lt _ (by decide)
  by_cases here : i / 8 = byte
  · have split : i = 8 * byte + bit ↔ i % 8 = bit := by omega
    simp [test,set,here,getLsbD_mask inside low,split,Bool.or_comm]
  · have other : i ≠ 8 * byte + bit := by omega
    simp [test,set,here,other]

theorem test_clear (m : Nat → BitVec 8) (byte i : Nat) (inside : bit < 8) :
    test (clear m byte bit) i = (!decide (i = 8 * byte + bit) && test m i) := by
  have low : i % 8 < 8 := Nat.mod_lt _ (by decide)
  by_cases here : i / 8 = byte
  · have split : i = 8 * byte + bit ↔ i % 8 = bit := by omega
    simp only [test,clear,here,Function.update_self,BitVec.getLsbD_and,BitVec.getLsbD_not,getLsbD_mask inside low,split,
      low,decide_true,Bool.true_and,Bool.and_comm]
  · have other : i ≠ 8 * byte + bit := by omega
    simp [test,clear,here,other]

theorem test_at (m : Nat → BitVec 8) (byte : Nat) (inside : bit < 8) :
    test m (8 * byte + bit) = (m byte).getLsbD bit := by
  have first : (8 * byte + bit) / 8 = byte := by omega
  have second : (8 * byte + bit) % 8 = bit := by omega
  rw [test,first,second]

/-- A byte with a 0 leads to a bit that is not set. -/
theorem firstNot_ones (found : firstNot 0xFF#8 n m = some byte) :
    byte < n ∧ lowest0 (m byte) < 8 ∧ test m (8 * byte + lowest0 (m byte)) = false := by
  have some : m byte ≠ 0xFF#8 := by simpa using List.find?_some found
  obtain ⟨inside,clear⟩ := lowest0_spec (m byte) some
  exact ⟨List.mem_range.mp (List.mem_of_find?_eq_some found),inside,by rwa [test_at m byte inside]⟩

theorem firstNot_none (v : BitVec 8) : firstNot v n m = none ↔ ∀ byte < n, m byte = v := by
  simp [firstNot]

theorem all_ones : firstNot 0xFF#8 n m = none ↔ ∀ i < 8 * n, test m i = true := by
  rw [firstNot_none]
  constructor
  · intro all i inside
    have full := all (i / 8) (by omega)
    exact (eq_ones_iff _).mp full (i % 8) (Nat.mod_lt _ (by decide))
  · intro all byte inside
    refine (eq_ones_iff _).mpr fun bit low => ?_
    rw [← test_at m byte low]
    exact all _ (by omega)

theorem all_zeros : firstNot 0#8 n m = none ↔ ∀ i < 8 * n, test m i = false := by
  rw [firstNot_none]
  constructor
  · intro all i inside
    have none := all (i / 8) (by omega)
    exact (eq_zero_iff _).mp none (i % 8) (Nat.mod_lt _ (by decide))
  · intro all byte inside
    refine (eq_zero_iff _).mpr fun bit low => ?_
    rw [← test_at m byte low]
    exact all _ (by omega)

end Bitmap
