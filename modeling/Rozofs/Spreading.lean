import Mathlib.Algebra.BigOperators.Group.Finset.Basic
import Mathlib.Algebra.Order.BigOperators.Group.Finset
import Mathlib.Data.Finset.Card

/-! Items taken in rounds, at most one at each place in a round: the places are loaded evenly as far as
there are items left. -/
namespace Spreading

variable {ι κ : Type} [DecidableEq κ]

/-- The number of items taken at a place. -/
def load (location : ι → κ) (taken : Finset ι) (place : κ) : Nat := (taken.filter fun item => location item = place).card

/-- So many rounds are over and `used` are the places of the round that is going on: a place has an item
for each round, or has none left. -/
structure Rounds (location : ι → κ) (all taken : Finset ι) (used : κ → Bool) (rounds : Nat) : Prop where
  sub : taken ⊆ all
  upper : ∀ place, load location taken place ≤ rounds + (used place).toNat
  lower : ∀ item ∈ all, item ∉ taken → rounds + (used (location item)).toNat ≤ load location taken (location item)

variable {location : ι → κ} {all taken : Finset ι} {used used' : κ → Bool} {rounds : Nat} {item : ι}

theorem load_insert [DecidableEq ι] (fresh : item ∉ taken) (place : κ) :
    load location (insert item taken) place = load location taken place + (decide (place = location item)).toNat := by
  unfold load
  rw [Finset.filter_insert]
  by_cases here : location item = place
  · rw [if_pos here,Finset.card_insert_of_notMem (fun mem => fresh (Finset.mem_filter.mp mem).1)]
    simp [here]
  · rw [if_neg here]
    simp [Ne.symm here]

theorem Rounds.start (location : ι → κ) (all : Finset ι) : Rounds location all ∅ (fun _ => false) 0 where
  sub := Finset.empty_subset _
  upper := by simp [load]
  lower := by simp

theorem Rounds.congr (holds : Rounds location all taken used rounds) (same : ∀ place, used' place = used place) :
    Rounds location all taken used' rounds := by
  obtain rfl : used' = used := funext same
  exact holds

/-- An item is taken at a place that the round has not used. -/
theorem Rounds.take [DecidableEq ι] (holds : Rounds location all taken used rounds) (mem : item ∈ all) (fresh : item ∉ taken)
    (free : used (location item) = false) :
    Rounds location all (insert item taken) (fun place => decide (place = location item) || used place) rounds where
  sub := Finset.insert_subset mem holds.sub
  upper place := by
    have before := holds.upper place
    rw [load_insert fresh]
    by_cases here : place = location item
    · subst here
      simpa [free] using before
    · simpa [here] using before
  lower other inAll left := by
    rw [Finset.mem_insert,not_or] at left
    have before := holds.lower other inAll left.2
    rw [load_insert fresh]
    by_cases here : location other = location item
    · rw [here,free] at before
      simpa [here] using before
    · simpa [here] using before

/-- A round is over: every item that is left is at a place that it has used. -/
theorem Rounds.next (holds : Rounds location all taken used rounds) (ended : ∀ item ∈ all, item ∉ taken → used (location item) = true) :
    Rounds location all taken (fun _ => false) (rounds + 1) where
  sub := holds.sub
  upper place := by
    have before := holds.upper place
    have one := Bool.toNat_le (used place)
    simp only [Bool.toNat_false,Nat.add_zero]
    omega
  lower item inAll left := by
    have before := holds.lower item inAll left
    rw [ended item inAll left] at before
    exact before

/-- So many items are there for a number of rounds that take one at each place. -/
def reach (location : ι → κ) (all : Finset ι) (rounds : Nat) : Nat :=
  ∑ place ∈ all.image location, min rounds (load location all place)

/-- The items that the rounds have taken are at least those that were there for them. -/
theorem Rounds.reach_le (holds : Rounds location all taken used rounds) {least : Nat} (enough : least ≤ rounds) :
    reach location all least ≤ taken.card := by
  have places : ∀ item ∈ taken, location item ∈ all.image location := fun item mem => Finset.mem_image_of_mem _ (holds.sub mem)
  rw [Finset.card_eq_sum_card_fiberwise places]
  apply Finset.sum_le_sum
  intro place mem
  by_cases left : ∃ item ∈ all, item ∉ taken ∧ location item = place
  · obtain ⟨item,inAll,notTaken,rfl⟩ := left
    have lower := holds.lower item inAll notTaken
    exact (Nat.min_le_left _ _).trans (by unfold load at lower; omega)
  · -- nothing is left here
    apply (Nat.min_le_right _ _).trans
    apply Finset.card_le_card
    intro item here
    obtain ⟨inAll,same⟩ := Finset.mem_filter.mp here
    exact Finset.mem_filter.mpr ⟨by_contra fun notTaken => left ⟨item,inAll,notTaken,same⟩,same⟩

theorem reach_le_card (location : ι → κ) (all : Finset ι) (rounds : Nat) : reach location all rounds ≤ all.card := by
  rw [Finset.card_eq_sum_card_fiberwise (fun item mem => Finset.mem_image_of_mem location mem)]
  exact Finset.sum_le_sum fun place _ => Nat.min_le_right _ _

/-- No item is left at a place that has two items less than another one. -/
theorem Rounds.spread (holds : Rounds location all taken used rounds) {place : κ}
    (less : load location taken (location item) + 2 ≤ load location taken place) (mem : item ∈ all) : item ∈ taken := by
  by_contra left
  have lower := holds.lower item mem left
  have upper := holds.upper place
  have one := Bool.toNat_le (used place)
  omega

end Spreading
