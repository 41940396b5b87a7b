import Mathlib.Logic.Basic
import Mathlib.Data.List.Basic

/-! Writes of runs of cells in a map, some cells of which were never written. Writes that do not
overlap can be made in any order. -/

/-- A run of `size` cells from `off` on. -/
structure Extent (α : Type) where
  off : Nat
  size : Nat
  data : Nat → α

namespace Extent
variable {α : Type} {w v : Extent α} {ws : List (Extent α)} {f : Nat → Option α} {a : Nat}

def Covers (w : Extent α) (a : Nat) : Prop := w.off ≤ a ∧ a < w.off + w.size

instance : Decidable (w.Covers a) := inferInstanceAs (Decidable (_ ∧ _))

def Apart (w v : Extent α) : Prop := ∀ a, w.Covers a → ¬v.Covers a

/-- What a cell holds once the run is written. -/
def value (w : Extent α) (a : Nat) : α := w.data (a - w.off)

def write (f : Nat → Option α) (w : Extent α) : Nat → Option α := fun a => if w.Covers a then some (w.value a) else f a

/-- All the writes, in the order of the list. -/
def writeAll (ws : List (Extent α)) (f : Nat → Option α) : Nat → Option α := ws.foldl write f

@[simp] theorem writeAll_nil : writeAll [] f = f := rfl

theorem write_of_covers (covers : w.Covers a) : write f w a = some (w.value a) := if_pos covers

theorem write_of_not (out : ¬w.Covers a) : write f w a = f a := if_neg out

theorem writeAll_of_not (out : ∀ w ∈ ws, ¬w.Covers a) : writeAll ws f a = f a := by
  induction ws generalizing f with
  | nil => rfl
  | cons w ws ih =>
    rw [writeAll,List.foldl_cons]
    exact (ih fun v member => out v (List.mem_cons_of_mem _ member)).trans (write_of_not (out w List.mem_cons_self))

theorem writeAll_of_mem (apart : ws.Pairwise Apart) (member : w ∈ ws) (covers : w.Covers a) :
    writeAll ws f a = some (w.value a) := by
  induction ws generalizing f with
  | nil => cases member
  | cons v ws ih =>
    rw [List.pairwise_cons] at apart
    rw [writeAll,List.foldl_cons]
    rcases List.mem_cons.mp member with rfl | later
    · exact (writeAll_of_not fun u there => apart.1 u there a covers).trans (write_of_covers covers)
    · exact ih apart.2 later

/-- Only what covers a cell matters to it. -/
theorem writeAll_congr {vs : List (Extent α)} {g : Nat → Option α} (apart : ws.Pairwise Apart) (apart' : vs.Pairwise Apart)
    (same : ∀ u : Extent α, u.Covers a → (u ∈ ws ↔ u ∈ vs)) (base : (∀ u ∈ ws, ¬u.Covers a) → f a = g a) :
    writeAll ws f a = writeAll vs g a := by
  by_cases found : ∃ u ∈ ws, u.Covers a
  · obtain ⟨u,member,covers⟩ := found
    rw [writeAll_of_mem apart member covers,writeAll_of_mem apart' ((same u covers).mp member) covers]
  · have out : ∀ u ∈ ws, ¬u.Covers a := fun u member covers => found ⟨u,member,covers⟩
    have out' : ∀ u ∈ vs, ¬u.Covers a := fun u member covers => out u ((same u covers).mpr member) covers
    rw [writeAll_of_not out,writeAll_of_not out',base out]

/-- Nothing is erased. -/
theorem of_writeAll_eq_none (empty : writeAll ws f a = none) : f a = none := by
  induction ws generalizing f with
  | nil => exact empty
  | cons w ws ih =>
    have before : write f w a = none := ih empty
    rw [write] at before
    split at before
    · cases before
    · exact before

end Extent
