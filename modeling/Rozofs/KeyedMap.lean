import Mathlib.Logic.Function.Basic

/-! Names with their values under keys, each name under one key: a map from the names to the values. -/
namespace KeyedMap
open Function (update)

/-- What is stored under the keys is the map. -/
structure IsMap (stored : κ → ν → α → Prop) (map : ν → Option α) : Prop where
  means : ∀ name value, map name = some value ↔ ∃ k, stored k name value
  once : ∀ k k' name value value', stored k name value → stored k' name value' → k = k'

section Changes
variable {stored stored' : κ → ν → α → Prop} {map : ν → Option α} {k : κ} {name : ν} {value value' : α}

theorem IsMap.absent (isMap : IsMap stored map) : map name = none ↔ ∀ k value, ¬stored k name value := by
  rw [Option.eq_none_iff_forall_ne_some]
  constructor
  · intro none k value there
    exact none value ((isMap.means name value).mpr ⟨k,there⟩)
  · intro away value found
    obtain ⟨k,there⟩ := (isMap.means name value).mp found
    exact away k value there

variable [DecidableEq ν]

/-- A name that is not in the map is stored. -/
theorem IsMap.insert (isMap : IsMap stored map) (k : κ) (absent : map name = none)
    (added : ∀ k' name' value', stored' k' name' value' ↔ stored k' name' value' ∨ k' = k ∧ name' = name ∧ value' = value) :
    IsMap stored' (update map name (some value)) where
  means name' value' := by
    simp only [added]
    by_cases own : name' = name
    · subst own
      rw [Function.update_self]
      constructor
      · intro same
        cases same
        exact ⟨k,.inr ⟨rfl,rfl,rfl⟩⟩
      · rintro ⟨k',there | ⟨_,_,rfl⟩⟩
        · exact absurd there (isMap.absent.mp absent k' value')
        · rfl
    · rw [Function.update_of_ne own,isMap.means]
      constructor
      · rintro ⟨k',there⟩
        exact ⟨k',.inl there⟩
      · rintro ⟨k',there | ⟨_,same,_⟩⟩
        · exact ⟨k',there⟩
        · exact absurd same own
  once k1 k2 name' value1 value2 first second := by
    rcases (added k1 name' value1).mp first with first | ⟨rfl,rfl,rfl⟩
    · rcases (added k2 name' value2).mp second with second | ⟨rfl,rfl,rfl⟩
      · exact isMap.once k1 k2 name' value1 value2 first second
      · exact absurd first (isMap.absent.mp absent k1 value1)
    · rcases (added k2 name' value2).mp second with second | ⟨rfl,_,_⟩
      · exact absurd second (isMap.absent.mp absent k2 value2)
      · rfl

/-- What is stored under a key is removed. -/
theorem IsMap.erase (isMap : IsMap stored map) (there : stored k name value)
    (single : ∀ name' value', stored k name' value' → name' = name)
    (removed : ∀ k' name' value', stored' k' name' value' ↔ stored k' name' value' ∧ k' ≠ k) : IsMap stored' (update map name none) where
  means name' value' := by
    simp only [removed]
    by_cases own : name' = name
    · subst own
      rw [Function.update_self]
      constructor
      · intro none
        cases none
      · rintro ⟨k',again,other⟩
        exact absurd (isMap.once k' k name' value' value again there) other
    · rw [Function.update_of_ne own,isMap.means]
      constructor
      · rintro ⟨k',here⟩
        refine ⟨k',here,?_⟩
        rintro rfl
        exact own (single name' value' here)
      · rintro ⟨k',here,_⟩
        exact ⟨k',here⟩
  once k1 k2 name' value1 value2 first second :=
    isMap.once k1 k2 name' value1 value2 ((removed k1 name' value1).mp first).1 ((removed k2 name' value2).mp second).1

/-- The value under a key is changed. -/
theorem IsMap.replace (isMap : IsMap stored map) (there : stored k name value)
    (single : ∀ name' value', stored k name' value' → name' = name)
    (changed : ∀ k' name' value1, stored' k' name' value1 ↔ stored k' name' value1 ∧ k' ≠ k ∨ k' = k ∧ name' = name ∧ value1 = value') :
    IsMap stored' (update map name (some value')) := by
  have erased : IsMap (fun k' name' value1 => stored k' name' value1 ∧ k' ≠ k) (update map name none) :=
    isMap.erase there single fun _ _ _ => Iff.rfl
  have inserted := erased.insert k (Function.update_self name none map) changed
  rwa [Function.update_idem] at inserted

end Changes

end KeyedMap
