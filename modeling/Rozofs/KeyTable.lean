import Mathlib.Data.List.Nodup

/-! Tables with one cell for each key. -/
namespace KeyTable

structure Table (α β : Type) where
  cells : List (α × β)
  nodup : (cells.map Prod.fst).Nodup

variable {α β : Type} [DecidableEq α]

def Table.empty : Table α β := ⟨[],List.nodup_nil⟩

def Table.get (t : Table α β) (a : α) : Option β := (t.cells.find? fun c => decide (c.1 = a)).map Prod.snd

def Table.erase (t : Table α β) (a : α) : Table α β :=
  ⟨t.cells.filter fun c => decide (c.1 ≠ a),(List.Sublist.map _ List.filter_sublist).nodup t.nodup⟩

theorem not_mem_keys_erase (t : Table α β) (a : α) : a ∉ (t.erase a).cells.map Prod.fst := by
  simp [Table.erase]

def Table.insert (t : Table α β) (a : α) (b : β) : Table α β :=
  ⟨(a,b) :: (t.erase a).cells,List.nodup_cons.mpr ⟨not_mem_keys_erase t a,(t.erase a).nodup⟩⟩

section Lookup
variable {t : Table α β} {a a' : α} {b b' : β}

omit [DecidableEq α] in
@[ext] theorem Table.ext {t t' : Table α β} (same : t.cells = t'.cells) : t = t' := by
  cases t
  cases t'
  cases same
  rfl

theorem mem_cells_iff : (a,b) ∈ t.cells ↔ t.get a = some b := by
  obtain ⟨cells,nodup⟩ := t
  simp only [Table.get]
  induction cells with
  | nil => simp
  | cons c cells ih =>
    obtain ⟨absent,nodup⟩ := List.nodup_cons.mp nodup
    by_cases here : c.1 = a
    · subst here
      simp only [List.mem_cons,List.find?_cons,decide_true,Option.map_some,Option.some.injEq]
      constructor
      · rintro (same | there)
        · rw [← same]
        · exact absurd (List.mem_map_of_mem there) absent
      · rintro rfl
        exact .inl rfl
    · have other : (a,b) ≠ c := fun same => here (congrArg Prod.fst same).symm
      simp only [List.mem_cons,other,false_or,List.find?_cons,here,decide_false]
      exact ih nodup

@[simp] theorem get_empty (a : α) : (Table.empty : Table α β).get a = none := rfl

@[simp] theorem get_insert_self (t : Table α β) (a : α) (b : β) : (t.insert a b).get a = some b := by
  simp [Table.get,Table.insert]

theorem get_erase_other (t : Table α β) (other : a' ≠ a) : (t.erase a).get a' = t.get a' := by
  have same : ∀ b, (t.erase a).get a' = some b ↔ t.get a' = some b := by
    intro b
    rw [← mem_cells_iff,← mem_cells_iff]
    simp [Table.erase,other]
  exact Option.ext same

theorem get_insert_other (t : Table α β) (b : β) (other : a' ≠ a) : (t.insert a b).get a' = t.get a' := by
  rw [← get_erase_other t other]
  simp only [Table.get,Table.insert,List.find?_cons]
  rw [decide_eq_false (Ne.symm other)]

@[simp] theorem get_erase_self (t : Table α β) (a : α) : (t.erase a).get a = none := by
  cases here : (t.erase a).get a with
  | none => rfl
  | some b => exact absurd (List.mem_map_of_mem (mem_cells_iff.mpr here)) (not_mem_keys_erase t a)

/-- A key that is not there. -/
theorem erase_of_get (absent : t.get a = none) : t.erase a = t := by
  ext1
  apply List.filter_eq_self.mpr
  rintro ⟨a',b⟩ member
  have other : a' ≠ a := by
    rintro rfl
    rw [mem_cells_iff.mp member] at absent
    cases absent
  simpa using other

theorem erase_insert (absent : t.get a = none) (b : β) : (t.insert a b).erase a = t := by
  ext1
  have kept := congrArg Table.cells (erase_of_get absent)
  simp only [Table.insert,Table.erase,List.filter_cons,ne_eq,not_true_eq_false,decide_false,Bool.false_eq_true,if_false] at kept ⊢
  rw [kept,kept]

end Lookup

end KeyTable
