import Rozofs.InodeTracking
import Mathlib.Data.List.GetD

/-! The slots of a tracking file, and what the operations on the file do to the attributes in them. -/
namespace Rozofs.Tracking
open Function (update)

variable {c : Config} {f : TrackingFile} {i n : Nat} {b : List UInt8}

/-- The size of a file stands for the slots that it reaches into. -/
theorem lt_nbEntries : i < f.nbEntries c ↔ fileHeaderSize + i * c.maxAttributesSz < f.size := by
  unfold TrackingFile.nbEntries
  have positive := c.positive
  split
  · rename_i short
    constructor
    · intro none
      omega
    · intro inside
      omega
  · rename_i long
    have whole := Nat.div_add_mod (f.size - fileHeaderSize) c.maxAttributesSz
    have rest := Nat.mod_lt (f.size - fileHeaderSize) positive
    have product : c.maxAttributesSz * ((f.size - fileHeaderSize) / c.maxAttributesSz) =
      (f.size - fileHeaderSize) / c.maxAttributesSz * c.maxAttributesSz := Nat.mul_comm ..
    constructor
    · intro inside
      split at inside
      · have most := Nat.mul_le_mul_right c.maxAttributesSz (Nat.lt_succ_iff.mp inside)
        omega
      · have most := Nat.mul_le_mul_right c.maxAttributesSz (Nat.succ_le_of_lt inside)
        rw [Nat.succ_mul,Nat.add_zero] at most
        omega
    · intro inside
      by_contra outside
      split at outside
      · have most := Nat.mul_le_mul_right c.maxAttributesSz (Nat.le_of_not_lt outside)
        rw [Nat.add_mul] at most
        omega
      · have most := Nat.mul_le_mul_right c.maxAttributesSz (Nat.le_of_not_lt outside)
        rw [Nat.add_zero] at most
        omega

/-- Two slots do not overlap. -/
theorem slots_apart {i i' : Nat} (j j' : Nat) (other : i ≠ i') (inside : j < c.maxAttributesSz) (inside' : j' < c.maxAttributesSz) :
    i * c.maxAttributesSz + j ≠ i' * c.maxAttributesSz + j' := by
  intro same
  rcases Nat.lt_or_gt_of_ne other with less | more
  · have apart := Nat.mul_le_mul_right c.maxAttributesSz (Nat.succ_le_of_lt less)
    rw [Nat.succ_mul] at apart
    omega
  · have apart := Nat.mul_le_mul_right c.maxAttributesSz (Nat.succ_le_of_lt more)
    rw [Nat.succ_mul] at apart
    omega

/-- The attributes at an index of a file. -/
structure Holds (c : Config) (f : TrackingFile) (i : Nat) (b : List UInt8) : Prop where
  index : i < maxInodePerFile
  some : b ≠ []
  size : b.length ≤ c.maxAttributesSz
  table : f.table i = i
  reached : fileHeaderSize + i * c.maxAttributesSz + b.length ≤ f.size
  data : ∀ j < b.length, f.data (i * c.maxAttributesSz + j) = b.getD j 0

theorem Holds.length_pos (holds : Holds c f i b) : 0 < b.length := List.length_pos_of_ne_nil holds.some

theorem Holds.entry (holds : Holds c f i b) : i < f.nbEntries c := by
  have reached := holds.reached
  have length := holds.length_pos
  rw [lt_nbEntries]
  omega

theorem index_not_empty (index : i < maxInodePerFile) : i ≠ emptyIdx := by
  unfold maxInodePerFile at index
  unfold emptyIdx
  omega

theorem Holds.read (holds : Holds c f i b) :
    (f.getRelativeInodeIdx i).bind (fun real => f.pread (real * c.maxAttributesSz) b.length) = Option.some b := by
  have index := holds.index
  have reached := holds.reached
  unfold fileHeaderSize at reached
  unfold maxInodePerFile at index
  have inside : ¬f.size < 10 + 2 * i := by omega
  have number : f.getRelativeInodeIdx i = Option.some i := by
    simp only [TrackingFile.getRelativeInodeIdx,holds.table,inside,index_not_empty holds.index,gt_iff_lt,Nat.lt_irrefl,if_false]
  rw [number,Option.bind_some,TrackingFile.pread,if_pos holds.reached,Option.some.injEq]
  apply List.ext_getElem
  · simp
  · intro j left right
    simp only [List.getElem_map,List.getElem_range,holds.data j right]
    simp [right]

/-- The index of an entry is the number itself or was released. -/
structure Shaped (c : Config) (f : TrackingFile) : Prop where
  size : f.size ≤ fileHeaderSize + maxInodePerFile * c.maxAttributesSz
  table : fileHeaderSize ≤ f.size → ∀ i < maxInodePerFile, f.table i = i ∨ f.table i = emptyIdx

theorem Shaped.nbEntries (shaped : Shaped c f) : f.nbEntries c ≤ maxInodePerFile := by
  by_contra more
  have inside := lt_nbEntries.mp (Nat.lt_of_not_le more)
  have size := shaped.size
  omega

theorem Shaped.real (shaped : Shaped c f) (long : fileHeaderSize ≤ f.size) (index : i < maxInodePerFile) {real : Nat}
    (found : f.getRelativeInodeIdx i = some real) : real = i ∧ f.table i = i := by
  unfold TrackingFile.getRelativeInodeIdx at found
  split at found
  · cases found
  · split at found
    · cases found
    · rename_i used
      split at found
      · cases found
      · cases found
        have same := (shaped.table long i index).resolve_right used
        exact ⟨same,same⟩

theorem shaped_create (n : Nat) : Shaped c (.create n) := by
  constructor
  · unfold TrackingFile.create
    exact Nat.le_trans (Nat.min_le_right ..) (Nat.le_add_right ..)
  · intro long i index
    unfold maxInodePerFile at index
    have full : fileHeaderSize ≤ n := Nat.le_trans long (Nat.min_le_left ..)
    unfold fileHeaderSize at full
    exact .inl (if_pos (by omega))

section Write
variable {attr : List UInt8}

theorem pwrite_size_le (small : attr.length ≤ c.maxAttributesSz) (index : i < maxInodePerFile) (shaped : Shaped c f) :
    (f.pwrite (i * c.maxAttributesSz) attr).size ≤ fileHeaderSize + maxInodePerFile * c.maxAttributesSz := by
  have size := shaped.size
  have slot := Nat.mul_le_mul_right c.maxAttributesSz (Nat.succ_le_of_lt index)
  rw [Nat.succ_mul] at slot
  simp only [TrackingFile.pwrite]
  split
  · exact size
  · omega

theorem le_pwrite_size {offset : Nat} : f.size ≤ (f.pwrite offset attr).size := by
  simp only [TrackingFile.pwrite]
  split
  · exact Nat.le_refl _
  · exact Nat.le_max_left ..

theorem Shaped.pwrite (shaped : Shaped c f) (long : fileHeaderSize ≤ f.size) (small : attr.length ≤ c.maxAttributesSz)
    (index : i < maxInodePerFile) : Shaped c (f.pwrite (i * c.maxAttributesSz) attr) :=
  ⟨pwrite_size_le small index shaped,fun _ => shaped.table long⟩

/-- A write to another slot. -/
theorem Holds.pwrite_other {i' : Nat} (holds : Holds c f i b) (other : i ≠ i') (small : attr.length ≤ c.maxAttributesSz) :
    Holds c (f.pwrite (i' * c.maxAttributesSz) attr) i b := by
  refine ⟨holds.index,holds.some,holds.size,holds.table,Nat.le_trans holds.reached le_pwrite_size,fun j inside => ?_⟩
  have outside : ¬(i' * c.maxAttributesSz ≤ i * c.maxAttributesSz + j ∧ i * c.maxAttributesSz + j < i' * c.maxAttributesSz + attr.length) := by
    rintro ⟨low,high⟩
    apply slots_apart (c := c) j (i * c.maxAttributesSz + j - i' * c.maxAttributesSz) other
    · exact Nat.lt_of_lt_of_le inside holds.size
    · omega
    · omega
  simp only [TrackingFile.pwrite,outside,if_false]
  exact holds.data j inside

theorem pwrite_data {j : Nat} (inside : j < attr.length) (offset : Nat) : (f.pwrite offset attr).data (offset + j) = attr.getD j 0 := by
  have here : offset ≤ offset + j ∧ offset + j < offset + attr.length := by omega
  simp only [TrackingFile.pwrite,here,and_self,if_true]
  rw [Nat.add_sub_cancel_left]

theorem pwrite_data_after {j offset : Nat} (outside : attr.length ≤ j) : (f.pwrite offset attr).data (offset + j) = f.data (offset + j) := by
  have there : ¬(offset ≤ offset + j ∧ offset + j < offset + attr.length) := by omega
  simp only [TrackingFile.pwrite,there,if_false]

/-- A write to the slot itself. -/
theorem holds_pwrite (some : attr ≠ []) (small : attr.length ≤ c.maxAttributesSz) (index : i < maxInodePerFile) (table : f.table i = i) :
    Holds c (f.pwrite (i * c.maxAttributesSz) attr) i attr := by
  refine ⟨index,some,small,table,?_,fun j inside => pwrite_data inside _⟩
  simp only [TrackingFile.pwrite,some,if_false]
  exact Nat.le_max_right ..

/-- A write of which only some bytes are done. -/
theorem Holds.partlyWritten (holds : Holds c f i b) (small : attr.length ≤ c.maxAttributesSz) (count : Nat) :
    Holds c (f.pwrite (i * c.maxAttributesSz) (attr.take count)) i (partlyWritten attr b (min count attr.length)) := by
  have length := holds.length_pos
  have size := holds.size
  have taken : (attr.take count).length = min count attr.length := List.length_take
  have same : attr.take (min count attr.length) = attr.take count := by
    rw [← List.take_take,List.take_length]
  have merged : (Tracking.partlyWritten attr b (min count attr.length)).length = max (min count attr.length) b.length := by
    simp only [Tracking.partlyWritten,same,List.length_append,List.length_drop,taken]
    omega
  refine ⟨holds.index,?_,?_,holds.table,?_,fun j inside => ?_⟩
  · intro none
    rw [none] at merged
    simp only [List.length_nil] at merged
    omega
  · omega
  · rw [merged]
    have reached := holds.reached
    simp only [TrackingFile.pwrite]
    split
    · rename_i nothing
      rw [nothing] at taken
      simp only [List.length_nil] at taken
      omega
    · omega
  · rw [merged] at inside
    simp only [Tracking.partlyWritten,same]
    by_cases early : j < (attr.take count).length
    · rw [pwrite_data early,List.getD_append _ _ _ _ early]
    · rw [pwrite_data_after (Nat.le_of_not_lt early),List.getD_append_right _ _ _ _ (Nat.le_of_not_lt early)]
      have old : j < b.length := by omega
      rw [holds.data j old,List.getD_eq_getElem?_getD,List.getD_eq_getElem?_getD,List.getElem?_drop]
      congr 2
      omega

end Write

section Release

theorem Shaped.release (shaped : Shaped c f) (long : fileHeaderSize ≤ f.size) (size : Nat) (same : size = f.size) :
    Shaped c { f with size := size, table := update f.table n emptyIdx } := by
  subst same
  refine ⟨shaped.size,fun _ i index => ?_⟩
  by_cases here : i = n
  · rw [here]
    exact .inr (Function.update_self ..)
  · simp only [Function.update_of_ne here]
    exact shaped.table long i index

theorem Holds.release (holds : Holds c f i b) (other : i ≠ n) (size : Nat) (same : size = f.size) :
    Holds c { f with size := size, table := update f.table n emptyIdx } i b := by
  subst same
  refine ⟨holds.index,holds.some,holds.size,?_,holds.reached,holds.data⟩
  simp only [Function.update_of_ne other]
  exact holds.table

end Release

section Truncation
variable {table : Nat → Nat}

/-- An entry in use comes before the released ones at the end. -/
theorem used_before_empty (used : table i ≠ emptyIdx) (inside : i < n) : i < n - emptyEntries table n := by
  induction n with
  | zero => cases inside
  | succ n ih =>
    unfold emptyEntries
    split
    · exact inside
    · rename_i empty
      have other : i ≠ n := by
        rintro rfl
        exact empty used
      have before := ih (by omega)
      omega

theorem Holds.used (holds : Holds c f i b) : i < f.nbEntries c - emptyEntries f.table (f.nbEntries c) := by
  apply used_before_empty _ holds.entry
  rw [holds.table]
  exact index_not_empty holds.index

theorem Holds.truncate (holds : Holds c f i b) :
    Holds c (f.truncate (fileHeaderSize + c.maxAttributesSz * (f.nbEntries c - emptyEntries f.table (f.nbEntries c)))) i b := by
  have slot := Nat.mul_le_mul_left c.maxAttributesSz (Nat.succ_le_of_lt holds.used)
  rw [Nat.mul_succ,Nat.mul_comm c.maxAttributesSz i] at slot
  have size := holds.size
  refine ⟨holds.index,holds.some,holds.size,holds.table,?_,fun j inside => ?_⟩
  · simp only [TrackingFile.truncate]
    omega
  · simp only [TrackingFile.truncate]
    rw [if_pos (by omega)]
    exact holds.data j inside

theorem Shaped.truncate (shaped : Shaped c f) (long : fileHeaderSize ≤ f.size) (m : Nat) :
    Shaped c (f.truncate (fileHeaderSize + c.maxAttributesSz * (f.nbEntries c - m))) := by
  refine ⟨?_,fun _ => shaped.table long⟩
  have most : f.nbEntries c - m ≤ maxInodePerFile := Nat.le_trans (Nat.sub_le ..) shaped.nbEntries
  have slots := Nat.mul_le_mul_left c.maxAttributesSz most
  rw [Nat.mul_comm c.maxAttributesSz maxInodePerFile] at slots
  simp only [TrackingFile.truncate]
  omega

end Truncation

end Rozofs.Tracking
