import Rozofs.DiskTable

/-! A record table answers every read with the data of the last write of the entry that succeeded,
or of a later one that failed, as long as no append loses its record and the bitmap is flushed
before a restart. -/
namespace Rozofs.DiskTable
open Function (update)

variable {α : Type} {t : Table α} {f : TableFile α} {header : Nat → Nat} {size : Nat}

/-- The header gives each allocated entry a record of its own. -/
structure Indexed (f : TableFile α) (header : Nat → Nat) : Prop where
  bound : f.count ≤ maxEntryPerFile
  written : ∀ j, header j ≠ unallocated → header j < f.count
  distinct : ∀ j k, header j = header k → header j ≠ unallocated → j = k

theorem Indexed.below (indexed : Indexed f header) (allocated : header j ≠ unallocated) : header j < emptyEntry :=
  Nat.lt_of_lt_of_le (indexed.written j allocated) (Nat.le_trans indexed.bound (by decide))

theorem Indexed.lookup (indexed : Indexed f header) (j : Nat) :
    Table.lookup f header j = if header j = unallocated then .noData else .data (f.records (header j)) := by
  unfold Table.lookup
  by_cases free : header j = unallocated
  · simp [free]
  · simp [free,Nat.not_le.mpr (indexed.below free),indexed.written j free]

/-- A new entry takes the record after the last one. -/
theorem Indexed.append (indexed : Indexed f header) (room : f.count < maxEntryPerFile) (j : Nat) (data : α) :
    Indexed ({ f with header := some (update header j f.count) }.pwrite f.count data) (update header j f.count) := by
  have room' : f.count ≠ unallocated := by
    have limit : maxEntryPerFile < unallocated := by decide
    omega
  refine ⟨?_,fun k allocated => ?_,fun k l same allocated => ?_⟩
  · simp only [TableFile.pwrite]
    omega
  · simp only [TableFile.pwrite]
    by_cases here : k = j
    · rw [here,Function.update_self]
      omega
    · rw [Function.update_of_ne here] at allocated ⊢
      have := indexed.written k allocated
      omega
  · by_cases first : k = j
    · by_cases second : l = j
      · rw [first,second]
      · rw [first,Function.update_self,Function.update_of_ne second] at same
        have := indexed.written l (same ▸ room')
        omega
    · rw [Function.update_of_ne first] at same allocated
      by_cases second : l = j
      · rw [second,Function.update_self] at same
        have := indexed.written k allocated
        omega
      · rw [Function.update_of_ne second] at same
        exact indexed.distinct k l same allocated

/-- The record of an entry is written again. -/
theorem Indexed.rewrite (indexed : Indexed f header) (allocated : header j ≠ unallocated) (data : α) :
    Indexed (f.pwrite (header j) data) header := by
  have inside := indexed.written j allocated
  refine ⟨?_,fun k other => ?_,indexed.distinct⟩
  · simp only [TableFile.pwrite]
    have := indexed.bound
    omega
  · have := indexed.written k other
    simp only [TableFile.pwrite]
    omega

/-- Every file of the bitmap is there and well indexed; the other ones hold no record. -/
structure Sound (t : Table α) : Prop where
  marked : ∀ i, t.bitmap i = true → ∃ f header, t.file i = some f ∧ f.header = some header ∧ Indexed f header
  unmarked : ∀ i f, t.bitmap i = false → t.file i = some f → f.count = 0
  synced : t.Synced

theorem Sound.setFile (sound : Sound t) (i : Nat) (new : TableFile α)
    (marked : t.bitmap i = true → ∃ header, new.header = some header ∧ Indexed new header)
    (unmarked : t.bitmap i = false → new.count = 0) : Sound (t.setFile i new) := by
  refine ⟨fun k mark => ?_,fun k g clear file => ?_,sound.synced⟩
  · by_cases here : k = i
    · subst here
      obtain ⟨header,indexed,good⟩ := marked mark
      exact ⟨new,header,Function.update_self ..,indexed,good⟩
    · obtain ⟨g,header,file,indexed,good⟩ := sound.marked k mark
      exact ⟨g,header,(Function.update_of_ne here ..).trans file,indexed,good⟩
  · by_cases here : k = i
    · subst here
      rw [Table.setFile_file,Function.update_self] at file
      cases file
      exact unmarked clear
    · rw [Table.setFile_file,Function.update_of_ne here] at file
      exact sound.unmarked k g clear file

/-- What a write does: the table stays sound, the other entries read as before, and its own entry
reads the data, which a failed write may also leave as it was. -/
structure Written (size : Nat) (t : Table α) (entryId : Nat) (data : α) (result : Table α × Bool) : Prop where
  sound : Sound result.1
  others : ∀ other, other / maxEntryPerFile < 8 * size → other ≠ entryId → result.1.answer size other = t.answer size other
  own : if result.2 then result.1.answer size entryId = .data data else result.1.answer size entryId = t.answer size entryId

/-- Two entries of one file differ in their place. -/
theorem place_ne {a b : Nat} (file : a / maxEntryPerFile = b / maxEntryPerFile) (other : a ≠ b) :
    a % maxEntryPerFile ≠ b % maxEntryPerFile := by
  intro place
  apply other
  rw [← Nat.div_add_mod a maxEntryPerFile,← Nat.div_add_mod b maxEntryPerFile,file,place]

/-- A write that only changes an unmarked file shows in no read. -/
theorem written_hidden (sound : Sound t) (unmarked : t.bitmap (entryId / maxEntryPerFile) = false) (new : TableFile α)
    (empty : new.count = 0) : Written size t entryId data (t.setFile (entryId / maxEntryPerFile) new,false) := by
  have same : ∀ other, (t.setFile (entryId / maxEntryPerFile) new).answer size other = t.answer size other := by
    intro other
    by_cases file : other / maxEntryPerFile = entryId / maxEntryPerFile
    · simp only [Table.answer,Table.readEntry,Table.setFile_bitmap,file,unmarked]
      split <;> rfl
    · exact Table.answer_congr rfl (Function.update_of_ne file ..)
  refine ⟨sound.setFile _ _ (fun mark => ?_) (fun _ => empty),fun other _ _ => same other,same entryId⟩
  rw [unmarked] at mark
  cases mark

/-- A write after which the file of the entry is marked, with its record in the file. -/
theorem written_visible {t' : Table α} {new : TableFile α} (sound : Sound t) (inside : entryId / maxEntryPerFile < 8 * size)
    (file : t'.file = update t.file (entryId / maxEntryPerFile) (some new))
    (mark : t'.bitmap = update t.bitmap (entryId / maxEntryPerFile) true) (synced : t'.Synced)
    (indexed : new.header = some header) (good : Indexed new header)
    (own : header (entryId % maxEntryPerFile) ≠ unallocated ∧ new.records (header (entryId % maxEntryPerFile)) = data)
    (others : ∀ other, other / maxEntryPerFile = entryId / maxEntryPerFile →
      other % maxEntryPerFile ≠ entryId % maxEntryPerFile →
      Table.lookup new header (other % maxEntryPerFile) = t.answer size other) :
    Written size t entryId data (t',true) := by
  have here : t'.bitmap (entryId / maxEntryPerFile) = true := by rw [mark,Function.update_self]
  have there : t'.file (entryId / maxEntryPerFile) = some new := by rw [file,Function.update_self]
  refine ⟨⟨fun i marked => ?_,fun i g unmarked g_file => ?_,synced⟩,fun other bound ne => ?_,?_⟩
  · by_cases same : i = entryId / maxEntryPerFile
    · exact ⟨new,header,same ▸ there,indexed,good⟩
    · rw [mark,Function.update_of_ne same] at marked
      obtain ⟨g,h,g_file,rest⟩ := sound.marked i marked
      exact ⟨g,h,by rw [file,Function.update_of_ne same,g_file],rest⟩
  · have same : i ≠ entryId / maxEntryPerFile := by
      rintro rfl
      rw [here] at unmarked
      cases unmarked
    rw [mark,Function.update_of_ne same] at unmarked
    rw [file,Function.update_of_ne same] at g_file
    exact sound.unmarked i g unmarked g_file
  · by_cases same : other / maxEntryPerFile = entryId / maxEntryPerFile
    · rw [Table.answer_marked (f := new) bound (same ▸ here) (same ▸ there) indexed]
      exact others other same (place_ne same ne)
    · apply Table.answer_congr
      · rw [mark,Function.update_of_ne same]
      · rw [file,Function.update_of_ne same]
  · rw [if_pos rfl,Table.answer_marked (f := new) inside here there indexed,good.lookup,if_neg own.1,own.2]

theorem indexed_first (opened : TableFile α) (empty : opened.count = 0) (j : Nat) (data : α) :
    Indexed ({ opened with header := some (update (fun _ => unallocated) j 0) }.pwrite 0 data)
      (update (fun _ => unallocated) j 0) := by
  have only : ∀ k, update (fun _ => unallocated) j 0 k ≠ unallocated → k = j := by
    intro k allocated
    by_contra other
    rw [Function.update_of_ne other] at allocated
    exact allocated rfl
  refine ⟨?_,fun k allocated => ?_,fun k l same allocated => ?_⟩
  · simp only [TableFile.pwrite,empty]
    decide
  · rw [only k allocated,Function.update_self]
    exact Nat.lt_of_lt_of_le Nat.zero_lt_one (Nat.le_max_right ..)
  · rw [only k allocated,only l (same ▸ allocated)]

theorem written_create [Inhabited α] (sound : Sound t) (inside : entryId / maxEntryPerFile < 8 * size)
    (unmarked : t.bitmap (entryId / maxEntryPerFile) = false) (data : α) (faults : Faults) :
    Written size t entryId data (t.createFile entryId data faults) := by
  have empty : ((t.file (entryId / maxEntryPerFile)).getD ⟨none,fun _ => default,0⟩).count = 0 := by
    cases file : t.file (entryId / maxEntryPerFile) with
    | none => rfl
    | some f => exact sound.unmarked _ f unmarked file
  simp only [Table.createFile]
  split
  · exact written_hidden sound unmarked _ empty
  · split
    · exact written_hidden sound unmarked _ empty
    · have good := indexed_first _ empty (entryId % maxEntryPerFile) data
      refine written_visible sound inside ?_ ?_ ?_ rfl good ⟨?_,?_⟩ fun other same place => ?_
      · simp
      · simp
      · apply Table.Synced.bitmapFlush
        apply Table.Synced.fileBitmapUpdate
        exact sound.synced
      · rw [Function.update_self]
        decide
      · rw [Function.update_self]
        simp [TableFile.pwrite]
      · rw [good.lookup,Function.update_of_ne place,if_pos rfl]
        exact (Table.answer_unmarked (same ▸ inside) (same ▸ unmarked)).symm

theorem written_unchanged (sound : Sound t) : Written size t entryId data (t,false) :=
  ⟨sound,fun _ _ _ => rfl,rfl⟩

/-- A write into a file of the bitmap, unless it appends and loses the record. -/
theorem written_update (sound : Sound t) (inside : entryId / maxEntryPerFile < 8 * size)
    (marked : t.bitmap (entryId / maxEntryPerFile) = true) (file : t.file (entryId / maxEntryPerFile) = some f)
    (kept : t.Appends entryId → faults.header = false → faults.data = false) (data : α) :
    Written size t entryId data (t.updateFile f entryId data faults) := by
  obtain ⟨g,header,g_file,indexed,good⟩ := sound.marked _ marked
  rw [file] at g_file
  cases g_file
  have slot : t.slot entryId = some (header (entryId % maxEntryPerFile)) := by simp [Table.slot,marked,file,indexed]
  have mark : t.bitmap = update t.bitmap (entryId / maxEntryPerFile) true := by rw [← marked,Function.update_eq_self]
  have before : ∀ other, other / maxEntryPerFile = entryId / maxEntryPerFile →
      t.answer size other = Table.lookup f header (other % maxEntryPerFile) := fun other same =>
    Table.answer_marked (same ▸ inside) (same ▸ marked) (same ▸ file) indexed
  simp only [Table.updateFile,indexed]
  split
  · rename_i free
    split
    · exact written_unchanged sound
    · rename_i room
      rw [not_or,Nat.not_le,Bool.not_eq_true] at room
      rw [if_neg (by rw [kept (slot.trans (congrArg _ free)) room.2]; exact Bool.false_ne_true)]
      have next := good.append room.1 (entryId % maxEntryPerFile) data
      refine written_visible sound inside rfl mark sound.synced rfl next ⟨?_,?_⟩ fun other same place => ?_
      · rw [Function.update_self]
        have limit : maxEntryPerFile < unallocated := by decide
        omega
      · rw [Function.update_self]
        exact Function.update_self ..
      · rw [before other same,next.lookup,good.lookup,Function.update_of_ne place]
        split
        · rfl
        · rename_i allocated
          have apart : header (other % maxEntryPerFile) ≠ f.count := Nat.ne_of_lt (good.written _ allocated)
          exact congrArg Answer.data (Function.update_of_ne apart ..)
  · rename_i allocated
    rw [if_neg (Nat.not_le.mpr (good.below allocated))]
    split
    · exact written_unchanged sound
    · have next := good.rewrite allocated data
      refine written_visible sound inside rfl mark sound.synced indexed next ⟨allocated,Function.update_self ..⟩
        fun other same place => ?_
      rw [before other same,next.lookup,good.lookup]
      split
      · rfl
      · rename_i free
        have apart : header (other % maxEntryPerFile) ≠ header (entryId % maxEntryPerFile) :=
          fun slots => place (good.distinct _ _ slots free)
        exact congrArg Answer.data (Function.update_of_ne apart ..)

theorem written_writeEntry [Inhabited α] (sound : Sound t) (inside : entryId / maxEntryPerFile < 8 * size) (data : α)
    (faults : Faults) (kept : t.Appends entryId → faults.header = false → faults.data = false) :
    Written size t entryId data (t.writeEntry size entryId data faults) := by
  simp only [Table.writeEntry,if_neg (Nat.not_le.mpr inside)]
  cases mark : t.bitmap (entryId / maxEntryPerFile) with
  | false => exact written_create sound inside mark data faults
  | true =>
    obtain ⟨f,header,file,_⟩ := sound.marked _ mark
    simp only [reduceCtorEq,if_false,file]
    exact written_update sound inside mark file kept data

section Runs
variable {s s' : State α}

/-- The table is sound and every entry reads what its writes allow. -/
structure Faithful (size : Nat) (s : State α) : Prop where
  sound : Sound s.table
  allowed : ∀ entryId, entryId / maxEntryPerFile < 8 * size → s.allowed entryId (s.table.answer size entryId)

theorem faithful_start (size : Nat) : Faithful size (start : State α) := by
  refine ⟨⟨fun i marked => ?_,fun i f _ file => ?_,fun _ => rfl⟩,fun entryId inside => ?_⟩
  · cases marked
  · cases file
  · exact Table.answer_unmarked inside rfl

theorem Faithful.write (faithful : Faithful size s) (inside : entryId / maxEntryPerFile < 8 * size)
    (written : Written size s.table entryId data result) :
    Faithful size ⟨result.1,recordWrite s.allowed entryId data result.2⟩ := by
  refine ⟨written.sound,fun other bound => ?_⟩
  by_cases here : other = entryId
  · subst here
    have own := written.own
    simp only [recordWrite,Function.update_self]
    split at own
    · exact .inl own
    · rename_i failed
      rw [own]
      exact .inr ⟨Bool.not_eq_true _ ▸ failed,faithful.allowed other bound⟩
  · simp only [recordWrite,Function.update_of_ne here]
    rw [written.others other bound here]
    exact faithful.allowed other bound

/-- A read of a sound table changes nothing: every file of the bitmap is there. -/
theorem readEntry_table (sound : Sound t) (entryId : Nat) : (t.readEntry size entryId).1 = t := by
  simp only [Table.readEntry]
  split
  · rfl
  · split
    · rfl
    · rename_i marked
      obtain ⟨f,header,file,indexed,_⟩ := sound.marked _ (Bool.of_not_eq_false marked)
      simp only [file,indexed]
      split
      · rfl
      · split <;> rfl

theorem loadBitmapFile_synced (synced : t.Synced) (clean : t.dirty = false) : t.loadBitmapFile = t := by
  cases t with
  | mk file btmapFile bitmap dirty =>
    have same : btmapFile = bitmap := synced clean
    cases clean
    rw [Table.loadBitmapFile,same]

theorem Faithful.step [Inhabited α] (faithful : Faithful size s) (kept : Kept s a) (next : DiskTable.step size a s = some s') :
    Faithful size s' := by
  cases a with
  | write entryId data faults =>
    simp only [DiskTable.step] at next
    split at next
    · rename_i inside
      cases next
      exact faithful.write inside (written_writeEntry faithful.sound inside data faults kept)
    · cases next
  | read entryId =>
    cases next
    rw [readEntry_table faithful.sound]
    exact faithful
  | restart =>
    cases next
    rw [loadBitmapFile_synced faithful.sound.synced kept]
    exact faithful

theorem faithful_run [Inhabited α] (run : Machine.Run (step size) Kept start s) : Faithful size s :=
  run.invariant (Faithful size) (faithful_start size) fun _ _ _ inv kept next => inv.step kept next

/-- The record of an entry is the one of no other entry of the file. -/
theorem Sound.slots_distinct (sound : Sound t) {a b slot : Nat} (first : t.slot a = some slot) (second : t.slot b = some slot)
    (allocated : slot ≠ unallocated) (file : a / maxEntryPerFile = b / maxEntryPerFile) : a = b := by
  simp only [Table.slot,← file] at first second
  split at first
  · rename_i marked
    obtain ⟨f,header,there,indexed,good⟩ := sound.marked _ marked
    simp only [marked,if_true,there,indexed,Option.bind_some,Option.map_some,Option.some.injEq] at first second
    have place := good.distinct _ _ (first.trans second.symm) (first ▸ allocated)
    rw [← Nat.div_add_mod a maxEntryPerFile,← Nat.div_add_mod b maxEntryPerFile,file,place]
  · cases first

/-- Entry 1 loses its record and entry 2 takes the same one. -/
def sharedRecord : List (Action Nat) :=
  [.write 0 10 ⟨false,false,false⟩,.write 1 11 ⟨false,true,false⟩,.write 2 12 ⟨false,false,false⟩]

/-- Two entries are created, one is overwritten without success, and the process restarts. -/
def overwritten : List (Action Nat) :=
  [.write 0 10 ⟨false,false,false⟩,.write 2049 11 ⟨false,false,false⟩,.write 0 12 ⟨false,true,false⟩,.restart]

end Runs

end Rozofs.DiskTable
