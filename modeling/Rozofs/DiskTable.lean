import Mathlib.Logic.Function.Basic
import Rozofs.Machine

/-! The record tables on disk of `disk_table_service.c`. A file of a table holds an index header of
2048 words and then the records; a bitmap, in memory and on disk, tells which files exist. A
`pwrite` that fails writes nothing, and no other system call fails. -/
namespace Rozofs.DiskTable
open Function (update)

/-- `DISK_TABLE_MAX_ENTRY_PER_FILE`. -/
def maxEntryPerFile : Nat := 2048

/-- `DISK_TB_EMPTY_ENTRY`. -/
def emptyEntry : Nat := 0x8000

/-- A header word that was never allocated. -/
def unallocated : Nat := 0xffff

/-- One file of a table. A file whose header could not be written is empty and has none; `count` is
the number of records that the size of the file gives. -/
structure TableFile (α : Type) where
  header : Option (Nat → Nat)
  records : Nat → α
  count : Nat

/-- A table: its files and its bitmap on disk, and the bitmap in memory. -/
structure Table (α : Type) where
  file : Nat → Option (TableFile α)
  btmapFile : Nat → Bool
  bitmap : Nat → Bool
  dirty : Bool

/-- What `disk_tb_read_entry` answers. -/
inductive Answer (α : Type) where
  | error
  | noData
  | data (a : α)
  deriving DecidableEq

/-- Which of the writes of a call of `disk_tb_write_entry` fail. -/
structure Faults where
  header : Bool
  data : Bool
  flush : Bool
  deriving DecidableEq

variable {α : Type}

/-- A record at the end of the file makes it longer. -/
def TableFile.pwrite (f : TableFile α) (slot : Nat) (data : α) : TableFile α :=
  { f with records := update f.records slot data, count := max f.count (slot + 1) }

namespace Table

/-- `disk_tb_load_bitmap_file`. -/
def loadBitmapFile (t : Table α) : Table α := { t with bitmap := t.btmapFile, dirty := false }

/-- `disk_tb_file_bitmap_update`. -/
def fileBitmapUpdate (t : Table α) (fileIdx : Nat) (set : Bool) : Table α :=
  if t.bitmap fileIdx = set then t else { t with bitmap := update t.bitmap fileIdx set, dirty := true }

/-- `disk_tb_bitmap_flush`. -/
def bitmapFlush (t : Table α) (fails : Bool) : Table α :=
  if t.dirty = false ∨ fails then t else { t with btmapFile := t.bitmap, dirty := false }

def setFile (t : Table α) (fileIdx : Nat) (f : TableFile α) : Table α :=
  { t with file := update t.file fileIdx (some f) }

/-- `disk_tb_read_entry`, for a bitmap of `size` bytes. -/
def readEntry (size : Nat) (t : Table α) (entryId : Nat) : Table α × Answer α :=
  let entryFileIdx := entryId / maxEntryPerFile
  if 8 * size ≤ entryFileIdx then (t,.error)
  else if t.bitmap entryFileIdx = false then (t,.noData)
  else
    match t.file entryFileIdx with
    | none => (t.fileBitmapUpdate entryFileIdx false,.noData)
    | some f =>
      match f.header with
      | none => (t,.error)
      | some header =>
        let val := header (entryId % maxEntryPerFile)
        if val = unallocated ∨ emptyEntry ≤ val then (t,.noData)
        else if val < f.count then (t,.data (f.records val)) else (t,.error)

/-- The part of `disk_tb_write_entry` for a file that does not exist according to the bitmap. -/
def createFile [Inhabited α] (t : Table α) (entryId : Nat) (data : α) (faults : Faults) : Table α × Bool :=
  let entryFileIdx := entryId / maxEntryPerFile
  let opened := (t.file entryFileIdx).getD ⟨none,fun _ => default,0⟩
  if faults.header then (t.setFile entryFileIdx opened,false)
  else
    let indexed := { opened with header := some (update (fun _ => unallocated) (entryId % maxEntryPerFile) 0) }
    if faults.data then (t.setFile entryFileIdx indexed,false)
    else (((t.setFile entryFileIdx (indexed.pwrite 0 data)).fileBitmapUpdate entryFileIdx true).bitmapFlush faults.flush,true)

/-- The part of `disk_tb_write_entry` for a file that was opened. The check of the length written,
when a released entry is allocated again, is against the size of the header. -/
def updateFile (t : Table α) (f : TableFile α) (entryId : Nat) (data : α) (faults : Faults) : Table α × Bool :=
  let entryFileIdx := entryId / maxEntryPerFile
  let idxInFile := entryId % maxEntryPerFile
  match f.header with
  | none => (t,false)
  | some header =>
    let val := header idxInFile
    if val = unallocated then
      if maxEntryPerFile ≤ f.count ∨ faults.header then (t,false)
      else
        let indexed := { f with header := some (update header idxInFile f.count) }
        if faults.data then (t.setFile entryFileIdx indexed,false)
        else (t.setFile entryFileIdx (indexed.pwrite f.count data),true)
    else if emptyEntry ≤ val then
      if faults.header then (t,false)
      else (t.setFile entryFileIdx { f with header := some (update header idxInFile (val - emptyEntry)) },false)
    else if faults.data then (t,false)
    else (t.setFile entryFileIdx (f.pwrite val data),true)

/-- `disk_tb_write_entry`. -/
def writeEntry [Inhabited α] (size : Nat) (t : Table α) (entryId : Nat) (data : α) (faults : Faults) : Table α × Bool :=
  let entryFileIdx := entryId / maxEntryPerFile
  if 8 * size ≤ entryFileIdx then (t,false)
  else if t.bitmap entryFileIdx = false then t.createFile entryId data faults
  else
    match t.file entryFileIdx with
    | none => (t.fileBitmapUpdate entryFileIdx false).createFile entryId data faults
    | some f => t.updateFile f entryId data faults

/-- The header word of an entry, in a file that is marked in the bitmap. -/
def slot (t : Table α) (entryId : Nat) : Option Nat :=
  if t.bitmap (entryId / maxEntryPerFile) then
    (t.file (entryId / maxEntryPerFile)).bind fun f => f.header.map fun header => header (entryId % maxEntryPerFile)
  else none

/-- The write of this entry appends a record. -/
def Appends (t : Table α) (entryId : Nat) : Prop := t.slot entryId = some unallocated

instance (t : Table α) (entryId : Nat) : Decidable (t.Appends entryId) := inferInstanceAs (Decidable (_ = _))

end Table

/-- A table and, for each entry, the answers that its writes allow: the data of the last one that
succeeded, or of one that failed after it. -/
structure State (α : Type) where
  table : Table α
  allowed : Nat → Answer α → Prop

inductive Action (α : Type) where
  | write (entryId : Nat) (data : α) (faults : Faults)
  | read (entryId : Nat)
  | restart

section Machine
variable [Inhabited α] (size : Nat)

/-- The answers allowed after a write. -/
def recordWrite (allowed : Nat → Answer α → Prop) (entryId : Nat) (data : α) (success : Bool) : Nat → Answer α → Prop :=
  update allowed entryId fun answer => answer = .data data ∨ success = false ∧ allowed entryId answer

def step : Action α → State α → Option (State α)
  | .write entryId data faults, s =>
    if entryId / maxEntryPerFile < 8 * size then
      let result := s.table.writeEntry size entryId data faults
      some ⟨result.1,recordWrite s.allowed entryId data result.2⟩
    else none
  | .read entryId, s => some { s with table := (s.table.readEntry size entryId).1 }
  | .restart, s => some { s with table := s.table.loadBitmapFile }

/-- The record of an entry that is appended can be written, and the table is not restarted with a
bitmap that still has to be flushed. -/
def Kept (s : State α) : Action α → Prop
  | .write entryId _ faults => s.table.Appends entryId → faults.header = false → faults.data = false
  | .read _ => True
  | .restart => s.table.dirty = false

instance (s : State α) : (a : Action α) → Decidable (Kept s a)
  | .write _ _ _ => inferInstanceAs (Decidable (_ → _ → _))
  | .read _ => inferInstanceAs (Decidable True)
  | .restart => inferInstanceAs (Decidable (_ = _))

/-- A table of which nothing is on disk. -/
def start : State α := ⟨⟨fun _ => none,fun _ => false,fun _ => false,false⟩,fun _ answer => answer = .noData⟩

end Machine

namespace Table
variable {t : Table α} {f : TableFile α} {header : Nat → Nat} {size i entryId : Nat}

/-- The answer of a read. -/
def answer (size : Nat) (t : Table α) (entryId : Nat) : Answer α := (t.readEntry size entryId).2

/-- What a file with this header says of an entry. -/
def lookup (f : TableFile α) (header : Nat → Nat) (idxInFile : Nat) : Answer α :=
  if header idxInFile = unallocated ∨ emptyEntry ≤ header idxInFile then .noData
  else if header idxInFile < f.count then .data (f.records (header idxInFile)) else .error

theorem answer_unmarked (inside : entryId / maxEntryPerFile < 8 * size) (unmarked : t.bitmap (entryId / maxEntryPerFile) = false) :
    t.answer size entryId = .noData := by
  simp [answer,readEntry,Nat.not_le.mpr inside,unmarked]

theorem answer_marked (inside : entryId / maxEntryPerFile < 8 * size) (marked : t.bitmap (entryId / maxEntryPerFile) = true)
    (file : t.file (entryId / maxEntryPerFile) = some f) (indexed : f.header = some header) :
    t.answer size entryId = lookup f header (entryId % maxEntryPerFile) := by
  simp only [answer,readEntry,Nat.not_le.mpr inside,marked,file,indexed,lookup,if_false,reduceCtorEq]
  split
  · rfl
  · split <;> rfl

/-- An entry whose file and mark are the same in both tables reads the same. -/
theorem answer_congr {t t' : Table α} (mark : t'.bitmap (entryId / maxEntryPerFile) = t.bitmap (entryId / maxEntryPerFile))
    (file : t'.file (entryId / maxEntryPerFile) = t.file (entryId / maxEntryPerFile)) :
    t'.answer size entryId = t.answer size entryId := by
  simp only [answer,readEntry,mark,file]
  split
  · rfl
  · split
    · rfl
    · cases t.file (entryId / maxEntryPerFile) with
      | none => rfl
      | some f =>
        cases h : f.header with
        | none => simp only [h]
        | some header =>
          simp only [h]
          split
          · rfl
          · split <;> rfl

@[simp] theorem setFile_bitmap : (t.setFile i f).bitmap = t.bitmap := rfl

@[simp] theorem setFile_btmapFile : (t.setFile i f).btmapFile = t.btmapFile := rfl

@[simp] theorem setFile_dirty : (t.setFile i f).dirty = t.dirty := rfl

@[simp] theorem setFile_file : (t.setFile i f).file = update t.file i (some f) := rfl

@[simp] theorem fileBitmapUpdate_file (set : Bool) : (t.fileBitmapUpdate i set).file = t.file := by
  unfold fileBitmapUpdate
  split <;> rfl

@[simp] theorem fileBitmapUpdate_bitmap (set : Bool) : (t.fileBitmapUpdate i set).bitmap = update t.bitmap i set := by
  unfold fileBitmapUpdate
  split
  · rename_i same
    rw [← same,Function.update_eq_self]
  · rfl

@[simp] theorem bitmapFlush_file (fails : Bool) : (t.bitmapFlush fails).file = t.file := by
  unfold bitmapFlush
  split <;> rfl

@[simp] theorem bitmapFlush_bitmap (fails : Bool) : (t.bitmapFlush fails).bitmap = t.bitmap := by
  unfold bitmapFlush
  split <;> rfl

/-- A bitmap that does not have to be flushed is the one on disk. -/
def Synced (t : Table α) : Prop := t.dirty = false → t.btmapFile = t.bitmap

theorem Synced.fileBitmapUpdate (synced : t.Synced) (set : Bool) : (t.fileBitmapUpdate i set).Synced := by
  unfold Table.fileBitmapUpdate
  split
  · exact synced
  · intro clean
    cases clean

theorem Synced.bitmapFlush (synced : t.Synced) (fails : Bool) : (t.bitmapFlush fails).Synced := by
  unfold Table.bitmapFlush
  split
  · exact synced
  · exact fun _ => rfl

end Table

end Rozofs.DiskTable
