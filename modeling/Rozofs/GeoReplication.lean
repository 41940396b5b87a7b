import Mathlib.Logic.Function.Basic
import Mathlib.Data.List.Basic
import Mathlib.Algebra.Order.Ring.Int

/-! Geo-replication of `geo_replication.c`: the table of the files to synchronise with its hash table, and the
flush of the table to the synchronisation files. -/
namespace Rozofs.GeoReplication
open Function (update)

/-- `GEO_MAX_ENTRIES`, the size of the FID table. -/
def geoMaxEntries : Nat := 1024

/-- `GEO_MAX_HASH_SZ`. -/
def geoMaxHashSz : Nat := 1024 * 64

/-- `GEO_MAX_COLL_ENTRY`. -/
def geoMaxCollEntry : Nat := 4

/-- `sizeof(geo_fid_entry_t)`. -/
def fidEntrySize : Nat := 72

/-- `GEO_REP_FILE_HDR_SZ`. -/
def geoRepFileHdrSz : Nat := 8

/-- `GEO_MAX_FILE_SIZE`. -/
def geoMaxFileSize : Nat := geoMaxEntries * fidEntrySize

/-- `GEO_REP_FREQ_SECS`. -/
def delay : Nat := 1

/-- `GEO_REP_NEXT_FILE_FREQ_SECS`. -/
def delayNextFile : Nat := 4

/-- `geo_fid_entry_t`. -/
structure FidEntry (φ : Type) where
  fid : φ
  offStart : Nat
  offEnd : Nat
  cid : Nat
  sids : List Nat
  layout : Nat
  deriving DecidableEq, Repr

/-- A synchronisation file: its length, and the records that a reader finds after the header. -/
structure SyncFile (φ : Type) where
  size : Nat
  records : List (FidEntry φ)
  deriving DecidableEq, Repr

/-- The synchronisation files by index. -/
structure Directory (φ : Type) where
  file : Nat → Option (SyncFile φ)
  bound : Nat
  absent : ∀ idx, bound ≤ idx → file idx = none

/-- Fields of `geo_rep_srv_ctx_t`, and the directory of the site. `geo_first_idx` is the length of the table;
a slot of the hash table is `none` for 0xffff. -/
structure State (φ : Type) where
  geoReplicationEnable : Bool
  geoFidTable : List (FidEntry φ)
  geoHashTable : Nat → Nat → Option Nat
  lastIndex : Nat
  fileIdxWrPending : Bool
  lastTimeFlush : Nat
  lastTimeFileCr8 : Nat
  dir : Directory φ

/-- What a call meets: the outcome of `access`, `stat` and `open`, the bytes that the two `write` can put, the
clock, and the length in `buf` before a `stat`. -/
structure Env where
  accessible : Nat → Bool
  stats : Nat → Bool
  opens : Bool
  headerRoom : Nat
  room : Nat
  insertTime : Nat
  checkTime : Nat
  fileTime : Nat
  flushTime : Nat
  unset : Nat

section Files
variable {φ : Type}

theorem Directory.below {dir : Directory φ} {idx : Nat} {file : SyncFile φ} (found : dir.file idx = some file) : idx < dir.bound := by
  by_contra beyond
  rw [dir.absent idx (Nat.le_of_not_lt beyond)] at found
  cases found

def Directory.put (dir : Directory φ) (idx : Nat) (file : SyncFile φ) : Directory φ where
  file := update dir.file idx (some file)
  bound := max dir.bound (idx + 1)
  absent other beyond := by
    have differ : other ≠ idx := by omega
    rw [Function.update_of_ne differ]
    exact dir.absent other (by omega)

/-- A file has its header and whole records. -/
def Aligned (size : Nat) : Prop := geoRepFileHdrSz ≤ size ∧ (size - geoRepFileHdrSz) % fidEntrySize = 0

instance (size : Nat) : Decidable (Aligned size) := inferInstanceAs (Decidable (_ ∧ _))

/-- A write of records at the end of a file. Records that do not start on the boundary of a record are not found. -/
def SyncFile.append (file : SyncFile φ) (table : List (FidEntry φ)) (bytes : Nat) : SyncFile φ :=
  ⟨file.size + bytes,if Aligned file.size then file.records ++ table.take (bytes / fidEntrySize) else file.records⟩

/-- The writes of a flush: the header when the length was 0, then the table. -/
def SyncFile.flush (env : Env) (stSize : Nat) (table : List (FidEntry φ)) (file : SyncFile φ) : SyncFile φ :=
  if stSize = 0 then
    if env.headerRoom < geoRepFileHdrSz then { file with size := file.size + env.headerRoom }
    else { file with size := file.size + geoRepFileHdrSz }.append table (min (table.length * fidEntrySize) env.room)
  else file.append table (min (table.length * fidEntrySize) env.room)

/-- The end of the search for the file of a flush. -/
inductive Place where
  | failed
  | created
  | existing (size : Nat)
  deriving DecidableEq, Repr

/-- The loop of `geo_rep_disk_flush` that looks for a file from an index on; `left` files can be after it. -/
def seek (env : Env) (dir : Directory φ) (left idx : Nat) : Nat × Place :=
  if !env.accessible idx then (idx,.failed)
  else
    match dir.file idx with
    | none => (idx,.created)
    | some file =>
      if !env.stats idx || decide (file.size > geoMaxFileSize) then
        match left with
        | 0 => (idx + 1,.created)
        | left + 1 => seek env dir left (idx + 1)
      else (idx,.existing file.size)

end Files

section Calls
variable {φ : Type}

/-- `geo_rep_disk_next_index`. -/
def geoRepDiskNextIndex (st : State φ) : State φ := { st with lastIndex := st.lastIndex + 1, fileIdxWrPending := false }

/-- `geo_rep_reinit`. -/
def geoRepReinit (st : State φ) : State φ :=
  if st.geoReplicationEnable then { st with geoFidTable := [], geoHashTable := fun _ _ => none } else st

/-- The end of a flush: the file may be made available, and the table is cleared. -/
def finish (env : Env) (forced : Bool) (size stSize : Nat) (st : State φ) : State φ :=
  geoRepReinit
    (if st.fileIdxWrPending ∧ (geoMaxFileSize < size + stSize ∨ st.lastTimeFileCr8 + delayNextFile < env.flushTime ∨ forced = true) then
      geoRepDiskNextIndex st
    else st)

def Place.size : Place → Nat
  | .existing size => size
  | _ => 0

/-- `geo_rep_disk_flush`: the state and the status, `true` for 0. -/
def geoRepDiskFlush (env : Env) (forced : Bool) (st : State φ) : State φ × Bool :=
  if !st.geoReplicationEnable then (st,true)
  else if st.geoFidTable.length = 0 then (finish env forced 0 env.unset st,true)
  else
    let (idx,place) := seek env st.dir (st.dir.bound - st.lastIndex) st.lastIndex
    let st := { st with
      fileIdxWrPending := true
      lastIndex := idx
      lastTimeFileCr8 := if place = .created then env.fileTime else st.lastTimeFileCr8 }
    if place = .failed ∨ !env.opens then (st,false)
    else
      let file := ((st.dir.file idx).getD ⟨0,[]⟩).flush env place.size st.geoFidTable
      (finish env forced (st.geoFidTable.length * fidEntrySize) place.size { st with dir := st.dir.put idx file },true)

/-- The range of an entry that is found: 0 and 0 mark a deletion. -/
def FidEntry.merge (offStart offEnd : Nat) (p : FidEntry φ) : FidEntry φ :=
  if offStart = 0 ∧ offEnd = 0 then { p with offStart := 0, offEnd := 0 }
  else { p with offStart := min p.offStart offStart, offEnd := max p.offEnd offEnd }

variable [DecidableEq φ] (hash : φ → Nat)

/-- The entry of a FID that the hash table finds. -/
def search (fid : φ) (st : State φ) : Option Nat :=
  (List.range geoMaxCollEntry).findSome? fun i =>
    (st.geoHashTable (hash fid % geoMaxHashSz) i).bind fun idx =>
      if (st.geoFidTable[idx]?).map FidEntry.fid = some fid then some idx else none

/-- A slot of the hash table holds 16 bits. -/
def slot (idx : Nat) : Option Nat := if idx % 2 ^ 16 = 0xffff then none else some (idx % 2 ^ 16)

/-- The first part of `geo_rep_insert_fid`: an entry is updated or added. -/
def enter (env : Env) (p : FidEntry φ) (st : State φ) : State φ :=
  match search hash p.fid st with
  | some idx => { st with geoFidTable := st.geoFidTable.modify idx (FidEntry.merge p.offStart p.offEnd) }
  | none =>
    let line := hash p.fid % geoMaxHashSz
    let i := ((List.range geoMaxCollEntry).find? fun i => (st.geoHashTable line i).isNone).getD (hash p.fid % geoMaxCollEntry)
    { st with
      lastTimeFlush := if st.geoFidTable.length = 0 then env.insertTime else st.lastTimeFlush
      geoHashTable := update st.geoHashTable line (update (st.geoHashTable line) i (slot st.geoFidTable.length))
      geoFidTable := st.geoFidTable ++ [p] }

/-- `geo_rep_insert_fid`; its arguments are the fields of an entry. -/
def geoRepInsertFid (env : Env) (p : FidEntry φ) (st : State φ) : State φ :=
  if !st.geoReplicationEnable then st
  else
    let st := enter hash env p st
    if st.geoFidTable.length ≥ geoMaxEntries - 1 ∨ st.lastTimeFlush + delay < env.checkTime then (geoRepDiskFlush env false st).1
    else st

/-- The calls on a context. -/
inductive Act (φ : Type) where
  | insert (env : Env) (p : FidEntry φ)
  | flush (env : Env) (forced : Bool)

def step (a : Act φ) (st : State φ) : Option (State φ) :=
  match a with
  | .insert env p => some (geoRepInsertFid hash env p st)
  | .flush env forced => some (geoRepDiskFlush env forced st).1

end Calls

end Rozofs.GeoReplication
