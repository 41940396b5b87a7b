import Rozofs.DirentRepair
import Rozofs.ChunkScan
import Rozofs.NameChunks
import Rozofs.ByteMemory

/-! The names of a directory in a root dirent file and its collision files, in memory: the search, the
insertion and the removal of `dirent_search.c`, `dirent_insert.c` and `dirent_cache.c`, and the requests of
`dirent_file.c` on one root file. The list of a bucket goes through all the files. Memory is never refused. -/
namespace Rozofs.Dirents
open Function (update)
open Bitmap (test setBit clearBit skipVal others)
open ChunkScan (direntAllocateChunks)
open ByteMemory (Memory read32 write32 memcpy run)
open DirentRepair (PtrType HashPtr HashEntry CacheEntry Dirent)

abbrev Name := List UInt8

/-- `fid_t`. -/
abbrev Fid := { bytes : List UInt8 // bytes.length = 16 }

/-- The fid and the type of a `mdirents_name_entry_t`. -/
structure Value where
  fid : Fid
  type : BitVec 20
  deriving DecidableEq

/-- The `mdirents_cache_entry_t` of a root file with those of its collision files. The root has no index. The
hash entries are in `links`, with their hash in `hash` and their chunks in `names`; `area` is the name arrays. -/
structure Files where
  links : Dirent
  hash : Option Nat → Nat → BitVec 28
  names : Option Nat → NameChunks.DirentFile
  area : Option Nat → Memory
  hashEntryFull : Bool
  collBitmapHashFull : Nat → BitVec 8
  bucketSafeBitmap : Nat → BitVec 8

/-- The value of the hash for each name, and `dirent_cache_safe_enable`. -/
structure Config where
  hash2 : Name → BitVec 32
  safeEnable : Bool

/-- `((hash2 >> 16) ^ (hash2 & 0xffff)) & DIRENT_ROOT_BUCKET_IDX_MASK`. -/
def bucketIdx (hash2 : BitVec 32) : Nat := (((hash2 >>> 16) ^^^ (hash2 &&& 0xFFFF#32)) &&& 0xFF#32).toNat

/-- A `mdirents_hash_ptr_t` in memory: the bucket in a file, or the next pointer of a hash entry. -/
inductive Slot where
  | bucket (file : Option Nat)
  | next (file : Option Nat) (idx : Nat)
  deriving DecidableEq

def Slot.file : Slot → Option Nat
  | .bucket file => file
  | .next file _ => file

section Pointers
variable (st : Dirent) (bucketIdx : Nat)

/-- `DIRENT_CACHE_GET_HASH_ENTRY_PTR`. -/
def entry (file : Option Nat) (idx : Nat) : Option HashEntry := (st.file file).bind fun f => f.hashEntry idx

/-- What is read at a place, when there is memory for it. -/
def ptr : Slot → Option HashPtr
  | .bucket file => (st.file file).bind fun f => f.hashTbl bucketIdx
  | .next file idx => (entry st file idx).map HashEntry.next

/-- A pointer in memory is written. -/
def setPtr (value : HashPtr → HashPtr) : Slot → Dirent
  | .bucket file =>
    match st.file file with
    | none => st
    | some f =>
      match f.hashTbl bucketIdx with
      | none => st
      | some p => st.setFile (f.setBucket bucketIdx (value p)) file
  | .next file idx =>
    match st.file file with
    | none => st
    | some f => st.setFile (f.setNext idx value) file

/-- `dirent_cache_check_repair_needed`, and `dirent_cache_check_repair_needed_dbg`: there is a cause. -/
def checkRepairNeeded (file : Option Nat) (p : HashPtr) : Bool :=
  match p.type with
  | .here =>
    match st.file file with
    | none => true
    | some f =>
      test f.hashBitmap p.idx.toNat ||
      match f.hashEntry p.idx.toNat with
      | none => true
      | some e => e.bucketIdx ≠ bucketIdx
  | .coll => (st.coll p.idx.toNat).isNone
  | .eof => false
  | .free => true

end Pointers

/-! The control of the list of a bucket before its first search. -/

/-- The loop of `dirent_scan_dirent_cache_entry` over the pointers of a file: the collision files that were
referenced, or none when there is a cause to repair. -/
def scanPointers (st : Dirent) (bucketIdx : Nat) : Nat → Slot → (Nat → BitVec 8) → Option (Nat → BitVec 8)
  | 0, _, _ => none
  | n + 1, slot, scanned =>
    match ptr st bucketIdx slot with
    | none => none
    | some p =>
      if checkRepairNeeded st bucketIdx slot.file p then none
      else
        match p.type with
        | .eof => some scanned
        | .here => scanPointers st bucketIdx n (.next slot.file p.idx.toNat) scanned
        | _ =>
          if slot.file = some p.idx.toNat ∨ test scanned p.idx.toNat = true then none
          else some (setBit scanned p.idx.toNat)

/-- `dirent_scan_dirent_cache_entry`: the files with entries of the bucket, and those that were referenced. -/
def scanDirentCacheEntry (st : Dirent) (bucketIdx : Nat) (file : Option Nat) (listIn scanned : Nat → BitVec 8) :
    Option ((Nat → BitVec 8) × (Nat → BitVec 8)) :=
  match ptr st bucketIdx (.bucket file) with
  | none => some (listIn,scanned)
  | some p =>
    if checkRepairNeeded st bucketIdx file p then none
    else
      let listIn :=
        match file with
        | none => listIn
        | some collIdx => if p.type = .here then setBit listIn collIdx else listIn
      (scanPointers st bucketIdx 388 (.bucket file) scanned).map fun scanned => (listIn,scanned)

/-- The loop of `dirent_cache_is_bucket_idx_safe` over the collision files that are in memory. -/
def scanColls (st : Dirent) (bucketIdx : Nat) : List Nat → (Nat → BitVec 8) → (Nat → BitVec 8) →
    Option ((Nat → BitVec 8) × (Nat → BitVec 8))
  | [], listIn, scanned => some (listIn,scanned)
  | collIdx :: rest, listIn, scanned =>
    match st.coll collIdx with
    | none => scanColls st bucketIdx rest listIn scanned
    | some _ =>
      match scanDirentCacheEntry st bucketIdx (some collIdx) listIn scanned with
      | none => none
      | some (listIn,scanned) => scanColls st bucketIdx rest listIn scanned

/-- The scan of the files, and the comparison of the two bitmaps by words of 64 bits. -/
def bucketScanned (st : Dirent) (bucketIdx : Nat) : Bool :=
  match scanDirentCacheEntry st bucketIdx none (fun _ => 0) fun _ => 0 with
  | none => false
  | some (listIn,scanned) =>
    match scanColls st bucketIdx (others true st.collBitmap 2048 2049 0) listIn scanned with
    | none => false
    | some (listIn,scanned) => (List.range 2048).all fun byte => listIn byte = scanned byte

/-- `dirent_cache_is_bucket_idx_safe`. -/
def isBucketIdxSafe (cfg : Config) (bucketIdx : Nat) (st : Files) : Files :=
  if !cfg.safeEnable || test st.bucketSafeBitmap bucketIdx then st
  else { st with
    bucketSafeBitmap := setBit st.bucketSafeBitmap bucketIdx
    links := if bucketScanned st.links bucketIdx then st.links else st.links.direntFileRepair bucketIdx }

/-! The search for a name in the list of its bucket. -/

/-- `DIRENT_MAX_SUPPORTED_COLL`. -/
def maxSupportedColl : Nat := 900

/-- `dirent_get_entry_name_ptr`. -/
def nameEntryPtr (st : Files) (file : Option Nat) (idx : Nat) : Option Nat :=
  ((st.names file).hashEntry idx).map fun e => 64 * e.chunkIdx.toNat

/-- The length and the bytes of the name are those of the name entry. -/
def named (m : Memory) (p : Nat) (name : Name) : Bool := read32 m p / 2 ^ 20 = name.length && run m (p + 20) name.length = name

/-- The two functions that go through a list. -/
inductive Goal where
  | search
  | delete
  deriving DecidableEq

/-- `hash_bucket_prev_p`, `hash_bucket_p` and `cur_hash_entry_idx`. -/
structure Position where
  prev : Slot
  cur : Slot
  idx : Nat

inductive Walked where
  | found (position : Position)
  | missing
  | repair (left : Nat)

/-- The loop of `dirent_cache_search_hash_entry` and of `dirent_cache_delete_hash_entry`, with the turns that
are left. The list is checked as long as it was not repaired. -/
def walk (goal : Goal) (bucketIdx : Nat) (hash2 : BitVec 32) (name : Name) (checked : Bool) (st : Files) :
    Nat → Slot → Slot → Walked
  | 0, _, cur =>
    match ptr st.links bucketIdx cur with
    | none => .missing
    | some _ =>
      -- the removal does not count from 0 again
      if checked then .repair (if goal = .search then maxSupportedColl - 1 else 0) else .missing
  | n + 1, prev, cur =>
    match ptr st.links bucketIdx cur with
    | none => .missing
    | some p =>
      if checked && checkRepairNeeded st.links bucketIdx cur.file p then .repair n
      else
        match p.type with
        | .eof => .missing
        | .here =>
          let next := .next cur.file p.idx.toNat
          match entry st.links cur.file p.idx.toNat with
          | none => if checked && goal = .search then .repair n else .missing
          | some _ =>
            if st.hash cur.file p.idx.toNat ≠ hash2.setWidth 28 then walk goal bucketIdx hash2 name checked st n cur next
            else
              match nameEntryPtr st cur.file p.idx.toNat with
              | none => if goal = .search then walk goal bucketIdx hash2 name checked st n cur next else .missing
              | some m =>
                if named (st.area cur.file) m name then .found ⟨prev,cur,p.idx.toNat⟩
                else walk goal bucketIdx hash2 name checked st n cur next
        | _ =>
          match st.links.coll p.idx.toNat with
          | none => if checked && goal = .search then .repair n else .missing
          | some _ => walk goal bucketIdx hash2 name checked st n cur (.bucket (some p.idx.toNat))

/-- The walk from the root, and once again after a repair. -/
def walkTwice (goal : Goal) (bucketIdx : Nat) (hash2 : BitVec 32) (name : Name) (st : Files) : Files × Option Position :=
  match walk goal bucketIdx hash2 name true st (maxSupportedColl - 1) (.bucket none) (.bucket none) with
  | .found position => (st,some position)
  | .missing => (st,none)
  | .repair left =>
    let st := { st with links := st.links.direntFileRepair bucketIdx }
    match walk goal bucketIdx hash2 name false st left (.bucket none) (.bucket none) with
    | .found position => (st,some position)
    | _ => (st,none)

/-- `dirent_cache_search_hash_entry`. -/
def searchHashEntry (cfg : Config) (name : Name) (st : Files) : Files × Option Position :=
  let hash2 := cfg.hash2 name
  walkTwice .search (bucketIdx hash2) hash2 name (isBucketIdxSafe cfg (bucketIdx hash2) st)

/-- The fid and the type in a name entry. -/
def valueAt (m : Memory) (p : Nat) : Value := ⟨⟨run m (p + 4) 16,by simp [run]⟩,BitVec.ofNat 20 (read32 m p)⟩

/-! The allocation of a hash entry. -/

/-- `MDIRENTS_ENTRIES_COUNT`. -/
def entriesCount : Nat := 384

/-- `MDIRENTS_MAX_COLLS_IDX`. -/
def maxCollsIdx : Nat := 2048

/-- `dirent_cache_create_entry`. -/
def createEntry : CacheEntry := ⟨fun _ => 0xFF#8,fun _ => none,fun _ => none⟩

/-- `DIRENT_CACHE_ALLOCATE_HASH_ENTRY_ARRAY` and `DIRENT_CACHE_ALLOCATE_BUCKET_ARRAY`: arrays of 64. -/
def allocateArrays (bucketIdx idx : Nat) (file : CacheEntry) : CacheEntry :=
  { file with
    hashEntry :=
      match file.hashEntry idx with
      | some _ => file.hashEntry
      | none => fun j => if j / 64 = idx / 64 then some ⟨0,⟨.eof,0⟩⟩ else file.hashEntry j
    hashTblArray :=
      match file.hashTblArray (bucketIdx / 64) with
      | some _ => file.hashTblArray
      | none => update file.hashTblArray (bucketIdx / 64) (some fun _ => ⟨.eof,0⟩) }

/-- `DIRENT_CACHE_ALLOCATE_HASH_ENTRY_IDX` and the arrays of the entry. -/
def allocateEntry (bucketIdx : Nat) (file : CacheEntry) : Option (CacheEntry × Nat) :=
  match direntAllocateChunks 1 file.hashBitmap entriesCount with
  | (none,_) => none
  | (some idx,bitmap) => some (allocateArrays bucketIdx idx { file with hashBitmap := bitmap },idx)

/-- How the loop over the collision files ends: at one with a free entry, or without. -/
structure CollSearch where
  found : Option (Nat × CacheEntry × Nat)
  freeCollIdx : Option Nat
  full : Nat → BitVec 8

/-- The loop of `dirent_cache_alloc_name_entry_idx` over the collision files. -/
def searchColl (bucketIdx : Nat) (links : Dirent) : Nat → Nat → Option Nat → (Nat → BitVec 8) → CollSearch
  | 0, _, freeCollIdx, full => ⟨none,freeCollIdx,full⟩
  | n + 1, collIdx, freeCollIdx, full =>
    if maxCollsIdx ≤ collIdx then ⟨none,freeCollIdx,full⟩
    else
      match if collIdx % 8 = 0 then skipVal true full maxCollsIdx maxCollsIdx collIdx else some collIdx with
      | none => ⟨none,freeCollIdx,full⟩
      | some collIdx =>
        if test full collIdx then searchColl bucketIdx links n (collIdx + 1) freeCollIdx full
        else if test links.collBitmap collIdx then
          let freeCollIdx := some (freeCollIdx.getD collIdx)
          if collIdx % 8 = 0 then
            match skipVal true links.collBitmap maxCollsIdx maxCollsIdx collIdx with
            | none => ⟨none,freeCollIdx,full⟩
            | some next => searchColl bucketIdx links n (if next = collIdx then collIdx + 1 else next) freeCollIdx full
          else searchColl bucketIdx links n (collIdx + 1) freeCollIdx full
        else
          match links.coll collIdx with
          | none => ⟨none,freeCollIdx,full⟩
          | some file =>
            match allocateEntry bucketIdx file with
            | none => searchColl bucketIdx links n (collIdx + 1) freeCollIdx (setBit full collIdx)
            | some (file,idx) => ⟨some (collIdx,file,idx),freeCollIdx,if idx = entriesCount - 1 then setBit full collIdx else full⟩

/-- The end of `dirent_cache_alloc_name_entry_idx`: a new collision file. -/
def createColl (bucketIdx : Nat) (freeCollIdx : Option Nat) (st : Files) : Files × Option (Option Nat × Nat) :=
  let allocated :=
    match freeCollIdx with
    | some collIdx => (some collIdx,clearBit st.links.collBitmap collIdx)
    | none => direntAllocateChunks 1 st.links.collBitmap maxCollsIdx
  match allocated with
  | (none,_) => (st,none)
  | (some collIdx,collBitmap) =>
    match allocateEntry bucketIdx createEntry with
    | none => (st,none)
    | some (file,idx) =>
      ({ st with
        links := { st.links with collBitmap := collBitmap, coll := update st.links.coll collIdx (some file) }
        names := update st.names (some collIdx) NameChunks.empty },some (some collIdx,idx))

/-- `dirent_cache_alloc_name_entry_idx`: the file and the index of the hash entry. -/
def allocNameEntryIdx (bucketIdx : Nat) (st : Files) : Files × Option (Option Nat × Nat) :=
  match if st.hashEntryFull then none else allocateEntry bucketIdx st.links.root with
  | some (root,idx) =>
    ({ st with links := { st.links with root := root }, hashEntryFull := idx = entriesCount - 1 },some (none,idx))
  | none =>
    let st := { st with hashEntryFull := true }
    let search := searchColl bucketIdx st.links maxCollsIdx 0 none st.collBitmapHashFull
    let st := { st with collBitmapHashFull := search.full }
    match search.found with
    | some (collIdx,file,idx) => ({ st with links := st.links.setFile file (some collIdx) },some (some collIdx,idx))
    | none => createColl bucketIdx search.freeCollIdx st

/-! The insertion of a hash entry in the list of its bucket. -/

inductive Reached where
  | found
  | repair
  | error

/-- The loop of `dirent_cache_search_for_coll_with_bucket_idx`. There is no limit in the source: with more
turns than there are places, it does not end. -/
def searchForColl (st : Dirent) (bucketIdx collIdx : Nat) : Nat → Slot → Option Reached
  | 0, _ => none
  | n + 1, slot =>
    match ptr st bucketIdx slot with
    | none => some .error
    | some p =>
      if checkRepairNeeded st bucketIdx slot.file p then some .repair
      else
        match p.type with
        | .eof => some .repair
        | .here =>
          match entry st slot.file p.idx.toNat with
          | none => some .error
          | some _ => searchForColl st bucketIdx collIdx n (.next slot.file p.idx.toNat)
        | _ =>
          if p.idx.toNat = collIdx then some .found
          else
            match st.coll p.idx.toNat with
            | none => some .error
            | some _ => searchForColl st bucketIdx collIdx n (.bucket (some p.idx.toNat))

/-- The places of a bucket in the root file and the collision files. -/
def places : Nat := (maxCollsIdx + 1) * (entriesCount + 1)

inductive RootEnd where
  | found (slot : Slot)
  | repair
  | error

/-- The loop of `dirent_cache_insert_hash_entry` to the last pointer in the root file. -/
def searchRootEnd (st : Dirent) (bucketIdx : Nat) (checked : Bool) : Nat → Slot → RootEnd
  | 0, _ => if checked then .repair else .error
  | n + 1, slot =>
    match ptr st bucketIdx slot with
    | none => .error
    | some p =>
      if checked && checkRepairNeeded st bucketIdx none p then .repair
      else
        match p.type with
        | .eof | .coll => .found slot
        | .here =>
          match entry st none p.idx.toNat with
          | none => if checked then .repair else .error
          | some _ => searchRootEnd st bucketIdx checked n (.next none p.idx.toNat)
        | .free => searchRootEnd st bucketIdx checked n slot

/-- A hash entry is put first in the list of its file. -/
def pushEntry (st : Dirent) (bucketIdx : Nat) (file : Option Nat) (idx : Nat) (first : HashPtr) : Dirent :=
  setPtr (setPtr st bucketIdx (fun _ => first) (.next file idx)) bucketIdx (fun _ => ⟨.here,BitVec.ofNat 10 idx⟩) (.bucket file)

/-- The first entry of the bucket in a collision file, which is linked behind the last pointer in the root. -/
def linkColl (st : Dirent) (bucketIdx collIdx idx : Nat) (slot : Slot) : Dirent :=
  match ptr st bucketIdx slot with
  | none => st
  | some last => setPtr (pushEntry st bucketIdx (some collIdx) idx last) bucketIdx (fun _ => ⟨.coll,BitVec.ofNat 10 collIdx⟩) slot

/-- The type of the next pointer is set to free, and the index of the bucket is set. -/
def prepareEntry (st : Dirent) (bucketIdx : Nat) (file : Option Nat) (idx : Nat) : Dirent :=
  match st.file file with
  | none => st
  | some f => st.setFile { f with
      hashEntry := update f.hashEntry idx ((f.hashEntry idx).map fun e => ⟨bucketIdx,{ e.next with type := .free }⟩) } file

/-- `dirent_cache_insert_hash_entry`, which fails with `false`; `none` when it does not end. -/
def insertHashEntry (bucketIdx : Nat) (file : Option Nat) (idx : Nat) (links : Dirent) : Option (Dirent × Bool) :=
  match entry links file idx with
  | none => some (links,false)
  | some _ =>
    let st := prepareEntry links bucketIdx file idx
    match ptr st bucketIdx (.bucket file) with
    | none => some (st,false)
    | some first =>
      match file with
      | none => some (pushEntry st bucketIdx none idx first,true)
      | some collIdx =>
        if first.type = .here ∨ first.type = .coll then
          let st := pushEntry st bucketIdx (some collIdx) idx first
          (searchForColl st bucketIdx collIdx (places + 1) (.bucket none)).map fun
            | .found => (st,true)
            | .repair => (st.direntFileRepair bucketIdx,true)
            | .error => (st,false)
        else
          match ptr st bucketIdx (.bucket none) with
          | none => some (st,false)
          | some root =>
            if root.type = .eof then
              -- the index of the next pointer is kept
              let st := setPtr st bucketIdx (fun next => { next with type := .eof }) (.next file idx)
              let st := setPtr st bucketIdx (fun _ => ⟨.here,BitVec.ofNat 10 idx⟩) (.bucket file)
              some (setPtr st bucketIdx (fun _ => ⟨.coll,BitVec.ofNat 10 collIdx⟩) (.bucket none),true)
            else
              match searchRootEnd st bucketIdx true entriesCount (.bucket none) with
              | .found slot => some (linkColl st bucketIdx collIdx idx slot,true)
              | .error => some (st,false)
              | .repair =>
                let st := st.direntFileRepair bucketIdx
                match searchRootEnd st bucketIdx false entriesCount (.bucket none) with
                | .found slot => some (linkColl st bucketIdx collIdx idx slot,true)
                | _ => some (st,false)

/-! The removal of a hash entry. -/

/-- The pointers that are written by `dirent_cache_delete_hash_entry`, and `cache_entry_prev_ret`. -/
def unlink (bucketIdx : Nat) (position : Position) (st : Dirent) : Dirent × Option (Option Nat) :=
  match entry st position.cur.file position.idx with
  | none => (st,none)
  | some e =>
    if position.cur = .bucket position.cur.file ∧ (e.next.type = .eof ∨ e.next.type = .coll) then
      let st :=
        if e.next.type = .eof then setPtr st bucketIdx (fun p => { p with type := .eof }) position.prev
        else setPtr st bucketIdx (fun _ => e.next) position.prev
      match position.cur.file with
      | none => (st,none)
      | some _ => (setPtr st bucketIdx (fun p => { p with type := .eof }) position.cur,some position.prev.file)
    else (setPtr st bucketIdx (fun _ => e.next) position.cur,none)

/-- `DIRENT_CACHE_RELEASE_HASH_ENTRY_IDX` and `DIRENT_CACHE_RELEASE_HASH_ENTRY_ARRAY`. -/
def releaseEntry (idx : Nat) (file : CacheEntry) : CacheEntry :=
  let bitmap := setBit file.hashBitmap idx
  { file with
    hashBitmap := bitmap
    hashEntry :=
      if (List.range' (idx / 64 * 8) 8).all (fun byte => bitmap byte = 0xFF#8) then fun j => if j / 64 = idx / 64 then none else file.hashEntry j
      else file.hashEntry }

def releaseHashEntry (file : Option Nat) (idx : Nat) (st : Dirent) : Dirent :=
  match st.file file with
  | none => st
  | some f => st.setFile (releaseEntry idx f) file

/-- A removed name: its value, the file it was in, and the file before in the list when that was changed. -/
structure Removed where
  value : Value
  file : Option Nat
  prevRet : Option (Option Nat)

/-- `dirent_cache_delete_hash_entry`. -/
def deleteHashEntry (cfg : Config) (name : Name) (st : Files) : Files × Option Removed :=
  let hash2 := cfg.hash2 name
  match walkTwice .delete (bucketIdx hash2) hash2 name st with
  | (st,none) => (st,none)
  | (st,some position) =>
    let file := position.cur.file
    match nameEntryPtr st file position.idx,NameChunks.delEntryName position.idx (st.names file) with
    | some p,some names =>
      let (links,prevRet) := unlink (bucketIdx hash2) position st.links
      ({ st with
        links := releaseHashEntry file position.idx links
        names := update st.names file names
        hashEntryFull := if file = none then false else st.hashEntryFull
        collBitmapHashFull := match file with | none => st.collBitmapHashFull | some collIdx => clearBit st.collBitmapHashFull collIdx },
        some ⟨valueAt (st.area file) p,file,prevRet⟩)
    | _,_ => (st,none)

/-! The requests on a root file, which may be missing. -/

/-- `dirent_cache_entry_check_empty`. -/
def checkEmpty (st : Dirent) (file : Option Nat) : Bool :=
  match st.file file with
  | none => false
  | some f => (List.range (entriesCount / 8)).all (fun byte => f.hashBitmap byte = 0xFF#8) &&
    (file ≠ none || (List.range (maxCollsIdx / 8)).all fun byte => st.collBitmap byte = 0xFF#8)

/-- `dirent_cache_del_collision_ptr`. -/
def delCollisionPtr (collIdx : Nat) (st : Dirent) : Dirent :=
  { st with coll := update st.coll collIdx none, collBitmap := setBit st.collBitmap collIdx }

def createRoot : Files :=
  ⟨⟨fun _ => 0xFF#8,createEntry,fun _ => none⟩,fun _ _ => 0,fun _ => NameChunks.empty,fun _ _ => 0,false,fun _ => 0,fun _ => 0⟩

/-- The name entry in its chunks. -/
def writeNameEntry (p : Nat) (name : Name) (value : Value) (m : Memory) : Memory :=
  memcpy (memcpy (write32 m p (value.type.toNat + 2 ^ 20 * name.length)) (p + 4) value.fid.val) (p + 20) name

/-- The end of `put_mdirentry`, for a hash entry that is linked: the hash, and `dirent_create_entry_name`. -/
def fillEntry (cfg : Config) (name : Name) (value : Value) (file : Option Nat) (idx : Nat) (st : Files) : Files × Bool :=
  match entry st.links file idx with
  | none => (st,false)
  | some _ =>
    let st := { st with hash := update st.hash file (update (st.hash file) idx ((cfg.hash2 name).setWidth 28)) }
    match NameChunks.createEntryName idx name.length (st.names file) with
    | none => (st,false)
    | some names =>
      let st := { st with names := update st.names file names }
      match nameEntryPtr st file idx with
      | none => (st,false)
      | some p => ({ st with area := update st.area file (writeNameEntry p name value (st.area file)) },true)

/-- The part of `put_mdirentry` for a name that is not in the files. -/
def appendEntry (cfg : Config) (name : Name) (value : Value) (st : Files) : Option (Files × Bool) :=
  match allocNameEntryIdx (bucketIdx (cfg.hash2 name)) st with
  | (st,none) => some (st,false)
  | (st,some (file,idx)) =>
    (insertHashEntry (bucketIdx (cfg.hash2 name)) file idx st.links).map fun
      | (links,false) => ({ st with links := links },false)
      | (links,true) => fillEntry cfg name value file idx { st with links := links }

/-- `put_mdirentry` on its root file; `none` when it does not end. -/
def putMdirentry (cfg : Config) (name : Name) (fid : Fid) (type : BitVec 32) : Option Files → Option (Option Files × Bool)
  | none => (appendEntry cfg name ⟨fid,type.setWidth 20⟩ createRoot).map fun (st,status) => (some st,status)
  | some st =>
    match searchHashEntry cfg name st with
    | (st,some position) =>
      let file := position.cur.file
      match nameEntryPtr st file position.idx with
      | none => some (some st,false)
      | some p => some (some { st with area := update st.area file (memcpy (st.area file) (p + 4) fid.val) },true)
    | (st,none) => (appendEntry cfg name ⟨fid,type.setWidth 20⟩ st).map fun (st,status) => (some st,status)

/-- `get_mdirentry_internal`. -/
def getMdirentry (cfg : Config) (name : Name) : Option Files → Option Files × Option Value
  | none => (none,none)
  | some st =>
    match searchHashEntry cfg name st with
    | (st,none) => (some st,none)
    | (st,some position) =>
      (some st,(nameEntryPtr st position.cur.file position.idx).map (valueAt (st.area position.cur.file)))

/-- `del_mdirentry_internal`. A file without entries is removed. -/
def delMdirentry (cfg : Config) (name : Name) : Option Files → Option Files × Option Value
  | none => (none,none)
  | some st =>
    match deleteHashEntry cfg name st with
    | (st,none) => (some st,none)
    | (st,some removed) =>
      let rest :=
        if checkEmpty st.links removed.file then removed.file.map fun collIdx => { st with links := delCollisionPtr collIdx st.links }
        else some st
      (rest.filter fun st => !(removed.prevRet = some none && checkEmpty st.links none),some removed.value)

end Rozofs.Dirents
