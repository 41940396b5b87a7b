import Rozofs.BitmapScan
import Mathlib.Data.List.Nodup

/-! The repair of the list of a bucket in a root dirent file and its collision files,
`dirent_file_repair.c`: the entries of the bucket are found by the bitmaps and chained again. In the
bitmaps a 0 is an allocated entry. Memory for a bucket array is never refused. -/
namespace Rozofs.DirentRepair
open Function (update)
open Bitmap (test others)

/-- `MDIRENTS_HASH_PTR_EOF` to `MDIRENTS_HASH_PTR_FREE`. -/
inductive PtrType where
  | eof
  | here
  | coll
  | free
  deriving DecidableEq

/-- `mdirents_hash_ptr_t`. -/
structure HashPtr where
  type : PtrType
  idx : BitVec 10
  deriving DecidableEq

/-- `mdirents_hash_entry_t`. -/
structure HashEntry where
  bucketIdx : Nat
  next : HashPtr
  deriving DecidableEq

/-- `mdirents_cache_entry_t`: a root or collision file in memory. The pointers to the arrays of 64 buckets
and to those of the hash entries may be null. -/
structure CacheEntry where
  hashBitmap : Nat → BitVec 8
  hashTblArray : Nat → Option (Nat → HashPtr)
  hashEntry : Nat → Option HashEntry

/-- A root file with its collision files: those that can be loaded. -/
structure Dirent where
  collBitmap : Nat → BitVec 8
  root : CacheEntry
  coll : Nat → Option CacheEntry

namespace CacheEntry

/-- `DIRENT_CACHE_GET_BUCKET_PTR`. -/
def hashTbl (file : CacheEntry) (bucketIdx : Nat) : Option HashPtr :=
  (file.hashTblArray (bucketIdx / 64)).map fun array => array (bucketIdx % 64)

/-- A bucket is written, in an array of `DIRENT_CACHE_ALLOCATE_BUCKET_ARRAY` when there was none. -/
def setBucket (file : CacheEntry) (bucketIdx : Nat) (ptr : HashPtr) : CacheEntry :=
  let array := (file.hashTblArray (bucketIdx / 64)).getD fun _ => ⟨.eof,0⟩
  { file with hashTblArray := update file.hashTblArray (bucketIdx / 64) (some (update array (bucketIdx % 64) ptr)) }

def setNext (file : CacheEntry) (idx : Nat) (next : HashPtr → HashPtr) : CacheEntry :=
  { file with hashEntry := update file.hashEntry idx ((file.hashEntry idx).map fun e => { e with next := next e.next }) }

/-- An entry that is kept for the list of the bucket. -/
def belongs (file : CacheEntry) (bucketIdx idx : Nat) : Bool :=
  match file.hashEntry idx with
  | none => false
  | some e => e.bucketIdx = bucketIdx && e.next.type ≠ .free

/-- `dirent_cache_repair_hash_entry_list_tab`: the entries of the bucket, in the order of the bitmap. -/
def listTab (file : CacheEntry) (bucketIdx : Nat) : List Nat :=
  (others true file.hashBitmap 384 385 0).filter (file.belongs bucketIdx)

/-- The loop that chains the entries. The last one keeps its index. -/
def relink : List Nat → CacheEntry → CacheEntry
  | [], file => file
  | [idx], file => file.setNext idx fun next => { next with type := .eof }
  | idx :: idx' :: rest, file => relink (idx' :: rest) (file.setNext idx fun _ => ⟨.here,BitVec.ofNat 10 idx'⟩)

/-- `dirent_cache_repair_cache_entry_for_bucket_idx`: the file, and its last entry. -/
def repairForBucketIdx (isRoot : Bool) (bucketIdx : Nat) (file : CacheEntry) : CacheEntry × Option Nat :=
  let tab := file.listTab bucketIdx
  match tab with
  | first :: _ => (relink tab (file.setBucket bucketIdx ⟨.here,BitVec.ofNat 10 first⟩),tab.getLast?)
  | [] =>
    match file.hashTbl bucketIdx with
    | none => (file,none)
    | some ptr => (if !isRoot ∧ ptr.type ≠ .eof then file.setBucket bucketIdx ⟨.eof,0⟩ else file,none)

end CacheEntry

/-- `dirent_cache_repair_cache_entry_list_t`. The root has no index. -/
structure Rescue where
  collIdx : Option Nat
  last : Option Nat

namespace Dirent

def file (st : Dirent) : Option Nat → Option CacheEntry
  | none => some st.root
  | some idx => st.coll idx

def setFile (st : Dirent) (file : CacheEntry) : Option Nat → Dirent
  | none => { st with root := file }
  | some idx => { st with coll := update st.coll idx (some file) }

/-- The loop over the collision files: each that can be loaded is repaired, and put in the table when
it has an entry. -/
def repairColls (bucketIdx : Nat) : List Nat → Dirent → Dirent × List Rescue
  | [], st => (st,[])
  | collIdx :: rest, st =>
    match st.coll collIdx with
    | none => repairColls bucketIdx rest st
    | some file =>
      let (file,last) := file.repairForBucketIdx false bucketIdx
      let (st,table) := repairColls bucketIdx rest (st.setFile file (some collIdx))
      (st,if last = none then table else ⟨some collIdx,last⟩ :: table)

/-- The pointer that leads on from a file: the one of its last entry, or its bucket. -/
def setEnd (bucketIdx : Nat) (st : Dirent) (rescue : Rescue) (ptr : HashPtr) : Dirent :=
  match st.file rescue.collIdx with
  | none => st
  | some file =>
    match rescue.last with
    | some idx => st.setFile (file.setNext idx fun _ => ptr) rescue.collIdx
    | none => st.setFile (file.setBucket bucketIdx ptr) rescue.collIdx

/-- The loop over the rescue table, and the end of the last file. -/
def chain (bucketIdx : Nat) : List Rescue → Dirent → Dirent
  | [], st => st
  | [rescue], st => st.setEnd bucketIdx rescue ⟨.eof,0⟩
  | rescue :: next :: rest, st =>
    chain bucketIdx (next :: rest) (st.setEnd bucketIdx rescue ⟨.coll,BitVec.ofNat 10 (next.collIdx.getD 0)⟩)

/-- `dirent_file_repair`. -/
def direntFileRepair (bucketIdx : Nat) (st : Dirent) : Dirent :=
  let (root,last) := st.root.repairForBucketIdx true bucketIdx
  let (st,table) := repairColls bucketIdx (others true st.collBitmap 2048 2049 0) { st with root := root }
  st.chain bucketIdx (⟨none,last⟩ :: table)

end Dirent

/-- The list that `dirent_cache_search_hash_entry` goes through from a pointer of a file on, with the
pointer at its end: an end of file, or none when the bucket array is missing. -/
inductive Visits (st : Dirent) (bucketIdx : Nat) : Option Nat → Option HashPtr → List (Option Nat × Nat) → Option HashPtr → Prop
  | missing : Visits st bucketIdx file none [] none
  | eof (last : ptr.type = .eof) : Visits st bucketIdx file (some ptr) [] (some ptr)
  | here (type : ptr.type = .here) (found : st.file file = some entry) (hash : entry.hashEntry ptr.idx.toNat = some e)
      (rest : Visits st bucketIdx file (some e.next) list final) :
      Visits st bucketIdx file (some ptr) ((file,ptr.idx.toNat) :: list) final
  | coll (type : ptr.type = .coll) (found : st.coll ptr.idx.toNat = some entry)
      (rest : Visits st bucketIdx (some ptr.idx.toNat) (entry.hashTbl bucketIdx) list final) :
      Visits st bucketIdx file (some ptr) list final

/-- The list of a bucket. -/
def BucketList (st : Dirent) (bucketIdx : Nat) (list : List (Option Nat × Nat)) (final : Option HashPtr) : Prop :=
  Visits st bucketIdx none (st.root.hashTbl bucketIdx) list final

/-- An allocated entry of the bucket that is not free, in the root file or in a collision file. -/
def Member (st : Dirent) (bucketIdx : Nat) (place : Option Nat × Nat) : Prop :=
  (∀ collIdx, place.1 = some collIdx → collIdx < 2048 ∧ test st.collBitmap collIdx = false) ∧
  ∃ file e, st.file place.1 = some file ∧ place.2 < 384 ∧ test file.hashBitmap place.2 = false ∧
    file.hashEntry place.2 = some e ∧ e.bucketIdx = bucketIdx ∧ e.next.type ≠ .free

/-- What the repair of a bucket is to do. -/
structure Repaired (bucketIdx : Nat) (st st' : Dirent) : Prop where
  list : ∃ list ptr, BucketList st' bucketIdx list (some ptr) ∧ list.Nodup ∧ ∀ place, place ∈ list ↔ Member st bucketIdx place
  others : ∀ b ≠ bucketIdx, ∀ list final, BucketList st b list final →
    (∀ place ∈ list, ∃ file e, st.file place.1 = some file ∧ file.hashEntry place.2 = some e ∧ e.bucketIdx = b) →
    ∃ final, BucketList st' b list final

section Files
variable {file file' file'' : CacheEntry} {bucketIdx : Nat}

theorem mem_listTab {idx : Nat} : idx ∈ file.listTab bucketIdx ↔ idx < 384 ∧ test file.hashBitmap idx = false ∧
    ∃ e, file.hashEntry idx = some e ∧ e.bucketIdx = bucketIdx ∧ e.next.type ≠ .free := by
  rw [CacheEntry.listTab,Bitmap.others_eq (by decide) 385 0 (by decide)]
  simp only [List.mem_filter,List.mem_range'_1,Nat.zero_le,true_and,Nat.zero_add,Nat.sub_zero,ne_eq,Bool.not_eq_true,
    decide_eq_true_eq,CacheEntry.belongs,and_assoc]
  cases file.hashEntry idx with
  | none => simp
  | some e => simp

theorem nodup_listTab : (file.listTab bucketIdx).Nodup := by
  rw [CacheEntry.listTab,Bitmap.others_eq (by decide) 385 0 (by decide)]
  exact ((List.nodup_range' _).filter _).filter _

/-- What a change of a file for one bucket leaves: the buckets and the entries of the others. A null array of
buckets may become one of empty lists. -/
structure Kept (bucketIdx : Nat) (file file' : CacheEntry) : Prop where
  bucket : ∀ b ≠ bucketIdx, ∀ ptr, file.hashTbl b = some ptr → file'.hashTbl b = some ptr
  missing : ∀ b ≠ bucketIdx, file.hashTbl b = none → ∀ ptr, file'.hashTbl b = some ptr → ptr.type = .eof
  entry : ∀ idx e, file.hashEntry idx = some e → e.bucketIdx ≠ bucketIdx → file'.hashEntry idx = some e

theorem Kept.refl : Kept bucketIdx file file where
  bucket _ _ _ found := found
  missing _ _ none _ found := absurd (none.symm.trans found) (by simp)
  entry _ _ found _ := found

theorem Kept.trans (first : Kept bucketIdx file file') (second : Kept bucketIdx file' file'') : Kept bucketIdx file file'' where
  bucket b other ptr found := second.bucket b other ptr (first.bucket b other ptr found)
  missing b other none ptr found := by
    cases middle : file'.hashTbl b with
    | none => exact second.missing b other middle ptr found
    | some old =>
      have same := second.bucket b other old middle
      rw [found] at same
      cases same
      exact first.missing b other none ptr middle
  entry idx e found other := second.entry idx e (first.entry idx e found other) other

theorem setBucket_same (ptr : HashPtr) : (file.setBucket bucketIdx ptr).hashTbl bucketIdx = some ptr := by
  simp only [CacheEntry.hashTbl,CacheEntry.setBucket,Function.update_self,Option.map_some]

theorem setBucket_other {b : Nat} (ptr : HashPtr) (apart : b ≠ bucketIdx) : (file.setBucket bucketIdx ptr).hashTbl b =
    if b / 64 = bucketIdx / 64 then some ((file.hashTbl b).getD ⟨.eof,0⟩) else file.hashTbl b := by
  simp only [CacheEntry.hashTbl,CacheEntry.setBucket]
  split
  · next array =>
    have slot : b % 64 ≠ bucketIdx % 64 := by omega
    rw [array,Function.update_self,Option.map_some,Function.update_of_ne slot]
    cases file.hashTblArray (bucketIdx / 64) with
    | none => rfl
    | some old => rfl
  · next array => rw [Function.update_of_ne array]

theorem kept_setBucket (ptr : HashPtr) : Kept bucketIdx file (file.setBucket bucketIdx ptr) where
  bucket b other old found := by
    rw [setBucket_other ptr other]
    split
    · rw [found,Option.getD_some]
    · exact found
  missing b other none new found := by
    rw [setBucket_other ptr other] at found
    split at found
    · rw [none,Option.getD_none] at found
      cases found
      rfl
    · cases none.symm.trans found
  entry _ _ found _ := found

theorem setNext_same {idx : Nat} {e : HashEntry} (next : HashPtr → HashPtr) (found : file.hashEntry idx = some e) :
    (file.setNext idx next).hashEntry idx = some { e with next := next e.next } := by
  simp only [CacheEntry.setNext,Function.update_self,found,Option.map_some]

theorem setNext_other {idx other : Nat} (next : HashPtr → HashPtr) (apart : other ≠ idx) :
    (file.setNext idx next).hashEntry other = file.hashEntry other := by
  simp only [CacheEntry.setNext,Function.update_of_ne apart]

theorem kept_setNext {idx : Nat} (next : HashPtr → HashPtr) (own : ∀ e, file.hashEntry idx = some e → e.bucketIdx = bucketIdx) :
    Kept bucketIdx file (file.setNext idx next) where
  bucket _ _ _ found := found
  missing _ _ none _ found := absurd (none.symm.trans found) (by simp)
  entry other e found foreign := by
    have apart : other ≠ idx := by
      intro same
      subst same
      exact foreign (own e found)
    rw [setNext_other next apart,found]

/-- The entries lead from one to the next, and the last one to `ptr`. -/
def Linked (file : CacheEntry) : List Nat → HashPtr → Prop
  | [], _ => True
  | [idx], ptr => ∃ e, file.hashEntry idx = some e ∧ e.next = ptr
  | idx :: idx' :: rest, ptr =>
    (∃ e, file.hashEntry idx = some e ∧ e.next = ⟨.here,BitVec.ofNat 10 idx'⟩) ∧ Linked file (idx' :: rest) ptr

theorem Linked.frame {tab : List Nat} {ptr : HashPtr} (linked : Linked file tab ptr)
    (same : ∀ idx ∈ tab, file'.hashEntry idx = file.hashEntry idx) : Linked file' tab ptr := by
  induction tab with
  | nil => trivial
  | cons idx rest ih =>
    have here := same idx List.mem_cons_self
    cases rest with
    | nil => rwa [Linked,here]
    | cons idx' rest =>
      rw [Linked,here]
      exact ⟨linked.1,ih linked.2 fun other member => same other (List.mem_cons_of_mem _ member)⟩

/-- The entries of the list are there, and they belong to the bucket. -/
def Owned (bucketIdx : Nat) (file : CacheEntry) (tab : List Nat) : Prop :=
  ∀ idx ∈ tab, ∃ e, file.hashEntry idx = some e ∧ e.bucketIdx = bucketIdx

theorem Owned.setNext {tab : List Nat} (owned : Owned bucketIdx file tab) (idx : Nat) (next : HashPtr → HashPtr) :
    Owned bucketIdx (file.setNext idx next) tab := by
  intro other member
  obtain ⟨e,found,bucket⟩ := owned other member
  by_cases same : other = idx
  · subst same
    exact ⟨_,setNext_same next found,bucket⟩
  · exact ⟨e,(setNext_other next same).trans found,bucket⟩

theorem Owned.kept_setNext {tab : List Nat} {idx : Nat} (owned : Owned bucketIdx file tab) (member : idx ∈ tab)
    (next : HashPtr → HashPtr) : Kept bucketIdx file (file.setNext idx next) := by
  obtain ⟨e,found,bucket⟩ := owned idx member
  apply DirentRepair.kept_setNext
  intro e' found'
  cases found.symm.trans found'
  exact bucket

theorem relink_hashTbl (tab : List Nat) (file : CacheEntry) (b : Nat) : (CacheEntry.relink tab file).hashTbl b = file.hashTbl b := by
  fun_induction CacheEntry.relink tab file with
  | case1 file => rfl
  | case2 idx file => rfl
  | case3 idx idx' rest file ih => exact ih

theorem relink_other (tab : List Nat) (file : CacheEntry) {other : Nat} (outside : other ∉ tab) :
    (CacheEntry.relink tab file).hashEntry other = file.hashEntry other := by
  fun_induction CacheEntry.relink tab file with
  | case1 file => rfl
  | case2 idx file => exact setNext_other _ (List.ne_of_not_mem_cons outside)
  | case3 idx idx' rest file ih =>
    rw [ih (List.not_mem_of_not_mem_cons outside)]
    exact setNext_other _ (List.ne_of_not_mem_cons outside)

theorem Owned.relink {other : List Nat} (owned : Owned bucketIdx file other) (tab : List Nat) :
    Owned bucketIdx (CacheEntry.relink tab file) other := by
  fun_induction CacheEntry.relink tab file with
  | case1 file => exact owned
  | case2 idx file => exact owned.setNext idx _
  | case3 idx idx' rest file ih => exact ih (owned.setNext idx _)

theorem kept_relink (tab : List Nat) (owned : Owned bucketIdx file tab) : Kept bucketIdx file (CacheEntry.relink tab file) := by
  fun_induction CacheEntry.relink tab file with
  | case1 file => exact .refl
  | case2 idx file => exact owned.kept_setNext List.mem_cons_self _
  | case3 idx idx' rest file ih =>
    apply (owned.kept_setNext List.mem_cons_self _).trans
    exact ih fun other member => owned.setNext idx _ other (List.mem_cons_of_mem _ member)

theorem relink_linked (tab : List Nat) (file : CacheEntry) (owned : Owned bucketIdx file tab) (once : tab.Nodup) :
    ∃ ptr, Linked (CacheEntry.relink tab file) tab ptr := by
  fun_induction CacheEntry.relink tab file with
  | case1 file => exact ⟨⟨.eof,0⟩,trivial⟩
  | case2 idx file =>
    obtain ⟨e,found,_⟩ := owned idx List.mem_cons_self
    exact ⟨_,_,setNext_same _ found,rfl⟩
  | case3 idx idx' rest file ih =>
    obtain ⟨outside,once⟩ := List.nodup_cons.mp once
    obtain ⟨e,found,_⟩ := owned idx List.mem_cons_self
    obtain ⟨ptr,linked⟩ := ih (fun other member => owned.setNext idx _ other (List.mem_cons_of_mem _ member)) once
    exact ⟨ptr,⟨_,(relink_other _ _ outside).trans (setNext_same _ found),rfl⟩,linked⟩

/-- A linked list whose last entry is changed. -/
theorem Linked.setNext_last {tab : List Nat} {ptr : HashPtr} {last : Nat} (linked : Linked file tab ptr) (once : tab.Nodup)
    (end_ : tab.getLast? = some last) (new : HashPtr) : Linked (file.setNext last fun _ => new) tab new := by
  induction tab with
  | nil => trivial
  | cons idx rest ih =>
    cases rest with
    | nil =>
      cases end_
      obtain ⟨e,found,_⟩ := linked
      exact ⟨_,setNext_same _ found,rfl⟩
    | cons idx' rest =>
      obtain ⟨outside,once⟩ := List.nodup_cons.mp once
      rw [List.getLast?_cons_cons] at end_
      refine ⟨?_,ih linked.2 once end_⟩
      have apart : idx ≠ last := by
        intro same
        subst same
        exact outside (List.mem_of_getLast? end_)
      rw [setNext_other _ apart]
      exact linked.1

/-- A file that leads from its bucket through the entries of the list to `ptr`. -/
def Leads (bucketIdx : Nat) (file : CacheEntry) (tab : List Nat) (ptr : HashPtr) : Prop :=
  match tab with
  | [] => file.hashTbl bucketIdx = some ptr
  | first :: _ => file.hashTbl bucketIdx = some ⟨.here,BitVec.ofNat 10 first⟩ ∧ Linked file tab ptr

/-- A file that is repaired: only the pointer at its end is not known. -/
structure Ready (bucketIdx : Nat) (file : CacheEntry) (tab : List Nat) : Prop where
  once : tab.Nodup
  owned : Owned bucketIdx file tab
  leads : tab ≠ [] → ∃ ptr, Leads bucketIdx file tab ptr

theorem owned_listTab : Owned bucketIdx file (file.listTab bucketIdx) := by
  intro idx member
  obtain ⟨_,_,e,found,bucket,_⟩ := mem_listTab.mp member
  exact ⟨e,found,bucket⟩

/-- What the repair of one file makes of it. -/
theorem repairForBucketIdx_spec (isRoot : Bool) (bucketIdx : Nat) (file : CacheEntry) :
    Ready bucketIdx (file.repairForBucketIdx isRoot bucketIdx).1 (file.listTab bucketIdx) ∧
    Kept bucketIdx file (file.repairForBucketIdx isRoot bucketIdx).1 ∧
    (file.repairForBucketIdx isRoot bucketIdx).2 = (file.listTab bucketIdx).getLast? := by
  have owned : Owned bucketIdx file (file.listTab bucketIdx) := owned_listTab
  have once : (file.listTab bucketIdx).Nodup := nodup_listTab
  rw [CacheEntry.repairForBucketIdx]
  cases tab : file.listTab bucketIdx with
  | nil =>
    have ready : ∀ file : CacheEntry, Ready bucketIdx file [] := fun file =>
      ⟨List.nodup_nil,fun _ member => absurd member List.not_mem_nil,fun some => absurd rfl some⟩
    simp only
    cases file.hashTbl bucketIdx with
    | none => exact ⟨ready _,.refl,rfl⟩
    | some ptr =>
      refine ⟨ready _,?_,rfl⟩
      simp only
      split
      · exact kept_setBucket _
      · exact .refl
  | cons first rest =>
    rw [tab] at owned once
    have owned' : Owned bucketIdx (file.setBucket bucketIdx ⟨.here,BitVec.ofNat 10 first⟩) (first :: rest) := owned
    refine ⟨⟨once,owned'.relink _,fun _ => ?_⟩,(kept_setBucket _).trans (kept_relink _ owned'),rfl⟩
    obtain ⟨ptr,linked⟩ := relink_linked _ _ owned' once
    exact ⟨ptr,(relink_hashTbl _ _ _).trans (setBucket_same _),linked⟩

end Files

section States
variable {st st' st'' : Dirent} {bucketIdx : Nat} {file file' : CacheEntry}

theorem file_setFile (st : Dirent) (file : CacheEntry) (x y : Option Nat) :
    (st.setFile file x).file y = if y = x then some file else st.file y := by
  cases x with
  | none =>
    cases y with
    | none => rfl
    | some c => rfl
  | some c =>
    cases y with
    | none => rfl
    | some d =>
      by_cases same : d = c
      · subst same
        simp [Dirent.setFile,Dirent.file]
      · simp [Dirent.setFile,Dirent.file,same]

/-- Each file is kept, for the other buckets. -/
def AllKept (bucketIdx : Nat) (st st' : Dirent) : Prop :=
  ∀ x file, st.file x = some file → ∃ file', st'.file x = some file' ∧ Kept bucketIdx file file'

theorem AllKept.refl : AllKept bucketIdx st st := fun _ file found => ⟨file,found,.refl⟩

theorem AllKept.trans (first : AllKept bucketIdx st st') (second : AllKept bucketIdx st' st'') : AllKept bucketIdx st st'' := by
  intro x file found
  obtain ⟨file',found',kept⟩ := first x file found
  obtain ⟨file'',found'',kept'⟩ := second x file' found'
  exact ⟨file'',found'',kept.trans kept'⟩

theorem allKept_setFile {x : Option Nat} (found : st.file x = some file) (kept : Kept bucketIdx file file') :
    AllKept bucketIdx st (st.setFile file' x) := by
  intro y old found'
  rw [file_setFile]
  split
  · next same =>
    subst same
    cases found.symm.trans found'
    exact ⟨file',rfl,kept⟩
  · exact ⟨old,found',.refl⟩

/-- A file of the rescue table with the entries of its list. -/
def rescueOf (row : Option Nat × List Nat) : Rescue := ⟨row.1,row.2.getLast?⟩

/-- The end of a file that is repaired is set. -/
theorem setEnd_spec {row : Option Nat × List Nat} (found : st.file row.1 = some file) (ready : Ready bucketIdx file row.2)
    (ptr : HashPtr) : ∃ file', st.setEnd bucketIdx (rescueOf row) ptr = st.setFile file' row.1 ∧
      Leads bucketIdx file' row.2 ptr ∧ Kept bucketIdx file file' := by
  obtain ⟨x,tab⟩ := row
  simp only [Dirent.setEnd,rescueOf,found]
  cases tab with
  | nil => exact ⟨_,rfl,setBucket_same ptr,kept_setBucket ptr⟩
  | cons first rest =>
    obtain ⟨old,bucket,linked⟩ := ready.leads (List.cons_ne_nil _ _)
    have last := List.getLast?_eq_some_getLast (List.cons_ne_nil first rest)
    rw [last]
    exact ⟨_,rfl,⟨bucket,linked.setNext_last ready.once last ptr⟩,
      ready.owned.kept_setNext (List.getLast_mem (List.cons_ne_nil first rest)) _⟩

/-- An entry is gone through, and then the list at its pointer. -/
theorem visits_entry {x : Option Nat} {idx : Nat} {e : HashEntry} {list : List (Option Nat × Nat)} {final : Option HashPtr}
    (found : st.file x = some file) (low : idx < 384) (entry : file.hashEntry idx = some e)
    (rest : Visits st bucketIdx x (some e.next) list final) :
    Visits st bucketIdx x (some ⟨.here,BitVec.ofNat 10 idx⟩) ((x,idx) :: list) final := by
  have same : (BitVec.ofNat 10 idx).toNat = idx := by
    rw [BitVec.toNat_ofNat]
    omega
  have step : Visits st bucketIdx x (some ⟨.here,BitVec.ofNat 10 idx⟩) ((x,(BitVec.ofNat 10 idx).toNat) :: list) final :=
    .here rfl found (same.symm ▸ entry) rest
  rwa [same] at step

/-- A file that leads to a pointer is gone through before the list at that pointer. -/
theorem Leads.visits {x : Option Nat} {tab : List Nat} {ptr : HashPtr} {list : List (Option Nat × Nat)} {final : Option HashPtr}
    (leads : Leads bucketIdx file tab ptr) (found : st.file x = some file) (small : ∀ idx ∈ tab, idx < 384)
    (rest : Visits st bucketIdx x (some ptr) list final) :
    Visits st bucketIdx x (file.hashTbl bucketIdx) (tab.map (fun idx => (x,idx)) ++ list) final := by
  cases tab with
  | nil =>
    rw [show file.hashTbl bucketIdx = some ptr from leads]
    exact rest
  | cons first others =>
    obtain ⟨bucket,linked⟩ := leads
    rw [bucket]
    clear bucket
    induction others generalizing first with
    | nil =>
      obtain ⟨e,entry,next⟩ := linked
      rw [← next] at rest
      exact visits_entry found (small first List.mem_cons_self) entry rest
    | cons second others ih =>
      obtain ⟨⟨e,entry,next⟩,linked⟩ := linked
      have after := ih second (fun idx member => small idx (List.mem_cons_of_mem _ member)) linked
      rw [← next] at after
      exact visits_entry found (small first List.mem_cons_self) entry after

theorem file_setEnd {row : Option Nat × List Nat} {y : Option Nat} (ptr : HashPtr) (apart : y ≠ row.1) :
    (st.setEnd bucketIdx (rescueOf row) ptr).file y = st.file y := by
  rw [Dirent.setEnd]
  split
  · rfl
  · split
    · exact (file_setFile st _ row.1 y).trans (if_neg apart)
    · exact (file_setFile st _ row.1 y).trans (if_neg apart)

theorem file_chain {rows : List (Option Nat × List Nat)} {y : Option Nat} (apart : y ∉ rows.map Prod.fst) :
    (st.chain bucketIdx (rows.map rescueOf)).file y = st.file y := by
  induction rows generalizing st with
  | nil => rfl
  | cons row rest ih =>
    obtain ⟨here,away⟩ := not_or.mp (mt List.mem_cons.mpr apart)
    cases rest with
    | nil => exact file_setEnd _ here
    | cons next rest => exact (ih away).trans (file_setEnd _ here)

/-- Collision files whose index fits in a pointer. -/
def Fit (rows : List (Option Nat × List Nat)) : Prop := ∀ row ∈ rows, ∃ collIdx, row.1 = some collIdx ∧ collIdx < 1024

/-- The list through the files of the rescue table, after they were chained. -/
theorem chain_spec {row : Option Nat × List Nat} {rows : List (Option Nat × List Nat)}
    (apart : ((row :: rows).map Prod.fst).Nodup)
    (ready : ∀ r ∈ row :: rows, ∃ file, st.file r.1 = some file ∧ Ready bucketIdx file r.2)
    (small : ∀ r ∈ row :: rows, ∀ idx ∈ r.2, idx < 384) :
    AllKept bucketIdx st (st.chain bucketIdx ((row :: rows).map rescueOf)) ∧
    (Fit rows → ∃ file, (st.chain bucketIdx ((row :: rows).map rescueOf)).file row.1 = some file ∧
      Visits (st.chain bucketIdx ((row :: rows).map rescueOf)) bucketIdx row.1 (file.hashTbl bucketIdx)
        ((row :: rows).flatMap fun r => r.2.map fun idx => (r.1,idx)) (some ⟨.eof,0⟩)) := by
  induction rows generalizing row st with
  | nil =>
    obtain ⟨file,found,readyHere⟩ := ready row List.mem_cons_self
    obtain ⟨file',call,leads,kept⟩ := setEnd_spec found readyHere ⟨.eof,0⟩
    simp only [List.map_cons,List.map_nil,Dirent.chain,call,List.flatMap_cons,List.flatMap_nil]
    refine ⟨allKept_setFile found kept,fun _ => ⟨file',?_,?_⟩⟩
    · rw [file_setFile,if_pos rfl]
    · apply leads.visits _ (small row List.mem_cons_self) (.eof rfl)
      rw [file_setFile,if_pos rfl]
  | cons next rest ih =>
    obtain ⟨file,found,readyHere⟩ := ready row List.mem_cons_self
    obtain ⟨file',call,leads,kept⟩ := setEnd_spec found readyHere ⟨.coll,BitVec.ofNat 10 (next.1.getD 0)⟩
    obtain ⟨away,apart⟩ := List.nodup_cons.mp apart
    have step : st.chain bucketIdx ((row :: next :: rest).map rescueOf) =
        (st.setFile file' row.1).chain bucketIdx ((next :: rest).map rescueOf) := by
      rw [← call]
      rfl
    have readyAfter : ∀ r ∈ next :: rest, ∃ file, (st.setFile file' row.1).file r.1 = some file ∧ Ready bucketIdx file r.2 := by
      intro r member
      have other : r.1 ≠ row.1 := fun same => away (same ▸ List.mem_map_of_mem member)
      rw [file_setFile,if_neg other]
      exact ready r (List.mem_cons_of_mem _ member)
    obtain ⟨allKept,visits⟩ := ih apart readyAfter fun r member => small r (List.mem_cons_of_mem _ member)
    rw [step]
    refine ⟨(allKept_setFile found kept).trans allKept,fun fit => ?_⟩
    obtain ⟨entry,loaded,after⟩ := visits fun r member => fit r (List.mem_cons_of_mem _ member)
    obtain ⟨collIdx,own,low⟩ := fit next List.mem_cons_self
    have here : ((st.setFile file' row.1).chain bucketIdx ((next :: rest).map rescueOf)).file row.1 = some file' := by
      rw [file_chain away,file_setFile,if_pos rfl]
    refine ⟨file',here,?_⟩
    rw [List.flatMap_cons]
    apply leads.visits here (small row List.mem_cons_self)
    have index : (BitVec.ofNat 10 (next.1.getD 0)).toNat = collIdx := by
      rw [own,Option.getD_some,BitVec.toNat_ofNat]
      omega
    rw [own] at loaded after
    rw [← index] at loaded after
    exact Visits.coll rfl loaded after

/-- The row of a collision file, when it has entries of the bucket. -/
def rowOf (bucketIdx : Nat) (st : Dirent) (collIdx : Nat) : Option (Option Nat × List Nat) :=
  (st.coll collIdx).bind fun file =>
    if file.listTab bucketIdx = [] then none else some (some collIdx,file.listTab bucketIdx)

theorem rowOf_eq_some {collIdx : Nat} {row : Option Nat × List Nat} : rowOf bucketIdx st collIdx = some row ↔
    ∃ file, st.coll collIdx = some file ∧ file.listTab bucketIdx ≠ [] ∧ row = (some collIdx,file.listTab bucketIdx) := by
  simp only [rowOf,Option.bind_eq_some_iff,Option.ite_none_left_eq_some,Option.some.injEq,ne_eq]
  exact exists_congr fun file => and_congr_right fun _ => and_congr_right fun _ => eq_comm

/-- The loop over the collision files. -/
theorem repairColls_spec (colls : List Nat) (once : colls.Nodup) (st : Dirent) :
    (Dirent.repairColls bucketIdx colls st).2 = (colls.filterMap (rowOf bucketIdx st)).map rescueOf ∧
    AllKept bucketIdx st (Dirent.repairColls bucketIdx colls st).1 ∧
    (∀ x, (∀ collIdx ∈ colls, x ≠ some collIdx) → (Dirent.repairColls bucketIdx colls st).1.file x = st.file x) ∧
    ∀ collIdx ∈ colls, ∀ file, st.coll collIdx = some file →
      (Dirent.repairColls bucketIdx colls st).1.file (some collIdx) = some (file.repairForBucketIdx false bucketIdx).1 := by
  induction colls generalizing st with
  | nil => exact ⟨rfl,.refl,fun _ _ => rfl,fun _ member => absurd member List.not_mem_nil⟩
  | cons collIdx rest ih =>
    obtain ⟨outside,once⟩ := List.nodup_cons.mp once
    cases found : st.coll collIdx with
    | none =>
      have row : rowOf bucketIdx st collIdx = none := by rw [rowOf,found,Option.bind_none]
      simp only [Dirent.repairColls,found,List.filterMap_cons,row]
      obtain ⟨table,kept,others,repaired⟩ := ih once st
      refine ⟨table,kept,fun x apart => others x fun c member => apart c (List.mem_cons_of_mem _ member),?_⟩
      intro c member file loaded
      obtain rfl | member := List.mem_cons.mp member
      · cases found.symm.trans loaded
      · exact repaired c member file loaded
    | some file =>
      simp only [Dirent.repairColls,found,List.filterMap_cons]
      obtain ⟨ready,keptHere,last⟩ := repairForBucketIdx_spec false bucketIdx file
      cases outcome : file.repairForBucketIdx false bucketIdx with | mk file' end_ =>
      simp only [outcome] at keptHere last
      obtain ⟨table,kept,others,repaired⟩ := ih once (st.setFile file' (some collIdx))
      have same : ∀ c ∈ rest, (st.setFile file' (some collIdx)).coll c = st.coll c := by
        intro c member
        have apart : (some c : Option Nat) ≠ some collIdx := by
          intro same
          cases same
          exact outside member
        exact (file_setFile st file' (some collIdx) (some c)).trans (if_neg apart)
      have rows : rest.filterMap (rowOf bucketIdx (st.setFile file' (some collIdx))) = rest.filterMap (rowOf bucketIdx st) := by
        apply List.filterMap_congr
        intro c member
        rw [rowOf,rowOf,same c member]
      have loaded : st.file (some collIdx) = some file := found
      refine ⟨?_,(allKept_setFile loaded keptHere).trans kept,?_,?_⟩
      · rw [table,rows]
        by_cases empty : file.listTab bucketIdx = []
        · have row : rowOf bucketIdx st collIdx = none := by rw [rowOf,found,Option.bind_some,if_pos empty]
          have none : end_ = none := by rw [last,empty,List.getLast?_nil]
          rw [row,if_pos none]
        · have row : rowOf bucketIdx st collIdx = some (some collIdx,file.listTab bucketIdx) := by
            rw [rowOf,found,Option.bind_some,if_neg empty]
          have some : ¬end_ = none := by
            intro none
            rw [none] at last
            exact empty (List.getLast?_eq_none_iff.mp last.symm)
          rw [row,if_neg some,List.map_cons,rescueOf,last]
      · intro x apart
        rw [others x fun c member => apart c (List.mem_cons_of_mem _ member),file_setFile,if_neg (apart collIdx List.mem_cons_self)]
      · intro c member old read
        obtain rfl | member := List.mem_cons.mp member
        · have away : ∀ d ∈ rest, (some c : Option Nat) ≠ some d := by
            intro d member same
            cases same
            exact outside member
          have own : old = file := Option.some.inj (read.symm.trans found)
          rw [own,outcome,others (some c) away,file_setFile,if_pos rfl]
        · exact repaired c member old ((same c member).trans read)

/-- The other lists are kept. -/
theorem Visits.kept {b : Nat} {x : Option Nat} {ptr ptr' : Option HashPtr} {list : List (Option Nat × Nat)} {final : Option HashPtr}
    (visits : Visits st b x ptr list final) (kept : AllKept bucketIdx st st') (other : b ≠ bucketIdx)
    (own : ∀ place ∈ list, ∃ file e, st.file place.1 = some file ∧ file.hashEntry place.2 = some e ∧ e.bucketIdx = b)
    (same : ptr' = ptr ∨ ptr = none ∧ ∃ new, ptr' = some new ∧ new.type = .eof) : ∃ final', Visits st' b x ptr' list final' := by
  induction visits generalizing ptr' with
  | missing =>
    obtain rfl | ⟨_,new,rfl,end_⟩ := same
    · exact ⟨none,.missing⟩
    · exact ⟨some new,.eof end_⟩
  | eof last =>
    obtain rfl | ⟨none,_⟩ := same
    · exact ⟨_,.eof last⟩
    · cases none
  | @here x entry e list final p type found hash rest ih =>
    obtain rfl | ⟨none,_⟩ := same
    · obtain ⟨entry',found',keptHere⟩ := kept x entry found
      obtain ⟨entry2,e2,found2,hash2,bucket⟩ := own _ List.mem_cons_self
      cases found.symm.trans found2
      cases hash.symm.trans hash2
      have foreign : e.bucketIdx ≠ bucketIdx := by
        rw [bucket]
        exact other
      obtain ⟨final',rest'⟩ := ih (fun place member => own place (List.mem_cons_of_mem _ member)) (.inl rfl)
      exact ⟨final',.here type found' (keptHere.entry _ e hash foreign) rest'⟩
    · cases none
  | @coll entry list final x p type found rest ih =>
    obtain rfl | ⟨none,_⟩ := same
    · obtain ⟨entry',found',keptHere⟩ := kept (some p.idx.toNat) entry found
      have bucket : entry'.hashTbl b = entry.hashTbl b ∨
          entry.hashTbl b = none ∧ ∃ new, entry'.hashTbl b = some new ∧ new.type = .eof := by
        cases old : entry.hashTbl b with
        | some ptr => exact .inl (keptHere.bucket b other ptr old)
        | none =>
          cases new : entry'.hashTbl b with
          | none => exact .inl rfl
          | some ptr => exact .inr ⟨rfl,ptr,rfl,keptHere.missing b other old ptr new⟩
      obtain ⟨final',rest'⟩ := ih own bucket
      exact ⟨final',.coll type found' rest'⟩
    · cases none

/-- A pointer leads to the first 1024 collision files only. -/
theorem Visits.low {x : Option Nat} {ptr : Option HashPtr} {list : List (Option Nat × Nat)} {final : Option HashPtr}
    (visits : Visits st bucketIdx x ptr list final) (here : ∀ collIdx, x = some collIdx → collIdx < 1024) :
    ∀ place ∈ list, ∀ collIdx, place.1 = some collIdx → collIdx < 1024 := by
  induction visits with
  | missing => exact fun _ member => absurd member List.not_mem_nil
  | eof last => exact fun _ member => absurd member List.not_mem_nil
  | here type found hash rest ih => exact List.forall_mem_cons.mpr ⟨here,ih here⟩
  | coll type found rest ih =>
    apply ih
    intro collIdx same
    cases same
    exact BitVec.isLt _

/-- The collision files of the bitmap. -/
def collFiles (st : Dirent) : List Nat := others true st.collBitmap 2048 2049 0

theorem mem_collFiles {collIdx : Nat} : collIdx ∈ collFiles st ↔ collIdx < 2048 ∧ test st.collBitmap collIdx = false := by
  rw [collFiles,Bitmap.others_eq (by decide) 2049 0 (by decide)]
  simp

theorem nodup_collFiles : (collFiles st).Nodup := by
  rw [collFiles,Bitmap.others_eq (by decide) 2049 0 (by decide)]
  exact (List.nodup_range' _).filter _

/-- The files of the list of a bucket, with their entries. -/
def rowsOf (bucketIdx : Nat) (st : Dirent) : List (Option Nat × List Nat) :=
  (none,st.root.listTab bucketIdx) :: (collFiles st).filterMap (rowOf bucketIdx st)

def placesOf (rows : List (Option Nat × List Nat)) : List (Option Nat × Nat) := rows.flatMap fun r => r.2.map fun idx => (r.1,idx)

theorem mem_rowsOf {row : Option Nat × List Nat} : row ∈ rowsOf bucketIdx st ↔ row = (none,st.root.listTab bucketIdx) ∨
    ∃ collIdx ∈ collFiles st, ∃ file, st.coll collIdx = some file ∧ file.listTab bucketIdx ≠ [] ∧
      row = (some collIdx,file.listTab bucketIdx) := by
  simp only [rowsOf,List.mem_cons,List.mem_filterMap,rowOf_eq_some]

theorem mem_placesOf {place : Option Nat × Nat} : place ∈ placesOf (rowsOf bucketIdx st) ↔ Member st bucketIdx place := by
  obtain ⟨x,idx⟩ := place
  simp only [placesOf,List.mem_flatMap,List.mem_map,Prod.mk.injEq,mem_rowsOf,Member,exists_eq_right_right]
  constructor
  · rintro ⟨row,rfl | ⟨collIdx,listed,file,loaded,_,rfl⟩,member,rfl⟩
    · exact ⟨fun _ none => absurd none (by simp),st.root,(mem_listTab.mp member).2.2.choose,rfl,(mem_listTab.mp member).1,
        (mem_listTab.mp member).2.1,(mem_listTab.mp member).2.2.choose_spec⟩
    · obtain ⟨low,busy,e,entry⟩ := mem_listTab.mp member
      refine ⟨?_,file,e,loaded,low,busy,entry⟩
      intro c same
      cases same
      exact mem_collFiles.mp listed
  · rintro ⟨listed,file,e,loaded,low,busy,entry⟩
    have member : idx ∈ file.listTab bucketIdx := mem_listTab.mpr ⟨low,busy,e,entry⟩
    cases x with
    | none =>
      cases loaded
      exact ⟨_,.inl rfl,member,rfl⟩
    | some collIdx =>
      exact ⟨_,.inr ⟨collIdx,mem_collFiles.mpr (listed collIdx rfl),file,loaded,List.ne_nil_of_mem member,rfl⟩,member,rfl⟩

/-- Each file of the list is there once. -/
theorem nodup_files : ((rowsOf bucketIdx st).map Prod.fst).Nodup := by
  have own : ∀ collIdx x, x ∈ (rowOf bucketIdx st collIdx).map Prod.fst → x = some collIdx := by
    intro collIdx x member
    obtain ⟨row,found,rfl⟩ := Option.map_eq_some_iff.mp member
    obtain ⟨file,_,_,rfl⟩ := rowOf_eq_some.mp found
    rfl
  rw [rowsOf,List.map_cons,List.map_filterMap,List.nodup_cons]
  constructor
  · intro member
    obtain ⟨collIdx,_,found⟩ := List.mem_filterMap.mp member
    cases own collIdx none found
  · apply nodup_collFiles.filterMap
    intro c c' x first second
    exact Option.some.inj ((own c x first).symm.trans (own c' x second))

theorem nodup_placesOf : (placesOf (rowsOf bucketIdx st)).Nodup := by
  rw [placesOf,List.nodup_flatMap]
  constructor
  · intro row member
    have once : row.2.Nodup := by
      obtain rfl | ⟨collIdx,_,file,_,_,rfl⟩ := mem_rowsOf.mp member
      · exact nodup_listTab
      · exact nodup_listTab
    exact once.map fun idx idx' same => (Prod.mk.inj same).2
  · apply (List.pairwise_map.mp (nodup_files : ((rowsOf bucketIdx st).map Prod.fst).Nodup)).imp
    intro row row' apart place first second
    obtain ⟨idx,_,rfl⟩ := List.mem_map.mp first
    obtain ⟨idx',_,same⟩ := List.mem_map.mp second
    exact apart (Prod.mk.inj same).1.symm

theorem small_rowsOf : ∀ row ∈ rowsOf bucketIdx st, ∀ idx ∈ row.2, idx < 384 := by
  intro row member idx listed
  obtain rfl | ⟨collIdx,_,file,_,_,rfl⟩ := mem_rowsOf.mp member
  · exact (mem_listTab.mp listed).1
  · exact (mem_listTab.mp listed).1

/-- What the repair leaves, and the list of the bucket when the pointers can hold the indexes. -/
theorem direntFileRepair_spec (bucketIdx : Nat) (st : Dirent) : AllKept bucketIdx st (st.direntFileRepair bucketIdx) ∧
    (Fit ((collFiles st).filterMap (rowOf bucketIdx st)) →
      BucketList (st.direntFileRepair bucketIdx) bucketIdx (placesOf (rowsOf bucketIdx st)) (some ⟨.eof,0⟩)) := by
  obtain ⟨ready,kept,last⟩ := repairForBucketIdx_spec true bucketIdx st.root
  have first : AllKept bucketIdx st (st.setFile (st.root.repairForBucketIdx true bucketIdx).1 none) := allKept_setFile rfl kept
  obtain ⟨table,second,others,repaired⟩ := @repairColls_spec bucketIdx (collFiles st) nodup_collFiles
    (st.setFile (st.root.repairForBucketIdx true bucketIdx).1 none)
  have call : st.direntFileRepair bucketIdx =
      (Dirent.repairColls bucketIdx (collFiles st) (st.setFile (st.root.repairForBucketIdx true bucketIdx).1 none)).1.chain bucketIdx
        ((rowsOf bucketIdx st).map rescueOf) := by
    rw [rowsOf,List.map_cons,rescueOf,← last]
    exact congrArg (fun table => Dirent.chain bucketIdx (_ :: table) _) table
  have readyAll : ∀ row ∈ rowsOf bucketIdx st, ∃ file,
      (Dirent.repairColls bucketIdx (collFiles st) (st.setFile (st.root.repairForBucketIdx true bucketIdx).1 none)).1.file row.1 =
        some file ∧ Ready bucketIdx file row.2 := by
    intro row member
    obtain rfl | ⟨collIdx,listed,file,loaded,_,rfl⟩ := mem_rowsOf.mp member
    · exact ⟨_,others none fun _ _ => by simp,ready⟩
    · exact ⟨_,repaired collIdx listed file loaded,(repairForBucketIdx_spec false bucketIdx file).1⟩
  obtain ⟨third,visits⟩ := chain_spec nodup_files readyAll small_rowsOf
  rw [call]
  refine ⟨(first.trans second).trans third,fun fit => ?_⟩
  obtain ⟨file,found,visits⟩ := visits fit
  cases found
  exact visits

/-- The list is repaired exactly when the entries of the bucket are in collision files whose index fits in a
pointer. -/
theorem dirent_repaired (bucketIdx : Nat) (st : Dirent) : Repaired bucketIdx st (st.direntFileRepair bucketIdx) ↔
    ∀ place, Member st bucketIdx place → ∀ collIdx, place.1 = some collIdx → collIdx < 1024 := by
  obtain ⟨kept,visits⟩ := direntFileRepair_spec bucketIdx st
  constructor
  · intro repaired place member collIdx own
    obtain ⟨list,ptr,visits,_,members⟩ := repaired.list
    exact visits.low (fun _ none => absurd none (by simp)) place ((members place).mpr member) collIdx own
  · intro low
    have fit : Fit ((collFiles st).filterMap (rowOf bucketIdx st)) := by
      intro row member
      obtain ⟨collIdx,listed,found⟩ := List.mem_filterMap.mp member
      obtain ⟨file,loaded,filled,rfl⟩ := rowOf_eq_some.mp found
      obtain ⟨idx,entry⟩ := List.exists_mem_of_ne_nil _ filled
      have place : (some collIdx,idx) ∈ placesOf (rowsOf bucketIdx st) :=
        List.mem_flatMap.mpr ⟨_,List.mem_cons_of_mem _ member,List.mem_map.mpr ⟨idx,entry,rfl⟩⟩
      exact ⟨collIdx,rfl,low _ (mem_placesOf.mp place) collIdx rfl⟩
    constructor
    case list => exact ⟨_,_,visits fit,nodup_placesOf,fun _ => mem_placesOf⟩
    case others =>
      intro b other list final bucketList own
      obtain ⟨root,found,keptRoot⟩ := kept none st.root rfl
      cases found
      apply bucketList.kept kept other own
      cases old : st.root.hashTbl b with
      | some ptr => exact .inl (keptRoot.bucket b other ptr old)
      | none =>
        cases new : (st.direntFileRepair bucketIdx).root.hashTbl b with
        | none => exact .inl rfl
        | some ptr => exact .inr ⟨rfl,ptr,rfl,keptRoot.missing b other old ptr new⟩

end States

/-- A file with one entry, of bucket 0. -/
def farFile : CacheEntry where
  hashBitmap byte := if byte = 0 then 0xFE#8 else 0xFF#8
  hashTblArray _ := some fun _ => ⟨.eof,0⟩
  hashEntry _ := some ⟨0,⟨.eof,0⟩⟩

/-- A root file without entries, with collision file 1024. -/
def farEntry : Dirent where
  collBitmap byte := if byte = 128 then 0xFE#8 else 0xFF#8
  root := ⟨fun _ => 0xFF#8,fun _ => none,fun _ => none⟩
  coll collIdx := if collIdx = 1024 then some farFile else none

/-- The pointer to collision file 1024 becomes one to collision file 0. -/
theorem far_entry_lost : ¬Repaired 0 farEntry (farEntry.direntFileRepair 0) := by
  intro repaired
  obtain ⟨list,ptr,visits,_,members⟩ := repaired.list
  have member : Member farEntry 0 (some 1024,0) := by
    refine ⟨fun collIdx same => ?_,farFile,⟨0,⟨.eof,0⟩⟩,rfl,by decide,by decide,rfl,rfl,by decide⟩
    cases same
    decide
  have low := visits.low (fun _ none => absurd none (by simp)) _ ((members _).mpr member) 1024 rfl
  exact absurd low (by decide)

end Rozofs.DirentRepair
