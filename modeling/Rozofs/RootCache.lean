import Rozofs.BitmapScan
import Rozofs.Machine
import Mathlib.Data.List.Nodup

/-! The level 0 cache of `dirent_file.c`, with the root dirent files that are in memory. A bucket
has 256 places, in eight arrays of 32 that are allocated and freed on their own. The LRU lists are
lists, and an entry is the address of a `mdirents_cache_entry_t`, whose key has the FID of the
directory and the index of the root file. -/
namespace Rozofs.RootCache
open Function (update)
open Bitmap (visit setBit clearBit test)

/-- `dirent_cache_bucket_entry_t`. -/
structure EntryArray where
  hashValue : Nat → BitVec 16
  entryPtr : Nat → Option Nat

/-- `dirent_cache_bucket_t`. -/
structure Bucket where
  lru : List Nat
  free : Nat → BitVec 8
  entryTb : Nat → Option EntryArray

/-- `dirent_cache_main_t`, and the keys of the entries. -/
structure Cache (κ : Type) where
  size : Nat
  lru : List Nat
  htable : BitVec 16 → Bucket
  key : Nat → κ

/-- `DIRENT_BUCKET_MAX_COLLISIONS`. -/
def maxCollisions : Nat := 256

/-- `DIRENT_BUCKET_NB_ENTRY_PER_ARRAY`. -/
def entriesPerArray : Nat := 32

/-- `dirent_cache_level0_initialize`. -/
def initial (zero : κ) : Cache κ := ⟨0,[],fun _ => ⟨[],fun _ => 0xFF#8,fun _ => none⟩,fun _ => zero⟩

def EntryArray.zero : EntryArray := ⟨fun _ => 0,fun _ => none⟩

/-- How the loop over the busy places of a bucket ends: at the place of the key, at a busy place
without array, or at a null pointer. -/
inductive Lookup where
  | found (collIdx entry : Nat)
  | noPointer
  | fault

section Cache
variable {κ : Type} [DecidableEq κ] (hash : κ → BitVec 32)

def hashBucket (hash : BitVec 32) : BitVec 16 := (hash >>> 16).setWidth 16 ^^^ hash.setWidth 16

def hashBucketEntry (hash : BitVec 32) : BitVec 16 := hash.setWidth 16

/-- What the loops do at a busy place. -/
def matchPlace (cache : Cache κ) (key : κ) (bucket : Bucket) (collIdx : Nat) : Option Lookup :=
  match bucket.entryTb (collIdx / entriesPerArray) with
  | none => some .noPointer
  | some array =>
    if array.hashValue (collIdx % entriesPerArray) ≠ hashBucketEntry (hash key) then none
    else
      match array.entryPtr (collIdx % entriesPerArray) with
      | none => some .fault
      | some entry => if cache.key entry = key then some (.found collIdx entry) else none

/-- The loop of the search and of the removal. -/
def lookup (key : κ) (cache : Cache κ) : Option Lookup :=
  let bucket := cache.htable (hashBucket (hash key))
  visit true bucket.free maxCollisions (matchPlace hash cache key bucket) maxCollisions 0

/-- An entry goes to the front of both LRU lists. -/
def touch (h : BitVec 16) (entry : Nat) (cache : Cache κ) : Cache κ :=
  { cache with
    lru := entry :: cache.lru.erase entry
    htable := update cache.htable h { cache.htable h with lru := entry :: (cache.htable h).lru.erase entry } }

/-- `dirent_cache_bucket_search_entry`; `none` for a null pointer that is followed. -/
def searchEntry (key : κ) (cache : Cache κ) : Option (Option Nat × Cache κ) :=
  match lookup hash key cache with
  | some (.found _ entry) => some (some entry,touch (hashBucket (hash key)) entry cache)
  | some .fault => none
  | _ => some (none,cache)

/-- The array is freed when these four bytes of the bitmap are all free. -/
def releaseReq (free : Nat → BitVec 8) (array : Nat) : Bool :=
  (List.range (entriesPerArray / 8)).all fun i => free (array + i) = 0xFF#8

/-- The bucket after a place is freed. -/
def Bucket.remove (bucket : Bucket) (collIdx entry : Nat) : Bucket :=
  let array := collIdx / entriesPerArray
  let free := setBit bucket.free collIdx
  let cleared := (bucket.entryTb array).map fun a => { a with hashValue := update a.hashValue (collIdx % entriesPerArray) 0 }
  ⟨bucket.lru.erase entry,free,update bucket.entryTb array (if releaseReq free array then none else cleared)⟩

/-- `dirent_cache_bucket_remove_entry`: whether the entry was there. -/
def removeEntry (key : κ) (cache : Cache κ) : Option (Bool × Cache κ) :=
  let h := hashBucket (hash key)
  match lookup hash key cache with
  | some (.found collIdx entry) =>
    some (true,{ cache with
      size := cache.size - 1
      lru := cache.lru.erase entry
      htable := update cache.htable h ((cache.htable h).remove collIdx entry) })
  | some .fault => none
  | _ => some (false,cache)

/-- The bucket after a place is allocated, and whether there is memory for its array. -/
def Bucket.insert (bucket : Bucket) (memory : Bool) (collIdx : Nat) (hashValue : BitVec 16) (entry : Nat) : Bool × Bucket :=
  let array := collIdx / entriesPerArray
  let free := clearBit bucket.free collIdx
  match (bucket.entryTb array).or (if memory then some .zero else none) with
  | none => (false,{ bucket with free := free })
  | some a =>
    let a := ⟨update a.hashValue (collIdx % entriesPerArray) hashValue,update a.entryPtr (collIdx % entriesPerArray) (some entry)⟩
    (true,⟨entry :: bucket.lru,free,update bucket.entryTb array (some a)⟩)

/-- The first free place of a bucket. -/
def freePlace (bucket : Bucket) : Option Nat := visit false bucket.free maxCollisions some maxCollisions 0

/-- The last entry of an LRU list is removed and released: whether that succeeds. -/
def evictLast (lru : List Nat) (cache : Cache κ) : Option (Bool × List Nat × Cache κ) :=
  match lru.getLast? with
  | none => none
  | some old =>
    (removeEntry hash (cache.key old) cache).map fun result => (result.1,if result.1 then [old] else [],result.2)

/-- The insertion in a bucket. The oldest entry of a full bucket is evicted, and the loop starts again. -/
def insertPlace (memory : Bool) (key : κ) (entry : Nat) : Nat → Cache κ → Option (Bool × List Nat × Cache κ)
  | 0, _ => none
  | n + 1, cache =>
    let h := hashBucket (hash key)
    match freePlace (cache.htable h) with
    | some collIdx =>
      let (done,bucket) := (cache.htable h).insert memory collIdx (hashBucketEntry (hash key)) entry
      let cache := { cache with htable := update cache.htable h bucket }
      some (done,[],if done then { cache with lru := entry :: cache.lru, size := cache.size + 1 } else cache)
    | none =>
      match evictLast hash (cache.htable h).lru cache with
      | none => none
      | some (false,_,cache) => some (false,[],cache)
      | some (true,old,cache) =>
        (insertPlace memory key entry n cache).map fun result => (result.1,old ++ result.2.1,result.2.2)

/-- `dirent_cache_bucket_insert_entry`: whether it succeeds, and the entries that are released. -/
def insertEntry (max : Nat) (memory : Bool) (key : κ) (entry : Nat) (cache : Cache κ) : Option (Bool × List Nat × Cache κ) :=
  if max ≤ cache.size then
    match evictLast hash cache.lru cache with
    | none => none
    | some (false,_,cache) => some (false,[],cache)
    | some (true,old,cache) =>
      (insertPlace hash memory key entry 2 cache).map fun result => (result.1,old ++ result.2.1,result.2.2)
  else insertPlace hash memory key entry 2 cache

/-- The cache, and the keys that were inserted and neither removed nor evicted since, with their entries. -/
structure State (κ : Type) where
  cache : Cache κ
  live : List (κ × Nat)

inductive Action (κ : Type) where
  | insert (key : κ) (entry : Nat) (memory : Bool)
  | search (key : κ)
  | remove (key : κ)

/-- Keys are inserted when they are absent, with an entry that is not in the cache. -/
def step (max : Nat) : Action κ → State κ → Option (State κ)
  | .insert key entry memory, st =>
    if ∀ p ∈ st.live, p.1 ≠ key ∧ p.2 ≠ entry then
      (insertEntry hash max memory key entry { st.cache with key := update st.cache.key entry key }).map fun (done,released,cache) =>
        let live := st.live.filter fun p => p.2 ∉ released
        ⟨cache,if done then (key,entry) :: live else live⟩
    else none
  | .search key, st => (searchEntry hash key st.cache).map fun result => { st with cache := result.2 }
  | .remove key, st => (removeEntry hash key st.cache).map fun result => ⟨result.2,st.live.filter fun p => p.1 ≠ key⟩

end Cache

end Rozofs.RootCache
