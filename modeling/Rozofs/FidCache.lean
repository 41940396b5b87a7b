import Rozofs.Bitmap
import Rozofs.Machine
import Mathlib.Algebra.Order.Ring.Int

/-! The cache of file contexts of a storage, `storio_fid_cache.c`, with the callbacks and callers
of `storio_device_mapping.h`. The hash of a key gives a bucket and, with its next bits, the hash
kept in an entry; a bucket has 32 sub-buckets of 32 entries. The table `lowest1` is read at 0xFF
as it is filled there. -/
namespace Rozofs.FidCache
open Function (update)
open Bitmap (lowest0 ones zeros set clear firstNot test)

/-- `STORIO_FID_CACHE_ENTRY_U`. -/
structure Entry where
  hash : BitVec 14
  index : BitVec 18
  deriving DecidableEq

/-- `STORIO_FID_CACHE_SUB_BUCKET_T`. -/
structure SubBucket where
  allocated : Nat → BitVec 8
  entry : Nat → Entry

/-- `STORIO_FID_CACHE_BUCKET_T`; a missing extra sub-bucket is a null pointer. -/
structure Bucket where
  empty : Nat → BitVec 8
  full : Nat → BitVec 8
  bucket0 : SubBucket
  xtraBucket : Nat → Option SubBucket

/-- A sub-bucket after `memset`. -/
def SubBucket.zero : SubBucket := ⟨fun _ => 0,fun _ => ⟨0,0⟩⟩

/-- A bucket of `storio_fid_cache_init`. -/
def Bucket.initial : Bucket := ⟨fun _ => 0xFF#8,fun _ => 0,.zero,fun _ => none⟩

def Bucket.sub (b : Bucket) (subIdx : Nat) : Option SubBucket :=
  if subIdx = 0 then some b.bucket0 else b.xtraBucket (subIdx - 1)

def Bucket.setSub (b : Bucket) (subIdx : Nat) (pSub : SubBucket) : Bucket :=
  if subIdx = 0 then { b with bucket0 := pSub }
  else { b with xtraBucket := update b.xtraBucket (subIdx - 1) (some pSub) }

/-- The first sub-bucket is part of the bucket and is not freed. -/
def Bucket.freeSub (b : Bucket) (subIdx : Nat) : Bucket :=
  if subIdx = 0 then b else { b with xtraBucket := update b.xtraBucket (subIdx - 1) none }

/-- How an insertion in a bucket ends. -/
inductive Outcome where
  | done (b : Bucket)
  | outOfMemory (b : Bucket)
  | bucketFull (b : Bucket)

/-- `storio_fid_cache_insert` in its bucket, up to the search of an entry to free. A sub-bucket
that is full and not marked so is marked, and the loop starts again. -/
def insertEntry (memory : Bool) (new : Entry) : Nat → Bucket → Outcome
  | 0, b => .bucketFull b
  | restarts + 1, b =>
    match firstNot 0xFF#8 4 b.full with
    | none => .bucketFull b
    | some bbyte =>
      let bbit := lowest0 (b.full bbyte)
      let subIdx := 8 * bbyte + bbit
      let allocation := match b.sub subIdx with
        | some pSub => some pSub
        | none => if memory then some SubBucket.zero else none
      match allocation with
      | none => .outOfMemory b
      | some pSub =>
        match firstNot 0xFF#8 4 pSub.allocated with
        | none =>
          insertEntry memory new restarts
            { b.setSub subIdx pSub with full := set b.full bbyte bbit, empty := clear b.empty bbyte bbit }
        | some sbyte =>
          let sbit := lowest0 (pSub.allocated sbyte)
          let pSub := ⟨set pSub.allocated sbyte sbit,update pSub.entry (8 * sbyte + sbit) new⟩
          .done { b.setSub subIdx pSub with
            full := if firstNot 0xFF#8 4 pSub.allocated = none then set b.full bbyte bbit else b.full
            empty := if (b.empty bbyte).getLsbD bbit then clear b.empty bbyte bbit else b.empty }

/-- The place of an entry: bit of the sub-bucket, bit of the entry. -/
structure Slot where
  bbyte : Nat
  bbit : Nat
  sbyte : Nat
  sbit : Nat

/-- The loop over the allocated entries of a sub-bucket. -/
def findEntry (matched : Entry → Bool) (pSub : SubBucket) : Option (Nat × Nat) :=
  (List.range 4).findSome? fun sbyte => (ones 8 (pSub.allocated sbyte)).findSome? fun sbit =>
    if matched (pSub.entry (8 * sbyte + sbit)) then some (sbyte,sbit) else none

/-- The loop over the sub-buckets of a byte that are not marked empty. A missing one leaves its
own bit as the only one. -/
def scanByte (matched : Entry → Bool) (bbyte : Nat) : List Nat → Bucket → Bucket × Option Slot
  | [], b => (b,none)
  | bbit :: rest, b =>
    match b.sub (8 * bbyte + bbit) with
    | none => scanByte matched bbyte rest { b with empty := update b.empty bbyte (b.empty bbyte &&& (1#8 <<< bbit)) }
    | some pSub =>
      match findEntry matched pSub with
      | some (sbyte,sbit) => (b,some ⟨bbyte,bbit,sbyte,sbit⟩)
      | none => scanByte matched bbyte rest b

def scan (matched : Entry → Bool) : List Nat → Bucket → Bucket × Option Slot
  | [], b => (b,none)
  | bbyte :: rest, b =>
    match scanByte matched bbyte (zeros 8 (b.empty bbyte)) b with
    | (b,some slot) => (b,some slot)
    | (b,none) => scan matched rest b

/-- The entry at a slot that was found. -/
def Bucket.entryAt (b : Bucket) (slot : Slot) : Option Entry :=
  (b.sub (8 * slot.bbyte + slot.bbit)).map fun pSub => pSub.entry (8 * slot.sbyte + slot.sbit)

/-- The removal of the entry that was found. -/
def removeEntry (slot : Slot) (b : Bucket) : Bucket :=
  let subIdx := 8 * slot.bbyte + slot.bbit
  match b.sub subIdx with
  | none => b
  | some pSub =>
    let pSub := { pSub with allocated := clear pSub.allocated slot.sbyte slot.sbit }
    let b := b.setSub subIdx pSub
    let b :=
      if firstNot 0#8 4 pSub.allocated = none then
        { b.freeSub subIdx with empty := set b.empty slot.bbyte slot.bbit }
      else b
    if (b.full slot.bbyte).getLsbD slot.bbit then { b with full := clear b.full slot.bbyte slot.bbit } else b

/-- The cache and the keys of the contexts. `live` are the keys inserted and not removed since,
with their indexes. -/
structure State (κ : Type) where
  bucket : BitVec 13 → Bucket
  ctxKey : Nat → κ
  live : List (κ × Nat)

inductive Action (κ : Type) where
  | insert (key : κ) (index : Nat) (memory : Bool)
  | search (key : κ)
  | remove (key : κ)

section Cache
variable {κ : Type} [DecidableEq κ] (hash : κ → BitVec 32) (nbCtx : Nat)

def bucketOf (hash : BitVec 32) : BitVec 13 := hash.setWidth 13

def subhash (hash : BitVec 32) : BitVec 14 := (hash >>> 13).setWidth 14

/-- Contexts before their first use have the key with all bytes 0. -/
def start (zero : κ) : State κ := ⟨fun _ => .initial,fun _ => zero,[]⟩

/-- `storio_device_mapping_exact_match`. -/
def exactMatch (st : State κ) (key : κ) (index : BitVec 18) : Bool :=
  index.toNat < nbCtx && st.ctxKey index.toNat = key

/-- `storio_fid_cache_searchOrRemove`. -/
def searchOrRemove (search : Bool) (key : κ) (st : State κ) : State κ × Option Nat :=
  let h := bucketOf (hash key)
  let matched := fun e : Entry => decide (e.hash = subhash (hash key)) && exactMatch nbCtx st key e.index
  match scan matched (List.range 4) (st.bucket h) with
  | (b,none) => ({ st with bucket := update st.bucket h b },none)
  | (b,some slot) =>
    let retval := (b.entryAt slot).map fun e => e.index.toNat
    let b := if search then b else removeEntry slot b
    ({ st with bucket := update st.bucket h b },retval)

/-- `storio_device_mapping_release_entry`. -/
def releaseEntry (index : Nat) (st : State κ) : State κ := (searchOrRemove hash nbCtx false (st.ctxKey index) st).1

/-- The search of an entry to free in a full bucket. `storio_device_mapping_delete_req` releases
each context it is called for and always answers that it did not, so the search goes on to its
end and the insertion fails. -/
def deleteRequests (h : BitVec 13) (st : State κ) : State κ :=
  (List.range 32).foldl (fun st subIdx =>
    match (st.bucket h).sub subIdx with
    | none => st
    | some pSub =>
      (List.range 32).foldl (fun st entryIdx => releaseEntry hash nbCtx (pSub.entry entryIdx).index.toNat st) st) st

/-- `storio_device_mapping_insert` for a context that is free: whether it succeeds. Each restart
marks one more sub-bucket full. -/
def deviceMappingInsert (key : κ) (index : Nat) (memory : Bool) (st : State κ) : State κ × Bool :=
  let h := bucketOf (hash key)
  let st := { st with ctxKey := update st.ctxKey index key }
  match insertEntry memory ⟨subhash (hash key),BitVec.ofNat 18 index⟩ 33 (st.bucket h) with
  | .done b => ({ st with bucket := update st.bucket h b },true)
  | .outOfMemory b => (releaseEntry hash nbCtx index { st with bucket := update st.bucket h b },false)
  | .bucketFull b =>
    (releaseEntry hash nbCtx index (deleteRequests hash nbCtx h { st with bucket := update st.bucket h b }),false)

/-- The cache keys are inserted when absent, in contexts that are free. -/
def step : Action κ → State κ → Option (State κ)
  | .insert key index memory, st =>
    if (∀ p ∈ st.live, p.1 ≠ key ∧ p.2 ≠ index) ∧ index < nbCtx then
      match deviceMappingInsert hash nbCtx key index memory st with
      | (st,true) => some { st with live := (key,index) :: st.live }
      | (st,false) => some st
    else none
  | .search key, st => some (searchOrRemove hash nbCtx true key st).1
  | .remove key, st =>
    let st := (searchOrRemove hash nbCtx false key st).1
    some { st with live := st.live.filter fun p => p.1 ≠ key }

/-- An insertion whose index fits in an entry, in a bucket that has room. -/
def fits (st : State κ) : Action κ → Bool
  | .insert key index _ =>
    index < 2 ^ 18 && (st.live.filter fun p => bucketOf (hash p.1) = bucketOf (hash key)).length < 1024
  | _ => true

end Cache

end Rozofs.FidCache
