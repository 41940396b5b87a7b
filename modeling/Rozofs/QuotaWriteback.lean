import Mathlib.Logic.Function.Basic
import Mathlib.Data.List.Basic
import Mathlib.Algebra.Order.Ring.Int
import Rozofs.Machine

/-! The write-back cache of the quotas, `quota_writeback_cache.c`. Every function runs under the
lock of its cache slot, memory is available and the disk does not fail; a table on disk is the map
of its records. -/
namespace Rozofs.QuotaWriteback
open Function (update)

/-- `rozofs_quota_key_t`; the filler is 0. -/
structure Key where
  eid : BitVec 10
  type : BitVec 4
  qid : BitVec 32
  deriving DecidableEq

/-- The key of a chunk that was never used. -/
def Key.zero : Key := ⟨0,0,0⟩

def Key.u64 (k : Key) : Nat := k.eid.toNat + 2 ^ 10 * k.type.toNat + 2 ^ 14 * k.qid.toNat

/-- A disk table: there is one for each export and type. -/
structure DiskTb where
  eid : Nat
  type : BitVec 4
  deriving DecidableEq

def Key.table (k : Key) : DiskTb := ⟨k.eid.toNat,k.type⟩

/-- `QUOTA_CACHE_MAX_ENTRY`. -/
def cacheMaxEntry : Nat := 4096

/-- `QUOTA_CACHE_MAX_CHUNK`. -/
def cacheMaxChunk : Nat := 16

/-- `quota_wbcache_get_index`: the hash of the eight bytes of the key. -/
def getIndex (k : Key) : Nat :=
  (List.range 8).foldl (fun h i => ((h * 16777619) % 2 ^ 32) ^^^ (k.u64 / 2 ^ (8 * i) % 256)) 2166136261 % cacheMaxEntry

/-- `rozofs_dquot_t`, for the limits and usages `quota`. -/
structure Dquot (ν : Type) where
  key : Key
  quota : ν
  deriving DecidableEq

/-- `quota_chunk_cache_t`; `chunk` is none for a null pointer. -/
structure Chunk (ν : Type) where
  wrCpt : BitVec 32
  key : Key
  ctx : DiskTb
  chunk : Option (Dquot ν)
  deriving DecidableEq

structure Cache (ν : Type) where
  chunk : Nat → Nat → Chunk ν
  disk : DiskTb → BitVec 32 → Option (Dquot ν)

variable {ν : Type}

/-- The chunks are cleared by `quota_wbcache_init`. -/
def Chunk.initial : Chunk ν := ⟨0,.zero,⟨0,0⟩,none⟩

/-- `disk_tb_write_entry`. -/
def Cache.diskWrite (c : Cache ν) (ctx : DiskTb) (data : Dquot ν) : Cache ν :=
  { c with disk := update c.disk ctx (update (c.disk ctx) data.key.qid (some data)) }

def Cache.setChunk (c : Cache ν) (slot i : Nat) (new : Chunk ν) : Cache ν :=
  { c with chunk := update c.chunk slot (update (c.chunk slot) i new) }

/-- A chunk is written to disk and its counter cleared. -/
def Cache.flushChunk (c : Cache ν) (slot i : Nat) : Cache ν :=
  match (c.chunk slot i).chunk with
  | none => c
  | some data => (c.diskWrite (c.chunk slot i).ctx data).setChunk slot i { c.chunk slot i with wrCpt := 0 }

/-- `quota_wbcache_diskflush`. -/
def Cache.diskflush (c : Cache ν) (slot : Nat) : Cache ν :=
  (List.range cacheMaxChunk).foldl (fun c i => if (c.chunk slot i).wrCpt = 0 then c else c.flushChunk slot i) c

/-- The chunk of a key in its slot. -/
def Cache.matching (c : Cache ν) (k : Key) : Option Nat :=
  (List.range cacheMaxChunk).find? fun i => (c.chunk (getIndex k) i).key = k

/-- The first chunk that is empty or clean. -/
def Cache.freeChunk (c : Cache ν) (slot : Nat) : Option Nat :=
  (List.range cacheMaxChunk).find? fun i => (c.chunk slot i).key = .zero ∨ (c.chunk slot i).wrCpt = 0

/-- `quota_wbcache_read`; a key without record leaves the buffer as it is. -/
def Cache.read (c : Cache ν) (diskP : DiskTb) (buf : Dquot ν) : Dquot ν :=
  let fromDisk := (c.disk diskP buf.key.qid).getD buf
  match c.matching buf.key with
  | none => fromDisk
  | some i => (c.chunk (getIndex buf.key) i).chunk.getD fromDisk

/-- `quota_wbcache_write`. When all the chunks of the slot are dirty the first one is flushed. -/
def Cache.write (c : Cache ν) (diskP : DiskTb) (buf : Dquot ν) : Cache ν :=
  let slot := getIndex buf.key
  match c.matching buf.key with
  | some i => c.setChunk slot i { c.chunk slot i with wrCpt := (c.chunk slot i).wrCpt + 1, ctx := diskP, chunk := some buf }
  | none =>
    match c.freeChunk slot with
    | some i => c.setChunk slot i ⟨(c.chunk slot i).wrCpt + 1,buf.key,diskP,some buf⟩
    | none =>
      let c := c.flushChunk slot 0
      c.setChunk slot 0 ⟨(c.chunk slot 0).wrCpt + 1,buf.key,diskP,some buf⟩

/-- The cache, and for each key the record that a read has to give: the last one written, or the
one that was on disk before. -/
structure State (ν : Type) where
  cache : Cache ν
  expected : Key → Option (Dquot ν)

inductive Action (ν : Type) where
  | write (diskP : DiskTb) (buf : Dquot ν)
  | read (diskP : DiskTb) (buf : Dquot ν)
  | flush (slot : Nat)

/-- The callers give the table of the key, whose export id is not 0. -/
def step : Action ν → State ν → Option (State ν)
  | .write diskP buf, s =>
    if diskP = buf.key.table ∧ buf.key.eid ≠ 0 then
      some ⟨s.cache.write diskP buf,update s.expected buf.key (some buf)⟩
    else none
  | .read diskP buf, s => if diskP = buf.key.table ∧ buf.key.eid ≠ 0 then some s else none
  | .flush slot, s => some { s with cache := s.cache.diskflush slot }

/-- The write counter of the chunk of the key does not come back to 0. -/
def Counted (s : State ν) : Action ν → Prop
  | .write _ buf => ∀ i < cacheMaxChunk, (s.cache.chunk (getIndex buf.key) i).key = buf.key →
      (s.cache.chunk (getIndex buf.key) i).wrCpt + 1 ≠ 0
  | .read _ _ => True
  | .flush _ => True

instance (s : State ν) : (a : Action ν) → Decidable (Counted s a)
  | .write _ _ => inferInstanceAs (Decidable (∀ i < cacheMaxChunk, _ → _))
  | .read _ _ => inferInstanceAs (Decidable True)
  | .flush _ => inferInstanceAs (Decidable True)

/-- A cache over the tables on disk. -/
def start (disk : DiskTb → BitVec 32 → Option (Dquot ν)) : State ν :=
  ⟨⟨fun _ _ => .initial,disk⟩,fun k => disk k.table k.qid⟩

end Rozofs.QuotaWriteback
