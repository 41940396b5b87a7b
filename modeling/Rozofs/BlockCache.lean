import Rozofs.Machine
import Rozofs.Overlay
import Rozofs.RootCache
import Rozofs.StorcliRing

/-! The data cache of the client: the buffers of `rozofs_cache` with one header for each block,
and the slots of a file in `rozofs_modeblock_cache` that refer to them. The files are in a cache of
`com_cache.c`, which has the code of the one of `dirent_file.c` with other parts of the hash value.
A pool that is not allocated is one whose slots are free. Memory is always found. -/
namespace Rozofs.BlockCache
open Overlay
open RootCache (Cache searchEntry insertEntry removeEntry)
open StorcliRing (Fid)
open Function (update)

/-- `ROZOFS_CACHE_BCOUNT`. -/
def cacheBcount : Nat := 32

/-- `ROZOFS_CACHE_BUFFER_BSIZE`; a block is `ROZOFS_CACHE_BSIZE` bytes long. -/
def bufferBsize (bsize : BSize) : Nat := cacheBcount * bsize.bytes

def mbcacheBufSize : Nat := 1024 * 256

def mbcacheMxPool : Nat := 128

def mbcacheMxBufPerPool : Nat := 64

def cacheMaxBufPool : Nat := 256

def cacheMaxBufInAPool : Nat := 256

/-- `rozofs_cache_buf_header_t`. -/
structure Header where
  ownerKey : Nat
  len : Nat
  deriving DecidableEq, Repr

/-- The field `len` has 14 bits. -/
def lenField (n : Nat) : Nat := n % 2 ^ 14

/-- A buffer of 32 blocks; headers from index 32 on would be in the payload. -/
structure Buffer (β : Type) where
  header : Nat → Header
  payload : Nat → β

/-- `rozof_gcache_alloc_256K_buffer`: the payload is what the memory holds. -/
def allocBuffer {β : Type} (memory : Nat → β) : Buffer β := ⟨fun _ => ⟨0,0⟩,memory⟩

section Blocks
variable {β : Type} (bsize : BSize)

def setHeaders (header : Nat → Header) (start count key len : Nat) : Nat → Header :=
  fun i => if start ≤ i ∧ i < start + count then ⟨key,lenField len⟩ else header i

/-- The last block keeps its length when the owner has more bytes in it. -/
def lastHeader (header : Nat → Header) (i key lastLen : Nat) : Nat → Header :=
  if lastLen = 0 then header
  else if (header i).ownerKey ≠ key then update header i ⟨key,lenField lastLen⟩
  else if (header i).len < lastLen then update header i ⟨key,lenField lastLen⟩
  else header

/-- Headers that a write uses. -/
def headersUsed (start count lastLen : Nat) : List Nat :=
  List.range' start count ++ if lastLen = 0 then [] else [start + count]

/-- `rozos_cache_write`, with the headers that it uses. -/
def cacheWrite (buf : Buffer β) (off len : Nat) (src : Nat → β) (key : Nat) : Buffer β × List Nat :=
  let relative := off % bufferBsize bsize
  let start := relative / bsize.bytes
  let count := len / bsize.bytes
  let lastLen := len % bsize.bytes
  if relative + len > bufferBsize bsize then (buf,[])
  else
    let header := setHeaders buf.header start count key bsize.bytes
    (⟨lastHeader header (start + count) key lastLen,overlay buf.payload relative len src⟩,headersUsed start count lastLen)

/-- `rozos_cache_write_not_aligned`. -/
def cacheWriteNotAligned (buf : Buffer β) (off len : Nat) (src : Nat → β) (key : Nat) : Buffer β × List Nat :=
  let relative := off % bufferBsize bsize
  let inBlock := relative % bsize.bytes
  let aligned := off / bufferBsize bsize * bsize.bytes
  let count := (off + len - aligned) / bsize.bytes
  let lastLen := (off + len - aligned) % bsize.bytes
  let start := relative / bsize.bytes
  if relative + len > bufferBsize bsize then (buf,[])
  else if inBlock ≠ 0 ∧ (buf.header start).ownerKey ≠ key then
    if len ≤ inBlock then (buf,[start])
    else
      let turns := count - 1
      let header := setHeaders buf.header (start + 1) turns key bsize.bytes
      (⟨lastHeader header (start + 1 + turns) key lastLen,
        overlay buf.payload (relative + inBlock) (len - inBlock) fun i => src (inBlock + i)⟩,
        start :: headersUsed (start + 1) turns lastLen)
  else
    let turns := if inBlock ≠ 0 then count else start + count
    let header := setHeaders buf.header start turns key bsize.bytes
    (⟨lastHeader header (start + turns) key lastLen,overlay buf.payload relative len src⟩,
      start :: headersUsed start turns lastLen)

/-- The loop of `rozos_cache_read`: length, next block, and whether a block was not full. -/
def readBlocks (header : Nat → Header) (key : Nat) : Nat → Nat → Nat × Nat × Bool
  | i, 0 => (0,i,false)
  | i, count + 1 =>
    if (header i).ownerKey = key then
      if (header i).len ≠ bsize.bytes then ((header i).len,i,true)
      else
        let (len,next,eof) := readBlocks header key (i + 1) count
        (bsize.bytes + len,next,eof)
    else (0,i,false)

/-- `rozos_cache_read`: the length of the bytes that are copied, and the headers that it uses. -/
def cacheRead (buf : Buffer β) (off len key : Nat) : Option Nat × List Nat :=
  let relative := off % bufferBsize bsize
  let start := relative / bsize.bytes
  let adjusted := if relative + len > bufferBsize bsize then bufferBsize bsize - relative else len
  let count := adjusted / bsize.bytes
  let lastLen := len % bsize.bytes
  let (lenRead,next,eof) := readBlocks bsize buf.header key start count
  let used := List.range' start (next - start) ++ if next < start + count then [next] else []
  if eof then (some lenRead,used)
  else if next = start then (none,used)
  else if next = start + count ∧ lastLen ≠ 0 then
    (some (lenRead + (if (buf.header next).ownerKey = key then lastLen else 0) + lastLen),used ++ [next])
  else (some lenRead,used)

end Blocks

/-- `rozofs_mbcache_buffer_entry_t`. -/
structure Slot where
  off : Nat
  bufIdx : Nat
  bufIdxValid : Bool
  state : Bool
  ownerKey : Nat
  deriving DecidableEq, Repr

/-- The pools of slots of a file. -/
abbrev File := Nat → Nat → Slot

/-- `rozofs_mbcache_alloc_entry`. -/
def allocEntry : File := fun _ _ => ⟨0,0,false,false,0⟩

/-- What a get returned, and the bytes of the file that were inserted last. -/
structure Got (β : Type) where
  fid : Fid
  off : Nat
  size : Nat
  len : Nat
  bytes : Nat → β
  cached : Nat → Option β

/-- The buffers and the key counter. What is observed of them: the byte inserted last for an offset
of a file unless it was invalidated, the results of the gets, and the headers used. -/
structure Data (β : Type) where
  enable : Bool
  key : Nat
  gcache : Nat → Nat → Option (Buffer β)
  inserted : Fid → Nat → Option β
  gets : List (Got β)
  used : List Nat

/-- The cache. An entry of the cache of files is its address, and `files` has the slots of the
`rozofs_mbcache_entry_t` there. -/
structure State (β : Type) extends Data β where
  cache : Cache Fid
  files : Nat → File

/-- `ROZOFS_MBCACHE_MAX_ENTRIES`. -/
def mbcacheMaxEntries : Nat := 1024

/-- `ROZOFS_MBCACHE_LVL0_MASK`. -/
def mbcacheLvl0Mask : BitVec 16 := 63

/-- `rozofs_mbcache_hash_compute`. -/
def mbcacheHashCompute (fid : Fid) : BitVec 32 :=
  fid.toList.foldl (fun h d => h * 16777619#32 ^^^ d.setWidth 32) 2166136261#32

/-- The hash value whose parts in `dirent_file.c` are those that `com_cache.c` takes: the low bits
for the bucket, and for the entry both halves. -/
def comCacheHash (fid : Fid) : BitVec 32 :=
  let hashValue := mbcacheHashCompute fid
  let hashBucket := hashValue.setWidth 16 &&& mbcacheLvl0Mask
  let hashBucketEntry := (hashValue >>> 16).setWidth 16 ^^^ hashValue.setWidth 16
  (hashBucket ^^^ hashBucketEntry) ++ hashBucketEntry

theorem append_high (a b : BitVec 16) : ((a ++ b) >>> 16).setWidth 16 = a := by
  ext i low
  rw [BitVec.getElem_setWidth,BitVec.getLsbD_ushiftRight,BitVec.getLsbD_append,if_neg (by omega),Nat.add_sub_cancel_left,
    BitVec.getLsbD_eq_getElem low]

@[simp] theorem hashBucketEntry_comCacheHash (fid : Fid) : RootCache.hashBucketEntry (comCacheHash fid) =
    (mbcacheHashCompute fid >>> 16).setWidth 16 ^^^ (mbcacheHashCompute fid).setWidth 16 := BitVec.setWidth_append_eq_right

@[simp] theorem hashBucket_comCacheHash (fid : Fid) : RootCache.hashBucket (comCacheHash fid) =
    (mbcacheHashCompute fid).setWidth 16 &&& mbcacheLvl0Mask := by
  have entry := hashBucketEntry_comCacheHash fid
  rw [RootCache.hashBucketEntry] at entry
  rw [RootCache.hashBucket,entry,comCacheHash,append_high,BitVec.xor_assoc,BitVec.xor_self,BitVec.xor_zero]

/-- `rozofs_cache_pool_hash`. -/
def poolHash (offKey : Nat) (fid : Fid) : BitVec 32 :=
  (((List.range 8).map fun i => BitVec.ofNat 8 (offKey / 2 ^ (8 * i))) ++ fid.toList).foldl
    (fun h d => h * 16777619#32 ^^^ d.setWidth 32) 2166136261#32

section Slots
variable {β : Type} (bsize : BSize)

/-- The pool of buffers of an offset of a file. -/
def poolIdx (fid : Fid) (off : Nat) : Nat := (poolHash (off / bufferBsize bsize) fid).toNat % cacheMaxBufPool

def setBuffer (gcache : Nat → Nat → Option (Buffer β)) (pool idx : Nat) (buf : Buffer β) : Nat → Nat → Option (Buffer β) :=
  update gcache pool (update (gcache pool) idx (some buf))

/-- `rozofs_cache_alloc_buf256K`: without a free place a buffer in use is taken. -/
def allocBuf256K (fid : Fid) (off : Nat) (memory : Nat → β) (gcache : Nat → Nat → Option (Buffer β)) :
    (Nat → Nat → Option (Buffer β)) × Nat :=
  let pool := poolIdx bsize fid off
  match (List.range cacheMaxBufInAPool).find? fun i => (gcache pool i).isNone with
  | some i => (setBuffer gcache pool i (allocBuffer memory),i)
  | none => (gcache,((poolHash (off / bufferBsize bsize) fid).toNat >>> 16) % cacheMaxBufInAPool)

def findSlot (slots : Nat → Slot) (offCache : Nat) : Option Nat :=
  (List.range mbcacheMxBufPerPool).find? fun i => (slots i).state && (slots i).off = offCache

/-- The slot of an offset: the one it has, a free one, or one in use. The offset has 42 bits. -/
def takeSlot (slots : Nat → Slot) (curOff offCache key : Nat) : Nat × Slot :=
  match findSlot slots offCache with
  | some i => (i,slots i)
  | none =>
    let i := ((List.range mbcacheMxBufPerPool).find? fun i => !(slots i).state).getD
      (curOff / mbcacheBufSize % mbcacheMxBufPerPool)
    (i,{ slots i with off := offCache % 2 ^ 42, state := true, ownerKey := key })

/-- The slot refers to a buffer. -/
def ensureBuffer (fid : Fid) (off : Nat) (memory : Nat → β) (slot : Slot) (gcache : Nat → Nat → Option (Buffer β)) :
    (Nat → Nat → Option (Buffer β)) × Slot :=
  if slot.bufIdxValid && (gcache (poolIdx bsize fid off) slot.bufIdx).isSome then (gcache,slot)
  else
    let (gcache,idx) := allocBuf256K bsize fid off memory gcache
    (gcache,{ slot with bufIdxValid := true, bufIdx := idx })

def setSlot (file : File) (pool i : Nat) (slot : Slot) : File := update file pool (update (file pool) i slot)

def cacheInsert (buf : Buffer β) (off len : Nat) (src : Nat → β) (key : Nat) : Buffer β × List Nat :=
  if off % bufferBsize bsize % bsize.bytes = 0 then cacheWrite bsize buf off len src key
  else cacheWriteNotAligned bsize buf off len src key

/-- A turn of the loop of `rozofs_mbcache_insert`. -/
def insertChunk (fid : Fid) (key : Nat) (memory : Nat → β) (curOff len : Nat) (src : Nat → β) (file : File) (st : Data β) :
    File × Data β :=
  let offKey := curOff / bufferBsize bsize
  let pool := offKey % mbcacheMxPool
  let (i,slot) := takeSlot (file pool) curOff (offKey * bufferBsize bsize) key
  let (gcache,slot) := ensureBuffer bsize fid curOff memory slot st.gcache
  let file := setSlot file pool i slot
  let bufPool := poolIdx bsize fid curOff
  let buf := (gcache bufPool slot.bufIdx).getD (allocBuffer memory)
  let (buf,used) := cacheInsert bsize buf curOff len src slot.ownerKey
  (file,{ st with
    gcache := setBuffer gcache bufPool slot.bufIdx buf
    inserted := update st.inserted fid (overlay (st.inserted fid) curOff len fun i => some (src i))
    used := st.used ++ used })

/-- The loop of `rozofs_mbcache_insert`; `none` when it does not end or copies a negative length.
A turn that ends takes a byte at least, so the length is enough turns. -/
def insertLoop (fid : Fid) (key : Nat) (memory : Nat → β) : Nat → Nat → Nat → (Nat → β) → File → Data β → Option (File × Data β)
  | _, 0, _, _, file, st => some (file,st)
  | 0, _ + 1, _, _, _, _ => none
  | turns + 1, curLen + 1, curOff, src, file, st =>
    let skip := curOff % bufferBsize bsize
    if skip > mbcacheBufSize then none
    else
      let len := if skip + (curLen + 1) > mbcacheBufSize then mbcacheBufSize - skip else curLen + 1
      let (file,st) := insertChunk bsize fid key memory curOff len src file st
      insertLoop fid key memory turns (curLen + 1 - len) (curOff + len) (fun i => src (len + i)) file st

/-- Conversion of a size to `int`; the loops do nothing for a negative one. -/
def intLen (size : Nat) : Nat := if size < 2 ^ 31 then size else 0

/-- `rozofs_mbcache_alloc_key_buf`. -/
def allocKeyBuf (key : Nat) : Nat := if (key + 1) % 2 ^ 64 = 0 then 1 else (key + 1) % 2 ^ 64

/-- The entry of a file in the cache of files, which is allocated when there is none; `none` when
the insertion of a new one fails. -/
def openEntry (fid : Fid) (entry : Nat) (st : State β) : Option (Option Nat × State β) :=
  match searchEntry comCacheHash fid st.cache with
  | none => none
  | some (some found,cache) => some (some found,{ st with cache := cache })
  | some (none,cache) =>
    let cache := { cache with key := update cache.key entry fid }
    match insertEntry comCacheHash mbcacheMaxEntries true fid entry cache with
    | none => none
    | some (false,_,cache) => some (none,{ st with cache := cache })
    | some (true,_,cache) => some (some entry,{ st with cache := cache, files := update st.files entry allocEntry })

/-- `rozofs_mbcache_insert`, with the address of the entry that is allocated for a new file. -/
def mbcacheInsert (fid : Fid) (off size : Nat) (src memory : Nat → β) (entry : Nat) (st : State β) : Option (State β) :=
  if !st.enable || size = 0 then some st
  else
    let key := allocKeyBuf st.key
    match openEntry fid entry { st with key := key } with
    | none => none
    | some (none,st) => some st
    | some (some entry,st) =>
      (insertLoop bsize fid key memory size (intLen size) off src (st.files entry) st.toData).map fun (file,data) =>
        { st with toData := data, files := update st.files entry file }

/-- The loop of `rozofs_mbcache_get`, with the bytes read so far; `none` is the result -1. -/
def getLoop (fid : Fid) : Nat → Nat → Nat → Nat → (Nat → β) → File → Data β → File × Data β × Option (Nat × (Nat → β))
  | _, 0, _, total, dst, file, st => (file,st,some (total,dst))
  | 0, _ + 1, _, _, _, file, st => (file,st,none)
  | turns + 1, curLen + 1, curOff, total, dst, file, st =>
    let offKey := curOff / bufferBsize bsize
    let pool := offKey % mbcacheMxPool
    let skip := curOff % bufferBsize bsize
    match findSlot (file pool) (offKey * bufferBsize bsize) with
    | none => (file,st,none)
    | some i =>
      let slot := file pool i
      if !slot.bufIdxValid then (file,st,none)
      else
        match st.gcache (poolIdx bsize fid curOff) slot.bufIdx with
        | none => (setSlot file pool i { slot with bufIdxValid := false },st,none)
        | some buf =>
          let len := if skip + (curLen + 1) > mbcacheBufSize then mbcacheBufSize - skip else curLen + 1
          let (read,used) := cacheRead bsize buf curOff len slot.ownerKey
          let st := { st with used := st.used ++ used }
          match read with
          | none => (file,st,none)
          | some n =>
            let dst := overlay dst total n fun i => buf.payload (skip + i)
            if n ≠ len then (file,st,some (total + n,dst))
            else getLoop fid turns (curLen + 1 - len) (curOff + len) (total + n) dst file st

/-- A result of the loop is returned. -/
def noteGet (fid : Fid) (off size : Nat) (read : Option (Nat × (Nat → β))) (st : Data β) : Data β :=
  match read with
  | none => st
  | some (n,bytes) => { st with gets := st.gets ++ [⟨fid,off,size,n,bytes,st.inserted fid⟩] }

/-- `rozofs_mbcache_get`; `none` for a null pointer that the search follows. -/
def mbcacheGet (fid : Fid) (off size : Nat) (dst : Nat → β) (st : State β) : Option (State β) :=
  if !st.enable || size = 0 then some st
  else
    match searchEntry comCacheHash fid st.cache with
    | none => none
    | some (none,cache) => some { st with cache := cache }
    | some (some entry,cache) =>
      let (file,data,read) := getLoop bsize fid size (intLen size) off 0 dst (st.files entry) st.toData
      some ⟨noteGet fid off size read data,cache,update st.files entry file⟩

end Slots

section Runs
variable {β : Type}

/-- `rozofs_mbcache_remove`: the bytes are invalid whether the removal finds the entry or not. -/
def mbcacheRemove (fid : Fid) (st : State β) : Option (State β) :=
  if st.enable then
    (removeEntry comCacheHash fid st.cache).map fun (_,cache) =>
      { st with cache := cache, inserted := update st.inserted fid fun _ => none }
  else some st

/-- `rozofs_gcache_flush`. -/
def gcacheFlush (st : State β) : State β :=
  { st with gcache := fun _ _ => none, inserted := fun _ _ => none }

/-- `rozofs_mbcache_enable` and `rozofs_mbcache_disable`. -/
def mbcacheSet (enable : Bool) (st : State β) : State β :=
  if st.enable = enable then st else gcacheFlush { st with enable := enable }

inductive Act (β : Type) where
  | insert (fid : Fid) (off size : Nat) (src memory : Nat → β) (entry : Nat)
  | get (fid : Fid) (off size : Nat) (dst : Nat → β)
  | remove (fid : Fid)
  | flush
  | set (enable : Bool)

/-- Memory that is allocated is not that of an entry of the cache. -/
def fresh (st : State β) : Act β → Bool
  | .insert _ _ _ _ _ entry => entry ∉ st.cache.lru
  | _ => true

def step (bsize : BSize) (a : Act β) (st : State β) : Option (State β) :=
  if fresh st a then
    match a with
    | .insert fid off size src memory entry => mbcacheInsert bsize fid off size src memory entry st
    | .get fid off size dst => mbcacheGet bsize fid off size dst st
    | .remove fid => mbcacheRemove fid st
    | .flush => some (gcacheFlush st)
    | .set enable => some (mbcacheSet enable st)
  else none

/-- `rozofs_mbcache_cache_init`. -/
def cacheInit (enable : Bool) : State β where
  enable := enable
  key := 1
  gcache := fun _ _ => none
  inserted := fun _ _ => none
  gets := []
  used := []
  cache := RootCache.initial (Vector.replicate 16 0)
  files := fun _ => allocEntry

end Runs

end Rozofs.BlockCache
