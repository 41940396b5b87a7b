import Rozofs.Extent
import Rozofs.Machine
import Mathlib.Algebra.Order.Ring.Int

/-! The write-back cache of the directory files, `dirent_writeback_cache.c`, and the functions of
`mdirent.h` that go through it. Every function that takes the lock of an entry runs when the lock
is free, and the disk does not fail. -/
namespace Rozofs.DirentWriteback

abbrev Byte := BitVec 8

def direntCacheMaxEntry : Nat := 4096

def direntCacheMaxChunk : Nat := 16

/-- `MDIRENTS_CACHE_CHUNK_ARRAY_SZ`. -/
def chunkArraySz : Nat := 2048

/-- The management sectors: header and bitmaps, buckets, and 384 hash entries of 8 bytes. They end
at `DIRENT_HASH_NAME_BASE_SECTOR`. -/
def managementSz : Nat := 3 * 512 + 384 * 8

/-- A directory file: the export, the directory and the local name. The path of the file starts
with the root path of the export. -/
structure FileId where
  eid : Nat
  dirFid : List Byte
  pathname : List Byte
  deriving DecidableEq

/-- `dirent_wbcache_get_index`. -/
def getIndex (f : FileId) : Nat :=
  let hash := fun (h : BitVec 32) (d : Byte) => (h * 16777619#32) ^^^ d.setWidth 32
  (f.pathname.foldl hash (f.dirFid.foldl hash 2166136261#32)).toNat % direntCacheMaxEntry

/-- What is written of a directory file: the management sectors, or a chunk array of names. -/
inductive Part where
  | header
  | names (array : Nat)
  deriving DecidableEq

def Part.extent (data : Nat → Byte) : Part → Extent Byte
  | .header => ⟨0,managementSz,data⟩
  | .names array => ⟨managementSz + chunkArraySz * array,chunkArraySz,data⟩

/-- `dirent_chunk_cache_t`. -/
structure ChunkCache where
  wrCpt : Nat
  size : Nat
  off : Nat
  data : Nat → Byte

/-- `dirent_writeback_entry_t`; `fd` is -1 when nobody has the file open. -/
structure Entry where
  fd : Int
  locked : Bool
  state : Bool
  file : FileId
  wrCpt : Nat
  size : Nat
  header : Nat → Byte
  chunk : Nat → ChunkCache

/-- A write counter is an `uint32_t`. -/
def increment (wrCpt : Nat) : Nat := (wrCpt + 1) % 2 ^ 32

namespace Entry

/-- Neither the header nor a chunk waits for the disk (`dirent_wbcache_check_write_pending`). -/
def clean (e : Entry) : Bool := e.wrCpt == 0 && (List.range direntCacheMaxChunk).all fun i => (e.chunk i).wrCpt == 0

/-- What a flush of the entry writes, header first. -/
def pending (e : Entry) : List (Extent Byte) :=
  (if e.wrCpt ≠ 0 then [⟨0,e.size,e.header⟩] else []) ++
  (List.range direntCacheMaxChunk).filterMap fun i =>
    if (e.chunk i).wrCpt ≠ 0 then some ⟨(e.chunk i).off,(e.chunk i).size,(e.chunk i).data⟩ else none

def cleared (e : Entry) : Entry := { e with wrCpt := 0, chunk := fun i => { e.chunk i with wrCpt := 0 } }

def setChunk (e : Entry) (i : Nat) (c : ChunkCache) : Entry := { e with chunk := fun j => if j = i then c else e.chunk j }

/-- The chunk with this offset, else the first one that is free. -/
def findChunk (e : Entry) (off : Nat) : Option Nat :=
  ((List.range direntCacheMaxChunk).find? fun i => (e.chunk i).off = off).or
    ((List.range direntCacheMaxChunk).find? fun i => (e.chunk i).off = 0 ∨ (e.chunk i).wrCpt = 0)

def fillChunk (e : Entry) (i : Nat) (w : Extent Byte) : Entry :=
  e.setChunk i ⟨increment (e.chunk i).wrCpt,w.size,w.off,w.data⟩

end Entry

/-- A descriptor of a file open for writing: an entry of the cache, or the file itself. -/
inductive Descriptor where
  | cache (slot : Nat)
  | file (f : FileId)
  deriving DecidableEq

/-- `eid` is `dirent_current_eid`, the export whose root path is `dirent_export_root_path`. `fds` has
the descriptors of the files that are open for writing: the functions that write a file close it
before they return, so that a file has one at most. -/
structure State where
  entries : Nat → Entry
  disk : FileId → Nat → Option Byte
  eid : Nat
  fds : FileId → Option Descriptor

namespace State

def setEntry (s : State) (i : Nat) (e : Entry) : State := { s with entries := fun j => if j = i then e else s.entries j }

def setDisk (s : State) (f : FileId) (contents : Nat → Option Byte) : State :=
  { s with disk := fun g => if g = f then contents else s.disk g }

def setFd (s : State) (f : FileId) (fd : Option Descriptor) : State :=
  { s with fds := fun g => if g = f then fd else s.fds g }

/-- The file that a flush of an entry opens: under the root path of the current export. -/
def target (s : State) (i : Nat) : FileId := { (s.entries i).file with eid := s.eid }

end State

/-- `dirent_wbcache_diskflush`; `none` while the lock is held. -/
def diskflush (s : State) (i : Nat) : Option State :=
  let e := s.entries i
  if e.locked then none
  else if e.clean then some s
  else some ((s.setDisk (s.target i) (Extent.writeAll e.pending (s.disk (s.target i)))).setEntry i e.cleared)

/-- `dirent_wbcache_check_flush_on_read`. -/
def checkFlushOnRead (s : State) (f : FileId) : Option State :=
  let e := s.entries (getIndex f)
  if !e.state || e.clean then some s
  else if e.file ≠ f then some s
  else diskflush s (getIndex f)

/-- `dirent_wbcache_check_invalidate_on_unlink`. -/
def checkInvalidateOnUnlink (s : State) (f : FileId) : Option State :=
  let e := s.entries (getIndex f)
  if !e.state || e.clean then some s
  else if e.file ≠ f then some s
  else if e.locked then none
  else some (s.setEntry (getIndex f) { e.cleared with state := false })

/-- The entry gets a new owner, which has it open. -/
def takeEntry (s : State) (i : Nat) (f : FileId) : Option (State × Option Nat) :=
  let e := s.entries i
  if e.locked then none
  else some (s.setEntry i { e with fd := 0, file := f, state := true, locked := true },some i)

/-- `dirent_wbcache_open`, with the index of the entry, or without when the entry is busy. -/
def wbcacheOpen (s : State) (f : FileId) : Option (State × Option Nat) :=
  let i := getIndex f
  let e := s.entries i
  if !e.state || e.clean then takeEntry s i f
  else if e.file = f then
    if e.locked then none else some (s.setEntry i { e with locked := true },some i)
  else if e.fd = -1 then (diskflush s i).bind fun s => takeEntry s i f
  else some (s,none)

/-- `dirent_wbcache_chunk_diskflush`: chunk 0 goes to disk. -/
def chunkDiskflush (s : State) (i : Nat) : State :=
  let c := (s.entries i).chunk 0
  (s.setDisk (s.target i) (Extent.write (s.disk (s.target i)) ⟨c.off,c.size,c.data⟩)).setEntry i
    ((s.entries i).setChunk 0 { c with wrCpt := 0 })

/-- `dirent_wbcache_write`. -/
def wbcacheWrite (s : State) (i : Nat) (w : Extent Byte) : State :=
  let e := s.entries i
  if w.off = 0 then s.setEntry i { e with header := w.data, size := w.size, wrCpt := increment e.wrCpt }
  else match e.findChunk w.off with
    | some j => s.setEntry i (e.fillChunk j w)
    | none =>
      let s := chunkDiskflush s i
      s.setEntry i ((s.entries i).fillChunk 0 w)

/-- `dirent_wbcache_close`. -/
def wbcacheClose (s : State) (i : Nat) : State := s.setEntry i { s.entries i with fd := -1, locked := false }

/-- `dirent_openat`. -/
def openat (s : State) (f : FileId) : Option (State × Descriptor) :=
  (wbcacheOpen s f).map fun (s,slot) => match slot with
    | some i => (s,.cache i)
    | none => (s,.file f)

/-- `dirent_pwrite`. -/
def pwrite (s : State) (fd : Descriptor) (w : Extent Byte) : State :=
  match fd with
  | .cache i => wbcacheWrite s i w
  | .file f => s.setDisk f (Extent.write (s.disk f) w)

/-- `dirent_close`. -/
def close (s : State) (fd : Descriptor) : State :=
  match fd with
  | .cache i => wbcacheClose s i
  | .file _ => s

/-- What happens to the files. Files are opened for writing, read and removed in the current export. -/
inductive Action where
  | setExport (eid : Nat)
  | openFile (dirFid pathname : List Byte)
  | write (f : FileId) (part : Part) (data : Nat → Byte)
  | close (f : FileId)
  | read (dirFid pathname : List Byte)
  | unlink (dirFid pathname : List Byte)
  | flush (i : Nat)

/-- The cache, with what was last written in each file since it was created. -/
structure Traced where
  cache : State
  written : FileId → Nat → Option Byte

def Traced.setWritten (t : Traced) (f : FileId) (contents : Nat → Option Byte) : FileId → Nat → Option Byte :=
  fun g => if g = f then contents else t.written g

/-- One action; `none` when it waits for a lock, or when the functions that use the cache do not do
it: they write and close what they opened, and do not open or remove a file that is open. -/
def step (a : Action) (t : Traced) : Option Traced :=
  match a with
  | .setExport eid => some { t with cache := { t.cache with eid := eid } }
  | .openFile dirFid pathname =>
    let f : FileId := ⟨t.cache.eid,dirFid,pathname⟩
    if t.cache.fds f ≠ none then none
    else (openat t.cache f).map fun (s,fd) => { t with cache := s.setFd f (some fd) }
  | .write f part data =>
    (t.cache.fds f).map fun fd =>
      ⟨pwrite t.cache fd (part.extent data),t.setWritten f (Extent.write (t.written f) (part.extent data))⟩
  | .close f => (t.cache.fds f).map fun fd => { t with cache := (DirentWriteback.close t.cache fd).setFd f none }
  | .read dirFid pathname => (checkFlushOnRead t.cache ⟨t.cache.eid,dirFid,pathname⟩).map fun s => { t with cache := s }
  | .unlink dirFid pathname =>
    let f : FileId := ⟨t.cache.eid,dirFid,pathname⟩
    if t.cache.fds f ≠ none then none
    else (checkInvalidateOnUnlink t.cache f).map fun s => ⟨s.setDisk f fun _ => none,t.setWritten f fun _ => none⟩
  | .flush i =>
    if !(t.cache.entries i).state then some t else (diskflush t.cache i).map fun s => { t with cache := s }

/-- An entry that is not in use. -/
def emptyEntry : Entry where
  fd := -1
  locked := false
  state := false
  file := ⟨0,[],[]⟩
  wrCpt := 0
  size := 0
  header := fun _ => 0
  chunk := fun _ => ⟨0,0,0,fun _ => 0⟩

/-- `dirent_wbcache_init`, with whatever the disk holds. -/
def initial (disk : FileId → Nat → Option Byte) (eid : Nat) : Traced :=
  ⟨⟨fun _ => emptyEntry,disk,eid,fun _ => none⟩,disk⟩

/-- The write of a part makes room by a flush of chunk 0. -/
def makesRoom (e : Entry) (part : Part) : Bool :=
  match part with
  | .header => false
  | .names _ => (e.findChunk (part.extent fun _ => 0).off).isNone

/-- The counter that the write of a part increments. -/
def counterOf (e : Entry) (part : Part) : Nat :=
  match part with
  | .header => e.wrCpt
  | .names _ => match e.findChunk (part.extent fun _ => 0).off with
    | some j => (e.chunk j).wrCpt
    | none => 0

/-- An entry is only written to disk while its export is the current one, and no write counter comes
back to 0. -/
def flushesInExport (t : Traced) : Action → Bool
  | .flush i => (t.cache.entries i).clean || (t.cache.entries i).file.eid = t.cache.eid
  | .openFile dirFid pathname =>
    let f : FileId := ⟨t.cache.eid,dirFid,pathname⟩
    let e := t.cache.entries (getIndex f)
    e.clean || e.file = f || e.fd ≠ -1 || e.file.eid = t.cache.eid
  | .write f part _ =>
    match t.cache.fds f with
    | some (.cache i) =>
      let e := t.cache.entries i
      (!makesRoom e part || f.eid = t.cache.eid) && increment (counterOf e part) ≠ 0
    | _ => true
  | _ => true

/-- A read of a file of the current export returns what was last written in it, and nothing is on
disk of what was removed. -/
def Transparent (t : Traced) : Prop :=
  (∀ dirFid pathname s, checkFlushOnRead t.cache ⟨t.cache.eid,dirFid,pathname⟩ = some s →
    s.disk ⟨t.cache.eid,dirFid,pathname⟩ = t.written ⟨t.cache.eid,dirFid,pathname⟩) ∧
  ∀ f a, t.written f a = none → t.cache.disk f a = none

end Rozofs.DirentWriteback
