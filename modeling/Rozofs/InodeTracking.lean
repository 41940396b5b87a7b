import Rozofs.Machine
import Mathlib.Data.List.Basic
import Mathlib.Logic.Function.Basic
import Mathlib.Algebra.Order.Ring.Int

/-! The tracking files of an export, `exp_trck_inode_srv_v2.c` and `export_tracking_poll.c`. The
number of an inode is the slice, the tracking file and the index in the file where its attributes
are. -/
namespace Rozofs.Tracking
open Function (update)

/-- `EXP_TRCK_MAX_INODE_PER_FILE`. -/
def maxInodePerFile : Nat := 2044

/-- The size of `exp_trck_file_header_t`: the creation time and the table. -/
def fileHeaderSize : Nat := 4096

/-- `EXP_TRCK_MAX_RECURSE`. -/
def maxRecurse : Nat := 4

/-- `EXP_TRCK_MAIN_REPLICA_COUNT`. -/
def mainReplicaCount : Nat := 4

/-- The size of `exp_trck_header_t`. -/
def mainHeaderSize : Nat := 16

/-- The value in the table of an index that was released. -/
def emptyIdx : Nat := 0xffff

structure Config where
  maxAttributesSz : Nat
  positive : 0 < maxAttributesSz

/-- A replica of the main tracking file of a slice. -/
structure Replica where
  size : Nat
  firstIdx : Nat
  lastIdx : Nat

/-- A tracking file: its size in bytes, `inode_idx_table`, and the bytes after the header. -/
structure TrackingFile where
  size : Nat
  table : Nat → Nat
  data : Nat → UInt8

/-- `exp_trck_header_memory_t`. -/
structure Header where
  firstIdx : Nat
  lastIdx : Nat
  indexAvailable : Bool
  curIdx : Nat

/-- The number of an inode. -/
structure Inode where
  usrId : Fin 256
  fileId : Nat
  idx : Nat
  deriving DecidableEq

/-- The files of a slice, and its context in memory. -/
structure Slice where
  replica : Nat → Option Replica
  file : Nat → Option TrackingFile
  header : Option Header

def Slice.setFile (s : Slice) (fileId : Nat) (f : Option TrackingFile) : Slice := { s with file := update s.file fileId f }

section MainFile

/-- The replicas that are opened and written. -/
structure MainIo where
  opened : Nat → Bool
  written : Nat → Bool

/-- `exp_trck_write_main_tracking_file` succeeds when one replica is written. -/
def writeMainTrackingFile (io : MainIo) (change : Replica → Replica) (s : Slice) : Slice × Bool :=
  ({ s with replica := fun i => if i < mainReplicaCount ∧ io.opened i ∧ io.written i then (s.replica i).map change else s.replica i },
    (List.range mainReplicaCount).any fun i => (s.replica i).isSome && io.opened i && io.written i)

def Replica.setFirst (n : Nat) (r : Replica) : Replica := { r with firstIdx := n, size := max r.size 8 }

def Replica.setLast (n : Nat) (r : Replica) : Replica := { r with lastIdx := n, size := max r.size mainHeaderSize }

/-- What happens to the replicas when a slice is loaded; `access` is false on an error other than
a missing file. -/
structure LoadIo where
  access : Nat → Bool
  opened : Nat → Bool
  written : Nat → Bool
  read : Nat → Bool

/-- `exp_trck_open_and_read_main_tracking_file`, with the creation. The first replica that is read
gives the indexes. -/
def openAndReadMainTrackingFile (io : LoadIo) (s : Slice) : Slice × Option (Nat × Nat) :=
  let createRequest := (List.range mainReplicaCount).all fun i => !((s.replica i).isSome && io.access i)
  let replica := if createRequest then fun i =>
      if i < mainReplicaCount ∧ io.opened i then
        let r := (s.replica i).getD ⟨0,0,0⟩
        some (if io.written i then ⟨max r.size mainHeaderSize,0,0⟩ else r)
      else s.replica i
    else s.replica
  let usable i := (replica i).isSome && io.opened i && (!createRequest || io.written i)
  let readable i := usable i && io.read i && decide (mainHeaderSize ≤ ((replica i).getD ⟨0,0,0⟩).size)
  ({ s with replica := replica },
    ((List.range mainReplicaCount).find? readable).bind fun i => (replica i).map fun r => (r.firstIdx,r.lastIdx))

/-- `exp_trck_top_add_user_id` when the export starts: nothing is known of the files but the indexes. -/
def Slice.load (io : LoadIo) (s : Slice) : Slice :=
  let opened := openAndReadMainTrackingFile io s
  { opened.1 with header := opened.2.map fun entry => ⟨entry.1,entry.2,false,0⟩ }

end MainFile

section Files
variable (c : Config)

/-- The entries that the size of a file stands for. -/
def TrackingFile.nbEntries (f : TrackingFile) : Nat :=
  if f.size < fileHeaderSize then 0
  else (f.size - fileHeaderSize) / c.maxAttributesSz + if (f.size - fileHeaderSize) % c.maxAttributesSz ≠ 0 then 1 else 0

/-- A new file of which the first `count` bytes of the header were written. -/
def TrackingFile.create (count : Nat) : TrackingFile :=
  ⟨min count fileHeaderSize,fun i => if 10 + 2 * i ≤ count then i else 0,fun _ => 0⟩

/-- Bytes written after the header. -/
def TrackingFile.pwrite (f : TrackingFile) (offset : Nat) (bytes : List UInt8) : TrackingFile :=
  { f with
    size := if bytes = [] then f.size else max f.size (fileHeaderSize + offset + bytes.length)
    data := fun j => if offset ≤ j ∧ j < offset + bytes.length then bytes.getD (j - offset) 0 else f.data j }

/-- Bytes read after the header; `none` when the file is too short. -/
def TrackingFile.pread (f : TrackingFile) (offset n : Nat) : Option (List UInt8) :=
  if fileHeaderSize + offset + n ≤ f.size then some ((List.range n).map fun j => f.data (offset + j)) else none

def TrackingFile.truncate (f : TrackingFile) (len : Nat) : TrackingFile :=
  { f with size := len, data := fun j => if fileHeaderSize + j < len then f.data j else 0 }

/-- `exp_trck_get_relative_inode_idx`. -/
def TrackingFile.getRelativeInodeIdx (f : TrackingFile) (idx : Nat) : Option Nat :=
  if f.size < 10 + 2 * idx then none
  else if f.table idx = emptyIdx then none
  else if f.table idx > idx then none
  else some (f.table idx)

/-- `exp_metadata_read_attributes`. -/
def Slice.readAttributes (s : Slice) (fileId idx attrSz : Nat) : Option (List UInt8) :=
  if attrSz > c.maxAttributesSz then none
  else (s.file fileId).bind fun f => (f.getRelativeInodeIdx idx).bind fun real => f.pread (real * c.maxAttributesSz) attrSz

/-- Whether a file is opened, and the bytes that are written to it. -/
structure WriteIo where
  opened : Bool
  count : Nat

/-- `exp_metadata_write_attributes`, with the bytes that are written: it succeeds when these are all. -/
def Slice.writeAttributes (s : Slice) (fileId idx : Nat) (attr : List UInt8) (io : WriteIo) : Slice × Nat :=
  if attr.length > c.maxAttributesSz then (s,0)
  else
    match s.file fileId with
    | none => (s,0)
    | some f =>
      if io.opened = false then (s,0)
      else
        match f.getRelativeInodeIdx idx with
        | none => (s,0)
        | some real => (s.setFile fileId (some (f.pwrite (real * c.maxAttributesSz) (attr.take io.count))),min io.count attr.length)

/-- `exp_metadata_release_inode`. -/
def Slice.releaseInode (s : Slice) (fileId idx : Nat) (io : WriteIo) : Slice × Bool :=
  match s.file fileId with
  | none => (s,false)
  | some f =>
    if io.opened = false ∨ io.count < 2 then (s,false)
    else (s.setFile fileId (some { f with size := max f.size (10 + 2 * idx), table := update f.table idx emptyIdx }),true)

end Files

section Allocation
variable (c : Config)

/-- What happens when a tracking file is opened for allocation. -/
structure OpenIo where
  access : Bool
  opened : Bool
  headerWritten : Nat
  stat : Bool
  headerRead : Bool
  unlinked : Bool
  main : MainIo

/-- `exp_trck_increment_main_tracking_file`. -/
def incrementMainTrackingFile (io : MainIo) (s : Slice) (h : Header) : Slice × Header × Bool :=
  let h := { h with lastIdx := h.lastIdx + 1 }
  let written := writeMainTrackingFile io (Replica.setLast h.lastIdx) s
  (written.1,h,written.2)

/-- `exp_trck_open_tracking_file`; `left` is how often the next file may still be tried. -/
def openTrackingFile (io : Nat → OpenIo) (left : Nat) (s : Slice) (h : Header) : Slice × Header × Bool :=
  if h.indexAvailable then (s,h,false)
  else if (io left).access = false then (s,h,false)
  else
    match s.file h.lastIdx with
    | none =>
      if (io left).opened = false then (s,h,false)
      else
        let s := s.setFile h.lastIdx (some (.create (io left).headerWritten))
        if (io left).headerWritten < fileHeaderSize then (s,h,false)
        else (s,{ h with indexAvailable := true, curIdx := 0 },true)
    | some f =>
      if (io left).opened = false ∨ (io left).stat = false then (s,h,false)
      else if (io left).headerRead = false ∨ f.size < fileHeaderSize then
        if (io left).headerRead ∧ f.size = 0 ∧ (io left).unlinked then (s.setFile h.lastIdx none,h,false) else (s,h,false)
      else if f.nbEntries c = maxInodePerFile then
        let next := incrementMainTrackingFile (io left).main s { h with curIdx := maxInodePerFile }
        if next.2.2 = false then next
        else
          match left with
          | 0 => (next.1,next.2.1,false)
          | left + 1 => openTrackingFile io left next.1 next.2.1
      else (s,{ h with indexAvailable := true, curIdx := f.nbEntries c },true)

/-- The tracking file is opened unless it is available. -/
def openIfNeeded (io : Nat → OpenIo) (s : Slice) (h : Header) : Slice × Header × Bool :=
  if h.indexAvailable then (s,h,true) else openTrackingFile c io maxRecurse s h

/-- What happens in an allocation: the opening, and the update of the main file when the tracking
file gets full. -/
structure AllocateIo where
  opening : Nat → OpenIo
  main : MainIo

/-- `exp_trck_main_allocate_inode`: the file and the index. The field for the file has 40 bits. -/
def Slice.allocateInode (s : Slice) (h : Header) (io : AllocateIo) : Slice × Option (Nat × Nat) :=
  let ready := openIfNeeded c io.opening s h
  let s := ready.1
  let h := ready.2.1
  if ready.2.2 = false then ({ s with header := some h },none)
  else
    let inode := (h.lastIdx % 2 ^ 40,h.curIdx)
    let h := { h with curIdx := h.curIdx + 1 }
    if h.curIdx < maxInodePerFile then ({ s with header := some h },some inode)
    else
      let next := incrementMainTrackingFile io.main s { h with curIdx := 0, indexAvailable := false }
      ({ next.1 with header := some next.2.1 },if next.2.2 then some inode else none)

end Allocation

section Polling
variable (c : Config)

/-- What happens when the poller visits a file; `enoent` tells whether `errno` says that a file is
missing when a read fails. -/
structure VisitIo where
  opened : Bool
  read : Bool
  enoent : Bool
  unlinked : Bool
  truncated : Bool
  main : MainIo

/-- The released entries at the end of the first `n`. -/
def emptyEntries (table : Nat → Nat) : Nat → Nat
  | 0 => 0
  | n + 1 => if table n ≠ emptyIdx then 0 else emptyEntries table n + 1

/-- The first index goes up with the main tracking file. -/
def advanceFirst (io : MainIo) (s : Slice) (h : Header) (fileId : Nat) : Slice :=
  if h.firstIdx = fileId then
    { (writeMainTrackingFile io (Replica.setFirst (h.firstIdx + 1)) s).1 with header := some { h with firstIdx := h.firstIdx + 1 } }
  else s

/-- `exp_trck_delete_attempt`. -/
def deleteAttempt (io : VisitIo) (s : Slice) (h : Header) (fileId : Nat) (f : TrackingFile) : Slice :=
  let nbEntries := f.nbEntries c
  let nbEmptyEntries := emptyEntries f.table nbEntries
  if nbEmptyEntries = 0 then s
  else if nbEmptyEntries = nbEntries then
    advanceFirst io.main (if io.unlinked then s.setFile fileId none else s) h fileId
  else if io.truncated then s.setFile fileId (some (f.truncate (fileHeaderSize + c.maxAttributesSz * (nbEntries - nbEmptyEntries))))
  else s

/-- The visit of one file in `exp_trck_inode_release_poll`. -/
def Slice.visit (s : Slice) (io : VisitIo) (fileId : Nat) : Slice :=
  match s.header with
  | none => s
  | some h =>
    match s.file fileId with
    | none => advanceFirst io.main s h fileId
    | some f =>
      if io.opened ∧ io.read ∧ fileHeaderSize ≤ f.size then deleteAttempt c io s h fileId f
      else if io.enoent then advanceFirst io.main s h fileId
      else s

/-- `exp_trck_inode_release_poll` on one slice: the files before the last one. -/
def Slice.releasePoll (s : Slice) (io : Nat → VisitIo) : Slice :=
  match s.header with
  | none => s
  | some h => (List.range' h.firstIdx (h.lastIdx - h.firstIdx)).foldl (fun s fileId => s.visit c (io fileId) fileId) s

end Polling

/-- The slices, and the record of what has happened: the numbers given since the export started, and
the attributes last written for each object that was not released since. -/
structure State where
  slice : Fin 256 → Slice
  given : Inode → Bool
  attributes : Inode → Option (List UInt8)

/-- The calls on the inodes. -/
inductive Action where
  | allocate (slice : Fin 256) (io : AllocateIo)
  | write (inode : Inode) (attr : List UInt8) (io : WriteIo)
  | release (inode : Inode) (io : WriteIo)
  | poll (io : Fin 256 → Nat → VisitIo)
  | restart (io : Fin 256 → LoadIo)

variable (c : Config)

def State.setSlice (s : State) (i : Fin 256) (slice : Slice) : State := { s with slice := update s.slice i slice }

/-- `exp_metadata_allocate_inode`. -/
def State.allocate (s : State) (i : Fin 256) (io : AllocateIo) : State × Option Inode :=
  match (s.slice i).header with
  | none => (s,none)
  | some h =>
    let done := (s.slice i).allocateInode c h io
    match done.2 with
    | none => (s.setSlice i done.1,none)
    | some (fileId,idx) => ({ s.setSlice i done.1 with given := update s.given ⟨i,fileId,idx⟩ true },some ⟨i,fileId,idx⟩)

/-- The attributes after a write of which only some bytes are done. -/
def partlyWritten (attr old : List UInt8) (count : Nat) : List UInt8 := attr.take count ++ old.drop count

/-- Attributes are written, and numbers released, by those that were given them. -/
def step : Action → State → Option State
  | .allocate i io, s => some (s.allocate c i io).1
  | .write inode attr io, s =>
    if (s.given inode ∨ (s.attributes inode).isSome) ∧ attr ≠ [] then
      let done := (s.slice inode.usrId).writeAttributes c inode.fileId inode.idx attr io
      let attributes := if done.2 = attr.length then some attr else (s.attributes inode).map fun old => partlyWritten attr old done.2
      some { s.setSlice inode.usrId done.1 with attributes := update s.attributes inode attributes }
    else none
  | .release inode io, s =>
    if s.given inode ∨ (s.attributes inode).isSome then
      let done := (s.slice inode.usrId).releaseInode inode.fileId inode.idx io
      some { s.setSlice inode.usrId done.1 with attributes := if done.2 then update s.attributes inode none else s.attributes }
    else none
  | .poll io, s => some { s with slice := fun i => (s.slice i).releasePoll c (io i) }
  | .restart io, s => some { s with slice := fun i => (s.slice i).load (io i), given := fun _ => false }

/-- A new export: no file, and nothing in memory. -/
def initial : State := ⟨fun _ => ⟨fun _ => none,fun _ => none,none⟩,fun _ => false,fun _ => none⟩

end Rozofs.Tracking
