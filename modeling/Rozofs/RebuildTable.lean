import Rozofs.Machine
import Mathlib.Logic.Function.Basic
import Mathlib.Data.List.Basic
import Mathlib.Algebra.Order.Ring.Int

/-! Rebuilds of files on a storage: the rebuild contexts of `storio_device_mapping.h` and their
use in `sproto_nb.c` by the requests to start, write and stop a rebuild and by the writes of
clients. A file has eight references to contexts, which all files share. A reference 0xFF is
`none`, and so is the FID of a context that is reset: no request carries the null FID. -/
namespace Rozofs.RebuildTable
open Function (update)

/-- A FID: the file, without its recycle counter, and the counter. -/
structure Fid (κ : Type) where
  key : κ
  recycle : BitVec 2
  deriving DecidableEq

/-- `STORIO_REBUILD_T`. `serial` records which of the accepted rebuilds the context is of. -/
structure Rebuild (κ : Type) where
  fid : Option (Fid κ)
  spare : Bool
  startBlock : BitVec 64
  stopBlock : BitVec 64
  serial : Nat

/-- `storio_rebuild_ctx_reset`. -/
def Rebuild.reset (κ : Type) : Rebuild κ := ⟨none,false,0,0,0⟩

/-- The stop block of a rebuild without end. -/
def noEnd : BitVec 64 := BitVec.allOnes 64

/-- A rebuild that was accepted: its FID, the index of its reference and its context. -/
structure Accepted (κ : Type) where
  fid : Fid κ
  index : Nat
  ref : Nat
  deriving DecidableEq

/-- A client write, with the number of rebuilds that were accepted before it. -/
structure ClientWrite (κ : Type) where
  key : κ
  bid : BitVec 64
  nbProj : BitVec 32
  starts : Nat
  deriving DecidableEq

/-- `accepted` records the rebuilds that were accepted and did not end since, by a stop request,
by a client write, by a write out of their area or by their age; `indexes` the indexes that
requests used in the references of their file; `starts` the number of rebuilds that were accepted,
which are numbered from 0, and `clientWrites` the client writes. -/
structure State (κ : Type) where
  pool : Nat → Rebuild κ
  freeList : List Nat
  table : κ → Nat → Option Nat
  /-- Stop requests in the hand of a disk thread, which removes a data file. -/
  stopping : List (Fid κ × BitVec 32)
  accepted : List (Accepted κ)
  indexes : List Nat
  starts : Nat
  clientWrites : List (ClientWrite κ)

/-- A write names the rebuild that sends it, of which the storage is told nothing. -/
inductive Action (κ : Type) where
  | start (fid : Fid κ) (startBid stopBid : BitVec 64) (spare : Bool) (aged : Nat → Bool)
  | write (fid : Fid κ) (rebuildRef : BitVec 32) (bid : BitVec 64) (nbProj : BitVec 32) (sender : Nat)
  | stop (fid : Fid κ) (rebuildRef : BitVec 32) (same relocated : Bool)
  | stopResponse

def maxStorioParallelRebuild : Nat := 64

def maxFidParallelRebuild : Nat := 8

/-- `storio_rebuild_ctx_distributor_init`: each context is put in front of the free ones. -/
def init (κ : Type) : State κ :=
  { pool := fun _ => .reset κ, freeList := (List.range maxStorioParallelRebuild).reverse, table := fun _ _ => none,
    stopping := [], accepted := [], indexes := [], starts := 0, clientWrites := [] }

/-- `write_first` and `write_last` are of type `int`. -/
def writeFirst (bid : BitVec 64) : BitVec 32 := bid.setWidth 32

def writeLast (bid : BitVec 64) (nbProj : BitVec 32) : BitVec 32 := writeFirst bid + nbProj - 1

/-- The value of an `int` in a comparison with an unsigned value of 64 bits. -/
def wide (value : BitVec 32) : BitVec 64 := value.signExtend 64

section Table
variable {κ : Type} [DecidableEq κ]

/-- `storio_rebuild_ctx_retrieve` for a FID. -/
def retrieve (st : State κ) (ref : Option Nat) (fid : Fid κ) : Option Nat :=
  match ref with
  | none => none
  | some ref => if ref < maxStorioParallelRebuild ∧ (st.pool ref).fid = some fid then some ref else none

def setEntry (key : κ) (i : Nat) (ref : Option Nat) (st : State κ) : State κ :=
  { st with table := update st.table key (update (st.table key) i ref) }

/-- The reference is reset and its rebuild is over. -/
def endEntry (key : κ) (i : Nat) (st : State κ) : State κ :=
  { setEntry key i none st with accepted := st.accepted.filter fun r => ¬ (r.fid.key = key ∧ r.index = i) }

/-- `storio_rebuild_ctx_free`. -/
def ctxFree (ref : Nat) (st : State κ) : State κ :=
  { st with pool := update st.pool ref (.reset κ), freeList := ref :: st.freeList }

/-- The test of a start request against a rebuild in progress. -/
def incompatible (r : Rebuild κ) (startBid stopBid : BitVec 64) : Bool :=
  if r.stopBlock = noEnd then stopBid = noEnd || r.startBlock ≤ stopBid
  else if stopBid = noEnd then r.stopBlock ≤ startBid
  else startBid ≤ r.stopBlock && r.startBlock ≤ stopBid

/-- The loop of a start request over the references of the file, with the last index found that
can be used. Contexts are looked up with the FID without recycle counter. A rebuild that was not
written for too long is aborted. -/
def checkRebuilds (key : κ) (startBid stopBid : BitVec 64) (aged : Nat → Bool) :
    List Nat → State κ → Option Nat → State κ × Option (Option Nat)
  | [], st, selected => (st,some selected)
  | i :: rest, st, selected =>
    match st.table key i with
    | none => checkRebuilds key startBid stopBid aged rest st (some i)
    | some ref =>
      match retrieve st (some ref) ⟨key,0⟩ with
      | none => checkRebuilds key startBid stopBid aged rest (setEntry key i none st) (some i)
      | some ref =>
        if aged ref then checkRebuilds key startBid stopBid aged rest (endEntry key i (ctxFree ref st)) (some i)
        else if incompatible (st.pool ref) startBid stopBid then (st,none)
        else checkRebuilds key startBid stopBid aged rest st selected

/-- `storio_rebuild_ctx_allocate`: a free context, or one that was not written for too long, which
is not the one of a spare file if possible. -/
def ctxAllocate (aged : Nat → Bool) (st : State κ) : State κ × Option Nat :=
  match st.freeList with
  | ref :: rest => ({ st with freeList := rest, pool := update st.pool ref (.reset κ) },some ref)
  | [] =>
    let old := fun spare => (List.range maxStorioParallelRebuild).find? fun ref =>
      (st.pool ref).spare == spare && aged ref
    match (old false).or (old true) with
    | none => (st,none)
    | some ref =>
      ({ st with pool := update st.pool ref (.reset κ), accepted := st.accepted.filter fun r => r.ref ≠ ref },some ref)

/-- `sp_rebuild_start_1_svc_disk_thread`: the reference returned, or a failure. -/
def rebuildStart (fid : Fid κ) (startBid stopBid : BitVec 64) (spare : Bool) (aged : Nat → Bool) (st : State κ) :
    State κ × Option Nat :=
  if stopBid ≠ noEnd ∧ stopBid < startBid then (st,none)
  else
    match checkRebuilds fid.key startBid stopBid aged (List.range maxFidParallelRebuild) st none with
    | (st,none) => (st,none)
    | (st,some none) => (st,none)
    | (st,some (some index)) =>
      match ctxAllocate aged st with
      | (st,none) => (st,none)
      | (st,some ref) =>
        let st := setEntry fid.key index (some ref)
          { st with pool := update st.pool ref ⟨some fid,spare,startBid,stopBid,st.starts⟩ }
        ({ st with accepted := ⟨fid,index,ref⟩ :: st.accepted, indexes := index :: st.indexes, starts := st.starts + 1 },
          some (index + 1))

/-- A client write meets one rebuild of its file: it cuts the area, or breaks the rebuild. -/
def writeEntry (fid : Fid κ) (bid : BitVec 64) (nbProj : BitVec 32) (st : State κ) (i : Nat) : State κ :=
  match st.table fid.key i with
  | none => st
  | some ref =>
    match retrieve st (some ref) fid with
    | none => endEntry fid.key i st
    | some ref =>
      let r := st.pool ref
      let first := wide (writeFirst bid)
      if r.startBlock < first ∧ (r.stopBlock = noEnd ∨ first ≤ r.stopBlock) then
        { st with pool := update st.pool ref { r with stopBlock := wide (writeFirst bid - 1) } }
      else if first ≤ r.startBlock ∧ r.startBlock ≤ wide (writeLast bid nbProj) then endEntry fid.key i (ctxFree ref st)
      else st

/-- A write that comes from a storcli. -/
def clientWrite (fid : Fid κ) (bid : BitVec 64) (nbProj : BitVec 32) (st : State κ) : State κ :=
  (List.range maxFidParallelRebuild).foldl (writeEntry fid bid nbProj)
    { st with clientWrites := ⟨fid.key,bid,nbProj,st.starts⟩ :: st.clientWrites }

/-- A write that comes from a rebuild: the context under which it is accepted. -/
def rebuildWrite (fid : Fid κ) (i : Nat) (bid : BitVec 64) (nbProj : BitVec 32) (st : State κ) : State κ × Option Nat :=
  let st := { st with indexes := i :: st.indexes }
  match retrieve st (st.table fid.key i) fid with
  | none => (endEntry fid.key i st,none)
  | some ref =>
    let r := st.pool ref
    if (r.stopBlock ≠ noEnd ∧ r.stopBlock < wide (writeLast bid nbProj)) ∨ wide (writeFirst bid) < r.startBlock then
      (endEntry fid.key i (ctxFree ref st),none)
    else ({ st with pool := update st.pool ref { r with startBlock := wide (writeFirst bid) } },some ref)

/-- `sp_write_1_svc_disk_thread`; `sp_write_empty_1_svc_disk_thread` is the same. The reference is
an `uint8_t` in the handlers, and 0 there is a client write. -/
def spWrite (fid : Fid κ) (rebuildRef : BitVec 32) (bid : BitVec 64) (nbProj : BitVec 32) (st : State κ) : State κ :=
  let nbRebuild := (rebuildRef.setWidth 8).toNat
  if maxFidParallelRebuild < nbRebuild then st
  else if nbRebuild = 0 then clientWrite fid bid nbProj st
  else (rebuildWrite fid (nbRebuild - 1) bid nbProj st).1

/-- `sp_rebuild_stop_response`, or the end of `sp_rebuild_stop_1_svc_disk_thread`. -/
def stopEntry (fid : Fid κ) (i : Nat) (st : State κ) : State κ :=
  match st.table fid.key i with
  | none => st
  | some ref =>
    match retrieve st (some ref) fid with
    | none => endEntry fid.key i st
    | some ref => endEntry fid.key i (ctxFree ref st)

/-- The index of a stop request; the test lets one pass that is beyond the references. -/
def stopIndex (rebuildRef : BitVec 32) : Option Nat :=
  let nbRebuild := (rebuildRef.setWidth 8 - 1).toNat
  if maxFidParallelRebuild < nbRebuild then none else some nbRebuild

/-- `sp_rebuild_stop_1_svc_disk_thread`. `same` tells whether the file has the recycle counter of
the request, `relocated` whether its chunk was moved to another device by the rebuild. -/
def rebuildStop (fid : Fid κ) (rebuildRef : BitVec 32) (same relocated : Bool) (st : State κ) : State κ :=
  if !same then st
  else
    match stopIndex rebuildRef with
    | none => st
    | some i =>
      let st := { st with indexes := i :: st.indexes }
      if relocated && (retrieve st (st.table fid.key i) fid).isSome then
        { st with stopping := st.stopping ++ [(fid,rebuildRef)] }
      else stopEntry fid i st

def step : Action κ → State κ → Option (State κ)
  | .start fid startBid stopBid spare aged, st => some (rebuildStart fid startBid stopBid spare aged st).1
  | .write fid rebuildRef bid nbProj _, st => some (spWrite fid rebuildRef bid nbProj st)
  | .stop fid rebuildRef same relocated, st => some (rebuildStop fid rebuildRef same relocated st)
  | .stopResponse, st =>
    match st.stopping with
    | [] => none
    | (fid,rebuildRef) :: rest =>
      let st := { st with stopping := rest }
      match stopIndex rebuildRef with
      | none => some st
      | some i => some (stopEntry fid i { st with indexes := i :: st.indexes })

end Table

end Rozofs.RebuildTable
