import Rozofs.Machine
import Rozofs.WritePlan
import Mathlib.Logic.Function.Basic

/-! The ring that serialises the requests of a file in the storage client: `stc_rng_insert`
and `stc_rng_release_entry`. A doubly linked list is the list of its entries. -/
namespace Rozofs.StorcliRing
open Function (update)

/-- `fid_t`. -/
abbrev Fid := Vector (BitVec 8) 16

/-- `stc_rng_entry_t`, with the number of the insertion. `run` is `STORCLI_RUN`. -/
structure Entry where
  bid : BitVec 64
  nbBlks : BitVec 64
  objPtr : Nat
  opcode : Nat
  run : Bool
  arrival : Nat
  deriving DecidableEq, Repr

/-- `stc_rng_hash_entry_t`. -/
structure Table where
  hashBit : Nat → BitVec 32
  fidTable : Nat → Fid
  listTable : Nat → List Entry

/-- A working context with a request in progress; `none` is the value -1 of `sched_idx`. -/
structure Ctx where
  objPtr : Nat
  fid : Fid
  schedIdx : Option Nat
  deriving DecidableEq, Repr

/-- `started` records the requests of a file that were let run. -/
structure Ring where
  table : Nat → Table
  serialize : Bool
  submitCount : Nat
  live : List Ctx
  started : Fid → List Entry

def storcliCtxCnt : Nat := 96

def stcRngHashSz : Nat := 16

def stcRngHashEntries : Nat := 128

def stcRngHashEntriesWord : Nat := stcRngHashEntries / 32

/-- `fid_hash`: the loop starts at the last byte. -/
def fidHash (fid : Fid) : BitVec 32 :=
  (fid.toList.drop 15).foldl (fun hash c => c.setWidth 32 + (hash <<< 6) + (hash <<< 16) - hash) 0

def rngTbIdx (fid : Fid) : Nat := (fidHash fid).toNat % stcRngHashSz

/-- Bit of a slot. -/
def Table.bit (table : Table) (slot : Nat) : Bool := (table.hashBit (slot / 32)).getLsbD (slot % 32)

/-- First slot, word by word, the bits of a word from the lowest one as `__builtin_ffs` has them. -/
def findSlot (p : Nat → Bool) : Option Nat :=
  (List.range stcRngHashEntriesWord).findSome? fun i => ((List.range 32).map (32 * i + ·)).find? p

/-- Search among the allocated entries. -/
def Table.search (table : Table) (fid : Fid) : Option Nat :=
  findSlot fun slot => table.bit slot && table.fidTable slot == fid

/-- Search for a free entry, which gets the bit, the fid and an empty list. -/
def Table.allocate (table : Table) (fid : Fid) : Option (Nat × Table) :=
  (findSlot fun slot => !table.bit slot).map fun slot => (slot,
    { hashBit := update table.hashBit (slot / 32) (table.hashBit (slot / 32) ||| 1#32 <<< (slot % 32))
      fidTable := update table.fidTable slot fid
      listTable := update table.listTable slot [] })

def Table.locate (table : Table) (fid : Fid) : Option (Nat × Table) :=
  match table.search fid with
  | some slot => some (slot,table)
  | none => table.allocate fid

/-- The test of two ranges of blocks, in 64 bits. -/
def noCollision (bid nbBlks : BitVec 64) (elt : Entry) : Bool := bid + nbBlks ≤ elt.bid || elt.bid + elt.nbBlks ≤ bid

def entryIdx (tbIdx slot : Nat) : Nat := (tbIdx &&& 0xff) ||| (slot <<< 8)

/-- `stc_rng_insert`; -1 leaves the request out of the ring. -/
def stcRngInsert (obj opcode : Nat) (fid : Fid) (bid nbBlks : BitVec 64) (ring : Ring) : Ring × Int :=
  let count := ring.submitCount + 1
  let tbIdx := rngTbIdx fid
  match (ring.table tbIdx).locate fid with
  | none => ({ ring with submitCount := count, live := ring.live ++ [⟨obj,fid,none⟩] },-1)
  | some (slot,table) =>
    let runnable := (table.listTable slot).all fun elt => !ring.serialize && noCollision bid nbBlks elt
    let entry : Entry := ⟨bid,nbBlks,obj,opcode,runnable,count⟩
    let table := { table with listTable := update table.listTable slot (table.listTable slot ++ [entry]) }
    ({ ring with
        table := update ring.table tbIdx table
        submitCount := count
        live := ring.live ++ [⟨obj,fid,some (entryIdx tbIdx slot)⟩]
        started := update ring.started fid (if runnable then ring.started fid ++ [entry] else ring.started fid) },
      if runnable then 1 else 0)

/-- The entry leaves the list. When it was the first one and the new first one waits, that one
is let run and returned. -/
def releaseList (obj : Nat) : List Entry → List Entry × Option Entry
  | [] => ([],none)
  | cur :: rest =>
    if cur.objPtr = obj then
      match rest with
      | [] => ([],none)
      | elt :: tail => if elt.run then (elt :: tail,none) else ({ elt with run := true } :: tail,some { elt with run := true })
    else ((cur :: rest).eraseP fun e => e.objPtr == obj,none)

/-- `stc_rng_release_entry`. -/
def stcRngReleaseEntry (idx obj : Nat) (fid : Fid) (ring : Ring) : Ring :=
  let tbIdx := idx &&& 0xff
  let slot := idx >>> 8
  let table := ring.table tbIdx
  let (list,next) := releaseList obj (table.listTable slot)
  let hashBit :=
    if list = [] then update table.hashBit (slot / 32) (table.hashBit (slot / 32) &&& ~~~(1#32 <<< (slot % 32)))
    else table.hashBit
  { ring with
    table := update ring.table tbIdx { table with hashBit := hashBit, listTable := update table.listTable slot list }
    started := update ring.started fid (ring.started fid ++ next.toList) }

/-- Requests come and go, and the operator may force the serialisation. -/
inductive Act where
  | insert (obj opcode : Nat) (fid : Fid) (bid nbBlks : BitVec 64)
  | release (k : Nat)
  | serialize (forced : Bool)

def step (a : Act) (ring : Ring) : Option Ring :=
  match a with
  | .insert obj opcode fid bid nbBlks =>
    if ring.live.length < storcliCtxCnt ∧ obj ∉ ring.live.map Ctx.objPtr then
      some (stcRngInsert obj opcode fid bid nbBlks ring).1
    else none
  | .release k => ring.live[k]?.map fun ctx =>
      let ring := { ring with live := ring.live.eraseIdx k }
      match ctx.schedIdx with
      | none => ring
      | some idx => stcRngReleaseEntry idx ctx.objPtr ctx.fid ring
  | .serialize forced => some { ring with serialize := forced }

/-- `stc_rng_init`. -/
def stcRngInit : Ring where
  table _ := ⟨fun _ => 0,fun _ => Vector.replicate 16 0,fun _ => []⟩
  serialize := false
  submitCount := 0
  live := []
  started _ := []

/-- Requests that are inserted, with what the message carries. -/
inductive Request where
  | read (off : BitVec 64) (len : BitVec 32)
  | write (off : BitVec 64) (len : BitVec 32) (flags : Nat)
  | truncate
  | delete

def storcliFlagsEmptyFile : Nat := 1

/-- The range of blocks that a request asks for: `read_buf_nb` of the client and the three
other callers of `stc_rng_insert`. -/
def Request.blocks (bsize : BSize) : Request → BitVec 64 × BitVec 64
  | .read off len => (BitVec.ofNat 64 (off.toNat / bsize.bytes),BitVec.ofNat 64 (len.toNat / bsize.bytes))
  | .write off len flags =>
    if flags &&& storcliFlagsEmptyFile = 0 then
      let plan := WritePlan.prepare2write bsize off.toNat len.toNat flags
      (BitVec.ofNat 64 plan.bid,BitVec.ofNat 64 plan.nbBlocks)
    else (0,0 - 1)
  | .truncate => (0,0 - 1)
  | .delete => (0,0 - 1)

end Rozofs.StorcliRing
