import Mathlib.Logic.Function.Basic
import Mathlib.Data.List.Basic
import Mathlib.Algebra.Order.Ring.Int
import Rozofs.Layout

/-! Thin provisioning of `export_thin_prov.c`: the contexts of the files that are in the cache, and the
passes that compute the number of their blocks again. -/
namespace Rozofs.ThinProvisioning
open Function (update)

/-- `expthin_ctx_state_e`. -/
inductive CtxState where
  | idle
  | updateReq
  | delReq
  | inPrg
  deriving DecidableEq, Repr

/-- Fields of `expthin_ctx_t`. -/
structure Ctx (φ : Type) where
  fid : φ
  cid : Nat
  sids : List Nat
  state : CtxState
  nb4KBBlocks : Nat
  timestamp : Nat

/-- Fields of `lv2_entry_t`; `nbBlocksThin` is a field of its attributes. -/
structure Lv2Entry (φ : Type) where
  fid : φ
  cid : Nat
  sids : List Nat
  isReg : Bool
  mtime : Nat
  nbBlocksThin : Nat
  thinProvisioningCtx : Option Nat

/-- The contexts by address, the hash table of their addresses, and the entries of the cache. -/
structure State (φ : Type) where
  next : Nat
  heap : Nat → Option (Ctx φ)
  buckets : Nat → List Nat
  nbEntries : Int
  lv2 : Nat → Option (Lv2Entry φ)

/-- The clients of a run, which all the storages of one host share: the one of a storage, by cid and sid, and whether
a client is up. -/
structure Connexions where
  client : Nat → Nat → Option Nat
  up : Nat → Bool

/-- The status that `mstoraged_lookup_cnx` leads to. -/
def Connexions.status (connexions : Connexions) (cid sid : Nat) : Option Bool := (connexions.client cid sid).map connexions.up

/-- What `mstoraged_client_get_file_size` returns; `error` is any error but `ENOENT`. -/
inductive Reply where
  | size (fileSizeInBlocks allocatedSectors : Nat)
  | enoent
  | error
  deriving DecidableEq, Repr

/-- What a pass meets: the clock, the layout of the export of a file, the connections that
`mstoraged_setup_cnx` makes and the answers of the storages. -/
structure Env (φ : Type) where
  now : Nat
  later : Nat
  exports : φ → Option Layout
  setup : φ → Option Connexions
  reply : Nat → Nat → φ → Reply

/-- `EXPTHIN_MAX_SID`. -/
def maxSid : Nat := 9

section Entries
variable {φ : Type} (hash : φ → Nat) (size : Nat)

def bucketOf (fid : φ) : Nat := hash fid % size

/-- `expthin_allocate_context`, with `expthin_htable_insert_th`. -/
def expthinAllocateContext (lv2 : Lv2Entry φ) (st : State φ) : State φ :=
  let ctx : Ctx φ := ⟨lv2.fid,lv2.cid,lv2.sids.take maxSid,.idle,lv2.nbBlocksThin,lv2.mtime⟩
  { st with
    next := st.next + 1
    heap := update st.heap st.next (some ctx)
    buckets := update st.buckets (bucketOf hash size lv2.fid) (st.buckets (bucketOf hash size lv2.fid) ++ [st.next])
    nbEntries := st.nbEntries + 1 }

/-- The answer of `expthin_check_entry`: the inode has to be written, and the change of its blocks. -/
structure Change where
  update : Bool
  nbBlock : Nat
  dir : Int
  deriving DecidableEq, Repr

/-- `expthin_check_entry` on a context: its state and the change of the blocks. -/
def checkContext (writeBlockFlag : Bool) (lv2 : Lv2Entry φ) (ctx : Ctx φ) : Ctx φ × Change :=
  let change : Change :=
    if ctx.nb4KBBlocks = lv2.nbBlocksThin then ⟨false,0,0⟩
    else if ctx.nb4KBBlocks > lv2.nbBlocksThin then ⟨true,ctx.nb4KBBlocks - lv2.nbBlocksThin,1⟩
    else ⟨true,lv2.nbBlocksThin - ctx.nb4KBBlocks,-1⟩
  (if writeBlockFlag ∨ ctx.nb4KBBlocks = 0 then { ctx with state := .updateReq } else ctx,change)

/-- `expthin_check_entry`; `none` when the entry or its context does not exist. -/
def expthinCheckEntry (thin : Bool) (entry : Nat) (writeBlockFlag : Bool) (st : State φ) : Option (State φ × Change) :=
  match st.lv2 entry with
  | none => none
  | some lv2 =>
    if !thin || !lv2.isReg then some (st,⟨false,0,0⟩)
    else
      let (st,ctxP) := match lv2.thinProvisioningCtx with
        | some ctxP => (st,ctxP)
        | none => (expthinAllocateContext hash size lv2 st,st.next)
      match st.heap ctxP with
      | none => none
      | some ctx =>
        let (ctx,change) := checkContext writeBlockFlag lv2 ctx
        some ({ st with
          heap := update st.heap ctxP (some ctx)
          lv2 := update st.lv2 entry (some { lv2 with nbBlocksThin := ctx.nb4KBBlocks, thinProvisioningCtx := some ctxP }) },change)

/-- `expthin_remove_entry`, and the entry leaves the cache. -/
def expthinRemoveEntry (entry : Nat) (st : State φ) : Option (State φ) :=
  match st.lv2 entry with
  | none => none
  | some lv2 =>
    let heap := match lv2.thinProvisioningCtx with
      | none => st.heap
      | some ctxP => update st.heap ctxP ((st.heap ctxP).map fun ctx => { ctx with state := .delReq })
    some { st with heap := heap, lv2 := update st.lv2 entry none }

end Entries

section Passes
variable {φ : Type} (guardDelay : Nat) (env : Env φ)

/-- `expthin_blocks_compute_t`; the occurences are the length of the list. -/
structure Compute where
  fileSizeInBlocks : Nat
  allocatedSectors : List Nat

/-- Local variables of the loop over the storages of a file. -/
structure Poll where
  connexions : Connexions
  table : Nat → Compute
  nbOccurences : Nat
  occurenceIndex : Nat

/-- The size and the sectors of an answer. A file that does not exist has none. -/
def Reply.answer : Reply → Option (Nat × Nat)
  | .size fileSizeInBlocks allocatedSectors => some (fileSizeInBlocks,allocatedSectors)
  | .enoent => some (0,0)
  | .error => none

/-- The answer of storage `i` is put with those of the same size, of which the table has the low 32 bits. The sectors
of the first answer of a size are not stored. -/
def Poll.tally (i size sectors : Nat) (poll : Poll) : Poll :=
  match (List.range i).find? fun k => (poll.table k).fileSizeInBlocks = size with
  | some k =>
    let compute : Compute := ⟨size % 2 ^ 32,(poll.table k).allocatedSectors ++ [sectors]⟩
    { poll with table := update poll.table k compute, nbOccurences := compute.allocatedSectors.length, occurenceIndex := k }
  | none => { poll with table := update poll.table i ⟨size % 2 ^ 32,(poll.table i).allocatedSectors ++ [0]⟩ }

/-- The client of a storage that fails is not used again. -/
def Connexions.down (connexions : Connexions) (cid sid : Nat) : Connexions :=
  match connexions.client cid sid with
  | none => connexions
  | some client => { connexions with up := update connexions.up client false }

/-- The loop over the storages of a file from storage `i` on. -/
def pollLoop (entry : Ctx φ) (quorum : Nat) : Nat → Nat → Poll → Poll
  | 0, _, poll => poll
  | left + 1, i, poll =>
    let sid := entry.sids.getD i 0
    if sid = 0 then pollLoop entry quorum left (i + 1) poll
    else if poll.connexions.status entry.cid sid ≠ some true then pollLoop entry quorum left (i + 1) poll
    else
      match (env.reply entry.cid sid entry.fid).answer with
      | none => pollLoop entry quorum left (i + 1) { poll with connexions := poll.connexions.down entry.cid sid }
      | some (size,sectors) =>
        let poll := poll.tally i size sectors
        if poll.nbOccurences ≥ quorum then poll else pollLoop entry quorum left (i + 1) poll

/-- The answers that are needed. -/
def quorum (layout : Layout) : Nat := layout.rozofsInverse / 2 + 1

/-- The number of 4KB blocks for the greatest number of sectors. -/
def nbBlocks (layout : Layout) (allocatedSectors : List Nat) : Nat :=
  let maxAllocatedSectors := allocatedSectors.foldl max 0
  (maxAllocatedSectors % 2 ^ 32 / 8 + if maxAllocatedSectors % 8 ≠ 0 then 1 else 0) * layout.rozofsInverse % 2 ^ 32

/-- What a pass over a bucket works on. -/
structure Line (φ : Type) where
  heap : Nat → Option (Ctx φ)
  nbEntries : Int
  cnxInit : Bool
  connexions : Connexions
  processedFiles : Nat

/-- The end of the work on a context: `true` when the pass goes to `out`. -/
def computeEntry (p : Nat) (entry : Ctx φ) (line : Line φ) : Line φ × Bool :=
  match env.exports entry.fid with
  | none => (line,false)
  | some layout =>
    match if line.cnxInit then some line.connexions else env.setup entry.fid with
    | none => ({ line with cnxInit := true },true)
    | some connexions =>
      let poll := pollLoop env entry (quorum layout) layout.rozofsForward 0 ⟨connexions,fun _ => ⟨0,[]⟩,0,0⟩
      let line := { line with cnxInit := true, connexions := poll.connexions }
      if poll.nbOccurences < quorum layout then (line,false)
      else
        let entry := { entry with
          timestamp := env.later
          nb4KBBlocks := nbBlocks layout (poll.table poll.occurenceIndex).allocatedSectors
          state := if entry.state = .inPrg then .idle else entry.state }
        ({ line with processedFiles := line.processedFiles + 1, heap := update line.heap p (some entry) },false)

/-- It is time to compute the blocks of a context again; times are unsigned words. -/
def due (entry : Ctx φ) : Bool := entry.state = .updateReq && (env.now + 2 ^ 64 - entry.timestamp) % 2 ^ 64 ≥ guardDelay

/-- The loop of `expthin_block_compute_hash_line` over the contexts that were in the bucket; those that it
leaves go back to the bucket. -/
def hashLineLoop : List Nat → Line φ → List Nat × Line φ
  | [], line => ([],line)
  | p :: rest, line =>
    match line.heap p with
    | none => (p :: rest,line)
    | some entry =>
      if entry.state = .delReq then
        hashLineLoop rest { line with heap := update line.heap p none, nbEntries := line.nbEntries - 1 }
      else if due guardDelay env entry then
        let inPrg := { entry with state := .inPrg }
        match computeEntry env p inPrg { line with heap := update line.heap p (some inPrg) } with
        | (line,true) => (p :: rest,line)
        | (line,false) =>
          let (left,line) := hashLineLoop rest line
          (p :: left,line)
      else
        let (left,line) := hashLineLoop rest line
        (p :: left,line)

end Passes

section Steps
variable {φ : Type} (hash : φ → Nat) (size guardDelay : Nat)

/-- An entry comes into the cache, the calls on it, and a pass over a bucket with the connections that the
run of the thread has so far. -/
inductive Act (φ : Type) where
  | load (entry : Nat) (lv2 : Lv2Entry φ)
  | check (thin : Bool) (entry : Nat) (writeBlockFlag : Bool)
  | remove (entry : Nat)
  | pass (bucket : Nat) (env : Env φ) (cnxInit : Bool) (connexions : Connexions)

def step (a : Act φ) (st : State φ) : Option (State φ) :=
  match a with
  | .load entry lv2 =>
    if (st.lv2 entry).isNone then some { st with lv2 := update st.lv2 entry (some { lv2 with thinProvisioningCtx := none }) } else none
  | .check thin entry writeBlockFlag => (expthinCheckEntry hash size thin entry writeBlockFlag st).map Prod.fst
  | .remove entry => expthinRemoveEntry entry st
  | .pass bucket env cnxInit connexions =>
    let (left,line) := hashLineLoop guardDelay env (st.buckets bucket) ⟨st.heap,st.nbEntries,cnxInit,connexions,0⟩
    some { st with heap := line.heap, nbEntries := line.nbEntries, buckets := update st.buckets bucket left }

/-- `expthin_htable_initialize_th`. -/
def init : State φ := ⟨0,fun _ => none,fun _ => [],0,fun _ => none⟩

end Steps

end Rozofs.ThinProvisioning
