import Rozofs.Layout

/-! Block selection of a read: `rozofs_storcli_transform_update_headers` and the two passes
of `rozofs_storcli_transform_inverse_check`. Timestamps, lengths and ids are natural numbers,
since the code only compares them. -/
namespace Rozofs.InverseCheck

/-- `rozofs_stor_bins_hdr_t`, without its version and filler. -/
structure BinsHdr where
  timestamp : Nat
  effectiveLength : Nat
  projectionId : Nat
  deriving DecidableEq, Repr

/-- One block of a projection as a storage returned it: its header and the 64-bit words
that follow. -/
structure RcvBlock where
  hdr : BinsHdr
  word : Nat → Nat

/-- `rozofs_read_req_state_e`. -/
inductive PrjState where
  | idle
  | inPrg
  | done
  | error
  | enoent
  deriving DecidableEq, Repr

/-- What the read path uses of `rozofs_storcli_projection_ctx_t`. -/
structure PrjCtx where
  prjState : PrjState
  storIdx : Nat
  blockHdrTab : Nat → BinsHdr
  crcErrBitmap : Nat → Bool

/-- Header kept for one returned block: CRC error, empty block, out of range projection id,
inconsistent footer, normal case. -/
def updateHeader (layout : Layout) (bsize : BSize) (block : RcvBlock) : BinsHdr :=
  if block.hdr.projectionId = 0xff then ⟨0,bsize.bytes,0⟩
  else if block.hdr.timestamp = 0 then ⟨block.hdr.timestamp,bsize.bytes,0⟩
  else if getPsizes layout bsize block.hdr.projectionId = 0 then ⟨0,bsize.bytes,0⟩
  else if block.word (getPsizes layout bsize block.hdr.projectionId) ≠ block.hdr.timestamp then
    ⟨0,bsize.bytes,0⟩
  else block.hdr

/-- `rozofs_storcli_transform_update_headers`; blocks after the returned ones are cleared. -/
def transformUpdateHeaders (ctx : PrjCtx) (layout : Layout) (bsize : BSize) (returned requested : Nat)
    (bins : Nat → RcvBlock) : PrjCtx :=
  { ctx with
    blockHdrTab := fun b =>
      if b < returned then updateHeader layout bsize (bins b)
      else if b < requested then ⟨0,0,0⟩ else ctx.blockHdrTab b
    crcErrBitmap := fun b =>
      ctx.crcErrBitmap b || decide (b < returned ∧ (bins b).hdr.projectionId = 0xff) }

/-- `rozofs_storcli_timestamp_ctx_t`; `count` is the length of `prjIdxTb`. The 32-bit word `prjid_bitmap` is a
number: the header update leaves no id from 32 on. -/
structure TimestampCtx where
  timestamp : Nat
  effectiveLength : Nat
  prjidBitmap : Nat
  prjIdxTb : List Nat
  deriving DecidableEq, Repr

abbrev Answer := Nat × BinsHdr

namespace TimestampCtx

def count (p : TimestampCtx) : Nat := p.prjIdxTb.length

def agrees (p : TimestampCtx) (h : BinsHdr) : Bool :=
  h.timestamp == p.timestamp && h.effectiveLength == p.effectiveLength

/-- The same projection id is already in the list. -/
def listed (p : TimestampCtx) (h : BinsHdr) : Bool :=
  h.timestamp != 0 && p.prjidBitmap.testBit h.projectionId

def add (p : TimestampCtx) (a : Answer) : TimestampCtx :=
  { p with prjidBitmap := p.prjidBitmap ||| 1 <<< a.2.projectionId, prjIdxTb := p.prjIdxTb ++ [a.1] }

def start (a : Answer) : TimestampCtx :=
  ⟨a.2.timestamp,a.2.effectiveLength,1 <<< a.2.projectionId,[a.1]⟩

end TimestampCtx

/-- Headers of a block in the projections that were read, in the order of the contexts. -/
def answers (layout : Layout) (ctxs : Nat → PrjCtx) (blockIdx : Nat) : List Answer :=
  (List.range layout.rozofsSafe).filterMap fun i =>
    if (ctxs i).prjState = .done then some (i,(ctxs i).blockHdrTab blockIdx) else none

/-- Storages that are neither read nor without the file. -/
def leftStorage (layout : Layout) (ctxs : Nat → PrjCtx) : Nat :=
  (List.range layout.rozofsSafe).countP fun i =>
    (ctxs i).prjState ≠ .enoent ∧ (ctxs i).prjState ≠ .done

/-- End of a pass: a quorum with the rest of the table, or none. -/
inductive Pass where
  | found (p : TimestampCtx) (others : List TimestampCtx)
  | missed (tb : List TimestampCtx)
  deriving DecidableEq, Repr

/-- First pass, against the first projection found. The second entry of the table collects
the projections that do not agree with it. -/
def checkReference (inverse : Nat) : List Answer → Option TimestampCtx → List Nat → Pass
  | [], ref, _ => .missed ref.toList
  | a :: rest, ref, others =>
    if a.2.timestamp = 0 ∧ a.2.effectiveLength = 0 then checkReference inverse rest ref others
    else if a.2.projectionId = 0xff then checkReference inverse rest ref others
    else match ref with
      | none => checkReference inverse rest (some (.start a)) others
      | some p =>
        if p.agrees a.2 then
          if p.listed a.2 then checkReference inverse rest ref others
          else if (p.add a).count = inverse then .found (p.add a) [⟨0,0,0,others⟩]
          else checkReference inverse rest (some (p.add a)) others
        else checkReference inverse rest ref (others ++ [a.1])

/-- Search of the entry of an answer in the timestamp table; the last component is the
entry that reached `inverse` projections. -/
def register (inverse : Nat) (a : Answer) : List TimestampCtx → List TimestampCtx × Option TimestampCtx
  | [] => ([.start a],none)
  | p :: rest =>
    if p.agrees a.2 then
      if p.listed a.2 then (p :: rest,none)
      else (p.add a :: rest,if (p.add a).count = inverse then some (p.add a) else none)
    else
      let (rest,winner) := register inverse a rest
      (p :: rest,winner)

/-- Second pass, with one entry for each timestamp and length. -/
def checkTable (inverse : Nat) : List Answer → List TimestampCtx → Pass
  | [], tb => .missed tb
  | a :: rest, tb =>
    if a.2.projectionId = 0xff then checkTable inverse rest tb
    else match register inverse a tb with
      | (tb,some p) => .found p (tb.filter (· ≠ p))
      | (tb,none) => checkTable inverse rest tb

structure Outcome where
  ret : Int
  timestamp : Nat
  effectiveLength : Nat
  prjIdxTb : List Nat
  corruptedBlocks : Nat
  rebuild : List Nat
  deriving DecidableEq, Repr

/-- `rozofs_storcli_mark_projection2rebuild`. -/
def markProjection2rebuild (ctxs : Nat → PrjCtx) (tb : List TimestampCtx) : List Nat :=
  (tb.flatMap (·.prjIdxTb)).filter fun i => (ctxs i).storIdx = i

/-- `rozofs_storcli_transform_inverse_check_timestamp_tb`; `prjIdxTb` is what the first pass
left in the table of indexes. -/
def checkTimestampTb (layout : Layout) (bsize : BSize) (ctxs : Nat → PrjCtx) (blockIdx : Nat)
    (prjIdxTb : List Nat) : Outcome :=
  match checkTable layout.rozofsInverse (answers layout ctxs blockIdx) [] with
  | .found p others => ⟨1,p.timestamp,p.effectiveLength,p.prjIdxTb,0,markProjection2rebuild ctxs others⟩
  | .missed tb =>
    if tb = [] then ⟨0,0,0,prjIdxTb,0,[]⟩
    else if tb.any fun p => leftStorage layout ctxs + p.count ≥ layout.rozofsForward then
      ⟨-1,0,0,prjIdxTb,0,[]⟩
    else ⟨0,0,bsize.bytes,prjIdxTb,1,[]⟩

/-- `rozofs_storcli_transform_inverse_check`. -/
def transformInverseCheck (layout : Layout) (bsize : BSize) (ctxs : Nat → PrjCtx) (blockIdx : Nat) : Outcome :=
  match checkReference layout.rozofsInverse (answers layout ctxs blockIdx) none [] with
  | .found p others =>
    ⟨layout.rozofsInverse,p.timestamp,p.effectiveLength,p.prjIdxTb,0,markProjection2rebuild ctxs others⟩
  | .missed [] => ⟨0,0,0,[],0,[]⟩
  | .missed (p :: _) => checkTimestampTb layout bsize ctxs blockIdx p.prjIdxTb

/-- `rozofs_storcli_rebuild_check`: the loop leaves early on `inverse` answers, or when more
than `inverse` storages do not have the file. -/
def rebuildCheck (inverse : Nat) : List PrjState → Nat → Nat → Nat
  | [], received, _ => received
  | .done :: rest, received, enoent =>
    if received + 1 = inverse then received + 1 else rebuildCheck inverse rest (received + 1) enoent
  | .enoent :: rest, received, enoent =>
    if enoent + 1 > inverse then enoent + 1 else rebuildCheck inverse rest received (enoent + 1)
  | _ :: rest, received, enoent => rebuildCheck inverse rest received enoent

/-- The read response handler goes on to the check of the blocks. -/
def enoughProjections (layout : Layout) (ctxs : Nat → PrjCtx) : Bool :=
  rebuildCheck layout.rozofsInverse ((List.range layout.rozofsSafe).map fun i => (ctxs i).prjState) 0 0 ≥
    layout.rozofsInverse

/-- Answers to the projection reads of a request; `stale` is what the header tables held
before. -/
structure Received where
  prjState : Nat → PrjState
  storIdx : Nat → Nat
  returned : Nat → Nat
  bins : Nat → Nat → RcvBlock
  stale : Nat → Nat → BinsHdr

/-- Projection contexts once every answer has been through the header update. -/
def Received.ctxs (r : Received) (layout : Layout) (bsize : BSize) (requested : Nat) (i : Nat) : PrjCtx :=
  let ctx : PrjCtx := ⟨r.prjState i,r.storIdx i,r.stale i,fun _ => false⟩
  if r.prjState i = .done then
    transformUpdateHeaders ctx layout bsize (r.returned i) requested (r.bins i)
  else ctx

end Rozofs.InverseCheck
