import Rozofs.RebuildAgreement
import Rozofs.BlockTransform

/-! The transforms of a rebuild, `rbs_transform_inverse` and `rbs_transform_forward_one_proj`, and
what they make of the projections that survived. -/
namespace Rozofs.RebuildTransform
open Mojette BlockTransform RebuildCheck
open InverseCheck (PrjState BinsHdr RcvBlock Received)

/-- The table of `rbs_projection_ctx_t`; a block of a projection is what the code finds at its
place in the bins. -/
structure PrjCtxs where
  prjState : Nat → PrjState
  nbBlocks : Nat → Nat
  bins : Nat → Nat → PrjBlock

/-- `rbs_inverse_block_t`. -/
structure InverseBlock where
  done : Bool
  timestamp : Nat
  effectiveLength : Nat
  deriving DecidableEq, Repr

/-- What `rbs_transform_inverse` writes: the working array of blocks, the data and `empty`. -/
structure Inverted where
  blocks : Nat → InverseBlock
  data : Bytes
  empty : Bool

section Transform
variable (layout : Layout) (bsize : BSize)

/-- `rozofs_get_max_psize_in_msg`, in bytes: the distance of two blocks in the bins. -/
def getMaxPsizeInMsg : Nat :=
  let sz := getMaxPsize layout bsize * 8 + 16 + 8
  if sz % 16 ≠ 0 then sz + (16 - sz % 16) else sz

/-- The contexts as the check of the timestamps reads them. -/
def PrjCtxs.received (ctxs : PrjCtxs) : Received where
  prjState := ctxs.prjState
  storIdx := fun i => i
  returned := ctxs.nbBlocks
  bins := fun i b => (ctxs.bins i b).rcv layout bsize
  stale := fun _ _ => ⟨0,0,0⟩

/-- The projection of a context, under the id of its header. Its size counts 64-bit words, where
the inverse transform expects lanes. -/
def rbsProjection (p : PrjBlock) : Projection :=
  ⟨⟨getAnglesP layout p.hdr.projectionId,getAnglesQ layout p.hdr.projectionId⟩,
    getPsizes layout bsize p.hdr.projectionId,p.bins⟩

/-- The inverse transform of a block, from the contexts that the check selected. -/
def decode (ctxs : PrjCtxs) (idx : Nat) (found : Selected) (target : Bytes) (stack : Buffer) : Bytes :=
  byte (inverseBlock layout bsize (lane target) stack
    ((found.prjIdxTb.take layout.rozofsInverse).map fun c => rbsProjection layout bsize (ctxs.bins c idx)))

def Inverted.setBlock (st : Inverted) (idx : Nat) (block : InverseBlock) : Inverted :=
  { st with blocks := fun b => if b = idx then block else st.blocks b }

def Inverted.fill (st : Inverted) (base : Nat) (bytes : Bytes) : Inverted :=
  { st with data := fun a => if base ≤ a ∧ a < base + bsize.bytes then bytes (a - base) else st.data a }

/-- Loop of `rbs_transform_inverse` from block `idx` on, over `n` blocks, with its success. The
check clears the timestamp of the block before it looks at the projections. -/
def inverseLoop (ctxs : PrjCtxs) (firstBlockIdx : Nat) (stack : Nat → Buffer) : Nat → Nat → Inverted → Inverted × Bool
  | 0, _, st => (st,true)
  | n + 1, idx, st =>
    if (st.blocks idx).done then
      inverseLoop ctxs firstBlockIdx stack n (idx + 1)
        { st with empty := if (st.blocks idx).timestamp ≠ 0 then false else st.empty }
    else
      let base := bsize.bytes * (firstBlockIdx + idx)
      match checkTimestampTb layout bsize (ctxs.received layout bsize) idx with
      | none => (st.setBlock idx { st.blocks idx with timestamp := 0 },false)
      | some found =>
        let st := st.setBlock idx ⟨true,found.timestamp,found.effectiveLength⟩
        if found.timestamp = 0 then inverseLoop ctxs firstBlockIdx stack n (idx + 1) (st.fill bsize base fun _ => 0)
        else
          let block := decode layout bsize ctxs idx found (st.data.shift base) (stack idx)
          inverseLoop ctxs firstBlockIdx stack n (idx + 1) { st.fill bsize base block with empty := false }

/-- `rbs_transform_inverse`. -/
def transformInverse (ctxs : PrjCtxs) (firstBlockIdx numberOfBlocks : Nat) (stack : Nat → Buffer)
    (blocks : Nat → InverseBlock) (data : Bytes) : Inverted × Bool :=
  inverseLoop layout bsize ctxs firstBlockIdx stack numberOfBlocks 0 ⟨blocks,data,true⟩

/-- `rbs_transform_forward_one_proj`; `prj` gives the blocks of the context that the projection id
designates. -/
def transformForwardOneProj (blocks : Nat → InverseBlock) (firstBlockIdx numberOfBlocks projectionId : Nat)
    (data : Bytes) (prj : Nat → PrjBlock) : Nat → PrjBlock :=
  (List.range numberOfBlocks).foldl (fun prj i b =>
    if b = firstBlockIdx + i then
      ⟨⟨(blocks (firstBlockIdx + i)).timestamp,(blocks (firstBlockIdx + i)).effectiveLength,projectionId⟩,
        forwardBins (lane (data.shift (i * bsize.bytes))) layout.rozofsInverse (blockCols layout bsize / 2)
          ⟨⟨getAnglesP layout projectionId,getAnglesQ layout projectionId⟩,get128bitsPsizes layout bsize projectionId,
            (prj b).bins⟩,
        (blocks (firstBlockIdx + i)).timestamp⟩
    else prj b) prj

end Transform

/-- A block of a file, by what a storage holds for each projection: written by some iteration of
the forward transform of a write, or never. -/
inductive Block (layout : Layout) (bsize : BSize) : (Nat → PrjBlock) → Prop
  | never (prj : Nat → PrjBlock)
      (empty : ∀ id < layout.rozofsForward, (prj id).hdr.timestamp = 0 ∧ (prj id).hdr.projectionId ≠ 0xff) :
      Block layout bsize prj
  | written (first n timestamp lastBlockSize : Nat) (data : Bytes) (prj : Nat → Nat → PrjBlock) (b : Nat)
      (inside : first ≤ b ∧ b < first + n) (dated : timestamp ≠ 0) :
      Block layout bsize (transformForward layout bsize first n timestamp lastBlockSize data prj b)

/-- The contexts hold projections of the stored blocks; `held` is the id of the projection of
each storage that answered. -/
structure Sources (layout : Layout) (ctxs : PrjCtxs) (stored : Nat → Nat → PrjBlock) (held : Nat → Nat) : Prop where
  known : ∀ c < layout.rozofsSafe, ctxs.prjState c = .done → held c < layout.rozofsForward
  bins : ∀ c < layout.rozofsSafe, ctxs.prjState c = .done → ∀ b < ctxs.nbBlocks c, ctxs.bins c b = stored b (held c)

/-- Enough contexts answered with all the blocks, for distinct projections. -/
structure Enough (layout : Layout) (ctxs : PrjCtxs) (held : Nat → Nat) (n : Nat) (chosen : List Nat) : Prop where
  many : layout.rozofsInverse ≤ chosen.length
  answered : ∀ c ∈ chosen, c < layout.rozofsSafe ∧ ctxs.prjState c = .done ∧ n ≤ ctxs.nbBlocks c
  distinct : (chosen.map held).Nodup

section Blocks
variable {layout : Layout} {bsize : BSize}

/-- A block that a write left with data. -/
structure Written (layout : Layout) (bsize : BSize) (blocks : Nat → PrjBlock) (timestamp len : Nat) (data : Bytes)
    (old : Nat → Buffer) : Prop where
  dated : timestamp ≠ 0
  each : ∀ id < layout.rozofsForward,
    blocks id = ⟨⟨timestamp,len,id⟩,(blockProjection layout bsize old (lane data) id).bins,timestamp⟩

/-- A block without data: never written, or written with zeros. -/
def Empty (layout : Layout) (blocks : Nat → PrjBlock) : Prop :=
  ∀ id < layout.rozofsForward, (blocks id).hdr.timestamp = 0 ∧ (blocks id).hdr.projectionId ≠ 0xff

theorem Block.empty_or_written {blocks : Nat → PrjBlock} (block : Block layout bsize blocks) :
    Empty layout blocks ∨ ∃ timestamp len data old, Written layout bsize blocks timestamp len data old := by
  cases block with
  | never _ empty => exact .inl empty
  | written first n timestamp last data prj b inside dated =>
    rw [transformForward_get,if_pos inside]
    by_cases empty : dataBlockCheckEmpty (data.shift ((b - first) * bsize.bytes)) bsize.bytes = true
    · left
      intro id known
      rw [transformBlock_empty empty known]
      exact ⟨rfl,Nat.zero_ne_add_one _⟩
    · right
      exact ⟨timestamp,_,_,_,dated,fun id known => transformBlock_full empty known⟩

end Blocks

section Check
variable {layout : Layout} {bsize : BSize} {ctxs : PrjCtxs} {stored : Nat → Nat → PrjBlock} {held : Nat → Nat} {b : Nat}

theorem Sources.block (sources : Sources layout ctxs stored held) (low : c < layout.rozofsSafe)
    (returned : (ctxs.received layout bsize).returnedBlock b c) : ctxs.bins c b = stored b (held c) :=
  sources.bins c low returned.1 b returned.2

theorem checkHeader_zero {block : RcvBlock} (zero : block.hdr.timestamp = 0) :
    (checkHeader layout bsize block).timestamp = 0 := by
  simp only [checkHeader]
  split
  · split
    · rfl
    · exact zero
  · rfl

/-- An empty block counts for timestamp 0. -/
theorem holds_empty (sources : Sources layout ctxs stored held) (empty : Empty layout (stored b)) (low : c < layout.rozofsSafe)
    (returned : (ctxs.received layout bsize).returnedBlock b c) :
    Holds layout bsize (ctxs.received layout bsize) b 0 c := by
  have known := sources.known c low returned.1
  have same := sources.block low returned
  refine ⟨⟨returned,?_⟩,checkHeader_zero ?_⟩
  · simp only [PrjCtxs.received,PrjBlock.rcv,same]
    exact (empty _ known).2
  · simp only [PrjCtxs.received,PrjBlock.rcv,same]
    exact (empty _ known).1

/-- A block with data counts for its timestamp, with its length and the id of its projection. -/
theorem holds_written (sources : Sources layout ctxs stored held)
    (written : Written layout bsize (stored b) timestamp len data old) (low : c < layout.rozofsSafe)
    (returned : (ctxs.received layout bsize).returnedBlock b c) :
    Holds layout bsize (ctxs.received layout bsize) b timestamp c ∧
    effectiveLength (ctxs.received layout bsize) b c = len ∧ projectionId (ctxs.received layout bsize) b c = held c := by
  have known := sources.known c low returned.1
  have same : ((ctxs.received layout bsize).bins c b).hdr = ⟨timestamp,len,held c⟩ := by
    simp only [PrjCtxs.received,PrjBlock.rcv,sources.block low returned,written.each _ known]
  have intact : Intact layout bsize ((ctxs.received layout bsize).bins c b) := by
    refine ⟨by rw [same]; exact known,?_⟩
    rw [same]
    simp only [PrjCtxs.received,PrjBlock.rcv,sources.block low returned,written.each _ known,if_true]
  refine ⟨⟨⟨returned,?_⟩,?_⟩,?_,?_⟩
  · rw [same]
    exact projection_id_lt known
  · rw [stamp,checkHeader_intact intact,same]
  · rw [effectiveLength,same]
  · rw [projectionId,same]

/-- What the check says of a block with data: its timestamp and length, and projections from which
it can be decoded. -/
theorem check_written (sources : Sources layout ctxs stored held)
    (written : Written layout bsize (stored b) timestamp len data old) {found : Selected}
    (run : checkTimestampTb layout bsize (ctxs.received layout bsize) b = some found) :
    found.timestamp = timestamp ∧ found.effectiveLength = len ∧ ∃ selection : Selection layout,
      (found.prjIdxTb.take layout.rozofsInverse).map (fun c => rbsProjection layout bsize (ctxs.bins c b)) =
        selection.ids.map fun id =>
          { blockProjection layout bsize old (lane data) id with size := getPsizes layout bsize id } := by
  obtain ⟨n,ts,completes,rfl⟩ := checkTimestampTb_eq_some.mp run
  have last := (mem_voters.mp completes.2.1).2.1
  have ending := holds_written sources written completes.1 last.1.1
  have same : ts = timestamp := last.2.symm.trans ending.1.2
  subst same
  have voter : ∀ c ∈ voters layout bsize (ctxs.received layout bsize) b (n + 1) ts,
      c < layout.rozofsSafe ∧ (ctxs.received layout bsize).returnedBlock b c := by
    intro c member
    exact ⟨completes.voter_low member,(mem_voters.mp member).2.1.1.1⟩
  have ids : (voters layout bsize (ctxs.received layout bsize) b (n + 1) ts).map held =
      (voters layout bsize (ctxs.received layout bsize) b (n + 1) ts).map (projectionId (ctxs.received layout bsize) b) := by
    apply List.map_congr_left
    intro c member
    obtain ⟨low,returned⟩ := voter c member
    exact (holds_written sources written low returned).2.2.symm
  refine ⟨rfl,ending.2.1,⟨(voters layout bsize (ctxs.received layout bsize) b (n + 1) ts).map held,?_,?_,?_⟩,?_⟩
  · rw [ids]
    exact voters_ids _ ts written.dated
  · rw [List.length_map]
    exact completes.2.2.1
  · intro id member
    obtain ⟨c,chosen,rfl⟩ := List.mem_map.mp member
    obtain ⟨low,returned⟩ := voter c chosen
    exact sources.known c low returned.1
  · simp only [completed,written.dated,if_false]
    rw [← completes.2.2.1,List.take_length,List.map_map]
    apply List.map_congr_left
    intro c member
    obtain ⟨low,returned⟩ := voter c member
    rw [sources.block low returned,Function.comp_apply,written.each _ (sources.known c low returned.1)]
    rfl

/-- With enough projections the check succeeds. -/
theorem check_enough (sources : Sources layout ctxs stored held) (block : Block layout bsize (stored b))
    (enough : Enough layout ctxs held n chosen) (low : b < n) :
    checkTimestampTb layout bsize (ctxs.received layout bsize) b ≠ none := by
  intro missed
  rcases checkTimestampTb_spec layout bsize (ctxs.received layout bsize) b with ⟨m,ts,_,found⟩ | ⟨_,few⟩
  · rw [missed] at found
    cases found
  · have returned : ∀ c ∈ chosen, c < layout.rozofsSafe ∧ (ctxs.received layout bsize).returnedBlock b c := by
      intro c member
      obtain ⟨inside,done,long⟩ := enough.answered c member
      exact ⟨inside,done,Nat.lt_of_lt_of_le low long⟩
    rcases block.empty_or_written with empty | ⟨timestamp,len,data,old,written⟩
    · have subset : chosen ⊆ voters layout bsize (ctxs.received layout bsize) b layout.rozofsSafe 0 := by
        intro c member
        obtain ⟨inside,back⟩ := returned c member
        exact mem_voters.mpr ⟨inside,holds_empty sources empty inside back,.inl rfl⟩
      have many := (List.subperm_of_subset (List.Nodup.of_map _ enough.distinct) subset).length_le
      exact absurd (Nat.le_trans enough.many many) (Nat.not_le.mpr (few 0))
    · have ids : chosen.map (projectionId (ctxs.received layout bsize) b) = chosen.map held := by
        apply List.map_congr_left
        intro c member
        obtain ⟨inside,back⟩ := returned c member
        exact (holds_written sources written inside back).2.2
      have many : chosen.length ≤ (voters layout bsize (ctxs.received layout bsize) b layout.rozofsSafe timestamp).length := by
        refine voters_of_holders (by rw [ids]; exact enough.distinct) fun c member => ?_
        obtain ⟨inside,back⟩ := returned c member
        exact ⟨inside,(holds_written sources written inside back).1⟩
      exact absurd (Nat.le_trans enough.many many) (Nat.not_le.mpr (few timestamp))

end Check

section Inverse
variable {layout : Layout} {bsize : BSize} {ctxs : PrjCtxs} {stored : Nat → Nat → PrjBlock} {held : Nat → Nat}

/-- A block of the working array, with its data, is the one that the storages hold. -/
def Rebuilt (layout : Layout) (bsize : BSize) (blocks : Nat → PrjBlock) (ctx : InverseBlock) (block : Bytes) : Prop :=
  ∀ timestamp len data old, Written layout bsize blocks timestamp len data old →
    ctx.timestamp = timestamp ∧ ctx.effectiveLength = len ∧ (Effective bsize → ∀ j < bsize.bytes, block j = data j)

/-- Every block that is marked as transformed is rebuilt. -/
def Kept (layout : Layout) (bsize : BSize) (stored : Nat → Nat → PrjBlock) (st : Inverted) : Prop :=
  ∀ b, (st.blocks b).done = true → Rebuilt layout bsize (stored b) (st.blocks b) (st.data.shift (bsize.bytes * b))

theorem Inverted.fill_here (st : Inverted) (idx : Nat) (bytes : Bytes) {j : Nat} (small : j < bsize.bytes) :
    (st.fill bsize (bsize.bytes * idx) bytes).data.shift (bsize.bytes * idx) j = bytes j := by
  simp only [Inverted.fill,Bytes.shift]
  rw [if_pos (by omega),Nat.add_sub_cancel_left]

theorem Inverted.fill_other (st : Inverted) (idx : Nat) (bytes : Bytes) {b j : Nat} (other : b ≠ idx) (small : j < bsize.bytes) :
    (st.fill bsize (bsize.bytes * idx) bytes).data.shift (bsize.bytes * b) j = st.data.shift (bsize.bytes * b) j := by
  simp only [Inverted.fill,Bytes.shift]
  rw [if_neg]
  rcases Nat.lt_or_gt_of_ne other with before | after
  · have apart : bsize.bytes * (b + 1) ≤ bsize.bytes * idx := Nat.mul_le_mul_left _ before
    rw [Nat.mul_succ] at apart
    omega
  · have apart : bsize.bytes * (idx + 1) ≤ bsize.bytes * b := Nat.mul_le_mul_left _ after
    rw [Nat.mul_succ] at apart
    omega

/-- One more block is transformed. -/
theorem Kept.fill (kept : Kept layout bsize stored st) (idx : Nat) (block : InverseBlock) (bytes : Bytes)
    (right : Rebuilt layout bsize (stored idx) block bytes) :
    Kept layout bsize stored ((st.setBlock idx block).fill bsize (bsize.bytes * idx) bytes) := by
  intro b done
  by_cases here : b = idx
  · subst here
    intro timestamp len data old written
    have same : ((st.setBlock b block).fill bsize (bsize.bytes * b) bytes).blocks b = block := if_pos rfl
    obtain ⟨stamped,length,contents⟩ := right timestamp len data old written
    rw [same]
    refine ⟨stamped,length,fun effective j small => ?_⟩
    rw [Inverted.fill_here _ _ _ small]
    exact contents effective j small
  · have same : ((st.setBlock idx block).fill bsize (bsize.bytes * idx) bytes).blocks b = st.blocks b := if_neg here
    rw [same] at done ⊢
    intro timestamp len data old written
    obtain ⟨stamped,length,contents⟩ := kept b done timestamp len data old written
    refine ⟨stamped,length,fun effective j small => ?_⟩
    rw [Inverted.fill_other _ _ _ here small]
    exact contents effective j small

theorem getPsizes_eq (layout : Layout) (bsize : BSize) (id : Nat) :
    getPsizes layout bsize id = 2 * get128bitsPsizes layout bsize id := by
  simp only [getPsizes,get128bitsPsizes]
  split <;> rfl

/-- The block that the check selects is decoded. -/
theorem rebuilt_decoded (sources : Sources layout ctxs stored held) {found : Selected}
    (run : checkTimestampTb layout bsize (ctxs.received layout bsize) idx = some found) (target : Bytes) (stack : Buffer) :
    Rebuilt layout bsize (stored idx) ⟨true,found.timestamp,found.effectiveLength⟩
      (decode layout bsize ctxs idx found target stack) := by
  intro timestamp len data old written
  obtain ⟨stamped,length,selection,projections⟩ := check_written sources written run
  refine ⟨stamped,length,fun effective j small => ?_⟩
  have lanes : j / 16 < bsize.bytes / 16 := by cases bsize <;> simp only [BSize.bytes] at small ⊢ <;> omega
  have wide : ∀ id ∈ selection.ids, get128bitsPsizes layout bsize id ≤ getPsizes layout bsize id := by
    intro id _
    rw [getPsizes_eq]
    omega
  rw [decode,projections,byte,inverseBlock_wide bsize selection old (lane data) effective _ wide,
    if_pos ⟨by omega,by exact_mod_cast lanes⟩]
  exact byte_lane data j

/-- A hole needs no decoding. -/
theorem rebuilt_empty (sources : Sources layout ctxs stored held) {found : Selected}
    (run : checkTimestampTb layout bsize (ctxs.received layout bsize) idx = some found) (zero : found.timestamp = 0)
    (bytes : Bytes) : Rebuilt layout bsize (stored idx) ⟨true,found.timestamp,found.effectiveLength⟩ bytes := by
  intro timestamp len data old written
  have stamped := (check_written sources written run).1
  exact absurd (stamped.symm.trans zero) written.dated

/-- Every call keeps the blocks that are rebuilt; one that succeeds leaves all its blocks so. -/
theorem inverseLoop_spec (sources : Sources layout ctxs stored held) (stack : Nat → Buffer) (n idx : Nat) (st : Inverted)
    (kept : Kept layout bsize stored st) :
    Kept layout bsize stored (inverseLoop layout bsize ctxs 0 stack n idx st).1 ∧
    (∀ b, (st.blocks b).done = true → ((inverseLoop layout bsize ctxs 0 stack n idx st).1.blocks b).done = true) ∧
    ((inverseLoop layout bsize ctxs 0 stack n idx st).2 = true → ∀ b, idx ≤ b → b < idx + n →
      ((inverseLoop layout bsize ctxs 0 stack n idx st).1.blocks b).done = true) := by
  induction n generalizing idx st with
  | zero => exact ⟨kept,fun b done => done,fun _ b low high => by omega⟩
  | succ n ih =>
    -- the rest of the loop, once this block is transformed
    have rest : ∀ next : Inverted, Kept layout bsize stored next → (next.blocks idx).done = true →
        (∀ b, (st.blocks b).done = true → (next.blocks b).done = true) →
        inverseLoop layout bsize ctxs 0 stack (n + 1) idx st = inverseLoop layout bsize ctxs 0 stack n (idx + 1) next →
        Kept layout bsize stored (inverseLoop layout bsize ctxs 0 stack (n + 1) idx st).1 ∧
        (∀ b, (st.blocks b).done = true → ((inverseLoop layout bsize ctxs 0 stack (n + 1) idx st).1.blocks b).done = true) ∧
        ((inverseLoop layout bsize ctxs 0 stack (n + 1) idx st).2 = true → ∀ b, idx ≤ b → b < idx + (n + 1) →
          ((inverseLoop layout bsize ctxs 0 stack (n + 1) idx st).1.blocks b).done = true) := by
      intro next good here before run
      rw [run]
      obtain ⟨after,stays,all⟩ := ih (idx + 1) next good
      refine ⟨after,fun b done => stays b (before b done),fun ok b low high => ?_⟩
      by_cases first : b = idx
      · rw [first]
        exact stays idx here
      · exact all ok b (by omega) (by omega)
    cases done : (st.blocks idx).done with
    | true =>
      refine rest { st with empty := if (st.blocks idx).timestamp ≠ 0 then false else st.empty } kept done (fun b old => old) ?_
      rw [inverseLoop,if_pos done]
    | false =>
      have pending : ¬(st.blocks idx).done = true := by rw [done]; exact Bool.false_ne_true
      cases run : checkTimestampTb layout bsize (ctxs.received layout bsize) idx with
      | none =>
        rw [inverseLoop,if_neg pending,run]
        have same : ∀ b, (st.blocks b).done = true → (st.setBlock idx { st.blocks idx with timestamp := 0 }).blocks b = st.blocks b := by
          intro b old
          have other : b ≠ idx := by
            intro here
            rw [here] at old
            exact pending old
          exact if_neg other
        have flag : ∀ b, ((st.setBlock idx { st.blocks idx with timestamp := 0 }).blocks b).done = (st.blocks b).done := by
          intro b
          simp only [Inverted.setBlock]
          split
          · rename_i here
            rw [here]
          · rfl
        refine ⟨fun b old => ?_,fun b old => ?_,fun impossible => by cases impossible⟩
        · rw [flag] at old
          rw [same b old]
          exact kept b old
        · rw [flag]
          exact old
      | some found =>
        have marked : ∀ b, (st.blocks b).done = true ∨ b = idx →
            ((st.setBlock idx ⟨true,found.timestamp,found.effectiveLength⟩).blocks b).done = true := by
          intro b either
          simp only [Inverted.setBlock]
          split
          · rfl
          · rename_i other
            exact either.resolve_right other
        by_cases zero : found.timestamp = 0
        · refine rest _ (kept.fill idx ⟨true,found.timestamp,found.effectiveLength⟩ (fun _ => 0) (rebuilt_empty sources run zero _))
            (marked idx (.inr rfl)) (fun b old => marked b (.inl old)) ?_
          rw [inverseLoop,if_neg pending,run]
          simp only [zero,if_true,Nat.zero_add]
        · have good := kept.fill idx ⟨true,found.timestamp,found.effectiveLength⟩ _
            (rebuilt_decoded sources run (st.data.shift (bsize.bytes * idx)) (stack idx))
          refine rest { (st.setBlock idx ⟨true,found.timestamp,found.effectiveLength⟩).fill bsize (bsize.bytes * idx)
            (decode layout bsize ctxs idx found (st.data.shift (bsize.bytes * idx)) (stack idx)) with empty := false } good (marked idx (.inr rfl)) (fun b old => marked b (.inl old)) ?_
          rw [inverseLoop,if_neg pending,run]
          simp only [zero,if_false,Nat.zero_add]
          rfl

/-- With enough projections the inverse transform succeeds. -/
theorem inverseLoop_succeeds (sources : Sources layout ctxs stored held) (stack : Nat → Buffer) (total : Nat)
    (blocks : ∀ b < total, Block layout bsize (stored b)) (enough : Enough layout ctxs held total chosen) (n idx : Nat)
    (st : Inverted) (all : idx + n = total) : (inverseLoop layout bsize ctxs 0 stack n idx st).2 = true := by
  induction n generalizing idx st with
  | zero => rfl
  | succ n ih =>
    rw [inverseLoop]
    split
    · exact ih (idx + 1) _ (by omega)
    · cases run : checkTimestampTb layout bsize (ctxs.received layout bsize) idx with
      | none => exact absurd run (check_enough sources (blocks idx (by omega)) enough (by omega))
      | some found =>
        simp only
        split
        · exact ih (idx + 1) _ (by omega)
        · exact ih (idx + 1) _ (by omega)

end Inverse

section Forward
variable {layout : Layout} {bsize : BSize}

theorem lane_congr {data data' : Bytes} {i : Int} (same : ∀ k < 16, data (16 * i.toNat + k) = data' (16 * i.toNat + k)) :
    lane data i = lane data' i := by
  apply BitVec.eq_of_getLsbD_eq
  intro k small
  rw [getLsbD_lane data i ⟨k,small⟩,getLsbD_lane data' i ⟨k,small⟩]
  have inside : k / 8 < 16 := by omega
  simp only [same (k / 8) inside]

/-- The bins of a projection only depend on the pixels of the block. -/
theorem forwardBins_congr {support support' : Buffer} {rows cols : Nat} {p p' : Projection} (angle : p.angle = p'.angle)
    (size : p.size = p'.size) (same : ∀ a : Int, 0 ≤ a → a < (rows * cols : Nat) → support a = support' a) {a : Int}
    (first : 0 ≤ a) (last : a < p.size) : forwardBins support rows cols p a = forwardBins support' rows cols p' a := by
  rw [forwardBins_apply support rows cols p a first last,forwardBins_apply support' rows cols p' a first (by rw [← size]; exact last),
    ← angle,lineSum,lineSum]
  congr 1
  apply List.map_congr_left
  rintro ⟨l,c⟩ member
  obtain ⟨row,left,right⟩ := mem_grid.mp (List.mem_filter.mp member).1
  have wide : (l + 1) * cols ≤ rows * cols := Nat.mul_le_mul_right _ row
  have place : (l : Int) * cols + cols ≤ (rows * cols : Nat) := by
    rw [Nat.succ_mul] at wide
    exact_mod_cast wide
  have start : 0 ≤ (l : Int) * cols := Int.mul_nonneg (by omega) (by omega)
  exact same _ (by simp only; omega) (by simp only; omega)

theorem transformForwardOneProj_get (blocks : Nat → InverseBlock) (first n projectionId : Nat) (data : Bytes)
    (prj : Nat → PrjBlock) (b : Nat) :
    transformForwardOneProj layout bsize blocks first n projectionId data prj b =
      if first ≤ b ∧ b < first + n then
        ⟨⟨(blocks b).timestamp,(blocks b).effectiveLength,projectionId⟩,
          forwardBins (lane (data.shift ((b - first) * bsize.bytes))) layout.rozofsInverse (blockCols layout bsize / 2)
            ⟨⟨getAnglesP layout projectionId,getAnglesQ layout projectionId⟩,get128bitsPsizes layout bsize projectionId,
              (prj b).bins⟩,
          (blocks b).timestamp⟩
      else prj b := by
  have stored := foldl_store (fun i (p : PrjBlock) =>
    (⟨⟨(blocks (first + i)).timestamp,(blocks (first + i)).effectiveLength,projectionId⟩,
      forwardBins (lane (data.shift (i * bsize.bytes))) layout.rozofsInverse (blockCols layout bsize / 2)
        ⟨⟨getAnglesP layout projectionId,getAnglesQ layout projectionId⟩,get128bitsPsizes layout bsize projectionId,p.bins⟩,
      (blocks (first + i)).timestamp⟩ : PrjBlock)) first n prj b
  rw [transformForwardOneProj,stored]
  split
  · rename_i inside
    rw [Nat.add_sub_cancel' inside.1]
  · rfl

theorem effective_or_unsized (layout : Layout) (bsize : BSize) :
    Effective bsize ∨ ∀ id, get128bitsPsizes layout bsize id = 0 := by
  by_cases effective : Effective bsize
  · exact .inl effective
  · right
    intro id
    by_contra sized
    have double : getPsizes layout bsize id ≠ 0 := by
      rw [getPsizes_eq]
      omega
    exact effective (effective_of_getPsizes double)

/-- The rebuilt projection of a block with data is the one that the write made. -/
theorem forward_rebuilt {ctx : InverseBlock} {block : Bytes} {blocks : Nat → PrjBlock} {id : Nat} (rebuilt : Rebuilt layout bsize blocks ctx block)
    (written : Written layout bsize blocks timestamp len data old) (known : id < layout.rozofsForward) (bins : Buffer) :
    ctx.timestamp = timestamp ∧ ctx.effectiveLength = len ∧
    ∀ a : Int, 0 ≤ a → a < get128bitsPsizes layout bsize id →
      forwardBins (lane block) layout.rozofsInverse (blockCols layout bsize / 2)
        ⟨⟨getAnglesP layout id,getAnglesQ layout id⟩,get128bitsPsizes layout bsize id,bins⟩ a = (blocks id).bins a := by
  obtain ⟨stamped,length,contents⟩ := rebuilt timestamp len data old written
  refine ⟨stamped,length,fun a first last => ?_⟩
  rcases effective_or_unsized layout bsize with effective | unsized
  · rw [written.each id known]
    simp only [blockProjection,laneCols]
    refine forwardBins_congr (by rfl) (by rfl) ?_ first (by exact last)
    intro i low high
    apply lane_congr
    intro k inside
    have size := block_lanes layout bsize effective
    rw [laneCols] at size
    rw [size] at high
    apply contents effective
    have whole : bsize.bytes / 16 * 16 = bsize.bytes := by cases bsize <;> rfl
    omega
  · rw [unsized id] at last
    omega

end Forward

/-- The rebuild of a projection: both transforms start at block 0 of their buffers. -/
def rebuildProjection (layout : Layout) (bsize : BSize) (ctxs : PrjCtxs) (numberOfBlocks : Nat) (stack : Nat → Buffer)
    (blocks : Nat → InverseBlock) (data : Bytes) (projectionId : Nat) (prj : Nat → PrjBlock) : Nat → PrjBlock :=
  let inverted := (transformInverse layout bsize ctxs 0 numberOfBlocks stack blocks data).1
  transformForwardOneProj layout bsize inverted.blocks 0 numberOfBlocks projectionId inverted.data prj

/-- Two blocks have one header, one footer and the same bins. -/
structure SameProjection (layout : Layout) (bsize : BSize) (projectionId : Nat) (p q : PrjBlock) : Prop where
  hdr : p.hdr = q.hdr
  footer : p.footer = q.footer
  bins : ∀ a : Int, 0 ≤ a → a < get128bitsPsizes layout bsize projectionId → p.bins a = q.bins a

/-- A projection rebuilt from enough others is the one that was lost, for every block with data. -/
theorem rebuilt_projection_is_lost_one (layout : Layout) (bsize : BSize) (ctxs : PrjCtxs) (stored : Nat → Nat → PrjBlock)
    (held : Nat → Nat) (n : Nat) (chosen : List Nat) (stack : Nat → Buffer) (fresh : Nat → InverseBlock) (data : Bytes)
    (lost : Nat) (prj : Nat → PrjBlock) (blocks : ∀ b < n, Block layout bsize (stored b))
    (sources : Sources layout ctxs stored held) (enough : Enough layout ctxs held n chosen)
    (idle : ∀ b, (fresh b).done = false) (known : lost < layout.rozofsForward) :
    (transformInverse layout bsize ctxs 0 n stack fresh data).2 = true ∧
    ∀ b < n, (stored b lost).hdr.timestamp ≠ 0 →
      SameProjection layout bsize lost (rebuildProjection layout bsize ctxs n stack fresh data lost prj b) (stored b lost) := by
  have start : Kept layout bsize stored ⟨fresh,data,true⟩ := by
    intro b done
    rw [idle b] at done
    cases done
  have success : (inverseLoop layout bsize ctxs 0 stack n 0 ⟨fresh,data,true⟩).2 = true :=
    inverseLoop_succeeds sources stack n blocks enough n 0 ⟨fresh,data,true⟩ (by omega)
  obtain ⟨kept,_,all⟩ := inverseLoop_spec sources stack n 0 ⟨fresh,data,true⟩ start
  refine ⟨success,fun b low real => ?_⟩
  have right := kept b (all success b (by omega) (by omega))
  rcases (blocks b low).empty_or_written with empty | ⟨timestamp,len,contents,old,written⟩
  · exact absurd (empty lost known).1 real
  · obtain ⟨stamped,length,bins⟩ := forward_rebuilt right written known (prj b).bins
    rw [rebuildProjection,transformForwardOneProj_get]
    have inside : 0 ≤ b ∧ b < 0 + n := by omega
    rw [if_pos inside,Nat.sub_zero,Nat.mul_comm b]
    constructor
    · rw [written.each lost known]
      exact congrArg₂ (fun t l => (⟨t,l,lost⟩ : BinsHdr)) stamped length
    · rw [written.each lost known]
      exact stamped
    · exact bins

/-- A block with one byte of data. -/
def oneByte : Bytes := fun a => if a = 5 then 1 else 0

/-- Two blocks: the second one of a write, and one that was never written. -/
def twoBlocks : Nat → Nat → PrjBlock
  | 0 => transformForward .layout_2_3_4 .bsize4K 3 2 77 100 (fun a => oneByte (a - 4096)) (fun _ _ => ⟨⟨1,2,3⟩,fun _ => 9,1⟩) 4
  | _ => fun _ => ⟨⟨0,0,0⟩,fun _ => 0,0⟩

/-- Contexts 1 and 3 hold projections 2 and 0. -/
def twoAnswers : PrjCtxs where
  prjState := fun c => if c = 1 ∨ c = 3 then .done else .error
  nbBlocks := fun _ => 2
  bins := fun c b => twoBlocks b (if c = 1 then 2 else 0)

theorem twoBlocks_written : (twoBlocks 0 1).hdr = ⟨77,100,1⟩ := by
  have full : ¬dataBlockCheckEmpty (Bytes.shift (fun a => oneByte (a - 4096)) ((4 - 3) * BSize.bsize4K.bytes)) BSize.bsize4K.bytes = true := by
    rw [dataBlockCheckEmpty_iff]
    intro zero
    exact absurd (zero 5 (by decide)) (by decide)
  rw [twoBlocks,transformForward_get,if_pos (by decide),transformBlock_full full (by decide)]
  rfl

theorem rebuilt_projection_twoBlocks :
    SameProjection .layout_2_3_4 .bsize4K 1
      (rebuildProjection .layout_2_3_4 .bsize4K twoAnswers 2 (fun _ _ => 8) (fun _ => ⟨false,0,0⟩) (fun _ => 6) 1
        (fun _ => ⟨⟨0,0,0⟩,fun _ => 0,0⟩) 0) (twoBlocks 0 1) := by
  have blocks : ∀ b < 2, Block .layout_2_3_4 .bsize4K (twoBlocks b) := by
    intro b low
    match b, low with
    | 0, _ => exact .written 3 2 77 100 _ _ 4 (by decide) (by decide)
    | 1, _ => exact .never _ fun id _ => ⟨rfl,Nat.zero_ne_add_one _⟩
  have sources : Sources .layout_2_3_4 twoAnswers twoBlocks (fun c => if c = 1 then 2 else 0) := by
    refine ⟨fun c _ _ => ?_,fun c _ _ b _ => rfl⟩
    split <;> decide
  have enough : Enough .layout_2_3_4 twoAnswers (fun c => if c = 1 then 2 else 0) 2 [1,3] := by
    refine ⟨by decide,fun c member => ?_,by decide⟩
    simp only [List.mem_cons,List.not_mem_nil,or_false] at member
    refine ⟨?_,if_pos member,Nat.le_refl 2⟩
    rcases member with rfl | rfl <;> decide
  exact (rebuilt_projection_is_lost_one .layout_2_3_4 .bsize4K twoAnswers twoBlocks _ 2 [1,3] (fun _ _ => 8)
    (fun _ => ⟨false,0,0⟩) (fun _ => 6) 1 (fun _ => ⟨⟨0,0,0⟩,fun _ => 0,0⟩) blocks sources enough (fun _ => rfl) (by decide)).2 0
    (by decide) (by rw [twoBlocks_written]; decide)

end Rozofs.RebuildTransform
