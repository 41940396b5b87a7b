import Rozofs.MojetteRoundTrip
import Rozofs.InverseCheck
import Mathlib.Tactic.Ring

/-! The forward and inverse transforms of `rozofs_storcli_transform.c`: block headers, empty
blocks and effective lengths around the Mojette transform. Memory is a map from byte offsets,
so what a buffer holds beyond its data is arbitrary. -/
namespace Rozofs.BlockTransform
open Mojette
open InverseCheck (BinsHdr RcvBlock updateHeader)

abbrev Byte := BitVec 8

abbrev Bytes := Nat → Byte

def Bytes.shift (data : Bytes) (n : Nat) : Bytes := fun a => data (n + a)

/-- The 128-bit view of a byte buffer, least significant byte first. -/
def lane (data : Bytes) (i : Int) : Lane :=
  (BitVec.iunfoldr (fun (k : Fin 128) (_ : Unit) =>
    ((),(data (16 * i.toNat + k / 8)).getLsbD (k % 8))) ()).2

def byte (buf : Buffer) (j : Nat) : Byte := (buf (j / 16 : Nat)).extractLsb' (8 * (j % 16)) 8

/-- `rozofs_data_block_check_empty`: every 64-bit word is zero. -/
def dataBlockCheckEmpty (data : Bytes) (size : Nat) : Bool :=
  (List.range (size / 8)).all fun i => (List.range 8).all fun k => data (8 * i + k) == 0

/-- One block of a projection in a message, with the timestamp of its footer. -/
structure PrjBlock where
  hdr : BinsHdr
  bins : Buffer
  footer : Nat

/-- Memory that follows the header, in 64-bit words. -/
def PrjBlock.rcv (layout : Layout) (bsize : BSize) (p : PrjBlock) : RcvBlock where
  hdr := p.hdr
  word k :=
    if k = getPsizes layout bsize p.hdr.projectionId then p.footer
    else ((p.bins (k / 2 : Nat)).extractLsb' (64 * (k % 2)) 64).toNat

section Transform
variable (layout : Layout) (bsize : BSize)

/-- One iteration of the loop of `rozofs_storcli_transform_forward`, on the block of every
projection. -/
def transformBlock (timestamp effectiveLength : Nat) (data : Bytes) (prj : Nat → PrjBlock) : Nat → PrjBlock :=
  if dataBlockCheckEmpty data bsize.bytes then
    fun id => if id < layout.rozofsForward then { prj id with hdr := ⟨0,0,0⟩ } else prj id
  else
    fun id => match (forwardBlock layout bsize (fun id => (prj id).bins) (lane data))[id]? with
      | some p => ⟨⟨timestamp,effectiveLength,id⟩,p.bins,timestamp⟩
      | none => prj id

/-- `rozofs_storcli_transform_forward`; `prj` gives, for a block index in the messages, the
block of every projection. -/
def transformForward (firstBlockIdx numberOfBlocks timestamp lastBlockSize : Nat) (data : Bytes)
    (prj : Nat → Nat → PrjBlock) : Nat → Nat → PrjBlock :=
  (List.range numberOfBlocks).foldl (fun prj i b =>
    if b = firstBlockIdx + i then
      transformBlock layout bsize timestamp
        (if i = numberOfBlocks - 1 then lastBlockSize else bsize.bytes) (data.shift (i * bsize.bytes)) (prj b)
    else prj b) prj

/-- `rozofs_storcli_inverse_block_t` with the row of `rozofs_storcli_prj_idx_table` for the
block. -/
structure BlockCtx where
  timestamp : Nat
  effectiveLength : Nat
  prjIdxTable : List Nat

/-- The projection that a context received, under the id of its header. -/
def rcvProjection (p : PrjBlock) : Projection :=
  ⟨⟨getAnglesP layout p.hdr.projectionId,getAnglesQ layout p.hdr.projectionId⟩,
    get128bitsPsizes layout bsize p.hdr.projectionId,p.bins⟩

/-- The bytes of one block once it is decoded: data beyond the effective length is cleared. -/
def inverseBytes (ctx : BlockCtx) (prj : Nat → PrjBlock) (data : Bytes) (stack : Buffer) : Bytes :=
  if ctx.timestamp = 0 ∧ ctx.effectiveLength = bsize.bytes then fun _ => 0
  else
    let decoded := inverseBlock layout bsize (lane data) stack
      ((ctx.prjIdxTable.take layout.rozofsInverse).map fun c => rcvProjection layout bsize (prj c))
    fun j => if j < ctx.effectiveLength then byte decoded j else 0

/-- Loop of `rozofs_storcli_transform_inverse` from block `idx` on, over `n` blocks that are
not transformed yet; it returns the data and the number of blocks read. `prj` gives, for a
block, what each context received. -/
def transformInverse (firstBlockIdx : Nat) (ctxs : Nat → BlockCtx) (prj : Nat → Nat → PrjBlock)
    (stack : Nat → Buffer) : Nat → Nat → Bytes → Bytes × Nat
  | 0, idx, data => (data,idx)
  | n + 1, idx, data =>
    if (ctxs idx).timestamp = 0 ∧ (ctxs idx).effectiveLength = 0 then (data,idx)
    else
      let base := bsize.bytes * (firstBlockIdx + idx)
      let block := inverseBytes layout bsize (ctxs idx) (prj idx) (data.shift base) (stack idx)
      transformInverse firstBlockIdx ctxs prj stack n (idx + 1)
        fun a => if base ≤ a ∧ a < base + bsize.bytes then block (a - base) else data a

end Transform

theorem getLsbD_lane (data : Bytes) (i : Int) (k : Fin 128) :
    (lane data i).getLsbD k = (data (16 * i.toNat + k / 8)).getLsbD (k % 8) := by
  exact BitVec.iunfoldr_getLsbD (fun _ => ()) k (fun _ => rfl)

theorem byte_lane (data : Bytes) (j : Nat) : byte (lane data) j = data j := by
  apply BitVec.eq_of_getLsbD_eq
  intro k small
  have bound : 8 * (j % 16) + k < 128 := by omega
  have bit := getLsbD_lane data (j / 16 : Nat) ⟨8 * (j % 16) + k,bound⟩
  rw [byte,BitVec.getLsbD_extractLsb',bit,Int.toNat_natCast]
  have place : 16 * (j / 16) + (8 * (j % 16) + k) / 8 = j := by omega
  have rest : (8 * (j % 16) + k) % 8 = k := by omega
  simp only [small,decide_true,Bool.true_and,place,rest]

theorem dataBlockCheckEmpty_iff (data : Bytes) (bsize : BSize) :
    dataBlockCheckEmpty data bsize.bytes = true ↔ ∀ j < bsize.bytes, data j = 0 := by
  have words : bsize.bytes / 8 * 8 = bsize.bytes := by cases bsize <;> rfl
  simp only [dataBlockCheckEmpty,List.all_eq_true,List.mem_range,beq_iff_eq]
  constructor
  · intro empty j small
    have := empty (j / 8) (by omega) (j % 8) (by omega)
    rwa [Nat.div_add_mod] at this
  · intro empty i small k inside
    exact empty _ (by omega)

/-- A block as the storages hold it: absent beyond the end of the file, or when there is
no file. -/
inductive Stored where
  | absent
  | present (prj : Nat → PrjBlock)

/-- The bytes of the file that a stored block stands for: never written, or written by a
forward transform of some data of some effective length. -/
inductive Holds (layout : Layout) (bsize : BSize) : Stored → Bytes → Prop
  | absent (zero : ∀ j < bsize.bytes, contents j = 0) : Holds layout bsize .absent contents
  | hole (never : ∀ id < layout.rozofsForward, (prj id).hdr.timestamp = 0 ∧ (prj id).hdr.projectionId ≠ 0xff)
      (zero : ∀ j < bsize.bytes, contents j = 0) : Holds layout bsize (.present prj) contents
  | written (timestamp effectiveLength : Nat) (data : Bytes) (prj : Nat → PrjBlock) (dated : timestamp ≠ 0)
      (padded : ∀ j < bsize.bytes, contents j = if j < effectiveLength then data j else 0) :
      Holds layout bsize (.present (transformBlock layout bsize timestamp effectiveLength data prj)) contents

theorem Holds.congr (holds : Holds layout bsize stored contents) (same : ∀ j < bsize.bytes, contents' j = contents j) :
    Holds layout bsize stored contents' := by
  cases holds with
  | absent zero => exact .absent fun j small => (same j small).trans (zero j small)
  | hole never zero => exact .hole never fun j small => (same j small).trans (zero j small)
  | written timestamp len data prj dated padded =>
    exact .written timestamp len data prj dated fun j small => (same j small).trans (padded j small)

/-- What a read decided for a block: the table designates `inverse` contexts that received
distinct projections, and the context of the block agrees with their updated headers. -/
inductive Decided (layout : Layout) (bsize : BSize) : Stored → BlockCtx → (Nat → PrjBlock) → Prop
  | absent (table : List Nat) (prj : Nat → PrjBlock) : Decided layout bsize .absent ⟨0,0,table⟩ prj
  | present (selection : Selection layout) (blocks prj : Nat → PrjBlock) (ctx : BlockCtx)
      (received : ctx.prjIdxTable.map prj = selection.ids.map blocks)
      (timestamp : ∀ c ∈ ctx.prjIdxTable, (updateHeader layout bsize ((prj c).rcv layout bsize)).timestamp = ctx.timestamp)
      (effectiveLength : ∀ c ∈ ctx.prjIdxTable,
        (updateHeader layout bsize ((prj c).rcv layout bsize)).effectiveLength = ctx.effectiveLength) :
      Decided layout bsize (.present blocks) ctx prj

section Reading
variable {layout : Layout} {bsize : BSize} {id : Nat}

theorem psizes_ne_zero (effective : Effective bsize) (known : id < layout.rozofsForward) :
    getPsizes layout bsize id ≠ 0 := by
  have all : ∀ i < layout.rozofsForward, getPsizes layout bsize i ≠ 0 := by
    rcases effective with rfl | rfl <;> cases layout <;> decide
  exact all id known

theorem projection_id_lt (known : id < layout.rozofsForward) : id ≠ 0xff := by
  cases layout <;> simp only [Layout.rozofsForward] at known <;> omega

theorem updateHeader_never (p : PrjBlock) (never : p.hdr.timestamp = 0 ∧ p.hdr.projectionId ≠ 0xff) :
    updateHeader layout bsize (p.rcv layout bsize) = ⟨0,bsize.bytes,0⟩ := by
  simp [updateHeader,PrjBlock.rcv,never]

theorem updateHeader_written (effective : Effective bsize) (bins : Buffer) (known : id < layout.rozofsForward)
    (dated : timestamp ≠ 0) :
    updateHeader layout bsize (PrjBlock.rcv layout bsize ⟨⟨timestamp,len,id⟩,bins,timestamp⟩) = ⟨timestamp,len,id⟩ := by
  have size := psizes_ne_zero effective known
  have valid := projection_id_lt known
  simp [updateHeader,PrjBlock.rcv,dated,size,valid]

theorem transformBlock_empty (empty : dataBlockCheckEmpty data bsize.bytes = true) (known : id < layout.rozofsForward) :
    (transformBlock layout bsize timestamp len data prj id).hdr = ⟨0,0,0⟩ := by
  simp [transformBlock,empty,known]

theorem transformBlock_full (full : ¬dataBlockCheckEmpty data bsize.bytes = true) (known : id < layout.rozofsForward) :
    transformBlock layout bsize timestamp len data prj id =
      ⟨⟨timestamp,len,id⟩,(blockProjection layout bsize (fun id => (prj id).bins) (lane data) id).bins,timestamp⟩ := by
  rw [transformBlock,if_neg full,forwardBlock_get layout bsize _ _ id known]

section Contexts
variable {ctx : BlockCtx} {blocks prj : Nat → PrjBlock} {selection : Selection layout}

theorem table_full (received : ctx.prjIdxTable.map prj = selection.ids.map blocks) :
    ctx.prjIdxTable.take layout.rozofsInverse = ctx.prjIdxTable := by
  have length := congrArg List.length received
  rw [List.length_map,List.length_map,selection.enough] at length
  rw [← length,List.take_length]

/-- Some context of the table received some projection of the block. -/
theorem exists_received (received : ctx.prjIdxTable.map prj = selection.ids.map blocks) :
    ∃ c ∈ ctx.prjIdxTable, ∃ id < layout.rozofsForward, prj c = blocks id := by
  have positive : 0 < selection.ids.length := by
    rw [selection.enough]
    cases layout <;> decide
  obtain ⟨id,member⟩ := List.exists_mem_of_length_pos positive
  have image : blocks id ∈ ctx.prjIdxTable.map prj := by
    rw [received]
    exact List.mem_map_of_mem member
  obtain ⟨c,listed,same⟩ := List.mem_map.mp image
  exact ⟨c,listed,id,selection.known id member,same⟩

/-- The context of a block whose projections all carry one updated header. -/
theorem decided_ctx (decided : Decided layout bsize (.present blocks) ctx prj) (h : BinsHdr)
    (header : ∀ id < layout.rozofsForward, (updateHeader layout bsize ((blocks id).rcv layout bsize)).timestamp = h.timestamp ∧
      (updateHeader layout bsize ((blocks id).rcv layout bsize)).effectiveLength = h.effectiveLength) :
    ctx.timestamp = h.timestamp ∧ ctx.effectiveLength = h.effectiveLength := by
  cases decided with
  | present selection _ _ _ received timestamp effectiveLength =>
    obtain ⟨c,listed,id,known,same⟩ := exists_received received
    rw [← timestamp c listed,← effectiveLength c listed,same]
    exact header id known

theorem decoded_byte (effective : Effective bsize) (received : ctx.prjIdxTable.map prj =
      selection.ids.map (transformBlock layout bsize timestamp len data old))
    (full : ¬dataBlockCheckEmpty data bsize.bytes = true) (target stack : Buffer) (small : j < bsize.bytes) :
    byte (inverseBlock layout bsize target stack
      ((ctx.prjIdxTable.take layout.rozofsInverse).map fun c => rcvProjection layout bsize (prj c))) j = data j := by
  have projections : ctx.prjIdxTable.map (fun c => rcvProjection layout bsize (prj c)) =
      selection.ids.map (blockProjection layout bsize (fun id => (old id).bins) (lane data)) := by
    have mapped := congrArg (List.map (rcvProjection layout bsize)) received
    rw [List.map_map,List.map_map] at mapped
    refine mapped.trans (List.map_congr_left fun id member => ?_)
    rw [Function.comp_apply,transformBlock_full full (selection.known id member)]
    rfl
  have lanes : j / 16 < bsize.bytes / 16 := by cases bsize <;> simp only [BSize.bytes] at small ⊢ <;> omega
  rw [table_full received,projections,byte,inverseBlock_blockProjection bsize selection _ _ effective,
    if_pos ⟨by omega,by exact_mod_cast lanes⟩]
  exact byte_lane data j

end Contexts

/-- Reading a present block gives the bytes it stands for, and it is not an end of file. -/
theorem inverseBytes_holds (effective : Effective bsize) (holds : Holds layout bsize (.present blocks) contents)
    (decided : Decided layout bsize (.present blocks) ctx prj) (target : Bytes) (stack : Buffer) :
    ¬(ctx.timestamp = 0 ∧ ctx.effectiveLength = 0) ∧
    ∀ j < bsize.bytes, inverseBytes layout bsize ctx prj target stack j = contents j := by
  have positive : bsize.bytes ≠ 0 := by cases bsize <;> decide
  cases holds with
  | hole never zero =>
    obtain ⟨timestamp,length⟩ := decided_ctx decided ⟨0,bsize.bytes,0⟩ fun id known => by
      rw [updateHeader_never _ (never id known)]
      exact ⟨rfl,rfl⟩
    refine ⟨by simp [length,positive],fun j small => ?_⟩
    rw [zero j small,inverseBytes,if_pos ⟨timestamp,length⟩]
  | written timestamp len data old dated padded =>
    by_cases empty : dataBlockCheckEmpty data bsize.bytes = true
    · obtain ⟨timestamp,length⟩ := decided_ctx decided ⟨0,bsize.bytes,0⟩ fun id known => by
        rw [updateHeader_never _ (by simp [transformBlock_empty empty known])]
        exact ⟨rfl,rfl⟩
      refine ⟨by simp [length,positive],fun j small => ?_⟩
      rw [padded j small,inverseBytes,if_pos ⟨timestamp,length⟩,(dataBlockCheckEmpty_iff data bsize).mp empty j small]
      split <;> rfl
    · obtain ⟨same,length⟩ := decided_ctx decided ⟨timestamp,len,0⟩ fun id known => by
        rw [transformBlock_full empty known,updateHeader_written effective _ known dated]
        exact ⟨rfl,rfl⟩
      refine ⟨by simp [same,dated],fun j small => ?_⟩
      rw [padded j small,inverseBytes,if_neg (by simp [same,dated])]
      cases decided with
      | present selection _ _ _ received _ _ =>
        simp only [length]
        split
        · exact decoded_byte effective received empty _ _ small
        · rfl

/-- The first `inverse` projections. -/
def lowest (layout : Layout) : Selection layout where
  ids := List.range layout.rozofsInverse
  distinct := List.nodup_range
  enough := List.length_range
  known := by cases layout <;> decide

/-- A present block can be read: its projections have one updated header. -/
theorem exists_decided (effective : Effective bsize) (holds : Holds layout bsize (.present blocks) contents) :
    ∃ ctx, Decided layout bsize (.present blocks) ctx blocks := by
  have header : ∃ timestamp len, ∀ id < layout.rozofsForward,
      (updateHeader layout bsize ((blocks id).rcv layout bsize)).timestamp = timestamp ∧
      (updateHeader layout bsize ((blocks id).rcv layout bsize)).effectiveLength = len := by
    cases holds with
    | hole never zero =>
      exact ⟨0,bsize.bytes,fun id known => by rw [updateHeader_never _ (never id known)]; exact ⟨rfl,rfl⟩⟩
    | written timestamp len data old dated padded =>
      by_cases empty : dataBlockCheckEmpty data bsize.bytes = true
      · refine ⟨0,bsize.bytes,fun id known => ?_⟩
        rw [updateHeader_never _ (by simp [transformBlock_empty empty known])]
        exact ⟨rfl,rfl⟩
      · refine ⟨timestamp,len,fun id known => ?_⟩
        rw [transformBlock_full empty known,updateHeader_written effective _ known dated]
        exact ⟨rfl,rfl⟩
  obtain ⟨timestamp,len,header⟩ := header
  refine ⟨⟨timestamp,len,(lowest layout).ids⟩,.present (lowest layout) blocks blocks _ rfl ?_ ?_⟩
  · exact fun c listed => (header c ((lowest layout).known c listed)).1
  · exact fun c listed => (header c ((lowest layout).known c listed)).2

/-- A read of present blocks returns all of them, each in its place, and writes nothing
else. -/
theorem transformInverse_holds (effective : Effective bsize) (firstBlockIdx : Nat) (ctxs : Nat → BlockCtx)
    (prj : Nat → Nat → PrjBlock) (stack : Nat → Buffer) (blocks : Nat → Nat → PrjBlock) (contents : Nat → Bytes)
    (n idx : Nat) (data : Bytes)
    (holds : ∀ k, idx ≤ k → k < idx + n → Holds layout bsize (.present (blocks k)) (contents k))
    (decided : ∀ k, idx ≤ k → k < idx + n → Decided layout bsize (.present (blocks k)) (ctxs k) (prj k)) :
    (transformInverse layout bsize firstBlockIdx ctxs prj stack n idx data).2 = idx + n ∧
    ∀ a, (transformInverse layout bsize firstBlockIdx ctxs prj stack n idx data).1 a =
      if bsize.bytes * (firstBlockIdx + idx) ≤ a ∧ a < bsize.bytes * (firstBlockIdx + idx + n) then
        contents (a / bsize.bytes - firstBlockIdx) (a % bsize.bytes)
      else data a := by
  have positive := bsize.bytes_pos
  -- The block decoded by this iteration lies before those of the rest of the loop.
  induction n generalizing idx data with
  | zero =>
    refine ⟨rfl,fun a => ?_⟩
    rw [if_neg (by rw [Nat.add_zero]; omega)]
    rfl
  | succ n ih =>
    have block := fun target stack => inverseBytes_holds effective (holds idx (by omega) (by omega))
      (decided idx (by omega) (by omega)) target stack
    rw [transformInverse,if_neg (block data (stack 0)).1]
    obtain ⟨count,rest⟩ := ih (idx + 1) (fun a =>
      if bsize.bytes * (firstBlockIdx + idx) ≤ a ∧ a < bsize.bytes * (firstBlockIdx + idx) + bsize.bytes then
        inverseBytes layout bsize (ctxs idx) (prj idx) (data.shift (bsize.bytes * (firstBlockIdx + idx))) (stack idx)
          (a - bsize.bytes * (firstBlockIdx + idx))
      else data a) (fun k low high => holds k (by omega) (by omega)) (fun k low high => decided k (by omega) (by omega))
    refine ⟨by rw [count]; omega,fun a => ?_⟩
    rw [rest a]
    have next : bsize.bytes * (firstBlockIdx + (idx + 1)) = bsize.bytes * (firstBlockIdx + idx) + bsize.bytes := by ring
    have stop : firstBlockIdx + (idx + 1) + n = firstBlockIdx + idx + (n + 1) := by omega
    have wide : bsize.bytes * (firstBlockIdx + idx) + bsize.bytes ≤ bsize.bytes * (firstBlockIdx + idx + (n + 1)) := by
      rw [← Nat.mul_succ]
      exact Nat.mul_le_mul_left _ (by omega)
    rw [next,stop]
    by_cases here : bsize.bytes * (firstBlockIdx + idx) ≤ a ∧ a < bsize.bytes * (firstBlockIdx + idx) + bsize.bytes
    · obtain ⟨j,rfl⟩ := Nat.exists_eq_add_of_le here.1
      have small : j < bsize.bytes := by omega
      rw [if_neg (by omega),if_pos here,if_pos (by omega),Nat.add_sub_cancel_left,(block _ _).2 j small,
        Nat.mul_add_div positive,Nat.div_eq_of_lt small,Nat.mul_add_mod,Nat.mod_eq_of_lt small]
      congr 1
      omega
    · rw [if_neg here]
      congr 1
      apply propext
      omega

/-- At an absent block the read stops and leaves the buffer as it is. -/
theorem transformInverse_absent (firstBlockIdx : Nat) (ctxs : Nat → BlockCtx) (prj : Nat → Nat → PrjBlock)
    (stack : Nat → Buffer) (n idx : Nat) (data : Bytes) (decided : Decided layout bsize .absent (ctxs idx) (prj idx)) :
    transformInverse layout bsize firstBlockIdx ctxs prj stack n idx data = (data,idx) := by
  cases n with
  | zero => rfl
  | succ n =>
    have ended : (ctxs idx).timestamp = 0 ∧ (ctxs idx).effectiveLength = 0 := by
      generalize ctxs idx = ctx at decided
      cases decided with
      | absent table => exact ⟨rfl,rfl⟩
    rw [transformInverse,if_pos ended]

end Reading

section Writing
variable {layout : Layout} {bsize : BSize}

theorem foldl_store (f : Nat → α → α) (first n : Nat) (m : Nat → α) (b : Nat) :
    (List.range n).foldl (fun m i b => if b = first + i then f i (m b) else m b) m b =
      if first ≤ b ∧ b < first + n then f (b - first) (m b) else m b := by
  induction n with
  | zero => simp
  | succ n ih =>
    rw [List.range_succ,List.foldl_append,List.foldl_cons,List.foldl_nil]
    by_cases last : b = first + n
    · subst last
      rw [if_pos rfl,ih,if_neg (by omega),if_pos (by omega),Nat.add_sub_cancel_left]
    · rw [if_neg last,ih]
      congr 1
      apply propext
      omega

theorem transformForward_get (first n timestamp lastBlockSize : Nat) (data : Bytes) (prj : Nat → Nat → PrjBlock) (b : Nat) :
    transformForward layout bsize first n timestamp lastBlockSize data prj b =
      if first ≤ b ∧ b < first + n then
        transformBlock layout bsize timestamp (if b - first = n - 1 then lastBlockSize else bsize.bytes)
          (data.shift ((b - first) * bsize.bytes)) (prj b)
      else prj b :=
  foldl_store (fun i => transformBlock layout bsize timestamp (if i = n - 1 then lastBlockSize else bsize.bytes)
    (data.shift (i * bsize.bytes))) first n prj b

end Writing

end Rozofs.BlockTransform
