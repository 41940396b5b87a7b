import Rozofs.Layout
import Mathlib.Data.Int.Init
import Mathlib.Tactic.NormNum

/-! Where the functions of `storage.c` find a block in the file of a chunk: the accesses that each
makes, with the products in the integer types that it uses. A signed product that overflows
wraps, as it does in the machine. -/
namespace Rozofs.BlockOffsets

/-- Conversion to `int`. -/
def int32 (n : Int) : Int := Int.bmod n (2 ^ 32)

/-- Conversion to `uint32_t`. -/
def uint32 (n : Int) : Int := n % 2 ^ 32

/-- Conversion to `uint64_t`. -/
def uint64 (n : Int) : Int := n % 2 ^ 64

/-- Conversion to `off_t`. -/
def offT (n : Int) : Int := Int.bmod n (2 ^ 64)

section Widths
variable {n : Int}

theorem int32_lt (n : Int) : int32 n < 2 ^ 31 := by
  rw [int32,Int.bmod_def]
  split
  · omega
  · omega

theorem int32_of_lt (positive : 0 ≤ n) (small : n < 2 ^ 31) : int32 n = n := by
  rw [int32,Int.bmod_def]
  split
  · omega
  · omega

theorem int32_ge (n : Int) : -2 ^ 31 ≤ int32 n := by
  rw [int32,Int.bmod_def]
  split
  · omega
  · omega

theorem uint32_of_lt (positive : 0 ≤ n) (small : n < 2 ^ 32) : uint32 n = n := Int.emod_eq_of_lt positive small

theorem uint64_of_lt (positive : 0 ≤ n) (small : n < 2 ^ 64) : uint64 n = n := Int.emod_eq_of_lt positive small

theorem offT_of_lt (low : -2 ^ 63 ≤ n) (high : n < 2 ^ 63) : offT n = n := by
  rw [offT,Int.bmod_def]
  split
  · omega
  · omega

end Widths

inductive Access where
  | pread (offset length : Int)
  | pwrite (offset length : Int)
  | ftruncate (length : Int)
  deriving DecidableEq

/-- `ROZOFS_STORAGE_NB_BLOCK_PER_CHUNK`. -/
def nbBlockPerChunk (bsize : BSize) : Nat := 2 ^ 43 / 128 / bsize.bytes

section Sizes
variable (layout : Layout) (bsize : BSize)

/-- `rozofs_get_psizes_on_disk`: the bins, the header of 16 bytes and the footer of 8. -/
def getPsizesOnDisk (projectionId : Nat) : Nat :=
  if projectionId ≥ layout.rozofsForward then 0 else 2 * (layout.rozofsEffPsizes bsize).getD projectionId 0 * 8 + 16 + 8

/-- `rozofs_get_max_psize_in_msg`. -/
def getMaxPsizeInMsg : Nat :=
  let sz := 2 * layout.rozofsEffPsizesMax bsize * 8 + 16 + 8
  if sz % 16 ≠ 0 then sz + (16 - sz % 16) else sz

/-- `storage_get_projection_size`: the size in a message and the size on disk, in 16 bits; a storage
that is not in the distribution is fatal. -/
def storageGetProjectionSize (spare : Bool) (sid : Nat) (distSet : Nat → Nat) : Option (Nat × Nat) :=
  let msg := getMaxPsizeInMsg layout bsize % 2 ^ 16
  if spare then some (msg,msg)
  else
    match (List.range layout.rozofsSafe).find? fun prjId => decide (sid = distSet prjId) with
    | some prjId => if prjId < layout.rozofsForward then some (msg,getPsizesOnDisk layout bsize prjId % 2 ^ 16) else some (msg,msg)
    | none => none

/-- `storage_get_projid_size`. -/
def storageGetProjidSize (spare : Bool) (prjId : Nat) : Nat × Nat :=
  let msg := getMaxPsizeInMsg layout bsize % 2 ^ 16
  if spare then (msg,msg) else (msg,getPsizesOnDisk layout bsize prjId % 2 ^ 16)

end Sizes

section Calls
variable (disk : Nat)

/-- The write of `storage_write_chunk`; in one piece, or a projection at a time one after the other. -/
def storageWriteChunk (bid nbProj : Nat) : List Access :=
  let binsFileOffset := offT (uint64 (bid * disk))
  let lengthToWrite := uint32 (nbProj * disk)
  [.pwrite binsFileOffset lengthToWrite]

/-- The read of `storage_read_chunk`. -/
def storageReadChunk (bid nbProj : Nat) : List Access :=
  let binsFileOffset := offT (uint64 (bid * disk))
  let lengthToRead := uint32 (nbProj * disk)
  [.pread binsFileOffset lengthToRead]

/-- A block of the loop of `storage_write_repair3_chunk`: it is read, and written when the header is
still the one that was asked for. The index of the block is an `int`. -/
def repairBlock (bid relativeBid : Nat) (same : Bool) : List Access :=
  let blockIdx := int32 (uint64 (relativeBid + bid))
  let binsFileOffset := offT (int32 (blockIdx * disk))
  .pread binsFileOffset disk :: if same then [.pwrite binsFileOffset disk] else []

/-- `storage_write_repair3_chunk`. -/
def storageWriteRepair3Chunk (bid : Nat) (blk2repair : List (Nat × Bool)) : List Access :=
  blk2repair.flatMap fun b => repairBlock disk bid b.1 b.2

/-- `storage_resize`: the last block of a file of `stSize` bytes; `none` when there is none in the
first chunk. The number of blocks is a `uint32_t`. -/
def storageResize (chunk stSize : Nat) : Option (List Access) :=
  let nbBlocks := uint32 (stSize / disk : Nat)
  if nbBlocks = 0 ∧ chunk = 0 then none
  else
    let nbBlocks := uint32 (nbBlocks - 1)
    some [.pread (offT (uint32 (nbBlocks * disk))) disk]

/-- `storage_truncate` for a projection of `psize` words: the block of the end is written as it is
given, or its header and footer only. `none` is `EFBIG`. -/
def storageTruncate (bsize : BSize) (psize inputBid lastSeg lengthToWrite : Nat) : Option (List Access) :=
  let blockPerChunk := int32 (nbBlockPerChunk bsize)
  let chunk := int32 (inputBid / blockPerChunk)
  let bid := uint64 (inputBid - int32 (chunk * blockPerChunk))
  if chunk ≥ 128 then none
  else
    let bidTruncate := if lastSeg ≠ 0 then uint64 (bid + 1) else bid
    let cut := Access.ftruncate (offT (uint64 (bidTruncate * disk)))
    if lastSeg = 0 then some [cut]
    else
      let binsFileOffset := offT (uint64 (bid * disk))
      if lengthToWrite ≠ 0 then some [cut,.pwrite binsFileOffset disk]
      else some [cut,.pwrite binsFileOffset 16,.pwrite (offT (binsFileOffset + (16 + psize * 8))) 8]

end Calls

section Places
variable {layout : Layout} {bsize : BSize} {disk b : Nat}

theorem nbBlockPerChunk_le (bsize : BSize) : nbBlockPerChunk bsize ≤ 2 ^ 24 := by
  cases bsize <;> decide

theorem max_psize_bounds (layout : Layout) (bsize : BSize) :
    0 < getMaxPsizeInMsg layout bsize ∧ getMaxPsizeInMsg layout bsize < 2 ^ 13 := by
  cases layout <;> cases bsize <;> decide

theorem psizes_bounds (layout : Layout) (bsize : BSize) :
    ∀ prjId < layout.rozofsForward, 0 < getPsizesOnDisk layout bsize prjId ∧ getPsizesOnDisk layout bsize prjId < 2 ^ 13 := by
  cases layout <;> cases bsize <;> decide

/-- The sizes on disk are not cut to 16 bits. -/
theorem storageGetProjectionSize_bounds {spare : Bool} {sid : Nat} {distSet : Nat → Nat}
    (found : storageGetProjectionSize layout bsize spare sid distSet = some (msg,disk)) : 0 < disk ∧ disk < 2 ^ 13 := by
  have largest := max_psize_bounds layout bsize
  unfold storageGetProjectionSize at found
  simp only at found
  split at found
  · cases found
    omega
  · split at found
    · split at found
      · rename_i prjId _ low
        have exactly := psizes_bounds layout bsize prjId low
        cases found
        omega
      · cases found
        omega
    · cases found

/-- What the functions do with block `b` of a chunk when they find it at `b` times the size on disk:
a write and a read that go over it, a repair of it, the search of the last block when it is that
one, and the cuts just before it and inside it, for which `sizes` are those of the projection. -/
structure Agree (bsize : BSize) (sizes : Nat × Nat) (disk b : Nat) : Prop where
  write : ∀ bid nbProj, bid ≤ b → b < bid + nbProj → ∃ offset length, storageWriteChunk disk bid nbProj = [.pwrite offset length] ∧
    offset + ((b - bid) * disk : Nat) = (b * disk : Nat)
  read : ∀ bid nbProj, bid ≤ b → b < bid + nbProj → ∃ offset length, storageReadChunk disk bid nbProj = [.pread offset length] ∧
    offset + ((b - bid) * disk : Nat) = (b * disk : Nat)
  repair : ∀ bid relativeBid same before after, bid + relativeBid = b →
    storageWriteRepair3Chunk disk bid (before ++ (relativeBid,same) :: after) = storageWriteRepair3Chunk disk bid before ++
      (.pread (b * disk : Nat) disk :: if same then [.pwrite (b * disk : Nat) disk] else []) ++ storageWriteRepair3Chunk disk bid after
  resize : ∀ chunk stSize, stSize / disk = b + 1 → storageResize disk chunk stSize = some [.pread (b * disk : Nat) disk]
  cut : ∀ chunk < 128, ∀ psize lengthToWrite,
    storageTruncate sizes.2 bsize psize (chunk * nbBlockPerChunk bsize + b) 0 lengthToWrite = some [.ftruncate (b * disk : Nat)]
  inside : ∀ chunk < 128, ∀ psize lastSeg lengthToWrite, lastSeg ≠ 0 →
    ∃ length rest, storageTruncate sizes.2 bsize psize (chunk * nbBlockPerChunk bsize + b) lastSeg lengthToWrite =
      some (.ftruncate ((b + 1) * disk : Nat) :: .pwrite (b * disk : Nat) length :: rest)

/-- The projection of a request is the rank of the storage in the distribution. -/
def Rank (layout : Layout) (spare : Bool) (sid prjId : Nat) (distSet : Nat → Nat) : Prop :=
  spare = true ∨ (prjId < layout.rozofsForward ∧ (List.range layout.rozofsSafe).find? (fun i => decide (sid = distSet i)) = some prjId)

theorem projid_size {spare : Bool} {sid prjId : Nat} {distSet : Nat → Nat} (rank : Rank layout spare sid prjId distSet)
    (found : storageGetProjectionSize layout bsize spare sid distSet = some (msg,disk)) : storageGetProjidSize layout bsize spare prjId = (msg,disk) := by
  rcases rank with extra | ⟨low,own⟩
  · simp only [storageGetProjectionSize,extra,if_true,Option.some.injEq] at found
    simpa only [storageGetProjidSize,extra,if_true] using found
  · cases spare with
    | true => simpa only [storageGetProjectionSize,storageGetProjidSize,if_true,Option.some.injEq] using found
    | false => simpa only [storageGetProjectionSize,storageGetProjidSize,own,low,if_true,Bool.false_eq_true,if_false,Option.some.injEq] using found

theorem place_lt (low : b < 2 ^ 24) (small : disk < 2 ^ 13) : b * disk < 2 ^ 37 := by
  calc b * disk ≤ 2 ^ 24 * disk := Nat.mul_le_mul_right disk low.le
    _ < 2 ^ 24 * 2 ^ 13 := Nat.mul_lt_mul_of_pos_left small (by decide)

/-- A product of 64 bits is the place itself. -/
theorem offT_uint64 {n : Nat} (low : n < 2 ^ 63) : offT (uint64 n) = n := by
  rw [uint64_of_lt (by omega) (by omega),offT_of_lt (by omega) (by omega)]

theorem write_place {bid : Nat} (low : b < 2 ^ 24) (small : disk < 2 ^ 13) (first : bid ≤ b) :
    offT (uint64 (bid * disk)) + ((b - bid) * disk : Nat) = (b * disk : Nat) := by
  have place := place_lt (Nat.lt_of_le_of_lt first low) small
  have whole := offT_uint64 (n := bid * disk) (by omega)
  rw [Nat.cast_mul] at whole
  rw [whole,← Nat.cast_mul,← Nat.cast_add,← Nat.add_mul,Nat.add_sub_cancel' first]

/-- The offset of a repair. -/
theorem repair_place {bid relativeBid : Nat} (low : b < 2 ^ 24) (own : bid + relativeBid = b) :
    offT (int32 (int32 (uint64 (relativeBid + bid)) * disk)) = int32 (b * disk : Nat) := by
  have index : int32 (uint64 ((relativeBid : Int) + bid)) = b := by
    rw [uint64_of_lt (by omega) (by omega),int32_of_lt (by omega) (by omega)]
    omega
  have high := int32_lt (b * disk : Nat)
  have atLeast := int32_ge (b * disk : Nat)
  rw [index,← Nat.cast_mul,offT_of_lt (by omega) (by omega)]

theorem resize_place {chunk stSize : Nat} (low : b < 2 ^ 24) (last : stSize / disk = b + 1) :
    storageResize disk chunk stSize = some [.pread (offT (uint32 (b * disk : Nat))) disk] := by
  have blocks : uint32 (stSize / disk : Nat) = b + 1 := by
    rw [last,uint32_of_lt (by omega) (by omega)]
    omega
  have before : uint32 ((b : Int) + 1 - 1) = b := by
    rw [Int.add_sub_cancel,uint32_of_lt (by omega) (by omega)]
  have some_ : ¬((b : Int) + 1 = 0 ∧ chunk = 0) := by omega
  simp only [storageResize,blocks,before,some_,if_false,Nat.cast_mul]

/-- A truncation divides the index in a chunk and a block of it. -/
theorem truncate_index {chunk : Nat} (low : b < nbBlockPerChunk bsize) (inside : chunk < 128) :
    let blockPerChunk := int32 (nbBlockPerChunk bsize)
    let inputBid : Nat := chunk * nbBlockPerChunk bsize + b
    int32 (inputBid / blockPerChunk) = chunk ∧ uint64 (inputBid - int32 (chunk * blockPerChunk)) = b := by
  have few := nbBlockPerChunk_le bsize
  have blockPerChunk : int32 (nbBlockPerChunk bsize) = nbBlockPerChunk bsize := int32_of_lt (by omega) (by omega)
  have quotient : (chunk * nbBlockPerChunk bsize + b) / nbBlockPerChunk bsize = chunk := by
    rw [Nat.mul_comm,Nat.mul_add_div (by omega),Nat.div_eq_of_lt low,Nat.add_zero]
  have start : chunk * nbBlockPerChunk bsize < 2 ^ 31 := by
    calc chunk * nbBlockPerChunk bsize ≤ 127 * nbBlockPerChunk bsize := Nat.mul_le_mul_right _ (by omega)
      _ ≤ 127 * 2 ^ 24 := Nat.mul_le_mul_left _ few
      _ < 2 ^ 31 := by decide
  simp only [blockPerChunk]
  constructor
  · rw [← Int.natCast_ediv,quotient,int32_of_lt (by omega) (by omega)]
  · rw [← Nat.cast_mul,int32_of_lt (by omega) (by omega),uint64_of_lt (by omega) (by omega)]
    omega

/-- The cuts are where they should be for every block of a chunk. -/
theorem truncate_places {chunk : Nat} (low : b < nbBlockPerChunk bsize) (small : disk < 2 ^ 13) (inside : chunk < 128) (psize lengthToWrite : Nat) :
    storageTruncate disk bsize psize (chunk * nbBlockPerChunk bsize + b) 0 lengthToWrite = some [.ftruncate (b * disk : Nat)] ∧
      ∀ lastSeg, lastSeg ≠ 0 → ∃ length rest, storageTruncate disk bsize psize (chunk * nbBlockPerChunk bsize + b) lastSeg lengthToWrite =
        some (.ftruncate ((b + 1) * disk : Nat) :: .pwrite (b * disk : Nat) length :: rest) := by
  obtain ⟨chunkOf,bidOf⟩ := truncate_index low inside
  have few := nbBlockPerChunk_le bsize
  have place := place_lt (show b < 2 ^ 24 by omega) small
  have start : offT (uint64 (b * disk)) = (b * disk : Nat) := by
    rw [← Nat.cast_mul]
    exact offT_uint64 (by omega)
  have after : offT (uint64 (uint64 (b + 1) * disk)) = ((b + 1) * disk : Nat) := by
    have next : uint64 ((b : Int) + 1) = (b + 1 : Nat) := uint64_of_lt (by omega) (by omega)
    rw [next,← Nat.cast_mul]
    apply offT_uint64
    rw [Nat.add_mul]
    omega
  have notBig : ¬(chunk : Int) ≥ 128 := by omega
  simp only [storageTruncate,chunkOf,bidOf,notBig,if_false,start,ne_eq,not_true_eq_false,if_true,true_and]
  intro lastSeg partial_
  simp only [partial_,not_false_eq_true,if_true,if_false,after]
  split
  · exact ⟨_,_,rfl⟩
  · exact ⟨_,_,rfl⟩

/-- All the functions find the blocks of a chunk at the same places exactly as long as the offset is
an `int`: the repair multiplies two of them. -/
theorem blocks_placed (layout : Layout) (bsize : BSize) (spare : Bool) (sid prjId : Nat) (distSet : Nat → Nat) (msg disk b : Nat)
    (rank : Rank layout spare sid prjId distSet) (found : storageGetProjectionSize layout bsize spare sid distSet = some (msg,disk))
    (low : b < nbBlockPerChunk bsize) : Agree bsize (storageGetProjidSize layout bsize spare prjId) disk b ↔ b * disk < 2 ^ 31 := by
  rw [projid_size rank found]
  obtain ⟨positive,small⟩ := storageGetProjectionSize_bounds found
  have few := nbBlockPerChunk_le bsize
  have below : b < 2 ^ 24 := by omega
  have place := place_lt below small
  constructor
  · intro agree
    have repaired := agree.repair b 0 false [] [] (Nat.add_zero b)
    simp only [storageWriteRepair3Chunk,List.nil_append,List.flatMap_cons,List.flatMap_nil,List.append_nil,repairBlock,
      Bool.false_eq_true,if_false,List.cons.injEq,Access.pread.injEq,and_true,repair_place below (Nat.add_zero b)] at repaired
    have within := int32_lt (b * disk : Nat)
    omega
  · intro fits
    have inInt : int32 (b * disk : Nat) = (b * disk : Nat) := int32_of_lt (by omega) (by omega)
    constructor
    case write => exact fun bid nbProj first _ => ⟨_,_,rfl,write_place below small first⟩
    case read => exact fun bid nbProj first _ => ⟨_,_,rfl,write_place below small first⟩
    case repair =>
      intro bid relativeBid same before after own
      simp only [storageWriteRepair3Chunk,List.flatMap_append,List.flatMap_cons,repairBlock,repair_place below own,inInt,List.append_assoc]
    case resize =>
      intro chunk stSize last
      rw [resize_place below last,uint32_of_lt (by omega) (by omega),offT_of_lt (by omega) (by omega)]
    case cut => exact fun chunk inside psize lengthToWrite => (truncate_places low small inside psize lengthToWrite).1
    case inside => exact fun chunk inside psize lastSeg lengthToWrite => (truncate_places low small inside psize lengthToWrite).2 lastSeg

/-- The last block of a layout 2_3_4 that they all find. -/
theorem blocks_placed_last : Agree .bsize4K (storageGetProjidSize .layout_2_3_4 .bsize4K false 0) 2072 1036430 :=
  (blocks_placed .layout_2_3_4 .bsize4K false 7 0 (fun i => i + 7) 2080 2072 1036430 (.inr ⟨by decide, by decide⟩) (by decide) (by decide)).mpr
    (by decide)

/-- The next block is written 2 GiB after the start of the file, and repaired at a negative offset;
2 GiB later the search of the last block reads the first one. -/
theorem repair_misplaced : ¬Agree .bsize4K (storageGetProjidSize .layout_2_3_4 .bsize4K false 0) 2072 1036431 ∧
    storageWriteChunk 2072 1036431 1 = [.pwrite 2147485032 2072] ∧
    storageWriteRepair3Chunk 2072 1036431 [(0,true)] = [.pread (-2147482264) 2072,.pwrite (-2147482264) 2072] ∧
    storageReadChunk 2072 2072861 1 = [.pread 4294967992 2072] ∧ storageResize 2072 1 (2072 * 2072862) = some [.pread 696 2072] := by
  refine ⟨?_,by decide,by decide,by decide,by decide⟩
  intro agree
  have repaired := agree.repair 1036431 0 false [] [] (Nat.add_zero _)
  revert repaired
  decide

end Places

end Rozofs.BlockOffsets
