import Rozofs.Layout
import Mathlib.Data.List.Basic
import Mathlib.Tactic.Positivity
import Mathlib.Tactic.Ring

/-! Split of a write request by `rozofs_storcli_prepare2write`: blocks that are transformed
from the request buffer, and blocks that are read first. The machine widths of the C
variables are kept. -/
namespace Rozofs.WritePlan

/-- Conversions of C to unsigned types. -/
def u64 (n : Int) : Nat := (n % 2 ^ 64).toNat

def u32 (n : Int) : Nat := (n % 2 ^ 32).toNat

def u16 (n : Int) : Nat := (n % 2 ^ 16).toNat

/-- The states of `rozofs_write_state_e` that the split gives to a segment. -/
inductive WriteState where
  | idle
  | transformReq
  | rdReq
  deriving DecidableEq, Repr

/-- `rozofs_storcli_ingress_write_buf_t`. `data` is an offset in the request buffer; the data
of a segment to read is in the read buffer. -/
structure Segment where
  state : WriteState
  len : Nat
  off : Nat
  data : Option Nat
  firstBlockIdx : Nat
  numberOfBlocks : Nat
  lastBlockSize : Nat
  deriving DecidableEq, Repr

/-- The three entries of `wr_proj_buf`, with the values returned through pointers. -/
structure Plan where
  first : Segment
  middle : Segment
  last : Segment
  bid : Nat
  nbBlocks : Nat
  internalRead : Nat
  deriving DecidableEq, Repr

def storcliFlagsNoEndReread : Nat := 2

/-- An entry that the split does not use. -/
def Segment.unused (bbytes : Nat) : Segment := ⟨.idle,0,0,none,0,0,bbytes⟩

section Split
variable (bbytes off len : Nat)

def firstBlock : Nat := off / bbytes

def foffset : Nat := u16 (off % bbytes : Nat)

def lastBlock : Nat :=
  u64 (u64 (off + len) / bbytes + (if u64 (off + len) % bbytes = 0 then -1 else 0))

def loffset : Nat := u16 (u64 (u64 (off + len) - lastBlock bbytes off len * bbytes))

def fread : Bool := foffset bbytes off ≠ 0

def lread (flags : Nat) : Bool := loffset bbytes off len ≠ bbytes ∧ flags &&& storcliFlagsNoEndReread = 0

/-- The whole request is in one block. -/
def prepareOne (flags : Nat) : Plan :=
  if fread bbytes off || lread bbytes off len flags then
    { first := ⟨.rdReq,bbytes,firstBlock bbytes off * bbytes,none,0,1,bbytes⟩
      middle := .unused bbytes, last := .unused bbytes
      bid := firstBlock bbytes off, nbBlocks := 1, internalRead := 1 }
  else
    { first := ⟨.transformReq,len,off,some 0,0,1,len⟩
      middle := .unused bbytes, last := .unused bbytes
      bid := firstBlock bbytes off, nbBlocks := 1, internalRead := 0 }

/-- Middle segment after a first block to read. -/
def middleAfterRead : Segment :=
  let l := u32 (len - (bbytes - foffset bbytes off)) / bbytes * bbytes
  ⟨.transformReq,l,u64 ((firstBlock bbytes off + 1) * bbytes),some (bbytes - foffset bbytes off),1,l / bbytes,bbytes⟩

def middleFromStart : Segment :=
  let l := len / bbytes * bbytes
  ⟨.transformReq,l,firstBlock bbytes off * bbytes,some 0,0,l / bbytes,bbytes⟩

def lastToRead : Segment :=
  ⟨.rdReq,bbytes,u64 (lastBlock bbytes off len * bbytes),none,
    u32 (u64 ((lastBlock bbytes off len : Int) - firstBlock bbytes off)),1,bbytes⟩

/-- More than one block, with at least one to read. -/
def prepareRead (flags : Nat) : Plan :=
  let first : Segment :=
    if fread bbytes off then ⟨.rdReq,bbytes,firstBlock bbytes off * bbytes,none,0,1,bbytes⟩ else .unused bbytes
  let middle := if fread bbytes off then middleAfterRead bbytes off len else middleFromStart bbytes off len
  let last := if lread bbytes off len flags then lastToRead bbytes off len else .unused bbytes
  { first := first, middle := middle, last := last, bid := firstBlock bbytes off
    nbBlocks := first.numberOfBlocks + middle.numberOfBlocks + last.numberOfBlocks
    internalRead := (if fread bbytes off then 1 else 0) + (if lread bbytes off len flags then 1 else 0) }

/-- All is aligned on the block size. -/
def prepareAligned : Plan :=
  let n := u32 (u64 ((lastBlock bbytes off len : Int) - firstBlock bbytes off + 1))
  { first := ⟨.transformReq,u32 (n * bbytes),firstBlock bbytes off * bbytes,some 0,0,n,bbytes⟩
    middle := .unused bbytes, last := .unused bbytes
    bid := firstBlock bbytes off, nbBlocks := n, internalRead := 0 }

end Split

/-- `rozofs_storcli_prepare2write`. -/
def prepare2write (bsize : BSize) (off len flags : Nat) : Plan :=
  if firstBlock bsize.bytes off = lastBlock bsize.bytes off len then prepareOne bsize.bytes off len flags
  else if fread bsize.bytes off || lread bsize.bytes off len flags then prepareRead bsize.bytes off len flags
  else prepareAligned bsize.bytes off len

/-- Bytes copied by the internal read callback in the first block: from the offset of the
request, up to the end of the block or of the request. -/
def firstRelative (off : Nat) (s : Segment) : Nat := u32 ((off : Int) - s.off)

def firstCopied (bbytes off len : Nat) (s : Segment) : Nat :=
  if u32 (firstRelative off s + len) ≥ bbytes then bbytes - firstRelative off s else len

/-- Bytes copied in the last block: the part of the request that starts there. -/
def lastRelative (off : Nat) (s : Segment) : Nat := u32 ((s.off : Int) - off)

def lastCopied (off len : Nat) (s : Segment) : Nat := u32 ((len : Int) - lastRelative off s)

/-- Block indexes that a segment writes. -/
def Segment.blocks (bid : Nat) (s : Segment) : List Nat :=
  if s.state = .idle then [] else List.range' (bid + s.firstBlockIdx) s.numberOfBlocks

/-- File offset and request offset of the user bytes of a segment. -/
def run (file data count : Nat) : List (Nat × Nat) := (List.range count).map fun j => (file + j,data + j)

/-- User bytes of a segment that is transformed from the request: all its blocks, the last one
up to its effective size. -/
def Segment.transformed (bbytes bid : Nat) (s : Segment) : List (Nat × Nat) :=
  if s.numberOfBlocks = 0 then []
  else run ((bid + s.firstBlockIdx) * bbytes) (s.data.getD 0) ((s.numberOfBlocks - 1) * bbytes + s.lastBlockSize)

def placedFirst (bbytes off len bid : Nat) (s : Segment) : List (Nat × Nat) :=
  match s.state with
  | .idle => []
  | .transformReq => s.transformed bbytes bid
  | .rdReq => run ((bid + s.firstBlockIdx) * bbytes + firstRelative off s) 0 (firstCopied bbytes off len s)

def placedMiddle (bbytes bid : Nat) (s : Segment) : List (Nat × Nat) :=
  match s.state with
  | .transformReq => s.transformed bbytes bid
  | _ => []

def placedLast (bbytes off len bid : Nat) (s : Segment) : List (Nat × Nat) :=
  match s.state with
  | .idle => []
  | .transformReq => s.transformed bbytes bid
  | .rdReq => run ((bid + s.firstBlockIdx) * bbytes) (lastRelative off s) (lastCopied off len s)

def Plan.blocks (p : Plan) : List Nat :=
  p.first.blocks p.bid ++ (p.middle.blocks p.bid ++ p.last.blocks p.bid)

/-- Where the plan places the bytes of the request. -/
def Plan.placements (bbytes off len : Nat) (p : Plan) : List (Nat × Nat) :=
  placedFirst bbytes off len p.bid p.first ++
    (placedMiddle bbytes p.bid p.middle ++ placedLast bbytes off len p.bid p.last)

/-- The plan covers the blocks of the request once, in order, and places every byte of the
request, and no other, at its file offset. -/
structure Tiles (bbytes off len : Nat) (p : Plan) : Prop where
  blocks : p.blocks = List.range' (off / bbytes) ((off + len - 1) / bbytes - off / bbytes + 1)
  count : p.nbBlocks = (off + len - 1) / bbytes - off / bbytes + 1
  bytes : p.placements bbytes off len = run off 0 len

theorem u64_of_lt (low : 0 ≤ n) (high : n < 2 ^ 64) : u64 n = n.toNat := by
  rw [u64,Int.emod_eq_of_lt low high]

theorem u32_of_lt (low : 0 ≤ n) (high : n < 2 ^ 32) : u32 n = n.toNat := by
  rw [u32,Int.emod_eq_of_lt low high]

theorem u16_of_lt (low : 0 ≤ n) (high : n < 2 ^ 16) : u16 n = n.toNat := by
  rw [u16,Int.emod_eq_of_lt low high]

theorem run_append (file data m n : Nat) :
    run file data m ++ run (file + m) (data + m) n = run file data (m + n) := by
  simp only [run,List.range_add,List.map_append,List.map_map]
  congr 1
  apply List.map_congr_left
  intro j _
  simp [Nat.add_assoc]

@[simp] theorem run_zero (file data : Nat) : run file data 0 = [] := rfl

@[simp] theorem length_run (file data n : Nat) : (run file data n).length = n := by simp [run]

theorem bytes_bounds (bsize : BSize) : 4096 ≤ bsize.bytes ∧ bsize.bytes ≤ 32768 := by
  cases bsize <;> decide

/-- A request in terms of its first block `q`, the offset `r` in it, the number `d` of
blocks that follow, and the number `l` of bytes up to the end of the request in the last one. -/
structure Shape (bbytes off len q r d l : Nat) : Prop where
  start : off = q * bbytes + r
  inside : r < bbytes
  stop : off + len = q * bbytes + d * bbytes + l
  some : 0 < l
  most : l ≤ bbytes
  small : len < 2 ^ 31
  fits : off + len < 2 ^ 64
  least : 4096 ≤ bbytes
  greatest : bbytes ≤ 32768

theorem exists_shape (bsize : BSize) (off len : Nat) (positive : 0 < len) (small : len < 2 ^ 31)
    (fits : off + len < 2 ^ 64) : ∃ d l, Shape bsize.bytes off len (off / bsize.bytes) (off % bsize.bytes) d l := by
  have room := bytes_bounds bsize
  have order : off / bsize.bytes ≤ (off + len - 1) / bsize.bytes := Nat.div_le_div_right (by omega)
  have start := Nat.div_add_mod off bsize.bytes
  have stop := Nat.div_add_mod (off + len - 1) bsize.bytes
  have low := Nat.mod_lt off (show 0 < bsize.bytes by omega)
  have high := Nat.mod_lt (off + len - 1) (show 0 < bsize.bytes by omega)
  obtain ⟨d,split⟩ := Nat.exists_eq_add_of_le order
  rw [split,Nat.mul_add] at stop
  rw [Nat.mul_comm] at start
  rw [Nat.mul_comm,Nat.mul_comm bsize.bytes d] at stop
  exact ⟨d,(off + len - 1) % bsize.bytes + 1,by omega,low,by omega,by omega,by omega,small,fits,room.1,room.2⟩

namespace Shape
variable {bbytes off len q r d l : Nat}

theorem first_eq (shape : Shape bbytes off len q r d l) : firstBlock bbytes off = q := by
  rw [firstBlock,shape.start,Nat.mul_comm,Nat.mul_add_div (by have := shape.least; omega),
    Nat.div_eq_of_lt shape.inside,Nat.add_zero]

theorem foffset_eq (shape : Shape bbytes off len q r d l) : foffset bbytes off = r := by
  have bound := shape.inside
  have greatest := shape.greatest
  rw [foffset,shape.start,Nat.mul_comm,Nat.mul_add_mod,Nat.mod_eq_of_lt bound,
    u16_of_lt (by omega) (by omega),Int.toNat_natCast]

theorem last_eq (shape : Shape bbytes off len q r d l) : lastBlock bbytes off len = q + d := by
  have positive : 0 < bbytes := by have := shape.least; omega
  have sum : u64 ((off : Int) + len) = (q + d) * bbytes + l := by
    rw [u64_of_lt (by omega) (by have := shape.fits; omega),Nat.add_mul]
    have := shape.stop
    omega
  have bound : (q + d) * bbytes + l < 2 ^ 64 := by
    have := shape.fits
    rw [shape.stop] at this
    rwa [Nat.add_mul]
  have blocks : q + d ≤ (q + d) * bbytes := Nat.le_mul_of_pos_right _ positive
  rw [lastBlock,sum]
  rcases Nat.lt_or_eq_of_le shape.most with short | full
  · have quotient : ((q + d) * bbytes + l) / bbytes = q + d := by
      rw [Nat.mul_comm,Nat.mul_add_div positive,Nat.div_eq_of_lt short,Nat.add_zero]
    have remainder : ((q + d) * bbytes + l) % bbytes = l := by
      rw [Nat.mul_comm,Nat.mul_add_mod,Nat.mod_eq_of_lt short]
    have := shape.some
    rw [← Int.natCast_ediv,quotient,remainder,if_neg (by omega),u64_of_lt (by omega) (by omega)]
    omega
  · have quotient : ((q + d) * bbytes + l) / bbytes = q + d + 1 := by
      rw [full,← Nat.succ_mul,Nat.mul_div_cancel _ positive]
    have remainder : ((q + d) * bbytes + l) % bbytes = 0 := by
      rw [full,← Nat.succ_mul,Nat.mul_mod_left]
    have := shape.least
    rw [← Int.natCast_ediv,quotient,remainder,if_pos rfl,u64_of_lt (by omega) (by omega)]
    omega

theorem loffset_eq (shape : Shape bbytes off len q r d l) : loffset bbytes off len = l := by
  have most := shape.most
  have greatest := shape.greatest
  have sum : u64 ((off : Int) + len) = q * bbytes + d * bbytes + l := by
    rw [u64_of_lt (by omega) (by have := shape.fits; omega)]
    have := shape.stop
    omega
  rw [loffset,shape.last_eq,sum]
  have rest : ((q * bbytes + d * bbytes + l : Nat) : Int) - ((q + d : Nat) : Int) * bbytes = l := by
    push_cast
    ring
  rw [rest,u64_of_lt (by omega) (by omega),Int.toNat_natCast,u16_of_lt (by omega) (by omega),Int.toNat_natCast]

theorem length_eq (shape : Shape bbytes off len q r d l) : len + r = d * bbytes + l := by
  have := shape.start
  have := shape.stop
  omega

theorem span (shape : Shape bbytes off len q r d l) : (off + len - 1) / bbytes = q + d := by
  have positive : 0 < bbytes := by have := shape.least; omega
  have some := shape.some
  have most := shape.most
  have stop := shape.stop
  rw [← Nat.add_mul] at stop
  rw [show off + len - 1 = bbytes * (q + d) + (l - 1) by rw [Nat.mul_comm]; omega,Nat.mul_add_div positive,
    Nat.div_eq_of_lt (by omega),Nat.add_zero]

theorem fread_eq (shape : Shape bbytes off len q r d l) : fread bbytes off = decide (r ≠ 0) := by
  rw [fread,shape.foffset_eq]

theorem lread_eq (shape : Shape bbytes off len q r d l) (flags : Nat) :
    lread bbytes off len flags = decide (l ≠ bbytes ∧ flags &&& storcliFlagsNoEndReread = 0) := by
  rw [lread,shape.loffset_eq]

theorem firstRelative_eq (shape : Shape bbytes off len q r d l) (s : Segment) (at' : s.off = q * bbytes) :
    firstRelative off s = r := by
  have := shape.start
  have := shape.inside
  have := shape.greatest
  rw [firstRelative,at',u32_of_lt (by omega) (by omega)]
  omega

theorem sum_eq (shape : Shape bbytes off len q r d l) : u32 ((r : Int) + len) = r + len := by
  have := shape.inside
  have := shape.greatest
  have := shape.small
  rw [u32_of_lt (by omega) (by omega)]
  omega

/-- Blocks of the middle segment after a first block to read. -/
theorem middle_blocks (shape : Shape bbytes off len q r d l) (more : 0 < d) :
    u32 ((len : Int) - (bbytes - foffset bbytes off)) / bbytes = if l = bbytes then d else d - 1 := by
  have positive : 0 < bbytes := by have := shape.least; omega
  have length := shape.length_eq
  have small := shape.small
  have inside := shape.inside
  obtain ⟨e,rfl⟩ := Nat.exists_eq_add_of_lt more
  rw [Nat.zero_add,Nat.succ_mul] at length
  rw [shape.foffset_eq,u32_of_lt (by have := shape.some; omega) (by omega)]
  have rest : ((len : Int) - (bbytes - r)).toNat = bbytes * e + l := by
    rw [Nat.mul_comm]
    omega
  rw [rest,Nat.mul_add_div positive]
  split
  · rename_i full
    rw [full,Nat.div_self positive]
    omega
  · have := shape.most
    rw [Nat.div_eq_of_lt (by omega)]
    omega

theorem start_blocks (shape : Shape bbytes off len q 0 d l) :
    len / bbytes = if l = bbytes then d + 1 else d := by
  have positive : 0 < bbytes := by have := shape.least; omega
  have length := shape.length_eq
  rw [show len = bbytes * d + l by rw [Nat.mul_comm]; omega,Nat.mul_add_div positive]
  split
  · rename_i full
    rw [full,Nat.div_self positive]
  · have := shape.most
    rw [Nat.div_eq_of_lt (by omega),Nat.add_zero]

end Shape

/-- The flag that suppresses the read of the last block, on a request of several blocks
whose end is not aligned. -/
def EndDropped (bsize : BSize) (off len flags : Nat) : Prop :=
  flags &&& storcliFlagsNoEndReread ≠ 0 ∧ off / bsize.bytes ≠ (off + len - 1) / bsize.bytes ∧
  (off + len) % bsize.bytes ≠ 0

instance (bsize : BSize) (off len flags : Nat) : Decidable (EndDropped bsize off len flags) :=
  inferInstanceAs (Decidable (_ ∧ _ ∧ _))

theorem Shape.endDropped_iff (shape : Shape bsize.bytes off len (off / bsize.bytes) r d l) (flags : Nat) :
    EndDropped bsize off len flags ↔
      flags &&& storcliFlagsNoEndReread ≠ 0 ∧ 0 < d ∧ l ≠ bsize.bytes := by
  have remainder : (off + len) % bsize.bytes = if l = bsize.bytes then 0 else l := by
    rw [shape.stop,← Nat.add_mul,Nat.mul_comm,Nat.mul_add_mod]
    split
    · rename_i full
      rw [full,Nat.mod_self]
    · have := shape.most
      exact Nat.mod_eq_of_lt (by omega)
  have some := shape.some
  rw [EndDropped,shape.span,remainder]
  refine and_congr_right fun _ => and_congr (by omega) ?_
  split <;> omega

section Cases
variable {bbytes off len q r d l : Nat}

theorem first_run (shape : Shape bbytes off len q r d l) (more : 0 < d) :
    placedFirst bbytes off len q ⟨.rdReq,bbytes,firstBlock bbytes off * bbytes,none,0,1,bbytes⟩ =
      run off 0 (bbytes - r) := by
  have relative := shape.firstRelative_eq ⟨.rdReq,bbytes,firstBlock bbytes off * bbytes,none,0,1,bbytes⟩
    (by rw [shape.first_eq])
  have length := shape.length_eq
  have whole : bbytes ≤ d * bbytes := Nat.le_mul_of_pos_left _ more
  simp only [placedFirst,firstCopied,relative,Nat.add_zero]
  rw [shape.sum_eq,← shape.start,if_pos (by have := shape.some; omega)]

theorem middle_count (shape : Shape bbytes off len q r d l) (more : 0 < d) :
    (middleAfterRead bbytes off len).numberOfBlocks = if l = bbytes then d else d - 1 := by
  have positive : 0 < bbytes := by have := shape.least; omega
  simp only [middleAfterRead]
  rw [Nat.mul_div_cancel _ positive,shape.middle_blocks more]

theorem start_count (shape : Shape bbytes off len q 0 d l) :
    (middleFromStart bbytes off len).numberOfBlocks = if l = bbytes then d + 1 else d := by
  have positive : 0 < bbytes := by have := shape.least; omega
  simp only [middleFromStart]
  rw [Nat.mul_div_cancel _ positive,shape.start_blocks]

/-- A segment whose blocks are all full. -/
theorem transformed_full (bid : Nat) (s : Segment) (full : s.lastBlockSize = bbytes) :
    s.transformed bbytes bid = run ((bid + s.firstBlockIdx) * bbytes) (s.data.getD 0) (s.numberOfBlocks * bbytes) := by
  unfold Segment.transformed
  split
  · rename_i none
    simp [none]
  · rename_i some
    obtain ⟨m,blocks⟩ := Nat.exists_eq_succ_of_ne_zero some
    rw [blocks,full,Nat.succ_mul,Nat.succ_sub_one]

theorem middle_run (shape : Shape bbytes off len q r d l) (more : 0 < d) :
    placedMiddle bbytes q (middleAfterRead bbytes off len) =
      run (off + (bbytes - r)) (bbytes - r) ((if l = bbytes then d else d - 1) * bbytes) := by
  have start := shape.start
  have inside := shape.inside
  rw [← shape.middle_blocks more]
  have full : (middleAfterRead bbytes off len).lastBlockSize = bbytes := rfl
  change (middleAfterRead bbytes off len).transformed bbytes q = _
  rw [transformed_full q _ full]
  simp only [middleAfterRead,Option.getD_some,shape.foffset_eq]
  rw [Nat.mul_div_cancel _ (by omega),Nat.succ_mul]
  congr 1
  omega

theorem start_run (shape : Shape bbytes off len q 0 d l) :
    placedMiddle bbytes q (middleFromStart bbytes off len) =
      run off 0 ((if l = bbytes then d + 1 else d) * bbytes) := by
  have start := shape.start
  have inside := shape.inside
  rw [← shape.start_blocks]
  have full : (middleFromStart bbytes off len).lastBlockSize = bbytes := rfl
  change (middleFromStart bbytes off len).transformed bbytes q = _
  rw [transformed_full q _ full]
  simp only [middleFromStart,Option.getD_some,Nat.add_zero]
  rw [Nat.mul_div_cancel _ (by omega)]
  congr 1
  omega

theorem last_index (shape : Shape bbytes off len q r d l) : (lastToRead bbytes off len).firstBlockIdx = d := by
  have length := shape.length_eq
  have small := shape.small
  have inside := shape.inside
  have greatest := shape.greatest
  have count : d * 4096 ≤ d * bbytes := Nat.mul_le_mul_left _ shape.least
  have difference : ((q + d : Nat) : Int) - q = d := by omega
  simp only [lastToRead,shape.last_eq,shape.first_eq,difference]
  rw [u64_of_lt (by omega) (by omega),Int.toNat_natCast,u32_of_lt (by omega) (by omega),Int.toNat_natCast]

theorem last_offset (shape : Shape bbytes off len q r d l) :
    (lastToRead bbytes off len).off = q * bbytes + d * bbytes := by
  have stop := shape.stop
  have fits := shape.fits
  simp only [lastToRead,shape.last_eq]
  rw [← Nat.add_mul] at stop ⊢
  rw [← Int.natCast_mul,u64_of_lt (by omega) (by omega),Int.toNat_natCast]

theorem lastRelative_eq (shape : Shape bbytes off len q r d l) (more : 0 < d) :
    lastRelative off (lastToRead bbytes off len) = d * bbytes - r := by
  have start := shape.start
  have length := shape.length_eq
  have small := shape.small
  have inside := shape.inside
  have whole : bbytes ≤ d * bbytes := Nat.le_mul_of_pos_left _ more
  rw [lastRelative,last_offset shape,u32_of_lt (by omega) (by omega)]
  omega

theorem lastCopied_eq (shape : Shape bbytes off len q r d l) (more : 0 < d) :
    lastCopied off len (lastToRead bbytes off len) = l := by
  have length := shape.length_eq
  have small := shape.small
  have inside := shape.inside
  have whole : bbytes ≤ d * bbytes := Nat.le_mul_of_pos_left _ more
  rw [lastCopied,lastRelative_eq shape more,u32_of_lt (by omega) (by omega)]
  omega

theorem last_run (shape : Shape bbytes off len q r d l) (more : 0 < d) :
    placedLast bbytes off len q (lastToRead bbytes off len) =
      run (off + (d * bbytes - r)) (d * bbytes - r) l := by
  have start := shape.start
  have inside := shape.inside
  have whole : bbytes ≤ d * bbytes := Nat.le_mul_of_pos_left _ more
  have place : (q + (lastToRead bbytes off len).firstBlockIdx) * bbytes = off + (d * bbytes - r) := by
    rw [last_index shape,Nat.add_mul]
    omega
  rw [← place,placedLast,lastRelative_eq shape more,lastCopied_eq shape more]
  rfl

theorem Tiles.of_shape (shape : Shape bbytes off len q r d l) {p : Plan} (blocks : p.blocks = List.range' q (d + 1))
    (count : p.nbBlocks = d + 1) (bytes : p.placements bbytes off len = run off 0 len) : Tiles bbytes off len p := by
  have first : off / bbytes = q := shape.first_eq
  refine ⟨?_,?_,bytes⟩
  · rw [shape.span,first,blocks,Nat.add_sub_cancel_left]
  · rw [shape.span,first,count,Nat.add_sub_cancel_left]

theorem prepareOne_tiles (shape : Shape bbytes off len q r 0 l) (flags : Nat) :
    Tiles bbytes off len (prepareOne bbytes off len flags) := by
  have length := shape.length_eq
  have start := shape.start
  have most := shape.most
  simp only [Nat.zero_mul,Nat.zero_add] at length
  unfold prepareOne
  split
  · refine .of_shape shape ?_ rfl ?_
    · simp [Plan.blocks,Segment.blocks,Segment.unused,shape.first_eq]
    · have relative := shape.firstRelative_eq ⟨.rdReq,bbytes,q * bbytes,none,0,1,bbytes⟩ rfl
      simp only [Plan.placements,placedFirst,placedMiddle,placedLast,Segment.unused,firstCopied,shape.first_eq,relative,
        shape.sum_eq,List.append_nil,Nat.add_zero]
      rw [← start]
      congr 1
      split <;> omega
  · rename_i aligned
    simp only [shape.fread_eq,Bool.or_eq_true,decide_eq_true_eq,not_or,not_not] at aligned
    refine .of_shape shape ?_ rfl ?_
    · simp [Plan.blocks,Segment.blocks,Segment.unused,shape.first_eq]
    · have aligned : q * bbytes = off := by omega
      simp [Plan.placements,placedFirst,placedMiddle,placedLast,Segment.unused,Segment.transformed,shape.first_eq,aligned]

/-- Blocks of the first and the middle segments together. -/
theorem lead_count (shape : Shape bbytes off len q r d l) (more : 0 < d) (flags : Nat) :
    (prepareRead bbytes off len flags).first.numberOfBlocks + (prepareRead bbytes off len flags).middle.numberOfBlocks =
      if l = bbytes then d + 1 else d := by
  simp only [prepareRead,shape.fread_eq]
  cases r with
  | zero => simp [start_count shape,Segment.unused]
  | succ r =>
    simp only [ne_eq,Nat.add_one_ne_zero,not_false_eq_true,decide_true,if_true,middle_count shape more]
    split <;> omega

theorem lead_blocks (shape : Shape bbytes off len q r d l) (more : 0 < d) (flags : Nat) :
    (prepareRead bbytes off len flags).first.blocks q ++ (prepareRead bbytes off len flags).middle.blocks q =
      List.range' q (if l = bbytes then d + 1 else d) := by
  rw [← lead_count shape more flags]
  simp only [prepareRead,shape.fread_eq]
  cases r with
  | zero => simp [Segment.blocks,Segment.unused,middleFromStart]
  | succ r => simp [Segment.blocks,middleAfterRead,← List.range'_append_1]

theorem lead_bytes (shape : Shape bbytes off len q r d l) (more : 0 < d) (flags : Nat) :
    placedFirst bbytes off len q (prepareRead bbytes off len flags).first ++
        placedMiddle bbytes q (prepareRead bbytes off len flags).middle =
      run off 0 ((if l = bbytes then d + 1 else d) * bbytes - r) := by
  have inside := shape.inside
  simp only [prepareRead,shape.fread_eq]
  cases r with
  | zero => simp [start_run shape,placedFirst,Segment.unused]
  | succ r =>
    have joined := run_append off 0 (bbytes - (r + 1)) ((if l = bbytes then d else d - 1) * bbytes)
    rw [Nat.zero_add] at joined
    simp only [ne_eq,Nat.add_one_ne_zero,not_false_eq_true,decide_true,if_true]
    rw [first_run shape more,middle_run shape more,joined]
    congr 1
    obtain ⟨e,rfl⟩ := Nat.exists_eq_succ_of_ne_zero (Nat.pos_iff_ne_zero.mp more)
    split <;> simp only [Nat.succ_mul,Nat.succ_sub_one] <;> omega

/-- The last segment, when the plan reads the last block. -/
theorem tail_last (shape : Shape bbytes off len q r d l) (short : l ≠ bbytes)
    (reread : flags &&& storcliFlagsNoEndReread = 0) :
    (prepareRead bbytes off len flags).last = lastToRead bbytes off len := by
  simp [prepareRead,shape.lread_eq,short,reread]

theorem tail_unused (shape : Shape bbytes off len q r d l)
    (dropped : l = bbytes ∨ flags &&& storcliFlagsNoEndReread ≠ 0) :
    (prepareRead bbytes off len flags).last = .unused bbytes := by
  rcases dropped with full | set
  · simp [prepareRead,shape.lread_eq,full]
  · simp [prepareRead,shape.lread_eq,set]

theorem prepareRead_tiles (shape : Shape bbytes off len q r d l) (more : 0 < d)
    (kept : l = bbytes ∨ flags &&& storcliFlagsNoEndReread = 0) :
    Tiles bbytes off len (prepareRead bbytes off len flags) := by
  have length := shape.length_eq
  have inside := shape.inside
  have whole : bbytes ≤ d * bbytes := Nat.le_mul_of_pos_left _ more
  have bid : (prepareRead bbytes off len flags).bid = q := shape.first_eq
  have count := lead_count shape more flags
  have blocks := lead_blocks shape more flags
  have bytes := lead_bytes shape more flags
  have total : (prepareRead bbytes off len flags).nbBlocks =
      (prepareRead bbytes off len flags).first.numberOfBlocks + (prepareRead bbytes off len flags).middle.numberOfBlocks +
        (prepareRead bbytes off len flags).last.numberOfBlocks := rfl
  by_cases full : l = bbytes
  · have unused : (prepareRead bbytes off len flags).last = .unused bbytes := tail_unused shape (.inl full)
    rw [if_pos full] at count blocks bytes
    refine .of_shape shape ?_ ?_ ?_
    · rw [Plan.blocks,bid,← List.append_assoc,blocks,unused]
      simp [Segment.blocks,Segment.unused]
    · rw [total,count,unused]
      rfl
    · rw [Plan.placements,bid,← List.append_assoc,bytes,unused]
      simp only [placedLast,Segment.unused,List.append_nil]
      congr 1
      rw [Nat.succ_mul]
      omega
  · have last := tail_last shape full (kept.resolve_left full)
    rw [if_neg full] at count blocks bytes
    refine .of_shape shape ?_ ?_ ?_
    · have index : (lastToRead bbytes off len).blocks q = List.range' (q + d) 1 := by
        rw [← last_index shape]
        rfl
      rw [Plan.blocks,bid,← List.append_assoc,blocks,last,index,List.range'_append_1]
    · rw [total,count,last]
      rfl
    · have joined := run_append off 0 (d * bbytes - r) l
      rw [Nat.zero_add] at joined
      rw [Plan.placements,bid,← List.append_assoc,bytes,last,last_run shape more,joined]
      congr 1
      omega

theorem aligned_count (shape : Shape bbytes off len q r d l) :
    u32 (u64 ((lastBlock bbytes off len : Int) - firstBlock bbytes off + 1)) = d + 1 := by
  have length := shape.length_eq
  have small := shape.small
  have inside := shape.inside
  have greatest := shape.greatest
  have count : d * 4096 ≤ d * bbytes := Nat.mul_le_mul_left _ shape.least
  have difference : ((q + d : Nat) : Int) - q + 1 = (d + 1 : Nat) := by omega
  rw [shape.last_eq,shape.first_eq,difference,u64_of_lt (by omega) (by omega),Int.toNat_natCast,
    u32_of_lt (by omega) (by omega),Int.toNat_natCast]

theorem prepareAligned_bytes (shape : Shape bbytes off len q 0 d l) :
    (prepareAligned bbytes off len).placements bbytes off len = run off 0 ((d + 1) * bbytes) := by
  have start := shape.start
  have segment : (prepareAligned bbytes off len).first.transformed bbytes q = run off 0 ((d + 1) * bbytes) := by
    have full : (prepareAligned bbytes off len).first.lastBlockSize = bbytes := rfl
    rw [transformed_full q _ full]
    simp only [prepareAligned,aligned_count shape,Option.getD_some,Nat.add_zero]
    congr 1
    omega
  have bid : (prepareAligned bbytes off len).bid = q := shape.first_eq
  rw [← segment,Plan.placements,bid]
  simp [placedFirst,placedMiddle,placedLast,prepareAligned,Segment.unused]

theorem prepareAligned_tiles (shape : Shape bbytes off len q 0 d l) (full : l = bbytes) :
    Tiles bbytes off len (prepareAligned bbytes off len) := by
  have length := shape.length_eq
  have bytes := prepareAligned_bytes shape
  refine .of_shape shape ?_ (aligned_count shape) ?_
  · simp only [Plan.blocks,Segment.blocks,Segment.unused,prepareAligned,aligned_count shape]
    simp [shape.first_eq]
  · rw [bytes,Nat.succ_mul]
    congr 1
    omega

/-- With the flag, the blocks of a split that reads the first block miss the last one. -/
theorem prepareRead_short (shape : Shape bbytes off len q r d l) (more : 0 < d) (short : l ≠ bbytes)
    (set : flags &&& storcliFlagsNoEndReread ≠ 0) : ¬Tiles bbytes off len (prepareRead bbytes off len flags) := by
  intro tiles
  have count := tiles.count
  have total : (prepareRead bbytes off len flags).nbBlocks =
      (prepareRead bbytes off len flags).first.numberOfBlocks + (prepareRead bbytes off len flags).middle.numberOfBlocks +
        (prepareRead bbytes off len flags).last.numberOfBlocks := rfl
  have first : off / bbytes = q := shape.first_eq
  rw [total,lead_count shape more flags,tail_unused shape (.inr set),if_neg short,shape.span,first] at count
  simp only [Segment.unused] at count
  omega

/-- With the flag, an aligned start transforms the whole of the last block. -/
theorem prepareAligned_long (shape : Shape bbytes off len q 0 d l) (short : l ≠ bbytes) :
    ¬Tiles bbytes off len (prepareAligned bbytes off len) := by
  intro tiles
  have bytes := tiles.bytes
  have length := shape.length_eq
  have most := shape.most
  rw [prepareAligned_bytes shape] at bytes
  have count := congrArg List.length bytes
  rw [length_run,length_run,Nat.succ_mul] at count
  omega

end Cases

theorem aligned_of_not_read (shape : Shape bbytes off len q r d l)
    (aligned : ¬(fread bbytes off || lread bbytes off len flags) = true) : r = 0 := by
  simp only [shape.fread_eq,Bool.or_eq_true,decide_eq_true_eq,not_or,not_not] at aligned
  exact aligned.1

theorem prepare2write_tiles (shape : Shape bsize.bytes off len q r d l)
    (kept : flags &&& storcliFlagsNoEndReread = 0 ∨ d = 0 ∨ l = bsize.bytes) :
    Tiles bsize.bytes off len (prepare2write bsize off len flags) := by
  rw [prepare2write,shape.first_eq,shape.last_eq]
  rcases Nat.eq_zero_or_pos d with rfl | more
  · rw [if_pos (Nat.add_zero q).symm]
    exact prepareOne_tiles shape flags
  rw [if_neg (by omega)]
  have kept : l = bsize.bytes ∨ flags &&& storcliFlagsNoEndReread = 0 := by omega
  split
  · exact prepareRead_tiles shape more kept
  · rename_i unread
    have aligned := aligned_of_not_read shape unread
    subst aligned
    rcases kept with full | reread
    · exact prepareAligned_tiles shape full
    · refine prepareAligned_tiles shape (of_not_not fun short => unread ?_)
      simp [shape.lread_eq,short,reread]

theorem prepare2write_dropped (shape : Shape bsize.bytes off len q r d l) (more : 0 < d) (short : l ≠ bsize.bytes)
    (set : flags &&& storcliFlagsNoEndReread ≠ 0) : ¬Tiles bsize.bytes off len (prepare2write bsize off len flags) := by
  rw [prepare2write,shape.first_eq,shape.last_eq,if_neg (by omega)]
  split
  · exact prepareRead_short shape more short set
  · rename_i unread
    have aligned := aligned_of_not_read shape unread
    subst aligned
    exact prepareAligned_long shape short

@[simp] theorem prepare2write_bid (bsize : BSize) (off len flags : Nat) :
    (prepare2write bsize off len flags).bid = off / bsize.bytes := by
  unfold prepare2write prepareOne
  split
  · split <;> rfl
  · split <;> rfl

/-- The split tiles the request exactly when the flag does not hit an unaligned end. -/
theorem prepare2write_tiles_iff (bsize : BSize) (off len flags : Nat) (positive : 0 < len) (small : len < 2 ^ 31)
    (fits : off + len < 2 ^ 64) :
    Tiles bsize.bytes off len (prepare2write bsize off len flags) ↔ ¬EndDropped bsize off len flags := by
  obtain ⟨d,l,shape⟩ := exists_shape bsize off len positive small fits
  rw [shape.endDropped_iff flags]
  constructor
  · rintro tiles ⟨set,more,short⟩
    exact prepare2write_dropped shape more short set tiles
  · intro kept
    exact prepare2write_tiles shape (by omega)

theorem prepare2write_tiles_reread : Tiles 4096 100 8192 (prepare2write .bsize4K 100 8192 0) :=
  (prepare2write_tiles_iff .bsize4K 100 8192 0 (by decide) (by decide) (by decide)).mpr (by decide)

/-- The only writer of a file that extends it at an unaligned offset: two blocks are planned
for a request of three, and its last 100 bytes are not written. -/
theorem last_block_not_planned :
    ¬Tiles 4096 100 8192 (prepare2write .bsize4K 100 8192 storcliFlagsNoEndReread) := by
  intro tiles
  exact absurd tiles.count (by decide)

end Rozofs.WritePlan
