import Rozofs.Layout
import Mathlib.Data.Rat.Defs
import Mathlib.Algebra.Order.Ring.Int

/-! The 128-bit Mojette transform of `mojette_transform128.c`. Every address and every
pixel index counts 128-bit lanes, that is two consecutive `bin_t` or `pxl_t` words, so the
factors 2 of the C index expressions disappear. Arrays are maps from C indices. -/
namespace Rozofs.Mojette

/-- One SSE register: the unit on which `xor128_1` and its variants work. -/
abbrev Lane := BitVec 128

abbrev Buffer := Int → Lane

/-- `projection_t` together with the bins its pointer designates. -/
structure Projection where
  angle : Angle
  size : Nat
  bins : Buffer

/-- A projection whose bins were copied in `buff_all_bins`; `bins` is the lane
at which its slot starts. -/
structure LocalProjection where
  angle : Angle
  bins : Int
  deriving DecidableEq, Inhabited

def xor128 (buf : Buffer) (index : Int) (value : Lane) : Buffer :=
  fun a => if a = index then buf a ^^^ value else buf a

def store (buf : Buffer) (index : Int) (value : Lane) : Buffer :=
  fun a => if a = index then value else buf a

/-- The offset that brings the smallest bin index of a projection to 0. -/
def offset (rows : Nat) (p : Int) : Int := if p < 0 then ((rows : Int) - 1) * p else 0

/-- `n` consecutive `xor128_1_ptr` calls. -/
def xorRun (support : Buffer) (pbin ppix : Int) (n : Nat) (bins : Buffer) : Buffer :=
  (List.range n).foldl (fun b (j : Nat) => xor128 b (pbin + j) (support (ppix + j))) bins

/-- One row of the forward transform. The run stops at the end of the projection; it is
unrolled by eight, and C truncates `loop / 8` and `loop % 8` towards zero. -/
def forwardRow (support : Buffer) (rows cols : Nat) (p : Projection) (bins : Buffer) (l : Nat) : Buffer :=
  let pbin : Int := l * p.angle.p - offset rows p.angle.p
  let ppix : Int := l * cols
  let loop : Int := (2 * p.size - 2 * pbin).tdiv 2
  let loop : Int := if loop > cols then cols else loop
  let unrolled := (loop.tdiv 8).toNat
  let bins := (List.range unrolled).foldl
    (fun b (k : Nat) => xorRun support (pbin + 8 * k) (ppix + 8 * k) 8 b) bins
  xorRun support (pbin + 8 * unrolled) (ppix + 8 * unrolled) (loop.tmod 8).toNat bins

/-- The bins computed for one projection, from the `memset` on. -/
def forwardBins (support : Buffer) (rows cols : Nat) (p : Projection) : Buffer :=
  (List.range rows).foldl (forwardRow support rows cols p)
    (fun a => if 0 ≤ a ∧ a < p.size then 0 else p.bins a)

/-- `transform128_forward`; `cols` counts 64-bit words as in the C interface. -/
def transform128Forward (support : Buffer) (rows cols : Nat) (projections : List Projection) :
    List Projection :=
  projections.map fun p => { p with bins := forwardBins support rows (cols / 2) p }

/-- `compare_slope_inline`. The slopes of a layout are small integers, which a double
represents exactly. -/
def compareSlope (e1 e2 : LocalProjection) : Int :=
  let a : Rat := (e1.angle.p : Rat) / (e1.angle.q : Rat)
  let b : Rat := (e2.angle.p : Rat) / (e2.angle.q : Rat)
  if a < b then 1 else if b < a then -1 else 0

/-- The copy loop: each projection is copied in its own slot of `maxPrjSz` lanes, in
the order of the table, before the table is sorted. -/
def copyBins (maxPrjSz : Int) : Int → List Projection → Buffer → Buffer
  | _, [], buf => buf
  | dst, p :: rest, buf =>
    copyBins maxPrjSz (dst + maxPrjSz) rest
      (fun a => if dst ≤ a ∧ a < dst + p.size then p.bins (a - dst) else buf a)

def localProjections (maxPrjSz : Int) : Int → List Projection → List LocalProjection
  | _, [] => []
  | dst, p :: rest => ⟨p.angle, dst⟩ :: localProjections maxPrjSz (dst + maxPrjSz) rest

/-- `qsort` with `compare_slope_inline`: decreasing slopes. -/
def sortSlopes (projections : List LocalProjection) : List LocalProjection :=
  projections.mergeSort fun a b => decide (compareSlope a b ≤ 0)

def sMinus (rows : Nat) (p : Nat → Int) : Int :=
  ((List.range (rows - 2)).map fun i => max 0 (-p (i + 1))).sum

def sPlus (rows : Nat) (p : Nat → Int) : Int :=
  ((List.range (rows - 2)).map fun i => max 0 (p (i + 1))).sum

/-- `k_offsets[rdv]` with `rdv = rows - 1`. -/
def kOffsetRdv (rows : Nat) (p : Nat → Int) : Int :=
  max (max 0 (-p (rows - 1)) + sMinus rows p) (max 0 (p (rows - 1)) + sPlus rows p)

/-- The downward loop that fills `k_offsets`: `d` steps below `rdv`. -/
def kOffsetDown (rows : Nat) (p : Nat → Int) : Nat → Int
  | 0 => kOffsetRdv rows p
  | d + 1 => kOffsetDown rows p d + p (rows - 1 - d)

def kOffset (rows : Nat) (p : Nat → Int) (l : Nat) : Int := kOffsetDown rows p (rows - 1 - l)

/-- `max_inline(k_offsets[0], k_offsets[rows - 1])`. -/
def kMax (rows : Nat) (p : Nat → Int) : Int := max (kOffset rows p 0) (kOffset rows p (rows - 1))

/-- Support and private bins during the reconstruction. -/
structure Rebuild where
  support : Buffer
  bins : Buffer

/-- `BIN_SET` and `BIN_UPDATE`: index, in the slot of `p`, of the bin of pixel `(l, c)`. -/
def binIndex (rows : Nat) (p : LocalProjection) (l : Nat) (c : Int) : Int :=
  p.bins + (c + l * p.angle.p - offset rows p.angle.p)

/-- Body of the three reconstruction loops: the pixel of row `l` is read from projection `l`,
then removed from every other projection. -/
def rebuildPixel (rows cols : Nat) (projections : Nat → LocalProjection) (l : Nat) (c : Int)
    (s : Rebuild) : Rebuild :=
  let bin := s.bins (binIndex rows (projections l) l c)
  { support := store s.support (l * cols + c) bin
    bins := (List.range rows).foldl
      (fun b i => if i = l then b else xor128 b (binIndex rows (projections i) l c) bin) s.bins }

/-- `for (k = from; k < to; k++)` over the rows, with the guard of the loop. -/
def scanColumns (rows cols : Nat) (projections : Nat → LocalProjection) (kOffsets : Nat → Int)
    (keep : Int → Bool) (start stop : Int) (s : Rebuild) : Rebuild :=
  (List.range (stop - start).toNat).foldl (fun s (j : Nat) =>
    (List.range rows).foldl (fun s l =>
      let c := start + j + kOffsets l
      if keep c then rebuildPixel rows cols projections l c s else s) s) s

/-- The three loops: while all projections are not needed, while every projection is
used, and to finish the work. -/
def reconstruct (rows cols : Nat) (projections : List LocalProjection) (s : Rebuild) : Rebuild :=
  let table := fun i => projections.getD i default
  let p := fun i => (table i).angle.p
  let kOff := kOffset rows p
  let k := kMax rows p
  let s := scanColumns rows cols table kOff (fun c => decide (0 ≤ c)) (-k) 0 s
  let s := scanColumns rows cols table kOff (fun _ => true) 0 (cols - k) s
  scanColumns rows cols table kOff (fun c => decide (c < cols)) (cols - k) cols s

/-- `transform128_inverse_copy`. `stack` is the content of `buff_all_bins` on entry, which the
function does not initialize; slots are multiples of 16 bytes for every caller. -/
def transform128InverseCopy (support : Buffer) (rows cols : Nat) (projections : List Projection)
    (maxPrjSzIntf : Nat) (stack : Buffer) : Buffer :=
  let maxPrjSz : Int := ((maxPrjSzIntf + 512) / 16 : Nat)
  let sorted := sortSlopes (localProjections maxPrjSz 0 projections)
  (reconstruct rows (cols / 2) sorted ⟨support, copyBins maxPrjSz 0 projections stack⟩).support

/-- The projection contexts that `rozofs_storcli_transform_forward` prepares for a block;
`bins` is the previous content of the message buffers. -/
def forwardProjections (layout : Layout) (bsize : BSize) (bins : Nat → Buffer) : List Projection :=
  (List.range layout.rozofsForward).map fun id =>
    ⟨⟨getAnglesP layout id, getAnglesQ layout id⟩, get128bitsPsizes layout bsize id, bins id⟩

/-- `bbytes / rozofs_inverse / sizeof (pxl_t)`. -/
def blockCols (layout : Layout) (bsize : BSize) : Nat := bsize.bytes / layout.rozofsInverse / 8

/-- The forward transform of one block as the storage client runs it. -/
def forwardBlock (layout : Layout) (bsize : BSize) (bins : Nat → Buffer) (block : Buffer) :
    List Projection :=
  transform128Forward block layout.rozofsInverse (blockCols layout bsize)
    (forwardProjections layout bsize bins)

/-- The inverse transform of one block from the selected projections. -/
def inverseBlock (layout : Layout) (bsize : BSize) (data stack : Buffer)
    (projections : List Projection) : Buffer :=
  transform128InverseCopy data layout.rozofsInverse (blockCols layout bsize) projections
    (getMaxPsize layout bsize * 8) stack

end Rozofs.Mojette
