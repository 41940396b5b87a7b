import Rozofs.Mojette

/-! The 64-bit Mojette transform of `transform.c`. Every projection has bins of its own, in which the
inverse transform works; arrays are maps from C indices. `none` is an execution that C leaves undefined
or that an assertion stops: an access outside `transform_buf_offset`, `k_offsets` or the table of
projections, or an `int` that overflows. -/
namespace Rozofs.Transform
open Mojette (offset kOffset kMax)

/-- `bin_t` and `pxl_t`. -/
abbrev Word := BitVec 64

abbrev Buffer := Int → Word

/-- `projection_t` together with the bins its pointer designates. -/
structure Projection where
  angle : Angle
  size : Nat
  bins : Buffer
  deriving Inhabited

def intMax : Int := 2147483647

/-- The value of an expression of type `int`. -/
def int (x : Int) : Option Int := if -intMax - 1 ≤ x ∧ x ≤ intMax then some x else none

/-- Entries of `transform_buf_offset`. -/
def bufOffsets : Nat := 1024

def xorBin (buf : Buffer) (index : Int) (value : Word) : Buffer :=
  fun a => if a = index then buf a ^^^ value else buf a

def store (buf : Buffer) (index : Int) (value : Word) : Buffer :=
  fun a => if a = index then value else buf a

/-- The eight lines of the unrolled loop. -/
def xorEight (support : Buffer) (pbin ppix : Int) (bins : Buffer) : Buffer :=
  (List.range 8).foldl (fun b (j : Nat) => xorBin b (pbin + j) (support (ppix + j))) bins

/-- One row of the forward transform; `ppix` goes on from one row to the next. -/
def forwardRow (support : Buffer) (rows cols : Nat) (p : Projection) (bins : Buffer) (l : Nat) : Buffer :=
  let pbin : Int := l * p.angle.p - offset rows p.angle.p
  let ppix : Int := l * (8 * (cols / 8) : Nat)
  (List.range (cols / 8)).foldl (fun b (k : Nat) => xorEight support (pbin + 8 * k) (ppix + 8 * k) b) bins

/-- The bins computed for one projection, cleared up to their size first. -/
def forwardBins (support : Buffer) (rows cols : Nat) (p : Projection) : Buffer :=
  (List.range rows).foldl (forwardRow support rows cols p) (fun a => if 0 ≤ a ∧ a < p.size then 0 else p.bins a)

/-- `transform_forward`, with `np` projections in the table. -/
def transformForward (support : Buffer) (rows cols : Nat) (projections : List Projection) : Option (List Projection) :=
  if bufOffsets < projections.length ∨ cols % 8 ≠ 0 then none
  else some (projections.map fun p => { p with bins := forwardBins support rows cols p })

/-- `compare_slope`. A double represents every `int`, and slopes with `q = 1` exactly. -/
def compareSlope (e1 e2 : Projection) : Int :=
  let a : Rat := (e1.angle.p : Rat) / (e1.angle.q : Rat)
  let b : Rat := (e2.angle.p : Rat) / (e2.angle.q : Rat)
  if a < b then 1 else if b < a then -1 else 0

/-- `qsort` with `compare_slope`. -/
def sortSlopes (projections : List Projection) : List Projection :=
  projections.mergeSort fun a b => decide (compareSlope a b ≤ 0)

/-- Support and bins during the reconstruction; `bins i` are those of projection `i` of the sorted table. -/
structure Rebuild where
  support : Buffer
  bins : Nat → Buffer

/-- Index of the bin of pixel `(l, c)` in a projection. -/
def binIndex (rows : Nat) (p : Projection) (l : Nat) (c : Int) : Int :=
  c * p.angle.q + l * p.angle.p - offset rows p.angle.p

/-- Body of the loops: the pixel is read from projection `l` and removed from all of them. The other
`int` expressions are within the sizes of the projections. -/
def rebuildPixel (rows cols : Nat) (table : Nat → Projection) (l : Nat) (c : Int) (s : Rebuild) : Option Rebuild :=
  let bin := s.bins l (binIndex rows (table l) l c)
  (int (l * cols + c)).map fun g =>
    { support := store s.support g bin
      bins := (List.range rows).foldl
        (fun b i => Function.update b i (xorBin (b i) (binIndex rows (table i) l c) bin)) s.bins }

/-- The rows before `rdv` upwards, then the rows from the last one down to `rdv`. -/
def rowOrder (rows : Nat) : List Nat :=
  let rdv := rows - 1
  List.range rdv ++ ((List.range rows).filter fun l => rdv ≤ l).reverse

/-- `for (k = start; k < stop; k++)` over the rows, with the guard of the loop. -/
def scanColumns (rows cols : Nat) (table : Nat → Projection) (kOffsets : Nat → Int) (keep : Int → Bool)
    (start stop : Int) (s : Rebuild) : Option Rebuild :=
  (List.range (stop - start).toNat).foldlM (fun s (j : Nat) =>
    (rowOrder rows).foldlM (fun s l =>
      (int (start + j + kOffsets l)).bind fun c =>
        if keep c then rebuildPixel rows cols table l c s else some s) s) s

/-- The three loops: while all projections are not needed, while every projection is used, and to finish
the work. -/
def reconstruct (rows cols : Nat) (projections : List Projection) (s : Rebuild) : Option Rebuild :=
  let table := fun i => projections.getD i default
  let p := fun i => (table i).angle.p
  let kOff := kOffset rows p
  let k := kMax rows p
  (scanColumns rows cols table kOff (fun c => decide (0 ≤ c)) (-k) 0 s).bind fun s =>
    (scanColumns rows cols table kOff (fun _ => true) 0 (cols - k) s).bind fun s =>
      scanColumns rows cols table kOff (fun c => decide (c < cols)) (cols - k) cols s

/-- `transform_inverse`, up to the support it leaves. Without rows `k_offsets[rdv]` is out of bounds. -/
def transformInverse (support : Buffer) (rows cols : Nat) (projections : List Projection) : Option Buffer :=
  if rows = 0 ∨ projections.length < rows then none
  else
    let sorted := sortSlopes projections
    (reconstruct rows cols sorted ⟨support,fun i => (sorted.getD i default).bins⟩).map Rebuild.support

end Rozofs.Transform
