import Rozofs.Mojette
import Rozofs.MojettePath
import Rozofs.Peeling

/-! What the truncated forward transform computes: below its size, every bin of a projection
is the combination of the pixels of its discrete line. -/
namespace Rozofs.Mojette
open MojettePath Peeling

/-- `^^^` on lanes, as the operation of the peeling library. -/
abbrev lxor : Lane → Lane → Lane := fun a b => a ^^^ b

instance : Std.Associative lxor := ⟨BitVec.xor_assoc⟩
instance : Std.Commutative lxor := ⟨BitVec.xor_comm⟩
instance : Std.LawfulIdentity lxor 0 where
  left_id _ := BitVec.zero_xor
  right_id _ := BitVec.xor_zero

/-- All pixels of a support, row by row. -/
def grid (rows cols : Nat) : List Pixel :=
  (List.range rows).flatMap fun l => (List.range cols).map fun j : Nat => (l,(j : Int))

/-- Value of a pixel in a support stored row by row. -/
def pixel (support : Buffer) (cols : Nat) (x : Pixel) : Lane := support (x.1 * cols + x.2)

/-- Bin of a pixel, before the shift to index 0. -/
def line (p : Int) (x : Pixel) : Int := x.2 + x.1 * p

/-- Combination of the pixels of one line. -/
def lineSum (support : Buffer) (rows cols : Nat) (p b : Int) : Lane :=
  total lxor 0 (((grid rows cols).filter fun x => line p x = b).map (pixel support cols))

theorem mem_grid {rows cols : Nat} : (l,c) ∈ grid rows cols ↔ l < rows ∧ 0 ≤ c ∧ c < cols := by
  simp only [grid,List.mem_flatMap,List.mem_range,List.mem_map,Prod.mk.injEq]
  constructor
  · rintro ⟨_,row,j,column,rfl,rfl⟩
    omega
  · rintro ⟨row,left,right⟩
    exact ⟨l,row,c.toNat,by omega,rfl,by omega⟩

theorem nodup_rows {rows : Nat} (width : Nat → Nat) :
    ((List.range rows).flatMap fun l => (List.range (width l)).map fun j : Nat => (l,(j : Int))).Nodup := by
  apply List.nodup_flatMap.mpr
  constructor
  · intro l _
    refine List.nodup_range.map fun i j same => ?_
    simpa using same
  · refine List.nodup_range.imp fun apart x left right => ?_
    obtain ⟨_,_,rfl⟩ := List.mem_map.mp left
    obtain ⟨_,_,same⟩ := List.mem_map.mp right
    simp only [Prod.mk.injEq] at same
    exact apart same.1.symm

theorem grid_nodup (rows cols : Nat) : (grid rows cols).Nodup := nodup_rows fun _ => cols

theorem xorRun_eq_gather (support : Buffer) (pbin ppix : Int) (n : Nat) (bins : Buffer) :
    xorRun support pbin ppix n bins =
      gather lxor (fun j : Nat => pbin + j) (fun j : Nat => support (ppix + j)) (List.range n) bins := rfl

theorem xorRun_add (support : Buffer) (pbin ppix : Int) (m n : Nat) (bins : Buffer) :
    xorRun support pbin ppix (m + n) bins =
      xorRun support (pbin + m) (ppix + m) n (xorRun support pbin ppix m bins) := by
  simp only [xorRun,List.range_add,List.foldl_append,List.foldl_map,Nat.cast_add,Int.add_assoc]

/-- The runs of eight of the unrolled loop are one run. -/
theorem xorRun_unrolled (support : Buffer) (pbin ppix : Int) (n : Nat) (bins : Buffer) :
    (List.range n).foldl (fun b (k : Nat) => xorRun support (pbin + 8 * k) (ppix + 8 * k) 8 b) bins =
      xorRun support pbin ppix (8 * n) bins := by
  induction n with
  | zero => rfl
  | succ n ih =>
    rw [List.range_succ,List.foldl_append,ih,Nat.mul_succ,xorRun_add]
    simp

/-- Pixels of row `l` that the loop adds: the run is cut at the end of the projection. -/
def rowLength (rows cols : Nat) (p : Projection) (l : Nat) : Nat :=
  (min (p.size - (l * p.angle.p - offset rows p.angle.p)) (cols : Int)).toNat

theorem forwardRow_eq (support : Buffer) (rows cols : Nat) (p : Projection) (bins : Buffer) (l : Nat) :
    forwardRow support rows cols p bins l =
      xorRun support (l * p.angle.p - offset rows p.angle.p) (l * cols) (rowLength rows cols p l) bins := by
  have half : ∀ pbin : Int, (2 * (p.size : Int) - 2 * pbin).tdiv 2 = p.size - pbin := by
    intro pbin
    rw [← Int.mul_sub]
    exact Int.mul_tdiv_cancel_left _ (by decide)
  have cut : ∀ room : Int, (if room > cols then (cols : Int) else room) = min room cols := by
    intro room
    split <;> omega
  unfold forwardRow
  simp only [half,cut,xorRun_unrolled]
  rw [rowLength]
  generalize min (p.size - (l * p.angle.p - offset rows p.angle.p)) (cols : Int) = loop
  have whole : loop.toNat = 8 * (loop.tdiv 8).toNat + (loop.tmod 8).toNat := by
    rcases Int.le_total 0 loop with positive | negative
    · rw [Int.tdiv_eq_ediv_of_nonneg positive,Int.tmod_eq_emod_of_nonneg positive]
      omega
    · have quotient := Int.tdiv_nonneg (Int.neg_nonneg_of_nonpos negative) (by decide : (0 : Int) ≤ 8)
      have remainder := Int.tmod_nonneg 8 (Int.neg_nonneg_of_nonpos negative)
      rw [Int.neg_tdiv] at quotient
      rw [Int.neg_tmod] at remainder
      omega
  rw [whole,xorRun_add]
  push_cast
  rfl

/-- The whole forward loop nest adds, in order, every pixel its runs reach. -/
theorem forwardBins_eq_gather (support : Buffer) (rows cols : Nat) (p : Projection) :
    forwardBins support rows cols p =
      gather lxor (fun x => line p.angle.p x - offset rows p.angle.p) (pixel support cols)
        ((List.range rows).flatMap fun l => (List.range (rowLength rows cols p l)).map fun j : Nat => (l,(j : Int)))
        (fun a => if 0 ≤ a ∧ a < p.size then 0 else p.bins a) := by
  simp only [forwardBins,gather,List.foldl_flatMap,List.foldl_map]
  congr 1
  funext bins l
  rw [forwardRow_eq,xorRun_eq_gather,gather]
  congr 1
  funext b j
  congr 1
  simp only [line]
  omega

theorem forwardBins_apply (support : Buffer) (rows cols : Nat) (p : Projection) (b : Int)
    (first : 0 ≤ b) (last : b < p.size) :
    forwardBins support rows cols p b = lineSum support rows cols p.angle.p (b + offset rows p.angle.p) := by
  rw [forwardBins_eq_gather,gather_apply (z := 0)]
  simp only [first,last,and_self,if_true]
  rw [show lxor 0 = id from funext fun _ => BitVec.zero_xor,id,lineSum]
  apply total_perm
  apply List.Perm.map
  rw [List.perm_ext_iff_of_nodup ((nodup_rows _).filter _) ((grid_nodup _ _).filter _)]
  rintro ⟨l,c⟩
  simp only [List.mem_filter,mem_grid,List.mem_flatMap,List.mem_range,List.mem_map,Prod.mk.injEq,
    decide_eq_true_eq]
  simp only [rowLength,line]
  constructor
  · rintro ⟨⟨_,row,j,column,rfl,rfl⟩,same⟩
    refine ⟨⟨row,by omega,by omega⟩,by omega⟩
  · rintro ⟨⟨row,left,right⟩,same⟩
    -- A pixel of the line of `b` lies before the end of the projection.
    exact ⟨⟨l,row,c.toNat,by omega,rfl,by omega⟩,by omega⟩

end Rozofs.Mojette
