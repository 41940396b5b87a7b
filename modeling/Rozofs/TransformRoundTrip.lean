import Rozofs.Transform
import Rozofs.PartialFold
import Rozofs.MojetteRoundTrip

/-! Round trip of the 64-bit transform: the reconstruction is a peeling decoder along the same path as
the 128-bit one, over bins that each projection has for itself. -/
namespace Rozofs.Transform
open MojettePath Peeling PartialFold
open Mojette (offset kOffset kMax grid line mem_grid line_perm mem_places place_bounds mergeSort_slopes slotIndex_eq)

/-- `^^^` on words, as the operation of the peeling library. -/
abbrev wxor : Word → Word → Word := fun a b => a ^^^ b

instance : Std.Associative wxor := ⟨BitVec.xor_assoc⟩
instance : Std.Commutative wxor := ⟨BitVec.xor_comm⟩
instance : Std.LawfulIdentity wxor 0 where
  left_id _ := BitVec.zero_xor
  right_id _ := BitVec.xor_zero

/-- Value of a pixel in a support stored row by row. -/
def pixel (support : Buffer) (cols : Nat) (x : Pixel) : Word := support (x.1 * cols + x.2)

/-- Combination of the pixels of one line. -/
def lineSum (support : Buffer) (rows cols : Nat) (p b : Int) : Word :=
  total wxor 0 (((grid rows cols).filter fun x => line p x = b).map (pixel support cols))

section Forward
variable (support : Buffer) (rows cols : Nat) (p : Projection)

/-- Runs of one length cover a row. -/
theorem range_runs (run n : Nat) : ((List.range n).flatMap fun k => (List.range run).map fun j => run * k + j) = List.range (run * n) := by
  induction n with
  | zero => rfl
  | succ n ih =>
    have last : List.range (n + 1) = List.range n ++ [n] := List.range_succ
    rw [last,List.flatMap_append,ih,Nat.mul_succ,List.range_add]
    simp

/-- The forward loops add every pixel, in order. -/
theorem forwardBins_eq_gather (aligned : cols % 8 = 0) :
    forwardBins support rows cols p =
      gather wxor (fun x => line p.angle.p x - offset rows p.angle.p) (pixel support cols) (grid rows cols)
        (fun a => if 0 ≤ a ∧ a < p.size then 0 else p.bins a) := by
  have eights : 8 * (cols / 8) = cols := by omega
  have row : ∀ l bins, forwardRow support rows cols p bins l =
      (List.range cols).foldl (fun b (j : Nat) => xorBin b (line p.angle.p (l,j) - offset rows p.angle.p) (pixel support cols (l,j))) bins := by
    intro l bins
    conv_rhs => rw [← eights,← range_runs,List.foldl_flatMap]
    simp only [forwardRow,xorEight,eights,List.foldl_map]
    congr 1
    funext b k
    congr 1
    funext b j
    have bin : l * p.angle.p - offset rows p.angle.p + 8 * (k : Int) + j =
        line p.angle.p (l,((8 * k + j : Nat) : Int)) - offset rows p.angle.p := by
      simp only [line]
      omega
    have pix : support (l * cols + 8 * (k : Int) + j) = pixel support cols (l,((8 * k + j : Nat) : Int)) := by
      simp only [pixel]
      congr 1
      omega
    rw [bin,pix]
  simp only [forwardBins,gather,grid,List.foldl_flatMap,List.foldl_map]
  congr 1
  funext bins l
  rw [row]
  rfl

theorem forwardBins_apply (aligned : cols % 8 = 0) (b : Int) (first : 0 ≤ b) (last : b < p.size) :
    forwardBins support rows cols p b = lineSum support rows cols p.angle.p (b + offset rows p.angle.p) := by
  rw [forwardBins_eq_gather support rows cols p aligned,gather_apply (z := 0)]
  simp only [first,last,and_self,if_true]
  rw [show wxor 0 = id from funext fun _ => BitVec.zero_xor,id,lineSum]
  congr 2
  apply List.filter_congr
  intro x _
  simp only [decide_eq_decide]
  omega

end Forward

section Sorting

def slope (p : Projection) : Rat := p.angle.p / p.angle.q

theorem compareSlope_nonpos (a b : Projection) : compareSlope a b ≤ 0 ↔ slope b ≤ slope a := by
  unfold compareSlope slope
  simp only
  split
  · simp_all
  · split <;> simp_all

variable (projections : List Projection)

theorem mem_sortSlopes {p : Projection} : p ∈ sortSlopes projections ↔ p ∈ projections := List.mem_mergeSort

/-- Distinct angles with `q = 1` strictly decrease once sorted. -/
theorem sortSlopes_descending (unit : ∀ p ∈ projections, p.angle.q = 1)
    (distinct : (projections.map fun p => p.angle.p).Nodup) :
    (sortSlopes projections).Pairwise fun a b => b.angle.p < a.angle.p := by
  have slopes : ∀ p ∈ sortSlopes projections, slope p = p.angle.p := by
    intro p member
    rw [slope,unit p ((mem_sortSlopes projections).mp member)]
    simp
  have apart : (sortSlopes projections).Pairwise fun a b => a.angle.p ≠ b.angle.p :=
    List.pairwise_map.mp (((List.mergeSort_perm projections _).map _).nodup_iff.mpr distinct)
  have sorted := mergeSort_slopes slope compareSlope compareSlope_nonpos projections
  refine (sorted.and apart).imp_of_mem fun {a b} memberA memberB both => ?_
  obtain ⟨ordered,other⟩ := both
  rw [slopes a memberA,slopes b memberB,Rat.intCast_le_intCast] at ordered
  omega

/-- A table in decreasing order of its angles is not moved. -/
theorem sortSlopes_of_descending (unit : ∀ p ∈ projections, p.angle.q = 1)
    (descending : projections.Pairwise fun a b => b.angle.p < a.angle.p) : sortSlopes projections = projections := by
  apply List.mergeSort_of_pairwise
  refine descending.imp_of_mem fun {a b} memberA memberB lower => ?_
  rw [decide_eq_true_eq,compareSlope_nonpos,slope,slope,unit a memberA,unit b memberB]
  simpa using Int.le_of_lt lower

/-- The angles that the inverse transform works with. -/
def sortedAngle (i : Nat) : Int := ((sortSlopes projections).getD i default).angle.p

theorem sortedAngle_of_descending (unit : ∀ p ∈ projections, p.angle.q = 1)
    (descending : projections.Pairwise fun a b => b.angle.p < a.angle.p) :
    sortedAngle projections = fun i => (projections.getD i default).angle.p := by
  funext i
  rw [sortedAngle,sortSlopes_of_descending projections unit descending]

end Sorting

section Loops
variable (rows cols : Nat) (table : Nat → Projection)

theorem int_defined {x : Int} (low : -intMax - 1 ≤ x) (high : x ≤ intMax) : int x = some x := if_pos ⟨low,high⟩

theorem int_overflow {x : Int} (high : intMax < x) : int x = none := if_neg (by omega)

theorem rowOrder_eq (positive : 0 < rows) : rowOrder rows = List.range rows := by
  obtain ⟨n,rfl⟩ := Nat.exists_eq_succ_of_ne_zero (Nat.ne_of_gt positive)
  have last : (List.range (n + 1)).filter (fun l => n ≤ l) = [n] := by
    rw [List.range_succ,List.filter_append,List.filter_eq_nil_iff.mpr (by simp)]
    simp
  simp only [rowOrder,Nat.succ_eq_add_one,Nat.add_sub_cancel,last,List.reverse_singleton]
  exact List.range_succ.symm

/-- What the reconstruction of one pixel reads and updates, in the bins of all the projections. -/
def rebuildPlan : Plan Pixel (Nat × Int) Int where
  read x := (x.1,binIndex rows (table x.1) x.1 x.2)
  writes x := (List.range rows).map fun i => (i,binIndex rows (table i) x.1 x.2)
  place x := x.1 * cols + x.2

def Rebuild.toPeeling (s : Rebuild) : Peeling.State Word (Nat × Int) Int := ⟨fun a => s.bins a.1 a.2,s.support⟩

def Rebuild.ofPeeling (s : Peeling.State Word (Nat × Int) Int) : Rebuild := ⟨s.out,fun i a => s.mem (i,a)⟩

/-- A visit of the plan, on the state of the reconstruction. -/
def visitPixel (s : Rebuild) (x : Pixel) : Rebuild := .ofPeeling (visit wxor (rebuildPlan rows cols table) s.toPeeling x)

theorem rebuildPixel_eq_visit (x : Pixel) (s : Rebuild) (address : int (x.1 * cols + x.2) = some (x.1 * cols + x.2)) :
    rebuildPixel rows cols table x.1 x.2 s = some (visitPixel rows cols table s x) := by
  have updates : ∀ (bin : Word) (addrs : List Nat) (bins : Nat → Buffer),
      (fun a : Nat × Int => addrs.foldl (fun b i => Function.update b i (xorBin (b i) (binIndex rows (table i) x.1 x.2) bin)) bins a.1 a.2) =
        scatter wxor bin (addrs.map fun i => (i,binIndex rows (table i) x.1 x.2)) (fun a => bins a.1 a.2) := by
    intro bin addrs
    induction addrs with
    | nil => exact fun _ => rfl
    | cons i addrs ih =>
      intro bins
      simp only [List.foldl_cons,List.map_cons,scatter] at ih ⊢
      rw [ih]
      congr 1
      funext address
      obtain ⟨j,a⟩ := address
      by_cases same : j = i
      · subst same
        simp [bump,xorBin]
      · simp [bump,same]
  rw [rebuildPixel,address,Option.map_some,visitPixel]
  simp only [visit,Rebuild.ofPeeling,Rebuild.toPeeling,rebuildPlan,← updates]
  rfl

/-- One turn of the loop on `l`: the guard is tested on an `int`. -/
def turn (keep : Int → Bool) (s : Rebuild) (x : Pixel) : Option Rebuild :=
  (int x.2).bind fun c => if keep c then rebuildPixel rows cols table x.1 c s else some s

variable (kOffsets : Nat → Int) (keep : Int → Bool) (start stop : Int)

theorem scanColumns_eq_turns (positive : 0 < rows) (s : Rebuild) :
    scanColumns rows cols table kOffsets keep start stop s =
      (scan rows kOffsets (fun _ => true) start stop).foldlM (turn rows cols table keep) s := by
  simp only [scanColumns,rowOrder_eq rows positive,scan,intRange,List.filter_true,foldlM_flatMap,List.foldlM_map]
  rfl

theorem scan_filter : (scan rows kOffsets (fun _ => true) start stop).filter (fun x => keep x.2) = scan rows kOffsets keep start stop := by
  simp only [scan,List.filter_true,List.filter_flatMap,List.filter_map]
  rfl

/-- A scan is defined when its guards are tested on ints and the pixels it visits have an `int` address. -/
theorem scanColumns_defined (positive : 0 < rows) (s : Rebuild)
    (column : ∀ x ∈ scan rows kOffsets (fun _ => true) start stop, int x.2 = some x.2)
    (address : ∀ x ∈ scan rows kOffsets keep start stop, int (x.1 * cols + x.2) = some (x.1 * cols + x.2)) :
    scanColumns rows cols table kOffsets keep start stop s =
      some ((scan rows kOffsets keep start stop).foldl (visitPixel rows cols table) s) := by
  rw [scanColumns_eq_turns rows cols table kOffsets keep start stop positive,← scan_filter rows kOffsets keep start stop]
  apply foldlM_defined
  · intro x member visited s
    have inside : x ∈ scan rows kOffsets keep start stop := by
      rw [← scan_filter rows kOffsets keep start stop]
      exact List.mem_filter.mpr ⟨member,visited⟩
    rw [turn,column x member,Option.bind_some,if_pos visited]
    exact rebuildPixel_eq_visit rows cols table x s (address x inside)
  · intro x member passed s
    rw [turn,column x member,Option.bind_some,passed]
    rfl

theorem scanColumns_undefined (positive : 0 < rows) (s : Rebuild) {x : Pixel}
    (member : x ∈ scan rows kOffsets (fun _ => true) start stop)
    (overflow : intMax < x.2 ∨ (keep x.2 = true ∧ intMax < x.1 * cols + x.2)) :
    scanColumns rows cols table kOffsets keep start stop s = none := by
  rw [scanColumns_eq_turns rows cols table kOffsets keep start stop positive]
  apply foldlM_undefined _ _ member
  intro s
  cases overflow with
  | inl column => rw [turn,int_overflow column,Option.bind_none]
  | inr address =>
    rw [turn]
    unfold int
    split
    · rw [Option.bind_some,if_pos address.1,rebuildPixel,int_overflow address.2,Option.map_none]
    · rw [Option.bind_none]

end Loops

theorem kOffset_low (rows : Nat) (p : Nat → Int) (l : Nat) (row : l < rows) : 0 ≤ kOffset rows p l := by
  rcases Nat.lt_or_ge rows 2 with one | two
  · obtain rfl : rows = 1 := by omega
    obtain rfl : l = 0 := by omega
    simp [kOffset,Mojette.kOffsetDown,Mojette.kOffsetRdv,Mojette.sMinus,Mojette.sPlus]
  · exact Mojette.kOffset_nonneg rows p two l row

/-- A single row is shifted by its own angle. -/
theorem kMax_single (p : Nat → Int) : kMax 1 p = (p 0).natAbs := by
  have shift : kOffset 1 p 0 = max (max 0 (-p 0)) (max 0 (p 0)) := by
    simp [kOffset,Mojette.kOffsetDown,Mojette.kOffsetRdv,Mojette.sMinus,Mojette.sPlus]
  rw [kMax,shift]
  omega

/-- A sorted table whose shifts are within the columns. -/
structure Sorted (rows cols : Nat) (projections : List Projection) : Prop where
  positive : 0 < rows
  descending : ∀ i j, i < j → j < rows → (projections.getD j default).angle.p < (projections.getD i default).angle.p
  wide : kMax rows (fun i => (projections.getD i default).angle.p) ≤ cols

section Runs
variable {rows cols : Nat} {projections : List Projection} (sorted : Sorted rows cols projections)

/-- The path of `reconstruct`. -/
def trail : Path where
  rows := rows
  cols := cols
  p i := (projections.getD i default).angle.p
  koff := kOffset rows fun i => (projections.getD i default).angle.p
  descending := sorted.descending
  shift := Mojette.kOffset_shift rows _
  low := kOffset_low rows _
  wide := sorted.wide
  inhabited := sorted.positive

theorem mem_trail (l : Nat) (c : Int) : (l,c) ∈ (trail sorted).cells ↔ (l,c) ∈ grid rows cols :=
  (Path.mem_cells _).trans mem_grid.symm

/-- The three loops, with the shifts and the reach of the path. -/
theorem reconstruct_eq_scans (s : Rebuild) : reconstruct rows cols projections s =
    (scanColumns rows cols (fun i => projections.getD i default) (trail sorted).koff (fun c => decide (0 ≤ c))
      (-(trail sorted).reach) 0 s).bind fun s =>
    (scanColumns rows cols (fun i => projections.getD i default) (trail sorted).koff (fun _ => true)
      0 (cols - (trail sorted).reach) s).bind fun s =>
    scanColumns rows cols (fun i => projections.getD i default) (trail sorted).koff (fun c => decide (c < cols))
      (cols - (trail sorted).reach) cols s := rfl

/-- Where ints are wide enough, the three loops follow the whole path. -/
theorem reconstruct_defined (columns : cols + (trail sorted).reach ≤ intMax + 1) (pixels : (rows : Int) * cols ≤ intMax + 1) (s : Rebuild) :
    reconstruct rows cols projections s =
      some ((trail sorted).cells.foldl (visitPixel rows cols fun i => projections.getD i default) s) := by
  have wide : (trail sorted).reach ≤ cols := sorted.wide
  have reachable := (trail sorted).reachable
  have column : ∀ keep (start stop : Int), -(trail sorted).reach ≤ start → stop ≤ cols →
      ∀ x ∈ scan rows (trail sorted).koff keep start stop, int x.2 = some x.2 := by
    rintro keep start stop first last ⟨l,c⟩ member
    obtain ⟨row,_,left,right⟩ := mem_scan.mp member
    have low := (trail sorted).low l row
    have high := (trail sorted).high l row
    apply int_defined
    · simp only [intMax] at columns ⊢
      omega
    · omega
  have address : ∀ x ∈ (trail sorted).cells, int (x.1 * cols + x.2) = some (x.1 * cols + x.2) := by
    rintro ⟨l,c⟩ member
    obtain ⟨left,right⟩ := place_bounds ((mem_trail sorted l c).mp member)
    exact int_defined (le_trans (by decide) left) (by simp only; omega)
  rw [← Path.scan_three] at address ⊢
  have first := fun s => scanColumns_defined rows cols (fun i => projections.getD i default) (trail sorted).koff (fun c => decide (0 ≤ c))
    (-(trail sorted).reach) 0 sorted.positive s (column _ _ _ (le_refl _) (by omega)) fun x member =>
      address x (List.mem_append_left _ member)
  have second := fun s => scanColumns_defined rows cols (fun i => projections.getD i default) (trail sorted).koff (fun _ => true)
    0 (cols - (trail sorted).reach) sorted.positive s (column _ _ _ (by omega) (by omega)) fun x member =>
      address x (List.mem_append_right _ (List.mem_append_left _ member))
  have third := fun s => scanColumns_defined rows cols (fun i => projections.getD i default) (trail sorted).koff (fun c => decide (c < cols))
    (cols - (trail sorted).reach) cols sorted.positive s (column _ _ _ (by omega) (le_refl _)) fun x member =>
      address x (List.mem_append_right _ (List.mem_append_right _ member))
  rw [List.foldl_append,List.foldl_append,reconstruct_eq_scans sorted,first,Option.bind_some,second,Option.bind_some,third]
  rfl

/-- A turn of the loops whose guard, or the address of whose pixel, overflows makes the run undefined. -/
theorem reconstruct_undefined (l : Nat) (row : l < rows) (k : Int) (first : -(trail sorted).reach ≤ k) (last : k < cols)
    (overflow : intMax < k + (trail sorted).koff l ∨ (0 ≤ k + (trail sorted).koff l ∧ k + (trail sorted).koff l < cols ∧
      intMax < l * cols + (k + (trail sorted).koff l))) (s : Rebuild) : reconstruct rows cols projections s = none := by
  have met : ∀ start stop, start ≤ k → k < stop →
      (l,k + (trail sorted).koff l) ∈ scan rows (trail sorted).koff (fun _ => true) start stop := by
    intro start stop low high
    exact mem_scan.mpr ⟨row,rfl,by omega,by omega⟩
  have stuck : ∀ (keep : Int → Bool) (start stop : Int), start ≤ k → k < stop → (0 ≤ k + (trail sorted).koff l →
      k + (trail sorted).koff l < cols → keep (k + (trail sorted).koff l) = true) →
      ∀ s, scanColumns rows cols (fun i => projections.getD i default) (trail sorted).koff keep start stop s = none := by
    intro keep start stop low high kept s
    exact scanColumns_undefined rows cols _ _ keep start stop sorted.positive s (met start stop low high)
      (overflow.imp_right fun address => ⟨kept address.1 address.2.1,address.2.2⟩)
  rw [reconstruct_eq_scans sorted]
  rcases Int.lt_or_le k 0 with early | late
  · rw [stuck (fun c => decide (0 ≤ c)) _ _ first early (fun left _ => decide_eq_true left) s,Option.bind_none]
  · rcases Int.lt_or_le k (cols - (trail sorted).reach) with middle | tail
    · apply Option.bind_eq_none_iff.mpr
      intro s' _
      rw [stuck (fun _ => true) _ _ late middle (fun _ _ => rfl) s',Option.bind_none]
    · apply Option.bind_eq_none_iff.mpr
      intro s' _
      apply Option.bind_eq_none_iff.mpr
      intro s'' _
      exact stuck (fun c => decide (c < cols)) _ _ tail last (fun _ right => decide_eq_true right) s''

/-- The visit of `y` updates the bin read for `x`. -/
def onLine (table : Nat → Projection) (x y : Pixel) : Bool :=
  decide (y.1 ≠ x.1 ∧ line (table x.1).angle.p y = line (table x.1).angle.p x)

theorem binIndex_eq (rows : Nat) (p : Projection) (unit : p.angle.q = 1) (x : Pixel) :
    binIndex rows p x.1 x.2 = line p.angle.p x - offset rows p.angle.p := by
  rw [binIndex,unit,line,Int.mul_one]

/-- A visit writes each bin at most once. -/
theorem writes_nodup (table : Nat → Projection) (y : Pixel) : ((rebuildPlan rows cols table).writes y).Nodup := by
  refine List.nodup_range.map fun i j same => ?_
  exact congrArg Prod.fst same

/-- The bin of another pixel is written exactly when it is on its line. -/
theorem mem_writes (table : Nat → Projection) (unit : ∀ i < rows, (table i).angle.q = 1) (x y : Pixel) (row : x.1 < rows)
    (other : y ≠ x) : (rebuildPlan rows cols table).read x ∈ (rebuildPlan rows cols table).writes y ↔ onLine table x y = true := by
  have same : binIndex rows (table x.1) y.1 y.2 = binIndex rows (table x.1) x.1 x.2 ↔
      line (table x.1).angle.p y = line (table x.1).angle.p x := by
    rw [binIndex_eq rows _ (unit x.1 row) y,binIndex_eq rows _ (unit x.1 row) x]
    omega
  simp only [rebuildPlan,List.mem_map,List.mem_range,Prod.mk.injEq,onLine,decide_eq_true_eq]
  constructor
  · rintro ⟨i,_,rfl,bin⟩
    have aligned := same.mp bin
    refine ⟨fun own => ?_,aligned⟩
    -- two pixels of one row are on different lines
    simp only [line,own] at aligned
    exact other (Prod.ext own (by omega))
  · rintro ⟨_,aligned⟩
    exact ⟨x.1,row,rfl,same.mpr aligned⟩

/-- Bins that hold the sums of their lines make the path triangular. -/
theorem triangular_of_sums (unit : ∀ i < rows, (projections.getD i default).angle.q = 1) (block : Buffer) (bins : Nat → Buffer)
    (sum : ∀ x ∈ grid rows cols, bins x.1 (binIndex rows (projections.getD x.1 default) x.1 x.2) =
      lineSum block rows cols (projections.getD x.1 default).angle.p (line (projections.getD x.1 default).angle.p x)) :
    Triangular wxor 0 (rebuildPlan rows cols fun i => projections.getD i default) block (trail sorted).cells
      (fun a => bins a.1 a.2) (onLine fun i => projections.getD i default) := by
  have ordered := (trail sorted).cells_ordered
  constructor
  · intro before x after split y member
    have here : x ∈ grid rows cols := (mem_trail sorted x.1 x.2).mp (by rw [split]; simp)
    have other : y ≠ x := by
      rintro rfl
      have earlier := ((mem_before_iff ordered split).mp member).2
      exact earlier.asymm earlier
    exact count_distinct (writes_nodup _ y) (mem_writes (fun i => projections.getD i default) unit x y (mem_grid.mp here).1 other)
  · rintro before ⟨l,c⟩ after split
    have here : (l,c) ∈ grid rows cols := (mem_trail sorted l c).mp (by rw [split]; simp)
    refine (sum (l,c) here).trans ?_
    -- the line of the pixel is the pixel itself and the visited pixels that hit it
    change _ = total wxor 0 (((l,c) :: before.filter (onLine _ (l,c))).map (pixel block cols))
    rw [lineSum]
    apply total_perm
    apply List.Perm.map
    exact line_perm (trail sorted) cols rfl split

/-- From bins that hold the sums of their lines, the path gives the support and nothing else. -/
theorem visited_support (unit : ∀ i < rows, (projections.getD i default).angle.q = 1) (block : Buffer) (s : Rebuild)
    (sum : ∀ x ∈ grid rows cols, s.bins x.1 (binIndex rows (projections.getD x.1 default) x.1 x.2) =
      lineSum block rows cols (projections.getD x.1 default).angle.p (line (projections.getD x.1 default).angle.p x)) (g : Int) :
    ((trail sorted).cells.foldl (visitPixel rows cols fun i => projections.getD i default) s).support g =
      if 0 ≤ g ∧ g < rows * cols then block g else s.support g := by
  have run : ((trail sorted).cells.foldl (visitPixel rows cols fun i => projections.getD i default) s).toPeeling =
      peel wxor (rebuildPlan rows cols fun i => projections.getD i default) (trail sorted).cells s.toPeeling :=
    (List.foldl_hom Rebuild.toPeeling fun _ _ => rfl).symm
  have decoded := peel_out (fun _ => BitVec.xor_self) _ block _ s.toPeeling _ (triangular_of_sums sorted unit block s.bins sum) g
  rw [← run] at decoded
  exact decoded.trans (if_congr (mem_places rows cols _ (mem_trail sorted) g) rfl rfl)

end Runs

/-- Tables that the transforms are meant for: one full-size projection for each row, with distinct angles
and columns enough for the shifts of the inverse transform. -/
structure Valid (rows cols : Nat) (projections : List Projection) : Prop where
  aligned : cols % 8 = 0
  whole : projections.length = rows
  unit : ∀ p ∈ projections, p.angle.q = 1
  distinct : (projections.map fun p => p.angle.p).Nodup
  full : ∀ p ∈ projections, p.size = (rows - 1) * p.angle.p.natAbs + cols
  wide : kOffset rows (sortedAngle projections) 0 ≤ cols ∧ kOffset rows (sortedAngle projections) (rows - 1) ≤ cols

/-- The inverse transform gives back the support, for every order of the projections that the forward
transform leaves. -/
def RoundTrip (data block : Buffer) (rows cols : Nat) (projections : List Projection) : Prop :=
  ∃ produced, transformForward block rows cols projections = some produced ∧
    ∀ received, received.Perm produced →
      ∃ support, transformInverse data rows cols received = some support ∧
        ∀ g : Int, 0 ≤ g → g < rows * cols → support g = block g

section Received
variable {rows cols : Nat} {projections received : List Projection} {block : Buffer} (valid : Valid rows cols projections)
  (shuffled : received.Perm (projections.map fun p => { p with bins := forwardBins block rows cols p }))
include valid shuffled

omit valid in
theorem received_mem {r : Projection} (member : r ∈ received) :
    ∃ p ∈ projections, { p with bins := forwardBins block rows cols p } = r :=
  List.mem_map.mp (shuffled.mem_iff.mp member)

theorem received_length : received.length = rows := by
  rw [shuffled.length_eq,List.length_map,valid.whole]

theorem received_descending : (sortSlopes received).Pairwise fun a b => b.angle.p < a.angle.p := by
  apply sortSlopes_descending
  · intro r member
    obtain ⟨p,known,rfl⟩ := received_mem shuffled member
    exact valid.unit p known
  · have same := shuffled.map fun p => p.angle.p
    rw [List.map_map] at same
    exact same.nodup_iff.mpr valid.distinct

/-- Whatever their order, the projections give the same sorted angles. -/
theorem received_angles : (fun i => ((sortSlopes received).getD i default).angle.p) = sortedAngle projections := by
  have angles : (sortSlopes received).map (fun p => p.angle.p) = (sortSlopes projections).map fun p => p.angle.p := by
    apply @List.Perm.eq_of_pairwise Int fun a b => b < a
    · intro a b _ _ before after
      omega
    · exact List.pairwise_map.mpr (received_descending valid shuffled)
    · exact List.pairwise_map.mpr (sortSlopes_descending projections valid.unit valid.distinct)
    · have same := shuffled.map fun p => p.angle.p
      rw [List.map_map] at same
      exact ((List.mergeSort_perm received _).map _).trans (same.trans ((List.mergeSort_perm projections _).map _).symm)
  funext i
  have row := congrArg (fun angles : List Int => angles.getD i (default : Projection).angle.p) angles
  simpa only [sortedAngle,List.getD_map _ _ fun p : Projection => p.angle.p] using row

theorem received_sorted (positive : 0 < rows) : Sorted rows cols (sortSlopes received) where
  positive := positive
  descending := by
    intro i j before row
    have length : (sortSlopes received).length = rows := by
      rw [sortSlopes,List.length_mergeSort,received_length valid shuffled]
    have ordered := List.pairwise_iff_getElem.mp (received_descending valid shuffled) i j (by omega) (by omega) before
    rwa [← List.getD_eq_getElem _ default,← List.getD_eq_getElem _ default] at ordered
  wide := by
    rw [received_angles valid shuffled]
    exact max_le valid.wide.1 valid.wide.2

/-- Each row of the sorted table is a projection of the forward transform. -/
theorem received_row (i : Nat) (row : i < rows) :
    ∃ p ∈ projections, { p with bins := forwardBins block rows cols p } = (sortSlopes received).getD i default := by
  have bound : i < (sortSlopes received).length := by
    rw [sortSlopes,List.length_mergeSort,received_length valid shuffled]
    exact row
  rw [List.getD_eq_getElem _ _ bound]
  exact received_mem shuffled ((mem_sortSlopes received).mp (List.getElem_mem bound))

/-- The bins that are read are inside the projections, and hold the sums of their lines. -/
theorem received_sums (x : Pixel) (member : x ∈ grid rows cols) :
    ((sortSlopes received).getD x.1 default).bins (binIndex rows ((sortSlopes received).getD x.1 default) x.1 x.2) =
      lineSum block rows cols ((sortSlopes received).getD x.1 default).angle.p
        (line ((sortSlopes received).getD x.1 default).angle.p x) := by
  obtain ⟨row,left,right⟩ := mem_grid.mp member
  obtain ⟨p,known,entry⟩ := received_row valid shuffled x.1 row
  rw [← entry]
  change forwardBins block rows cols p (binIndex rows p x.1 x.2) = lineSum block rows cols p.angle.p (line p.angle.p x)
  rw [binIndex_eq rows _ (valid.unit p known) x]
  obtain ⟨steps,index,few,_⟩ := slotIndex_eq rows p.angle.p x row
  change line p.angle.p x - offset rows p.angle.p = _ at index
  have reach : steps * p.angle.p.natAbs ≤ (rows - 1) * p.angle.p.natAbs := Nat.mul_le_mul_right _ (by omega)
  have full := valid.full p known
  have start : (0 : Int) ≤ (steps * p.angle.p.natAbs : Nat) := by omega
  rw [Nat.cast_mul] at start
  have inside : line p.angle.p x - offset rows p.angle.p < p.size := by
    have room : (steps : Int) * p.angle.p.natAbs ≤ ((rows - 1) * p.angle.p.natAbs : Nat) := by exact_mod_cast reach
    omega
  rw [forwardBins_apply block rows cols p valid.aligned _ (by omega) inside]
  congr 1
  omega

/-- Where ints are wide enough, the received projections give back the support. -/
theorem received_support (data : Buffer) (positive : 0 < rows) (columns : cols + kMax rows (sortedAngle projections) ≤ intMax + 1)
    (pixels : (rows : Int) * cols ≤ intMax + 1) :
    ∃ support, transformInverse data rows cols received = some support ∧ ∀ g : Int, 0 ≤ g → g < rows * cols → support g = block g := by
  have sorted := received_sorted valid shuffled positive
  have unit : ∀ i < rows, ((sortSlopes received).getD i default).angle.q = 1 := by
    intro i row
    obtain ⟨p,known,entry⟩ := received_row valid shuffled i row
    rw [← entry]
    exact valid.unit p known
  have reach : (trail sorted).reach = kMax rows (sortedAngle projections) := by
    rw [← received_angles valid shuffled]
    rfl
  have whole := received_length valid shuffled
  have guard : ¬(rows = 0 ∨ received.length < rows) := by omega
  have run := reconstruct_defined sorted (by rw [reach]; exact columns) pixels
    ⟨data,fun i => ((sortSlopes received).getD i default).bins⟩
  have found := congrArg (Option.map Rebuild.support) run
  rw [Option.map_some] at found
  refine ⟨_,(if_neg guard).trans found,fun g left right => ?_⟩
  rw [visited_support sorted unit block _ (received_sums valid shuffled),if_pos ⟨left,right⟩]

/-- Where they are not, the inverse transform is undefined. -/
theorem received_undefined (data : Buffer) (positive : 0 < rows)
    (overflow : intMax + 1 < cols + kMax rows (sortedAngle projections) ∨ intMax + 1 < (rows : Int) * cols) :
    transformInverse data rows cols received = none := by
  have sorted := received_sorted valid shuffled positive
  have reach : (trail sorted).reach = kMax rows (sortedAngle projections) := by
    rw [← received_angles valid shuffled]
    rfl
  have wide : (trail sorted).reach ≤ cols := sorted.wide
  have reachable := (trail sorted).reachable
  have large : (0 : Int) ≤ intMax := by decide
  have undefined : ∀ s, reconstruct rows cols (sortSlopes received) s = none := by
    cases overflow with
    | inl columns =>
      -- the last turn of the row that is shifted most
      obtain ⟨l,row,most⟩ : ∃ l < rows, (trail sorted).koff l = (trail sorted).reach := by
        rcases max_choice ((trail sorted).koff 0) ((trail sorted).koff (rows - 1)) with first | last
        · exact ⟨0,positive,first.symm⟩
        · exact ⟨rows - 1,by omega,last.symm⟩
      exact reconstruct_undefined sorted l row (cols - 1) (by omega) (by omega) (.inl (by omega))
    | inr pixels =>
      -- the last pixel of the support
      have low := (trail sorted).low (rows - 1) (Nat.sub_lt positive Nat.one_pos)
      have high := (trail sorted).high (rows - 1) (Nat.sub_lt positive Nat.one_pos)
      have inhabited : 0 < cols := by
        apply Nat.pos_of_ne_zero
        rintro rfl
        rw [Nat.cast_zero,Int.mul_zero] at pixels
        omega
      have address : ((rows - 1 : Nat) : Int) * cols + (cols - 1) = rows * cols - 1 := by
        rw [Nat.cast_sub positive,Nat.cast_one,Int.sub_mul,Int.one_mul]
        omega
      refine reconstruct_undefined sorted (rows - 1) (by omega) (cols - 1 - (trail sorted).koff (rows - 1)) (by omega) (by omega) (.inr ?_)
      rw [Int.sub_add_cancel,address]
      exact ⟨by omega,by omega,by omega⟩
  rw [transformInverse]
  split
  · rfl
  · simp only [undefined,Option.map_none]

end Received

section RoundTrips
variable {rows cols : Nat} {projections : List Projection} (valid : Valid rows cols projections)
include valid

theorem transformForward_defined (block : Buffer) (few : rows ≤ bufOffsets) : transformForward block rows cols projections =
    some (projections.map fun p => { p with bins := forwardBins block rows cols p }) := by
  have whole := valid.whole
  have aligned := valid.aligned
  rw [transformForward,if_neg (by omega)]

/-- A projection more than there are offsets is out of the buffer. -/
theorem transformForward_undefined (block : Buffer) (many : bufOffsets < rows) : transformForward block rows cols projections = none := by
  rw [transformForward,if_pos (.inl (by rw [valid.whole]; exact many))]

theorem kMax_one_row (one : rows = 1) {p : Projection} (known : p ∈ projections) :
    kMax rows (sortedAngle projections) = p.angle.p.natAbs := by
  subst one
  obtain ⟨only,list⟩ := List.length_eq_one_iff.mp valid.whole
  subst list
  obtain rfl := List.mem_singleton.mp known
  rw [kMax_single,sortedAngle,sortSlopes,List.mergeSort_singleton]
  rfl

/-- With two rows or more, the support is larger than any column index. -/
theorem columns_defined (positive : 0 < rows) (pixels : (rows : Int) * cols ≤ intMax + 1)
    (column : rows = 1 → ∀ p ∈ projections, cols + (p.angle.p.natAbs : Int) ≤ intMax + 1) :
    cols + kMax rows (sortedAngle projections) ≤ intMax + 1 := by
  have wide : kMax rows (sortedAngle projections) ≤ cols := max_le valid.wide.1 valid.wide.2
  rcases Nat.lt_or_ge rows 2 with one | two
  · have one : rows = 1 := by omega
    obtain ⟨p,known⟩ := List.exists_mem_of_length_pos (show 0 < projections.length by rw [valid.whole]; exact positive)
    rw [kMax_one_row valid one known]
    exact column one p known
  · have double : (2 : Int) * cols ≤ rows * cols := Int.mul_le_mul_of_nonneg_right (by omega) (by omega)
    omega

end RoundTrips

/-- The round trip of the 64-bit transform holds exactly when the offsets of the forward transform fit in
its buffer and the indices of the inverse transform are ints. -/
theorem transform_round_trip_iff {rows cols : Nat} {projections : List Projection} (data block : Buffer)
    (valid : Valid rows cols projections) : RoundTrip data block rows cols projections ↔
      0 < rows ∧ rows ≤ bufOffsets ∧ (rows : Int) * cols ≤ intMax + 1 ∧
        (rows = 1 → ∀ p ∈ projections, cols + (p.angle.p.natAbs : Int) ≤ intMax + 1) := by
  constructor
  · rintro ⟨produced,left,back⟩
    have few : rows ≤ bufOffsets := by
      by_contra many
      rw [transformForward_undefined valid block (by omega)] at left
      cases left
    obtain rfl := Option.some.inj ((transformForward_defined valid block few).symm.trans left)
    obtain ⟨support,found,_⟩ := back _ (List.Perm.refl _)
    have positive : 0 < rows := by
      apply Nat.pos_of_ne_zero
      rintro rfl
      rw [transformInverse,if_pos (.inl rfl)] at found
      cases found
    have wide : ¬(intMax + 1 < cols + kMax rows (sortedAngle projections) ∨ intMax + 1 < (rows : Int) * cols) := by
      intro overflow
      rw [received_undefined valid (List.Perm.refl _) data positive overflow] at found
      cases found
    refine ⟨positive,few,by omega,fun one p known => ?_⟩
    have reach := kMax_one_row valid one known
    omega
  · rintro ⟨positive,few,pixels,column⟩
    exact ⟨_,transformForward_defined valid block few,fun received shuffled =>
      received_support valid shuffled data positive (columns_defined valid positive pixels column) pixels⟩

/-- Two rows of eight columns. -/
def pair : List Projection := [⟨⟨1,1⟩,9,fun _ => 0⟩,⟨⟨0,1⟩,8,fun _ => 0⟩]

theorem pair_valid : Valid 2 8 pair where
  aligned := rfl
  whole := rfl
  unit := by simp [pair]
  distinct := by decide
  full := by simp [pair]
  wide := by
    rw [sortedAngle_of_descending pair (by simp [pair]) (by simp [pair])]
    decide

theorem transform_round_trip_pair : RoundTrip (fun _ => 0) (fun g => BitVec.ofInt 64 g) 2 8 pair :=
  (transform_round_trip_iff (fun _ => 0) (fun g => BitVec.ofInt 64 g) pair_valid).mpr
    ⟨by decide,by decide,by decide,fun one => absurd one (by decide)⟩

/-- One projection more than the forward transform has offsets, with angles from 512 down to -512. -/
def crowd : List Projection :=
  (List.range 1025).map fun i : Nat => ⟨⟨512 - i,1⟩,1024 * (512 - i : Int).natAbs + 1048576,fun _ => 0⟩

theorem slopeSum_bound (p : Nat → Int) (most m : Nat) (below : ∀ i, i ≤ m → p i ≤ most) : Mojette.slopeSum p m ≤ m * most := by
  induction m with
  | zero => simp [Mojette.slopeSum]
  | succ m ih =>
    have previous := ih fun i inside => below i (by omega)
    have last := below (m + 1) (le_refl _)
    have step : ((m + 1 : Nat) : Int) * most = m * most + most := by
      push_cast
      ring
    rw [Mojette.slopeSum_succ,step]
    omega

theorem crowd_valid : Valid 1025 1048576 crowd where
  aligned := rfl
  whole := by rw [crowd,List.length_map,List.length_range]
  unit := by simp [crowd]
  distinct := by
    rw [crowd,List.map_map]
    refine List.nodup_range.map fun i j same => ?_
    simp only [Function.comp_apply] at same
    omega
  full := by
    intro p known
    obtain ⟨i,_,rfl⟩ := List.mem_map.mp known
    rfl
  wide := by
    have descending : crowd.Pairwise fun a b => b.angle.p < a.angle.p := by
      rw [crowd,List.pairwise_map]
      refine List.pairwise_lt_range.imp fun before => ?_
      simp only
      omega
    rw [sortedAngle_of_descending crowd (by simp [crowd]) descending]
    have angle : ∀ i ≤ 1024, (crowd.getD i default).angle.p = 512 - i := by
      intro i bound
      rw [List.getD_eq_getElem _ _ (by rw [crowd,List.length_map,List.length_range]; omega)]
      simp [crowd]
    have up := slopeSum_bound (fun i => (crowd.getD i default).angle.p) 512 1024 fun i bound => by
      simp only [angle i bound]
      omega
    have down := slopeSum_bound (fun i => -(crowd.getD i default).angle.p) 512 1024 fun i bound => by
      simp only [angle i bound]
      omega
    have most : kMax 1025 (fun i => (crowd.getD i default).angle.p) ≤ 1048576 := by
      refine (Mojette.kMax_le 1025 _ (by decide)).trans ?_
      simp only [Mojette.fall,Mojette.rise,show 1025 - 1 = 1024 from rfl]
      omega
    exact ⟨(le_max_left _ _).trans most,(le_max_right _ _).trans most⟩

theorem too_many_offsets : Valid 1025 1048576 crowd ∧ ¬RoundTrip (fun _ => 0) (fun _ => 0) 1025 1048576 crowd := by
  refine ⟨crowd_valid,?_⟩
  rintro ⟨produced,left,_⟩
  rw [transformForward_undefined crowd_valid _ (by decide)] at left
  cases left

end Rozofs.Transform
