import Rozofs.MojetteForward

/-! The reconstruction loops of `transform128_inverse_copy` as a peeling decoder along the
reconstruction path. -/
namespace Rozofs.Mojette
open MojettePath Peeling

/-- A sort by a comparison of slopes puts the slopes in decreasing order. -/
theorem mergeSort_slopes {α : Type} (slope : α → Rat) (compare : α → α → Int)
    (agrees : ∀ a b, compare a b ≤ 0 ↔ slope b ≤ slope a) (projections : List α) :
    (projections.mergeSort fun a b => decide (compare a b ≤ 0)).Pairwise fun a b => slope b ≤ slope a := by
  have sorted := @List.pairwise_mergeSort α (fun a b => decide (compare a b ≤ 0))
    (fun a b c => by
      simp only [agrees,decide_eq_true_eq]
      exact fun first second => le_trans second first)
    (fun a b => by
      simp only [agrees,Bool.or_eq_true,decide_eq_true_eq]
      exact le_total _ _) projections
  refine sorted.imp fun ordered => ?_
  simpa [agrees] using ordered

/-- Positive parts of the angles of rows `1` to `m`. -/
def slopeSum (p : Nat → Int) (m : Nat) : Int := ((List.range m).map fun i => max 0 (p (i + 1))).sum

theorem slopeSum_succ (p : Nat → Int) (m : Nat) :
    slopeSum p (m + 1) = slopeSum p m + max 0 (p (m + 1)) := by
  simp [slopeSum,List.range_succ]

theorem slopeSum_nonneg (p : Nat → Int) (m : Nat) : 0 ≤ slopeSum p m := by
  induction m with
  | zero => simp [slopeSum]
  | succ m ih => rw [slopeSum_succ]; omega

theorem slopeSum_mono (p : Nat → Int) (bound : m ≤ n) : slopeSum p m ≤ slopeSum p n := by
  induction n, bound using Nat.le_induction with
  | base => exact le_refl _
  | succ n _ ih => rw [slopeSum_succ]; omega

theorem slopeSum_le (p q : Nat → Int) (m : Nat) (below : ∀ i, 0 < i → i ≤ m → p i ≤ q i) :
    slopeSum p m ≤ slopeSum q m := by
  induction m with
  | zero => exact le_refl _
  | succ m ih =>
    rw [slopeSum_succ,slopeSum_succ]
    have head := below (m + 1) (by omega) (le_refl _)
    have tail := ih fun i positive inside => below i positive (by omega)
    omega

/-- Rise and fall of the angles over the rows above the first. -/
def rise (rows : Nat) (p : Nat → Int) : Int := slopeSum p (rows - 1)

def fall (rows : Nat) (p : Nat → Int) : Int := slopeSum (fun i => -p i) (rows - 1)

theorem kOffsetRdv_eq (rows : Nat) (p : Nat → Int) (two : 2 ≤ rows) :
    kOffsetRdv rows p = max (fall rows p) (rise rows p) := by
  obtain ⟨m,rfl⟩ := Nat.exists_eq_add_of_le' two
  simp only [kOffsetRdv,sMinus,sPlus,rise,fall,Nat.add_sub_cancel,show m + 2 - 1 = m + 1 from rfl,
    slopeSum_succ]
  rw [slopeSum,slopeSum,Int.add_comm,Int.add_comm (max 0 (p (m + 1)))]

theorem kOffset_shift (rows : Nat) (p : Nat → Int) (l : Nat) (row : l + 1 < rows) :
    kOffset rows p l = kOffset rows p (l + 1) + p (l + 1) := by
  rw [kOffset,kOffset,show rows - 1 - l = rows - 1 - (l + 1) + 1 by omega,kOffsetDown]
  congr 2
  omega

/-- Closed form of the shifts: the rise and the fall above row `l` are what remains
between `l` and the last row. -/
theorem kOffset_eq (rows : Nat) (p : Nat → Int) (two : 2 ≤ rows) (l : Nat) (row : l < rows) :
    kOffset rows p l = max (fall rows p) (rise rows p) + (rise rows p - slopeSum p l) -
      (fall rows p - slopeSum (fun i => -p i) l) := by
  obtain ⟨d,split⟩ := Nat.exists_eq_add_of_le (Nat.le_sub_one_of_lt row)
  induction d generalizing l with
  | zero =>
    have last : l = rows - 1 := by omega
    subst last
    rw [kOffset,Nat.sub_self,kOffsetDown,kOffsetRdv_eq rows p two,rise,fall]
    omega
  | succ d ih =>
    have next := ih (l + 1) (by omega) (by omega)
    rw [kOffset_shift rows p l (by omega),next,slopeSum_succ,slopeSum_succ]
    omega

theorem kOffset_nonneg (rows : Nat) (p : Nat → Int) (two : 2 ≤ rows) (l : Nat) (row : l < rows) :
    0 ≤ kOffset rows p l := by
  rw [kOffset_eq rows p two l row]
  have climb : slopeSum p l ≤ rise rows p := slopeSum_mono p (by omega)
  have start := slopeSum_nonneg (fun i => -p i) l
  omega

/-- The longest shift is bounded by the fall, or by twice the rise. -/
theorem kMax_le (rows : Nat) (p : Nat → Int) (two : 2 ≤ rows) :
    kMax rows p ≤ max (fall rows p) (2 * rise rows p) := by
  have up := slopeSum_nonneg p (rows - 1)
  have down := slopeSum_nonneg (fun i => -p i) (rows - 1)
  rw [kMax,kOffset_eq rows p two 0 (by omega),kOffset_eq rows p two (rows - 1) (by omega)]
  simp only [rise,fall,slopeSum,List.range_zero,List.map_nil,List.sum_nil] at up down ⊢
  omega

/-- The path of `reconstruct`, for angles in decreasing order over enough columns. -/
def path (rows cols : Nat) (p : Nat → Int) (two : 2 ≤ rows)
    (descending : ∀ i j, i < j → j < rows → p j < p i) (wide : kMax rows p ≤ cols) : Path where
  rows := rows
  cols := cols
  p := p
  koff := kOffset rows p
  descending := descending
  shift := kOffset_shift rows p
  low := kOffset_nonneg rows p two
  wide := wide
  inhabited := by omega

section Loops
variable (rows cols : Nat) (table : Nat → LocalProjection)

/-- What the reconstruction of one pixel reads and updates. -/
def rebuildPlan : Plan Pixel Int Int where
  read x := binIndex rows (table x.1) x.1 x.2
  writes x := ((List.range rows).filter fun i => i ≠ x.1).map fun i => binIndex rows (table i) x.1 x.2
  place x := x.1 * cols + x.2

def Rebuild.toPeeling (s : Rebuild) : Peeling.State Lane Int Int := ⟨s.bins,s.support⟩

theorem rebuildPixel_eq_visit (x : Pixel) (s : Rebuild) :
    (rebuildPixel rows cols table x.1 x.2 s).toPeeling =
      visit lxor (rebuildPlan rows cols table) s.toPeeling x := by
  unfold rebuildPixel visit Rebuild.toPeeling rebuildPlan scatter
  simp only [List.foldl_map,List.foldl_filter]
  congr 2
  funext b i
  by_cases own : i = x.1
  · simp [own]
  · simp only [own,if_false,decide_true,if_true,ne_eq,not_false_eq_true]
    rfl

theorem scanColumns_eq_peel (kOffsets : Nat → Int) (keep : Int → Bool) (start stop : Int) (s : Rebuild) :
    (scanColumns rows cols table kOffsets keep start stop s).toPeeling =
      peel lxor (rebuildPlan rows cols table) (scan rows kOffsets keep start stop) s.toPeeling := by
  simp only [scanColumns,peel,scan,intRange,List.foldl_flatMap,List.foldl_map,List.foldl_filter]
  rw [← List.foldl_hom Rebuild.toPeeling]
  intro s j
  rw [← List.foldl_hom Rebuild.toPeeling]
  intro s l
  by_cases kept : keep (start + j + kOffsets l) = true
  · simp only [kept,if_true]
    exact (rebuildPixel_eq_visit rows cols table (l,start + j + kOffsets l) s).symm
  · simp only [kept,Bool.false_eq_true,if_false]

end Loops

/-- The three loops follow the whole path. -/
theorem reconstruct_eq_peel (rows cols : Nat) (projections : List LocalProjection) (s : Rebuild)
    (two : 2 ≤ rows)
    (descending : ∀ i j, i < j → j < rows →
      (projections.getD j default).angle.p < (projections.getD i default).angle.p)
    (wide : kMax rows (fun i => (projections.getD i default).angle.p) ≤ cols) :
    (reconstruct rows cols projections s).toPeeling =
      peel lxor (rebuildPlan rows cols fun i => projections.getD i default)
        (path rows cols _ two descending wide).cells s.toPeeling := by
  rw [← Path.scan_three,peel,List.foldl_append,List.foldl_append]
  unfold reconstruct
  simp only [scanColumns_eq_peel]
  rfl

/-- What the private bins must offer to the reconstruction: every bin it reads holds the sum
of its line, and no earlier update of another projection lands on it. -/
structure Readable (rows cols : Nat) (table : Nat → LocalProjection) (block bins : Buffer) : Prop where
  sum : ∀ (l : Nat) (c : Int), l < rows → 0 ≤ c → c < cols →
    bins (binIndex rows (table l) l c) =
      lineSum block rows cols (table l).angle.p (line (table l).angle.p (l,c))
  apart : ∀ x y : Pixel, x ∈ grid rows cols → y ∈ grid rows cols →
    Earlier (kOffset rows fun i => (table i).angle.p) y x → ∀ i, i < rows → i ≠ x.1 →
    binIndex rows (table i) y.1 y.2 ≠ binIndex rows (table x.1) x.1 x.2

/-- The visit of `y` updates the bin read for `x`. -/
def onLine (table : Nat → LocalProjection) (x y : Pixel) : Bool :=
  decide (y.1 ≠ x.1 ∧ line (table x.1).angle.p y = line (table x.1).angle.p x)

theorem binIndex_eq_iff (rows : Nat) (p : LocalProjection) (l l' : Nat) (c c' : Int) :
    binIndex rows p l' c' = binIndex rows p l c ↔ line p.angle.p (l',c') = line p.angle.p (l,c) := by
  simp only [binIndex,line]
  omega

/-- A visit writes each bin at most once, and the bin of `x` exactly when it is on its line. -/
theorem writes_count (rows cols : Nat) (table : Nat → LocalProjection) (x y : Pixel) (row : x.1 < rows)
    (apart : ∀ i, i < rows → i ≠ x.1 → binIndex rows (table i) y.1 y.2 ≠ binIndex rows (table x.1) x.1 x.2) :
    ((rebuildPlan rows cols table).writes y).count ((rebuildPlan rows cols table).read x) =
      if onLine table x y then 1 else 0 := by
  have own : ∀ i ∈ (List.range rows).filter (fun i => i ≠ y.1),
      (binIndex rows (table i) y.1 y.2 == binIndex rows (table x.1) x.1 x.2) = true ↔
        (onLine table x y && i == x.1) = true := by
    intro i member
    simp only [List.mem_filter,List.mem_range,decide_eq_true_eq] at member
    simp only [beq_iff_eq,Bool.and_eq_true,onLine,decide_eq_true_eq]
    by_cases same : i = x.1
    · subst same
      rw [binIndex_eq_iff]
      exact ⟨fun eq => ⟨⟨member.2.symm,eq⟩,rfl⟩,fun both => both.1.2⟩
    · exact ⟨fun eq => absurd eq (apart i member.1 same),fun both => absurd both.2 same⟩
  rw [rebuildPlan,List.count,List.countP_map]
  refine (List.countP_congr own).trans ?_
  cases hit : onLine table x y with
  | false => simp
  | true =>
    simp only [onLine,decide_eq_true_eq] at hit
    simp only [Bool.true_and,if_true]
    refine List.count_eq_one_of_mem (List.nodup_range.filter _) ?_
    simp only [List.mem_filter,List.mem_range,decide_eq_true_eq]
    exact ⟨row,hit.1.symm⟩

/-- Pixels of the grid are stored in the support. -/
theorem place_bounds {rows cols : Nat} {l : Nat} {c : Int} (member : (l,c) ∈ grid rows cols) :
    0 ≤ (l : Int) * cols + c ∧ (l : Int) * cols + c < rows * cols := by
  obtain ⟨row,left,right⟩ := mem_grid.mp member
  have whole : ((l : Int) + 1) * cols ≤ rows * cols :=
    Int.mul_le_mul_of_nonneg_right (by omega) (by omega)
  have start : 0 ≤ (l : Int) * cols := Int.mul_nonneg (by omega) (by omega)
  rw [Int.add_mul] at whole
  omega

theorem mem_places (rows cols : Nat) (cells : List Pixel) (all : ∀ l c, (l,c) ∈ cells ↔ (l,c) ∈ grid rows cols) (g : Int) :
    g ∈ cells.map (fun x => (x.1 : Int) * cols + x.2) ↔ 0 ≤ g ∧ g < rows * cols := by
  simp only [List.mem_map,Prod.exists,all]
  constructor
  · rintro ⟨l,c,member,rfl⟩
    exact place_bounds member
  · rintro ⟨left,right⟩
    have positive : (0 : Int) < cols := by
      rcases Nat.eq_zero_or_pos cols with rfl | positive
      · simp at right
        omega
      · omega
    have quotient := Int.ediv_nonneg left (le_of_lt positive)
    have row : g / cols < rows := Int.ediv_lt_of_lt_mul positive right
    refine ⟨(g / cols).toNat,g % cols,mem_grid.mpr ⟨by omega,Int.emod_nonneg _ (by omega),Int.emod_lt_of_pos _ positive⟩,?_⟩
    rw [Int.toNat_of_nonneg quotient,Int.mul_comm]
    exact Int.mul_ediv_add_emod g cols

/-- On a path, the line of a pixel is the pixel itself and the earlier pixels of the line. -/
theorem line_perm (trail : Path) (cols : Nat) (width : trail.cols = cols) {before after : List Pixel} {l : Nat} {c : Int}
    (split : trail.cells = before ++ (l,c) :: after) :
    ((grid trail.rows cols).filter fun y => line (trail.p l) y = line (trail.p l) (l,c)).Perm
      ((l,c) :: before.filter fun y => y.1 ≠ l ∧ line (trail.p l) y = line (trail.p l) (l,c)) := by
  have all : ∀ l c, (l,c) ∈ trail.cells ↔ (l,c) ∈ grid trail.rows cols := by
    intro l c
    rw [Path.mem_cells,width,mem_grid]
  have here : (l,c) ∈ grid trail.rows cols := (all l c).mp (by rw [split]; simp)
  have distinct : (before ++ (l,c) :: after).Nodup := split ▸ Path.cells_nodup _
  obtain ⟨nodup,_,disjoint⟩ := List.nodup_append.mp distinct
  have fresh : (l,c) ∉ before.filter fun y => y.1 ≠ l ∧ line (trail.p l) y = line (trail.p l) (l,c) := fun member =>
    disjoint _ (List.mem_of_mem_filter member) _ List.mem_cons_self rfl
  rw [List.perm_ext_iff_of_nodup ((grid_nodup _ _).filter _) (List.nodup_cons.mpr ⟨fresh,nodup.filter _⟩)]
  rintro ⟨l',c'⟩
  simp only [List.mem_filter,List.mem_cons,Prod.mk.injEq,decide_eq_true_eq,mem_before_iff trail.cells_ordered split,all]
  constructor
  · rintro ⟨inside,same⟩
    by_cases own : l' = l
    · subst own
      simp only [line] at same
      left
      exact ⟨rfl,by omega⟩
    · right
      exact ⟨⟨inside,Path.line_earlier _ (mem_grid.mp here).1 (mem_grid.mp inside).1 own same⟩,own,same⟩
  · rintro (⟨rfl,rfl⟩ | ⟨⟨inside,_⟩,_,same⟩)
    · exact ⟨here,rfl⟩
    · exact ⟨inside,same⟩

section Decoding
variable (rows cols : Nat) (projections : List LocalProjection) (block : Buffer)

theorem mem_path_cells (p : Nat → Int) (two : 2 ≤ rows) (descending : ∀ i j, i < j → j < rows → p j < p i)
    (wide : kMax rows p ≤ cols) (l : Nat) (c : Int) :
    (l,c) ∈ (path rows cols p two descending wide).cells ↔ (l,c) ∈ grid rows cols :=
  (Path.mem_cells _).trans mem_grid.symm

/-- Readable bins make the path triangular: what precedes a pixel on the path contains the
rest of its line. -/
theorem triangular_of_readable (bins : Buffer) (two : 2 ≤ rows)
    (descending : ∀ i j, i < j → j < rows →
      (projections.getD j default).angle.p < (projections.getD i default).angle.p)
    (wide : kMax rows (fun i => (projections.getD i default).angle.p) ≤ cols)
    (readable : Readable rows cols (fun i => projections.getD i default) block bins) :
    Triangular lxor 0 (rebuildPlan rows cols fun i => projections.getD i default) block
      (path rows cols _ two descending wide).cells bins (onLine fun i => projections.getD i default) := by
  have all := mem_path_cells rows cols _ two descending wide
  have ordered := (path rows cols _ two descending wide).cells_ordered
  constructor
  · intro before x after split y member
    have inside := (mem_before_iff ordered split).mp member
    have here : x ∈ grid rows cols := (all x.1 x.2).mp (by rw [split]; simp)
    exact writes_count rows cols _ x y (mem_grid.mp here).1
      (readable.apart x y here ((all y.1 y.2).mp inside.1) inside.2)
  · rintro before ⟨l,c⟩ after split
    have here : (l,c) ∈ grid rows cols := (all l c).mp (by rw [split]; simp)
    obtain ⟨row,left,right⟩ := mem_grid.mp here
    refine (readable.sum l c row left right).trans ?_
    -- The line of the pixel is the pixel itself and the visited pixels that hit it.
    change _ = total lxor 0 (((l,c) :: before.filter (onLine _ (l,c))).map (pixel block cols))
    rw [lineSum]
    apply total_perm
    apply List.Perm.map
    exact line_perm (path rows cols _ two descending wide) cols rfl split

/-- From readable bins, the three loops rebuild the whole support and nothing else. -/
theorem reconstruct_support (s : Rebuild) (two : 2 ≤ rows)
    (descending : ∀ i j, i < j → j < rows →
      (projections.getD j default).angle.p < (projections.getD i default).angle.p)
    (wide : kMax rows (fun i => (projections.getD i default).angle.p) ≤ cols)
    (readable : Readable rows cols (fun i => projections.getD i default) block s.bins) (g : Int) :
    (reconstruct rows cols projections s).support g =
      if 0 ≤ g ∧ g < rows * cols then block g else s.support g := by
  have run := reconstruct_eq_peel rows cols projections s two descending wide
  have triangular := triangular_of_readable rows cols projections block s.bins two descending wide readable
  have decoded := peel_out (fun _ => BitVec.xor_self) _ block _ s.toPeeling _ triangular g
  rw [← run] at decoded
  exact decoded.trans (if_congr (mem_places rows cols _ (mem_path_cells rows cols _ two descending wide) g) rfl rfl)

end Decoding

end Rozofs.Mojette
