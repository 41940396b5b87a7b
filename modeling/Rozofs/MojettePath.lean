import Mathlib.Data.List.Basic
import Mathlib.Data.Int.Interval
import Mathlib.Tactic.Linarith

/-! The reconstruction path of the Mojette transform with `q = 1`: row `l` runs along its
columns shifted by `koff l`, all rows advancing together. The geometry needs only that
angles decrease with the row and that consecutive shifts differ by an angle. -/
namespace MojettePath

/-- A pixel is a row and a column. -/
abbrev Pixel := Nat × Int

/-- The integers of `[a, b)` in increasing order. -/
def intRange (a b : Int) : List Int := (List.range (b - a).toNat).map fun j : Nat => a + j

theorem mem_intRange : k ∈ intRange a b ↔ a ≤ k ∧ k < b := by
  simp only [intRange,List.mem_map,List.mem_range]
  constructor
  · rintro ⟨j,bound,rfl⟩
    omega
  · rintro ⟨low,high⟩
    exact ⟨(k - a).toNat,by omega,by omega⟩

theorem intRange_append (first : a ≤ b) (second : b ≤ c) :
    intRange a b ++ intRange b c = intRange a c := by
  have length : (c - a).toNat = (b - a).toNat + (c - b).toNat := by omega
  simp only [intRange,length,List.range_add,List.map_append,List.map_map,List.append_cancel_left_eq]
  apply List.map_congr_left
  intro j _
  simp only [Function.comp_apply]
  omega

theorem intRange_increasing (a b : Int) : (intRange a b).Pairwise (· < ·) := by
  rw [intRange,List.pairwise_map]
  exact List.pairwise_lt_range.imp fun lt => by omega

/-- Pixels met while `k` runs over `[start, stop)`, rows in order at each `k`. -/
def scan (rows : Nat) (koff : Nat → Int) (keep : Int → Bool) (start stop : Int) : List Pixel :=
  (intRange start stop).flatMap fun k =>
    ((List.range rows).filter fun l => keep (k + koff l)).map fun l => (l, k + koff l)

theorem mem_scan : (l,c) ∈ scan rows koff keep start stop ↔
    l < rows ∧ keep c = true ∧ start ≤ c - koff l ∧ c - koff l < stop := by
  simp only [scan,List.mem_flatMap,List.mem_map,List.mem_filter,List.mem_range,mem_intRange,
    Prod.mk.injEq]
  constructor
  · rintro ⟨k,⟨low,high⟩,_,⟨row,kept⟩,rfl,rfl⟩
    refine ⟨row,kept,?_,?_⟩ <;> omega
  · rintro ⟨row,kept,low,high⟩
    exact ⟨c - koff l,⟨low,high⟩,l,⟨row,by simpa using kept⟩,rfl,by omega⟩

theorem scan_append (first : a ≤ b) (second : b ≤ c) :
    scan rows koff keep a b ++ scan rows koff keep b c = scan rows koff keep a c := by
  rw [scan,scan,scan,← List.flatMap_append,intRange_append first second]

theorem scan_congr (same : ∀ k, start ≤ k → k < stop → ∀ l, l < rows →
    keep (k + koff l) = keep' (k + koff l)) :
    scan rows koff keep start stop = scan rows koff keep' start stop := by
  apply List.flatMap_congr
  intro k member
  obtain ⟨low,high⟩ := mem_intRange.mp member
  congr 1
  apply List.filter_congr
  intro l row
  exact same k low high l (List.mem_range.mp row)

/-- Pixel `x` is met strictly before pixel `y`. -/
def Earlier (koff : Nat → Int) (x y : Pixel) : Prop :=
  x.2 - koff x.1 < y.2 - koff y.1 ∨ (x.2 - koff x.1 = y.2 - koff y.1 ∧ x.1 < y.1)

theorem Earlier.asymm (first : Earlier koff x y) : ¬Earlier koff y x := by
  unfold Earlier at *
  omega

theorem scan_ordered (rows : Nat) (koff : Nat → Int) (keep : Int → Bool) (start stop : Int) :
    (scan rows koff keep start stop).Pairwise (Earlier koff) := by
  apply List.pairwise_flatMap.mpr
  constructor
  · intro k _
    rw [List.pairwise_map]
    refine (List.pairwise_lt_range.filter _).imp fun lt => Or.inr ⟨?_,lt⟩
    simp
  · refine (intRange_increasing start stop).imp fun lt => ?_
    intro x hx y hy
    obtain ⟨l,_,rfl⟩ := List.mem_map.mp hx
    obtain ⟨l',_,rfl⟩ := List.mem_map.mp hy
    left
    simpa using lt

/-- In an ordered list, what stands before an element is what is earlier. -/
theorem mem_before_iff {cells before after : List Pixel} {x y : Pixel}
    (ordered : cells.Pairwise (Earlier koff)) (split : cells = before ++ x :: after) :
    y ∈ before ↔ y ∈ cells ∧ Earlier koff y x := by
  subst split
  obtain ⟨_,tail,across⟩ := List.pairwise_append.mp ordered
  constructor
  · intro member
    exact ⟨List.mem_append_left _ member,across y member x List.mem_cons_self⟩
  · rintro ⟨member,earlier⟩
    rcases List.mem_append.mp member with inside | inside
    · exact inside
    · rcases List.mem_cons.mp inside with rfl | later
      · exact absurd earlier earlier.asymm
      · exact absurd earlier ((List.pairwise_cons.mp tail).1 y later).asymm

/-- Rows whose angles strictly decrease, with the shifts that make each row start when
the rows above and below it have been cleaned. -/
structure Path where
  rows : Nat
  cols : Int
  p : Nat → Int
  koff : Nat → Int
  descending : ∀ i j, i < j → j < rows → p j < p i
  shift : ∀ l, l + 1 < rows → koff l = koff (l + 1) + p (l + 1)
  low : ∀ l, l < rows → 0 ≤ koff l
  wide : max (koff 0) (koff (rows - 1)) ≤ cols
  inhabited : 0 < rows

namespace Path
variable (path : Path)

def reach : Int := max (path.koff 0) (path.koff (path.rows - 1))

def inside (c : Int) : Bool := decide (0 ≤ c ∧ c < path.cols)

/-- The whole path: every pixel once. -/
def cells : List Pixel := scan path.rows path.koff path.inside (-path.reach) path.cols

/-- Shifts of two rows differ by the angles between them, each at least the lower one. -/
theorem shift_above (l : Nat) (row : l < path.rows) (d : Nat) (bound : d ≤ l) :
    (d : Int) * path.p l ≤ path.koff (l - d) - path.koff l := by
  induction d with
  | zero => simp
  | succ d ih =>
    have previous := ih (by omega)
    have step := path.shift (l - (d + 1)) (by omega)
    rw [show l - (d + 1) + 1 = l - d by omega] at step
    have angle : path.p l ≤ path.p (l - d) := by
      rcases Nat.eq_zero_or_pos d with rfl | positive
      · simp
      · exact le_of_lt (path.descending (l - d) l (by omega) row)
    push_cast
    linarith

theorem shift_below (l d : Nat) (row : l + d < path.rows) (positive : 0 < d) :
    path.koff l - path.koff (l + d) < (d : Int) * path.p l := by
  induction d with
  | zero => omega
  | succ d ih =>
    have step := path.shift (l + d) (by omega)
    have angle := path.descending l (l + d + 1) (by omega) (by omega)
    have next : l + (d + 1) = l + d + 1 := by omega
    rcases Nat.eq_zero_or_pos d with rfl | more
    · simp only [Nat.add_zero,Nat.zero_add,Nat.cast_one,one_mul] at *
      linarith
    · have previous := ih (by omega) more
      rw [next]
      push_cast
      linarith

/-- Shifts form a valley, so the first or the last row has the largest. -/
theorem high (l : Nat) (row : l < path.rows) : path.koff l ≤ path.reach := by
  rcases lt_or_ge (path.p l) 0 with negative | positive
  · refine le_trans ?_ (le_max_right _ _)
    rcases Nat.eq_or_lt_of_le (Nat.le_sub_one_of_lt row) with last | before
    · rw [← last]
    · have drop := path.shift_below l (path.rows - 1 - l) (by omega) (by omega)
      rw [show l + (path.rows - 1 - l) = path.rows - 1 by omega] at drop
      have slope : ((path.rows - 1 - l : Nat) : Int) * path.p l ≤ 0 :=
        Int.mul_nonpos_of_nonneg_of_nonpos (by omega) (by omega)
      linarith
  · refine le_trans ?_ (le_max_left _ _)
    have climb := path.shift_above l row l (le_refl l)
    rw [Nat.sub_self] at climb
    have slope : 0 ≤ (l : Int) * path.p l := Int.mul_nonneg (by omega) positive
    linarith

theorem reachable : 0 ≤ path.reach := le_trans (path.low 0 path.inhabited) (path.high 0 path.inhabited)

theorem mem_cells : (l,c) ∈ path.cells ↔ l < path.rows ∧ 0 ≤ c ∧ c < path.cols := by
  simp only [cells,mem_scan,inside,decide_eq_true_eq]
  constructor
  · rintro ⟨row,⟨left,right⟩,_,_⟩
    exact ⟨row,left,right⟩
  · rintro ⟨row,left,right⟩
    have := path.low l row
    have := path.high l row
    refine ⟨row,⟨left,right⟩,?_,?_⟩ <;> omega

theorem cells_ordered : path.cells.Pairwise (Earlier path.koff) := scan_ordered ..

theorem cells_nodup : path.cells.Nodup :=
  path.cells_ordered.imp fun earlier same => (same ▸ earlier).asymm (same ▸ earlier)

/-- The three loops of a reconstruction, guarded only where a guard is needed, follow
the whole path. -/
theorem scan_three :
    scan path.rows path.koff (fun c => decide (0 ≤ c)) (-path.reach) 0 ++
      (scan path.rows path.koff (fun _ => true) 0 (path.cols - path.reach) ++
        scan path.rows path.koff (fun c => decide (c < path.cols)) (path.cols - path.reach) path.cols) =
    path.cells := by
  have wide : path.reach ≤ path.cols := path.wide
  have reachable := path.reachable
  have first : scan path.rows path.koff (fun c => decide (0 ≤ c)) (-path.reach) 0 =
      scan path.rows path.koff path.inside (-path.reach) 0 := by
    apply scan_congr
    intro k start stop l row
    have := path.high l row
    simp only [inside,decide_eq_decide]
    omega
  have middle : scan path.rows path.koff (fun _ => true) 0 (path.cols - path.reach) =
      scan path.rows path.koff path.inside 0 (path.cols - path.reach) := by
    apply scan_congr
    intro k start stop l row
    have := path.low l row
    have := path.high l row
    symm
    simp only [inside,decide_eq_true_eq]
    omega
  have last : scan path.rows path.koff (fun c => decide (c < path.cols)) (path.cols - path.reach) path.cols =
      scan path.rows path.koff path.inside (path.cols - path.reach) path.cols := by
    apply scan_congr
    intro k start stop l row
    have := path.low l row
    simp only [inside,decide_eq_decide]
    omega
  rw [first,middle,last,scan_append (by omega) (by omega),scan_append (by omega) (by omega),cells]

/-- Pixels that share the bin of `(l, c)` in projection `l` are all met before it. -/
theorem line_earlier (row : l < path.rows) (row' : l' < path.rows) (apart : l' ≠ l)
    (line : c' + l' * path.p l = c + l * path.p l) : Earlier path.koff (l',c') (l,c) := by
  rcases Nat.lt_or_gt_of_ne apart with above | below
  · have shift := path.shift_above l row (l - l') (by omega)
    rw [show l - (l - l') = l' by omega,Nat.cast_sub (by omega)] at shift
    have sum : (l - l' : Int) * path.p l = c' - c := by linarith
    simp only [Earlier]
    omega
  · have shift := path.shift_below l (l' - l) (by omega) (by omega)
    rw [show l + (l' - l) = l' by omega,Nat.cast_sub (by omega)] at shift
    have sum : (l' - l : Int) * path.p l = c - c' := by linarith
    left
    simp only
    omega

end Path
end MojettePath
