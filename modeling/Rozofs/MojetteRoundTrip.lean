import Rozofs.MojetteInverse
import Mathlib.Data.List.GetD
import Mathlib.Data.List.Sort
import Mathlib.Algebra.Order.Field.Rat
import Mathlib.Tactic.Ring

/-! Round trip of the 128-bit transform over the layout tables: the truncated projections
contain every bin that the inverse transform reads. -/
namespace Rozofs.Mojette
open MojettePath Peeling

/-- A choice of projections to decode from: as many distinct ids of the layout as its
inverse transform has rows, in any order. -/
structure Selection (layout : Layout) where
  ids : List Nat
  distinct : ids.Nodup
  enough : ids.length = layout.rozofsInverse
  known : ∀ id ∈ ids, id < layout.rozofsForward

/-- The projections of a block that were read back. -/
def Selection.select (selection : Selection layout) (projections : List Projection) : List Projection :=
  selection.ids.filterMap fun id => projections[id]?

section Copy
variable {maxPrjSz : Int} {projections : List Projection}

theorem mem_localProjections (dst : Int) {x : LocalProjection} :
    x ∈ localProjections maxPrjSz dst projections ↔
      ∃ (j : Nat) (p : Projection), projections[j]? = some p ∧ x = ⟨p.angle,dst + j * maxPrjSz⟩ := by
  induction projections generalizing dst with
  | nil => simp [localProjections]
  | cons p rest ih =>
    rw [localProjections,List.mem_cons,ih]
    constructor
    · rintro (rfl | ⟨j,p',found,rfl⟩)
      · exact ⟨0,p,rfl,by simp⟩
      · exact ⟨j + 1,p',by simpa using found,by simp [Int.add_mul]; omega⟩
    · rintro ⟨_ | j,p',found,rfl⟩
      · left
        simp_all
      · right
        exact ⟨j,p',by simpa using found,by simp [Int.add_mul]; omega⟩

theorem length_localProjections (dst : Int) :
    (localProjections maxPrjSz dst projections).length = projections.length := by
  induction projections generalizing dst with
  | nil => rfl
  | cons p rest ih => simp [localProjections,ih]

theorem angles_localProjections (dst : Int) :
    (localProjections maxPrjSz dst projections).map (·.angle) = projections.map (·.angle) := by
  induction projections generalizing dst with
  | nil => rfl
  | cons p rest ih => simp [localProjections,ih]

theorem copyBins_below (dst : Int) (buf : Buffer) (room : 0 ≤ maxPrjSz) (before : b < dst) :
    copyBins maxPrjSz dst projections buf b = buf b := by
  induction projections generalizing dst buf with
  | nil => rfl
  | cons p rest ih =>
    rw [copyBins,ih _ _ (by omega),if_neg (by omega)]

/-- Later copies start in later slots, so every slot holds its projection. -/
theorem copyBins_slot (dst : Int) (buf : Buffer) {j : Nat} {p : Projection} {a : Int}
    (found : projections[j]? = some p) (first : 0 ≤ a) (last : a < p.size) (inside : a < maxPrjSz) :
    copyBins maxPrjSz dst projections buf (dst + j * maxPrjSz + a) = p.bins a := by
  induction projections generalizing dst buf j with
  | nil => simp at found
  | cons q rest ih =>
    rw [copyBins]
    cases j with
    | zero =>
      obtain rfl : q = p := by simpa using found
      have here : copyBins maxPrjSz (dst + maxPrjSz) rest
          (fun b => if dst ≤ b ∧ b < dst + q.size then q.bins (b - dst) else buf b) (dst + a) =
          q.bins (dst + a - dst) := by
        rw [copyBins_below _ _ (by omega) (by omega),if_pos (by omega)]
      rw [show dst + a - dst = a by omega] at here
      simpa using here
    | succ j =>
      have later := ih (dst + maxPrjSz)
        (fun b => if dst ≤ b ∧ b < dst + q.size then q.bins (b - dst) else buf b) (by simpa using found)
      rw [show dst + ((j + 1 : Nat) : Int) * maxPrjSz + a = dst + maxPrjSz + j * maxPrjSz + a by
        push_cast; rw [Int.add_mul]; omega]
      exact later

/-- A copy of what the slots already hold. -/
theorem copyBins_again (dst : Int) (buf : Buffer)
    (held : ∀ (j : Nat) (p : Projection) (a : Int), projections[j]? = some p → 0 ≤ a → a < p.size →
      buf (dst + j * maxPrjSz + a) = p.bins a) : copyBins maxPrjSz dst projections buf = buf := by
  induction projections generalizing dst buf with
  | nil => rfl
  | cons q rest ih =>
    have same : (fun a => if dst ≤ a ∧ a < dst + q.size then q.bins (a - dst) else buf a) = buf := by
      funext a
      split
      · rename_i inside
        have here := held 0 q (a - dst) rfl (by omega) (by omega)
        rw [← here]
        congr 1
        simp only [Nat.cast_zero,Int.zero_mul]
        omega
      · rfl
    rw [copyBins,same]
    apply ih
    intro j p a found first last
    rw [← held (j + 1) p a (by simpa using found) first last]
    congr 1
    push_cast
    rw [Int.add_mul]
    omega

end Copy

def slope (p : LocalProjection) : Rat := p.angle.p / p.angle.q

theorem compareSlope_nonpos (a b : LocalProjection) : compareSlope a b ≤ 0 ↔ slope b ≤ slope a := by
  unfold compareSlope slope
  simp only
  split
  · simp_all
  · split <;> simp_all

theorem sortSlopes_pairwise (projections : List LocalProjection) :
    (sortSlopes projections).Pairwise fun a b => slope b ≤ slope a :=
  mergeSort_slopes slope compareSlope compareSlope_nonpos projections

/-- Lanes in a row of a block. -/
def laneCols (layout : Layout) (bsize : BSize) : Nat := blockCols layout bsize / 2

/-- Lanes between two slots of the private buffer. -/
def slotLanes (layout : Layout) (bsize : BSize) : Nat := (getMaxPsize layout bsize * 8 + 512) / 16

/-- The effective sizes keep, for every projection, the bins up to the last row at which a
selection can use it. -/
theorem eff_size (layout : Layout) (bsize : BSize) (effective : Effective bsize) :
    ∀ id < layout.rozofsForward,
      get128bitsPsizes layout bsize id = laneCols layout bsize +
        (if id < layout.rozofsForward / 2 then (layout.rozofsForward / 2 - id) * id
          else (id - layout.rozofsForward / 2) * (layout.rozofsForward - 1 - id)) := by
  rcases effective with rfl | rfl <;> cases layout <;> decide

/-- A slot has room for the whole projection, but for one lane. -/
theorem slot_room (layout : Layout) (bsize : BSize) (effective : Effective bsize) :
    ∀ id < layout.rozofsForward,
      get128bitsPsizes layout bsize id + 1 ≤ slotLanes layout bsize ∧
      laneCols layout bsize + (layout.rozofsInverse - 1) * (getAnglesP layout id).natAbs ≤
        slotLanes layout bsize + 1 := by
  rcases effective with rfl | rfl <;> cases layout <;> decide

theorem block_lanes (layout : Layout) (bsize : BSize) (effective : Effective bsize) :
    layout.rozofsInverse * laneCols layout bsize = bsize.bytes / 16 := by
  rcases effective with rfl | rfl <;> cases layout <;> decide

theorem lanes_wide (layout : Layout) (bsize : BSize) : 32 ≤ laneCols layout bsize := by
  cases bsize <;> cases layout <;> decide

theorem two_rows (layout : Layout) : 2 ≤ layout.rozofsInverse := by
  cases layout <;> decide

theorem getAnglesP_eq (layout : Layout) (id : Nat) (known : id < layout.rozofsForward) :
    getAnglesP layout id = id - (layout.rozofsForward / 2 : Nat) := by
  simp [getAnglesP,Layout.rozofsAngles,Nat.not_le.mpr known]

/-- Numbers in decreasing order leave room on both sides of each row. -/
theorem decreasing_room (rows bound : Nat) (q : Nat → Int) (known : ∀ i, i < rows → 0 ≤ q i ∧ q i < bound)
    (decreasing : ∀ i j, i < j → j < rows → q j < q i) (l : Nat) (row : l < rows) :
    q l + l < bound ∧ rows ≤ q l + l + 1 := by
  constructor
  · induction l with
    | zero => simpa using (known 0 row).2
    | succ l ih =>
      have previous := ih (by omega)
      have step := decreasing l (l + 1) (by omega) row
      push_cast
      omega
  · obtain ⟨d,last⟩ := Nat.exists_eq_add_of_lt row
    induction d generalizing l with
    | zero =>
      have low := (known l row).1
      omega
    | succ d ih =>
      have next := ih (l + 1) (by omega) (by omega)
      have step := decreasing l (l + 1) (by omega) (by omega)
      push_cast at next
      omega

/-- Whatever the selection, the rows start their columns well before the last one. -/
theorem kMax_lt (layout : Layout) (bsize : BSize) (p : Nat → Int)
    (room : ∀ l, l < layout.rozofsInverse →
      p l + (layout.rozofsForward / 2 : Nat) + l < layout.rozofsForward ∧
      (layout.rozofsInverse : Int) ≤ p l + (layout.rozofsForward / 2 : Nat) + l + 1) :
    kMax layout.rozofsInverse p + 1 < laneCols layout bsize := by
  have wide := lanes_wide layout bsize
  have bound := kMax_le layout.rozofsInverse p (two_rows layout)
  have up : rise layout.rozofsInverse p ≤
      slopeSum (fun i => layout.rozofsForward - 1 - (layout.rozofsForward / 2 : Nat) - i)
        (layout.rozofsInverse - 1) := by
    apply slopeSum_le
    intro i _ inside
    have := (room i (by have := two_rows layout; omega)).1
    omega
  have down : fall layout.rozofsInverse p ≤
      slopeSum (fun i => (layout.rozofsForward / 2 : Nat) + i + 1 - layout.rozofsInverse)
        (layout.rozofsInverse - 1) := by
    apply slopeSum_le
    intro i _ inside
    have := (room i (by have := two_rows layout; omega)).2
    omega
  have limits : slopeSum (fun i => layout.rozofsForward - 1 - (layout.rozofsForward / 2 : Nat) - i)
        (layout.rozofsInverse - 1) ≤ 10 ∧
      slopeSum (fun i => (layout.rozofsForward / 2 : Nat) + i + 1 - layout.rozofsInverse)
        (layout.rozofsInverse - 1) ≤ 21 := by
    cases layout <;> decide
  omega

/-- Projection `id` of a block, as the forward transform leaves it. -/
def blockProjection (layout : Layout) (bsize : BSize) (bins : Nat → Buffer) (block : Buffer) (id : Nat) :
    Projection where
  angle := ⟨getAnglesP layout id,getAnglesQ layout id⟩
  size := get128bitsPsizes layout bsize id
  bins := forwardBins block layout.rozofsInverse (laneCols layout bsize)
    ⟨⟨getAnglesP layout id,getAnglesQ layout id⟩,get128bitsPsizes layout bsize id,bins id⟩

theorem forwardBlock_get (layout : Layout) (bsize : BSize) (bins : Nat → Buffer) (block : Buffer) (id : Nat)
    (known : id < layout.rozofsForward) :
    (forwardBlock layout bsize bins block)[id]? = some (blockProjection layout bsize bins block id) := by
  simp [forwardBlock,transform128Forward,forwardProjections,known]
  rfl

theorem select_eq (selection : Selection layout) (bsize : BSize) (bins : Nat → Buffer) (block : Buffer) :
    selection.select (forwardBlock layout bsize bins block) =
      selection.ids.map (blockProjection layout bsize bins block) := by
  rw [Selection.select,← List.filterMap_eq_map]
  apply List.filterMap_congr
  intro id member
  exact forwardBlock_get layout bsize bins block id (selection.known id member)

section Table
variable {layout : Layout} (bsize : BSize) (selection : Selection layout) (bins : Nat → Buffer) (block : Buffer)

/-- The projection table of the inverse transform after `qsort`. -/
def sortedTable : List LocalProjection :=
  sortSlopes (localProjections (slotLanes layout bsize) 0
    (selection.ids.map (blockProjection layout bsize bins block)))

/-- Row `l` of the table is a selected projection: its position in the selection gives its
slot, and its id gives its angle. -/
structure RowOf (l j id : Nat) : Prop where
  entry : (sortedTable bsize selection bins block).getD l default =
    ⟨⟨getAnglesP layout id,getAnglesQ layout id⟩,j * slotLanes layout bsize⟩
  chosen : selection.ids[j]? = some id
  known : id < layout.rozofsForward

theorem length_sortedTable : (sortedTable bsize selection bins block).length = layout.rozofsInverse := by
  rw [sortedTable,sortSlopes,List.length_mergeSort,length_localProjections,List.length_map,selection.enough]

theorem exists_rowOf (l : Nat) (row : l < layout.rozofsInverse) :
    ∃ j id, RowOf bsize selection bins block l j id := by
  have bound : l < (sortedTable bsize selection bins block).length := by rwa [length_sortedTable]
  have member : (sortedTable bsize selection bins block).getD l default ∈ sortedTable bsize selection bins block := by
    rw [List.getD_eq_getElem _ _ bound]
    exact List.getElem_mem bound
  rw [sortedTable,sortSlopes,List.mem_mergeSort,mem_localProjections] at member
  obtain ⟨j,p,found,entry⟩ := member
  rw [List.getElem?_map,Option.map_eq_some_iff] at found
  obtain ⟨id,chosen,rfl⟩ := found
  refine ⟨j,id,?_,chosen,selection.known id (List.mem_of_getElem? chosen)⟩
  simpa [blockProjection,sortedTable,sortSlopes] using entry

theorem sortedTable_angles_nodup : ((sortedTable bsize selection bins block).map fun x => x.angle.p).Nodup := by
  have same : ((sortedTable bsize selection bins block).map fun x => x.angle.p).Perm
      (selection.ids.map (getAnglesP layout)) := by
    refine ((List.mergeSort_perm _ _).map _).trans (List.Perm.of_eq ?_)
    have angles := congrArg (List.map Angle.p) (@angles_localProjections (slotLanes layout bsize)
      (selection.ids.map (blockProjection layout bsize bins block)) 0)
    simpa [Function.comp_def,blockProjection] using angles
  rw [same.nodup_iff]
  refine selection.distinct.map_on fun a left b right eq => ?_
  rw [getAnglesP_eq layout a (selection.known a left),getAnglesP_eq layout b (selection.known b right)] at eq
  omega

theorem RowOf.slope_eq {bsize : BSize} {selection : Selection layout} {bins : Nat → Buffer} {block : Buffer}
    {l j id : Nat} (rowOf : RowOf bsize selection bins block l j id) :
    slope ((sortedTable bsize selection bins block).getD l default) = getAnglesP layout id := by
  rw [rowOf.entry]
  simp [slope,getAnglesQ,Layout.rozofsAngles,Nat.not_le.mpr rowOf.known]

/-- Distinct ids have distinct angles, so the sorted angles strictly decrease. -/
theorem sortedTable_descending (i j : Nat) (before : i < j) (row : j < layout.rozofsInverse) :
    ((sortedTable bsize selection bins block).getD j default).angle.p <
      ((sortedTable bsize selection bins block).getD i default).angle.p := by
  have length := length_sortedTable bsize selection bins block
  have sorted : (sortedTable bsize selection bins block).Pairwise fun a b => slope b ≤ slope a :=
    sortSlopes_pairwise _
  have ordered := List.pairwise_iff_getElem.mp sorted i j (by omega) (by omega) before
  have apart := List.pairwise_iff_getElem.mp (sortedTable_angles_nodup bsize selection bins block) i j
    (by rw [List.length_map]; omega) (by rw [List.length_map]; omega) before
  obtain ⟨_,_,rowI⟩ := exists_rowOf bsize selection bins block i (by omega)
  obtain ⟨_,_,rowJ⟩ := exists_rowOf bsize selection bins block j row
  rw [← List.getD_eq_getElem _ default,← List.getD_eq_getElem _ default,rowI.slope_eq,rowJ.slope_eq,
    Rat.intCast_le_intCast] at ordered
  rw [List.getElem_map,List.getElem_map,← List.getD_eq_getElem _ default,← List.getD_eq_getElem _ default,
    rowI.entry,rowJ.entry] at apart
  rw [rowI.entry,rowJ.entry]
  exact lt_of_le_of_ne ordered apart.symm

/-- Angle of a row of the sorted table. -/
def rowAngle (l : Nat) : Int := ((sortedTable bsize selection bins block).getD l default).angle.p

theorem RowOf.rowAngle_eq {bsize : BSize} {selection : Selection layout} {bins : Nat → Buffer}
    {block : Buffer} {l j id : Nat} (rowOf : RowOf bsize selection bins block l j id) :
    rowAngle bsize selection bins block l = id - (layout.rozofsForward / 2 : Nat) := by
  rw [rowAngle,rowOf.entry]
  exact getAnglesP_eq layout id rowOf.known

theorem rowAngle_room (l : Nat) (row : l < layout.rozofsInverse) :
    rowAngle bsize selection bins block l + (layout.rozofsForward / 2 : Nat) + l < layout.rozofsForward ∧
      (layout.rozofsInverse : Int) ≤
        rowAngle bsize selection bins block l + (layout.rozofsForward / 2 : Nat) + l + 1 := by
  refine decreasing_room layout.rozofsInverse layout.rozofsForward
    (fun i => rowAngle bsize selection bins block i + (layout.rozofsForward / 2 : Nat)) ?_ ?_ l row
  · intro i inside
    obtain ⟨j,id,rowOf⟩ := exists_rowOf bsize selection bins block i inside
    have known := rowOf.known
    rw [rowOf.rowAngle_eq]
    omega
  · intro i j before inside
    have step := sortedTable_descending bsize selection bins block i j before inside
    simp only [rowAngle]
    omega

end Table

/-- Index of a bin in its slot. -/
def slotIndex (rows : Nat) (p : Int) (x : Pixel) : Int := line p x - offset rows p

/-- A bin index counts the steps of the slope from the row at which the projection starts. -/
theorem slotIndex_eq (rows : Nat) (p : Int) (x : Pixel) (row : x.1 < rows) :
    ∃ steps : Nat, slotIndex rows p x = x.2 + steps * p.natAbs ∧ steps < rows ∧
      (if p < 0 then steps + x.1 + 1 = rows else steps = x.1) := by
  simp only [slotIndex,line,offset]
  split
  · rename_i negative
    refine ⟨rows - 1 - x.1,?_,by omega,by omega⟩
    rw [Int.ofNat_natAbs_of_nonpos (by omega),Nat.cast_sub (by omega),Nat.cast_sub (by omega)]
    push_cast
    ring
  · refine ⟨x.1,?_,row,rfl⟩
    rw [Int.natAbs_of_nonneg (by omega)]
    ring

/-- The truncated size contains every bin that a row of the sorted table reads. -/
theorem slotIndex_lt_size (layout : Layout) (bsize : BSize) (effective : Effective bsize) (l id : Nat) (c : Int)
    (row : l < layout.rozofsInverse) (above : id + l < layout.rozofsForward)
    (below : layout.rozofsInverse ≤ id + l + 1) (right : c < laneCols layout bsize) :
    slotIndex layout.rozofsInverse (getAnglesP layout id) (l,c) < get128bitsPsizes layout bsize id := by
  obtain ⟨steps,index,_,start⟩ := slotIndex_eq layout.rozofsInverse (getAnglesP layout id) (l,c) row
  rw [index,eff_size layout bsize effective id (by omega)]
  rw [getAnglesP_eq layout id (by omega)] at start ⊢
  split
  · rename_i lower
    rw [if_pos (by omega)] at start
    have bound : steps * (layout.rozofsForward / 2 - id) ≤ id * (layout.rozofsForward / 2 - id) :=
      Nat.mul_le_mul_right _ (by omega)
    rw [show ((id : Int) - (layout.rozofsForward / 2 : Nat)).natAbs = layout.rozofsForward / 2 - id by omega]
    rw [Nat.mul_comm id] at bound
    zify at bound
    push_cast
    omega
  · rename_i upper
    rw [if_neg (by omega)] at start
    have bound : steps * (id - layout.rozofsForward / 2) ≤
        (layout.rozofsForward - 1 - id) * (id - layout.rozofsForward / 2) :=
      Nat.mul_le_mul_right _ (by simp only at start; omega)
    rw [show ((id : Int) - (layout.rozofsForward / 2 : Nat)).natAbs = id - layout.rozofsForward / 2 by omega]
    rw [Nat.mul_comm (layout.rozofsForward - 1 - id)] at bound
    zify at bound
    push_cast
    omega

section Blocks
variable {layout : Layout} (bsize : BSize) (selection : Selection layout) (bins : Nat → Buffer) (block : Buffer)

theorem rowOf_binIndex {l j id : Nat} (rowOf : RowOf bsize selection bins block l j id) (x : Pixel) :
    binIndex layout.rozofsInverse ((sortedTable bsize selection bins block).getD l default) x.1 x.2 =
      j * slotLanes layout bsize + slotIndex layout.rozofsInverse (getAnglesP layout id) x := by
  rw [rowOf.entry]
  rfl

theorem kMax_rowAngle :
    kMax layout.rozofsInverse (rowAngle bsize selection bins block) + 1 < laneCols layout bsize :=
  kMax_lt layout bsize _ (rowAngle_room bsize selection bins block)

/-- Rows of the table are in different slots. -/
theorem slots_apart {i l j j' id id' : Nat} (rowI : RowOf bsize selection bins block i j id)
    (rowL : RowOf bsize selection bins block l j' id') (insideI : i < layout.rozofsInverse)
    (insideL : l < layout.rozofsInverse) (apart : i ≠ l) : j ≠ j' := by
  rintro rfl
  obtain rfl : id = id' := Option.some.inj (rowI.chosen.symm.trans rowL.chosen)
  have same : rowAngle bsize selection bins block i = rowAngle bsize selection bins block l :=
    rowI.rowAngle_eq.trans rowL.rowAngle_eq.symm
  simp only [rowAngle] at same
  rcases Nat.lt_or_gt_of_ne apart with before | after
  · have := sortedTable_descending bsize selection bins block i l before insideL
    omega
  · have := sortedTable_descending bsize selection bins block l i after insideI
    omega

/-- An update may leave its slot by one lane only, and it does so in the last column, which
the path reaches after every first column has been read. -/
theorem updates_apart (effective : Effective bsize) (x y : Pixel)
    (insideX : x ∈ grid layout.rozofsInverse (laneCols layout bsize))
    (insideY : y ∈ grid layout.rozofsInverse (laneCols layout bsize))
    (earlier : Earlier (kOffset layout.rozofsInverse (rowAngle bsize selection bins block)) y x)
    (i : Nat) (row : i < layout.rozofsInverse) (apart : i ≠ x.1) :
    binIndex layout.rozofsInverse ((sortedTable bsize selection bins block).getD i default) y.1 y.2 ≠
      binIndex layout.rozofsInverse ((sortedTable bsize selection bins block).getD x.1 default) x.1 x.2 := by
  obtain ⟨l,c⟩ := x
  obtain ⟨rowX,leftX,rightX⟩ := mem_grid.mp insideX
  obtain ⟨rowY,leftY,rightY⟩ := mem_grid.mp insideY
  obtain ⟨j,id,rowI⟩ := exists_rowOf bsize selection bins block i row
  obtain ⟨j',id',rowL⟩ := exists_rowOf bsize selection bins block l rowX
  have slots := slots_apart bsize selection bins block rowI rowL row rowX apart
  have room := rowAngle_room bsize selection bins block l rowX
  rw [rowL.rowAngle_eq] at room
  have read := slotIndex_lt_size layout bsize effective l id' c rowX (by omega) (by omega) rightX
  have short := (slot_room layout bsize effective id' rowL.known).1
  have long : (laneCols layout bsize : Int) + (layout.rozofsInverse - 1 : Nat) * (getAnglesP layout id).natAbs ≤
      slotLanes layout bsize + 1 := by exact_mod_cast (slot_room layout bsize effective id rowI.known).2
  obtain ⟨steps,index,few,_⟩ := slotIndex_eq layout.rozofsInverse (getAnglesP layout id) y rowY
  obtain ⟨steps',index',_,_⟩ := slotIndex_eq layout.rozofsInverse (getAnglesP layout id') (l,c) rowX
  rw [rowOf_binIndex bsize selection bins block rowI,rowOf_binIndex bsize selection bins block rowL]
  have update : (steps : Int) * (getAnglesP layout id).natAbs ≤
      (layout.rozofsInverse - 1 : Nat) * (getAnglesP layout id).natAbs :=
    Int.mul_le_mul_of_nonneg_right (by omega) (by omega)
  have first : 0 ≤ (steps' : Int) * (getAnglesP layout id').natAbs := Int.mul_nonneg (by omega) (by omega)
  intro clash
  rcases Nat.lt_or_gt_of_ne slots with before | after
  · have slot : ((j : Int) + 1) * slotLanes layout bsize ≤ j' * slotLanes layout bsize :=
      Int.mul_le_mul_of_nonneg_right (by omega) (by omega)
    rw [Int.add_mul] at slot
    -- The clash forces the update to column `cols - 1` and the read to column 0.
    have high : kOffset layout.rozofsInverse (rowAngle bsize selection bins block) y.1 + 1 <
        laneCols layout bsize := by
      have reach := kMax_rowAngle bsize selection bins block
      have wide : kMax layout.rozofsInverse (rowAngle bsize selection bins block) ≤ laneCols layout bsize := by omega
      have bound := (path layout.rozofsInverse (laneCols layout bsize) _ (two_rows layout)
        (sortedTable_descending bsize selection bins block) wide).high y.1 rowY
      exact lt_of_le_of_lt (Int.add_le_add_right bound 1) reach
    have low := kOffset_nonneg layout.rozofsInverse (rowAngle bsize selection bins block) (two_rows layout) l rowX
    simp only [Earlier] at earlier
    omega
  · have slot : ((j' : Int) + 1) * slotLanes layout bsize ≤ j * slotLanes layout bsize :=
      Int.mul_le_mul_of_nonneg_right (by omega) (by omega)
    rw [Int.add_mul] at slot
    have start : 0 ≤ (steps : Int) * (getAnglesP layout id).natAbs := Int.mul_nonneg (by omega) (by omega)
    omega

/-- The private copy of truncated projections still offers every bin the inverse reads. -/
theorem copied_readable (effective : Effective bsize) (stack : Buffer) :
    Readable layout.rozofsInverse (laneCols layout bsize)
      (fun l => (sortedTable bsize selection bins block).getD l default) block
      (copyBins (slotLanes layout bsize) 0
        (selection.ids.map (blockProjection layout bsize bins block)) stack) := by
  constructor
  · intro l c row left right
    obtain ⟨j,id,rowOf⟩ := exists_rowOf bsize selection bins block l row
    have room := rowAngle_room bsize selection bins block l row
    rw [rowOf.rowAngle_eq] at room
    have first : 0 ≤ slotIndex layout.rozofsInverse (getAnglesP layout id) (l,c) := by
      obtain ⟨steps,index,_⟩ := slotIndex_eq layout.rozofsInverse (getAnglesP layout id) (l,c) row
      have run : 0 ≤ (steps : Int) * (getAnglesP layout id).natAbs := Int.mul_nonneg (by omega) (by omega)
      simp only at index
      omega
    have last := slotIndex_lt_size layout bsize effective l id c row (by omega) (by omega) right
    have short := (slot_room layout bsize effective id rowOf.known).1
    have copied := copyBins_slot (p := blockProjection layout bsize bins block id) 0 stack
      (by rw [List.getElem?_map,rowOf.chosen]; rfl) first last
      (show slotIndex layout.rozofsInverse (getAnglesP layout id) (l,c) < slotLanes layout bsize by omega)
    rw [rowOf_binIndex bsize selection bins block rowOf (l,c),rowOf.entry]
    rw [Int.zero_add] at copied
    rw [copied]
    simp only [blockProjection]
    rw [forwardBins_apply _ _ _ _ _ first last]
    congr 1
    simp only [slotIndex]
    omega
  · exact updates_apart bsize selection bins block effective

/-- The inverse transform of projections of one block rebuilds the block. -/
theorem inverseBlock_blockProjection (effective : Effective bsize) (data stack : Buffer) (i : Int) :
    inverseBlock layout bsize data stack (selection.ids.map (blockProjection layout bsize bins block)) i =
      if 0 ≤ i ∧ i < (bsize.bytes / 16 : Nat) then block i else data i := by
  have wide : kMax layout.rozofsInverse (rowAngle bsize selection bins block) ≤ laneCols layout bsize := by
    have := kMax_rowAngle bsize selection bins block
    omega
  have support := reconstruct_support layout.rozofsInverse (laneCols layout bsize)
    (sortedTable bsize selection bins block) block
    ⟨data,copyBins (slotLanes layout bsize) 0
      (selection.ids.map (blockProjection layout bsize bins block)) stack⟩
    (two_rows layout) (sortedTable_descending bsize selection bins block) wide
    (copied_readable bsize selection bins block effective stack) i
  rw [← block_lanes layout bsize effective,Nat.cast_mul]
  exact support

theorem localProjections_size (maxPrjSz dst : Int) (f : Nat → Projection) (sizes : Nat → Nat) (ids : List Nat) :
    localProjections maxPrjSz dst (ids.map fun id => { f id with size := sizes id }) =
      localProjections maxPrjSz dst (ids.map f) := by
  induction ids generalizing dst with
  | nil => rfl
  | cons id rest ih => simp only [List.map_cons,localProjections,ih]

/-- The inverse transform may copy more than the projections: what it copies beyond them is in
the way of no bin it reads. -/
theorem inverseBlock_wide (effective : Effective bsize) (sizes : Nat → Nat)
    (enough : ∀ id ∈ selection.ids, get128bitsPsizes layout bsize id ≤ sizes id) (data stack : Buffer) (i : Int) :
    inverseBlock layout bsize data stack
      (selection.ids.map fun id => { blockProjection layout bsize bins block id with size := sizes id }) i =
      if 0 ≤ i ∧ i < (bsize.bytes / 16 : Nat) then block i else data i := by
  rw [← inverseBlock_blockProjection bsize selection bins block effective data
    (copyBins (slotLanes layout bsize) 0
      (selection.ids.map fun id => { blockProjection layout bsize bins block id with size := sizes id }) stack) i]
  have again : copyBins (slotLanes layout bsize) 0 (selection.ids.map (blockProjection layout bsize bins block))
      (copyBins (slotLanes layout bsize) 0
        (selection.ids.map fun id => { blockProjection layout bsize bins block id with size := sizes id }) stack) =
      copyBins (slotLanes layout bsize) 0
        (selection.ids.map fun id => { blockProjection layout bsize bins block id with size := sizes id }) stack := by
    apply copyBins_again
    intro j p a found first last
    obtain ⟨id,chosen,rfl⟩ := Option.map_eq_some_iff.mp (List.getElem?_map.symm.trans found)
    have member : id ∈ selection.ids := List.mem_of_getElem? chosen
    have wide := enough id member
    have short := (slot_room layout bsize effective id (selection.known id member)).1
    have small : a < get128bitsPsizes layout bsize id := last
    exact copyBins_slot (p := { blockProjection layout bsize bins block id with size := sizes id }) 0 stack
      (by rw [List.getElem?_map,chosen]; rfl) first (show a < sizes id by omega) (by omega)
  simp only [inverseBlock,transform128InverseCopy,localProjections_size]
  rw [← slotLanes,again]

/-- Forward then inverse transform of a block: whatever projections are read back, in whatever
order, the block is rebuilt and nothing around it is written. -/
theorem inverseBlock_forwardBlock (effective : Effective bsize) (data stack : Buffer) (i : Int) :
    inverseBlock layout bsize data stack (selection.select (forwardBlock layout bsize bins block)) i =
      if 0 ≤ i ∧ i < (bsize.bytes / 16 : Nat) then block i else data i := by
  rw [select_eq]
  exact inverseBlock_blockProjection bsize selection bins block effective data stack i

end Blocks

/-- Projections 2 and 0 of a 2/3/4 layout, in that order. -/
def firstAndLast : Selection .layout_2_3_4 where
  ids := [2,0]
  distinct := by decide
  enough := rfl
  known := by decide

theorem inverseBlock_forwardBlock_two :
    Effective .bsize4K ∧
    inverseBlock .layout_2_3_4 .bsize4K (fun _ => 7) (fun _ => 9)
      (firstAndLast.select (forwardBlock .layout_2_3_4 .bsize4K (fun _ _ => 3)
        (fun i => BitVec.ofInt 128 (i * i + 1)))) 12 = 145 :=
  ⟨.inl rfl,inverseBlock_forwardBlock .bsize4K firstAndLast (fun _ _ => 3)
    (fun i => BitVec.ofInt 128 (i * i + 1)) (.inl rfl) (fun _ => 7) (fun _ => 9) 12⟩

end Rozofs.Mojette
