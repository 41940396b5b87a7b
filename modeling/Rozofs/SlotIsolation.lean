import Rozofs.MojetteRoundTrip

/-! Where `transform128_inverse_copy` writes in its private buffer. Each projection is copied in a slot of
its own, whose size is that of the largest projection plus 512 bytes; the updates of a projection
address its bins by row and column, and may leave the slot. -/
namespace Rozofs.Mojette
open MojettePath

/-- The pixels that the three loops rebuild, in order. -/
def rebuilt (rows cols : Nat) (projections : List LocalProjection) : List Pixel :=
  let p := fun i => (projections.getD i default).angle.p
  let k := kMax rows p
  scan rows (kOffset rows p) (fun c => decide (0 ≤ c)) (-k) 0 ++
    (scan rows (kOffset rows p) (fun _ => true) 0 (cols - k) ++
      scan rows (kOffset rows p) (fun c => decide (c < cols)) (cols - k) cols)

/-- The updates that follow a pixel: the projection that is updated, and the lane. -/
def pixelUpdates (rows : Nat) (table : Nat → LocalProjection) (x : Pixel) : List (LocalProjection × Int) :=
  ((List.range rows).filter fun i => i ≠ x.1).map fun i => (table i,binIndex rows (table i) x.1 x.2)

/-- All the updates of the three loops. -/
def updates (rows cols : Nat) (projections : List LocalProjection) : List (LocalProjection × Int) :=
  (rebuilt rows cols projections).flatMap (pixelUpdates rows fun i => projections.getD i default)

/-- A pixel changes the private bins by its updates. -/
theorem rebuildPixel_bins (rows cols : Nat) (table : Nat → LocalProjection) (x : Pixel) (s : Rebuild) :
    (rebuildPixel rows cols table x.1 x.2 s).bins =
      (pixelUpdates rows table x).foldl (fun b u => xor128 b u.2 (s.bins (binIndex rows (table x.1) x.1 x.2))) s.bins := by
  simp only [rebuildPixel,pixelUpdates,List.foldl_map,List.foldl_filter]
  congr 1
  funext b i
  by_cases own : i = x.1
  · simp [own]
  · simp [own]

theorem scanColumns_eq_foldl (rows cols : Nat) (table : Nat → LocalProjection) (kOffsets : Nat → Int) (keep : Int → Bool)
    (start stop : Int) (s : Rebuild) : scanColumns rows cols table kOffsets keep start stop s =
      (scan rows kOffsets keep start stop).foldl (fun s x => rebuildPixel rows cols table x.1 x.2 s) s := by
  simp only [scanColumns,scan,intRange,List.foldl_flatMap,List.foldl_map,List.foldl_filter]

/-- The three loops rebuild those pixels, one after the other. -/
theorem reconstruct_eq_foldl (rows cols : Nat) (projections : List LocalProjection) (s : Rebuild) :
    reconstruct rows cols projections s =
      (rebuilt rows cols projections).foldl (fun s x => rebuildPixel rows cols (fun i => projections.getD i default) x.1 x.2 s) s := by
  simp only [reconstruct,rebuilt,scanColumns_eq_foldl,List.foldl_append]

/-- A lane that no update addresses keeps its bin. -/
theorem reconstruct_frame (rows cols : Nat) (projections : List LocalProjection) (s : Rebuild) (a : Int)
    (away : ∀ u ∈ updates rows cols projections, u.2 ≠ a) : (reconstruct rows cols projections s).bins a = s.bins a := by
  have kept : ∀ (us : List (LocalProjection × Int)) (v : Lane) (b : Buffer), (∀ u ∈ us, u.2 ≠ a) →
      us.foldl (fun b u => xor128 b u.2 v) b a = b a := by
    intro us v b apart
    induction us generalizing b with
    | nil => rfl
    | cons u us ih =>
      rw [List.foldl_cons,ih _ fun u' member => apart u' (List.mem_cons_of_mem _ member),xor128,
        if_neg (Ne.symm (apart u List.mem_cons_self))]
  rw [reconstruct_eq_foldl]
  rw [updates] at away
  generalize rebuilt rows cols projections = pixels at away
  induction pixels generalizing s with
  | nil => rfl
  | cons x pixels ih =>
    rw [List.flatMap_cons] at away
    rw [List.foldl_cons,ih _ fun u member => away u (List.mem_append_right _ member),rebuildPixel_bins]
    exact kept _ _ _ fun u member => away u (List.mem_append_left _ member)

/-- The projection contexts that `rozofs_storcli_transform_inverse` prepares for a block. -/
def inverseProjections (layout : Layout) (bsize : BSize) (selection : Selection layout) (bins : Nat → Buffer) : List Projection :=
  selection.ids.map fun id => ⟨⟨getAnglesP layout id,getAnglesQ layout id⟩,get128bitsPsizes layout bsize id,bins id⟩

/-- The updates of `transform128_inverse_copy`, called as `transform128InverseCopy` is. -/
def copyUpdates (rows cols : Nat) (projections : List Projection) (maxPrjSzIntf : Nat) : List (LocalProjection × Int) :=
  updates rows (cols / 2) (sortSlopes (localProjections ((maxPrjSzIntf + 512) / 16 : Nat) 0 projections))

/-- Every update stays in the slot of the projection that it updates. -/
def Isolated (layout : Layout) (bsize : BSize) (projections : List Projection) : Prop :=
  ∀ u ∈ copyUpdates layout.rozofsInverse (blockCols layout bsize) projections (getMaxPsize layout bsize * 8),
    u.1.bins ≤ u.2 ∧ u.2 < u.1.bins + slotLanes layout bsize

section Slots
variable {layout : Layout} (bsize : BSize) (selection : Selection layout) (bins : Nat → Buffer)

/-- Angles and slots are those of the projections of any block. -/
theorem inverse_table (block : Buffer) :
    sortSlopes (localProjections ((getMaxPsize layout bsize * 8 + 512) / 16 : Nat) 0 (inverseProjections layout bsize selection bins)) =
      sortedTable bsize selection bins block := by
  have same : ∀ (ids : List Nat) (dst : Int), localProjections (slotLanes layout bsize) dst
      (ids.map fun id => (⟨⟨getAnglesP layout id,getAnglesQ layout id⟩,get128bitsPsizes layout bsize id,bins id⟩ : Projection)) =
      localProjections (slotLanes layout bsize) dst (ids.map (blockProjection layout bsize bins block)) := by
    intro ids
    induction ids with
    | nil => exact fun _ => rfl
    | cons id ids ih => exact fun dst => congrArg (List.cons _) (ih _)
  exact congrArg sortSlopes (same selection.ids 0)

/-- The loops rebuild every pixel of the block, and an update follows for each other row. -/
theorem mem_copyUpdates (block : Buffer) {u : LocalProjection × Int} :
    u ∈ copyUpdates layout.rozofsInverse (blockCols layout bsize) (inverseProjections layout bsize selection bins)
      (getMaxPsize layout bsize * 8) ↔
    ∃ (l : Nat) (c : Int) (i : Nat), l < layout.rozofsInverse ∧ 0 ≤ c ∧ c < laneCols layout bsize ∧ i < layout.rozofsInverse ∧ i ≠ l ∧
      u = ((sortedTable bsize selection bins block).getD i default,
        binIndex layout.rozofsInverse ((sortedTable bsize selection bins block).getD i default) l c) := by
  have wide : kMax layout.rozofsInverse (rowAngle bsize selection bins block) ≤ laneCols layout bsize := by
    have := kMax_rowAngle bsize selection bins block
    omega
  have pixels : ∀ l c, (l,c) ∈ rebuilt layout.rozofsInverse (laneCols layout bsize) (sortedTable bsize selection bins block) ↔
      l < layout.rozofsInverse ∧ 0 ≤ c ∧ c < laneCols layout bsize := by
    intro l c
    have whole : rebuilt layout.rozofsInverse (laneCols layout bsize) (sortedTable bsize selection bins block) =
        (path layout.rozofsInverse (laneCols layout bsize) _ (two_rows layout)
          (sortedTable_descending bsize selection bins block) wide).cells := by
      rw [← Path.scan_three]
      rfl
    rw [whole]
    exact Path.mem_cells _
  rw [copyUpdates,inverse_table bsize selection bins block,← laneCols,updates,List.mem_flatMap]
  constructor
  · rintro ⟨⟨l,c⟩,visited,member⟩
    obtain ⟨row,left,right⟩ := (pixels l c).mp visited
    simp only [pixelUpdates,List.mem_map,List.mem_filter,List.mem_range,decide_eq_true_eq] at member
    obtain ⟨i,⟨inside,other⟩,rfl⟩ := member
    exact ⟨l,c,i,row,left,right,inside,other,rfl⟩
  · rintro ⟨l,c,i,row,left,right,inside,other,rfl⟩
    refine ⟨(l,c),(pixels l c).mpr ⟨row,left,right⟩,?_⟩
    simp only [pixelUpdates,List.mem_map,List.mem_filter,List.mem_range,decide_eq_true_eq]
    exact ⟨i,⟨inside,other⟩,rfl⟩

/-- Every projection that is read has a row. -/
theorem exists_row (block : Buffer) {j id : Nat} (chosen : selection.ids[j]? = some id) :
    ∃ l < layout.rozofsInverse, RowOf bsize selection bins block l j id := by
  have known := selection.known id (List.mem_of_getElem? chosen)
  have member : (⟨⟨getAnglesP layout id,getAnglesQ layout id⟩,j * slotLanes layout bsize⟩ : LocalProjection) ∈
      sortedTable bsize selection bins block := by
    rw [sortedTable,sortSlopes,List.mem_mergeSort,mem_localProjections]
    refine ⟨j,blockProjection layout bsize bins block id,?_,?_⟩
    · rw [List.getElem?_map,chosen,Option.map_some]
    · rw [Int.zero_add]
      rfl
  obtain ⟨l,row,entry⟩ := List.mem_iff_getElem.mp member
  have bound := length_sortedTable bsize selection bins block
  exact ⟨l,by omega,⟨by rw [List.getD_eq_getElem _ _ row,entry],chosen,known⟩⟩

/-- The place of an update in the slot, for a row of the table. -/
theorem update_inside_iff (block : Buffer) {i j id : Nat} (rowOf : RowOf bsize selection bins block i j id) (l : Nat) (c : Int) :
    (((sortedTable bsize selection bins block).getD i default).bins ≤
        binIndex layout.rozofsInverse ((sortedTable bsize selection bins block).getD i default) l c ∧
      binIndex layout.rozofsInverse ((sortedTable bsize selection bins block).getD i default) l c <
        ((sortedTable bsize selection bins block).getD i default).bins + slotLanes layout bsize) ↔
    0 ≤ slotIndex layout.rozofsInverse (getAnglesP layout id) (l,c) ∧
      slotIndex layout.rozofsInverse (getAnglesP layout id) (l,c) < slotLanes layout bsize := by
  rw [rowOf_binIndex bsize selection bins block rowOf (l,c),rowOf.entry]
  simp only
  omega

end Slots

/-- The steepest projection is not among those that are read. -/
def Gentle {layout : Layout} (selection : Selection layout) : Prop := layout = .layout_8_12_16 → 0 ∉ selection.ids

instance {layout : Layout} (selection : Selection layout) : Decidable (Gentle selection) := inferInstanceAs (Decidable (_ → _))

/-- A slot has room for all the bins of a projection, but for the steepest one of the widest layout. -/
theorem slot_room_gentle (layout : Layout) (bsize : BSize) (effective : Effective bsize) :
    ∀ id < layout.rozofsForward, (layout = .layout_8_12_16 → id ≠ 0) →
      laneCols layout bsize + (layout.rozofsInverse - 1) * (getAnglesP layout id).natAbs ≤ slotLanes layout bsize := by
  rcases effective with rfl | rfl <;> cases layout <;> decide

/-- The last bin of the steepest projection is just after its slot. -/
theorem slot_steepest (bsize : BSize) (effective : Effective bsize) :
    laneCols .layout_8_12_16 bsize + 42 = slotLanes .layout_8_12_16 bsize + 1 := by
  rcases effective with rfl | rfl <;> decide

/-- Without effective sizes a slot has just the 512 bytes. -/
theorem slot_short (layout : Layout) (bsize : BSize) (large : ¬Effective bsize) : slotLanes layout bsize < laneCols layout bsize := by
  cases bsize with
  | bsize4K => exact absurd (.inl rfl) large
  | bsize8K => exact absurd (.inr rfl) large
  | bsize16K => cases layout <;> decide
  | bsize32K => cases layout <;> decide

section Isolation
variable {layout : Layout} {bsize : BSize} {selection : Selection layout} {bins : Nat → Buffer}

/-- Isolated updates of the last pixel of a row are before the end of the slot. -/
theorem Isolated.last (isolated : Isolated layout bsize (inverseProjections layout bsize selection bins)) (block : Buffer) {l i j id : Nat}
    (row : l < layout.rozofsInverse) (row' : i < layout.rozofsInverse) (other : i ≠ l) (rowOf : RowOf bsize selection bins block i j id) :
    slotIndex layout.rozofsInverse (getAnglesP layout id) (l,(laneCols layout bsize : Int) - 1) < slotLanes layout bsize := by
  have wide := lanes_wide layout bsize
  have stays := isolated _ ((mem_copyUpdates bsize selection bins block).mpr
    ⟨l,(laneCols layout bsize : Int) - 1,i,row,by omega,by omega,row',other,rfl⟩)
  exact ((update_inside_iff bsize selection bins block rowOf l _).mp stays).2

/-- The 512 bytes of a slot without an effective size are less than a row. -/
theorem Isolated.effective (isolated : Isolated layout bsize (inverseProjections layout bsize selection bins)) : Effective bsize := by
  have two := two_rows layout
  let block : Buffer := fun _ => 0
  by_contra large
  have short := slot_short layout bsize large
  obtain ⟨j,id,rowOf⟩ := exists_rowOf bsize selection bins block 0 (by omega)
  have update := isolated.last block (l := 1) (by omega) (by omega) (by omega) rowOf
  obtain ⟨steps,index,_⟩ := slotIndex_eq layout.rozofsInverse (getAnglesP layout id) (1,(laneCols layout bsize : Int) - 1) (by omega)
  have reach : 0 ≤ (steps : Int) * (getAnglesP layout id).natAbs := Int.mul_nonneg (by omega) (by omega)
  simp only at index
  omega

/-- The steepest projection is the last row of the table, so the first row updates it. -/
theorem Isolated.gentle (isolated : Isolated layout bsize (inverseProjections layout bsize selection bins)) : Gentle selection := by
  have effective := isolated.effective
  let block : Buffer := fun _ => 0
  rintro rfl chosen
  obtain ⟨j,found⟩ := List.mem_iff_getElem?.mp chosen
  obtain ⟨i,row,rowOf⟩ := exists_row bsize selection bins block found
  have room := (rowAngle_room bsize selection bins block i row).2
  rw [rowOf.rowAngle_eq] at room
  have last : i ≠ 0 := by
    rintro rfl
    exact absurd room (by decide)
  have update := isolated.last block (l := 0) (by omega) row last rowOf
  have full := slot_steepest bsize effective
  have place : slotIndex 8 (-6) (0,(laneCols .layout_8_12_16 bsize : Int) - 1) = laneCols .layout_8_12_16 bsize - 1 + 42 := by
    simp only [slotIndex,line,offset]
    omega
  have angle : getAnglesP .layout_8_12_16 0 = -6 := by decide
  rw [angle] at update
  have update : slotIndex 8 (-6) (0,(laneCols .layout_8_12_16 bsize : Int) - 1) < slotLanes .layout_8_12_16 bsize := update
  omega

theorem isolated_of_gentle (effective : Effective bsize) (gentle : Gentle selection) :
    Isolated layout bsize (inverseProjections layout bsize selection bins) := by
  intro u member
  let block : Buffer := fun _ => 0
  obtain ⟨l,c,i,row,left,right,row',other,rfl⟩ := (mem_copyUpdates bsize selection bins block).mp member
  obtain ⟨j,id,rowOf⟩ := exists_rowOf bsize selection bins block i row'
  have room := slot_room_gentle layout bsize effective id rowOf.known fun same zero =>
    gentle same (zero ▸ List.mem_of_getElem? rowOf.chosen)
  have room : (laneCols layout bsize : Int) + (layout.rozofsInverse - 1 : Nat) * (getAnglesP layout id).natAbs ≤ slotLanes layout bsize := by
    exact_mod_cast room
  obtain ⟨steps,index,few,_⟩ := slotIndex_eq layout.rozofsInverse (getAnglesP layout id) (l,c) row
  have first : 0 ≤ (steps : Int) * (getAnglesP layout id).natAbs := Int.mul_nonneg (by omega) (by omega)
  have last : (steps : Int) * (getAnglesP layout id).natAbs ≤ (layout.rozofsInverse - 1 : Nat) * (getAnglesP layout id).natAbs :=
    Int.mul_le_mul_of_nonneg_right (by omega) (by omega)
  simp only at index
  exact (update_inside_iff bsize selection bins block rowOf l c).mpr ⟨by omega,by omega⟩

/-- The loops do not leave the slots, one for each projection that is read. -/
theorem Isolated.frame (isolated : Isolated layout bsize (inverseProjections layout bsize selection bins)) (s : Rebuild) {a : Int}
    (outside : a < 0 ∨ layout.rozofsInverse * slotLanes layout bsize ≤ a) :
    (reconstruct layout.rozofsInverse (blockCols layout bsize / 2) (sortSlopes (localProjections
      ((getMaxPsize layout bsize * 8 + 512) / 16 : Nat) 0 (inverseProjections layout bsize selection bins))) s).bins a = s.bins a := by
  apply reconstruct_frame
  intro u member
  let block : Buffer := fun _ => 0
  obtain ⟨low,high⟩ := isolated u member
  obtain ⟨_,_,i,_,_,_,row,_,place⟩ := (mem_copyUpdates bsize selection bins block).mp member
  obtain ⟨j,id,rowOf⟩ := exists_rowOf bsize selection bins block i row
  have slot : u.1.bins = j * slotLanes layout bsize := by rw [place,rowOf.entry]
  obtain ⟨below,_⟩ := List.getElem?_eq_some_iff.mp rowOf.chosen
  rw [selection.enough] at below
  have last : (j + 1) * slotLanes layout bsize ≤ layout.rozofsInverse * slotLanes layout bsize := Nat.mul_le_mul_right _ below
  rw [Nat.succ_mul] at last
  rw [slot] at low high
  have first : 0 ≤ (j : Int) * slotLanes layout bsize := Int.mul_nonneg (by omega) (by omega)
  have last : (j : Int) * slotLanes layout bsize + slotLanes layout bsize ≤ layout.rozofsInverse * slotLanes layout bsize := by
    exact_mod_cast last
  rintro rfl
  omega

end Isolation

/-- The updates of `transform128_inverse_copy` stay in the slots exactly when the block size has effective
projection sizes and the projection of angle -6 of the 8/12/16 layout is not read; then no lane that is not in
a slot changes. -/
theorem slots_isolated_iff (layout : Layout) (bsize : BSize) (selection : Selection layout) (bins : Nat → Buffer) :
    (Isolated layout bsize (inverseProjections layout bsize selection bins) ↔ Effective bsize ∧ Gentle selection) ∧
    (Isolated layout bsize (inverseProjections layout bsize selection bins) → ∀ (s : Rebuild) (a : Int),
      a < 0 ∨ layout.rozofsInverse * slotLanes layout bsize ≤ a →
      (reconstruct layout.rozofsInverse (blockCols layout bsize / 2) (sortSlopes (localProjections
        ((getMaxPsize layout bsize * 8 + 512) / 16 : Nat) 0 (inverseProjections layout bsize selection bins))) s).bins a = s.bins a) := by
  refine ⟨⟨fun isolated => ⟨isolated.effective,isolated.gentle⟩,?_⟩,fun isolated s a outside => isolated.frame s outside⟩
  rintro ⟨effective,gentle⟩
  exact isolated_of_gentle effective gentle

/-- The first eight projections of the 8/12/16 layout, in order. -/
def firstEight : Selection .layout_8_12_16 where
  ids := [0,1,2,3,4,5,6,7]
  distinct := by decide
  enough := rfl
  known := by decide

/-- Projection 0, whose slot is the first one, is updated in the first lane of the slot of projection 1. -/
theorem update_in_next_slot :
    (∃ u ∈ copyUpdates 8 (blockCols .layout_8_12_16 .bsize4K) (inverseProjections .layout_8_12_16 .bsize4K firstEight fun _ _ => 0)
      (getMaxPsize .layout_8_12_16 .bsize4K * 8), u.1 = ⟨⟨-6,1⟩,0⟩ ∧ u.2 = 1 * slotLanes .layout_8_12_16 .bsize4K) ∧
      ¬Isolated .layout_8_12_16 .bsize4K (inverseProjections .layout_8_12_16 .bsize4K firstEight fun _ _ => 0) := by
  let bins : Nat → Buffer := fun _ _ => 0
  let block : Buffer := fun _ => 0
  have chosen : firstEight.ids[0]? = some 0 := by decide
  obtain ⟨i,row,rowOf⟩ := exists_row .bsize4K firstEight bins block chosen
  have room := (rowAngle_room .bsize4K firstEight bins block i row).2
  rw [rowOf.rowAngle_eq] at room
  have last : i ≠ 0 := by
    rintro rfl
    exact absurd room (by decide)
  have angle : getAnglesP .layout_8_12_16 0 = -6 := by decide
  have entry : (sortedTable .bsize4K firstEight bins block).getD i default = ⟨⟨-6,1⟩,0⟩ := by
    rw [rowOf.entry,angle]
    decide
  have place : binIndex 8 ⟨⟨-6,1⟩,0⟩ 0 31 = 1 * slotLanes .layout_8_12_16 .bsize4K := by decide
  have update := (mem_copyUpdates .bsize4K firstEight bins block).mpr
    ⟨0,31,i,by decide,by decide,by decide,row,last,rfl⟩
  rw [entry] at update
  have outside : ∃ u ∈ copyUpdates 8 (blockCols .layout_8_12_16 .bsize4K) (inverseProjections .layout_8_12_16 .bsize4K firstEight bins)
      (getMaxPsize .layout_8_12_16 .bsize4K * 8), u.1 = ⟨⟨-6,1⟩,0⟩ ∧ u.2 = 1 * slotLanes .layout_8_12_16 .bsize4K :=
    ⟨_,update,rfl,place⟩
  refine ⟨outside,?_⟩
  intro isolated
  obtain ⟨u,member,own,next⟩ := outside
  have inside := (isolated u member).2
  simp only [own,next] at inside
  omega

end Rozofs.Mojette
