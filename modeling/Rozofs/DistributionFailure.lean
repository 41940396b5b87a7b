import Rozofs.DistributionSpread

/-! Why a distribution in a cluster fails, and what it leaves then. -/
namespace Rozofs.Distribution
open Spreading

section Sorting
variable {α : Type} {cmp : α → α → Int}

/-- A list whose elements are all in order is not changed. -/
theorem mergePass_ordered (insize fuel : Nat) (list : List α) (ordered : ∀ a ∈ list, ∀ b ∈ list, cmp a b ≤ 0) :
    (mergePass cmp insize fuel list).1 = list := by
  induction fuel generalizing list with
  | zero => rfl
  | succ fuel ih =>
    cases list with
    | nil => rfl
    | cons a rest =>
      have inside : ∀ n, ∀ b ∈ (a :: rest).drop n, b ∈ a :: rest := fun n b mem => List.mem_of_mem_drop mem
      have later := ih (((a :: rest).drop insize).drop insize) fun b mem c mem' =>
        ordered b (inside _ b (List.mem_of_mem_drop mem)) c (inside _ c (List.mem_of_mem_drop mem'))
      have merged : ((a :: rest).take insize).merge (((a :: rest).drop insize).take insize) (fun p q => cmp p q ≤ 0) =
          (a :: rest).take insize ++ ((a :: rest).drop insize).take insize := by
        apply List.merge_of_le
        intro b c mem mem'
        exact decide_eq_true (ordered b (List.mem_of_mem_take mem) c (inside _ c (List.mem_of_mem_take mem')))
      rw [mergePass]
      · simp only [merged,later]
        rw [List.append_assoc,List.take_append_drop,List.take_append_drop]
      · exact List.cons_ne_nil _ _

theorem sortLoop_ordered (fuel insize : Nat) (list : List α) (ordered : ∀ a ∈ list, ∀ b ∈ list, cmp a b ≤ 0) :
    sortLoop cmp fuel insize list = list := by
  induction fuel generalizing insize with
  | zero => rfl
  | succ fuel ih =>
    have merged := mergePass_ordered insize list.length list ordered
    rw [sortLoop]
    dsimp only
    rw [merged]
    split
    · rfl
    · exact ih (2 * insize)

theorem listSort_ordered (list : List α) (ordered : ∀ a ∈ list, ∀ b ∈ list, cmp a b ≤ 0) : listSort cmp list = list := by
  unfold listSort
  split
  case isTrue empty => exact empty.symm
  case isFalse => exact sortLoop_ordered _ _ list ordered

end Sorting

section Strict
variable {multiSite : Bool} {storages ls : List Storage} {sel : Selection} {rounds wanted : Nat} {part : Part} {vs : Storage} {layout : Layout}

/-- A storage without the counts of its selections. -/
def Storage.uncounted (vs : Storage) : Storage := { vs with inverseCounter := 0, forwardCounter := 0, spareCounter := 0 }

theorem count_uncounted (part : Part) (weight : Nat) (vs : Storage) : (part.count weight vs).uncounted = vs.uncounted := by
  cases part <;> rfl

theorem scan_uncounted (part : Part) (multiSite : Bool) (wanted : Nat) (ls : List Storage) (sel : Selection) :
    (scan part multiSite wanted ls sel).1.map Storage.uncounted = ls.map Storage.uncounted := by
  induction ls generalizing sel with
  | nil => rfl
  | cons vs rest ih =>
    rw [scan]
    split
    case isTrue => exact congrArg (vs.uncounted :: ·) (ih sel)
    case isFalse =>
      split
      case isTrue => exact congrArg (vs.uncounted :: ·) (ih _)
      case isFalse =>
        have same := count_uncounted part sel.weight vs
        dsimp only
        split
        case isTrue => rw [List.map_cons,List.map_cons,same]
        case isFalse => rw [List.map_cons,List.map_cons,same,ih]

theorem phase_uncounted (part : Part) (multiSite : Bool) (wanted loops : Nat) (ls : List Storage) (sel : Selection) :
    (phase part multiSite wanted loops ls sel).1.map Storage.uncounted = ls.map Storage.uncounted := by
  induction loops generalizing ls sel with
  | zero => rfl
  | succ loops ih =>
    have scanned := scan_uncounted part multiSite wanted ls sel
    rw [phase]
    rcases result : scan part multiSite wanted ls sel with ⟨ls',sel',done⟩
    rw [result] at scanned
    cases done with
    | true => exact scanned
    | false =>
      dsimp only
      split
      case isTrue => exact scanned
      case isFalse => exact (ih _ _).trans scanned

/-- The strict rule changes the order of the storages and their counts, nothing else. -/
theorem strict_uncounted (layout : Layout) (multiSite : Bool) (storages : List Storage) :
    ((strictRoundRobin layout multiSite storages).1.map Storage.uncounted).Perm (storages.map Storage.uncounted) := by
  have step : ∀ part wanted cmp (ls : List Storage) sel, (ls.map Storage.uncounted).Perm (storages.map Storage.uncounted) →
      ((phase part multiSite wanted 4 (listSort cmp ls) sel).1.map Storage.uncounted).Perm (storages.map Storage.uncounted) := by
    intro part wanted cmp ls sel perm
    rw [phase_uncounted]
    exact ((listSort_perm cmp ls).map _).trans perm
  have first := step .inverse layout.rozofsInverse compareInverse storages ⟨0,0,[],0,0⟩ (.refl _)
  unfold strictRoundRobin
  rcases inverse : phase .inverse multiSite layout.rozofsInverse 4 (listSort compareInverse storages) ⟨0,0,[],0,0⟩ with ⟨ls1,sel1,done1⟩
  rw [inverse] at first
  cases done1 with
  | false => exact first
  | true =>
    have second := step .forward layout.rozofsForward compareForward ls1 sel1 first
    dsimp only
    rcases forward : phase .forward multiSite layout.rozofsForward 4 (listSort compareForward ls1) sel1 with ⟨ls2,sel2,done2⟩
    rw [forward] at second
    cases done2 with
    | false => exact second
    | true =>
      have third := step .spare layout.rozofsSafe compareSpare ls2 { sel2 with weight := layout.rozofsSafe - layout.rozofsForward } second
      dsimp only
      rcases spare : phase .spare multiSite layout.rozofsSafe 4 (listSort compareSpare ls2)
        { sel2 with weight := layout.rozofsSafe - layout.rozofsForward } with ⟨ls3,sel3,done3⟩
      rw [spare] at third
      cases done3 <;> exact third

/-- A loop that does not find enough storages has taken each one, or found its location used. -/
structure ShortScan (wanted : Nat) (ls : List Storage) (sel sel' : Selection) : Prop where
  few : sel'.sids.length < wanted
  counted : sel.sids.length + sel.locationCollision + ls.countP (fun vs => vs.sid ∉ sel.sids) ≤ sel'.sids.length + sel'.locationCollision

theorem scan_short (part : Part) (wanted : Nat) (ls : List Storage) (distinct : (ls.map Storage.sid).Nodup)
    (known : ∀ vs ∈ ls, vs.sid ∈ sidSet storages ∧ place 256 multiSite storages vs.sid = location multiSite vs % 256) {sel : Selection}
    (chosen : Chosen multiSite storages sel rounds) (few : sel.sids.length < wanted)
    (notFound : (scan part multiSite wanted ls sel).2.2 = false) :
    ShortScan wanted ls sel (scan part multiSite wanted ls sel).2.1 := by
  induction ls generalizing sel with
  | nil => exact ⟨few,Nat.le_refl _⟩
  | cons vs rest ih =>
    obtain ⟨first,later⟩ := List.forall_mem_cons.mp known
    obtain ⟨absent,distinct⟩ := List.nodup_cons.mp distinct
    rw [scan] at notFound ⊢
    split
    case isTrue taken =>
      rw [if_pos taken] at notFound
      have short := ih distinct later chosen few notFound
      rw [test_sid,chosen.marked,decide_eq_true_eq] at taken
      refine ⟨short.few,?_⟩
      rw [List.countP_cons_of_neg (by simpa using taken)]
      exact short.counted
    case isFalse left =>
      rw [if_neg left] at notFound
      have unselected := left
      rw [test_sid,chosen.marked,decide_eq_true_eq] at unselected
      split
      case isTrue collision =>
        rw [if_pos collision] at notFound
        have moved : Chosen multiSite storages { sel with locationCollision := sel.locationCollision + 1 } rounds :=
          ⟨chosen.nodup,chosen.marked,chosen.rounds⟩
        have short := ih distinct later moved few notFound
        refine ⟨short.few,Nat.le_trans ?_ short.counted⟩
        rw [List.countP_cons_of_pos (by simpa using unselected)]
        dsimp only
        omega
      case isFalse free =>
        rw [if_neg free] at notFound
        have took := chosen.take part first (Bool.eq_false_iff.mpr left) (Bool.eq_false_iff.mpr free)
        have length : (sel.take part multiSite vs).sids.length = sel.sids.length + 1 := by simp [Selection.take]
        dsimp only at notFound ⊢
        split
        case isTrue enough =>
          rw [if_pos enough] at notFound
          cases notFound
        case isFalse more =>
          rw [if_neg more] at notFound
          have short := ih distinct later took (by omega) notFound
          have same : rest.countP (fun other => other.sid ∉ (sel.take part multiSite vs).sids) = rest.countP fun other => other.sid ∉ sel.sids := by
            apply List.countP_congr
            intro other mem
            have differ : other.sid ≠ vs.sid := fun same => absent (same ▸ List.mem_map_of_mem mem)
            simp [Selection.take,differ]
          have collision : (sel.take part multiSite vs).locationCollision = sel.locationCollision := rfl
          refine ⟨short.few,Nat.le_trans ?_ short.counted⟩
          rw [List.countP_cons_of_pos (by simpa using unselected),same]
          omega

end Strict

section Reach
variable {w rounds wanted passes : Nat} {multiSite : Bool} {storages ls : List Storage} {sel : Selection} {part : Part} {layout : Layout}

/-- The storages that so many passes can take, when a pass takes at most one at each location. -/
def reachable (passes : Nat) (multiSite : Bool) (storages : List Storage) : Nat :=
  ∑ p ∈ (storages.map (location multiSite)).toFinset, min passes (storages.countP fun vs => location multiSite vs = p)

theorem reach_place (distinct : (storages.map Storage.sid).Nodup) (unaliased : Unaliased w multiSite storages) (passes : Nat) :
    reach (place w multiSite storages) (sidSet storages) passes = reachable passes multiSite storages := by
  have places : (sidSet storages).image (place w multiSite storages) = (storages.map (location multiSite)).toFinset.image (· % w) := by
    ext p
    simp only [Finset.mem_image,List.mem_toFinset,List.mem_map]
    constructor
    · rintro ⟨sid,mem,rfl⟩
      obtain ⟨vs,inList,rfl⟩ := mem_sidSet.mp mem
      exact ⟨_,⟨vs,inList,rfl⟩,(place_eq distinct inList).symm⟩
    · rintro ⟨_,⟨vs,inList,rfl⟩,rfl⟩
      exact ⟨vs.sid,mem_sidSet.mpr ⟨vs,inList,rfl⟩,place_eq distinct inList⟩
  have apart : Set.InjOn (· % w) ((storages.map (location multiSite)).toFinset : Set Nat) := by
    intro p mem p' mem' same
    obtain ⟨vs,inList,rfl⟩ := List.mem_map.mp (List.mem_toFinset.mp mem)
    obtain ⟨vs',inList',rfl⟩ := List.mem_map.mp (List.mem_toFinset.mp mem')
    exact unaliased vs inList vs' inList' same
  unfold reach reachable
  rw [places,Finset.sum_image apart]
  apply Finset.sum_congr rfl
  intro p mem
  obtain ⟨vs,inList,rfl⟩ := List.mem_map.mp (List.mem_toFinset.mp mem)
  have all : sidSet storages = (storages.map Storage.sid).toFinset := rfl
  rw [all,load_place distinct (Finset.Subset.refl _)]
  congr 1
  apply List.countP_congr
  intro vs' inList'
  simp only [decide_eq_true_eq]
  constructor
  · exact fun here => unaliased vs' inList' vs inList here.2
  · exact fun same => ⟨List.mem_map_of_mem inList',congrArg (· % w) same⟩

theorem reachable_le (distinct : (storages.map Storage.sid).Nodup) (unaliased : Unaliased w multiSite storages) (passes : Nat) :
    reachable passes multiSite storages ≤ storages.length := by
  rw [← reach_place distinct unaliased]
  apply (reach_le_card _ _ _).trans
  exact (List.toFinset_card_le _).trans_eq (List.length_map _)

/-- Passes that are over have taken all the storages that they can. -/
theorem Chosen.reachable_le (chosen : Chosen multiSite storages sel rounds) (distinct : (storages.map Storage.sid).Nodup)
    (enough : passes ≤ rounds) : reachable passes multiSite storages ≤ sel.sids.length := by
  rw [← reach_place distinct unaliased_strict]
  apply (chosen.rounds.reach_le enough).trans
  exact List.toFinset_card_le _

/-- The elements of a list are among others or not. -/
theorem length_le_countP {α : Type} [DecidableEq α] {xs : List α} (nodup : xs.Nodup) (ys : List α) :
    xs.length ≤ ys.length + xs.countP (fun x => x ∉ ys) := by
  have inside : xs.filter (fun x => x ∈ ys) ⊆ ys := fun x mem => by simpa using (List.mem_filter.mp mem).2
  have common := ((nodup.filter fun x => x ∈ ys).subperm inside).length_le
  rw [← List.countP_eq_length_filter] at common
  have split : xs.length = xs.countP (fun x => x ∈ ys) + xs.countP fun x => ¬decide (x ∈ ys) = true :=
    List.length_eq_countP_add_countP _
  simp only [decide_eq_true_eq] at split
  omega

/-- The loops for a part that do not find enough storages: the list has not so many at locations that can be taken. -/
theorem phase_short (part : Part) (wanted : Nat) (distinct : (storages.map Storage.sid).Nodup) (loops : Nat) {ls : List Storage}
    {sel : Selection} {rounds : Nat} (perm : (ls.map (key multiSite)).Perm (storages.map (key multiSite)))
    (chosen : Chosen multiSite storages sel rounds) (few : sel.sids.length < wanted)
    (failed : (phase part multiSite wanted loops ls sel).2.2 = false) (enough : passes ≤ rounds + loops) :
    reachable passes multiSite storages < wanted := by
  induction loops generalizing ls sel rounds with
  | zero => exact Nat.lt_of_le_of_lt (chosen.reachable_le distinct enough) few
  | succ loops ih =>
    have known : ∀ vs ∈ ls, _ := fun vs mem => known_of_perm distinct perm mem
    have sidPerm : (ls.map Storage.sid).Perm (storages.map Storage.sid) := by
      have sids := perm.map Prod.fst
      rwa [List.map_map,List.map_map] at sids
    have distinct' := sidPerm.nodup_iff.mpr distinct
    have scanned := scan_spec part wanted ls known chosen
    have short := scan_short part wanted ls distinct' known chosen few
    rw [phase] at failed
    rcases result : scan part multiSite wanted ls sel with ⟨ls',sel',done⟩
    rw [result] at scanned short failed
    cases done with
    | true => cases failed
    | false =>
      have short := short rfl
      dsimp only at failed
      split at failed
      case isTrue less =>
        have length : ls.length = storages.length := by simpa using sidPerm.length_eq
        have counted := short.counted
        have listed := length_le_countP distinct' sel.sids
        rw [List.length_map,List.countP_map] at listed
        have bound := reachable_le distinct (@unaliased_strict multiSite storages) passes
        dsimp only [Function.comp_def] at counted listed
        omega
      case isFalse =>
        exact ih (scanned.keys ▸ perm) (scanned.next distinct perm rfl) short.few failed (by omega)

theorem layout_order (layout : Layout) :
    0 < layout.rozofsInverse ∧ layout.rozofsInverse < layout.rozofsForward ∧ layout.rozofsForward < layout.rozofsSafe ∧ layout.rozofsSafe ≤ 16 := by
  cases layout <;> decide

/-- The strict rule fails only when four passes cannot reach enough storages. -/
theorem strict_short (distinct : (storages.map Storage.sid).Nodup) (failed : (strictRoundRobin layout multiSite storages).2 = none) :
    reachable 4 multiSite storages < layout.rozofsSafe := by
  have start : Chosen multiSite storages ⟨0,0,[],0,0⟩ 0 := chosen_start
  obtain ⟨positive,inverseForward,forwardSafe,_⟩ := layout_order layout
  unfold strictRoundRobin at failed
  have sorted := sorted_perm (.refl (storages.map (key multiSite))) compareInverse
  have first := phase_spec .inverse layout.rozofsInverse distinct 4 sorted start
  have short := @phase_short 4 multiSite storages .inverse layout.rozofsInverse distinct 4 _ _ 0 sorted start positive
  rcases inverse : phase .inverse multiSite layout.rozofsInverse 4 (listSort compareInverse storages) ⟨0,0,[],0,0⟩ with ⟨ls1,sel1,done1⟩
  rw [inverse] at first short failed
  cases done1 with
  | false => exact Nat.lt_trans (short rfl (Nat.le_refl _)) (Nat.lt_trans inverseForward forwardSafe)
  | true =>
    obtain ⟨⟨rounds1,chosen1⟩,keys1,found1⟩ := first
    have sorted := sorted_perm keys1 compareForward
    have few : sel1.sids.length < layout.rozofsForward := (found1 rfl).trans_lt inverseForward
    have second := phase_spec .forward layout.rozofsForward distinct 4 sorted chosen1
    have short := @phase_short 4 multiSite storages .forward layout.rozofsForward distinct 4 _ _ rounds1 sorted chosen1 few
    dsimp only at failed second short
    rcases forward : phase .forward multiSite layout.rozofsForward 4 (listSort compareForward ls1) sel1 with ⟨ls2,sel2,done2⟩
    rw [forward] at second short failed
    cases done2 with
    | false => exact Nat.lt_trans (short rfl (Nat.le_add_left _ _)) forwardSafe
    | true =>
      obtain ⟨⟨rounds2,chosen2⟩,keys2,found2⟩ := second
      have sorted := sorted_perm keys2 compareSpare
      have weighted : Chosen multiSite storages { sel2 with weight := layout.rozofsSafe - layout.rozofsForward } rounds2 :=
        ⟨chosen2.nodup,chosen2.marked,chosen2.rounds⟩
      have few : sel2.sids.length < layout.rozofsSafe := (found2 rfl).trans_lt forwardSafe
      have short := @phase_short 4 multiSite storages .spare layout.rozofsSafe distinct 4 _ _ rounds2 sorted weighted few
      dsimp only at failed short
      rcases spare : phase .spare multiSite layout.rozofsSafe 4 (listSort compareSpare ls2)
        { sel2 with weight := layout.rozofsSafe - layout.rozofsForward } with ⟨ls3,sel3,done3⟩
      rw [spare] at short failed
      cases done3 with
      | false => exact short rfl (Nat.le_add_left _ _)
      | true => cases failed

end Reach

section Weighted
variable {passes rounds safe idx : Nat} {multiSite : Bool} {storages ls : List Storage} {taking : Taking} {vs : Storage} {layout : Layout}

/-- What the loops of the two rules by size take, before the storages with free space are counted. -/
def takes (layout : Layout) (multiSite : Bool) (storages : List Storage) : Nat → Taking → Option Taking
  | 0, _ => none
  | loops + 1, taking =>
    match takeScan multiSite layout.rozofsSafe 0 storages { taking with locationMask := 0, locationCollision := 0 } with
    | (taking,true) => some taking
    | (taking,false) =>
      if taking.selected.length + taking.locationCollision < layout.rozofsSafe then none
      else takes layout multiSite storages loops taking

/-- A storage is up and has free space. -/
def Storage.available (vs : Storage) : Bool := vs.status ≠ 0 ∧ vs.free ≠ 0

/-- The places of the storages that are up with free space. -/
def availableCount (storages : List Storage) (selected : List Nat) : Nat :=
  selected.countP fun place => storages[place]?.any Storage.available

theorem takeLoop_eq (layout : Layout) (multiSite : Bool) (storages : List Storage) (loops : Nat) (taking : Taking) :
    takeLoop layout multiSite storages loops taking =
      (takes layout multiSite storages loops taking).filter fun taking => layout.rozofsForward ≤ taking.msOk.toNat := by
  induction loops generalizing taking with
  | zero => rfl
  | succ loops ih =>
    rw [takeLoop,takes]
    rcases takeScan multiSite layout.rozofsSafe 0 storages { taking with locationMask := 0, locationCollision := 0 } with ⟨next,found⟩
    cases found with
    | true =>
      by_cases few : next.msOk.toNat < layout.rozofsForward
      · simp [Option.filter,few]
      · simp [Option.filter,few,Nat.le_of_not_lt few]
    | false =>
      dsimp only
      split
      · rfl
      · exact ih next

/-- The count of the storages that are up with free space, and the number of storages so far. -/
structure Counted (storages : List Storage) (safe : Nat) (taking : Taking) : Prop where
  available : taking.msOk = BitVec.ofNat 8 (availableCount storages taking.selected)
  few : taking.selected.length < safe

theorem available_take (here : storages[idx]? = some vs) (available : taking.msOk = BitVec.ofNat 8 (availableCount storages taking.selected)) :
    (taking.take multiSite idx vs).msOk = BitVec.ofNat 8 (availableCount storages (taking.take multiSite idx vs).selected) := by
  unfold Taking.take availableCount at *
  rw [List.countP_append,available]
  by_cases up : vs.status ≠ 0 ∧ vs.free ≠ 0
  · have counted : Storage.available vs = true := decide_eq_true up
    rw [if_pos up]
    simp [here,counted,BitVec.ofNat_add]
  · have counted : Storage.available vs = false := decide_eq_false up
    rw [if_neg up]
    simp [here,counted]

/-- A loop counts the storages that are up with free space; when it does not find enough storages, it has taken each
one that is left or found its location used. -/
theorem takeScan_counts (ls : List Storage) {idx : Nat} (rest : storages.drop idx = ls) {taking : Taking}
    (counted : Counted storages safe taking) :
    (takeScan multiSite safe idx ls taking).1.msOk =
      BitVec.ofNat 8 (availableCount storages (takeScan multiSite safe idx ls taking).1.selected) ∧
    ((takeScan multiSite safe idx ls taking).2 = true → (takeScan multiSite safe idx ls taking).1.selected.length = safe) ∧
    ((takeScan multiSite safe idx ls taking).2 = false → (takeScan multiSite safe idx ls taking).1.selected.length < safe) := by
  induction ls generalizing idx taking with
  | nil => exact ⟨counted.available,by simp [takeScan],fun _ => counted.few⟩
  | cons vs ls ih =>
    have at_ : storages[idx]? = some vs := by rw [← List.head?_drop,rest,List.head?_cons]
    have rest' : storages.drop (idx + 1) = ls := by rw [← List.tail_drop,rest,List.tail_cons]
    rw [takeScan]
    split
    case isTrue => exact ih rest' counted
    case isFalse =>
      split
      case isTrue => exact ih rest' ⟨counted.available,counted.few⟩
      case isFalse =>
        have available := @available_take idx multiSite storages taking vs at_ counted.available
        have length : (taking.take multiSite idx vs).selected.length = taking.selected.length + 1 := by simp [Taking.take]
        have few := counted.few
        dsimp only
        split
        case isTrue enough => exact ⟨available,fun _ => enough.symm,fun found => by cases found⟩
        case isFalse more => exact ih rest' ⟨available,by omega⟩

/-- The loops that find enough storages. -/
theorem takes_counts (loops : Nat) {taking taking' : Taking} (counted : Counted storages layout.rozofsSafe taking)
    (took : takes layout multiSite storages loops taking = some taking') :
    taking'.msOk = BitVec.ofNat 8 (availableCount storages taking'.selected) ∧ taking'.selected.length = layout.rozofsSafe := by
  induction loops generalizing taking with
  | zero => cases took
  | succ loops ih =>
    obtain ⟨available,enough,few⟩ := @takeScan_counts layout.rozofsSafe multiSite storages storages 0 List.drop_zero
      { taking with locationMask := 0, locationCollision := 0 } ⟨counted.available,counted.few⟩
    rw [takes] at took
    rcases result : takeScan multiSite layout.rozofsSafe 0 storages { taking with locationMask := 0, locationCollision := 0 } with ⟨next,found⟩
    rw [result] at took available enough few
    cases found with
    | true =>
      cases took
      exact ⟨available,enough rfl⟩
    | false =>
      dsimp only at took
      split at took
      · cases took
      · exact ih ⟨available,few rfl⟩ took

/-- A loop over a list that fits in the mask, without enough storages, has taken each place or found its location used. -/
theorem takeScan_left (short : storages.length ≤ 64) (ls : List Storage) {idx : Nat} (rest : storages.drop idx = ls) {taking : Taking}
    (marked : ∀ place < 64, taking.sidTaken.getLsbD place = decide (place ∈ taking.selected))
    (notFound : (takeScan multiSite safe idx ls taking).2 = false) :
    taking.selected.length + taking.locationCollision + (List.range' idx ls.length).countP (fun place => place ∉ taking.selected) ≤
      (takeScan multiSite safe idx ls taking).1.selected.length + (takeScan multiSite safe idx ls taking).1.locationCollision := by
  induction ls generalizing idx taking with
  | nil => exact Nat.le_refl _
  | cons vs ls ih =>
    have at_ : storages[idx]? = some vs := by rw [← List.head?_drop,rest,List.head?_cons]
    have rest' : storages.drop (idx + 1) = ls := by rw [← List.tail_drop,rest,List.tail_cons]
    have low : idx < 64 := Nat.lt_of_lt_of_le (List.getElem?_eq_some_iff.mp at_).1 short
    rw [List.length_cons,List.range'_succ]
    rw [takeScan,test,Nat.mod_eq_of_lt low,marked idx low] at notFound ⊢
    split
    case isTrue mem =>
      rw [if_pos mem] at notFound
      rw [decide_eq_true_eq] at mem
      rw [List.countP_cons_of_neg (by simpa using mem)]
      exact ih rest' marked notFound
    case isFalse left =>
      rw [if_neg left] at notFound
      rw [decide_eq_true_eq] at left
      rw [List.countP_cons_of_pos (by simpa using left)]
      split
      case isTrue collision =>
        rw [if_pos collision] at notFound
        refine Nat.le_trans ?_ (ih rest' marked notFound)
        dsimp only
        omega
      case isFalse free =>
        rw [if_neg free] at notFound
        dsimp only at notFound ⊢
        split
        case isTrue enough =>
          rw [if_pos enough] at notFound
          cases notFound
        case isFalse more =>
          rw [if_neg more] at notFound
          refine Nat.le_trans ?_ (ih rest' (take_marked marked low) notFound)
          have length : (taking.take multiSite idx vs).selected.length = taking.selected.length + 1 := by simp [Taking.take]
          have collision : (taking.take multiSite idx vs).locationCollision = taking.locationCollision := rfl
          have same : (List.range' (idx + 1) ls.length).countP (fun place => place ∉ (taking.take multiSite idx vs).selected) =
              (List.range' (idx + 1) ls.length).countP fun place => place ∉ taking.selected := by
            apply List.countP_congr
            intro place mem
            have differ : place ≠ idx := Nat.ne_of_gt (List.mem_range'_1.mp mem).1
            simp [Taking.take,differ]
          omega

theorem Taken.reachable_le (taken : Taken multiSite storages taking rounds) (distinct : (storages.map Storage.sid).Nodup)
    (unaliased : Unaliased 64 multiSite storages) (enough : passes ≤ rounds) :
    reachable passes multiSite storages ≤ taking.selected.length := by
  rw [← reach_place distinct unaliased]
  apply (taken.rounds.reach_le enough).trans
  exact (List.toFinset_card_le _).trans_eq (sidsOf_length taken.inside)

/-- The loops that do not find enough storages in a list that fits in the masks. -/
theorem takes_short (distinct : (storages.map Storage.sid).Nodup) (short : storages.length ≤ 64) (unaliased : Unaliased 64 multiSite storages)
    (loops : Nat) {taking : Taking} {rounds : Nat} (taken : Taken multiSite storages { taking with locationMask := 0, locationCollision := 0 } rounds)
    (counted : Counted storages layout.rozofsSafe taking) (failed : takes layout multiSite storages loops taking = none)
    (enough : passes ≤ rounds + loops) : reachable passes multiSite storages < layout.rozofsSafe := by
  induction loops generalizing taking rounds with
  | zero => exact Nat.lt_of_le_of_lt (taken.reachable_le distinct unaliased enough) counted.few
  | succ loops ih =>
    have scanned := takeScan_spec layout.rozofsSafe distinct short storages List.drop_zero taken
    obtain ⟨available,_,few⟩ := @takeScan_counts layout.rozofsSafe multiSite storages storages 0 List.drop_zero
      { taking with locationMask := 0, locationCollision := 0 } ⟨counted.available,counted.few⟩
    have left := @takeScan_left layout.rozofsSafe multiSite storages short storages 0 List.drop_zero _ taken.marked
    rw [takes] at failed
    rcases result : takeScan multiSite layout.rozofsSafe 0 storages { taking with locationMask := 0, locationCollision := 0 } with ⟨next,found⟩
    rw [result] at scanned failed available few left
    cases found with
    | true => cases failed
    | false =>
      dsimp only at failed
      split at failed
      case isTrue less =>
        have listed := length_le_countP (List.nodup_range' (s := 0) (n := storages.length)) taking.selected
        have bound := Distribution.reachable_le distinct unaliased passes
        have counts := left rfl
        rw [List.length_range'] at listed
        dsimp only at counts
        omega
      case isFalse => exact ih (scanned.next distinct rfl) ⟨available,few rfl⟩ failed (by omega)

/-- The two rules by size fail on a list that fits in the masks only when eight passes cannot reach enough storages,
or when too few of the storages that they take are up with free space. -/
theorem takeLoop_failed (distinct : (storages.map Storage.sid).Nodup) (fits : Fits layout multiSite storages)
    (failed : takeLoop layout multiSite storages 8 ⟨0,0,0,0,[]⟩ = none) :
    reachable 8 multiSite storages < layout.rozofsSafe ∨ ∃ taking, takes layout multiSite storages 8 ⟨0,0,0,0,[]⟩ = some taking ∧
      availableCount storages taking.selected < layout.rozofsForward := by
  obtain ⟨_,_,_,small⟩ := layout_order layout
  have counted : Counted storages layout.rozofsSafe ⟨0,0,0,0,[]⟩ := ⟨rfl,by cases layout <;> decide⟩
  cases took : takes layout multiSite storages 8 ⟨0,0,0,0,[]⟩ with
  | none =>
    rcases fits with enough | ⟨short,unaliased⟩
    · -- the first pass would have found them
      have start : First multiSite storages 0 ⟨0,0,0,0,[]⟩ := first_start
      obtain ⟨taking,scanned,_⟩ := firstScan_spec distinct enough storages List.drop_zero (Nat.zero_le _) start counted.few
      rw [takes,scanned] at took
      cases took
    · exact .inl (takes_short distinct short unaliased 8 taken_start counted took (Nat.le_add_left _ _))
  | some taking =>
    obtain ⟨available,length⟩ := takes_counts 8 counted took
    have bound : availableCount storages taking.selected ≤ taking.selected.length := List.countP_le_length
    rw [takeLoop_eq,took] at failed
    have few : taking.msOk.toNat < layout.rozofsForward := by simpa [Option.filter] using failed
    rw [available,BitVec.toNat_ofNat,Nat.mod_eq_of_lt (by omega)] at few
    exact .inr ⟨taking,rfl,few⟩

theorem decrease_le (decreaseSize : Nat) (vs : Storage) : (decrease decreaseSize vs).free ≤ vs.free := by
  unfold decrease
  split
  · exact Nat.le_refl _
  · split
    · exact Nat.sub_le _ _
    · split
      · exact Nat.sub_le _ _
      · split
        · exact Nat.sub_le _ _
        · exact Nat.div_le_self _ _

theorem modify_free (decreaseSize place : Nat) (storages : List Storage) :
    ((storages.modify place (decrease decreaseSize)).map Storage.free).sum ≤ (storages.map Storage.free).sum := by
  induction storages generalizing place with
  | nil => simp
  | cons vs rest ih =>
    cases place with
    | zero => simpa using decrease_le decreaseSize vs
    | succ place => simpa using ih place

theorem decreased_free (layout : Layout) (allocEstimatedMb : Nat) (places : List (Nat × Nat)) (storages : List Storage) :
    ((places.foldl (fun storages (place,idx) => storages.modify place (decrease (decreaseSize layout allocEstimatedMb idx))) storages).map
      Storage.free).sum ≤ (storages.map Storage.free).sum := by
  induction places generalizing storages with
  | nil => exact Nat.le_refl _
  | cons place rest ih => exact (ih _).trans (modify_free _ _ _)

/-- The storages that a distribution leaves, in an order that does not matter for the free size of the cluster. -/
theorem takeBySize_sum {allocEstimatedMb : Nat} (done : takeLoop layout multiSite storages 8 ⟨0,0,0,0,[]⟩ = some taking) :
    ((takeBySize allocEstimatedMb layout multiSite storages).1.map Storage.free).sum =
      ((taking.selected.zipIdx.foldl (fun storages (place,idx) =>
        storages.modify place (decrease (decreaseSize layout allocEstimatedMb idx))) storages).map Storage.free).sum := by
  unfold takeBySize
  rw [done]
  exact ((listSort_perm _ _).map Storage.free).sum_eq

theorem takeBySize_free (allocEstimatedMb : Nat) (layout : Layout) (multiSite : Bool) (storages : List Storage) :
    ((takeBySize allocEstimatedMb layout multiSite storages).1.map Storage.free).sum ≤ (storages.map Storage.free).sum := by
  cases done : takeLoop layout multiSite storages 8 ⟨0,0,0,0,[]⟩ with
  | none =>
    rw [takeBySize,done]
  | some taking =>
    rw [takeBySize_sum done]
    exact decreased_free _ _ _ _

end Weighted

section Rules
variable {rule : Rule} {allocEstimatedMb siteIdx : Nat} {layout : Layout} {cluster cluster' : Cluster} {multiSite : Bool}

/-- What a failure leaves of a cluster: the free sizes, and under the rules by size everything. -/
structure Kept (rule : Rule) (cluster cluster' : Cluster) : Prop where
  free : cluster'.free = cluster.free
  storages : ∀ site, ((cluster'.storages site).map Storage.uncounted).Perm ((cluster.storages site).map Storage.uncounted)
  bySize : rule ≠ .strictRoundRobin → cluster' = cluster

/-- Why a distribution fails on the storages of a site. A list that does not fit in the masks of the rules by size
is left out. -/
def Justified (rule : Rule) (layout : Layout) (multiSite : Bool) (storages : List Storage) : Prop :=
  match rule with
  | .strictRoundRobin => reachable 4 multiSite storages < layout.rozofsSafe
  | _ => Fits layout multiSite storages → reachable 8 multiSite storages < layout.rozofsSafe ∨
      ∃ taking, takes layout multiSite storages 8 ⟨0,0,0,0,[]⟩ = some taking ∧ availableCount storages taking.selected < layout.rozofsForward

theorem setStorages_self (cluster : Cluster) (siteIdx : Nat) : cluster.setStorages siteIdx (cluster.storages siteIdx) = cluster := by
  unfold Cluster.setStorages
  congr 1
  funext site
  by_cases here : site = siteIdx
  · rw [if_pos here,here]
  · rw [if_neg here]

/-- A failure under the rules by size: the search has not changed anything. -/
theorem takeBySize_failed (distinct : ((cluster.storages siteIdx).map Storage.sid).Nodup) {storages : List Storage}
    (failed : takeBySize allocEstimatedMb layout multiSite (cluster.storages siteIdx) = (storages,none)) :
    cluster.setStorages siteIdx storages = cluster ∧
    (Fits layout multiSite (cluster.storages siteIdx) → reachable 8 multiSite (cluster.storages siteIdx) < layout.rozofsSafe ∨
      ∃ taking, takes layout multiSite (cluster.storages siteIdx) 8 ⟨0,0,0,0,[]⟩ = some taking ∧
        availableCount (cluster.storages siteIdx) taking.selected < layout.rozofsForward) := by
  unfold takeBySize at failed
  cases done : takeLoop layout multiSite (cluster.storages siteIdx) 8 ⟨0,0,0,0,[]⟩ with
  | none =>
    rw [done] at failed
    cases failed
    exact ⟨setStorages_self cluster siteIdx,fun fits => takeLoop_failed distinct fits done⟩
  | some taking =>
    rw [done] at failed
    cases failed

/-- A distribution that fails in a cluster. -/
theorem doClusterDistribute_failed (distinct : ((cluster.storages siteIdx).map Storage.sid).Nodup)
    (failed : doClusterDistribute allocEstimatedMb layout siteIdx cluster multiSite rule = (cluster',none)) :
    Kept rule cluster cluster' ∧ Justified rule layout multiSite (cluster.storages siteIdx) := by
  cases rule with
  | strictRoundRobin =>
    simp only [doClusterDistribute,doClusterDistributeStrictRoundRobin,Prod.mk.injEq] at failed
    obtain ⟨rfl,failed⟩ := failed
    refine ⟨⟨rfl,fun site => ?_,fun bySize => absurd rfl bySize⟩,strict_short distinct failed⟩
    dsimp only [Cluster.setStorages]
    split
    case isTrue here =>
      subst here
      exact strict_uncounted layout multiSite _
    case isFalse => exact .refl _
  | weightedRoundRobin =>
    simp only [doClusterDistribute,doClusterDistributeWeightedRoundRobin,Prod.mk.injEq] at failed
    obtain ⟨rfl,failed⟩ := failed
    have taken : takeBySize allocEstimatedMb layout multiSite (cluster.storages siteIdx) = (_,none) := Prod.ext rfl failed
    obtain ⟨same,justified⟩ := takeBySize_failed distinct taken
    rw [same]
    exact ⟨⟨rfl,fun _ => .refl _,fun _ => rfl⟩,justified⟩
  | sizeBalancing =>
    simp only [doClusterDistribute,doClusterDistributeSizeBalancing] at failed
    rcases taken : takeBySize allocEstimatedMb layout multiSite (cluster.storages siteIdx) with ⟨storages,sids⟩
    rw [taken] at failed
    cases sids with
    | some sids => cases failed
    | none =>
      cases failed
      obtain ⟨same,justified⟩ := takeBySize_failed distinct taken
      rw [same]
      exact ⟨⟨rfl,fun _ => .refl _,fun _ => rfl⟩,justified⟩

/-- The free size of a cluster after a distribution by size balancing. -/
theorem sizeBalancing_sum {sids : List (BitVec 8)}
    (done : doClusterDistribute allocEstimatedMb layout siteIdx cluster multiSite .sizeBalancing = (cluster',some sids)) :
    cluster'.free = ((takeBySize allocEstimatedMb layout multiSite (cluster.storages siteIdx)).1.map Storage.free).sum % 2 ^ 64 := by
  simp only [doClusterDistribute,doClusterDistributeSizeBalancing] at done
  rcases taken : takeBySize allocEstimatedMb layout multiSite (cluster.storages siteIdx) with ⟨storages,sids'⟩
  rw [taken] at done
  cases sids' with
  | none => cases done
  | some sids' =>
    cases done
    rfl

theorem sizeBalancing_free {sids : List (BitVec 8)}
    (done : doClusterDistribute allocEstimatedMb layout siteIdx cluster multiSite .sizeBalancing = (cluster',some sids)) :
    cluster'.free ≤ ((cluster.storages siteIdx).map Storage.free).sum := by
  rw [sizeBalancing_sum done]
  exact (Nat.mod_le _ _).trans (takeBySize_free _ _ _ _)

end Rules

end Rozofs.Distribution
