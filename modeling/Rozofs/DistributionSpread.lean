import Mathlib.Data.List.Perm.Basic
import Mathlib.Data.List.Dedup
import Mathlib.Data.Finset.Dedup
import Rozofs.Distribution
import Rozofs.Spreading

/-! The storages of a distribution are different ones and are spread over the hosts or sites of the
cluster. -/
namespace Rozofs.Distribution
open Spreading

section Lists
variable {α : Type} (cmp : α → α → Int)

theorem mergePass_perm (insize fuel : Nat) (list : List α) : (mergePass cmp insize fuel list).1.Perm list := by
  induction fuel generalizing list with
  | zero => exact .refl _
  | succ fuel ih =>
    cases list with
    | nil => exact .refl _
    | cons x rest =>
      rw [mergePass]
      · have later := ih (((x :: rest).drop insize).drop insize)
        calc
          List.Perm _ ((x :: rest).take insize ++ ((x :: rest).drop insize).take insize ++ ((x :: rest).drop insize).drop insize) :=
            ((List.merge_perm_append _).append later)
          List.Perm _ (x :: rest) := by rw [List.append_assoc,List.take_append_drop,List.take_append_drop]
      · simp

theorem sortLoop_perm (fuel insize : Nat) (list : List α) : (sortLoop cmp fuel insize list).Perm list := by
  induction fuel generalizing insize list with
  | zero => exact .refl _
  | succ fuel ih =>
    have pass := mergePass_perm cmp insize list.length list
    rw [sortLoop]
    dsimp only
    split
    · exact pass
    · exact (ih _ _).trans pass

theorem listSort_perm (list : List α) : (listSort cmp list).Perm list := by
  unfold listSort
  split
  case isTrue empty => rw [empty]
  case isFalse => exact sortLoop_perm cmp _ _ _

end Lists

section Masks
variable {w : Nat} {mask : BitVec w}

theorem set_bit (positive : 0 < w) (bit place : Nat) :
    (set mask bit).getLsbD place = (decide (place = bit % w) || mask.getLsbD place) := by
  have inside := Nat.mod_lt bit positive
  unfold set
  rw [BitVec.getLsbD_or,BitVec.getLsbD_twoPow,Bool.or_comm]
  simp [inside,eq_comm]

end Masks

section Places
variable {w : Nat} {multiSite : Bool} {storages : List Storage} {vs : Storage}

/-- The sids of a list. -/
def sidSet (storages : List Storage) : Finset (BitVec 8) := (storages.map Storage.sid).toFinset

/-- The bit of the location of a storage in a map of `w` bits. -/
def place (w : Nat) (multiSite : Bool) (storages : List Storage) (sid : BitVec 8) : Nat :=
  ((storages.find? fun vs => vs.sid = sid).map fun vs => location multiSite vs % w).getD 0

theorem sid_inj (distinct : (storages.map Storage.sid).Nodup) {vs' : Storage} (mem : vs ∈ storages) (mem' : vs' ∈ storages)
    (same : vs.sid = vs'.sid) : vs = vs' := List.inj_on_of_nodup_map distinct mem mem' same

theorem place_eq (distinct : (storages.map Storage.sid).Nodup) (mem : vs ∈ storages) :
    place w multiSite storages vs.sid = location multiSite vs % w := by
  unfold place
  cases found : storages.find? fun vs' => vs'.sid = vs.sid with
  | none =>
    have other := List.find?_eq_none.mp found vs mem
    simp at other
  | some vs' =>
    have same : vs'.sid = vs.sid := by simpa using List.find?_some found
    rw [sid_inj distinct (List.mem_of_find?_eq_some found) mem same]
    rfl

theorem mem_sidSet {sid : BitVec 8} : sid ∈ sidSet storages ↔ ∃ vs ∈ storages, vs.sid = sid := by
  simp [sidSet]

/-- What the code does not change of a storage. -/
def key (multiSite : Bool) (vs : Storage) : BitVec 8 × Nat := (vs.sid,location multiSite vs)

end Places

section Strict
variable {multiSite : Bool} {storages ls : List Storage} {sel : Selection} {rounds wanted : Nat} {part : Part} {vs : Storage}

/-- The storages that a strict distribution has taken so far. -/
structure Chosen (multiSite : Bool) (storages : List Storage) (sel : Selection) (rounds : Nat) : Prop where
  nodup : sel.sids.Nodup
  marked : ∀ sid : BitVec 8, sel.selectedBitMap.getLsbD sid.toNat = decide (sid ∈ sel.sids)
  rounds : Rounds (place 256 multiSite storages) (sidSet storages) sel.sids.toFinset sel.locationBitMap.getLsbD rounds

theorem test_sid {mask : BitVec 256} (sid : BitVec 8) : test mask sid.toNat = mask.getLsbD sid.toNat := by
  have inside := sid.isLt
  unfold test
  rw [Nat.mod_eq_of_lt (by omega)]

theorem Chosen.take (part : Part) (chosen : Chosen multiSite storages sel rounds)
    (known : vs.sid ∈ sidSet storages ∧ place 256 multiSite storages vs.sid = location multiSite vs % 256)
    (left : test sel.selectedBitMap vs.sid.toNat = false) (free : test sel.locationBitMap (location multiSite vs) = false) :
    Chosen multiSite storages (sel.take part multiSite vs) rounds := by
  rw [test_sid,chosen.marked,decide_eq_false_iff_not] at left
  have taken : (sel.sids ++ [vs.sid]).toFinset = insert vs.sid sel.sids.toFinset := by
    ext sid
    simp
  constructor
  case nodup =>
    rw [Selection.take]
    apply List.nodup_append.mpr
    refine ⟨chosen.nodup,List.nodup_singleton _,?_⟩
    rintro sid mem sid' mem' rfl
    rw [List.mem_singleton.mp mem'] at mem
    exact left mem
  case marked =>
    intro sid
    have inside := vs.sid.isLt
    rw [Selection.take,set_bit (by decide),Nat.mod_eq_of_lt (by omega),chosen.marked]
    simp [BitVec.toNat_inj,or_comm]
  case rounds =>
    rw [Selection.take,taken]
    have unused : sel.locationBitMap.getLsbD (place 256 multiSite storages vs.sid) = false := by
      rw [known.2]
      exact free
    refine (chosen.rounds.take known.1 (by simpa using left) unused).congr ?_
    intro p
    rw [set_bit (by decide),known.2]

/-- What a loop over a list does. -/
structure Scanned (multiSite : Bool) (storages : List Storage) (wanted : Nat) (ls : List Storage) (sel : Selection) (rounds : Nat)
    (result : List Storage × Selection × Bool) : Prop where
  chosen : Chosen multiSite storages result.2.1 rounds
  keys : result.1.map (key multiSite) = ls.map (key multiSite)
  grows : sel.sids ⊆ result.2.1.sids
  uses : ∀ p, sel.locationBitMap.getLsbD p = true → result.2.1.locationBitMap.getLsbD p = true
  found : result.2.2 = true → result.2.1.sids.length = wanted
  passed : result.2.2 = false → ∀ vs ∈ ls, vs.sid ∈ result.2.1.sids ∨ test result.2.1.locationBitMap (location multiSite vs) = true

theorem count_key (part : Part) (weight : Nat) (vs : Storage) : key multiSite (part.count weight vs) = key multiSite vs := by
  cases part <;> rfl

/-- The rest of the list, after a storage that the loop leaves or takes. -/
theorem Scanned.cons {vs' : Storage} {sel' : Selection} {result : List Storage × Selection × Bool}
    (later : Scanned multiSite storages wanted ls sel' rounds result) (same : key multiSite vs' = key multiSite vs)
    (grows : sel.sids ⊆ sel'.sids) (uses : ∀ p, sel.locationBitMap.getLsbD p = true → sel'.locationBitMap.getLsbD p = true)
    (here : vs.sid ∈ sel'.sids ∨ test sel'.locationBitMap (location multiSite vs) = true) :
    Scanned multiSite storages wanted (vs :: ls) sel rounds (vs' :: result.1,result.2) where
  chosen := later.chosen
  keys := by rw [List.map_cons,List.map_cons,same,later.keys]
  grows := List.Subset.trans grows later.grows
  uses p used := later.uses p (uses p used)
  found := later.found
  passed notFound := by
    intro other mem
    rcases List.mem_cons.mp mem with rfl | inRest
    · exact here.imp (fun mem => later.grows mem) (later.uses _)
    · exact later.passed notFound other inRest

theorem scan_spec (part : Part) (wanted : Nat) (ls : List Storage)
    (known : ∀ vs ∈ ls, vs.sid ∈ sidSet storages ∧ place 256 multiSite storages vs.sid = location multiSite vs % 256) {sel : Selection}
    (chosen : Chosen multiSite storages sel rounds) :
    Scanned multiSite storages wanted ls sel rounds (scan part multiSite wanted ls sel) := by
  induction ls generalizing sel with
  | nil => exact ⟨chosen,rfl,List.Subset.refl _,fun _ used => used,by simp [scan],by simp⟩
  | cons vs rest ih =>
    obtain ⟨first,later⟩ := List.forall_mem_cons.mp known
    rw [scan]
    split
    case isTrue taken =>
      rw [test_sid,chosen.marked,decide_eq_true_eq] at taken
      exact (ih later chosen).cons rfl (List.Subset.refl _) (fun _ used => used) (.inl taken)
    case isFalse left =>
      split
      case isTrue collision =>
        have moved : Chosen multiSite storages { sel with locationCollision := sel.locationCollision + 1 } rounds :=
          ⟨chosen.nodup,chosen.marked,chosen.rounds⟩
        exact (ih later moved).cons rfl (List.Subset.refl _) (fun _ used => used) (.inr collision)
      case isFalse free =>
        have took := chosen.take part first (Bool.eq_false_iff.mpr left) (Bool.eq_false_iff.mpr free)
        have same := @count_key multiSite part sel.weight vs
        have grows : sel.sids ⊆ (sel.take part multiSite vs).sids := List.subset_append_left _ _
        have uses : ∀ p, sel.locationBitMap.getLsbD p = true → (sel.take part multiSite vs).locationBitMap.getLsbD p = true := by
          intro p used
          rw [Selection.take,set_bit (by decide),used,Bool.or_true]
        have here : vs.sid ∈ (sel.take part multiSite vs).sids := by simp [Selection.take]
        dsimp only
        split
        case isTrue enough =>
          refine ⟨took,by simp [same],grows,uses,fun _ => enough.symm,?_⟩
          intro notFound
          cases notFound
        case isFalse => exact (ih later took).cons same grows uses (.inl here)

/-- What the loops for a part of a distribution leave. -/
structure Phased (multiSite : Bool) (storages : List Storage) (wanted : Nat) (result : List Storage × Selection × Bool) : Prop where
  chosen : ∃ rounds, Chosen multiSite storages result.2.1 rounds
  keys : (result.1.map (key multiSite)).Perm (storages.map (key multiSite))
  found : result.2.2 = true → result.2.1.sids.length = wanted

/-- The storages of a list in another order and with other counters. -/
theorem known_of_perm (distinct : (storages.map Storage.sid).Nodup) (perm : (ls.map (key multiSite)).Perm (storages.map (key multiSite)))
    (mem : vs ∈ ls) : vs.sid ∈ sidSet storages ∧ place 256 multiSite storages vs.sid = location multiSite vs % 256 := by
  have memKey : key multiSite vs ∈ storages.map (key multiSite) := perm.mem_iff.mp (List.mem_map_of_mem mem)
  obtain ⟨vs',mem',same⟩ := List.mem_map.mp memKey
  simp only [key,Prod.mk.injEq] at same
  obtain ⟨sameSid,sameLocation⟩ := same
  rw [← sameSid,← sameLocation]
  exact ⟨mem_sidSet.mpr ⟨vs',mem',rfl⟩,place_eq distinct mem'⟩

theorem mem_of_perm (perm : (ls.map (key multiSite)).Perm (storages.map (key multiSite))) {sid : BitVec 8} (mem : sid ∈ sidSet storages) :
    ∃ vs ∈ ls, vs.sid = sid := by
  obtain ⟨vs',mem',rfl⟩ := mem_sidSet.mp mem
  obtain ⟨vs,memLs,same⟩ := List.mem_map.mp (perm.mem_iff.mpr (List.mem_map_of_mem mem'))
  exact ⟨vs,memLs,congrArg Prod.fst same⟩

/-- A loop that ends with too few storages is a round. -/
theorem Scanned.next {result : List Storage × Selection × Bool} (scanned : Scanned multiSite storages wanted ls sel rounds result)
    (distinct : (storages.map Storage.sid).Nodup) (perm : (ls.map (key multiSite)).Perm (storages.map (key multiSite)))
    (notFound : result.2.2 = false) :
    Chosen multiSite storages { result.2.1 with locationBitMap := 0, locationCollision := 0 } (rounds + 1) := by
  have ended : ∀ sid ∈ sidSet storages, sid ∉ result.2.1.sids.toFinset →
      result.2.1.locationBitMap.getLsbD (place 256 multiSite storages sid) = true := by
    intro sid mem left
    obtain ⟨vs,memLs,rfl⟩ := mem_of_perm perm mem
    rw [(known_of_perm distinct perm memLs).2]
    exact (scanned.passed notFound vs memLs).resolve_left (by simpa using left)
  exact ⟨scanned.chosen.nodup,scanned.chosen.marked,(scanned.chosen.rounds.next ended).congr (by simp)⟩

theorem phase_spec (part : Part) (wanted : Nat) (distinct : (storages.map Storage.sid).Nodup) (loops : Nat) {ls : List Storage} {sel : Selection} {rounds : Nat}
    (perm : (ls.map (key multiSite)).Perm (storages.map (key multiSite))) (chosen : Chosen multiSite storages sel rounds) :
    Phased multiSite storages wanted (phase part multiSite wanted loops ls sel) := by
  induction loops generalizing ls sel rounds with
  | zero => exact ⟨⟨rounds,chosen⟩,perm,by simp [phase]⟩
  | succ loops ih =>
    have scanned := scan_spec part wanted ls (fun vs mem => known_of_perm distinct perm mem) chosen
    rw [phase]
    rcases result : scan part multiSite wanted ls sel with ⟨ls',sel',done⟩
    rw [result] at scanned
    have perm' : (ls'.map (key multiSite)).Perm (storages.map (key multiSite)) := scanned.keys ▸ perm
    cases done with
    | true => exact ⟨⟨rounds,scanned.chosen⟩,perm',scanned.found⟩
    | false =>
      dsimp only
      split
      case isTrue => exact ⟨⟨rounds,scanned.chosen⟩,perm',by simp⟩
      case isFalse =>
        exact ih perm' (scanned.next distinct perm rfl)

/-- Nothing is selected yet. -/
theorem chosen_start : Chosen multiSite storages ⟨0,0,[],0,0⟩ 0 := by
  refine ⟨List.nodup_nil,by simp,?_⟩
  exact (Rounds.start _ _).congr (by simp)

theorem sorted_perm (perm : (ls.map (key multiSite)).Perm (storages.map (key multiSite))) (cmp : Storage → Storage → Int) :
    ((listSort cmp ls).map (key multiSite)).Perm (storages.map (key multiSite)) := ((listSort_perm cmp ls).map _).trans perm

end Strict

section Results
variable {w : Nat} {multiSite : Bool} {storages : List Storage} {sids : List (BitVec 8)} {used : Nat → Bool} {rounds : Nat} {layout : Layout}

/-- The number of storages of a location that a distribution takes. -/
def selectedAt (multiSite : Bool) (storages : List Storage) (sids : List (BitVec 8)) (p : Nat) : Nat :=
  storages.countP fun vs => vs.sid ∈ sids ∧ location multiSite vs = p

/-- A distribution has different storages of the list; a location that has two less than another one
has no storage left. -/
structure WellSpread (multiSite : Bool) (storages : List Storage) (safe : Nat) (sids : List (BitVec 8)) : Prop where
  length : sids.length = safe
  nodup : sids.Nodup
  members : ∀ sid ∈ sids, ∃ vs ∈ storages, vs.sid = sid
  spread : ∀ vs ∈ storages, ∀ p, selectedAt multiSite storages sids (location multiSite vs) + 2 ≤ selectedAt multiSite storages sids p →
    vs.sid ∈ sids

/-- Two locations of a list are not the same bit of a map of `w` bits. -/
def Unaliased (w : Nat) (multiSite : Bool) (storages : List Storage) : Prop :=
  ∀ vs ∈ storages, ∀ vs' ∈ storages, location multiSite vs % w = location multiSite vs' % w → location multiSite vs = location multiSite vs'

theorem load_place (distinct : (storages.map Storage.sid).Nodup) (sub : sids.toFinset ⊆ sidSet storages) (p : Nat) :
    load (place w multiSite storages) sids.toFinset p = storages.countP fun vs => vs.sid ∈ sids ∧ location multiSite vs % w = p := by
  have same : (sids.toFinset.filter fun sid => place w multiSite storages sid = p) =
      ((storages.filter fun vs => vs.sid ∈ sids ∧ location multiSite vs % w = p).map Storage.sid).toFinset := by
    ext sid
    simp only [Finset.mem_filter,List.mem_toFinset,List.mem_map,List.mem_filter,decide_eq_true_eq]
    constructor
    · rintro ⟨mem,here⟩
      obtain ⟨vs,inList,rfl⟩ := mem_sidSet.mp (sub (List.mem_toFinset.mpr mem))
      rw [place_eq distinct inList] at here
      exact ⟨vs,⟨inList,mem,here⟩,rfl⟩
    · rintro ⟨vs,⟨inList,mem,here⟩,rfl⟩
      rw [place_eq distinct inList]
      exact ⟨mem,here⟩
  unfold load
  rw [same,List.toFinset_card_of_nodup (distinct.sublist (List.filter_sublist.map _)),List.length_map,List.countP_eq_length_filter]

theorem Unaliased.count (unaliased : Unaliased w multiSite storages) {vs : Storage} (mem : vs ∈ storages) :
    selectedAt multiSite storages sids (location multiSite vs) =
      storages.countP fun vs' => vs'.sid ∈ sids ∧ location multiSite vs' % w = location multiSite vs % w := by
  apply List.countP_congr
  intro vs' mem'
  simp only [decide_eq_true_eq]
  exact and_congr_right fun _ => ⟨congrArg (· % w),unaliased vs' mem' vs mem⟩

theorem WellSpread.of_rounds (distinct : (storages.map Storage.sid).Nodup) (unaliased : Unaliased w multiSite storages)
    (holds : Rounds (place w multiSite storages) (sidSet storages) sids.toFinset used rounds) (nodup : sids.Nodup) :
    WellSpread multiSite storages sids.length sids where
  length := rfl
  nodup := nodup
  members sid mem := mem_sidSet.mp (holds.sub (List.mem_toFinset.mpr mem))
  spread vs mem p less := by
    have some : 0 < selectedAt multiSite storages sids p := by omega
    obtain ⟨vs',mem',here⟩ := List.countP_pos_iff.mp some
    simp only [decide_eq_true_eq] at here
    rw [← here.2,unaliased.count mem,unaliased.count mem',← load_place distinct holds.sub,← load_place distinct holds.sub,
      ← place_eq (w := w) distinct mem] at less
    exact List.mem_toFinset.mp (holds.spread less (mem_sidSet.mpr ⟨vs,mem,rfl⟩))

theorem unaliased_strict : Unaliased 256 multiSite storages := by
  have inside : ∀ vs, location multiSite vs < 256 := by
    intro vs
    unfold location
    split
    · exact vs.siteNum.isLt
    · exact vs.hostRank.isLt
  intro vs _ vs' _ same
  rwa [Nat.mod_eq_of_lt (inside vs),Nat.mod_eq_of_lt (inside vs')] at same

/-- The strict rule spreads the storages of every list. -/
theorem strict_spread (distinct : (storages.map Storage.sid).Nodup) {storages' : List Storage}
    (taken : strictRoundRobin layout multiSite storages = (storages',some sids)) : WellSpread multiSite storages layout.rozofsSafe sids := by
  have start : Chosen multiSite storages ⟨0,0,[],0,0⟩ 0 := chosen_start
  unfold strictRoundRobin at taken
  have first := phase_spec .inverse layout.rozofsInverse distinct 4 (sorted_perm (.refl _) compareInverse) start
  rcases inverse : phase .inverse multiSite layout.rozofsInverse 4 (listSort compareInverse storages) ⟨0,0,[],0,0⟩ with ⟨ls1,sel1,done1⟩
  rw [inverse] at first taken
  cases done1 with
  | false => cases taken
  | true =>
    obtain ⟨⟨rounds1,chosen1⟩,keys1,_⟩ := first
    have second := phase_spec .forward layout.rozofsForward distinct 4 (sorted_perm keys1 compareForward) chosen1
    dsimp only at taken second
    rcases forward : phase .forward multiSite layout.rozofsForward 4 (listSort compareForward ls1) sel1 with ⟨ls2,sel2,done2⟩
    rw [forward] at second taken
    cases done2 with
    | false => cases taken
    | true =>
      obtain ⟨⟨rounds2,chosen2⟩,keys2,_⟩ := second
      have weighted : Chosen multiSite storages { sel2 with weight := layout.rozofsSafe - layout.rozofsForward } rounds2 :=
        ⟨chosen2.nodup,chosen2.marked,chosen2.rounds⟩
      have third := phase_spec .spare layout.rozofsSafe distinct 4 (sorted_perm keys2 compareSpare) weighted
      dsimp only at taken third
      rcases spare : phase .spare multiSite layout.rozofsSafe 4 (listSort compareSpare ls2)
        { sel2 with weight := layout.rozofsSafe - layout.rozofsForward } with ⟨ls3,sel3,done3⟩
      rw [spare] at third taken
      cases done3 with
      | false => cases taken
      | true =>
        cases taken
        obtain ⟨⟨rounds3,chosen3⟩,_,found⟩ := third
        exact found rfl ▸ WellSpread.of_rounds distinct unaliased_strict chosen3.rounds chosen3.nodup

end Results

section Weighted
variable {multiSite : Bool} {storages ls : List Storage} {taking : Taking} {rounds safe idx : Nat} {vs : Storage} {selected : List Nat}

/-- The sids at places of a list. -/
def sidsOf (storages : List Storage) (selected : List Nat) : List (BitVec 8) := selected.filterMap fun place => storages[place]?.map Storage.sid

theorem sid_place (distinct : (storages.map Storage.sid).Nodup) {idx' : Nat} {vs' : Storage} (here : storages[idx]? = some vs)
    (there : storages[idx']? = some vs') (same : vs'.sid = vs.sid) : idx' = idx := by
  have inside : idx' < (storages.map Storage.sid).length := by
    rw [List.length_map]
    exact (List.getElem?_eq_some_iff.mp there).1
  apply (List.getElem?_inj inside distinct).mp
  rw [List.getElem?_map,List.getElem?_map,here,there,Option.map_some,Option.map_some,same]

theorem mem_sidsOf (distinct : (storages.map Storage.sid).Nodup) (here : storages[idx]? = some vs) :
    vs.sid ∈ sidsOf storages selected ↔ idx ∈ selected := by
  unfold sidsOf
  rw [List.mem_filterMap]
  constructor
  · rintro ⟨idx',mem,same⟩
    obtain ⟨vs',there,same⟩ := Option.map_eq_some_iff.mp same
    exact sid_place distinct here there same ▸ mem
  · exact fun mem => ⟨idx,mem,by rw [here,Option.map_some]⟩

theorem sidsOf_nodup (distinct : (storages.map Storage.sid).Nodup) (nodup : selected.Nodup) : (sidsOf storages selected).Nodup := by
  apply nodup.filterMap
  intro idx idx' sid mem mem'
  obtain ⟨vs,here,rfl⟩ := Option.map_eq_some_iff.mp mem
  obtain ⟨vs',there,same⟩ := Option.map_eq_some_iff.mp mem'
  exact (sid_place distinct here there same).symm

theorem sidsOf_length (inside : ∀ idx ∈ selected, idx < storages.length) : (sidsOf storages selected).length = selected.length := by
  unfold sidsOf
  rw [List.filterMap_length_eq_length]
  intro idx mem
  rw [Option.isSome_map,List.getElem?_eq_getElem (inside idx mem)]
  rfl

theorem sidsOf_take (here : storages[idx]? = some vs) : sidsOf storages (selected ++ [idx]) = sidsOf storages selected ++ [vs.sid] := by
  simp [sidsOf,here]

theorem take_sids (here : storages[idx]? = some vs) :
    (sidsOf storages (taking.take multiSite idx vs).selected).toFinset = insert vs.sid (sidsOf storages taking.selected).toFinset := by
  rw [Taking.take,sidsOf_take here]
  ext sid
  simp

theorem take_nodup (nodup : taking.selected.Nodup) (left : idx ∉ taking.selected) :
    (Taking.take multiSite idx vs taking).selected.Nodup := by
  apply List.nodup_append.mpr
  refine ⟨nodup,List.nodup_singleton _,?_⟩
  rintro place mem other last rfl
  rw [List.mem_singleton.mp last] at mem
  exact left mem

/-- The mask of the places names the places taken. -/
theorem take_marked (marked : ∀ place < 64, taking.sidTaken.getLsbD place = decide (place ∈ taking.selected)) (low : idx < 64) :
    ∀ place < 64, (Taking.take multiSite idx vs taking).sidTaken.getLsbD place =
      decide (place ∈ (Taking.take multiSite idx vs taking).selected) := by
  intro place low'
  rw [Taking.take,set_bit (by decide),Nat.mod_eq_of_lt low,marked place low']
  simp [or_comm]

/-- The places that a rule has taken so far from a list that fits in the mask. -/
structure Taken (multiSite : Bool) (storages : List Storage) (taking : Taking) (rounds : Nat) : Prop where
  inside : ∀ idx ∈ taking.selected, idx < storages.length
  nodup : taking.selected.Nodup
  marked : ∀ idx < 64, taking.sidTaken.getLsbD idx = decide (idx ∈ taking.selected)
  rounds : Rounds (place 64 multiSite storages) (sidSet storages) (sidsOf storages taking.selected).toFinset taking.locationMask.getLsbD rounds

theorem Taken.take (taken : Taken multiSite storages taking rounds) (distinct : (storages.map Storage.sid).Nodup)
    (here : storages[idx]? = some vs) (low : idx < 64) (left : idx ∉ taking.selected)
    (free : test taking.locationMask (location multiSite vs) = false) : Taken multiSite storages (taking.take multiSite idx vs) rounds := by
  obtain ⟨inside,at_⟩ := List.getElem?_eq_some_iff.mp here
  have mem : vs ∈ storages := List.mem_of_getElem? here
  constructor
  case inside =>
    intro idx' mem'
    rcases List.mem_append.mp mem' with before | last
    · exact taken.inside idx' before
    · obtain rfl := List.mem_singleton.mp last
      exact inside
  case nodup => exact take_nodup taken.nodup left
  case marked => exact take_marked taken.marked low
  case rounds =>
    have fresh : vs.sid ∉ (sidsOf storages taking.selected).toFinset := by
      rw [List.mem_toFinset,mem_sidsOf distinct here]
      exact left
    have unused : taking.locationMask.getLsbD (place 64 multiSite storages vs.sid) = false := by
      rw [place_eq distinct mem]
      exact free
    rw [take_sids here]
    refine (taken.rounds.take (mem_sidSet.mpr ⟨vs,mem,rfl⟩) fresh unused).congr ?_
    intro p
    rw [Taking.take,set_bit (by decide),place_eq distinct mem]

/-- What a loop over the end of a list does. -/
structure TakeScanned (multiSite : Bool) (storages : List Storage) (safe : Nat) (ls : List Storage) (taking : Taking) (rounds : Nat)
    (result : Taking × Bool) : Prop where
  taken : Taken multiSite storages result.1 rounds
  grows : taking.selected ⊆ result.1.selected
  uses : ∀ p, taking.locationMask.getLsbD p = true → result.1.locationMask.getLsbD p = true
  found : result.2 = true → result.1.selected.length = safe
  passed : result.2 = false → ∀ vs ∈ ls, vs.sid ∈ sidsOf storages result.1.selected ∨ test result.1.locationMask (location multiSite vs) = true

theorem TakeScanned.cons {taking' : Taking} {result : Taking × Bool} (later : TakeScanned multiSite storages safe ls taking' rounds result)
    (grows : taking.selected ⊆ taking'.selected)
    (uses : ∀ p, taking.locationMask.getLsbD p = true → taking'.locationMask.getLsbD p = true) (distinct : (storages.map Storage.sid).Nodup)
    (at_ : storages[idx]? = some vs) (here : idx ∈ taking'.selected ∨ test taking'.locationMask (location multiSite vs) = true) :
    TakeScanned multiSite storages safe (vs :: ls) taking rounds result where
  taken := later.taken
  grows := List.Subset.trans grows later.grows
  uses p used := later.uses p (uses p used)
  found := later.found
  passed notFound := by
    intro other mem
    rcases List.mem_cons.mp mem with rfl | inRest
    · exact here.imp (fun mem => (mem_sidsOf distinct at_).mpr (later.grows mem)) (later.uses _)
    · exact later.passed notFound other inRest

theorem takeScan_spec (safe : Nat) (distinct : (storages.map Storage.sid).Nodup) (short : storages.length ≤ 64) (ls : List Storage) {idx : Nat}
    (rest : storages.drop idx = ls) {taking : Taking} (taken : Taken multiSite storages taking rounds) :
    TakeScanned multiSite storages safe ls taking rounds (takeScan multiSite safe idx ls taking) := by
  induction ls generalizing idx taking with
  | nil => exact ⟨taken,List.Subset.refl _,fun _ used => used,by simp [takeScan],by simp⟩
  | cons vs ls ih =>
    have at_ : storages[idx]? = some vs := by rw [← List.head?_drop,rest,List.head?_cons]
    have rest' : storages.drop (idx + 1) = ls := by rw [← List.tail_drop,rest,List.tail_cons]
    have low : idx < 64 := Nat.lt_of_lt_of_le (List.getElem?_eq_some_iff.mp at_).1 short
    rw [takeScan,test,Nat.mod_eq_of_lt low,taken.marked idx low]
    split
    case isTrue mem =>
      rw [decide_eq_true_eq] at mem
      exact (ih rest' taken).cons (List.Subset.refl _) (fun _ used => used) distinct at_ (.inl mem)
    case isFalse left =>
      rw [decide_eq_true_eq] at left
      split
      case isTrue collision =>
        have moved : Taken multiSite storages { taking with locationCollision := taking.locationCollision + 1 } rounds :=
          ⟨taken.inside,taken.nodup,taken.marked,taken.rounds⟩
        exact (ih rest' moved).cons (List.Subset.refl _) (fun _ used => used) distinct at_ (.inr collision)
      case isFalse free =>
        have took := taken.take distinct at_ low left (Bool.eq_false_iff.mpr free)
        have grows : taking.selected ⊆ (taking.take multiSite idx vs).selected := List.subset_append_left _ _
        have uses : ∀ p, taking.locationMask.getLsbD p = true → (taking.take multiSite idx vs).locationMask.getLsbD p = true := by
          intro p used
          rw [Taking.take,set_bit (by decide),used,Bool.or_true]
        have here : idx ∈ (taking.take multiSite idx vs).selected := by simp [Taking.take]
        dsimp only
        split
        case isTrue enough =>
          refine ⟨took,grows,uses,fun _ => enough.symm,?_⟩
          intro notFound
          cases notFound
        case isFalse => exact (ih rest' took).cons grows uses distinct at_ (.inl here)

/-- A loop that ends with too few storages is a round. -/
theorem TakeScanned.next {result : Taking × Bool} (scanned : TakeScanned multiSite storages safe storages taking rounds result)
    (distinct : (storages.map Storage.sid).Nodup) (notFound : result.2 = false) :
    Taken multiSite storages { result.1 with locationMask := 0, locationCollision := 0 } (rounds + 1) := by
  have ended : ∀ sid ∈ sidSet storages, sid ∉ (sidsOf storages result.1.selected).toFinset →
      result.1.locationMask.getLsbD (place 64 multiSite storages sid) = true := by
    intro sid mem left
    obtain ⟨vs,inList,rfl⟩ := mem_sidSet.mp mem
    rw [place_eq distinct inList]
    exact (scanned.passed notFound vs inList).resolve_left (by simpa using left)
  exact ⟨scanned.taken.inside,scanned.taken.nodup,scanned.taken.marked,(scanned.taken.rounds.next ended).congr (by simp)⟩

theorem takeLoop_spec {layout : Layout} (distinct : (storages.map Storage.sid).Nodup) (short : storages.length ≤ 64) (loops : Nat)
    {taking taking' : Taking} {rounds : Nat}
    (taken : Taken multiSite storages { taking with locationMask := 0, locationCollision := 0 } rounds)
    (done : takeLoop layout multiSite storages loops taking = some taking') :
    (∃ rounds, Taken multiSite storages taking' rounds) ∧ taking'.selected.length = layout.rozofsSafe := by
  induction loops generalizing taking rounds with
  | zero => cases done
  | succ loops ih =>
    have scanned := takeScan_spec layout.rozofsSafe distinct short storages List.drop_zero taken
    rw [takeLoop] at done
    rcases result : takeScan multiSite layout.rozofsSafe 0 storages { taking with locationMask := 0, locationCollision := 0 } with ⟨next,found⟩
    rw [result] at scanned done
    cases found with
    | true =>
      dsimp only at done
      split at done
      · cases done
      · cases done
        exact ⟨⟨rounds,scanned.taken⟩,scanned.found rfl⟩
    | false =>
      dsimp only at done
      split at done
      · cases done
      · exact ih (scanned.next distinct rfl) done

/-- The bits of the locations of storages. -/
def bits (multiSite : Bool) (storages : List Storage) : Finset Nat := (storages.map fun vs => location multiSite vs % 64).toFinset

/-- The first loop up to place `idx`: a storage for each location so far. -/
structure First (multiSite : Bool) (storages : List Storage) (idx : Nat) (taking : Taking) : Prop where
  inside : ∀ place ∈ taking.selected, place < idx ∧ place < storages.length
  nodup : taking.selected.Nodup
  marked : ∀ place < 64, taking.sidTaken.getLsbD place = decide (place ∈ taking.selected)
  used : ∀ p, taking.locationMask.getLsbD p = true ↔ p ∈ bits multiSite (storages.take idx)
  upper : ∀ p, load (place 64 multiSite storages) (sidsOf storages taking.selected).toFinset p ≤ (taking.locationMask.getLsbD p).toNat
  count : taking.selected.length = (bits multiSite (storages.take idx)).card

theorem bits_take (here : storages[idx]? = some vs) :
    bits multiSite (storages.take (idx + 1)) = insert (location multiSite vs % 64) (bits multiSite (storages.take idx)) := by
  ext p
  simp [bits,List.take_add_one,here]

theorem First.skip (first : First multiSite storages idx taking) (here : storages[idx]? = some vs)
    (collision : test taking.locationMask (location multiSite vs) = true) :
    First multiSite storages (idx + 1) { taking with locationCollision := taking.locationCollision + 1 } := by
  have same : bits multiSite (storages.take (idx + 1)) = bits multiSite (storages.take idx) := by
    rw [bits_take here]
    exact Finset.insert_eq_of_mem ((first.used _).mp collision)
  constructor
  · exact fun place mem => ⟨Nat.lt_succ_of_lt (first.inside place mem).1,(first.inside place mem).2⟩
  · exact first.nodup
  · exact first.marked
  · exact fun p => same ▸ first.used p
  · exact first.upper
  · exact same ▸ first.count

theorem First.take (first : First multiSite storages idx taking) (distinct : (storages.map Storage.sid).Nodup)
    (here : storages[idx]? = some vs) (low : idx < 64) (free : test taking.locationMask (location multiSite vs) = false) :
    First multiSite storages (idx + 1) (taking.take multiSite idx vs) := by
  have mem : vs ∈ storages := List.mem_of_getElem? here
  have left : idx ∉ taking.selected := fun mem => Nat.lt_irrefl _ (first.inside idx mem).1
  have fresh : location multiSite vs % 64 ∉ bits multiSite (storages.take idx) := by
    intro mem
    rw [test,(first.used _).mpr mem] at free
    cases free
  constructor
  case inside =>
    intro place mem
    rcases List.mem_append.mp mem with before | last
    · exact ⟨Nat.lt_succ_of_lt (first.inside place before).1,(first.inside place before).2⟩
    · obtain rfl := List.mem_singleton.mp last
      exact ⟨Nat.lt_succ_self _,(List.getElem?_eq_some_iff.mp here).1⟩
  case nodup => exact take_nodup first.nodup left
  case marked => exact take_marked first.marked low
  case used =>
    intro p
    rw [Taking.take,set_bit (by decide),bits_take here,Finset.mem_insert,Bool.or_eq_true,decide_eq_true_eq,first.used]
  case upper =>
    intro p
    have newSid : vs.sid ∉ (sidsOf storages taking.selected).toFinset := by
      rw [List.mem_toFinset,mem_sidsOf distinct here]
      exact left
    have before := first.upper p
    rw [take_sids here,load_insert newSid,place_eq distinct mem,Taking.take,set_bit (by decide)]
    by_cases own : p = location multiSite vs % 64
    · subst own
      have unused : taking.locationMask.getLsbD (location multiSite vs % 64) = false := free
      simpa [unused] using before
    · simpa [own] using before
  case count =>
    rw [bits_take here,Finset.card_insert_of_notMem fresh,← first.count]
    simp [Taking.take]

/-- The storages that the first loop takes when it finds enough of them. -/
structure FirstFound (multiSite : Bool) (storages : List Storage) (safe : Nat) (taking : Taking) : Prop where
  length : taking.selected.length = safe
  inside : ∀ place ∈ taking.selected, place < storages.length
  nodup : taking.selected.Nodup
  upper : ∀ p, load (place 64 multiSite storages) (sidsOf storages taking.selected).toFinset p ≤ 1

/-- Not enough storages are taken yet: there are others among the first 64. -/
theorem First.more (first : First multiSite storages idx taking) (enough : safe ≤ (bits multiSite (storages.take 64)).card)
    (few : taking.selected.length < safe) (low : idx ≤ 64) : idx < 64 ∧ idx < storages.length := by
  have more : storages.take idx ≠ storages.take 64 := by
    intro same
    have count := first.count
    rw [same] at count
    omega
  constructor
  · rcases Nat.lt_or_eq_of_le low with less | rfl
    · exact less
    · exact absurd rfl more
  · by_contra beyond
    refine more ?_
    rw [List.take_of_length_le (by omega),List.take_of_length_le (by omega)]

/-- The first 64 storages have enough locations: the first loop does not look further. -/
theorem firstScan_spec (distinct : (storages.map Storage.sid).Nodup) (enough : safe ≤ (bits multiSite (storages.take 64)).card)
    (ls : List Storage) {idx : Nat} (rest : storages.drop idx = ls) (low : idx ≤ 64) {taking : Taking} (first : First multiSite storages idx taking)
    (few : taking.selected.length < safe) : ∃ taking', takeScan multiSite safe idx ls taking = (taking',true) ∧ FirstFound multiSite storages safe taking' := by
  obtain ⟨before,inside⟩ := first.more enough few low
  induction ls generalizing idx taking with
  | nil => exact absurd (List.drop_eq_nil_iff.mp rest) (by omega)
  | cons vs ls ih =>
    have at_ : storages[idx]? = some vs := by rw [← List.head?_drop,rest,List.head?_cons]
    have rest' : storages.drop (idx + 1) = ls := by rw [← List.tail_drop,rest,List.tail_cons]
    have left : taking.sidTaken.getLsbD idx = false := by
      rw [first.marked idx before,decide_eq_false_iff_not]
      exact fun mem => Nat.lt_irrefl _ (first.inside idx mem).1
    rw [takeScan,test,Nat.mod_eq_of_lt before,left]
    simp only [Bool.false_eq_true,if_false]
    split
    case isTrue collision =>
      have skipped := first.skip at_ collision
      obtain ⟨before',inside'⟩ := skipped.more enough few before
      exact ih rest' before skipped few before' inside'
    case isFalse free =>
      have took := first.take distinct at_ before (Bool.eq_false_iff.mpr free)
      have length : (taking.take multiSite idx vs).selected.length = taking.selected.length + 1 := by simp [Taking.take]
      split
      case isTrue found =>
        refine ⟨_,rfl,found.symm,fun place mem => (took.inside place mem).2,took.nodup,?_⟩
        exact fun p => Nat.le_trans (took.upper p) (Bool.toNat_le _)
      case isFalse notFound =>
        have few' : (taking.take multiSite idx vs).selected.length < safe := by omega
        obtain ⟨before',inside'⟩ := took.more enough few' before
        exact ih rest' before took few' before' inside'

/-- Nothing is taken yet. -/
theorem first_start : First multiSite storages 0 ⟨0,0,0,0,[]⟩ := by
  constructor <;> simp [bits,sidsOf,load]

theorem taken_start : Taken multiSite storages ⟨0,0,0,0,[]⟩ 0 := by
  refine ⟨by simp,List.nodup_nil,by simp,?_⟩
  exact (Rounds.start _ _).congr (by simp)

end Weighted

section Rules
variable {multiSite : Bool} {storages : List Storage} {sids : List (BitVec 8)} {layout : Layout}

/-- The list fits in the masks of 64 bits: its first 64 storages have enough locations, or it has no more
and its locations are different bits. -/
def Fits (layout : Layout) (multiSite : Bool) (storages : List Storage) : Prop :=
  layout.rozofsSafe ≤ (bits multiSite (storages.take 64)).card ∨ storages.length ≤ 64 ∧ Unaliased 64 multiSite storages

theorem FirstFound.spread {safe : Nat} {taking : Taking} (distinct : (storages.map Storage.sid).Nodup)
    (found : FirstFound multiSite storages safe taking) : WellSpread multiSite storages safe (sidsOf storages taking.selected) := by
  have members : ∀ sid ∈ sidsOf storages taking.selected, ∃ vs ∈ storages, vs.sid = sid := by
    intro sid mem
    obtain ⟨place,_,at_⟩ := List.mem_filterMap.mp mem
    obtain ⟨vs,here,rfl⟩ := Option.map_eq_some_iff.mp at_
    exact ⟨vs,List.mem_of_getElem? here,rfl⟩
  have sub : (sidsOf storages taking.selected).toFinset ⊆ sidSet storages :=
    fun sid mem => mem_sidSet.mpr (members sid (List.mem_toFinset.mp mem))
  constructor
  case length => rw [sidsOf_length found.inside,found.length]
  case nodup => exact sidsOf_nodup distinct found.nodup
  case members => exact members
  case spread =>
    -- no location has two storages
    intro vs mem p less
    have one := found.upper (p % 64)
    rw [load_place distinct sub] at one
    have fewer : selectedAt multiSite storages (sidsOf storages taking.selected) p ≤
        storages.countP fun vs => vs.sid ∈ sidsOf storages taking.selected ∧ location multiSite vs % 64 = p % 64 := by
      apply List.countP_mono_left
      intro vs' _ here
      simp only [decide_eq_true_eq] at here ⊢
      exact ⟨here.1,congrArg (· % 64) here.2⟩
    omega

theorem takeLoop_spread (distinct : (storages.map Storage.sid).Nodup) (fits : Fits layout multiSite storages) {taking : Taking}
    (done : takeLoop layout multiSite storages 8 ⟨0,0,0,0,[]⟩ = some taking) :
    WellSpread multiSite storages layout.rozofsSafe (sidsOf storages taking.selected) := by
  rcases fits with enough | ⟨short,unaliased⟩
  · have start : First multiSite storages 0 ⟨0,0,0,0,[]⟩ := first_start
    have positive : 0 < layout.rozofsSafe := by cases layout <;> decide
    obtain ⟨taking',scanned,found⟩ := firstScan_spec distinct enough storages List.drop_zero (Nat.zero_le _) start positive
    rw [takeLoop,scanned] at done
    dsimp only at done
    split at done
    · cases done
    · cases done
      exact found.spread distinct
  · obtain ⟨⟨rounds,taken⟩,length⟩ := takeLoop_spec distinct short 8 taken_start done
    rw [← length,← sidsOf_length taken.inside]
    exact WellSpread.of_rounds distinct unaliased taken.rounds (sidsOf_nodup distinct taken.nodup)

theorem takeBySize_spread (allocEstimatedMb : Nat) (distinct : (storages.map Storage.sid).Nodup) (fits : Fits layout multiSite storages)
    {storages' : List Storage} (taken : takeBySize allocEstimatedMb layout multiSite storages = (storages',some sids)) :
    WellSpread multiSite storages layout.rozofsSafe sids := by
  unfold takeBySize at taken
  cases done : takeLoop layout multiSite storages 8 ⟨0,0,0,0,[]⟩ with
  | none =>
    rw [done] at taken
    cases taken
  | some taking =>
    rw [done] at taken
    cases taken
    exact takeLoop_spread distinct fits done

/-- The storages of a distribution are different ones of the site, spread over its locations, when the
rule is the strict one or the list fits in the masks of the other rules. -/
theorem distribute_spread (rule : Rule) (allocEstimatedMb : Nat) (layout : Layout) (siteIdx : Nat) (cluster : Cluster) (multiSite : Bool)
    (distinct : ((cluster.storages siteIdx).map Storage.sid).Nodup)
    (fits : rule = .strictRoundRobin ∨ Fits layout multiSite (cluster.storages siteIdx)) {cluster' : Cluster} {sids : List (BitVec 8)}
    (done : doClusterDistribute allocEstimatedMb layout siteIdx cluster multiSite rule = (cluster',some sids)) :
    WellSpread multiSite (cluster.storages siteIdx) layout.rozofsSafe sids := by
  cases rule with
  | strictRoundRobin =>
    simp only [doClusterDistribute,doClusterDistributeStrictRoundRobin,Prod.mk.injEq] at done
    exact strict_spread distinct (Prod.ext rfl done.2)
  | weightedRoundRobin =>
    simp only [doClusterDistribute,doClusterDistributeWeightedRoundRobin,Prod.mk.injEq] at done
    exact takeBySize_spread allocEstimatedMb distinct (fits.resolve_left (by decide)) (Prod.ext rfl done.2)
  | sizeBalancing =>
    simp only [doClusterDistribute,doClusterDistributeSizeBalancing] at done
    rcases taken : takeBySize allocEstimatedMb layout multiSite (cluster.storages siteIdx) with ⟨storages',sids'⟩
    rw [taken] at done
    cases sids' with
    | none => cases done
    | some sids' =>
      cases done
      exact takeBySize_spread allocEstimatedMb distinct (fits.resolve_left (by decide)) taken

/-- A storage that is on line, with the same free size as the others. -/
def online (sid hostRank : Nat) : Storage := ⟨BitVec.ofNat 8 sid,BitVec.ofNat 8 hostRank,0,1,1000,0,0,0⟩

/-- Five storages on three hosts. -/
theorem distribute_spread_hosts :
    WellSpread false [online 1 0,online 2 0,online 3 1,online 4 2,online 5 2] 4 [1,3,4,2] := by
  have done : (doClusterDistribute 10 .layout_2_3_4 0 ⟨0,fun _ => [online 1 0,online 2 0,online 3 1,online 4 2,online 5 2]⟩ false
      .weightedRoundRobin).2 = some [1,3,4,2] := by decide +kernel
  have unaliased : Unaliased 64 false [online 1 0,online 2 0,online 3 1,online 4 2,online 5 2] := by unfold Unaliased; decide
  exact distribute_spread .weightedRoundRobin 10 .layout_2_3_4 0 ⟨0,fun _ => [online 1 0,online 2 0,online 3 1,online 4 2,online 5 2]⟩ false
    (by decide) (.inr (.inr ⟨by decide,unaliased⟩)) (Prod.ext rfl done)

/-- 64 storages of a host, and then one of another host. -/
def crowded : List Storage := (List.range 64).map (fun i => online (i + 1) 0) ++ [online 65 1]

/-- The four storages of a file are on one host, and the other host has a storage: its place in the list
is the bit of the first storage. -/
theorem host_forgotten : (crowded.map Storage.sid).Nodup ∧
    (doClusterDistribute 10 .layout_2_3_4 0 ⟨0,fun _ => crowded⟩ false .weightedRoundRobin).2 = some [1,2,3,4] ∧
    ¬WellSpread false crowded 4 [1,2,3,4] := by
  have one : selectedAt false crowded [1,2,3,4] 1 = 0 := by decide +kernel
  have other : selectedAt false crowded [1,2,3,4] 0 = 4 := by decide +kernel
  refine ⟨by decide +kernel,by decide +kernel,fun spread => ?_⟩
  have taken := spread.spread (online 65 1) (by simp [crowded]) 0
    (show selectedAt false crowded [1,2,3,4] 1 + 2 ≤ selectedAt false crowded [1,2,3,4] 0 by rw [one,other]; decide)
  exact absurd taken (by decide)

end Rules

end Rozofs.Distribution
