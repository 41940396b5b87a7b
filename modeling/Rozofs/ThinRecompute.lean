import Mathlib.Data.List.Nodup
import Mathlib.Data.List.Perm.Subperm
import Mathlib.Data.List.Find
import Rozofs.Machine
import Rozofs.ThinProvisioning

/-! Thin provisioning forgets no request to compute blocks again: what a pass does to the contexts of its
bucket when the storages answer. -/
namespace Rozofs.ThinProvisioning
open Function (update)

/-- The clients that a pass relies on, among those of the storages. -/
structure Trust where
  client : Nat → Nat → Option Nat
  good : Nat → Prop

/-- The client of a storage is relied on. -/
def Trust.Reliable (trust : Trust) (cid sid : Nat) : Prop := ∃ client, trust.client cid sid = some client ∧ trust.good client

/-- The clients that are relied on are up. -/
structure Trust.Holds (trust : Trust) (connexions : Connexions) : Prop where
  client : connexions.client = trust.client
  up : ∀ client, trust.good client → connexions.up client = true

theorem Trust.Holds.status {trust : Trust} {connexions : Connexions} (holds : trust.Holds connexions) {cid sid : Nat}
    (reliable : trust.Reliable cid sid) : connexions.status cid sid = some true := by
  obtain ⟨client,found,good⟩ := reliable
  rw [Connexions.status,holds.client,found,Option.map_some,holds.up client good]

/-- A client that is not relied on goes down. -/
theorem Trust.Holds.down {trust : Trust} {connexions : Connexions} (holds : trust.Holds connexions) {cid sid : Nat}
    (other : ¬trust.Reliable cid sid) : trust.Holds (connexions.down cid sid) := by
  unfold Connexions.down
  cases found : connexions.client cid sid with
  | none => exact holds
  | some client =>
    refine ⟨holds.client,fun client' good => ?_⟩
    have differ : client' ≠ client := by
      rintro rfl
      exact other ⟨client',holds.client ▸ found,good⟩
    exact (Function.update_of_ne differ ..).trans (holds.up client' good)

section Polls
variable {φ : Type} {env : Env φ} {entry : Ctx φ} {needed i : Nat} {poll : Poll} {got : List (Nat × Nat × Nat)}
  {trust : Trust}

/-- The first of `i` places of the table that is for a size. -/
def slot (table : Nat → Compute) (i size : Nat) : Option Nat := (List.range i).find? fun k => (table k).fileSizeInBlocks = size

/-- The answers of a size: the storages and their sectors. -/
def group (got : List (Nat × Nat × Nat)) (size : Nat) : List (Nat × Nat) := (got.filter fun g => g.2.1 = size).map fun g => (g.1,g.2.2)

/-- The sectors of a group of answers as the table has them: the first ones may be missing. -/
def Stored (allocatedSectors : List Nat) (answers : List (Nat × Nat)) : Prop :=
  allocatedSectors = answers.map Prod.snd ∨ answers ≠ [] ∧ allocatedSectors = 0 :: (answers.map Prod.snd).tail

/-- Answers of different storages with one size. -/
structure Answers (env : Env φ) (entry : Ctx φ) (storages size : Nat) (answers : List (Nat × Nat)) : Prop where
  nodup : (answers.map Prod.fst).Nodup
  answer : ∀ a ∈ answers, a.1 < storages ∧ (env.reply entry.cid (entry.sids.getD a.1 0) entry.fid).answer = some (size,a.2)

/-- The table after the first `i` storages, when no size has enough answers; `got` are the answers. -/
structure Tally (env : Env φ) (entry : Ctx φ) (trust : Trust) (needed i : Nat) (poll : Poll) (got : List (Nat × Nat × Nat)) : Prop where
  fresh : ∀ k, i ≤ k → poll.table k = ⟨0,[]⟩
  nodup : (got.map Prod.fst).Nodup
  answer : ∀ g ∈ got, g.1 < i ∧ (env.reply entry.cid (entry.sids.getD g.1 0) entry.fid).answer = some g.2
  empty : ∀ size, slot poll.table i size = none → group got size = []
  stored : ∀ size k, slot poll.table i size = some k → Stored (poll.table k).allocatedSectors (group got size)
  few : poll.nbOccurences < needed ∧ ∀ size, (group got size).length < needed
  all : ∀ j < i, entry.sids.getD j 0 ≠ 0 → trust.Reliable entry.cid (entry.sids.getD j 0) → ∀ a,
    (env.reply entry.cid (entry.sids.getD j 0) entry.fid).answer = some a → (j,a) ∈ got
  up : trust.Holds poll.connexions

theorem slot_congr {table table' : Nat → Compute} (same : ∀ k < i, (table' k).fileSizeInBlocks = (table k).fileSizeInBlocks) (size : Nat) :
    slot table' i size = slot table i size := by
  apply List.find?_congr
  intro k mem
  rw [same k (List.mem_range.mp mem)]

theorem slot_succ (table : Nat → Compute) (i size : Nat) :
    slot table (i + 1) size = (slot table i size).or (if (table i).fileSizeInBlocks = size then some i else none) := by
  unfold slot
  rw [List.range_succ,List.find?_append]
  congr 1
  by_cases here : (table i).fileSizeInBlocks = size
  · simp [here]
  · simp [here]

theorem slot_some {table : Nat → Compute} {size k : Nat} (found : slot table i size = some k) : k < i ∧ (table k).fileSizeInBlocks = size := by
  refine ⟨List.mem_range.mp (List.mem_of_find?_eq_some found),?_⟩
  simpa using List.find?_some found

/-- An answer with the size of an earlier one. -/
theorem tally_found {size sectors k : Nat} (found : slot poll.table i size = some k) :
    poll.tally i size sectors = { poll with
      table := update poll.table k ⟨size % 2 ^ 32,(poll.table k).allocatedSectors ++ [sectors]⟩
      nbOccurences := ((poll.table k).allocatedSectors ++ [sectors]).length
      occurenceIndex := k } := by
  unfold slot at found
  simp only [Poll.tally,found]

/-- An answer with a new size. -/
theorem tally_new {size sectors : Nat} (notFound : slot poll.table i size = none) :
    poll.tally i size sectors = { poll with table := update poll.table i ⟨size % 2 ^ 32,(poll.table i).allocatedSectors ++ [0]⟩ } := by
  unfold slot at notFound
  simp only [Poll.tally,notFound]

/-- A storage that gives no answer. -/
theorem Tally.skip (tally : Tally env entry trust needed i poll got) {connexions : Connexions}
    (up : trust.Holds connexions)
    (none : entry.sids.getD i 0 ≠ 0 → trust.Reliable entry.cid (entry.sids.getD i 0) → (env.reply entry.cid (entry.sids.getD i 0) entry.fid).answer = none) :
    Tally env entry trust needed (i + 1) { poll with connexions := connexions } got := by
  have blank := tally.fresh i (Nat.le_refl _)
  constructor
  case fresh => exact fun k less => tally.fresh k (by omega)
  case nodup => exact tally.nodup
  case answer => exact fun g mem => ⟨Nat.lt_succ_of_lt (tally.answer g mem).1,(tally.answer g mem).2⟩
  case empty =>
    intro size notFound
    rw [slot_succ,Option.or_eq_none_iff] at notFound
    exact tally.empty size notFound.1
  case stored =>
    intro size k found
    rw [slot_succ] at found
    cases before : slot poll.table i size with
    | some k' =>
      rw [before,Option.some_or] at found
      exact tally.stored size k (before.trans found)
    | none =>
      rw [before,Option.none_or,blank] at found
      split at found
      · cases found
        rw [tally.empty size before,blank]
        exact .inl rfl
      · cases found
  case few => exact tally.few
  case all =>
    intro j less some reliable a answered
    rcases Nat.lt_or_eq_of_le (Nat.le_of_lt_succ less) with before | rfl
    · exact tally.all j before some reliable a answered
    · rw [none some reliable] at answered
      cases answered
  case up => exact up

theorem Stored.length {allocatedSectors : List Nat} {answers : List (Nat × Nat)} (stored : Stored allocatedSectors answers) :
    allocatedSectors.length = answers.length := by
  rcases stored with rfl | ⟨some,rfl⟩
  · rw [List.length_map]
  · have positive := List.length_pos_iff.mpr some
    simp only [List.length_cons,List.length_tail,List.length_map]
    omega

theorem Stored.append {allocatedSectors : List Nat} {answers : List (Nat × Nat)} (stored : Stored allocatedSectors answers) (i sectors : Nat) :
    Stored (allocatedSectors ++ [sectors]) (answers ++ [(i,sectors)]) := by
  rcases stored with rfl | ⟨some,rfl⟩
  · left
    rw [List.map_append]
    rfl
  · right
    refine ⟨by simp,?_⟩
    rw [List.map_append,List.tail_append_of_ne_nil (by simpa using some)]
    rfl

theorem group_append (got : List (Nat × Nat × Nat)) (i size sectors other : Nat) :
    group (got ++ [(i,size,sectors)]) other = group got other ++ if size = other then [(i,sectors)] else [] := by
  unfold group
  rw [List.filter_append,List.map_append]
  by_cases same : size = other
  · simp [same]
  · simp [same]

/-- Enough answers of one size, whose sectors are in the table. -/
structure Found (env : Env φ) (entry : Ctx φ) (trust : Trust) (needed storages : Nat) (poll : Poll) : Prop where
  answers : ∃ size answers, Answers env entry storages size answers ∧ needed ≤ answers.length ∧
    Stored (poll.table poll.occurenceIndex).allocatedSectors answers
  enough : needed ≤ poll.nbOccurences
  up : trust.Holds poll.connexions

/-- What the answers after the next one have in common, wherever it is put. -/
theorem Tally.next (tally : Tally env entry trust needed i poll got) {size sectors : Nat}
    (answered : (env.reply entry.cid (entry.sids.getD i 0) entry.fid).answer = some (size,sectors)) :
    ((got ++ [(i,size,sectors)]).map Prod.fst).Nodup ∧
    (∀ g ∈ got ++ [(i,size,sectors)], g.1 < i + 1 ∧ (env.reply entry.cid (entry.sids.getD g.1 0) entry.fid).answer = some g.2) ∧
    ∀ j < i + 1, entry.sids.getD j 0 ≠ 0 → trust.Reliable entry.cid (entry.sids.getD j 0) → ∀ a,
      (env.reply entry.cid (entry.sids.getD j 0) entry.fid).answer = some a → (j,a) ∈ got ++ [(i,size,sectors)] := by
  refine ⟨?_,?_,?_⟩
  · rw [List.map_append]
    apply List.nodup_append.mpr
    refine ⟨tally.nodup,List.nodup_singleton _,?_⟩
    rintro j mem j' mem' rfl
    obtain ⟨g,memG,rfl⟩ := List.mem_map.mp mem
    have less := (tally.answer g memG).1
    rw [List.mem_singleton.mp mem'] at less
    exact Nat.lt_irrefl _ less
  · intro g mem
    rcases List.mem_append.mp mem with before | last
    · exact ⟨Nat.lt_succ_of_lt (tally.answer g before).1,(tally.answer g before).2⟩
    · obtain rfl := List.mem_singleton.mp last
      exact ⟨Nat.lt_succ_self _,answered⟩
  · intro j less some reliable a answeredJ
    rcases Nat.lt_or_eq_of_le (Nat.le_of_lt_succ less) with before | rfl
    · exact List.mem_append_left _ (tally.all j before some reliable a answeredJ)
    · rw [answered] at answeredJ
      cases answeredJ
      exact List.mem_append_right _ (List.mem_singleton_self _)

/-- The next answer has a size of its own. -/
theorem Tally.first (tally : Tally env entry trust needed i poll got) (two : 2 ≤ needed) {size sectors : Nat}
    (answered : (env.reply entry.cid (entry.sids.getD i 0) entry.fid).answer = some (size,sectors)) (notFound : slot poll.table i size = none) :
    Tally env entry trust needed (i + 1) { poll with table := update poll.table i ⟨size,(poll.table i).allocatedSectors ++ [0]⟩ }
      (got ++ [(i,size,sectors)]) := by
  obtain ⟨nodup,answer,all⟩ := tally.next answered
  have blank := tally.fresh i (Nat.le_refl _)
  have before : ∀ other, slot (update poll.table i ⟨size,(poll.table i).allocatedSectors ++ [0]⟩) i other = slot poll.table i other := by
    intro other
    apply slot_congr
    intro k less
    rw [Function.update_of_ne (by omega)]
  constructor
  case nodup => exact nodup
  case answer => exact answer
  case all => exact all
  case up => exact tally.up
  case fresh =>
    intro k less
    dsimp only
    rw [Function.update_of_ne (by omega)]
    exact tally.fresh k (by omega)
  case empty =>
    intro other absent
    dsimp only at absent
    rw [slot_succ,before,Option.or_eq_none_iff,Function.update_self] at absent
    have differ : size ≠ other := by
      intro same
      simp [same] at absent
    rw [group_append,if_neg differ,List.append_nil]
    exact tally.empty other absent.1
  case stored =>
    intro other k found
    dsimp only at found ⊢
    rw [slot_succ,before,Function.update_self] at found
    rw [group_append]
    cases here : slot poll.table i other with
    | some k' =>
      rw [here,Option.some_or] at found
      cases found
      have less := (slot_some here).1
      have differ : size ≠ other := by
        rintro rfl
        rw [notFound] at here
        cases here
      rw [if_neg differ,List.append_nil,Function.update_of_ne (by omega)]
      exact tally.stored other k here
    | none =>
      rw [here,Option.none_or] at found
      split at found
      case isTrue same =>
        cases found
        rw [if_pos same,Function.update_self,tally.empty other here,blank]
        exact .inr ⟨by simp,rfl⟩
      case isFalse => cases found
  case few =>
    refine ⟨tally.few.1,?_⟩
    intro other
    rw [group_append]
    by_cases same : size = other
    · subst same
      rw [tally.empty size notFound]
      simp
      omega
    · rw [if_neg same,List.append_nil]
      exact tally.few.2 other

/-- The next answer has the size of earlier ones. -/
theorem Tally.again (tally : Tally env entry trust needed i poll got) {size sectors k : Nat}
    (answered : (env.reply entry.cid (entry.sids.getD i 0) entry.fid).answer = some (size,sectors)) (found : slot poll.table i size = some k) :
    let next : Poll :=
      { poll with
        table := update poll.table k ⟨size,(poll.table k).allocatedSectors ++ [sectors]⟩
        nbOccurences := ((poll.table k).allocatedSectors ++ [sectors]).length
        occurenceIndex := k }
    if next.nbOccurences ≥ needed then Found env entry trust needed (i + 1) next
    else Tally env entry trust needed (i + 1) next (got ++ [(i,size,sectors)]) := by
  intro next
  obtain ⟨nodup,answer,all⟩ := tally.next answered
  obtain ⟨lessK,sizeK⟩ := slot_some found
  have blank := tally.fresh i (Nat.le_refl _)
  have stored : Stored (next.table k).allocatedSectors (group (got ++ [(i,size,sectors)]) size) := by
    rw [group_append,if_pos rfl]
    dsimp only [next]
    rw [Function.update_self]
    exact (tally.stored size k found).append i sectors
  have length : next.nbOccurences = (group (got ++ [(i,size,sectors)]) size).length := by
    rw [← stored.length]
    dsimp only [next]
    rw [Function.update_self]
  have same : ∀ other, slot next.table (i + 1) other = slot poll.table (i + 1) other := by
    intro other
    apply slot_congr
    intro k' _
    dsimp only [next]
    by_cases here : k' = k
    · subst here
      rw [Function.update_self]
      exact sizeK.symm
    · rw [Function.update_of_ne here]
  have here : slot poll.table (i + 1) size = some k := by rw [slot_succ,found,Option.some_or]
  split
  case isTrue enough =>
    refine ⟨⟨size,group (got ++ [(i,size,sectors)]) size,?_,length ▸ enough,stored⟩,enough,tally.up⟩
    constructor
    · unfold group
      rw [List.map_map]
      exact nodup.sublist (List.filter_sublist.map _)
    · intro a mem
      obtain ⟨g,memG,rfl⟩ := List.mem_map.mp mem
      obtain ⟨inGot,ofSize⟩ := List.mem_filter.mp memG
      refine ⟨(answer g inGot).1,?_⟩
      rw [(answer g inGot).2,← of_decide_eq_true ofSize]
  case isFalse few =>
    constructor
    case nodup => exact nodup
    case answer => exact answer
    case all => exact all
    case up => exact tally.up
    case fresh =>
      intro k' less
      dsimp only [next]
      rw [Function.update_of_ne (by omega)]
      exact tally.fresh k' (by omega)
    case empty =>
      intro other absent
      rw [same] at absent
      have differ : size ≠ other := by
        rintro rfl
        rw [here] at absent
        cases absent
      rw [slot_succ,Option.or_eq_none_iff] at absent
      rw [group_append,if_neg differ,List.append_nil]
      exact tally.empty other absent.1
    case stored =>
      intro other k' foundOther
      rw [same] at foundOther
      by_cases own : size = other
      · subst own
        rw [here] at foundOther
        cases foundOther
        exact stored
      · rw [group_append,if_neg own,List.append_nil]
        have apart : k' ≠ k := by
          rintro rfl
          exact own (sizeK.symm.trans (slot_some foundOther).2)
        dsimp only [next]
        rw [Function.update_of_ne apart]
        rw [slot_succ,blank] at foundOther
        cases before : slot poll.table i other with
        | some k'' =>
          rw [before,Option.some_or] at foundOther
          exact tally.stored other k' (before.trans foundOther)
        | none =>
          rw [before,Option.none_or] at foundOther
          split at foundOther
          · cases foundOther
            rw [blank,tally.empty other before]
            exact .inl rfl
          · cases foundOther
    case few =>
      refine ⟨Nat.lt_of_not_le few,?_⟩
      intro other
      by_cases own : size = other
      · subst own
        rw [← length]
        exact Nat.lt_of_not_le few
      · rw [group_append,if_neg own,List.append_nil]
        exact tally.few.2 other

theorem getD_mem {sids : List Nat} (some : sids.getD i 0 ≠ 0) : sids.getD i 0 ∈ sids := by
  rw [List.getD_eq_getElem?_getD] at some ⊢
  cases found : sids[i]? with
  | none =>
    rw [found] at some
    exact absurd rfl some
  | some sid => exact List.mem_of_getElem? found

/-- The loop over the storages ends with enough answers of a size, or has asked all of them. -/
theorem pollLoop_spec (two : 2 ≤ needed)
    (small : ∀ sid a, (env.reply entry.cid sid entry.fid).answer = some a → a.1 < 2 ^ 32)
    (steady : ∀ sid ∈ entry.sids, sid ≠ 0 → trust.Reliable entry.cid sid → (env.reply entry.cid sid entry.fid).answer ≠ none) (left : Nat) {i : Nat} {poll : Poll}
    {got : List (Nat × Nat × Nat)} (tally : Tally env entry trust needed i poll got) :
    (∃ storages ≤ i + left, Found env entry trust needed storages (pollLoop env entry needed left i poll)) ∨
      ∃ got, Tally env entry trust needed (i + left) (pollLoop env entry needed left i poll) got := by
  induction left generalizing i poll got with
  | zero => exact .inr ⟨got,tally⟩
  | succ left ih =>
    have arith : i + (left + 1) = i + 1 + left := by omega
    rw [arith,pollLoop]
    dsimp only
    split
    case isTrue zero => exact ih (tally.skip tally.up fun some => absurd zero some)
    case isFalse some =>
      split
      case isTrue down => exact ih (tally.skip tally.up fun _ reliable => absurd (tally.up.status reliable) down)
      case isFalse up =>
        cases answered : (env.reply entry.cid (entry.sids.getD i 0) entry.fid).answer with
        | none =>
          have down := tally.up.down fun reliable => steady _ (getD_mem some) some reliable answered
          exact ih (tally.skip down fun _ _ => answered)
        | some a =>
          obtain ⟨size,sectors⟩ := a
          have low : size % 2 ^ 32 = size := Nat.mod_eq_of_lt (small _ _ answered)
          dsimp only
          cases found : slot poll.table i size with
          | none =>
            have put := @tally_new i poll size sectors found
            rw [low] at put
            have next := tally.first two answered found
            rw [put,if_neg (Nat.not_le_of_lt next.few.1)]
            exact ih next
          | some k =>
            have next := tally.again answered found
            have put := @tally_found i poll size sectors k found
            rw [low] at put
            rw [put]
            dsimp only at next ⊢
            split at next
            case isTrue enough =>
              rw [if_pos enough]
              exact .inl ⟨i + 1,by omega,next⟩
            case isFalse few =>
              rw [if_neg few]
              exact ih next

end Polls

section Passes
variable {φ : Type} {guardDelay : Nat} {env : Env φ} {entry entry' : Ctx φ} {trust : Trust} {layout : Layout} {line : Line φ}
  {ps : List Nat}

/-- Enough storages of a file, all reliable, have one size of the file. -/
def Agree (env : Env φ) (entry : Ctx φ) (layout : Layout) (trust : Trust) : Prop :=
  ∃ size, ∃ storages : List Nat, storages.Nodup ∧ quorum layout ≤ storages.length ∧ ∀ i ∈ storages, i < layout.rozofsForward ∧
    entry.sids.getD i 0 ≠ 0 ∧ trust.Reliable entry.cid (entry.sids.getD i 0) ∧
    ∃ sectors, (env.reply entry.cid (entry.sids.getD i 0) entry.fid).answer = some (size,sectors)

theorem quorum_two (layout : Layout) : 2 ≤ quorum layout := by
  cases layout <;> decide

/-- The loop over the storages finds enough answers when enough reliable storages agree. -/
theorem pollLoop_found {connexions : Connexions} (agree : Agree env entry layout trust)
    (small : ∀ sid a, (env.reply entry.cid sid entry.fid).answer = some a → a.1 < 2 ^ 32)
    (steady : ∀ sid ∈ entry.sids, sid ≠ 0 → trust.Reliable entry.cid sid → (env.reply entry.cid sid entry.fid).answer ≠ none)
    (up : trust.Holds connexions) : ∃ storages ≤ layout.rozofsForward,
      Found env entry trust (quorum layout) storages
        (pollLoop env entry (quorum layout) layout.rozofsForward 0 ⟨connexions,fun _ => ⟨0,[]⟩,0,0⟩) := by
  have two := quorum_two layout
  have start : Tally env entry trust (quorum layout) 0 ⟨connexions,fun _ => ⟨0,[]⟩,0,0⟩ [] := by
    constructor
    case up => exact up
    case few => exact ⟨by dsimp only; omega,fun _ => by simp [group]; omega⟩
    all_goals simp [slot,group]
  rcases pollLoop_spec two small steady layout.rozofsForward start with found | ⟨got,tally⟩
  · simpa using found
  · obtain ⟨size,storages,nodup,enough,answers⟩ := agree
    have few := tally.few.2 size
    have sub : storages ⊆ (group got size).map Prod.fst := by
      intro i mem
      obtain ⟨less,some,reliable,sectors,answered⟩ := answers i mem
      have inGot := tally.all i (by omega) some reliable _ answered
      refine List.mem_map.mpr ⟨(i,sectors),?_,rfl⟩
      exact List.mem_map.mpr ⟨(i,size,sectors),List.mem_filter.mpr ⟨inGot,by simp⟩,rfl⟩
    have le := (List.subperm_of_subset nodup sub).length_le
    rw [List.length_map] at le
    omega

/-- The blocks of a context are computed from enough answers that a pass has got. -/
structure Recomputed (env : Env φ) (entry entry' : Ctx φ) : Prop where
  state : entry'.state = .idle
  file : entry'.fid = entry.fid ∧ entry'.cid = entry.cid ∧ entry'.sids = entry.sids
  blocks : ∃ layout, env.exports entry.fid = some layout ∧ ∃ size answers, Answers env entry layout.rozofsForward size answers ∧
    quorum layout ≤ answers.length ∧ ∃ allocatedSectors, Stored allocatedSectors answers ∧ entry'.nb4KBBlocks = nbBlocks layout allocatedSectors

/-- What a pass makes of a context when the storages answer. -/
def After (guardDelay : Nat) (env : Env φ) (entry : Ctx φ) (after : Option (Ctx φ)) : Prop :=
  if entry.state = .delReq then after = none
  else if due guardDelay env entry = true then ∃ entry', after = some entry' ∧ Recomputed env entry entry'
  else after = some entry

theorem computeEntry_spec (p : Nat) (line : Line φ) {connexions : Connexions} (exported : env.exports entry.fid = some layout)
    (connected : (if line.cnxInit then some line.connexions else env.setup entry.fid) = some connexions)
    (up : trust.Holds connexions) (agree : Agree env entry layout trust)
    (small : ∀ sid a, (env.reply entry.cid sid entry.fid).answer = some a → a.1 < 2 ^ 32)
    (steady : ∀ sid ∈ entry.sids, sid ≠ 0 → trust.Reliable entry.cid sid → (env.reply entry.cid sid entry.fid).answer ≠ none) :
    ∃ line' entry', computeEntry env p { entry with state := .inPrg } { line with heap := update line.heap p (some { entry with state := .inPrg }) } =
        (line',false) ∧ line'.heap = update line.heap p (some entry') ∧ Recomputed env entry entry' ∧
      line'.cnxInit = true ∧ trust.Holds line'.connexions := by
  have agree' : Agree env { entry with state := .inPrg } layout trust := agree
  obtain ⟨storages,le,found⟩ := pollLoop_found agree' small steady up
  obtain ⟨size,answers,same,enough,stored⟩ := found.answers
  unfold computeEntry
  simp only [exported,connected,if_neg (Nat.not_lt_of_le found.enough),if_true]
  refine ⟨_,_,rfl,by rw [Function.update_idem],?_,rfl,found.up⟩
  refine ⟨rfl,⟨rfl,rfl,rfl⟩,layout,exported,size,answers,?_,enough,_,stored,rfl⟩
  exact ⟨same.nodup,fun a mem => ⟨Nat.lt_of_lt_of_le (same.answer a mem).1 le,(same.answer a mem).2⟩⟩

/-- The connections that a pass has for the first context that is due. -/
def startConnexions (guardDelay : Nat) (env : Env φ) (heap : Nat → Option (Ctx φ)) (ps : List Nat) (cnxInit : Bool)
    (connexions : Connexions) : Option Connexions :=
  if cnxInit then some connexions else ((ps.filterMap heap).find? (due guardDelay env)).bind fun entry => env.setup entry.fid

/-- The contexts of a list that are due will be computed. -/
structure Ready (guardDelay : Nat) (env : Env φ) (trust : Trust) (ps : List Nat) (line : Line φ) : Prop where
  known : ∀ p ∈ ps, (line.heap p).isSome = true
  entries : ∀ p ∈ ps, ∀ entry, line.heap p = some entry → due guardDelay env entry = true →
    (∃ layout, env.exports entry.fid = some layout ∧ Agree env entry layout trust) ∧
    (∀ sid a, (env.reply entry.cid sid entry.fid).answer = some a → a.1 < 2 ^ 32) ∧
    ∀ sid ∈ entry.sids, sid ≠ 0 → trust.Reliable entry.cid sid → (env.reply entry.cid sid entry.fid).answer ≠ none
  connected : ∀ p ∈ ps, ∀ entry, line.heap p = some entry → due guardDelay env entry = true →
    ∃ connexions, startConnexions guardDelay env line.heap ps line.cnxInit line.connexions = some connexions ∧
      trust.Holds connexions

/-- What a pass does to the contexts of a list. -/
structure Passed (guardDelay : Nat) (env : Env φ) (ps : List Nat) (line : Line φ) (result : List Nat × Line φ) : Prop where
  outside : ∀ p ∉ ps, result.2.heap p = line.heap p
  after : ∀ p ∈ ps, ∀ entry, line.heap p = some entry → After guardDelay env entry (result.2.heap p)
  left : ∀ p, p ∈ result.1 ↔ p ∈ ps ∧ (result.2.heap p).isSome = true
  nodup : result.1.Nodup

theorem filterMap_heap {heap heap' : Nat → Option (Ctx φ)} (same : ∀ p ∈ ps, heap' p = heap p) : ps.filterMap heap' = ps.filterMap heap :=
  List.filterMap_congr same

/-- The first context of a list is worked on, then the other ones. -/
theorem Passed.cons {p : Nat} {line' : Line φ} {result : List Nat × Line φ} {after : Option (Ctx φ)} {left : List Nat} (fresh : p ∉ ps)
    (here : line.heap p = some entry) (edited : line'.heap p = after) (others : ∀ p' ≠ p, line'.heap p' = line.heap p')
    (correct : After guardDelay env entry after) (later : Passed guardDelay env ps line' result) (kept : left = if after.isSome then p :: result.1 else result.1) :
    Passed guardDelay env (p :: ps) line (left,result.2) := by
  have own : result.2.heap p = after := (later.outside p fresh).trans edited
  have notLeft : p ∉ result.1 := fun mem => fresh ((later.left p).mp mem).1
  constructor
  case outside =>
    intro p' notMem
    rw [List.mem_cons,not_or] at notMem
    rw [later.outside p' notMem.2,others p' notMem.1]
  case after =>
    intro p' mem entry' at_
    rcases List.mem_cons.mp mem with rfl | inRest
    · rw [here] at at_
      cases at_
      rw [own]
      exact correct
    · have differ : p' ≠ p := fun same => fresh (same ▸ inRest)
      exact later.after p' inRest entry' ((others p' differ).trans at_)
  case left =>
    intro p'
    have before := later.left p'
    subst kept
    by_cases same : p' = p
    · subst same
      dsimp only
      rw [own]
      cases after with
      | none => simp [notLeft]
      | some => simp
    · cases after with
      | none => simpa [same] using before
      | some => simpa [same] using before
  case nodup =>
    subst kept
    cases after with
    | none => exact later.nodup
    | some => exact List.nodup_cons.mpr ⟨notLeft,later.nodup⟩

/-- The rest of a list is ready after a context that is not due. -/
theorem Ready.skip {p : Nat} {line' : Line φ} (ready : Ready guardDelay env trust (p :: ps) line) (here : line.heap p = some entry)
    (notDue : due guardDelay env entry = false) (same : ∀ p' ∈ ps, line'.heap p' = line.heap p') (cnxInit : line'.cnxInit = line.cnxInit)
    (connexions : line'.connexions = line.connexions) : Ready guardDelay env trust ps line' := by
  constructor
  case known =>
    intro p' mem
    rw [same p' mem]
    exact ready.known p' (List.mem_cons_of_mem _ mem)
  case entries =>
    intro p' mem entry' at_ isDue
    rw [same p' mem] at at_
    exact ready.entries p' (List.mem_cons_of_mem _ mem) entry' at_ isDue
  case connected =>
    intro p' mem entry' at_ isDue
    rw [same p' mem] at at_
    obtain ⟨found,start,up⟩ := ready.connected p' (List.mem_cons_of_mem _ mem) entry' at_ isDue
    refine ⟨found,?_,up⟩
    unfold startConnexions at start ⊢
    rw [List.filterMap_cons,here] at start
    simp only [List.find?_cons,notDue] at start
    rwa [filterMap_heap same,cnxInit,connexions]

/-- The rest of a list is ready after a context that has been computed. -/
theorem Ready.computed {p : Nat} {line' : Line φ} (ready : Ready guardDelay env trust (p :: ps) line)
    (same : ∀ p' ∈ ps, line'.heap p' = line.heap p') (connected : line'.cnxInit = true)
    (up : trust.Holds line'.connexions) : Ready guardDelay env trust ps line' := by
  constructor
  case known =>
    intro p' mem
    rw [same p' mem]
    exact ready.known p' (List.mem_cons_of_mem _ mem)
  case entries =>
    intro p' mem entry' at_ isDue
    rw [same p' mem] at at_
    exact ready.entries p' (List.mem_cons_of_mem _ mem) entry' at_ isDue
  case connected =>
    intro p' _ entry' _ _
    exact ⟨line'.connexions,by simp [startConnexions,connected],up⟩

/-- A pass over contexts that are ready computes the blocks of those that are due. -/
theorem hashLineLoop_spec (ps : List Nat) {line : Line φ} (nodup : ps.Nodup) (ready : Ready guardDelay env trust ps line) :
    Passed guardDelay env ps line (hashLineLoop guardDelay env ps line) := by
  induction ps generalizing line with
  | nil => exact ⟨fun _ _ => rfl,by simp,by simp [hashLineLoop],List.nodup_nil⟩
  | cons p rest ih =>
    obtain ⟨fresh,nodupRest⟩ := List.nodup_cons.mp nodup
    obtain ⟨entry,here⟩ := Option.isSome_iff_exists.mp (ready.known p (List.mem_cons_self ..))
    have differ : ∀ p' ∈ rest, p' ≠ p := by
      rintro p' mem rfl
      exact fresh mem
    rw [hashLineLoop]
    simp only [here]
    split
    case isTrue delReq =>
      have notDue : due guardDelay env entry = false := by simp [due,delReq]
      have dropped : Ready guardDelay env trust rest { line with heap := update line.heap p none, nbEntries := line.nbEntries - 1 } :=
        ready.skip here notDue (fun p' mem => Function.update_of_ne (differ p' mem) none line.heap) rfl rfl
      have later := ih nodupRest dropped
      exact Passed.cons fresh here (Function.update_self ..) (fun p' other => Function.update_of_ne other ..) (by simp [After,delReq]) later rfl
    case isFalse alive =>
      split
      case isTrue isDue =>
        obtain ⟨⟨layout,exported,agree⟩,small,steady⟩ := ready.entries p (List.mem_cons_self ..) entry here isDue
        obtain ⟨connexions,start,up⟩ := ready.connected p (List.mem_cons_self ..) entry here isDue
        have connected : (if line.cnxInit then some line.connexions else env.setup entry.fid) = some connexions := by
          unfold startConnexions at start
          rw [List.filterMap_cons,here] at start
          simpa only [List.find?_cons,isDue,Option.bind_some] using start
        obtain ⟨line',entry',computed,heap,recomputed,cnxInit,up'⟩ := 
          computeEntry_spec p line exported connected up agree small steady
        rw [computed]
        dsimp only
        have others : ∀ p' ≠ p, line'.heap p' = line.heap p' := by
          intro p' other
          rw [heap,Function.update_of_ne other]
        have later := ih nodupRest (ready.computed (fun p' mem => others p' (differ p' mem)) cnxInit up')
        have after : After guardDelay env entry (some entry') := by
          simp only [After,alive,isDue,if_false,if_true]
          exact ⟨entry',rfl,recomputed⟩
        exact Passed.cons fresh here (by rw [heap,Function.update_self]) others after later rfl
      case isFalse notDue =>
        have later := ih nodupRest (ready.skip here (Bool.eq_false_iff.mpr notDue) (fun _ _ => rfl) rfl rfl)
        have after : After guardDelay env entry (some entry) := by simp [After,alive,notDue]
        exact Passed.cons fresh here here (fun _ _ => rfl) after later rfl

end Passes

section Steps
variable {φ : Type} {hash : φ → Nat} {size guardDelay : Nat} {st st' : State φ}

/-- No context is left in progress, each context is in the bucket of its file, and an entry of the cache has
a context of its own that is not to be deleted. -/
structure Settled (hash : φ → Nat) (size : Nat) (st : State φ) : Prop where
  states : ∀ p ctx, st.heap p = some ctx → ctx.state = .idle ∨ ctx.state = .updateReq ∨ ctx.state = .delReq
  below : ∀ p, (st.heap p).isSome = true → p < st.next
  placed : ∀ p bucket, p ∈ st.buckets bucket ↔ ∃ ctx, st.heap p = some ctx ∧ bucketOf hash size ctx.fid = bucket
  nodup : ∀ bucket, (st.buckets bucket).Nodup
  owned : ∀ entry lv2 p, st.lv2 entry = some lv2 → lv2.thinProvisioningCtx = some p → ∃ ctx, st.heap p = some ctx ∧ ctx.state ≠ .delReq
  single : ∀ entry entry' lv2 lv2' p, st.lv2 entry = some lv2 → st.lv2 entry' = some lv2' → lv2.thinProvisioningCtx = some p →
    lv2'.thinProvisioningCtx = some p → entry = entry'

/-- The clients that are up when a pass starts and answer all its requests, whichever of their storages is asked. -/
def reliable (env : Env φ) (entries : List (Ctx φ)) (connexions : Connexions) : Trust where
  client := connexions.client
  good client := connexions.up client = true ∧ ∀ entry ∈ entries, ∀ sid ∈ entry.sids, sid ≠ 0 →
    connexions.client entry.cid sid = some client → env.reply entry.cid sid entry.fid ≠ .error

/-- A pass finds the export, the connections and enough reliable answers for each context that is due; no storage
answers a size that needs more than 32 bits. -/
def Serves (guardDelay : Nat) (st : State φ) : Act φ → Prop
  | .pass bucket env cnxInit connexions =>
    let entries := ((st.buckets bucket).filterMap st.heap).filter (due guardDelay env)
    ∀ entry ∈ entries, ∃ layout start, env.exports entry.fid = some layout ∧
      startConnexions guardDelay env st.heap (st.buckets bucket) cnxInit connexions = some start ∧
      Agree env entry layout (reliable env entries start) ∧ ∀ sid a, (env.reply entry.cid sid entry.fid).answer = some a → a.1 < 2 ^ 32
  | _ => True

/-- A step deletes only contexts that are to be deleted, and a request ends when its file leaves the cache or
the blocks have been computed again. -/
structure Kept (st : State φ) (a : Act φ) (st' : State φ) : Prop where
  requested : ∀ p ctx, st.heap p = some ctx → ctx.state = .updateReq → ∃ ctx', st'.heap p = some ctx' ∧
    (ctx'.state = .updateReq ∨
      (ctx'.state = .delReq ∧ ∃ entry lv2, a = .remove entry ∧ st.lv2 entry = some lv2 ∧ lv2.thinProvisioningCtx = some p) ∨
      ∃ bucket env cnxInit connexions, a = .pass bucket env cnxInit connexions ∧ Recomputed env ctx ctx')
  stays : ∀ p ctx, st.heap p = some ctx → ctx.state ≠ .delReq → (st'.heap p).isSome = true

theorem Kept.of_heap {a : Act φ} (same : st'.heap = st.heap) : Kept st a st' where
  requested p ctx here request := ⟨ctx,same ▸ here,.inl request⟩
  stays p ctx here _ := by rw [same,here]; rfl

theorem init_settled : Settled hash size (init : State φ) := by
  constructor <;> simp [init]

theorem Settled.setLv2 (settled : Settled hash size st) {entry : Nat} {lv2 : Lv2Entry φ} (none : lv2.thinProvisioningCtx = none) :
    Settled hash size { st with lv2 := update st.lv2 entry (some lv2) } := by
  have before : ∀ entry' lv2' p, update st.lv2 entry (some lv2) entry' = some lv2' → lv2'.thinProvisioningCtx = some p →
      st.lv2 entry' = some lv2' := by
    intro entry' lv2' p at_ own
    by_cases same : entry' = entry
    · subst same
      rw [Function.update_self] at at_
      cases at_
      rw [none] at own
      cases own
    · rwa [Function.update_of_ne same] at at_
  constructor
  case states => exact settled.states
  case below => exact settled.below
  case placed => exact settled.placed
  case nodup => exact settled.nodup
  case owned => exact fun entry' lv2' p at_ own => settled.owned entry' lv2' p (before entry' lv2' p at_ own) own
  case single =>
    exact fun e e' l l' p at_ at_' own own' => settled.single e e' l l' p (before e l p at_ own) (before e' l' p at_' own') own own'

/-- A context is put in the place of one of the same file. -/
theorem Settled.setCtx (settled : Settled hash size st) {p : Nat} {ctx ctx' : Ctx φ} (here : st.heap p = some ctx) (file : ctx'.fid = ctx.fid)
    (state : ctx'.state = .idle ∨ ctx'.state = .updateReq ∨ ctx'.state = .delReq)
    (free : ctx'.state = .delReq → ∀ entry lv2, st.lv2 entry = some lv2 → lv2.thinProvisioningCtx ≠ some p) :
    Settled hash size { st with heap := update st.heap p (some ctx') } := by
  constructor
  case states =>
    intro p' ctx'' at_
    by_cases same : p' = p
    · subst same
      dsimp only at at_
      rw [Function.update_self] at at_
      cases at_
      exact state
    · dsimp only at at_
      rw [Function.update_of_ne same] at at_
      exact settled.states p' ctx'' at_
  case below =>
    intro p' some
    by_cases same : p' = p
    · subst same
      exact settled.below p' (by rw [here]; rfl)
    · dsimp only at some
      rw [Function.update_of_ne same] at some
      exact settled.below p' some
  case placed =>
    intro p' bucket
    dsimp only
    rw [settled.placed]
    by_cases same : p' = p
    · subst same
      simp [here,file]
    · rw [Function.update_of_ne same]
  case nodup => exact settled.nodup
  case owned =>
    intro entry lv2 p' at_ own
    by_cases same : p' = p
    · subst same
      exact ⟨ctx',Function.update_self ..,fun delReq => free delReq entry lv2 at_ own⟩
    · obtain ⟨other,there,alive⟩ := settled.owned entry lv2 p' at_ own
      exact ⟨other,(Function.update_of_ne same ..).trans there,alive⟩
  case single => exact settled.single

theorem allocate_heap (lv2 : Lv2Entry φ) : (expthinAllocateContext hash size lv2 st).heap =
    update st.heap st.next (some ⟨lv2.fid,lv2.cid,lv2.sids.take maxSid,.idle,lv2.nbBlocksThin,lv2.mtime⟩) := rfl

theorem Settled.fresh (settled : Settled hash size st) : st.heap st.next = none := by
  cases found : st.heap st.next with
  | none => rfl
  | some ctx => exact absurd (settled.below st.next (by rw [found]; rfl)) (Nat.lt_irrefl _)

theorem Settled.allocate (settled : Settled hash size st) (lv2 : Lv2Entry φ) : Settled hash size (expthinAllocateContext hash size lv2 st) := by
  have fresh := settled.fresh
  have absent : ∀ bucket, st.next ∉ st.buckets bucket := by
    intro bucket mem
    obtain ⟨ctx,here,_⟩ := (settled.placed _ _).mp mem
    rw [fresh] at here
    cases here
  constructor
  case states =>
    intro p ctx at_
    by_cases same : p = st.next
    · subst same
      rw [allocate_heap,Function.update_self] at at_
      cases at_
      exact .inl rfl
    · rw [allocate_heap,Function.update_of_ne same] at at_
      exact settled.states p ctx at_
  case below =>
    intro p some
    by_cases same : p = st.next
    · exact same ▸ Nat.lt_succ_self _
    · rw [allocate_heap,Function.update_of_ne same] at some
      exact Nat.lt_succ_of_lt (settled.below p some)
  case placed =>
    intro p bucket
    have before := settled.placed p bucket
    unfold expthinAllocateContext
    dsimp only
    by_cases same : p = st.next
    · subst same
      rw [Function.update_self]
      by_cases own : bucket = bucketOf hash size lv2.fid
      · subst own
        simp
      · simp [Function.update_of_ne own,absent,Ne.symm own]
    · rw [Function.update_of_ne same]
      by_cases own : bucket = bucketOf hash size lv2.fid
      · subst own
        simpa [same] using before
      · rwa [Function.update_of_ne own]
  case nodup =>
    intro bucket
    unfold expthinAllocateContext
    dsimp only
    by_cases own : bucket = bucketOf hash size lv2.fid
    · subst own
      rw [Function.update_self]
      apply List.nodup_append.mpr
      refine ⟨settled.nodup _,List.nodup_singleton _,?_⟩
      rintro p mem p' mem' rfl
      rw [List.mem_singleton.mp mem'] at mem
      exact absent _ mem
    · rw [Function.update_of_ne own]
      exact settled.nodup bucket
  case owned =>
    intro entry lv2' p at_ own
    obtain ⟨ctx,here,alive⟩ := settled.owned entry lv2' p at_ own
    have differ : p ≠ st.next := by
      rintro rfl
      rw [fresh] at here
      cases here
    exact ⟨ctx,(Function.update_of_ne differ ..).trans here,alive⟩
  case single => exact settled.single

/-- An entry of the cache gets a context that is its own or nobody's. -/
theorem Settled.point (settled : Settled hash size st) {entry p : Nat} {lv2 : Lv2Entry φ} {ctx : Ctx φ} (here : st.heap p = some ctx)
    (alive : ctx.state ≠ .delReq) (pointer : lv2.thinProvisioningCtx = some p)
    (own : ∀ entry' lv2', st.lv2 entry' = some lv2' → lv2'.thinProvisioningCtx = some p → entry' = entry) :
    Settled hash size { st with lv2 := update st.lv2 entry (some lv2) } := by
  constructor
  case states => exact settled.states
  case below => exact settled.below
  case placed => exact settled.placed
  case nodup => exact settled.nodup
  case owned =>
    intro entry' lv2' p' at_ own'
    by_cases same : entry' = entry
    · subst same
      dsimp only at at_
      rw [Function.update_self] at at_
      cases at_
      rw [pointer] at own'
      cases own'
      exact ⟨ctx,here,alive⟩
    · dsimp only at at_
      rw [Function.update_of_ne same] at at_
      exact settled.owned entry' lv2' p' at_ own'
  case single =>
    intro e e' l l' p' at_ at_' ownE ownE'
    dsimp only at at_ at_'
    by_cases same : e = entry
    · subst same
      rw [Function.update_self] at at_
      cases at_
      rw [pointer] at ownE
      cases ownE
      by_cases same' : e' = e
      · exact same'.symm
      · rw [Function.update_of_ne same'] at at_'
        exact (own e' l' at_' ownE').symm
    · rw [Function.update_of_ne same] at at_
      by_cases same' : e' = entry
      · subst same'
        rw [Function.update_self] at at_'
        cases at_'
        rw [pointer] at ownE'
        cases ownE'
        exact own e l at_ ownE
      · rw [Function.update_of_ne same'] at at_'
        exact settled.single e e' l l' p' at_ at_' ownE ownE'

theorem checkContext_spec (writeBlockFlag : Bool) (lv2 : Lv2Entry φ) (ctx : Ctx φ) :
    (checkContext writeBlockFlag lv2 ctx).1.fid = ctx.fid ∧
      ((checkContext writeBlockFlag lv2 ctx).1.state = .updateReq ∨ (checkContext writeBlockFlag lv2 ctx).1.state = ctx.state) := by
  unfold checkContext
  dsimp only
  split
  · exact ⟨rfl,.inl rfl⟩
  · exact ⟨rfl,.inr rfl⟩

/-- A check of a context that an entry has, or has just got. -/
theorem check_settled (settled : Settled hash size st) {entry p : Nat} {lv2 : Lv2Entry φ} {ctx ctx' : Ctx φ} (here : st.heap p = some ctx)
    (alive : ctx.state ≠ .delReq) (pointer : lv2.thinProvisioningCtx = some p)
    (own : ∀ entry' lv2', st.lv2 entry' = some lv2' → lv2'.thinProvisioningCtx = some p → entry' = entry) (file : ctx'.fid = ctx.fid)
    (state : ctx'.state = .updateReq ∨ ctx'.state = ctx.state) :
    Settled hash size { st with heap := update st.heap p (some ctx'), lv2 := update st.lv2 entry (some lv2) } := by
  have states : ctx'.state = .idle ∨ ctx'.state = .updateReq ∨ ctx'.state = .delReq := by
    rcases state with request | same
    · exact .inr (.inl request)
    · rw [same]
      exact settled.states p ctx here
  have alive' : ctx'.state ≠ .delReq := by
    rcases state with request | same
    · rw [request]
      decide
    · rw [same]
      exact alive
  have put := settled.setCtx here file states fun delReq => absurd delReq alive'
  exact put.point (Function.update_self ..) alive' pointer own

theorem Kept.put {a : Act φ} {p : Nat} {ctx ctx' : Ctx φ} (here : st.heap p = some ctx) (state : ctx'.state = .updateReq ∨ ctx'.state = ctx.state)
    (heap : st'.heap = update st.heap p (some ctx')) : Kept st a st' := by
  constructor
  case requested =>
    intro p' old at_ request
    by_cases same : p' = p
    · subst same
      rw [here] at at_
      cases at_
      refine ⟨ctx',by rw [heap,Function.update_self],.inl ?_⟩
      rcases state with updateReq | kept
      · exact updateReq
      · exact kept.trans request
    · exact ⟨old,by rw [heap,Function.update_of_ne same,at_],.inl request⟩
  case stays =>
    intro p' old at_ _
    by_cases same : p' = p
    · subst same
      rw [heap,Function.update_self]
      rfl
    · rw [heap,Function.update_of_ne same,at_]
      rfl

theorem Kept.allocated {a : Act φ} {p : Nat} {after : Option (Ctx φ)} (fresh : st.heap p = none) (heap : st'.heap = update st.heap p after) :
    Kept st a st' := by
  have same : ∀ p' ctx, st.heap p' = some ctx → st'.heap p' = some ctx := by
    rintro p' ctx at_
    have differ : p' ≠ p := by
      rintro rfl
      rw [fresh] at at_
      cases at_
    rw [heap,Function.update_of_ne differ,at_]
  constructor
  case requested => exact fun p' ctx at_ request => ⟨ctx,same p' ctx at_,.inl request⟩
  case stays =>
    intro p' ctx at_ _
    rw [same p' ctx at_]
    rfl

theorem check_step {thin flag : Bool} {entry : Nat} {change : Change} (settled : Settled hash size st)
    (done : expthinCheckEntry hash size thin entry flag st = some (st',change)) :
    Settled hash size st' ∧ Kept st (.check thin entry flag) st' := by
  unfold expthinCheckEntry at done
  cases found : st.lv2 entry with
  | none =>
    rw [found] at done
    cases done
  | some lv2 =>
    simp only [found] at done
    split at done
    case isTrue =>
      cases done
      exact ⟨settled,Kept.of_heap rfl⟩
    case isFalse =>
      cases pointer : lv2.thinProvisioningCtx with
      | some p =>
        obtain ⟨ctx,here,alive⟩ := settled.owned entry lv2 p found pointer
        obtain ⟨file,state⟩ := checkContext_spec flag lv2 ctx
        simp only [pointer,here] at done
        cases done
        have own : ∀ entry' lv2', st.lv2 entry' = some lv2' → lv2'.thinProvisioningCtx = some p → entry' = entry :=
          fun entry' lv2' at_ own => settled.single entry' entry lv2' lv2 p at_ found own pointer
        exact ⟨check_settled settled here alive rfl own file state,Kept.put here state rfl⟩
      | none =>
        have fresh := settled.fresh
        have allocated := settled.allocate lv2
        simp only [pointer,allocate_heap,Function.update_self,Function.update_idem] at done
        obtain ⟨file,state⟩ := checkContext_spec flag lv2 ⟨lv2.fid,lv2.cid,lv2.sids.take maxSid,.idle,lv2.nbBlocksThin,lv2.mtime⟩
        cases done
        refine ⟨?_,Kept.allocated fresh rfl⟩
        rw [← Function.update_idem (f := st.heap) (a := st.next)]
        apply check_settled allocated (by rw [allocate_heap,Function.update_self]) (by simp) rfl ?_ file state
        intro entry' lv2' at_ own
        obtain ⟨ctx,here,_⟩ := settled.owned entry' lv2' st.next at_ own
        rw [fresh] at here
        cases here

theorem Settled.clear (settled : Settled hash size st) (entry : Nat) : Settled hash size { st with lv2 := update st.lv2 entry none } := by
  have before : ∀ entry' lv2, update st.lv2 entry none entry' = some lv2 → st.lv2 entry' = some lv2 := by
    intro entry' lv2 at_
    by_cases same : entry' = entry
    · subst same
      rw [Function.update_self] at at_
      cases at_
    · rwa [Function.update_of_ne same] at at_
  constructor
  case states => exact settled.states
  case below => exact settled.below
  case placed => exact settled.placed
  case nodup => exact settled.nodup
  case owned => exact fun entry' lv2 p at_ own => settled.owned entry' lv2 p (before entry' lv2 at_) own
  case single => exact fun e e' l l' p at_ at_' own own' => settled.single e e' l l' p (before e l at_) (before e' l' at_') own own'

theorem remove_step {entry : Nat} (settled : Settled hash size st) (done : expthinRemoveEntry entry st = some st') :
    Settled hash size st' ∧ Kept st (.remove entry) st' := by
  unfold expthinRemoveEntry at done
  cases found : st.lv2 entry with
  | none =>
    rw [found] at done
    cases done
  | some lv2 =>
    cases pointer : lv2.thinProvisioningCtx with
    | none =>
      simp only [found,pointer] at done
      cases done
      exact ⟨settled.clear entry,Kept.of_heap rfl⟩
    | some p =>
      obtain ⟨ctx,here,_⟩ := settled.owned entry lv2 p found pointer
      simp only [found,pointer,here,Option.map_some] at done
      cases done
      have free : ∀ entry' lv2', update st.lv2 entry none entry' = some lv2' → lv2'.thinProvisioningCtx ≠ some p := by
        intro entry' lv2' at_ own
        by_cases same : entry' = entry
        · subst same
          rw [Function.update_self] at at_
          cases at_
        · rw [Function.update_of_ne same] at at_
          exact same (settled.single entry' entry lv2' lv2 p at_ found own pointer)
      have deleted : Settled hash size { st with heap := update st.heap p (some { ctx with state := .delReq }), lv2 := update st.lv2 entry none } :=
        (settled.clear entry).setCtx here rfl (.inr (.inr rfl)) fun _ => free
      refine ⟨deleted,?_⟩
      constructor
      case requested =>
        intro p' old at_ request
        by_cases same : p' = p
        · subst same
          exact ⟨_,Function.update_self ..,.inr (.inl ⟨rfl,entry,lv2,rfl,found,pointer⟩)⟩
        · exact ⟨old,(Function.update_of_ne same ..).trans at_,.inl request⟩
      case stays =>
        intro p' old at_ _
        by_cases same : p' = p
        · subst same
          simp
        · simp [Function.update_of_ne same,at_]

/-- The contexts of a bucket are ready for a pass that is served. -/
theorem Settled.ready (settled : Settled hash size st) {bucket : Nat} {env : Env φ} {cnxInit : Bool} {connexions : Connexions}
    (serves : Serves guardDelay st (.pass bucket env cnxInit connexions)) :
    ∃ trust, Ready guardDelay env trust (st.buckets bucket) ⟨st.heap,st.nbEntries,cnxInit,connexions,0⟩ := by
  have known : ∀ p ∈ st.buckets bucket, (st.heap p).isSome = true := by
    intro p mem
    obtain ⟨ctx,here,_⟩ := (settled.placed p bucket).mp mem
    rw [here]
    rfl
  have due_mem : ∀ p ∈ st.buckets bucket, ∀ entry, st.heap p = some entry → due guardDelay env entry = true →
      entry ∈ ((st.buckets bucket).filterMap st.heap).filter (due guardDelay env) := by
    intro p mem entry at_ isDue
    exact List.mem_filter.mpr ⟨List.mem_filterMap.mpr ⟨p,mem,at_⟩,isDue⟩
  cases connected : startConnexions guardDelay env st.heap (st.buckets bucket) cnxInit connexions with
  | none =>
    have idle : ∀ p ∈ st.buckets bucket, ∀ entry, st.heap p = some entry → due guardDelay env entry ≠ true := by
      intro p mem entry at_ isDue
      obtain ⟨_,start,_,startAt,_⟩ := serves entry (due_mem p mem entry at_ isDue)
      rw [connected] at startAt
      cases startAt
    exact ⟨⟨fun _ _ => none,fun _ => False⟩,known,fun p mem entry at_ isDue => absurd isDue (idle p mem entry at_),
      fun p mem entry at_ isDue => absurd isDue (idle p mem entry at_)⟩
  | some start =>
    refine ⟨reliable env (((st.buckets bucket).filterMap st.heap).filter (due guardDelay env)) start,known,?_,?_⟩
    · intro p mem entry at_ isDue
      have inDue := due_mem p mem entry at_ isDue
      obtain ⟨layout,start',exported,startAt,agree,small⟩ := serves entry inDue
      rw [connected] at startAt
      cases startAt
      refine ⟨⟨layout,exported,agree⟩,small,?_⟩
      rintro sid member some ⟨client,found,_,answers⟩ noAnswer
      cases reply : env.reply entry.cid sid entry.fid with
      | error => exact answers entry inDue sid member some found reply
      | enoent =>
        rw [reply] at noAnswer
        cases noAnswer
      | size fileSizeInBlocks allocatedSectors =>
        rw [reply] at noAnswer
        cases noAnswer
    · exact fun _ _ _ _ _ => ⟨start,connected,rfl,fun _ good => good.1⟩

theorem due_updateReq {env : Env φ} {ctx : Ctx φ} (isDue : due guardDelay env ctx = true) : ctx.state = .updateReq := by
  unfold due at isDue
  exact of_decide_eq_true (Bool.and_eq_true_iff.mp isDue).1

/-- A context that is not to be deleted is the same after a pass, or its blocks have been computed. -/
theorem Passed.kept {env : Env φ} {ps : List Nat} {line : Line φ} {result : List Nat × Line φ} (passed : Passed guardDelay env ps line result)
    {p : Nat} {ctx : Ctx φ} (here : line.heap p = some ctx) (alive : ctx.state ≠ .delReq) :
    ∃ ctx', result.2.heap p = some ctx' ∧ (ctx' = ctx ∨ ctx.state = .updateReq ∧ Recomputed env ctx ctx') := by
  by_cases mem : p ∈ ps
  · have after := passed.after p mem ctx here
    rw [After,if_neg alive] at after
    split at after
    case isTrue isDue =>
      obtain ⟨ctx',at_,recomputed⟩ := after
      exact ⟨ctx',at_,.inr ⟨due_updateReq isDue,recomputed⟩⟩
    case isFalse => exact ⟨ctx,after,.inl rfl⟩
  · exact ⟨ctx,(passed.outside p mem).trans here,.inl rfl⟩

/-- The contexts after a pass were there before, with the same file. -/
theorem Passed.origin {env : Env φ} {ps : List Nat} {line : Line φ} {result : List Nat × Line φ} (passed : Passed guardDelay env ps line result)
    (known : ∀ p ∈ ps, (line.heap p).isSome = true) {p : Nat} {ctx' : Ctx φ} (there : result.2.heap p = some ctx') :
    ∃ ctx, line.heap p = some ctx ∧ ctx'.fid = ctx.fid ∧ (ctx' = ctx ∨ ctx'.state = .idle) := by
  by_cases mem : p ∈ ps
  · obtain ⟨ctx,here⟩ := Option.isSome_iff_exists.mp (known p mem)
    by_cases delReq : ctx.state = .delReq
    · have after := passed.after p mem ctx here
      rw [After,if_pos delReq,there] at after
      cases after
    · obtain ⟨other,at_,same | ⟨_,recomputed⟩⟩ := passed.kept here delReq
      · rw [there] at at_
        cases at_
        exact ⟨ctx,here,by rw [same],.inl same⟩
      · rw [there] at at_
        cases at_
        exact ⟨ctx,here,recomputed.file.1,.inr recomputed.state⟩
  · have here := (passed.outside p mem).symm.trans there
    exact ⟨ctx',here,rfl,.inl rfl⟩

theorem pass_step {bucket : Nat} {env : Env φ} {cnxInit : Bool} {connexions : Connexions} (settled : Settled hash size st)
    (serves : Serves guardDelay st (.pass bucket env cnxInit connexions))
    (done : step hash size guardDelay (.pass bucket env cnxInit connexions) st = some st') :
    Settled hash size st' ∧ Kept st (.pass bucket env cnxInit connexions) st' := by
  obtain ⟨_,ready⟩ := settled.ready serves
  have passed := hashLineLoop_spec _ (settled.nodup bucket) ready
  have known := ready.known
  rw [step] at done
  generalize hashLineLoop guardDelay env (st.buckets bucket) ⟨st.heap,st.nbEntries,cnxInit,connexions,0⟩ = result at passed done
  obtain ⟨left,line⟩ := result
  dsimp only at done passed
  have origin : ∀ p ctx', line.heap p = some ctx' → ∃ ctx, st.heap p = some ctx ∧ ctx'.fid = ctx.fid ∧ (ctx' = ctx ∨ ctx'.state = .idle) :=
    fun p ctx' there => passed.origin known there
  have kept : ∀ p ctx, st.heap p = some ctx → ctx.state ≠ .delReq →
      ∃ ctx', line.heap p = some ctx' ∧ (ctx' = ctx ∨ ctx.state = .updateReq ∧ Recomputed env ctx ctx') :=
    fun p ctx here alive => passed.kept here alive
  cases done
  constructor
  · constructor
    case states =>
      intro p ctx' there
      obtain ⟨ctx,here,_,rfl | idle⟩ := origin p ctx' there
      · exact settled.states p ctx' here
      · exact .inl idle
    case below =>
      intro p some
      obtain ⟨ctx',there⟩ := Option.isSome_iff_exists.mp some
      obtain ⟨ctx,here,_⟩ := origin p ctx' there
      exact settled.below p (by rw [here]; rfl)
    case placed =>
      intro p bucket'
      by_cases same : bucket' = bucket
      · subst same
        dsimp only
        rw [Function.update_self,passed.left p]
        constructor
        · rintro ⟨mem,some⟩
          obtain ⟨ctx',there⟩ := Option.isSome_iff_exists.mp some
          obtain ⟨ctx,here,file,_⟩ := origin p ctx' there
          obtain ⟨ctx'',here',place⟩ := (settled.placed p bucket').mp mem
          rw [here] at here'
          cases here'
          exact ⟨ctx',there,by rw [file,place]⟩
        · rintro ⟨ctx',there,place⟩
          obtain ⟨ctx,here,file,_⟩ := origin p ctx' there
          exact ⟨(settled.placed p bucket').mpr ⟨ctx,here,by rw [← file,place]⟩,Option.isSome_iff_exists.mpr ⟨ctx',there⟩⟩
      · dsimp only
        rw [Function.update_of_ne same,settled.placed]
        have outside : ∀ ctx, st.heap p = some ctx → bucketOf hash size ctx.fid = bucket' → line.heap p = st.heap p := by
          intro ctx here place
          apply passed.outside p
          intro mem
          obtain ⟨ctx',here',place'⟩ := (settled.placed p bucket).mp mem
          rw [here] at here'
          cases here'
          exact same (place.symm.trans place')
        constructor
        · rintro ⟨ctx,here,place⟩
          exact ⟨ctx,(outside ctx here place).trans here,place⟩
        · rintro ⟨ctx',there,place⟩
          obtain ⟨ctx,here,file,_⟩ := origin p ctx' there
          exact ⟨ctx,here,by rw [← file,place]⟩
    case nodup =>
      intro bucket'
      by_cases same : bucket' = bucket
      · subst same
        dsimp only
        rw [Function.update_self]
        exact passed.nodup
      · dsimp only
        rw [Function.update_of_ne same]
        exact settled.nodup bucket'
    case owned =>
      intro entry lv2 p at_ own
      obtain ⟨ctx,here,alive⟩ := settled.owned entry lv2 p at_ own
      obtain ⟨ctx',there,rfl | ⟨_,recomputed⟩⟩ := kept p ctx here alive
      · exact ⟨ctx',there,alive⟩
      · exact ⟨ctx',there,by rw [recomputed.state]; decide⟩
    case single => exact settled.single
  · constructor
    case requested =>
      intro p ctx here request
      have alive : ctx.state ≠ .delReq := by
        rw [request]
        decide
      obtain ⟨ctx',there,rfl | ⟨_,recomputed⟩⟩ := kept p ctx here alive
      · exact ⟨ctx',there,.inl request⟩
      · exact ⟨ctx',there,.inr (.inr ⟨bucket,env,cnxInit,connexions,rfl,recomputed⟩)⟩
    case stays =>
      intro p ctx here alive
      obtain ⟨ctx',there,_⟩ := kept p ctx here alive
      dsimp only
      rw [there]
      rfl

theorem step_settled {a : Act φ} (settled : Settled hash size st) (serves : Serves guardDelay st a) (done : step hash size guardDelay a st = some st') :
    Settled hash size st' ∧ Kept st a st' := by
  cases a with
  | load entry lv2 =>
    rw [step] at done
    split at done
    · cases done
      exact ⟨settled.setLv2 rfl,Kept.of_heap rfl⟩
    · cases done
  | check thin entry flag =>
    obtain ⟨⟨next,change⟩,checked,rfl⟩ := Option.map_eq_some_iff.mp done
    exact check_step settled checked
  | remove entry => exact remove_step settled done
  | pass bucket env cnxInit connexions => exact pass_step settled serves done

/-- No request to compute the blocks of a file again is forgotten in a run whose passes are served: no context
is left in progress, and each is in the bucket of its file until it is deleted. -/
theorem requests_kept (run : Machine.Run (step hash size guardDelay) (Serves guardDelay) init st) :
    Settled hash size st ∧ ∀ a st', Serves guardDelay st a → step hash size guardDelay a st = some st' → Kept st a st' := by
  have settled : Settled hash size st :=
    run.invariant (Settled hash size) init_settled fun _ _ _ before serves done => (step_settled before serves done).1
  exact ⟨settled,fun _ _ serves done => (step_settled settled serves done).2⟩

/-- A file with its storages, and what a pass meets: the storages, two of them on one host, are up or down and have the
same size. -/
def file : Lv2Entry Nat := ⟨7,1,[1,2,3],true,0,0,none⟩

def storages (up : Bool) : Env Nat :=
  ⟨100,101,fun _ => some .layout_2_3_4,fun _ => some ⟨fun _ sid => some (sid / 2),fun _ => up⟩,fun _ _ _ => .size 5 40⟩

def passWith (up : Bool) : Act Nat := .pass 0 (storages up) false ⟨fun _ _ => none,fun _ => false⟩

theorem requests_kept_answered : ∃ st st', Machine.Run (step id 1 10) (Serves 10) init st ∧ step id 1 10 (passWith true) st = some st' ∧
    (st.heap 0).map Ctx.state = some .updateReq ∧ Settled id 1 st ∧ Kept st (passWith true) st' ∧ (st'.heap 0).map Ctx.nb4KBBlocks = some 10 := by
  have loaded : Machine.Run (step id 1 10) (Serves 10) init _ := Machine.Run.refl.tail (.load 0 file) trivial rfl
  have requested := loaded.tail (.check true 0 true) trivial rfl
  obtain ⟨settled,kept⟩ := requests_kept requested
  refine ⟨_,_,requested,rfl,rfl,settled,kept _ _ ?_ rfl,rfl⟩
  intro entry mem
  have only : entry = ⟨7,1,[1,2,3],.updateReq,0,0⟩ := List.mem_singleton.mp mem
  subst only
  have small : ∀ sid a, ((storages true).reply 1 sid 7).answer = some a → a.1 < 2 ^ 32 := by
    intro sid a answered
    cases answered
    decide
  refine ⟨.layout_2_3_4,⟨fun _ sid => some (sid / 2),fun _ => true⟩,rfl,rfl,⟨5,[0,1],by decide,by decide,?_⟩,small⟩
  intro i two
  have cases : i = 0 ∨ i = 1 := by simpa using two
  rcases cases with rfl | rfl
  · exact ⟨by decide,by decide,⟨_,rfl,rfl,fun _ _ _ _ _ _ => nofun⟩,40,rfl⟩
  · exact ⟨by decide,by decide,⟨_,rfl,rfl,fun _ _ _ _ _ _ => nofun⟩,40,rfl⟩

/-- A pass that gets no answer leaves the context in progress, and the next one does not compute its blocks
although all the storages are up again. -/
theorem request_forgotten : ∃ st st' st'', Machine.Run (step id 1 10) (fun _ _ => True) init st ∧
    (st.heap 0).map Ctx.state = some .updateReq ∧ step id 1 10 (passWith false) st = some st' ∧ (st'.heap 0).map Ctx.state = some .inPrg ∧
    step id 1 10 (passWith true) st' = some st'' ∧ (st''.heap 0).map Ctx.state = some .inPrg := by
  have loaded : Machine.Run (step id 1 10) (fun _ _ => True) init _ := Machine.Run.refl.tail (.load 0 file) trivial rfl
  have requested := loaded.tail (.check true 0 true) trivial rfl
  exact ⟨_,_,_,requested,rfl,rfl,rfl,rfl,rfl⟩

end Steps

end Rozofs.ThinProvisioning
