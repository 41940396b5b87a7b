import Rozofs.RebuildCheck
import Mathlib.Data.List.Perm.Subperm

/-! When the block selection of a rebuild can be trusted. Every layout has twice as many storages
as a block needs, so two timestamps that are complete share out all the contexts: the rebuild takes
the one that does not hold the last context, the read the one that holds the first. -/
namespace Rozofs.RebuildCheck
open InverseCheck

section Read
variable (layout : Layout) (bsize : BSize) (r : Received) (blockIdx requested : Nat)

/-- Header that a read keeps for a context. -/
def readHeader (i : Nat) : BinsHdr := (r.ctxs layout bsize requested i).blockHdrTab blockIdx

/-- A context votes for a timestamp and a length in a read. -/
structure VotesFor (k : Key) (i : Nat) : Prop where
  low : i < layout.rozofsSafe
  done : r.prjState i = .done
  key : keyOf (i,readHeader layout bsize r blockIdx requested i) = k
  valid : (readHeader layout bsize r blockIdx requested i).projectionId ≠ 0xff

/-- The check of the block in a read of the same answers. -/
def readCheck : Outcome := transformInverseCheck layout bsize (r.ctxs layout bsize requested) blockIdx

end Read

section Quorums
variable {layout : Layout} {bsize : BSize} {r : Received} {blockIdx requested : Nat}

theorem safe_eq (layout : Layout) : layout.rozofsSafe = layout.rozofsInverse + layout.rozofsInverse := by
  cases layout <;> rfl

theorem effective_of_getPsizes {id : Nat} (sized : getPsizes layout bsize id ≠ 0) : Effective bsize := by
  cases bsize with
  | bsize4K => exact .inl rfl
  | bsize8K => exact .inr rfl
  | bsize16K => exact absurd (by simp +contextual [getPsizes,Layout.rozofsEffPsizes]) sized
  | bsize32K => exact absurd (by simp +contextual [getPsizes,Layout.rozofsEffPsizes]) sized

/-- Two quorums without a common context are all the contexts. -/
theorem quorums_cover {xs ys : List Nat} (first : xs.Nodup) (second : ys.Nodup) (apart : ∀ i ∈ xs, i ∉ ys)
    (low : ∀ i, i ∈ xs ∨ i ∈ ys → i < layout.rozofsSafe) (many : layout.rozofsInverse ≤ xs.length)
    (enough : layout.rozofsInverse ≤ ys.length) {i : Nat} (inside : i < layout.rozofsSafe) : i ∈ xs ∨ i ∈ ys := by
  have nodup : (xs ++ ys).Nodup := List.nodup_append.mpr ⟨first,second,fun a left b right same => apart a left (same ▸ right)⟩
  have subset : xs ++ ys ⊆ List.range layout.rozofsSafe := fun j member => List.mem_range.mpr (low j (List.mem_append.mp member))
  have full : (List.range layout.rozofsSafe).length ≤ (xs ++ ys).length := by
    rw [List.length_range,List.length_append,safe_eq]
    omega
  have perm := (List.subperm_of_subset nodup subset).perm_of_length_le full
  exact List.mem_append.mp (perm.mem_iff.mpr (List.mem_range.mpr inside))

theorem mem_answers {k : Key} {i : Nat} (votes : VotesFor layout bsize r blockIdx requested k i) :
    (i,readHeader layout bsize r blockIdx requested i) ∈ answers layout (r.ctxs layout bsize requested) blockIdx := by
  apply List.mem_filterMap.mpr
  refine ⟨i,List.mem_range.mpr votes.low,?_⟩
  rw [if_pos (by rw [ctxs_prjState]; exact votes.done)]
  rfl

/-- Enough contexts that vote for a key make its quorum. -/
theorem groupOf_full {k : Key} {voting : List Nat} (nodup : voting.Nodup)
    (many : layout.rozofsInverse ≤ voting.length)
    (votes : ∀ i ∈ voting, VotesFor layout bsize r blockIdx requested k i)
    (apart : k.1 ≠ 0 → (voting.map fun i => (readHeader layout bsize r blockIdx requested i).projectionId).Nodup) :
    layout.rozofsInverse ≤ (groupOf k (answers layout (r.ctxs layout bsize requested) blockIdx)).count := by
  obtain ⟨vs,voters⟩ := exists_voters k (answers layout (r.ctxs layout bsize requested) blockIdx)
  rw [voters.length]
  refine Nat.le_trans many ?_
  by_cases zero : k.1 = 0
  · have subset : (voting.map fun i => (i,readHeader layout bsize r blockIdx requested i)) ⊆ vs := by
      intro a member
      obtain ⟨i,inside,rfl⟩ := List.mem_map.mp member
      have vote := votes i inside
      rcases voters.complete _ (mem_answers vote) vote.valid vote.key with found | ⟨real,_⟩
      · exact found
      · exact absurd zero real
    have distinct := nodup.map (f := fun i => (i,readHeader layout bsize r blockIdx requested i))
      fun i j same => congrArg Prod.fst same
    simpa using (List.subperm_of_subset distinct subset).length_le
  · have subset : (voting.map fun i => (readHeader layout bsize r blockIdx requested i).projectionId) ⊆ vs.map (·.2.projectionId) := by
      intro id member
      obtain ⟨i,inside,rfl⟩ := List.mem_map.mp member
      have vote := votes i inside
      rcases voters.complete _ (mem_answers vote) vote.valid vote.key with found | ⟨_,v,found,same⟩
      · exact List.mem_map.mpr ⟨_,found,rfl⟩
      · exact List.mem_map.mpr ⟨v,found,same⟩
    simpa using (List.subperm_of_subset (apart zero) subset).length_le

theorem refKey_first {k : Key} (first : VotesFor layout bsize r blockIdx requested k 0) (real : k ≠ (0,0)) :
    refKey (answers layout (r.ctxs layout bsize requested) blockIdx) = some k := by
  obtain ⟨n,size⟩ := Nat.exists_eq_succ_of_ne_zero (Nat.ne_of_gt first.low)
  have head : ∃ rest, answers layout (r.ctxs layout bsize requested) blockIdx =
      (0,readHeader layout bsize r blockIdx requested 0) :: rest := by
    rw [answers,size,List.range_succ_eq_map,List.filterMap_cons,if_pos (by rw [ctxs_prjState]; exact first.done)]
    exact ⟨_,rfl⟩
  obtain ⟨rest,head⟩ := head
  have looked : ¬((readHeader layout bsize r blockIdx requested 0).timestamp = 0 ∧
      (readHeader layout bsize r blockIdx requested 0).effectiveLength = 0) := by
    intro both
    exact real (by rw [← first.key,keyOf,both.1,both.2])
  have found : (answers layout (r.ctxs layout bsize requested) blockIdx).find?
      (fun a => ¬(a.2.timestamp = 0 ∧ a.2.effectiveLength = 0) ∧ a.2.projectionId ≠ 0xff) =
      some (0,readHeader layout bsize r blockIdx requested 0) := by
    rw [head]
    exact List.find?_cons_of_pos (decide_eq_true ⟨looked,first.valid⟩)
  rw [refKey,found]
  exact congrArg some first.key

/-- A read takes the quorum of the first context. -/
theorem read_takes_first {k : Key} {voting : List Nat} (real : k ≠ (0,0))
    (first : VotesFor layout bsize r blockIdx requested k 0) (nodup : voting.Nodup)
    (many : layout.rozofsInverse ≤ voting.length)
    (votes : ∀ i ∈ voting, VotesFor layout bsize r blockIdx requested k i)
    (apart : k.1 ≠ 0 → (voting.map fun i => (readHeader layout bsize r blockIdx requested i).projectionId).Nodup) :
    0 < (readCheck layout bsize r blockIdx requested).ret ∧
    (readCheck layout bsize r blockIdx requested).timestamp = k.1 := by
  have full := groupOf_full nodup many votes apart
  have ref := refKey_first first real
  have verdict := transformInverseCheck_verdict layout bsize (r.ctxs layout bsize requested) blockIdx
  rw [readCheck]
  generalize transformInverseCheck layout bsize (r.ctxs layout bsize requested) blockIdx = outcome at verdict ⊢
  cases verdict with
  | endOfFile none =>
    rw [none] at ref
    cases ref
  | quorum other before a after ret rebuild split complete decides positive =>
    rcases decides with same | ⟨failed,_⟩
    · rw [ref] at same
      cases same
      exact ⟨positive,rfl⟩
    · exact absurd full (Nat.not_le.mpr (failed k ref))
  | wait idxs few chance => exact absurd full (Nat.not_le.mpr (few k))
  | corrupted idxs some few hopeless => exact absurd full (Nat.not_le.mpr (few k))

theorem readHeader_holds {ts i : Nat} (effective : Effective bsize) (inside : blockIdx < requested) (real : ts ≠ 0)
    (holds : Holds layout bsize r blockIdx ts i) :
    readHeader layout bsize r blockIdx requested i = ⟨ts,effectiveLength r blockIdx i,projectionId r blockIdx i⟩ := by
  have intact : Intact layout bsize (r.bins i blockIdx) := intact_of_stamped (by rw [← holds.2] at real; exact real)
  have stamped : (r.bins i blockIdx).hdr.timestamp = ts := by
    rw [← holds.2,stamp,checkHeader_intact intact]
  have sized := getPsizes_ne_zero layout bsize effective _ intact.1
  rw [readHeader,ctxs_hdr requested i holds.1.1.1 inside,if_pos holds.1.1.2]
  simp only [updateHeader,holds.1.2,stamped,real,sized,intact.2,ne_eq,not_true_eq_false,if_false]
  rw [← stamped]
  rfl

theorem votesFor_holds {ts i length : Nat} (effective : Effective bsize) (inside : blockIdx < requested) (real : ts ≠ 0)
    (low : i < layout.rozofsSafe) (holds : Holds layout bsize r blockIdx ts i)
    (same : effectiveLength r blockIdx i = length) : VotesFor layout bsize r blockIdx requested (ts,length) i := by
  refine ⟨low,holds.1.1.1,?_,?_⟩
  · rw [readHeader_holds effective inside real holds,keyOf,same]
  · rw [readHeader_holds effective inside real holds]
    exact holds.1.2

theorem readHeader_hole {i : Nat} (inside : blockIdx < requested) (hole : Hole layout bsize r blockIdx i) :
    readHeader layout bsize r blockIdx requested i = ⟨0,bsize.bytes,0⟩ := by
  rw [readHeader,ctxs_hdr requested i hole.1.1.1 inside,if_pos hole.1.1.2]
  exact updateHeader_neverWritten ⟨hole.1.2,hole.2.2⟩

theorem votesFor_hole {i : Nat} (inside : blockIdx < requested) (low : i < layout.rozofsSafe)
    (hole : Hole layout bsize r blockIdx i) : VotesFor layout bsize r blockIdx requested (0,bsize.bytes) i := by
  refine ⟨low,hole.1.1.1,?_,?_⟩
  · rw [readHeader_hole inside hole]
    rfl
  · rw [readHeader_hole inside hole]
    exact Nat.zero_ne_add_one _

/-- A context whose answer a read keeps with a timestamp. -/
theorem holds_of_readHeader {i : Nat} (inside : blockIdx < requested) (done : r.prjState i = .done)
    (real : (readHeader layout bsize r blockIdx requested i).timestamp ≠ 0) :
    Effective bsize ∧ readHeader layout bsize r blockIdx requested i = (r.bins i blockIdx).hdr ∧
    Holds layout bsize r blockIdx (readHeader layout bsize r blockIdx requested i).timestamp i := by
  rw [readHeader,ctxs_hdr requested i done inside] at real ⊢
  by_cases returned : blockIdx < r.returned i
  · rw [if_pos returned] at real ⊢
    have sound : ¬Damaged layout bsize (r.bins i blockIdx) := by
      intro damaged
      rw [updateHeader_damaged damaged] at real
      exact real rfl
    have full : ¬NeverWritten (r.bins i blockIdx) := by
      intro empty
      rw [updateHeader_neverWritten empty] at real
      exact real rfl
    obtain ⟨same,stamped,valid⟩ := updateHeader_valid sound full
    simp only [Damaged,not_or,not_and,not_not] at sound
    obtain ⟨sized,footer⟩ := sound.2 stamped
    have intact : Intact layout bsize (r.bins i blockIdx) := ⟨lt_forward_of_getPsizes layout bsize sized,footer⟩
    refine ⟨effective_of_getPsizes sized,same,⟨⟨done,returned⟩,valid⟩,?_⟩
    rw [same,stamp,checkHeader_intact intact]
  · rw [if_neg returned] at real
    exact absurd rfl real

/-- The contexts that a read selects. -/
theorem readCheck_quorum (inside : blockIdx < requested) (selected : 0 < (readCheck layout bsize r blockIdx requested).ret)
    (real : (readCheck layout bsize r blockIdx requested).timestamp ≠ 0) :
    Effective bsize ∧ ∃ length, ∃ voting : List Nat, voting.length = layout.rozofsInverse ∧ voting.Nodup ∧
      (voting.map (projectionId r blockIdx)).Nodup ∧ ∀ i ∈ voting, i < layout.rozofsSafe ∧
        Holds layout bsize r blockIdx (readCheck layout bsize r blockIdx requested).timestamp i ∧
        effectiveLength r blockIdx i = length := by
  have verdict := transformInverseCheck_verdict layout bsize (r.ctxs layout bsize requested) blockIdx
  rw [readCheck] at selected real ⊢
  generalize transformInverseCheck layout bsize (r.ctxs layout bsize requested) blockIdx = outcome at verdict selected real ⊢
  cases verdict with
  | endOfFile none => exact absurd selected (by decide)
  | wait idxs few chance => exact absurd selected (by simp)
  | corrupted idxs some few hopeless => exact absurd selected (by simp)
  | quorum k before a after ret rebuild split complete decides positive =>
    obtain ⟨vs,voters⟩ := exists_voters k (before ++ [a])
    rw [voters.length] at complete
    -- each voter is an answer of the read, with the timestamp and the length of the key
    have found : ∀ v ∈ vs, Effective bsize ∧ v.1 < layout.rozofsSafe ∧ Holds layout bsize r blockIdx k.1 v.1 ∧
        effectiveLength r blockIdx v.1 = k.2 ∧ projectionId r blockIdx v.1 = v.2.projectionId := by
      intro v member
      have answer : v ∈ answers layout (r.ctxs layout bsize requested) blockIdx := by
        have early := voters.sublist.subset member
        rw [split]
        rcases List.mem_append.mp early with left | right
        · exact List.mem_append_left _ left
        · rw [List.mem_singleton.mp right]
          exact List.mem_append_right _ List.mem_cons_self
      obtain ⟨i,low,same⟩ := List.mem_filterMap.mp answer
      rw [ctxs_prjState,Option.ite_none_right_eq_some,Option.some.injEq] at same
      obtain ⟨done,rfl⟩ := same
      have keyed := (voters.keyed _ member).1
      have stampedKey : (readHeader layout bsize r blockIdx requested i).timestamp = k.1 := congrArg Prod.fst keyed
      obtain ⟨effective,kept,holds⟩ := holds_of_readHeader inside done (by rw [stampedKey]; exact real)
      rw [stampedKey] at holds
      refine ⟨effective,List.mem_range.mp low,holds,?_,?_⟩
      · rw [← congrArg Prod.snd keyed]
        exact congrArg BinsHdr.effectiveLength kept.symm
      · exact congrArg BinsHdr.projectionId kept.symm
    have ids : ((vs.map (·.1)).map (projectionId r blockIdx)).Nodup := by
      rw [List.map_map]
      have same : vs.map (projectionId r blockIdx ∘ (·.1)) = vs.map (·.2.projectionId) :=
        List.map_congr_left fun v member => (found v member).2.2.2.2
      rw [same]
      exact voters.apart real
    have some : ∃ v, v ∈ vs := by
      apply List.exists_mem_of_length_pos
      have two := two_inverse layout
      omega
    obtain ⟨v,member⟩ := some
    refine ⟨(found v member).1,k.2,vs.map (·.1),by rw [List.length_map,complete],List.Nodup.of_map _ ids,ids,?_⟩
    intro i inside
    obtain ⟨w,chosen,rfl⟩ := List.mem_map.mp inside
    obtain ⟨_,low,holds,length,_⟩ := found w chosen
    exact ⟨low,holds,length⟩

end Quorums

section Agreement
variable (layout : Layout) (bsize : BSize) (r : Received) (blockIdx requested : Nat)

/-- What a rebuild needs of the selection of a block: valid headers that agree, real holes, and
nothing older than what a read of the same answers selects. -/
structure Sound (res : Selected) : Prop where
  length : res.timestamp ≠ 0 → res.prjIdxTb.length = layout.rozofsInverse
  agree : res.timestamp ≠ 0 → ∀ i ∈ res.prjIdxTb, i < layout.rozofsSafe ∧ r.returnedBlock blockIdx i ∧
    Intact layout bsize (r.bins i blockIdx) ∧ (r.bins i blockIdx).hdr.timestamp = res.timestamp ∧
    (r.bins i blockIdx).hdr.effectiveLength = res.effectiveLength
  apart : res.timestamp ≠ 0 → (res.prjIdxTb.map fun i => (r.bins i blockIdx).hdr.projectionId).Nodup
  hole : res.timestamp = 0 → layout.rozofsInverse ≤ (holes layout bsize r blockIdx).length
  newest : 0 < (readCheck layout bsize r blockIdx requested).ret →
    ¬res.timestamp < (readCheck layout bsize r blockIdx requested).timestamp

/-- What the answers must fulfil when a context completes a timestamp: one length for its voters,
enough blocks that are really empty, and the first context is not with a newer timestamp that is
complete too. -/
structure Agreeing (n ts : Nat) : Prop where
  lengths : ts ≠ 0 → ∀ i ∈ voters layout bsize r blockIdx (n + 1) ts, effectiveLength r blockIdx i = effectiveLength r blockIdx n
  holes : ts = 0 → layout.rozofsInverse ≤ (holes layout bsize r blockIdx).length
  first : ∀ newer, ts < newer → Effective bsize →
    layout.rozofsInverse ≤ (voters layout bsize r blockIdx layout.rozofsSafe newer).length →
    (∀ i < layout.rozofsSafe, Holds layout bsize r blockIdx newer i → effectiveLength r blockIdx i = effectiveLength r blockIdx 0) →
    ¬Holds layout bsize r blockIdx newer 0

end Agreement

section Theorems
variable {layout : Layout} {bsize : BSize} {r : Received} {blockIdx requested n ts : Nat}

theorem zero_lt_safe (layout : Layout) : 0 < layout.rozofsSafe := by
  cases layout <;> decide

/-- The ids that a list of holders has are those of voters. -/
theorem voters_of_holders {holders : List Nat} (ids : (holders.map (projectionId r blockIdx)).Nodup)
    (holds : ∀ i ∈ holders, i < layout.rozofsSafe ∧ Holds layout bsize r blockIdx ts i) :
    holders.length ≤ (voters layout bsize r blockIdx layout.rozofsSafe ts).length := by
  have subset : holders.map (projectionId r blockIdx) ⊆
      (voters layout bsize r blockIdx layout.rozofsSafe ts).map (projectionId r blockIdx) := by
    intro id member
    obtain ⟨i,inside,rfl⟩ := List.mem_map.mp member
    obtain ⟨j,voter,same⟩ := exists_voter (holds i inside).1 (holds i inside).2
    exact List.mem_map.mpr ⟨j,voter,same⟩
  simpa using (List.subperm_of_subset ids subset).length_le

theorem Completes.voter_low (completes : Completes layout bsize r blockIdx n ts)
    (member : i ∈ voters layout bsize r blockIdx (n + 1) ts) : i < layout.rozofsSafe :=
  Nat.lt_of_lt_of_le (mem_voters.mp member).1 completes.1

/-- A newer timestamp that is complete and holds the first context is the one of the read. -/
theorem read_takes_newer (inside : blockIdx < requested) (effective : Effective bsize) (real : ts ≠ 0)
    (many : layout.rozofsInverse ≤ (voters layout bsize r blockIdx layout.rozofsSafe ts).length)
    (lengths : ∀ i < layout.rozofsSafe, Holds layout bsize r blockIdx ts i →
      effectiveLength r blockIdx i = effectiveLength r blockIdx 0)
    (first : Holds layout bsize r blockIdx ts 0) :
    0 < (readCheck layout bsize r blockIdx requested).ret ∧
    (readCheck layout bsize r blockIdx requested).timestamp = ts := by
  have votes : ∀ i ∈ voters layout bsize r blockIdx layout.rozofsSafe ts,
      VotesFor layout bsize r blockIdx requested (ts,effectiveLength r blockIdx 0) i := by
    intro i member
    obtain ⟨low,holds,_⟩ := mem_voters.mp member
    exact votesFor_holds effective inside real low holds (lengths i low holds)
  refine read_takes_first (fun zero => real (congrArg Prod.fst zero))
    (votesFor_holds effective inside real (zero_lt_safe layout) first rfl) (voters_nodup _ _) many votes fun _ => ?_
  have same : (voters layout bsize r blockIdx layout.rozofsSafe ts).map
      (fun i => (readHeader layout bsize r blockIdx requested i).projectionId) =
      (voters layout bsize r blockIdx layout.rozofsSafe ts).map (projectionId r blockIdx) := by
    apply List.map_congr_left
    intro i member
    rw [readHeader_holds effective inside real (mem_voters.mp member).2.1]
  rw [same]
  exact voters_ids _ ts real

/-- The quorum that the rebuild completes is taken by the read when it holds the first context. -/
theorem read_takes_completed (inside : blockIdx < requested) (effective : Effective bsize)
    (completes : Completes layout bsize r blockIdx n ts) (agreeing : Agreeing layout bsize r blockIdx n ts)
    {holders : List Nat} (nodup : holders.Nodup) (many : layout.rozofsInverse ≤ holders.length)
    (part : if ts = 0 then holders = holes layout bsize r blockIdx else holders = voters layout bsize r blockIdx (n + 1) ts)
    (first : 0 ∈ holders) : (readCheck layout bsize r blockIdx requested).timestamp = ts := by
  by_cases zero : ts = 0
  · rw [if_pos zero] at part
    subst part zero
    have votes : ∀ i ∈ holes layout bsize r blockIdx, VotesFor layout bsize r blockIdx requested (0,bsize.bytes) i := by
      intro i member
      simp only [holes,List.mem_filter,List.mem_range,decide_eq_true_eq] at member
      exact votesFor_hole inside member.1 member.2
    have real : ((0,bsize.bytes) : Key) ≠ (0,0) := fun same => Nat.ne_of_gt bsize.bytes_pos (congrArg Prod.snd same)
    exact (read_takes_first real (votes 0 first) nodup many votes fun impossible => absurd rfl impossible).2
  · rw [if_neg zero] at part
    subst part
    have votes : ∀ i ∈ voters layout bsize r blockIdx (n + 1) ts,
        VotesFor layout bsize r blockIdx requested (ts,effectiveLength r blockIdx n) i := by
      intro i member
      exact votesFor_holds effective inside zero (completes.voter_low member) (mem_voters.mp member).2.1
        (agreeing.lengths zero i member)
    have same : (voters layout bsize r blockIdx (n + 1) ts).map
        (fun i => (readHeader layout bsize r blockIdx requested i).projectionId) =
        (voters layout bsize r blockIdx (n + 1) ts).map (projectionId r blockIdx) := by
      apply List.map_congr_left
      intro i member
      rw [readHeader_holds effective inside zero (mem_voters.mp member).2.1]
    refine (read_takes_first (fun same => zero (congrArg Prod.fst same)) (votes 0 first) nodup many votes fun _ => ?_).2
    rw [same]
    exact voters_ids _ ts zero

/-- The contexts that really hold the timestamp that is complete. -/
theorem exists_holders (completes : Completes layout bsize r blockIdx n ts) (agreeing : Agreeing layout bsize r blockIdx n ts) :
    ∃ holders : List Nat, holders.Nodup ∧ layout.rozofsInverse ≤ holders.length ∧
      (∀ i ∈ holders, i < layout.rozofsSafe ∧ stamp layout bsize r blockIdx i = ts) ∧
      if ts = 0 then holders = holes layout bsize r blockIdx else holders = voters layout bsize r blockIdx (n + 1) ts := by
  by_cases zero : ts = 0
  · refine ⟨holes layout bsize r blockIdx,List.nodup_range.filter _,agreeing.holes zero,?_,?_⟩
    · intro i member
      simp only [holes,List.mem_filter,List.mem_range,decide_eq_true_eq] at member
      refine ⟨member.1,?_⟩
      rw [stamp,checkHeader_intact member.2.2.1,member.2.2.2,zero]
    · rw [if_pos zero]
  · refine ⟨voters layout bsize r blockIdx (n + 1) ts,voters_nodup _ _,Nat.le_of_eq completes.2.2.1.symm,?_,?_⟩
    · intro i member
      exact ⟨completes.voter_low member,(mem_voters.mp member).2.1.2⟩
    · rw [if_neg zero]

/-- The read does not select a newer timestamp than the rebuild. -/
theorem Agreeing.newest (inside : blockIdx < requested) (completes : Completes layout bsize r blockIdx n ts)
    (agreeing : Agreeing layout bsize r blockIdx n ts) (selected : 0 < (readCheck layout bsize r blockIdx requested).ret) :
    ¬ts < (readCheck layout bsize r blockIdx requested).timestamp := by
  intro older
  obtain ⟨effective,length,voting,size,nodup,ids,holds⟩ := readCheck_quorum inside selected (Nat.ne_of_gt (Nat.zero_lt_of_lt older))
  obtain ⟨holders,distinct,many,mine,part⟩ := exists_holders completes agreeing
  -- no context holds both timestamps
  have apart : ∀ i ∈ voting, i ∉ holders := by
    intro i left right
    have one := (holds i left).2.1.2
    have other := (mine i right).2
    omega
  have low : ∀ i, i ∈ voting ∨ i ∈ holders → i < layout.rozofsSafe := by
    rintro i (left | right)
    · exact (holds i left).1
    · exact (mine i right).1
  have cover : ∀ i < layout.rozofsSafe, i ∈ voting ∨ i ∈ holders := fun i small =>
    quorums_cover nodup distinct apart low (Nat.le_of_eq size.symm) many small
  have elsewhere : ¬Holds layout bsize r blockIdx (readCheck layout bsize r blockIdx requested).timestamp 0 := by
    intro first
    have mineAlone : ∀ i < layout.rozofsSafe,
        Holds layout bsize r blockIdx (readCheck layout bsize r blockIdx requested).timestamp i →
        effectiveLength r blockIdx i = length := by
      intro i small held
      rcases cover i small with left | right
      · exact (holds i left).2.2
      · have other := (mine i right).2
        have one := held.2
        omega
    refine agreeing.first _ older effective ?_ ?_ first
    · rw [← size]
      exact voters_of_holders ids fun i member => ⟨(holds i member).1,(holds i member).2.1⟩
    · intro i small held
      rw [mineAlone i small held,mineAlone 0 (zero_lt_safe layout) first]
  rcases cover 0 (zero_lt_safe layout) with left | right
  · exact elsewhere (holds 0 left).2.1
  · have taken := read_takes_completed inside effective completes agreeing distinct many part right
    omega

theorem Agreeing.sound (inside : blockIdx < requested) (completes : Completes layout bsize r blockIdx n ts)
    (agreeing : Agreeing layout bsize r blockIdx n ts) :
    Sound layout bsize r blockIdx requested (completed layout bsize r blockIdx n ts) := by
  constructor
  · intro real
    simp only [completed] at real ⊢
    rw [if_neg real]
    exact completes.2.2.1
  · intro real i member
    simp only [completed] at real member ⊢
    rw [if_neg real] at member
    have holds := (mem_voters.mp member).2.1
    have intact : Intact layout bsize (r.bins i blockIdx) := intact_of_stamped (by rw [← holds.2] at real; exact real)
    refine ⟨completes.voter_low member,holds.1.1,intact,?_,agreeing.lengths real i member⟩
    rw [← holds.2,stamp,checkHeader_intact intact]
  · intro real
    simp only [completed] at real ⊢
    rw [if_neg real]
    exact voters_ids _ ts real
  · exact agreeing.holes
  · exact agreeing.newest inside completes

theorem Sound.agreeing (inside : blockIdx < requested)
    (sound : Sound layout bsize r blockIdx requested (completed layout bsize r blockIdx n ts)) :
    Agreeing layout bsize r blockIdx n ts := by
  constructor
  · intro real i member
    have listed : i ∈ (completed layout bsize r blockIdx n ts).prjIdxTb := by
      simp only [completed]
      rw [if_neg real]
      exact member
    exact (sound.agree real i listed).2.2.2.2
  · exact sound.hole
  · intro newer older effective many lengths first
    obtain ⟨selected,taken⟩ := read_takes_newer inside effective (Nat.ne_of_gt (Nat.zero_lt_of_lt older)) many lengths first
    exact sound.newest selected (by rw [taken]; exact older)

/-- The rebuild selects a block as it should exactly when the answers agree at the context that
ends its loop. -/
theorem rebuild_selection_sound (layout : Layout) (bsize : BSize) (r : Received) (blockIdx requested : Nat)
    (inside : blockIdx < requested) :
    (∀ res, checkTimestampTb layout bsize r blockIdx = some res → Sound layout bsize r blockIdx requested res) ↔
    ∀ n ts, Completes layout bsize r blockIdx n ts → Agreeing layout bsize r blockIdx n ts := by
  constructor
  · intro sound n ts completes
    exact (sound _ (checkTimestampTb_eq_some.mpr ⟨n,ts,completes,rfl⟩)).agreeing inside
  · intro agreeing res found
    obtain ⟨n,ts,completes,rfl⟩ := checkTimestampTb_eq_some.mp found
    exact (agreeing n ts completes).sound inside completes

end Theorems

/-- A block with one word after its header, the footer. -/
def blockOf (timestamp length id footer : Nat) : RcvBlock := ⟨⟨timestamp,length,id⟩,fun _ => footer⟩

/-- Answers of four storages, one block each. -/
def answersOf (a b c d : RcvBlock) : Received where
  prjState := fun _ => .done
  storIdx := fun i => i
  returned := fun _ => 1
  bins := fun i _ => match i with | 0 => a | 1 => b | 2 => c | _ => d
  stale := fun _ _ => ⟨0,0,0⟩

/-- The first storage missed the last write of a block. -/
def staleFirst : Received :=
  answersOf (blockOf 5 4096 0 5) (blockOf 7 4096 1 7) (blockOf 7 4096 2 7) (blockOf 7 4096 0 7)

theorem staleFirst_completes : Completes .layout_2_3_4 .bsize4K staleFirst 0 2 7 := by
  refine ⟨by decide,by decide,by decide,fun other => ?_⟩
  by_cases old : other = 5
  · rw [old]
    decide
  · have skip : voters .layout_2_3_4 .bsize4K staleFirst 0 1 other = [] := by
      rw [List.eq_nil_iff_forall_not_mem]
      intro i member
      obtain ⟨low,holds,_⟩ := mem_voters.mp member
      have none : i = 0 := by omega
      rw [none] at holds
      exact old holds.2.symm
    rw [voters_succ,skip]
    split <;> decide

theorem rebuild_selection_staleFirst :
    checkTimestampTb .layout_2_3_4 .bsize4K staleFirst 0 = some ⟨7,4096,[1,2]⟩ ∧
    Sound .layout_2_3_4 .bsize4K staleFirst 0 1 ⟨7,4096,[1,2]⟩ := by
  have run : checkTimestampTb .layout_2_3_4 .bsize4K staleFirst 0 = some ⟨7,4096,[1,2]⟩ := by decide
  refine ⟨run,(rebuild_selection_sound _ _ _ _ 1 (by decide)).mpr ?_ _ run⟩
  intro n ts completes
  obtain ⟨rfl,rfl⟩ := staleFirst_completes.unique completes
  refine ⟨fun _ => by decide,fun zero => absurd zero (by decide),?_⟩
  intro newer later _ _ _ holds
  have old : (5 : Nat) = newer := holds.2
  omega

/-- A write was interrupted at the first two storages: the rebuild makes a hole of the block, which
no storage has. -/
def tornFirst : Received :=
  answersOf (blockOf 9 4096 0 5) (blockOf 9 4096 1 5) (blockOf 5 4096 2 5) (blockOf 5 4096 0 5)

theorem torn_rebuilt_as_hole :
    ¬∀ res, checkTimestampTb .layout_2_3_4 .bsize4K tornFirst 0 = some res →
      Sound .layout_2_3_4 .bsize4K tornFirst 0 1 res := by
  intro sound
  have run : checkTimestampTb .layout_2_3_4 .bsize4K tornFirst 0 = some ⟨0,4096,[]⟩ := by decide
  have hole := (sound _ run).hole rfl
  exact absurd hole (by decide)

end Rozofs.RebuildCheck
