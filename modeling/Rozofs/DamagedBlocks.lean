import Rozofs.ReadFreshness

/-! Damaged answers in the block check. The header update replaces a damaged block by the
header of an empty block, so that it counts for a hole. -/
namespace Rozofs.InverseCheck
open TimestampCtx

/-- CRC error reported by the storage, projection id that the layout does not have, or footer
that does not match the header. -/
def Damaged (layout : Layout) (bsize : BSize) (block : RcvBlock) : Prop :=
  block.hdr.projectionId = 0xff ∨
  (block.hdr.timestamp ≠ 0 ∧ (getPsizes layout bsize block.hdr.projectionId = 0 ∨
    block.word (getPsizes layout bsize block.hdr.projectionId) ≠ block.hdr.timestamp))

def NeverWritten (block : RcvBlock) : Prop := block.hdr.projectionId ≠ 0xff ∧ block.hdr.timestamp = 0

instance : Decidable (Damaged layout bsize block) := inferInstanceAs (Decidable (_ ∨ _))

instance : Decidable (NeverWritten block) := inferInstanceAs (Decidable (_ ∧ _))

namespace Received
variable (r : Received) (layout : Layout) (bsize : BSize) (blockIdx : Nat)

def returnedBlock (i : Nat) : Prop := r.prjState i = .done ∧ blockIdx < r.returned i

instance (i : Nat) : Decidable (r.returnedBlock blockIdx i) := inferInstanceAs (Decidable (_ ∧ _))

def damaged (i : Nat) : Prop := r.returnedBlock blockIdx i ∧ Damaged layout bsize (r.bins i blockIdx)

def neverWritten (i : Nat) : Prop := r.returnedBlock blockIdx i ∧ NeverWritten (r.bins i blockIdx)

instance (i : Nat) : Decidable (r.damaged layout bsize blockIdx i) := inferInstanceAs (Decidable (_ ∧ _))

instance (i : Nat) : Decidable (r.neverWritten blockIdx i) := inferInstanceAs (Decidable (_ ∧ _))

/-- Contexts that count for a hole. -/
def holeVotes : List Nat :=
  (List.range layout.rozofsSafe).filter fun i => r.damaged layout bsize blockIdx i ∨ r.neverWritten blockIdx i

end Received

/-- Key of an empty block. -/
def holeKey (bsize : BSize) : Key := (0,bsize.bytes)

/-- Some other key is decided first: the one of the reference pass, or one that is complete
when the hole still misses answers. -/
def Outvoted (inverse : Nat) (bsize : BSize) (as : List Answer) : Prop :=
  (∃ k, refKey as = some k ∧ k ≠ holeKey bsize ∧ inverse ≤ (groupOf k as).count) ∨
  (refKey as ≠ some (holeKey bsize) ∧ ∃ before after k, as = before ++ after ∧ k ≠ holeKey bsize ∧
    inverse ≤ (groupOf k before).count ∧ (groupOf (holeKey bsize) before).count < inverse)

/-- No key is complete, and none can reach `forward` projections with the storages left. -/
def Hopeless (layout : Layout) (left : Nat) (as : List Answer) : Prop :=
  refKey as ≠ none ∧ (∀ k, (groupOf k as).count < layout.rozofsInverse) ∧
  ∀ a ∈ as, a.2.projectionId ≠ 0xff → left + (groupOf (keyOf a) as).count < layout.rozofsForward

theorem updateHeader_damaged (damaged : Damaged layout bsize block) :
    updateHeader layout bsize block = ⟨0,bsize.bytes,0⟩ := by
  rcases damaged with error | ⟨stamped,unsized | footer⟩
  · simp [updateHeader,error]
  · simp [updateHeader,stamped,unsized]
  · simp only [updateHeader,stamped,footer,ne_eq,not_false_eq_true,if_true,if_false]
    split
    · rfl
    · split <;> rfl

theorem updateHeader_neverWritten (empty : NeverWritten block) :
    updateHeader layout bsize block = ⟨0,bsize.bytes,0⟩ := by
  simp [updateHeader,empty.1,empty.2]

theorem updateHeader_valid (sound : ¬Damaged layout bsize block) (full : ¬NeverWritten block) :
    updateHeader layout bsize block = block.hdr ∧ block.hdr.timestamp ≠ 0 ∧ block.hdr.projectionId ≠ 0xff := by
  simp only [Damaged,not_or,not_and_or,not_not] at sound
  obtain ⟨valid,rest⟩ := sound
  have stamped : block.hdr.timestamp ≠ 0 := fun zero => full ⟨valid,zero⟩
  rcases rest with zero | ⟨sized,footer⟩
  · exact absurd zero stamped
  · exact ⟨by simp [updateHeader,valid,stamped,sized,footer],stamped,valid⟩

section Answers
variable {layout : Layout} {bsize : BSize} {blockIdx requested : Nat} (r : Received)

/-- What the header kept for a block says about the answer. -/
theorem ctxs_key (inside : blockIdx < requested) (done : r.prjState i = .done) :
    ((r.ctxs layout bsize requested i).blockHdrTab blockIdx).projectionId ≠ 0xff ∧
    (((r.ctxs layout bsize requested i).blockHdrTab blockIdx).timestamp = 0 →
      ((r.ctxs layout bsize requested i).blockHdrTab blockIdx).effectiveLength ≠ 0 →
      ((r.ctxs layout bsize requested i).blockHdrTab blockIdx).effectiveLength = bsize.bytes) ∧
    ((r.damaged layout bsize blockIdx i ∨ r.neverWritten blockIdx i) ↔
      (((r.ctxs layout bsize requested i).blockHdrTab blockIdx).timestamp,
        ((r.ctxs layout bsize requested i).blockHdrTab blockIdx).effectiveLength) = holeKey bsize) := by
  rw [ctxs_hdr requested i done inside]
  by_cases returned : blockIdx < r.returned i
  · simp only [returned,if_true,Received.damaged,Received.neverWritten,Received.returnedBlock,done,true_and]
    by_cases damaged : Damaged layout bsize (r.bins i blockIdx)
    · simp [updateHeader_damaged damaged,damaged,holeKey]
    · by_cases empty : NeverWritten (r.bins i blockIdx)
      · simp [updateHeader_neverWritten empty,empty,holeKey]
      · obtain ⟨same,stamped,valid⟩ := updateHeader_valid damaged empty
        rw [same]
        simp [damaged,empty,holeKey,stamped,valid]
  · have := bsize.bytes_pos
    simp only [returned,if_false,Received.damaged,Received.neverWritten,Received.returnedBlock,and_false,false_and,
      or_false,holeKey,Prod.mk.injEq,true_and,false_iff]
    exact ⟨by decide,by simp,by omega⟩

/-- Nothing is a duplicate for timestamp 0. -/
theorem groupOf_zero (length : Nat) (as : List Answer) :
    (groupOf (0,length) as).prjIdxTb =
      (as.filter fun a => a.2.projectionId ≠ 0xff ∧ keyOf a = (0,length)).map (·.1) := by
  induction as using List.reverseRecOn with
  | nil => rfl
  | append_singleton as a ih =>
    rw [groupOf_append,List.filter_append,List.map_append,← ih]
    by_cases error : a.2.projectionId = 0xff
    · simp [vote,error]
    · by_cases same : keyOf a = (0,length)
      · have agree : (groupOf (0,length) as).agrees a.2 = true := (agrees_iff _ a).mpr (by rw [groupOf_key,same])
        have zero : a.2.timestamp = 0 := congrArg Prod.fst same
        rw [vote_agrees _ a error agree]
        simp [listed,zero,error,same,add]
      · rw [vote_of_ne _ a (by rwa [groupOf_key])]
        simp [same]

theorem groupOf_holeKey (inside : blockIdx < requested) :
    (groupOf (holeKey bsize) (answers layout (r.ctxs layout bsize requested) blockIdx)).prjIdxTb =
      r.holeVotes layout bsize blockIdx := by
  rw [holeKey,groupOf_zero,answers,List.filter_filterMap,List.map_filterMap,Received.holeVotes,
    ← List.filterMap_eq_filter]
  refine List.filterMap_congr fun i _ => ?_
  rw [ctxs_prjState]
  by_cases done : r.prjState i = .done
  · obtain ⟨valid,_,same⟩ := @ctxs_key layout bsize blockIdx requested r i inside done
    by_cases hole : r.damaged layout bsize blockIdx i ∨ r.neverWritten blockIdx i
    · simpa [done,valid,keyOf,hole,Option.guard,holeKey] using same.mp hole
    · simpa [done,valid,keyOf,hole,Option.guard,holeKey] using fun key => hole (same.mpr key)
  · have undamaged : ¬(r.damaged layout bsize blockIdx i ∨ r.neverWritten blockIdx i) := by
      rintro (⟨⟨returned,_⟩,_⟩ | ⟨⟨returned,_⟩,_⟩) <;> exact done returned
    simp [done,undamaged,Option.guard]

theorem groupOf_take (split : as = before ++ after) :
    (groupOf k before).prjIdxTb = (groupOf k as).prjIdxTb.take (groupOf k before).count := by
  subst split
  exact List.prefix_iff_eq_take.mp (groupOf_extends k before after)

theorem refKey_none_holeVotes
    (none : refKey (answers layout (r.ctxs layout bsize requested) blockIdx) = none) :
    (groupOf (holeKey bsize) (answers layout (r.ctxs layout bsize requested) blockIdx)).count = 0 := by
  rw [groupOf_skip]
  · rfl
  · intro a member key
    have hidden := List.find?_eq_none.mp (Option.map_eq_none_iff.mp none) a member
    simp only [decide_eq_true_eq,not_and,not_not] at hidden
    refine hidden fun zero => ?_
    have := bsize.bytes_pos
    simp only [keyOf,holeKey,Prod.mk.injEq] at key
    omega

/-- The hole is decided exactly when it has enough votes and is not outvoted. -/
theorem quorum_key_hole {before after : List Answer} {a : Answer} {as : List Answer} {k : Key} {inverse : Nat}
    (split : as = before ++ a :: after) (full : (groupOf k (before ++ [a])).count = inverse)
    (decides : Decides inverse as before k)
    (votes : inverse ≤ (groupOf (holeKey bsize) as).count) (free : ¬Outvoted inverse bsize as) :
    k = holeKey bsize := by
  by_contra other
  have parts : as = (before ++ [a]) ++ after := by rw [split]; simp
  have complete : inverse ≤ (groupOf k as).count := by
    rw [← full,parts]
    exact groupOf_count_mono k _ _
  rcases decides with first | ⟨failed,few⟩
  · exact free (.inl ⟨k,first,other,complete⟩)
  · have reference : refKey as ≠ some (holeKey bsize) := fun first => by
      have := failed _ first
      omega
    refine free (.inr ⟨reference,before ++ [a],after,k,parts,other,by omega,?_⟩)
    -- The last answer voted for `k`, so the hole has not moved.
    have last : keyOf a = k := by
      have small := few k
      rw [groupOf_append] at full
      rcases vote_count (groupOf k before) a with same | ⟨_,key⟩
      · omega
      · rwa [groupOf_key] at key
    rw [groupOf_append,vote_of_ne _ a (by rw [groupOf_key,last]; exact other)]
    exact few _

theorem not_outvoted {before after : List Answer} {a : Answer} {as : List Answer} {inverse : Nat}
    (split : as = before ++ a :: after) (full : (groupOf (holeKey bsize) (before ++ [a])).count = inverse)
    (decides : Decides inverse as before (holeKey bsize)) : ¬Outvoted inverse bsize as := by
  have parts : as = (before ++ [a]) ++ after := by rw [split]; simp
  rintro (⟨k,first,other,complete⟩ | ⟨reference,front,back,k,cut,_,complete,few⟩)
  · rcases decides with hole | ⟨failed,_⟩
    · rw [first] at hole
      exact other (Option.some.inj hole)
    · have := failed k first
      omega
  · rcases decides with hole | ⟨_,small⟩
    · exact reference hole
    · rcases Nat.lt_or_ge before.length front.length with long | short
      · have inFront : before ++ [a] <+: front := by
          refine List.prefix_of_prefix_length_le ⟨after,parts.symm⟩ ⟨back,cut.symm⟩ ?_
          simp only [List.length_append,List.length_singleton]
          omega
        obtain ⟨rest,rfl⟩ := inFront
        have := groupOf_count_mono (holeKey bsize) (before ++ [a]) rest
        omega
      · have inBefore : front <+: before :=
          List.prefix_of_prefix_length_le ⟨back,cut.symm⟩ ⟨a :: after,split.symm⟩ short
        obtain ⟨rest,rfl⟩ := inBefore
        have := groupOf_count_mono k front rest
        have := small k
        omega

/-- One block is read soundly: no damaged answer is counted, and zeros are decoded only when
`inverse` storages said that the block was never written. -/
def DamageIgnored (layout : Layout) (bsize : BSize) (requested blockIdx : Nat) (r : Received) : Prop :=
  let o := transformInverseCheck layout bsize (r.ctxs layout bsize requested) blockIdx
  (0 < o.ret → ∀ i ∈ o.prjIdxTb, ¬r.damaged layout bsize blockIdx i) ∧
  (0 ≤ o.ret → o.timestamp = 0 → o.effectiveLength ≠ 0 →
    layout.rozofsInverse ≤ ((List.range layout.rozofsSafe).filter (r.neverWritten blockIdx ·)).length)

/-- The answers with which a block is read soundly. -/
def SoundAnswers (layout : Layout) (bsize : BSize) (requested blockIdx : Nat) (r : Received) : Prop :=
  let as := answers layout (r.ctxs layout bsize requested) blockIdx
  ((r.holeVotes layout bsize blockIdx).length < layout.rozofsInverse ∨
    (∀ i ∈ (r.holeVotes layout bsize blockIdx).take layout.rozofsInverse, ¬r.damaged layout bsize blockIdx i) ∨
    Outvoted layout.rozofsInverse bsize as) ∧
  ¬Hopeless layout (leftStorage layout (r.ctxs layout bsize requested)) as

theorem quorum_indexes (inside : blockIdx < requested)
    (split : answers layout (r.ctxs layout bsize requested) blockIdx = before ++ a :: after)
    (full : (groupOf (holeKey bsize) (before ++ [a])).count = inverse) :
    (groupOf (holeKey bsize) (before ++ [a])).prjIdxTb = (r.holeVotes layout bsize blockIdx).take inverse ∧
    inverse ≤ (r.holeVotes layout bsize blockIdx).length := by
  have parts : answers layout (r.ctxs layout bsize requested) blockIdx = (before ++ [a]) ++ after := by
    rw [split]
    simp
  have more := groupOf_count_mono (holeKey bsize) (before ++ [a]) after
  rw [← parts,full,count,groupOf_holeKey r inside] at more
  refine ⟨?_,more⟩
  rw [groupOf_take parts,full,groupOf_holeKey r inside]

theorem neverWritten_le_holeVotes :
    ((List.range layout.rozofsSafe).filter (r.neverWritten blockIdx ·)).length ≤
      (r.holeVotes layout bsize blockIdx).length := by
  refine (List.monotone_filter_right _ fun i empty => ?_).length_le
  simp only [decide_eq_true_eq] at empty ⊢
  exact .inr empty

theorem damageIgnored_of_sound (inside : blockIdx < requested)
    (sound : SoundAnswers layout bsize requested blockIdx r) :
    DamageIgnored layout bsize requested blockIdx r := by
  have verdict := transformInverseCheck_verdict layout bsize (r.ctxs layout bsize requested) blockIdx
  unfold DamageIgnored
  generalize transformInverseCheck layout bsize (r.ctxs layout bsize requested) blockIdx = o at verdict
  cases verdict with
  | endOfFile none => exact ⟨fun impossible => by simp at impossible,fun _ _ real => absurd rfl real⟩
  | wait idxs few chance => exact ⟨fun impossible => by simp at impossible,fun impossible => by simp at impossible⟩
  | corrupted idxs some few hopeless => exact absurd ⟨some,few,hopeless⟩ sound.2
  | quorum k before a after ret rebuild split full decides positive =>
    obtain ⟨nodup,contexts⟩ := quorum_contexts (k := k) _ split
    have done : ∀ i ∈ (groupOf k (before ++ [a])).prjIdxTb, r.prjState i = .done := fun i member => by
      simpa using (contexts i member).2.1
    have clean : ∀ i ∈ (groupOf k (before ++ [a])).prjIdxTb, ¬r.damaged layout bsize blockIdx i := by
      intro i member damaged
      obtain ⟨_,_,hole⟩ := @ctxs_key layout bsize blockIdx requested r i inside (done i member)
      rw [(contexts i member).2.2.1,(contexts i member).2.2.2] at hole
      have key : k = holeKey bsize := hole.mp (.inl damaged)
      subst key
      obtain ⟨indexes,enough⟩ := quorum_indexes r inside split full
      rcases sound.1 with few | undamaged | outvoted
      · omega
      · exact undamaged i (indexes ▸ member) damaged
      · exact not_outvoted split full decides outvoted
    refine ⟨fun _ => clean,fun _ zero real => ?_⟩
    have subset : (groupOf k (before ++ [a])).prjIdxTb ⊆
        (List.range layout.rozofsSafe).filter (r.neverWritten blockIdx ·) := by
      intro i member
      obtain ⟨_,length,hole⟩ := @ctxs_key layout bsize blockIdx requested r i inside (done i member)
      rw [(contexts i member).2.2.1,(contexts i member).2.2.2] at length hole
      have key : k = holeKey bsize := Prod.ext zero (length zero real)
      rcases hole.mpr key with damaged | empty
      · exact absurd damaged (clean i member)
      · simpa using ⟨(contexts i member).1,empty⟩
    have bound := (List.subperm_of_subset nodup subset).length_le
    rw [← full]
    exact bound

theorem sound_of_damageIgnored (inside : blockIdx < requested)
    (ignored : DamageIgnored layout bsize requested blockIdx r) :
    SoundAnswers layout bsize requested blockIdx r := by
  have verdict := transformInverseCheck_verdict layout bsize (r.ctxs layout bsize requested) blockIdx
  unfold DamageIgnored at ignored
  generalize transformInverseCheck layout bsize (r.ctxs layout bsize requested) blockIdx = o at verdict ignored
  have holes : (groupOf (holeKey bsize) (answers layout (r.ctxs layout bsize requested) blockIdx)).count =
      (r.holeVotes layout bsize blockIdx).length := by
    rw [count,groupOf_holeKey r inside]
  cases verdict with
  | endOfFile none =>
    have empty := refKey_none_holeVotes r none
    have positive := two_inverse layout
    exact ⟨.inl (by omega),fun hopeless => hopeless.1 none⟩
  | wait idxs few chance =>
    refine ⟨.inl (holes ▸ few _),fun hopeless => ?_⟩
    obtain ⟨a,member,valid,room⟩ := chance
    have := hopeless.2.2 a member valid
    omega
  | corrupted idxs some few hopeless =>
    have zeros := ignored.2 (le_refl 0) rfl (by have := bsize.bytes_pos; simp only; omega)
    have bound := @neverWritten_le_holeVotes layout bsize blockIdx r
    have := few (holeKey bsize)
    omega
  | quorum k before a after ret rebuild split full decides positive =>
    have parts : answers layout (r.ctxs layout bsize requested) blockIdx = (before ++ [a]) ++ after := by
      rw [split]
      simp
    refine ⟨?_,fun hopeless => ?_⟩
    · by_cases enough : (r.holeVotes layout bsize blockIdx).length < layout.rozofsInverse
      · exact .inl enough
      · by_cases outvoted : Outvoted layout.rozofsInverse bsize (answers layout (r.ctxs layout bsize requested) blockIdx)
        · exact .inr (.inr outvoted)
        · have key := quorum_key_hole split full decides (by omega) outvoted
          subst key
          rw [← (quorum_indexes r inside split full).1]
          exact .inr (.inl (ignored.1 positive))
    · have few := hopeless.2.1 k
      have more := groupOf_count_mono k (before ++ [a]) after
      rw [← parts] at more
      omega

theorem damageIgnored_iff (inside : blockIdx < requested) :
    DamageIgnored layout bsize requested blockIdx r ↔ SoundAnswers layout bsize requested blockIdx r :=
  ⟨sound_of_damageIgnored r inside,damageIgnored_of_sound r inside⟩

end Answers

/-- Storages of a 2/3/4 layout that answer with block 1 of some write, the damaged ones with
a CRC error. -/
def crcRead (damaged : List Nat) : Received where
  prjState i := if i < 3 then .done else .idle
  storIdx i := i
  returned _ := 1
  bins i _ := ⟨⟨1,4096,if i ∈ damaged then 0xff else i⟩,fun _ => 1⟩
  stale _ _ := ⟨0,0,0⟩

/-- One damaged answer out of three is outweighed by the two others. -/
theorem damageIgnored_one : DamageIgnored .layout_2_3_4 .bsize4K 1 0 (crcRead [0]) := by
  refine (damageIgnored_iff (crcRead [0]) (by decide)).mpr ⟨.inl (by decide),fun hopeless => ?_⟩
  have few := hopeless.2.1 (1,4096)
  revert few
  decide

/-- Two damaged answers make the block a hole, though no storage said so. -/
theorem damaged_answers_decide_hole :
    (crcRead [0,1]).damaged .layout_2_3_4 .bsize4K 0 0 ∧ (crcRead [0,1]).damaged .layout_2_3_4 .bsize4K 0 1 ∧
    transformInverseCheck .layout_2_3_4 .bsize4K ((crcRead [0,1]).ctxs .layout_2_3_4 .bsize4K 1) 0 =
      ⟨2,0,4096,[0,1],0,[]⟩ ∧
    ¬DamageIgnored .layout_2_3_4 .bsize4K 1 0 (crcRead [0,1]) :=
  ⟨by decide,by decide,by decide,fun ignored => ignored.1 (by decide) 0 (by decide) (by decide)⟩

end Rozofs.InverseCheck
