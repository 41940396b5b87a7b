import Rozofs.InverseCheckSpec
import Mathlib.Algebra.Order.Ring.Int
import Mathlib.Data.List.Perm.Subperm

/-! What the check of a block promises about the projections that it selects, and about the answers
that it does not wait for. -/
namespace Rozofs.InverseCheck

variable {layout : Layout} {bsize : BSize} {ctxs : Nat → PrjCtx} {blockIdx : Nat} {k : Key} {as : List Answer}

def projectionId (ctxs : Nat → PrjCtx) (blockIdx i : Nat) : Nat := ((ctxs i).blockHdrTab blockIdx).projectionId

/-- A context that was read and whose header for the block has this timestamp and length. -/
structure InGroup (layout : Layout) (ctxs : Nat → PrjCtx) (blockIdx : Nat) (k : Key) (i : Nat) : Prop where
  bound : i < layout.rozofsSafe
  done : (ctxs i).prjState = .done
  timestamp : ((ctxs i).blockHdrTab blockIdx).timestamp = k.1
  effectiveLength : ((ctxs i).blockHdrTab blockIdx).effectiveLength = k.2

theorem InGroup.answer (member : InGroup layout ctxs blockIdx k i) :
    (i,(ctxs i).blockHdrTab blockIdx) ∈ answers layout ctxs blockIdx ∧ keyOf (i,(ctxs i).blockHdrTab blockIdx) = k :=
  ⟨mem_answers.mpr ⟨member.bound,member.done,rfl⟩,Prod.ext member.timestamp member.effectiveLength⟩

theorem inGroup_of_answer {a : Answer} (member : a ∈ answers layout ctxs blockIdx) (same : keyOf a = k) :
    InGroup layout ctxs blockIdx k a.1 := by
  obtain ⟨bound,done,header⟩ := mem_answers.mp member
  refine ⟨bound,done,?_,?_⟩
  · rw [header]
    exact congrArg Prod.fst same
  · rw [header]
    exact congrArg Prod.snd same

/-- Contexts that can be used together: they agree, and real blocks have different projections. -/
structure Group (layout : Layout) (ctxs : Nat → PrjCtx) (blockIdx : Nat) (k : Key) (g : List Nat) : Prop where
  nodup : g.Nodup
  member : ∀ i ∈ g, InGroup layout ctxs blockIdx k i
  valid : ∀ i ∈ g, projectionId ctxs blockIdx i ≠ 0xff
  apart : k.1 ≠ 0 → (g.map (projectionId ctxs blockIdx)).Nodup

/-- Such contexts are all counted in the entry of their timestamp and length. -/
theorem Group.length_le (group : Group layout ctxs blockIdx k g) : g.length ≤ (groupOf k (answers layout ctxs blockIdx)).count := by
  obtain ⟨vs,voters⟩ := exists_voters k (answers layout ctxs blockIdx)
  rw [voters.length]
  have counted : ∀ i ∈ g, (i,(ctxs i).blockHdrTab blockIdx) ∈ vs ∨
      k.1 ≠ 0 ∧ ∃ v ∈ vs, v.2.projectionId = projectionId ctxs blockIdx i := by
    intro i inside
    obtain ⟨answer,same⟩ := (group.member i inside).answer
    exact voters.complete _ answer (group.valid i inside) same
  by_cases real : k.1 = 0
  · have sub : g ⊆ vs.map Prod.fst := by
      intro i inside
      rcases counted i inside with voted | ⟨stamped,_⟩
      · exact List.mem_map.mpr ⟨_,voted,rfl⟩
      · exact absurd real stamped
    simpa using (List.subperm_of_subset group.nodup sub).length_le
  · have sub : g.map (projectionId ctxs blockIdx) ⊆ vs.map fun v => v.2.projectionId := by
      intro j member
      obtain ⟨i,inside,rfl⟩ := List.mem_map.mp member
      rcases counted i inside with voted | ⟨_,v,voted,same⟩
      · exact List.mem_map.mpr ⟨_,voted,rfl⟩
      · exact List.mem_map.mpr ⟨v,voted,same⟩
    simpa using (List.subperm_of_subset (group.apart real) sub).length_le

/-- The contexts of a quorum. -/
theorem quorum_group (split : answers layout ctxs blockIdx = before ++ a :: after) (real : k.1 ≠ 0) :
    Group layout ctxs blockIdx k (groupOf k (before ++ [a])).prjIdxTb := by
  obtain ⟨vs,voters⟩ := exists_voters k (before ++ [a])
  have sub : vs.Sublist (answers layout ctxs blockIdx) := by
    rw [split,List.append_cons]
    exact voters.sublist.trans (List.sublist_append_left _ _)
  have header : ∀ v ∈ vs, projectionId ctxs blockIdx v.1 = v.2.projectionId := by
    intro v voted
    rw [projectionId,(mem_answers.mp (sub.subset voted)).2.2]
  have ids : (vs.map Prod.fst).map (projectionId ctxs blockIdx) = vs.map fun v => v.2.projectionId := by
    rw [List.map_map]
    exact List.map_congr_left header
  rw [voters.indexes]
  refine ⟨(sub.map Prod.fst).nodup (answers_nodup layout ctxs blockIdx),?_,?_,?_⟩
  · intro i inside
    obtain ⟨v,voted,rfl⟩ := List.mem_map.mp inside
    exact inGroup_of_answer (sub.subset voted) (voters.keyed v voted).1
  · intro i inside
    obtain ⟨v,voted,rfl⟩ := List.mem_map.mp inside
    rw [header v voted]
    exact (voters.keyed v voted).2
  · intro _
    rw [ids]
    exact voters.apart real

/-- The block is decoded, or past the end of the file. -/
def Outcome.Succeeds (out : Outcome) : Prop := 0 ≤ out.ret ∧ out.corruptedBlocks = 0

theorem refKey_eq_none (empty : refKey as = none) (member : a ∈ as) (valid : a.2.projectionId ≠ 0xff) : keyOf a = (0,0) := by
  simp only [refKey,Option.map_eq_none_iff,List.find?_eq_none,decide_eq_true_eq] at empty
  by_contra real
  refine empty a member ⟨?_,valid⟩
  rintro ⟨timestamp,length⟩
  exact real (Prod.ext timestamp length)

/-- The check of any table selects `inverse` projections of one block, and does so whenever there are as many; a
projection id of 255 does not count. -/
theorem table_quorum (layout : Layout) (bsize : BSize) (ctxs : Nat → PrjCtx) (blockIdx : Nat) :
    let out := transformInverseCheck layout bsize ctxs blockIdx
    (0 ≤ out.ret → out.timestamp ≠ 0 → out.prjIdxTb.length = layout.rozofsInverse ∧ out.prjIdxTb.Nodup ∧
      (∀ i ∈ out.prjIdxTb, InGroup layout ctxs blockIdx (out.timestamp,out.effectiveLength) i) ∧
        (out.prjIdxTb.map (projectionId ctxs blockIdx)).Nodup) ∧
    ∀ (k : Key) (g : List Nat), (∀ i ∈ g, InGroup layout ctxs blockIdx k i) → (∀ i ∈ g, projectionId ctxs blockIdx i ≠ 0xff) →
      (g.map (projectionId ctxs blockIdx)).Nodup → layout.rozofsInverse ≤ g.length →
        out.Succeeds ∧ (k ≠ (0,0) → 0 < out.ret) := by
  have verdict := transformInverseCheck_verdict layout bsize ctxs blockIdx
  simp only
  constructor
  · intro _ real
    generalize transformInverseCheck layout bsize ctxs blockIdx = out at verdict real
    cases verdict with
    | quorum k before a after ret rebuild split full _ _ =>
      have group := quorum_group split real
      exact ⟨full,group.nodup,group.member,group.apart real⟩
    | endOfFile => exact absurd rfl real
    | wait => exact absurd rfl real
    | corrupted => exact absurd rfl real
  · intro k g member valid apart enough
    have group : Group layout ctxs blockIdx k g := ⟨List.Pairwise.of_map _ (fun _ _ other same => other (congrArg _ same)) apart,member,valid,fun _ => apart⟩
    have counted := group.length_le
    have two := two_inverse layout
    obtain ⟨i,inside⟩ := List.exists_mem_of_ne_nil g (by rintro rfl; simp at enough; omega)
    obtain ⟨answer,same⟩ := (member i inside).answer
    generalize transformInverseCheck layout bsize ctxs blockIdx = out at verdict
    cases verdict with
    | quorum _ _ _ _ _ _ _ _ _ positive => exact ⟨⟨Int.le_of_lt positive,rfl⟩,fun _ => positive⟩
    | endOfFile empty =>
      have zero := refKey_eq_none empty answer (valid i inside)
      exact ⟨⟨Int.le_refl 0,rfl⟩,fun real => absurd (same.symm.trans zero) real⟩
    | wait _ few =>
      have fewer := few k
      omega
    | corrupted _ _ few =>
      have fewer := few k
      omega

/-- The header update leaves no projection id that the 32-bit word of the check could not hold, and no mark of a
CRC error. -/
theorem updateHeader_small (layout : Layout) (bsize : BSize) (block : RcvBlock) : (updateHeader layout bsize block).projectionId < 32 := by
  have zero : 0 < 32 := by decide
  rw [updateHeader]
  split
  · exact zero
  · split
    · exact zero
    · split
      · exact zero
      · next sized =>
        split
        · exact zero
        · by_contra large
          have few : layout.rozofsForward ≤ 12 := by cases layout <;> decide
          exact sized (if_pos (by omega))

theorem received_small {r : Received} {requested i : Nat} (inside : blockIdx < requested) (done : ((r.ctxs layout bsize requested) i).prjState = .done) :
    projectionId (r.ctxs layout bsize requested) blockIdx i < 32 := by
  have read : r.prjState i = .done := by
    by_contra other
    simp only [Received.ctxs,if_neg other] at done
    exact other done
  simp only [projectionId,Received.ctxs,read,if_true,transformUpdateHeaders,inside]
  split
  · exact updateHeader_small layout bsize _
  · exact Nat.zero_lt_succ 31

/-- The bits of the projections in an entry fit in a word when their ids do. -/
theorem groupOf_bitmap (k : Key) (small : ∀ a ∈ as, a.2.projectionId < 32) : (groupOf k as).prjidBitmap < 2 ^ 32 := by
  induction as using List.reverseRecOn with
  | nil => exact Nat.two_pow_pos 32
  | append_singleton as a ih =>
    have rest := ih fun b member => small b (List.mem_append_left _ member)
    have id := small a (List.mem_append_right _ (List.mem_singleton.mpr rfl))
    rw [groupOf_append,vote]
    split
    · exact rest
    · split
      · refine Nat.or_lt_two_pow rest ?_
        rw [Nat.one_shiftLeft]
        exact Nat.pow_lt_pow_right (by decide) id
      · exact rest

/-- A read selects `inverse` projections of one block, and does so whenever the answers have as many.
The ids of an entry are the bits of a 32-bit word. -/
theorem read_quorum (layout : Layout) (bsize : BSize) (r : Received) {requested blockIdx : Nat} (inside : blockIdx < requested) :
    let ctxs := r.ctxs layout bsize requested
    let out := transformInverseCheck layout bsize ctxs blockIdx
    (0 ≤ out.ret → out.timestamp ≠ 0 → out.prjIdxTb.length = layout.rozofsInverse ∧ out.prjIdxTb.Nodup ∧
      (∀ i ∈ out.prjIdxTb, InGroup layout ctxs blockIdx (out.timestamp,out.effectiveLength) i) ∧
        (out.prjIdxTb.map (projectionId ctxs blockIdx)).Nodup) ∧
    (∀ (k : Key) (g : List Nat), (∀ i ∈ g, InGroup layout ctxs blockIdx k i) → (g.map (projectionId ctxs blockIdx)).Nodup →
      layout.rozofsInverse ≤ g.length → out.Succeeds ∧ (k ≠ (0,0) → 0 < out.ret)) ∧
    ∀ (k : Key) (n : Nat), (groupOf k ((answers layout ctxs blockIdx).take n)).prjidBitmap < 2 ^ 32 := by
  have quorum := table_quorum layout bsize (r.ctxs layout bsize requested) blockIdx
  refine ⟨quorum.1,fun k g member apart enough => quorum.2 k g member (fun i mem => ?_) apart enough,fun k n => ?_⟩
  · have small := received_small inside (member i mem).done
    omega
  · refine groupOf_bitmap k fun a read => ?_
    obtain ⟨-,done,header⟩ := mem_answers.mp (List.mem_of_mem_take read)
    rw [← header]
    exact received_small inside done

/-- Two storages answer with projections of one block, one with a CRC error, and one is not read. -/
def pairReceived : Received where
  prjState i := if i < 3 then .done else .idle
  storIdx i := i
  returned _ := 1
  bins i _ := ⟨⟨1,4096,if i = 0 then 0xff else i⟩,fun _ => 1⟩
  stale _ _ := ⟨0,0,0⟩

theorem read_quorum_pair :
    (transformInverseCheck .layout_2_3_4 .bsize4K (pairReceived.ctxs .layout_2_3_4 .bsize4K 1) 0).prjIdxTb = [1,2] ∧
    (transformInverseCheck .layout_2_3_4 .bsize4K (pairReceived.ctxs .layout_2_3_4 .bsize4K 1) 0).prjIdxTb.Nodup ∧
    (transformInverseCheck .layout_2_3_4 .bsize4K (pairReceived.ctxs .layout_2_3_4 .bsize4K 1) 0).Succeeds := by
  have quorum := read_quorum .layout_2_3_4 .bsize4K pairReceived (show 0 < 1 by decide)
  refine ⟨by decide,(quorum.1 (by decide) (by decide)).2.1,(quorum.2.1 (1,4096) [1,2] ?_ (by decide) (by decide)).1⟩
  intro i member
  simp only [List.mem_cons,List.not_mem_nil,or_false] at member
  rcases member with rfl | rfl
  · exact ⟨by decide,by decide,by decide,by decide⟩
  · exact ⟨by decide,by decide,by decide,by decide⟩

section Verdict

/-- An answer that ends the search without a quorum comes when no entry can have `forward`
projections any more. -/
theorem checkTimestampTb_final {idxs : List Nat} (final : (checkTimestampTb layout bsize ctxs blockIdx idxs).ret = 0)
    (member : a ∈ answers layout ctxs blockIdx) (valid : a.2.projectionId ≠ 0xff) :
    leftStorage layout ctxs + (groupOf (keyOf a) (answers layout ctxs blockIdx)).count < layout.rozofsForward := by
  have start : TableOf [] [] := ⟨by simp,by simp,by simp,List.Pairwise.nil⟩
  rcases checkTable_spec layout.rozofsInverse (two_inverse layout) (answers layout ctxs blockIdx) [] [] start
    (by simp) with ⟨before,b,after,rest,split,found,full,few⟩ | ⟨tb,missed,table,few⟩
  · rw [checkTimestampTb,found] at final
    cases final
  · rw [checkTimestampTb,missed] at final
    simp only [List.nil_append] at table
    obtain ⟨p,entry,same⟩ := table.covers a member valid
    rw [← same,← table.entry p entry]
    simp only [show tb ≠ [] from fun empty => by simp [empty] at entry,if_false] at final
    split at final
    · cases final
    · rename_i hopeless
      by_contra room
      exact hopeless (List.any_eq_true.mpr ⟨p,entry,decide_eq_true (by omega)⟩)

/-- No answer is given too early: a valid block is written `forward` times, and no block that was read
can be found as often, whatever the other storages answer. -/
theorem no_premature_verdict (layout : Layout) (bsize : BSize) (ctxs : Nat → PrjCtx) (blockIdx : Nat) (idxs : List Nat)
    (final : (checkTimestampTb layout bsize ctxs blockIdx idxs).ret ≠ -1)
    (without : (checkTimestampTb layout bsize ctxs blockIdx idxs).ret ≠ 1) (k : Key) (g : List Nat) (some : g ≠ [])
    (group : Group layout ctxs blockIdx k g) : leftStorage layout ctxs + g.length < layout.rozofsForward := by
  have ended : (checkTimestampTb layout bsize ctxs blockIdx idxs).ret = 0 := by
    simp only [checkTimestampTb] at final without ⊢
    split
    · rename_i p others found
      simp only [found] at without
      exact absurd rfl without
    · rename_i tb missed
      simp only [missed] at final
      split
      · rfl
      · rename_i filled
        simp only [filled,if_false] at final
        split
        · rename_i chance
          simp only [chance,if_true] at final
          exact absurd rfl final
        · rfl
  obtain ⟨i,inside⟩ := List.exists_mem_of_ne_nil g some
  obtain ⟨answer,same⟩ := (group.member i inside).answer
  have few := checkTimestampTb_final ended answer (group.valid i inside)
  rw [same] at few
  have counted := group.length_le
  omega

/-- Two blocks that were read once, a storage that is not read and one without the file. -/
def splitCtxs (i : Nat) : PrjCtx :=
  match i with
  | 0 => ⟨.done,0,fun _ => ⟨1,4096,0⟩,fun _ => false⟩
  | 1 => ⟨.done,1,fun _ => ⟨2,4096,1⟩,fun _ => false⟩
  | 3 => ⟨.enoent,3,fun _ => ⟨0,0,0⟩,fun _ => false⟩
  | _ => ⟨.idle,i,fun _ => ⟨0,0,0⟩,fun _ => false⟩

theorem splitCtxs_group : Group .layout_2_3_4 splitCtxs 0 (1,4096) [0] := by
  refine ⟨by decide,?_,by decide,fun _ => by decide⟩
  intro i member
  cases List.mem_singleton.mp member
  exact ⟨by decide,rfl,rfl,rfl⟩

theorem no_premature_verdict_split : leftStorage .layout_2_3_4 splitCtxs + [0].length < Layout.rozofsForward .layout_2_3_4 :=
  no_premature_verdict .layout_2_3_4 .bsize4K splitCtxs 0 [] (by decide) (by decide) (1,4096) [0] (by simp) splitCtxs_group

/-- The storage that is not read could complete `inverse` projections of the first block. -/
theorem inverse_still_possible :
    ¬∀ (layout : Layout) (bsize : BSize) (ctxs : Nat → PrjCtx) (blockIdx : Nat) (idxs : List Nat),
      (checkTimestampTb layout bsize ctxs blockIdx idxs).ret ≠ -1 → (checkTimestampTb layout bsize ctxs blockIdx idxs).ret ≠ 1 →
        ∀ (k : Key) (g : List Nat), g ≠ [] → Group layout ctxs blockIdx k g → leftStorage layout ctxs + g.length < layout.rozofsInverse := by
  intro claim
  have few := claim .layout_2_3_4 .bsize4K splitCtxs 0 [] (by decide) (by decide) (1,4096) [0] (by simp) splitCtxs_group
  exact absurd few (by decide)

end Verdict

end Rozofs.InverseCheck
