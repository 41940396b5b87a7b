import Rozofs.InverseCheckSpec
import Mathlib.Data.List.NodupEquivFin
import Mathlib.Data.List.Perm.Subperm

/-! Freshness of the block selected by a read. A write stores its projections on some
storages of the distribution set; later writes overwrite what they reach. -/
namespace Rozofs.InverseCheck
open TimestampCtx

/-- One write of a block: the projection it stored on each storage it reached. Timestamp 0
is the mark of a block that was never written. -/
structure BlockWrite (layout : Layout) where
  timestamp : Nat
  length : Nat
  place : Nat → Option Nat
  stamped : timestamp ≠ 0
  known : ∀ s prj, place s = some prj → s < layout.rozofsSafe ∧ prj < layout.rozofsForward

/-- Every projection of the write is on some storage. A storage holds one projection of a
block, so these storages are distinct. -/
def BlockWrite.Acknowledged (w : BlockWrite layout) : Prop :=
  ∀ prj, prj < layout.rozofsForward → ∃ s, w.place s = some prj

/-- Writes of a block in the order in which they were issued. -/
structure History (layout : Layout) where
  writes : List (BlockWrite layout)
  distinct : (writes.map BlockWrite.timestamp).Nodup

/-- Projection found on a storage after some writes. -/
def stored (writes : List (BlockWrite layout)) (s : Nat) : Option (BlockWrite layout × Nat) :=
  writes.foldl (fun current w => ((w.place s).map fun prj => (w,prj)).or current) none

/-- A projection block as the storage returns it: the header of its write, and the same
timestamp in the footer. -/
def Intact (layout : Layout) (bsize : BSize) (w : BlockWrite layout) (prj : Nat) (block : RcvBlock) : Prop :=
  block.hdr = ⟨w.timestamp,w.length,prj⟩ ∧ block.word (getPsizes layout bsize prj) = w.timestamp

def Answered (state : PrjState) : Prop := state = .done ∨ state = .enoent

/-- The answers come from pairwise distinct storages and reflect what these hold: storages
without the block return an empty block, no block, or do not have the file. -/
structure ReadOf (history : History layout) (r : Received) (bsize : BSize) (blockIdx : Nat) : Prop where
  inside : ∀ i, i < layout.rozofsSafe → Answered (r.prjState i) → r.storIdx i < layout.rozofsSafe
  apart : ∀ i j, i < layout.rozofsSafe → j < layout.rozofsSafe → Answered (r.prjState i) →
    Answered (r.prjState j) → r.storIdx i = r.storIdx j → i = j
  written : ∀ i w prj, r.prjState i = .done → stored history.writes (r.storIdx i) = some (w,prj) →
    blockIdx < r.returned i ∧ Intact layout bsize w prj (r.bins i blockIdx)
  unwritten : ∀ i, r.prjState i = .done → stored history.writes (r.storIdx i) = none →
    blockIdx < r.returned i → (r.bins i blockIdx).hdr.timestamp = 0
  absent : ∀ i, r.prjState i = .enoent → stored history.writes (r.storIdx i) = none

theorem stored_append (writes : List (BlockWrite layout)) (w : BlockWrite layout) (s : Nat) :
    stored (writes ++ [w]) s = ((w.place s).map fun prj => (w,prj)).or (stored writes s) := by
  simp [stored]

theorem stored_mem (writes : List (BlockWrite layout)) (found : stored writes s = some (w,prj)) :
    w ∈ writes ∧ w.place s = some prj := by
  induction writes using List.reverseRecOn with
  | nil => simp [stored] at found
  | append_singleton writes v ih =>
    rw [stored_append] at found
    cases placed : v.place s with
    | some prj' =>
      simp only [placed,Option.map_some,Option.some_or,Option.some.injEq,Prod.mk.injEq] at found
      obtain ⟨rfl,rfl⟩ := found
      exact ⟨by simp,placed⟩
    | none =>
      simp only [placed,Option.map_none,Option.none_or] at found
      exact ⟨List.mem_append_left _ (ih found).1,(ih found).2⟩

/-- A storage that a write reached holds that write or a later one. -/
theorem stored_since (before : List (BlockWrite layout)) (w : BlockWrite layout) (after : List (BlockWrite layout))
    (placed : w.place s = some prj) : ∃ v ∈ w :: after, ∃ prj', stored (before ++ w :: after) s = some (v,prj') := by
  induction after using List.reverseRecOn with
  | nil =>
    refine ⟨w,by simp,prj,?_⟩
    rw [stored_append,placed]
    rfl
  | append_singleton after v ih =>
    rw [← List.cons_append,← List.append_assoc,stored_append]
    cases reached : v.place s with
    | some prj' => exact ⟨v,by simp,prj',by simp⟩
    | none =>
      obtain ⟨u,member,prj',found⟩ := ih
      refine ⟨u,?_,prj',by simpa using found⟩
      simp only [List.mem_cons,List.mem_append] at member ⊢
      tauto

theorem stored_last (before : List (BlockWrite layout)) (w : BlockWrite layout)
    (placed : w.place s = some prj) : stored (before ++ [w]) s = some (w,prj) := by
  rw [stored_append,placed]
  rfl

theorem safe_lt (layout : Layout) : layout.rozofsSafe < layout.rozofsForward + layout.rozofsInverse := by
  cases layout <;> decide

/-- A storage for each projection of an acknowledged write. -/
theorem BlockWrite.Acknowledged.exists_site {w : BlockWrite layout} (acked : w.Acknowledged) :
    ∃ site : Nat → Nat, ∀ prj, prj < layout.rozofsForward → w.place (site prj) = some prj := by
  choose place placed using acked
  refine ⟨fun prj => if known : prj < layout.rozofsForward then place prj known else 0,fun prj known => ?_⟩
  simp only [known,dif_pos]
  exact placed prj known

theorem sites_nodup {w : BlockWrite layout} {site : Nat → Nat}
    (placed : ∀ prj, prj < layout.rozofsForward → w.place (site prj) = some prj) (prjs : List Nat)
    (nodup : prjs.Nodup) (known : ∀ prj ∈ prjs, prj < layout.rozofsForward) : (prjs.map site).Nodup := by
  refine nodup.map_on fun a left b right same => ?_
  have first := placed a (known a left)
  rw [same,placed b (known b right)] at first
  exact (Option.some.inj first).symm

/-- Storages that hold some projections, and others, fit together in the distribution set. -/
theorem sites_bound {w : BlockWrite layout} {site : Nat → Nat}
    (placed : ∀ prj, prj < layout.rozofsForward → w.place (site prj) = some prj) (prjs storages : List Nat)
    (nodup : prjs.Nodup) (known : ∀ prj ∈ prjs, prj < layout.rozofsForward) (distinct : storages.Nodup)
    (inside : ∀ s ∈ storages, s < layout.rozofsSafe) (apart : ∀ prj ∈ prjs, site prj ∉ storages) :
    storages.length + prjs.length ≤ layout.rozofsSafe := by
  have both : (storages ++ prjs.map site).Nodup := by
    rw [List.nodup_append]
    refine ⟨distinct,sites_nodup placed prjs nodup known,?_⟩
    rintro s free t used rfl
    obtain ⟨prj,member,rfl⟩ := List.mem_map.mp used
    exact apart prj member free
  have subset : storages ++ prjs.map site ⊆ List.range layout.rozofsSafe := by
    intro s member
    rw [List.mem_range]
    rcases List.mem_append.mp member with free | used
    · exact inside s free
    · obtain ⟨prj,chosen,rfl⟩ := List.mem_map.mp used
      exact (w.known _ _ (placed prj (known prj chosen))).1
  have bound := (List.subperm_of_subset both subset).length_le
  simpa using bound

/-- A set of storages that avoids an acknowledged write is smaller than any quorum. -/
theorem outside_small (w : BlockWrite layout) (acked : w.Acknowledged) (storages : List Nat)
    (nodup : storages.Nodup) (outside : ∀ s ∈ storages, s < layout.rozofsSafe ∧ w.place s = none) :
    storages.length < layout.rozofsInverse := by
  obtain ⟨site,placed⟩ := acked.exists_site
  have bound := sites_bound placed (List.range layout.rozofsForward) storages List.nodup_range
    (fun prj member => List.mem_range.mp member) nodup (fun s member => (outside s member).1)
    (fun prj member free => by
      have empty := (outside _ free).2
      rw [placed prj (List.mem_range.mp member)] at empty
      cases empty)
  rw [List.length_range] at bound
  have := safe_lt layout
  omega

theorem getPsizes_ne_zero (layout : Layout) (bsize : BSize) (effective : Effective bsize) :
    ∀ prj < layout.rozofsForward, getPsizes layout bsize prj ≠ 0 := by
  rcases effective with rfl | rfl <;> cases layout <;> decide

theorem lt_forward_of_getPsizes (layout : Layout) (bsize : BSize) (sized : getPsizes layout bsize prj ≠ 0) :
    prj < layout.rozofsForward := by
  by_contra out
  exact sized (by simp [getPsizes,Nat.not_lt.mp out])

theorem forward_lt_error (layout : Layout) : layout.rozofsForward < 0xff := by
  cases layout <;> decide

section Contexts
variable {layout : Layout} {history : History layout} {r : Received} {bsize : BSize} {blockIdx : Nat}

@[simp] theorem ctxs_prjState (requested i : Nat) : (r.ctxs layout bsize requested i).prjState = r.prjState i := by
  simp only [Received.ctxs]
  split <;> rfl

@[simp] theorem ctxs_storIdx (requested i : Nat) : (r.ctxs layout bsize requested i).storIdx = r.storIdx i := by
  simp only [Received.ctxs]
  split <;> rfl

theorem ctxs_hdr (requested i : Nat) (done : r.prjState i = .done) (inside : blockIdx < requested) :
    (r.ctxs layout bsize requested i).blockHdrTab blockIdx =
      if blockIdx < r.returned i then updateHeader layout bsize (r.bins i blockIdx) else ⟨0,0,0⟩ := by
  simp [Received.ctxs,done,transformUpdateHeaders,inside]

theorem updateHeader_intact (effective : Effective bsize) (w : BlockWrite layout) (block : RcvBlock)
    (known : prj < layout.rozofsForward) (intact : Intact layout bsize w prj block) :
    updateHeader layout bsize block = ⟨w.timestamp,w.length,prj⟩ := by
  have sized := getPsizes_ne_zero layout bsize effective prj known
  have valid : prj ≠ 0xff := by have := forward_lt_error layout; omega
  simp [updateHeader,intact.1,intact.2,w.stamped,sized,valid]

/-- The header of a projection that was read says which write it found. -/
theorem ReadOf.header_written (read : ReadOf history r bsize blockIdx) (effective : Effective bsize)
    (inside : blockIdx < requested) (done : r.prjState i = .done)
    (found : stored history.writes (r.storIdx i) = some (w,prj)) :
    (r.ctxs layout bsize requested i).blockHdrTab blockIdx = ⟨w.timestamp,w.length,prj⟩ := by
  obtain ⟨returned,intact⟩ := read.written i w prj done found
  have known := (w.known _ _ (stored_mem _ found).2).2
  rw [ctxs_hdr requested i done inside,if_pos returned,updateHeader_intact effective w _ known intact]

theorem ReadOf.header_unwritten (read : ReadOf history r bsize blockIdx) (inside : blockIdx < requested)
    (done : r.prjState i = .done) (empty : stored history.writes (r.storIdx i) = none) :
    ((r.ctxs layout bsize requested i).blockHdrTab blockIdx).timestamp = 0 ∧
    ((r.ctxs layout bsize requested i).blockHdrTab blockIdx).projectionId = 0 := by
  rw [ctxs_hdr requested i done inside]
  split
  · rename_i returned
    have zero := read.unwritten i done empty returned
    by_cases error : (r.bins i blockIdx).hdr.projectionId = 0xff <;> simp [updateHeader,zero,error]
  · exact ⟨rfl,rfl⟩

/-- Contexts whose answers do not come from an acknowledged write are fewer than a quorum. -/
theorem ReadOf.few_outside (read : ReadOf history r bsize blockIdx) (w : BlockWrite layout)
    (acked : w.Acknowledged) (idxs : List Nat) (nodup : idxs.Nodup)
    (outside : ∀ i ∈ idxs, i < layout.rozofsSafe ∧ Answered (r.prjState i) ∧ w.place (r.storIdx i) = none) :
    idxs.length < layout.rozofsInverse := by
  rw [← List.length_map r.storIdx]
  refine outside_small w acked _ (nodup.map_on fun i left j right same => ?_) fun s member => ?_
  · exact read.apart i j (outside i left).1 (outside j right).1 (outside i left).2.1 (outside j right).2.1 same
  · obtain ⟨i,inside,rfl⟩ := List.mem_map.mp member
    exact ⟨read.inside i (outside i inside).1 (outside i inside).2.1,(outside i inside).2.2⟩

/-- Voters of a complete key are that many distinct contexts. -/
theorem quorum_contexts (ctxs : Nat → PrjCtx) (split : answers layout ctxs blockIdx = before ++ a :: after) :
    (groupOf k (before ++ [a])).prjIdxTb.Nodup ∧
    ∀ i ∈ (groupOf k (before ++ [a])).prjIdxTb, i < layout.rozofsSafe ∧ (ctxs i).prjState = .done ∧
      ((ctxs i).blockHdrTab blockIdx).timestamp = k.1 ∧ ((ctxs i).blockHdrTab blockIdx).effectiveLength = k.2 := by
  obtain ⟨vs,voters⟩ := exists_voters k (before ++ [a])
  have sub : vs.Sublist (answers layout ctxs blockIdx) := by
    rw [split,List.append_cons]
    exact voters.sublist.trans (List.sublist_append_left _ _)
  rw [voters.indexes]
  refine ⟨(sub.map _).nodup (answers_nodup layout ctxs blockIdx),fun i member => ?_⟩
  obtain ⟨⟨i,h⟩,inside,rfl⟩ := List.mem_map.mp member
  obtain ⟨bound,done,same⟩ := mem_answers.mp (sub.subset inside)
  have key := (voters.keyed _ inside).1
  simp only [keyOf] at key
  rw [same,← key]
  exact ⟨bound,done,rfl,rfl⟩

theorem rebuildCheck_counts (inverse : Nat) (states : List PrjState) (received enoent : Nat)
    (few : received < inverse) (enough : inverse ≤ rebuildCheck inverse states received enoent) :
    inverse ≤ received + states.countP (· = .done) ∨ inverse < enoent + states.countP (· = .enoent) := by
  induction states generalizing received enoent with
  | nil => simp only [rebuildCheck] at enough; omega
  | cons state states ih =>
    cases state with
    | done =>
      simp only [rebuildCheck] at enough
      split at enough
      · left
        simp
        omega
      · have rest := ih (received + 1) enoent (by omega) enough
        simp only [List.countP_cons,decide_true,if_true,reduceCtorEq,decide_false,Bool.false_eq_true,if_false]
        omega
    | enoent =>
      simp only [rebuildCheck] at enough
      split at enough
      · right
        simp
        omega
      · have rest := ih received (enoent + 1) few enough
        simp only [List.countP_cons,decide_true,if_true,reduceCtorEq,decide_false,Bool.false_eq_true,if_false]
        omega
    | idle => simpa using ih received enoent few (by simpa [rebuildCheck] using enough)
    | inPrg => simpa using ih received enoent few (by simpa [rebuildCheck] using enough)
    | error => simpa using ih received enoent few (by simpa [rebuildCheck] using enough)

/-- Once the handler goes on, some answer comes from an acknowledged write. -/
theorem ReadOf.exists_acked (read : ReadOf history r bsize blockIdx)
    (enough : enoughProjections layout (r.ctxs layout bsize requested) = true)
    (split : history.writes = before ++ acked :: after) (ack : acked.Acknowledged) :
    ∃ i, i < layout.rozofsSafe ∧ r.prjState i = .done ∧ acked.place (r.storIdx i) ≠ none := by
  by_contra missing
  have outside : ∀ i, i < layout.rozofsSafe → Answered (r.prjState i) → acked.place (r.storIdx i) = none := by
    intro i bound answered
    cases placed : acked.place (r.storIdx i) with
    | none => rfl
    | some prj =>
      rcases answered with done | enoent
      · exact absurd ⟨i,bound,done,by simp [placed]⟩ missing
      · obtain ⟨v,_,prj',found⟩ := stored_since before acked after placed
        rw [← split,read.absent i enoent] at found
        cases found
  have few : ∀ state, Answered state →
      ((List.range layout.rozofsSafe).map fun i => r.prjState i).countP (· = state) < layout.rozofsInverse := by
    intro state answered
    rw [List.countP_map,List.countP_eq_length_filter]
    refine read.few_outside acked ack _ (List.nodup_range.filter _) fun i member => ?_
    obtain ⟨bound,same⟩ := List.mem_filter.mp member
    rw [List.mem_range] at bound
    have here : Answered (r.prjState i) := by
      rw [Function.comp_apply,decide_eq_true_eq] at same
      rwa [same]
    exact ⟨bound,here,outside i bound here⟩
  simp only [enoughProjections,ctxs_prjState,ge_iff_le,decide_eq_true_eq] at enough
  have doneFew := few .done (.inl rfl)
  have enoentFew := few .enoent (.inr rfl)
  have positive := two_inverse layout
  rcases rebuildCheck_counts layout.rozofsInverse _ 0 0 (by omega) enough with many | many <;> omega

theorem ReadOf.refKey_some (read : ReadOf history r bsize blockIdx) (effective : Effective bsize)
    (inside : blockIdx < requested) (enough : enoughProjections layout (r.ctxs layout bsize requested) = true)
    (split : history.writes = before ++ acked :: after) (ack : acked.Acknowledged) :
    refKey (answers layout (r.ctxs layout bsize requested) blockIdx) ≠ none := by
  intro none
  obtain ⟨i,bound,done,placed⟩ := read.exists_acked enough split ack
  obtain ⟨prj,placed⟩ := Option.ne_none_iff_exists'.mp placed
  obtain ⟨w,_,prj',found⟩ := stored_since before acked after placed
  rw [← split] at found
  have header := read.header_written effective inside done found
  have known := (w.known _ _ (stored_mem _ found).2).2
  have visible := List.find?_eq_none.mp (Option.map_eq_none_iff.mp none) (i,⟨w.timestamp,w.length,prj'⟩)
    (mem_answers.mpr ⟨bound,by simpa using done,header⟩)
  simp only [decide_eq_true_eq,not_and,not_not] at visible
  have valid := visible fun zero => absurd zero w.stamped
  have := forward_lt_error layout
  omega

/-- Contexts with a zero timestamp, or with a write older than an acknowledged one, are fewer
than a quorum. -/
theorem ReadOf.quorum_since (read : ReadOf history r bsize blockIdx) (effective : Effective bsize)
    (inside : blockIdx < requested) (split : history.writes = before ++ acked :: after)
    (ack : acked.Acknowledged) (idxs : List Nat) (nodup : idxs.Nodup)
    (quorum : idxs.length = layout.rozofsInverse)
    (same : ∀ i ∈ idxs, i < layout.rozofsSafe ∧ r.prjState i = .done ∧
      ((r.ctxs layout bsize requested i).blockHdrTab blockIdx).timestamp = ts) :
    ∃ w ∈ acked :: after, w.timestamp = ts ∧ ∀ i ∈ idxs, ∃ prj, stored history.writes (r.storIdx i) = some (w,prj) := by
  have some : ∃ i ∈ idxs, acked.place (r.storIdx i) ≠ none := by
    by_contra none
    have := read.few_outside acked ack idxs nodup fun i member =>
      ⟨(same i member).1,.inl (same i member).2.1,by
        by_contra placed
        exact none ⟨i,member,placed⟩⟩
    omega
  obtain ⟨i,member,placed⟩ := some
  obtain ⟨prj,placed⟩ := Option.ne_none_iff_exists'.mp placed
  obtain ⟨w,recent,prj',found⟩ := stored_since before acked after placed
  rw [← split] at found
  have header := read.header_written effective inside (same i member).2.1 found
  have stamp : w.timestamp = ts := by rw [← (same i member).2.2,header]
  refine ⟨w,recent,stamp,fun j other => ?_⟩
  cases content : stored history.writes (r.storIdx j) with
  | none =>
    have zero := (read.header_unwritten inside (same j other).2.1 content).1
    rw [(same j other).2.2] at zero
    exact absurd (stamp.trans zero) w.stamped
  | some entry =>
    obtain ⟨v,prj''⟩ := entry
    have header := read.header_written effective inside (same j other).2.1 content
    have stamps : v.timestamp = w.timestamp := by rw [stamp,← (same j other).2.2,header]
    refine ⟨prj'',?_⟩
    rw [List.inj_on_of_nodup_map history.distinct (stored_mem _ content).1 (stored_mem _ found).1 stamps]

/-- As long as nothing was written after an acknowledged write, its projections that were
read and the storages still unread make up the whole write. -/
theorem ReadOf.forward_le (read : ReadOf history r bsize blockIdx) (effective : Effective bsize)
    (inside : blockIdx < requested) (split : history.writes = before ++ [acked]) (ack : acked.Acknowledged) :
    layout.rozofsForward ≤ leftStorage layout (r.ctxs layout bsize requested) +
      (groupOf (acked.timestamp,acked.length) (answers layout (r.ctxs layout bsize requested) blockIdx)).count := by
  obtain ⟨vs,voters⟩ := exists_voters (acked.timestamp,acked.length)
    (answers layout (r.ctxs layout bsize requested) blockIdx)
  obtain ⟨site,placed⟩ := ack.exists_site
  let answered := (List.range layout.rozofsSafe).filter fun i => r.prjState i = .done ∨ r.prjState i = .enoent
  let voted := (List.range layout.rozofsForward).filter fun prj => prj ∈ vs.map (·.2.projectionId)
  let missing := (List.range layout.rozofsForward).filter fun prj => prj ∉ vs.map (·.2.projectionId)
  have states : ∀ i ∈ answered, i < layout.rozofsSafe ∧ Answered (r.prjState i) := by
    intro i member
    simpa [answered,Answered] using member
  have counted : answered.length + leftStorage layout (r.ctxs layout bsize requested) = layout.rozofsSafe := by
    have all := List.length_eq_countP_add_countP (l := List.range layout.rozofsSafe)
      fun i => decide (r.prjState i = .done ∨ r.prjState i = .enoent)
    rw [List.length_range] at all
    rw [all,← List.countP_eq_length_filter]
    congr 1
    refine List.countP_congr fun i _ => ?_
    simp only [ctxs_prjState,decide_eq_true_eq,not_or]
    tauto
  have parts : voted.length + missing.length = layout.rozofsForward := by
    have all := (List.range layout.rozofsForward).length_eq_length_filter_add
      fun prj => decide (prj ∈ vs.map (·.2.projectionId))
    rw [List.length_range] at all
    simpa [voted,missing] using all.symm
  have votes : voted.length ≤ vs.length := by
    rw [← List.length_map (fun a : Answer => a.2.projectionId)]
    refine (List.subperm_of_subset (List.nodup_range.filter _) fun prj member => ?_).length_le
    simpa using (List.mem_filter.mp member).2
  -- The storage of a missing projection has not answered.
  have unread : ∀ prj ∈ missing, site prj ∉ answered.map r.storIdx := by
    intro prj member seen
    obtain ⟨i,inA,same⟩ := List.mem_map.mp seen
    obtain ⟨known,unseen⟩ := List.mem_filter.mp member
    rw [List.mem_range] at known
    have found := stored_last before acked (placed prj known)
    rw [← split,← same] at found
    rcases (states i inA).2 with done | enoent
    · have header := read.header_written effective inside done found
      have here := mem_answers.mpr ⟨(states i inA).1,by simpa using done,header⟩
      have valid : prj ≠ 0xff := by have := forward_lt_error layout; omega
      simp only [decide_eq_true_eq] at unseen
      rcases voters.complete _ here valid rfl with chosen | ⟨_,v,chosen,eq⟩
      · exact unseen (List.mem_map.mpr ⟨_,chosen,rfl⟩)
      · exact unseen (List.mem_map.mpr ⟨v,chosen,eq⟩)
    · rw [read.absent i enoent] at found
      cases found
  have bound := sites_bound placed missing (answered.map r.storIdx) (List.nodup_range.filter _)
    (fun prj member => List.mem_range.mp (List.mem_filter.mp member).1)
    ((List.nodup_range.filter _).map_on fun i left j right same =>
      read.apart i j (states i left).1 (states j right).1 (states i left).2 (states j right).2 same)
    (fun s member => by
      obtain ⟨i,inA,rfl⟩ := List.mem_map.mp member
      exact read.inside i (states i inA).1 (states i inA).2) unread
  rw [List.length_map] at bound
  rw [voters.length]
  omega

/-- A block selected with a timestamp is the one of an acknowledged write or of a later one.
Once enough projections are read, the only other answer is the corrupted block, which needs
a later write. -/
theorem transformInverseCheck_fresh (effective : Effective bsize) (read : ReadOf history r bsize blockIdx)
    (inside : blockIdx < requested) (split : history.writes = before ++ acked :: after)
    (ack : acked.Acknowledged) :
    let o := transformInverseCheck layout bsize (r.ctxs layout bsize requested) blockIdx
    (0 ≤ o.ret → o.timestamp ≠ 0 →
      o.prjIdxTb.Nodup ∧ o.prjIdxTb.length = layout.rozofsInverse ∧
      ∃ w ∈ acked :: after, w.timestamp = o.timestamp ∧
        ∀ i ∈ o.prjIdxTb, ∃ prj, stored history.writes (r.storIdx i) = some (w,prj)) ∧
    (enoughProjections layout (r.ctxs layout bsize requested) = true → 0 ≤ o.ret → o.timestamp = 0 →
      o.effectiveLength = bsize.bytes ∧ o.corruptedBlocks = 1 ∧ after ≠ []) := by
  have verdict := transformInverseCheck_verdict layout bsize (r.ctxs layout bsize requested) blockIdx
  generalize transformInverseCheck layout bsize (r.ctxs layout bsize requested) blockIdx = o at verdict
  cases verdict with
  | endOfFile none =>
    refine ⟨fun _ real => absurd rfl real,fun enough _ _ => ?_⟩
    exact absurd none (read.refKey_some effective inside enough split ack)
  | quorum k first a rest ret rebuild parts full decides positive =>
    obtain ⟨nodup,contexts⟩ := quorum_contexts (k := k) _ parts
    obtain ⟨w,recent,stamp,all⟩ := read.quorum_since effective inside split ack _ nodup full fun i member =>
      ⟨(contexts i member).1,by simpa using (contexts i member).2.1,(contexts i member).2.2.1⟩
    exact ⟨fun _ _ => ⟨nodup,full,w,recent,stamp,all⟩,fun _ _ zero => absurd (stamp.trans zero) w.stamped⟩
  | wait idxs few chance => exact ⟨fun impossible => by simp at impossible,fun _ impossible => by simp at impossible⟩
  | corrupted idxs some few hopeless =>
    refine ⟨fun _ real => absurd rfl real,fun _ _ _ => ⟨rfl,rfl,?_⟩⟩
    rintro rfl
    have whole := read.forward_le effective inside split ack
    obtain ⟨k,first⟩ := Option.ne_none_iff_exists'.mp some
    obtain ⟨a,member,_,valid,_⟩ := exists_of_refKey first
    by_cases voted : ∃ b ∈ answers layout (r.ctxs layout bsize requested) blockIdx,
        b.2.projectionId ≠ 0xff ∧ keyOf b = (acked.timestamp,acked.length)
    · obtain ⟨b,inside,ok,key⟩ := voted
      have := hopeless b inside ok
      rw [key] at this
      omega
    · have none := groupOf_skip (acked.timestamp,acked.length)
        (answers layout (r.ctxs layout bsize requested) blockIdx) fun b inside key => by
          by_contra ok
          exact voted ⟨b,inside,ok,key⟩
      rw [none] at whole
      have := hopeless a member valid
      simp only [count,List.length_nil] at whole
      omega

end Contexts

/-- A write of a 2/3/4 layout that puts each projection on the storage of its rank. -/
def rankedWrite (timestamp : Nat) (storages : List Nat) (stamped : timestamp ≠ 0) : BlockWrite .layout_2_3_4 where
  timestamp := timestamp
  length := 4096
  place s := if s ∈ storages ∧ s < 3 then some s else none
  stamped := stamped
  known s prj placed := by
    split at placed
    · rename_i member
      cases placed
      exact ⟨by simp only [Layout.rozofsSafe]; omega,member.2⟩
    · cases placed

/-- Storages 0, 1 and 2 answer with the given timestamps, storage 3 does not have the file. -/
def rankedRead (timestamps : List Nat) : Received where
  prjState i := if i < 3 then .done else .enoent
  storIdx i := i
  returned _ := 1
  bins i _ := ⟨⟨timestamps.getD i 0,4096,i⟩,fun _ => timestamps.getD i 0⟩
  stale _ _ := ⟨0,0,0⟩

/-- An acknowledged write, then two writes that failed after one projection each. -/
def overwritten : History .layout_2_3_4 :=
  ⟨[rankedWrite 1 [0,1,2] (by decide),rankedWrite 2 [0] (by decide),rankedWrite 3 [1] (by decide)],by decide⟩

theorem rankedWrite_acknowledged (ts : Nat) (stamped : ts ≠ 0) : (rankedWrite ts [0,1,2] stamped).Acknowledged := by
  intro prj known
  refine ⟨prj,?_⟩
  simp only [Layout.rozofsForward] at known
  have : prj ∈ [0,1,2] ∧ prj < 3 := ⟨by simp; omega,known⟩
  simp only [rankedWrite,this,and_self,if_true]

theorem rankedRead_readOf (history : History .layout_2_3_4) (timestamps : List Nat)
    (shown : ∀ i, i < 3 → ∃ w, stored history.writes i = some (w,i) ∧
      w.timestamp = timestamps.getD i 0 ∧ w.length = 4096)
    (hidden : ∀ i, 3 ≤ i → stored history.writes i = none) :
    ReadOf history (rankedRead timestamps) .bsize4K 0 := by
  constructor
  · intro i bound _
    exact bound
  · intro i j _ _ _ _ same
    exact same
  · intro i w prj done found
    simp only [rankedRead] at done found
    have low : i < 3 := by
      by_contra high
      simp [high] at done
    obtain ⟨v,content,stamp,length⟩ := shown i low
    rw [content] at found
    cases found
    exact ⟨by simp [rankedRead],by simp [rankedRead,stamp,length],by simp [rankedRead,stamp]⟩
  · intro i done empty
    simp only [rankedRead] at done empty
    have low : i < 3 := by
      by_contra high
      simp [high] at done
    obtain ⟨v,content,_⟩ := shown i low
    rw [content] at empty
    cases empty
  · intro i enoent
    simp only [rankedRead] at enoent
    refine hidden i ?_
    by_contra low
    simp [Nat.not_le.mp low] at enoent

theorem stored_eq_none (writes : List (BlockWrite layout)) (unreached : ∀ w ∈ writes, w.place s = none) :
    stored writes s = none := by
  cases found : stored writes s with
  | none => rfl
  | some entry =>
    obtain ⟨w,prj⟩ := entry
    obtain ⟨member,placed⟩ := stored_mem writes found
    rw [unreached w member] at placed
    cases placed

theorem rankedWrite_high (ts : Nat) (storages : List Nat) (stamped : ts ≠ 0) (high : 3 ≤ i) :
    (rankedWrite ts storages stamped).place i = none := by
  simp [rankedWrite,Nat.not_lt.mpr high]

theorem overwritten_read : ReadOf overwritten (rankedRead [2,3,1]) .bsize4K 0 := by
  refine rankedRead_readOf overwritten [2,3,1] (fun i low => ?_) fun i high => ?_
  · have cases : i = 0 ∨ i = 1 ∨ i = 2 := by omega
    rcases cases with rfl | rfl | rfl
    · exact ⟨rankedWrite 2 [0] (by decide),rfl,rfl,rfl⟩
    · exact ⟨rankedWrite 3 [1] (by decide),rfl,rfl,rfl⟩
    · exact ⟨rankedWrite 1 [0,1,2] (by decide),rfl,rfl,rfl⟩
  · refine stored_eq_none _ fun w member => ?_
    simp only [overwritten,List.mem_cons,List.not_mem_nil,or_false] at member
    rcases member with rfl | rfl | rfl <;> exact rankedWrite_high _ _ _ high

theorem acknowledged_block_read_as_hole :
    ReadOf overwritten (rankedRead [2,3,1]) .bsize4K 0 ∧
    overwritten.writes.head? = some (rankedWrite 1 [0,1,2] (by decide)) ∧
    (rankedWrite 1 [0,1,2] (by decide)).Acknowledged ∧
    enoughProjections .layout_2_3_4 ((rankedRead [2,3,1]).ctxs .layout_2_3_4 .bsize4K 1) = true ∧
    (transformInverseCheck .layout_2_3_4 .bsize4K ((rankedRead [2,3,1]).ctxs .layout_2_3_4 .bsize4K 1) 0).ret = 0 ∧
    (transformInverseCheck .layout_2_3_4 .bsize4K
      ((rankedRead [2,3,1]).ctxs .layout_2_3_4 .bsize4K 1) 0).timestamp = 0 ∧
    (transformInverseCheck .layout_2_3_4 .bsize4K
      ((rankedRead [2,3,1]).ctxs .layout_2_3_4 .bsize4K 1) 0).effectiveLength = 4096 :=
  ⟨overwritten_read,rfl,rankedWrite_acknowledged _ _,by decide,by decide,by decide,by decide⟩

/-- The same block when only the second write failed: the acknowledged write is found. -/
def partlyOverwritten : History .layout_2_3_4 :=
  ⟨[rankedWrite 1 [0,1,2] (by decide),rankedWrite 2 [0] (by decide)],by decide⟩

theorem transformInverseCheck_fresh_partly :
    ReadOf partlyOverwritten (rankedRead [2,1,1]) .bsize4K 0 ∧
    ∃ w ∈ partlyOverwritten.writes, w.timestamp =
      (transformInverseCheck .layout_2_3_4 .bsize4K ((rankedRead [2,1,1]).ctxs .layout_2_3_4 .bsize4K 1) 0).timestamp := by
  have read : ReadOf partlyOverwritten (rankedRead [2,1,1]) .bsize4K 0 := by
    refine rankedRead_readOf partlyOverwritten [2,1,1] (fun i low => ?_) fun i high => ?_
    · have cases : i = 0 ∨ i = 1 ∨ i = 2 := by omega
      rcases cases with rfl | rfl | rfl
      · exact ⟨rankedWrite 2 [0] (by decide),rfl,rfl,rfl⟩
      · exact ⟨rankedWrite 1 [0,1,2] (by decide),rfl,rfl,rfl⟩
      · exact ⟨rankedWrite 1 [0,1,2] (by decide),rfl,rfl,rfl⟩
    · refine stored_eq_none _ fun w member => ?_
      simp only [partlyOverwritten,List.mem_cons,List.not_mem_nil,or_false] at member
      rcases member with rfl | rfl <;> exact rankedWrite_high _ _ _ high
  obtain ⟨_,_,w,recent,stamp,_⟩ := (transformInverseCheck_fresh (.inl rfl) read (by decide : 0 < 1)
    (List.nil_append _).symm (rankedWrite_acknowledged _ _)).1 (by decide) (by decide)
  exact ⟨read,w,recent,stamp⟩

end Rozofs.InverseCheck
