import Rozofs.DamagedBlocks

/-! Block selection of a rebuild, `rbs_check_timestamp_tb`, on the answers that a read would see. -/
namespace Rozofs.RebuildCheck
open InverseCheck
open TimestampCtx (count)

/-- Header of a block once the rebuild has looked at its footer. The code clears the timestamp in
place. -/
def checkHeader (layout : Layout) (bsize : BSize) (block : RcvBlock) : BinsHdr :=
  if block.hdr.projectionId < layout.rozofsForward then
    if block.hdr.timestamp ≠ block.word (getPsizes layout bsize block.hdr.projectionId) then
      { block.hdr with timestamp := 0 }
    else block.hdr
  else { block.hdr with timestamp := 0 }

/-- What the check reports of a block; the indexes are written for a timestamp other than 0 only. -/
structure Selected where
  timestamp : Nat
  effectiveLength : Nat
  prjIdxTb : List Nat
  deriving DecidableEq, Repr

/-- Loop over the projection contexts, with the number of empty blocks and `rbs_timestamp_tb`.
The entries of that table have no length: the answers are registered without theirs. -/
def scan (layout : Layout) (bsize : BSize) (r : Received) (blockIdx : Nat) :
    List Nat → Nat → List TimestampCtx → Option Selected
  | [], _, _ => none
  | i :: rest, empty, tb =>
    if r.prjState i ≠ .done then scan layout bsize r blockIdx rest empty tb
    else if blockIdx + 1 > r.returned i then scan layout bsize r blockIdx rest empty tb
    else
      let hdr := checkHeader layout bsize (r.bins i blockIdx)
      if hdr.projectionId = 0xff then scan layout bsize r blockIdx rest empty tb
      else if hdr.timestamp = 0 then
        if empty + 1 = layout.rozofsInverse then some ⟨0,hdr.effectiveLength,[]⟩
        else scan layout bsize r blockIdx rest (empty + 1) tb
      else match register layout.rozofsInverse (i,{ hdr with effectiveLength := 0 }) tb with
        | (_,some p) => some ⟨p.timestamp,hdr.effectiveLength,p.prjIdxTb⟩
        | (tb,none) => scan layout bsize r blockIdx rest empty tb

/-- `rbs_check_timestamp_tb`; `none` is its return value -1. -/
def checkTimestampTb (layout : Layout) (bsize : BSize) (r : Received) (blockIdx : Nat) : Option Selected :=
  scan layout bsize r blockIdx (List.range layout.rozofsSafe) 0 []

theorem checkHeader_effectiveLength (layout : Layout) (bsize : BSize) (block : RcvBlock) :
    (checkHeader layout bsize block).effectiveLength = block.hdr.effectiveLength := by
  simp only [checkHeader]
  split
  · split <;> rfl
  · rfl

theorem checkHeader_projectionId (layout : Layout) (bsize : BSize) (block : RcvBlock) :
    (checkHeader layout bsize block).projectionId = block.hdr.projectionId := by
  simp only [checkHeader]
  split
  · split <;> rfl
  · rfl

/-- The projection id is one of the layout, and the footer repeats the timestamp of the header. -/
def Intact (layout : Layout) (bsize : BSize) (block : RcvBlock) : Prop :=
  block.hdr.projectionId < layout.rozofsForward ∧
  block.word (getPsizes layout bsize block.hdr.projectionId) = block.hdr.timestamp

instance : Decidable (Intact layout bsize block) := inferInstanceAs (Decidable (_ ∧ _))

theorem checkHeader_intact (intact : Intact layout bsize block) : checkHeader layout bsize block = block.hdr := by
  simp [checkHeader,intact.1,intact.2]

theorem intact_of_stamped (stamped : (checkHeader layout bsize block).timestamp ≠ 0) : Intact layout bsize block := by
  simp only [checkHeader] at stamped
  split at stamped
  · rename_i known
    split at stamped
    · exact absurd rfl stamped
    · rename_i same
      exact ⟨known,(not_not.mp same).symm⟩
  · exact absurd rfl stamped

section Contexts
variable (layout : Layout) (bsize : BSize) (r : Received) (blockIdx : Nat)

/-- The storage returned the block, without CRC error. -/
def Answered (i : Nat) : Prop := r.returnedBlock blockIdx i ∧ (r.bins i blockIdx).hdr.projectionId ≠ 0xff

instance (i : Nat) : Decidable (Answered r blockIdx i) := inferInstanceAs (Decidable (_ ∧ _))

/-- The timestamp a context counts for, 0 for a damaged block. -/
def stamp (i : Nat) : Nat := (checkHeader layout bsize (r.bins i blockIdx)).timestamp

def projectionId (i : Nat) : Nat := (r.bins i blockIdx).hdr.projectionId

def effectiveLength (i : Nat) : Nat := (r.bins i blockIdx).hdr.effectiveLength

/-- A context holds a block for a timestamp. -/
def Holds (ts i : Nat) : Prop := Answered r blockIdx i ∧ stamp layout bsize r blockIdx i = ts

instance (ts i : Nat) : Decidable (Holds layout bsize r blockIdx ts i) := inferInstanceAs (Decidable (_ ∧ _))

/-- The first `n` contexts that count for a timestamp: all of them for 0, else the first one of
each projection id. -/
def voters (n ts : Nat) : List Nat :=
  (List.range n).filter fun i => Holds layout bsize r blockIdx ts i ∧
    (ts = 0 ∨ ∀ j < i, Holds layout bsize r blockIdx ts j → projectionId r blockIdx j ≠ projectionId r blockIdx i)

/-- A block that was never written: nothing in it, footer included. -/
def Hole (i : Nat) : Prop :=
  Answered r blockIdx i ∧ Intact layout bsize (r.bins i blockIdx) ∧ (r.bins i blockIdx).hdr.timestamp = 0

instance (i : Nat) : Decidable (Hole layout bsize r blockIdx i) := inferInstanceAs (Decidable (_ ∧ _ ∧ _))

def holes : List Nat := (List.range layout.rozofsSafe).filter fun i => Hole layout bsize r blockIdx i

/-- The context whose answer completes a timestamp, before any other one is complete. -/
def Completes (n ts : Nat) : Prop :=
  n < layout.rozofsSafe ∧ n ∈ voters layout bsize r blockIdx (n + 1) ts ∧
  (voters layout bsize r blockIdx (n + 1) ts).length = layout.rozofsInverse ∧
  ∀ other, (voters layout bsize r blockIdx n other).length < layout.rozofsInverse

end Contexts

section Voters
variable {layout : Layout} {bsize : BSize} {r : Received} {blockIdx : Nat}

theorem mem_voters {n ts i : Nat} : i ∈ voters layout bsize r blockIdx n ts ↔
    i < n ∧ Holds layout bsize r blockIdx ts i ∧ (ts = 0 ∨
      ∀ j < i, Holds layout bsize r blockIdx ts j → projectionId r blockIdx j ≠ projectionId r blockIdx i) := by
  simp [voters]

theorem voters_succ (n ts : Nat) : voters layout bsize r blockIdx (n + 1) ts =
    voters layout bsize r blockIdx n ts ++ if n ∈ voters layout bsize r blockIdx (n + 1) ts then [n] else [] := by
  have last : n ∈ voters layout bsize r blockIdx (n + 1) ts ↔ Holds layout bsize r blockIdx ts n ∧ (ts = 0 ∨
      ∀ j < n, Holds layout bsize r blockIdx ts j → projectionId r blockIdx j ≠ projectionId r blockIdx n) := by
    rw [mem_voters]
    exact ⟨fun member => member.2,fun member => ⟨Nat.lt_succ_self n,member⟩⟩
  simp only [last]
  simp only [voters,List.range_succ,List.filter_append,List.filter_cons,List.filter_nil,decide_eq_true_eq]

theorem voters_nodup (n ts : Nat) : (voters layout bsize r blockIdx n ts).Nodup := List.nodup_range.filter _

/-- The voters of a timestamp have pairwise distinct projection ids. -/
theorem voters_ids (n ts : Nat) (stamped : ts ≠ 0) :
    ((voters layout bsize r blockIdx n ts).map (projectionId r blockIdx)).Nodup := by
  apply List.Nodup.map_on _ (voters_nodup n ts)
  intro i first j second same
  obtain ⟨_,holdsI,apartI⟩ := mem_voters.mp first
  obtain ⟨_,holdsJ,apartJ⟩ := mem_voters.mp second
  rcases Nat.lt_trichotomy i j with less | equal | more
  · rcases apartJ with zero | apart
    · exact absurd zero stamped
    · exact absurd same (apart i less holdsI)
  · exact equal
  · rcases apartI with zero | apart
    · exact absurd zero stamped
    · exact absurd same.symm (apart j more holdsJ)

/-- Each projection id that a timestamp holds has its voter. -/
theorem exists_voter {n ts i : Nat} (low : i < n) (holds : Holds layout bsize r blockIdx ts i) :
    ∃ j ∈ voters layout bsize r blockIdx n ts, projectionId r blockIdx j = projectionId r blockIdx i := by
  induction i using Nat.strongRecOn with
  | ind i ih =>
    by_cases first : ∀ j < i, Holds layout bsize r blockIdx ts j → projectionId r blockIdx j ≠ projectionId r blockIdx i
    · exact ⟨i,mem_voters.mpr ⟨low,holds,.inr first⟩,rfl⟩
    · simp only [not_forall,not_not] at first
      obtain ⟨j,less,earlier,same⟩ := first
      obtain ⟨k,member,found⟩ := ih j less (by omega) earlier
      exact ⟨k,member,found.trans same⟩

end Voters

section Scan
variable {layout : Layout} {bsize : BSize} {r : Received} {blockIdx : Nat}

/-- A context as the table registers it. -/
def entry (layout : Layout) (bsize : BSize) (r : Received) (blockIdx i : Nat) : Answer :=
  (i,⟨stamp layout bsize r blockIdx i,0,projectionId r blockIdx i⟩)

/-- The first `n` contexts that reach the table. -/
def stamped (layout : Layout) (bsize : BSize) (r : Received) (blockIdx n : Nat) : List Answer :=
  ((List.range n).filter fun i => Answered r blockIdx i ∧ stamp layout bsize r blockIdx i ≠ 0).map
    (entry layout bsize r blockIdx)

theorem stamped_succ (n : Nat) : stamped layout bsize r blockIdx (n + 1) = stamped layout bsize r blockIdx n ++
    if Answered r blockIdx n ∧ stamp layout bsize r blockIdx n ≠ 0 then [entry layout bsize r blockIdx n] else [] := by
  simp only [stamped,List.range_succ,List.filter_append,List.filter_cons,List.filter_nil,List.map_append,decide_eq_true_eq]
  split <;> rfl

theorem voters_skip {n ts : Nat} (other : ¬Holds layout bsize r blockIdx ts n) :
    voters layout bsize r blockIdx (n + 1) ts = voters layout bsize r blockIdx n ts := by
  have out : n ∉ voters layout bsize r blockIdx (n + 1) ts := fun member => other (mem_voters.mp member).2.1
  rw [voters_succ,if_neg out,List.append_nil]

/-- The entry of a timestamp has gathered its voters. -/
theorem groupOf_stamped (n ts : Nat) (real : ts ≠ 0) :
    (groupOf (ts,0) (stamped layout bsize r blockIdx n)).prjIdxTb = voters layout bsize r blockIdx n ts ∧
    ∀ b, (groupOf (ts,0) (stamped layout bsize r blockIdx n)).prjidBitmap.testBit b = true ↔
      ∃ j < n, Holds layout bsize r blockIdx ts j ∧ projectionId r blockIdx j = b := by
  induction n with
  | zero => exact ⟨rfl,fun b => by simp [groupOf,stamped]⟩
  | succ n ih =>
    obtain ⟨indexes,bits⟩ := ih
    rw [stamped_succ]
    by_cases holds : Holds layout bsize r blockIdx ts n
    · have in_table : Answered r blockIdx n ∧ stamp layout bsize r blockIdx n ≠ 0 := ⟨holds.1,by rw [holds.2]; exact real⟩
      rw [if_pos in_table,groupOf_append]
      have agree : (groupOf (ts,0) (stamped layout bsize r blockIdx n)).agrees (entry layout bsize r blockIdx n).2 = true := by
        rw [agrees_iff,groupOf_key]
        exact Prod.ext holds.2 rfl
      rw [vote_agrees _ (entry layout bsize r blockIdx n) holds.1.2 agree]
      have member : n ∈ voters layout bsize r blockIdx (n + 1) ts ↔
          ¬∃ j < n, Holds layout bsize r blockIdx ts j ∧ projectionId r blockIdx j = projectionId r blockIdx n := by
        rw [mem_voters]
        constructor
        · rintro ⟨_,_,zero | apart⟩ ⟨j,less,earlier,same⟩
          · exact real zero
          · exact apart j less earlier same
        · intro none
          exact ⟨Nat.lt_succ_self n,holds,.inr fun j less earlier same => none ⟨j,less,earlier,same⟩⟩
      have listed : (groupOf (ts,0) (stamped layout bsize r blockIdx n)).listed (entry layout bsize r blockIdx n).2 = true ↔
          ∃ j < n, Holds layout bsize r blockIdx ts j ∧ projectionId r blockIdx j = projectionId r blockIdx n := by
        simp only [TimestampCtx.listed,Bool.and_eq_true,bne_iff_ne]
        exact ⟨fun both => (bits _).mp both.2,fun found => ⟨in_table.2,(bits _).mpr found⟩⟩
      rw [voters_succ]
      by_cases known : ∃ j < n, Holds layout bsize r blockIdx ts j ∧ projectionId r blockIdx j = projectionId r blockIdx n
      · rw [if_pos (listed.mpr known),if_neg fun inside => member.mp inside known,List.append_nil]
        refine ⟨indexes,fun b => ?_⟩
        rw [bits]
        constructor
        · rintro ⟨j,less,found⟩
          exact ⟨j,by omega,found⟩
        · rintro ⟨j,less,found⟩
          rcases Nat.lt_succ_iff_lt_or_eq.mp less with before | rfl
          · exact ⟨j,before,found⟩
          · obtain ⟨j,before,earlier,same⟩ := known
            exact ⟨j,before,earlier,same.trans found.2⟩
      · rw [if_neg (fun hit => known (listed.mp hit)),if_pos (member.mpr known)]
        refine ⟨by simp only [TimestampCtx.add,indexes]; rfl,fun b => ?_⟩
        simp only [TimestampCtx.add,Nat.testBit_or,Bool.or_eq_true,bits,Nat.one_shiftLeft,Nat.testBit_two_pow,
          decide_eq_true_eq]
        constructor
        · rintro (⟨j,less,found⟩ | last)
          · exact ⟨j,by omega,found⟩
          · exact ⟨n,Nat.lt_succ_self n,holds,last⟩
        · rintro ⟨j,less,found⟩
          rcases Nat.lt_succ_iff_lt_or_eq.mp less with before | rfl
          · exact .inl ⟨j,before,found⟩
          · exact .inr found.2
    · have same : groupOf (ts,0) (stamped layout bsize r blockIdx n ++
          if Answered r blockIdx n ∧ stamp layout bsize r blockIdx n ≠ 0 then [entry layout bsize r blockIdx n] else []) =
          groupOf (ts,0) (stamped layout bsize r blockIdx n) := by
        split
        · rename_i in_table
          rw [groupOf_append]
          apply vote_of_ne
          rw [groupOf_key]
          exact fun key => holds ⟨in_table.1,congrArg Prod.fst key⟩
        · rw [List.append_nil]
      rw [same,voters_skip holds]
      refine ⟨indexes,fun b => ?_⟩
      rw [bits]
      constructor
      · rintro ⟨j,less,found⟩
        exact ⟨j,by omega,found⟩
      · rintro ⟨j,less,found⟩
        rcases Nat.lt_succ_iff_lt_or_eq.mp less with before | rfl
        · exact ⟨j,before,found⟩
        · exact absurd found.1 holds

/-- What the loop has gathered after `n` contexts. -/
structure Scanned (layout : Layout) (bsize : BSize) (r : Received) (blockIdx n empty : Nat) (tb : List TimestampCtx) :
    Prop where
  table : TableOf tb (stamped layout bsize r blockIdx n)
  small : ∀ p ∈ tb, p.count < layout.rozofsInverse
  empties : (voters layout bsize r blockIdx n 0).length = empty
  few : empty < layout.rozofsInverse

variable {n empty : Nat} {tb : List TimestampCtx}

theorem Scanned.voters_few (scanned : Scanned layout bsize r blockIdx n empty tb) (ts : Nat) :
    (voters layout bsize r blockIdx n ts).length < layout.rozofsInverse := by
  by_cases zero : ts = 0
  · rw [zero,scanned.empties]
    exact scanned.few
  · rw [← (groupOf_stamped n ts zero).1]
    exact scanned.table.few (Nat.lt_of_lt_of_le (by decide) (two_inverse layout)) scanned.small (ts,0)

/-- A context without the block, or with a CRC error. -/
theorem Scanned.skip (scanned : Scanned layout bsize r blockIdx n empty tb) (out : ¬Answered r blockIdx n) :
    Scanned layout bsize r blockIdx (n + 1) empty tb := by
  constructor
  · rw [stamped_succ,if_neg fun both => out both.1,List.append_nil]
    exact scanned.table
  · exact scanned.small
  · rw [voters_skip fun holds => out holds.1]
    exact scanned.empties
  · exact scanned.few

theorem mem_voters_empty (holds : Holds layout bsize r blockIdx 0 n) : n ∈ voters layout bsize r blockIdx (n + 1) 0 :=
  mem_voters.mpr ⟨Nat.lt_succ_self n,holds,.inl rfl⟩

/-- An empty block, or a damaged one. -/
theorem Scanned.addEmpty (scanned : Scanned layout bsize r blockIdx n empty tb) (holds : Holds layout bsize r blockIdx 0 n)
    (room : empty + 1 ≠ layout.rozofsInverse) : Scanned layout bsize r blockIdx (n + 1) (empty + 1) tb := by
  have few := scanned.few
  constructor
  · rw [stamped_succ,if_neg fun both => both.2 holds.2,List.append_nil]
    exact scanned.table
  · exact scanned.small
  · rw [voters_succ,if_pos (mem_voters_empty holds),List.length_append,scanned.empties]
    rfl
  · omega

/-- A block with a timestamp that does not complete it. -/
theorem Scanned.register (scanned : Scanned layout bsize r blockIdx n empty tb) (answered : Answered r blockIdx n)
    (real : stamp layout bsize r blockIdx n ≠ 0)
    (run : InverseCheck.register layout.rozofsInverse (entry layout bsize r blockIdx n) tb = (next,none)) :
    Scanned layout bsize r blockIdx (n + 1) empty next := by
  have registered := scanned.table.register (entry layout bsize r blockIdx n) answered.2 (two_inverse layout) scanned.small
  rw [run] at registered
  constructor
  · rw [stamped_succ,if_pos ⟨answered,real⟩]
    exact registered.1
  · exact registered.2
  · rw [voters_skip fun holds => real holds.2]
    exact scanned.empties
  · exact scanned.few

/-- A block with a timestamp that completes it. -/
theorem Scanned.winner (scanned : Scanned layout bsize r blockIdx n empty tb) (answered : Answered r blockIdx n)
    (real : stamp layout bsize r blockIdx n ≠ 0) (low : n < layout.rozofsSafe)
    (run : InverseCheck.register layout.rozofsInverse (entry layout bsize r blockIdx n) tb = (next,some p)) :
    p.timestamp = stamp layout bsize r blockIdx n ∧
    p.prjIdxTb = voters layout bsize r blockIdx (n + 1) (stamp layout bsize r blockIdx n) ∧
    Completes layout bsize r blockIdx n (stamp layout bsize r blockIdx n) := by
  have registered := scanned.table.register (entry layout bsize r blockIdx n) answered.2 (two_inverse layout) scanned.small
  rw [run] at registered
  obtain ⟨_,group,full⟩ := registered
  have indexes : p.prjIdxTb = voters layout bsize r blockIdx (n + 1) (stamp layout bsize r blockIdx n) := by
    rw [← (groupOf_stamped (n + 1) _ real).1,stamped_succ,if_pos ⟨answered,real⟩,group]
    rfl
  have length : (voters layout bsize r blockIdx (n + 1) (stamp layout bsize r blockIdx n)).length = layout.rozofsInverse := by
    rw [← indexes]
    exact full
  refine ⟨?_,indexes,low,?_,length,scanned.voters_few⟩
  · rw [group]
    exact groupOf_timestamp _ _
  · by_contra absent
    rw [voters_succ,if_neg absent,List.append_nil] at length
    exact absurd length (Nat.ne_of_lt (scanned.voters_few _))

/-- What the rebuild reports when a context completes a timestamp. -/
def completed (layout : Layout) (bsize : BSize) (r : Received) (blockIdx n ts : Nat) : Selected :=
  ⟨ts,effectiveLength r blockIdx n,if ts = 0 then [] else voters layout bsize r blockIdx (n + 1) ts⟩

/-- From any context on, the loop ends at the first timestamp that is complete. -/
theorem scan_spec (left n empty : Nat) (tb : List TimestampCtx) (all : n + left = layout.rozofsSafe)
    (scanned : Scanned layout bsize r blockIdx n empty tb) :
    (∃ m ts, Completes layout bsize r blockIdx m ts ∧
      scan layout bsize r blockIdx (List.range' n left) empty tb = some (completed layout bsize r blockIdx m ts)) ∨
    (scan layout bsize r blockIdx (List.range' n left) empty tb = none ∧
      ∀ ts, (voters layout bsize r blockIdx layout.rozofsSafe ts).length < layout.rozofsInverse) := by
  induction left generalizing n empty tb with
  | zero =>
    rw [← all]
    exact .inr ⟨rfl,scanned.voters_few⟩
  | succ left ih =>
    have low : n < layout.rozofsSafe := by omega
    rw [List.range'_succ,scan]
    by_cases done : r.prjState n = .done
    · rw [if_neg (not_not.mpr done)]
      by_cases short : blockIdx + 1 > r.returned n
      · rw [if_pos short]
        exact ih (n + 1) empty tb (by omega) (scanned.skip fun answered => absurd answered.1.2 (by omega))
      · rw [if_neg short]
        simp only [checkHeader_projectionId,checkHeader_effectiveLength]
        by_cases error : (r.bins n blockIdx).hdr.projectionId = 0xff
        · rw [if_pos error]
          exact ih (n + 1) empty tb (by omega) (scanned.skip fun answered => answered.2 error)
        · rw [if_neg error]
          have answered : Answered r blockIdx n := ⟨⟨done,by omega⟩,error⟩
          by_cases zero : (checkHeader layout bsize (r.bins n blockIdx)).timestamp = 0
          · have holds : Holds layout bsize r blockIdx 0 n := ⟨answered,zero⟩
            rw [if_pos zero]
            by_cases full : empty + 1 = layout.rozofsInverse
            · rw [if_pos full]
              refine .inl ⟨n,0,⟨low,mem_voters_empty holds,?_,scanned.voters_few⟩,rfl⟩
              rw [voters_succ,if_pos (mem_voters_empty holds),List.length_append,scanned.empties]
              exact full
            · rw [if_neg full]
              exact ih (n + 1) (empty + 1) tb (by omega) (scanned.addEmpty holds full)
          · rw [if_neg zero]
            have same : (n,(⟨(checkHeader layout bsize (r.bins n blockIdx)).timestamp,0,(r.bins n blockIdx).hdr.projectionId⟩ : BinsHdr)) =
                entry layout bsize r blockIdx n := rfl
            rw [same]
            cases run : InverseCheck.register layout.rozofsInverse (entry layout bsize r blockIdx n) tb with
            | mk next found =>
              cases found with
              | none => exact ih (n + 1) empty next (by omega) (scanned.register answered zero run)
              | some p =>
                obtain ⟨timestamp,indexes,completes⟩ := scanned.winner answered zero low run
                refine .inl ⟨n,stamp layout bsize r blockIdx n,completes,?_⟩
                have real : stamp layout bsize r blockIdx n ≠ 0 := zero
                simp only [completed,timestamp,indexes,effectiveLength,real,if_false]
    · rw [if_pos done]
      exact ih (n + 1) empty tb (by omega) (scanned.skip fun answered => done answered.1.1)

/-- The rebuild takes the first timestamp that is complete. -/
theorem checkTimestampTb_spec (layout : Layout) (bsize : BSize) (r : Received) (blockIdx : Nat) :
    (∃ n ts, Completes layout bsize r blockIdx n ts ∧
      checkTimestampTb layout bsize r blockIdx = some (completed layout bsize r blockIdx n ts)) ∨
    (checkTimestampTb layout bsize r blockIdx = none ∧
      ∀ ts, (voters layout bsize r blockIdx layout.rozofsSafe ts).length < layout.rozofsInverse) := by
  have start : Scanned layout bsize r blockIdx 0 0 [] :=
    ⟨⟨by simp,by simp,by simp [stamped],List.Pairwise.nil⟩,by simp,rfl,
      Nat.lt_of_lt_of_le (by decide) (two_inverse layout)⟩
  rw [checkTimestampTb,List.range_eq_range']
  exact scan_spec layout.rozofsSafe 0 0 [] (Nat.zero_add _) start

/-- A timestamp that is complete stays so. -/
theorem Completes.full {m n ts : Nat} (completes : Completes layout bsize r blockIdx m ts) (later : m < n) :
    layout.rozofsInverse ≤ (voters layout bsize r blockIdx n ts).length := by
  have sub : (voters layout bsize r blockIdx (m + 1) ts).Sublist (voters layout bsize r blockIdx n ts) :=
    (List.range_sublist.mpr later).filter _
  rw [← completes.2.2.1]
  exact sub.length_le

theorem Completes.unique {m n ts other : Nat} (first : Completes layout bsize r blockIdx m ts)
    (second : Completes layout bsize r blockIdx n other) : m = n ∧ ts = other := by
  have index : m = n := by
    rcases Nat.lt_trichotomy m n with less | equal | more
    · exact absurd (first.full less) (Nat.not_le.mpr (second.2.2.2 ts))
    · exact equal
    · exact absurd (second.full more) (Nat.not_le.mpr (first.2.2.2 other))
  subst index
  exact ⟨rfl,(mem_voters.mp first.2.1).2.1.2.symm.trans (mem_voters.mp second.2.1).2.1.2⟩

/-- The result of the rebuild, by the context that completes a timestamp. -/
theorem checkTimestampTb_eq_some {res : Selected} : checkTimestampTb layout bsize r blockIdx = some res ↔
    ∃ n ts, Completes layout bsize r blockIdx n ts ∧ res = completed layout bsize r blockIdx n ts := by
  rcases checkTimestampTb_spec layout bsize r blockIdx with ⟨n,ts,completes,found⟩ | ⟨none,few⟩
  · rw [found,Option.some.injEq]
    constructor
    · intro same
      exact ⟨n,ts,completes,same.symm⟩
    · rintro ⟨m,other,again,rfl⟩
      obtain ⟨rfl,rfl⟩ := completes.unique again
      rfl
  · rw [none]
    constructor
    · intro impossible
      cases impossible
    · rintro ⟨n,ts,completes,_⟩
      exact absurd (completes.full completes.1) (Nat.not_le.mpr (few ts))

end Scan

end Rozofs.RebuildCheck
