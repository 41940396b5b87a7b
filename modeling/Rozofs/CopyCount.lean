import Rozofs.RebuildAgreement
import Mathlib.Data.Finset.Card

/-! The copies of a block that a rebuild can use, `rbs_count_timestamp_tb`: the contexts are grouped by timestamp, and
the last group that has enough of them is kept. -/
namespace Rozofs.CopyCount
open InverseCheck RebuildCheck
open Function (update)

/-- `ROZOFS_SAFE_MAX`, the size of `rbs_timestamp_tb`. -/
def rozofsSafeMax : Nat := 36

/-- The local variables of `rbs_count_timestamp_tb`, the table, and what it writes for its caller. The entries of the
table from `nextFree` on are those of the calls before, and from `rozofsSafeMax` on what is in memory after the table;
an entry has no length. -/
structure Counting where
  tb : Nat → TimestampCtx
  nextFree : Nat
  andTheWinnerIs : BitVec 8
  timestamp : Nat
  effectiveLength : Option Nat

/-- The first entry of a timestamp where the projection id is not listed yet. -/
def findEntry (h : BinsHdr) (st : Counting) : Option Nat :=
  (List.range st.nextFree).find? fun e => (st.tb e).timestamp == h.timestamp && !(st.tb e).listed h

/-- A new entry for a timestamp. -/
def create (a : Answer) (st : Counting) : Counting :=
  { st with tb := update st.tb st.nextFree (.start a), nextFree := st.nextFree + 1 }

/-- A context is added to an entry. -/
def taken (e : Nat) (a : Answer) (st : Counting) : Counting := { st with tb := update st.tb e ((st.tb e).add a) }

@[simp] theorem taken_self (e : Nat) (a : Answer) (st : Counting) : (taken e a st).tb e = (st.tb e).add a :=
  Function.update_self _ _ _

theorem taken_other {e e' : Nat} (differ : e' ≠ e) (a : Answer) (st : Counting) : (taken e a st).tb e' = st.tb e' :=
  Function.update_of_ne differ _ _

@[simp] theorem taken_timestamp (e e' : Nat) (a : Answer) (st : Counting) : ((taken e a st).tb e').timestamp = (st.tb e').timestamp := by
  by_cases own : e' = e
  · rw [own,taken_self]
    rfl
  · rw [taken_other own]

/-- The entry with one more context wins when it has enough of them. -/
def addTo (inverse e : Nat) (a : Answer) (effectiveLength : Nat) (st : Counting) : Counting :=
  let st := taken e a st
  if inverse ≤ (st.tb e).count then
    { st with andTheWinnerIs := BitVec.ofNat 8 e, timestamp := (st.tb e).timestamp, effectiveLength := some effectiveLength }
  else st

/-- One turn of the loop over the projection contexts. -/
def countCtx (layout : Layout) (bsize : BSize) (r : Received) (spareIdx : Int) (blockIdx : Nat) (st : Counting) (i : Nat) : Counting :=
  if spareIdx = i then st
  else if r.prjState i ≠ .done then st
  else
    let hdr := checkHeader layout bsize (r.bins i blockIdx)
    if hdr.projectionId = 0xff then st
    else
      let a := (i,{ hdr with effectiveLength := 0 })
      if st.nextFree = 0 then create a st
      else
        match findEntry hdr st with
        | some e => addTo layout.rozofsInverse e a hdr.effectiveLength st
        | none => create a st

/-- The loop of `rbs_count_timestamp_tb`, with `tb` in the table before; the winner is -1 in 8 bits. -/
def count (layout : Layout) (bsize : BSize) (r : Received) (spareIdx : Int) (blockIdx : Nat) (tb : Nat → TimestampCtx) : Counting :=
  (List.range layout.rozofsSafe).foldl (countCtx layout bsize r spareIdx blockIdx) ⟨tb,0,-1,0,none⟩

/-- What is returned: the number of contexts and their indexes, or `none` for -1. -/
def Counting.result (st : Counting) : Option (Nat × List Nat) :=
  if (st.andTheWinnerIs.toNat : Int) ≠ -1 then
    some ((st.tb st.andTheWinnerIs.toNat).count,(st.tb st.andTheWinnerIs.toNat).prjIdxTb)
  else none

section Copies
variable (layout : Layout) (bsize : BSize) (r : Received) (spareIdx : Int) (blockIdx : Nat)

/-- A context that was read, is not the spare and has no CRC error. -/
def Readable (i : Nat) : Prop := spareIdx ≠ i ∧ r.prjState i = .done ∧ projectionId r blockIdx i ≠ 0xff

instance (i : Nat) : Decidable (Readable r spareIdx blockIdx i) := inferInstanceAs (Decidable (_ ∧ _ ∧ _))

/-- The first `n` contexts that share a timestamp, 0 for a damaged block. -/
def sharing (n ts : Nat) : List Nat :=
  (List.range n).filter fun i => Readable r spareIdx blockIdx i ∧ stamp layout bsize r blockIdx i = ts

/-- The projection ids of these contexts. -/
def ids (n ts : Nat) : Finset Nat := ((sharing layout bsize r spareIdx blockIdx n ts).map (projectionId r blockIdx)).toFinset

/-- The copies of a timestamp: one for each projection id, and for blocks that are empty all of them. -/
def copies (ts : Nat) : Nat :=
  if ts = 0 then (sharing layout bsize r spareIdx blockIdx layout.rozofsSafe 0).length
  else (ids layout bsize r spareIdx blockIdx layout.rozofsSafe ts).card

end Copies

section Tally
variable {layout : Layout} {bsize : BSize} {r : Received} {spareIdx : Int} {blockIdx n : Nat} {st : Counting}

theorem mem_sharing {ts i : Nat} : i ∈ sharing layout bsize r spareIdx blockIdx n ts ↔
    i < n ∧ Readable r spareIdx blockIdx i ∧ stamp layout bsize r blockIdx i = ts := by
  simp only [sharing,List.mem_filter,List.mem_range,decide_eq_true_eq]

theorem mem_ids {ts b : Nat} : b ∈ ids layout bsize r spareIdx blockIdx n ts ↔
    ∃ i, (i < n ∧ Readable r spareIdx blockIdx i ∧ stamp layout bsize r blockIdx i = ts) ∧ projectionId r blockIdx i = b := by
  simp only [ids,List.mem_toFinset,List.mem_map,mem_sharing]

/-- An entry of the table after the first `n` contexts. -/
structure Entry (layout : Layout) (bsize : BSize) (r : Received) (spareIdx : Int) (blockIdx n : Nat) (p : TimestampCtx) : Prop where
  nodup : p.prjIdxTb.Nodup
  filled : p.prjIdxTb ≠ []
  sharing : ∀ i ∈ p.prjIdxTb, i ∈ sharing layout bsize r spareIdx blockIdx n p.timestamp
  distinct : p.timestamp ≠ 0 → (p.prjIdxTb.map (projectionId r blockIdx)).Nodup
  bitmap : ∀ b, p.prjidBitmap.testBit b = true ↔ b ∈ p.prjIdxTb.map (projectionId r blockIdx)

/-- The first entry of a timestamp has all its projection ids, and for the timestamp 0 all its contexts. -/
structure First (r : Received) (blockIdx : Nat) (st : Counting) (ts i e : Nat) : Prop where
  low : e < st.nextFree
  same : (st.tb e).timestamp = ts
  first : ∀ e' < e, (st.tb e').timestamp ≠ ts
  id : projectionId r blockIdx i ∈ (st.tb e).prjIdxTb.map (projectionId r blockIdx)
  member : ts = 0 → i ∈ (st.tb e).prjIdxTb

/-- The entry that wins has enough contexts, and no other one that has enough of them got a later one; as long as
there is none, no entry has. -/
def Won (inverse : Nat) (st : Counting) : Prop :=
  (st.andTheWinnerIs = -1 ∧ ∀ e < st.nextFree, (st.tb e).count < inverse) ∨
  (st.andTheWinnerIs.toNat < st.nextFree ∧ inverse ≤ (st.tb st.andTheWinnerIs.toNat).count ∧
    st.timestamp = (st.tb st.andTheWinnerIs.toNat).timestamp ∧
    ∀ e < st.nextFree, inverse ≤ (st.tb e).count → ∀ i ∈ (st.tb e).prjIdxTb, ∃ j ∈ (st.tb st.andTheWinnerIs.toNat).prjIdxTb, i ≤ j)

/-- The table after the first `n` contexts. -/
structure Tally (layout : Layout) (bsize : BSize) (r : Received) (spareIdx : Int) (blockIdx n : Nat) (st : Counting) : Prop where
  used : st.nextFree ≤ n
  entry : ∀ e < st.nextFree, Entry layout bsize r spareIdx blockIdx n (st.tb e)
  apart : ∀ e < st.nextFree, ∀ e' < st.nextFree, e ≠ e' → ∀ i ∈ (st.tb e).prjIdxTb, i ∉ (st.tb e').prjIdxTb
  full : ∀ i < n, Readable r spareIdx blockIdx i → ∃ e, First r blockIdx st (stamp layout bsize r blockIdx i) i e
  won : Won layout.rozofsInverse st

theorem sharing_mono {m ts i : Nat} (le : n ≤ m) (member : i ∈ sharing layout bsize r spareIdx blockIdx n ts) :
    i ∈ sharing layout bsize r spareIdx blockIdx m ts := by
  obtain ⟨low,sharing⟩ := mem_sharing.mp member
  exact mem_sharing.mpr ⟨Nat.lt_of_lt_of_le low le,sharing⟩

theorem Entry.mono {p : TimestampCtx} (known : Entry layout bsize r spareIdx blockIdx n p) :
    Entry layout bsize r spareIdx blockIdx (n + 1) p :=
  { known with sharing := fun i member => sharing_mono (Nat.le_succ n) (known.sharing i member) }

theorem Entry.start (readable : Readable r spareIdx blockIdx n) :
    Entry layout bsize r spareIdx blockIdx (n + 1) (.start (entry layout bsize r blockIdx n)) where
  nodup := List.nodup_singleton n
  filled := List.cons_ne_nil n []
  sharing i member := by
    rw [List.mem_singleton.mp member]
    exact mem_sharing.mpr ⟨Nat.lt_succ_self n,readable,rfl⟩
  distinct _ := List.nodup_singleton _
  bitmap b := by
    simp only [TimestampCtx.start,entry,Nat.one_shiftLeft,Nat.testBit_two_pow,decide_eq_true_eq,List.map_cons,List.map_nil,
      List.mem_singleton]
    exact eq_comm

/-- A context of the same timestamp, with a projection id that is not listed. -/
theorem Entry.add {p : TimestampCtx} (known : Entry layout bsize r spareIdx blockIdx n p) (readable : Readable r spareIdx blockIdx n)
    (same : p.timestamp = stamp layout bsize r blockIdx n) (new : p.listed (entry layout bsize r blockIdx n).2 = false) :
    Entry layout bsize r spareIdx blockIdx (n + 1) (p.add (entry layout bsize r blockIdx n)) where
  nodup := by
    have fresh : n ∉ p.prjIdxTb := fun member => Nat.lt_irrefl n (mem_sharing.mp (known.sharing n member)).1
    simp only [TimestampCtx.add,entry]
    rw [← List.concat_eq_append]
    exact List.Nodup.concat fresh known.nodup
  filled := by
    simp only [TimestampCtx.add]
    exact List.append_ne_nil_of_right_ne_nil _ (List.cons_ne_nil _ _)
  sharing i member := by
    simp only [TimestampCtx.add,entry,List.mem_append,List.mem_singleton] at member
    cases member with
    | inl before => exact sharing_mono (Nat.le_succ n) (known.sharing i before)
    | inr last =>
      rw [last]
      exact mem_sharing.mpr ⟨Nat.lt_succ_self n,readable,same.symm⟩
  distinct real := by
    have real : p.timestamp ≠ 0 := real
    have out : projectionId r blockIdx n ∉ p.prjIdxTb.map (projectionId r blockIdx) := by
      intro inside
      rw [TimestampCtx.listed,Bool.and_eq_false_iff,bne_eq_false_iff_eq] at new
      cases new with
      | inl zero => exact real (same.trans zero)
      | inr bit => exact Bool.false_ne_true (bit.symm.trans ((known.bitmap _).mpr inside))
    simp only [TimestampCtx.add,entry,List.map_append,List.map_cons,List.map_nil]
    rw [← List.concat_eq_append]
    exact List.Nodup.concat out (known.distinct real)
  bitmap b := by
    simp only [TimestampCtx.add,entry,Nat.testBit_or,Bool.or_eq_true,known.bitmap,Nat.one_shiftLeft,Nat.testBit_two_pow,
      decide_eq_true_eq,List.map_append,List.map_cons,List.map_nil,List.mem_append,List.mem_singleton]
    exact or_congr_right eq_comm

theorem exists_first {ts e : Nat} (low : e < st.nextFree) (same : (st.tb e).timestamp = ts) :
    ∃ e < st.nextFree, (st.tb e).timestamp = ts ∧ ∀ e' < e, (st.tb e').timestamp ≠ ts := by
  have found : ∃ e, (st.tb e).timestamp = ts := ⟨e,same⟩
  exact ⟨Nat.find found,Nat.lt_of_le_of_lt (Nat.find_min' found same) low,Nat.find_spec found,fun e' before => Nat.find_min found before⟩

/-- What it is for an entry to be passed by. -/
theorem listed_of_passed {p : TimestampCtx} {h : BinsHdr} (same : p.timestamp = h.timestamp)
    (passed : (p.timestamp == h.timestamp && !p.listed h) = false) : p.listed h = true := by
  rw [same,beq_self_eq_true,Bool.true_and] at passed
  simpa using passed

/-- An entry that lists the id of a context has a real timestamp. -/
theorem Entry.listed {p : TimestampCtx} (known : Entry layout bsize r spareIdx blockIdx n p)
    (listed : p.listed (entry layout bsize r blockIdx n).2 = true) : stamp layout bsize r blockIdx n ≠ 0 ∧
      projectionId r blockIdx n ∈ p.prjIdxTb.map (projectionId r blockIdx) := by
  rw [TimestampCtx.listed,Bool.and_eq_true,bne_iff_ne] at listed
  exact ⟨listed.1,(known.bitmap _).mp listed.2⟩

/-- A context that is passed by. -/
theorem Tally.skip (tally : Tally layout bsize r spareIdx blockIdx n st) (out : ¬Readable r spareIdx blockIdx n) :
    Tally layout bsize r spareIdx blockIdx (n + 1) st where
  used := Nat.le_succ_of_le tally.used
  entry e low := (tally.entry e low).mono
  apart := tally.apart
  full i low readable := by
    obtain before | rfl := Nat.lt_succ_iff_lt_or_eq.mp low
    · exact tally.full i before readable
    · exact absurd readable out
  won := tally.won

/-- A context that no entry can take. -/
theorem Tally.create (tally : Tally layout bsize r spareIdx blockIdx n st) (readable : Readable r spareIdx blockIdx n)
    (passed : ∀ e < st.nextFree, (st.tb e).timestamp = stamp layout bsize r blockIdx n →
      (st.tb e).listed (RebuildCheck.entry layout bsize r blockIdx n).2 = true) :
    Tally layout bsize r spareIdx blockIdx (n + 1) (create (RebuildCheck.entry layout bsize r blockIdx n) st) := by
  have old : ∀ e < st.nextFree, (CopyCount.create (RebuildCheck.entry layout bsize r blockIdx n) st).tb e = st.tb e :=
    fun e low => Function.update_of_ne (Nat.ne_of_lt low) _ _
  have new : (CopyCount.create (RebuildCheck.entry layout bsize r blockIdx n) st).tb st.nextFree =
    .start (RebuildCheck.entry layout bsize r blockIdx n) := Function.update_self _ _ _
  have fresh : ∀ e < st.nextFree, n ∉ (st.tb e).prjIdxTb :=
    fun e low member => Nat.lt_irrefl n (mem_sharing.mp ((tally.entry e low).sharing n member)).1
  constructor
  case used => exact Nat.succ_le_succ tally.used
  case entry =>
    intro e low
    obtain before | rfl := Nat.lt_succ_iff_lt_or_eq.mp low
    · rw [old e before]
      exact (tally.entry e before).mono
    · rw [new]
      exact .start readable
  case apart =>
    intro e low e' low' differ i member
    obtain before | rfl := Nat.lt_succ_iff_lt_or_eq.mp low
    · rw [old e before] at member
      obtain before' | rfl := Nat.lt_succ_iff_lt_or_eq.mp low'
      · rw [old e' before']
        exact tally.apart e before e' before' differ i member
      · rw [new]
        intro last
        rw [List.mem_singleton.mp last] at member
        exact fresh e before member
    · obtain before' | rfl := Nat.lt_succ_iff_lt_or_eq.mp low'
      · rw [new] at member
        rw [List.mem_singleton.mp member,old e' before']
        exact fresh e' before'
      · exact absurd rfl differ
  case full =>
    -- the first entry of a timestamp is that of the table before, when there is one
    have keep : ∀ i e, First r blockIdx st (stamp layout bsize r blockIdx i) i e →
        First r blockIdx (CopyCount.create (RebuildCheck.entry layout bsize r blockIdx n) st) (stamp layout bsize r blockIdx i) i e := by
      intro i e first
      constructor
      case low => exact Nat.lt_succ_of_lt first.low
      case same =>
        rw [old e first.low]
        exact first.same
      case first =>
        intro e' before
        rw [old e' (Nat.lt_trans before first.low)]
        exact first.first e' before
      case id =>
        rw [old e first.low]
        exact first.id
      case member =>
        rw [old e first.low]
        exact first.member
    intro i low holds
    obtain before | rfl := Nat.lt_succ_iff_lt_or_eq.mp low
    · obtain ⟨e,first⟩ := tally.full i before holds
      exact ⟨e,keep i e first⟩
    · by_cases known : ∃ e < st.nextFree, (st.tb e).timestamp = stamp layout bsize r blockIdx i
      · obtain ⟨e,low,same⟩ := known
        obtain ⟨e,low,same,first⟩ := exists_first low same
        obtain ⟨real,id⟩ := (tally.entry e low).listed (passed e low same)
        exact ⟨e,keep i e ⟨low,same,first,id,fun zero => absurd zero real⟩⟩
      · refine ⟨st.nextFree,Nat.lt_succ_self _,?_,?_,?_,?_⟩
        · rw [new]
          rfl
        · intro e before
          rw [old e before]
          exact fun same => known ⟨e,before,same⟩
        · rw [new]
          exact List.mem_singleton.mpr rfl
        · intro _
          rw [new]
          exact List.mem_singleton.mpr rfl
  case won =>
    cases tally.won with
    | inl none =>
      refine .inl ⟨none.1,fun e low => ?_⟩
      obtain before | rfl := Nat.lt_succ_iff_lt_or_eq.mp low
      · rw [old e before]
        exact none.2 e before
      · rw [new]
        exact two_inverse layout
    | inr won =>
      obtain ⟨low,many,same,latest⟩ := won
      refine .inr ⟨Nat.lt_succ_of_lt low,?_⟩
      rw [show (CopyCount.create (RebuildCheck.entry layout bsize r blockIdx n) st).andTheWinnerIs = st.andTheWinnerIs from rfl,old _ low]
      refine ⟨many,same,fun e inside enough i member => ?_⟩
      obtain before | rfl := Nat.lt_succ_iff_lt_or_eq.mp inside
      · rw [old e before] at enough member
        exact latest e before enough i member
      · rw [new] at enough
        exact absurd enough (Nat.not_le.mpr (two_inverse layout))

/-- A context that an entry takes, the first one that can. -/
theorem Tally.taken (tally : Tally layout bsize r spareIdx blockIdx n st) (st' : Counting) (readable : Readable r spareIdx blockIdx n) {e : Nat}
    (low : e < st.nextFree) (same : (st.tb e).timestamp = stamp layout bsize r blockIdx n)
    (new : (st.tb e).listed (RebuildCheck.entry layout bsize r blockIdx n).2 = false)
    (passed : ∀ e' < e, (st.tb e').timestamp = stamp layout bsize r blockIdx n →
      (st.tb e').listed (RebuildCheck.entry layout bsize r blockIdx n).2 = true)
    (next : st'.tb = (taken e (RebuildCheck.entry layout bsize r blockIdx n) st).tb)
    (free : st'.nextFree = st.nextFree) (won : Won layout.rozofsInverse st') : Tally layout bsize r spareIdx blockIdx (n + 1) st' := by
  have here : st'.tb e = (st.tb e).add (RebuildCheck.entry layout bsize r blockIdx n) := by
    rw [next,taken_self]
  have other : ∀ e', e' ≠ e → st'.tb e' = st.tb e' := by
    intro e' differ
    rw [next,taken_other differ]
  have timestamps : ∀ e', (st'.tb e').timestamp = (st.tb e').timestamp := by
    intro e'
    rw [next,taken_timestamp]
  have kept : ∀ e', ∀ i ∈ (st.tb e').prjIdxTb, i ∈ (st'.tb e').prjIdxTb := by
    intro e' i member
    by_cases own : e' = e
    · rw [own] at member ⊢
      rw [here]
      exact List.mem_append_left _ member
    · rwa [other e' own]
  have last : ∀ e', ∀ i ∈ (st'.tb e').prjIdxTb, i ∈ (st.tb e').prjIdxTb ∨ (e' = e ∧ i = n) := by
    intro e' i member
    by_cases own : e' = e
    · rw [own,here] at member
      rw [own]
      exact (List.mem_append.mp member).imp_right fun single => ⟨rfl,List.mem_singleton.mp single⟩
    · rw [other e' own] at member
      exact .inl member
  have fresh : ∀ e < st.nextFree, n ∉ (st.tb e).prjIdxTb :=
    fun e low member => Nat.lt_irrefl n (mem_sharing.mp ((tally.entry e low).sharing n member)).1
  constructor
  case used =>
    rw [free]
    exact Nat.le_succ_of_le tally.used
  case entry =>
    intro e' inside
    rw [free] at inside
    by_cases own : e' = e
    · rw [own,here]
      exact (tally.entry e low).add readable same new
    · rw [other e' own]
      exact (tally.entry e' inside).mono
  case apart =>
    intro e₁ low₁ e₂ low₂ differ i member member'
    rw [free] at low₁ low₂
    cases last e₁ i member with
    | inl before =>
      cases last e₂ i member' with
      | inl before' => exact tally.apart e₁ low₁ e₂ low₂ differ i before before'
      | inr own =>
        rw [own.2] at before
        exact fresh e₁ low₁ before
    | inr own =>
      cases last e₂ i member' with
      | inl before' =>
        rw [own.2] at before'
        exact fresh e₂ low₂ before'
      | inr own' => exact differ (own.1.trans own'.1.symm)
  case full =>
    have keep : ∀ i e', First r blockIdx st (stamp layout bsize r blockIdx i) i e' →
        First r blockIdx st' (stamp layout bsize r blockIdx i) i e' := by
      intro i e' first
      constructor
      case low =>
        rw [free]
        exact first.low
      case same =>
        rw [timestamps]
        exact first.same
      case first =>
        intro e'' before
        rw [timestamps]
        exact first.first e'' before
      case id =>
        obtain ⟨j,member,id⟩ := List.mem_map.mp first.id
        exact List.mem_map.mpr ⟨j,kept e' j member,id⟩
      case member => exact fun zero => kept e' i (first.member zero)
    intro i inside holds
    obtain before | rfl := Nat.lt_succ_iff_lt_or_eq.mp inside
    · obtain ⟨e',first⟩ := tally.full i before holds
      exact ⟨e',keep i e' first⟩
    · by_cases earlier : ∃ e' < e, (st.tb e').timestamp = stamp layout bsize r blockIdx i
      · obtain ⟨e',before,same'⟩ := earlier
        obtain ⟨e₁,low₁,same₁,first⟩ := exists_first (Nat.lt_trans before low) same'
        have sooner : e₁ < e := by
          by_contra later
          exact first e' (by omega) same'
        obtain ⟨real,id⟩ := (tally.entry e₁ low₁).listed (passed e₁ sooner same₁)
        exact ⟨e₁,keep i e₁ ⟨low₁,same₁,first,id,fun zero => absurd zero real⟩⟩
      · have member : i ∈ (st'.tb e).prjIdxTb := by
          rw [here]
          exact List.mem_append_right _ (List.mem_singleton.mpr rfl)
        refine ⟨e,?_,?_,?_,List.mem_map.mpr ⟨i,member,rfl⟩,fun _ => member⟩
        · rwa [free]
        · rwa [timestamps]
        · intro e' before
          rw [timestamps]
          exact fun same' => earlier ⟨e',before,same'⟩
  case won => exact won

theorem Tally.addTo (tally : Tally layout bsize r spareIdx blockIdx n st) (readable : Readable r spareIdx blockIdx n) {e : Nat}
    (length : Nat) (byte : n < 256) (low : e < st.nextFree) (same : (st.tb e).timestamp = stamp layout bsize r blockIdx n)
    (new : (st.tb e).listed (RebuildCheck.entry layout bsize r blockIdx n).2 = false)
    (passed : ∀ e' < e, (st.tb e').timestamp = stamp layout bsize r blockIdx n →
      (st.tb e').listed (RebuildCheck.entry layout bsize r blockIdx n).2 = true) :
    Tally layout bsize r spareIdx blockIdx (n + 1) (addTo layout.rozofsInverse e (RebuildCheck.entry layout bsize r blockIdx n) length st) := by
  rw [CopyCount.addTo]
  by_cases enough : layout.rozofsInverse ≤ ((CopyCount.taken e (RebuildCheck.entry layout bsize r blockIdx n) st).tb e).count
  · simp only [if_pos enough]
    refine tally.taken _ readable low same new passed rfl rfl ?_
    have index : (BitVec.ofNat 8 e).toNat = e := by
      have used := tally.used
      rw [BitVec.toNat_ofNat]
      exact Nat.mod_eq_of_lt (by omega)
    apply Or.inr
    simp only [index]
    refine ⟨low,enough,trivial,fun e' inside _ i member => ⟨n,?_,?_⟩⟩
    · rw [taken_self]
      exact List.mem_append_right _ (List.mem_singleton.mpr rfl)
    · by_cases own : e' = e
      · rw [own,taken_self] at member
        cases List.mem_append.mp member with
        | inl before => exact Nat.le_of_lt (mem_sharing.mp ((tally.entry e low).sharing i before)).1
        | inr last => exact Nat.le_of_eq (List.mem_singleton.mp last)
      · rw [taken_other own] at member
        exact Nat.le_of_lt (mem_sharing.mp ((tally.entry e' inside).sharing i member)).1
  · simp only [if_neg enough]
    apply tally.taken _ readable low same new passed rfl rfl
    cases tally.won with
    | inl none =>
      refine .inl ⟨none.1,fun e' inside => ?_⟩
      by_cases own : e' = e
      · rw [own]
        exact Nat.lt_of_not_le enough
      · rw [taken_other own]
        exact none.2 e' inside
    | inr won =>
      -- the entry that has won is another one
      have own : st.andTheWinnerIs.toNat ≠ e := by
        intro own
        rw [taken_self] at enough
        have many := won.2.1
        rw [own] at many
        exact enough (Nat.le_trans many (by simp [TimestampCtx.count,TimestampCtx.add]))
      obtain ⟨inside,many,same,latest⟩ := won
      apply Or.inr
      rw [show (CopyCount.taken e (RebuildCheck.entry layout bsize r blockIdx n) st).andTheWinnerIs = st.andTheWinnerIs from rfl,taken_other own]
      refine ⟨inside,many,same,fun e' inside' many' i member => ?_⟩
      by_cases same' : e' = e
      · rw [same'] at many'
        exact absurd many' enough
      · rw [taken_other same'] at many' member
        exact latest e' inside' many' i member

/-- The length of a block is not looked at. -/
theorem listed_entry (p : TimestampCtx) : p.listed (checkHeader layout bsize (r.bins n blockIdx)) =
    p.listed (RebuildCheck.entry layout bsize r blockIdx n).2 := by
  simp only [TimestampCtx.listed,RebuildCheck.entry,stamp,RebuildCheck.projectionId,checkHeader_projectionId]

/-- One turn of the loop. -/
theorem Tally.countCtx (tally : Tally layout bsize r spareIdx blockIdx n st) (byte : n < 256) :
    Tally layout bsize r spareIdx blockIdx (n + 1) (countCtx layout bsize r spareIdx blockIdx st n) := by
  rw [CopyCount.countCtx]
  by_cases spare : spareIdx = n
  · rw [if_pos spare]
    exact tally.skip fun readable => readable.1 spare
  rw [if_neg spare]
  by_cases unread : r.prjState n ≠ .done
  · rw [if_pos unread]
    exact tally.skip fun readable => unread readable.2.1
  rw [if_neg unread]
  by_cases crc : (checkHeader layout bsize (r.bins n blockIdx)).projectionId = 0xff
  · simp only [if_pos crc]
    rw [checkHeader_projectionId] at crc
    exact tally.skip fun readable => readable.2.2 crc
  simp only [if_neg crc]
  rw [checkHeader_projectionId] at crc
  have readable : Readable r spareIdx blockIdx n := ⟨spare,not_not.mp unread,crc⟩
  have context : (n,{ checkHeader layout bsize (r.bins n blockIdx) with effectiveLength := 0 }) = RebuildCheck.entry layout bsize r blockIdx n := by
    simp only [RebuildCheck.entry,stamp,RebuildCheck.projectionId,checkHeader_projectionId]
  rw [context]
  by_cases first : st.nextFree = 0
  · rw [if_pos first]
    apply tally.create readable
    rw [first]
    exact fun e low => absurd low (Nat.not_lt_zero e)
  rw [if_neg first]
  cases found : findEntry (checkHeader layout bsize (r.bins n blockIdx)) st with
  | none =>
    apply tally.create readable
    intro e low same
    rw [findEntry,List.find?_eq_none] at found
    have passed := found e (List.mem_range.mpr low)
    rw [← listed_entry]
    exact listed_of_passed same (Bool.eq_false_iff.mpr passed)
  | some e =>
    obtain ⟨new,member,before⟩ := List.find?_range_eq_some.mp found
    have low := List.mem_range.mp member
    rw [Bool.and_eq_true,beq_iff_eq,listed_entry,Bool.not_eq_eq_eq_not,Bool.not_true] at new
    apply tally.addTo readable _ byte low new.1 new.2
    intro e' sooner same
    have passed := before e' sooner
    rw [Bool.not_eq_eq_eq_not,Bool.not_true] at passed
    rw [← listed_entry]
    exact listed_of_passed same passed

theorem tally_prefix (tb : Nat → TimestampCtx) (small : n ≤ 256) :
    Tally layout bsize r spareIdx blockIdx n ((List.range n).foldl (countCtx layout bsize r spareIdx blockIdx) ⟨tb,0,-1,0,none⟩) := by
  induction n with
  | zero =>
    refine ⟨Nat.le_refl 0,?_,?_,?_,.inl ⟨rfl,?_⟩⟩
    · exact fun e low => absurd low (Nat.not_lt_zero e)
    · exact fun e low => absurd low (Nat.not_lt_zero e)
    · exact fun i low => absurd low (Nat.not_lt_zero i)
    · exact fun e low => absurd low (Nat.not_lt_zero e)
  | succ n ih =>
    rw [List.range_succ,List.foldl_append]
    exact (ih (Nat.le_of_succ_le small)).countCtx small

theorem safe_le (layout : Layout) : layout.rozofsSafe ≤ 16 := by
  cases layout <;> decide

/-- The table when the loop is done. -/
theorem count_tally (layout : Layout) (bsize : BSize) (r : Received) (spareIdx : Int) (blockIdx : Nat) (tb : Nat → TimestampCtx) :
    Tally layout bsize r spareIdx blockIdx layout.rozofsSafe (count layout bsize r spareIdx blockIdx tb) :=
  tally_prefix tb (Nat.le_trans (safe_le layout) (by decide))

theorem First.unique {ts i j e e' : Nat} (first : First r blockIdx st ts i e) (first' : First r blockIdx st ts j e') : e = e' := by
  rcases Nat.lt_trichotomy e e' with less | equal | more
  · exact absurd first.same (first'.first e less)
  · exact equal
  · exact absurd first'.same (first.first e' more)

/-- The first entry of a timestamp other than 0 has its ids, the others some of them. -/
theorem Tally.first_ids (tally : Tally layout bsize r spareIdx blockIdx n st) {ts i e : Nat} (first : First r blockIdx st ts i e)
    (real : ts ≠ 0) : (ids layout bsize r spareIdx blockIdx n ts).card = (st.tb e).count := by
  have known := tally.entry e first.low
  have all : ids layout bsize r spareIdx blockIdx n ts = ((st.tb e).prjIdxTb.map (projectionId r blockIdx)).toFinset := by
    ext b
    rw [mem_ids,List.mem_toFinset]
    constructor
    · rintro ⟨j,⟨low,readable,rfl⟩,rfl⟩
      obtain ⟨e',first'⟩ := tally.full j low readable
      rw [first.unique first']
      exact first'.id
    · intro member
      obtain ⟨j,inside,id⟩ := List.mem_map.mp member
      have holds := mem_sharing.mp (known.sharing j inside)
      rw [first.same] at holds
      exact ⟨j,holds,id⟩
  rw [all,List.toFinset_card_of_nodup (known.distinct (by rwa [first.same])),List.length_map]
  rfl

/-- The first entry of the timestamp 0 has all its contexts. -/
theorem Tally.first_empty (tally : Tally layout bsize r spareIdx blockIdx n st) {i e : Nat} (first : First r blockIdx st 0 i e) :
    ∀ j ∈ sharing layout bsize r spareIdx blockIdx n 0, j ∈ (st.tb e).prjIdxTb := by
  intro j member
  obtain ⟨low,readable,empty⟩ := mem_sharing.mp member
  obtain ⟨e',first'⟩ := tally.full j low readable
  rw [empty] at first'
  rw [first.unique first']
  exact first'.member rfl

/-- The entry of a context in the list of another one. -/
theorem Tally.exists_first (tally : Tally layout bsize r spareIdx blockIdx n st) {w : Nat} (low : w < st.nextFree) :
    ∃ i ∈ (st.tb w).prjIdxTb, ∃ e, First r blockIdx st (st.tb w).timestamp i e := by
  have known := tally.entry w low
  obtain ⟨i,member⟩ := List.exists_mem_of_ne_nil _ known.filled
  obtain ⟨inside,readable,same⟩ := mem_sharing.mp (known.sharing i member)
  obtain ⟨e,first⟩ := tally.full i inside readable
  rw [same] at first
  exact ⟨i,member,e,first⟩

/-- Some entry has as many contexts as a timestamp has copies. -/
theorem Tally.exists_entry (tally : Tally layout bsize r spareIdx blockIdx layout.rozofsSafe st) {ts : Nat}
    (some_copy : 0 < copies layout bsize r spareIdx blockIdx ts) :
    ∃ e < st.nextFree, (st.tb e).timestamp = ts ∧ copies layout bsize r spareIdx blockIdx ts ≤ (st.tb e).count := by
  by_cases empty : ts = 0
  · rw [copies,if_pos empty] at some_copy ⊢
    obtain ⟨i,member⟩ := List.exists_mem_of_length_pos some_copy
    obtain ⟨low,readable,zero⟩ := mem_sharing.mp member
    obtain ⟨e,first⟩ := tally.full i low readable
    rw [zero] at first
    have nodup : (sharing layout bsize r spareIdx blockIdx layout.rozofsSafe 0).Nodup := List.nodup_range.filter _
    exact ⟨e,first.low,first.same.trans empty.symm,(List.subperm_of_subset nodup (tally.first_empty first)).length_le⟩
  · rw [copies,if_neg empty] at some_copy ⊢
    obtain ⟨b,member⟩ := Finset.card_pos.mp some_copy
    obtain ⟨i,⟨low,readable,same⟩,_⟩ := mem_ids.mp member
    obtain ⟨e,first⟩ := tally.full i low readable
    rw [same] at first
    exact ⟨e,first.low,first.same,Nat.le_of_eq (tally.first_ids first empty)⟩

/-- An entry with enough contexts has all the copies of its timestamp: another one of the same timestamp would have
enough contexts too, and both together are all the storages. -/
theorem Tally.count_eq (tally : Tally layout bsize r spareIdx blockIdx layout.rozofsSafe st) {w : Nat} (low : w < st.nextFree)
    (enough : layout.rozofsInverse ≤ (st.tb w).count) :
    (st.tb w).count = copies layout bsize r spareIdx blockIdx (st.tb w).timestamp ∧
    ((st.tb w).timestamp = 0 → ∀ i ∈ sharing layout bsize r spareIdx blockIdx layout.rozofsSafe 0, i ∈ (st.tb w).prjIdxTb) := by
  have known := tally.entry w low
  obtain ⟨i,member,e,first⟩ := tally.exists_first low
  have known' := tally.entry e first.low
  by_cases empty : (st.tb w).timestamp = 0
  · rw [empty] at first
    have all := tally.first_empty first
    have own : e = w := by
      by_contra differ
      have holds := known.sharing i member
      rw [empty] at holds
      exact tally.apart e first.low w low differ i (all i holds) member
    rw [own] at all
    refine ⟨?_,fun _ => all⟩
    have perm : (st.tb w).prjIdxTb.Perm (sharing layout bsize r spareIdx blockIdx layout.rozofsSafe 0) := by
      apply (List.perm_ext_iff_of_nodup known.nodup (List.nodup_range.filter _)).mpr
      intro j
      constructor
      · intro inside
        have holds := known.sharing j inside
        rwa [empty] at holds
      · exact all j
    rw [copies,if_pos empty]
    exact perm.length_eq
  · refine ⟨?_,fun zero => absurd zero empty⟩
    have whole := tally.first_ids first empty
    rw [copies,if_neg empty,whole]
    by_cases own : e = w
    · rw [own]
    have fewer : (st.tb w).count ≤ (st.tb e).count := by
      rw [← whole,TimestampCtx.count,← List.length_map,← List.toFinset_card_of_nodup (known.distinct empty)]
      apply Finset.card_le_card
      intro b inside
      obtain ⟨j,inside,id⟩ := List.mem_map.mp (List.mem_toFinset.mp inside)
      exact mem_ids.mpr ⟨j,mem_sharing.mp (known.sharing j inside),id⟩
    have nodup : ((st.tb w).prjIdxTb ++ (st.tb e).prjIdxTb).Nodup := List.nodup_append.mpr
      ⟨known.nodup,known'.nodup,fun a left b right same => tally.apart w low e first.low (Ne.symm own) a left (same ▸ right)⟩
    have inside : (st.tb w).prjIdxTb ++ (st.tb e).prjIdxTb ⊆ List.range layout.rozofsSafe := by
      intro j member
      apply List.mem_range.mpr
      cases List.mem_append.mp member with
      | inl left => exact (mem_sharing.mp (known.sharing j left)).1
      | inr right => exact (mem_sharing.mp (known'.sharing j right)).1
    have total := (List.subperm_of_subset nodup inside).length_le
    rw [List.length_append,List.length_range,safe_eq] at total
    rw [TimestampCtx.count] at enough fewer ⊢
    rw [TimestampCtx.count] at fewer ⊢
    omega

/-- What wins is in the table, as soon as a timestamp has enough copies. -/
theorem Tally.winner (tally : Tally layout bsize r spareIdx blockIdx layout.rozofsSafe st) {ts : Nat}
    (enough : layout.rozofsInverse ≤ copies layout bsize r spareIdx blockIdx ts) :
    st.andTheWinnerIs.toNat < st.nextFree ∧ layout.rozofsInverse ≤ (st.tb st.andTheWinnerIs.toNat).count ∧
      st.timestamp = (st.tb st.andTheWinnerIs.toNat).timestamp ∧
      ∀ e < st.nextFree, layout.rozofsInverse ≤ (st.tb e).count →
        ∀ i ∈ (st.tb e).prjIdxTb, ∃ j ∈ (st.tb st.andTheWinnerIs.toNat).prjIdxTb, i ≤ j := by
  cases tally.won with
  | inl none =>
    have some_copy := Nat.lt_of_lt_of_le (Nat.lt_of_lt_of_le Nat.zero_lt_two (two_inverse layout)) enough
    obtain ⟨e,low,_,many⟩ := tally.exists_entry some_copy
    exact absurd (none.2 e low) (Nat.not_lt.mpr (Nat.le_trans enough many))
  | inr won => exact won

/-- The winner is a byte: it is never equal to -1. -/
theorem Counting.result_eq (st : Counting) :
    st.result = some ((st.tb st.andTheWinnerIs.toNat).count,(st.tb st.andTheWinnerIs.toNat).prjIdxTb) := by
  have byte : (st.andTheWinnerIs.toNat : Int) ≠ -1 := by omega
  rw [Counting.result,if_pos byte]

end Tally

section Shared
variable (layout : Layout) (bsize : BSize) (r : Received) (spareIdx : Int) (blockIdx : Nat)

/-- A readable context with a copy of the block for a timestamp: its id is one of the layout and its footer agrees. -/
def Copy (ts i : Nat) : Prop :=
  Readable r spareIdx blockIdx i ∧ Intact layout bsize (r.bins i blockIdx) ∧ (r.bins i blockIdx).hdr.timestamp = ts

instance (ts i : Nat) : Decidable (Copy layout bsize r spareIdx blockIdx ts i) := inferInstanceAs (Decidable (_ ∧ _ ∧ _))

/-- The projection ids of which there is a copy for a timestamp. -/
def copyIds (ts : Nat) : Finset Nat :=
  (((List.range layout.rozofsSafe).filter fun i => Copy layout bsize r spareIdx blockIdx ts i).map (projectionId r blockIdx)).toFinset

/-- A timestamp that enough contexts share, with distinct projection ids. -/
def Shared (ts : Nat) : Prop := layout.rozofsInverse ≤ (copyIds layout bsize r spareIdx blockIdx ts).card

/-- The readable contexts whose block is empty or damaged. -/
def empties : List Nat := sharing layout bsize r spareIdx blockIdx layout.rozofsSafe 0

/-- What a count of the copies is for: -1 when no timestamp is shared, else the copies of one that is, one context for
each of its projection ids; and no index beyond the table. -/
structure Counted (st : Counting) : Prop where
  entries : st.nextFree ≤ rozofsSafeMax
  positions : ∀ e < st.nextFree, (st.tb e).count ≤ rozofsSafeMax
  taken : st.result ≠ none → st.andTheWinnerIs.toNat < rozofsSafeMax
  missed : (∀ ts, ¬Shared layout bsize r spareIdx blockIdx ts) → st.result = none
  found : ∀ ts, Shared layout bsize r spareIdx blockIdx ts → ∃ prjIdxTb, st.result = some (prjIdxTb.length,prjIdxTb) ∧
    Shared layout bsize r spareIdx blockIdx st.timestamp ∧
    prjIdxTb.length = (copyIds layout bsize r spareIdx blockIdx st.timestamp).card ∧
    (∀ i ∈ prjIdxTb, i < layout.rozofsSafe ∧ Copy layout bsize r spareIdx blockIdx st.timestamp i) ∧
    (prjIdxTb.map (projectionId r blockIdx)).Nodup

/-- A timestamp other than 0 is shared, and the empty contexts do not outdo it: they are too few, or the last context is
none of them. Or the empty contexts are many, undamaged, and have distinct projection ids. -/
def Decided : Prop :=
  (∃ ts ≠ 0, Shared layout bsize r spareIdx blockIdx ts ∧ ((empties layout bsize r spareIdx blockIdx).length < layout.rozofsInverse ∨
    layout.rozofsSafe - 1 ∉ empties layout bsize r spareIdx blockIdx)) ∨
  (layout.rozofsInverse ≤ (empties layout bsize r spareIdx blockIdx).length ∧
    (∀ i ∈ empties layout bsize r spareIdx blockIdx, Intact layout bsize (r.bins i blockIdx)) ∧
    ((empties layout bsize r spareIdx blockIdx).map (projectionId r blockIdx)).Nodup)

end Shared

section Theorems
variable {layout : Layout} {bsize : BSize} {r : Received} {spareIdx : Int} {blockIdx : Nat}

theorem mem_copyIds {ts b : Nat} : b ∈ copyIds layout bsize r spareIdx blockIdx ts ↔
    ∃ i, (i < layout.rozofsSafe ∧ Copy layout bsize r spareIdx blockIdx ts i) ∧ projectionId r blockIdx i = b := by
  simp only [copyIds,List.mem_toFinset,List.mem_map,List.mem_filter,List.mem_range,decide_eq_true_eq]

/-- A copy counts for its timestamp. -/
theorem Copy.stamped {ts i : Nat} (copy : Copy layout bsize r spareIdx blockIdx ts i) : stamp layout bsize r blockIdx i = ts := by
  rw [stamp,checkHeader_intact copy.2.1]
  exact copy.2.2

/-- A context that counts for a timestamp and is undamaged holds a copy for it. -/
theorem copy_of_stamp {ts i : Nat} (readable : Readable r spareIdx blockIdx i) (same : stamp layout bsize r blockIdx i = ts)
    (intact : Intact layout bsize (r.bins i blockIdx)) : Copy layout bsize r spareIdx blockIdx ts i := by
  rw [stamp,checkHeader_intact intact] at same
  exact ⟨readable,intact,same⟩

/-- A context that counts for a timestamp other than 0 is undamaged. -/
theorem intact_of_stamp {ts i : Nat} (same : stamp layout bsize r blockIdx i = ts) (real : ts ≠ 0) : Intact layout bsize (r.bins i blockIdx) := by
  rw [← same] at real
  exact intact_of_stamped real

theorem copyIds_real {ts : Nat} (real : ts ≠ 0) : copyIds layout bsize r spareIdx blockIdx ts = ids layout bsize r spareIdx blockIdx layout.rozofsSafe ts := by
  ext b
  rw [mem_copyIds,mem_ids]
  constructor
  · rintro ⟨i,⟨low,copy⟩,id⟩
    exact ⟨i,⟨low,copy.1,copy.stamped⟩,id⟩
  · rintro ⟨i,⟨low,readable,same⟩,id⟩
    exact ⟨i,⟨low,copy_of_stamp readable same (intact_of_stamp same real)⟩,id⟩

/-- The ids of the copies of timestamp 0 are those of empty contexts. -/
theorem copyIds_zero_le : (copyIds layout bsize r spareIdx blockIdx 0).card ≤ (empties layout bsize r spareIdx blockIdx).length := by
  have subset : copyIds layout bsize r spareIdx blockIdx 0 ⊆ ids layout bsize r spareIdx blockIdx layout.rozofsSafe 0 := by
    intro b member
    obtain ⟨i,⟨low,copy⟩,id⟩ := mem_copyIds.mp member
    exact mem_ids.mpr ⟨i,⟨low,copy.1,copy.stamped⟩,id⟩
  have short := List.toFinset_card_le ((sharing layout bsize r spareIdx blockIdx layout.rozofsSafe 0).map (projectionId r blockIdx))
  rw [List.length_map] at short
  exact Nat.le_trans (Finset.card_le_card subset) short

theorem copies_zero : copies layout bsize r spareIdx blockIdx 0 = (empties layout bsize r spareIdx blockIdx).length := rfl

theorem copies_real {ts : Nat} (real : ts ≠ 0) : copies layout bsize r spareIdx blockIdx ts = (copyIds layout bsize r spareIdx blockIdx ts).card := by
  rw [copies,if_neg real,copyIds_real real]

/-- A timestamp that is shared has enough copies. -/
theorem Shared.enough {ts : Nat} (shared : Shared layout bsize r spareIdx blockIdx ts) :
    layout.rozofsInverse ≤ copies layout bsize r spareIdx blockIdx ts := by
  by_cases zero : ts = 0
  · rw [zero,copies_zero]
    rw [zero] at shared
    exact Nat.le_trans shared copyIds_zero_le
  · rwa [copies_real zero]

/-- Empty contexts that are undamaged and have distinct ids are copies of timestamp 0. -/
theorem copyIds_zero_eq (intact : ∀ i ∈ empties layout bsize r spareIdx blockIdx, Intact layout bsize (r.bins i blockIdx))
    (distinct : ((empties layout bsize r spareIdx blockIdx).map (projectionId r blockIdx)).Nodup) :
    (copyIds layout bsize r spareIdx blockIdx 0).card = (empties layout bsize r spareIdx blockIdx).length := by
  have all : copyIds layout bsize r spareIdx blockIdx 0 = ((empties layout bsize r spareIdx blockIdx).map (projectionId r blockIdx)).toFinset := by
    ext b
    rw [mem_copyIds,List.mem_toFinset,List.mem_map]
    constructor
    · rintro ⟨i,⟨low,copy⟩,id⟩
      exact ⟨i,mem_sharing.mpr ⟨low,copy.1,copy.stamped⟩,id⟩
    · rintro ⟨i,member,id⟩
      obtain ⟨low,readable,same⟩ := mem_sharing.mp member
      exact ⟨i,⟨low,copy_of_stamp readable same (intact i member)⟩,id⟩
  rw [all,List.toFinset_card_of_nodup distinct,List.length_map]

/-- What is returned when a timestamp has enough copies: those of the winner, one context for each projection id, or all
the empty ones. -/
structure Returned (layout : Layout) (bsize : BSize) (r : Received) (spareIdx : Int) (blockIdx : Nat) (st : Counting) (prjIdxTb : List Nat) : Prop where
  result : st.result = some (prjIdxTb.length,prjIdxTb)
  many : layout.rozofsInverse ≤ prjIdxTb.length
  number : prjIdxTb.length = copies layout bsize r spareIdx blockIdx st.timestamp
  nodup : prjIdxTb.Nodup
  sharing : ∀ i ∈ prjIdxTb, i ∈ sharing layout bsize r spareIdx blockIdx layout.rozofsSafe st.timestamp
  distinct : st.timestamp ≠ 0 → (prjIdxTb.map (projectionId r blockIdx)).Nodup
  all : st.timestamp = 0 → ∀ i ∈ empties layout bsize r spareIdx blockIdx, i ∈ prjIdxTb
  inside : st.andTheWinnerIs.toNat < st.nextFree
  latest : ∀ e < st.nextFree, layout.rozofsInverse ≤ (st.tb e).count → ∀ i ∈ (st.tb e).prjIdxTb, ∃ j ∈ prjIdxTb, i ≤ j

theorem Tally.returned {st : Counting} (tally : Tally layout bsize r spareIdx blockIdx layout.rozofsSafe st) {ts : Nat}
    (enough : layout.rozofsInverse ≤ copies layout bsize r spareIdx blockIdx ts) :
    ∃ prjIdxTb, Returned layout bsize r spareIdx blockIdx st prjIdxTb := by
  obtain ⟨low,many,same,latest⟩ := tally.winner enough
  have known := tally.entry _ low
  obtain ⟨whole,all⟩ := tally.count_eq low many
  rw [← same] at whole all
  exact ⟨_,st.result_eq,many,whole,known.nodup,same ▸ known.sharing,same ▸ known.distinct,all,low,latest⟩

/-- The last context decides between two timestamps that have enough copies: together they have all the contexts. -/
theorem Tally.last_context {st : Counting} (tally : Tally layout bsize r spareIdx blockIdx layout.rozofsSafe st) {prjIdxTb : List Nat}
    (returned : Returned layout bsize r spareIdx blockIdx st prjIdxTb) {ts : Nat} (other : ts ≠ st.timestamp)
    (enough : layout.rozofsInverse ≤ copies layout bsize r spareIdx blockIdx ts) :
    layout.rozofsSafe - 1 ∈ sharing layout bsize r spareIdx blockIdx layout.rozofsSafe st.timestamp := by
  have some_copy := Nat.lt_of_lt_of_le (Nat.lt_of_lt_of_le Nat.zero_lt_two (two_inverse layout)) enough
  obtain ⟨e,low,same,many⟩ := tally.exists_entry some_copy
  have known := tally.entry e low
  have inside : layout.rozofsSafe - 1 < layout.rozofsSafe := by
    have two := two_inverse layout
    rw [safe_eq]
    omega
  have apart : ∀ i ∈ prjIdxTb, i ∉ (st.tb e).prjIdxTb := by
    intro i left right
    have mine := (mem_sharing.mp (returned.sharing i left)).2.2
    have theirs := (mem_sharing.mp (known.sharing i right)).2.2
    rw [same] at theirs
    exact other (theirs.symm.trans mine)
  have place : ∀ i, i ∈ prjIdxTb ∨ i ∈ (st.tb e).prjIdxTb → i < layout.rozofsSafe := by
    intro i either
    cases either with
    | inl left => exact (mem_sharing.mp (returned.sharing i left)).1
    | inr right => exact (mem_sharing.mp (known.sharing i right)).1
  have member : layout.rozofsSafe - 1 ∈ prjIdxTb := by
    cases quorums_cover returned.nodup known.nodup apart place returned.many (Nat.le_trans enough many) inside with
    | inl mine => exact mine
    | inr theirs =>
      obtain ⟨j,mine,after⟩ := returned.latest e low (Nat.le_trans enough many) _ theirs
      have last : j = layout.rozofsSafe - 1 := by
        have := place j (.inl mine)
        omega
      rwa [last] at mine
  exact returned.sharing _ member

/-- When the timestamp 0 wins, all the empty contexts are returned. -/
theorem Returned.perm_empties {st : Counting} {prjIdxTb : List Nat} (returned : Returned layout bsize r spareIdx blockIdx st prjIdxTb)
    (zero : st.timestamp = 0) : prjIdxTb.Perm (empties layout bsize r spareIdx blockIdx) := by
  apply (List.perm_ext_iff_of_nodup returned.nodup (List.nodup_range.filter _)).mpr
  intro i
  refine ⟨fun member => ?_,returned.all zero i⟩
  have holds := returned.sharing i member
  rwa [zero] at holds

/-- When another timestamp wins, its copies are returned. -/
theorem Returned.copies_real {st : Counting} {prjIdxTb : List Nat} (returned : Returned layout bsize r spareIdx blockIdx st prjIdxTb)
    (real : st.timestamp ≠ 0) : prjIdxTb.length = (copyIds layout bsize r spareIdx blockIdx st.timestamp).card ∧
      ∀ i ∈ prjIdxTb, i < layout.rozofsSafe ∧ Copy layout bsize r spareIdx blockIdx st.timestamp i := by
  refine ⟨by rw [returned.number,CopyCount.copies_real real],fun i member => ?_⟩
  obtain ⟨low,readable,same⟩ := mem_sharing.mp (returned.sharing i member)
  exact ⟨low,copy_of_stamp readable same (intact_of_stamp same real)⟩

/-- A table that was never used. -/
def unused (_ : Nat) : TimestampCtx := ⟨0,0,0,[]⟩

/-- Four storages that hold the same block. -/
def sameBlock (block : RcvBlock) : Received := answersOf block block block block

/-- Three readable contexts with one projection id share no timestamp. -/
theorem sameBlock_unshared (timestamp footer ts : Nat) :
    ¬Shared .layout_2_3_4 .bsize4K (sameBlock (blockOf timestamp 4096 0 footer)) 3 0 ts := by
  have one : copyIds .layout_2_3_4 .bsize4K (sameBlock (blockOf timestamp 4096 0 footer)) 3 0 ts ⊆ {0} := by
    intro b member
    obtain ⟨i,_,id⟩ := mem_copyIds.mp member
    have zero : projectionId (sameBlock (blockOf timestamp 4096 0 footer)) 0 i = 0 := by
      simp only [RebuildCheck.projectionId,sameBlock,answersOf]
      split <;> rfl
    exact Finset.mem_singleton.mpr (id.symm.trans zero)
  exact Nat.not_le.mpr (Nat.lt_succ_of_le (Finset.card_le_card one))

end Theorems

end Rozofs.CopyCount
