import Rozofs.RebuildWrites
import Mathlib.Data.List.Nodup

/-! Rebuilds of one file do not cover a common block, as long as requests are regular: the start
of a rebuild without end does not meet one with an end, rebuilds start with recycle counter 0, and
stop requests have a reference that exists. -/
namespace Rozofs.RebuildTable
open Function (update)

section Requests
variable {κ : Type} [DecidableEq κ]

/-- A write of some blocks that a file can have. -/
def validBlocks (bid : BitVec 64) (nbProj : BitVec 32) : Bool :=
  0 < nbProj.toNat && bid.toNat + nbProj.toNat ≤ maxBlocks

/-- For a live rebuild, the test of a start request is the one of an overlap: a request without end
meets no rebuild with an end, unless it starts at that end. -/
def agrees (r : Rebuild κ) (startBid stopBid : BitVec 64) : Bool :=
  stopBid ≠ noEnd || r.stopBlock = noEnd || startBid = r.stopBlock

/-- A reference of the file is not used by a live rebuild, and there is a context. -/
def room (st : State κ) (key : κ) (aged : Nat → Bool) : Bool :=
  ((List.range maxFidParallelRebuild).any fun i => st.accepted.all fun r => ¬ (r.fid.key = key ∧ r.index = i) || aged r.ref) &&
    (!st.freeList.isEmpty || (List.range maxStorioParallelRebuild).any aged)

/-- The area of a request has a block in common with the one of a live rebuild. -/
def overlaps (st : State κ) (key : κ) (startBid stopBid : BitVec 64) (aged : Nat → Bool) : Bool :=
  st.accepted.any fun r =>
    r.fid.key = key && !aged r.ref && startBid ≤ (st.pool r.ref).stopBlock && (st.pool r.ref).startBlock ≤ stopBid

/-- Requests that do not meet the flaws of the handlers. -/
def regular (st : State κ) : Action κ → Bool
  | .start fid startBid stopBid _ aged =>
    fid.recycle = 0 && startBid ≤ stopBid && (room st fid.key aged || overlaps st fid.key startBid stopBid aged) &&
      st.accepted.all fun r => r.fid.key ≠ fid.key || aged r.ref || agrees (st.pool r.ref) startBid stopBid
  | .write _ _ bid nbProj _ => validBlocks bid nbProj
  | .stop _ rebuildRef _ _ => stopIndex rebuildRef ≠ some maxFidParallelRebuild
  | .stopResponse => true

end Requests

section Exclusion
variable {κ : Type} {st st' st'' : State κ}

/-- The rebuilds that are accepted are those that the references of the files lead to, and they
have no block in common. -/
structure Exclusive (st : State κ) : Prop where
  entry : ∀ r ∈ st.accepted, r.index < maxFidParallelRebuild ∧ st.table r.fid.key r.index = some r.ref
  context : ∀ r ∈ st.accepted, r.ref < maxStorioParallelRebuild ∧ (st.pool r.ref).fid = some r.fid ∧ r.fid.recycle = 0
  once : ∀ r ∈ st.accepted, ∀ s ∈ st.accepted, r.ref = s.ref → r = s
  live : ∀ key, ∀ i < maxFidParallelRebuild, ∀ ref fid, st.table key i = some ref → (st.pool ref).fid = some fid →
    fid.key = key → ⟨fid,i,ref⟩ ∈ st.accepted
  proper : ∀ r ∈ st.accepted, (st.pool r.ref).startBlock.toNat ≤ (st.pool r.ref).stopBlock.toNat
  disjoint : ∀ r ∈ st.accepted, ∀ s ∈ st.accepted, r.fid.key = s.fid.key → r ≠ s →
    ∀ b, (st.pool r.ref).covers b → ¬ (st.pool s.ref).covers b
  free : ∀ ref ∈ st.freeList, ref < maxStorioParallelRebuild ∧ (st.pool ref).fid = none
  freeOnce : st.freeList.Nodup
  indexes : ∀ i ∈ st.indexes, i < maxFidParallelRebuild
  stops : ∀ p ∈ st.stopping, stopIndex p.2 ≠ some maxFidParallelRebuild

theorem exclusive_init : Exclusive (init κ) := by
  refine ⟨?_,?_,?_,?_,?_,?_,?_,List.nodup_reverse.mpr List.nodup_range,?_,?_⟩
  case refine_4 => intro key i _ ref fid entry; cases entry
  case refine_7 => exact fun ref member => ⟨List.mem_range.mp (List.mem_reverse.mp member),rfl⟩
  all_goals simp [init]

/-- The context of a live rebuild narrows. -/
theorem Exclusive.narrow (exclusive : Exclusive st) (ref : Nat) (r : Rebuild κ) (fid : r.fid = (st.pool ref).fid)
    (proper : (∃ a ∈ st.accepted, a.ref = ref) → r.startBlock.toNat ≤ r.stopBlock.toNat)
    (covers : ∀ b, r.covers b → (st.pool ref).covers b) : Exclusive { st with pool := update st.pool ref r } := by
  have fids : ∀ other, (update st.pool ref r other).fid = (st.pool other).fid := by
    intro other
    by_cases eq : other = ref
    · subst eq
      simpa using fid
    · simp [eq]
  have areas : ∀ other b, (update st.pool ref r other).covers b → (st.pool other).covers b := by
    intro other b inside
    by_cases eq : other = ref
    · subst eq
      exact covers b (by simpa using inside)
    · simpa [eq] using inside
  refine { exclusive with context := ?_, live := ?_, proper := ?_, disjoint := ?_, free := ?_ }
  · intro a member
    rw [fids]
    exact exclusive.context a member
  · intro key i low other owner entry context
    rw [fids] at context
    exact exclusive.live key i low other owner entry context
  · intro a member
    by_cases eq : a.ref = ref
    · simpa [eq] using proper ⟨a,member,eq⟩
    · simpa [eq] using exclusive.proper a member
  · intro a member c also same apart b inside inside'
    exact exclusive.disjoint a member c also same apart b (areas _ b inside) (areas _ b inside')
  · intro other member
    rw [fids]
    exact exclusive.free other member

theorem Exclusive.useIndex (exclusive : Exclusive st) (low : i < maxFidParallelRebuild) :
    Exclusive { st with indexes := i :: st.indexes } := by
  refine { exclusive with indexes := fun j member => ?_ }
  rcases List.mem_cons.mp member with rfl | old
  · exact low
  · exact exclusive.indexes j old

/-- What the loop of a start request does: aged rebuilds of the file end, and references reset. -/
structure Swept (key : κ) (aged : Nat → Bool) (st st' : State κ) : Prop where
  exclusive : Exclusive st'
  kept : ∀ r ∈ st.accepted, aged r.ref = false → r ∈ st'.accepted
  old : ∀ r ∈ st'.accepted, r ∈ st.accepted ∧ st'.pool r.ref = st.pool r.ref
  reset : ∀ i, st.table key i = none → st'.table key i = none
  freed : st.freeList ≠ [] → st'.freeList ≠ []
  stopping : st'.stopping = st.stopping

theorem Swept.refl (exclusive : Exclusive st) (key : κ) (aged : Nat → Bool) : Swept key aged st st :=
  ⟨exclusive,fun _ member _ => member,fun _ member => ⟨member,rfl⟩,fun _ none => none,fun some => some,rfl⟩

theorem Swept.trans (first : Swept key aged st st') (second : Swept key aged st' st'') : Swept key aged st st'' := by
  refine ⟨second.exclusive,?_,?_,?_,?_,second.stopping.trans first.stopping⟩
  · exact fun r member young => second.kept r (first.kept r member young) young
  · intro r member
    obtain ⟨middle,same⟩ := second.old r member
    exact ⟨(first.old r middle).1,same.trans (first.old r middle).2⟩
  · exact fun i none => second.reset i (first.reset i none)
  · exact fun some => second.freed (first.freed some)

variable [DecidableEq κ]

/-- A reference of a file is reset. -/
theorem Exclusive.endEntry (exclusive : Exclusive st) (key : κ) (i : Nat) : Exclusive (endEntry key i st) := by
  have kept : ∀ r, r ∈ (RebuildTable.endEntry key i st).accepted ↔ r ∈ st.accepted ∧ ¬ (r.fid.key = key ∧ r.index = i) := by
    intro r
    simp only [RebuildTable.endEntry,List.mem_filter,decide_eq_true_eq]
  have same : ∀ other j, ¬ (other = key ∧ j = i) → (RebuildTable.endEntry key i st).table other j = st.table other j := by
    intro other j apart
    by_cases eq : other = key
    · subst eq
      have differ : j ≠ i := fun same => apart ⟨rfl,same⟩
      simp [RebuildTable.endEntry,setEntry,differ]
    · simp [RebuildTable.endEntry,setEntry,eq]
  have gone : (RebuildTable.endEntry key i st).table key i = none := by simp [RebuildTable.endEntry,setEntry]
  refine { exclusive with entry := ?_, context := ?_, once := ?_, live := ?_, proper := ?_, disjoint := ?_ }
  · intro r member
    obtain ⟨before,apart⟩ := (kept r).mp member
    rw [same _ _ apart]
    exact exclusive.entry r before
  · exact fun r member => exclusive.context r ((kept r).mp member).1
  · exact fun r member s also => exclusive.once r ((kept r).mp member).1 s ((kept s).mp also).1
  · intro other j low ref fid entry context owner
    have apart : ¬ (other = key ∧ j = i) := by
      rintro ⟨rfl,rfl⟩
      rw [gone] at entry
      cases entry
    rw [same other j apart] at entry
    exact (kept _).mpr ⟨exclusive.live other j low ref fid entry context owner,owner ▸ apart⟩
  · exact fun r member => exclusive.proper r ((kept r).mp member).1
  · exact fun r member s also => exclusive.disjoint r ((kept r).mp member).1 s ((kept s).mp also).1

/-- The context of a reference is freed, and the reference is reset. -/
theorem Exclusive.free_end (exclusive : Exclusive st) (key : κ) (low : i < maxFidParallelRebuild)
    (entry : st.table key i = some ref) (context : (st.pool ref).fid = some fid) (own : fid.key = key) :
    Exclusive (RebuildTable.endEntry key i (ctxFree ref st)) := by
  have mine := exclusive.live key i low ref fid entry context own
  have after := exclusive.endEntry key i
  have kept : ∀ r ∈ (RebuildTable.endEntry key i (ctxFree ref st)).accepted,
      r ∈ st.accepted ∧ ¬ (r.fid.key = key ∧ r.index = i) ∧ r.ref ≠ ref := by
    intro r member
    obtain ⟨before,apart⟩ := List.mem_filter.mp member
    have apart := of_decide_eq_true apart
    refine ⟨before,apart,fun same => apart ?_⟩
    rw [exclusive.once r before _ mine same]
    exact ⟨own,rfl⟩
  have pool : ∀ other, other ≠ ref → (RebuildTable.endEntry key i (ctxFree ref st)).pool other = st.pool other := by
    intro other differ
    simp [RebuildTable.endEntry,setEntry,ctxFree,differ]
  have reset : ((RebuildTable.endEntry key i (ctxFree ref st)).pool ref).fid = none := by
    simp [RebuildTable.endEntry,setEntry,ctxFree,Rebuild.reset]
  refine { after with context := ?_, live := ?_, proper := ?_, disjoint := ?_, free := ?_, freeOnce := ?_ }
  · intro r member
    rw [pool _ (kept r member).2.2]
    exact after.context r member
  · intro other j low other' owner entry context
    by_cases eq : other' = ref
    · rw [eq,reset] at context
      cases context
    · rw [pool _ eq] at context
      exact after.live other j low other' owner entry context
  · intro r member
    rw [pool _ (kept r member).2.2]
    exact after.proper r member
  · intro r member s also same apart b
    rw [pool _ (kept r member).2.2,pool _ (kept s also).2.2]
    exact after.disjoint r member s also same apart b
  · intro other member
    by_cases eq : other = ref
    · rw [eq]
      exact ⟨(exclusive.context _ mine).1,reset⟩
    · rw [pool _ eq]
      rcases List.mem_cons.mp member with new | old
      · exact absurd new eq
      · exact exclusive.free other old
  · refine List.nodup_cons.mpr ⟨fun old => ?_,exclusive.freeOnce⟩
    rw [(exclusive.free _ old).2] at context
    cases context

theorem wide_before (some : 0 < bid.toNat) (small : bid.toNat < 2 ^ 31) :
    (wide (writeFirst bid - 1)).toNat = bid.toNat - 1 := by
  have first := writeFirst_toNat small
  have one : (1 : BitVec 32).toNat = 1 := rfl
  have before : (writeFirst bid - 1).toNat = bid.toNat - 1 := by
    rw [BitVec.toNat_sub,first,one]
    omega
  rw [wide_toNat,before,if_pos (by omega)]

theorem validBlocks_iff (valid : validBlocks bid nbProj = true) :
    0 < nbProj.toNat ∧ bid.toNat + nbProj.toNat ≤ 2 ^ 31 := by
  have both := Bool.and_eq_true_iff.mp valid
  exact ⟨of_decide_eq_true both.1,of_decide_eq_true both.2⟩

theorem Exclusive.writeEntry (exclusive : Exclusive st) (fid : Fid κ) (valid : validBlocks bid nbProj = true)
    (low : i < maxFidParallelRebuild) : Exclusive (writeEntry fid bid nbProj st i) := by
  obtain ⟨some,bound⟩ := validBlocks_iff valid
  have small : bid.toNat < 2 ^ 31 := by omega
  rw [RebuildTable.writeEntry]
  split
  · exact exclusive
  · rename_i ref entry
    split
    · exact exclusive.endEntry fid.key i
    · rename_i ref' found
      obtain ⟨eq,-,context⟩ := retrieve_some found
      cases eq
      simp only
      split
      · rename_i cut
        refine exclusive.narrow ref _ rfl (fun _ => ?_) fun b inside => covers_cut _ cut.1 cut.2 inside
        have after := BitVec.lt_def.mp cut.1
        rw [wide_first small] at after
        simp only
        rw [wide_before (by omega) small]
        omega
      · split
        · exact exclusive.free_end fid.key low entry context rfl
        · exact exclusive

theorem Exclusive.clientWrite (exclusive : Exclusive st) (fid : Fid κ) (valid : validBlocks bid nbProj = true) :
    Exclusive (clientWrite fid bid nbProj st) := by
  rw [RebuildTable.clientWrite]
  refine List.foldlRecOn (motive := Exclusive) _ _ { exclusive with } fun st exclusive i member => ?_
  exact exclusive.writeEntry fid valid (List.mem_range.mp member)

theorem Exclusive.rebuildWrite (exclusive : Exclusive st) (fid : Fid κ) (low : i < maxFidParallelRebuild)
    (valid : validBlocks bid nbProj = true) : Exclusive (rebuildWrite fid i bid nbProj st).1 := by
  obtain ⟨some,bound⟩ := validBlocks_iff valid
  have used := exclusive.useIndex low
  rw [RebuildTable.rebuildWrite]
  simp only
  split
  · exact used.endEntry fid.key i
  · rename_i ref found
    obtain ⟨entry,-,context⟩ := retrieve_some found
    split
    · exact used.free_end fid.key low entry context rfl
    · rename_i inside
      have small : bid.toNat < 2 ^ 31 := by omega
      have block : writes (bid,nbProj) bid.toNat := ⟨Nat.le_refl _,by simpa using some,small⟩
      have last := le_wide_last block (by simp only [maxBlocks]; omega)
      simp only [not_or,not_and,BitVec.not_lt,BitVec.le_def,wide_first small] at inside
      refine used.narrow ref _ rfl (fun _ => ?_) fun b within => ⟨?_,within.2⟩
      · simp only [wide_first small]
        by_cases noStop : (st.pool ref).stopBlock = noEnd
        · simp only [noStop,noEnd,BitVec.toNat_allOnes]
          omega
        · exact Nat.le_trans last (inside.1 noStop)
      · have start := within.1
        simp only [wide_first small] at start
        exact Nat.le_trans inside.2 start

theorem Exclusive.stopEntry (exclusive : Exclusive st) (fid : Fid κ) (low : i < maxFidParallelRebuild) :
    Exclusive (stopEntry fid i st) := by
  rw [RebuildTable.stopEntry]
  split
  · exact exclusive
  · rename_i ref entry
    split
    · exact exclusive.endEntry fid.key i
    · rename_i ref' found
      obtain ⟨eq,-,context⟩ := retrieve_some found
      cases eq
      exact exclusive.free_end fid.key low entry context rfl

theorem endEntry_table_none (key : κ) (i j : Nat) (none : j = i ∨ st.table key j = none) :
    (endEntry key i st).table key j = .none := by
  by_cases same : j = i
  · simp [endEntry,setEntry,same]
  · simpa [endEntry,setEntry,same] using none.resolve_left same

/-- One turn of the loop: the reference is or becomes free, or it is the one of a live rebuild,
with which the request is compared. -/
theorem checkRebuilds_cons (exclusive : Exclusive st) (low : i < maxFidParallelRebuild) (key : κ)
    (startBid stopBid : BitVec 64) (aged : Nat → Bool) (rest : List Nat) (selected : Option Nat) :
    (∃ st', Swept key aged st st' ∧ st'.table key i = none ∧
      (∀ r ∈ st.accepted, r.fid.key = key → r.index = i → aged r.ref = true) ∧
      checkRebuilds key startBid stopBid aged (i :: rest) st selected =
        checkRebuilds key startBid stopBid aged rest st' (some i)) ∨
    ∃ ref, ⟨⟨key,0⟩,i,ref⟩ ∈ st.accepted ∧ aged ref = false ∧
      checkRebuilds key startBid stopBid aged (i :: rest) st selected =
        if incompatible (st.pool ref) startBid stopBid then (st,none)
        else checkRebuilds key startBid stopBid aged rest st selected := by
  cases entry : st.table key i with
  | none =>
    refine .inl ⟨st,.refl exclusive key aged,entry,?_,by rw [checkRebuilds,entry]⟩
    rintro r member rfl rfl
    rw [(exclusive.entry r member).2] at entry
    cases entry
  | some ref =>
    cases found : retrieve st (some ref) ⟨key,0⟩ with
    | none =>
      -- no rebuild of the file is there, or it would have been found
      have unused : ∀ r ∈ st.accepted, r.fid.key = key → r.index ≠ i := by
        rintro r member rfl rfl
        obtain ⟨small,context,counter⟩ := exclusive.context r member
        rw [(exclusive.entry r member).2] at entry
        cases entry
        have own : r.fid = ⟨r.fid.key,0⟩ := by rw [← counter]
        rw [retrieve,if_pos ⟨small,own ▸ context⟩] at found
        cases found
      have same : endEntry key i st = setEntry key i none st := by
        have all : st.accepted.filter (fun r => ¬ (r.fid.key = key ∧ r.index = i)) = st.accepted :=
          List.filter_eq_self.mpr fun r member => decide_eq_true fun own => unused r member own.1 own.2
        rw [endEntry,all]
        rfl
      refine .inl ⟨endEntry key i st,⟨exclusive.endEntry key i,?_,?_,?_,id,rfl⟩,?_,?_,?_⟩
      · intro r member _
        exact List.mem_filter.mpr ⟨member,decide_eq_true fun own => unused r member own.1 own.2⟩
      · exact fun r member => ⟨(List.mem_filter.mp member).1,rfl⟩
      · exact fun j free => endEntry_table_none key i j (.inr free)
      · exact endEntry_table_none key i i (.inl rfl)
      · exact fun r member own here => absurd here (unused r member own)
      · rw [checkRebuilds,entry,same]
        simp only [found]
    | some ref' =>
      obtain ⟨eq,-,context⟩ := retrieve_some found
      cases eq
      have mine := exclusive.live key i low ref ⟨key,0⟩ entry context rfl
      have only : ∀ r ∈ st.accepted, r.ref = ref → r = ⟨⟨key,0⟩,i,ref⟩ :=
        fun r member same => exclusive.once r member _ mine same
      cases old : aged ref with
      | false =>
        refine .inr ⟨ref,mine,old,?_⟩
        rw [checkRebuilds,entry]
        simp only [found,old,Bool.false_eq_true,if_false]
      | true =>
        refine .inl ⟨endEntry key i (ctxFree ref st),⟨exclusive.free_end key low entry context rfl,?_,?_,?_,?_,rfl⟩,?_,?_,?_⟩
        · intro r member young
          refine List.mem_filter.mpr ⟨member,decide_eq_true fun own => ?_⟩
          have here := (exclusive.entry r member).2
          rw [own.1,own.2,entry] at here
          cases here
          rw [young] at old
          cases old
        · intro r member
          obtain ⟨before,apart⟩ := List.mem_filter.mp member
          have differ : r.ref ≠ ref := by
            intro same
            rw [only r before same] at apart
            exact of_decide_eq_true apart ⟨rfl,rfl⟩
          exact ⟨before,by simp [endEntry,setEntry,ctxFree,differ]⟩
        · exact fun j free => endEntry_table_none key i j (.inr free)
        · exact fun _ => by simp [endEntry,setEntry,ctxFree]
        · exact endEntry_table_none key i i (.inl rfl)
        · rintro r member rfl rfl
          rw [(exclusive.entry r member).2] at entry
          cases entry
          exact old
        · rw [checkRebuilds,entry]
          simp only [found,old,if_true]

section Loop
variable {key : κ} {startBid stopBid : BitVec 64} {aged : Nat → Bool} {selected : Option Nat} {is : List Nat}

theorem checkRebuilds_swept (exclusive : Exclusive st) (low : ∀ i ∈ is, i < maxFidParallelRebuild) :
    Swept key aged st (checkRebuilds key startBid stopBid aged is st selected).1 := by
  induction is generalizing st selected with
  | nil => exact .refl exclusive key aged
  | cons i rest ih =>
    have lows := fun j member => low j (List.mem_cons_of_mem i member)
    rcases checkRebuilds_cons exclusive (low i List.mem_cons_self) key startBid stopBid aged rest selected with
      ⟨next,swept,_,_,eq⟩ | ⟨ref,_,_,eq⟩
    · rw [eq]
      exact swept.trans (ih swept.exclusive lows)
    · rw [eq]
      split
      · exact .refl exclusive key aged
      · exact ih exclusive lows

/-- A request is refused in the loop for a live rebuild. -/
theorem checkRebuilds_refused (exclusive : Exclusive st) (low : ∀ i ∈ is, i < maxFidParallelRebuild)
    (refused : (checkRebuilds key startBid stopBid aged is st selected).2 = none) :
    ∃ r ∈ st.accepted, r.fid.key = key ∧ aged r.ref = false ∧ incompatible (st.pool r.ref) startBid stopBid = true := by
  induction is generalizing st selected with
  | nil => cases refused
  | cons i rest ih =>
    have lows := fun j member => low j (List.mem_cons_of_mem i member)
    rcases checkRebuilds_cons exclusive (low i List.mem_cons_self) key startBid stopBid aged rest selected with
      ⟨next,swept,_,_,eq⟩ | ⟨ref,mine,young,eq⟩
    · rw [eq] at refused
      obtain ⟨r,member,own,live,meet⟩ := ih swept.exclusive lows refused
      obtain ⟨before,same⟩ := swept.old r member
      exact ⟨r,before,own,live,same ▸ meet⟩
    · rw [eq] at refused
      split at refused
      · rename_i meet
        exact ⟨_,mine,rfl,young,meet⟩
      · exact ih exclusive lows refused

/-- The loop ends when the live rebuilds pass the test. -/
theorem checkRebuilds_passed (exclusive : Exclusive st) (low : ∀ i ∈ is, i < maxFidParallelRebuild)
    (passed : (checkRebuilds key startBid stopBid aged is st selected).2 = some sel) :
    ∀ r ∈ st.accepted, r.fid.key = key → r.index ∈ is → aged r.ref = false →
      incompatible (st.pool r.ref) startBid stopBid = false := by
  induction is generalizing st selected with
  | nil => exact fun r _ _ member => by cases member
  | cons i rest ih =>
    have lows := fun j member => low j (List.mem_cons_of_mem i member)
    intro r member own position young
    rcases checkRebuilds_cons exclusive (low i List.mem_cons_self) key startBid stopBid aged rest selected with
      ⟨next,swept,_,ages,eq⟩ | ⟨ref,mine,live,eq⟩
    · rw [eq] at passed
      have later : r.index ∈ rest := by
        rcases List.mem_cons.mp position with here | later
        · rw [ages r member own here] at young
          cases young
        · exact later
      have kept := swept.kept r member young
      rw [← (swept.old r kept).2]
      exact ih swept.exclusive lows passed r kept own later young
    · rw [eq] at passed
      split at passed
      · cases passed
      · rename_i apart
        rcases List.mem_cons.mp position with here | later
        · have entry := (exclusive.entry r member).2
          rw [own,here,(exclusive.entry _ mine).2] at entry
          cases entry
          exact Bool.not_eq_true _ ▸ apart
        · exact ih exclusive lows passed r member own later young

/-- The reference selected by the loop is free. -/
theorem checkRebuilds_selected (exclusive : Exclusive st) (low : ∀ i ∈ is, i < maxFidParallelRebuild)
    (before : ∀ i, selected = some i → i < maxFidParallelRebuild ∧ st.table key i = none)
    (passed : (checkRebuilds key startBid stopBid aged is st selected).2 = some (some i)) :
    i < maxFidParallelRebuild ∧ (checkRebuilds key startBid stopBid aged is st selected).1.table key i = none := by
  induction is generalizing st selected with
  | nil =>
    cases passed
    exact before i rfl
  | cons j rest ih =>
    have lows := fun k member => low k (List.mem_cons_of_mem j member)
    rcases checkRebuilds_cons exclusive (low j List.mem_cons_self) key startBid stopBid aged rest selected with
      ⟨next,swept,none,_,eq⟩ | ⟨ref,mine,live,eq⟩
    · rw [eq] at passed ⊢
      refine ih swept.exclusive lows (fun k same => ?_) passed
      cases same
      exact ⟨low j List.mem_cons_self,none⟩
    · rw [eq] at passed ⊢
      split at passed
      · cases passed
      · rename_i apart
        rw [if_neg apart]
        exact ih exclusive lows before passed

/-- The loop finds no reference when live rebuilds have them all. -/
theorem checkRebuilds_full (exclusive : Exclusive st) (low : ∀ i ∈ is, i < maxFidParallelRebuild)
    (full : (checkRebuilds key startBid stopBid aged is st selected).2 = some none) :
    selected = none ∧ ∀ i ∈ is, ∃ r ∈ st.accepted, r.fid.key = key ∧ r.index = i ∧ aged r.ref = false := by
  induction is generalizing st selected with
  | nil =>
    cases full
    exact ⟨rfl,fun i member => by cases member⟩
  | cons i rest ih =>
    have lows := fun j member => low j (List.mem_cons_of_mem i member)
    rcases checkRebuilds_cons exclusive (low i List.mem_cons_self) key startBid stopBid aged rest selected with
      ⟨next,swept,_,_,eq⟩ | ⟨ref,mine,young,eq⟩
    · rw [eq] at full
      cases (ih swept.exclusive lows full).1
    · rw [eq] at full
      split at full
      · cases full
      · obtain ⟨none,others⟩ := ih exclusive lows full
        refine ⟨none,fun j member => ?_⟩
        rcases List.mem_cons.mp member with rfl | later
        · exact ⟨_,mine,rfl,rfl,young⟩
        · exact others j later

/-- After the loop, the references are those of live rebuilds. -/
theorem checkRebuilds_entries (exclusive : Exclusive st) (low : ∀ i ∈ is, i < maxFidParallelRebuild)
    (passed : (checkRebuilds key startBid stopBid aged is st selected).2 = some sel) :
    ∀ i ∈ is, ∀ ref, (checkRebuilds key startBid stopBid aged is st selected).1.table key i = some ref →
      aged ref = false ∧ ⟨⟨key,0⟩,i,ref⟩ ∈ (checkRebuilds key startBid stopBid aged is st selected).1.accepted := by
  induction is generalizing st selected with
  | nil => exact fun i member => by cases member
  | cons i rest ih =>
    have lows := fun j member => low j (List.mem_cons_of_mem i member)
    intro j member ref entry
    rcases checkRebuilds_cons exclusive (low i List.mem_cons_self) key startBid stopBid aged rest selected with
      ⟨next,swept,none,_,eq⟩ | ⟨ref',mine,young,eq⟩
    · rw [eq] at passed entry ⊢
      rcases List.mem_cons.mp member with rfl | later
      · rw [(checkRebuilds_swept swept.exclusive lows).reset j none] at entry
        cases entry
      · exact ih swept.exclusive lows passed j later ref entry
    · rw [eq] at passed entry ⊢
      split at passed
      · cases passed
      · rename_i apart
        rw [if_neg apart] at entry ⊢
        rcases List.mem_cons.mp member with rfl | later
        · have swept : Swept key aged st (checkRebuilds key startBid stopBid aged rest st selected).1 :=
            checkRebuilds_swept exclusive lows
          have kept := swept.kept _ mine young
          have same := (swept.exclusive.entry _ kept).2
          simp only at same
          rw [same] at entry
          cases entry
          exact ⟨young,kept⟩
        · exact ih exclusive lows passed j later ref entry

end Loop

omit [DecidableEq κ] in
/-- A context is reset, and the rebuild that used it is over. -/
theorem Exclusive.resetContext (exclusive : Exclusive st) (ref : Nat) (free : rest.Sublist st.freeList) :
    Exclusive { st with
      freeList := rest, pool := update st.pool ref (.reset κ), accepted := st.accepted.filter fun r => r.ref ≠ ref } := by
  have swap : ∀ other, other ≠ ref → update st.pool ref (.reset κ) other = st.pool other := fun other differ => by simp [differ]
  have kept : ∀ r, r ∈ st.accepted.filter (fun r => r.ref ≠ ref) → r ∈ st.accepted ∧ r.ref ≠ ref := by
    intro r member
    obtain ⟨before,apart⟩ := List.mem_filter.mp member
    exact ⟨before,of_decide_eq_true apart⟩
  refine { exclusive with
    entry := ?_, context := ?_, once := ?_, live := ?_, proper := ?_, disjoint := ?_, free := ?_, freeOnce := ?_ }
  · exact fun r member => exclusive.entry r (kept r member).1
  · intro r member
    simp only [swap _ (kept r member).2]
    exact exclusive.context r (kept r member).1
  · exact fun r member s also => exclusive.once r (kept r member).1 s (kept s also).1
  · intro key i low other fid entry context own
    have apart : other ≠ ref := by
      rintro rfl
      simp [Rebuild.reset] at context
    simp only [swap other apart] at context
    exact List.mem_filter.mpr ⟨exclusive.live key i low other fid entry context own,decide_eq_true apart⟩
  · intro r member
    simp only [swap _ (kept r member).2]
    exact exclusive.proper r (kept r member).1
  · intro r member s also
    simp only [swap _ (kept r member).2,swap _ (kept s also).2]
    exact exclusive.disjoint r (kept r member).1 s (kept s also).1
  · intro other member
    refine ⟨(exclusive.free other (free.subset member)).1,?_⟩
    by_cases same : other = ref
    · simp [same,Rebuild.reset]
    · simp only [swap other same]
      exact (exclusive.free other (free.subset member)).2
  · exact exclusive.freeOnce.sublist free

omit [DecidableEq κ] in
/-- A context is allocated, which no rebuild uses. -/
theorem ctxAllocate_some (exclusive : Exclusive st) (allocated : ctxAllocate aged st = (st',some ref)) :
    Exclusive st' ∧ ref < maxStorioParallelRebuild ∧ (st'.pool ref).fid = none ∧ ref ∉ st'.freeList ∧
    st'.table = st.table ∧ (∀ r ∈ st'.accepted, r ∈ st.accepted ∧ st'.pool r.ref = st.pool r.ref) ∧
    ((st.pool ref).fid = none ∨ aged ref = true) := by
  rw [ctxAllocate] at allocated
  split at allocated
  · rename_i first rest free
    cases allocated
    have fresh := exclusive.free ref (free ▸ List.mem_cons_self)
    have nodup := List.nodup_cons.mp (free ▸ exclusive.freeOnce)
    have apart : ∀ r ∈ st.accepted, r.ref ≠ ref := by
      rintro r member rfl
      rw [(exclusive.context r member).2.1] at fresh
      cases fresh.2
    have all : st.accepted.filter (fun r => r.ref ≠ ref) = st.accepted :=
      List.filter_eq_self.mpr fun r member => decide_eq_true (apart r member)
    have after := exclusive.resetContext ref (free ▸ List.sublist_cons_self ref rest)
    rw [all] at after
    refine ⟨after,fresh.1,by simp [Rebuild.reset],nodup.1,rfl,fun r member => ⟨member,?_⟩,.inl fresh.2⟩
    simp [apart r member]
  · rename_i free
    simp only at allocated
    split at allocated
    · cases allocated
    · rename_i found old
      cases allocated
      have good : ref < maxStorioParallelRebuild ∧ aged ref = true := by
        rcases Option.or_eq_some_iff.mp old with here | ⟨_,here⟩
        all_goals
          have some := List.find?_some here
          exact ⟨List.mem_range.mp (List.mem_of_find?_eq_some here),(Bool.and_eq_true_iff.mp some).2⟩
      refine ⟨exclusive.resetContext ref (List.Sublist.refl _),good.1,by simp [Rebuild.reset],?_,rfl,?_,.inr good.2⟩
      · rw [free]
        exact List.not_mem_nil
      · intro r member
        obtain ⟨before,apart⟩ := List.mem_filter.mp member
        exact ⟨before,by simp [of_decide_eq_true apart]⟩

omit [DecidableEq κ] in
/-- There is a context when one is free or aged. -/
theorem ctxAllocate_none (none : (ctxAllocate aged st).2 = none) :
    st.freeList = [] ∧ ∀ ref < maxStorioParallelRebuild, aged ref = false := by
  rw [ctxAllocate] at none
  split at none
  · cases none
  · rename_i free
    simp only at none
    split at none
    · rename_i missing
      refine ⟨free,fun ref low => ?_⟩
      obtain ⟨normal,spare⟩ := Option.or_eq_none_iff.mp missing
      have first := List.find?_eq_none.mp normal ref (List.mem_range.mpr low)
      have second := List.find?_eq_none.mp spare ref (List.mem_range.mpr low)
      cases kind : (st.pool ref).spare
      · simpa [kind] using first
      · simpa [kind] using second
    · cases none

/-- A rebuild is accepted at a free reference. -/
theorem Exclusive.fill (exclusive : Exclusive st) (fid : Fid κ) (r : Rebuild κ) (own : r.fid = some fid) (counter : fid.recycle = 0)
    (low : index < maxFidParallelRebuild) (vacant : st.table fid.key index = none) (small : ref < maxStorioParallelRebuild)
    (fresh : (st.pool ref).fid = none) (notFree : ref ∉ st.freeList)
    (unused : ∀ i < maxFidParallelRebuild, st.table fid.key i ≠ some ref)
    (order : r.startBlock.toNat ≤ r.stopBlock.toNat)
    (apart : ∀ s ∈ st.accepted, s.fid.key = fid.key → ∀ b, (st.pool s.ref).covers b → ¬ r.covers b) :
    Exclusive { setEntry fid.key index (some ref) { st with pool := update st.pool ref r } with
      accepted := ⟨fid,index,ref⟩ :: st.accepted, indexes := index :: st.indexes, starts := st.starts + 1 } := by
  have differ : ∀ s ∈ st.accepted, s.ref ≠ ref := by
    rintro s member rfl
    rw [(exclusive.context s member).2.1] at fresh
    cases fresh
  have swap : ∀ other, other ≠ ref → update st.pool ref r other = st.pool other := fun other differ => by simp [differ]
  have here : update st.table fid.key (update (st.table fid.key) index (some ref)) fid.key index = some ref := by simp
  have elsewhere : ∀ key i, ¬ (key = fid.key ∧ i = index) →
      update st.table fid.key (update (st.table fid.key) index (some ref)) key i = st.table key i := by
    intro key i away
    by_cases same : key = fid.key
    · subst same
      have other : i ≠ index := fun eq => away ⟨rfl,eq⟩
      simp [other]
    · simp [same]
  refine ⟨?_,?_,?_,?_,?_,?_,?_,exclusive.freeOnce,?_,exclusive.stops⟩
  · intro s member
    rcases List.mem_cons.mp member with rfl | old
    · exact ⟨low,here⟩
    · have away : ¬ (s.fid.key = fid.key ∧ s.index = index) := by
        rintro ⟨key,position⟩
        have entry := (exclusive.entry s old).2
        rw [key,position,vacant] at entry
        cases entry
      refine ⟨(exclusive.entry s old).1,?_⟩
      exact (elsewhere _ _ away).trans (exclusive.entry s old).2
  · intro s member
    simp only [setEntry]
    rcases List.mem_cons.mp member with rfl | old
    · simp only [Function.update_self]
      exact ⟨small,own,counter⟩
    · rw [swap _ (differ s old)]
      exact exclusive.context s old
  · intro s member t also same
    rcases List.mem_cons.mp member with rfl | old <;> rcases List.mem_cons.mp also with rfl | old'
    · rfl
    · exact absurd same.symm (differ t old')
    · exact absurd same (differ s old)
    · exact exclusive.once s old t old' same
  · intro key i bound other owner entry context same
    simp only [setEntry] at entry context
    by_cases position : key = fid.key ∧ i = index
    · obtain ⟨rfl,rfl⟩ := position
      rw [here] at entry
      cases entry
      simp only [Function.update_self,own] at context
      cases context
      exact List.mem_cons_self
    · rw [elsewhere key i position] at entry
      have away : other ≠ ref := by
        rintro rfl
        simp only [Function.update_self,own] at context
        cases context
        exact unused i bound (same ▸ entry)
      rw [swap other away] at context
      exact List.mem_cons_of_mem _ (exclusive.live key i bound other owner entry context same)
  · intro s member
    simp only [setEntry]
    rcases List.mem_cons.mp member with rfl | old
    · simpa using order
    · rw [swap _ (differ s old)]
      exact exclusive.proper s old
  · intro s member t also same other b inside inside'
    simp only [setEntry] at inside inside'
    rcases List.mem_cons.mp member with rfl | old <;> rcases List.mem_cons.mp also with rfl | old'
    · exact other rfl
    · simp only [Function.update_self] at inside
      rw [swap _ (differ t old')] at inside'
      exact apart t old' same.symm b inside' inside
    · simp only [Function.update_self] at inside'
      rw [swap _ (differ s old)] at inside
      exact apart s old same b inside inside'
    · rw [swap _ (differ s old)] at inside
      rw [swap _ (differ t old')] at inside'
      exact exclusive.disjoint s old t old' same other b inside inside'
  · intro other member
    simp only [setEntry]
    have away : other ≠ ref := by
      rintro rfl
      exact notFree member
    rw [swap other away]
    exact exclusive.free other member
  · exact (exclusive.useIndex low).indexes

omit [DecidableEq κ] in
theorem incompatible_iff {r : Rebuild κ} (order : startBid ≤ stopBid)
    (fair : agrees r startBid stopBid = true) :
    incompatible r startBid stopBid = true ↔ startBid.toNat ≤ r.stopBlock.toNat ∧ r.startBlock.toNat ≤ stopBid.toNat := by
  have top : noEnd.toNat = 2 ^ 64 - 1 := rfl
  have bounds := And.intro startBid.isLt r.startBlock.isLt
  have order := BitVec.le_def.mp order
  rw [incompatible]
  by_cases endless : r.stopBlock = noEnd
  · rw [if_pos endless,endless,top]
    by_cases same : stopBid = noEnd
    · simp only [same,decide_true,Bool.true_or,true_iff]
      omega
    · simp only [same,decide_false,Bool.false_or,decide_eq_true_eq,BitVec.le_def]
      omega
  · rw [if_neg endless]
    by_cases same : stopBid = noEnd
    · have meet : startBid = r.stopBlock := by simpa [agrees,same,endless] using fair
      have last : stopBid.toNat = 2 ^ 64 - 1 := by rw [same,top]
      rw [if_pos same,meet]
      simp only [BitVec.le_refl,decide_true,true_iff]
      omega
    · rw [if_neg same]
      simp only [Bool.and_eq_true,decide_eq_true_eq,BitVec.le_def]

omit [DecidableEq κ] in
/-- Two areas that are not empty have a block in common when none ends before the other starts. -/
theorem covers_common {r s : Rebuild κ} (proper : r.startBlock.toNat ≤ r.stopBlock.toNat)
    (order : s.startBlock.toNat ≤ s.stopBlock.toNat) :
    (∃ b, r.covers b ∧ s.covers b) ↔
    s.startBlock.toNat ≤ r.stopBlock.toNat ∧ r.startBlock.toNat ≤ s.stopBlock.toNat := by
  have top : noEnd.toNat = 2 ^ 64 - 1 := rfl
  have bounds := And.intro s.startBlock.isLt r.startBlock.isLt
  constructor
  · rintro ⟨b,⟨low,high⟩,low',high'⟩
    constructor
    · rcases high with endless | last
      · rw [endless,top]
        omega
      · omega
    · rcases high' with endless | last
      · rw [endless,top]
        omega
      · omega
  · rintro ⟨first,second⟩
    refine ⟨max r.startBlock.toNat s.startBlock.toNat,⟨?_,.inr ?_⟩,?_,.inr ?_⟩
    all_goals omega

/-- What a regular start request is. -/
theorem regular_start (fair : regular st (.start fid startBid stopBid spare aged) = true) :
    fid.recycle = 0 ∧ startBid ≤ stopBid ∧
    (room st fid.key aged = true ∨ overlaps st fid.key startBid stopBid aged = true) ∧
    ∀ r ∈ st.accepted, r.fid.key = fid.key → aged r.ref = false → agrees (st.pool r.ref) startBid stopBid = true := by
  simp only [regular,Bool.and_eq_true,Bool.or_eq_true,decide_eq_true_eq,List.all_eq_true] at fair
  obtain ⟨⟨⟨counter,order⟩,space⟩,agree⟩ := fair
  refine ⟨counter,order,space,fun r member own young => ?_⟩
  rcases agree r member with (other | old) | fair
  · exact absurd own other
  · rw [young] at old
    cases old
  · exact fair

/-- The rebuild of a request. -/
def requested (fid : Fid κ) (startBid stopBid : BitVec 64) (spare : Bool) : Rebuild κ := ⟨some fid,spare,startBid,stopBid,0⟩

/-- There is a reference and a context for the request. -/
theorem room_iff (space : room st key aged = true) :
    (∃ i < maxFidParallelRebuild, ∀ r ∈ st.accepted, r.fid.key = key → r.index = i → aged r.ref = true) ∧
    (st.freeList ≠ [] ∨ ∃ ref < maxStorioParallelRebuild, aged ref = true) := by
  simp only [room,Bool.and_eq_true,Bool.or_eq_true,List.any_eq_true,List.all_eq_true,List.mem_range] at space
  obtain ⟨⟨i,low,free⟩,context⟩ := space
  refine ⟨⟨i,low,fun r member own here => ?_⟩,?_⟩
  · rcases free r member with away | old
    · exact absurd ⟨own,here⟩ (of_decide_eq_true away)
    · exact old
  · rcases context with some | old
    · exact .inl (by simpa using some)
    · exact .inr old

theorem overlaps_iff {fid : Fid κ} (exclusive : Exclusive st) (sized : (requested fid startBid stopBid spare).startBlock.toNat ≤
      (requested fid startBid stopBid spare).stopBlock.toNat)
    (meet : overlaps st key startBid stopBid aged = true) : ∃ r ∈ st.accepted, r.fid.key = key ∧ aged r.ref = false ∧
      ∃ b, (st.pool r.ref).covers b ∧ (requested fid startBid stopBid spare).covers b := by
  simp only [overlaps,List.any_eq_true,Bool.and_eq_true,decide_eq_true_eq,BitVec.le_def] at meet
  obtain ⟨r,member,⟨⟨own,young⟩,first⟩,second⟩ := meet
  have common : ∃ b, (st.pool r.ref).covers b ∧ (requested fid startBid stopBid spare).covers b := by
    rw [covers_common (exclusive.proper r member) sized]
    exact ⟨first,second⟩
  exact ⟨r,member,own,by simpa using young,common⟩

/-- A regular start request keeps areas apart, and is refused when it overlaps a live rebuild. -/
theorem Exclusive.start (exclusive : Exclusive st) (fair : regular st (.start fid startBid stopBid spare aged) = true) :
    Exclusive (rebuildStart fid startBid stopBid spare aged st).1 ∧
    ((rebuildStart fid startBid stopBid spare aged st).2 = none ↔
      ∃ r ∈ st.accepted, r.fid.key = fid.key ∧ aged r.ref = false ∧
        ∃ b, (st.pool r.ref).covers b ∧ (requested fid startBid stopBid spare).covers b) := by
  obtain ⟨counter,order,space,agree⟩ := regular_start fair
  have sized : (requested fid startBid stopBid spare).startBlock.toNat ≤ (requested fid startBid stopBid spare).stopBlock.toNat :=
    BitVec.le_def.mp order
  have lows : ∀ i ∈ List.range maxFidParallelRebuild, i < maxFidParallelRebuild := fun i member => List.mem_range.mp member
  have meets : ∀ r ∈ st.accepted, r.fid.key = fid.key → aged r.ref = false →
      (incompatible (st.pool r.ref) startBid stopBid = true ↔
        ∃ b, (st.pool r.ref).covers b ∧ (requested fid startBid stopBid spare).covers b) := by
    intro r member own young
    rw [covers_common (exclusive.proper r member) sized,
      incompatible_iff order (agree r member own young)]
    rfl
  have valid : ¬ (stopBid ≠ noEnd ∧ stopBid < startBid) := fun bad => BitVec.not_lt.mpr order bad.2
  have swept : Swept fid.key aged st (checkRebuilds fid.key startBid stopBid aged (List.range maxFidParallelRebuild) st none).1 :=
    checkRebuilds_swept exclusive lows
  rw [rebuildStart,if_neg valid]
  rcases outcome : checkRebuilds fid.key startBid stopBid aged (List.range maxFidParallelRebuild) st none with ⟨next,_ | _ | index⟩
  · obtain ⟨r,member,own,young,meet⟩ := checkRebuilds_refused exclusive lows (congrArg Prod.snd outcome)
    rw [outcome] at swept
    exact ⟨swept.exclusive,fun _ => ⟨r,member,own,young,(meets r member own young).mp meet⟩,fun _ => rfl⟩
  · obtain ⟨-,full⟩ := checkRebuilds_full exclusive lows (congrArg Prod.snd outcome)
    have passed := checkRebuilds_passed exclusive lows (congrArg Prod.snd outcome)
    rw [outcome] at swept
    -- all references are in use: the request is only regular when it overlaps a rebuild
    have overlap : ∃ r ∈ st.accepted, r.fid.key = fid.key ∧ aged r.ref = false ∧
        ∃ b, (st.pool r.ref).covers b ∧ (requested fid startBid stopBid spare).covers b := by
      rcases space with space | meet
      · obtain ⟨⟨i,low,free⟩,-⟩ := room_iff space
        obtain ⟨r,member,own,here,young⟩ := full i (List.mem_range.mpr low)
        rw [free r member own here] at young
        cases young
      · exact overlaps_iff exclusive sized meet
    exact ⟨swept.exclusive,fun _ => overlap,fun _ => rfl⟩
  · have passed := checkRebuilds_passed exclusive lows (congrArg Prod.snd outcome)
    have apart : ∀ r ∈ st.accepted, r.fid.key = fid.key → aged r.ref = false →
        ¬ ∃ b, (st.pool r.ref).covers b ∧ (requested fid startBid stopBid spare).covers b := by
      intro r member own young common
      have here := List.mem_range.mpr (exclusive.entry r member).1
      have meet := (meets r member own young).mpr common
      rw [passed r member own here young] at meet
      cases meet
    obtain ⟨low,vacant⟩ := checkRebuilds_selected exclusive lows (fun i none => by cases none) (congrArg Prod.snd outcome)
    have entries := checkRebuilds_entries exclusive lows (congrArg Prod.snd outcome)
    rw [outcome] at swept vacant entries
    simp only at swept vacant entries
    rcases allocation : ctxAllocate aged next with ⟨after,_ | ref⟩
    · -- a regular request has a context, unless it was refused before
      exfalso
      obtain ⟨empty,young⟩ := ctxAllocate_none (congrArg Prod.snd allocation)
      rcases space with space | meet
      · rcases (room_iff space).2 with free | ⟨ref,small,old⟩
        · exact swept.freed free empty
        · rw [young ref small] at old
          cases old
      · obtain ⟨r,member,own,young,common⟩ := overlaps_iff exclusive sized meet
        exact apart r member own young common
    · obtain ⟨kept,small,fresh,notFree,table,old,origin⟩ := ctxAllocate_some swept.exclusive allocation
      have unused : ∀ i < maxFidParallelRebuild, after.table fid.key i ≠ some ref := by
        intro i bound entry
        rw [table] at entry
        obtain ⟨young,mine⟩ := entries i (List.mem_range.mpr bound) ref entry
        rcases origin with free | old
        · rw [(swept.exclusive.context _ mine).2.1] at free
          cases free
        · rw [young] at old
          cases old
      have clear : ∀ s ∈ after.accepted, s.fid.key = fid.key → ∀ b, (after.pool s.ref).covers b →
          ¬ (requested fid startBid stopBid spare).covers b := by
        intro s member own b inside inside'
        obtain ⟨middle,same⟩ := old s member
        obtain ⟨before,same'⟩ := swept.old s middle
        have position := swept.exclusive.entry s middle
        rw [own] at position
        rw [same,same'] at inside
        have young := (entries s.index (List.mem_range.mpr position.1) s.ref position.2).1
        exact apart s before own young ⟨b,inside,inside'⟩
      simp only [allocation]
      refine ⟨?_,?_⟩
      · exact kept.fill fid ⟨some fid,spare,startBid,stopBid,after.starts⟩ rfl counter low (table ▸ vacant) small fresh notFree unused
          sized clear
      · constructor
        · intro none
          cases none
        · rintro ⟨r,member,own,young,common⟩
          exact absurd common (apart r member own young)

omit [DecidableEq κ] in
theorem stopIndex_lt (index : stopIndex rebuildRef = some i) (fair : stopIndex rebuildRef ≠ some maxFidParallelRebuild) :
    i < maxFidParallelRebuild := by
  have differ : i ≠ maxFidParallelRebuild := fun same => fair (same ▸ index)
  simp only [stopIndex] at index
  split at index
  · cases index
  · cases index
    omega

/-- The stop request of a rebuild. -/
theorem Exclusive.stop (exclusive : Exclusive st) (fair : stopIndex rebuildRef ≠ some maxFidParallelRebuild)
    (fid : Fid κ) (same relocated : Bool) : Exclusive (rebuildStop fid rebuildRef same relocated st) := by
  rw [rebuildStop]
  split
  · exact exclusive
  · split
    · exact exclusive
    · rename_i i index
      have used := exclusive.useIndex (stopIndex_lt index fair)
      simp only
      split
      · refine { used with stops := fun p member => ?_ }
        rcases List.mem_append.mp member with old | new
        · exact exclusive.stops p old
        · cases List.mem_singleton.mp new
          exact fair
      · exact used.stopEntry fid (stopIndex_lt index fair)

theorem exclusive_step (exclusive : Exclusive st) (a : Action κ) (fair : regular st a = true) (next : step a st = some st') :
    Exclusive st' := by
  cases a with
  | start fid startBid stopBid spare aged =>
    cases next
    exact (exclusive.start fair).1
  | write fid rebuildRef bid nbProj sender =>
    cases next
    rw [spWrite]
    split
    · exact exclusive
    · split
      · exact exclusive.clientWrite fid fair
      · rename_i some
        exact exclusive.rebuildWrite fid (by omega) fair
  | stop fid rebuildRef same relocated =>
    cases next
    exact exclusive.stop (of_decide_eq_true fair) fid same relocated
  | stopResponse =>
    simp only [step] at next
    split at next
    · cases next
    · rename_i fid rebuildRef rest pending
      have stops := exclusive.stops (fid,rebuildRef) (pending ▸ List.mem_cons_self)
      have left : Exclusive { st with stopping := rest } :=
        { exclusive with stops := fun p member => exclusive.stops p (pending ▸ List.mem_cons_of_mem _ member) }
      split at next
      · cases next
        exact left
      · rename_i i index
        cases next
        exact (left.useIndex (stopIndex_lt index stops)).stopEntry fid (stopIndex_lt index stops)

/-- In every run of regular requests: two rebuilds of a file that are accepted and did not end have
no common block, a request is refused when it overlaps a live rebuild of the file and only then,
and the indexes used are those of references. -/
theorem rebuilds_disjoint (run : Machine.Run step (fun st a => regular st a = true) (init κ) st) :
    (∀ r ∈ st.accepted, ∀ s ∈ st.accepted, r.fid.key = s.fid.key → r ≠ s →
      ∀ b, (st.pool r.ref).covers b → ¬ (st.pool s.ref).covers b) ∧
    (∀ fid startBid stopBid spare aged, regular st (.start fid startBid stopBid spare aged) = true →
      ((rebuildStart fid startBid stopBid spare aged st).2 = none ↔
        ∃ r ∈ st.accepted, r.fid.key = fid.key ∧ aged r.ref = false ∧
          ∃ b, (st.pool r.ref).covers b ∧ (requested fid startBid stopBid spare).covers b)) ∧
    ∀ i ∈ st.indexes, i < maxFidParallelRebuild := by
  have exclusive : Exclusive st :=
    run.invariant Exclusive exclusive_init fun st a st' exclusive fair next => exclusive_step exclusive a fair next
  exact ⟨exclusive.disjoint,fun fid startBid stopBid spare aged fair => (exclusive.start fair).2,exclusive.indexes⟩

end Exclusion

/-- A rebuild up to block 9 and one of the blocks after, which a client write cut. -/
theorem rebuilds_disjoint_two : ∃ st : State Nat,
    st.accepted = [⟨⟨7,0⟩,6,62⟩,⟨⟨7,0⟩,7,63⟩] ∧ (∀ b, (st.pool 62).covers b → ¬ (st.pool 63).covers b) ∧
    (rebuildStart ⟨7,0⟩ 5 8 false (fun _ => false) st).2 = none := by
  have done : (Machine.exec step (fun st a => regular st a = true)
      [.start ⟨7,0⟩ 10 noEnd false fun _ => false,.start ⟨7,0⟩ 0 9 false fun _ => false,.write ⟨7,0⟩ 0 20 2 0] (init Nat)).map
      (fun st => (st.accepted,((st.pool 62).startBlock,(st.pool 62).stopBlock),
        regular st (.start ⟨7,0⟩ 5 8 false fun _ => false))) =
      some ([⟨⟨7,0⟩,6,62⟩,⟨⟨7,0⟩,7,63⟩],(0,9),true) := by decide +kernel
  obtain ⟨st,done,seen⟩ := Option.map_eq_some_iff.mp done
  obtain ⟨accepted,area,fair⟩ := by simpa only [Prod.mk.injEq] using seen
  obtain ⟨disjoint,refused,-⟩ := rebuilds_disjoint (Machine.Run.refl.exec done)
  refine ⟨st,accepted,?_,(refused ⟨7,0⟩ 5 8 false _ fair).mpr ?_⟩
  · exact disjoint ⟨⟨7,0⟩,6,62⟩ (by simp [accepted]) ⟨⟨7,0⟩,7,63⟩ (by simp [accepted]) rfl (by decide)
  · refine ⟨⟨⟨7,0⟩,6,62⟩,by simp [accepted],rfl,rfl,5,⟨?_,.inr ?_⟩,by decide,.inr (by decide)⟩
    · simp [area.1]
    · simp [area.2]

/-- A rebuild without end is accepted with one of blocks 0 to 100, and so are two rebuilds of one
area with another recycle counter than 0. A stop request uses a reference that does not exist. -/
theorem endless_rebuild_accepted : ∃ st st' : State Nat,
    Machine.Run step (fun _ _ => True) (init Nat) st ∧
    (∃ r ∈ st.accepted, ∃ s ∈ st.accepted, r.fid.key = s.fid.key ∧ r ≠ s ∧
      ∃ b, (st.pool r.ref).covers b ∧ (st.pool s.ref).covers b) ∧
    Machine.Run step (fun _ _ => True) (init Nat) st' ∧
    (∃ r ∈ st'.accepted, ∃ s ∈ st'.accepted, r.fid.key = s.fid.key ∧ r ≠ s ∧
      ∃ b, (st'.pool r.ref).covers b ∧ (st'.pool s.ref).covers b) ∧
    maxFidParallelRebuild ∈ st'.indexes := by
  have done : (Machine.exec step (fun _ _ => True)
      [.start ⟨7,0⟩ 0 100 false fun _ => false,.start ⟨7,0⟩ 0 noEnd false fun _ => false] (init Nat)).map
      (fun st => (st.accepted,((st.pool 63).startBlock,(st.pool 63).stopBlock),((st.pool 62).startBlock,(st.pool 62).stopBlock))) =
      some ([⟨⟨7,0⟩,6,62⟩,⟨⟨7,0⟩,7,63⟩],(0,100),(0,noEnd)) := by decide +kernel
  have done' : (Machine.exec step (fun _ _ => True)
      [.start ⟨7,1⟩ 0 100 false fun _ => false,.start ⟨7,1⟩ 0 100 false fun _ => false,.stop ⟨7,1⟩ 9 true false] (init Nat)).map
      (fun st => (st.accepted,st.indexes,((st.pool 63).startBlock,(st.pool 63).stopBlock),((st.pool 62).startBlock,(st.pool 62).stopBlock))) =
      some ([⟨⟨7,1⟩,7,62⟩,⟨⟨7,1⟩,7,63⟩],[8,7,7],(0,100),(0,100)) := by decide +kernel
  obtain ⟨st,done,seen⟩ := Option.map_eq_some_iff.mp done
  obtain ⟨st',done',seen'⟩ := Option.map_eq_some_iff.mp done'
  obtain ⟨accepted,⟨low,high⟩,low',high'⟩ := by simpa only [Prod.mk.injEq] using seen
  obtain ⟨accepted',index,⟨low₁,high₁⟩,low₂,high₂⟩ := by simpa only [Prod.mk.injEq] using seen'
  refine ⟨st,st',Machine.Run.refl.exec done,⟨⟨⟨7,0⟩,6,62⟩,?_,⟨⟨7,0⟩,7,63⟩,?_,rfl,by decide,50,?_⟩,
    Machine.Run.refl.exec done',⟨⟨⟨7,1⟩,7,62⟩,?_,⟨⟨7,1⟩,7,63⟩,?_,rfl,by decide,50,?_⟩,?_⟩
  · simp [accepted]
  · simp [accepted]
  · simp [Rebuild.covers,low,high,low',high']
  · simp [accepted']
  · simp [accepted']
  · simp [Rebuild.covers,low₁,high₁,low₂,high₂]
  · simp [index,maxFidParallelRebuild]

end Rozofs.RebuildTable
