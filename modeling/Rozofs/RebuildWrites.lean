import Rozofs.RebuildTable

/-! A rebuild does not write over blocks that clients wrote since it started: they are out of the
area of its context, which only gets smaller. -/
namespace Rozofs.RebuildTable
open Function (update)

section Numbers

theorem wide_toNat (x : BitVec 32) : (wide x).toNat = if x.toNat < 2 ^ 31 then x.toNat else x.toNat + (2 ^ 64 - 2 ^ 32) := by
  have bound := x.isLt
  have sign := BitVec.msb_eq_decide x
  rw [wide,BitVec.toNat_signExtend,BitVec.toNat_setWidth,sign]
  by_cases small : x.toNat < 2 ^ 31
  · rw [decide_eq_false (by omega),if_pos small,if_neg Bool.false_ne_true]
    omega
  · rw [decide_eq_true (by omega),if_neg small,if_pos rfl]
    omega

theorem writeFirst_toNat (small : bid.toNat < 2 ^ 31) : (writeFirst bid).toNat = bid.toNat := by
  rw [writeFirst,BitVec.toNat_setWidth]
  omega

theorem wide_first (small : bid.toNat < 2 ^ 31) : (wide (writeFirst bid)).toNat = bid.toNat := by
  rw [wide_toNat,writeFirst_toNat small,if_pos small]

theorem wide_pred (some : x ≠ 0) : (wide (x - 1)).toNat < (wide x).toNat := by
  have bound := x.isLt
  have pos : x.toNat ≠ 0 := fun zero => some (BitVec.eq_of_toNat_eq zero)
  have pred : (x - 1).toNat = x.toNat - 1 := by
    have one : (1 : BitVec 32).toNat = 1 := rfl
    rw [BitVec.toNat_sub,one]
    omega
  rw [wide_toNat,wide_toNat,pred]
  split <;> split <;> omega

theorem writeFirst_ne_zero (low : start < wide (writeFirst bid)) : writeFirst bid ≠ 0 := by
  intro zero
  have low := BitVec.lt_def.mp low
  rw [zero,show (wide 0).toNat = 0 from rfl] at low
  exact absurd low (Nat.not_lt_zero _)

/-- A file has at most 2^31 blocks: 128 chunks of 64 GiB in blocks of 4 KiB or more. -/
def maxBlocks : Nat := 2 ^ 31

/-- The blocks of a write that a file can have. -/
def writes (w : BitVec 64 × BitVec 32) (b : Nat) : Prop :=
  w.1.toNat ≤ b ∧ b < w.1.toNat + w.2.toNat ∧ b < maxBlocks

instance (w : BitVec 64 × BitVec 32) (b : Nat) : Decidable (writes w b) := inferInstanceAs (Decidable (_ ∧ _ ∧ _))

/-- The last block of a write, in a comparison, is not below its blocks. -/
theorem le_wide_last (inside : writes (bid,nbProj) b) (sized : nbProj.toNat ≤ maxBlocks) :
    b ≤ (wide (writeLast bid nbProj)).toNat := by
  obtain ⟨first,last,small⟩ := inside
  simp only [maxBlocks] at sized small first last
  have below : bid.toNat < 2 ^ 31 := by omega
  have start := writeFirst_toNat below
  have value : (writeLast bid nbProj).toNat = bid.toNat + nbProj.toNat - 1 := by
    have one : (1 : BitVec 32).toNat = 1 := rfl
    rw [writeLast,BitVec.toNat_sub,BitVec.toNat_add,start,one]
    omega
  rw [wide_toNat,value]
  split <;> omega

end Numbers

section Narrowing
variable {κ : Type} {st st' st'' : State κ}

/-- The blocks of the area of a rebuild. -/
def Rebuild.covers (r : Rebuild κ) (b : Nat) : Prop :=
  r.startBlock.toNat ≤ b ∧ (r.stopBlock = noEnd ∨ b ≤ r.stopBlock.toNat)

/-- The other context is reset, or it is the same rebuild with a part of its area. -/
def Rebuild.Narrows (r r' : Rebuild κ) : Prop :=
  r'.fid = none ∨ r'.fid = r.fid ∧ r'.serial = r.serial ∧ ∀ b, r'.covers b → r.covers b

theorem Rebuild.Narrows.refl (r : Rebuild κ) : r.Narrows r := .inr ⟨rfl,rfl,fun _ inside => inside⟩

theorem Rebuild.Narrows.trans {r r' r'' : Rebuild κ} (first : r.Narrows r') (second : r'.Narrows r'') : r.Narrows r'' := by
  rcases second with none | ⟨fid,serial,covers⟩
  · exact .inl none
  · rcases first with none | ⟨fid',serial',covers'⟩
    · exact .inl (fid.trans none)
    · exact .inr ⟨fid.trans fid',serial.trans serial',fun b inside => covers' b (covers b inside)⟩

/-- Contexts narrow and references are reset. -/
structure Narrows (st st' : State κ) : Prop where
  pool : ∀ ref, (st.pool ref).Narrows (st'.pool ref)
  table : ∀ key i, st'.table key i = none ∨ st'.table key i = st.table key i
  starts : st'.starts = st.starts
  clientWrites : st'.clientWrites = st.clientWrites

theorem Narrows.refl (st : State κ) : Narrows st st := ⟨fun _ => .refl _,fun _ _ => .inr rfl,rfl,rfl⟩

theorem Narrows.trans (first : Narrows st st') (second : Narrows st' st'') : Narrows st st'' := by
  refine ⟨fun ref => (first.pool ref).trans (second.pool ref),fun key i => ?_,second.starts.trans first.starts,
    second.clientWrites.trans first.clientWrites⟩
  rcases second.table key i with none | same
  · exact .inl none
  · rw [same]
    exact first.table key i

theorem narrows_pool (ref : Nat) (r : Rebuild κ) (narrow : (st.pool ref).Narrows r) :
    Narrows st { st with pool := update st.pool ref r } := by
  refine ⟨fun other => ?_,fun _ _ => .inr rfl,rfl,rfl⟩
  by_cases eq : other = ref
  · subst eq
    simpa using narrow
  · simpa [eq] using Rebuild.Narrows.refl _

theorem narrows_ctxFree (ref : Nat) (st : State κ) : Narrows st (ctxFree ref st) :=
  ⟨(narrows_pool ref (.reset κ) (.inl rfl)).pool,fun _ _ => .inr rfl,rfl,rfl⟩

theorem narrows_ctxAllocate (aged : Nat → Bool) (st : State κ) : Narrows st (ctxAllocate aged st).1 := by
  rw [ctxAllocate]
  split
  · rename_i ref rest _
    exact ⟨(narrows_pool ref (.reset κ) (.inl rfl)).pool,fun _ _ => .inr rfl,rfl,rfl⟩
  · simp only
    split
    · exact .refl st
    · rename_i ref _
      exact ⟨(narrows_pool ref (.reset κ) (.inl rfl)).pool,fun _ _ => .inr rfl,rfl,rfl⟩

variable [DecidableEq κ]

theorem narrows_setEntry (key : κ) (i : Nat) (st : State κ) : Narrows st (setEntry key i none st) := by
  refine ⟨fun _ => .refl _,fun other j => ?_,rfl,rfl⟩
  by_cases eq : other = key
  · subst eq
    by_cases same : j = i
    · exact .inl (by simp [setEntry,same])
    · exact .inr (by simp [setEntry,same])
  · exact .inr (by simp [setEntry,eq])

theorem narrows_endEntry (key : κ) (i : Nat) (st : State κ) : Narrows st (endEntry key i st) :=
  ⟨(narrows_setEntry key i st).pool,(narrows_setEntry key i st).table,rfl,rfl⟩

theorem narrows_checkRebuilds (key : κ) (startBid stopBid : BitVec 64) (aged : Nat → Bool) (is : List Nat)
    (st : State κ) (selected : Option Nat) : Narrows st (checkRebuilds key startBid stopBid aged is st selected).1 := by
  induction is generalizing st selected with
  | nil => exact .refl st
  | cons i rest ih =>
    rw [checkRebuilds]
    split
    · exact ih st (some i)
    · split
      · exact (narrows_setEntry key i st).trans (ih _ _)
      · split
        · exact ((narrows_ctxFree _ st).trans (narrows_endEntry key i _)).trans (ih _ _)
        · split
          · exact .refl st
          · exact ih st selected

theorem narrows_stopEntry (fid : Fid κ) (i : Nat) (st : State κ) : Narrows st (stopEntry fid i st) := by
  rw [stopEntry]
  split
  · exact .refl st
  · split
    · exact narrows_endEntry _ _ st
    · exact (narrows_ctxFree _ st).trans (narrows_endEntry _ _ _)

theorem narrows_rebuildStop (fid : Fid κ) (rebuildRef : BitVec 32) (same relocated : Bool) (st : State κ) :
    Narrows st (rebuildStop fid rebuildRef same relocated st) := by
  rw [rebuildStop]
  split
  · exact .refl st
  · split
    · exact .refl st
    · rename_i i _
      simp only
      split
      · exact ⟨fun _ => .refl _,fun _ _ => .inr rfl,rfl,rfl⟩
      · have narrow := narrows_stopEntry fid i { st with indexes := i :: st.indexes }
        exact ⟨narrow.pool,narrow.table,narrow.starts,narrow.clientWrites⟩

/-- A lookup gives the context it looked up, with the FID. -/
theorem retrieve_some (found : retrieve st ref fid = some r) :
    ref = some r ∧ r < maxStorioParallelRebuild ∧ (st.pool r).fid = some fid := by
  simp only [retrieve] at found
  split at found
  · cases found
  · split at found
    · rename_i good
      cases found
      exact ⟨rfl,good⟩
    · cases found

omit [DecidableEq κ] in
/-- The area of a rebuild gets smaller when a client write cuts it. -/
theorem covers_cut (r : Rebuild κ) (low : r.startBlock < wide (writeFirst bid))
    (high : r.stopBlock = noEnd ∨ wide (writeFirst bid) ≤ r.stopBlock)
    (inside : Rebuild.covers { r with stopBlock := wide (writeFirst bid - 1) } b) : r.covers b := by
  have below := wide_pred (writeFirst_ne_zero low)
  refine ⟨inside.1,?_⟩
  rcases high with noStop | stop
  · exact .inl noStop
  · have last := BitVec.le_def.mp stop
    rcases inside.2 with same | le
    · simp only at same
      rw [same] at below
      have top := (wide (writeFirst bid)).isLt
      simp only [noEnd,BitVec.toNat_allOnes] at below
      omega
    · exact .inr (by simp only at le; omega)

theorem narrows_writeEntry (fid : Fid κ) (bid : BitVec 64) (nbProj : BitVec 32) (st : State κ) (i : Nat) :
    Narrows st (writeEntry fid bid nbProj st i) := by
  rw [writeEntry]
  split
  · exact .refl st
  · split
    · exact narrows_endEntry _ _ st
    · rename_i ref _
      simp only
      split
      · rename_i cut
        exact narrows_pool ref _ (.inr ⟨rfl,rfl,fun b inside => covers_cut _ cut.1 cut.2 inside⟩)
      · split
        · exact (narrows_ctxFree _ st).trans (narrows_endEntry _ _ _)
        · exact .refl st

theorem narrows_rebuildWrite (fid : Fid κ) (i : Nat) (bid : BitVec 64) (nbProj : BitVec 32) (st : State κ) :
    Narrows st (rebuildWrite fid i bid nbProj st).1 := by
  rw [rebuildWrite]
  simp only
  split
  · have narrow := narrows_endEntry fid.key i { st with indexes := i :: st.indexes }
    exact ⟨narrow.pool,narrow.table,narrow.starts,narrow.clientWrites⟩
  · rename_i ref _
    split
    · have narrow := (narrows_ctxFree ref { st with indexes := i :: st.indexes }).trans (narrows_endEntry fid.key i _)
      exact ⟨narrow.pool,narrow.table,narrow.starts,narrow.clientWrites⟩
    · rename_i inside
      have raised : (st.pool ref).startBlock ≤ wide (writeFirst bid) := by
        simp only [not_or,BitVec.not_lt] at inside
        exact inside.2
      have smaller : (st.pool ref).Narrows { st.pool ref with startBlock := wide (writeFirst bid) } :=
        .inr ⟨rfl,rfl,fun b inside => ⟨Nat.le_trans (BitVec.le_def.mp raised) inside.1,inside.2⟩⟩
      exact ⟨(narrows_pool ref _ smaller).pool,fun _ _ => .inr rfl,rfl,rfl⟩

end Narrowing

section Sparing
variable {κ : Type} {st st' : State κ}

/-- The rebuild of a reference does not cover the blocks of a write. -/
def Spared (st : State κ) (key : κ) (i : Nat) (w : BitVec 64 × BitVec 32) : Prop :=
  ∀ ref fid, st.table key i = some ref → (st.pool ref).fid = some fid → fid.key = key →
    ∀ b, writes w b → ¬ (st.pool ref).covers b

/-- A client wrote a block of a file since a rebuild started. -/
def WrittenSince (st : State κ) (key : κ) (serial b : Nat) : Prop :=
  ∃ w ∈ st.clientWrites, w.key = key ∧ serial < w.starts ∧ writes (w.bid,w.nbProj) b

/-- No rebuild in progress covers a block that a client wrote since it started. -/
structure Clear (st : State κ) : Prop where
  spared : ∀ key, ∀ i < maxFidParallelRebuild, ∀ ref fid, st.table key i = some ref → (st.pool ref).fid = some fid →
    fid.key = key → ∀ b, WrittenSince st key (st.pool ref).serial b → ¬ (st.pool ref).covers b
  past : ∀ w ∈ st.clientWrites, w.starts ≤ st.starts

theorem Narrows.spared (narrow : Narrows st st') (spared : Spared st key i w) : Spared st' key i w := by
  intro ref fid entry context same b written inside
  rcases narrow.table key i with none | old
  · rw [none] at entry
    cases entry
  · rcases narrow.pool ref with none | ⟨before,-,covers⟩
    · rw [none] at context
      cases context
    · exact spared ref fid (old ▸ entry) (before ▸ context) same b written (covers b inside)

theorem Narrows.clear (narrow : Narrows st st') (clear : Clear st) : Clear st' := by
  constructor
  · intro key i low ref fid entry context same b written inside
    rcases narrow.table key i with none | old
    · rw [none] at entry
      cases entry
    · rcases narrow.pool ref with none | ⟨before,serial,covers⟩
      · rw [none] at context
        cases context
      · rw [WrittenSince,narrow.clientWrites,serial] at written
        exact clear.spared key i low ref fid (old ▸ entry) (before ▸ context) same b written (covers b inside)
  · rw [narrow.clientWrites,narrow.starts]
    exact clear.past

variable [DecidableEq κ]

/-- The rebuild that a client write met does not cover the blocks it wrote. -/
theorem writeEntry_spared (fid : Fid κ) (sized : nbProj.toNat ≤ maxBlocks) (st : State κ) (i : Nat) :
    Spared (writeEntry fid bid nbProj st i) fid.key i (bid,nbProj) := by
  intro ref other entry context same b written inside
  have last := le_wide_last written sized
  have small : bid.toNat < 2 ^ 31 := Nat.lt_of_le_of_lt written.1 written.2.2
  have first := wide_first small
  have gone : ∀ st : State κ, (endEntry fid.key i st).table fid.key i = none := by simp [endEntry,setEntry]
  cases found : st.table fid.key i with
  | none => simp [writeEntry,found] at entry
  | some ref' =>
    cases looked : retrieve st (some ref') fid with
    | none =>
      simp only [writeEntry,found,looked,gone] at entry
      cases entry
    | some ref'' =>
      obtain ⟨eq,-,-⟩ := retrieve_some looked
      cases eq
      simp only [writeEntry,found,looked] at entry context inside
      split at entry
      · rename_i cut
        cases found.symm.trans entry
        rw [if_pos cut] at inside
        have below := wide_pred (writeFirst_ne_zero cut.1)
        have bound := written.1
        simp only [Function.update_self,Rebuild.covers] at inside
        rcases inside.2 with noStop | stop
        · rw [noStop] at below
          simp only [noEnd,BitVec.toNat_allOnes] at below
          omega
        · simp only at bound
          omega
      · rename_i notCut
        split at entry
        · rw [gone] at entry
          cases entry
        · rename_i notBroken
          cases found.symm.trans entry
          rw [if_neg notCut,if_neg notBroken] at inside
          have bound := written.1
          simp only [BitVec.lt_def,BitVec.le_def,first] at notCut notBroken
          obtain ⟨low,high⟩ := inside
          by_cases before : (st.pool ref).startBlock.toNat < bid.toNat
          · rcases high with noStop | stop
            · exact notCut ⟨before,.inl noStop⟩
            · exact notCut ⟨before,.inr (Nat.le_trans bound stop)⟩
          · exact notBroken ⟨Nat.le_of_not_lt before,Nat.le_trans low last⟩

theorem clientWrite_spared (fid : Fid κ) (bid : BitVec 64) (sized : nbProj.toNat ≤ maxBlocks) (is : List Nat) (st : State κ) :
    Narrows st (is.foldl (writeEntry fid bid nbProj) st) ∧
    ∀ i ∈ is, Spared (is.foldl (writeEntry fid bid nbProj) st) fid.key i (bid,nbProj) := by
  induction is generalizing st with
  | nil => exact ⟨.refl st,fun _ member => by cases member⟩
  | cons i rest ih =>
    obtain ⟨narrow,spared⟩ := ih (writeEntry fid bid nbProj st i)
    refine ⟨(narrows_writeEntry fid bid nbProj st i).trans narrow,fun j member => ?_⟩
    rcases List.mem_cons.mp member with rfl | later
    · exact narrow.spared (writeEntry_spared fid sized st j)
    · exact spared j later

theorem clear_clientWrite (clear : Clear st) (fid : Fid κ) (sized : nbProj.toNat ≤ maxBlocks) :
    Clear (clientWrite fid bid nbProj st) := by
  obtain ⟨narrow,spared⟩ := clientWrite_spared fid bid sized (List.range maxFidParallelRebuild)
    { st with clientWrites := ⟨fid.key,bid,nbProj,st.starts⟩ :: st.clientWrites }
  rw [clientWrite]
  constructor
  · intro key i low ref owner entry context same b written inside
    rcases narrow.table key i with none | old
    · exact absurd (none.symm.trans entry) (by simp)
    rcases narrow.pool ref with none | ⟨before,serial,covers⟩
    · exact absurd (none.symm.trans context) (by simp)
    rw [WrittenSince,narrow.clientWrites,serial] at written
    obtain ⟨w,member,own,since,block⟩ := written
    rcases List.mem_cons.mp member with rfl | older
    · -- the write itself: the references of its file were compared with it
      have here : fid.key = key := own
      rw [← here] at entry same
      exact spared i (List.mem_range.mpr low) ref owner entry context same b block inside
    · exact clear.spared key i low ref owner (old.symm.trans entry) (before.symm.trans context) same b ⟨w,older,own,since,block⟩
        (covers b inside)
  · rw [narrow.clientWrites,narrow.starts]
    intro w member
    rcases List.mem_cons.mp member with rfl | older
    · exact Nat.le_refl _
    · exact clear.past w older

theorem clear_start (clear : Clear st) (fid : Fid κ) (startBid stopBid : BitVec 64) (spare : Bool) (aged : Nat → Bool) :
    Clear (rebuildStart fid startBid stopBid spare aged st).1 := by
  rw [rebuildStart]
  split
  · exact clear
  · have checked := narrows_checkRebuilds fid.key startBid stopBid aged (List.range maxFidParallelRebuild) st none
    generalize checkRebuilds fid.key startBid stopBid aged (List.range maxFidParallelRebuild) st none = outcome at checked
    obtain ⟨next,selection⟩ := outcome
    rcases selection with _ | _ | index
    · exact checked.clear clear
    · exact checked.clear clear
    · have allocated := checked.trans (narrows_ctxAllocate aged next)
      simp only
      generalize ctxAllocate aged next = outcome at allocated
      obtain ⟨after,_ | ref⟩ := outcome
      · exact allocated.clear clear
      · have before := allocated.clear clear
        simp only at before
        refine ⟨?_,fun w member => Nat.le_succ_of_le (before.past w member)⟩
        intro key i low other owner entry context same b written inside
        by_cases fresh : other = ref
        · -- the new rebuild: all the client writes are older
          subst fresh
          obtain ⟨w,member,-,since,-⟩ := written
          simp only [setEntry,Function.update_self] at since
          exact Nat.lt_irrefl _ (Nat.lt_of_lt_of_le since (before.past w member))
        · have old : after.table key i = some other := by
            simp only [setEntry] at entry
            by_cases here : key = fid.key
            · subst here
              by_cases own : i = index
              · rw [own] at entry
                simp only [Function.update_self,Option.some.injEq] at entry
                exact absurd entry.symm fresh
              · simpa [own] using entry
            · simpa [here] using entry
          simp only [WrittenSince,setEntry,Function.update_of_ne fresh] at context written inside
          exact before.spared key i low other owner old context same b written inside

/-- A write has at most as many blocks as a file. -/
def Action.sized : Action κ → Bool
  | .write _ _ _ nbProj _ => nbProj.toNat ≤ maxBlocks
  | _ => true

theorem clear_step (clear : Clear st) (a : Action κ) (sized : a.sized = true) (next : step a st = some st') : Clear st' := by
  cases a with
  | start fid startBid stopBid spare aged =>
    cases next
    exact clear_start clear fid startBid stopBid spare aged
  | write fid rebuildRef bid nbProj sender =>
    cases next
    rw [spWrite]
    split
    · exact clear
    · split
      · exact clear_clientWrite clear fid (of_decide_eq_true sized)
      · exact (narrows_rebuildWrite fid _ bid nbProj st).clear clear
  | stop fid rebuildRef same relocated =>
    cases next
    exact (narrows_rebuildStop fid rebuildRef same relocated st).clear clear
  | stopResponse =>
    simp only [step] at next
    split at next
    · cases next
    · rename_i fid rebuildRef rest _
      split at next
      · cases next
        exact ⟨clear.spared,clear.past⟩
      · rename_i i _
        cases next
        have narrow := narrows_stopEntry fid i { st with stopping := rest, indexes := i :: st.indexes }
        exact narrow.clear ⟨clear.spared,clear.past⟩

/-- Between the starts of its rebuild and of the one whose context it meets, no client wrote a block of a rebuild write.
It is so when the reference of the write still leads to the context of its rebuild. -/
def Undisturbed (st : State κ) (fid : Fid κ) (sender ref : Nat) (bid : BitVec 64) (nbProj : BitVec 32) : Prop :=
  ∀ w ∈ st.clientWrites, w.key = fid.key → sender < w.starts → w.starts ≤ (st.pool ref).serial →
    ∀ b, writes (bid,nbProj) b → ¬ writes (w.bid,w.nbProj) b

omit [DecidableEq κ] in
theorem undisturbed_own (fid : Fid κ) (ref : Nat) (bid : BitVec 64) (nbProj : BitVec 32) (own : (st.pool ref).serial = sender) :
    Undisturbed st fid sender ref bid nbProj := by
  intro w _ _ since before
  omega

/-- What is known of a rebuild write that is accepted: the context that its reference leads to covers its blocks. -/
theorem rebuildWrite_covers (fid : Fid κ) (sized : nbProj.toNat ≤ maxBlocks) (accepted : (rebuildWrite fid i bid nbProj st).2 = some ref) :
    (st.pool ref).fid = some fid ∧ st.table fid.key i = some ref ∧ ∀ b, writes (bid,nbProj) b → (st.pool ref).covers b := by
  rw [rebuildWrite] at accepted
  simp only at accepted
  split at accepted
  · cases accepted
  · rename_i found
    obtain ⟨entry,-,context⟩ := retrieve_some found
    split at accepted
    · cases accepted
    · rename_i inside
      cases accepted
      refine ⟨context,entry,fun b written => ?_⟩
      have small : bid.toNat < 2 ^ 31 := Nat.lt_of_le_of_lt written.1 written.2.2
      have last := le_wide_last written sized
      simp only [not_or,not_and,BitVec.not_lt,BitVec.le_def,wide_first small] at inside
      refine ⟨Nat.le_trans inside.2 written.1,?_⟩
      by_cases noStop : (st.pool ref).stopBlock = noEnd
      · exact .inl noStop
      · exact .inr (Nat.le_trans last (inside.1 noStop))

/-- In every run: a rebuild in progress does not cover a block that a client wrote since it
started, and a rebuild write that is accepted spares the blocks that clients wrote since its rebuild
started exactly when they wrote none of its blocks before the rebuild whose context it meets. -/
theorem rebuild_spares_client_data (run : Machine.Run step (fun _ a => a.sized = true) (init κ) st) :
    (∀ key, ∀ i < maxFidParallelRebuild, ∀ ref fid, st.table key i = some ref → (st.pool ref).fid = some fid →
      fid.key = key → ∀ b, WrittenSince st key (st.pool ref).serial b → ¬ (st.pool ref).covers b) ∧
    ∀ fid, ∀ i < maxFidParallelRebuild, ∀ bid nbProj sender ref, nbProj.toNat ≤ maxBlocks →
      (rebuildWrite fid i bid nbProj st).2 = some ref →
      ((∀ b, writes (bid,nbProj) b → ¬ WrittenSince st fid.key sender b) ↔ Undisturbed st fid sender ref bid nbProj) := by
  have clear : Clear st := by
    refine run.invariant Clear ⟨?_,?_⟩ fun st a st' clear sized next => clear_step clear a sized next
    · intro key i _ ref fid entry
      cases entry
    · intro w member
      cases member
  refine ⟨clear.spared,fun fid i low bid nbProj sender ref sized accepted => ⟨?_,?_⟩⟩
  · intro spared w member own since _ b block written
    exact spared b block ⟨w,member,own,since,written⟩
  · rintro undisturbed b block ⟨w,member,own,since,written⟩
    obtain ⟨context,entry,covers⟩ := rebuildWrite_covers fid sized accepted
    by_cases before : w.starts ≤ (st.pool ref).serial
    · exact undisturbed w member own since before b block written
    · exact clear.spared fid.key i low ref fid entry context rfl b ⟨w,member,own,Nat.lt_of_not_le before,written⟩ (covers b block)

end Sparing

/-- A client writes in the area of a rebuild without end; the rebuild goes on below. -/
theorem rebuild_spares_client_data_cut : ∃ st : State Nat,
    ((st.pool 63).startBlock,(st.pool 63).stopBlock,(st.pool 63).serial) = (4,9,0) ∧
    (rebuildWrite ⟨7,1⟩ 7 6 3 st).2 = some 63 ∧ WrittenSince st 7 0 10 ∧
    ∀ b, writes (6,3) b → ¬ WrittenSince st 7 0 b := by
  have done : (Machine.exec step (fun _ a => a.sized = true)
      [.start ⟨7,1⟩ 0 noEnd false fun _ => false,.write ⟨7,1⟩ 8 0 4 0,.write ⟨7,1⟩ 0 10 2 0,.write ⟨7,1⟩ 8 4 2 0] (init Nat)).map
      (fun st => (((st.pool 63).startBlock,(st.pool 63).stopBlock,(st.pool 63).serial),(rebuildWrite ⟨7,1⟩ 7 6 3 st).2,
        st.clientWrites)) = some ((4,9,0),some 63,[⟨7,10,2,1⟩]) := by decide +kernel
  obtain ⟨st,done,seen⟩ := Option.map_eq_some_iff.mp done
  obtain ⟨area,seen⟩ := Prod.mk.inj seen
  obtain ⟨accepted,clients⟩ := Prod.mk.inj seen
  refine ⟨st,area,accepted,⟨⟨7,10,2,1⟩,by rw [clients]; exact List.mem_singleton.mpr rfl,rfl,by decide,by decide⟩,?_⟩
  refine ((rebuild_spares_client_data (Machine.Run.refl.exec done)).2 ⟨7,1⟩ 7 (by decide) 6 3 0 63 (by decide) accepted).mpr ?_
  exact undisturbed_own _ _ _ _ (congrArg (fun area => area.2.2) area)

/-- A client write breaks a rebuild, a second rebuild gets its reference, and a late write of the first one is accepted
over the blocks of the client. -/
theorem late_write_accepted : ∃ st : State Nat, Machine.Run step (fun _ a => a.sized = true) (init Nat) st ∧
    (rebuildWrite ⟨7,1⟩ 7 0 2 st).2 = some 63 ∧ writes (0,2) 1 ∧ WrittenSince st 7 0 1 := by
  have done : (Machine.exec step (fun _ a => a.sized = true)
      [.start ⟨7,1⟩ 0 noEnd false fun _ => false,.write ⟨7,1⟩ 0 0 4 0,.start ⟨7,1⟩ 0 noEnd false fun _ => false] (init Nat)).map
      (fun st => ((rebuildWrite ⟨7,1⟩ 7 0 2 st).2,st.clientWrites)) = some (some 63,[⟨7,0,4,1⟩]) := by decide +kernel
  obtain ⟨st,done,seen⟩ := Option.map_eq_some_iff.mp done
  obtain ⟨accepted,clients⟩ := Prod.mk.inj seen
  exact ⟨st,Machine.Run.refl.exec done,accepted,by decide,⟨7,0,4,1⟩,by rw [clients]; exact List.mem_singleton.mpr rfl,rfl,
    by decide,by decide⟩

end Rozofs.RebuildTable
