import Rozofs.WriteRetry
import Mathlib.Data.List.Nodup

/-! Storages given to the projections of a write request. A storage once given to a projection
stays marked in the association table, so that no other projection gets it, whatever the
retries and the late responses. -/
namespace Rozofs.WriteAssignment
open WriteRequest
open Function (update)

/-- The projection is on the storage: in its context, in a transaction in progress, or by an
acknowledgement. -/
def Uses (st : State β) (i s : Nat) : Prop :=
  (st.prj i).storIdx = some s ∨ (∃ t ∈ st.txs, t.projectionId = i ∧ t.storIdx = s) ∨ (i,s) ∈ st.acks

def Spare (layout : Layout) (s : Nat) : Prop := layout.rozofsForward ≤ s ∧ s < layout.rozofsSafe

/-- Enough projections have been acknowledged, by storages that are all distinct. -/
def Acked (layout : Layout) (wrAckOnInverse : Bool) (acks : List (Nat × Nat)) : Prop :=
  ∃ l : List (Nat × Nat), (∀ x ∈ l, x ∈ acks ∧ x.1 < layout.rozofsForward) ∧ (l.map Prod.fst).Nodup ∧
    (l.map Prod.snd).Nodup ∧
    (l.length = layout.rozofsForward ∨ wrAckOnInverse = true ∧ l.length = layout.rozofsInverse)

structure Owned (layout : Layout) (wrAckOnInverse : Bool) (st : State β) : Prop where
  taken : ∀ i s, Uses st i s → (st.assoc s).validPrj = true
  place : ∀ i s, Uses st i s → i < layout.rozofsForward ∧ (s = i ∨ Spare layout s)
  unique : ∀ i j s, Uses st i s → Uses st j s → i = j
  done : ∀ i, (st.prj i).prjState = .done → ∃ s, (i,s) ∈ st.acks
  success : .success ∈ st.replies → Acked layout wrAckOnInverse st.acks

/-- Calls about projections of the layout, once the selections are made. -/
def Within (n : Nat) : Frame → Prop
  | .processing => False
  | .retry i _ _ => i < n
  | .send i _ => i < n
  | .missing l => ∀ i ∈ l, i < n
  | _ => True

/-- What a step may do to the storages of the projections: a storage that was never given is
the projection's own or a spare one. -/
structure Goes (layout : Layout) (wrAckOnInverse : Bool) (st st' : State β) : Prop where
  taken : ∀ s, (st.assoc s).validPrj = true → (st'.assoc s).validPrj = true
  given : ∀ i, (st.prj i).storIdx.isSome → (st'.prj i).storIdx.isSome
  moved : ∀ i s, (st'.prj i).storIdx = some s →
    (st.prj i).storIdx = some s ∨ (st.assoc s).validPrj = false ∧ (s = i ∨ Spare layout s)
  frames : ∀ f ∈ st'.stack, f ∈ st.stack ∨ Within layout.rozofsForward f
  owned : Owned layout wrAckOnInverse st → Owned layout wrAckOnInverse st'

section Goes
variable {β : Type} {layout : Layout} {wrAckOnInverse : Bool} {st st' st'' : State β}

theorem Goes.refl (st : State β) : Goes layout wrAckOnInverse st st :=
  ⟨fun _ taken => taken,fun _ given => given,fun _ _ same => .inl same,fun _ member => .inl member,fun owned => owned⟩

theorem Goes.trans (first : Goes layout wrAckOnInverse st st') (second : Goes layout wrAckOnInverse st' st'') :
    Goes layout wrAckOnInverse st st'' where
  taken s taken := second.taken s (first.taken s taken)
  given i given := second.given i (first.given i given)
  moved i s now := by
    rcases second.moved i s now with before | ⟨free,place⟩
    · exact first.moved i s before
    · refine .inr ⟨?_,place⟩
      by_contra taken
      rw [first.taken s (by simpa using taken)] at free
      cases free
  frames f member := by
    rcases second.frames f member with before | within
    · exact first.frames f before
    · exact .inr within
  owned owned := second.owned (first.owned owned)

/-- The storages are untouched; projections, transactions and replies may only get fewer. -/
theorem Goes.quiet (assoc : ∀ s, (st'.assoc s).validPrj = (st.assoc s).validPrj)
    (stor : ∀ i, (st'.prj i).storIdx = (st.prj i).storIdx)
    (done : ∀ i, (st'.prj i).prjState = .done → (st.prj i).prjState = .done)
    (txs : ∀ t ∈ st'.txs, t ∈ st.txs) (acks : st'.acks = st.acks)
    (replies : .success ∈ st'.replies → .success ∈ st.replies)
    (frames : ∀ f ∈ st'.stack, f ∈ st.stack ∨ Within layout.rozofsForward f) : Goes layout wrAckOnInverse st st' where
  taken s taken := (assoc s).trans taken
  given i given := by rwa [stor i]
  moved i s now := .inl ((stor i).symm.trans now)
  frames := frames
  owned owned := by
    have before : ∀ i s, Uses st' i s → Uses st i s := by
      rintro i s (now | ⟨t,member,here⟩ | acked)
      · exact .inl ((stor i).symm.trans now)
      · exact .inr (.inl ⟨t,txs t member,here⟩)
      · exact .inr (.inr (acks ▸ acked))
    constructor
    · intro i s uses
      exact (assoc s).trans (owned.taken i s (before i s uses))
    · intro i s uses
      exact owned.place i s (before i s uses)
    · intro i j s first second
      exact owned.unique i j s (before i s first) (before j s second)
    · intro i now
      rw [acks]
      exact owned.done i (done i now)
    · intro success
      rw [acks]
      exact owned.success (replies success)

/-- A change of a projection context that keeps its storage and does not end it. -/
theorem setPrj_goes (st : State β) (i : Nat) (p : PrjCtx) (stor : p.storIdx = (st.prj i).storIdx)
    (done : p.prjState = .done → (st.prj i).prjState = .done) : Goes layout wrAckOnInverse st (setPrj st i p) := by
  apply Goes.quiet
  · exact fun _ => rfl
  · intro j
    simp only [setPrj,Function.update_apply]
    split
    · rename_i here
      rw [here,stor]
    · rfl
  · intro j
    simp only [setPrj,Function.update_apply]
    split
    · rename_i here
      rw [here]
      exact done
    · exact fun now => now
  · exact fun _ member => member
  · rfl
  · exact fun member => member
  · exact fun _ member => .inl member

theorem failed_goes (st : State β) (i errcode : Nat) : Goes layout wrAckOnInverse st (failed st i errcode) :=
  setPrj_goes st i _ rfl fun done => PrjState.noConfusion done

/-- Buffers, calls and the lock say nothing about storages. -/
theorem Goes.same (assoc : st'.assoc = st.assoc) (prj : st'.prj = st.prj) (txs : ∀ t ∈ st'.txs, t ∈ st.txs)
    (acks : st'.acks = st.acks) (replies : st'.replies = st.replies)
    (frames : ∀ f ∈ st'.stack, f ∈ st.stack ∨ Within layout.rozofsForward f) : Goes layout wrAckOnInverse st st' :=
  .quiet (fun _ => by rw [assoc]) (fun _ => by rw [prj]) (fun _ => by rw [prj]; exact fun done => done) txs acks
    (by rw [replies]; exact fun member => member) frames

theorem Goes.push (st : State β) (within : Within layout.rozofsForward f) :
    Goes layout wrAckOnInverse st { st with stack := f :: st.stack } := by
  refine .same rfl rfl (fun _ member => member) rfl rfl ?_
  intro g member
  rcases List.mem_cons.mp member with rfl | before
  · exact .inr within
  · exact .inl before

theorem insertLbgStates_goes (env : Nat → LbgView) (st : State β) :
    Goes layout wrAckOnInverse st (insertLbgStates layout env st) := by
  apply Goes.quiet
  · intro s
    simp only [insertLbgStates]
    split
    · rfl
    · rfl
  · exact fun _ => rfl
  · exact fun _ done => done
  · exact fun _ member => member
  · rfl
  · exact fun member => member
  · exact fun _ member => .inl member

/-- A storage that was never given goes to a projection. -/
theorem assign_goes (inside : i < layout.rozofsForward) (free : (st.assoc s).validPrj = false)
    (place : s = i ∨ Spare layout s) : Goes layout wrAckOnInverse st (assign st i s) := by
  have stor : ∀ j, ((assign st i s).prj j).storIdx = if j = i then some s else (st.prj j).storIdx := by
    intro j
    simp only [assign,Function.update_apply]
    split
    · rfl
    · rfl
  have assoc : ∀ r, ((assign st i s).assoc r).validPrj = if r = s then true else (st.assoc r).validPrj := by
    intro r
    simp only [assign,Function.update_apply]
    split
    · rfl
    · rfl
  have before : ∀ j r, Uses (assign st i s) j r → Uses st j r ∨ j = i ∧ r = s := by
    rintro j r (now | other)
    · rw [stor] at now
      split at now
      · rename_i here
        exact .inr ⟨here,(Option.some.inj now).symm⟩
      · exact .inl (.inl now)
    · exact .inl (.inr other)
  constructor
  · intro r taken
    rw [assoc,taken,ite_self]
  · intro j given
    rw [stor]
    split
    · rfl
    · exact given
  · intro j r now
    rw [stor] at now
    split at now
    · rename_i here
      cases now
      rw [here]
      exact .inr ⟨free,place⟩
    · exact .inl now
  · exact fun _ member => .inl member
  · intro owned
    -- a storage in use is marked, so that the free one is in nobody's use
    have unused : ∀ j, ¬ Uses st j s := by
      intro j uses
      rw [owned.taken j s uses] at free
      cases free
    constructor
    · intro j r uses
      rw [assoc]
      split
      · rfl
      · rename_i other
        rcases before j r uses with old | ⟨-,new⟩
        · exact owned.taken j r old
        · exact absurd new other
    · intro j r uses
      rcases before j r uses with old | ⟨rfl,rfl⟩
      · exact owned.place j r old
      · exact ⟨inside,place⟩
    · intro j k r first second
      rcases before j r first with old | ⟨rfl,rfl⟩
      · rcases before k r second with other | ⟨rfl,rfl⟩
        · exact owned.unique j k r old other
        · exact absurd old (unused j)
      · rcases before k r second with other | ⟨rfl,-⟩
        · exact absurd other (unused k)
        · rfl
    · intro j done
      refine owned.done j ?_
      simp only [assign,Function.update_apply] at done
      split at done
      · rename_i here
        rw [here]
        exact done
      · exact done
    · exact owned.success

theorem selectable_free (selectable : isLbgSelectable env st s downAcceptable = true) :
    (st.assoc s).validPrj = false := by
  simp only [isLbgSelectable,Bool.and_eq_true,Bool.not_eq_true'] at selectable
  exact selectable.1.1.1.2

theorem selectSpare_some (found : selectSpare layout env st downAcceptable = some s) :
    (st.assoc s).validPrj = false ∧ Spare layout s := by
  have member := List.mem_of_find?_eq_some found
  rw [List.mem_range'_1] at member
  have selectable := List.find?_some found
  refine ⟨selectable_free selectable,member.1,?_⟩
  omega

theorem select_some (found : selectStorageIdxForWrite layout env st i = some st') :
    ∃ s, (st.assoc s).validPrj = false ∧ (s = i ∨ Spare layout s) ∧ st' = assign st i s := by
  obtain ⟨s,choice,rfl⟩ := Option.map_eq_some_iff.mp found
  refine ⟨s,?_⟩
  split at choice
  · rename_i own
    cases choice
    exact ⟨selectable_free own,.inl rfl,rfl⟩
  · split at choice
    · rename_i spare
      cases choice
      exact ⟨(selectSpare_some spare).1,.inr (selectSpare_some spare).2,rfl⟩
    · split at choice
      · rename_i own
        cases choice
        exact ⟨selectable_free own,.inl rfl,rfl⟩
      · exact ⟨(selectSpare_some choice).1,.inr (selectSpare_some choice).2,rfl⟩

theorem select_goes (inside : i < layout.rozofsForward) (found : selectStorageIdxForWrite layout env st i = some st') :
    Goes layout wrAckOnInverse st st' ∧ (st'.prj i).storIdx.isSome ∧ st'.txs = st.txs ∧ st'.stack = st.stack := by
  obtain ⟨s,free,place,rfl⟩ := select_some found
  refine ⟨assign_goes inside free place,?_,rfl,rfl⟩
  simp [assign]

/-- The initial selections: every projection gets a storage. -/
theorem selectAll_goes {l : List Nat} (inside : ∀ i ∈ l, i < layout.rozofsForward)
    (found : l.foldlM (selectStorageIdxForWrite layout env) st = some st') :
    Goes layout wrAckOnInverse st st' ∧ (∀ i ∈ l, (st'.prj i).storIdx.isSome) ∧ st'.stack = st.stack := by
  induction l generalizing st with
  | nil =>
    cases found
    exact ⟨.refl _,by simp,rfl⟩
  | cons i rest ih =>
    rw [List.foldlM_cons] at found
    obtain ⟨middle,first,found⟩ := Option.bind_eq_some_iff.mp found
    obtain ⟨goes,given,-,stack⟩ := select_goes (inside i List.mem_cons_self) first
    obtain ⟨goes',given',stack'⟩ := ih (fun j member => inside j (List.mem_cons_of_mem i member)) found
    refine ⟨goes.trans goes',?_,stack'.trans stack⟩
    intro j member
    rcases List.mem_cons.mp member with rfl | member
    · exact goes'.given j given
    · exact given' j member

end Goes

section Calls
variable {β : Type} {layout : Layout} {wrAckOnInverse : Bool} {st st' : State β}

theorem releaseOption_keeps (b : Option Nat) (st : State β) :
    (releaseOption b st).assoc = st.assoc ∧ (releaseOption b st).prj = st.prj ∧ (releaseOption b st).txs = st.txs ∧
    (releaseOption b st).acks = st.acks ∧ (releaseOption b st).replies = st.replies ∧
    (releaseOption b st).stack = st.stack := by
  cases b with
  | none => exact ⟨rfl,rfl,rfl,rfl,rfl,rfl⟩
  | some b => exact ⟨rfl,rfl,rfl,rfl,rfl,rfl⟩

theorem releaseOption_goes (b : Option Nat) (st : State β) : Goes layout wrAckOnInverse st (releaseOption b st) := by
  obtain ⟨assoc,prj,txs,acks,replies,stack⟩ := releaseOption_keeps b st
  exact .same assoc prj (by rw [txs]; exact fun _ member => member) acks replies
    (by rw [stack]; exact fun _ member => .inl member)

theorem releasePrj_goes (st : State β) (i : Nat) : Goes layout wrAckOnInverse st (releasePrj st i) :=
  ((releaseOption_goes _ st).trans (releaseOption_goes _ _)).trans (setPrj_goes _ i _ rfl fun done => done)

theorem releasePrj_txs (st : State β) (i : Nat) : (releasePrj st i).txs = st.txs := by
  change (releaseOption _ (releaseOption _ st)).txs = st.txs
  rw [(releaseOption_keeps _ _).2.2.1,(releaseOption_keeps _ _).2.2.1]

theorem releaseContext_goes (st : State β) : Goes layout wrAckOnInverse st (releaseContext st layout) := by
  have fold : ∀ l : List Nat, Goes layout wrAckOnInverse st (l.foldl releasePrj st) := by
    intro l
    induction l generalizing st with
    | nil => exact .refl st
    | cons i rest ih => exact (releasePrj_goes st i).trans (ih (releasePrj st i))
  refine (fold (List.range layout.rozofsForward)).trans (.same rfl rfl (fun _ member => member) rfl rfl ?_)
  exact fun _ member => absurd member List.not_mem_nil

theorem releaseContext_txs (st : State β) : (releaseContext st layout).txs = st.txs := by
  have fold : ∀ l : List Nat, (l.foldl releasePrj st).txs = st.txs := by
    intro l
    induction l generalizing st with
    | nil => rfl
    | cons i rest ih => exact (ih (releasePrj st i)).trans (releasePrj_txs st i)
  exact fold _

theorem writeReplyError_goes (st : State β) (errcode : Nat) :
    Goes layout wrAckOnInverse st (writeReplyError st errcode) := by
  unfold writeReplyError
  split
  · exact .refl st
  · refine .quiet (fun _ => rfl) (fun _ => rfl) (fun _ done => done) (fun _ member => member) rfl ?_ fun _ member => .inl member
    intro success
    simpa using success

theorem writeReplyError_txs (st : State β) (errcode : Nat) : (writeReplyError st errcode).txs = st.txs := by
  unfold writeReplyError
  split
  · rfl
  · rfl

theorem rejected_goes (st : State β) (errcode : Nat) :
    Goes layout wrAckOnInverse st (releaseContext (writeReplyError st errcode) layout) :=
  (writeReplyError_goes st errcode).trans (releaseContext_goes _)

theorem abandon_goes (st : State β) (errcode : Nat) : Goes layout wrAckOnInverse st (abandon st layout errcode) := by
  unfold abandon
  split
  · exact .refl st
  · exact rejected_goes st errcode

theorem retryStorage_goes (env : Nat → LbgView) (sameStorage : Bool) (st : State β) (inside : i < layout.rozofsForward) :
    Goes layout wrAckOnInverse st (WriteRetry.either (retryStorage layout env sameStorage st i)) := by
  refine (insertLbgStates_goes env st).trans ?_
  simp only [retryStorage]
  cases found : selectStorageIdxForWrite layout env (insertLbgStates layout env st) i with
  | some st' => exact (select_goes inside found).1
  | none =>
    dsimp only
    split
    · exact setPrj_goes _ i _ rfl fun done => done
    · split
      · exact setPrj_goes _ i _ rfl fun done => done
      · exact setPrj_goes _ i _ rfl fun done => done

theorem getBuffer_goes (found : getBuffer st alloc = some (b,st')) : Goes layout wrAckOnInverse st st' := by
  obtain ⟨content,-,-,rfl⟩ := WriteRetry.getBuffer_some found
  exact .same rfl rfl (fun _ member => member) rfl rfl fun _ member => .inl member

theorem inuseDecrement_goes (st : State β) (b : Nat) : Goes layout wrAckOnInverse st (inuseDecrement st b) :=
  .same rfl rfl (fun _ member => member) rfl rfl fun _ member => .inl member

theorem inuseIncrement_goes (st : State β) (b : Nat) : Goes layout wrAckOnInverse st (inuseIncrement st b) :=
  .same rfl rfl (fun _ member => member) rfl rfl fun _ member => .inl member

theorem memcpy_goes (st : State β) (dst src : Nat) : Goes layout wrAckOnInverse st (memcpy st dst src) :=
  .same rfl rfl (fun _ member => member) rfl rfl fun _ member => .inl member

theorem retryBuffer_goes (alloc : Option (Nat × β)) (st : State β) (i : Nat) :
    Goes layout wrAckOnInverse st (retryBuffer alloc st i).1 := by
  unfold retryBuffer
  split
  · exact .refl st
  · rename_i b held
    split
    · exact .refl st
    · split
      · exact (inuseDecrement_goes st b).trans (setPrj_goes _ i _ rfl fun done => done)
      · rename_i new st' found
        refine ((inuseDecrement_goes st b).trans (getBuffer_goes found)).trans ?_
        exact ((memcpy_goes _ _ _).trans (inuseIncrement_goes _ _)).trans (setPrj_goes _ i _ rfl fun done => done)

theorem writeProjectionRetry_goes (env : Nat → LbgView) (alloc : Option (Nat × β)) (sameStorage missing : Bool)
    (st : State β) (inside : i < layout.rozofsForward) :
    Goes layout wrAckOnInverse st (writeProjectionRetry layout env alloc i sameStorage missing st) := by
  have storage : Goes layout wrAckOnInverse st (WriteRetry.either (retryStorage layout env sameStorage st i)) :=
    retryStorage_goes env sameStorage st inside
  unfold writeProjectionRetry
  split
  · rename_i st' chosen
    rw [chosen] at storage
    exact storage.trans (abandon_goes st' eio)
  · rename_i st' chosen
    rw [chosen] at storage
    refine storage.trans ?_
    have buffer : Goes layout wrAckOnInverse st'
        (if missing then (st',(st'.prj i).prjBufMissing) else retryBuffer alloc st' i).1 := by
      split
      · exact .refl st'
      · exact retryBuffer_goes alloc st' i
    refine buffer.trans ?_
    generalize (if missing then (st',(st'.prj i).prjBufMissing) else retryBuffer alloc st' i) = taken
    obtain ⟨st'',b⟩ := taken
    cases b with
    | some b =>
      have first : Within layout.rozofsForward (.send i b) := inside
      exact .push st'' first
    | none =>
      have noted : Goes layout wrAckOnInverse st'' (setPrj st'' i { st''.prj i with errcode := efault }) :=
        setPrj_goes st'' i _ rfl fun done => done
      exact noted.trans (abandon_goes _ efault)

/-- The transaction of a projection goes to the storage of its context. -/
theorem accepted_goes (st : State β) (b : Nat) (given : (st.prj i).storIdx.isSome) :
    Goes layout wrAckOnInverse st
      { st with txs := st.txs ++ [⟨st.readSeqnum,i,(st.prj i).storIdx.getD 0,b⟩] } where
  taken _ taken := taken
  given _ given := given
  moved _ _ same := .inl same
  frames _ member := .inl member
  owned owned := by
    obtain ⟨s,given⟩ := Option.isSome_iff_exists.mp given
    have before : ∀ j r, Uses { st with txs := st.txs ++ [⟨st.readSeqnum,i,(st.prj i).storIdx.getD 0,b⟩] } j r →
        Uses st j r := by
      rintro j r (now | ⟨t,member,rfl,rfl⟩ | acked)
      · exact .inl now
      · rcases List.mem_append.mp member with old | new
        · exact .inr (.inl ⟨t,old,rfl,rfl⟩)
        · cases List.mem_singleton.mp new
          exact .inl (by simp [given])
      · exact .inr (.inr acked)
    constructor
    · exact fun j r uses => owned.taken j r (before j r uses)
    · exact fun j r uses => owned.place j r (before j r uses)
    · exact fun j k r first second => owned.unique j k r (before j r first) (before k r second)
    · exact owned.done
    · exact owned.success

theorem send_goes (env : Nat → LbgView) (result : Send) (b : Nat) (st : State β) (inside : i < layout.rozofsForward)
    (given : (st.prj i).storIdx.isSome) : Goes layout wrAckOnInverse st (send layout env result i b st) := by
  have progress : Goes layout wrAckOnInverse st (setPrj st i { st.prj i with prjState := .inPrg }) :=
    setPrj_goes st i _ rfl fun done => PrjState.noConfusion done
  refine progress.trans ?_
  unfold send
  cases result with
  | accepted => exact (accepted_goes _ b (progress.given i given)).trans (inuseIncrement_goes _ b)
  | refused =>
    dsimp only
    split
    · rename_i st' found
      exact (select_goes inside found).1.trans (.push st' inside)
    · exact abandon_goes _ 0
  | direct errcode =>
    refine (failed_goes _ i errcode).trans (.same rfl rfl (fun _ member => member) rfl rfl ?_)
    intro f member
    simp only [List.mem_cons] at member
    rcases member with rfl | rfl | before
    · exact .inr inside
    · exact .inr trivial
    · exact .inl before

theorem sent_goes (i : Nat) (st : State β) : Goes layout wrAckOnInverse st (sent layout i st) := by
  have unlocked : Goes layout wrAckOnInverse st { st with writeCtxLock := st.writeCtxLock - 1 } :=
    .same rfl rfl (fun _ member => member) rfl rfl fun _ member => .inl member
  refine unlocked.trans ?_
  unfold sent
  dsimp only
  split
  · exact abandon_goes _ _
  · exact .refl _

theorem sendAll_goes (i : Nat) (st : State β) : Goes layout wrAckOnInverse st (sendAll layout i st) := by
  unfold sendAll
  split
  · rename_i inside
    split
    · rename_i b held
      have loop : Within layout.rozofsForward (.sendAll (i + 1)) := trivial
      have first : Within layout.rozofsForward (.send i b) := inside
      exact (Goes.push st loop).trans (.push _ first)
    · exact rejected_goes st eio
  · exact .refl st

theorem sendMissing_goes (alloc : Option (Nat × β)) (st : State β) (inside : i < layout.rozofsForward)
    (others : ∀ j ∈ rest, j < layout.rozofsForward) :
    Goes layout wrAckOnInverse st (sendMissing alloc i rest st) := by
  unfold sendMissing
  split
  · exact .refl st
  · rename_i b st' found
    have kept : Goes layout wrAckOnInverse st' (setPrj st' i { st'.prj i with prjBufMissing := some b }) :=
      setPrj_goes st' i _ rfl fun done => done
    refine ((getBuffer_goes found).trans kept).trans (.same rfl rfl (fun _ member => member) rfl rfl ?_)
    intro f member
    simp only [List.mem_cons] at member
    rcases member with rfl | rfl | rfl | before
    · exact .inr inside
    · exact .inr trivial
    · exact .inr others
    · exact .inl before

theorem call_goes (env : Nat → LbgView) (alloc : Option (Nat × β)) (result : Send) (st : State β)
    (within : Within layout.rozofsForward f) (given : ∀ i < layout.rozofsForward, (st.prj i).storIdx.isSome) :
    Goes layout wrAckOnInverse st (call layout env alloc result f st) := by
  cases f with
  | processing => cases within
  | sendAll i => exact sendAll_goes i st
  | retry i sameStorage missing => exact writeProjectionRetry_goes env alloc sameStorage missing st within
  | send i b => exact send_goes env result b st within (given i within)
  | sent i => exact sent_goes i st
  | missing l =>
    cases l with
    | nil => exact .refl st
    | cons i rest =>
      exact sendMissing_goes alloc st (within i List.mem_cons_self) fun j member => within j (List.mem_cons_of_mem i member)
  | unlock => exact .same rfl rfl (fun _ member => member) rfl rfl fun _ member => .inl member

end Calls

section Replies
variable {β : Type} {layout : Layout} {wrAckOnInverse : Bool} {st st' : State β}

/-- A transaction in progress ends with the acknowledgement of its storage. -/
theorem acked_goes (found : st.txs[k]? = some t) (assoc : st'.assoc = st.assoc)
    (prj : st'.prj = update st.prj t.projectionId { st.prj t.projectionId with prjState := .done })
    (txs : st'.txs = st.txs.eraseIdx k) (acks : st'.acks = st.acks ++ [(t.projectionId,t.storIdx)])
    (replies : st'.replies = st.replies) (stack : st'.stack = st.stack) : Goes layout wrAckOnInverse st st' := by
  have stor : ∀ i, (st'.prj i).storIdx = (st.prj i).storIdx := by
    intro i
    rw [prj,Function.update_apply]
    split
    · rename_i here
      rw [here]
    · rfl
  constructor
  · intro s taken
    rwa [assoc]
  · intro i given
    rwa [stor]
  · intro i s now
    exact .inl ((stor i).symm.trans now)
  · intro f member
    exact .inl (stack ▸ member)
  · intro owned
    have before : ∀ i s, Uses st' i s → Uses st i s := by
      rintro i s (now | ⟨u,member,here⟩ | acked)
      · exact .inl ((stor i).symm.trans now)
      · rw [txs] at member
        exact .inr (.inl ⟨u,List.mem_of_mem_eraseIdx member,here⟩)
      · rw [acks] at acked
        rcases List.mem_append.mp acked with old | new
        · exact .inr (.inr old)
        · cases List.mem_singleton.mp new
          exact .inr (.inl ⟨t,List.mem_of_getElem? found,rfl,rfl⟩)
    constructor
    · intro i s uses
      rw [assoc]
      exact owned.taken i s (before i s uses)
    · exact fun i s uses => owned.place i s (before i s uses)
    · exact fun i j s first second => owned.unique i j s (before i s first) (before j s second)
    · intro i done
      rw [acks]
      rw [prj,Function.update_apply] at done
      split at done
      · rename_i here
        exact ⟨t.storIdx,by simp [here]⟩
      · obtain ⟨s,acked⟩ := owned.done i done
        exact ⟨s,List.mem_append_left _ acked⟩
    · intro success
      rw [replies] at success
      obtain ⟨l,members,rest⟩ := owned.success success
      refine ⟨l,fun x member => ?_,rest⟩
      rw [acks]
      exact ⟨List.mem_append_left _ (members x member).1,(members x member).2⟩

/-- The storages of the projections that are done. -/
theorem acked_of_received (owned : Owned layout wrAckOnInverse st)
    (enough : received layout st = layout.rozofsForward ∨ wrAckOnInverse = true ∧ received layout st = layout.rozofsInverse) :
    Acked layout wrAckOnInverse st.acks := by
  have pick : ∀ i, ∃ s, (st.prj i).prjState = .done → (i,s) ∈ st.acks := by
    intro i
    by_cases done : (st.prj i).prjState = .done
    · obtain ⟨s,acked⟩ := owned.done i done
      exact ⟨s,fun _ => acked⟩
    · exact ⟨0,fun now => absurd now done⟩
  choose storage acked using pick
  let finished := (List.range layout.rozofsForward).filter fun i => (st.prj i).prjState == .done
  have done : ∀ i ∈ finished, i < layout.rozofsForward ∧ (i,storage i) ∈ st.acks := by
    intro i member
    simp only [finished,List.mem_filter,List.mem_range,beq_iff_eq] at member
    exact ⟨member.1,acked i member.2⟩
  have nodup : finished.Nodup := List.nodup_range.filter _
  have count : finished.length = received layout st := by
    rw [received,List.countP_eq_length_filter]
  refine ⟨finished.map fun i => (i,storage i),?_,?_,?_,?_⟩
  · intro x member
    obtain ⟨i,inside,rfl⟩ := List.mem_map.mp member
    exact ⟨(done i inside).2,(done i inside).1⟩
  · simpa [Function.comp_def] using nodup
  · rw [List.map_map]
    refine List.Nodup.map_on ?_ nodup
    intro i first j second same
    have same : storage i = storage j := same
    refine owned.unique i j (storage i) (.inr (.inr (done i first).2)) (.inr (.inr ?_))
    rw [same]
    exact (done j second).2
  · rw [List.length_map,count]
    exact enough

theorem writeReplySuccess_goes (st : State β)
    (enough : received layout st = layout.rozofsForward ∨ wrAckOnInverse = true ∧ received layout st = layout.rozofsInverse) :
    Goes layout wrAckOnInverse st (writeReplySuccess st) := by
  unfold writeReplySuccess
  split
  · exact .refl st
  · refine ⟨fun _ taken => taken,fun _ given => given,fun _ _ same => .inl same,fun _ member => .inl member,fun owned => ?_⟩
    have acked : Acked layout wrAckOnInverse st.acks := acked_of_received owned enough
    exact ⟨owned.taken,owned.place,owned.unique,owned.done,fun _ => acked⟩

/-- The check of the projections after an acknowledgement. -/
theorem checked_goes (st : State β) :
    Goes layout wrAckOnInverse st (match allPrjWriteCheck layout st with
      | 2 => releaseContext (writeReplySuccess st) layout
      | 1 => if wrAckOnInverse then writeReplySuccess st else st
      | _ => st) := by
  unfold allPrjWriteCheck
  by_cases all : received layout st = layout.rozofsForward
  · rw [if_pos all]
    exact (writeReplySuccess_goes st (.inl all)).trans (releaseContext_goes _)
  · rw [if_neg all]
    by_cases enough : received layout st = layout.rozofsInverse
    · rw [if_pos enough]
      cases wrAckOnInverse with
      | false => exact .refl st
      | true => exact writeReplySuccess_goes st (.inr ⟨rfl,enough⟩)
    · rw [if_neg enough]
      exact .refl st

theorem writeReqProcessingCbk_goes (response : Response) (found : st.txs[k]? = some t)
    (inside : t.projectionId < layout.rozofsForward) :
    Goes layout wrAckOnInverse st (writeReqProcessingCbk layout wrAckOnInverse t response
      (releaseBuffer { st with txs := st.txs.eraseIdx k } t.xmitBuf)) := by
  have ended : Goes layout wrAckOnInverse st (releaseBuffer { st with txs := st.txs.eraseIdx k } t.xmitBuf) :=
    .same rfl rfl (fun _ member => List.mem_of_mem_eraseIdx member) rfl rfl fun _ member => .inl member
  unfold writeReqProcessingCbk
  dsimp only
  split
  · exact ended
  · split
    · exact ended
    · cases response with
      | failed errcode =>
        have retry : Within layout.rozofsForward (.retry t.projectionId true false) := inside
        exact (ended.trans (failed_goes _ t.projectionId errcode)).trans (.push _ retry)
      | noBuffer => exact (ended.trans (failed_goes _ t.projectionId efault)).trans (abandon_goes _ efault)
      | storageError errcode =>
        have retry : Within layout.rozofsForward (.retry t.projectionId false false) := inside
        exact (ended.trans (failed_goes _ t.projectionId errcode)).trans (.push _ retry)
      | success =>
        refine Goes.trans ?_ (checked_goes _)
        exact acked_goes found rfl rfl rfl rfl rfl rfl

end Replies

/-- After the selections every projection has a storage; a request whose selections fail has
no transaction. -/
structure Inv (layout : Layout) (wrAckOnInverse : Bool) (st : State β) : Prop where
  owned : Owned layout wrAckOnInverse st
  phase : st.stack = [.processing] ∧ st.txs = [] ∨
    (∀ i < layout.rozofsForward, (st.prj i).storIdx.isSome) ∧ (∀ f ∈ st.stack, Within layout.rozofsForward f) ∨
    st.released = true ∧ st.stack = [] ∧ st.txs = []

section Steps
variable {β : Type} {layout : Layout} {wrAckOnInverse : Bool} {st st' : State β}

theorem Goes.inv (goes : Goes layout wrAckOnInverse st st') (owned : Owned layout wrAckOnInverse st)
    (given : ∀ i < layout.rozofsForward, (st.prj i).storIdx.isSome) (frames : ∀ f ∈ st.stack, Within layout.rozofsForward f) :
    Inv layout wrAckOnInverse st' := by
  refine ⟨goes.owned owned,.inr (.inl ⟨fun i inside => goes.given i (given i inside),fun f member => ?_⟩)⟩
  rcases goes.frames f member with before | within
  · exact frames f before
  · exact within

theorem writeReqProcessing_goes (env : Nat → LbgView) (owned : Owned layout wrAckOnInverse st) (txs : st.txs = [])
    (stack : st.stack = []) :
    Goes layout wrAckOnInverse st (writeReqProcessing layout env st) ∧
    Inv layout wrAckOnInverse (writeReqProcessing layout env st) := by
  have states : Goes layout wrAckOnInverse st (insertLbgStates layout env st) := insertLbgStates_goes env st
  unfold writeReqProcessing
  dsimp only
  split
  · rename_i st' found
    have selected : Goes layout wrAckOnInverse (insertLbgStates layout env st) st' ∧ _ :=
      selectAll_goes (fun i member => List.mem_range.mp member) found
    obtain ⟨goes,given,stack'⟩ := selected
    have all : Goes layout wrAckOnInverse st { st' with stack := .sendAll 0 :: st'.stack } :=
      (states.trans goes).trans (.push st' trivial)
    refine ⟨all,all.owned owned,.inr (.inl ⟨fun i inside => given i (List.mem_range.mpr inside),fun f member => ?_⟩)⟩
    have empty : st'.stack = [] := stack'.trans stack
    rw [empty,List.mem_singleton] at member
    subst member
    exact trivial
  · have goes := states.trans (rejected_goes (insertLbgStates layout env st) eio)
    refine ⟨goes,goes.owned owned,.inr (.inr ⟨rfl,rfl,?_⟩)⟩
    rw [releaseContext_txs,writeReplyError_txs]
    exact txs

theorem step_goes (a : Act β) (inv : Inv layout wrAckOnInverse st) (next : step layout wrAckOnInverse a st = some st') :
    Goes layout wrAckOnInverse st st' ∧ Inv layout wrAckOnInverse st' := by
  -- sockets touch neither the calls nor the storages
  have socket : st'.assoc = st.assoc → st'.prj = st.prj → st'.txs = st.txs → st'.acks = st.acks → st'.replies = st.replies →
      st'.stack = st.stack → st'.released = st.released → Goes layout wrAckOnInverse st st' ∧ Inv layout wrAckOnInverse st' := by
    intro assoc prj txs acks replies stack released
    have goes : Goes layout wrAckOnInverse st st' :=
      .same assoc prj (by rw [txs]; exact fun _ member => member) acks replies (by rw [stack]; exact fun _ member => .inl member)
    refine ⟨goes,goes.owned inv.owned,?_⟩
    rw [prj,txs,stack,released]
    exact inv.phase
  cases a with
  | call env alloc result =>
    simp only [step] at next
    split at next
    · cases next
    · rename_i f stack top
      cases next
      have popped : Goes layout wrAckOnInverse st { st with stack := stack } :=
        .same rfl rfl (fun _ member => member) rfl rfl fun g member => .inl (by rw [top]; exact List.mem_cons_of_mem f member)
      rcases inv.phase with ⟨eq,txs⟩ | ⟨given,frames⟩ | ⟨-,eq,-⟩
      · obtain ⟨rfl,rfl⟩ := List.cons.inj (top.symm.trans eq)
        obtain ⟨goes,inv'⟩ := writeReqProcessing_goes env (popped.owned inv.owned) txs rfl
        exact ⟨popped.trans goes,inv'⟩
      · have within : Within layout.rozofsForward f := frames f (by rw [top]; exact List.mem_cons_self)
        have goes : Goes layout wrAckOnInverse st _ := popped.trans (call_goes env alloc result _ within given)
        exact ⟨goes,goes.inv inv.owned given frames⟩
      · rw [top] at eq
        cases eq
  | response k response =>
    simp only [step] at next
    split at next
    · cases next
    · obtain ⟨t,found,rfl⟩ := Option.map_eq_some_iff.mp next
      have member := List.mem_of_getElem? found
      have inside := (inv.owned.place t.projectionId t.storIdx (.inr (.inl ⟨t,member,rfl,rfl⟩))).1
      have goes : Goes layout wrAckOnInverse st _ := writeReqProcessingCbk_goes response found inside
      refine ⟨goes,?_⟩
      rcases inv.phase with ⟨-,txs⟩ | ⟨given,frames⟩ | ⟨-,-,txs⟩
      · rw [txs] at member
        cases member
      · exact goes.inv inv.owned given frames
      · rw [txs] at member
        cases member
  | timeout =>
    simp only [step] at next
    split at next
    · cases next
    · rename_i idle
      simp only [not_or,ne_eq,not_not,Bool.not_eq_true] at idle
      cases next
      have missing : Within layout.rozofsForward
          (.missing ((List.range layout.rozofsForward).filter fun i => (st.prj i).prjState ≠ .done)) := by
        intro i member
        exact List.mem_range.mp (List.mem_filter.mp member).1
      have goes : Goes layout wrAckOnInverse st (writeTimeout layout st) := .push st missing
      refine ⟨goes,?_⟩
      rcases inv.phase with ⟨eq,-⟩ | ⟨given,frames⟩ | ⟨ended,-,-⟩
      · rw [idle.1] at eq
        cases eq
      · exact goes.inv inv.owned given frames
      · rw [idle.2] at ended
        cases ended
  | grab k =>
    obtain ⟨t,-,rfl⟩ := Option.map_eq_some_iff.mp next
    exact socket rfl rfl rfl rfl rfl rfl rfl
  | transmit k =>
    obtain ⟨x,-,rfl⟩ := Option.map_eq_some_iff.mp next
    exact socket rfl rfl rfl rfl rfl rfl rfl
  | giveBack k =>
    obtain ⟨x,-,rfl⟩ := Option.map_eq_some_iff.mp next
    exact socket rfl rfl rfl rfl rfl rfl rfl

end Steps

theorem start_inv {st : State β} (start : Start layout computed st) : Inv layout wrAckOnInverse st := by
  obtain ⟨txs,-,-,acks,replies⟩ := start.observed
  have unused : ∀ i s, ¬ Uses st i s := by
    rintro i s (now | ⟨t,member,-⟩ | acked)
    · rw [(start.prj i).2.1] at now
      cases now
    · rw [txs] at member
      cases member
    · rw [acks] at acked
      cases acked
  refine ⟨⟨?_,?_,?_,?_,?_⟩,.inl ⟨start.stack,txs⟩⟩
  · exact fun i s uses => absurd uses (unused i s)
  · exact fun i s uses => absurd uses (unused i s)
  · exact fun i j s uses => absurd uses (unused i s)
  · intro i done
    rw [(start.prj i).1] at done
    cases done
  · intro success
    rw [replies] at success
    cases success

/-- In every run no storage has two projections. A projection moves to a spare storage, or to
its own if that was not given before, and a success means enough distinct storages. -/
theorem storages_distinct {st₀ st : State β} (start : Start layout computed st₀)
    (run : Machine.Run (step layout wrAckOnInverse) (fun _ _ => True) st₀ st) :
    (∀ i j s, Uses st i s → Uses st j s → i = j) ∧
    (∀ a st' i s s', step layout wrAckOnInverse a st = some st' → (st.prj i).storIdx = some s →
      (st'.prj i).storIdx = some s' → s' ≠ s → Spare layout s' ∨ s' = i ∧ (st.assoc i).validPrj = false) ∧
    (.success ∈ st.replies → Acked layout wrAckOnInverse st.acks) := by
  have inv : Inv layout wrAckOnInverse st :=
    run.invariant _ (start_inv start) fun s a s' inv _ next => (step_goes a inv next).2
  refine ⟨inv.owned.unique,?_,inv.owned.success⟩
  intro a st' i s s' next before after other
  rcases (step_goes a inv next).1.moved i s' after with same | ⟨free,own | spare⟩
  · rw [before] at same
    exact absurd (Option.some.inj same).symm other
  · exact .inr ⟨own,own ▸ free⟩
  · exact .inl spare

/-- Storage 0 is out of reach when the request starts. -/
def firstDown : Nat → LbgView := fun s => if s = 0 then ⟨.down,true,true⟩ else WriteRetry.allUp s

/-- Projection 0 goes to the spare storage, which answers with an error. -/
def spareFails : List (Act Nat) :=
  .call firstDown none .accepted :: List.replicate 7 (.call WriteRetry.allUp none .accepted) ++ [.response 0 (.storageError 5)]

/-- All three storages of the layout 2/3/4 acknowledge after the error. -/
theorem storages_distinct_retried : ∃ st : State Nat, .success ∈ st.replies ∧
    (∀ i j s, Uses st i s → Uses st j s → i = j) ∧ Acked .layout_2_3_4 false st.acks := by
  have done : ∃ st, Machine.exec (step .layout_2_3_4 false) (fun _ _ => True)
      (spareFails ++ [.call WriteRetry.allUp none .accepted,.call WriteRetry.allUp none .accepted,.response 0 .success,
        .response 0 .success,.response 0 .success]) WriteRetry.ready = some st ∧ st.replies = [.success] := ⟨_,rfl,rfl⟩
  obtain ⟨st,done,replies⟩ := done
  have success : .success ∈ st.replies := by simp [replies]
  obtain ⟨unique,-,acked⟩ := storages_distinct WriteRetry.ready_start (Machine.Run.refl.exec done)
  exact ⟨st,success,unique,acked success⟩

/-- Storage 0 is back when the spare one fails: projection 0 moves from the spare storage to
its own. -/
theorem moves_back_to_own : Start .layout_2_3_4 (· + 10) WriteRetry.ready ∧ ∃ st st' : State Nat, ∃ a,
    Machine.Run (step .layout_2_3_4 false) (fun _ _ => True) WriteRetry.ready st ∧ step .layout_2_3_4 false a st = some st' ∧
    (st.prj 0).storIdx = some 3 ∧ (st'.prj 0).storIdx = some 0 ∧ ¬ Spare .layout_2_3_4 0 := by
  have done : ∃ st st', Machine.exec (step .layout_2_3_4 false) (fun _ _ => True) spareFails WriteRetry.ready = some st ∧
      step .layout_2_3_4 false (.call WriteRetry.allUp none .accepted) st = some st' ∧
      (st.prj 0).storIdx = some 3 ∧ (st'.prj 0).storIdx = some 0 := ⟨_,_,rfl,rfl,rfl,rfl⟩
  obtain ⟨st,st',done,next,before,after⟩ := done
  exact ⟨WriteRetry.ready_start,st,st',_,Machine.Run.refl.exec done,next,before,after,by simp [Spare,Layout.rozofsForward]⟩

end Rozofs.WriteAssignment
