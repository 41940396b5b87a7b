import Rozofs.LockLists

/-! Lock accounting of the metadata server: every request keeps the lists of locks linked, and
the counters of files and clients stay exact as long as no client is removed and no file is
deleted with locks. -/
namespace Rozofs.LockAccounting
open FileLock LockLists

section Verdicts
variable (bsize : BSize)

/-- Parts of a lock belong to its owner. -/
theorem keep_sameOwner {lockFree lockSet lock : Lock} {newLock : Option Lock}
    (verdict : mustFileLockBeRemoved bsize lockFree lockSet = .keep lock newLock) :
    lock.clientRef = lockSet.clientRef := by
  unfold mustFileLockBeRemoved at verdict
  dsimp only at verdict
  split at verdict
  · cases verdict
    rfl
  · split at verdict <;> (repeat' split at verdict) <;> cases verdict <;> rfl

/-- What stays of a lock is not removed by another walk. -/
theorem keep_again {lockFree lockSet lock : Lock} {newLock : Option Lock}
    (verdict : mustFileLockBeRemoved bsize lockFree lockSet = .keep lock newLock) :
    mustFileLockBeRemoved bsize lockFree lock ≠ .remove ∧
    ∀ new ∈ newLock, mustFileLockBeRemoved bsize lockFree new ≠ .remove := by
  by_cases owner : sameOwner lockFree lockSet = true
  · unfold mustFileLockBeRemoved at verdict
    dsimp only at verdict
    simp only [owner,Bool.not_true,Bool.false_eq_true,if_false] at verdict
    -- the parts are of the sizes of this branch, so the same branch decides about them
    split at verdict <;> rename_i sizeFree sizeSet
    all_goals repeat' split at verdict
    all_goals cases verdict
    all_goals constructor
    all_goals simp [mustFileLockBeRemoved,owner,sizeFree,sizeSet]
    all_goals grind
  · unfold mustFileLockBeRemoved at verdict
    dsimp only at verdict
    simp only [owner,Bool.not_false,if_true] at verdict
    cases verdict
    constructor
    · simp [mustFileLockBeRemoved,owner]
    · intro new none
      cases none

end Verdicts

section Requests
variable {φ : Type} [DecidableEq φ] {bsize : BSize} {exact : Prop} {eid : Nat} {fid : φ} {lockFree : Lock}

/-- Locks of a list that a free request removes. -/
def removable (bsize : BSize) (lockFree : Lock) (locks : List Node) : Nat :=
  locks.countP fun x => mustFileLockBeRemoved bsize lockFree x.lock = .remove

theorem removable_set {st : State φ} {x : Node} {lock : Lock} (linked : Linked exact st)
    (mem : x ∈ (st.files eid fid).locks) (before : mustFileLockBeRemoved bsize lockFree x.lock ≠ .remove)
    (after : mustFileLockBeRemoved bsize lockFree lock ≠ .remove) :
    removable bsize lockFree ((setFileLock st eid fid x.ptr lock).files eid fid).locks =
      removable bsize lockFree (st.files eid fid).locks := by
  rw [setFileLock_files,if_pos ⟨rfl,rfl⟩]
  dsimp only [removable]
  rw [List.countP_map]
  apply List.countP_congr
  intro y memY
  by_cases here : y.ptr = x.ptr
  · have same := linked.node_eq memY mem here
    subst same
    simp [before,after]
  · simp [here]

theorem removable_add {st : State φ} {lock : Lock} (after : mustFileLockBeRemoved bsize lockFree lock ≠ .remove) :
    removable bsize lockFree ((addFileLock st eid fid lock).files eid fid).locks =
      removable bsize lockFree (st.files eid fid).locks := by
  rw [addFileLock_files,if_pos ⟨rfl,rfl⟩]
  simp [removable,after]

theorem removable_drop {st : State φ} {x : Node} (linked : Linked exact st) (mem : x ∈ (st.files eid fid).locks)
    (verdict : mustFileLockBeRemoved bsize lockFree x.lock = .remove) :
    removable bsize lockFree ((dropFileLock st eid fid x).files eid fid).locks + 1 =
      removable bsize lockFree (st.files eid fid).locks := by
  rw [dropFileLock_files linked mem]
  have counted := (linked.perm_filter mem).countP_eq fun y => decide (mustFileLockBeRemoved bsize lockFree y.lock = .remove)
  rw [List.countP_cons_of_pos (by simpa using verdict)] at counted
  exact counted.symm

theorem mem_set {st : State φ} {x y : Node} {lock : Lock} (mem : y ∈ (st.files eid fid).locks) (other : y.ptr ≠ x.ptr) :
    y ∈ ((setFileLock st eid fid x.ptr lock).files eid fid).locks := by
  rw [setFileLock_files,if_pos ⟨rfl,rfl⟩]
  exact List.mem_map.mpr ⟨y,mem,by simp [other]⟩

theorem mem_add {st : State φ} {y : Node} {lock : Lock} (mem : y ∈ (st.files eid fid).locks) :
    y ∈ ((addFileLock st eid fid lock).files eid fid).locks := by
  rw [addFileLock_files,if_pos ⟨rfl,rfl⟩]
  exact List.mem_cons_of_mem _ mem

theorem mem_drop {st : State φ} {x y : Node} (linked : Linked exact st) (mem : x ∈ (st.files eid fid).locks)
    (memY : y ∈ (st.files eid fid).locks) (other : y.ptr ≠ x.ptr) :
    y ∈ ((dropFileLock st eid fid x).files eid fid).locks := by
  rw [dropFileLock_files linked mem]
  exact List.mem_filter.mpr ⟨memY,by simpa using other⟩

/-- The lock as it stays after a free request, and its second part. -/
def editFileLock (st : State φ) (eid : Nat) (fid : φ) (x : Node) (lock : Lock) (newLock : Option Lock) : State φ :=
  let st := setFileLock st eid fid x.ptr lock
  match newLock with
  | none => st
  | some newLock => addFileLock st eid fid newLock

theorem edit_linked {st : State φ} {x : Node} {lock : Lock} {newLock : Option Lock} (linked : Linked exact st)
    (mem : x ∈ (st.files eid fid).locks) (verdict : mustFileLockBeRemoved bsize lockFree x.lock = .keep lock newLock) :
    Linked exact (editFileLock st eid fid x lock newLock) := by
  have edited := linked.setFileLock mem (keep_sameOwner bsize verdict)
  cases newLock with
  | none => exact edited
  | some new => exact edited.addFileLock new

theorem edit_removable {st : State φ} {x : Node} {lock : Lock} {newLock : Option Lock} (linked : Linked exact st)
    (mem : x ∈ (st.files eid fid).locks) (verdict : mustFileLockBeRemoved bsize lockFree x.lock = .keep lock newLock) :
    removable bsize lockFree ((editFileLock st eid fid x lock newLock).files eid fid).locks =
      removable bsize lockFree (st.files eid fid).locks := by
  obtain ⟨again,againNew⟩ := keep_again bsize verdict
  have count := removable_set linked mem (by simp [verdict]) again
  cases newLock with
  | none => exact count
  | some new => exact (removable_add (againNew new rfl)).trans count

theorem mem_edit {st : State φ} {x y : Node} {lock : Lock} {newLock : Option Lock} (mem : y ∈ (st.files eid fid).locks)
    (other : y.ptr ≠ x.ptr) : y ∈ ((editFileLock st eid fid x lock newLock).files eid fid).locks := by
  cases newLock with
  | none => exact mem_set mem other
  | some new => exact mem_add (mem_set mem other)

section Rules
variable {P : State φ → Prop}
  (kept : ∀ {st x lock newLock}, Linked exact st → P st → x ∈ (st.files eid fid).locks →
    mustFileLockBeRemoved bsize lockFree x.lock = .keep lock newLock → P (editFileLock st eid fid x lock newLock))
  (removed : ∀ {st x}, Linked exact st → P st → x ∈ (st.files eid fid).locks →
    mustFileLockBeRemoved bsize lockFree x.lock = .remove → P (dropFileLock st eid fid x))
include kept removed

/-- A walk keeps the lists linked and what its edits keep; the locks to be removed get less by
the one that it removes. -/
theorem freeWalk_rule (rest : List Node) {st : State φ} (linked : Linked exact st) (holds : P st)
    (mem : ∀ x ∈ rest, x ∈ (st.files eid fid).locks) (nodup : (rest.map Node.ptr).Nodup) :
    Linked exact (freeWalk bsize eid fid lockFree rest st).1 ∧ P (freeWalk bsize eid fid lockFree rest st).1 ∧
    removable bsize lockFree ((freeWalk bsize eid fid lockFree rest st).1.files eid fid).locks +
        (freeWalk bsize eid fid lockFree rest st).2.toNat =
      removable bsize lockFree (st.files eid fid).locks := by
  induction rest generalizing st with
  | nil => exact ⟨linked,holds,rfl⟩
  | cons x rest ih =>
    obtain ⟨fresh,nodupRest⟩ := List.nodup_cons.mp nodup
    have memX := mem x (by simp)
    rw [freeWalk]
    cases verdict : mustFileLockBeRemoved bsize lockFree x.lock with
    | remove => exact ⟨linked.dropFileLock memX,removed linked holds memX verdict,removable_drop linked memX verdict⟩
    | keep lock newLock =>
      have memRest : ∀ y ∈ rest, y ∈ ((editFileLock st eid fid x lock newLock).files eid fid).locks := by
        intro y memY
        apply mem_edit (mem y (by simp [memY]))
        intro same
        exact fresh (List.mem_map.mpr ⟨y,memY,same⟩)
      have later := ih (edit_linked linked memX verdict) (kept linked holds memX verdict) memRest nodupRest
      rw [edit_removable linked memX verdict] at later
      exact later

/-- The walks of a free request come to an end. -/
theorem freeLoop_rule (walks : Nat) {st : State φ} (linked : Linked exact st) (holds : P st)
    (bound : removable bsize lockFree (st.files eid fid).locks < walks) :
    ∃ st', freeLoop bsize eid fid lockFree walks st = some st' ∧ Linked exact st' ∧ P st' := by
  induction walks generalizing st with
  | zero => exact absurd bound (Nat.not_lt_zero _)
  | succ walks ih =>
    have walk := freeWalk_rule kept removed (st.files eid fid).locks linked holds (fun x mem => mem)
      (linked.fileNodup eid fid)
    obtain ⟨walked,still,count⟩ := walk
    rw [freeLoop]
    rcases result : freeWalk bsize eid fid lockFree (st.files eid fid).locks st with ⟨st',again⟩
    rw [result] at walked still count
    cases again with
    | false => exact ⟨st',rfl,walked,still⟩
    | true =>
      dsimp only at count ⊢
      split
      · exact ⟨st',rfl,walked,still⟩
      · apply ih walked still
        rw [← count] at bound
        exact Nat.lt_of_succ_lt_succ bound

end Rules

theorem findConcatenate_mem {request lock : Lock} {x : Node} {locks : List Node}
    (found : findConcatenate bsize request locks = some (x,lock)) : x ∈ locks := by
  induction locks with
  | nil => cases found
  | cons y rest ih =>
    rw [findConcatenate] at found
    split at found
    · split at found
      · cases found
        exact List.mem_cons_self
      · exact List.mem_cons_of_mem _ (ih found)
    · exact List.mem_cons_of_mem _ (ih found)

theorem concatenate_linked (overlap : Nat) {request : Lock} {st : State φ} (linked : Linked exact st) :
    Linked exact (concatenate bsize eid fid overlap request st).2 := by
  induction overlap generalizing request st with
  | zero => exact linked
  | succ overlap ih =>
    rw [concatenate]
    split
    · exact linked
    case h_2 x lock found => exact ih (linked.dropFileLock (findConcatenate_mem found))

/-- A request to set or to free a lock returns, with linked lists. -/
theorem exportSetFileLock_linked (request : Lock) {st : State φ} (linked : Linked exact st) :
    ∃ st', exportSetFileLock bsize eid fid request st = some st' ∧ Linked exact st' := by
  unfold exportSetFileLock
  dsimp only
  split
  · split
    · exact ⟨st,rfl,linked⟩
    · split
      case isTrue empty => exact ⟨_,rfl,linked.recountFile rfl (by simpa [empty] using Counts.zero)⟩
      case isFalse =>
        obtain ⟨st',eq,linked',_⟩ := freeLoop_rule (P := fun _ => True) (fun _ _ _ _ => trivial) (fun _ _ _ _ => trivial)
          _ linked trivial (Nat.lt_succ_of_le List.countP_le_length)
        exact ⟨st',eq,linked'⟩
  · split
    · exact ⟨_,rfl,(concatenate_linked _ linked).addFileLock _⟩
    · exact ⟨st,rfl,linked⟩

theorem dropAll_linked (dropped : List Node) {st : State φ} (linked : Linked exact st)
    (mem : ∀ x ∈ dropped, x ∈ (st.files eid fid).locks) (nodup : (dropped.map Node.ptr).Nodup) :
    Linked exact (dropped.foldl (fun st x => dropFileLock st eid fid x) st) := by
  induction dropped generalizing st with
  | nil => exact linked
  | cons x rest ih =>
    obtain ⟨fresh,nodupRest⟩ := List.nodup_cons.mp nodup
    have memX := mem x (by simp)
    apply ih (linked.dropFileLock memX) _ nodupRest
    intro y memY
    apply mem_drop linked memX (mem y (by simp [memY]))
    intro same
    exact fresh (List.mem_map.mpr ⟨y,memY,same⟩)

theorem clearOwner_linked (clientRef ownerRef : Nat) {st : State φ} (linked : Linked exact st) :
    Linked exact (exportClearOwnerFileLock eid fid clientRef ownerRef st) := by
  apply dropAll_linked _ linked
  · intro x mem
    exact (List.mem_filter.mp mem).1
  · exact (linked.fileNodup eid fid).sublist (List.filter_sublist.map _)

end Requests

section Removals
variable {φ : Type} {exact : Prop} {eid : Nat} {st : State φ}

/-- The clients meet `idle` when they have no lock. -/
def Idle (st : State φ) (eid : Nat) (idle : Nat → Prop) : Prop :=
  ∀ c ∈ st.clients eid, idle c.clientRef → c.locks = []

theorem unlinkAll_clients (ptrs : List Nat) {st : State φ} {after : Client} (mem : after ∈ (unlinkAll st ptrs).clients eid) :
    ∃ c ∈ st.clients eid, c.clientRef = after.clientRef ∧ after.locks ⊆ c.locks := by
  induction ptrs generalizing st with
  | nil => exact ⟨after,mem,rfl,List.Subset.refl _⟩
  | cons ptr rest ih =>
    obtain ⟨c,memC,ref,sub⟩ := ih mem
    obtain ⟨d,memD,rfl⟩ := List.mem_map.mp memC
    exact ⟨d,memD,ref,fun p memP => (List.mem_filter.mp (sub memP)).1⟩

/-- The locks of a list go away; the counters stay exact only when there is none. -/
theorem unlinkAll_linked (ptrs : List Nat) (linked : Linked exact st) (nodup : ptrs.Nodup)
    (mem : ∀ ptr ∈ ptrs, ptr ∈ st.heap) (none : exact → ptrs = []) : Linked exact (unlinkAll st ptrs) := by
  by_cases holds : exact
  · rw [none holds]
    exact linked
  · have unlinked := Linked.unlinkAll ptrs linked.weaken nodup mem
    simpa [holds] using unlinked

theorem removeClient_linked (clientRef : Nat) (linked : Linked exact st)
    (idle : exact → Idle st eid fun ref => ref = clientRef) : Linked exact (fileLockRemoveClient st eid clientRef) := by
  unfold fileLockRemoveClient
  split
  · exact linked
  case h_2 client found =>
    have memClient := List.mem_of_find?_eq_some found
    have ref : client.clientRef = clientRef := by simpa using List.find?_some found
    have inHeap : ∀ ptr ∈ client.locks, ptr ∈ st.heap := by
      intro ptr at_
      obtain ⟨fid,on⟩ := linked.node_of memClient at_
      exact (linked.heapFile ptr).mpr ⟨eid,fid,_,on⟩
    have unlinked := unlinkAll_linked client.locks linked (linked.clientNodup eid client memClient) inHeap
      fun holds => idle holds client memClient ref
    apply unlinked.setClients
    · exact (unlinked.refsNodup eid).sublist (List.filter_sublist.map _)
    · intro c mem
      exact unlinked.clientNodup eid c (List.mem_filter.mp mem).1
    · intro c mem
      exact unlinked.clientCount eid c (List.mem_filter.mp mem).1
    · intro r ptr
      constructor
      · rintro ⟨c,mem,rest⟩
        exact ⟨c,(List.mem_filter.mp mem).1,rest⟩
      · rintro ⟨c,mem,rfl,at_⟩
        refine ⟨c,List.mem_filter.mpr ⟨mem,?_⟩,rfl,at_⟩
        have old := (onClient_unlinkAll client.locks c.clientRef ptr).mp ⟨c,mem,rfl,at_⟩
        obtain ⟨⟨d,memD,sameRef,atD⟩,outside⟩ := old
        have other : c.clientRef ≠ clientRef := by
          intro same
          have isClient := linked.client_eq memD memClient (by rw [sameRef,same,ref])
          subst isClient
          exact outside atD
        simpa using other

theorem removeClient_idle (clientRef : Nat) {idle : Nat → Prop} (before : Idle st eid idle) :
    Idle (fileLockRemoveClient st eid clientRef) eid idle := by
  unfold fileLockRemoveClient
  split
  · exact before
  case h_2 client found =>
    intro c mem wanted
    rw [setClients_clients,if_pos rfl] at mem
    obtain ⟨d,memD,ref,sub⟩ := unlinkAll_clients client.locks (List.mem_filter.mp mem).1
    have none := before d memD (ref ▸ wanted)
    rw [none] at sub
    exact List.subset_nil.mp sub

theorem removeClient_refs (clientRef : Nat) {c : Client} (mem : c ∈ (fileLockRemoveClient st eid clientRef).clients eid) :
    ∃ d ∈ st.clients eid, d.clientRef = c.clientRef := by
  unfold fileLockRemoveClient at mem
  split at mem
  · exact ⟨c,mem,rfl⟩
  case h_2 client found =>
    rw [setClients_clients,if_pos rfl] at mem
    obtain ⟨d,memD,ref,_⟩ := unlinkAll_clients client.locks (List.mem_filter.mp mem).1
    exact ⟨d,memD,ref⟩

theorem removeClients_linked (old : List Client) {st : State φ} (linked : Linked exact st)
    (idle : exact → Idle st eid fun ref => ∃ c ∈ old, c.clientRef = ref) :
    Linked exact (old.foldl (fun st c => fileLockRemoveClient st eid c.clientRef) st) ∧
    ∀ c ∈ (old.foldl (fun st c => fileLockRemoveClient st eid c.clientRef) st).clients eid,
      ∃ d ∈ st.clients eid, d.clientRef = c.clientRef := by
  induction old generalizing st with
  | nil => exact ⟨linked,fun c mem => ⟨c,mem,rfl⟩⟩
  | cons client rest ih =>
    have removed := removeClient_linked client.clientRef linked fun holds c mem same =>
      idle holds c mem ⟨client,by simp,same.symm⟩
    have later : exact → Idle (fileLockRemoveClient st eid client.clientRef) eid fun ref => ∃ c ∈ rest, c.clientRef = ref := by
      intro holds
      apply removeClient_idle
      rintro c mem ⟨d,memD,ref⟩
      exact idle holds c mem ⟨d,by simp [memD],ref⟩
    obtain ⟨final,refs⟩ := ih removed later
    refine ⟨final,?_⟩
    intro c mem
    obtain ⟨d,memD,refD⟩ := refs c mem
    obtain ⟨e,memE,refE⟩ := removeClient_refs client.clientRef memD
    exact ⟨e,memE,refE.trans refD⟩

theorem pollClient_linked (clientRef : Nat) (late : Nat → Bool) (linked : Linked exact st)
    (idle : exact → Idle st eid fun ref => ref ≠ clientRef ∧ late ref = true) :
    Linked exact (fileLockPollClient st eid clientRef late) := by
  unfold fileLockPollClient
  dsimp only
  have expired : exact → Idle st eid fun ref => ∃ c ∈ (st.clients eid).filter
      fun c => c.clientRef ≠ clientRef ∧ late c.clientRef = true, c.clientRef = ref := by
    rintro holds c mem ⟨d,memD,same⟩
    have which := (List.mem_filter.mp memD).2
    simp only [same,decide_eq_true_eq] at which
    exact idle holds c mem which
  obtain ⟨removed,refs⟩ := removeClients_linked _ linked expired
  split
  · exact removed
  case isFalse absent =>
    apply removed.createClient
    intro c mem same
    obtain ⟨d,memD,ref⟩ := refs c mem
    apply absent
    simpa using ⟨d,memD,ref.trans same⟩

theorem clearClient_linked (clientRef : Nat) (late : Nat → Bool) (linked : Linked exact st)
    (own : exact → Idle st eid fun ref => ref = clientRef)
    (idle : exact → Idle st eid fun ref => ref ≠ clientRef ∧ late ref = true) :
    Linked exact (exportClearClientFileLock eid clientRef late st) :=
  pollClient_linked clientRef late (removeClient_linked clientRef linked own) fun holds =>
    removeClient_idle clientRef (idle holds)

theorem cacheUnlink_linked [DecidableEq φ] (fid : φ) (linked : Linked exact st)
    (none : exact → (st.files eid fid).locks = []) : Linked exact (lv2CacheUnlink st eid fid) := by
  have inHeap : ∀ ptr ∈ (st.files eid fid).locks.map Node.ptr, ptr ∈ st.heap := by
    intro ptr mem
    obtain ⟨x,memX,rfl⟩ := List.mem_map.mp mem
    exact linked.mem_heap memX
  have unlinked := unlinkAll_linked _ linked (linked.fileNodup eid fid) inHeap fun holds => by simp [none holds]
  have empty : ((unlinkAll st ((st.files eid fid).locks.map Node.ptr)).files eid fid).locks = [] := by
    apply List.eq_nil_iff_forall_not_mem.mpr
    intro x mem
    obtain ⟨old,outside⟩ := (onFile_unlinkAll _ x.lock.clientRef x.ptr).mp (OnFile.of_mem mem)
    obtain ⟨y,memY,same,_⟩ := old
    exact outside (List.mem_map.mpr ⟨y,memY,same⟩)
  exact unlinked.recountFile empty.symm Counts.zero

end Removals

section Runs
variable {φ : Type}

/-- Every allocated lock is in one list of a file and in one list of a client, and the counters
are the lengths of the lists. -/
structure Accounted (st : State φ) : Prop where
  inFile : ∀ ptr ∈ st.heap, ∃! place : Nat × φ, ptr ∈ (st.files place.1 place.2).locks.map Node.ptr
  inClient : ∀ ptr ∈ st.heap, ∃! place : Nat × Client, place.2 ∈ st.clients place.1 ∧ ptr ∈ place.2.locks
  files : ∀ eid fid, ((st.files eid fid).locks.map Node.ptr).Nodup ∧ ∀ x ∈ (st.files eid fid).locks, x.ptr ∈ st.heap
  clients : ∀ eid, ∀ c ∈ st.clients eid, c.locks.Nodup ∧ ∀ ptr ∈ c.locks, ptr ∈ st.heap
  nbLocks : ∀ eid fid, (st.files eid fid).nbLocks = (st.files eid fid).locks.length
  nbLock : ∀ eid, ∀ c ∈ st.clients eid, c.nbLock = c.locks.length
  heap : st.heap.Nodup
  nbFileLock : st.nbFileLock = st.heap.length

theorem accounted_of_linked {st : State φ} (linked : Linked True st) : Accounted st where
  inFile ptr mem := by
    obtain ⟨eid,fid,ref,on⟩ := (linked.heapFile ptr).mp mem
    obtain ⟨x,memX,same,_⟩ := on
    refine ⟨(eid,fid),List.mem_map.mpr ⟨x,memX,same⟩,?_⟩
    rintro ⟨eid',fid'⟩ mem'
    obtain ⟨y,memY,same'⟩ := List.mem_map.mp mem'
    obtain ⟨rfl,rfl⟩ := linked.fileOnce (OnFile.of_mem memY) ((same.trans same'.symm) ▸ OnFile.of_mem memX)
    rfl
  inClient ptr mem := by
    obtain ⟨eid,fid,ref,on⟩ := (linked.heapFile ptr).mp mem
    obtain ⟨c,memC,_,at_⟩ := (linked.clientFile eid ref ptr).mpr ⟨fid,on⟩
    refine ⟨(eid,c),⟨memC,at_⟩,?_⟩
    rintro ⟨eid',d⟩ ⟨memD,atD⟩
    obtain ⟨rfl,rfl⟩ := linked.client_once memD memC atD at_
    rfl
  files eid fid := ⟨linked.fileNodup eid fid,fun x mem => linked.mem_heap mem⟩
  clients eid c mem := by
    refine ⟨linked.clientNodup eid c mem,?_⟩
    intro ptr at_
    obtain ⟨fid,on⟩ := linked.node_of mem at_
    exact (linked.heapFile ptr).mpr ⟨eid,fid,_,on⟩
  nbLocks eid fid := (linked.fileCount eid fid).2 trivial
  nbLock eid c mem := (linked.clientCount eid c mem).2 trivial
  heap := linked.heapNodup
  nbFileLock := linked.heapCount

variable [DecidableEq φ]

/-- No client is removed, expired or cleared with locks, and no file is deleted with locks. -/
def safe (st : State φ) : Act φ → Bool
  | .setlk .. | .clearOwner .. | .evict .. => true
  | .removeClient eid clientRef => (st.clients eid).all fun c => c.clientRef ≠ clientRef ∨ c.locks = []
  | .clearClient eid clientRef late => (st.clients eid).all fun c =>
      (c.clientRef ≠ clientRef ∧ late c.clientRef = false) ∨ c.locks = []
  | .poll eid clientRef late => (st.clients eid).all fun c =>
      c.clientRef = clientRef ∨ late c.clientRef = false ∨ c.locks = []
  | .del eid fid => (st.files eid fid).locks = []

/-- Every step keeps the lists linked, and the counters exact when it is safe. -/
theorem step_linked {bsize : BSize} {exact : Prop} {st st' : State φ} {a : Act φ} (linked : Linked exact st)
    (careful : exact → safe st a = true) (next : step bsize a st = some st') : Linked exact st' := by
  cases a with
  | setlk eid fid mode clientRef ownerRef start len =>
    simp only [step] at next
    split at next
    · cases next
      exact linked
    case h_2 range canonical =>
      obtain ⟨st'',eq,linked'⟩ := exportSetFileLock_linked (clientLock bsize mode clientRef ownerRef range) linked
      rw [eq] at next
      cases next
      exact linked'
  | clearOwner eid fid clientRef ownerRef =>
    cases next
    exact clearOwner_linked clientRef ownerRef linked
  | clearClient eid clientRef late =>
    cases next
    simp only [safe,List.all_eq_true,decide_eq_true_eq] at careful
    apply clearClient_linked clientRef late linked
    · intro holds c mem same
      rcases careful holds c mem with other | none
      · exact absurd same other.1
      · exact none
    · intro holds c mem gone
      rcases careful holds c mem with other | none
      · rw [other.2] at gone
        exact absurd gone.2 Bool.false_ne_true
      · exact none
  | removeClient eid clientRef =>
    cases next
    simp only [safe,List.all_eq_true,decide_eq_true_eq] at careful
    apply removeClient_linked clientRef linked
    intro holds c mem same
    exact (careful holds c mem).resolve_left (not_not_intro same)
  | poll eid clientRef late =>
    cases next
    simp only [safe,List.all_eq_true,decide_eq_true_eq] at careful
    apply pollClient_linked clientRef late linked
    intro holds c mem gone
    rcases careful holds c mem with same | other | none
    · exact absurd same gone.1
    · rw [other] at gone
      exact absurd gone.2 Bool.false_ne_true
    · exact none
  | evict eid fid =>
    simp only [step] at next
    split at next
    case isTrue zero =>
      cases next
      apply cacheUnlink_linked fid linked
      intro _
      have bound := (linked.fileCount eid fid).1
      rw [zero] at bound
      exact List.eq_nil_of_length_eq_zero (by omega)
    case isFalse => cases next
  | del eid fid =>
    cases next
    apply cacheUnlink_linked fid linked
    intro holds
    simpa [safe] using careful holds

/-- In every run of safe steps the locks are accounted for, and the next request returns. -/
theorem locks_accounted (bsize : BSize) {st : State φ}
    (run : Machine.Run (step bsize) (fun st a => safe st a = true) serviceInit st) :
    Accounted st ∧ ∀ eid fid mode clientRef ownerRef start len,
      ∃ st', step bsize (.setlk eid fid mode clientRef ownerRef start len) st = some st' := by
  have linked : Linked True st :=
    run.invariant _ (LockLists.initial True) fun st a st' linked careful next => step_linked linked (fun _ => careful) next
  refine ⟨accounted_of_linked linked,?_⟩
  intro eid fid mode clientRef ownerRef start len
  simp only [step]
  split
  · exact ⟨st,rfl⟩
  case h_2 range canonical =>
    obtain ⟨st',eq,_⟩ := exportSetFileLock_linked (clientLock bsize mode clientRef ownerRef range) linked
    exact ⟨st',eq⟩

/-- Two owners of a client lock a file; one frees the middle of its range, the other one goes
away, and a client without locks expires. -/
theorem locks_accounted_split : ∃ st : State Nat,
    ((st.files 1 7).nbLocks,(st.clients 1).map fun c => (c.clientRef,c.nbLock)) = (2,[(3,2)]) ∧ Accounted st := by
  have done : (Machine.exec (step .bsize4K) (fun (st : State Nat) a => safe st a = true)
      [.setlk 1 7 .read 3 1 0 20000,.setlk 1 7 .read 3 2 0 100,.poll 1 4 fun _ => false,.setlk 1 7 .free 3 1 5000 100,
        .clearOwner 1 7 3 2,.poll 1 3 fun ref => ref == 4] serviceInit).map
      (fun st => ((st.files 1 7).nbLocks,(st.clients 1).map fun c => (c.clientRef,c.nbLock))) =
      some (2,[(3,2)]) := by decide +kernel
  obtain ⟨st,done,seen⟩ := Option.map_eq_some_iff.mp done
  exact ⟨st,seen,(locks_accounted .bsize4K (Machine.Run.refl.exec done)).1⟩

/-- The locks of a client that is removed stay in the counter of the file. -/
theorem removed_client_counted : ∃ st : State Nat,
    Machine.Run (step .bsize4K) (fun _ _ => True) serviceInit st ∧ ¬Accounted st := by
  have done : (Machine.exec (step .bsize4K) (fun (_ : State Nat) _ => True)
      [.setlk 1 7 .write 3 1 0 0,.removeClient 1 3] serviceInit).map
      (fun st => ((st.files 1 7).nbLocks,(st.files 1 7).locks.length)) = some (1,0) := by decide +kernel
  obtain ⟨st,done,seen⟩ := Option.map_eq_some_iff.mp done
  obtain ⟨counter,length⟩ := Prod.mk.inj seen
  refine ⟨st,Machine.Run.refl.exec done,?_⟩
  intro accounted
  have equal := accounted.nbLocks 1 7
  rw [counter,length] at equal
  exact absurd equal (by decide)

end Runs

end Rozofs.LockAccounting
