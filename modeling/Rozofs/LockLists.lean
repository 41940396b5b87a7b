import Rozofs.FileLock
import Mathlib.Data.List.Nodup
import Mathlib.Data.List.Perm.Subperm

/-! The two lists of a file lock. A lock is linked in the list of its file and in the list of
its client as long as it is allocated; the counters of both lists are never below the lengths,
and they are the lengths while no client and no file goes away with locks. -/
namespace Rozofs.LockLists
open FileLock
open Function (update)

variable {φ : Type}

/-- A lock of client `ref` at address `ptr` is in the list of the file. -/
def OnFile (st : State φ) (eid : Nat) (fid : φ) (ptr ref : Nat) : Prop :=
  ∃ x ∈ (st.files eid fid).locks, x.ptr = ptr ∧ x.lock.clientRef = ref

/-- Address `ptr` is in the list of client `ref`. -/
def OnClient (st : State φ) (eid ref ptr : Nat) : Prop := ∃ c ∈ st.clients eid, c.clientRef = ref ∧ ptr ∈ c.locks

/-- A counter is not below the length of its list, and is the length when it is exact. -/
def Counts (exact : Prop) (counter : Int) (length : Nat) : Prop := length ≤ counter ∧ (exact → counter = length)

/-- Both lists hold the allocated locks. -/
structure Linked (exact : Prop) (st : State φ) : Prop where
  heapNodup : st.heap.Nodup
  heapBelow : ∀ ptr ∈ st.heap, ptr < st.next
  heapCount : st.nbFileLock = st.heap.length
  heapFile : ∀ ptr, ptr ∈ st.heap ↔ ∃ eid fid ref, OnFile st eid fid ptr ref
  fileNodup : ∀ eid fid, ((st.files eid fid).locks.map Node.ptr).Nodup
  fileOnce : ∀ {eid fid eid' fid' ptr ref ref'}, OnFile st eid fid ptr ref → OnFile st eid' fid' ptr ref' →
    eid = eid' ∧ fid = fid'
  refsNodup : ∀ eid, ((st.clients eid).map Client.clientRef).Nodup
  clientNodup : ∀ eid, ∀ c ∈ st.clients eid, c.locks.Nodup
  clientFile : ∀ eid ref ptr, OnClient st eid ref ptr ↔ ∃ fid, OnFile st eid fid ptr ref
  fileCount : ∀ eid fid, Counts exact (st.files eid fid).nbLocks (st.files eid fid).locks.length
  clientCount : ∀ eid, ∀ c ∈ st.clients eid, Counts exact c.nbLock c.locks.length

theorem initial (exact : Prop) : Linked exact (serviceInit : State φ) := by
  constructor <;> simp [serviceInit,OnFile,OnClient,Counts]

section Counters
variable {exact : Prop} {counter : Int} {length : Nat}

theorem Counts.weaken (counts : Counts exact counter length) : Counts False counter length := ⟨counts.1,False.elim⟩

theorem Counts.lower (counts : Counts exact counter length) {shorter : Nat} (le : shorter ≤ length) :
    Counts False counter shorter := by
  have bound := counts.1
  exact ⟨by omega,False.elim⟩

theorem Counts.succ (counts : Counts exact counter length) : Counts exact (counter + 1) (length + 1) := by
  obtain ⟨bound,equal⟩ := counts
  exact ⟨by omega,fun holds => by rw [equal holds]; rfl⟩

theorem Counts.pred (counts : Counts exact counter (length + 1)) : Counts exact (counter - 1) length := by
  obtain ⟨bound,equal⟩ := counts
  exact ⟨by omega,fun holds => by rw [equal holds]; omega⟩

theorem Counts.zero : Counts exact 0 0 := ⟨Int.le_refl 0,fun _ => rfl⟩

end Counters

section Relations
variable {exact : Prop} {st : State φ} {eid : Nat} {fid : φ} {x : Node}

theorem OnFile.of_mem (mem : x ∈ (st.files eid fid).locks) : OnFile st eid fid x.ptr x.lock.clientRef :=
  ⟨x,mem,rfl,rfl⟩

theorem Linked.mem_heap (linked : Linked exact st) (mem : x ∈ (st.files eid fid).locks) : x.ptr ∈ st.heap :=
  (linked.heapFile x.ptr).mpr ⟨eid,fid,x.lock.clientRef,.of_mem mem⟩

theorem Linked.node_eq (linked : Linked exact st) {y : Node} (memX : x ∈ (st.files eid fid).locks)
    (memY : y ∈ (st.files eid fid).locks) (same : x.ptr = y.ptr) : x = y :=
  List.inj_on_of_nodup_map (linked.fileNodup eid fid) memX memY same

theorem Linked.client_eq (linked : Linked exact st) {c d : Client} (memC : c ∈ st.clients eid)
    (memD : d ∈ st.clients eid) (same : c.clientRef = d.clientRef) : c = d :=
  List.inj_on_of_nodup_map (linked.refsNodup eid) memC memD same

theorem Linked.weaken (linked : Linked exact st) : Linked False st :=
  { linked with
    fileCount := fun eid fid => (linked.fileCount eid fid).weaken
    clientCount := fun eid c mem => (linked.clientCount eid c mem).weaken }

/-- The client of a linked lock. -/
theorem Linked.client_of (linked : Linked exact st) (mem : x ∈ (st.files eid fid).locks) :
    ∃ c ∈ st.clients eid, c.clientRef = x.lock.clientRef ∧ x.ptr ∈ c.locks :=
  (linked.clientFile eid x.lock.clientRef x.ptr).mpr ⟨fid,.of_mem mem⟩

/-- The lock at an address of a client's list. -/
theorem Linked.node_of (linked : Linked exact st) {c : Client} {ptr : Nat} (mem : c ∈ st.clients eid) (at_ : ptr ∈ c.locks) :
    ∃ fid, OnFile st eid fid ptr c.clientRef :=
  (linked.clientFile eid c.clientRef ptr).mp ⟨c,mem,rfl,at_⟩

/-- An address is in the list of one client only. -/
theorem Linked.client_once (linked : Linked exact st) {c d : Client} {eid' ptr : Nat} (memC : c ∈ st.clients eid)
    (memD : d ∈ st.clients eid') (atC : ptr ∈ c.locks) (atD : ptr ∈ d.locks) : eid = eid' ∧ c = d := by
  obtain ⟨fidC,onC⟩ := linked.node_of memC atC
  obtain ⟨fidD,onD⟩ := linked.node_of memD atD
  obtain ⟨rfl,rfl⟩ := linked.fileOnce onC onD
  obtain ⟨x,memX,ptrX,refX⟩ := onC
  obtain ⟨y,memY,ptrY,refY⟩ := onD
  have same := linked.node_eq memX memY (ptrX.trans ptrY.symm)
  subst same
  exact ⟨rfl,linked.client_eq memC memD (refX.symm.trans refY)⟩

end Relations

section Updates
variable {st : State φ} {eid : Nat} {fid : φ}

@[simp] theorem setEntry_clients [DecidableEq φ] (entry : Entry) : (setEntry st eid fid entry).clients = st.clients := rfl

@[simp] theorem setEntry_files [DecidableEq φ] (entry : Entry) (eid' : Nat) (fid' : φ) :
    (setEntry st eid fid entry).files eid' fid' = if eid' = eid ∧ fid' = fid then entry else st.files eid' fid' := by
  by_cases sameEid : eid' = eid
  · subst sameEid
    by_cases sameFid : fid' = fid <;> simp [setEntry,sameFid]
  · simp [setEntry,sameEid]

@[simp] theorem setClients_files (clients : List Client) : (setClients st eid clients).files = st.files := rfl

@[simp] theorem setClients_clients (clients : List Client) (eid' : Nat) :
    (setClients st eid clients).clients eid' = if eid' = eid then clients else st.clients eid' := by
  by_cases same : eid' = eid <;> simp [setClients,same]

end Updates

section Primitives
variable {exact : Prop} {st : State φ} {eid : Nat} {fid : φ} {x : Node} {ptr : Nat}

theorem onFile_unlink (ref : Nat) (ptr' : Nat) :
    OnFile (xfree (fileLockUnlink st ptr) ptr) eid fid ptr' ref ↔ OnFile st eid fid ptr' ref ∧ ptr' ≠ ptr := by
  constructor
  · rintro ⟨y,mem,rfl,rfl⟩
    simp only [xfree,fileLockUnlink,List.mem_filter,decide_eq_true_eq] at mem
    exact ⟨.of_mem mem.1,mem.2⟩
  · rintro ⟨⟨y,mem,rfl,rfl⟩,differ⟩
    exact ⟨y,by simpa [xfree,fileLockUnlink] using ⟨mem,differ⟩,rfl,rfl⟩

theorem onClient_unlink (ref : Nat) (ptr' : Nat) :
    OnClient (xfree (fileLockUnlink st ptr) ptr) eid ref ptr' ↔ OnClient st eid ref ptr' ∧ ptr' ≠ ptr := by
  constructor
  · rintro ⟨c,mem,rfl,at_⟩
    obtain ⟨d,memD,rfl⟩ := List.mem_map.mp mem
    have old := List.mem_filter.mp at_
    exact ⟨⟨d,memD,rfl,old.1⟩,by simpa using old.2⟩
  · rintro ⟨⟨c,mem,rfl,at_⟩,differ⟩
    exact ⟨_,List.mem_map.mpr ⟨c,mem,rfl⟩,rfl,List.mem_filter.mpr ⟨at_,by simpa using differ⟩⟩

theorem length_filter_ne {heap : List Nat} (nodup : heap.Nodup) (mem : ptr ∈ heap) :
    (heap.filter fun p => p ≠ ptr).length + 1 = heap.length := by
  have erased : heap.filter (fun p => p ≠ ptr) = heap.erase ptr := by
    rw [nodup.erase_eq_filter]
    exact List.filter_congr fun p _ => by simp [bne,BEq.beq]
  rw [erased,List.length_erase_of_mem mem]
  have positive := List.length_pos_of_mem mem
  omega

/-- A lock is unlinked from both lists; the counters of the lists are left. -/
theorem Linked.unlink (linked : Linked exact st) (mem : ptr ∈ st.heap) :
    Linked False (xfree (fileLockUnlink st ptr) ptr) where
  heapNodup := linked.heapNodup.filter _
  heapBelow p memP := linked.heapBelow p (List.mem_filter.mp memP).1
  heapCount := by
    have shorter := length_filter_ne linked.heapNodup mem
    have count := linked.heapCount
    simp only [xfree,fileLockUnlink] at shorter ⊢
    omega
  heapFile p := by
    simp only [onFile_unlink]
    constructor
    · intro memP
      have old := List.mem_filter.mp memP
      obtain ⟨eid,fid,ref,on⟩ := (linked.heapFile p).mp old.1
      exact ⟨eid,fid,ref,on,by simpa using old.2⟩
    · rintro ⟨eid,fid,ref,on,differ⟩
      exact List.mem_filter.mpr ⟨(linked.heapFile p).mpr ⟨eid,fid,ref,on⟩,by simpa using differ⟩
  fileNodup eid fid := (linked.fileNodup eid fid).sublist (List.filter_sublist.map _)
  fileOnce on on' := linked.fileOnce ((onFile_unlink _ _).mp on).1 ((onFile_unlink _ _).mp on').1
  refsNodup eid := by simpa [xfree,fileLockUnlink,Function.comp_def] using linked.refsNodup eid
  clientNodup eid c memC := by
    obtain ⟨d,memD,rfl⟩ := List.mem_map.mp memC
    exact (linked.clientNodup eid d memD).filter _
  clientFile eid ref p := by
    simp only [onClient_unlink,onFile_unlink,linked.clientFile]
    exact ⟨fun ⟨⟨fid,on⟩,differ⟩ => ⟨fid,on,differ⟩,fun ⟨fid,on,differ⟩ => ⟨⟨fid,on⟩,differ⟩⟩
  fileCount eid fid := (linked.fileCount eid fid).lower (List.length_filter_le _ _)
  clientCount eid c memC := by
    obtain ⟨d,memD,rfl⟩ := List.mem_map.mp memC
    exact (linked.clientCount eid d memD).lower (List.length_filter_le _ _)

theorem Linked.unlinkAll (ptrs : List Nat) {st : State φ} (linked : Linked False st) (nodup : ptrs.Nodup)
    (mem : ∀ ptr ∈ ptrs, ptr ∈ st.heap) : Linked False (FileLock.unlinkAll st ptrs) := by
  induction ptrs generalizing st with
  | nil => exact linked
  | cons ptr rest ih =>
    have parts := List.nodup_cons.mp nodup
    apply ih (linked.unlink (mem ptr (by simp))) parts.2
    intro p memP
    apply List.mem_filter.mpr
    have differ : p ≠ ptr := fun same => parts.1 (same ▸ memP)
    exact ⟨mem p (by simp [memP]),by simpa using differ⟩

theorem onClient_unlinkAll (ptrs : List Nat) {st : State φ} (ref p : Nat) :
    OnClient (FileLock.unlinkAll st ptrs) eid ref p ↔ OnClient st eid ref p ∧ p ∉ ptrs := by
  induction ptrs generalizing st with
  | nil => simp [FileLock.unlinkAll]
  | cons ptr rest ih =>
    have later := @ih (xfree (fileLockUnlink st ptr) ptr)
    simp only [onClient_unlink] at later
    simp only [FileLock.unlinkAll,List.foldl_cons,List.mem_cons,not_or] at later ⊢
    rw [later]
    exact and_assoc

theorem onFile_unlinkAll (ptrs : List Nat) {st : State φ} (ref p : Nat) :
    OnFile (FileLock.unlinkAll st ptrs) eid fid p ref ↔ OnFile st eid fid p ref ∧ p ∉ ptrs := by
  induction ptrs generalizing st with
  | nil => simp [FileLock.unlinkAll]
  | cons ptr rest ih =>
    have later := @ih (xfree (fileLockUnlink st ptr) ptr)
    simp only [onFile_unlink] at later
    simp only [FileLock.unlinkAll,List.foldl_cons,List.mem_cons,not_or] at later ⊢
    rw [later]
    exact and_assoc

/-- Other counters, and the same lists. -/
theorem Linked.recount {st st' : State φ} {exact' : Prop} (linked : Linked exact st) (next : st'.next = st.next)
    (heap : st'.heap = st.heap) (count : st'.nbFileLock = st.nbFileLock)
    (files : ∀ eid fid, (st'.files eid fid).locks = (st.files eid fid).locks)
    (clients : ∀ eid, (st'.clients eid).map (fun c => (c.clientRef,c.locks)) =
      (st.clients eid).map fun c => (c.clientRef,c.locks))
    (fileCount : ∀ eid fid, Counts exact' (st'.files eid fid).nbLocks (st'.files eid fid).locks.length)
    (clientCount : ∀ eid, ∀ c ∈ st'.clients eid, Counts exact' c.nbLock c.locks.length) : Linked exact' st' := by
  have onFile : ∀ eid fid ptr ref, OnFile st' eid fid ptr ref ↔ OnFile st eid fid ptr ref := by
    intro eid fid ptr ref
    simp only [OnFile,files]
  have pairs : ∀ eid pair, (∃ c ∈ st'.clients eid, (c.clientRef,c.locks) = pair) ↔
      ∃ c ∈ st.clients eid, (c.clientRef,c.locks) = pair := by
    intro eid pair
    rw [← List.mem_map,← List.mem_map,clients]
  have onClient : ∀ eid ref ptr, OnClient st' eid ref ptr ↔ OnClient st eid ref ptr := by
    intro eid ref ptr
    constructor
    · rintro ⟨c,mem,rfl,at_⟩
      obtain ⟨d,memD,same⟩ := (pairs eid _).mp ⟨c,mem,rfl⟩
      obtain ⟨sameRef,sameLocks⟩ := Prod.mk.inj same
      exact ⟨d,memD,sameRef,sameLocks ▸ at_⟩
    · rintro ⟨c,mem,rfl,at_⟩
      obtain ⟨d,memD,same⟩ := (pairs eid _).mpr ⟨c,mem,rfl⟩
      obtain ⟨sameRef,sameLocks⟩ := Prod.mk.inj same
      exact ⟨d,memD,sameRef,sameLocks ▸ at_⟩
  constructor
  case heapNodup => exact heap ▸ linked.heapNodup
  case heapBelow => exact heap ▸ next ▸ linked.heapBelow
  case heapCount => rw [count,heap,linked.heapCount]
  case heapFile =>
    intro ptr
    simp only [heap,onFile]
    exact linked.heapFile ptr
  case fileNodup =>
    intro eid fid
    rw [files]
    exact linked.fileNodup eid fid
  case fileOnce => exact fun on on' => linked.fileOnce ((onFile _ _ _ _).mp on) ((onFile _ _ _ _).mp on')
  case refsNodup =>
    intro eid
    have old := linked.refsNodup eid
    have refs := congrArg (List.map Prod.fst) (clients eid)
    simp only [List.map_map,Function.comp_def] at refs
    exact refs ▸ old
  case clientNodup =>
    intro eid c mem
    obtain ⟨d,memD,same⟩ := (pairs eid _).mp ⟨c,mem,rfl⟩
    exact (Prod.mk.inj same).2 ▸ linked.clientNodup eid d memD
  case clientFile =>
    intro eid ref ptr
    simp only [onClient,onFile]
    exact linked.clientFile eid ref ptr
  case fileCount => exact fileCount
  case clientCount => exact clientCount

/-- Other clients, with the same addresses. -/
theorem Linked.setClients {clients : List Client} (linked : Linked exact st) (refs : (clients.map Client.clientRef).Nodup)
    (nodup : ∀ c ∈ clients, c.locks.Nodup) (counts : ∀ c ∈ clients, Counts exact c.nbLock c.locks.length)
    (on : ∀ ref ptr, (∃ c ∈ clients, c.clientRef = ref ∧ ptr ∈ c.locks) ↔ OnClient st eid ref ptr) :
    Linked exact (FileLock.setClients st eid clients) :=
  { linked with
    refsNodup := by
      intro eid'
      rw [setClients_clients]
      split
      · exact refs
      · exact linked.refsNodup eid'
    clientNodup := by
      intro eid' c mem
      rw [setClients_clients] at mem
      split at mem
      · exact nodup c mem
      · exact linked.clientNodup eid' c mem
    clientFile := by
      intro eid' ref ptr
      apply Iff.trans _ (linked.clientFile eid' ref ptr)
      simp only [OnClient,setClients_clients]
      split
      case isTrue same =>
        subst same
        exact on ref ptr
      case isFalse => exact Iff.rfl
    clientCount := by
      intro eid' c mem
      rw [setClients_clients] at mem
      split at mem
      · exact counts c mem
      · exact linked.clientCount eid' c mem }

end Primitives

section Locks
variable {exact : Prop} {st : State φ} {eid : Nat} {fid : φ} {x : Node}

theorem Linked.createClient {clientRef : Nat} (linked : Linked exact st)
    (fresh : ∀ c ∈ st.clients eid, c.clientRef ≠ clientRef) : Linked exact (fileLockCreateClient st eid clientRef) := by
  apply linked.setClients
  · rw [List.map_cons,List.nodup_cons]
    refine ⟨?_,linked.refsNodup eid⟩
    intro mem
    obtain ⟨c,memC,same⟩ := List.mem_map.mp mem
    exact fresh c memC same
  · intro c mem
    rcases List.mem_cons.mp mem with rfl | old
    · exact List.nodup_nil
    · exact linked.clientNodup eid c old
  · intro c mem
    rcases List.mem_cons.mp mem with rfl | old
    · exact Counts.zero
    · exact linked.clientCount eid c old
  · intro ref ptr
    simp [OnClient]

/-- The files do not hold the address twice. -/
theorem Linked.filter_other (linked : Linked exact st) (mem : x ∈ (st.files eid fid).locks) {eid' : Nat} {fid' : φ}
    (other : ¬(eid' = eid ∧ fid' = fid)) :
    ((st.files eid' fid').locks.filter fun y => y.ptr ≠ x.ptr) = (st.files eid' fid').locks := by
  apply List.filter_eq_self.mpr
  intro y memY
  have differ : y.ptr ≠ x.ptr := by
    intro same
    exact other (linked.fileOnce (OnFile.of_mem memY) (same ▸ OnFile.of_mem mem))
  simpa using differ

theorem Linked.perm_filter (linked : Linked exact st) (mem : x ∈ (st.files eid fid).locks) :
    (st.files eid fid).locks.Perm (x :: (st.files eid fid).locks.filter fun y => y.ptr ≠ x.ptr) := by
  have erased : ((st.files eid fid).locks.filter fun y => y.ptr ≠ x.ptr) = (st.files eid fid).locks.erase x := by
    rw [(List.Nodup.of_map _ (linked.fileNodup eid fid)).erase_eq_filter]
    apply List.filter_congr
    intro y memY
    by_cases same : y = x
    · simp [same]
    · have differ : y.ptr ≠ x.ptr := fun equal => same (linked.node_eq memY mem equal)
      simp [same,differ]
  rw [erased]
  exact List.perm_cons_erase mem

theorem Linked.length_filter (linked : Linked exact st) (mem : x ∈ (st.files eid fid).locks) :
    ((st.files eid fid).locks.filter fun y => y.ptr ≠ x.ptr).length + 1 = (st.files eid fid).locks.length :=
  (linked.perm_filter mem).length_eq.symm

/-- The client of a new lock exists. -/
def withClient (st : State φ) (eid clientRef : Nat) : State φ :=
  if (st.clients eid).any fun c => c.clientRef = clientRef then st else fileLockCreateClient st eid clientRef

theorem Linked.withClient (linked : Linked exact st) (clientRef : Nat) : Linked exact (withClient st eid clientRef) := by
  unfold LockLists.withClient
  split
  · exact linked
  case isFalse absent =>
    apply linked.createClient
    intro c mem same
    apply absent
    simpa using ⟨c,mem,same⟩

theorem withClient_has (clientRef : Nat) : ∃ c ∈ (withClient st eid clientRef).clients eid, c.clientRef = clientRef := by
  unfold withClient
  split
  case isTrue found => simpa using found
  case isFalse => exact ⟨⟨clientRef,0,[]⟩,by simp [fileLockCreateClient],rfl⟩

variable [DecidableEq φ]

/-- Another counter of a file. -/
theorem Linked.recountFile {entry : Entry} (linked : Linked exact st) (same : entry.locks = (st.files eid fid).locks)
    (counts : Counts exact entry.nbLocks entry.locks.length) : Linked exact (setEntry st eid fid entry) := by
  apply Linked.recount linked
  case next => rfl
  case heap => rfl
  case count => rfl
  case files =>
    intro eid' fid'
    rw [setEntry_files]
    split
    case isTrue here =>
      obtain ⟨rfl,rfl⟩ := here
      exact same
    case isFalse => rfl
  case clients => exact fun _ => rfl
  case fileCount =>
    intro eid' fid'
    rw [setEntry_files]
    split
    · exact counts
    · exact linked.fileCount eid' fid'
  case clientCount => exact linked.clientCount

theorem dropFileLock_eq (linked : Linked exact st) (mem : x ∈ (st.files eid fid).locks) :
    dropFileLock st eid fid x =
      setEntry (xfree (fileLockUnlink (FileLock.setClients st eid ((st.clients eid).map fun c =>
          if c.clientRef = x.lock.clientRef then { c with nbLock := c.nbLock - 1 } else c)) x.ptr) x.ptr) eid fid
        ⟨if ((st.files eid fid).locks.filter fun y => y.ptr ≠ x.ptr) = [] then 0 else (st.files eid fid).nbLocks - 1,
          (st.files eid fid).locks.filter fun y => y.ptr ≠ x.ptr⟩ := by
  obtain ⟨c,memC,ref,_⟩ := linked.client_of mem
  have found : ((st.clients eid).any fun c => decide (c.clientRef = x.lock.clientRef)) = true := by
    simpa using ⟨c,memC,ref⟩
  simp only [dropFileLock,lv2CacheFreeFileLock,found,if_true]
  rfl

/-- A lock of the file is freed with all its counters. -/
theorem Linked.dropFileLock (linked : Linked exact st) (mem : x ∈ (st.files eid fid).locks) :
    Linked exact (FileLock.dropFileLock st eid fid x) := by
  rw [dropFileLock_eq linked mem]
  apply Linked.recount (linked.unlink (linked.mem_heap mem))
  case next => rfl
  case heap => rfl
  case count => rfl
  case files =>
    intro eid' fid'
    rw [setEntry_files]
    split
    case isTrue here =>
      obtain ⟨rfl,rfl⟩ := here
      rfl
    case isFalse => rfl
  case clients =>
    intro eid'
    simp only [xfree,fileLockUnlink,setEntry_clients,setClients_clients]
    split
    case isTrue here =>
      subst here
      simp only [List.map_map,Function.comp_def]
      apply List.map_congr_left
      intro c _
      split <;> rfl
    case isFalse => rfl
  case fileCount =>
    intro eid' fid'
    have old := linked.fileCount eid' fid'
    rw [setEntry_files]
    split
    case isTrue here =>
      obtain ⟨rfl,rfl⟩ := here
      have shorter := linked.length_filter mem
      rw [← shorter] at old
      dsimp only
      split
      case isTrue empty =>
        rw [empty]
        exact Counts.zero
      case isFalse => exact old.pred
    case isFalse other =>
      have same := linked.filter_other mem other
      simp only [xfree,fileLockUnlink,setClients_files]
      rw [same]
      exact old
  case clientCount =>
    intro eid' c memC
    obtain ⟨owner,memOwner,ownerRef,atOwner⟩ := linked.client_of mem
    obtain ⟨d,memD,rfl⟩ := List.mem_map.mp memC
    rw [setClients_clients] at memD
    split at memD
    case isTrue here =>
      subst here
      obtain ⟨e,memE,rfl⟩ := List.mem_map.mp memD
      have old := linked.clientCount eid' e memE
      split
      case isTrue same =>
        have isOwner := linked.client_eq memE memOwner (same.trans ownerRef.symm)
        subst isOwner
        have shorter := length_filter_ne (linked.clientNodup _ e memE) atOwner
        rw [← shorter] at old
        exact old.pred
      case isFalse differ =>
        have absent : ∀ p ∈ e.locks, decide (p ≠ x.ptr) = true := by
          intro p memP
          have apart : p ≠ x.ptr := by
            rintro rfl
            exact differ ((linked.client_once memE memOwner memP atOwner).2 ▸ ownerRef)
          simpa using apart
        dsimp only
        rw [List.filter_eq_self.mpr absent]
        exact old
    case isFalse other =>
      have absent : ∀ p ∈ d.locks, decide (p ≠ x.ptr) = true := by
        intro p memP
        have apart : p ≠ x.ptr := by
          rintro rfl
          exact other (linked.client_once memD memOwner memP atOwner).1
        simpa using apart
      dsimp only
      rw [List.filter_eq_self.mpr absent]
      exact linked.clientCount eid' d memD

/-- A lock is edited, and stays with its client. -/
theorem Linked.setFileLock (linked : Linked exact st) (mem : x ∈ (st.files eid fid).locks) {lock : Lock}
    (ref : lock.clientRef = x.lock.clientRef) : Linked exact (FileLock.setFileLock st eid fid x.ptr lock) := by
  let edit : Node → Node := fun y => if y.ptr = x.ptr then ⟨x.ptr,lock⟩ else y
  have editPtr : ∀ y, (edit y).ptr = y.ptr := by
    intro y
    by_cases here : y.ptr = x.ptr <;> simp [edit,here]
  have editRef : ∀ y ∈ (st.files eid fid).locks, (edit y).lock.clientRef = y.lock.clientRef := by
    intro y memY
    by_cases here : y.ptr = x.ptr
    · have same := linked.node_eq memY mem here
      subst same
      simpa [edit] using ref
    · simp [edit,here]
  have files : ∀ eid' fid', ((FileLock.setFileLock st eid fid x.ptr lock).files eid' fid') =
      if eid' = eid ∧ fid' = fid then { st.files eid fid with locks := (st.files eid fid).locks.map edit }
      else st.files eid' fid' := fun eid' fid' => setEntry_files _ eid' fid'
  have onFile : ∀ eid' fid' p r, OnFile (FileLock.setFileLock st eid fid x.ptr lock) eid' fid' p r ↔
      OnFile st eid' fid' p r := by
    intro eid' fid' p r
    simp only [OnFile,files]
    split
    case isTrue here =>
      obtain ⟨rfl,rfl⟩ := here
      simp only [List.mem_map]
      constructor
      · rintro ⟨_,⟨y,memY,rfl⟩,rfl,rfl⟩
        exact ⟨y,memY,(editPtr y).symm,(editRef y memY).symm⟩
      · rintro ⟨y,memY,rfl,rfl⟩
        exact ⟨edit y,⟨y,memY,rfl⟩,editPtr y,editRef y memY⟩
    case isFalse => exact Iff.rfl
  constructor
  case heapNodup => exact linked.heapNodup
  case heapBelow => exact linked.heapBelow
  case heapCount => exact linked.heapCount
  case heapFile =>
    intro p
    simp only [onFile]
    exact linked.heapFile p
  case fileNodup =>
    intro eid' fid'
    rw [files]
    split
    case isTrue here =>
      have old := linked.fileNodup eid fid
      simp only [List.map_map,Function.comp_def,editPtr]
      exact old
    case isFalse => exact linked.fileNodup eid' fid'
  case fileOnce => exact fun on on' => linked.fileOnce ((onFile _ _ _ _).mp on) ((onFile _ _ _ _).mp on')
  case refsNodup => exact linked.refsNodup
  case clientNodup => exact linked.clientNodup
  case clientFile =>
    intro eid' r p
    simp only [onFile]
    exact linked.clientFile eid' r p
  case fileCount =>
    intro eid' fid'
    rw [files]
    split
    case isTrue here =>
      simp only [List.length_map]
      exact linked.fileCount eid fid
    case isFalse => exact linked.fileCount eid' fid'
  case clientCount => exact linked.clientCount

/-- A new lock at the front of the lists of its file and of its client. -/
def linkLock (st : State φ) (eid : Nat) (fid : φ) (lock : Lock) : State φ :=
  let clients := (st.clients eid).map fun c =>
    if c.clientRef = lock.clientRef then { c with nbLock := c.nbLock + 1, locks := st.next :: c.locks } else c
  setEntry (FileLock.setClients
      { st with next := st.next + 1, heap := st.next :: st.heap, nbFileLock := st.nbFileLock + 1 } eid clients)
    eid fid ⟨(st.files eid fid).nbLocks + 1,⟨st.next,lock⟩ :: (st.files eid fid).locks⟩

theorem addFileLock_eq (lock : Lock) :
    addFileLock st eid fid lock = linkLock (withClient st eid lock.clientRef) eid fid lock := by
  by_cases found : ((st.clients eid).any fun c => decide (c.clientRef = lock.clientRef)) = true
  · simp only [addFileLock,fileLockAddLockToClient,withClient,found,if_true]
    rfl
  · simp only [addFileLock,fileLockAddLockToClient,withClient,found]
    rfl

section Link
variable {lock : Lock}

theorem linkLock_files (eid' : Nat) (fid' : φ) :
    (linkLock st eid fid lock).files eid' fid' = if eid' = eid ∧ fid' = fid then
      ⟨(st.files eid fid).nbLocks + 1,⟨st.next,lock⟩ :: (st.files eid fid).locks⟩ else st.files eid' fid' :=
  setEntry_files _ _ _

theorem linkLock_clients (eid' : Nat) :
    (linkLock st eid fid lock).clients eid' = if eid' = eid then (st.clients eid).map fun c =>
      if c.clientRef = lock.clientRef then { c with nbLock := c.nbLock + 1, locks := st.next :: c.locks } else c
      else st.clients eid' := by
  rw [linkLock,setEntry_clients,setClients_clients]

theorem onFile_linkLock (eid' : Nat) (fid' : φ) (ptr ref : Nat) :
    OnFile (linkLock st eid fid lock) eid' fid' ptr ref ↔
      OnFile st eid' fid' ptr ref ∨ (eid' = eid ∧ fid' = fid ∧ ptr = st.next ∧ ref = lock.clientRef) := by
  simp only [OnFile,linkLock_files]
  split
  case isTrue here =>
    obtain ⟨rfl,rfl⟩ := here
    simp only [List.mem_cons,exists_eq_or_imp,true_and,or_comm,eq_comm]
  case isFalse other =>
    constructor
    · exact Or.inl
    · rintro (old | ⟨sameEid,sameFid,_⟩)
      · exact old
      · exact absurd ⟨sameEid,sameFid⟩ other

theorem onClient_linkLock (known : ∃ c ∈ st.clients eid, c.clientRef = lock.clientRef) (eid' ref ptr : Nat) :
    OnClient (linkLock st eid fid lock) eid' ref ptr ↔
      OnClient st eid' ref ptr ∨ (eid' = eid ∧ ref = lock.clientRef ∧ ptr = st.next) := by
  simp only [OnClient,linkLock_clients]
  split
  case isTrue here =>
    subst here
    constructor
    · rintro ⟨_,mem,rfl,at_⟩
      obtain ⟨c,memC,rfl⟩ := List.mem_map.mp mem
      by_cases owner : c.clientRef = lock.clientRef
      · simp only [owner,if_true,List.mem_cons] at at_ ⊢
        rcases at_ with rfl | old
        · exact .inr ⟨trivial,trivial,rfl⟩
        · exact .inl ⟨c,memC,owner,old⟩
      · simp only [owner,if_false] at at_ ⊢
        exact .inl ⟨c,memC,rfl,at_⟩
    · rintro (⟨c,memC,rfl,at_⟩ | ⟨_,rfl,rfl⟩)
      · refine ⟨_,List.mem_map.mpr ⟨c,memC,rfl⟩,?_⟩
        by_cases owner : c.clientRef = lock.clientRef
        · simp [owner,at_]
        · simpa [owner] using at_
      · obtain ⟨c,memC,owner⟩ := known
        exact ⟨_,List.mem_map.mpr ⟨c,memC,rfl⟩,by simp [owner]⟩
  case isFalse other => simp [other]

/-- A lock is added to a file and to a client that is there. -/
theorem Linked.link {st : State φ} (linked : Linked exact st)
    (known : ∃ c ∈ st.clients eid, c.clientRef = lock.clientRef) : Linked exact (linkLock st eid fid lock) := by
  have fresh : st.next ∉ st.heap := fun mem => Nat.lt_irrefl _ (linked.heapBelow _ mem)
  have freshFile : ∀ eid fid ref, ¬OnFile st eid fid st.next ref :=
    fun eid fid ref on => fresh ((linked.heapFile _).mpr ⟨eid,fid,ref,on⟩)
  have freshClient : ∀ eid, ∀ c ∈ st.clients eid, st.next ∉ c.locks := by
    intro eid c mem at_
    obtain ⟨fid,on⟩ := linked.node_of mem at_
    exact freshFile eid fid _ on
  constructor
  case heapNodup => exact List.nodup_cons.mpr ⟨fresh,linked.heapNodup⟩
  case heapBelow =>
    intro p mem
    rcases List.mem_cons.mp mem with rfl | old
    · exact Nat.lt_succ_self _
    · exact Nat.lt_succ_of_lt (linked.heapBelow p old)
  case heapCount =>
    have count := congrArg (fun counter : Int => counter + 1) linked.heapCount
    exact count
  case heapFile =>
    intro p
    simp only [onFile_linkLock]
    apply Iff.trans List.mem_cons
    rw [linked.heapFile p]
    constructor
    · rintro (rfl | ⟨eid',fid',ref,on⟩)
      · exact ⟨eid,fid,lock.clientRef,.inr ⟨rfl,rfl,rfl,rfl⟩⟩
      · exact ⟨eid',fid',ref,.inl on⟩
    · rintro ⟨eid',fid',ref,on | ⟨_,_,new,_⟩⟩
      · exact .inr ⟨eid',fid',ref,on⟩
      · exact .inl new
  case fileNodup =>
    intro eid' fid'
    rw [linkLock_files]
    split
    case isTrue here =>
      apply List.nodup_cons.mpr
      refine ⟨?_,linked.fileNodup eid fid⟩
      intro mem
      obtain ⟨y,memY,same⟩ := List.mem_map.mp mem
      exact freshFile eid fid _ ⟨y,memY,same,rfl⟩
    case isFalse => exact linked.fileNodup eid' fid'
  case fileOnce =>
    intro eid₁ fid₁ eid₂ fid₂ p ref₁ ref₂ on₁ on₂
    rcases (onFile_linkLock _ _ _ _).mp on₁ with old₁ | ⟨rfl,rfl,rfl,rfl⟩
    · rcases (onFile_linkLock _ _ _ _).mp on₂ with old₂ | ⟨rfl,rfl,rfl,rfl⟩
      · exact linked.fileOnce old₁ old₂
      · exact absurd old₁ (freshFile _ _ _)
    · rcases (onFile_linkLock _ _ _ _).mp on₂ with old₂ | ⟨rfl,rfl,_,rfl⟩
      · exact absurd old₂ (freshFile _ _ _)
      · exact ⟨rfl,rfl⟩
  case refsNodup =>
    intro eid'
    rw [linkLock_clients]
    split
    case isTrue here =>
      have refs : ∀ c : Client, (if c.clientRef = lock.clientRef then
          { c with nbLock := c.nbLock + 1, locks := st.next :: c.locks } else c).clientRef = c.clientRef := by
        intro c
        split <;> rfl
      simp only [List.map_map,Function.comp_def,refs]
      exact linked.refsNodup eid
    case isFalse => exact linked.refsNodup eid'
  case clientNodup =>
    intro eid' c mem
    rw [linkLock_clients] at mem
    split at mem
    case isTrue here =>
      obtain ⟨d,memD,rfl⟩ := List.mem_map.mp mem
      split
      · exact List.nodup_cons.mpr ⟨freshClient eid d memD,linked.clientNodup eid d memD⟩
      · exact linked.clientNodup eid d memD
    case isFalse => exact linked.clientNodup eid' c mem
  case clientFile =>
    intro eid' ref p
    simp only [onClient_linkLock known,onFile_linkLock,linked.clientFile]
    constructor
    · rintro (⟨fid',on⟩ | ⟨rfl,rfl,rfl⟩)
      · exact ⟨fid',.inl on⟩
      · exact ⟨fid,.inr ⟨rfl,rfl,rfl,rfl⟩⟩
    · rintro ⟨fid',on | ⟨rfl,_,rfl,rfl⟩⟩
      · exact .inl ⟨fid',on⟩
      · exact .inr ⟨rfl,rfl,rfl⟩
  case fileCount =>
    intro eid' fid'
    rw [linkLock_files]
    split
    case isTrue here => exact (linked.fileCount eid fid).succ
    case isFalse => exact linked.fileCount eid' fid'
  case clientCount =>
    intro eid' c mem
    rw [linkLock_clients] at mem
    split at mem
    case isTrue here =>
      obtain ⟨d,memD,rfl⟩ := List.mem_map.mp mem
      split
      · exact (linked.clientCount eid d memD).succ
      · exact linked.clientCount eid d memD
    case isFalse => exact linked.clientCount eid' c mem

end Link

theorem Linked.addFileLock (linked : Linked exact st) (lock : Lock) : Linked exact (FileLock.addFileLock st eid fid lock) := by
  rw [addFileLock_eq]
  exact (linked.withClient lock.clientRef).link (withClient_has lock.clientRef)

theorem addFileLock_files (lock : Lock) (eid' : Nat) (fid' : φ) :
    (addFileLock st eid fid lock).files eid' fid' = if eid' = eid ∧ fid' = fid then
      ⟨(st.files eid fid).nbLocks + 1,⟨st.next,lock⟩ :: (st.files eid fid).locks⟩ else st.files eid' fid' := by
  have files : (withClient st eid lock.clientRef).files = st.files := by
    unfold withClient
    split <;> rfl
  have next : (withClient st eid lock.clientRef).next = st.next := by
    unfold withClient
    split <;> rfl
  rw [addFileLock_eq,linkLock_files,files,next]

theorem setFileLock_files (ptr : Nat) (lock : Lock) (eid' : Nat) (fid' : φ) :
    (FileLock.setFileLock st eid fid ptr lock).files eid' fid' = if eid' = eid ∧ fid' = fid then
      { st.files eid fid with
        locks := (st.files eid fid).locks.map fun x => if x.ptr = ptr then ⟨ptr,lock⟩ else x } else st.files eid' fid' :=
  setEntry_files _ _ _

theorem dropFileLock_files (linked : Linked exact st) (mem : x ∈ (st.files eid fid).locks) (eid' : Nat) (fid' : φ) :
    ((FileLock.dropFileLock st eid fid x).files eid' fid').locks =
      (st.files eid' fid').locks.filter fun y => y.ptr ≠ x.ptr := by
  rw [dropFileLock_eq linked mem,setEntry_files]
  split
  case isTrue here =>
    obtain ⟨rfl,rfl⟩ := here
    rfl
  case isFalse => rfl

end Locks

end Rozofs.LockLists
