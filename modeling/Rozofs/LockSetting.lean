import Rozofs.LockShapes

/-! Setting and testing a lock: what a granted request of `export_set_file_lock` adds to the locks of a
file, and when `export_get_file_lock` agrees with it. -/
namespace Rozofs.LockSetting
open FileLock LockLists LockAccounting LockRanges LockShapes

section Sets
variable {bsize : BSize} {request : Lock} {locks locks' : List Node}

/-- The bytes of the request are locked in its mode beside what the owner has locked before; two locks
of one owner and mode have no byte in common. -/
structure Locked (request : Lock) (locks locks' : List Node) : Prop where
  bytes : ∀ mode offset, OwnerLocked request mode locks' offset ↔
    OwnerLocked request mode locks offset ∨ mode = request.mode ∧ Mem request.userRange offset
  others : (locks'.filter fun y => !sameOwner request y.lock) = locks.filter fun y => !sameOwner request y.lock
  apart : ∀ x ∈ locks', ∀ y ∈ locks', x.ptr ≠ y.ptr → sameOwner x.lock y.lock = true → x.lock.mode = y.lock.mode →
    ∀ offset, ¬(Mem x.lock.userRange offset ∧ Mem y.lock.userRange offset)

theorem setBlockingLock_none (set : request.mode ≠ .free) : setBlockingLock request locks = none ↔
    (locks.all fun x => sameOwner x.lock request || areFileLocksCompatible x.lock request) = true := by
  simp only [setBlockingLock,if_neg set,Option.map_eq_none_iff,List.find?_eq_none,List.all_eq_true]
  apply forall₂_congr
  intro x _
  cases sameOwner x.lock request <;> cases areFileLocksCompatible x.lock request <;> decide

theorem mem_touch {range1 range2 : Range} (wf1 : Wf range1) (wf2 : Wf range2) {offset : Nat} (mem1 : Mem range1 offset)
    (mem2 : Mem range2 offset) : Touch range1 range2 := by
  obtain ⟨first1,last1⟩ := (mem_iff wf1 offset).mp mem1
  obtain ⟨first2,last2⟩ := (mem_iff wf2 offset).mp mem2
  constructor
  · intro stops
    have bound := last1 stops
    omega
  · intro stops
    have bound := last2 stops
    omega

theorem Shaped.disjoint (shaped : Shaped locks) {x y : Node} (memX : x ∈ locks) (memY : y ∈ locks) (differ : x.ptr ≠ y.ptr)
    (same : sameOwner x.lock y.lock = true) (mode : x.lock.mode = y.lock.mode) (offset : Nat) :
    ¬(Mem x.lock.userRange offset ∧ Mem y.lock.userRange offset) := by
  rintro ⟨inX,inY⟩
  exact shaped.apart x memX y memY differ same mode (mem_touch (shaped.wf x memX) (shaped.wf y memY) inX inY)

/-- The merged request at the head of the locks that it did not meet. -/
theorem locked_grant (wf : Wf request.userRange) (shaped : Shaped locks) (nodup : (locks.map Node.ptr).Nodup) (ptr : Nat) :
    Locked request locks (⟨ptr,(meets request locks).foldl (merge bsize) request⟩ ::
      locks.filter fun y => (meets request locks).all fun x => y.ptr ≠ x.ptr) := by
  have merged : Merged bsize request (meets request locks) ((meets request locks).foldl (merge bsize) request) := merged_meets wf shaped.wf
  have left : ∀ y, y ∈ (locks.filter fun y => (meets request locks).all fun x => y.ptr ≠ x.ptr) ↔ y ∈ locks ∧ y ∉ meets request locks := by
    intro y
    simp only [List.mem_filter,List.all_eq_true,decide_eq_true_eq]
    constructor
    · exact fun ⟨mem,others⟩ => ⟨mem,fun met => others y met rfl⟩
    · rintro ⟨mem,notMet⟩
      refine ⟨mem,fun x met same => notMet ?_⟩
      rwa [List.inj_on_of_nodup_map nodup mem (List.mem_filter.mp met).1 same]
  have owner : sameOwner request ((meets request locks).foldl (merge bsize) request) = true := by
    simp [sameOwner,merged.clientRef,merged.ownerRef]
  have all : Shaped (⟨ptr,(meets request locks).foldl (merge bsize) request⟩ ::
      locks.filter fun y => (meets request locks).all fun x => y.ptr ≠ x.ptr) := by
    apply shaped.grant wf
    intro y mem
    simpa using mem
  constructor
  case bytes =>
    intro mode offset
    unfold OwnerLocked
    simp only [List.mem_cons,exists_eq_or_imp,left,owner,true_and,merged.mode,merged.mem]
    constructor
    · rintro (⟨rfl,inRequest | ⟨x,met,inX⟩⟩ | ⟨y,⟨mem,_⟩,found⟩)
      · exact .inr ⟨rfl,inRequest⟩
      · obtain ⟨mem,⟨own,sameMode⟩,_⟩ := (meets_spec wf shaped.wf).mp met
        rw [sameOwner_comm] at own
        exact .inl ⟨x,mem,own,sameMode,inX⟩
      · exact .inl ⟨y,mem,found⟩
    · rintro (⟨x,mem,found⟩ | ⟨rfl,inRequest⟩)
      · by_cases met : x ∈ meets request locks
        · obtain ⟨_,⟨_,sameMode⟩,_⟩ := (meets_spec wf shaped.wf).mp met
          exact .inl ⟨sameMode.symm.trans found.2.1,.inr ⟨x,met,found.2.2⟩⟩
        · exact .inr ⟨x,⟨mem,met⟩,found⟩
      · exact .inl ⟨rfl,.inl inRequest⟩
  case others =>
    rw [List.filter_cons_of_neg (by simp [owner]),List.filter_filter]
    apply List.filter_congr
    intro y mem
    by_cases own : sameOwner request y.lock = true
    · simp [own]
    · have notMet : y ∉ meets request locks := by
        intro met
        obtain ⟨_,⟨same,_⟩,_⟩ := (meets_spec wf shaped.wf).mp met
        rw [sameOwner_comm] at same
        exact own same
      have kept := (List.mem_filter.mp ((left y).mpr ⟨mem,notMet⟩)).2
      rw [kept,Bool.and_true]
  case apart => exact fun x memX y memY differ same mode => Shaped.disjoint all memX memY differ same mode

end Sets

section Steps
variable {φ : Type} [DecidableEq φ] {bsize : BSize} {request : Lock} {eid : Nat} {fid : φ} {st : State φ}

/-- A request that is granted adds its lock, one that is refused changes nothing. -/
theorem exportSetFileLock_eq (set : request.mode ≠ .free) : exportSetFileLock bsize eid fid request st =
    match setBlockingLock request (st.files eid fid).locks with
    | none =>
      let (lock,st) := concatenate bsize eid fid (meets request (st.files eid fid).locks).length request st
      some (addFileLock st eid fid lock)
    | some _ => some st := by
  unfold exportSetFileLock
  simp only [if_neg set]
  cases blocking : setBlockingLock request (st.files eid fid).locks with
  | none => rw [if_pos ((setBlockingLock_none set).mp blocking)]
  | some lock =>
    rw [if_neg]
    intro allowed
    rw [(setBlockingLock_none set).mpr allowed] at blocking
    cases blocking

/-- In every run, a granted request locks the bytes of its range in its mode beside the other locks of
its owner, and a refused one leaves the locks as they are. -/
theorem set_locks {ok : State φ → Act φ → Prop} (run : Machine.Run (step bsize) ok serviceInit st) (set : request.mode ≠ .free)
    (wf : Wf request.userRange) : ∃ st', exportSetFileLock bsize eid fid request st = some st' ∧
      match setBlockingLock request (st.files eid fid).locks with
      | none => Locked request (st.files eid fid).locks (st'.files eid fid).locks
      | some _ => st' = st := by
  obtain ⟨linked,shaped⟩ := run_shaped run
  rw [exportSetFileLock_eq set]
  cases setBlockingLock request (st.files eid fid).locks with
  | some lock => exact ⟨st,rfl,rfl⟩
  | none =>
    refine ⟨_,rfl,?_⟩
    have sub : meets request (st.files eid fid).locks ⊆ (st.files eid fid).locks := List.filter_sublist.subset
    have nodup := linked.fileNodup eid fid
    rw [concatenate_eq _ wf linked shaped rfl,addFileLock_files,if_pos ⟨rfl,rfl⟩]
    dsimp only
    rw [dropAll_locks _ linked sub (nodup.sublist (List.filter_sublist.map _))]
    exact locked_grant wf (shaped eid fid) nodup _

/-- A read lock of a client is granted over a write lock of its own, which stays, over the end of a read lock of its
own, which becomes part of it, and over a read lock of another client. -/
theorem set_locks_merge : ∃ st st' : State Nat, Machine.Run (step .bsize4K) (fun _ _ => True) serviceInit st ∧
    (st.files 1 7).locks.map (fun x => (x.lock.clientRef,x.lock.mode,x.lock.userRange.offsetStart,x.lock.userRange.offsetStop)) =
      [(4,.read,8192,8292),(3,.read,5000,9000),(3,.write,20,30)] ∧
    exportSetFileLock .bsize4K 1 7 (clientLock .bsize4K .read 3 1 ⟨.partialRange,10,8300⟩) st = some st' ∧
    Locked (clientLock .bsize4K .read 3 1 ⟨.partialRange,10,8300⟩) (st.files 1 7).locks (st'.files 1 7).locks := by
  have wf : Wf (clientLock .bsize4K .read 3 1 ⟨.partialRange,10,8300⟩).userRange := by simp [clientLock,Wf]
  have done : (Machine.exec (step .bsize4K) (fun (_ : State Nat) _ => True)
      [.setlk 1 7 .write 3 1 20 10,.setlk 1 7 .read 3 1 5000 4000,.setlk 1 7 .read 4 2 8192 100] serviceInit).map (fun st =>
        ((st.files 1 7).locks.map fun x => (x.lock.clientRef,x.lock.mode,x.lock.userRange.offsetStart,x.lock.userRange.offsetStop),
          setBlockingLock (clientLock .bsize4K .read 3 1 ⟨.partialRange,10,8300⟩) (st.files 1 7).locks)) =
      some ([(4,.read,8192,8292),(3,.read,5000,9000),(3,.write,20,30)],none) := by decide +kernel
  obtain ⟨st,ran,seen⟩ := Option.map_eq_some_iff.mp done
  simp only [Prod.mk.injEq] at seen
  have run := Machine.Run.refl.exec ran
  obtain ⟨st',set,granted⟩ := @set_locks Nat _ .bsize4K (clientLock .bsize4K .read 3 1 ⟨.partialRange,10,8300⟩) 1 7 st _ run (by decide) wf
  rw [seen.2] at granted
  exact ⟨st,st',run,seen.1,set,granted⟩

/-- A client that has a read lock asks for a write lock on its bytes: it has both. -/
theorem both_modes : ∃ st st' : State Nat, Machine.Run (step .bsize4K) (fun _ _ => True) serviceInit st ∧
    setBlockingLock (clientLock .bsize4K .write 3 1 ⟨.fromStart,0,100⟩) (st.files 1 7).locks = none ∧
    exportSetFileLock .bsize4K 1 7 (clientLock .bsize4K .write 3 1 ⟨.fromStart,0,100⟩) st = some st' ∧
    ¬∀ mode offset, Mem ⟨.fromStart,0,100⟩ offset →
      (OwnerLocked (clientLock .bsize4K .write 3 1 ⟨.fromStart,0,100⟩) mode (st'.files 1 7).locks offset ↔ mode = .write) := by
  have done : ((Machine.exec (step .bsize4K) (fun (_ : State Nat) _ => True) [.setlk 1 7 .read 3 1 0 100] serviceInit).bind fun st =>
      (exportSetFileLock .bsize4K 1 7 (clientLock .bsize4K .write 3 1 ⟨.fromStart,0,100⟩) st).map fun st' =>
        (setBlockingLock (clientLock .bsize4K .write 3 1 ⟨.fromStart,0,100⟩) (st.files 1 7).locks,(st'.files 1 7).locks.map Node.lock)) =
      some (none,[clientLock .bsize4K .write 3 1 ⟨.fromStart,0,100⟩,clientLock .bsize4K .read 3 1 ⟨.fromStart,0,100⟩]) := by decide +kernel
  obtain ⟨st,ran,after⟩ := Option.bind_eq_some_iff.mp done
  obtain ⟨st',set,seen⟩ := Option.map_eq_some_iff.mp after
  simp only [Prod.mk.injEq] at seen
  refine ⟨st,st',Machine.Run.refl.exec ran,seen.1,set,?_⟩
  intro only
  obtain ⟨x,rest,eq,_,tail⟩ := List.map_eq_cons_iff.mp seen.2
  obtain ⟨y,rest',eq',reads,_⟩ := List.map_eq_cons_iff.mp tail
  have held : OwnerLocked (clientLock .bsize4K .write 3 1 ⟨.fromStart,0,100⟩) .read (st'.files 1 7).locks 50 :=
    ⟨y,by simp [eq,eq'],by rw [reads]; decide,by rw [reads]; rfl,by rw [reads]; simp [clientLock,Mem]⟩
  cases (only .read 50 (by simp [Mem])).mp held

end Steps

section Tests
variable {request : Lock} {locks : List Node}

/-- Each lock of the owner of the request that is not compatible with it comes after one of another
owner that is not. -/
def OthersFirst (request : Lock) (locks : List Node) : Prop :=
  ∀ before x after, locks = before ++ x :: after → sameOwner x.lock request = true → areFileLocksCompatible x.lock request = false →
    ∃ y ∈ before, sameOwner y.lock request = false ∧ areFileLocksCompatible y.lock request = false

/-- The first lock that is not compatible with the request. -/
theorem first_blocking {x : Node} (found : (locks.find? fun x => !areFileLocksCompatible x.lock request) = some x) :
    areFileLocksCompatible x.lock request = false ∧
      ∃ before after, locks = before ++ x :: after ∧ ∀ y ∈ before, areFileLocksCompatible y.lock request = true := by
  obtain ⟨blocks,before,after,eq,compatible⟩ := List.find?_eq_some_iff_append.mp found
  refine ⟨by simpa using blocks,before,after,eq,?_⟩
  intro y mem
  simpa using compatible y mem

/-- When the first lock in the way is of another owner, it is the one that the setting reports. -/
theorem first_other {x : Node} (found : (locks.find? fun x => !areFileLocksCompatible x.lock request) = some x)
    (other : sameOwner x.lock request = false) :
    (locks.find? fun x => !sameOwner x.lock request && !areFileLocksCompatible x.lock request) = some x := by
  obtain ⟨blocks,before,after,rfl,compatible⟩ := first_blocking found
  apply List.find?_eq_some_iff_append.mpr
  refine ⟨by simp [other,blocks],before,after,rfl,?_⟩
  intro y mem
  simp [compatible y mem]

/-- The setting of a lock never reports a lock of the owner. -/
theorem setBlockingLock_other {lock : Lock} (blocking : setBlockingLock request locks = some lock) : sameOwner lock request = false := by
  unfold setBlockingLock at blocking
  split at blocking
  · cases blocking
  · obtain ⟨x,found,rfl⟩ := Option.map_eq_some_iff.mp blocking
    have seen := List.find?_some found
    simp only [Bool.and_eq_true,Bool.not_eq_true'] at seen
    exact seen.1

theorem OthersFirst.of_agree (set : request.mode ≠ .free) (agree : exportGetFileLock request locks = setBlockingLock request locks) :
    OthersFirst request locks := by
  intro before x after eq own blocks
  by_contra none
  have others : ∀ y ∈ before, areFileLocksCompatible y.lock request = false → sameOwner y.lock request = true := by
    intro y mem blocksY
    by_contra other
    exact none ⟨y,mem,Bool.eq_false_iff.mpr other,blocksY⟩
  cases found : locks.find? fun x => !areFileLocksCompatible x.lock request with
  | none =>
    have compatible := List.find?_eq_none.mp found x (by simp [eq])
    simp [blocks] at compatible
  | some first =>
    have reported : exportGetFileLock request locks = some first.lock := by simp [exportGetFileLock,set,found]
    have other := setBlockingLock_other (agree.symm.trans reported)
    have inFront : first ∈ before ++ [x] := by
      have some : ((before ++ [x]).find? fun x => !areFileLocksCompatible x.lock request).isSome = true := by simp [blocks]
      obtain ⟨z,foundZ⟩ := Option.isSome_iff_exists.mp some
      rw [eq,List.append_cons,List.find?_append,foundZ,Option.some_or] at found
      cases found
      exact List.mem_of_find?_eq_some foundZ
    rcases List.mem_append.mp inFront with mem | last
    · rw [others first mem (first_blocking found).1] at other
      cases other
    · obtain rfl := List.mem_singleton.mp last
      rw [own] at other
      cases other

theorem OthersFirst.agree (ordered : OthersFirst request locks) : exportGetFileLock request locks = setBlockingLock request locks := by
  unfold exportGetFileLock setBlockingLock
  split
  · rfl
  · cases found : locks.find? fun x => !areFileLocksCompatible x.lock request with
    | none =>
      have all := List.find?_eq_none.mp found
      have none : (locks.find? fun x => !sameOwner x.lock request && !areFileLocksCompatible x.lock request) = none := by
        apply List.find?_eq_none.mpr
        intro x mem
        have compatible := all x mem
        simp only [Bool.not_eq_true',Bool.not_eq_false] at compatible
        simp [compatible]
      rw [none]
    | some x =>
      obtain ⟨blocks,before,after,eq,compatible⟩ := first_blocking found
      have other : sameOwner x.lock request = false := by
        apply Bool.eq_false_iff.mpr
        intro own
        obtain ⟨y,mem,_,blocksY⟩ := ordered before x after eq own blocks
        rw [compatible y mem] at blocksY
        cases blocksY
      rw [first_other found other]

/-- The test of a lock and its setting report the same blocking lock, or none, exactly when the request is
free or no lock of its owner stands in its way first. -/
theorem get_agrees (request : Lock) (locks : List Node) :
    exportGetFileLock request locks = setBlockingLock request locks ↔ request.mode = .free ∨ OthersFirst request locks := by
  by_cases free : request.mode = .free
  · simp [exportGetFileLock,setBlockingLock,free]
  · simp only [free,false_or]
    exact ⟨OthersFirst.of_agree free,OthersFirst.agree⟩

/-- A client tests the write lock that it has: it is told of its own lock, which its setting does not
stop at. -/
theorem own_lock_reported : ∃ st : State Nat, Machine.Run (step .bsize4K) (fun _ _ => True) serviceInit st ∧
    exportGetFileLock (clientLock .bsize4K .write 3 1 ⟨.fromStart,0,100⟩) (st.files 1 7).locks ≠
      setBlockingLock (clientLock .bsize4K .write 3 1 ⟨.fromStart,0,100⟩) (st.files 1 7).locks := by
  have done : (Machine.exec (step .bsize4K) (fun (_ : State Nat) _ => True) [.setlk 1 7 .write 3 1 0 100] serviceInit).map (fun st =>
      (exportGetFileLock (clientLock .bsize4K .write 3 1 ⟨.fromStart,0,100⟩) (st.files 1 7).locks,
        setBlockingLock (clientLock .bsize4K .write 3 1 ⟨.fromStart,0,100⟩) (st.files 1 7).locks)) =
      some (some (clientLock .bsize4K .write 3 1 ⟨.fromStart,0,100⟩),none) := by decide +kernel
  obtain ⟨st,ran,seen⟩ := Option.map_eq_some_iff.mp done
  simp only [Prod.mk.injEq] at seen
  refine ⟨st,Machine.Run.refl.exec ran,?_⟩
  rw [seen.1,seen.2]
  simp

end Tests

end Rozofs.LockSetting
