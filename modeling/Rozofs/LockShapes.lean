import Rozofs.LockAccounting
import Rozofs.LockRanges

/-! The shape of the lists of file locks: in every run, the ranges of the locks are well formed and
the locks of one owner and mode do not touch. -/
namespace Rozofs.LockShapes
open FileLock LockLists LockAccounting LockRanges

/-- The locks of one owner and mode have bytes between them. -/
structure Shaped (locks : List Node) : Prop where
  wf : ∀ x ∈ locks, Wf x.lock.userRange
  apart : ∀ x ∈ locks, ∀ y ∈ locks, x.ptr ≠ y.ptr → sameOwner x.lock y.lock = true → x.lock.mode = y.lock.mode →
    ¬Touch x.lock.userRange y.lock.userRange

/-- A lock is a part of another one of the same owner and mode. -/
structure Inside (inner outer : Lock) : Prop where
  wf : Wf inner.userRange
  inside : ∀ offset, Mem inner.userRange offset → Mem outer.userRange offset
  mode : inner.mode = outer.mode
  clientRef : inner.clientRef = outer.clientRef
  ownerRef : inner.ownerRef = outer.ownerRef

/-- A byte that the owner of the request has locked in a mode. -/
def OwnerLocked (request : Lock) (mode : Mode) (locks : List Node) (offset : Nat) : Prop :=
  ∃ x ∈ locks, sameOwner request x.lock = true ∧ x.lock.mode = mode ∧ Mem x.lock.userRange offset

section Lists
variable {locks locks' : List Node}

theorem sameOwner_congr {lock1 lock2 lock1' lock2' : Lock} (client1 : lock1'.clientRef = lock1.clientRef)
    (owner1 : lock1'.ownerRef = lock1.ownerRef) (client2 : lock2'.clientRef = lock2.clientRef)
    (owner2 : lock2'.ownerRef = lock2.ownerRef) : sameOwner lock1' lock2' = sameOwner lock1 lock2 := by
  simp [sameOwner,client1,owner1,client2,owner2]

theorem sameOwner_trans {lock1 lock2 lock3 : Lock} (first : sameOwner lock1 lock3 = true)
    (second : sameOwner lock2 lock3 = true) : sameOwner lock1 lock2 = true := by
  simp only [sameOwner,Bool.and_eq_true,decide_eq_true_eq] at first second ⊢
  exact ⟨first.1.trans second.1.symm,first.2.trans second.2.symm⟩

theorem sameOwner_comm (lock1 lock2 : Lock) : sameOwner lock1 lock2 = sameOwner lock2 lock1 := by
  simp [sameOwner,eq_comm]

/-- Locks that are parts of locks of the list. -/
theorem Shaped.of_inside (shaped : Shaped locks) (origin : Node → Node)
    (inside : ∀ y ∈ locks', origin y ∈ locks ∧ Inside y.lock (origin y).lock)
    (apart : ∀ y ∈ locks', ∀ z ∈ locks', y.ptr ≠ z.ptr →
      (origin y).ptr ≠ (origin z).ptr ∨ ¬Touch y.lock.userRange z.lock.userRange) : Shaped locks' where
  wf y mem := (inside y mem).2.wf
  apart y memY z memZ differ same mode := by
    obtain ⟨oldY,inY⟩ := inside y memY
    obtain ⟨oldZ,inZ⟩ := inside z memZ
    rcases apart y memY z memZ differ with other | untouched
    · rw [sameOwner_congr inY.clientRef inY.ownerRef inZ.clientRef inZ.ownerRef] at same
      have old := shaped.apart _ oldY _ oldZ other same (inY.mode.symm.trans (mode.trans inZ.mode))
      exact fun touch => old (touch.mono (shaped.wf _ oldY) (shaped.wf _ oldZ) inY.wf inZ.wf inY.inside inZ.inside)
    · exact untouched

theorem Inside.refl {lock : Lock} (wf : Wf lock.userRange) : Inside lock lock := ⟨wf,fun _ mem => mem,rfl,rfl,rfl⟩

theorem Shaped.subset (shaped : Shaped locks) (sub : locks' ⊆ locks) : Shaped locks' :=
  shaped.of_inside id (fun y mem => ⟨sub mem,Inside.refl (shaped.wf y (sub mem))⟩) fun _ _ _ _ differ => .inl differ

end Lists

section Frees
variable {bsize : BSize} {lockFree : Lock}

/-- A lock of the request's owner has no byte of the request. -/
def Outside (lockFree lock : Lock) : Prop :=
  sameOwner lockFree lock = true → ∀ offset, Mem lock.userRange offset → ¬Mem lockFree.userRange offset

theorem keep_other {lockSet lock : Lock} {newLock : Option Lock} (other : ¬sameOwner lockFree lockSet = true)
    (verdict : mustFileLockBeRemoved bsize lockFree lockSet = .keep lock newLock) : lock = lockSet ∧ newLock = none := by
  unfold mustFileLockBeRemoved at verdict
  dsimp only at verdict
  simp only [other,Bool.not_false,if_true] at verdict
  cases verdict
  exact ⟨rfl,rfl⟩

theorem keep_inside {lockSet lock : Lock} {newLock : Option Lock} (wfFree : Wf lockFree.userRange) (wf : Wf lockSet.userRange)
    (verdict : mustFileLockBeRemoved bsize lockFree lockSet = .keep lock newLock) :
    (Inside lock lockSet ∧ Outside lockFree lock) ∧
    ∀ new ∈ newLock, (Inside new lockSet ∧ Outside lockFree new) ∧ ¬Touch lock.userRange new.userRange := by
  by_cases owner : sameOwner lockFree lockSet = true
  · have ofPart : ∀ piece, Part bsize lockFree lockSet piece → Inside piece lockSet ∧ Outside lockFree piece :=
      fun piece part => ⟨⟨part.wf,part.inside,part.mode,part.clientRef,part.ownerRef⟩,fun _ => part.outside⟩
    obtain ⟨part,newPart⟩ := keep_parts wfFree wf owner verdict
    refine ⟨ofPart lock part,?_⟩
    intro new isNew
    exact ⟨ofPart new (newPart new isNew).1,(newPart new isNew).2⟩
  · obtain ⟨rfl,rfl⟩ := keep_other owner verdict
    refine ⟨⟨Inside.refl wf,fun same => absurd same owner⟩,?_⟩
    intro new isNew
    cases isNew

variable {φ : Type} {eid : Nat} {fid : φ} {st : State φ}

/-- A lock of an edited list is the second part, the edited lock or another lock. -/
theorem edited_cases {x y : Node} {lock : Lock} {newLock : Option Lock} {locks : List Node} {next : Nat}
    (mem : y ∈ (newLock.toList.map fun new => (⟨next,new⟩ : Node)) ++ locks.map fun y => if y.ptr = x.ptr then ⟨x.ptr,lock⟩ else y) :
    (∃ new ∈ newLock, y = ⟨next,new⟩) ∨ y = ⟨x.ptr,lock⟩ ∨ (y ∈ locks ∧ y.ptr ≠ x.ptr) := by
  rcases List.mem_append.mp mem with isNew | isOld
  · obtain ⟨new,memNew,rfl⟩ := List.mem_map.mp isNew
    exact .inl ⟨new,by simpa using memNew,rfl⟩
  · obtain ⟨z,memZ,rfl⟩ := List.mem_map.mp isOld
    by_cases here : z.ptr = x.ptr
    · exact .inr (.inl (by simp [here]))
    · exact .inr (.inr (by simp [here,memZ]))

/-- The lock that a lock of an edited list comes from, for lists in which parts of one lock do not
touch. -/
theorem cut_apart {x : Node} {lock : Lock} {newLock : Option Lock} {locks : List Node} {next : Nat}
    (fresh : ∀ y ∈ locks, y.ptr ≠ next) (untouched : ∀ new ∈ newLock, ¬Touch lock.userRange new.userRange) :
    let origin := fun y : Node => if y.ptr = next ∨ y.ptr = x.ptr then x else y
    let edited := (newLock.toList.map fun new => (⟨next,new⟩ : Node)) ++ locks.map fun y => if y.ptr = x.ptr then ⟨x.ptr,lock⟩ else y
    ∀ y ∈ edited, ∀ z ∈ edited, y.ptr ≠ z.ptr → (origin y).ptr ≠ (origin z).ptr ∨ ¬Touch y.lock.userRange z.lock.userRange := by
  intro origin edited y memY z memZ differ
  rcases edited_cases memY with ⟨new,isNew,rfl⟩ | rfl | ⟨oldY,otherY⟩
  · rcases edited_cases memZ with ⟨new',isNew',rfl⟩ | rfl | ⟨oldZ,otherZ⟩
    · exact absurd rfl differ
    · exact .inr fun touch => untouched new isNew touch.symm
    · simp [origin,fresh z oldZ,otherZ,Ne.symm otherZ]
  · rcases edited_cases memZ with ⟨new',isNew',rfl⟩ | rfl | ⟨oldZ,otherZ⟩
    · exact .inr (untouched new' isNew')
    · exact absurd rfl differ
    · simp [origin,fresh z oldZ,otherZ,Ne.symm otherZ]
  · rcases edited_cases memZ with ⟨new',isNew',rfl⟩ | rfl | ⟨oldZ,otherZ⟩
    · simp [origin,fresh y oldY,otherY]
    · simp [origin,fresh y oldY,otherY]
    · simpa [origin,fresh y oldY,otherY,fresh z oldZ,otherZ] using Or.inl differ

theorem fresh_ptr (linked : Linked False st) : ∀ y ∈ (st.files eid fid).locks, y.ptr ≠ st.next :=
  fun _ mem => Nat.ne_of_lt (linked.heapBelow _ (linked.mem_heap mem))

theorem cut_shaped {x : Node} {lock : Lock} {newLock : Option Lock} (wfFree : Wf lockFree.userRange)
    (linked : Linked False st) (shaped : Shaped (st.files eid fid).locks) (mem : x ∈ (st.files eid fid).locks)
    (verdict : mustFileLockBeRemoved bsize lockFree x.lock = .keep lock newLock) :
    Shaped ((newLock.toList.map fun new => (⟨st.next,new⟩ : Node)) ++
      (st.files eid fid).locks.map fun y => if y.ptr = x.ptr then ⟨x.ptr,lock⟩ else y) := by
  obtain ⟨⟨inside,_⟩,newParts⟩ := keep_inside wfFree (shaped.wf x mem) verdict
  have fresh := @fresh_ptr φ eid fid st linked
  apply shaped.of_inside (fun y => if y.ptr = st.next ∨ y.ptr = x.ptr then x else y) _ (cut_apart fresh fun new isNew => (newParts new isNew).2)
  intro y memY
  rcases edited_cases memY with ⟨new,isNew,rfl⟩ | rfl | ⟨old,other⟩
  · simpa using ⟨mem,(newParts new isNew).1.1⟩
  · simpa using ⟨mem,inside⟩
  · simpa [fresh y old,other] using ⟨old,Inside.refl (shaped.wf y old)⟩

variable [DecidableEq φ]

theorem edit_locks (x : Node) (lock : Lock) (newLock : Option Lock) :
    ((editFileLock st eid fid x lock newLock).files eid fid).locks =
      (newLock.toList.map fun new => (⟨st.next,new⟩ : Node)) ++
        (st.files eid fid).locks.map fun y => if y.ptr = x.ptr then ⟨x.ptr,lock⟩ else y := by
  cases newLock with
  | none =>
    simp only [editFileLock,setFileLock_files,and_self,if_true]
    rfl
  | some new =>
    simp only [editFileLock,addFileLock_files,setFileLock_files,and_self,if_true]
    rfl

theorem edit_other (x : Node) (lock : Lock) (newLock : Option Lock) {eid' : Nat} {fid' : φ} (other : ¬(eid' = eid ∧ fid' = fid)) :
    (editFileLock st eid fid x lock newLock).files eid' fid' = st.files eid' fid' := by
  cases newLock with
  | none => simp only [editFileLock,setFileLock_files,if_neg other]
  | some new => simp only [editFileLock,addFileLock_files,setFileLock_files,if_neg other]

def AllShaped (st : State φ) : Prop := ∀ eid fid, Shaped (st.files eid fid).locks

theorem drop_shaped {x : Node} (linked : Linked False st) (shaped : AllShaped st)
    (mem : x ∈ (st.files eid fid).locks) : AllShaped (dropFileLock st eid fid x) := by
  intro eid' fid'
  rw [dropFileLock_files linked mem]
  exact (shaped eid' fid').subset List.filter_sublist.subset

theorem edit_shaped {x : Node} {lock : Lock} {newLock : Option Lock} (wfFree : Wf lockFree.userRange)
    (linked : Linked False st) (shaped : AllShaped st) (mem : x ∈ (st.files eid fid).locks)
    (verdict : mustFileLockBeRemoved bsize lockFree x.lock = .keep lock newLock) :
    AllShaped (editFileLock st eid fid x lock newLock) := by
  intro eid' fid'
  by_cases here : eid' = eid ∧ fid' = fid
  · obtain ⟨rfl,rfl⟩ := here
    rw [edit_locks]
    exact cut_shaped wfFree linked (shaped eid' fid') mem verdict
  · rw [edit_other x lock newLock here]
    exact shaped eid' fid'

end Frees

section Sets
variable {bsize : BSize} {request : Lock} {locks : List Node}

/-- A lock put in the request: `try_file_locks_concatenate` of ranges that touch. -/
def merge (bsize : BSize) (request : Lock) (x : Node) : Lock :=
  if request.userRange.size = .total then request
  else setUserRange bsize request (hull request.userRange x.lock.userRange)

theorem hull_total {range1 range2 : Range} (wf : Wf range1) (total : range1.size = .total) : hull range1 range2 = range1 := by
  obtain ⟨size,start,stop⟩ := range1
  subst total
  obtain ⟨rfl,rfl⟩ : start = 0 ∧ stop = 0 := wf
  simp [hull,bounded]

theorem merge_userRange (wf : Wf request.userRange) (x : Node) :
    (merge bsize request x).userRange = hull request.userRange x.lock.userRange := by
  unfold merge
  split
  case isTrue total => exact (hull_total wf total).symm
  case isFalse => rfl

@[simp] theorem merge_mode (x : Node) : (merge bsize request x).mode = request.mode := by
  unfold merge
  split <;> rfl

@[simp] theorem merge_clientRef (x : Node) : (merge bsize request x).clientRef = request.clientRef := by
  unfold merge
  split <;> rfl

@[simp] theorem merge_ownerRef (x : Node) : (merge bsize request x).ownerRef = request.ownerRef := by
  unfold merge
  split <;> rfl

theorem findConcatenate_eq (wf : Wf request.userRange) (wfs : ∀ x ∈ locks, Wf x.lock.userRange) :
    findConcatenate bsize request locks = (meets request locks).head?.map fun x => (x,merge bsize request x) := by
  induction locks with
  | nil => rfl
  | cons x rest ih =>
    have wfX := wfs x (by simp)
    have later := ih fun y mem => wfs y (by simp [mem])
    have overlapping := overlapping_iff wf wfX
    rw [findConcatenate]
    by_cases own : sameOwner x.lock request ∧ x.lock.mode = request.mode
    · rw [if_pos own,tryFileLocksConcatenate_eq wf wfX]
      by_cases touch : Touch request.userRange x.lock.userRange
      · simp [meets,own,touch,overlapping,merge]
      · simp only [if_neg touch,later]
        simp [meets,own,touch,overlapping]
    · rw [if_neg own,later]
      have skip : (sameOwner x.lock request && x.lock.mode = request.mode) = false := by simpa using own
      simp [meets,skip]

/-- The request met the locks `met`; once the first one is merged it meets the others. -/
theorem meets_merge {x : Node} {met : List Node} (wf : Wf request.userRange) (shaped : Shaped locks)
    (nodup : (locks.map Node.ptr).Nodup) (found : meets request locks = x :: met) :
    meets (merge bsize request x) (locks.filter fun y => y.ptr ≠ x.ptr) = met := by
  have memX : x ∈ meets request locks := by simp [found]
  obtain ⟨inX,ownX⟩ := List.mem_filter.mp memX
  simp only [Bool.and_eq_true,decide_eq_true_eq] at ownX
  have wfX := shaped.wf x inX
  have touchX := (overlapping_iff wf wfX).mp ownX.2
  have metNodup : ((x :: met).map Node.ptr).Nodup := found ▸ nodup.sublist (List.filter_sublist.map _)
  have same : meets (merge bsize request x) (locks.filter fun y => y.ptr ≠ x.ptr) =
      (meets request locks).filter fun y => y.ptr ≠ x.ptr := by
    have swap : (meets request locks).filter (fun y => y.ptr ≠ x.ptr) =
        meets request (locks.filter fun y => y.ptr ≠ x.ptr) := List.filter_comm ..
    rw [swap]
    apply List.filter_congr
    intro y mem
    obtain ⟨inY,other⟩ := List.mem_filter.mp mem
    have wfY := shaped.wf y inY
    have owner : sameOwner y.lock (merge bsize request x) = sameOwner y.lock request :=
      sameOwner_congr rfl rfl (merge_clientRef x) (merge_ownerRef x)
    rw [owner,merge_mode]
    by_cases own : sameOwner y.lock request = true ∧ y.lock.mode = request.mode
    · -- `x` and `y` are of one owner and mode and do not touch
      have between : ¬Touch x.lock.userRange y.lock.userRange := by
        apply shaped.apart x inX y inY
        · exact fun equal => by simp [equal] at other
        · exact sameOwner_trans ownX.1.1 own.1
        · exact ownX.1.2.trans own.2.symm
      have wfMerge : Wf (merge bsize request x).userRange := by
        rw [merge_userRange wf]
        exact hull_wf wf wfX
      have overlapping : areFileLocksOverlapping (merge bsize request x) y.lock = areFileLocksOverlapping request y.lock := by
        apply Bool.eq_iff_iff.mpr
        rw [overlapping_iff wfMerge wfY,overlapping_iff wf wfY,merge_userRange wf,touch_hull wf wfX wfY touchX]
        exact or_iff_left between
      rw [overlapping]
    · have skip : (sameOwner y.lock request && decide (y.lock.mode = request.mode)) = false := by simpa using own
      rw [skip]
      rfl
  rw [same,found,List.filter_cons_of_neg (by simp)]
  apply List.filter_eq_self.mpr
  intro y mem
  have differ : y.ptr ≠ x.ptr := by
    intro equal
    exact (List.nodup_cons.mp metNodup).1 (List.mem_map.mpr ⟨y,mem,equal⟩)
  simpa using differ

theorem merge_wf (wf : Wf request.userRange) {x : Node} (wfX : Wf x.lock.userRange) :
    Wf (merge bsize request x).userRange := by
  rw [merge_userRange wf]
  exact hull_wf wf wfX

/-- The request with all the locks it meets put in it. -/
structure Merged (bsize : BSize) (request : Lock) (met : List Node) (lock : Lock) : Prop where
  wf : Wf lock.userRange
  mem : ∀ offset, Mem lock.userRange offset ↔ Mem request.userRange offset ∨ ∃ x ∈ met, Mem x.lock.userRange offset
  touch : ∀ range, Wf range → (Touch lock.userRange range ↔
    Touch request.userRange range ∨ ∃ x ∈ met, Touch x.lock.userRange range)
  mode : lock.mode = request.mode
  clientRef : lock.clientRef = request.clientRef
  ownerRef : lock.ownerRef = request.ownerRef

theorem foldl_merged (met : List Node) {request : Lock} (wf : Wf request.userRange)
    (wfs : ∀ x ∈ met, Wf x.lock.userRange) (touches : ∀ x ∈ met, Touch request.userRange x.lock.userRange) :
    Merged bsize request met (met.foldl (merge bsize) request) := by
  induction met generalizing request with
  | nil => exact ⟨wf,by simp,by simp,rfl,rfl,rfl⟩
  | cons x rest ih =>
    have wfX := wfs x (by simp)
    have touchX := touches x (by simp)
    have user := @merge_userRange bsize request wf x
    have later := ih (merge_wf wf wfX) (fun y mem => wfs y (by simp [mem])) (by
      intro y mem
      rw [user,touch_hull wf wfX (wfs y (by simp [mem])) touchX]
      exact .inl (touches y (by simp [mem])))
    constructor
    case wf => exact later.wf
    case mem =>
      intro offset
      rw [List.foldl_cons,later.mem,user,mem_hull wf wfX touchX]
      simp [or_assoc]
    case touch =>
      intro range wfRange
      rw [List.foldl_cons,later.touch range wfRange,user,touch_hull wf wfX wfRange touchX]
      simp [or_assoc]
    case mode => exact later.mode.trans (merge_mode x)
    case clientRef => exact later.clientRef.trans (merge_clientRef x)
    case ownerRef => exact later.ownerRef.trans (merge_ownerRef x)

theorem meets_spec (wf : Wf request.userRange) (wfs : ∀ x ∈ locks, Wf x.lock.userRange) {x : Node} :
    x ∈ meets request locks ↔ x ∈ locks ∧ (sameOwner x.lock request = true ∧ x.lock.mode = request.mode) ∧
      Touch request.userRange x.lock.userRange := by
  constructor
  · intro mem
    obtain ⟨inside,own⟩ := List.mem_filter.mp mem
    simp only [Bool.and_eq_true,decide_eq_true_eq] at own
    exact ⟨inside,own.1,(overlapping_iff wf (wfs x inside)).mp own.2⟩
  · rintro ⟨inside,own,touch⟩
    apply List.mem_filter.mpr
    refine ⟨inside,?_⟩
    simp only [Bool.and_eq_true,decide_eq_true_eq]
    exact ⟨own,(overlapping_iff wf (wfs x inside)).mpr touch⟩

/-- A lock of the same owner and mode that the request did not meet does not touch the merged
lock. -/
theorem merged_apart {lock : Lock} {y : Node} (shaped : Shaped locks) (wf : Wf request.userRange)
    (merged : Merged bsize request (meets request locks) lock) (inside : y ∈ locks)
    (notMet : ∀ x ∈ meets request locks, y.ptr ≠ x.ptr) (same : sameOwner lock y.lock = true)
    (mode : lock.mode = y.lock.mode) : ¬Touch lock.userRange y.lock.userRange := by
  intro touch
  have own : sameOwner y.lock request = true := by
    rw [sameOwner_comm,← same]
    exact (sameOwner_congr merged.clientRef merged.ownerRef rfl rfl).symm
  rcases (merged.touch y.lock.userRange (shaped.wf y inside)).mp touch with touchRequest | ⟨x,memX,touchX⟩
  · have met : y ∈ meets request locks :=
      (meets_spec wf shaped.wf).mpr ⟨inside,⟨own,mode.symm.trans merged.mode⟩,touchRequest⟩
    exact notMet y met rfl
  · obtain ⟨insideX,ownX,_⟩ := (meets_spec wf shaped.wf).mp memX
    exact shaped.apart x insideX y inside (Ne.symm (notMet x memX)) (sameOwner_trans ownX.1 own)
      (ownX.2.trans (merged.mode.symm.trans mode)) touchX

variable {φ : Type} [DecidableEq φ] {eid : Nat} {fid : φ}

/-- The loop merges the locks that the request meets, in the order of the list. -/
theorem concatenate_eq (met : List Node) {request : Lock} {st : State φ} (wf : Wf request.userRange)
    (linked : Linked False st) (shaped : AllShaped st) (found : meets request (st.files eid fid).locks = met) :
    concatenate bsize eid fid met.length request st =
      (met.foldl (merge bsize) request,met.foldl (fun st x => dropFileLock st eid fid x) st) := by
  induction met generalizing request st with
  | nil => rfl
  | cons x rest ih =>
    have shape := shaped eid fid
    have memX : x ∈ (st.files eid fid).locks := by
      have first : x ∈ meets request (st.files eid fid).locks := by simp [found]
      exact (List.mem_filter.mp first).1
    rw [List.length_cons,concatenate,findConcatenate_eq wf shape.wf,found]
    dsimp only [List.head?_cons,Option.map_some]
    rw [List.foldl_cons,List.foldl_cons]
    apply ih (merge_wf wf (shape.wf x memX)) (linked.dropFileLock memX) (drop_shaped linked shaped memX)
    rw [dropFileLock_files linked memX]
    exact meets_merge wf shape (linked.fileNodup eid fid) found

/-- What is left when locks of a file are dropped. -/
theorem dropAll_locks (dropped : List Node) {st : State φ} (linked : Linked False st)
    (mem : ∀ x ∈ dropped, x ∈ (st.files eid fid).locks) (nodup : (dropped.map Node.ptr).Nodup) (eid' : Nat) (fid' : φ) :
    ((dropped.foldl (fun st x => dropFileLock st eid fid x) st).files eid' fid').locks =
      (st.files eid' fid').locks.filter fun y => dropped.all fun x => y.ptr ≠ x.ptr := by
  induction dropped generalizing st with
  | nil => simp
  | cons x rest ih =>
    obtain ⟨fresh,nodupRest⟩ := List.nodup_cons.mp nodup
    have memX := mem x (by simp)
    have memRest : ∀ z ∈ rest, z ∈ ((dropFileLock st eid fid x).files eid fid).locks := by
      intro z memZ
      apply mem_drop linked memX (mem z (by simp [memZ]))
      intro same
      exact fresh (List.mem_map.mpr ⟨z,memZ,same⟩)
    rw [List.foldl_cons,ih (linked.dropFileLock memX) memRest nodupRest,dropFileLock_files linked memX,List.filter_filter]
    apply List.filter_congr
    intro y _
    simp [Bool.and_comm]

theorem dropAll_files (dropped : List Node) {st : State φ} (linked : Linked False st)
    (mem : ∀ x ∈ dropped, x ∈ (st.files eid fid).locks) (nodup : (dropped.map Node.ptr).Nodup) {eid' : Nat} {fid' : φ}
    {y : Node} (memY : y ∈ ((dropped.foldl (fun st x => dropFileLock st eid fid x) st).files eid' fid').locks) :
    y ∈ (st.files eid' fid').locks ∧ ∀ x ∈ dropped, y.ptr ≠ x.ptr := by
  rw [dropAll_locks dropped linked mem nodup] at memY
  simpa using memY

theorem merged_meets (wf : Wf request.userRange) (wfs : ∀ x ∈ locks, Wf x.lock.userRange) :
    Merged bsize request (meets request locks) ((meets request locks).foldl (merge bsize) request) := by
  apply foldl_merged _ wf
  · exact fun x mem => wfs x ((meets_spec wf wfs).mp mem).1
  · exact fun x mem => ((meets_spec wf wfs).mp mem).2.2

/-- A symmetric property of the pairs of a list, when an element is put in front. -/
theorem pairs_cons {α : Type} {pair : α → α → Prop} {x : α} {l : List α} (self : pair x x) (symm : ∀ y, pair x y → pair y x)
    (head : ∀ y ∈ l, pair x y) (rest : ∀ y ∈ l, ∀ z ∈ l, pair y z) : ∀ y ∈ x :: l, ∀ z ∈ x :: l, pair y z := by
  intro y memY z memZ
  rcases List.mem_cons.mp memY with rfl | beforeY
  · rcases List.mem_cons.mp memZ with rfl | beforeZ
    · exact self
    · exact head z beforeZ
  · rcases List.mem_cons.mp memZ with rfl | beforeZ
    · exact symm y (head y beforeY)
    · exact rest y beforeY z beforeZ

/-- The list of a file after a lock is granted. -/
theorem Shaped.grant (shaped : Shaped locks) (wf : Wf request.userRange) {left : List Node} (ptr : Nat)
    (leftOver : ∀ y ∈ left, y ∈ locks ∧ ∀ x ∈ meets request locks, y.ptr ≠ x.ptr) :
    Shaped (⟨ptr,(meets request locks).foldl (merge bsize) request⟩ :: left) := by
  have merged : Merged bsize request (meets request locks) ((meets request locks).foldl (merge bsize) request) := merged_meets wf shaped.wf
  have old := shaped.subset fun y mem => (leftOver y mem).1
  have apart : ∀ y ∈ left, sameOwner ((meets request locks).foldl (merge bsize) request) y.lock = true →
      ((meets request locks).foldl (merge bsize) request).mode = y.lock.mode →
        ¬Touch ((meets request locks).foldl (merge bsize) request).userRange y.lock.userRange :=
    fun y mem same mode => merged_apart shaped wf merged (leftOver y mem).1 (leftOver y mem).2 same mode
  constructor
  · intro y mem
    rcases List.mem_cons.mp mem with rfl | before
    · exact merged.wf
    · exact old.wf y before
  · refine pairs_cons (fun differ => absurd rfl differ) (fun y head differ same mode => ?_) (fun z memZ _ => apart z memZ) old.apart
    rw [sameOwner_comm] at same
    exact fun touch => head differ.symm same mode.symm touch.symm

/-- What stays of the locks once those that the request meets are dropped. -/
theorem leftOver_spec {st : State φ} (linked : Linked False st) {eid' : Nat} {fid' : φ} {y : Node}
    (mem : y ∈ (((meets request (st.files eid fid).locks).foldl (fun st x => dropFileLock st eid fid x) st).files eid' fid').locks) :
    y ∈ (st.files eid' fid').locks ∧ ∀ x ∈ meets request (st.files eid fid).locks, y.ptr ≠ x.ptr := by
  apply dropAll_files _ linked _ _ mem
  · exact fun x memX => (List.mem_filter.mp memX).1
  · exact (linked.fileNodup eid fid).sublist (List.filter_sublist.map _)

end Sets

section Steps
variable {φ : Type} {bsize : BSize} {eid : Nat} {fid : φ}

/-- Every lock of the state was there before. -/
def Fewer (st' st : State φ) : Prop := ∀ eid fid, (st'.files eid fid).locks ⊆ (st.files eid fid).locks

theorem unlinkAll_fewer (ptrs : List Nat) (st : State φ) : Fewer (unlinkAll st ptrs) st := by
  induction ptrs generalizing st with
  | nil => exact fun _ _ _ mem => mem
  | cons ptr rest ih => exact fun eid fid x mem => (List.mem_filter.mp (ih _ eid fid mem)).1

theorem removeClient_fewer (st : State φ) (eid clientRef : Nat) : Fewer (fileLockRemoveClient st eid clientRef) st := by
  unfold fileLockRemoveClient
  split
  · exact fun _ _ _ mem => mem
  · exact unlinkAll_fewer _ st

theorem pollClient_fewer (st : State φ) (eid clientRef : Nat) (late : Nat → Bool) :
    Fewer (fileLockPollClient st eid clientRef late) st := by
  have removed : ∀ (old : List Client) (st : State φ),
      Fewer (old.foldl (fun st c => fileLockRemoveClient st eid c.clientRef) st) st := by
    intro old
    induction old with
    | nil => exact fun st _ _ _ mem => mem
    | cons c rest ih => exact fun st eid' fid' x mem => removeClient_fewer st eid _ eid' fid' (ih _ eid' fid' mem)
  unfold fileLockPollClient
  dsimp only
  split
  · exact removed _ st
  · exact removed _ st

variable [DecidableEq φ]

theorem cacheUnlink_fewer (st : State φ) (eid : Nat) (fid : φ) : Fewer (lv2CacheUnlink st eid fid) st := by
  intro eid' fid' x mem
  unfold lv2CacheUnlink at mem
  rw [setEntry_files] at mem
  split at mem
  · cases mem
  · exact unlinkAll_fewer _ st eid' fid' mem

omit [DecidableEq φ] in
theorem Fewer.shaped {st st' : State φ} (fewer : Fewer st' st) (shaped : AllShaped st) : AllShaped st' :=
  fun eid fid => (shaped eid fid).subset (fewer eid fid)

theorem clearOwner_fewer {st : State φ} (linked : Linked False st) (clientRef ownerRef : Nat) :
    Fewer (exportClearOwnerFileLock eid fid clientRef ownerRef st) st := by
  intro eid' fid' y mem
  have dropped := @dropAll_files φ _ eid fid
    ((st.files eid fid).locks.filter fun x => x.lock.clientRef = clientRef && x.lock.ownerRef = ownerRef) st linked
    (fun x memX => (List.mem_filter.mp memX).1)
    ((linked.fileNodup eid fid).sublist (List.filter_sublist.map _)) eid' fid' y mem
  exact dropped.1

theorem freeLoop_shaped {lockFree : Lock} {st st' : State φ} (wfFree : Wf lockFree.userRange) (linked : Linked False st)
    (shaped : AllShaped st) (done : freeLoop bsize eid fid lockFree ((st.files eid fid).locks.length + 1) st = some st') :
    AllShaped st' := by
  obtain ⟨st'',eq,_,still⟩ := freeLoop_rule (P := AllShaped)
    (fun linked holds mem verdict => edit_shaped wfFree linked holds mem verdict)
    (fun linked holds mem _ => drop_shaped linked holds mem)
    _ linked shaped (Nat.lt_succ_of_le List.countP_le_length)
  rw [done] at eq
  cases eq
  exact still

theorem setFileLock_shaped {request : Lock} {st st' : State φ} (linked : Linked False st) (shaped : AllShaped st)
    (wf : Wf request.userRange) (next : exportSetFileLock bsize eid fid request st = some st') : AllShaped st' := by
  unfold exportSetFileLock at next
  dsimp only at next
  split at next
  case isTrue free =>
    split at next
    · cases next
      exact shaped
    · split at next
      · cases next
        intro eid' fid'
        rw [setEntry_files]
        split
        · exact shaped eid fid
        · exact shaped eid' fid'
      · exact freeLoop_shaped wf linked shaped next
  case isFalse set =>
    split at next
    case isTrue allowed =>
      rw [concatenate_eq _ wf linked shaped rfl] at next
      cases next
      intro eid' fid'
      rw [addFileLock_files]
      split
      · exact (shaped eid fid).grant wf _ fun y mem => leftOver_spec linked mem
      · exact (shaped eid' fid').subset fun y mem => (leftOver_spec linked mem).1
    case isFalse =>
      cases next
      exact shaped

theorem step_shaped {st st' : State φ} {a : Act φ} (linked : Linked False st) (shaped : AllShaped st)
    (next : step bsize a st = some st') : AllShaped st' := by
  cases a with
  | setlk eid fid mode clientRef ownerRef start len =>
    simp only [step] at next
    cases canonical : flockCanonical start len with
    | none =>
      rw [canonical] at next
      cases next
      exact shaped
    | some range =>
      simp only [canonical] at next
      exact setFileLock_shaped linked shaped (canonical_wf canonical) next
  | clearOwner eid fid clientRef ownerRef =>
    cases next
    exact (clearOwner_fewer linked clientRef ownerRef).shaped shaped
  | clearClient eid clientRef late =>
    cases next
    have fewer := pollClient_fewer (fileLockRemoveClient st eid clientRef) eid clientRef late
    exact fewer.shaped ((removeClient_fewer st eid clientRef).shaped shaped)
  | removeClient eid clientRef =>
    cases next
    exact (removeClient_fewer st eid clientRef).shaped shaped
  | poll eid clientRef late =>
    cases next
    exact (pollClient_fewer st eid clientRef late).shaped shaped
  | evict eid fid =>
    simp only [step] at next
    split at next
    · cases next
      exact (cacheUnlink_fewer st eid fid).shaped shaped
    · cases next
  | del eid fid =>
    cases next
    exact (cacheUnlink_fewer st eid fid).shaped shaped

/-- Every run keeps the lists linked and the locks of one owner and mode apart. -/
theorem run_shaped {ok : State φ → Act φ → Prop} {st : State φ} (run : Machine.Run (step bsize) ok serviceInit st) :
    Linked False st ∧ AllShaped st := by
  apply run.invariant (fun st => Linked False st ∧ AllShaped st)
  · refine ⟨LockLists.initial False,?_⟩
    intro eid fid
    constructor <;> simp [serviceInit]
  · rintro st a st' ⟨linked,shaped⟩ _ next
    exact ⟨step_linked linked False.elim next,step_shaped linked shaped next⟩

end Steps

end Rozofs.LockShapes
