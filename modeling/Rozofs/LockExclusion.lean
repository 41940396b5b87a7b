import Rozofs.LockShapes

/-! Mutual exclusion of file locks. The locks of a file are exclusive, their blocks cover their
bytes, and the locks of one owner and mode do not touch; a request keeps this unless the server
computes blocks that do not cover the bytes of a lock. -/
namespace Rozofs.LockExclusion
open FileLock LockLists LockAccounting LockRanges LockShapes

structure Exclusive (bsize : BSize) (locks : List Node) : Prop where
  wf : ∀ x ∈ locks, Wf x.lock.userRange
  covers : ∀ x ∈ locks, Covers bsize x.lock.userRange x.lock.effectiveRange
  excludes : ∀ x ∈ locks, ∀ y ∈ locks, sameOwner x.lock y.lock = false →
    (x.lock.mode = .read ∧ y.lock.mode = .read) ∨ ∀ offset, Mem x.lock.userRange offset → ¬Mem y.lock.userRange offset
  apart : ∀ x ∈ locks, ∀ y ∈ locks, x.ptr ≠ y.ptr → sameOwner x.lock y.lock = true → x.lock.mode = y.lock.mode →
    ¬Touch x.lock.userRange y.lock.userRange

/-- A lock is inside another one of the same owner and mode. -/
structure Within (bsize : BSize) (inner outer : Lock) : Prop where
  wf : Wf inner.userRange
  covers : Covers bsize inner.userRange inner.effectiveRange
  inside : ∀ offset, Mem inner.userRange offset → Mem outer.userRange offset
  mode : inner.mode = outer.mode
  clientRef : inner.clientRef = outer.clientRef
  ownerRef : inner.ownerRef = outer.ownerRef

theorem Within.part {bsize : BSize} {inner outer : Lock} (within : Within bsize inner outer) : Inside inner outer :=
  ⟨within.wf,within.inside,within.mode,within.clientRef,within.ownerRef⟩

section Lists
variable {bsize : BSize} {locks locks' : List Node}

theorem Exclusive.shaped (exclusive : Exclusive bsize locks) : Shaped locks := ⟨exclusive.wf,exclusive.apart⟩

/-- Locks that stay inside locks of the list. -/
theorem Exclusive.of_within (exclusive : Exclusive bsize locks) (origin : Node → Node)
    (within : ∀ y ∈ locks', origin y ∈ locks ∧ Within bsize y.lock (origin y).lock)
    (apart : ∀ y ∈ locks', ∀ z ∈ locks', y.ptr ≠ z.ptr →
      (origin y).ptr ≠ (origin z).ptr ∨ ¬Touch y.lock.userRange z.lock.userRange) : Exclusive bsize locks' where
  wf y mem := (within y mem).2.wf
  covers y mem := (within y mem).2.covers
  excludes y memY z memZ differ := by
    obtain ⟨oldY,inY⟩ := within y memY
    obtain ⟨oldZ,inZ⟩ := within z memZ
    rw [sameOwner_congr inY.clientRef inY.ownerRef inZ.clientRef inZ.ownerRef] at differ
    rcases exclusive.excludes _ oldY _ oldZ differ with reads | disjoint
    · exact .inl ⟨inY.mode.trans reads.1,inZ.mode.trans reads.2⟩
    · exact .inr fun offset memY memZ => disjoint offset (inY.inside offset memY) (inZ.inside offset memZ)
  apart := (exclusive.shaped.of_inside origin (fun y mem => ⟨(within y mem).1,(within y mem).2.part⟩) apart).apart

theorem Exclusive.within (exclusive : Exclusive bsize locks) {x : Node} (mem : x ∈ locks) : Within bsize x.lock x.lock :=
  ⟨exclusive.wf x mem,exclusive.covers x mem,fun _ mem => mem,rfl,rfl,rfl⟩

theorem Exclusive.subset (exclusive : Exclusive bsize locks) (sub : locks' ⊆ locks) : Exclusive bsize locks' :=
  exclusive.of_within id (fun _ mem => ⟨sub mem,exclusive.within (sub mem)⟩) fun _ _ _ _ differ => .inl differ

end Lists

section Frees
variable {bsize : BSize} {lockFree : Lock}

/-- The request frees bytes of its locks at places where their blocks stay right. -/
def Aligned (bsize : BSize) (lockFree : Lock) (locks : List Node) : Prop :=
  ∀ x ∈ locks, sameOwner lockFree x.lock = true → cutAligned bsize lockFree x.lock = true

theorem outside_aligned {lock : Lock} (outside : Outside lockFree lock) (wfFree : Wf lockFree.userRange)
    (wf : Wf lock.userRange) (owner : sameOwner lockFree lock = true) : cutAligned bsize lockFree lock = true := by
  have none : intersect lockFree.userRange lock.userRange = false := by
    apply Bool.eq_false_iff.mpr
    intro meet
    obtain ⟨offset,memFree,mem⟩ := (intersect_iff wfFree wf).mp meet
    exact outside owner offset mem memFree
  simp [cutAligned,none]

theorem keep_within {lockSet lock : Lock} {newLock : Option Lock} (wfFree : Wf lockFree.userRange)
    (old : Within bsize lockSet lockSet)
    (aligned : sameOwner lockFree lockSet = true → cutAligned bsize lockFree lockSet = true)
    (verdict : mustFileLockBeRemoved bsize lockFree lockSet = .keep lock newLock) :
    (Within bsize lock lockSet ∧ Outside lockFree lock) ∧
    ∀ new ∈ newLock, (Within bsize new lockSet ∧ Outside lockFree new) ∧ ¬Touch lock.userRange new.userRange := by
  by_cases owner : sameOwner lockFree lockSet = true
  · have ofPart : ∀ piece, Part bsize lockFree lockSet piece → Within bsize piece lockSet ∧ Outside lockFree piece := by
      intro piece part
      exact ⟨⟨part.wf,part.covers old.covers (aligned owner),part.inside,part.mode,part.clientRef,part.ownerRef⟩,
        fun _ => part.outside⟩
    obtain ⟨part,newPart⟩ := keep_parts wfFree old.wf owner verdict
    refine ⟨ofPart lock part,?_⟩
    intro new isNew
    exact ⟨ofPart new (newPart new isNew).1,(newPart new isNew).2⟩
  · obtain ⟨rfl,rfl⟩ := keep_other owner verdict
    refine ⟨⟨old,fun same => absurd same owner⟩,?_⟩
    intro new isNew
    cases isNew

variable {φ : Type} {eid : Nat} {fid : φ} {st : State φ}

theorem cut_exclusive {x : Node} {lock : Lock} {newLock : Option Lock} (wfFree : Wf lockFree.userRange)
    (linked : Linked False st) (exclusive : Exclusive bsize (st.files eid fid).locks)
    (aligned : Aligned bsize lockFree (st.files eid fid).locks) (mem : x ∈ (st.files eid fid).locks)
    (verdict : mustFileLockBeRemoved bsize lockFree x.lock = .keep lock newLock) :
    let locks := (newLock.toList.map fun new => (⟨st.next,new⟩ : Node)) ++
        (st.files eid fid).locks.map fun y => if y.ptr = x.ptr then ⟨x.ptr,lock⟩ else y
    Exclusive bsize locks ∧ Aligned bsize lockFree locks := by
  intro locks
  obtain ⟨⟨within,outside⟩,newParts⟩ := keep_within wfFree (exclusive.within mem) (aligned x mem) verdict
  have fresh := @fresh_ptr φ eid fid st linked
  constructor
  · apply exclusive.of_within (fun y => if y.ptr = st.next ∨ y.ptr = x.ptr then x else y) _ (cut_apart fresh fun new isNew => (newParts new isNew).2)
    intro y memY
    rcases edited_cases memY with ⟨new,isNew,rfl⟩ | rfl | ⟨old,other⟩
    · simpa using ⟨mem,(newParts new isNew).1.1⟩
    · simpa using ⟨mem,within⟩
    · simpa [fresh y old,other] using ⟨old,exclusive.within old⟩
  · intro y memY owner
    rcases edited_cases memY with ⟨new,isNew,rfl⟩ | rfl | ⟨old,_⟩
    · exact outside_aligned (newParts new isNew).1.2 wfFree (newParts new isNew).1.1.wf owner
    · exact outside_aligned outside wfFree within.wf owner
    · exact aligned y old owner

variable [DecidableEq φ]

/-- The locks of every file are exclusive. -/
def Guarded (bsize : BSize) (st : State φ) : Prop := ∀ eid fid, Exclusive bsize (st.files eid fid).locks

theorem drop_guarded {x : Node} (linked : Linked False st) (guarded : Guarded bsize st)
    (mem : x ∈ (st.files eid fid).locks) : Guarded bsize (dropFileLock st eid fid x) := by
  intro eid' fid'
  rw [dropFileLock_files linked mem]
  exact (guarded eid' fid').subset List.filter_sublist.subset

theorem edit_guarded {x : Node} {lock : Lock} {newLock : Option Lock} (wfFree : Wf lockFree.userRange)
    (linked : Linked False st) (guarded : Guarded bsize st ∧ Aligned bsize lockFree (st.files eid fid).locks)
    (mem : x ∈ (st.files eid fid).locks) (verdict : mustFileLockBeRemoved bsize lockFree x.lock = .keep lock newLock) :
    Guarded bsize (editFileLock st eid fid x lock newLock) ∧
    Aligned bsize lockFree ((editFileLock st eid fid x lock newLock).files eid fid).locks := by
  have cut := cut_exclusive wfFree linked (guarded.1 eid fid) guarded.2 mem verdict
  rw [← edit_locks] at cut
  refine ⟨?_,cut.2⟩
  intro eid' fid'
  by_cases here : eid' = eid ∧ fid' = fid
  · obtain ⟨rfl,rfl⟩ := here
    exact cut.1
  · rw [edit_other x lock newLock here]
    exact guarded.1 eid' fid'

theorem freeLoop_guarded (wfFree : Wf lockFree.userRange) (linked : Linked False st) (guarded : Guarded bsize st)
    (aligned : Aligned bsize lockFree (st.files eid fid).locks) {st' : State φ}
    (done : freeLoop bsize eid fid lockFree ((st.files eid fid).locks.length + 1) st = some st') : Guarded bsize st' := by
  have loop := freeLoop_rule (P := fun st : State φ => Guarded bsize st ∧ Aligned bsize lockFree (st.files eid fid).locks)
    (fun linked holds mem verdict => edit_guarded wfFree linked holds mem verdict)
    (fun linked holds mem _ => ⟨drop_guarded linked holds.1 mem,fun y memY => holds.2 y (by
      rw [dropFileLock_files linked mem] at memY
      exact (List.mem_filter.mp memY).1)⟩)
    _ linked ⟨guarded,aligned⟩ (Nat.lt_succ_of_le List.countP_le_length)
  obtain ⟨st'',eq,_,still,_⟩ := loop
  rw [done] at eq
  cases eq
  exact still

end Frees

section Sets
variable {bsize : BSize} {request : Lock} {locks : List Node}

/-- Ranges merged one after the other are not the whole file; when the last one that the server
computes has an end, this is the end of a block or the remainder of the former stop in blocks is
not zero. -/
def mergeAligned (bsize : BSize) (former : Nat) (range : Range) : List Range → Bool
  | [] => true
  | next :: rest =>
    let range := hull range next
    if rest = [] then
      range.size ≠ .total &&
        (!bounded range || range.offsetStop % bsize.bytes = 0 || former % bsize.bytes ≠ 0)
    else
      let stop := if former % bsize.bytes = 0 then range.offsetStop / bsize.bytes else range.offsetStop / bsize.bytes + 1
      mergeAligned bsize (if bounded range then stop else 0) range rest

theorem mergeAligned_total (former : Nat) {range : Range} (wf : Wf range) (total : range.size = .total) {ranges : List Range}
    (some : ranges ≠ []) : mergeAligned bsize former range ranges = false := by
  induction ranges generalizing former with
  | nil => exact absurd rfl some
  | cons next rest ih =>
    rw [mergeAligned]
    simp only [hull_total wf total]
    split
    · simp [total]
    case isFalse more => exact ih _ more

theorem setUserRange_toEnd {lock : Lock} {range : Range} (size : range.size = .toEnd) :
    (setUserRange bsize lock range).effectiveRange.offsetStop = 0 := by
  obtain ⟨_,start,stop⟩ := range
  subst size
  rfl

theorem merged_covers (met : List Node) {request : Lock} (wf : Wf request.userRange) (partly : request.userRange.size ≠ .total)
    (wfs : ∀ x ∈ met, Wf x.lock.userRange) (some : met ≠ [])
    (aligned : mergeAligned bsize request.effectiveRange.offsetStop request.userRange
      (met.map fun x => x.lock.userRange) = true) :
    Covers bsize (met.foldl (merge bsize) request).userRange (met.foldl (merge bsize) request).effectiveRange := by
  induction met generalizing request with
  | nil => exact absurd rfl some
  | cons x rest ih =>
    have wfX := wfs x (by simp)
    have step : merge bsize request x = setUserRange bsize request (hull request.userRange x.lock.userRange) :=
      if_neg partly
    rw [List.map_cons,mergeAligned] at aligned
    dsimp only at aligned
    rw [List.foldl_cons,step]
    split at aligned
    case isTrue last =>
      rw [List.map_eq_nil_iff] at last
      subst last
      simp only [Bool.and_eq_true,Bool.or_eq_true,decide_eq_true_eq,Bool.not_eq_true'] at aligned
      apply setUserRange_covers (hull_wf wf wfX) (by simpa using aligned.1)
      intro stops
      rcases aligned.2 with (unbounded | ends) | remains
      · exact absurd stops (by simp [unbounded])
      · exact .inl ends
      · exact .inr (by simpa using remains)
    case isFalse more =>
      have moreMet : rest ≠ [] := fun none => more (by simp [none])
      have partly' : (hull request.userRange x.lock.userRange).size ≠ .total := by
        intro total
        rw [mergeAligned_total _ (hull_wf wf wfX) total more] at aligned
        cases aligned
      apply ih (hull_wf wf wfX) partly' (fun y mem => wfs y (by simp [mem])) moreMet
      have stop : (setUserRange bsize request (hull request.userRange x.lock.userRange)).effectiveRange.offsetStop =
          if bounded (hull request.userRange x.lock.userRange) = true then
            if request.effectiveRange.offsetStop % bsize.bytes = 0 then
              (hull request.userRange x.lock.userRange).offsetStop / bsize.bytes
            else (hull request.userRange x.lock.userRange).offsetStop / bsize.bytes + 1
          else 0 := by
        split
        case isTrue stops => exact setUserRange_stop stops
        case isFalse open_ =>
          apply setUserRange_toEnd
          generalize hull request.userRange x.lock.userRange = range at partly' open_
          obtain ⟨size,_,_⟩ := range
          cases size with
          | total => exact absurd rfl partly'
          | toEnd => rfl
          | fromStart => exact absurd rfl open_
          | partialRange => exact absurd rfl open_
      rw [stop]
      exact aligned

variable {φ : Type} [DecidableEq φ] {eid : Nat} {fid : φ}

/-- The request is granted. -/
def granted (request : Lock) (locks : List Node) : Bool :=
  locks.all fun x => sameOwner x.lock request || areFileLocksCompatible x.lock request

/-- The blocks computed for the merged lock cover its bytes. -/
def setAligned (bsize : BSize) (request : Lock) (locks : List Node) : Bool :=
  request.userRange.size = .total ||
    mergeAligned bsize request.effectiveRange.offsetStop request.userRange
      ((meets request locks).map fun x => x.lock.userRange)

theorem Exclusive.cons {left : List Node} {x : Node} (old : Exclusive bsize left) (wf : Wf x.lock.userRange)
    (covers : Covers bsize x.lock.userRange x.lock.effectiveRange)
    (excludes : ∀ y ∈ left, sameOwner x.lock y.lock = false → (x.lock.mode = .read ∧ y.lock.mode = .read) ∨
      ∀ offset, Mem x.lock.userRange offset → ¬Mem y.lock.userRange offset)
    (apart : ∀ y ∈ left, sameOwner x.lock y.lock = true → x.lock.mode = y.lock.mode →
      ¬Touch x.lock.userRange y.lock.userRange) : Exclusive bsize (x :: left) := by
  constructor
  case wf =>
    intro y mem
    rcases List.mem_cons.mp mem with rfl | before
    · exact wf
    · exact old.wf y before
  case covers =>
    intro y mem
    rcases List.mem_cons.mp mem with rfl | before
    · exact covers
    · exact old.covers y before
  case excludes =>
    refine pairs_cons (fun differ => ?_) (fun y head differ => ?_) excludes old.excludes
    · simp [sameOwner] at differ
    · rw [sameOwner_comm] at differ
      rcases head differ with reads | disjoint
      · exact .inl reads.symm
      · exact .inr fun offset inY inZ => disjoint offset inZ inY
  case apart =>
    refine pairs_cons (fun differ => absurd rfl differ) (fun y head differ same mode => ?_) (fun z memZ _ => apart z memZ) old.apart
    rw [sameOwner_comm] at same
    exact fun touch => head differ.symm same mode.symm touch.symm

theorem foldl_covers (met : List Node) (wf : Wf request.userRange) (wfs : ∀ x ∈ met, Wf x.lock.userRange)
    (covers : Covers bsize request.userRange request.effectiveRange)
    (aligned : request.userRange.size = .total ∨ mergeAligned bsize request.effectiveRange.offsetStop request.userRange
      (met.map fun x => x.lock.userRange) = true) :
    Covers bsize (met.foldl (merge bsize) request).userRange (met.foldl (merge bsize) request).effectiveRange := by
  by_cases total : request.userRange.size = .total
  · have unchanged : met.foldl (merge bsize) request = request := by
      clear wfs aligned
      induction met with
      | nil => rfl
      | cons x rest ih =>
        have same : merge bsize request x = request := if_pos total
        rw [List.foldl_cons,same,ih]
    rw [unchanged]
    exact covers
  · by_cases none : met = []
    · rw [none]
      exact covers
    · exact merged_covers met wf total wfs none (aligned.resolve_left total)

/-- A granted lock excludes the locks of other owners: the request is compatible with them, and
the locks put in it exclude them already. -/
theorem merged_excludes {lock : Lock} {y : Node} (exclusive : Exclusive bsize locks) (wf : Wf request.userRange)
    (covers : Covers bsize request.userRange request.effectiveRange) (allowed : granted request locks = true)
    (merged : Merged bsize request (meets request locks) lock) (inside : y ∈ locks) (differ : sameOwner lock y.lock = false) :
    (lock.mode = .read ∧ y.lock.mode = .read) ∨ ∀ offset, Mem lock.userRange offset → ¬Mem y.lock.userRange offset := by
  have other : sameOwner y.lock request = false := by
    rw [sameOwner_comm,← differ]
    exact (sameOwner_congr merged.clientRef merged.ownerRef rfl rfl).symm
  have compatible : areFileLocksCompatible y.lock request = true := by
    simpa [other] using List.all_eq_true.mp allowed y inside
  rw [merged.mode]
  by_cases reads : request.mode = .read ∧ y.lock.mode = .read
  · exact .inl reads
  · apply Or.inr
    intro offset memLock memY
    rcases (merged.mem offset).mp memLock with memRequest | ⟨x,memX,memOffset⟩
    · rcases compatible_disjoint compatible (exclusive.covers y inside) covers with bothRead | disjoint
      · exact reads ⟨bothRead.2,bothRead.1⟩
      · exact disjoint offset memY memRequest
    · obtain ⟨insideX,ownX,_⟩ := (meets_spec wf exclusive.wf).mp memX
      have otherX : sameOwner x.lock y.lock = false := by
        apply Bool.eq_false_iff.mpr
        intro same
        rw [sameOwner_trans ((sameOwner_comm _ _).trans same) ((sameOwner_comm _ _).trans ownX.1)] at other
        cases other
      rcases exclusive.excludes x insideX y inside otherX with bothRead | disjoint
      · exact reads ⟨ownX.2.symm.trans bothRead.1,bothRead.2⟩
      · exact disjoint offset memOffset memY

/-- The list of a file after a lock is granted. -/
theorem Exclusive.grant (exclusive : Exclusive bsize locks) (wf : Wf request.userRange)
    (covers : Covers bsize request.userRange request.effectiveRange) (allowed : granted request locks = true)
    (aligned : setAligned bsize request locks = true) {left : List Node} (ptr : Nat)
    (leftOver : ∀ y ∈ left, y ∈ locks ∧ ∀ x ∈ meets request locks, y.ptr ≠ x.ptr) :
    Exclusive bsize (⟨ptr,(meets request locks).foldl (merge bsize) request⟩ :: left) := by
  have wfs : ∀ x ∈ meets request locks, Wf x.lock.userRange :=
    fun x mem => exclusive.wf x ((meets_spec wf exclusive.wf).mp mem).1
  have merged : Merged bsize request (meets request locks) ((meets request locks).foldl (merge bsize) request) := merged_meets wf exclusive.wf
  apply Exclusive.cons
  · exact exclusive.subset fun y mem => (leftOver y mem).1
  · exact merged.wf
  · apply foldl_covers _ wf wfs covers
    simpa [setAligned] using aligned
  · exact fun y mem differ => merged_excludes exclusive wf covers allowed merged (leftOver y mem).1 differ
  · exact fun y mem same mode => merged_apart exclusive.shaped wf merged (leftOver y mem).1 (leftOver y mem).2 same mode

end Sets

section Steps
variable {φ : Type} {bsize : BSize} {eid : Nat} {fid : φ}

theorem fewer_guarded {st st' : State φ} (fewer : Fewer st' st) (guarded : Guarded bsize st) : Guarded bsize st' :=
  fun eid fid => (guarded eid fid).subset (fewer eid fid)

variable [DecidableEq φ]

theorem setFileLock_guarded {request : Lock} {st st' : State φ} (linked : Linked False st) (guarded : Guarded bsize st)
    (wf : Wf request.userRange) (covers : Covers bsize request.userRange request.effectiveRange)
    (cuts : request.mode = .free → Aligned bsize request (st.files eid fid).locks)
    (merges : request.mode ≠ .free → granted request (st.files eid fid).locks = true →
      setAligned bsize request (st.files eid fid).locks = true)
    (next : exportSetFileLock bsize eid fid request st = some st') : Guarded bsize st' := by
  unfold exportSetFileLock at next
  dsimp only at next
  split at next
  case isTrue free =>
    split at next
    · cases next
      exact guarded
    · split at next
      · cases next
        intro eid' fid'
        rw [setEntry_files]
        split
        · exact guarded eid fid
        · exact guarded eid' fid'
      · exact freeLoop_guarded wf linked guarded (cuts free) next
  case isFalse set =>
    split at next
    case isTrue allowed =>
      have exclusive := guarded eid fid
      rw [concatenate_eq _ wf linked (fun eid fid => (guarded eid fid).shaped) rfl] at next
      cases next
      intro eid' fid'
      rw [addFileLock_files]
      split
      · exact exclusive.grant wf covers allowed (merges set allowed) _ fun y mem => leftOver_spec linked mem
      · exact (guarded eid' fid').subset fun y mem => (leftOver_spec linked mem).1
    case isFalse =>
      cases next
      exact guarded

/-- A set request that merges locks, or a free request that cuts one, does so where the server
computes blocks that cover the bytes. -/
def safe (bsize : BSize) (st : State φ) : Act φ → Bool
  | .setlk eid fid mode clientRef ownerRef start len =>
    match flockCanonical start len with
    | none => true
    | some range =>
      let request := clientLock bsize mode clientRef ownerRef range
      let locks := (st.files eid fid).locks
      if mode = .free then locks.all fun x => !sameOwner request x.lock || cutAligned bsize request x.lock
      else !granted request locks || setAligned bsize request locks
  | _ => true

theorem step_guarded {st st' : State φ} {a : Act φ} (linked : Linked False st) (guarded : Guarded bsize st)
    (careful : safe bsize st a = true) (next : step bsize a st = some st') : Guarded bsize st' := by
  cases a with
  | setlk eid fid mode clientRef ownerRef start len =>
    simp only [step] at next
    simp only [safe] at careful
    cases canonical : flockCanonical start len with
    | none =>
      rw [canonical] at next
      cases next
      exact guarded
    | some range =>
      simp only [canonical] at next careful
      have wf := canonical_wf canonical
      apply setFileLock_guarded linked guarded wf (client_covers wf) _ _ next
      · intro (free : mode = .free)
        rw [if_pos free,List.all_eq_true] at careful
        intro x mem owner
        simpa [owner] using careful x mem
      · intro (set : mode ≠ .free) allowed
        rw [if_neg set] at careful
        simpa [allowed] using careful
  | clearOwner eid fid clientRef ownerRef =>
    cases next
    exact fewer_guarded (clearOwner_fewer linked clientRef ownerRef) guarded
  | clearClient eid clientRef late =>
    cases next
    have fewer := pollClient_fewer (fileLockRemoveClient st eid clientRef) eid clientRef late
    exact fewer_guarded fewer (fewer_guarded (removeClient_fewer st eid clientRef) guarded)
  | removeClient eid clientRef =>
    cases next
    exact fewer_guarded (removeClient_fewer st eid clientRef) guarded
  | poll eid clientRef late =>
    cases next
    exact fewer_guarded (pollClient_fewer st eid clientRef late) guarded
  | evict eid fid =>
    simp only [step] at next
    split at next
    · cases next
      exact fewer_guarded (cacheUnlink_fewer st eid fid) guarded
    · cases next
  | del eid fid =>
    cases next
    exact fewer_guarded (cacheUnlink_fewer st eid fid) guarded

/-- In every run of safe requests, locks of different owners with a common byte are both read
locks. -/
theorem locks_exclusive (bsize : BSize) {st : State φ}
    (run : Machine.Run (step bsize) (fun st a => safe bsize st a = true) serviceInit st) (eid : Nat) (fid : φ) :
    ∀ x ∈ (st.files eid fid).locks, ∀ y ∈ (st.files eid fid).locks,
      (x.lock.clientRef,x.lock.ownerRef) ≠ (y.lock.clientRef,y.lock.ownerRef) →
      (x.lock.mode = .write ∨ y.lock.mode = .write) →
      ∀ offset, ¬(Mem x.lock.userRange offset ∧ Mem y.lock.userRange offset) := by
  have inv : Linked False st ∧ Guarded bsize st := by
    apply run.invariant (fun st => Linked False st ∧ Guarded bsize st)
    · refine ⟨LockLists.initial False,?_⟩
      intro eid fid
      constructor <;> simp [serviceInit]
    · rintro st a st' ⟨linked,guarded⟩ careful next
      exact ⟨step_linked linked False.elim next,step_guarded linked guarded careful next⟩
  intro x memX y memY differ writes offset both
  have other : sameOwner x.lock y.lock = false := by
    apply Bool.eq_false_iff.mpr
    intro same
    simp only [sameOwner,Bool.and_eq_true,decide_eq_true_eq] at same
    exact differ (Prod.ext same.1 same.2)
  rcases (inv.2 eid fid).excludes x memX y memY other with reads | disjoint
  · rcases writes with writeX | writeY
    · rw [reads.1] at writeX
      cases writeX
    · rw [reads.2] at writeY
      cases writeY
  · exact disjoint offset both.1 both.2

/-- Two clients lock a file; one grows its range and frees the end of it. -/
theorem locks_exclusive_grown : ∃ st : State Nat,
    ((st.files 1 7).locks.map fun x => (x.lock.clientRef,x.lock.userRange.offsetStop)) = [(4,30000),(3,16384)] ∧
    ∀ x ∈ (st.files 1 7).locks, ∀ y ∈ (st.files 1 7).locks,
      (x.lock.clientRef,x.lock.ownerRef) ≠ (y.lock.clientRef,y.lock.ownerRef) →
      (x.lock.mode = .write ∨ y.lock.mode = .write) →
      ∀ offset, ¬(Mem x.lock.userRange offset ∧ Mem y.lock.userRange offset) := by
  have done : (Machine.exec (step .bsize4K) (fun (st : State Nat) a => safe .bsize4K st a = true)
      [.setlk 1 7 .write 3 1 0 9000,.setlk 1 7 .write 4 1 8192 1000,.setlk 1 7 .write 3 1 9000 11000,
        .setlk 1 7 .free 3 1 16384 0,.setlk 1 7 .write 4 1 21000 9000] serviceInit).map
      (fun st => (st.files 1 7).locks.map fun x => (x.lock.clientRef,x.lock.userRange.offsetStop)) =
      some [(4,30000),(3,16384)] := by decide +kernel
  obtain ⟨st,done,seen⟩ := Option.map_eq_some_iff.mp done
  exact ⟨st,seen,locks_exclusive .bsize4K (Machine.Run.refl.exec done) 1 7⟩

/-- A client locks a file and frees its end from byte 5000 on: the blocks of what stays end at
byte 4096, and another client gets a lock on bytes 4500 to 4600. -/
theorem end_not_covered : ∃ st : State Nat, Machine.Run (step .bsize4K) (fun _ _ => True) serviceInit st ∧
    ∃ x ∈ (st.files 1 7).locks, ∃ y ∈ (st.files 1 7).locks,
      (x.lock.clientRef,x.lock.ownerRef) ≠ (y.lock.clientRef,y.lock.ownerRef) ∧
      (x.lock.mode = .write ∨ y.lock.mode = .write) ∧
      ∃ offset, Mem x.lock.userRange offset ∧ Mem y.lock.userRange offset := by
  have done : (Machine.exec (step .bsize4K) (fun (_ : State Nat) _ => True)
      [.setlk 1 7 .write 3 1 0 0,.setlk 1 7 .free 3 1 5000 0,.setlk 1 7 .write 4 1 4500 100] serviceInit).map
      (fun st => (st.files 1 7).locks.map fun x => (x.lock.mode,x.lock.clientRef,x.lock.userRange)) =
      some [(.write,4,⟨.partialRange,4500,4600⟩),(.write,3,⟨.fromStart,0,5000⟩)] := by decide +kernel
  obtain ⟨st,done,seen⟩ := Option.map_eq_some_iff.mp done
  obtain ⟨x,rest,eq,first,tail⟩ := List.map_eq_cons_iff.mp seen
  obtain ⟨y,rest',eq',second,_⟩ := List.map_eq_cons_iff.mp tail
  simp only [Prod.mk.injEq] at first second
  refine ⟨st,Machine.Run.refl.exec done,x,by simp [eq],y,by simp [eq,eq'],?_,.inl first.1,4500,?_⟩
  · simp [first.2.1,second.2.1]
  · rw [first.2.2,second.2.2]
    simp [Mem]

end Steps

end Rozofs.LockExclusion
