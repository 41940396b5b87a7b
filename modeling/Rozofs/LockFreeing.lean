import Rozofs.LockShapes

/-! Freeing a range of bytes: what `export_set_file_lock` leaves of the locks of a file, and when the
blocks of what is left are right. -/
namespace Rozofs.LockFreeing
open FileLock LockLists LockAccounting LockRanges LockShapes

/-- The smallest range of blocks that covers a range of bytes. -/
def BlockCover (bsize : BSize) (user effective : Range) : Prop :=
  ∀ block, Mem effective block ↔ ∃ offset, Mem user offset ∧ offset / bsize.bytes = block

/-- What a free request leaves of a lock. -/
def pieces (bsize : BSize) (lockFree lockSet : Lock) : List Lock :=
  match mustFileLockBeRemoved bsize lockFree lockSet with
  | .remove => []
  | .keep lock newLock => lock :: newLock.toList

/-- The blocks of what is left of a lock are right. The remainder that the server looks at is that of
the former stop in blocks; the part after the freed bytes keeps the blocks of the lock when the request
is inside a partial lock. -/
def CutExact (bsize : BSize) (lockFree lockSet : Lock) : Prop :=
  let free := lockFree.userRange
  let range := lockSet.userRange
  let former := lockSet.effectiveRange.offsetStop % bsize.bytes = 0
  intersect free range = true →
    (range.offsetStart < free.offsetStart → (former ↔ free.offsetStart % bsize.bytes = 0)) ∧
    (bounded free = true → bounded range = true → free.offsetStop < range.offsetStop →
      if range.size = .partialRange ∧ range.offsetStart < free.offsetStart then
        free.offsetStop / bsize.bytes = range.offsetStart / bsize.bytes
      else (former ↔ range.offsetStop % bsize.bytes = 0))

section Covers
variable {bsize : BSize} {range : Range} {lock : Lock}

/-- The blocks of a range that has a stop. -/
theorem bounded_blocks {start stop : Nat} (some : start < stop) (block : Nat) :
    (∃ offset, (start ≤ offset ∧ offset < stop) ∧ offset / bsize.bytes = block) ↔
      start / bsize.bytes ≤ block ∧ block < (stop + bsize.bytes - 1) / bsize.bytes := by
  have positive := bsize.bytes_pos
  constructor
  · rintro ⟨offset,⟨first,last⟩,rfl⟩
    refine ⟨Nat.div_le_div_right first,?_⟩
    rw [Nat.lt_iff_add_one_le,Nat.le_div_iff_mul_le positive]
    have lower := Nat.div_mul_le_self offset bsize.bytes
    rw [Nat.add_mul]
    omega
  · rintro ⟨first,last⟩
    rw [Nat.lt_iff_add_one_le,Nat.le_div_iff_mul_le positive,Nat.add_mul] at last
    by_cases own : start / bsize.bytes = block
    · exact ⟨start,⟨Nat.le_refl _,some⟩,own⟩
    · refine ⟨block * bsize.bytes,⟨?_,by omega⟩,Nat.mul_div_cancel _ positive⟩
      have next : start / bsize.bytes < block := by omega
      rw [Nat.div_lt_iff_lt_mul positive] at next
      omega

theorem toEnd_blocks {start : Nat} (block : Nat) :
    (∃ offset, start ≤ offset ∧ offset / bsize.bytes = block) ↔ start / bsize.bytes ≤ block := by
  have positive := bsize.bytes_pos
  constructor
  · rintro ⟨offset,first,rfl⟩
    exact Nat.div_le_div_right first
  · intro first
    by_cases own : start / bsize.bytes = block
    · exact ⟨start,Nat.le_refl _,own⟩
    · refine ⟨block * bsize.bytes,?_,Nat.mul_div_cancel _ positive⟩
      have next : start / bsize.bytes < block := by omega
      rw [Nat.div_lt_iff_lt_mul positive] at next
      omega

theorem same_stop {first stop stop' : Nat} (some : first < stop') :
    (∀ block, (first ≤ block ∧ block < stop) ↔ (first ≤ block ∧ block < stop')) ↔ stop = stop' := by
  constructor
  · intro same
    have last := same (stop' - 1)
    have beyond := same stop'
    omega
  · rintro rfl block
    rfl

theorem same_start {first first' stop : Nat} (some : first < stop) (some' : first' < stop) :
    (∀ block, (first ≤ block ∧ block < stop) ↔ (first' ≤ block ∧ block < stop)) ↔ first = first' := by
  constructor
  · intro same
    have left := same first
    have right := same first'
    omega
  · rintro rfl block
    rfl

theorem first_lt {start stop : Nat} (some : start < stop) : start / bsize.bytes < (stop + bsize.bytes - 1) / bsize.bytes :=
  ((bounded_blocks some (start / bsize.bytes)).mp ⟨start,⟨Nat.le_refl _,some⟩,rfl⟩).2

/-- The stop that the server computes is the right one when the remainder that it looks at is zero
with that of the stop. -/
theorem stop_iff (former stop : Nat) : (if former % bsize.bytes = 0 then stop / bsize.bytes else stop / bsize.bytes + 1) =
    (stop + bsize.bytes - 1) / bsize.bytes ↔ (former % bsize.bytes = 0 ↔ stop % bsize.bytes = 0) := by
  have positive := bsize.bytes_pos
  have whole := Nat.div_add_mod stop bsize.bytes
  have rest := Nat.mod_lt stop positive
  have rounded : (stop + bsize.bytes - 1) / bsize.bytes = if stop % bsize.bytes = 0 then stop / bsize.bytes else stop / bsize.bytes + 1 := by
    split
    · rename_i zero
      apply Nat.div_eq_of_lt_le
      · rw [Nat.mul_comm]
        omega
      · rw [Nat.add_mul,Nat.mul_comm]
        omega
    · apply Nat.div_eq_of_lt_le
      · rw [Nat.add_mul,Nat.mul_comm]
        omega
      · rw [Nat.add_mul,Nat.add_mul,Nat.mul_comm]
        omega
  rw [rounded]
  by_cases zero : stop % bsize.bytes = 0
  · by_cases formerZero : former % bsize.bytes = 0
    · simp [zero,formerZero]
    · simp [zero,formerZero]
  · by_cases formerZero : former % bsize.bytes = 0
    · simp [zero,formerZero]
    · simp [zero,formerZero]

theorem blockCover_bounded {effective : Range} (wf : Wf range) (stops : bounded range = true) :
    BlockCover bsize range effective ↔ ∀ block, Mem effective block ↔
      range.offsetStart / bsize.bytes ≤ block ∧ block < (range.offsetStop + bsize.bytes - 1) / bsize.bytes := by
  apply forall_congr'
  intro block
  rw [← bounded_blocks (wf.stop stops) block]
  simp only [mem_iff wf,stops,true_implies]

theorem setUserRange_mem (stops : bounded range = true) (block : Nat) : Mem (setUserRange bsize lock range).effectiveRange block ↔
    range.offsetStart / bsize.bytes ≤ block ∧ block < if lock.effectiveRange.offsetStop % bsize.bytes = 0 then
      range.offsetStop / bsize.bytes else range.offsetStop / bsize.bytes + 1 := by
  have blocks : ∀ first stop, Mem ⟨if first = 0 then .fromStart else .partialRange,first,stop⟩ block ↔ first ≤ block ∧ block < stop := by
    intro first stop
    by_cases zero : first = 0
    · simp [Mem,zero]
    · simp [Mem,zero]
  obtain ⟨size,start,stop⟩ := range
  cases size with
  | total => cases stops
  | toEnd => cases stops
  | fromStart => exact blocks _ _
  | partialRange => exact blocks _ _

/-- When the server computes the right blocks for a range. -/
theorem setUserRange_blockCover (wf : Wf range) (partly : range.size ≠ .total) :
    BlockCover bsize range (setUserRange bsize lock range).effectiveRange ↔ (bounded range = true →
      (lock.effectiveRange.offsetStop % bsize.bytes = 0 ↔ range.offsetStop % bsize.bytes = 0)) := by
  cases stops : bounded range with
  | true =>
    simp only [blockCover_bounded wf stops,setUserRange_mem stops,true_implies]
    rw [same_stop (first_lt (wf.stop stops)),stop_iff]
  | false =>
    simp only [Bool.false_eq_true,false_implies,iff_true]
    obtain ⟨size,start,stop⟩ := range
    cases size with
    | total => exact absurd rfl partly
    | fromStart => cases stops
    | partialRange => cases stops
    | toEnd =>
      intro block
      rw [show (∃ offset, Mem ⟨.toEnd,start,stop⟩ offset ∧ offset / bsize.bytes = block) ↔ _ from toEnd_blocks block]
      by_cases zero : start / bsize.bytes = 0
      · simp [setUserRange,computeEffectiveLockRange,Mem,zero]
      · simp [setUserRange,computeEffectiveLockRange,Mem,zero]

/-- The part after the freed bytes, with the blocks of the lock. -/
theorem shrink_blockCover {start : Nat} (wf : Wf lock.userRange) (stops : bounded lock.userRange = true)
    (cover : BlockCover bsize lock.userRange lock.effectiveRange) (wf' : Wf { lock.userRange with offsetStart := start }) :
    BlockCover bsize { lock.userRange with offsetStart := start } lock.effectiveRange ↔
      start / bsize.bytes = lock.userRange.offsetStart / bsize.bytes := by
  have stops' : bounded { lock.userRange with offsetStart := start } = true := stops
  simp only [blockCover_bounded wf' stops',(blockCover_bounded wf stops).mp cover]
  rw [same_start (first_lt (wf.stop stops)) (first_lt (wf'.stop stops'))]
  exact eq_comm

end Covers

section Pieces
variable {bsize : BSize} {lockFree lockSet piece : Lock}

/-- A lock that another walk leaves as it is. -/
def Settled (bsize : BSize) (lockFree lock : Lock) : Prop := mustFileLockBeRemoved bsize lockFree lock = .keep lock none

theorem Settled.pieces {lock : Lock} (settled : Settled bsize lockFree lock) : pieces bsize lockFree lock = [lock] := by
  unfold Settled at settled
  simp only [LockFreeing.pieces,settled,Option.toList_none]

theorem outside_settled {lock : Lock} (wfFree : Wf lockFree.userRange) (wf : Wf lock.userRange) (outside : Outside lockFree lock) :
    Settled bsize lockFree lock := by
  by_cases owner : sameOwner lockFree lock = true
  · have none : intersect lockFree.userRange lock.userRange = false := by
      apply Bool.eq_false_iff.mpr
      intro meet
      obtain ⟨offset,memFree,mem⟩ := (intersect_iff wfFree wf).mp meet
      exact outside owner offset mem memFree
    unfold Settled mustFileLockBeRemoved
    simp only [owner,Bool.not_true,Bool.false_eq_true,if_false]
    clear outside owner
    obtain ⟨_,_,_,⟨sizeF,startF,stopF⟩,_⟩ := lockFree
    obtain ⟨modeL,clientL,ownerL,⟨sizeL,startL,stopL⟩,effectiveL⟩ := lock
    cases sizeF <;> cases sizeL <;> simp [Wf,intersect,bounded] at wfFree wf none ⊢
    all_goals grind
  · simp [Settled,mustFileLockBeRemoved,owner]

theorem piece_bytes (wfFree : Wf lockFree.userRange) (wf : Wf lockSet.userRange) (owner : sameOwner lockFree lockSet = true) (offset : Nat) :
    (∃ piece ∈ pieces bsize lockFree lockSet, Mem piece.userRange offset) ↔ Mem lockSet.userRange offset ∧ ¬Mem lockFree.userRange offset := by
  unfold pieces mustFileLockBeRemoved
  simp only [owner,Bool.not_true,Bool.false_eq_true,if_false]
  clear owner
  obtain ⟨_,_,_,⟨sizeF,startF,stopF⟩,_⟩ := lockFree
  obtain ⟨modeL,clientL,ownerL,⟨sizeL,startL,stopL⟩,effectiveL⟩ := lockSet
  cases sizeF <;> cases sizeL <;> simp only [Wf] at wfFree wf ⊢
  all_goals (try split_ifs)
  all_goals simp [Mem]
  all_goals omega

/-- The part of a lock before the bytes that are freed. -/
def before (bsize : BSize) (lockFree lockSet : Lock) : Lock :=
  let start := lockSet.userRange.offsetStart
  setUserRange bsize lockSet ⟨if start = 0 then .fromStart else .partialRange,start,lockFree.userRange.offsetStart⟩

/-- The part of a lock after the bytes that are freed. -/
def after (bsize : BSize) (lockFree lockSet : Lock) : Lock :=
  let free := lockFree.userRange
  let range := lockSet.userRange
  if range.size = .partialRange ∧ range.offsetStart < free.offsetStart then { lockSet with userRange := { range with offsetStart := free.offsetStop } }
  else setUserRange bsize lockSet ⟨if bounded range then .partialRange else .toEnd,free.offsetStop,range.offsetStop⟩

/-- Every part that a verdict leaves has a property. -/
def Leaves (P : Lock → Prop) : Verdict → Prop
  | .remove => True
  | .keep lock newLock => P lock ∧ ∀ piece ∈ newLock, P piece

theorem forall_pieces (P : Lock → Prop) (wfFree : Wf lockFree.userRange) (wf : Wf lockSet.userRange) (owner : sameOwner lockFree lockSet = true)
    (meet : intersect lockFree.userRange lockSet.userRange = true) : (∀ piece ∈ pieces bsize lockFree lockSet, P piece) ↔
      (lockSet.userRange.offsetStart < lockFree.userRange.offsetStart → P (before bsize lockFree lockSet)) ∧
      (bounded lockFree.userRange = true → (bounded lockSet.userRange = true → lockFree.userRange.offsetStop < lockSet.userRange.offsetStop) →
        P (after bsize lockFree lockSet)) := by
  have leaves : (∀ piece ∈ pieces bsize lockFree lockSet, P piece) ↔ Leaves P (mustFileLockBeRemoved bsize lockFree lockSet) := by
    unfold pieces
    cases mustFileLockBeRemoved bsize lockFree lockSet with
    | remove => simp [Leaves]
    | keep lock newLock => simp [Leaves]
  rw [leaves]
  unfold mustFileLockBeRemoved
  simp only [owner,Bool.not_true,Bool.false_eq_true,if_false]
  clear owner leaves
  obtain ⟨_,_,_,⟨sizeF,startF,stopF⟩,_⟩ := lockFree
  obtain ⟨modeL,clientL,ownerL,⟨sizeL,startL,stopL⟩,effectiveL⟩ := lockSet
  cases sizeF <;> cases sizeL <;> simp only [Wf,intersect,bounded,Bool.not_false,Bool.not_true,Bool.true_or,Bool.false_or,Bool.and_true,Bool.true_and,Bool.and_self,
    Bool.and_eq_true,decide_eq_true_eq,Bool.false_eq_true,false_implies,true_implies,and_true] at wfFree wf meet ⊢
  all_goals (try split)
  all_goals (try omega)
  all_goals (try split)
  all_goals (try omega)
  all_goals (try split)
  all_goals (try split)
  all_goals simp only [Leaves,Option.mem_def,Option.some.injEq,reduceCtorEq,false_implies,implies_true,and_true,forall_eq']
  all_goals simp only [before,after,bounded,reduceCtorEq,false_and,true_and,if_false,if_true,Bool.false_eq_true]
  all_goals grind

theorem before_blockCover (starts : lockSet.userRange.offsetStart < lockFree.userRange.offsetStart) :
    BlockCover bsize (before bsize lockFree lockSet).userRange (before bsize lockFree lockSet).effectiveRange ↔
      (lockSet.effectiveRange.offsetStop % bsize.bytes = 0 ↔ lockFree.userRange.offsetStart % bsize.bytes = 0) := by
  unfold before
  dsimp only
  rw [setUserRange_userRange]
  split
  case isTrue zero =>
    have wf : Wf ⟨.fromStart,lockSet.userRange.offsetStart,lockFree.userRange.offsetStart⟩ := ⟨zero,Nat.zero_lt_of_lt starts⟩
    simp [setUserRange_blockCover wf (by simp),bounded]
  case isFalse some =>
    have wf : Wf ⟨.partialRange,lockSet.userRange.offsetStart,lockFree.userRange.offsetStart⟩ := ⟨Nat.pos_of_ne_zero some,starts⟩
    simp [setUserRange_blockCover wf (by simp),bounded]

theorem after_blockCover (wfFree : Wf lockFree.userRange) (wf : Wf lockSet.userRange) (stopsFree : bounded lockFree.userRange = true)
    (stops : bounded lockSet.userRange = true → lockFree.userRange.offsetStop < lockSet.userRange.offsetStop)
    (cover : BlockCover bsize lockSet.userRange lockSet.effectiveRange) :
    BlockCover bsize (after bsize lockFree lockSet).userRange (after bsize lockFree lockSet).effectiveRange ↔ (bounded lockSet.userRange = true →
      if lockSet.userRange.size = .partialRange ∧ lockSet.userRange.offsetStart < lockFree.userRange.offsetStart then
        lockFree.userRange.offsetStop / bsize.bytes = lockSet.userRange.offsetStart / bsize.bytes
      else (lockSet.effectiveRange.offsetStop % bsize.bytes = 0 ↔ lockSet.userRange.offsetStop % bsize.bytes = 0)) := by
  have freed : 0 < lockFree.userRange.offsetStop := Nat.zero_lt_of_lt (wfFree.stop stopsFree)
  unfold after
  dsimp only
  split
  case isTrue cut =>
    have bound : bounded lockSet.userRange = true := by simp [bounded,cut.1]
    have wf' : Wf { lockSet.userRange with offsetStart := lockFree.userRange.offsetStop } := by
      simp only [Wf,cut.1]
      exact ⟨freed,stops bound⟩
    rw [shrink_blockCover wf bound cover wf']
    simp only [bound,true_implies]
  case isFalse =>
    rw [setUserRange_userRange]
    cases bound : bounded lockSet.userRange with
    | true =>
      have wf' : Wf ⟨.partialRange,lockFree.userRange.offsetStop,lockSet.userRange.offsetStop⟩ := ⟨freed,stops bound⟩
      simp only [if_true,setUserRange_blockCover wf' (by simp)]
      simp [bounded]
    | false =>
      have none : lockSet.userRange.offsetStop = 0 := by
        obtain ⟨_,_,_,⟨size,_,_⟩,_⟩ := lockSet
        cases size <;> simp [bounded,Wf] at bound wf ⊢ <;> omega
      have wf' : Wf ⟨.toEnd,lockFree.userRange.offsetStop,lockSet.userRange.offsetStop⟩ := ⟨freed,none⟩
      simp only [Bool.false_eq_true,if_false,setUserRange_blockCover wf' (by simp)]
      simp [bounded]

/-- The blocks of the parts are right when the lock is cut where the server rounds to the right side. -/
theorem pieces_blockCover (wfFree : Wf lockFree.userRange) (wf : Wf lockSet.userRange) (owner : sameOwner lockFree lockSet = true)
    (cover : BlockCover bsize lockSet.userRange lockSet.effectiveRange) :
    (∀ piece ∈ pieces bsize lockFree lockSet, BlockCover bsize piece.userRange piece.effectiveRange) ↔ CutExact bsize lockFree lockSet := by
  unfold CutExact
  cases meet : intersect lockFree.userRange lockSet.userRange with
  | false =>
    have settled : Settled bsize lockFree lockSet := by
      apply outside_settled wfFree wf
      intro _ offset mem memFree
      rw [(intersect_iff wfFree wf).mpr ⟨offset,memFree,mem⟩] at meet
      cases meet
    simp [settled.pieces,cover,meet]
  | true =>
    rw [forall_pieces (fun piece => BlockCover bsize piece.userRange piece.effectiveRange) wfFree wf owner meet]
    simp only [meet,true_implies]
    refine and_congr ?_ ?_
    · exact imp_congr_right before_blockCover
    · constructor
      · intro right stopsFree stops less
        exact (after_blockCover wfFree wf stopsFree (fun _ => less) cover).mp (right stopsFree fun _ => less) stops
      · intro right stopsFree less
        exact (after_blockCover wfFree wf stopsFree less cover).mpr fun stops => right stopsFree stops (less stops)

end Pieces

section Walks
variable {bsize : BSize} {lockFree : Lock}

/-- What the locks of a list come to when a request has gone over all of them. -/
def leftOf (bsize : BSize) (lockFree : Lock) (locks : List Node) : List Lock := locks.flatMap fun y => pieces bsize lockFree y.lock

/-- Another list on the way to the same parts. -/
structure Progress (bsize : BSize) (lockFree : Lock) (locks locks' : List Node) : Prop where
  wf : ∀ y ∈ locks', Wf y.lock.userRange
  parts : (leftOf bsize lockFree locks').Perm (leftOf bsize lockFree locks)
  others : (locks'.filter fun y => !sameOwner lockFree y.lock) = locks.filter fun y => !sameOwner lockFree y.lock

theorem keep_settled {lockSet lock : Lock} {newLock : Option Lock} (wfFree : Wf lockFree.userRange) (wf : Wf lockSet.userRange)
    (verdict : mustFileLockBeRemoved bsize lockFree lockSet = .keep lock newLock) :
    Settled bsize lockFree lock ∧ ∀ new ∈ newLock, Settled bsize lockFree new := by
  obtain ⟨⟨inside,outside⟩,newParts⟩ := keep_inside wfFree wf verdict
  refine ⟨outside_settled wfFree inside.wf outside,?_⟩
  intro new isNew
  obtain ⟨⟨insideNew,outsideNew⟩,_⟩ := newParts new isNew
  exact outside_settled wfFree insideNew.wf outsideNew

theorem leftOf_settled {locks : List Node} (settled : ∀ y ∈ locks, Settled bsize lockFree y.lock) :
    leftOf bsize lockFree locks = locks.map Node.lock := by
  induction locks with
  | nil => rfl
  | cons x rest ih =>
    rw [leftOf,List.flatMap_cons,(settled x (by simp)).pieces]
    exact congrArg _ (ih fun y mem => settled y (by simp [mem]))

variable {φ : Type} {eid : Nat} {fid : φ} {st : State φ} {x : Node} {locks : List Node}

/-- The edited lock first, then the other ones. -/
theorem edited_perm (lock : Lock) (linked : Linked False st) (mem : x ∈ (st.files eid fid).locks) :
    ((st.files eid fid).locks.map fun y => if y.ptr = x.ptr then ⟨x.ptr,lock⟩ else y).Perm
      (⟨x.ptr,lock⟩ :: (st.files eid fid).locks.filter fun y => y.ptr ≠ x.ptr) := by
  have perm := (linked.perm_filter mem).map fun y => if y.ptr = x.ptr then (⟨x.ptr,lock⟩ : Node) else y
  have same : (((st.files eid fid).locks.filter fun y => y.ptr ≠ x.ptr).map fun y => if y.ptr = x.ptr then (⟨x.ptr,lock⟩ : Node) else y) =
      (st.files eid fid).locks.filter fun y => y.ptr ≠ x.ptr := by
    apply List.map_congr_left (g := id) _ |>.trans (List.map_id _)
    intro y memY
    have other := (List.mem_filter.mp memY).2
    simp only [decide_eq_true_eq] at other
    exact if_neg other
  rw [List.map_cons,if_pos rfl,same] at perm
  exact perm

theorem edited_parts {lock : Lock} {newLock : Option Lock} (wfFree : Wf lockFree.userRange) (linked : Linked False st)
    (wf : Wf x.lock.userRange) (mem : x ∈ (st.files eid fid).locks)
    (verdict : mustFileLockBeRemoved bsize lockFree x.lock = .keep lock newLock) :
    (leftOf bsize lockFree ((newLock.toList.map fun new => (⟨st.next,new⟩ : Node)) ++
      (st.files eid fid).locks.map fun y => if y.ptr = x.ptr then ⟨x.ptr,lock⟩ else y)).Perm
      (leftOf bsize lockFree (st.files eid fid).locks) := by
  obtain ⟨settled,settledNew⟩ := keep_settled wfFree wf verdict
  have ofX : pieces bsize lockFree x.lock = lock :: newLock.toList := by simp only [pieces,verdict]
  have ofNew : leftOf bsize lockFree (newLock.toList.map fun new => (⟨st.next,new⟩ : Node)) = newLock.toList := by
    rw [leftOf_settled,List.map_map]
    · exact List.map_id _
    · intro y memY
      obtain ⟨new,memNew,rfl⟩ := List.mem_map.mp memY
      exact settledNew new (by simpa using memNew)
  have rest := ((edited_perm lock linked mem).flatMap_right fun y => pieces bsize lockFree y.lock)
  have old := ((linked.perm_filter mem).flatMap_right fun y => pieces bsize lockFree y.lock)
  rw [List.flatMap_cons,settled.pieces] at rest
  rw [List.flatMap_cons,ofX] at old
  unfold leftOf at ofNew ⊢
  rw [List.flatMap_append,ofNew]
  calc
    _ = _ := rfl
    List.Perm _ (newLock.toList ++ ([lock] ++ _)) := rest.append_left _
    List.Perm _ ([lock] ++ (newLock.toList ++ _)) := List.perm_append_comm_assoc _ _ _
    List.Perm _ _ := old.symm

/-- An edit that a filter does not see. -/
theorem filter_edited {p : Node → Bool} {x' : Node} {locks : List Node} (after : p x' = false)
    (before : ∀ y ∈ locks, y.ptr = x.ptr → p y = false) :
    (locks.map fun y => if y.ptr = x.ptr then x' else y).filter p = locks.filter p := by
  induction locks with
  | nil => rfl
  | cons y rest ih =>
    have later := ih fun z mem => before z (by simp [mem])
    by_cases here : y.ptr = x.ptr
    · simp [here,after,before y (by simp) here,later]
    · simp only [List.map_cons,if_neg here,List.filter_cons,later]

theorem edited_others {lock : Lock} {newLock : Option Lock} (wfFree : Wf lockFree.userRange) (wf : Wf x.lock.userRange) (linked : Linked False st) (mem : x ∈ (st.files eid fid).locks)
    (verdict : mustFileLockBeRemoved bsize lockFree x.lock = .keep lock newLock) :
    (((newLock.toList.map fun new => (⟨st.next,new⟩ : Node)) ++
      (st.files eid fid).locks.map fun y => if y.ptr = x.ptr then ⟨x.ptr,lock⟩ else y).filter fun y => !sameOwner lockFree y.lock) =
      (st.files eid fid).locks.filter fun y => !sameOwner lockFree y.lock := by
  by_cases owner : sameOwner lockFree x.lock = true
  · have own : ∀ piece : Lock, piece.clientRef = x.lock.clientRef → piece.ownerRef = x.lock.ownerRef → sameOwner lockFree piece = true :=
      fun piece client ownerRef => (sameOwner_congr rfl rfl client ownerRef).trans owner
    obtain ⟨⟨kept,_⟩,newParts⟩ := keep_inside wfFree wf verdict
    have none : ((newLock.toList.map fun new => (⟨st.next,new⟩ : Node)).filter fun y => !sameOwner lockFree y.lock) = [] := by
      apply List.filter_eq_nil_iff.mpr
      intro y memY
      obtain ⟨new,memNew,rfl⟩ := List.mem_map.mp memY
      have part := (newParts new (by simpa using memNew)).1.1
      simp [own new part.clientRef part.ownerRef]
    rw [List.filter_append,none,List.nil_append,filter_edited]
    · simp [own lock kept.clientRef kept.ownerRef]
    · intro y memY here
      rw [linked.node_eq memY mem here]
      simp [owner]
  · obtain ⟨rfl,rfl⟩ := keep_other owner verdict
    have same : ((st.files eid fid).locks.map fun y => if y.ptr = x.ptr then ⟨x.ptr,x.lock⟩ else y) = (st.files eid fid).locks := by
      apply List.map_congr_left (g := id) _ |>.trans (List.map_id _)
      intro y memY
      by_cases here : y.ptr = x.ptr
      · simp [linked.node_eq memY mem here]
      · exact if_neg here
    rw [same]
    rfl

variable [DecidableEq φ]

theorem Progress.edit {lock : Lock} {newLock : Option Lock} (wfFree : Wf lockFree.userRange) (linked : Linked False st)
    (progress : Progress bsize lockFree locks (st.files eid fid).locks) (mem : x ∈ (st.files eid fid).locks)
    (verdict : mustFileLockBeRemoved bsize lockFree x.lock = .keep lock newLock) :
    Progress bsize lockFree locks ((editFileLock st eid fid x lock newLock).files eid fid).locks := by
  have wf := progress.wf x mem
  obtain ⟨⟨inside,_⟩,newParts⟩ := keep_inside wfFree wf verdict
  rw [edit_locks]
  constructor
  · intro y memY
    rcases edited_cases memY with ⟨new,isNew,rfl⟩ | rfl | ⟨old,_⟩
    · exact (newParts new isNew).1.1.wf
    · exact inside.wf
    · exact progress.wf y old
  · exact (edited_parts wfFree linked wf mem verdict).trans progress.parts
  · exact (edited_others wfFree wf linked mem verdict).trans progress.others

theorem Progress.drop (linked : Linked False st)
    (progress : Progress bsize lockFree locks (st.files eid fid).locks) (mem : x ∈ (st.files eid fid).locks)
    (verdict : mustFileLockBeRemoved bsize lockFree x.lock = .remove) :
    Progress bsize lockFree locks ((dropFileLock st eid fid x).files eid fid).locks := by
  rw [dropFileLock_files linked mem]
  constructor
  · exact fun y memY => progress.wf y (List.mem_of_mem_filter memY)
  · have old := (linked.perm_filter mem).flatMap_right fun y => pieces bsize lockFree y.lock
    rw [List.flatMap_cons,show pieces bsize lockFree x.lock = [] by simp only [pieces,verdict]] at old
    exact old.symm.trans progress.parts
  · rw [← progress.others,List.filter_filter]
    apply List.filter_congr
    intro y memY
    by_cases here : y.ptr = x.ptr
    · have same := linked.node_eq memY mem here
      subst same
      have owner : sameOwner lockFree y.lock = true := by
        by_contra other
        have kept : Settled bsize lockFree y.lock := by simp [Settled,mustFileLockBeRemoved,other]
        rw [kept] at verdict
        cases verdict
      simp [owner]
    · simp [here]

/-- A walk that ends with no lock removed has seen all of them. -/
theorem freeWalk_settled (wfFree : Wf lockFree.userRange) (rest : List Node) {st st' : State φ}
    (wf : ∀ y ∈ rest, Wf y.lock.userRange) (seen : ∀ y ∈ (st.files eid fid).locks, y ∈ rest ∨ Settled bsize lockFree y.lock)
    (walk : freeWalk bsize eid fid lockFree rest st = (st',false)) : ∀ y ∈ (st'.files eid fid).locks, Settled bsize lockFree y.lock := by
  induction rest generalizing st with
  | nil =>
    cases walk
    exact fun y mem => (seen y mem).resolve_left List.not_mem_nil
  | cons x rest ih =>
    rw [freeWalk] at walk
    cases verdict : mustFileLockBeRemoved bsize lockFree x.lock with
    | remove => simp [verdict] at walk
    | keep lock newLock =>
      obtain ⟨settled,settledNew⟩ := keep_settled wfFree (wf x (by simp)) verdict
      rw [verdict] at walk
      have seen' : ∀ y ∈ ((editFileLock st eid fid x lock newLock).files eid fid).locks, y ∈ rest ∨ Settled bsize lockFree y.lock := by
        intro y mem
        rw [edit_locks] at mem
        rcases edited_cases mem with ⟨new,isNew,rfl⟩ | rfl | ⟨old,other⟩
        · exact .inr (settledNew new isNew)
        · exact .inr settled
        · rcases seen y old with later | done
          · refine .inl ((List.mem_cons.mp later).resolve_left ?_)
            rintro rfl
            exact other rfl
          · exact .inr done
      exact ih (fun y mem => wf y (by simp [mem])) seen' walk

/-- The walks of a free request end with every lock settled. -/
theorem freeLoop_settled (wfFree : Wf lockFree.userRange) (walks : Nat) {st st' : State φ} (linked : Linked False st)
    (progress : Progress bsize lockFree locks (st.files eid fid).locks)
    (done : freeLoop bsize eid fid lockFree walks st = some st') : ∀ y ∈ (st'.files eid fid).locks, Settled bsize lockFree y.lock := by
  induction walks generalizing st with
  | zero => cases done
  | succ walks ih =>
    obtain ⟨walked,still,_⟩ := freeWalk_rule (P := fun st => Progress bsize lockFree locks (st.files eid fid).locks)
      (fun linked progress mem verdict => progress.edit wfFree linked mem verdict)
      (fun linked progress mem verdict => progress.drop linked mem verdict)
      (st.files eid fid).locks linked progress (fun x mem => mem) (linked.fileNodup eid fid)
    rw [freeLoop] at done
    rcases result : freeWalk bsize eid fid lockFree (st.files eid fid).locks st with ⟨next,again⟩
    rw [result] at walked still done
    cases again with
    | false =>
      cases done
      exact freeWalk_settled wfFree _ progress.wf (fun y mem => .inl mem) result
    | true =>
      dsimp only at done
      split at done
      case isTrue empty =>
        cases done
        simp [empty]
      case isFalse => exact ih walked still done

/-- A free request leaves the parts of the locks of its owner, and the other locks. -/
theorem free_leaves {request : Lock} {st : State φ} (linked : Linked False st) (free : request.mode = .free) (wfFree : Wf request.userRange)
    (wf : ∀ x ∈ (st.files eid fid).locks, Wf x.lock.userRange) : ∃ st', exportSetFileLock bsize eid fid request st = some st' ∧
      ((st'.files eid fid).locks.map Node.lock).Perm (leftOf bsize request (st.files eid fid).locks) ∧
      ((st'.files eid fid).locks.filter fun y => !sameOwner request y.lock) =
        (st.files eid fid).locks.filter fun y => !sameOwner request y.lock := by
  unfold exportSetFileLock
  simp only [free,if_true]
  have start : Progress bsize request (st.files eid fid).locks (st.files eid fid).locks := ⟨wf,List.Perm.refl _,rfl⟩
  by_cases empty : (st.files eid fid).locks = []
  · split
    case isTrue => exact ⟨st,rfl,by simp [empty,leftOf],rfl⟩
    case isFalse =>
      refine ⟨_,rfl,?_,?_⟩
      · simp [empty,leftOf]
      · simp [empty]
  · have counted : (st.files eid fid).nbLocks ≠ 0 := by
      have bound := (linked.fileCount eid fid).1
      have some := List.length_pos_iff.mpr empty
      omega
    rw [if_neg counted,if_neg empty]
    obtain ⟨st',done,_,progress⟩ := freeLoop_rule (P := fun st' => Progress bsize request (st.files eid fid).locks (st'.files eid fid).locks)
      (fun linked progress mem verdict => progress.edit wfFree linked mem verdict)
      (fun linked progress mem verdict => progress.drop linked mem verdict)
      _ linked start (Nat.lt_succ_of_le List.countP_le_length)
    have settled := freeLoop_settled wfFree _ linked start done
    refine ⟨st',done,?_,progress.others⟩
    rw [← leftOf_settled settled]
    exact progress.parts

end Walks

section Freeing
variable {bsize : BSize} {request : Lock} {locks locks' : List Node}

/-- The bytes of the request are freed and no other ones, and the blocks of the locks are right. -/
structure Freed (bsize : BSize) (request : Lock) (locks locks' : List Node) : Prop where
  bytes : ∀ mode offset, OwnerLocked request mode locks' offset ↔
    OwnerLocked request mode locks offset ∧ ¬Mem request.userRange offset
  others : (locks'.filter fun y => !sameOwner request y.lock) = locks.filter fun y => !sameOwner request y.lock
  covers : ∀ y ∈ locks', BlockCover bsize y.lock.userRange y.lock.effectiveRange

theorem piece_inside {lockSet piece : Lock} (wfFree : Wf request.userRange) (wf : Wf lockSet.userRange)
    (mem : piece ∈ pieces bsize request lockSet) : Inside piece lockSet := by
  unfold pieces at mem
  cases verdict : mustFileLockBeRemoved bsize request lockSet with
  | remove =>
    rw [verdict] at mem
    cases mem
  | keep lock newLock =>
    rw [verdict] at mem
    obtain ⟨⟨inside,_⟩,newParts⟩ := keep_inside wfFree wf verdict
    rcases List.mem_cons.mp mem with rfl | isNew
    · exact inside
    · exact (newParts piece (by simpa using isNew)).1.1

/-- What is said of the locks after a request is said of the parts of the locks before it. -/
theorem forall_leftOf {P : Lock → Prop} (parts : (locks'.map Node.lock).Perm (leftOf bsize request locks)) :
    (∀ y ∈ locks', P y.lock) ↔ ∀ x ∈ locks, ∀ piece ∈ pieces bsize request x.lock, P piece := by
  have after : (∀ y ∈ locks', P y.lock) ↔ ∀ lock ∈ locks'.map Node.lock, P lock := by simp
  rw [after]
  simp only [parts.mem_iff,leftOf,List.mem_flatMap]
  constructor
  · exact fun all x mem piece part => all piece ⟨x,mem,part⟩
  · exact fun all piece ⟨x,mem,part⟩ => all x mem piece part

theorem exists_leftOf {P : Lock → Prop} (parts : (locks'.map Node.lock).Perm (leftOf bsize request locks)) :
    (∃ y ∈ locks', P y.lock) ↔ ∃ x ∈ locks, ∃ piece ∈ pieces bsize request x.lock, P piece := by
  have none := forall_leftOf (P := fun lock => ¬P lock) parts
  have back := not_congr none
  push Not at back
  exact back

theorem bytes_freed (wfFree : Wf request.userRange) (wf : ∀ x ∈ locks, Wf x.lock.userRange)
    (parts : (locks'.map Node.lock).Perm (leftOf bsize request locks)) (mode : Mode) (offset : Nat) :
    OwnerLocked request mode locks' offset ↔ OwnerLocked request mode locks offset ∧ ¬Mem request.userRange offset := by
  unfold OwnerLocked
  rw [exists_leftOf (P := fun lock => sameOwner request lock = true ∧ lock.mode = mode ∧ Mem lock.userRange offset) parts]
  constructor
  · rintro ⟨x,mem,piece,part,owner,ofMode,locked⟩
    have inside := piece_inside wfFree (wf x mem) part
    rw [sameOwner_congr rfl rfl inside.clientRef inside.ownerRef] at owner
    obtain ⟨before,notFreed⟩ := (piece_bytes wfFree (wf x mem) owner offset).mp ⟨piece,part,locked⟩
    exact ⟨⟨x,mem,owner,inside.mode.symm.trans ofMode,before⟩,notFreed⟩
  · rintro ⟨⟨x,mem,owner,ofMode,locked⟩,notFreed⟩
    have kept : ∃ piece ∈ pieces bsize request x.lock, Mem piece.userRange offset :=
      (piece_bytes wfFree (wf x mem) owner offset).mpr ⟨locked,notFreed⟩
    obtain ⟨piece,part,still⟩ := kept
    have inside := piece_inside wfFree (wf x mem) part
    refine ⟨x,mem,piece,part,?_,inside.mode.trans ofMode,still⟩
    rwa [sameOwner_congr rfl rfl inside.clientRef inside.ownerRef]

theorem covers_freed (wfFree : Wf request.userRange) (wf : ∀ x ∈ locks, Wf x.lock.userRange)
    (cover : ∀ x ∈ locks, BlockCover bsize x.lock.userRange x.lock.effectiveRange)
    (parts : (locks'.map Node.lock).Perm (leftOf bsize request locks)) :
    (∀ y ∈ locks', BlockCover bsize y.lock.userRange y.lock.effectiveRange) ↔
      ∀ x ∈ locks, sameOwner request x.lock = true → CutExact bsize request x.lock := by
  rw [forall_leftOf (P := fun lock => BlockCover bsize lock.userRange lock.effectiveRange) parts]
  apply forall₂_congr
  intro x mem
  by_cases owner : sameOwner request x.lock = true
  · simp only [owner,true_implies]
    exact pieces_blockCover wfFree (wf x mem) owner (cover x mem)
  · have settled : Settled bsize request x.lock := outside_settled wfFree (wf x mem) fun same => absurd same owner
    simp [settled.pieces,owner,cover x mem]

/-- A free request frees the bytes of its range and no other ones; the blocks of what is left are
right exactly when each lock of the owner is cut where the server rounds to the right side. -/
theorem free_freed {φ : Type} [DecidableEq φ] {eid : Nat} {fid : φ} {st : State φ} (linked : Linked False st) (free : request.mode = .free)
    (wfFree : Wf request.userRange) (wf : ∀ x ∈ (st.files eid fid).locks, Wf x.lock.userRange)
    (cover : ∀ x ∈ (st.files eid fid).locks, BlockCover bsize x.lock.userRange x.lock.effectiveRange) :
    ∃ st', exportSetFileLock bsize eid fid request st = some st' ∧
      (Freed bsize request (st.files eid fid).locks (st'.files eid fid).locks ↔
        ∀ x ∈ (st.files eid fid).locks, sameOwner request x.lock = true → CutExact bsize request x.lock) := by
  obtain ⟨st',done,parts,others⟩ := free_leaves linked free wfFree wf
  refine ⟨st',done,?_⟩
  rw [← covers_freed wfFree wf cover parts]
  constructor
  · exact Freed.covers
  · exact fun covers => ⟨bytes_freed wfFree wf parts,others,covers⟩

theorem total_blockCover : BlockCover bsize ⟨.total,0,0⟩ ⟨.total,0,0⟩ := by
  intro block
  have positive := bsize.bytes_pos
  simp only [Mem,true_and,true_iff]
  exact ⟨block * bsize.bytes,Nat.mul_div_cancel _ positive⟩

/-- A file with one lock on all its bytes. -/
def wholeLocked : State Nat := addFileLock serviceInit 1 7 (clientLock .bsize4K .write 3 1 ⟨.total,0,0⟩)

theorem wholeLocked_locks : (wholeLocked.files 1 7).locks = [⟨0,clientLock .bsize4K .write 3 1 ⟨.total,0,0⟩⟩] := by rfl

theorem wholeLocked_linked : Linked False wholeLocked := (LockLists.initial False).addFileLock _

theorem wholeLocked_wf : ∀ x ∈ (wholeLocked.files 1 7).locks, Wf x.lock.userRange := by
  simp [wholeLocked_locks,clientLock,Wf]

theorem wholeLocked_cover : ∀ x ∈ (wholeLocked.files 1 7).locks, BlockCover .bsize4K x.lock.userRange x.lock.effectiveRange := by
  simp only [wholeLocked_locks,List.mem_singleton,forall_eq]
  exact total_blockCover

theorem wholeLocked_cut {start : Nat} (some : 0 < start) :
    (∀ x ∈ (wholeLocked.files 1 7).locks, sameOwner (clientLock .bsize4K .free 3 1 ⟨.toEnd,start,0⟩) x.lock = true →
      CutExact .bsize4K (clientLock .bsize4K .free 3 1 ⟨.toEnd,start,0⟩) x.lock) ↔ start % 4096 = 0 := by
  simp [wholeLocked_locks,sameOwner,CutExact,clientLock,clientEffectiveRange,intersect,bounded,BSize.bytes,some]

/-- The end of the file is freed from byte 4096 on. -/
theorem free_freed_aligned : ∃ st', exportSetFileLock .bsize4K 1 7 (clientLock .bsize4K .free 3 1 ⟨.toEnd,4096,0⟩) wholeLocked = some st' ∧
    Freed .bsize4K (clientLock .bsize4K .free 3 1 ⟨.toEnd,4096,0⟩) (wholeLocked.files 1 7).locks (st'.files 1 7).locks := by
  have wfFree : Wf (clientLock .bsize4K .free 3 1 ⟨.toEnd,4096,0⟩).userRange := by simp [clientLock,Wf]
  obtain ⟨st',done,freed⟩ := free_freed wholeLocked_linked rfl wfFree wholeLocked_wf wholeLocked_cover
  exact ⟨st',done,freed.mpr ((wholeLocked_cut (by decide)).mpr rfl)⟩

/-- The end of the file is freed from byte 5000 on: the blocks of the lock end at byte 4096. -/
theorem free_not_covered : Linked False wholeLocked ∧
    (∀ x ∈ (wholeLocked.files 1 7).locks, Wf x.lock.userRange ∧ BlockCover .bsize4K x.lock.userRange x.lock.effectiveRange) ∧
    ∃ st', exportSetFileLock .bsize4K 1 7 (clientLock .bsize4K .free 3 1 ⟨.toEnd,5000,0⟩) wholeLocked = some st' ∧
      ¬Freed .bsize4K (clientLock .bsize4K .free 3 1 ⟨.toEnd,5000,0⟩) (wholeLocked.files 1 7).locks (st'.files 1 7).locks := by
  refine ⟨wholeLocked_linked,fun x mem => ⟨wholeLocked_wf x mem,wholeLocked_cover x mem⟩,?_⟩
  have wfFree : Wf (clientLock .bsize4K .free 3 1 ⟨.toEnd,5000,0⟩).userRange := by simp [clientLock,Wf]
  obtain ⟨st',done,parts,_⟩ := free_leaves wholeLocked_linked rfl wfFree wholeLocked_wf
  refine ⟨st',done,fun freed => ?_⟩
  have cut := (covers_freed wfFree wholeLocked_wf wholeLocked_cover parts).mp freed.covers
  exact absurd ((wholeLocked_cut (by decide)).mp cut) (by decide)

end Freeing

end Rozofs.LockFreeing
