import Rozofs.FileLock

/-! Ranges of file locks as sets of bytes: what the tests of `cache.c` decide about them, and
when a range in blocks covers a range in bytes. -/
namespace Rozofs.LockRanges
open FileLock

/-- Offsets of a range: bytes of a user range, blocks of an effective range. -/
def Mem (range : Range) (offset : Nat) : Prop :=
  match range.size with
  | .total => True
  | .fromStart => offset < range.offsetStop
  | .toEnd => range.offsetStart ≤ offset
  | .partialRange => range.offsetStart ≤ offset ∧ offset < range.offsetStop

/-- A range whose size says where it starts and stops. -/
def Wf (range : Range) : Prop :=
  match range.size with
  | .total => range.offsetStart = 0 ∧ range.offsetStop = 0
  | .fromStart => range.offsetStart = 0 ∧ 0 < range.offsetStop
  | .toEnd => 0 < range.offsetStart ∧ range.offsetStop = 0
  | .partialRange => 0 < range.offsetStart ∧ range.offsetStart < range.offsetStop

/-- A range that has a stop. -/
def bounded (range : Range) : Bool :=
  match range.size with
  | .total | .toEnd => false
  | .fromStart | .partialRange => true

/-- No byte is between the ranges: they meet or follow each other. -/
def Touch (range1 range2 : Range) : Prop :=
  (bounded range1 = true → range2.offsetStart ≤ range1.offsetStop) ∧
  (bounded range2 = true → range1.offsetStart ≤ range2.offsetStop)

instance (range1 range2 : Range) : Decidable (Touch range1 range2) := inferInstanceAs (Decidable (_ ∧ _))

/-- The smallest range that holds two ranges. -/
def hull (range1 range2 : Range) : Range :=
  let start := min range1.offsetStart range2.offsetStart
  if bounded range1 && bounded range2 then
    ⟨if start = 0 then .fromStart else .partialRange,start,max range2.offsetStop range1.offsetStop⟩
  else ⟨if start = 0 then .total else .toEnd,start,0⟩

/-- The blocks of the second range hold the bytes of the first one. -/
def Covers (bsize : BSize) (user effective : Range) : Prop :=
  ∀ offset, Mem user offset → Mem effective (offset / bsize.bytes)

section Sets
variable {range range1 range2 range3 : Range}

theorem mem_iff (wf : Wf range) (offset : Nat) :
    Mem range offset ↔ range.offsetStart ≤ offset ∧ (bounded range = true → offset < range.offsetStop) := by
  obtain ⟨size,start,stop⟩ := range
  cases size <;> simp [Wf,Mem,bounded] at wf ⊢ <;> omega

theorem Wf.stop (wf : Wf range) (stops : bounded range = true) : range.offsetStart < range.offsetStop := by
  obtain ⟨size,start,stop⟩ := range
  cases size <;> simp [Wf,bounded] at wf stops ⊢ <;> omega

@[simp] theorem hull_start : (hull range1 range2).offsetStart = min range1.offsetStart range2.offsetStart := by
  simp only [hull]
  split <;> rfl

theorem hull_bounded : bounded (hull range1 range2) = (bounded range1 && bounded range2) := by
  simp only [hull]
  split
  case isTrue both =>
    rw [both]
    split <;> rfl
  case isFalse one =>
    rw [Bool.eq_false_iff.mpr one]
    split <;> rfl

theorem hull_stop (both : bounded (hull range1 range2) = true) :
    (hull range1 range2).offsetStop = max range2.offsetStop range1.offsetStop := by
  rw [hull_bounded] at both
  simp [hull,both]

theorem hull_wf (wf1 : Wf range1) (wf2 : Wf range2) : Wf (hull range1 range2) := by
  obtain ⟨size1,start1,stop1⟩ := range1
  obtain ⟨size2,start2,stop2⟩ := range2
  cases size1 <;> cases size2 <;> simp [hull,Wf,bounded] at wf1 wf2 ⊢ <;> split_ifs <;> simp <;> omega

theorem mem_hull (wf1 : Wf range1) (wf2 : Wf range2) (touch : Touch range1 range2) (offset : Nat) :
    Mem (hull range1 range2) offset ↔ Mem range1 offset ∨ Mem range2 offset := by
  have stop1 := wf1.stop
  have stop2 := wf2.stop
  have stop := @hull_stop range1 range2
  obtain ⟨first,second⟩ := touch
  rw [mem_iff (hull_wf wf1 wf2),mem_iff wf1,mem_iff wf2,hull_start]
  rw [hull_bounded] at stop ⊢
  cases bounded1 : bounded range1 <;> cases bounded2 : bounded range2 <;>
    simp [bounded1,bounded2] at first second stop stop1 stop2 ⊢ <;> omega

theorem touch_hull (wf1 : Wf range1) (wf2 : Wf range2) (wf3 : Wf range3) (touch : Touch range1 range2) :
    Touch (hull range1 range2) range3 ↔ Touch range1 range3 ∨ Touch range2 range3 := by
  have stop1 := wf1.stop
  have stop2 := wf2.stop
  have stop3 := wf3.stop
  have stop := @hull_stop range1 range2
  obtain ⟨first,second⟩ := touch
  unfold Touch
  rw [hull_start]
  rw [hull_bounded] at stop ⊢
  cases bounded1 : bounded range1 <;> cases bounded2 : bounded range2 <;> cases bounded3 : bounded range3 <;>
    simp [bounded1,bounded2,bounded3] at first second stop stop1 stop2 stop3 ⊢ <;> omega

theorem Touch.symm (touch : Touch range1 range2) : Touch range2 range1 := ⟨touch.2,touch.1⟩

theorem inside_bounds {part : Range} (wf : Wf range) (wfPart : Wf part) (inside : ∀ offset, Mem part offset → Mem range offset) :
    range.offsetStart ≤ part.offsetStart ∧
      (bounded range = true → bounded part = true ∧ part.offsetStop ≤ range.offsetStop) := by
  simp only [mem_iff wf,mem_iff wfPart] at inside
  have stop := wfPart.stop
  have first := inside part.offsetStart ⟨Nat.le_refl _,stop⟩
  refine ⟨first.1,?_⟩
  intro stops
  cases stopsPart : bounded part with
  | false =>
    have beyond := inside (max part.offsetStart range.offsetStop) ⟨Nat.le_max_left _ _,by simp [stopsPart]⟩
    have bound := beyond.2 stops
    omega
  | true =>
    have smaller := stop stopsPart
    have last := inside (part.offsetStop - 1) ⟨by omega,fun _ => by omega⟩
    have bound := last.2 stops
    exact ⟨rfl,by omega⟩

/-- Ranges inside ranges that do not touch do not touch. -/
theorem Touch.mono (wf1 : Wf range1) (wf2 : Wf range2) {part1 part2 : Range} (wfPart1 : Wf part1) (wfPart2 : Wf part2)
    (inside1 : ∀ offset, Mem part1 offset → Mem range1 offset) (inside2 : ∀ offset, Mem part2 offset → Mem range2 offset)
    (touch : Touch part1 part2) : Touch range1 range2 := by
  obtain ⟨start1,stop1⟩ := inside_bounds wf1 wfPart1 inside1
  obtain ⟨start2,stop2⟩ := inside_bounds wf2 wfPart2 inside2
  constructor
  · intro stops
    have bound := touch.1 (stop1 stops).1
    have smaller := (stop1 stops).2
    omega
  · intro stops
    have bound := touch.2 (stop2 stops).1
    have smaller := (stop2 stops).2
    omega

end Sets

section Tests
variable {lock1 lock2 : Lock}

theorem overlapping_iff (wf1 : Wf lock1.userRange) (wf2 : Wf lock2.userRange) :
    areFileLocksOverlapping lock1 lock2 = true ↔ Touch lock1.userRange lock2.userRange := by
  obtain ⟨_,_,_,⟨size1,start1,stop1⟩,_⟩ := lock1
  obtain ⟨_,_,_,⟨size2,start2,stop2⟩,_⟩ := lock2
  cases size1 <;> cases size2 <;> simp [areFileLocksOverlapping,Touch,Wf,bounded] at wf1 wf2 ⊢
  case partialRange.partialRange => split <;> simp <;> omega
  all_goals omega

theorem compatible_apart (compatible : areFileLocksCompatible lock1 lock2 = true) :
    (lock1.mode = .read ∧ lock2.mode = .read) ∨
      ∀ block, Mem lock1.effectiveRange block → ¬Mem lock2.effectiveRange block := by
  by_cases reads : lock1.mode = .read ∧ lock2.mode = .read
  · exact .inl reads
  · apply Or.inr
    intro block mem1 mem2
    obtain ⟨_,_,_,_,⟨size1,start1,stop1⟩⟩ := lock1
    obtain ⟨_,_,_,_,⟨size2,start2,stop2⟩⟩ := lock2
    cases size1 <;> cases size2 <;> simp [areFileLocksCompatible,Mem,reads] at compatible mem1 mem2
    case partialRange.partialRange =>
      split at compatible <;> omega
    all_goals omega

/-- Locks whose effective ranges cover them do not meet when they are compatible. -/
theorem compatible_disjoint {bsize : BSize} (compatible : areFileLocksCompatible lock1 lock2 = true)
    (covers1 : Covers bsize lock1.userRange lock1.effectiveRange)
    (covers2 : Covers bsize lock2.userRange lock2.effectiveRange) :
    (lock1.mode = .read ∧ lock2.mode = .read) ∨
      ∀ offset, Mem lock1.userRange offset → ¬Mem lock2.userRange offset := by
  rcases compatible_apart compatible with reads | apart
  · exact .inl reads
  · exact .inr fun offset mem1 mem2 => apart _ (covers1 offset mem1) (covers2 offset mem2)

end Tests

theorem canonical_wf {start len : Int} {range : Range} (canonical : flockCanonical start len = some range) : Wf range := by
  unfold flockCanonical at canonical
  dsimp only at canonical
  split_ifs at canonical
  all_goals obtain rfl := Option.some.inj canonical
  all_goals simp_all [Wf]
  all_goals omega

section Blocks
variable {bsize : BSize} {offset stop : Nat}

theorem block_lt (inside : offset < stop) : offset / bsize.bytes < stop / bsize.bytes + 1 :=
  Nat.lt_succ_of_le (Nat.div_le_div_right (Nat.le_of_lt inside))

theorem block_lt_aligned (inside : offset < stop) (aligned : stop % bsize.bytes = 0) :
    offset / bsize.bytes < stop / bsize.bytes := by
  apply Nat.div_lt_of_lt_mul
  rwa [Nat.mul_div_cancel' (Nat.dvd_of_mod_eq_zero aligned)]

theorem mem_toEnd_blocks {start : Nat} (first : start ≤ offset) :
    Mem ⟨if start / bsize.bytes = 0 then .total else .toEnd,start / bsize.bytes,0⟩ (offset / bsize.bytes) := by
  split
  · trivial
  · exact Nat.div_le_div_right first

theorem mem_bounded_blocks {start blocks : Nat} (first : start ≤ offset) (last : offset / bsize.bytes < blocks) :
    Mem ⟨if start / bsize.bytes = 0 then .fromStart else .partialRange,start / bsize.bytes,blocks⟩
      (offset / bsize.bytes) := by
  split
  · exact last
  · exact ⟨Nat.div_le_div_right first,last⟩

theorem client_covers {range : Range} (wf : Wf range) : Covers bsize range (clientEffectiveRange bsize range) := by
  intro offset mem
  obtain ⟨first,last⟩ := (mem_iff wf offset).mp mem
  have blocks : bounded range = true → offset / bsize.bytes < if range.offsetStop % bsize.bytes = 0 then
      range.offsetStop / bsize.bytes else range.offsetStop / bsize.bytes + 1 := by
    intro stops
    split
    case isTrue aligned => exact block_lt_aligned (last stops) aligned
    case isFalse => exact block_lt (last stops)
  obtain ⟨size,start,stop⟩ := range
  cases size with
  | total => trivial
  | toEnd => exact mem_toEnd_blocks first
  | fromStart => exact mem_bounded_blocks first (blocks rfl)
  | partialRange => exact mem_bounded_blocks first (blocks rfl)

/-- The server covers a range that has an end when the end is the end of a block, or when the
remainder that it looks at is not zero. -/
theorem setUserRange_covers {lock : Lock} {range : Range} (wf : Wf range) (partly : range.size ≠ .total)
    (rounds : bounded range = true → range.offsetStop % bsize.bytes = 0 ∨ lock.effectiveRange.offsetStop % bsize.bytes ≠ 0) :
    Covers bsize range (setUserRange bsize lock range).effectiveRange := by
  intro offset mem
  obtain ⟨first,last⟩ := (mem_iff wf offset).mp mem
  have blocks : bounded range = true → offset / bsize.bytes < if lock.effectiveRange.offsetStop % bsize.bytes = 0 then
      range.offsetStop / bsize.bytes else range.offsetStop / bsize.bytes + 1 := by
    intro stops
    split
    case isTrue zero => exact block_lt_aligned (last stops) ((rounds stops).resolve_right (not_not_intro zero))
    case isFalse => exact block_lt (last stops)
  obtain ⟨size,start,stop⟩ := range
  cases size with
  | total => exact absurd rfl partly
  | toEnd => exact mem_toEnd_blocks first
  | fromStart => exact mem_bounded_blocks first (blocks rfl)
  | partialRange => exact mem_bounded_blocks first (blocks rfl)

/-- The stop that the server computes for a bounded range. -/
theorem setUserRange_stop {lock : Lock} {range : Range} (stops : bounded range = true) :
    (setUserRange bsize lock range).effectiveRange.offsetStop = if lock.effectiveRange.offsetStop % bsize.bytes = 0 then
      range.offsetStop / bsize.bytes else range.offsetStop / bsize.bytes + 1 := by
  obtain ⟨size,start,stop⟩ := range
  cases size with
  | total => cases stops
  | toEnd => cases stops
  | fromStart => rfl
  | partialRange => rfl

/-- Two locks are concatenated when their ranges touch; a total lock stays as it is. -/
theorem tryFileLocksConcatenate_eq {lock1 lock2 : Lock} (wf1 : Wf lock1.userRange) (wf2 : Wf lock2.userRange) :
    tryFileLocksConcatenate bsize lock1 lock2 =
      if Touch lock1.userRange lock2.userRange then
        some (if lock1.userRange.size = .total then lock1
          else setUserRange bsize lock1 (hull lock1.userRange lock2.userRange))
      else none := by
  obtain ⟨mode,client,owner,⟨size1,start1,stop1⟩,effective⟩ := lock1
  obtain ⟨_,_,_,⟨size2,start2,stop2⟩,_⟩ := lock2
  by_cases touch : Touch ⟨size1,start1,stop1⟩ ⟨size2,start2,stop2⟩
  · rw [if_pos touch]
    cases size1 <;> cases size2 <;>
      simp only [Touch,Wf,bounded,reduceCtorEq,Bool.false_eq_true,false_implies,true_implies,and_true,true_and,if_true,
        if_false,tryFileLocksConcatenate,hull,Bool.and_true,Bool.and_false,Bool.and_self] at touch wf1 wf2 ⊢
    all_goals split_ifs
    all_goals first
      | (exfalso; omega)
      | (refine congrArg some (congrArg (setUserRange bsize _) ?_)
         simp only [Range.mk.injEq,true_and,and_true]
         omega)
  · rw [if_neg touch]
    cases size1 <;> cases size2 <;> simp [Touch,Wf,bounded,tryFileLocksConcatenate] at touch wf1 wf2 ⊢
    case partialRange.partialRange =>
      split_ifs
      · rfl
      · omega
      · rfl
      · omega
    all_goals omega

end Blocks

/-- The ranges have a byte in common. -/
def intersect (range1 range2 : Range) : Bool :=
  (!bounded range1 || range2.offsetStart < range1.offsetStop) && (!bounded range2 || range1.offsetStart < range2.offsetStop)

/-- A free request cuts a lock of its owner at ends of blocks where the server computes the
blocks of a part again, or the remainder that the server looks at is not zero. The part after
the freed bytes keeps the blocks of the lock when the request is inside a partial lock. -/
def cutAligned (bsize : BSize) (lockFree lockSet : Lock) : Bool :=
  let free := lockFree.userRange
  let range := lockSet.userRange
  let before := decide (range.offsetStart < free.offsetStart)
  let after := bounded free && bounded range && free.offsetStop < range.offsetStop
  !intersect free range || lockSet.effectiveRange.offsetStop % bsize.bytes ≠ 0 ||
    ((!before || free.offsetStart % bsize.bytes = 0) &&
      (!after || (before && 0 < range.offsetStart) || range.offsetStop % bsize.bytes = 0))

/-- A lock is a part of another one outside of a free request. -/
structure Part (bsize : BSize) (lockFree lockSet lock : Lock) : Prop where
  wf : Wf lock.userRange
  inside : ∀ offset, Mem lock.userRange offset → Mem lockSet.userRange offset
  outside : ∀ offset, Mem lock.userRange offset → ¬Mem lockFree.userRange offset
  mode : lock.mode = lockSet.mode
  clientRef : lock.clientRef = lockSet.clientRef
  ownerRef : lock.ownerRef = lockSet.ownerRef
  covers : Covers bsize lockSet.userRange lockSet.effectiveRange → cutAligned bsize lockFree lockSet = true →
    Covers bsize lock.userRange lock.effectiveRange

section Cuts
variable {bsize : BSize} {lockFree lockSet lock : Lock} {newLock : Option Lock} {range : Range}

theorem intersect_iff {range1 range2 : Range} (wf1 : Wf range1) (wf2 : Wf range2) :
    intersect range1 range2 = true ↔ ∃ offset, Mem range1 offset ∧ Mem range2 offset := by
  have stop1 := wf1.stop
  have stop2 := wf2.stop
  simp only [mem_iff wf1,mem_iff wf2,intersect,Bool.and_eq_true,Bool.or_eq_true,Bool.not_eq_true',decide_eq_true_eq]
  constructor
  · rintro ⟨first,second⟩
    refine ⟨max range1.offsetStart range2.offsetStart,⟨by omega,?_⟩,⟨by omega,?_⟩⟩
    · intro stops
      have bound := stop1 stops
      have other := first.resolve_left (by simp [stops])
      omega
    · intro stops
      have bound := stop2 stops
      have other := second.resolve_left (by simp [stops])
      omega
  · rintro ⟨offset,⟨start1,end1⟩,⟨start2,end2⟩⟩
    constructor
    · cases bounded1 : bounded range1 with
      | false => exact .inl rfl
      | true =>
        have bound := end1 bounded1
        exact .inr (by omega)
    · cases bounded2 : bounded range2 with
      | false => exact .inl rfl
      | true =>
        have bound := end2 bounded2
        exact .inr (by omega)

theorem Part.self (wf : Wf lockSet.userRange) (apart : ∀ offset, Mem lockSet.userRange offset → ¬Mem lockFree.userRange offset) :
    Part bsize lockFree lockSet lockSet where
  wf := wf
  inside _ mem := mem
  outside := apart
  mode := rfl
  clientRef := rfl
  ownerRef := rfl
  covers covers _ := covers

theorem Part.of_range (wf : Wf range) (inside : ∀ offset, Mem range offset → Mem lockSet.userRange offset)
    (outside : ∀ offset, Mem range offset → ¬Mem lockFree.userRange offset) (partly : range.size ≠ .total)
    (aligned : cutAligned bsize lockFree lockSet = true → bounded range = true →
      range.offsetStop % bsize.bytes = 0 ∨ lockSet.effectiveRange.offsetStop % bsize.bytes ≠ 0) :
    Part bsize lockFree lockSet (setUserRange bsize lockSet range) where
  wf := wf
  inside := inside
  outside := outside
  mode := rfl
  clientRef := rfl
  ownerRef := rfl
  covers _ cut := setUserRange_covers wf partly (aligned cut)

theorem Part.shrink (wf : Wf range) (inside : ∀ offset, Mem range offset → Mem lockSet.userRange offset)
    (outside : ∀ offset, Mem range offset → ¬Mem lockFree.userRange offset) :
    Part bsize lockFree lockSet { lockSet with userRange := range } where
  wf := wf
  inside := inside
  outside := outside
  mode := rfl
  clientRef := rfl
  ownerRef := rfl
  covers covers _ offset mem := covers offset (inside offset mem)

/-- What a free request leaves of a lock of its owner: parts that do not touch. -/
theorem keep_parts (wfFree : Wf lockFree.userRange) (wf : Wf lockSet.userRange) (owner : sameOwner lockFree lockSet = true)
    (verdict : mustFileLockBeRemoved bsize lockFree lockSet = .keep lock newLock) :
    Part bsize lockFree lockSet lock ∧
    ∀ new ∈ newLock, Part bsize lockFree lockSet new ∧ ¬Touch lock.userRange new.userRange := by
  unfold mustFileLockBeRemoved at verdict
  dsimp only at verdict
  simp only [owner,Bool.not_true,Bool.false_eq_true,if_false] at verdict
  obtain ⟨_,_,_,⟨sizeF,startF,stopF⟩,_⟩ := lockFree
  obtain ⟨modeL,clientL,ownerL,⟨sizeL,startL,stopL⟩,effectiveL⟩ := lockSet
  have freeBounds := wfFree
  have bounds := wf
  clear owner wfFree
  cases sizeF <;> cases sizeL <;> simp only [Wf] at verdict freeBounds bounds
  all_goals (try split_ifs at verdict)
  all_goals cases verdict
  all_goals constructor
  all_goals first
    | apply Part.self wf
    | apply Part.of_range
    | apply Part.shrink
    | (intro new same; cases same; done)
    | (intro new same; cases same; constructor; apply Part.of_range)
  all_goals clear wf
  -- what is left is about offsets only
  all_goals first
    | (simp [Wf] <;> omega)
    | (intro offset; simp [Mem] <;> omega)
    | (simp [cutAligned,intersect,bounded] <;> grind)
    | (simp [Touch,bounded]; omega)

end Cuts

end Rozofs.LockRanges
