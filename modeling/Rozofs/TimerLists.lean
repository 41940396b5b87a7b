import Rozofs.TimerWheel

/-! The slot lists of the timer wheel: what an insertion and a stop do to them, during a scan as
well. -/
namespace Rozofs.TimerWheel
open Function (update)

variable {c : Config} {w : Wheel} {lists : Nat → List Nat} {rest : List Nat} {t : Nat}

/-- The wheel has these slot lists, and the last part of the list of the hand is still to be
scanned. -/
structure Rep (c : Config) (w : Wheel) (lists : Nat → List Nat) (rest : List Nat) : Prop where
  table : SlotLists.Table w.links w.headFirst lists
  slot : ∀ x t, t ∈ lists x → (w.cell t).xHead = x ∧ x < c.slotSize
  off : ∀ t, (∀ x, t ∉ lists x) → (w.cell t).xHead = xNil
  hand : w.handClock < c.slotSize
  scanned : ∃ done, lists w.handClock = done ++ rest

/-- The slot of a timer that is inserted. -/
def slotOf (c : Config) (w : Wheel) (toVal : BitVec 64) : Nat := (w.handClock + delta c toVal) % c.slotSize

/-- The laps of a timer that is inserted. -/
def lapsOf (c : Config) (toVal : BitVec 64) : Nat := if delta c toVal > c.slotSize then delta c toVal / c.slotSize % 2 ^ 32 else 0

theorem slotSize_pos (c : Config) : 0 < c.slotSize := Nat.two_pow_pos c.slotSize2n

theorem and_mask (a : Nat) : a &&& c.slotSizeMask = a % c.slotSize := Nat.and_two_pow_sub_one_eq_mod a c.slotSize2n

/-- An insertion in terms of the slot and the laps. -/
theorem timerInsert_eq (w : Wheel) (t : Nat) (toVal : BitVec 64) : w.timerInsert c t toVal =
    { w with
      cell := update w.cell t { w.cell t with xHead := slotOf c w toVal, toModNb := lapsOf c toVal }
      links := w.links.push (w.headFirst (slotOf c w toVal)) t
      headFirst := update w.headFirst (slotOf c w toVal) (some t) } := by
  have place : (if delta c toVal > c.slotSize then w.handClock + (delta c toVal &&& c.slotSizeMask) else w.handClock + delta c toVal) &&&
      c.slotSizeMask = slotOf c w toVal := by
    rw [and_mask,slotOf]
    split
    · rw [and_mask,Nat.add_mod_mod]
    · rfl
  have laps : (if delta c toVal > c.slotSize then delta c toVal >>> c.slotSize2n else 0) % 2 ^ 32 = lapsOf c toVal := by
    rw [lapsOf,Nat.shiftRight_eq_div_pow]
    split
    · rfl
    · rfl
  simp only [Wheel.timerInsert,place,laps]

/-- The lists without a timer. -/
def without (lists : Nat → List Nat) (t : Nat) : Nat → List Nat := fun x => (lists x).erase t

/-- The lists with a timer in front of one of them. -/
def withFirst (lists : Nat → List Nat) (x t : Nat) : Nat → List Nat := update lists x (t :: lists x)

theorem without_absent (absent : ∀ x, t ∉ lists x) : without lists t = lists := by
  funext x
  exact List.erase_of_not_mem (absent x)

theorem mem_without (nodup : ∀ x, (lists x).Nodup) (x t' : Nat) : t' ∈ without lists t x ↔ t' ≠ t ∧ t' ∈ lists x :=
  (nodup x).mem_erase_iff

theorem mem_withFirst (x y t' : Nat) : t' ∈ withFirst lists x t y ↔ t' = t ∧ y = x ∨ t' ∈ lists y := by
  by_cases here : y = x
  · subst here
    simp [withFirst]
  · simp [withFirst,here]

/-- A stop changes the links and the slot of its timer only. -/
theorem timerStop_cell (w : Wheel) (t t' : Nat) : ((w.timerStop t).cell t').toModNb = (w.cell t').toModNb ∧
    ((w.timerStop t).cell t').periodFlag = (w.cell t').periodFlag ∧ ((w.timerStop t).cell t').toVal = (w.cell t').toVal := by
  unfold Wheel.timerStop
  split
  · exact ⟨rfl,rfl,rfl⟩
  · by_cases own : t' = t
    · subst own
      simp only [Function.update_self,and_self]
    · simp only [Function.update_of_ne own,and_self]

theorem timerStop_globals (w : Wheel) (t : Nat) : (w.timerStop t).handClock = w.handClock ∧ (w.timerStop t).modulo = w.modulo ∧
    (w.timerStop t).curCellToDelete = w.curCellToDelete ∧ (w.timerStop t).curCellProcess = w.curCellProcess := by
  unfold Wheel.timerStop
  split
  · exact ⟨rfl,rfl,rfl,rfl⟩
  · exact ⟨rfl,rfl,rfl,rfl⟩

namespace Rep

/-- No slot has the number that stands for no slot. -/
theorem listed (rep : Rep c w lists rest) (narrow : c.slotSize ≤ xNil) {x : Nat} (member : t ∈ lists x) : (w.cell t).xHead ≠ xNil := by
  have slot := rep.slot x t member
  rw [slot.1]
  omega

/-- The lists depend on the links, the heads, the hand and the slots of the cells. -/
theorem congr {w' : Wheel} (rep : Rep c w lists rest) (links : w'.links = w.links) (heads : w'.headFirst = w.headFirst)
    (hand : w'.handClock = w.handClock) (cells : ∀ t, (w'.cell t).xHead = (w.cell t).xHead) : Rep c w' lists rest := by
  refine ⟨by rw [links,heads]; exact rep.table,?_,?_,by rw [hand]; exact rep.hand,by rw [hand]; exact rep.scanned⟩
  · intro x t member
    rw [cells]
    exact rep.slot x t member
  · intro t absent
    rw [cells]
    exact rep.off t absent

theorem setCell (rep : Rep c w lists rest) (t : Nat) (periodFlag : Bool) (toVal : BitVec 64) :
    Rep c (w.setCell t periodFlag toVal) lists rest := by
  refine rep.congr rfl rfl rfl fun t' => ?_
  by_cases own : t' = t
  · simp [Wheel.setCell,own]
  · simp [Wheel.setCell,own]

/-- The cell of a timer on no list is given to the application. -/
theorem alloc (rep : Rep c w lists rest) (absent : ∀ x, t ∉ lists x) : Rep c (w.timerAlloc t) lists rest := by
  have apart : ∀ x t', t' ∈ lists x → t' ≠ t := fun x t' member same => absent x (same ▸ member)
  refine ⟨rep.table.congr fun x t' member => ?_,fun x t' member => ?_,fun t' none => ?_,rep.hand,rep.scanned⟩
  · simp [Wheel.timerAlloc,SlotLists.Links.setNext,SlotLists.Links.setPrior,apart x t' member]
  · simp only [Wheel.timerAlloc,Function.update_of_ne (apart x t' member)]
    exact rep.slot x t' member
  · by_cases own : t' = t
    · simp [Wheel.timerAlloc,own]
    · simp only [Wheel.timerAlloc,Function.update_of_ne own]
      exact rep.off t' none

theorem insert (rep : Rep c w lists rest) (absent : ∀ x, t ∉ lists x) (toVal : BitVec 64) :
    Rep c (w.timerInsert c t toVal) (withFirst lists (slotOf c w toVal) t) rest := by
  rw [timerInsert_eq]
  refine ⟨rep.table.push absent,fun x t' member => ?_,fun t' none => ?_,rep.hand,?_⟩
  · rcases (mem_withFirst _ x t').mp member with ⟨rfl,rfl⟩ | there
    · simp only [Function.update_self]
      exact ⟨trivial,Nat.mod_lt _ (slotSize_pos c)⟩
    · have ne : t' ≠ t := fun same => absent x (same ▸ there)
      simp only [Function.update_of_ne ne]
      exact rep.slot x t' there
  · have ne : t' ≠ t := fun same => none (slotOf c w toVal) ((mem_withFirst _ _ t').mpr (.inl ⟨same,rfl⟩))
    simp only [Function.update_of_ne ne]
    exact rep.off t' fun x there => none x ((mem_withFirst _ x t').mpr (.inr there))
  · obtain ⟨done,scanned⟩ := rep.scanned
    by_cases here : slotOf c w toVal = w.handClock
    · exact ⟨t :: done,by simp [withFirst,here,scanned]⟩
    · exact ⟨done,by simp [withFirst,Ne.symm here,scanned]⟩

theorem stop (rep : Rep c w lists rest) (narrow : c.slotSize ≤ xNil) (t : Nat) : Rep c (w.timerStop t) (without lists t) (rest.erase t) := by
  by_cases linked : ∃ x, t ∈ lists x
  · obtain ⟨x,member⟩ := linked
    have slot := rep.slot x t member
    have others : without lists t = update lists x ((lists x).erase t) := by
      funext y
      by_cases here : y = x
      · subst here
        simp [without]
      · have absent : t ∉ lists y := fun there => here (rep.table.single y x t there member)
        simp [without,here,List.erase_of_not_mem absent]
    rw [Wheel.timerStop,if_neg (rep.listed narrow member)]
    refine ⟨?_,fun y t' there => ?_,fun t' none => ?_,rep.hand,?_⟩
    · rw [others]
      simp only [slot.1]
      exact rep.table.remove member
    · obtain ⟨ne,there⟩ := (mem_without rep.table.nodup y t').mp there
      simp only [Function.update_of_ne ne]
      exact rep.slot y t' there
    · by_cases own : t' = t
      · simp [own]
      · simp only [Function.update_of_ne own]
        exact rep.off t' fun y there => none y ((mem_without rep.table.nodup y t').mpr ⟨own,there⟩)
    · obtain ⟨done,scanned⟩ := rep.scanned
      have nodup := rep.table.nodup w.handClock
      rw [scanned] at nodup
      simp only [without,scanned]
      by_cases early : t ∈ done
      · have late : t ∉ rest := fun there => List.disjoint_of_nodup_append nodup early there
        exact ⟨done.erase t,by rw [List.erase_append_left _ early,List.erase_of_not_mem late]⟩
      · exact ⟨done,by rw [List.erase_append_right _ early]⟩
  · have absent : ∀ x, t ∉ lists x := fun x member => linked ⟨x,member⟩
    obtain ⟨done,scanned⟩ := rep.scanned
    have late : t ∉ rest := fun there => absent w.handClock (by rw [scanned]; exact List.mem_append_right done there)
    rw [without_absent absent,List.erase_of_not_mem late,Wheel.timerStop,if_pos (rep.off t absent)]
    exact rep

/-- The timer after one that is still to be scanned. -/
theorem next (rep : Rep c w lists (t :: rest)) : w.links.next t = rest.head? := by
  obtain ⟨done,scanned⟩ := rep.scanned
  have chain := rep.table.chain w.handClock
  rw [scanned] at chain
  exact SlotLists.Chain.next_append chain

theorem mem_hand (rep : Rep c w lists rest) (member : t ∈ rest) : t ∈ lists w.handClock := by
  obtain ⟨done,scanned⟩ := rep.scanned
  rw [scanned]
  exact List.mem_append_right done member

theorem rest_nodup (rep : Rep c w lists rest) : rest.Nodup := by
  obtain ⟨done,scanned⟩ := rep.scanned
  have nodup := rep.table.nodup w.handClock
  rw [scanned] at nodup
  exact (List.nodup_append.mp nodup).2.1

/-- The scan goes on at the same place after a stop. -/
theorem cursor_stop (rep : Rep c w lists rest) (cursor : w.pCellNew = rest.head?) (narrow : c.slotSize ≤ xNil) (t : Nat) :
    (w.timerStop t).pCellNew = (rest.erase t).head? := by
  cases rest with
  | nil =>
    simp only [Wheel.timerStop,cursor,List.head?_nil]
    split
    · exact cursor
    · rfl
  | cons first rest =>
    by_cases own : first = t
    · subst own
      have member := rep.mem_hand List.mem_cons_self
      rw [Wheel.timerStop,if_neg (rep.listed narrow member),List.erase_cons_head]
      simp only [cursor,List.head?_cons,if_true]
      exact rep.next
    · rw [List.erase_cons_tail (by simpa using own),List.head?_cons]
      have other : w.pCellNew ≠ some t := by
        rw [cursor,List.head?_cons]
        exact fun same => own (Option.some.inj same)
      rw [Wheel.timerStop]
      split
      · exact cursor
      · exact cursor

end Rep

end Rozofs.TimerWheel
