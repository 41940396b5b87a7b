import Mathlib.Data.List.Perm.Subperm
import Mathlib.Data.Nat.ModEq
import Rozofs.TimerLists

/-! Every timer of the wheel fires when it is due, and at no other time. -/
namespace Rozofs.TimerWheel
open Function (update)

variable {c : Config} {s s' : State} {lists : Nat → List Nat} {rest : List Nat} {exempt : Option Nat} {t : Nat}

/-- A delay that the wheel counts right: not a multiple of its size with more than one lap, nor one
of 2^32 laps. -/
def Exact (c : Config) (toVal : BitVec 64) : Prop :=
  ¬(delta c toVal > c.slotSize ∧ delta c toVal % c.slotSize = 0) ∧ delta c toVal / c.slotSize < 2 ^ 32

instance (toVal : BitVec 64) : Decidable (Exact c toVal) := inferInstanceAs (Decidable (_ ∧ _))

theorem Exact.expiry {toVal : BitVec 64} (exact_ : Exact c toVal) : expiry c (delta c toVal) = delta c toVal := by
  unfold TimerWheel.expiry
  split
  · rename_i long
    have partial_ : delta c toVal % c.slotSize ≠ 0 := fun multiple => exact_.1 ⟨long,multiple⟩
    rw [if_neg partial_,Nat.mod_eq_of_lt exact_.2]
    have parts := Nat.mod_add_div (delta c toVal) c.slotSize
    rw [Nat.mul_comm] at parts
    exact parts
  · rfl

theorem delta_pos (c : Config) (toVal : BitVec 64) : 0 < delta c toVal := by
  unfold delta
  split
  · exact Nat.one_pos
  · exact Nat.pos_of_ne_zero (by assumption)

/-- What is due of a timer on the wheel: it is scanned at this tick and then once a lap. -/
def Due (c : Config) (s : State) (rest : List Nat) (x t : Nat) : Prop :=
  if t ∈ rest then s.due t = some (s.tick + (s.wheel.cell t).toModNb * c.slotSize)
  else ∃ d, 1 ≤ d ∧ d ≤ c.slotSize ∧ x = (s.wheel.handClock + d) % c.slotSize ∧
    s.due t = some (s.tick + d + (s.wheel.cell t).toModNb * c.slotSize)

/-- The invariant of the wheel and what is expected of it. A periodic timer whose callback runs is
on no list though it is due: it is exempt until the callback stops or starts it. -/
structure Inv (c : Config) (s : State) (lists : Nat → List Nat) (rest : List Nat) (exempt : Option Nat) : Prop where
  rep : Rep c s.wheel lists rest
  started : ∀ t, exempt ≠ some t → ((∃ x, t ∈ lists x) ↔ s.due t ≠ none)
  due : ∀ x t, t ∈ lists x → Due c s rest x t
  owned : ∀ t, s.due t ≠ none → s.owned t = true
  bound : ∀ t, s.owned t = true → t < c.timers
  every : ∀ t, s.due t ≠ none → s.every t = if (s.wheel.cell t).periodFlag then some (delta c (s.wheel.cell t).toVal) else none
  exact_ : ∀ t, s.due t ≠ none → (s.wheel.cell t).periodFlag = true → Exact c (s.wheel.cell t).toVal
  fires : ∀ f ∈ s.fires, f.due = some f.tick
  pending : ∀ t, exempt = some t → (∀ x, t ∉ lists x) ∧ (s.wheel.cell t).periodFlag = true ∧
    s.due t = some (s.tick + delta c (s.wheel.cell t).toVal)

/-- A timer that is inserted is due after its expiry. -/
theorem due_insert (hand : Nat) (toVal : BitVec 64) (tick : Nat) :
    ∃ d, 1 ≤ d ∧ d ≤ c.slotSize ∧ (hand + delta c toVal) % c.slotSize = (hand + d) % c.slotSize ∧
      tick + expiry c (delta c toVal) = tick + d + lapsOf c toVal * c.slotSize := by
  have size := slotSize_pos c
  have positive := delta_pos c toVal
  unfold expiry lapsOf
  by_cases long : delta c toVal > c.slotSize
  · simp only [long,if_true]
    by_cases multiple : delta c toVal % c.slotSize = 0
    · refine ⟨c.slotSize,size,Nat.le_refl _,?_,by rw [if_pos multiple,Nat.add_assoc]⟩
      rw [Nat.add_mod,multiple,Nat.add_mod_right,Nat.add_zero,Nat.mod_mod]
    · have below := Nat.mod_lt (delta c toVal) size
      refine ⟨delta c toVal % c.slotSize,by omega,by omega,?_,by rw [if_neg multiple,Nat.add_assoc]⟩
      rw [Nat.add_mod_mod]
  · simp only [long,if_false]
    exact ⟨delta c toVal,positive,by omega,rfl,by omega⟩

/-- Two states that agree on a timer and on the time agree on what is due of it. -/
theorem Due.congr {rest' : List Nat} {x : Nat} (before : Due c s rest x t) (scanned : t ∈ rest' ↔ t ∈ rest) (due : s'.due t = s.due t)
    (tick : s'.tick = s.tick) (hand : s'.wheel.handClock = s.wheel.handClock)
    (laps : (s'.wheel.cell t).toModNb = (s.wheel.cell t).toModNb) : Due c s' rest' x t := by
  unfold Due at before ⊢
  rw [due,tick,hand,laps]
  simp only [scanned]
  exact before

/-- The exemption of a timer ends when it is stopped or started. -/
def settle (exempt : Option Nat) (t : Nat) : Option Nat := if exempt = some t then none else exempt

theorem settle_eq (exempt : Option Nat) (t : Nat) : settle exempt t = some t' ↔ exempt = some t' ∧ t' ≠ t := by
  unfold settle
  split
  · rename_i own
    rw [own]
    constructor
    · intro none
      cases none
    · rintro ⟨⟨rfl⟩,other⟩
      exact absurd rfl other
  · rename_i other
    refine ⟨fun same => ⟨same,?_⟩,fun both => both.1⟩
    rintro rfl
    exact other same

theorem Inv.stop (inv : Inv c s lists rest exempt) (narrow : c.slotSize ≤ xNil) (t : Nat) :
    Inv c { s with wheel := s.wheel.timerStop t, due := update s.due t none } (without lists t) (rest.erase t) (settle exempt t) := by
  have cells := timerStop_cell s.wheel t
  have kept : ∀ t', update s.due t none t' ≠ none → t' ≠ t ∧ s.due t' ≠ none := by
    intro t' due
    by_cases own : t' = t
    · simp [own] at due
    · rw [Function.update_of_ne own] at due
      exact ⟨own,due⟩
  refine ⟨inv.rep.stop narrow t,?_,?_,?_,inv.bound,?_,?_,inv.fires,?_⟩
  · intro t' settled
    by_cases own : t' = t
    · subst own
      simp [mem_without inv.rep.table.nodup]
    · simp only [mem_without inv.rep.table.nodup,Function.update_of_ne own,own,ne_eq,not_false_eq_true,true_and]
      exact inv.started t' fun same => settled ((settle_eq exempt t).mpr ⟨same,own⟩)
  · intro x t' member
    obtain ⟨other,there⟩ := (mem_without inv.rep.table.nodup x t').mp member
    refine (inv.due x t' there).congr ?_ (Function.update_of_ne other _ _) rfl (timerStop_globals s.wheel t).1 (cells t').1
    rw [inv.rep.rest_nodup.mem_erase_iff]
    exact and_iff_right other
  · exact fun t' due => inv.owned t' (kept t' due).2
  · intro t' due
    simp only [(cells t').2.1,(cells t').2.2]
    exact inv.every t' (kept t' due).2
  · intro t' due
    simp only [(cells t').2.1,(cells t').2.2]
    exact inv.exact_ t' (kept t' due).2
  · intro t' settled
    obtain ⟨was,other⟩ := (settle_eq exempt t).mp settled
    obtain ⟨absent,flag,due⟩ := inv.pending t' was
    simp only [(cells t').2.1,(cells t').2.2,Function.update_of_ne other]
    exact ⟨fun x member => absent x ((mem_without inv.rep.table.nodup x t').mp member).2,flag,due⟩

/-- A timer that is on no list is put on the wheel `w`, which differs in the cell of the timer. -/
theorem Inv.put (inv : Inv c s lists rest exempt) (absent : ∀ x, t ∉ lists x) (own : s.owned t = true) {w : Wheel}
    (rep : Rep c w lists rest) (cells : ∀ t', t' ≠ t → w.cell t' = s.wheel.cell t') (hand : w.handClock = s.wheel.handClock)
    (periodic : (w.cell t).periodFlag = true → Exact c (w.cell t).toVal) (toVal : BitVec 64) :
    Inv c { s with
        wheel := w.timerInsert c t toVal
        due := update s.due t (some (s.tick + expiry c (delta c toVal)))
        every := update s.every t (if (w.cell t).periodFlag then some (delta c (w.cell t).toVal) else none) }
      (withFirst lists (slotOf c w toVal) t) rest (settle exempt t) := by
  have scanned : t ∉ rest := fun member => absent _ (inv.rep.mem_hand member)
  have others : ∀ t', t' ≠ t → (w.timerInsert c t toVal).cell t' = s.wheel.cell t' := by
    intro t' other
    simp only [timerInsert_eq,Function.update_of_ne other]
    exact cells t' other
  have hand' : (w.timerInsert c t toVal).handClock = s.wheel.handClock := by
    rw [timerInsert_eq]
    exact hand
  refine ⟨rep.insert absent toVal,?_,?_,?_,inv.bound,?_,?_,inv.fires,?_⟩
  · intro t' settled
    by_cases here : t' = t
    · subst here
      simp only [mem_withFirst,Function.update_self,true_and]
      exact ⟨fun _ => by simp,fun _ => ⟨_,.inl rfl⟩⟩
    · simp only [mem_withFirst,here,false_and,false_or,Function.update_of_ne here]
      exact inv.started t' fun same => settled ((settle_eq exempt t).mpr ⟨same,here⟩)
  · intro x t' member
    rcases (mem_withFirst _ x t').mp member with ⟨rfl,rfl⟩ | there
    · obtain ⟨d,positive,most,place,time⟩ := due_insert (c := c) w.handClock toVal s.tick
      simp only [Due,if_neg scanned,Function.update_self]
      refine ⟨d,positive,most,?_,?_⟩
      · rw [slotOf,place,hand',hand]
      · simp only [timerInsert_eq,Function.update_self,time]
    · have other : t' ≠ t := fun same => absent x (same ▸ there)
      exact (inv.due x t' there).congr .rfl (Function.update_of_ne other _ _) rfl hand' (by simp only [others t' other])
  · intro t' due
    by_cases here : t' = t
    · rw [here]
      exact own
    · simp only [Function.update_of_ne here] at due
      exact inv.owned t' due
  · intro t' due
    by_cases here : t' = t
    · subst here
      simp only [timerInsert_eq,Function.update_self]
    · simp only [Function.update_of_ne here] at due
      simp only [Function.update_of_ne here,others t' here]
      exact inv.every t' due
  · intro t' due
    by_cases here : t' = t
    · subst here
      simp only [timerInsert_eq,Function.update_self]
      exact periodic
    · simp only [Function.update_of_ne here] at due
      simp only [others t' here]
      exact inv.exact_ t' due
  · intro t' settled
    obtain ⟨was,other⟩ := (settle_eq exempt t).mp settled
    obtain ⟨absent',flag,due⟩ := inv.pending t' was
    simp only [others t' other,Function.update_of_ne other]
    refine ⟨fun x member => ?_,flag,due⟩
    rcases (mem_withFirst _ x t').mp member with ⟨same,_⟩ | there
    · exact other same
    · exact absent' x there

/-- The value of a start is counted right. -/
def Op.Exact (c : Config) : Op → Prop
  | .start _ toVal => TimerWheel.Exact c toVal
  | .periodicStart _ toVal => TimerWheel.Exact c toVal
  | _ => True

instance : (op : Op) → Decidable (op.Exact c)
  | .alloc _ => inferInstanceAs (Decidable True)
  | .start _ _ => inferInstanceAs (Decidable (_ ∧ _))
  | .periodicStart _ _ => inferInstanceAs (Decidable (_ ∧ _))
  | .stop _ => inferInstanceAs (Decidable True)
  | .free _ => inferInstanceAs (Decidable True)

/-- The exemption after a call. -/
def Op.settle (exempt : Option Nat) : Op → Option Nat
  | .alloc _ => exempt
  | .start t _ => TimerWheel.settle exempt t
  | .periodicStart t _ => TimerWheel.settle exempt t
  | .stop t => TimerWheel.settle exempt t
  | .free t => TimerWheel.settle exempt t

/-- What a call does during a scan: the scan goes on with the timers that were still to be scanned,
less the one of the call. -/
structure Performed (c : Config) (s s' : State) (rest : List Nat) (exempt : Option Nat) : Prop where
  inv : ∃ lists rest', Inv c s' lists rest' exempt ∧ s'.wheel.pCellNew = rest'.head? ∧ rest'.length ≤ rest.length ∧
    ∀ t ∈ rest', t ∈ rest ∧ (s'.wheel.cell t).periodFlag = (s.wheel.cell t).periodFlag
  tick : s'.tick = s.tick

/-- A timer that the application does not hold is on no list. -/
theorem Inv.absent (inv : Inv c s lists rest exempt) (free : s.due t = none) : ∀ x, t ∉ lists x := by
  intro x member
  by_cases pending : exempt = some t
  · exact (inv.pending t pending).1 x member
  · exact (inv.started t pending).mp ⟨x,member⟩ free

theorem Inv.settle_unowned (inv : Inv c s lists rest exempt) (free : s.owned t = false) : settle exempt t = exempt := by
  unfold settle
  split
  · rename_i own
    have due := (inv.pending t own).2.2
    have owned := inv.owned t (by rw [due]; simp)
    rw [free] at owned
    cases owned
  · rfl

theorem Inv.unchanged (inv : Inv c s lists rest exempt) (cursor : s.wheel.pCellNew = rest.head?) : Performed c s s rest exempt :=
  ⟨⟨lists,rest,inv,cursor,Nat.le_refl _,fun _ member => ⟨member,rfl⟩⟩,rfl⟩

section Calls
variable (inv : Inv c s lists rest exempt) (cursor : s.wheel.pCellNew = rest.head?) (narrow : c.slotSize ≤ xNil)
include inv cursor narrow

/-- A start: the timer is stopped, its cell is set and it is put on the wheel. -/
theorem Inv.restart (own : s.owned t = true) (periodFlag : Bool) (toVal first : BitVec 64) (modulo : Nat)
    (periodic : periodFlag = true → Exact c toVal) :
    Performed c s { s with
      wheel := { (s.wheel.timerStop t).setCell t periodFlag toVal with modulo := modulo }.timerInsert c t first
      due := update s.due t (some (s.tick + expiry c (delta c first)))
      every := update s.every t (if periodFlag then some (delta c toVal) else none) } rest (settle exempt t) := by
  have stopped := inv.stop narrow t
  have settled : settle (settle exempt t) t = settle exempt t := if_neg fun same => ((settle_eq exempt t).mp same).2 rfl
  have rep : Rep c { (s.wheel.timerStop t).setCell t periodFlag toVal with modulo := modulo } (without lists t) (rest.erase t) :=
    (stopped.rep.setCell t periodFlag toVal).congr rfl rfl rfl fun _ => rfl
  have cell : ((s.wheel.timerStop t).setCell t periodFlag toVal).cell t =
      { (s.wheel.timerStop t).cell t with periodFlag := periodFlag, toVal := toVal } := by simp [Wheel.setCell]
  have others : ∀ t', t' ≠ t → ((s.wheel.timerStop t).setCell t periodFlag toVal).cell t' = (s.wheel.timerStop t).cell t' := by
    intro t' other
    simp [Wheel.setCell,other]
  have absent : ∀ x, t ∉ without lists t x := fun x member => ((mem_without inv.rep.table.nodup x t).mp member).1 rfl
  have put := stopped.put absent own rep others rfl (by rw [cell]; exact periodic) first
  rw [settled] at put
  simp only [cell,Function.update_idem] at put
  refine ⟨⟨_,_,put,?_,List.length_erase_le,fun t' member => ?_⟩,rfl⟩
  · simp only [timerInsert_eq,Wheel.setCell]
    exact inv.rep.cursor_stop cursor narrow t
  · obtain ⟨other,there⟩ := inv.rep.rest_nodup.mem_erase_iff.mp member
    simp only [timerInsert_eq,Function.update_of_ne other,others t' other]
    exact ⟨there,(timerStop_cell s.wheel t t').2.1⟩

theorem Inv.free (own : s.owned t = true) : Performed c s (s.perform c (.free t)) rest (settle exempt t) := by
  simp only [State.perform,own,if_true]
  have stopped := inv.stop narrow t
  have cursor' := inv.rep.cursor_stop cursor narrow t
  have fields : (s.wheel.timerFree t).links = (s.wheel.timerStop t).links ∧ (s.wheel.timerFree t).headFirst = (s.wheel.timerStop t).headFirst ∧
      (s.wheel.timerFree t).handClock = (s.wheel.timerStop t).handClock ∧ (s.wheel.timerFree t).cell = (s.wheel.timerStop t).cell ∧
      (s.wheel.timerFree t).pCellNew = (s.wheel.timerStop t).pCellNew := by
    simp only [Wheel.timerFree]
    split
    · exact ⟨rfl,rfl,rfl,rfl,rfl⟩
    · exact ⟨rfl,rfl,rfl,rfl,rfl⟩
  obtain ⟨links,heads,hand,cells,next⟩ := fields
  refine ⟨⟨without lists t,rest.erase t,⟨?_,stopped.started,?_,?_,?_,?_,?_,stopped.fires,?_⟩,next.trans cursor',List.length_erase_le,?_⟩,rfl⟩
  · exact stopped.rep.congr links heads hand fun t' => by rw [cells]
  · exact fun x t' member => (stopped.due x t' member).congr .rfl rfl rfl hand (by simp only [cells])
  · intro t' due
    by_cases same : t' = t
    · simp [same] at due
    · simp only [Function.update_of_ne same] at due ⊢
      exact inv.owned t' due
  · intro t' owned
    by_cases same : t' = t
    · simp [same] at owned
    · simp only [Function.update_of_ne same] at owned
      exact inv.bound t' owned
  · simp only [cells]
    exact stopped.every
  · simp only [cells]
    exact stopped.exact_
  · simp only [cells]
    exact stopped.pending
  · intro t' member
    simp only [cells]
    exact ⟨List.mem_of_mem_erase member,(timerStop_cell s.wheel t t').2.1⟩

omit narrow in
theorem Inv.alloc (inside : t < c.timers) (free : s.owned t = false) :
    Performed c s { s with wheel := s.wheel.timerAlloc t, owned := update s.owned t true } rest exempt := by
  have idle : s.due t = none := by
    by_contra due
    have owned := inv.owned t due
    rw [free] at owned
    cases owned
  have flags : ∀ t', ((s.wheel.timerAlloc t).cell t').toModNb = (s.wheel.cell t').toModNb ∧
      ((s.wheel.timerAlloc t).cell t').periodFlag = (s.wheel.cell t').periodFlag ∧
      ((s.wheel.timerAlloc t).cell t').toVal = (s.wheel.cell t').toVal := by
    intro t'
    by_cases own : t' = t
    · subst own
      simp [Wheel.timerAlloc]
    · simp [Wheel.timerAlloc,own]
  refine ⟨⟨lists,rest,⟨inv.rep.alloc (inv.absent idle),inv.started,?_,?_,?_,?_,?_,inv.fires,?_⟩,cursor,Nat.le_refl _,?_⟩,rfl⟩
  · exact fun x t' member => (inv.due x t' member).congr .rfl rfl rfl rfl (flags t').1
  · intro t' due
    by_cases own : t' = t
    · simp only [own,Function.update_self]
    · simp only [Function.update_of_ne own]
      exact inv.owned t' due
  · intro t' owned
    by_cases own : t' = t
    · rw [own]
      exact inside
    · simp only [Function.update_of_ne own] at owned
      exact inv.bound t' owned
  · intro t' due
    simp only [(flags t').2.1,(flags t').2.2]
    exact inv.every t' due
  · intro t' due
    simp only [(flags t').2.1,(flags t').2.2]
    exact inv.exact_ t' due
  · intro t' pending
    simp only [(flags t').2.1,(flags t').2.2]
    exact inv.pending t' pending
  · exact fun t' member => ⟨member,(flags t').2.1⟩

theorem Inv.perform (op : Op) (exact_ : op.Exact c) : Performed c s (s.perform c op) rest (op.settle exempt) := by
  -- a call on a timer that the application does not hold is not made
  have skipped : ∀ t, ¬s.owned t = true → Performed c s s rest (settle exempt t) := by
    intro t free
    rw [inv.settle_unowned (by simpa using free)]
    exact inv.unchanged cursor
  cases op with
  | alloc t =>
    simp only [State.perform,Op.settle]
    split
    · rename_i granted
      exact inv.alloc cursor granted.1 granted.2.1
    · exact inv.unchanged cursor
  | start t toVal =>
    simp only [State.perform,Op.settle]
    split
    · rename_i own
      have done := inv.restart cursor narrow own false toVal toVal s.wheel.modulo (fun none => by cases none)
      rw [exact_.expiry] at done
      have same : { (s.wheel.timerStop t).setCell t false toVal with modulo := s.wheel.modulo } =
          (s.wheel.timerStop t).setCell t false toVal := by
        simp only [Wheel.setCell,← (timerStop_globals s.wheel t).2.1]
      rw [same] at done
      exact done
    · exact skipped t (by assumption)
  | periodicStart t toVal =>
    simp only [State.perform,Op.settle]
    split
    · rename_i own
      have done := inv.restart cursor narrow own true toVal (s.wheel.toValInit c toVal) ((s.wheel.modulo + 1) % 20) fun _ => exact_
      have modulo := (timerStop_globals s.wheel t).2.1
      simp only [Wheel.periodicTimerStart,Wheel.toValInit,Wheel.setCell,modulo] at done ⊢
      exact done
    · exact skipped t (by assumption)
  | stop t =>
    simp only [State.perform,Op.settle]
    split
    · refine ⟨⟨_,_,inv.stop narrow t,inv.rep.cursor_stop cursor narrow t,List.length_erase_le,fun t' member => ?_⟩,rfl⟩
      exact ⟨List.mem_of_mem_erase member,(timerStop_cell s.wheel t t').2.1⟩
    · exact skipped t (by assumption)
  | free t =>
    cases own : s.owned t with
    | true => exact inv.free cursor narrow own
    | false =>
      simp only [State.perform,own,Bool.false_eq_true,if_false,Op.settle]
      exact skipped t (by simp [own])

end Calls

/-- The timer that a call is about. -/
def Op.timer : Op → Nat
  | .alloc t => t
  | .start t _ => t
  | .periodicStart t _ => t
  | .stop t => t
  | .free t => t

/-- What the callback of a timer has done to the timer itself. -/
structure Own where
  touched : Bool
  freed : Bool
  periodFlag : Bool

def Own.next (p : Nat) (o : Own) (op : Op) : Own :=
  if op.timer = p ∧ o.freed = false then
    match op with
    | .alloc _ => o
    | .start _ _ => ⟨true,false,false⟩
    | .periodicStart _ _ => ⟨true,false,true⟩
    | .stop _ => { o with touched := true }
    | .free _ => { o with freed := true }
  else o

/-- A callback frees its timer, leaves it as it is, or leaves it without period. -/
def Own.Fair (o : Own) : Prop := o.freed = true ∨ o.touched = false ∨ o.periodFlag = false

/-- The state in the callback of a timer after some of its calls. -/
structure Tracks (s : State) (p : Nat) (o : Own) (exempt : Option Nat) : Prop where
  process : s.wheel.curCellProcess = some p
  freed : s.wheel.curCellToDelete = if o.freed then some p else none
  owned : s.owned p = !o.freed
  flag : (s.wheel.cell p).periodFlag = o.periodFlag
  exempt : exempt = if o.freed = false ∧ o.touched = false ∧ o.periodFlag = true then some p else none

section Callbacks
variable {p : Nat} {o : Own}

theorem timerInsert_globals (w : Wheel) (t : Nat) (toVal : BitVec 64) : (w.timerInsert c t toVal).curCellProcess = w.curCellProcess ∧
    (w.timerInsert c t toVal).curCellToDelete = w.curCellToDelete ∧ (w.timerInsert c t toVal).pCellNew = w.pCellNew ∧
    ∀ t', ((w.timerInsert c t toVal).cell t').periodFlag = (w.cell t').periodFlag := by
  rw [timerInsert_eq]
  refine ⟨rfl,rfl,rfl,fun t' => ?_⟩
  by_cases own : t' = t
  · simp [own]
  · simp [own]

/-- The pointers of the scan and the flags after a start. -/
theorem restart_globals (w : Wheel) (t : Nat) (periodFlag : Bool) (toVal first : BitVec 64) (modulo : Nat) :
    ({ (w.timerStop t).setCell t periodFlag toVal with modulo := modulo }.timerInsert c t first).curCellProcess = w.curCellProcess ∧
    ({ (w.timerStop t).setCell t periodFlag toVal with modulo := modulo }.timerInsert c t first).curCellToDelete = w.curCellToDelete ∧
    ∀ t', (({ (w.timerStop t).setCell t periodFlag toVal with modulo := modulo }.timerInsert c t first).cell t').periodFlag =
      if t' = t then periodFlag else (w.cell t').periodFlag := by
  have insert := timerInsert_globals (c := c) { (w.timerStop t).setCell t periodFlag toVal with modulo := modulo } t first
  have globals := timerStop_globals w t
  refine ⟨insert.1.trans globals.2.2.2,insert.2.1.trans globals.2.2.1,fun t' => ?_⟩
  rw [insert.2.2.2 t']
  by_cases own : t' = t
  · simp [Wheel.setCell,own]
  · simp only [Wheel.setCell,Function.update_of_ne own,if_neg own]
    exact (timerStop_cell w t t').2.1

theorem Tracks.exempt_cases (tracks : Tracks s p o exempt) : exempt = some p ∨ exempt = none := by
  rw [tracks.exempt]
  split
  · exact .inl rfl
  · exact .inr rfl

/-- The timer is held as long as it was not freed. -/
theorem Tracks.held (tracks : Tracks s p o exempt) (own : s.owned p = true) : o.freed = false := by
  have owned := tracks.owned
  rw [own] at owned
  simpa using owned.symm

theorem Tracks.released (tracks : Tracks s p o exempt) (free : ¬s.owned p = true) : o.freed = true := by
  rw [tracks.owned] at free
  simpa using free

theorem Tracks.settle_own (tracks : Tracks s p o exempt) : settle exempt p = none := by
  rcases tracks.exempt_cases with rfl | rfl
  · simp [settle]
  · rfl

theorem Tracks.settle_other (tracks : Tracks s p o exempt) (other : t ≠ p) : settle exempt t = exempt := by
  rcases tracks.exempt_cases with rfl | rfl
  · exact if_neg fun same => other (Option.some.inj same).symm
  · rfl

/-- A call on a timer that is not held changes nothing. -/
theorem Tracks.skip (tracks : Tracks s p o exempt) (free : ¬s.owned t = true) : settle exempt t = exempt := by
  by_cases own : t = p
  · subst own
    have freed := tracks.released free
    have none := tracks.exempt
    rw [if_neg fun both => by rw [freed] at both; cases both.1] at none
    rw [none]
    rfl
  · exact tracks.settle_other own

theorem Own.next_other (op : Op) (other : op.timer ≠ p) : o.next p op = o := if_neg fun both => other both.1

theorem Own.next_freed (op : Op) (freed : o.freed = true) : o.next p op = o := if_neg fun both => by rw [freed] at both; cases both.2

/-- The flags and pointers after a start of a timer that is held. -/
theorem Tracks.restart (tracks : Tracks s p o exempt) (own : s.owned t = true) (periodFlag : Bool) (toVal first : BitVec 64) (modulo : Nat)
    {due every : Nat → Option Nat} (op : Op) (timer : op.timer = t)
    (next : t = p → o.freed = false → o.next p op = ⟨true,false,periodFlag⟩) :
    Tracks { s with
      wheel := { (s.wheel.timerStop t).setCell t periodFlag toVal with modulo := modulo }.timerInsert c t first
      due := due, every := every } p (o.next p op) (settle exempt t) := by
  obtain ⟨process,delete,flags⟩ := restart_globals (c := c) s.wheel t periodFlag toVal first modulo
  by_cases here : t = p
  · subst here
    have held := tracks.held own
    rw [next rfl held,tracks.settle_own]
    have freed := tracks.freed
    rw [held] at freed
    exact ⟨process.trans tracks.process,delete.trans freed,own,(flags t).trans (if_pos rfl),rfl⟩
  · have other : op.timer ≠ p := by rw [timer]; exact here
    rw [Own.next_other op other,tracks.settle_other here]
    refine ⟨process.trans tracks.process,delete.trans tracks.freed,tracks.owned,?_,tracks.exempt⟩
    exact (flags p).trans ((if_neg (Ne.symm here)).trans tracks.flag)

theorem Tracks.perform (tracks : Tracks s p o exempt) (op : Op) : Tracks (s.perform c op) p (o.next p op) (op.settle exempt) := by
  have skipped : ∀ op : Op, ¬s.owned op.timer = true → o.next p op = o := by
    intro op free
    by_cases own : op.timer = p
    · apply Own.next_freed op
      rw [own] at free
      exact tracks.released free
    · exact Own.next_other op own
  cases op with
  | alloc t =>
    have same : o.next p (.alloc t) = o := by
      unfold Own.next
      split
      · rfl
      · rfl
    simp only [State.perform,Op.settle,same]
    split
    · rename_i granted
      have other : p ≠ t := by
        rintro rfl
        have freed := tracks.released (by rw [granted.2.1]; exact Bool.false_ne_true)
        have delete := tracks.freed
        rw [freed] at delete
        exact granted.2.2 delete
      refine ⟨tracks.process,tracks.freed,?_,?_,tracks.exempt⟩
      · simp only [Function.update_of_ne other]
        exact tracks.owned
      · simp only [Wheel.timerAlloc,Function.update_of_ne other]
        exact tracks.flag
    · exact tracks
  | start t toVal =>
    simp only [State.perform,Op.settle]
    split
    · rename_i own
      exact tracks.restart own false toVal toVal (s.wheel.timerStop t).modulo (.start t toVal) rfl fun here held => if_pos ⟨here,held⟩
    · rename_i free
      rw [skipped (.start t toVal) free,tracks.skip free]
      exact tracks
  | periodicStart t toVal =>
    simp only [State.perform,Op.settle]
    split
    · rename_i own
      exact tracks.restart own true toVal ((s.wheel.timerStop t).toValInit c toVal) (((s.wheel.timerStop t).modulo + 1) % 20)
        (.periodicStart t toVal) rfl fun here held => if_pos ⟨here,held⟩
    · rename_i free
      rw [skipped (.periodicStart t toVal) free,tracks.skip free]
      exact tracks
  | stop t =>
    simp only [State.perform,Op.settle]
    have globals := timerStop_globals s.wheel t
    split
    · rename_i own
      by_cases here : t = p
      · subst here
        have held := tracks.held own
        have next : o.next t (.stop t) = { o with touched := true } := if_pos ⟨rfl,held⟩
        rw [next,tracks.settle_own]
        refine ⟨globals.2.2.2.trans tracks.process,globals.2.2.1.trans tracks.freed,tracks.owned,?_,?_⟩
        · exact (timerStop_cell s.wheel t t).2.1.trans tracks.flag
        · simp
      · rw [Own.next_other (.stop t) here,tracks.settle_other here]
        refine ⟨globals.2.2.2.trans tracks.process,globals.2.2.1.trans tracks.freed,tracks.owned,?_,tracks.exempt⟩
        exact (timerStop_cell s.wheel t p).2.1.trans tracks.flag
    · rename_i free
      rw [skipped (.stop t) free,tracks.skip free]
      exact tracks
  | free t =>
    simp only [State.perform,Op.settle]
    have globals := timerStop_globals s.wheel t
    have process := globals.2.2.2.trans tracks.process
    split
    · rename_i own
      by_cases here : t = p
      · subst here
        have held := tracks.held own
        have next : o.next t (.free t) = { o with freed := true } := if_pos ⟨rfl,held⟩
        rw [next,tracks.settle_own]
        simp only [Wheel.timerFree,process,if_true]
        refine ⟨rfl,by simp,by simp,?_,by simp⟩
        exact (timerStop_cell s.wheel t t).2.1.trans tracks.flag
      · rw [Own.next_other (.free t) here,tracks.settle_other here]
        have running : (s.wheel.timerStop t).curCellProcess ≠ some t := by
          rw [process]
          exact fun same => here (Option.some.inj same).symm
        simp only [Wheel.timerFree,if_neg running]
        refine ⟨process,globals.2.2.1.trans tracks.freed,?_,?_,tracks.exempt⟩
        · simp only [Function.update_of_ne (Ne.symm here)]
          exact tracks.owned
        · exact (timerStop_cell s.wheel t p).2.1.trans tracks.flag
    · rename_i free
      rw [skipped (.free t) free,tracks.skip free]
      exact tracks

/-- The three pointers of the scan do not matter to the invariant. -/
theorem Inv.pointers (inv : Inv c s lists rest exempt) (delete process new : Option Nat) :
    Inv c { s with wheel := { s.wheel with curCellToDelete := delete, curCellProcess := process, pCellNew := new } } lists rest exempt :=
  ⟨inv.rep.congr rfl rfl rfl fun _ => rfl,inv.started,inv.due,inv.owned,inv.bound,inv.every,inv.exact_,inv.fires,inv.pending⟩

/-- A periodic timer that its callback has left alone is inserted again. -/
theorem Inv.reinsert (inv : Inv c s lists rest (some p)) :
    ∃ lists', Inv c { s with wheel := s.wheel.timerInsert c p (s.wheel.cell p).toVal } lists' rest none := by
  obtain ⟨absent,flag,due⟩ := inv.pending p rfl
  have started : s.due p ≠ none := by rw [due]; simp
  have exact_ := inv.exact_ p started flag
  have put := inv.put absent (inv.owned p started) inv.rep (fun _ _ => rfl) rfl (fun _ => exact_) (s.wheel.cell p).toVal
  have same : update s.due p (some (s.tick + expiry c (delta c (s.wheel.cell p).toVal))) = s.due := by
    rw [exact_.expiry,← due,Function.update_eq_self]
  rw [same,← inv.every p started,Function.update_eq_self] at put
  simp only [settle,if_true] at put
  exact ⟨_,put⟩

theorem Inv.finish (inv : Inv c s lists rest exempt) (tracks : Tracks s p o exempt) (fair : o.Fair) :
    (∃ lists', Inv c (s.finish c p) lists' rest none) ∧ (s.finish c p).wheel.pCellNew = s.wheel.pCellNew ∧ (s.finish c p).tick = s.tick ∧
      ∀ t, ((s.finish c p).wheel.cell t).periodFlag = (s.wheel.cell t).periodFlag := by
  have delete := tracks.freed
  have none := tracks.exempt
  simp only [State.finish]
  cases freed : o.freed with
  | true =>
    simp only [freed,if_true,Bool.true_eq_false,false_and,if_false] at delete none
    simp only [delete,Option.isSome_some,if_true]
    subst none
    exact ⟨⟨lists,inv.pointers _ _ _⟩,trivial,trivial,fun _ => trivial⟩
  | false =>
    simp only [freed,Bool.false_eq_true,if_false,true_and] at delete none
    simp only [delete,Option.isSome_none,Bool.false_eq_true,if_false]
    cases flag : o.periodFlag with
    | false =>
      rw [if_neg (by simp [flag])] at none
      subst none
      simp only [tracks.flag,flag,Bool.false_eq_true,if_false]
      exact ⟨⟨lists,inv.pointers _ _ _⟩,trivial,trivial,fun _ => trivial⟩
    | true =>
      have alone : o.touched = false := by
        rcases fair with freed' | alone | flag'
        · rw [freed] at freed'
          cases freed'
        · exact alone
        · rw [flag] at flag'
          cases flag'
      rw [if_pos ⟨alone,flag⟩] at none
      subst none
      simp only [tracks.flag,flag,if_true]
      obtain ⟨lists',again⟩ := inv.reinsert
      have globals := timerInsert_globals (c := c) s.wheel p (s.wheel.cell p).toVal
      exact ⟨⟨lists',again.pointers _ _ _⟩,globals.2.2.1,trivial,globals.2.2.2⟩

/-- The calls of a callback, and its end. -/
theorem Inv.callback (inv : Inv c s lists rest exempt) (cursor : s.wheel.pCellNew = rest.head?) (narrow : c.slotSize ≤ xNil)
    (tracks : Tracks s p o exempt) {ops : List Op} (exact_ : ∀ op ∈ ops, op.Exact c) (fair : (ops.foldl (Own.next p) o).Fair) :
    Performed c s ((ops.foldl (State.perform c) s).finish c p) rest none := by
  induction ops generalizing s lists rest exempt o with
  | nil =>
    obtain ⟨⟨lists',done⟩,next,tick,flags⟩ := inv.finish tracks fair
    exact ⟨⟨lists',rest,done,next.trans cursor,Nat.le_refl _,fun t member => ⟨member,flags t⟩⟩,tick⟩
  | cons op ops ih =>
    simp only [List.mem_cons,forall_eq_or_imp] at exact_
    obtain ⟨⟨lists₁,rest₁,inv₁,cursor₁,short₁,kept₁⟩,tick₁⟩ := inv.perform cursor narrow op exact_.1
    obtain ⟨⟨lists₂,rest₂,inv₂,cursor₂,short₂,kept₂⟩,tick₂⟩ := ih inv₁ cursor₁ (tracks.perform op) exact_.2 fair
    refine ⟨⟨lists₂,rest₂,inv₂,cursor₂,Nat.le_trans short₂ short₁,fun t member => ?_⟩,tick₂.trans tick₁⟩
    obtain ⟨member₁,flag₂⟩ := kept₂ t member
    obtain ⟨member,flag₁⟩ := kept₁ t member₁
    exact ⟨member,flag₂.trans flag₁⟩

end Callbacks

section Scan
variable {p : Nat}

/-- The scan passes a timer. -/
theorem Rep.pass {w : Wheel} (rep : Rep c w lists (p :: rest)) : Rep c { w with pCellNew := w.links.next p } lists rest := by
  obtain ⟨done,scanned⟩ := rep.scanned
  exact ⟨rep.table,rep.slot,rep.off,rep.hand,done ++ [p],by simpa using scanned⟩

/-- A timer without laps left expires: it leaves the wheel and its callback starts. -/
theorem Inv.expire (inv : Inv c s lists (p :: rest) none) (narrow : c.slotSize ≤ xNil) (laps : (s.wheel.cell p).toModNb = 0) :
    let s' := { s with wheel := { s.wheel with pCellNew := s.wheel.links.next p }.timerStop p }.fire p
    Inv c s' (without lists p) rest (if (s.wheel.cell p).periodFlag then some p else none) ∧
      s'.wheel.pCellNew = rest.head? ∧
      Tracks s' p ⟨false,false,(s.wheel.cell p).periodFlag⟩ (if (s.wheel.cell p).periodFlag then some p else none) ∧
      ∀ t, (s'.wheel.cell t).periodFlag = (s.wheel.cell t).periodFlag := by
  have pass := inv.rep.pass
  have fresh : p ∉ rest := (List.nodup_cons.mp inv.rep.rest_nodup).1
  have stopped := pass.stop narrow p
  rw [List.erase_of_not_mem fresh] at stopped
  have member := inv.rep.mem_hand List.mem_cons_self
  have started : s.due p ≠ none := (inv.started p (by simp)).mp ⟨_,member⟩
  have now : s.due p = some s.tick := by
    have due := inv.due _ p member
    simp only [Due,List.mem_cons_self,if_true,laps,Nat.zero_mul,Nat.add_zero] at due
    exact due
  have period := inv.every p started
  have cells := timerStop_cell { s.wheel with pCellNew := s.wheel.links.next p } p
  have globals := timerStop_globals { s.wheel with pCellNew := s.wheel.links.next p } p
  have cursor := pass.cursor_stop inv.rep.next narrow p
  rw [List.erase_of_not_mem fresh] at cursor
  have others : ∀ t, t ≠ p → update s.due p ((s.every p).map (s.tick + ·)) t = s.due t := fun t other => Function.update_of_ne other _ _
  have before : ∀ t, update s.due p ((s.every p).map (s.tick + ·)) t ≠ none → s.due t ≠ none := by
    intro t due
    by_cases own : t = p
    · rw [own]
      exact started
    · rw [others t own] at due
      exact due
  refine ⟨⟨stopped.congr rfl rfl rfl fun _ => rfl,?_,?_,?_,inv.bound,?_,?_,?_,?_⟩,cursor,⟨rfl,rfl,inv.owned p started,(cells p).2.1,?_⟩,
    fun t => (cells t).2.1⟩
  · intro t settled
    simp only [State.fire,mem_without inv.rep.table.nodup]
    by_cases own : t = p
    · subst own
      have flag : (s.wheel.cell t).periodFlag = false := by
        cases flag : (s.wheel.cell t).periodFlag with
        | false => rfl
        | true => simp [flag] at settled
      simp [period,flag]
    · simp only [others t own,own,ne_eq,not_false_eq_true,true_and]
      exact inv.started t (by simp)
  · intro x t there
    obtain ⟨other,there⟩ := (mem_without inv.rep.table.nodup x t).mp there
    refine (inv.due x t there).congr ?_ (others t other) rfl globals.1 (cells t).1
    simp [other]
  · exact fun t due => inv.owned t (before t due)
  · intro t due
    simp only [State.fire,(cells t).2.1,(cells t).2.2]
    exact inv.every t (before t due)
  · intro t due
    simp only [State.fire,(cells t).2.1,(cells t).2.2]
    exact inv.exact_ t (before t due)
  · intro f there
    simp only [State.fire,List.mem_append,List.mem_singleton] at there
    rcases there with old | rfl
    · exact inv.fires f old
    · exact now
  · intro t pending
    split at pending
    · rename_i flag
      cases pending
      simp only [State.fire,(cells p).2.1,(cells p).2.2,Function.update_self,period,flag,if_true,Option.map_some]
      exact ⟨fun x there => ((mem_without inv.rep.table.nodup x p).mp there).1 rfl,trivial,trivial⟩
    · cases pending
  · simp

/-- A timer with laps left loses one. -/
theorem Inv.lap (inv : Inv c s lists (p :: rest) none) (laps : (s.wheel.cell p).toModNb ≠ 0) :
    Inv c { s with wheel := { s.wheel with
        pCellNew := s.wheel.links.next p
        cell := update s.wheel.cell p { s.wheel.cell p with toModNb := (s.wheel.cell p).toModNb - 1 } } } lists rest none := by
  have fresh : p ∉ rest := (List.nodup_cons.mp inv.rep.rest_nodup).1
  have same : ∀ t, (update s.wheel.cell p { s.wheel.cell p with toModNb := (s.wheel.cell p).toModNb - 1 } t).xHead = (s.wheel.cell t).xHead ∧
      (update s.wheel.cell p { s.wheel.cell p with toModNb := (s.wheel.cell p).toModNb - 1 } t).periodFlag = (s.wheel.cell t).periodFlag ∧
      (update s.wheel.cell p { s.wheel.cell p with toModNb := (s.wheel.cell p).toModNb - 1 } t).toVal = (s.wheel.cell t).toVal := by
    intro t
    by_cases own : t = p
    · subst own
      simp
    · simp [own]
  refine ⟨inv.rep.pass.congr rfl rfl rfl fun t => (same t).1,inv.started,?_,inv.owned,inv.bound,?_,?_,inv.fires,fun t none => by cases none⟩
  · intro x t there
    by_cases own : t = p
    · subst own
      have hand : s.wheel.handClock = x := inv.rep.table.single _ _ t (inv.rep.mem_hand List.mem_cons_self) there
      have due := inv.due x t there
      simp only [Due,List.mem_cons_self,if_true] at due
      simp only [Due,if_neg fresh,Function.update_self]
      refine ⟨c.slotSize,slotSize_pos c,Nat.le_refl _,?_,?_⟩
      · rw [Nat.add_mod_right,Nat.mod_eq_of_lt inv.rep.hand,hand]
      · -- one lap is the size of the wheel
        obtain ⟨n,more⟩ := Nat.exists_eq_succ_of_ne_zero laps
        rw [due,more,Nat.succ_sub_one,Nat.succ_mul]
        congr 1
        omega
    · refine (inv.due x t there).congr ?_ rfl rfl rfl (by simp only [Function.update_of_ne own])
      simp [own]
  · intro t due
    simp only [(same t).2.1,(same t).2.2]
    exact inv.every t due
  · intro t due
    simp only [(same t).2.1,(same t).2.2]
    exact inv.exact_ t due

/-- The condition on the callbacks of a tick: the values they start timers with are counted right,
and none of them stops or starts its own timer and leaves it periodic. -/
def FairScript (c : Config) (script : Nat → List Op) (periodFlag : Nat → Bool) : Prop :=
  ∀ t < c.timers, (∀ op ∈ script t, op.Exact c) ∧ ((script t).foldl (Own.next t) ⟨false,false,periodFlag t⟩).Fair

theorem Inv.scan {script : Nat → List Op} {periodFlag : Nat → Bool} (narrow : c.slotSize ≤ xNil) (fair : FairScript c script periodFlag)
    {fuel : Nat} (inv : Inv c s lists rest none) (enough : rest.length ≤ fuel) (flags : ∀ t ∈ rest, (s.wheel.cell t).periodFlag = periodFlag t) :
    ∃ s' lists', s.scan c script fuel rest.head? = some s' ∧ Inv c s' lists' [] none ∧ s'.tick = s.tick := by
  -- on the number of timers left to scan, which calls can only lower
  induction fuel generalizing s lists rest with
  | zero =>
    cases List.eq_nil_of_length_eq_zero (Nat.le_zero.mp enough)
    exact ⟨s,lists,rfl,inv,rfl⟩
  | succ fuel ih =>
    cases rest with
    | nil => exact ⟨s,lists,rfl,inv,rfl⟩
    | cons p rest =>
      have enough' : rest.length ≤ fuel := by
        simp only [List.length_cons] at enough
        omega
      have started : s.due p ≠ none := (inv.started p (by simp)).mp ⟨_,inv.rep.mem_hand List.mem_cons_self⟩
      have inside := inv.bound p (inv.owned p started)
      by_cases laps : (s.wheel.cell p).toModNb = 0
      · obtain ⟨expired,cursor,tracks,same⟩ := inv.expire narrow laps
        have flag : (s.wheel.cell p).periodFlag = periodFlag p := flags p List.mem_cons_self
        have ends := (fair p inside).2
        rw [← flag] at ends
        obtain ⟨⟨lists',rest',after,next,short,kept⟩,tick⟩ := expired.callback cursor narrow tracks (fair p inside).1 ends
        obtain ⟨s',lists'',done,final,tick'⟩ := ih after (Nat.le_trans short enough') fun t member => by
          obtain ⟨there,flag⟩ := kept t member
          rw [flag,same t]
          exact flags t (List.mem_cons_of_mem _ there)
        refine ⟨s',lists'',?_,final,tick'.trans tick⟩
        rw [← done,← next]
        simp only [List.head?_cons,State.scan,laps,if_true]
      · have passed := inv.lap laps
        have next := inv.rep.next
        obtain ⟨s',lists',done,final,tick⟩ := ih passed enough' fun t member => by
          have other : t ≠ p := fun own => (List.nodup_cons.mp inv.rep.rest_nodup).1 (own ▸ member)
          simp only [Function.update_of_ne other]
          exact flags t (List.mem_cons_of_mem _ member)
        refine ⟨s',lists',?_,final,tick⟩
        rw [← done,← next]
        simp only [List.head?_cons,State.scan,laps,if_false]

theorem one_of_mod {hand d size : Nat} (two : 2 ≤ size) (most : d ≤ size) (same : (hand + d) % size = (hand + 1) % size) :
    d = 1 := by
  have cancel : d % size = 1 % size := Nat.ModEq.add_left_cancel' hand same
  rw [Nat.mod_eq_of_lt (show 1 < size by omega)] at cancel
  rcases Nat.lt_or_eq_of_le most with below | full
  · rw [Nat.mod_eq_of_lt below] at cancel
    exact cancel
  · rw [full,Nat.mod_self] at cancel
    omega

theorem two_le_slotSize (c : Config) : 2 ≤ c.slotSize := by
  have step : 2 ^ 1 ≤ 2 ^ c.slotSize2n := Nat.pow_le_pow_right (by decide) c.wide
  exact step

/-- The hand moves to the next slot, and the timers of that slot are to be scanned. -/
theorem Inv.advance (inv : Inv c s lists [] none) {hand : Nat} (next : hand = (s.wheel.handClock + 1) % c.slotSize) :
    Inv c { s with wheel := { s.wheel with handClock := hand }, tick := s.tick + 1 } lists (lists hand) none := by
  have below : hand < c.slotSize := by
    rw [next]
    exact Nat.mod_lt _ (slotSize_pos c)
  refine ⟨⟨inv.rep.table,inv.rep.slot,inv.rep.off,below,[],rfl⟩,inv.started,?_,inv.owned,inv.bound,inv.every,inv.exact_,inv.fires,
    fun t none => by cases none⟩
  intro x t member
  obtain ⟨d,positive,most,place,due⟩ : ∃ d, 1 ≤ d ∧ d ≤ c.slotSize ∧ x = (s.wheel.handClock + d) % c.slotSize ∧
      s.due t = some (s.tick + d + (s.wheel.cell t).toModNb * c.slotSize) := by
    have due := inv.due x t member
    simpa only [Due,List.not_mem_nil,if_false] using due
  simp only [Due]
  split
  · rename_i there
    have here : x = hand := inv.rep.table.single x hand t member there
    have one := one_of_mod (two_le_slotSize c) most (place.symm.trans (here.trans next))
    rw [due,one]
  · rename_i elsewhere
    have more : d ≠ 1 := by
      rintro rfl
      exact elsewhere (next ▸ place ▸ member)
    refine ⟨d - 1,by omega,by omega,?_,?_⟩
    · rw [place,next,Nat.mod_add_mod]
      congr 1
      omega
    · rw [due]
      congr 1
      omega

theorem Inv.process {script : Nat → List Op} (narrow : c.slotSize ≤ xNil) (inv : Inv c s lists [] none)
    (fair : FairScript c script fun t => (s.wheel.cell t).periodFlag) :
    ∃ s' lists', s.process c script = some s' ∧ Inv c s' lists' [] none ∧ s'.wheel.pCellNew = none := by
  have hand : (if s.wheel.handClock + 1 = c.slotSize then 0 else s.wheel.handClock + 1) = (s.wheel.handClock + 1) % c.slotSize := by
    have below := inv.rep.hand
    split
    · rename_i full
      rw [full,Nat.mod_self]
    · rw [Nat.mod_eq_of_lt (by omega)]
  obtain ⟨next,here⟩ : ∃ next, next = if s.wheel.handClock + 1 = c.slotSize then 0 else s.wheel.handClock + 1 := ⟨_,rfl⟩
  have moved := (inv.advance (here.trans hand)).pointers none none none
  have enough : (lists next).length ≤ c.timers + 1 := by
    have below : ∀ t ∈ lists next, t ∈ List.range c.timers := by
      intro t member
      exact List.mem_range.mpr (inv.bound t (inv.owned t ((inv.started t (by simp)).mp ⟨next,member⟩)))
    have few := ((inv.rep.table.nodup next).subperm below).length_le
    rw [List.length_range] at few
    omega
  obtain ⟨s',lists',done,final,_⟩ := moved.scan narrow fair enough fun _ _ => rfl
  refine ⟨{ s' with wheel := { s'.wheel with pCellNew := none } },lists',?_,final.pointers _ _ _,rfl⟩
  rw [← inv.rep.table.heads next] at done
  simp only [State.process,← here,done,Option.map_some]

end Scan

section Runs

/-- The condition on a step. -/
def Fit (c : Config) (s : State) : Action → Prop
  | .op op => op.Exact c
  | .tick script => FairScript c script fun t => (s.wheel.cell t).periodFlag

instance (o : Own) : Decidable o.Fair := inferInstanceAs (Decidable (_ ∨ _))

instance (s : State) : (a : Action) → Decidable (Fit c s a)
  | .op op => inferInstanceAs (Decidable (op.Exact c))
  | .tick _ => inferInstanceAs (Decidable (∀ t < c.timers, _ ∧ _))

theorem inv_initial (c : Config) : Inv c initial (fun _ => []) [] none := by
  refine ⟨⟨⟨fun _ => rfl,fun _ => trivial,fun _ => List.nodup_nil,fun _ _ _ none => ?_⟩,fun _ _ none => ?_,fun _ _ => rfl,slotSize_pos c,[],rfl⟩,
    fun t _ => ?_,fun _ _ none => ?_,fun _ due => absurd rfl due,fun _ none => ?_,fun _ due => absurd rfl due,fun _ due => absurd rfl due,
    fun _ none => ?_,fun _ none => ?_⟩
  · cases none
  · cases none
  · simp [initial]
  · cases none
  · cases none
  · cases none
  · cases none

/-- Between the ticks the wheel is sound and no scan is on. -/
def Quiet (c : Config) (s : State) : Prop := (∃ lists, Inv c s lists [] none) ∧ s.wheel.pCellNew = none

theorem Quiet.step {a : Action} (narrow : c.slotSize ≤ xNil) (quiet : Quiet c s) (fit : Fit c s a) (stepped : step c a s = some s') : Quiet c s' := by
  obtain ⟨⟨lists,inv⟩,cursor⟩ := quiet
  cases a with
  | op op =>
    cases stepped
    obtain ⟨⟨lists',rest',after,next,short,_⟩,_⟩ := inv.perform cursor narrow op fit
    cases List.eq_nil_of_length_eq_zero (Nat.le_zero.mp short)
    have settled : op.settle none = none := by cases op <;> rfl
    rw [settled] at after
    exact ⟨⟨lists',after⟩,next⟩
  | tick script =>
    obtain ⟨s'',lists',done,after,next⟩ := inv.process narrow fit
    cases done.symm.trans stepped
    exact ⟨⟨lists',after⟩,next⟩

/-- In every run whose steps all meet the condition, on a wheel of at most 2^14 slots: a callback is
called at the tick at which its timer is due; no timer is due at a tick that is over; the timers
that are due are those on the slot lists, each on one of them; and every tick comes to its end. -/
theorem timers_fire_when_due (narrow : c.slotSize ≤ xNil) (run : Machine.Run (step c) (Fit c) initial s) :
    (∀ f ∈ s.fires, f.due = some f.tick) ∧
    (∀ t n, s.due t = some n → s.tick < n) ∧
    (∃ lists, SlotLists.Table s.wheel.links s.wheel.headFirst lists ∧
      ∀ t, s.due t ≠ none ↔ ∃ x < c.slotSize, t ∈ lists x ∧ (s.wheel.cell t).xHead = x) ∧
    (∀ script, Fit c s (.tick script) → ∃ s', step c (.tick script) s = some s') := by
  have quiet : Quiet c s := run.invariant (Quiet c) ⟨⟨_,inv_initial c⟩,rfl⟩ fun _ _ _ quiet fit stepped => quiet.step narrow fit stepped
  obtain ⟨⟨lists,inv⟩,_⟩ := quiet
  refine ⟨inv.fires,fun t n due => ?_,⟨lists,inv.rep.table,fun t => ?_⟩,fun script fit => ?_⟩
  · obtain ⟨x,member⟩ := (inv.started t (by simp)).mpr (by rw [due]; simp)
    have time := inv.due x t member
    simp only [Due,List.not_mem_nil,if_false] at time
    obtain ⟨d,positive,_,_,time⟩ := time
    cases due.symm.trans time
    omega
  · rw [← inv.started t (by simp)]
    constructor
    · rintro ⟨x,member⟩
      have slot := inv.rep.slot x t member
      exact ⟨x,slot.2,member,slot.1⟩
    · rintro ⟨x,_,member,_⟩
      exact ⟨x,member⟩
  · obtain ⟨s',_,done,_,_⟩ := inv.process narrow fit
    exact ⟨s',done⟩

/-- A wheel of two slots with ticks of 10. -/
def twoSlots : Config := ⟨1,10,2,by decide,by decide⟩

/-- Nothing happens in the callbacks of a tick. -/
def quietTick : Action := .tick fun _ => []

theorem timers_fire_when_due_twoSlots :
    ∃ s, Machine.Run (step twoSlots) (Fit twoSlots) initial s ∧ s.fires = [⟨0,3,some 3⟩,⟨1,3,some 3⟩] ∧ ∀ f ∈ s.fires, f.due = some f.tick := by
  have values : (Machine.exec (step twoSlots) (Fit twoSlots) [.op (.alloc 0),.op (.alloc 1),.op (.periodicStart 1 20),.op (.start 0 30),
      quietTick,quietTick,.tick fun t => if t = 1 then [.start 1 20,.free 0] else []] initial).map (·.fires) =
        some [⟨0,3,some 3⟩,⟨1,3,some 3⟩] := by decide +kernel
  obtain ⟨s,done,fires⟩ := Option.map_eq_some_iff.mp values
  have run : Machine.Run (step twoSlots) (Fit twoSlots) initial s := Machine.Run.refl.exec done
  exact ⟨s,run,fires,(timers_fire_when_due (by decide) run).1⟩

/-- A delay of four ticks on two slots takes six. -/
theorem late_by_a_lap :
    ¬∀ s, Machine.Run (step twoSlots) (fun _ _ => True) initial s → ∀ t n, s.due t = some n → s.tick < n := by
  intro claim
  have values : (Machine.exec (step twoSlots) (fun _ _ => True) [.op (.alloc 0),.op (.start 0 40),quietTick,quietTick,quietTick,quietTick]
      initial).map (fun s => (s.tick,s.due 0)) = some (4,some 4) := by decide +kernel
  obtain ⟨s,done,value⟩ := Option.map_eq_some_iff.mp values
  have run : Machine.Run (step twoSlots) (fun _ _ => True) initial s := Machine.Run.refl.exec done
  rw [Prod.mk.injEq] at value
  have later := claim s run 0 4 value.2
  rw [value.1] at later
  omega

end Runs

end Rozofs.TimerWheel
