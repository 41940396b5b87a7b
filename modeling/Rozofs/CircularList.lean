import Mathlib.Logic.Function.Basic
import Mathlib.Data.List.Basic
import Mathlib.Data.List.Chain
import Mathlib.Data.List.Nodup

/-! Circular doubly linked lists whose links are stored in the elements. One element of a list
is its head and carries no data. -/
namespace CircularList
open Function (update)

structure Links (α : Type) where
  next : α → α
  prev : α → α

section Operations
variable {α : Type} [DecidableEq α]

def Links.setNext (l : Links α) (a b : α) : Links α := { l with next := update l.next a b }

def Links.setPrev (l : Links α) (a b : α) : Links α := { l with prev := update l.prev a b }

def Links.init (l : Links α) (a : α) : Links α := (l.setNext a a).setPrev a a

def Links.insert (l : Links α) (new before after : α) : Links α :=
  (((l.setPrev after new).setNext new after).setPrev new before).setNext before new

def Links.pushBack (l : Links α) (head new : α) : Links α := l.insert new (l.prev head) head

def Links.pushFront (l : Links α) (head new : α) : Links α := l.insert new head (l.next head)

def Links.remove (l : Links α) (a : α) : Links α :=
  let l := l.setPrev (l.next a) (l.prev a)
  let l := l.setNext (l.prev a) (l.next a)
  l.init a

def Links.isEmpty (l : Links α) (head : α) : Bool := l.next head = head

/-- The elements of `source`, which has some, go to the end of `target`. -/
def Links.moveNocheck (l : Links α) (target source : α) : Links α :=
  let l := l.setNext (l.prev target) (l.next source)
  let l := l.setPrev (l.next source) (l.prev target)
  let l := l.setNext (l.prev source) target
  let l := l.setPrev target (l.prev source)
  l.init source

def Links.move (l : Links α) (target source : α) : Links α :=
  if l.isEmpty source then l else l.moveNocheck target source

@[simp] theorem setNext_next (l : Links α) (a b : α) : (l.setNext a b).next = update l.next a b := rfl

@[simp] theorem setNext_prev (l : Links α) (a b : α) : (l.setNext a b).prev = l.prev := rfl

@[simp] theorem setPrev_next (l : Links α) (a b : α) : (l.setPrev a b).next = l.next := rfl

@[simp] theorem setPrev_prev (l : Links α) (a b : α) : (l.setPrev a b).prev = update l.prev a b := rfl

end Operations

section Rings
variable {α : Type} {l l' : Links α}

def Linked (l : Links α) (a b : α) : Prop := l.next a = b ∧ l.prev b = a

/-- The elements of the list of `head` are `xs`, in that order, in both directions. -/
structure Ring (l : Links α) (head : α) (xs : List α) : Prop where
  chain : List.IsChain (Linked l) (head :: xs)
  close : Linked l ((head :: xs).getLast (List.cons_ne_nil _ _)) head
  nodup : (head :: xs).Nodup

/-- The two links of an element are as before. -/
def Same (l l' : Links α) (a : α) : Prop := l'.next a = l.next a ∧ l'.prev a = l.prev a

/-- A chain does not read the next link of its last element nor the previous link of its first. -/
theorem chain_frame (chain : List.IsChain (Linked l) (a :: xs)) (nodup : (a :: xs).Nodup)
    (next : ∀ x ∈ a :: xs, x ≠ (a :: xs).getLast (List.cons_ne_nil _ _) → l'.next x = l.next x)
    (prev : ∀ x ∈ xs, l'.prev x = l.prev x) : List.IsChain (Linked l') (a :: xs) := by
  induction xs generalizing a with
  | nil => exact .singleton _
  | cons x rest ih =>
    obtain ⟨link,chain⟩ := List.isChain_cons_cons.mp chain
    obtain ⟨absent,nodup⟩ := List.nodup_cons.mp nodup
    have middle : a ≠ (a :: x :: rest).getLast (List.cons_ne_nil _ _) := by
      intro same
      apply absent
      rw [same,List.getLast_cons (List.cons_ne_nil _ _)]
      exact List.getLast_mem _
    refine .cons_cons ⟨?_,?_⟩ (ih chain nodup (fun y member other => ?_) fun y member => ?_)
    · rw [next a List.mem_cons_self middle]
      exact link.1
    · rw [prev x List.mem_cons_self]
      exact link.2
    · apply next y (List.mem_cons_of_mem _ member)
      rwa [List.getLast_cons (List.cons_ne_nil _ _)]
    · exact prev y (List.mem_cons_of_mem _ member)

theorem Ring.frame (ring : Ring l head xs) (same : ∀ x ∈ head :: xs, Same l l' x) : Ring l' head xs := by
  refine ⟨chain_frame ring.chain ring.nodup (fun x member _ => (same x member).1)
    (fun x member => (same x (List.mem_cons_of_mem _ member)).2),⟨?_,?_⟩,ring.nodup⟩
  · rw [(same _ (List.getLast_mem _)).1]
    exact ring.close.1
  · rw [(same head List.mem_cons_self).2]
    exact ring.close.2

theorem Ring.prev_head (ring : Ring l head xs) : l.prev head = (head :: xs).getLast (List.cons_ne_nil _ _) :=
  ring.close.2

theorem Ring.prev_mem (ring : Ring l head xs) : l.prev head ∈ head :: xs := by
  rw [ring.prev_head]
  exact List.getLast_mem _

theorem Ring.next_first (ring : Ring l head (x :: xs)) : l.next head = x :=
  (List.isChain_cons_cons.mp ring.chain).1.1

theorem Ring.next_alone (ring : Ring l head []) : l.next head = head := ring.close.1

/-- The elements up to the head are those that the next links give. -/
theorem elements_unique {a : α} {xs ys : List α} (first : List.IsChain (Linked l) (a :: xs)) (second : List.IsChain (Linked l) (a :: ys))
    (closed : l.next ((a :: xs).getLast (List.cons_ne_nil _ _)) = head) (closed' : l.next ((a :: ys).getLast (List.cons_ne_nil _ _)) = head)
    (absent : head ∉ xs) (absent' : head ∉ ys) : xs = ys := by
  induction xs generalizing a ys with
  | nil =>
    cases ys with
    | nil => rfl
    | cons y ys =>
      have link := (List.isChain_cons_cons.mp second).1.1
      exact absurd (link.symm.trans closed ▸ List.mem_cons_self) absent'
  | cons x xs ih =>
    obtain ⟨link,first⟩ := List.isChain_cons_cons.mp first
    cases ys with
    | nil => exact absurd (link.1.symm.trans closed' ▸ List.mem_cons_self) absent
    | cons y ys =>
      obtain ⟨link',second⟩ := List.isChain_cons_cons.mp second
      have same : x = y := link.1.symm.trans link'.1
      subst same
      rw [List.getLast_cons (List.cons_ne_nil _ _)] at closed closed'
      rw [ih first second closed closed' (fun member => absent (List.mem_cons_of_mem _ member)) fun member => absent' (List.mem_cons_of_mem _ member)]

theorem Ring.unique {ys : List α} (first : Ring l head xs) (second : Ring l head ys) : xs = ys :=
  elements_unique first.chain second.chain first.close.1 second.close.1 (List.nodup_cons.mp first.nodup).1 (List.nodup_cons.mp second.nodup).1

/-- The next link of an element of a list leads to another element. -/
theorem Ring.next_ne {a : α} (ring : Ring l head xs) (member : a ∈ xs) : l.next a ≠ a := by
  obtain ⟨before,after,rfl⟩ := List.append_of_mem member
  have nodup := ring.nodup
  intro same
  cases after with
  | nil =>
    have close := ring.close.1
    simp only [← List.cons_append,List.getLast_append_singleton,same] at close
    exact (List.nodup_cons.mp nodup).1 (close ▸ List.mem_append_right _ List.mem_cons_self)
  | cons b after =>
    have chain := (List.isChain_append.mp (List.cons_append ▸ ring.chain)).2.1
    have next : b = a := (List.isChain_cons_cons.mp chain).1.1.symm.trans same
    subst next
    have tail := (List.nodup_append.mp (List.nodup_cons.mp nodup).2).2.1
    exact (List.nodup_cons.mp tail).1 List.mem_cons_self

variable [DecidableEq α]

theorem Ring.isEmpty (ring : Ring l head xs) : l.isEmpty head = xs.isEmpty := by
  cases xs with
  | nil => simpa [Links.isEmpty] using ring.next_alone
  | cons x rest =>
    have other : x ≠ head := fun same => (List.nodup_cons.mp ring.nodup).1 (same ▸ List.mem_cons_self)
    simpa [Links.isEmpty,ring.next_first] using other

theorem ring_init (l : Links α) (a : α) : Ring (l.init a) a [] :=
  ⟨.singleton _,by simp [Linked,Links.init],List.nodup_singleton _⟩

theorem init_same (other : x ≠ a) : Same l (l.init a) x := by
  simp [Same,Links.init,other]

theorem pushBack_same (ring : Ring l head xs) (other : x ≠ new) (outside : x ∉ head :: xs) :
    Same l (l.pushBack head new) x := by
  have notHead : x ≠ head := fun same => outside (same ▸ List.mem_cons_self)
  have notLast : x ≠ l.prev head := fun same => outside (same ▸ ring.prev_mem)
  simp [Same,Links.pushBack,Links.insert,other,notHead,notLast]

theorem Ring.pushBack (ring : Ring l head xs) (fresh : new ∉ head :: xs) :
    Ring (l.pushBack head new) head (xs ++ [new]) := by
  have notHead : head ≠ new := fun same => fresh (same ▸ List.mem_cons_self)
  have notLast : l.prev head ≠ new := fun same => fresh (same ▸ ring.prev_mem)
  have last := ring.prev_head
  have old : List.IsChain (Linked (l.pushBack head new)) (head :: xs) := by
    refine chain_frame ring.chain ring.nodup (fun x member other => ?_) fun x member => ?_
    · have old : x ≠ new := fun same => fresh (same ▸ member)
      simp [Links.pushBack,Links.insert,last,other,old]
    · have old : x ≠ new := fun same => fresh (same ▸ List.mem_cons_of_mem _ member)
      have inner : x ≠ head := fun same => (List.nodup_cons.mp ring.nodup).1 (same ▸ member)
      simp [Links.pushBack,Links.insert,inner,old]
  refine ⟨?_,?_,?_⟩
  · rw [← List.cons_append]
    refine List.isChain_append.mpr ⟨old,.singleton _,fun x atEnd y atStart => ?_⟩
    have isLast : x = l.prev head := by
      rw [last]
      exact Option.some.inj (atEnd.symm.trans (List.getLast?_eq_some_getLast _))
    cases atStart
    subst isLast
    constructor <;> simp [Links.pushBack,Links.insert]
  · simp [Linked,Links.pushBack,Links.insert,notHead,Ne.symm notLast]
  · rw [← List.cons_append]
    exact ring.nodup.append (List.nodup_singleton _) (by simpa using fresh)

omit [DecidableEq α] in
theorem Ring.next_mem (ring : Ring l head xs) : l.next head ∈ head :: xs := by
  cases xs with
  | nil =>
    rw [ring.next_alone]
    exact List.mem_cons_self
  | cons x rest =>
    rw [ring.next_first]
    exact List.mem_cons_of_mem _ List.mem_cons_self

theorem pushFront_same (ring : Ring l head xs) (other : x ≠ new) (outside : x ∉ head :: xs) :
    Same l (l.pushFront head new) x := by
  have notHead : x ≠ head := fun same => outside (same ▸ List.mem_cons_self)
  have notFirst : x ≠ l.next head := fun same => outside (same ▸ ring.next_mem)
  simp [Same,Links.pushFront,Links.insert,other,notHead,notFirst]

theorem Ring.pushFront (ring : Ring l head xs) (fresh : new ∉ head :: xs) : Ring (l.pushFront head new) head (new :: xs) := by
  have notHead : head ≠ new := fun same => fresh (same ▸ List.mem_cons_self)
  have nodup : (head :: new :: xs).Nodup := by
    have inner := List.nodup_cons.mp ring.nodup
    simp only [List.mem_cons,not_or] at fresh
    simp only [List.nodup_cons,List.mem_cons,not_or]
    exact ⟨⟨notHead,inner.1⟩,fresh.2,inner.2⟩
  cases xs with
  | nil =>
    have alone := ring.next_alone
    refine ⟨.cons_cons ⟨?_,?_⟩ (.singleton _),?_,nodup⟩
    · simp [Links.pushFront,Links.insert]
    · simp [Links.pushFront,Links.insert]
    · simp [Linked,Links.pushFront,Links.insert,alone,notHead,Ne.symm notHead]
  | cons x rest =>
    have first := ring.next_first
    have apart := List.nodup_cons.mp ring.nodup
    have inner := List.nodup_cons.mp apart.2
    have away : ∀ y ∈ x :: rest, y ≠ new ∧ y ≠ head := fun y member =>
      ⟨fun same => fresh (List.mem_cons_of_mem _ (same ▸ member)),fun same => apart.1 (same ▸ member)⟩
    have here := away x List.mem_cons_self
    have close := ring.close
    rw [List.getLast_cons (List.cons_ne_nil _ _)] at close
    refine ⟨.cons_cons ⟨?_,?_⟩ (.cons_cons ⟨?_,?_⟩ (chain_frame (List.isChain_cons_cons.mp ring.chain).2 apart.2 (fun y member _ => ?_)
      fun y member => ?_)),?_,nodup⟩
    · simp [Links.pushFront,Links.insert]
    · simp [Links.pushFront,Links.insert]
    · simp [Links.pushFront,Links.insert,first,Ne.symm notHead]
    · simp [Links.pushFront,Links.insert,first,here.1]
    · simp [Links.pushFront,Links.insert,away y member]
    · have notFirst : y ≠ x := fun same => inner.1 (same ▸ member)
      simp [Links.pushFront,Links.insert,first,away y (List.mem_cons_of_mem _ member),notFirst]
    · rw [List.getLast_cons (List.cons_ne_nil _ _),List.getLast_cons (List.cons_ne_nil _ _)]
      have last := away _ (List.getLast_mem (List.cons_ne_nil x rest))
      constructor
      · simpa [Links.pushFront,Links.insert,last] using close.1
      · simpa [Links.pushFront,Links.insert,first,notHead,Ne.symm here.2] using close.2

/-- The links after the removal of the first element. -/
theorem remove_first (ring : Ring l head (x :: xs)) :
    l.remove x = ((l.setPrev (l.next x) head).setNext head (l.next x)).init x := by
  have link := (List.isChain_cons_cons.mp ring.chain).1
  have other : x ≠ head := fun same => (List.nodup_cons.mp ring.nodup).1 (same ▸ List.mem_cons_self)
  have away : l.next x ≠ x := by
    cases xs with
    | nil =>
      rw [show l.next x = head from ring.close.1]
      exact Ne.symm other
    | cons y rest =>
      have next := (List.isChain_cons_cons.mp (List.isChain_cons_cons.mp ring.chain).2).1
      have apart := List.nodup_cons.mp (List.nodup_cons.mp ring.nodup).2
      rw [next.1]
      exact fun same => apart.1 (same ▸ List.mem_cons_self)
  simp [Links.remove,link.2,Ne.symm away]

theorem remove_same (ring : Ring l head (x :: xs)) (outside : y ∉ head :: x :: xs) : Same l (l.remove x) y := by
  have notHead : y ≠ head := fun same => outside (same ▸ List.mem_cons_self)
  have notFirst : y ≠ x := fun same => outside (by simp [same])
  have notNext : y ≠ l.next x := by
    cases xs with
    | nil =>
      rw [show l.next x = head from ring.close.1]
      exact notHead
    | cons z rest =>
      rw [(List.isChain_cons_cons.mp (List.isChain_cons_cons.mp ring.chain).2).1.1]
      exact fun same => outside (by simp [same])
  rw [remove_first ring]
  simp [Same,Links.init,notHead,notFirst,notNext]

theorem Ring.removeFirst (ring : Ring l head (x :: xs)) : Ring (l.remove x) head xs := by
  have apart := List.nodup_cons.mp ring.nodup
  have inner := List.nodup_cons.mp apart.2
  have other : head ≠ x := fun same => apart.1 (same ▸ List.mem_cons_self)
  rw [remove_first ring]
  cases xs with
  | nil =>
    have next : l.next x = head := ring.close.1
    refine ⟨.singleton _,?_,List.nodup_singleton _⟩
    simp [Linked,Links.init,next,other]
  | cons y rest =>
    obtain ⟨link,chain⟩ := List.isChain_cons_cons.mp (List.isChain_cons_cons.mp ring.chain).2
    have notFirst : y ≠ x := fun same => inner.1 (same ▸ List.mem_cons_self)
    have notHead : head ≠ y := fun same => apart.1 (by simp [same])
    have lastIn : (y :: rest).getLast (List.cons_ne_nil _ _) ∈ y :: rest := List.getLast_mem _
    have close := ring.close
    rw [List.getLast_cons (List.cons_ne_nil _ _),List.getLast_cons (List.cons_ne_nil _ _)] at close
    rw [link.1]
    refine ⟨.cons_cons ⟨?_,?_⟩ (chain_frame chain inner.2 (fun z member _ => ?_) fun z member => ?_),?_,?_⟩
    · simp [Links.init,other]
    · simp [Links.init,notFirst]
    · have notHead : z ≠ head := fun same => apart.1 (by simp [← same,member])
      have notFirst : z ≠ x := fun same => inner.1 (same ▸ member)
      simp [Links.init,notHead,notFirst]
    · have notNext : z ≠ y := fun same => (List.nodup_cons.mp inner.2).1 (same ▸ member)
      have notFirst : z ≠ x := fun same => inner.1 (same ▸ List.mem_cons_of_mem _ member)
      simp [Links.init,notNext,notFirst]
    · rw [List.getLast_cons (List.cons_ne_nil _ _)]
      generalize (y :: rest).getLast (List.cons_ne_nil _ _) = last at lastIn close
      have away : last ≠ head := fun same => apart.1 (by simp [← same,lastIn])
      have notFirst : last ≠ x := fun same => inner.1 (same ▸ lastIn)
      constructor
      · simpa [Links.init,away,notFirst] using close.1
      · simpa [Links.init,other,notHead] using close.2
    · exact List.nodup_cons.mpr ⟨fun member => apart.1 (List.mem_cons_of_mem _ member),inner.2⟩

theorem Ring.removed (ring : Ring l head (x :: xs)) : Ring (l.remove x) x [] := by
  rw [remove_first ring]
  exact ring_init _ _

/-- An element that is in no list stays so. -/
theorem Ring.init_alone (ring : Ring l x []) : l.init x = l := by
  obtain ⟨next,prev⟩ : l.next x = x ∧ l.prev x = x := ring.close
  have same : l.setPrev x x = l := by rw [Links.setPrev,Function.update_eq_self_iff.mpr prev.symm]
  have same' : l.setNext x x = l := by rw [Links.setNext,Function.update_eq_self_iff.mpr next.symm]
  rw [Links.init,same',same]

theorem Ring.remove_alone (ring : Ring l x []) : l.remove x = l := by
  obtain ⟨next,prev⟩ : l.next x = x ∧ l.prev x = x := ring.close
  have same : l.setPrev x x = l := by rw [Links.setPrev,Function.update_eq_self_iff.mpr prev.symm]
  have same' : l.setNext x x = l := by rw [Links.setNext,Function.update_eq_self_iff.mpr next.symm]
  simp [Links.remove,ring.init_alone,next,prev,same,same']

section Move
variable {target source y : α} {xs ys : List α} (front : Ring l target xs) (back : Ring l source (y :: ys))
  (apart : List.Disjoint (target :: xs) (source :: y :: ys))
include front back apart

/-- The links after a move of the elements `y :: ys` of `source`. -/
theorem moveNocheck_links :
    l.moveNocheck target source = ((((l.setNext (l.prev target) y).setPrev y (l.prev target)).setNext
      (l.prev source) target).setPrev target (l.prev source)).init source := by
  have first : l.next source = y := back.next_first
  have here : l.prev target ≠ source := fun same => apart front.prev_mem (by simp [same])
  have inner : y ≠ source := fun same => (List.nodup_cons.mp back.nodup).1 (by simp [← same])
  simp [Links.moveNocheck,first,Ne.symm here,Ne.symm inner]

theorem moveNocheck_same (outside : x ∉ target :: xs) (outside' : x ∉ source :: y :: ys) :
    Same l (l.moveNocheck target source) x := by
  have notTarget : x ≠ target := fun same => outside (same ▸ List.mem_cons_self)
  have notLast : x ≠ l.prev target := fun same => outside (same ▸ front.prev_mem)
  have notSource : x ≠ source := fun same => outside' (same ▸ List.mem_cons_self)
  have notFirst : x ≠ y := fun same => outside' (by simp [same])
  have notEnd : x ≠ l.prev source := fun same => outside' (same ▸ back.prev_mem)
  rw [moveNocheck_links front back apart]
  simp [Same,Links.init,notTarget,notLast,notSource,notFirst,notEnd]

theorem ring_moveNocheck_source : Ring (l.moveNocheck target source) source [] := by
  rw [moveNocheck_links front back apart]
  exact ring_init _ _

theorem Ring.moveNocheck : Ring (l.moveNocheck target source) target (xs ++ y :: ys) := by
  have endOf : l.prev source = (y :: ys).getLast (List.cons_ne_nil _ _) := by
    rw [back.prev_head,List.getLast_cons (List.cons_ne_nil _ _)]
  have last := front.prev_head
  have inner := List.nodup_cons.mp back.nodup
  have endIn : l.prev source ∈ y :: ys := by
    rw [endOf]
    exact List.getLast_mem _
  have differ : ∀ {a b}, a ∈ target :: xs → b ∈ y :: ys → a ≠ b := fun front back same =>
    apart front (same ▸ List.mem_cons_of_mem _ back)
  have notSource : ∀ {a}, a ∈ target :: xs → a ≠ source := fun front same =>
    apart front (same ▸ List.mem_cons_self)
  have moved : ∀ {a}, a ∈ y :: ys → a ≠ source := fun back same => inner.1 (same ▸ back)
  have startIn : y ∈ y :: ys := List.mem_cons_self
  have targetIn : target ∈ target :: xs := List.mem_cons_self
  rw [moveNocheck_links front back apart]
  refine ⟨?_,?_,?_⟩
  · rw [← List.cons_append]
    refine List.isChain_append.mpr ⟨chain_frame front.chain front.nodup (fun a member other => ?_) fun a member => ?_,
      chain_frame (List.isChain_cons_cons.mp back.chain).2 inner.2 (fun a member other => ?_) fun a member => ?_,
      fun a atEnd b atStart => ?_⟩
    · rw [← last] at other
      simp [Links.init,notSource member,other,differ member endIn]
    · have inside : a ∈ target :: xs := List.mem_cons_of_mem _ member
      have notHead : a ≠ target := fun same => (List.nodup_cons.mp front.nodup).1 (same ▸ member)
      simp [Links.init,notSource inside,notHead,differ inside startIn]
    · rw [← endOf] at other
      simp [Links.init,moved member,other,Ne.symm (differ front.prev_mem member)]
    · have inside : a ∈ y :: ys := List.mem_cons_of_mem _ member
      have notFirst : a ≠ y := fun same => (List.nodup_cons.mp inner.2).1 (same ▸ member)
      simp [Links.init,moved inside,notFirst,Ne.symm (differ targetIn inside)]
    · have isLast : a = l.prev target := by
        rw [last]
        exact Option.some.inj (atEnd.symm.trans (List.getLast?_eq_some_getLast _))
      cases atStart
      subst isLast
      constructor
      · simp [Links.init,notSource front.prev_mem,differ front.prev_mem endIn]
      · simp [Links.init,moved startIn,Ne.symm (differ targetIn startIn)]
  · have isEnd : (target :: (xs ++ y :: ys)).getLast (List.cons_ne_nil _ _) = l.prev source := by
      rw [endOf]
      simp
    rw [isEnd]
    simp [Linked,Links.init,moved endIn,notSource targetIn]
  · rw [← List.cons_append]
    exact front.nodup.append inner.2 fun a front back => differ front back rfl

end Move

end Rings

/-- Lists without common elements, by their heads. -/
structure Family {σ α : Type} (l : Links α) (head : σ → α) (lists : σ → List α) : Prop where
  ring : ∀ x, Ring l (head x) (lists x)
  apart : ∀ x y, x ≠ y → List.Disjoint (head x :: lists x) (head y :: lists y)

namespace Family
variable {σ α : Type} [DecidableEq σ] [DecidableEq α] {l l' : Links α} {head : σ → α} {lists : σ → List α} {x y : σ} {a : α}

omit [DecidableEq σ] [DecidableEq α] in
/-- An element is on one list only. -/
theorem single (family : Family l head lists) (first : a ∈ lists x) (second : a ∈ lists y) : x = y := by
  by_contra other
  exact family.apart x y other (List.mem_cons_of_mem _ first) (List.mem_cons_of_mem _ second)

omit [DecidableEq α] in
/-- One list changes, to elements that are on no other list. -/
theorem change (family : Family l head lists) {xs : List α} (ring : Ring l' (head x) xs)
    (same : ∀ y, y ≠ x → ∀ b ∈ head y :: lists y, Same l l' b) (fresh : ∀ b ∈ xs, b ∈ lists x ∨ ∀ y, b ∉ head y :: lists y) :
    Family l' head (update lists x xs) := by
  have clear : ∀ y, y ≠ x → List.Disjoint (head x :: xs) (head y :: lists y) := by
    intro y other b first second
    rcases List.mem_cons.mp first with rfl | member
    · exact family.apart x y other.symm List.mem_cons_self second
    · rcases fresh b member with old | new
      · exact family.apart x y other.symm (List.mem_cons_of_mem _ old) second
      · exact new y second
  refine ⟨fun y => ?_,fun y z different => ?_⟩
  · by_cases here : y = x
    · subst here
      rw [Function.update_self]
      exact ring
    · rw [Function.update_of_ne here]
      exact (family.ring y).frame (same y here)
  · by_cases here : y = x
    · subst here
      rw [Function.update_self,Function.update_of_ne different.symm]
      exact clear z different.symm
    · rw [Function.update_of_ne here]
      by_cases there : z = x
      · subst there
        rw [Function.update_self]
        exact fun b first second => clear y here second first
      · rw [Function.update_of_ne there]
        exact family.apart y z different

theorem pushBack (family : Family l head lists) (fresh : ∀ y, a ∉ head y :: lists y) :
    Family (l.pushBack (head x) a) head (update lists x (lists x ++ [a])) := by
  refine family.change ((family.ring x).pushBack (fresh x)) (fun y other b member => ?_) fun b member => ?_
  · refine pushBack_same (family.ring x) (fun same => fresh y (same ▸ member)) fun inside => ?_
    exact family.apart y x other member inside
  · rcases List.mem_append.mp member with old | new
    · exact .inl old
    · exact .inr (List.mem_singleton.mp new ▸ fresh)

theorem pushFront (family : Family l head lists) (fresh : ∀ y, a ∉ head y :: lists y) :
    Family (l.pushFront (head x) a) head (update lists x (a :: lists x)) := by
  refine family.change ((family.ring x).pushFront (fresh x)) (fun y other b member => ?_) fun b member => ?_
  · refine pushFront_same (family.ring x) (fun same => fresh y (same ▸ member)) fun inside => ?_
    exact family.apart y x other member inside
  · rcases List.mem_cons.mp member with rfl | old
    · exact .inr fresh
    · exact .inl old

theorem removeFirst (family : Family l head lists) {rest : List α} (first : lists x = a :: rest) :
    Family (l.remove a) head (update lists x rest) := by
  have ring := family.ring x
  rw [first] at ring
  refine family.change ring.removeFirst (fun y other b member => remove_same ring fun inside => ?_) fun b member => ?_
  · rw [← first] at inside
    exact family.apart y x other member inside
  · rw [first]
    exact .inl (List.mem_cons_of_mem _ member)

/-- The elements of one list go to the end of another. -/
theorem move (family : Family l head lists) (different : x ≠ y) :
    Family (l.move (head x) (head y)) head (update (update lists x (lists x ++ lists y)) y []) := by
  have back := family.ring y
  cases elements : lists y with
  | nil =>
    rw [elements] at back
    have same : update (update lists x (lists x ++ [])) y [] = lists := by
      rw [List.append_nil,Function.update_eq_self,← elements,Function.update_eq_self]
    rw [same,Links.move,if_pos (by simpa using back.isEmpty)]
    exact family
  | cons b rest =>
    have apart := family.apart x y different
    rw [elements] at back apart
    rw [Links.move,if_neg (by simp [back.isEmpty])]
    have front := family.ring x
    have same : ∀ z, z ≠ x → z ≠ y → ∀ c ∈ head z :: lists z, Same l (l.moveNocheck (head x) (head y)) c := by
      intro z other other' c member
      refine moveNocheck_same front back apart (fun inside => family.apart z x other member inside) fun inside => ?_
      rw [← elements] at inside
      exact family.apart z y other' member inside
    refine ⟨fun z => ?_,fun z w differ => ?_⟩
    · by_cases source : z = y
      · rw [source,Function.update_self]
        exact ring_moveNocheck_source front back apart
      · rw [Function.update_of_ne source]
        by_cases target : z = x
        · rw [target,Function.update_self]
          exact front.moveNocheck back apart
        · rw [Function.update_of_ne target]
          exact (family.ring z).frame (same z target source)
    · have fresh : head y ∉ lists y := (List.nodup_cons.mp (family.ring y).nodup).1
      have origin : ∀ z c, c ∈ head z :: update (update lists x (lists x ++ b :: rest)) y [] z →
          c ∈ head z :: lists z ∧ (z = y → c = head y) ∨ z = x ∧ c ∈ lists y := by
        intro z c member
        by_cases source : z = y
        · subst source
          rw [Function.update_self] at member
          exact .inl ⟨List.mem_cons.mpr (.inl (List.mem_singleton.mp member)),fun _ => List.mem_singleton.mp member⟩
        · rw [Function.update_of_ne source] at member
          by_cases target : z = x
          · subst target
            rw [Function.update_self,← elements,← List.cons_append] at member
            rcases List.mem_append.mp member with old | moved
            · exact .inl ⟨old,fun same => absurd same source⟩
            · exact .inr ⟨rfl,moved⟩
          · rw [Function.update_of_ne target] at member
            exact .inl ⟨member,fun same => absurd same source⟩
      -- an element that has moved was on the list of the source
      have moved : ∀ w, ∀ c ∈ lists y, c ∈ head w :: lists w → (w = y → c = head y) → False := by
        intro w c old member own
        by_cases source : w = y
        · exact fresh (own source ▸ old)
        · exact family.apart w y source member (List.mem_cons_of_mem _ old)
      intro c first second
      rcases origin z c first with ⟨here,own⟩ | ⟨rfl,old⟩ <;> rcases origin w c second with ⟨there,own'⟩ | ⟨rfl,old'⟩
      · exact family.apart z w differ here there
      · exact moved z c old' here own
      · exact moved w c old there own'
      · exact differ rfl

end Family

end CircularList
