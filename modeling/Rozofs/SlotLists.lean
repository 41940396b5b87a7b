import Mathlib.Logic.Function.Basic
import Mathlib.Data.List.Basic
import Mathlib.Data.List.Nodup

/-! A table of doubly linked lists that end with a null pointer. The links are stored in the
elements, and each element is on one list at most. -/
namespace SlotLists
open Function (update)

structure Links (α : Type) where
  next : α → Option α
  prior : α → Option α

section Operations
variable {α : Type} [DecidableEq α]

def Links.setNext (l : Links α) (a : α) (b : Option α) : Links α := { l with next := update l.next a b }

def Links.setPrior (l : Links α) (a : α) (b : Option α) : Links α := { l with prior := update l.prior a b }

/-- A null pointer has no fields to set. -/
def Links.setNextOf (l : Links α) (a : Option α) (b : Option α) : Links α :=
  match a with
  | none => l
  | some a => l.setNext a b

def Links.setPriorOf (l : Links α) (a : Option α) (b : Option α) : Links α :=
  match a with
  | none => l
  | some a => l.setPrior a b

@[simp] theorem setPriorOf_next (l : Links α) (a b : Option α) : (l.setPriorOf a b).next = l.next := by
  cases a <;> rfl

/-- An element is put in front of the list of `head`. -/
def Links.push (l : Links α) (head : Option α) (a : α) : Links α :=
  ((l.setNext a head).setPrior a none).setPriorOf head (some a)

/-- An element leaves its list. -/
def Links.remove (l : Links α) (a : α) : Links α :=
  let l := l.setPriorOf (l.next a) (l.prior a)
  let l := l.setNextOf (l.prior a) (l.next a)
  (l.setNext a none).setPrior a none

end Operations

section Chains
variable {α : Type} {l l' : Links α} {a b : α} {before : Option α} {xs : List α}

/-- The elements are linked in both directions, after `before`. -/
def Chain (l : Links α) : Option α → List α → Prop
  | _, [] => True
  | before, a :: rest => l.prior a = before ∧ l.next a = rest.head? ∧ Chain l (some a) rest

theorem Chain.congr (chain : Chain l before xs) (next : ∀ a ∈ xs, l'.next a = l.next a) (prior : ∀ a ∈ xs, l'.prior a = l.prior a) :
    Chain l' before xs := by
  induction xs generalizing before with
  | nil => trivial
  | cons a rest ih =>
    simp only [List.mem_cons,forall_eq_or_imp] at next prior
    obtain ⟨first,second,tail⟩ := chain
    exact ⟨prior.1.trans first,next.1.trans second,ih tail next.2 prior.2⟩

/-- The first element gets another element before it. -/
theorem Chain.lead (chain : Chain l before xs) (nodup : xs.Nodup) (next : ∀ a ∈ xs, l'.next a = l.next a)
    (head : ∀ a, xs.head? = some a → l'.prior a = before') (prior : ∀ a ∈ xs, xs.head? ≠ some a → l'.prior a = l.prior a) :
    Chain l' before' xs := by
  cases xs with
  | nil => trivial
  | cons a rest =>
    simp only [List.mem_cons,forall_eq_or_imp] at next prior
    obtain ⟨_,second,tail⟩ := chain
    refine ⟨head a rfl,next.1.trans second,tail.congr next.2 fun b member => prior.2 b member ?_⟩
    rintro ⟨rfl⟩
    exact (List.nodup_cons.mp nodup).1 member

theorem Chain.next_mem (chain : Chain l before xs) (member : a ∈ xs) (next : l.next a = some b) : b ∈ xs := by
  induction xs generalizing before with
  | nil => cases member
  | cons c rest ih =>
    obtain ⟨_,second,tail⟩ := chain
    rcases List.mem_cons.mp member with rfl | there
    · rw [second] at next
      exact List.mem_cons_of_mem _ (List.mem_of_head? next)
    · exact List.mem_cons_of_mem _ (ih tail there)

/-- Every element but the first one has an element of the list before it. -/
theorem Chain.prior_mem (chain : Chain l before xs) (member : a ∈ xs) :
    xs.head? = some a ∧ l.prior a = before ∨ ∃ b ∈ xs, l.prior a = some b := by
  induction xs generalizing before with
  | nil => cases member
  | cons c rest ih =>
    obtain ⟨first,_,tail⟩ := chain
    rcases List.mem_cons.mp member with rfl | there
    · exact .inl ⟨rfl,first⟩
    · rcases ih tail there with ⟨_,prior⟩ | ⟨b,deeper,prior⟩
      · exact .inr ⟨c,List.mem_cons_self,prior⟩
      · exact .inr ⟨b,List.mem_cons_of_mem _ deeper,prior⟩

theorem Chain.next_append {done rest : List α} (chain : Chain l before (done ++ a :: rest)) : l.next a = rest.head? := by
  induction done generalizing before with
  | nil => exact chain.2.1
  | cons b done ih => exact ih chain.2.2

/-- No element of a list without repetition follows itself. -/
theorem Chain.irreflexive (chain : Chain l before xs) (nodup : xs.Nodup) (member : a ∈ xs) : l.next a ≠ some a := by
  induction xs generalizing before with
  | nil => cases member
  | cons b rest ih =>
    obtain ⟨fresh,nodup⟩ := List.nodup_cons.mp nodup
    rcases List.mem_cons.mp member with rfl | there
    · rw [chain.2.1]
      exact fun same => fresh (List.mem_of_head? same)
    · exact ih chain.2.2 nodup there

variable [DecidableEq α]

theorem push_next : (l.push head a).next = update l.next a head := by
  cases head <;> rfl

theorem push_prior_other (other : b ≠ a) (apart : head ≠ some b) : (l.push head a).prior b = l.prior b := by
  cases head with
  | none => simp [Links.push,Links.setPriorOf,Links.setPrior,Links.setNext,other]
  | some c =>
    have ne : b ≠ c := fun same => apart (by rw [same])
    simp [Links.push,Links.setPriorOf,Links.setPrior,Links.setNext,other,ne]

theorem push_prior_head (apart : head ≠ some a) : (l.push head a).prior a = none := by
  cases head with
  | none => simp [Links.push,Links.setPriorOf,Links.setPrior,Links.setNext]
  | some c =>
    have ne : a ≠ c := fun same => apart (by rw [same])
    simp [Links.push,Links.setPriorOf,Links.setPrior,Links.setNext,ne]

theorem push_prior_next : (l.push (some b) a).prior b = some a := by
  simp [Links.push,Links.setPriorOf,Links.setPrior]

theorem Chain.push (chain : Chain l none xs) (nodup : xs.Nodup) (fresh : a ∉ xs) : Chain (l.push xs.head? a) none (a :: xs) := by
  have apart : xs.head? ≠ some a := fun same => fresh (List.mem_of_head? same)
  have other : ∀ b ∈ xs, b ≠ a := fun b member same => fresh (same ▸ member)
  refine ⟨push_prior_head apart,?_,chain.lead nodup ?_ ?_ ?_⟩
  · rw [push_next,Function.update_self]
  · intro b member
    rw [push_next,Function.update_of_ne (other b member)]
  · intro b head
    rw [head]
    exact push_prior_next
  · intro b member apart
    exact push_prior_other (other b member) apart

theorem remove_prior (b : α) : (l.remove a).prior b = if b = a then none else if l.next a = some b then l.prior a else l.prior b := by
  have unlink : ∀ (l : Links α) (p n : Option α), ((l.setNextOf p n).setNext a none).prior = l.prior := by
    intro l p n
    cases p <;> rfl
  simp only [Links.remove,Links.setPrior,unlink]
  by_cases own : b = a
  · simp [own]
  · rw [Function.update_of_ne own,if_neg own]
    cases l.next a with
    | none => simp [Links.setPriorOf]
    | some c =>
      by_cases same : b = c
      · simp [Links.setPriorOf,Links.setPrior,same]
      · have ne : c ≠ b := fun eq => same eq.symm
        simp [Links.setPriorOf,Links.setPrior,same,ne]

theorem remove_next (irreflexive : l.next a ≠ some a) (b : α) :
    (l.remove a).next b = if b = a then none else if l.prior a = some b then l.next a else l.next b := by
  have prior : (l.setPriorOf (l.next a) (l.prior a)).prior a = l.prior a := by
    cases next : l.next a with
    | none => rfl
    | some c =>
      have ne : a ≠ c := fun same => irreflexive (by rw [next,same])
      simp [Links.setPriorOf,Links.setPrior,ne]
  simp only [Links.remove,prior,setPriorOf_next,Links.setNext,Links.setPrior]
  by_cases own : b = a
  · simp [own]
  · rw [Function.update_of_ne own,if_neg own]
    cases l.prior a with
    | none => simp [Links.setNextOf]
    | some c =>
      by_cases same : b = c
      · simp [Links.setNextOf,Links.setNext,same]
      · have ne : c ≠ b := fun eq => same eq.symm
        simp [Links.setNextOf,Links.setNext,same,ne]

/-- The first element of a list after a removal. -/
theorem Chain.head_erase (chain : Chain l before xs) (apart : ∀ b, before = some b → b ∉ xs) (member : a ∈ xs) :
    (xs.erase a).head? = if l.prior a = before then l.next a else xs.head? := by
  cases xs with
  | nil => cases member
  | cons b rest =>
    by_cases here : b = a
    · subst here
      rw [List.erase_cons_head,if_pos chain.1,chain.2.1]
    · have prior : l.prior a ≠ before := by
        rcases chain.prior_mem member with ⟨head,_⟩ | ⟨c,inside,prior⟩
        · cases head
          exact absurd rfl here
        · rw [prior]
          exact fun same => apart c same.symm inside
      rw [List.erase_cons_tail (by simpa using here),if_neg prior]
      rfl

theorem Chain.remove (chain : Chain l before xs) (nodup : xs.Nodup) (apart : ∀ b, before = some b → b ∉ xs) (member : a ∈ xs) :
    Chain (l.remove a) before (xs.erase a) := by
  have irreflexive := chain.irreflexive nodup member
  induction xs generalizing before with
  | nil => cases member
  | cons b rest ih =>
    obtain ⟨first,second,tail⟩ := chain
    obtain ⟨fresh,nodup'⟩ := List.nodup_cons.mp nodup
    by_cases here : b = a
    · subst here
      rw [List.erase_cons_head]
      have other : ∀ c ∈ rest, c ≠ b := fun c there same => fresh (same ▸ there)
      refine tail.lead nodup' (fun c there => ?_) (fun c head => ?_) fun c there ne => ?_
      · have away : l.prior b ≠ some c := by
          rw [first]
          exact fun same => apart c same (List.mem_cons_of_mem _ there)
        rw [remove_next irreflexive,if_neg (other c there),if_neg away]
      · rw [remove_prior,if_neg (other c (List.mem_of_head? head)),if_pos (second.trans head),first]
      · rw [remove_prior,if_neg (other c there),if_neg (by rw [second]; exact ne)]
    · have there : a ∈ rest := (List.mem_cons.mp member).resolve_left fun same => here same.symm
      have apart' : ∀ c, some b = some c → c ∉ rest := by
        rintro c ⟨rfl⟩
        exact fresh
      have next : l.next a ≠ some b := fun same => fresh (tail.next_mem there same)
      rw [List.erase_cons_tail (by simpa using here)]
      refine ⟨?_,?_,ih tail nodup' apart' there⟩
      · rw [remove_prior,if_neg here,if_neg next,first]
      · rw [remove_next irreflexive,if_neg here,tail.head_erase apart' there,second]

end Chains

/-- The lists of a table: their heads, their links in both directions, and no element twice. -/
structure Table {σ α : Type} (l : Links α) (head : σ → Option α) (lists : σ → List α) : Prop where
  heads : ∀ x, head x = (lists x).head?
  chain : ∀ x, Chain l none (lists x)
  nodup : ∀ x, (lists x).Nodup
  single : ∀ x y a, a ∈ lists x → a ∈ lists y → x = y

namespace Table
variable {σ α : Type} [DecidableEq σ] [DecidableEq α] {l : Links α} {head : σ → Option α} {lists : σ → List α} {x : σ} {a : α}

omit [DecidableEq σ] [DecidableEq α] in
/-- The links of the elements on no list do not matter. -/
theorem congr {l' : Links α} (table : Table l head lists) (same : ∀ x a, a ∈ lists x → l'.next a = l.next a ∧ l'.prior a = l.prior a) :
    Table l' head lists :=
  ⟨table.heads,fun x => (table.chain x).congr (fun a member => (same x a member).1) fun a member => (same x a member).2,
    table.nodup,table.single⟩

theorem push (table : Table l head lists) (fresh : ∀ y, a ∉ lists y) :
    Table (l.push (head x) a) (update head x (some a)) (update lists x (a :: lists x)) := by
  refine ⟨fun y => ?_,fun y => ?_,fun y => ?_,fun y z b first second => ?_⟩
  · by_cases here : y = x
    · simp [here]
    · simp [here,table.heads y]
  · by_cases here : y = x
    · rw [here,Function.update_self,table.heads x]
      exact (table.chain x).push (table.nodup x) (fresh x)
    · rw [Function.update_of_ne here]
      have other : ∀ b ∈ lists y, b ≠ a := fun b member same => fresh y (same ▸ member)
      refine (table.chain y).congr (fun b member => ?_) fun b member => push_prior_other (other b member) ?_
      · rw [push_next,Function.update_of_ne (other b member)]
      · rw [table.heads x]
        exact fun same => here (table.single y x b member (List.mem_of_head? same))
  · by_cases here : y = x
    · rw [here,Function.update_self]
      exact List.nodup_cons.mpr ⟨fresh x,table.nodup x⟩
    · rw [Function.update_of_ne here]
      exact table.nodup y
  · have old : ∀ y, b ∈ update lists x (a :: lists x) y → b = a ∧ y = x ∨ b ∈ lists y := by
      intro y member
      by_cases here : y = x
      · rw [here,Function.update_self] at member
        rcases List.mem_cons.mp member with same | there
        · exact .inl ⟨same,here⟩
        · exact .inr (here ▸ there)
      · rw [Function.update_of_ne here] at member
        exact .inr member
    rcases old y first with ⟨same,here⟩ | there <;> rcases old z second with ⟨same',here'⟩ | there'
    · exact here.trans here'.symm
    · exact absurd (same ▸ there') (fresh z)
    · exact absurd (same' ▸ there) (fresh y)
    · exact table.single y z b there there'

theorem remove (table : Table l head lists) (member : a ∈ lists x) :
    Table (l.remove a) (if l.prior a = none then update head x (l.next a) else head) (update lists x ((lists x).erase a)) := by
  have apart : ∀ b, (none : Option α) = some b → b ∉ lists x := fun _ none => by cases none
  have irreflexive := (table.chain x).irreflexive (table.nodup x) member
  have first := (table.chain x).head_erase apart member
  refine ⟨fun y => ?_,fun y => ?_,fun y => ?_,fun y z b first second => ?_⟩
  · by_cases here : y = x
    · subst here
      rw [Function.update_self,first]
      split
      · rw [Function.update_self]
      · exact table.heads y
    · rw [Function.update_of_ne here]
      split
      · rw [Function.update_of_ne here]
        exact table.heads y
      · exact table.heads y
  · by_cases here : y = x
    · subst here
      rw [Function.update_self]
      exact (table.chain y).remove (table.nodup y) apart member
    · rw [Function.update_of_ne here]
      -- the neighbours of the element are on its own list
      refine (table.chain y).congr (fun b there => ?_) fun b there => ?_
      · have other : b ≠ a := fun same => here (table.single y x a (same ▸ there) member)
        have away : l.prior a ≠ some b := by
          intro same
          rcases (table.chain x).prior_mem member with ⟨_,prior⟩ | ⟨c,inside,prior⟩
          · cases prior.symm.trans same
          · rw [prior] at same
            cases same
            exact here (table.single y x b there inside)
        rw [remove_next irreflexive,if_neg other,if_neg away]
      · have other : b ≠ a := fun same => here (table.single y x a (same ▸ there) member)
        have away : l.next a ≠ some b := fun same => here (table.single y x b there ((table.chain x).next_mem member same))
        rw [remove_prior,if_neg other,if_neg away]
  · by_cases here : y = x
    · rw [here,Function.update_self]
      exact (table.nodup x).erase a
    · rw [Function.update_of_ne here]
      exact table.nodup y
  · have old : ∀ y, b ∈ update lists x ((lists x).erase a) y → b ∈ lists y := by
      intro y member
      by_cases here : y = x
      · rw [here,Function.update_self] at member
        exact here ▸ List.mem_of_mem_erase member
      · rw [Function.update_of_ne here] at member
        exact member
    exact table.single y z b (old y first) (old z second)

end Table

end SlotLists
