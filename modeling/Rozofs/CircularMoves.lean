import Rozofs.CircularList

/-! Any element of a circular list can be taken as its head: what a change does after the head it does after any
element. An element is removed, or goes behind the next one. -/
namespace CircularList
open Function (update)

variable {α : Type} {l l' : Links α} {head a b p q : α} {xs ys : List α}

/-- The list as seen from one of its elements. -/
theorem Ring.rotate (ring : Ring l head (xs ++ a :: ys)) : Ring l a (ys ++ head :: xs) := by
  have chain := ring.chain
  rw [← List.cons_append] at chain
  obtain ⟨front,back,link⟩ := List.isChain_append.mp chain
  have lastFront : (head :: xs).getLast? = some ((head :: xs).getLast (List.cons_ne_nil _ _)) := List.getLast?_eq_some_getLast _
  have lastBack : (a :: ys).getLast? = some ((a :: ys).getLast (List.cons_ne_nil _ _)) := List.getLast?_eq_some_getLast _
  have close : Linked l ((a :: ys).getLast (List.cons_ne_nil _ _)) head := by
    simpa using ring.close
  constructor
  case chain =>
    rw [← List.cons_append]
    apply List.isChain_append.mpr
    refine ⟨back,front,fun x atEnd y atStart => ?_⟩
    cases atStart
    rw [lastBack] at atEnd
    cases atEnd
    exact close
  case close =>
    have last := link _ lastFront a rfl
    simpa using last
  case nodup =>
    have perm : (a :: ys ++ head :: xs).Perm (head :: xs ++ a :: ys) := List.perm_append_comm
    exact perm.nodup_iff.mpr ring.nodup

/-- A change of the elements after the head, wherever it is in the list. -/
theorem Ring.inside {block block' : List α} (front : ∀ a zs, Ring l a (block ++ zs) → Ring l' a (block' ++ zs))
    (ring : Ring l head (xs ++ (block ++ ys))) : Ring l' head (xs ++ (block' ++ ys)) := by
  rcases List.eq_nil_or_concat xs with rfl | ⟨before,a,rfl⟩
  · exact front head ys ring
  · have turned : Ring l a (block ++ (ys ++ head :: before)) := by
      have here : Ring l head (before ++ a :: (block ++ ys)) := by simpa using ring
      simpa using here.rotate
    have changed := front a _ turned
    have back : Ring l' a ((block' ++ ys) ++ head :: before) := by simpa using changed
    simpa using back.rotate

/-- The element before a place of the list has the same elements in its list. -/
theorem Ring.before (ring : Ring l head (xs ++ p :: ys)) : ∃ a zs, Ring l a (p :: zs) ∧ (a :: p :: zs).Perm (head :: (xs ++ p :: ys)) ∧
    (∀ rest, ys = q :: rest → ∃ zs', zs = q :: zs') := by
  rcases List.eq_nil_or_concat xs with rfl | ⟨before,a,rfl⟩
  · exact ⟨head,ys,ring,.refl _,fun rest same => ⟨rest,same⟩⟩
  · have here : Ring l head (before ++ a :: (p :: ys)) := by simpa using ring
    refine ⟨a,ys ++ head :: before,by simpa using here.rotate,?_,?_⟩
    · have perm : ((a :: p :: ys) ++ (head :: before)).Perm ((head :: before) ++ (a :: p :: ys)) := List.perm_append_comm
      simpa using perm
    · rintro rest rfl
      exact ⟨rest ++ head :: before,rfl⟩

variable [DecidableEq α]

/-- An element goes behind the one that follows it. -/
def Links.exchange (l : Links α) (p : α) : Links α :=
  let q := l.next p
  let l := l.setPrev q (l.prev p)
  let l := l.setNext (l.prev q) q
  let l := l.setNext p (l.next q)
  let l := l.setPrev (l.next p) p
  let l := l.setNext q p
  l.setPrev p q

theorem Ring.remove (ring : Ring l head (xs ++ p :: ys)) : Ring (l.remove p) head (xs ++ ys) := by
  have inside := @Ring.inside α l (l.remove p) head xs ys [p] [] fun a zs ring => ring.removeFirst
  exact inside ring

theorem Ring.remove_outside (ring : Ring l head (xs ++ p :: ys)) (outside : b ∉ head :: (xs ++ p :: ys)) : Same l (l.remove p) b := by
  obtain ⟨a,zs,first,perm,_⟩ := ring.before (q := p)
  exact remove_same first fun member => outside (perm.mem_iff.mp member)

/-- An exchange takes the element out and puts it back behind the next one. -/
theorem exchange_first (ring : Ring l a (p :: q :: ys)) : l.exchange p = (l.remove p).pushFront q p := by
  obtain ⟨first,chain⟩ := List.isChain_cons_cons.mp ring.chain
  obtain ⟨second,_⟩ := List.isChain_cons_cons.mp chain
  have nodup := ring.nodup
  simp only [List.nodup_cons,List.mem_cons,not_or] at nodup
  obtain ⟨⟨ap,aq,_⟩,⟨pq,pys⟩,qys,_⟩ := nodup
  have after : l.next q ≠ p ∧ l.next q ≠ q := by
    cases ys with
    | nil =>
      rw [show l.next q = a from ring.close.1]
      exact ⟨ap,aq⟩
    | cons b rest =>
      have third := (List.isChain_cons_cons.mp (List.isChain_cons_cons.mp chain).2).1
      rw [third.1]
      exact ⟨fun same => pys (same ▸ List.mem_cons_self),fun same => qys (same ▸ List.mem_cons_self)⟩
  have last : l.prev p = a := first.2
  have next : l.next p = q := second.1
  obtain ⟨notP,notQ⟩ := after
  have nexts : (l.exchange p).next = update (update (update l.next a q) p (l.next q)) q p := by
    simp [Links.exchange,next,last,Ne.symm aq]
  have prevs : (l.exchange p).prev = update (update (update l.prev q a) (l.next q) p) p q := by
    simp [Links.exchange,next,last,Ne.symm aq]
  have removed := remove_first ring
  rw [next] at removed
  have nexts' : ((l.remove p).pushFront q p).next = update (update (update l.next a q) p (l.next q)) q p := by
    simp [Links.pushFront,Links.insert,removed,Links.init,Ne.symm aq,Ne.symm pq]
  have prevs' : ((l.remove p).pushFront q p).prev = update (update (update l.prev q a) (l.next q) p) p q := by
    simp [Links.pushFront,Links.insert,removed,Links.init,Ne.symm aq,Ne.symm pq,Function.update_comm notP]
  cases moved : l.exchange p
  cases pushed : (l.remove p).pushFront q p
  rw [moved] at nexts prevs
  rw [pushed] at nexts' prevs'
  rw [Links.mk.injEq]
  exact ⟨nexts.trans nexts'.symm,prevs.trans prevs'.symm⟩

theorem Ring.exchange (ring : Ring l head (xs ++ p :: q :: ys)) : Ring (l.exchange p) head (xs ++ q :: p :: ys) := by
  refine @Ring.inside α l (l.exchange p) head xs ys [p,q] [q,p] (fun a zs ring => ?_) ring
  have rest : Ring (l.remove p) a ([] ++ q :: zs) := ring.removeFirst
  have fresh : p ∉ q :: (zs ++ [a]) := by
    have nodup := ring.nodup
    simp only [List.cons_append,List.nil_append,List.nodup_cons,List.mem_cons,not_or] at nodup
    simp only [List.mem_cons,List.mem_append,not_or]
    exact ⟨nodup.2.1.1,nodup.2.1.2,Ne.symm nodup.1.1,List.not_mem_nil⟩
  have pushed := rest.rotate.pushFront fresh
  rw [← exchange_first ring] at pushed
  have back : Ring (l.exchange p) q ((p :: zs) ++ a :: []) := pushed
  exact back.rotate

theorem Ring.exchange_outside (ring : Ring l head (xs ++ p :: q :: ys)) (outside : b ∉ head :: (xs ++ p :: q :: ys)) :
    Same l (l.exchange p) b := by
  obtain ⟨a,zs,first,perm,shape⟩ := ring.before (q := q)
  obtain ⟨zs,rfl⟩ := shape ys rfl
  have away : b ∉ a :: p :: q :: zs := fun member => outside (perm.mem_iff.mp member)
  rw [exchange_first first]
  have rest : Ring (l.remove p) a ([] ++ q :: zs) := first.removeFirst
  have removed := remove_same first away
  have pushed : Same (l.remove p) ((l.remove p).pushFront q p) b := pushFront_same rest.rotate (fun same => away (by simp [same])) fun member => away (by
    simp only [List.mem_cons,List.mem_append] at member ⊢
    tauto)
  exact ⟨pushed.1.trans removed.1,pushed.2.trans removed.2⟩

end CircularList
