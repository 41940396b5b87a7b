import Mathlib.Data.List.Basic

/-! A queue whose first request runs and in which a request runs when it conflicts with none
ahead of it. Requests enter at the end and leave from any place; the new first one is woken. -/
namespace RequestQueue

/-- Requests that run or wait, numbered by arrival, with a conflict relation. -/
structure Discipline (α : Type) where
  runs : α → Bool
  arrival : α → Nat
  conflict : α → α → Prop
  wake : α → α
  symm : ∀ {x y}, conflict x y → conflict y x
  wake_runs : ∀ x, runs (wake x) = true
  wake_arrival : ∀ x, arrival (wake x) = arrival x
  wake_conflict : ∀ {x y}, conflict y (wake x) → conflict y x

section Queue
variable {α : Type} (d : Discipline α)

/-- The new first request of a queue is woken if it waits. -/
def wakeFirst : List α → List α × Option α
  | [] => ([],none)
  | e :: rest => if d.runs e then (e :: rest,none) else (d.wake e :: rest,some (d.wake e))

/-- The request that satisfies `p` leaves. -/
def leave (p : α → Bool) : List α → List α × Option α
  | [] => ([],none)
  | e :: rest => if p e then wakeFirst d rest else ((e :: rest).eraseP p,none)

/-- `started` are the requests that were let run, in that order, including those that left. -/
structure Orderly (queue started : List α) : Prop where
  first : ∀ e rest, queue = e :: rest → d.runs e = true
  ahead : queue.Pairwise fun x y => d.runs y = true → ¬ d.conflict x y
  sorted : queue.Pairwise fun x y => d.arrival x < d.arrival y
  waiting : ∀ x ∈ started, ∀ e ∈ queue, d.runs e = false → d.conflict x e → d.arrival x < d.arrival e
  order : started.Pairwise fun x y => d.conflict x y → d.arrival x < d.arrival y

variable {d} {queue started : List α}

theorem Orderly.nil : Orderly d [] [] where
  first _ _ eq := by cases eq
  ahead := .nil
  sorted := .nil
  waiting _ member := by cases member
  order := .nil

/-- A request enters with the largest arrival number. It runs only when it conflicts with
nothing in the queue, and it does run when the queue is empty. -/
theorem Orderly.enter (orderly : Orderly d queue started) (e : α)
    (last : ∀ x ∈ queue ++ started, d.arrival x < d.arrival e)
    (alone : queue = [] → d.runs e = true) (free : d.runs e = true → ∀ x ∈ queue, ¬ d.conflict x e) :
    Orderly d (queue ++ [e]) (if d.runs e then started ++ [e] else started) := by
  have late : ∀ x ∈ started, d.arrival x < d.arrival e := fun x member => last x (List.mem_append_right _ member)
  constructor
  · intro f rest eq
    cases queue with
    | nil =>
      cases eq
      exact alone rfl
    | cons g tail =>
      obtain ⟨rfl,-⟩ := List.cons.inj eq
      exact orderly.first g tail rfl
  · apply List.pairwise_append.mpr
    refine ⟨orderly.ahead,List.pairwise_singleton _ _,fun x member y new => ?_⟩
    cases List.mem_singleton.mp new
    exact fun runs => free runs x member
  · apply List.pairwise_append.mpr
    refine ⟨orderly.sorted,List.pairwise_singleton _ _,fun x member y new => ?_⟩
    cases List.mem_singleton.mp new
    exact last x (List.mem_append_left _ member)
  · intro x begun f member waits conflict
    rcases List.mem_append.mp member with old | new
    · split at begun
      · rename_i runs
        rcases List.mem_append.mp begun with before | now
        · exact orderly.waiting x before f old waits conflict
        · cases List.mem_singleton.mp now
          exact absurd (d.symm conflict) (free runs f old)
      · exact orderly.waiting x begun f old waits conflict
    · cases List.mem_singleton.mp new
      rw [waits] at begun
      exact late x begun
  · split
    · apply List.pairwise_append.mpr
      refine ⟨orderly.order,List.pairwise_singleton _ _,fun x member y new _ => ?_⟩
      cases List.mem_singleton.mp new
      exact late x member
    · exact orderly.order

/-- Requests leave without a change of the first one. -/
theorem Orderly.sublist (orderly : Orderly d queue started) (fewer : List.Sublist queue' queue)
    (first : ∀ e rest, queue' = e :: rest → d.runs e = true) : Orderly d queue' started :=
  ⟨first,orderly.ahead.sublist fewer,orderly.sorted.sublist fewer,
    fun x begun e member => orderly.waiting x begun e (fewer.subset member),orderly.order⟩

/-- The queue without its first request. -/
theorem Orderly.wakeFirst (orderly : Orderly d (e :: rest) started) :
    Orderly d (RequestQueue.wakeFirst d rest).1 (started ++ (RequestQueue.wakeFirst d rest).2.toList) := by
  cases rest with
  | nil =>
    simp only [RequestQueue.wakeFirst,Option.toList_none,List.append_nil]
    exact orderly.sublist (List.nil_sublist _) fun _ _ eq => by cases eq
  | cons next tail =>
    have shorter : List.Sublist (next :: tail) (e :: next :: tail) := List.sublist_cons_self _ _
    by_cases runs : d.runs next = true
    · simp only [RequestQueue.wakeFirst,if_pos runs,Option.toList_none,List.append_nil]
      refine orderly.sublist shorter fun f rest eq => ?_
      cases eq
      exact runs
    · have waits : d.runs next = false := Bool.eq_false_iff.mpr runs
      have ahead := List.pairwise_cons.mp (orderly.ahead.sublist shorter)
      have sorted := List.pairwise_cons.mp (orderly.sorted.sublist shorter)
      simp only [RequestQueue.wakeFirst,if_neg runs,Option.toList_some]
      constructor
      · intro f rest eq
        cases eq
        exact d.wake_runs next
      · refine .cons (fun y member runs conflict => ?_) ahead.2
        exact ahead.1 y member runs (d.symm (d.wake_conflict (d.symm conflict)))
      · refine .cons (fun y member => ?_) sorted.2
        rw [d.wake_arrival]
        exact sorted.1 y member
      · intro x begun f member still conflict
        rcases List.mem_cons.mp member with rfl | behind
        · rw [d.wake_runs] at still
          cases still
        · rcases List.mem_append.mp begun with before | now
          · exact orderly.waiting x before f (by simp [behind]) still conflict
          · cases List.mem_singleton.mp now
            rw [d.wake_arrival]
            exact sorted.1 f behind
      · apply List.pairwise_append.mpr
        refine ⟨orderly.order,List.pairwise_singleton _ _,fun x begun y now conflict => ?_⟩
        cases List.mem_singleton.mp now
        rw [d.wake_arrival]
        exact orderly.waiting x begun next (by simp) waits (d.wake_conflict conflict)

theorem Orderly.leave (orderly : Orderly d queue started) (p : α → Bool) :
    Orderly d (RequestQueue.leave d p queue).1 (started ++ (RequestQueue.leave d p queue).2.toList) := by
  cases queue with
  | nil =>
    simp only [RequestQueue.leave,Option.toList_none,List.append_nil]
    exact orderly
  | cons e rest =>
    by_cases here : p e = true
    · simp only [RequestQueue.leave,if_pos here]
      exact orderly.wakeFirst
    · simp only [RequestQueue.leave,if_neg here,Option.toList_none,List.append_nil]
      refine orderly.sublist List.eraseP_sublist fun f rest eq => ?_
      rw [List.eraseP_cons_of_neg here] at eq
      cases eq
      exact orderly.first e _ rfl

end Queue

end RequestQueue
