import Mathlib.Data.List.Nodup

/-! Chained lists in a memory: the nodes that a reference leads to, each naming the next one. A list that
ends holds no node twice, and a part of it is replaced by the references before and inside of the part only. -/
namespace LinkedPath

/-- The reference leads through the nodes of the list, in their order, to the last reference. -/
def Leads (next : α → Option α) : Option α → List α → Option α → Prop
  | start, [], stop => start = stop
  | start, a :: rest, stop => start = some a ∧ Leads next (next a) rest stop

section Paths
variable {next next' : α → Option α} {start stop : Option α} {path path' pre rest : List α} {a : α}

theorem leads_append : Leads next start (pre ++ rest) stop ↔ ∃ middle, Leads next start pre middle ∧ Leads next middle rest stop := by
  induction pre generalizing start with
  | nil =>
    constructor
    · exact fun leads => ⟨start,rfl,leads⟩
    · rintro ⟨_,same,leads⟩
      cases same
      exact leads
  | cons b pre ih =>
    simp only [List.cons_append,Leads,ih]
    constructor
    · rintro ⟨first,middle,before,after⟩
      exact ⟨middle,⟨first,before⟩,after⟩
    · rintro ⟨middle,⟨first,before⟩,after⟩
      exact ⟨first,middle,before,after⟩

/-- What the list reads of the memory is its nodes. -/
theorem Leads.congr (leads : Leads next start path stop) (same : ∀ b ∈ path, next' b = next b) : Leads next' start path stop := by
  induction path generalizing start with
  | nil => exact leads
  | cons b path ih =>
    obtain ⟨first,leads⟩ := leads
    refine ⟨first,?_⟩
    rw [same b List.mem_cons_self]
    exact ih leads fun c member => same c (List.mem_cons_of_mem b member)

/-- Two lists from one reference: the one to the end goes on from the other. -/
theorem Leads.unique (leads : Leads next start path none) (leads' : Leads next start path' none) : path = path' := by
  induction path generalizing start path' with
  | nil =>
    cases path' with
    | nil => rfl
    | cons b path' => cases leads.symm.trans leads'.1
  | cons b path ih =>
    cases path' with
    | nil => cases leads'.symm.trans leads.1
    | cons c path' =>
      obtain rfl := Option.some.inj (leads.1.symm.trans leads'.1)
      rw [ih leads.2 leads'.2]

/-- A list that ends has no loop. -/
theorem Leads.nodup (leads : Leads next start path none) : path.Nodup := by
  induction path generalizing start with
  | nil => exact List.nodup_nil
  | cons b path ih =>
    refine List.nodup_cons.mpr ⟨fun again => ?_,ih leads.2⟩
    obtain ⟨before,after,parts⟩ := List.append_of_mem again
    have whole := leads.2
    rw [parts] at whole
    obtain ⟨_,_,_,tail⟩ := leads_append.mp whole
    have lengths := congrArg List.length (tail.unique leads.2)
    rw [parts,List.length_append,List.length_cons] at lengths
    omega

/-- The nodes after a node of the list. -/
theorem Leads.after (leads : Leads next start (pre ++ a :: rest) stop) : Leads next (next a) rest stop := by
  obtain ⟨_,_,_,after⟩ := leads_append.mp leads
  exact after

theorem Leads.next_of_cons {b : α} (leads : Leads next start (pre ++ a :: b :: rest) stop) : next a = some b := leads.after.1

theorem Leads.next_of_last (leads : Leads next start (pre ++ [a]) stop) : next a = stop := leads.after

/-- The node behind a node of the list is in the list. -/
theorem Leads.next_mem {b : α} (leads : Leads next start path none) (member : a ∈ path) (follows : next a = some b) : b ∈ path := by
  obtain ⟨before,after,rfl⟩ := List.append_of_mem member
  cases after with
  | nil => cases leads.next_of_last.symm.trans follows
  | cons c after =>
    obtain rfl := Option.some.inj (leads.next_of_cons.symm.trans follows)
    simp

/-- The node before a node of the list that is not the first. -/
theorem Leads.exists_before {b : α} (leads : Leads next (some a) path stop) (member : b ∈ path) (other : b ≠ a) :
    ∃ c ∈ path, next c = some b := by
  obtain ⟨before,after,rfl⟩ := List.append_of_mem member
  rcases List.eq_nil_or_concat before with rfl | ⟨init,c,rfl⟩
  · exact absurd (Option.some.inj leads.1).symm other
  · rw [List.concat_eq_append,List.append_assoc] at leads
    exact ⟨c,by simp,leads.next_of_cons⟩

/-- The nodes after `a` are replaced: nodes that the new list has in common with the old one keep their
reference. -/
theorem Leads.replace {old new : List α} (leads : Leads next start (pre ++ a :: (old ++ rest)) stop)
    (before : ∀ b ∈ pre, next' b = next b) (after : ∀ b ∈ rest, next' b = next b)
    (bridge : ∀ middle, Leads next (next a) old middle → Leads next' (next' a) new middle) :
    Leads next' start (pre ++ a :: (new ++ rest)) stop := by
  obtain ⟨_,head,first,tail⟩ := leads_append.mp leads
  obtain ⟨middle,inside,tail⟩ := leads_append.mp tail
  exact leads_append.mpr ⟨_,head.congr before,first,leads_append.mpr ⟨middle,bridge middle inside,tail.congr after⟩⟩

end Paths

end LinkedPath
