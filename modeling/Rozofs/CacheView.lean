import Rozofs.RootCacheMap

/-! What the entries of a cache hold, as a map from the keys: how a search, an insertion and a
removal change it while no array of a bucket is freed with entries in it. -/
namespace Rozofs.RootCache
open Function (update)

/-- What the entry of a key holds, when a search finds it. -/
def contents {κ γ : Type} [DecidableEq κ] (hash : κ → BitVec 32) (cache : Cache κ) (held : Nat → γ) (key : κ) : Option γ :=
  (searchEntry hash key cache).bind fun result => result.1.map held

section Contents
variable {κ γ : Type} [DecidableEq κ] {hash : κ → BitVec 32} {cache cache' : Cache κ} {live : List (κ × Nat)} {files : Nat → γ}

theorem Held.contents_eq (held : Held hash cache live) (files : Nat → γ) (k : κ) :
    contents hash cache files k = (live.lookup k).map files := by
  obtain ⟨cache',eq,-⟩ := held.search_lookup k
  rw [contents,eq,Option.bind_some]

/-- The same entries are found after a search. -/
theorem Held.contents_congr (held : Held hash cache live) (held' : Held hash cache' live) (files : Nat → γ) :
    contents hash cache' files = contents hash cache files := by
  funext k
  rw [held.contents_eq,held'.contents_eq]

theorem Held.contents_of_mem (held : Held hash cache live) (member : (k,e) ∈ live) (files : Nat → γ) :
    contents hash cache files k = some (files e) := by
  rw [held.contents_eq,lookup_of_mem held.keys member,Option.map_some]

theorem Held.contents_absent (held : Held hash cache live) (absent : ∀ p ∈ live, p.1 ≠ k) (files : Nat → γ) :
    contents hash cache files k = none := by
  rw [contents,held.search_absent absent,Option.bind_some]
  rfl

/-- A search finds the entry of a key of the cache, and nothing for other keys. -/
theorem Held.search_cases (held : Held hash cache live) (k : κ) :
    (∃ e cache', (k,e) ∈ live ∧ searchEntry hash k cache = some (some e,cache') ∧ Held hash cache' live) ∨
    (∀ p ∈ live, p.1 ≠ k) ∧ searchEntry hash k cache = some (none,cache) := by
  by_cases there : ∃ p ∈ live, p.1 = k
  · obtain ⟨p,member,rfl⟩ := there
    obtain ⟨cache',eq,held'⟩ := held.search member
    exact .inl ⟨p.2,cache',member,eq,held'⟩
  · have absent : ∀ p ∈ live, p.1 ≠ k := fun p member same => there ⟨p,member,same⟩
    exact .inr ⟨absent,held.search_absent absent⟩

theorem mem_of_lookup (found : live.lookup k = some e) : (k,e) ∈ live := by
  obtain ⟨before,after,split,-⟩ := List.lookup_eq_some_iff.mp found
  rw [split]
  exact List.mem_append_right before List.mem_cons_self

/-- What one entry holds is replaced. -/
theorem Held.contents_update (held : Held hash cache live) (member : (k,e) ∈ live) (file : γ) :
    contents hash cache (update files e file) = update (contents hash cache files) k (some file) := by
  funext other
  by_cases same : other = k
  · subst same
    rw [held.contents_of_mem member,Function.update_self,Function.update_self]
  · rw [Function.update_of_ne same,held.contents_eq,held.contents_eq]
    cases there : live.lookup other with
    | none => rfl
    | some e' =>
      have apart : e' ≠ e := by
        rintro rfl
        exact same (congrArg Prod.fst (unique_of_map held.entries (mem_of_lookup there) member rfl))
      rw [Option.map_some,Option.map_some,Function.update_of_ne apart]

/-- The keys of a part of the cache are found as before, or not any more. -/
theorem lookup_filter (keys : (live.map Prod.fst).Nodup) (kept : κ × Nat → Bool) (k : κ) :
    (live.filter kept).lookup k = live.lookup k ∨ (live.filter kept).lookup k = none := by
  cases found : (live.filter kept).lookup k with
  | none => exact .inr rfl
  | some e =>
    left
    exact (lookup_of_mem keys (List.mem_of_mem_filter (mem_of_lookup found))).symm

/-- A new entry holds what it was given, and the other keys hold what they held or were evicted. -/
theorem Held.contents_insert (held : Held hash cache live) (unused : ∀ p ∈ live, p.2 ≠ e)
    (held' : Held hash cache' ((k,e) :: live.filter kept)) (files : Nat → γ) (file : γ) :
    contents hash cache' (update files e file) k = some file ∧ ∀ other, other ≠ k →
      contents hash cache' (update files e file) other = contents hash cache files other ∨
      contents hash cache' (update files e file) other = none := by
  refine ⟨?_,fun other apart => ?_⟩
  · rw [held'.contents_of_mem List.mem_cons_self,Function.update_self]
  · rw [held'.contents_eq,held.contents_eq,List.lookup_cons,beq_false_of_ne apart]
    dsimp only
    rcases lookup_filter held.keys kept other with same | gone
    · rw [same]
      left
      cases there : live.lookup other with
      | none => rfl
      | some e' => rw [Option.map_some,Option.map_some,Function.update_of_ne (unused _ (mem_of_lookup there))]
    · rw [gone]
      exact .inr rfl

/-- A removal, whether the k is in the cache or not. -/
theorem Held.remove_contents (held : Held hash cache live) (kept : keepsKey hash k cache = true) (files : Nat → γ) :
    ∃ done cache', removeEntry hash k cache = some (done,cache') ∧ Held hash cache' (live.filter fun p => p.1 ≠ k) ∧
      contents hash cache' files = update (contents hash cache files) k none := by
  obtain ⟨done,cache',eq,held'⟩ : ∃ done cache', removeEntry hash k cache = some (done,cache') ∧
      Held hash cache' (live.filter fun p => p.1 ≠ k) := by
    by_cases there : ∃ p ∈ live, p.1 = k
    · obtain ⟨p,member,rfl⟩ := there
      obtain ⟨cache',eq,-,-,held'⟩ := held.remove member kept
      exact ⟨true,cache',eq,held'⟩
    · have missing : ∀ p ∈ live, p.1 ≠ k := fun p member same => there ⟨p,member,same⟩
      refine ⟨false,cache,held.remove_absent missing,?_⟩
      rw [List.filter_eq_self.mpr fun p member => decide_eq_true (missing p member)]
      exact held
  refine ⟨done,cache',eq,held',funext fun other => ?_⟩
  by_cases same : other = k
  · subst same
    rw [Function.update_self]
    exact held'.contents_absent (fun p member => of_decide_eq_true (List.mem_filter.mp member).2) files
  · rw [Function.update_of_ne same,held.contents_eq,held'.contents_eq]
    cases there : live.lookup other with
    | none =>
      rcases lookup_filter held.keys (fun p => p.1 ≠ k) other with kept | gone
      · rw [kept,there]
      · rw [gone]
    | some e =>
      have member : (other,e) ∈ live.filter fun p => p.1 ≠ k := List.mem_filter.mpr ⟨mem_of_lookup there,decide_eq_true same⟩
      rw [lookup_of_mem held'.keys member]

end Contents

end Rozofs.RootCache
