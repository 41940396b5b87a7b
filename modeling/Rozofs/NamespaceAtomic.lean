import Rozofs.NamespaceRemoval

/-! What it is for a call to leave the namespace as it was when it fails, and when `export_mknod`,
`export_mkdir` and `export_symlink` do. -/
namespace Rozofs.Namespace
open KeyTable
open Function (update)

variable {env : Env} {s s' : State} {r : Result}

/-- The entries, the inodes with their counters, the inodes to recycle and the blocks of symbolic
links are as before. -/
structure Same (s s' : State) : Prop where
  attrs : ∀ i, s'.attrs.get i = s.attrs.get i
  entries : ∀ d n, (s'.entries d).get n = (s.entries d).get n
  recycled : s'.recycled = s.recycled
  links : s'.links = s.links

theorem Same.refl (s : State) : Same s s := ⟨fun _ => rfl,fun _ _ => rfl,rfl,rfl⟩

/-- No name is removed or redirected. -/
def NamesKept (s s' : State) : Prop := ∀ d n e, (s.entries d).get n = some e → (s'.entries d).get n = some e

/-- What a creation does: nothing when it fails, and no harm to a name. -/
def Atomic (s : State) (r : Result) : Prop := (r.2 ≠ none → Same s r.1) ∧ NamesKept s r.1

theorem atomic_unchanged (s : State) (error : Option Errno) : Atomic s (s,error) :=
  ⟨fun _ => Same.refl s,fun _ _ _ here => here⟩

theorem Same.namesKept (same : Same s s') : NamesKept s s' := fun d n _ here => (same.entries d n).trans here

theorem atomic_failed {error : Errno} : Atomic s (s',some error) ↔ Same s s' :=
  ⟨fun atomic => atomic.1 (by simp),fun same => ⟨fun _ => same,same.namesKept⟩⟩

theorem atomic_done : Atomic s (s',none) ↔ NamesKept s s' :=
  ⟨fun atomic => atomic.2,fun kept => ⟨fun failed => absurd rfl failed,kept⟩⟩

/-- The numbers that the allocator gives are not in use, and no entry refers to them nor to an inode
to recycle. -/
structure Unused (env : Env) (s : State) : Prop where
  inode : ∀ k, s.attrs.get (env.fresh k) = none
  link : s.links env.freshLink = false
  entry : ∀ d n e, (s.entries d).get n = some e → (∀ k, e.inode ≠ env.fresh k) ∧ ∀ k, ∀ r ∈ s.recycled k, r.1 ≠ e.inode

/-- One operation fails at a time. -/
theorem fails_unique {f g : Fault} (first : env.fails f = true) (other : f ≠ g) : env.fails g = false := by
  simp only [Env.fails,decide_eq_true_eq] at first
  simp [Env.fails,first,other]

/-- An inode that is allocated and released again. -/
theorem same_delete_create (unused : Unused env s) (k : Nat) (a : Attr) : Same s ((s.create (env.fresh k) a).delete (env.fresh k)) :=
  ⟨get_delete_create (unused.inode k) a,fun _ _ => rfl,rfl,rfl⟩

/-- A new entry keeps the names if and only if the name is new. -/
theorem namesKept_putEntry {pfid : Nat} {name : Name} {e : Entry} (entries : s'.entries = (s.putEntry pfid name e).entries)
    (new : ∀ e', (s.entries pfid).get name = some e' → e'.inode ≠ e.inode) :
    NamesKept s s' ↔ (s.entries pfid).get name = none := by
  constructor
  · intro kept
    cases here : (s.entries pfid).get name with
    | none => rfl
    | some e' =>
      have after := kept pfid name e' here
      simp only [entries,get_putEntry,true_and,if_true,Option.some.injEq] at after
      exact absurd (congrArg Entry.inode after).symm (new e' here)
  · intro absent d n e' here
    rw [entries,get_putEntry]
    by_cases place : d = pfid ∧ n = name
    · rw [place.1,place.2,absent] at here
      cases here
    · rw [if_neg place]
      exact here

section Mknod
variable {pfid : Nat} {p : Attr} (name : Name) (kind : Kind) (uid gid : Nat) (sgid dir : Bool)

/-- An inode is taken from the list of those to recycle. -/
def Reuses (env : Env) (s : State) (pfid : Nat) : Prop := env.recycle = true ∧ s.recycled (slice pfid) ≠ []

/-- The second part of `export_mknod` fails. -/
def MknodFails (env : Env) (s : State) (pfid : Nat) (p : Attr) : Prop :=
  (¬Reuses env s pfid ∧ (env.fails .distribute = true ∨ env.fails .allocate = true)) ∨ env.fails .bitmap = true ∨ putFails env p = true

/-- A recycled inode is lost, or a name redirected. -/
def MknodCreateSpoils (env : Env) (s : State) (pfid : Nat) (p : Attr) (name : Name) : Prop :=
  (MknodFails env s pfid p ∧ Reuses env s pfid) ∨ (¬MknodFails env s pfid p ∧ (s.entries pfid).get name ≠ none)

theorem takeRecycled_cases (env : Env) (s : State) (pfid : Nat) :
    (¬Reuses env s pfid ∧ takeRecycled env s pfid = (s,none)) ∨ (Reuses env s pfid ∧ ∃ first rest, s.recycled (slice pfid) = first :: rest ∧
      takeRecycled env s pfid = (s.setRecycled (slice pfid) rest,if env.fails .recycled then none else some first)) := by
  unfold takeRecycled
  split
  · rename_i off
    exact .inl ⟨fun reuses => absurd reuses.1 (by simp [off]),rfl⟩
  · rename_i on
    split
    · rename_i none
      exact .inl ⟨fun reuses => reuses.2 none,rfl⟩
    · rename_i first rest here
      exact .inr ⟨⟨by simpa using on,by simp [here]⟩,first,rest,here,rfl⟩

theorem not_same_setRecycled {k : Nat} {first : Nat × Attr} {rest : List (Nat × Attr)} (here : s.recycled k = first :: rest) (recycled : s'.recycled k = rest) : ¬Same s s' := by
  intro same
  rw [same.recycled,here] at recycled
  exact absurd (congrArg List.length recycled) (by simp)

/-- A failure gives back the new inode, but not a recycled one. -/
theorem mknodCreate_fails (unused : Unused env s) (fails : MknodFails env s pfid p) :
    ∃ error, (mknodCreate env s pfid p name kind uid gid sgid dir).2 = some error ∧
      (Same s (mknodCreate env s pfid p name kind uid gid sgid dir).1 ↔ ¬Reuses env s pfid) := by
  obtain ⟨fresh,taken⟩ | ⟨reuses,first,rest,here,taken⟩ := takeRecycled_cases env s pfid
  · have released := same_delete_create unused 0 (newFile kind uid gid sgid 0 p pfid none)
    simp only [mknodCreate,taken,Option.map_none,Option.getD_none,true_and,if_true]
    split
    · exact ⟨_,rfl,fun _ => fresh,fun _ => Same.refl s⟩
    · split
      · exact ⟨_,rfl,fun _ => fresh,fun _ => Same.refl s⟩
      · split
        · exact ⟨_,rfl,fun _ => fresh,fun _ => released⟩
        · split
          · exact ⟨_,rfl,fun _ => fresh,fun _ => released⟩
          · simp_all [MknodFails]
  · have lost : ∀ s', s'.recycled (slice pfid) = rest → (Same s s' ↔ ¬Reuses env s pfid) := fun s' recycled =>
      ⟨fun same => absurd same (not_same_setRecycled here recycled),fun fresh => absurd reuses fresh⟩
    have recycled : (s.setRecycled (slice pfid) rest).recycled (slice pfid) = rest := by simp [State.setRecycled]
    generalize (if env.fails .recycled then none else some first) = inode at taken
    simp only [mknodCreate,taken]
    split
    · exact ⟨_,rfl,lost _ recycled⟩
    · split
      · exact ⟨_,rfl,lost _ recycled⟩
      · split
        · refine ⟨_,rfl,lost _ ?_⟩
          split
          · exact recycled
          · exact recycled
        · split
          · refine ⟨_,rfl,lost _ ?_⟩
            split
            · exact recycled
            · exact recycled
          · simp_all [MknodFails]

/-- A success gives the name a new or a recycled inode. -/
theorem mknodCreate_succeeds (done : ¬MknodFails env s pfid p) :
    (mknodCreate env s pfid p name kind uid gid sgid dir).2 = none ∧ ∃ new, (new = env.fresh 0 ∨ ∃ k, ∃ r ∈ s.recycled k, r.1 = new) ∧
      (mknodCreate env s pfid p name kind uid gid sgid dir).1.entries = (s.putEntry pfid name ⟨new,false,dir⟩).entries := by
  simp only [MknodFails,not_or,not_and,Bool.not_eq_true] at done
  obtain ⟨early,bitmap,put⟩ := done
  obtain ⟨fresh,taken⟩ | ⟨reuses,first,rest,here,taken⟩ := takeRecycled_cases env s pfid
  · obtain ⟨distribute,allocate⟩ := early fresh
    simp only [mknodCreate,taken,distribute,allocate,bitmap,put,Option.map_none,Option.getD_none,Bool.false_eq_true,and_false,if_false]
    exact ⟨trivial,_,.inl rfl,modify_entries ..⟩
  · simp only [mknodCreate,taken,bitmap,put,Bool.false_eq_true,if_false]
    cases read : env.fails .recycled with
    | true =>
      simp only [fails_unique read (by decide : Fault.recycled ≠ .distribute),fails_unique read (by decide : Fault.recycled ≠ .allocate),
        if_true,Option.map_none,Option.getD_none,Bool.false_eq_true,and_false,if_false]
      exact ⟨trivial,_,.inl rfl,modify_entries ..⟩
    | false =>
      simp only [Bool.false_eq_true,if_false,reduceCtorEq,false_and,Option.map_some,Option.getD_some]
      exact ⟨trivial,_,.inr ⟨slice pfid,first, by simp [here],rfl⟩,modify_entries ..⟩

theorem atomic_mknodCreate (unused : Unused env s) :
    Atomic s (mknodCreate env s pfid p name kind uid gid sgid dir) ↔ ¬MknodCreateSpoils env s pfid p name := by
  by_cases fails : MknodFails env s pfid p
  · obtain ⟨error,failed,same⟩ := mknodCreate_fails name kind uid gid sgid dir unused fails
    have spoils : MknodCreateSpoils env s pfid p name ↔ Reuses env s pfid := by simp [MknodCreateSpoils,fails]
    have result : mknodCreate env s pfid p name kind uid gid sgid dir = (_,some error) := Prod.ext rfl failed
    rw [spoils,← same,result,atomic_failed]
  · obtain ⟨done,new,origin,entries⟩ := mknodCreate_succeeds name kind uid gid sgid dir fails
    have other : ∀ e, (s.entries pfid).get name = some e → e.inode ≠ new := by
      intro e here same
      obtain ⟨notFresh,notRecycled⟩ := unused.entry _ _ _ here
      rcases origin with fresh | ⟨k,r,member,own⟩
      · exact notFresh 0 (same.trans fresh)
      · exact notRecycled k r member (own.trans same.symm)
    have spoils : MknodCreateSpoils env s pfid p name ↔ (s.entries pfid).get name ≠ none := by simp [MknodCreateSpoils,fails]
    have result : mknodCreate env s pfid p name kind uid gid sgid dir = (_,none) := Prod.ext rfl done
    rw [spoils,not_not,← namesKept_putEntry entries other,result,atomic_done]

end Mknod


end Rozofs.Namespace
