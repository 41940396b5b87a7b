import Rozofs.MultipleAtomic

/-! When `export_mknod`, `export_mkdir` and `export_symlink` leave the namespace as it was on an
error. -/
namespace Rozofs.Namespace
open KeyTable

variable {env : Env} {s s' : State}

theorem Same.trans {s'' : State} (first : Same s s') (second : Same s' s'') : Same s s'' :=
  ⟨fun i => (second.attrs i).trans (first.attrs i),fun d n => (second.entries d n).trans (first.entries d n),
    second.recycled.trans first.recycled,second.links.trans first.links⟩

theorem same_setFolder (s : State) (d : Nat) (there : Bool) : Same s (s.setFolder d there) := ⟨fun _ => rfl,fun _ _ => rfl,rfl,rfl⟩

/-- A change of one entry that it sees. -/
theorem not_same_entry {d : Nat} {n : Name} (changed : (s'.entries d).get n ≠ (s.entries d).get n) : ¬Same s s' :=
  fun same => changed (same.entries d n)

section Mknod
variable (name : Name) (kind : Kind) (uid gid : Nat) (sgid dir : Bool)

/-- A call of `export_mknod` that loses a recycled inode, or that redirects or removes a name. -/
def MknodSpoils (env : Env) (s : State) (pfid : Fid) (name : Name) (kind : Kind) : Prop :=
  pfid.del = false ∧ ∃ p, s.lookup env .parent pfid.inode = some p ∧
    if isMultiple name then MknodMultipleSpoils env s pfid.inode p name kind
    else env.deviceFull = false ∧ env.fails .find = false ∧
      ((s.entries pfid.inode).get name).bind (fun e => s.lookup env .child e.inode) = none ∧ env.overQuota = false ∧
        MknodCreateSpoils env s pfid.inode p name

theorem atomic_mknod (unused : Unused env s) (pfid : Fid) :
    Atomic s (mknod env s pfid name kind uid gid sgid dir) ↔ ¬MknodSpoils env s pfid name kind := by
  have unchanged : ∀ {error : Option Errno}, ¬MknodSpoils env s pfid name kind → (Atomic s (s,error) ↔ ¬MknodSpoils env s pfid name kind) :=
    fun fine => ⟨fun _ => fine,fun _ => atomic_unchanged _ _⟩
  simp only [mknod]
  split
  · rename_i del
    apply unchanged
    rintro ⟨active,_⟩
    rw [del] at active
    cases active
  · rename_i active
    split
    · rename_i missing
      apply unchanged
      rintro ⟨_,p,here,_⟩
      rw [missing] at here
      cases here
    · rename_i p here
      have spoils : MknodSpoils env s pfid name kind ↔
          if isMultiple name then MknodMultipleSpoils env s pfid.inode p name kind
          else env.deviceFull = false ∧ env.fails .find = false ∧
            ((s.entries pfid.inode).get name).bind (fun e => s.lookup env .child e.inode) = none ∧ env.overQuota = false ∧
              MknodCreateSpoils env s pfid.inode p name := by
        simp only [MknodSpoils,here,Option.some.injEq,exists_eq_left',eq_false_of_ne_true active,true_and]
      rw [spoils]
      split
      · exact atomic_mknodMultiple unused kind uid (newGid p gid) sgid
      · by_cases full : env.deviceFull = true
        · simp [full,atomic_unchanged]
        · by_cases unreadable : env.fails .find = true
          · simp [full,unreadable,atomic_unchanged]
          · simp only [full,unreadable,Bool.false_eq_true,if_false,true_and]
            cases ((s.entries pfid.inode).get name).bind fun e => s.lookup env .child e.inode with
            | some a =>
              simp only [reduceCtorEq,false_and,not_false_eq_true,iff_true]
              split
              · exact atomic_unchanged _ _
              · exact atomic_unchanged _ _
            | none =>
              by_cases quota : env.overQuota = true
              · simp [quota,atomic_unchanged]
              · simp only [quota,Bool.false_eq_true,if_false,true_and]
                exact atomic_mknodCreate name kind uid (newGid p gid) sgid dir unused

end Mknod

section Mkdir
variable {pfid : Nat} {p : Attr} (name : Name) (uid gid : Nat) (sgid : Bool)

theorem same_mkdirError (s : State) (errno : Errno) : Same s (mkdirError env s errno).1 := by
  unfold mkdirError
  split
  · exact Same.refl s
  · split
    · exact Same.refl s
    · exact same_setFolder s _ false

theorem atomic_mkdirError (s : State) (errno : Errno) : Atomic s (mkdirError env s errno) :=
  ⟨fun _ => same_mkdirError s errno,(same_mkdirError s errno).namesKept⟩

theorem same_mkdirCleanup (s : State) (new : Nat) (errno : Errno) : Same (s.delete new) (mkdirCleanup s new errno).1 := by
  simp only [mkdirCleanup]
  split
  · exact Same.refl _
  · exact same_setFolder _ new false

/-- The entry of the new directory is written. -/
def MkdirPuts (env : Env) (p : Attr) : Prop :=
  env.fails .allocate = false ∧ env.fails .resolve = false ∧ env.fails .mkdirPath = false ∧ env.fails .openPath = false ∧
    env.fails .bitmap = false ∧ putFails env p = false

/-- The entry of the new directory stays although its inode is released, or takes a name. -/
def MkdirCreateSpoils (env : Env) (s : State) (pfid : Nat) (p : Attr) (name : Name) : Prop :=
  MkdirPuts env p ∧ (env.fails .write = true ∨ env.fails .writeParent = true ∨ env.fails .initialBitmap = true ∨
    (s.entries pfid).get name ≠ none)

/-- Before the entry is written the inode is given back. -/
theorem mkdirCreate_early (unused : Unused env s) (early : ¬MkdirPuts env p) : Same s (mkdirCreate env s pfid p name uid gid sgid).1 := by
  let a := newDirectory uid gid sgid p pfid
  have released : Same s ((s.create (env.fresh 0) a).delete (env.fresh 0)) := same_delete_create unused 0 a
  have made : Same s ((((s.create (env.fresh 0) a).setFolder (env.fresh 0) true)).delete (env.fresh 0)) :=
    released.trans (same_setFolder _ _ true)
  simp only [mkdirCreate]
  split
  · exact same_mkdirError s _
  · split
    · exact released.trans (same_mkdirError _ _)
    · split
      · exact released.trans (same_mkdirCleanup _ _ _)
      · split
        · exact made.trans (same_mkdirCleanup _ _ _)
        · split
          · exact made.trans (same_mkdirCleanup _ _ _)
          · split
            · exact made.trans (same_mkdirCleanup _ _ _)
            · simp_all [MkdirPuts]

theorem mkdirCleanup_entries (s : State) (new : Nat) (errno : Errno) : (mkdirCleanup s new errno).1.entries = s.entries := by
  simp only [mkdirCleanup]
  split
  · rfl
  · rfl

/-- The entry that a creation of a directory leaves, and when the creation fails. -/
theorem mkdirCreate_puts (s : State) (pfid : Nat) (puts : MkdirPuts env p) :
    (mkdirCreate env s pfid p name uid gid sgid).1.entries = (s.putEntry pfid name ⟨env.fresh 0,false,true⟩).entries ∧
      ((mkdirCreate env s pfid p name uid gid sgid).2 ≠ none ↔
        env.fails .write = true ∨ env.fails .writeParent = true ∨ env.fails .initialBitmap = true) := by
  obtain ⟨allocate,resolve,mkdirPath,openPath,bitmap,put⟩ := puts
  simp only [mkdirCreate,allocate,resolve,mkdirPath,openPath,bitmap,put,Bool.false_eq_true,if_false]
  split
  · rename_i write
    exact ⟨mkdirCleanup_entries .., by simp [mkdirCleanup,write]⟩
  · rename_i write
    split
    · rename_i writeParent
      refine ⟨(mkdirCleanup_entries ..).trans (modify_entries ..),?_⟩
      simp [mkdirCleanup,writeParent]
    · rename_i writeParent
      refine ⟨modify_entries ..,?_⟩
      simp [write,writeParent]

theorem atomic_mkdirCreate (unused : Unused env s) :
    Atomic s (mkdirCreate env s pfid p name uid gid sgid) ↔ ¬MkdirCreateSpoils env s pfid p name := by
  by_cases puts : MkdirPuts env p
  · obtain ⟨entries,fails⟩ := mkdirCreate_puts name uid gid sgid s pfid puts
    have other : ∀ e, (s.entries pfid).get name = some e → e.inode ≠ env.fresh 0 := fun e here => (unused.entry _ _ _ here).1 0
    have kept := namesKept_putEntry entries other
    have written : ¬Same s (mkdirCreate env s pfid p name uid gid sgid).1 := by
      apply not_same_entry (d := pfid) (n := name)
      rw [entries,get_putEntry,if_pos ⟨rfl,rfl⟩]
      intro same
      exact other _ same.symm rfl
    simp only [MkdirCreateSpoils,puts,true_and]
    constructor
    · rintro atomic (write | writeParent | bitmap | present)
      · exact written (atomic.1 (fails.mpr (.inl write)))
      · exact written (atomic.1 (fails.mpr (.inr (.inl writeParent))))
      · exact written (atomic.1 (fails.mpr (.inr (.inr bitmap))))
      · exact present (kept.mp atomic.2)
    · intro fine
      simp only [not_or,not_not] at fine
      obtain ⟨write,writeParent,bitmap,absent⟩ := fine
      refine ⟨?_,kept.mpr absent⟩
      intro failed
      rcases fails.mp failed with bad | bad | bad
      · exact absurd bad write
      · exact absurd bad writeParent
      · exact absurd bad bitmap
  · have same : Same s (mkdirCreate env s pfid p name uid gid sgid).1 := mkdirCreate_early name uid gid sgid unused puts
    exact ⟨fun _ spoils => puts spoils.1,fun _ => ⟨fun _ => same,same.namesKept⟩⟩

/-- A call of `export_mkdir` that redirects a name whose inode cannot be read, or that leaves something behind. -/
def MkdirSpoils (env : Env) (s : State) (pfid : Fid) (name : Name) : Prop :=
  pfid.del = false ∧ env.deviceFull = false ∧ name ≠ dirTrash ∧ env.fails .find = false ∧ env.overQuota = false ∧
    ∃ p, s.lookup env .parent pfid.inode = some p ∧
      ((s.entries pfid.inode).get name).bind (fun e => s.lookup env .child e.inode) = none ∧ MkdirCreateSpoils env s pfid.inode p name

/-- The search that finds a name leaves 0 in `errno`: the entry is not removed. -/
theorem searchErrno_found {found : Option Entry} {e : Entry} (here : found = some e) : searchErrno found ≠ .enoent := by
  rw [here]
  intro same
  cases same

theorem atomic_mkdir (unused : Unused env s) (pfid : Fid) :
    Atomic s (mkdir env s pfid name uid gid sgid) ↔ ¬MkdirSpoils env s pfid name := by
  have unchanged : ∀ {r : Result}, Atomic s r → ¬MkdirSpoils env s pfid name → (Atomic s r ↔ ¬MkdirSpoils env s pfid name) :=
    fun atomic fine => ⟨fun _ => fine,fun _ => atomic⟩
  simp only [mkdir]
  split
  · rename_i del
    apply unchanged (atomic_mkdirError s _)
    rintro ⟨active,_⟩
    rw [del] at active
    cases active
  · rename_i active
    split
    · rename_i full
      apply unchanged (atomic_mkdirError s _)
      rintro ⟨_,space,_⟩
      rw [full] at space
      cases space
    · rename_i space
      split
      · rename_i missing
        apply unchanged (atomic_mkdirError s _)
        rintro ⟨_,_,_,_,_,p,here,_⟩
        rw [missing] at here
        cases here
      · rename_i p here
        split
        · rename_i trash
          have fine : ¬MkdirSpoils env s pfid name := fun spoils => spoils.2.2.1 trash
          split
          · exact unchanged (atomic_mkdirError s _) fine
          · refine unchanged (atomic_done.mpr ?_) fine
            intro d n e there
            rw [modify_entries]
            exact there
        · rename_i plain
          split
          · rename_i unreadable
            apply unchanged (atomic_unchanged s _)
            rintro ⟨_,_,_,readable,_⟩
            rw [unreadable] at readable
            cases readable
          · rename_i readable
            simp only [MkdirSpoils,here,eq_false_of_ne_true active,eq_false_of_ne_true space,eq_false_of_ne_true readable,plain,
              Option.some.injEq,exists_eq_left',ne_eq,not_false_eq_true,true_and]
            cases found : ((s.entries pfid.inode).get name).bind fun e => s.lookup env .child e.inode with
            | none =>
              simp only [true_and]
              split
              · rename_i quota
                simp [quota,atomic_mkdirError]
              · rename_i quota
                rw [atomic_mkdirCreate name uid (newGid p gid) (sgid || p.sgid) unused]
                simp [quota]
            | some a =>
              obtain ⟨e,there,_⟩ := Option.bind_eq_some_iff.mp found
              simp only [reduceCtorEq,false_and,and_false,not_false_eq_true,iff_true,if_pos (searchErrno_found there)]
              split
              · exact atomic_unchanged s _
              · exact atomic_mkdirError s _

end Mkdir

section Symlink
variable (length : Nat) (name : Name) (uid gid : Nat) (dir : Bool)

/-- A call of `export_symlink` that fails once it has a block for the link. -/
def SymlinkSpoils (env : Env) (s : State) (pfid : Fid) (name : Name) : Prop :=
  pfid.del = false ∧ env.fails .find = false ∧ (s.entries pfid.inode).get name = none ∧ env.fails .allocate = false ∧
    ∃ p, s.lookup env .parent pfid.inode = some p ∧
      (env.fails .bitmap = true ∨ putFails env p = true ∨ env.fails .write = true ∨ env.fails .writeParent = true)

theorem not_same_link {block : Nat} (unused : s.links block = false) (used : s'.links block = true) : ¬Same s s' := by
  intro same
  rw [same.links,unused] at used
  cases used

theorem atomic_symlink (unused : Unused env s) (pfid : Fid) :
    Atomic s (symlink env s length pfid name uid gid dir) ↔ ¬SymlinkSpoils env s pfid name := by
  have unchanged : ∀ {error : Option Errno}, ¬SymlinkSpoils env s pfid name → (Atomic s (s,error) ↔ ¬SymlinkSpoils env s pfid name) :=
    fun fine => ⟨fun _ => fine,fun _ => atomic_unchanged _ _⟩
  simp only [symlink]
  split
  · rename_i del
    apply unchanged
    rintro ⟨active,_⟩
    rw [del] at active
    cases active
  · rename_i active
    split
    · rename_i missing
      apply unchanged
      rintro ⟨_,_,_,_,p,here,_⟩
      rw [missing] at here
      cases here
    · rename_i p here
      split
      · rename_i unreadable
        apply unchanged
        rintro ⟨_,readable,_⟩
        rw [unreadable] at readable
        cases readable
      · rename_i readable
        split
        · rename_i present
          apply unchanged
          rintro ⟨_,_,absent,_⟩
          rw [absent] at present
          cases present
        · rename_i notThere
          have absent : (s.entries pfid.inode).get name = none := by simpa using notThere
          split
          · rename_i allocate
            apply unchanged
            rintro ⟨_,_,_,allocated,_⟩
            rw [allocate] at allocated
            cases allocated
          · rename_i allocated
            have spoils : SymlinkSpoils env s pfid name ↔
                env.fails .bitmap = true ∨ putFails env p = true ∨ env.fails .write = true ∨ env.fails .writeParent = true := by
              simp [SymlinkSpoils,here,active,readable,absent,allocated]
            have leaks : ∀ {s' : State} {error : Errno}, s'.links env.freshLink = true → ¬Atomic s (s',some error) :=
              fun used atomic => not_same_link unused.link used (atomic_failed.mp atomic)
            rw [spoils]
            split
            · rename_i bitmap
              simp only [bitmap,true_or,not_true_eq_false,iff_false]
              exact leaks (by simp [State.setLink])
            · rename_i bitmap
              split
              · rename_i put
                simp only [put,true_or,or_true,not_true_eq_false,iff_false]
                exact leaks (by simp [State.setLink])
              · rename_i put
                split
                · rename_i write
                  simp only [write,true_or,or_true,not_true_eq_false,iff_false]
                  exact leaks (by simp [State.setLink])
                · rename_i write
                  split
                  · rename_i writeParent
                    simp only [writeParent,or_true,not_true_eq_false,iff_false]
                    exact leaks (by simp [State.setLink])
                  · rename_i writeParent
                    simp only [bitmap,put,write,writeParent,or_self,Bool.false_eq_true,not_false_eq_true,iff_true]
                    apply atomic_done.mpr
                    apply (namesKept_putEntry (e := ⟨env.fresh 0,false,dir⟩) ?_ ?_).mpr absent
                    · exact modify_entries ..
                    · intro e there
                      rw [absent] at there
                      cases there

end Symlink

end Rozofs.Namespace
