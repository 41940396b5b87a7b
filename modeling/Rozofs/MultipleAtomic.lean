import Rozofs.NamespaceAtomic

/-! When `export_mknod_multiple` leaves the namespace as it was. -/
namespace Rozofs.Namespace
open KeyTable

variable {env : Env} {s s' : State}

section Multiple
variable {pfid : Nat} {p a : Attr} {name base : Name} {dir : Bool} {made : Made}

/-- A pass of the loop over the files fails. -/
def PassFails (env : Env) (p : Attr) (k : Nat) : Prop :=
  (env.failsAt k .distribute = true ∨ env.failsAt k .allocate = true) ∨ env.failsAt k .bitmap = true ∨
    (env.failsAt k .put = true ∨ p.kind ≠ .dir) ∨ (fileId (env.fresh k) ≠ fileId (env.fresh 0) ∧ env.failsAt k .write = true)

/-- The loop has changed the inodes and the names of its passes only. -/
structure Framed (env : Env) (pfid : Nat) (name base : Name) (s : State) (made : Made) : Prop where
  attrs : ∀ j, (∀ k < made.allocated, j ≠ env.fresh k) → made.state.attrs.get j = s.attrs.get j
  entries : ∀ d n, (∀ k < made.allocated, ¬(d = pfid ∧ n = multipleName name base k)) →
    (made.state.entries d).get n = (s.entries d).get n
  recycled : made.state.recycled = s.recycled
  links : made.state.links = s.links

theorem framed_pass {k : Nat} {error : Option Errno} (framed : Framed env pfid name base s ⟨s',k,error⟩) :
    Framed env pfid name base s (multiplePass env pfid p a name base dir s' k) := by
  have created : ∀ j, (∀ i < k + 1, j ≠ env.fresh i) → (s'.create (env.fresh k) a).attrs.get j = s.attrs.get j := by
    intro j others
    rw [get_create,if_neg (others k (Nat.lt_succ_self k))]
    exact framed.attrs j fun i less => others i (Nat.lt_succ_of_lt less)
  have entries : ∀ d n, (∀ i < k + 1, ¬(d = pfid ∧ n = multipleName name base i)) → (s'.entries d).get n = (s.entries d).get n :=
    fun d n others => framed.entries d n fun i less => others i (Nat.lt_succ_of_lt less)
  unfold multiplePass
  simp only
  split
  · exact ⟨framed.attrs,framed.entries,framed.recycled,framed.links⟩
  · split
    · exact ⟨created,entries,framed.recycled,framed.links⟩
    · split
      · exact ⟨created,entries,framed.recycled,framed.links⟩
      · refine ⟨created,?_,framed.recycled,framed.links⟩
        intro d n others
        rw [get_putEntry,if_neg (others k (Nat.lt_succ_self k))]
        exact entries d n others

/-- What a pass allocates, and when it fails. -/
theorem multiplePass_error (s : State) (k : Nat) : (multiplePass env pfid p a name base dir s k).error = none ↔ ¬PassFails env p k := by
  unfold multiplePass PassFails
  simp only
  split
  · rename_i early
    simp [early]
  · rename_i early
    split
    · rename_i bitmap
      simp [bitmap]
    · rename_i bitmap
      split
      · rename_i put
        simp [put]
      · rename_i put
        simp only [early,bitmap,put,false_or,ite_eq_right_iff,reduceCtorEq,imp_false]

theorem multiplePass_allocated (s : State) (k : Nat) : (multiplePass env pfid p a name base dir s k).allocated =
    if env.failsAt k .distribute = true ∨ env.failsAt k .allocate = true then k else k + 1 := by
  unfold multiplePass
  simp only
  split
  · rfl
  · split
    · rfl
    · split
      · rfl
      · rfl

theorem multipleLoop_succ (passed : (multipleLoop env s pfid p a name base dir k).error = none) :
    multipleLoop env s pfid p a name base dir (k + 1) =
      multiplePass env pfid p a name base dir (multipleLoop env s pfid p a name base dir k).state k := by
  simp only [multipleLoop,passed,if_true]

theorem multipleLoop_stuck (stopped : (multipleLoop env s pfid p a name base dir k).error ≠ none) :
    multipleLoop env s pfid p a name base dir (k + 1) = multipleLoop env s pfid p a name base dir k := by
  simp only [multipleLoop,stopped,if_false]

theorem multipleLoop_error (n : Nat) : (multipleLoop env s pfid p a name base dir n).error = none ↔ ∀ k < n, ¬PassFails env p k := by
  induction n with
  | zero => simp [multipleLoop]
  | succ n ih =>
    by_cases passed : (multipleLoop env s pfid p a name base dir n).error = none
    · rw [multipleLoop_succ passed,multiplePass_error,Nat.forall_lt_succ_right]
      exact ⟨fun last => ⟨ih.mp passed,last⟩,fun all => all.2⟩
    · rw [multipleLoop_stuck passed,Nat.forall_lt_succ_right]
      exact ⟨fun none => absurd none passed,fun all => absurd (ih.mpr all.1) passed⟩

theorem multipleLoop_allocated_le (n : Nat) : (multipleLoop env s pfid p a name base dir n).allocated ≤ n := by
  induction n with
  | zero => exact Nat.le_refl 0
  | succ n ih =>
    by_cases passed : (multipleLoop env s pfid p a name base dir n).error = none
    · rw [multipleLoop_succ passed,multiplePass_allocated]
      split
      · omega
      · omega
    · rw [multipleLoop_stuck passed]
      omega

/-- The inode of the last pass is allocated. -/
theorem multipleLoop_allocated (n : Nat) : (multipleLoop env s pfid p a name base dir (n + 1)).allocated = n + 1 ↔
    (∀ k < n, ¬PassFails env p k) ∧ ¬(env.failsAt n .distribute = true ∨ env.failsAt n .allocate = true) := by
  by_cases passed : (multipleLoop env s pfid p a name base dir n).error = none
  · rw [multipleLoop_succ passed,multiplePass_allocated]
    have before := (multipleLoop_error n).mp passed
    split
    · rename_i early
      exact ⟨fun all => by omega,fun all => absurd early all.2⟩
    · rename_i early
      exact ⟨fun _ => ⟨before,early⟩,fun _ => rfl⟩
  · rw [multipleLoop_stuck passed]
    constructor
    · intro all
      have before : (multipleLoop env s pfid p a name base dir n).allocated ≤ n := multipleLoop_allocated_le n
      omega
    · intro all
      exact absurd ((multipleLoop_error n).mpr all.1) passed

theorem multipleLoop_passed (passed : (multipleLoop env s pfid p a name base dir n).error = none) :
    (multipleLoop env s pfid p a name base dir n).allocated = n := by
  cases n with
  | zero => rfl
  | succ n =>
    have all := (multipleLoop_error (n + 1)).mp passed
    exact (multipleLoop_allocated n).mpr ⟨fun k less => all k (by omega),fun early => all n (by omega) (.inl early)⟩

theorem framed_loop (n : Nat) : Framed env pfid name base s (multipleLoop env s pfid p a name base dir n) := by
  induction n with
  | zero => exact ⟨fun _ _ => rfl,fun _ _ _ => rfl,rfl,rfl⟩
  | succ n ih =>
    by_cases passed : (multipleLoop env s pfid p a name base dir n).error = none
    · rw [multipleLoop_succ passed]
      have allocated := multipleLoop_passed passed
      generalize multipleLoop env s pfid p a name base dir n = made at ih allocated
      obtain ⟨s',k,error⟩ := made
      subst allocated
      exact framed_pass ih
    · rw [multipleLoop_stuck passed]
      exact ih

theorem undo_attrs (s : State) (n j : Nat) :
    (multipleUndo env pfid name base s n).attrs.get j = if ∃ k < n, j = env.fresh k then none else s.attrs.get j := by
  induction n with
  | zero => simp [multipleUndo]
  | succ n ih =>
    simp only [multipleUndo,delEntry_attrs,get_delete,ih]
    by_cases last : j = env.fresh n
    · rw [if_pos last,if_pos ⟨n,Nat.lt_succ_self n,last⟩]
    · rw [if_neg last]
      congr 1
      simp only [Nat.lt_succ_iff_lt_or_eq,or_and_right,exists_or,exists_eq_left,last,or_false]

theorem undo_entries (s : State) (n d : Nat) (m : Name) : ((multipleUndo env pfid name base s n).entries d).get m =
    if ∃ k < n, d = pfid ∧ m = multipleName name base k then none else (s.entries d).get m := by
  induction n with
  | zero => simp [multipleUndo]
  | succ n ih =>
    simp only [multipleUndo,get_delEntry,delete_entries,ih]
    by_cases last : d = pfid ∧ m = multipleName name base n
    · rw [if_pos last,if_pos ⟨n,Nat.lt_succ_self n,last⟩]
    · rw [if_neg last]
      congr 1
      simp only [Nat.lt_succ_iff_lt_or_eq,or_and_right,exists_or,exists_eq_left,last,or_false]

theorem undo_rest (s : State) (n : Nat) :
    (multipleUndo env pfid name base s n).recycled = s.recycled ∧ (multipleUndo env pfid name base s n).links = s.links := by
  induction n with
  | zero => exact ⟨rfl,rfl⟩
  | succ n ih => exact ih

/-- The passes are undone when their names were not there. -/
theorem same_undo (unused : Unused env s) (framed : Framed env pfid name base s made)
    (absent : ∀ k < made.allocated, (s.entries pfid).get (multipleName name base k) = none) :
    Same s (multipleUndo env pfid name base made.state made.allocated) := by
  refine ⟨?_,?_,(undo_rest ..).1.trans framed.recycled,(undo_rest ..).2.trans framed.links⟩
  · intro j
    rw [undo_attrs]
    split
    · rename_i own
      obtain ⟨k,_,own⟩ := own
      rw [own,unused.inode]
    · rename_i other
      exact framed.attrs j fun k less same => other ⟨k,less,same⟩
  · intro d m
    rw [undo_entries]
    split
    · rename_i own
      obtain ⟨k,less,place,own⟩ := own
      rw [place,own,absent k less]
    · rename_i other
      exact framed.entries d m fun k less same => other ⟨k,less,same⟩

theorem multiplePass_entry {k : Nat} (passed : (multiplePass env pfid p a name base dir s k).error = none) :
    ((multiplePass env pfid p a name base dir s k).state.entries pfid).get (multipleName name base k) = some ⟨env.fresh k,false,dir⟩ := by
  have fine := (multiplePass_error s k).mp passed
  simp only [PassFails,not_or] at fine
  obtain ⟨early,bitmap,put,_⟩ := fine
  simp only [multiplePass,early,bitmap,put,or_self,if_false,get_putEntry,and_self,if_true,Bool.false_eq_true]

/-- The files are undone, or counted. -/
theorem multipleCreate_cases (env : Env) (s : State) (pfid : Nat) (p a : Attr) (name base : Name) (dir : Bool) (passes uid gid : Nat) :
    let made := multipleLoop env s pfid p a name base dir passes
    (∃ error, multipleCreate env s pfid p a name base dir passes uid gid =
      (multipleUndo env pfid name base made.state made.allocated,some error)) ∨
    (made.error = none ∧ (multipleCreate env s pfid p a name base dir passes uid gid).2 = none ∧
      (multipleCreate env s pfid p a name base dir passes uid gid).1.entries = made.state.entries) := by
  simp only [multipleCreate]
  split
  · exact .inl ⟨_,rfl⟩
  · rename_i none
    refine .inr ⟨?_,rfl,modify_entries ..⟩
    split at none
    · cases none
    · exact none

/-- The name of the last file is there, which the lookups do not reach, and the loop gets to it. -/
def MultipleSpoils (env : Env) (s : State) (pfid : Nat) (p : Attr) (name base : Name) (passes : Nat) : Prop :=
  ∃ last, passes = last + 1 ∧ (s.entries pfid).get (multipleName name base last) ≠ none ∧ (∀ k < last, ¬PassFails env p k) ∧
    ¬(env.failsAt last .distribute = true ∨ env.failsAt last .allocate = true)

theorem not_atomic_multipleCreate (unused : Unused env s) (uid gid : Nat) (spoils : MultipleSpoils env s pfid p name base passes) :
    ¬Atomic s (multipleCreate env s pfid p a name base dir passes uid gid) := by
  obtain ⟨last,rfl,present,before⟩ := spoils
  obtain ⟨e,here⟩ := Option.ne_none_iff_exists'.mp present
  have allocated : (multipleLoop env s pfid p a name base dir (last + 1)).allocated = last + 1 := (multipleLoop_allocated last).mpr before
  intro atomic
  have kept := atomic.2 _ _ _ here
  obtain ⟨error,result⟩ | ⟨passed,_,entries⟩ := multipleCreate_cases env s pfid p a name base dir (last + 1) uid gid
  · rw [result,undo_entries,if_pos ⟨last,by omega,rfl,rfl⟩] at kept
    cases kept
  · rw [entries] at kept
    have previous : (multipleLoop env s pfid p a name base dir last).error = none := (multipleLoop_error last).mpr before.1
    rw [multipleLoop_succ previous] at passed kept
    rw [multiplePass_entry passed] at kept
    cases kept
    exact (unused.entry _ _ _ here).1 last rfl

theorem atomic_multipleCreate (unused : Unused env s) (uid gid passes : Nat)
    (absent : ∀ k, k + 1 < passes → (s.entries pfid).get (multipleName name base k) = none)
    (fine : ¬MultipleSpoils env s pfid p name base passes) :
    Atomic s (multipleCreate env s pfid p a name base dir passes uid gid) := by
  have framed : Framed env pfid name base s (multipleLoop env s pfid p a name base dir passes) := framed_loop passes
  have allocated : ∀ k < (multipleLoop env s pfid p a name base dir passes).allocated,
      (s.entries pfid).get (multipleName name base k) = none := by
    intro k less
    have most : (multipleLoop env s pfid p a name base dir passes).allocated ≤ passes := multipleLoop_allocated_le passes
    by_cases before : k + 1 < passes
    · exact absent k before
    · have last : passes = k + 1 := by omega
      subst last
      by_contra present
      have all : (multipleLoop env s pfid p a name base dir (k + 1)).allocated = k + 1 := by omega
      exact fine ⟨k,rfl,present,(multipleLoop_allocated k).mp all⟩
  obtain ⟨error,result⟩ | ⟨passed,done,entries⟩ := multipleCreate_cases env s pfid p a name base dir passes uid gid
  · rw [result,atomic_failed]
    exact same_undo unused framed allocated
  · refine ⟨fun failed => absurd done failed,?_⟩
    intro d m e here
    rw [entries,framed.entries d m ?_]
    · exact here
    · rintro k less ⟨rfl,rfl⟩
      rw [allocated k less] at here
      cases here

theorem parseObjectName_bounds (parsed : parseObjectName text = .ok (count,base)) : -2 ^ 31 ≤ count ∧ count < 2 ^ 31 := by
  unfold parseObjectName at parsed
  split at parsed
  · cases parsed
  · rename_i n _ _
    simp only [Except.ok.injEq,Prod.mk.injEq] at parsed
    rw [← parsed.1,Int.bmod_def]
    split
    · omega
    · omega
  · cases parsed

/-- The passes are one more than the files that are counted. -/
theorem passes_eq {count : Int} (low : -2 ^ 31 ≤ count) (high : count < 2 ^ 31) (some : ¬Int.bmod (count + 1) (2 ^ 32) < 0) :
    Int.bmod (count + 1) (2 ^ 32) = count + 1 := by
  rw [Int.bmod_def] at some ⊢
  split
  · omega
  · omega

/-- A call of `export_mknod_multiple` that reaches the creation and does harm there. -/
def MknodMultipleSpoils (env : Env) (s : State) (pfid : Nat) (p : Attr) (name : Name) (kind : Kind) : Prop :=
  ∃ count base, parseObjectName (objectName name) = .ok (count,base) ∧ 0 ≤ Int.bmod (count + 1) (2 ^ 32) ∧ env.fails .memory = false ∧
    (s.entries pfid).get name = none ∧ (∀ k < count.toNat, (s.entries pfid).get (numbered base k) = none) ∧
      env.fails .find = false ∧ kind = .reg ∧ env.overQuota = false ∧ MultipleSpoils env s pfid p name base (Int.bmod (count + 1) (2 ^ 32)).toNat

theorem atomic_mknodMultiple (unused : Unused env s) (kind : Kind) (uid gid : Nat) (sgid : Bool) :
    Atomic s (mknodMultiple env s pfid p name dir kind uid gid sgid) ↔ ¬MknodMultipleSpoils env s pfid p name kind := by
  have unchanged : ∀ error, ¬MknodMultipleSpoils env s pfid p name kind →
      (Atomic s (s,some error) ↔ ¬MknodMultipleSpoils env s pfid p name kind) :=
    fun _ fine => ⟨fun _ => fine,fun _ => atomic_unchanged _ _⟩
  simp only [mknodMultiple]
  split
  · rename_i error parsed
    apply unchanged
    rintro ⟨count,base,parsed',_⟩
    rw [parsed] at parsed'
    cases parsed'
  · rename_i count base parsed
    have same : ∀ {count' base'}, parseObjectName (objectName name) = .ok (count',base') → count' = count ∧ base' = base := by
      intro count' base' parsed'
      rw [parsed] at parsed'
      cases parsed'
      exact ⟨rfl,rfl⟩
    obtain ⟨low,high⟩ := parseObjectName_bounds parsed
    split
    · rename_i memory
      apply unchanged
      rintro ⟨_,_,parsed',enough,fine,_⟩
      obtain ⟨rfl,rfl⟩ := same parsed'
      rcases memory with few | memory
      · omega
      · rw [memory] at fine
        cases fine
    · rename_i reached
      rw [not_or,Bool.not_eq_true] at reached
      obtain ⟨enough,memory⟩ := reached
      split
      · rename_i there
        apply unchanged
        rintro ⟨_,_,_,_,_,absent,_⟩
        simp [absent] at there
      · rename_i notThere
        split
        · rename_i numberedThere
          apply unchanged
          rintro ⟨_,_,parsed',_,_,_,absent,_⟩
          obtain ⟨rfl,rfl⟩ := same parsed'
          obtain ⟨k,less,present⟩ := List.any_eq_true.mp numberedThere
          rw [absent k (List.mem_range.mp less)] at present
          cases present
        · rename_i noneNumbered
          split
          · rename_i unreadable
            apply unchanged
            rintro ⟨_,_,_,_,_,_,_,find,_⟩
            rw [unreadable] at find
            cases find
          · rename_i readable
            split
            · rename_i other
              apply unchanged
              rintro ⟨_,_,_,_,_,_,_,_,regular,_⟩
              exact other regular
            · rename_i regular
              split
              · rename_i full
                apply unchanged
                rintro ⟨_,_,_,_,_,_,_,_,_,quota,_⟩
                rw [full] at quota
                cases quota
              · rename_i quota
                rw [Bool.not_eq_true] at readable quota
                have absent : (s.entries pfid).get name = none := by simpa [readable] using notThere
                have absentNumbered : ∀ k < count.toNat, (s.entries pfid).get (numbered base k) = none := by
                  intro k less
                  have all := fun present => noneNumbered (List.any_eq_true.mpr ⟨k,List.mem_range.mpr less,present⟩)
                  simpa using all
                have passes := passes_eq low high enough
                have spoils : MknodMultipleSpoils env s pfid p name kind ↔
                    MultipleSpoils env s pfid p name base (Int.bmod (count + 1) (2 ^ 32)).toNat := by
                  constructor
                  · rintro ⟨_,_,parsed',_,_,_,_,_,_,_,spoils⟩
                    obtain ⟨rfl,rfl⟩ := same parsed'
                    exact spoils
                  · intro spoils
                    exact ⟨count,base,parsed,by omega,memory,absent,absentNumbered,readable,not_not.mp regular,quota,spoils⟩
                rw [spoils]
                constructor
                · intro atomic spoils
                  exact not_atomic_multipleCreate unused uid gid spoils atomic
                · apply atomic_multipleCreate unused
                  intro k before
                  cases k with
                  | zero => exact absent
                  | succ k => exact absentNumbered (k + 1) (by omega)

end Multiple

end Rozofs.Namespace
