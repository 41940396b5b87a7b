import Rozofs.ReleasedInodes
import Mathlib.Logic.Function.Iterate

/-! When `export_rename` leaves the namespace as it was on an error. -/
namespace Rozofs.Namespace
open KeyTable

variable {env : Env} {s s' : State}

/-- A failed rename changes nothing. -/
def Restored (s : State) (r : Result) : Prop := r.2 ≠ none → Same s r.1

theorem restored_unchanged (s : State) (error : Option Errno) : Restored s (s,error) := fun _ => Same.refl s

/-- A result without an entry of the state before is that of a call that succeeds. -/
theorem restored_of_gone {r : Result} {d : Nat} {n : Name} {e : Entry} (here : (s.entries d).get n = some e)
    (gone : (r.1.entries d).get n = none) : Restored s r ↔ r.2 = none := by
  constructor
  · intro restored
    by_contra failed
    have same := (restored failed).entries d n
    rw [gone,here] at same
    cases same
  · intro done failed
    exact absurd done failed

/-- A change that keeps the children of the inodes. -/
theorem children_of_modify {i j : Nat} {f : Attr → Attr} (kept : ∀ a, (f a).children = a.children) {b' : Attr}
    (there : (s.modify j f).attrs.get i = some b') : ∃ b, s.attrs.get i = some b ∧ b'.children = b.children := by
  rw [get_modify] at there
  split at there
  · rename_i same
    subst same
    obtain ⟨a,before,rfl⟩ := Option.map_eq_some_iff.mp there
    exact ⟨a,before,kept a⟩
  · exact ⟨b',there,rfl⟩

/-- The children of a directory are no longer counted as they were. -/
def Uncounted (s s' : State) (i : Nat) : Prop :=
  ∃ b, s.attrs.get i = some b ∧ ∀ b', s'.attrs.get i = some b' → b'.children ≠ b.children

theorem Uncounted.not_same {i : Nat} (uncounted : Uncounted s s' i) : ¬Same s s' := by
  obtain ⟨b,here,changed⟩ := uncounted
  intro same
  exact changed b ((same.attrs i).trans here) rfl

theorem Uncounted.modify {i : Nat} (uncounted : Uncounted s s' i) (j : Nat) {f : Attr → Attr} (kept : ∀ a, (f a).children = a.children) :
    Uncounted s (s'.modify j f) i := by
  obtain ⟨b,here,changed⟩ := uncounted
  refine ⟨b,here,?_⟩
  intro b' there
  obtain ⟨a,before,children⟩ := children_of_modify kept there
  rw [children]
  exact changed a before

theorem Uncounted.putEntry {i : Nat} (uncounted : Uncounted s s' i) (d : Nat) (n : Name) (e : Entry) :
    Uncounted s (s'.putEntry d n e) i := uncounted

section Entry
variable {pfid npfid inode : Nat} {name newname : Name} {old new a : Attr} {e : Entry}

/-- The end of a rename fails. -/
def EntryFails (env : Env) (pfid npfid : Nat) : Prop :=
  env.fails .put = true ∨ env.fails .remove = true ∨ env.fails .writeParent = true ∨
    (pfid ≠ npfid ∧ env.fails .writeOldParent = true) ∨ env.fails .write = true

/-- The end of a rename that replaces nothing fails and changes something: the delete pending bit
of the object, or the entries. -/
def EntrySpoils (env : Env) (s : State) (pfid npfid : Nat) (newname : Name) (inode : Nat) (a : Attr) : Prop :=
  (env.fails .put = true ∧ a.del = true) ∨
    (env.fails .remove = true ∧ ¬(a.del = false ∧ (s.entries npfid).get newname = some ⟨inode,false,decide (a.kind = .dir)⟩)) ∨
      env.fails .writeParent = true ∨ (pfid ≠ npfid ∧ env.fails .writeOldParent = true) ∨ env.fails .write = true

@[simp] theorem moveCounters_entries (s : State) (pfid npfid : Nat) (old new a : Attr) :
    (moveCounters s pfid npfid old new a).entries = s.entries := by
  simp only [moveCounters]
  split
  · split
    · simp only [State.inodeUpdate,State.blockUpdate,State.issue,modify_entries]
    · simp only [modify_entries]
  · split
    · simp only [modify_entries]
    · rfl

/-- The attributes of a parent or of the object cannot be written: the inode was released. -/
def EntryLost (s : State) (pfid npfid inode : Nat) : Prop := s.held pfid = none ∨ s.held npfid = none ∨ s.held inode = none

theorem renameAttributes_entries (s : State) (pfid npfid inode : Nat) (old new : Attr) :
    (renameAttributes env s pfid npfid inode old new).1.entries = s.entries := by
  simp only [renameAttributes]
  generalize (if pfid = npfid then writeAttributes env s .writeParent npfid
    else (writeAttributes env s .writeParent npfid).or (writeAttributes env s .writeOldParent pfid)) = parents
  split
  · rfl
  · exact modifyHeld_entries ..

theorem renameAttributes_fails (s : State) (pfid npfid inode : Nat) (old new : Attr) :
    (renameAttributes env s pfid npfid inode old new).2 ≠ none ↔
      (env.fails .writeParent = true ∨ (pfid ≠ npfid ∧ env.fails .writeOldParent = true) ∨ env.fails .write = true) ∨
        EntryLost s pfid npfid inode := by
  have parents : (if pfid = npfid then writeAttributes env s .writeParent npfid
      else (writeAttributes env s .writeParent npfid).or (writeAttributes env s .writeOldParent pfid)) ≠ none ↔
      (env.fails .writeParent = true ∨ s.held npfid = none) ∨ (pfid ≠ npfid ∧ (env.fails .writeOldParent = true ∨ s.held pfid = none)) := by
    rw [← writeAttributes_fails,← writeAttributes_fails]
    split
    · rename_i same
      simp only [same,ne_eq,not_true_eq_false,false_and,or_false]
    · rename_i apart
      simp only [ne_eq,Option.or_eq_none_iff,apart,not_false_eq_true,true_and]
      tauto
  have object : ∀ f, writeAttributes env (s.modifyHeld inode f) .write inode ≠ none ↔ env.fails .write = true ∨ s.held inode = none := by
    intro f
    rw [writeAttributes_fails,held_modifyHeld]
  simp only [renameAttributes,Option.isSome_iff_ne_none,EntryLost]
  generalize (if pfid = npfid then writeAttributes env s .writeParent npfid
    else (writeAttributes env s .writeParent npfid).or (writeAttributes env s .writeOldParent pfid)) = error at parents ⊢
  split
  · rename_i failed
    simp only [failed,ne_eq,not_false_eq_true,true_iff]
    rcases parents.mp failed with (write | gone) | ⟨apart,write | gone⟩
    · exact .inl (.inl write)
    · exact .inr (.inr (.inl gone))
    · exact .inl (.inr (.inl ⟨apart,write⟩))
    · exact .inr (.inl gone)
  · rename_i written
    rw [object]
    rw [parents] at written
    constructor
    · rintro (write | gone)
      · exact .inl (.inr (.inr write))
      · exact .inr (.inr (.inr gone))
    · rintro ((write | ⟨apart,write⟩ | write) | gone | gone | gone)
      · exact absurd (.inl (.inl write)) written
      · exact absurd (.inr ⟨apart,.inl write⟩) written
      · exact .inl write
      · by_cases same : pfid = npfid
        · exact absurd (.inl (.inr (same ▸ gone))) written
        · exact absurd (.inr ⟨same,.inr gone⟩) written
      · exact absurd (.inl (.inr gone)) written
      · exact .inr gone

/-- The three ways in which the end of a rename goes. -/
theorem renameEntry_cases (env : Env) (s : State) (pfid npfid : Nat) (name newname : Name) (inode : Nat) (old new a : Attr) :
    let cleared := s.modify inode fun a => { a with del := false }
    let put := cleared.putEntry npfid newname ⟨inode,false,decide (((s.held inode).getD a).kind = .dir)⟩
    let r := renameEntry env s pfid npfid name newname inode old new a
    (env.fails .put = true ∧ r = (cleared,some env.failure)) ∨ (env.fails .remove = true ∧ r = (put,some env.failure)) ∨
      (env.fails .put = false ∧ env.fails .remove = false ∧ (r.1.entries pfid).get name = none ∧
        (r.2 ≠ none ↔ (env.fails .writeParent = true ∨ (pfid ≠ npfid ∧ env.fails .writeOldParent = true) ∨ env.fails .write = true) ∨
          EntryLost s pfid npfid inode)) := by
  simp only [renameEntry]
  cases put : env.fails .put with
  | true => exact .inl ⟨rfl,rfl⟩
  | false =>
    cases remove : env.fails .remove with
    | true => exact .inr (.inl ⟨rfl,rfl⟩)
    | false =>
      refine .inr (.inr ⟨rfl,rfl,?_⟩)
      simp only [Bool.false_eq_true,if_false]
      generalize (s.held inode).getD a = current
      generalize opened : ((s.modify inode fun a => { a with del := false }).putEntry npfid newname
        ⟨inode,false,decide (current.kind = .dir)⟩).delEntry pfid name = middle
      have base : Alike s middle := by
        rw [← opened]
        exact ⟨((Alike.refl s).modify inode fun a => { a with del := false }).attrs,modify_recycled ..⟩
      have alike := base.trans (alike_moveCounters middle pfid npfid old new current)
      refine ⟨?_,?_⟩
      · rw [renameAttributes_entries,moveCounters_entries,← opened,get_delEntry,if_pos ⟨rfl,rfl⟩]
      · rw [renameAttributes_fails,EntryLost,EntryLost,alike.held,alike.held,alike.held]

theorem same_cleared (here : s.attrs.get inode = some a) : Same s (s.modify inode fun a => { a with del := false }) ↔ a.del = false := by
  constructor
  · intro same
    have after := same.attrs inode
    rw [get_modify_self,here,Option.map_some,Option.some.injEq] at after
    rw [← after]
  · intro clear
    refine ⟨?_,fun _ _ => by rw [modify_entries],modify_recycled ..,modify_links ..⟩
    intro i
    rw [get_modify]
    split
    · rename_i same
      rw [same,here,Option.map_some,← clear]
    · rfl

theorem restored_renameEntry (here : (s.entries pfid).get name = some e) (object : s.attrs.get inode = some a)
    (parent : s.held pfid ≠ none) (newParent : s.held npfid ≠ none) :
    Restored s (renameEntry env s pfid npfid name newname inode old new a) ↔ ¬EntrySpoils env s pfid npfid newname inode a := by
  obtain ⟨put,result⟩ | ⟨remove,result⟩ | ⟨put,remove,gone,fails⟩ := renameEntry_cases env s pfid npfid name newname inode old new a
  · have alone : ∀ f, Fault.put ≠ f → env.fails f = false := fun f => fails_unique put
    rw [result]
    simp only [Restored,ne_eq,reduceCtorEq,not_false_eq_true,true_implies,same_cleared object]
    simp [EntrySpoils,put,alone]
  · have alone : ∀ f, Fault.remove ≠ f → env.fails f = false := fun f => fails_unique remove
    have spoils : EntrySpoils env s pfid npfid newname inode a ↔
        ¬(a.del = false ∧ (s.entries npfid).get newname = some ⟨inode,false,decide (a.kind = .dir)⟩) := by
      simp [EntrySpoils,remove,alone]
    rw [result,spoils,not_not]
    simp only [Restored,ne_eq,reduceCtorEq,not_false_eq_true,true_implies,held_of_get object,Option.getD_some]
    constructor
    · intro same
      have clear : a.del = false := by
        have after := same.attrs inode
        rw [putEntry_attrs,get_modify_self,object,Option.map_some,Option.some.injEq] at after
        rw [← after]
      have entry := same.entries npfid newname
      rw [get_putEntry,if_pos ⟨rfl,rfl⟩] at entry
      exact ⟨clear,entry.symm⟩
    · rintro ⟨clear,entry⟩
      have cleared := (same_cleared object).mpr clear
      refine ⟨cleared.attrs,?_,cleared.recycled,cleared.links⟩
      intro d n
      rw [get_putEntry]
      split
      · rename_i place
        rw [place.1,place.2,entry]
      · exact cleared.entries d n
  · have there : ¬EntryLost s pfid npfid inode := by
      simp only [EntryLost,parent,newParent,held_of_get object,reduceCtorEq,or_self,not_false_eq_true]
    have spoils : EntrySpoils env s pfid npfid newname inode a ↔
        env.fails .writeParent = true ∨ (pfid ≠ npfid ∧ env.fails .writeOldParent = true) ∨ env.fails .write = true := by
      simp [EntrySpoils,put,remove]
    simp only [there,or_false] at fails
    rw [spoils,← fails,not_not]
    exact restored_of_gone here gone

/-- After a replacement that changed the counters nothing brings the namespace back. -/
theorem restored_renameEntry_uncounted {i : Nat} (here : (s.entries pfid).get name = some e) (uncounted : Uncounted s s' i) :
    Restored s (renameEntry env s' pfid npfid name newname inode old new a) ↔ ¬(EntryFails env pfid npfid ∨ EntryLost s' pfid npfid inode) := by
  have cleared : Uncounted s (s'.modify inode fun a => { a with del := false }) i := uncounted.modify inode fun _ => rfl
  obtain ⟨put,result⟩ | ⟨remove,result⟩ | ⟨put,remove,gone,fails⟩ := renameEntry_cases env s' pfid npfid name newname inode old new a
  · rw [result]
    simp only [Restored,EntryFails,put,true_or,not_true_eq_false,iff_false]
    exact fun restored => cleared.not_same (restored (by simp))
  · rw [result]
    simp only [Restored,EntryFails,remove,true_or,or_true,not_true_eq_false,iff_false]
    exact fun restored => (cleared.putEntry ..).not_same (restored (by simp))
  · have spoils : EntryFails env pfid npfid ∨ EntryLost s' pfid npfid inode ↔
        (env.fails .writeParent = true ∨ (pfid ≠ npfid ∧ env.fails .writeOldParent = true) ∨ env.fails .write = true) ∨
          EntryLost s' pfid npfid inode := by
      simp [EntryFails,put,remove]
    rw [spoils,← fails,not_not]
    exact restored_of_gone here gone

end Entry

section Replace
variable {npfid : Fid} {new p : Attr} {newname : Name} {r : Entry}

theorem dec_of_lt {width n : Nat} (small : n < 2 ^ width) : dec width n = if n = 0 then 2 ^ width - 1 else n - 1 := by
  unfold dec
  split
  · rename_i zero
    rw [zero,Nat.zero_add,Nat.mod_eq_of_lt (by omega)]
  · have moved : n + 2 ^ width - 1 = n - 1 + 2 ^ width := by omega
    rw [moved,Nat.add_mod_right,Nat.mod_eq_of_lt (by omega)]

theorem dec_lt (width n : Nat) : dec width n < 2 ^ width := Nat.mod_lt _ (Nat.two_pow_pos width)

theorem dec_ne {width : Nat} (positive : 0 < width) (n : Nat) : dec width n ≠ n := by
  have large : 2 ^ 1 ≤ 2 ^ width := Nat.pow_le_pow_right (by omega) positive
  intro same
  rw [dec_of_lt (same ▸ dec_lt width n)] at same
  split at same
  · omega
  · omega

theorem dec_dec_ne {width : Nat} (wide : 1 < width) (n : Nat) : dec width (dec width n) ≠ n := by
  have large : 2 ^ 2 ≤ 2 ^ width := Nat.pow_le_pow_right (by omega) wide
  intro same
  have small : n < 2 ^ width := same ▸ dec_lt width _
  rw [dec_of_lt (dec_lt width n),dec_of_lt small] at same
  split at same
  · split at same
    · omega
    · omega
  · split at same
    · omega
    · omega

/-- The directory has lost `k` children in its counter, if it is still there. -/
def Decreased (s s' : State) (i k : Nat) : Prop :=
  ∀ b', s'.attrs.get i = some b' → ∃ b, s.attrs.get i = some b ∧ b'.children = (dec 32)^[k] b.children

theorem Decreased.refl (s : State) (i : Nat) : Decreased s s i 0 := fun b' here => ⟨b',here,rfl⟩

theorem Decreased.modify {i k : Nat} (decreased : Decreased s s' i k) (j : Nat) {f : Attr → Attr} (kept : ∀ a, (f a).children = a.children) :
    Decreased s (s'.modify j f) i k := by
  intro b' there
  obtain ⟨a,before,same⟩ := children_of_modify kept there
  obtain ⟨b,here,children⟩ := decreased a before
  exact ⟨b,here,same.trans children⟩

theorem Decreased.child {i k : Nat} (decreased : Decreased s s' i k) {f : Attr → Attr} (lost : ∀ a, (f a).children = dec 32 a.children) :
    Decreased s (s'.modify i f) i (k + 1) := by
  intro b' there
  rw [get_modify_self] at there
  obtain ⟨a,before,rfl⟩ := Option.map_eq_some_iff.mp there
  obtain ⟨b,here,children⟩ := decreased a before
  refine ⟨b,here,?_⟩
  rw [lost,children,Function.iterate_succ_apply']

theorem Decreased.delete {i k : Nat} (decreased : Decreased s s' i k) (j : Nat) : Decreased s (s'.delete j) i k := by
  intro b' there
  rw [get_delete] at there
  split at there
  · cases there
  · exact decreased b' there

theorem Decreased.attrs {s'' : State} {i k : Nat} (decreased : Decreased s s' i k) (same : s''.attrs = s'.attrs) : Decreased s s'' i k := by
  intro b' there
  exact decreased b' (same ▸ there)

theorem Decreased.release {i k : Nat} (decreased : Decreased s s' i k) (inode : Nat) (a p : Attr) :
    Decreased s (s'.release env inode a p) i k := (decreased.delete inode).attrs (release_attrs s' inode a p)

theorem Decreased.trashFile {parent k : Nat} (decreased : Decreased s s' parent k) (p : Attr) (name : Name) (e : Entry) (a : Attr) :
    Decreased s (trashFile env s' parent p name e a) parent (k + 1) := by
  have counted : Decreased s (s'.modify parent fun p => p.decChildren.incDeleted) parent (k + 1) :=
    decreased.child fun a => (incDeleted_children _).trans (decChildren_children a)
  have marked := counted.modify e.inode (f := fun a => { a with del := true }) fun _ => rfl
  simp only [Namespace.trashFile]
  split
  · have again := marked.modify parent decDeleted_children
    split
    · exact again.release e.inode a p
    · exact again
  · exact marked.attrs (putEntry_attrs ..)

theorem Decreased.removeFile {parent : Fid} {k : Nat} (decreased : Decreased s s' parent.inode k) (p : Attr) (isActive : active parent p = true)
    (e : Entry) (a : Attr) : Decreased s (removeFile env s' parent p e a) parent.inode (k + 1) := by
  simp only [Namespace.removeFile,isActive,countsChild,Bool.true_or,Bool.or_true,ite_self,if_true]
  refine Decreased.child ?_ decChildren_children
  split
  · exact decreased.release e.inode a p
  · split
    · exact decreased.modify e.inode decNlink_children
    · exact decreased

/-- What the removal of one name does to an active parent: it is refused, or counted. -/
theorem unlinkName_decreased (env : Env) (s : State) (parent : Fid) (p : Attr) (name : Name) (isActive : active parent p = true) :
    (((s.entries parent.inode).get name = none ∨ ∃ r, (s.entries parent.inode).get name = some r ∧
        ((r.dir = true ∨ (r.del = true ∧ toTrash env parent p = true)) ∨ s.attrs.get r.inode = none)) ∧
      Decreased s (unlinkName env s parent p name).1 parent.inode 0) ∨
    Decreased s (unlinkName env s parent p name).1 parent.inode 1 := by
  have start := Decreased.refl s parent.inode
  have together : parent.del = p.del := by
    simp only [active,Bool.and_eq_true,Bool.not_eq_true'] at isActive
    rw [isActive.1,isActive.2]
  simp only [unlinkName]
  split
  · rename_i absent
    exact .inl ⟨.inl absent,start⟩
  · rename_i r here
    split
    · rename_i dir
      exact .inl ⟨.inr ⟨r,here,.inl (.inl dir)⟩,start⟩
    · split
      · rename_i trashed
        exact .inl ⟨.inr ⟨r,here,.inl (.inr trashed)⟩,start⟩
      · split
        · rename_i inactive
          exact absurd together inactive.1
        · split
          · rename_i missing
            exact .inl ⟨.inr ⟨r,here,.inr missing⟩,start⟩
          · rename_i a found
            right
            have gone : Decreased s (s.delEntry parent.inode name) parent.inode 0 := start
            generalize (if a.nlink = 1 then keepsData a (toTrash env parent p) else decide (a.nlink = 0) && toTrash env parent p) = trash
            cases trash with
            | true => exact gone.trashFile p name r a
            | false => exact gone.removeFile p isActive r a

theorem removeNumbered_decreased (s : State) (parent i : Nat) (base : Name) (n : Nat) :
    Decreased s (removeNumbered s parent base n).state i 0 := by
  induction n with
  | zero => exact Decreased.refl s i
  | succ n ih =>
    simp only [removeNumbered]
    split
    · exact ih
    · split
      · exact ih
      · have deleted := ih.delete (s := s) ‹Entry›.inode
        split
        · exact deleted
        · exact deleted

theorem Decreased.trans {s'' : State} {i k k' : Nat} (first : Decreased s s' i k) (second : Decreased s' s'' i k') :
    Decreased s s'' i (k' + k) := by
  intro b'' there
  obtain ⟨b',middle,children⟩ := second b'' there
  obtain ⟨b,here,before⟩ := first b' middle
  exact ⟨b,here,by rw [children,before,Function.iterate_add_apply]⟩

theorem Decreased.uncounted {i k : Nat} {b : Attr} (decreased : Decreased s s' i (k + 1)) (few : k ≤ 1) (here : s.attrs.get i = some b) :
    Uncounted s s' i := by
  refine ⟨b,here,?_⟩
  intro b' there
  obtain ⟨b₀,before,children⟩ := decreased b' there
  rw [here,Option.some.injEq] at before
  subst before
  rw [children,Function.iterate_succ_apply']
  rcases Nat.le_one_iff_eq_zero_or_eq_one.mp few with zero | one
  · rw [zero,Function.iterate_zero_apply]
    exact dec_ne (by decide) _
  · rw [one,Function.iterate_one]
    exact dec_dec_ne (by decide) _

theorem unlinkName_refused {parent : Fid} {name : Name} (here : (s.entries parent.inode).get name = some r)
    (refused : r.dir = true ∨ (r.del = true ∧ toTrash env parent p = true)) : (unlinkName env s parent p name).1 = s := by
  simp only [unlinkName,here]
  split
  · rfl
  · rename_i file
    rw [if_pos (refused.resolve_left file)]

/-- The removal of several files is refused, or their parent loses one child. -/
theorem unlinkMultiple_decreased (s : State) (parent : Nat) (p : Attr) (name : Name) (here : (s.entries parent).get name = some r) :
    (((∀ parsed, parseObjectName (objectName name) ≠ .ok parsed) ∨ r.dir = true) ∧
        ∃ error, unlinkMultiple s parent p name = (s,some error)) ∨
      (¬((∀ parsed, parseObjectName (objectName name) ≠ .ok parsed) ∨ r.dir = true) ∧
        (unlinkMultiple s parent p name).2 = none ∧ Decreased s (unlinkMultiple s parent p name).1 parent 1) := by
  simp only [unlinkMultiple]
  split
  · rename_i error parsed
    exact .inl ⟨.inl fun _ ok => (by rw [parsed] at ok; cases ok),_,rfl⟩
  · rename_i count base parsed
    simp only [here]
    split
    · rename_i dir
      exact .inl ⟨.inr dir,_,rfl⟩
    · rename_i file
      refine .inr ⟨?_,rfl,?_⟩
      · rintro (bad | dir)
        · exact bad _ parsed
        · exact file dir
      · refine Decreased.child (k := 0) ?_ decChildren_children
        exact (removeNumbered_decreased s parent parent base count.toNat).attrs rfl

/-- The removal of the file that has the new name. -/
theorem unlink_uncounted (env : Env) {ra : Attr} (parent : s.attrs.get npfid.inode = some new) (isActive : active npfid new = true)
    (here : (s.entries npfid.inode).get newname = some r) (object : s.attrs.get r.inode = some ra) :
    (UnlinkRefused env npfid new newname r ∧ (unlink env s npfid newname).1 = s) ∨
      (¬UnlinkRefused env npfid new newname r ∧ Uncounted s (unlink env s npfid newname).1 npfid.inode) := by
  simp only [unlink,parent,UnlinkRefused]
  split
  · obtain ⟨refused,error,result⟩ | ⟨accepted,done,lost⟩ := unlinkMultiple_decreased s npfid.inode new newname here
    · refine .inl ⟨refused,?_⟩
      rw [result]
      simp
    · refine .inr ⟨accepted,?_⟩
      rw [if_pos done]
      obtain ⟨_,kept⟩ | again := unlinkName_decreased env (unlinkMultiple s npfid.inode new newname).1 npfid new newname isActive
      · exact Decreased.uncounted (k := 0) (lost.trans kept) (by omega) parent
      · exact Decreased.uncounted (k := 1) (lost.trans again) (by omega) parent
  · by_cases refused : r.dir = true ∨ (r.del = true ∧ toTrash env npfid new = true)
    · exact .inl ⟨refused,unlinkName_refused here refused⟩
    · refine .inr ⟨refused,?_⟩
      obtain ⟨bad,_⟩ | lost := unlinkName_decreased env s npfid new newname isActive
      · rcases bad with absent | ⟨r',there,refused' | missing⟩
        · rw [absent] at here
          cases here
        · rw [here] at there
          cases there
          exact absurd refused' refused
        · rw [here] at there
          cases there
          rw [object] at missing
          cases missing
      · exact Decreased.uncounted (k := 0) lost (by omega) parent

/-- The directory that has the new name is not removed. -/
def DirectoryStays (env : Env) (s : State) (inode : Nat) : Prop :=
  env.fails .updateFiles = true ∨ env.fails .resolve = true ∨ env.fails .unlinkPath = true ∨ env.fails .rmdirPath = true ∨
    (s.entries inode).cells ≠ []

theorem replaceDirectory_spec (env : Env) (s : State) (parent inode : Nat) :
    (∃ folders, (replaceDirectory env s parent inode).1 = { s.modify parent fun p => p.decNlink.decChildren with folders := folders }) ∧
      ((replaceDirectory env s parent inode).2 ≠ none ↔ DirectoryStays env s inode) := by
  have entries : ((s.modify parent fun p => p.decNlink.decChildren).setFolder inode false).entries = s.entries := modify_entries ..
  simp only [replaceDirectory,DirectoryStays]
  split
  · rename_i update
    exact ⟨⟨_,rfl⟩,by simp [update]⟩
  · rename_i update
    split
    · rename_i resolve
      exact ⟨⟨_,rfl⟩,by simp [resolve]⟩
    · rename_i resolve
      split
      · rename_i unlinkPath
        exact ⟨⟨_,rfl⟩,by simp [unlinkPath]⟩
      · rename_i unlinkPath
        rw [entries]
        split
        · rename_i stays
          exact ⟨⟨_,rfl⟩,by simpa [update,resolve,unlinkPath] using stays⟩
        · rename_i goes
          exact ⟨⟨_,rfl⟩,by simpa [update,resolve,unlinkPath] using goes⟩

theorem replaceDirectory_uncounted (env : Env) {parent : Nat} (inode : Nat) (here : s.attrs.get parent = some new) :
    Uncounted s (replaceDirectory env s parent inode).1 parent ∧
      ((replaceDirectory env s parent inode).2 ≠ none ↔ DirectoryStays env s inode) := by
  have lost : Decreased s (s.modify parent fun p => p.decNlink.decChildren) parent 1 := by
    apply (Decreased.refl s parent).child
    intro a
    rw [decChildren_children,decNlink_children]
  have uncounted : Uncounted s (s.modify parent fun p => p.decNlink.decChildren) parent := Decreased.uncounted (k := 0) lost (by omega) here
  obtain ⟨⟨folders,result⟩,stays⟩ := replaceDirectory_spec env s parent inode
  rw [result]
  exact ⟨uncounted,stays⟩

end Replace

section Rename
variable {pfid npfid : Fid} {name newname : Name} {old new a : Attr} {e : Entry}

/-- A rename that fails, although it has changed the entries or the counters. -/
def OntoSpoils (env : Env) (s : State) (pfid npfid : Fid) (newname : Name) (inode : Nat) (new a : Attr) (sourceIsTrash : Bool) : Prop :=
  ((s.entries npfid.inode).get newname = none ∧ EntrySpoils env s pfid.inode npfid.inode newname inode a) ∨
    ∃ r, (s.entries npfid.inode).get newname = some r ∧ sourceIsTrash = false ∧ ∃ ra, s.lookup env .replaced r.inode = some ra ∧
      ((ra.kind = .dir ∧ a.kind = .dir ∧ ra.children = 0 ∧ (DirectoryStays env s r.inode ∨ EntryFails env pfid.inode npfid.inode)) ∨
        (ra.kind ≠ .dir ∧ (ra.kind = .special ∨ UnlinkRefused env npfid new newname r) ∧
          EntrySpoils env s pfid.inode npfid.inode newname inode a) ∨
        (ra.kind ≠ .dir ∧ ¬(ra.kind = .special ∨ UnlinkRefused env npfid new newname r) ∧ (EntryFails env pfid.inode npfid.inode ∨
          ∃ i, (i = pfid.inode ∨ i = npfid.inode ∨ i = inode) ∧ UnlinkReleases env s npfid new newname r ra i)))

theorem get_of_lookup {fault : Fault} {inode : Nat} (found : s.lookup env fault inode = some a) : s.attrs.get inode = some a := by
  unfold State.lookup at found
  split at found
  · cases found
  · exact found

/-- After the removal of a file the end of a rename cannot write a parent or the object that the removal has released. -/
theorem entryLost_unlink {ra : Attr} {r : Entry} (clean : NoneWaits s) (object : s.attrs.get e.inode = some a)
    (source : s.attrs.get pfid.inode = some old) (parent : s.attrs.get npfid.inode = some new) (isActive : active npfid new = true)
    (apart : r.inode ≠ npfid.inode) (there : (s.entries npfid.inode).get newname = some r) (found : s.attrs.get r.inode = some ra)
    (accepted : ¬UnlinkRefused env npfid new newname r) : EntryLost (unlink env s npfid newname).1 pfid.inode npfid.inode e.inode ↔
      ∃ i, (i = pfid.inode ∨ i = npfid.inode ∨ i = e.inode) ∧ UnlinkReleases env s npfid new newname r ra i := by
  have releases : ∀ {i : Nat} {b : Attr}, s.attrs.get i = some b →
      ((unlink env s npfid newname).1.held i = none ↔ UnlinkReleases env s npfid new newname r ra i) := by
    intro i b here
    refine unlink_releases parent isActive apart there found accepted clean ?_
    rw [held_of_get here]
    exact Option.some_ne_none b
  rw [EntryLost,releases source,releases parent,releases object]
  constructor
  · rintro (gone | gone | gone)
    · exact ⟨_,.inl rfl,gone⟩
    · exact ⟨_,.inr (.inl rfl),gone⟩
    · exact ⟨_,.inr (.inr rfl),gone⟩
  · rintro ⟨i,own | own | own,gone⟩
    · exact .inl (own ▸ gone)
    · exact .inr (.inl (own ▸ gone))
    · exact .inr (.inr (own ▸ gone))

theorem alike_replaceDirectory (env : Env) (s : State) (parent inode : Nat) : Alike s (replaceDirectory env s parent inode).1 := by
  have counted := (Alike.refl s).modify parent fun p => p.decNlink.decChildren
  obtain ⟨⟨folders,result⟩,-⟩ := replaceDirectory_spec env s parent inode
  rw [result]
  exact ⟨counted.attrs,counted.recycled⟩

theorem restored_renameOnto (clean : NoneWaits s) (here : (s.entries pfid.inode).get name = some e) (object : s.attrs.get e.inode = some a)
    (source : s.attrs.get pfid.inode = some old) (parent : s.attrs.get npfid.inode = some new) (newDir : new.kind = .dir)
    (isActive : active npfid new = true) (sourceIsTrash : Bool) :
    Restored s (renameOnto env s pfid npfid name newname e.inode old new a sourceIsTrash) ↔
      ¬OntoSpoils env s pfid npfid newname e.inode new a sourceIsTrash := by
  have held : ∀ {i : Nat} {b : Attr}, s.attrs.get i = some b → s.held i ≠ none := by
    intro i b here
    rw [held_of_get here]
    exact Option.some_ne_none b
  have kept : Restored s (renameEntry env s pfid.inode npfid.inode name newname e.inode old new a) ↔
      ¬EntrySpoils env s pfid.inode npfid.inode newname e.inode a := restored_renameEntry here object (held source) (held parent)
  simp only [renameOnto,OntoSpoils]
  cases there : (s.entries npfid.inode).get newname with
  | none =>
    simp only [true_and,reduceCtorEq,false_and,exists_false,or_false]
    exact kept
  | some r =>
    simp only [reduceCtorEq,false_and,false_or,Option.some.injEq,exists_eq_left']
    cases sourceIsTrash with
    | true => simp [restored_unchanged]
    | false =>
      simp only [Bool.false_eq_true,if_false,true_and,replace]
      cases found : s.lookup env .replaced r.inode with
      | none => simp [restored_unchanged]
      | some ra =>
        simp only [Option.some.injEq,exists_eq_left']
        by_cases dir : ra.kind = .dir
        · simp only [dir,if_true,true_and,ne_eq,not_true_eq_false,false_and,or_false]
          by_cases both : a.kind = .dir
          · by_cases empty : ra.children = 0
            · obtain ⟨uncounted,stays⟩ := replaceDirectory_uncounted env r.inode parent
              simp only [both,empty,not_true_eq_false,if_false,true_and,← stays]
              cases result : (replaceDirectory env s npfid.inode r.inode).2 with
              | some error =>
                simp only [ne_eq,reduceCtorEq,not_false_eq_true,true_or,not_true_eq_false,iff_false]
                intro restored
                exact uncounted.not_same (restored (by simp))
              | none =>
                have alike := alike_replaceDirectory env s npfid.inode r.inode
                have there : ¬EntryLost (replaceDirectory env s npfid.inode r.inode).1 pfid.inode npfid.inode e.inode := by
                  rw [EntryLost,alike.held,alike.held,alike.held]
                  simp only [held source,held parent,held object,or_self,not_false_eq_true]
                simp only [ne_eq,not_true_eq_false,false_or]
                rw [restored_renameEntry_uncounted here uncounted]
                simp only [there,or_false]
            · simp [both,empty,restored_unchanged]
          · simp [both,restored_unchanged]
        · simp only [dir,if_false,false_and,false_or,ne_eq,not_false_eq_true,true_and]
          by_cases file : ra.kind = .reg ∨ ra.kind = .lnk
          · have notSpecial : ra.kind ≠ .special := by
              intro special
              rw [special] at file
              simp at file
            simp only [file,notSpecial,if_true,false_or]
            obtain ⟨refused,unchanged⟩ | ⟨accepted,uncounted⟩ := unlink_uncounted env parent isActive there (get_of_lookup found)
            · simp only [refused,not_true_eq_false,true_and,false_and,or_false,unchanged]
              exact kept
            · have apart : r.inode ≠ npfid.inode := by
                intro same
                have own := get_of_lookup found
                rw [same,parent,Option.some.injEq] at own
                exact dir (own ▸ newDir)
              simp only [accepted,not_false_eq_true,true_and,false_and,false_or,
                ← entryLost_unlink clean object source parent isActive apart there (get_of_lookup found) accepted]
              exact restored_renameEntry_uncounted here uncounted
          · have special : ra.kind = .special := by
              cases kind : ra.kind with
              | special => rfl
              | dir => exact absurd kind dir
              | reg => exact absurd (.inl kind) file
              | lnk => exact absurd (.inr kind) file
            simp only [special,reduceCtorEq,or_self,true_or,not_true_eq_false,true_and,false_and,or_false,if_false]
            exact kept

/-- A rename to the trash fails before it changes something. -/
theorem restored_renameTrash (s : State) (pfid npfid : Fid) (name : Name) : Restored s (renameTrash env s pfid npfid name) := by
  simp only [renameTrash]
  split
  · exact restored_unchanged s _
  · split
    · exact restored_unchanged s _
    · split
      · exact restored_unchanged s _
      · split
        · exact restored_unchanged s _
        · split
          · exact restored_unchanged s _
          · split
            · exact restored_unchanged s _
            · split
              · exact restored_unchanged s _
              · split
                · exact restored_unchanged s _
                · split
                  · exact restored_unchanged s _
                  · split
                    · exact restored_unchanged s _
                    · exact fun failed => absurd rfl failed

/-- The name that a rename writes. -/
def targetName (pfid : Fid) (old : Attr) (name newname : Name) : Option Name :=
  if (old.del || pfid.del) ∧ name = newname then stripDeleted 0 newname else some newname

/-- A call of `export_rename` that reaches the new entry, with what it has found. -/
structure Renaming (env : Env) (s : State) (pfid npfid : Fid) (name newname target : Name) (old new : Attr) (e : Entry) (a : Attr) : Prop where
  ordinary : newname ≠ dirTrash ∧ name ≠ dirTrash
  source : s.lookup env .parent pfid.inode = some old ∧ old.kind = .dir
  destination : s.lookup env .newParent npfid.inode = some new ∧ new.kind = .dir
  active : active npfid new = true
  target : targetName pfid old name newname = some target
  readable : env.fails .find = false ∧ env.fails .findNew = false
  entry : (s.entries pfid.inode).get name = some e
  object : s.lookup env .child e.inode = some a

/-- A call of `export_rename` that does not give back what it has changed. -/
def RenameSpoils (env : Env) (s : State) (pfid npfid : Fid) (name newname : Name) : Prop :=
  ∃ target old new e a, Renaming env s pfid npfid name newname target old new e a ∧
    OntoSpoils env s pfid npfid target e.inode new a (old.del || pfid.del)

theorem rename_reaches {target : Name} (moves : Renaming env s pfid npfid name newname target old new e a) :
    rename env s pfid name npfid newname = renameOnto env s pfid npfid name target e.inode old new a (old.del || pfid.del) := by
  obtain ⟨⟨trash,trash'⟩,⟨source,oldDir⟩,⟨destination,newDir⟩,isActive,kept,⟨readable,readable'⟩,entry,object⟩ := moves
  simp only [active,Bool.and_eq_true,Bool.not_eq_true'] at isActive
  unfold targetName at kept
  simp only [rename,trash,trash',source,oldDir,destination,newDir,isActive,kept,readable,readable',entry,object,if_false,
    ne_eq,not_true_eq_false,Bool.false_eq_true,or_self]

/-- A rename that does not get to the new entry changes nothing. -/
theorem restored_rename_refused (never : ∀ target old new e a, ¬Renaming env s pfid npfid name newname target old new e a) :
    Restored s (rename env s pfid name npfid newname) := by
  simp only [rename]
  split
  · exact restored_renameTrash s pfid npfid name
  · rename_i trash
    split
    · exact restored_unchanged s _
    · rename_i old source
      split
      · exact restored_unchanged s _
      · rename_i new destination
        split
        · exact restored_unchanged s _
        · rename_i oldDir
          split
          · exact restored_unchanged s _
          · rename_i pending
            split
            · exact restored_unchanged s _
            · rename_i trash'
              split
              · exact restored_unchanged s _
              · rename_i target kept
                split
                · exact restored_unchanged s _
                · rename_i readable
                  split
                  · exact restored_unchanged s _
                  · rename_i e entry
                    split
                    · exact restored_unchanged s _
                    · rename_i a object
                      split
                      · exact restored_unchanged s _
                      · rename_i newDir
                        split
                        · exact restored_unchanged s _
                        · rename_i readable'
                          rw [not_or,Bool.not_eq_true,Bool.not_eq_true] at pending
                          have isActive : active npfid new = true := by simp [active,pending]
                          exact absurd ⟨⟨trash,trash'⟩,⟨source,not_not.mp oldDir⟩,⟨destination,not_not.mp newDir⟩,isActive,kept,
                            ⟨eq_false_of_ne_true readable,eq_false_of_ne_true readable'⟩,entry,object⟩ (never target old new e a)

theorem Renaming.unique {target target' : Name} {old' new' a' : Attr} {e' : Entry}
    (moves : Renaming env s pfid npfid name newname target old new e a)
    (moves' : Renaming env s pfid npfid name newname target' old' new' e' a') :
    target' = target ∧ old' = old ∧ new' = new ∧ e' = e ∧ a' = a := by
  obtain rfl : old' = old := Option.some.inj (moves'.source.1.symm.trans moves.source.1)
  obtain rfl : new' = new := Option.some.inj (moves'.destination.1.symm.trans moves.destination.1)
  obtain rfl : e' = e := Option.some.inj (moves'.entry.symm.trans moves.entry)
  obtain rfl : a' = a := Option.some.inj (moves'.object.symm.trans moves.object)
  exact ⟨Option.some.inj (moves'.target.symm.trans moves.target),rfl,rfl,rfl,rfl⟩

theorem restored_rename (clean : NoneWaits s) (pfid npfid : Fid) (name newname : Name) :
    Restored s (rename env s pfid name npfid newname) ↔ ¬RenameSpoils env s pfid npfid name newname := by
  by_cases reaches : ∃ target old new e a, Renaming env s pfid npfid name newname target old new e a
  · obtain ⟨target,old,new,e,a,moves⟩ := reaches
    rw [rename_reaches moves,restored_renameOnto clean moves.entry (get_of_lookup moves.object) (get_of_lookup moves.source.1)
      (get_of_lookup moves.destination.1) moves.destination.2 moves.active]
    constructor
    · rintro fine ⟨target',old',new',e',a',moves',spoils⟩
      obtain ⟨rfl,rfl,rfl,rfl,rfl⟩ := moves.unique moves'
      exact fine spoils
    · exact fun fine spoils => fine ⟨target,old,new,e,a,moves,spoils⟩
  · have never : ∀ target old new e a, ¬Renaming env s pfid npfid name newname target old new e a :=
      fun target old new e a moves => reaches ⟨target,old,new,e,a,moves⟩
    constructor
    · rintro _ ⟨target,old,new,e,a,moves,_⟩
      exact never target old new e a moves
    · exact fun _ => restored_rename_refused never

end Rename

section Calls

/-- The calls that create and move names. -/
inductive Call where
  | mknod (pfid : Fid) (name : Name) (kind : Kind) (uid gid : Nat) (sgid dir : Bool)
  | mkdir (pfid : Fid) (name : Name) (uid gid : Nat) (sgid : Bool)
  | symlink (length : Nat) (pfid : Fid) (name : Name) (uid gid : Nat) (dir : Bool)
  | rename (pfid : Fid) (name : Name) (npfid : Fid) (newname : Name)

def Call.run (env : Env) (s : State) : Call → Result
  | mknod pfid name kind uid gid sgid dir => Namespace.mknod env s pfid name kind uid gid sgid dir
  | mkdir pfid name uid gid sgid => Namespace.mkdir env s pfid name uid gid sgid
  | symlink length pfid name uid gid dir => Namespace.symlink env s length pfid name uid gid dir
  | rename pfid name npfid newname => Namespace.rename env s pfid name npfid newname

/-- A failed call changes nothing, and a creation removes and redirects no name. -/
def Call.Keeps (env : Env) (s : State) (call : Call) : Prop :=
  ((call.run env s).2 ≠ none → Same s (call.run env s).1) ∧
    match call with
    | rename .. => True
    | _ => NamesKept s (call.run env s).1

/-- The calls whose error path, or whose check of the name, does harm. -/
def Call.Spoils (env : Env) (s : State) : Call → Prop
  | mknod pfid name kind _ _ _ _ => MknodSpoils env s pfid name kind
  | mkdir pfid name _ _ _ => MkdirSpoils env s pfid name
  | symlink _ pfid name _ _ _ => SymlinkSpoils env s pfid name
  | rename pfid name npfid newname => RenameSpoils env s pfid npfid name newname

/-- A directory with one name, a directory too. -/
def oneName : State where
  attrs := (Table.empty.insert 1 ⟨.dir,0,0,false,3,4096,1,0,0,0,.off,false,1,none⟩).insert 2 ⟨.dir,7,7,false,2,4096,0,0,0,0,.off,false,1,none⟩
  entries := fun d => if d = 1 then Table.empty.insert ['a'] ⟨2,false,true⟩ else Table.empty
  recycled := fun _ => []
  links := fun _ => false
  folders := fun d => decide (d = 1 ∨ d = 2)
  updates := []

/-- A call in which one operation fails with `EIO`, or none. -/
def failing (fault : Option Fault) : Env where
  mknodOk := false
  mkdirOk := false
  recent := false
  versioning := false
  recycle := false
  deviceFull := false
  overQuota := false
  blocksRefused := false
  thinRefused := false
  hour := []
  fresh := fun k => k + 3
  freshLink := 0
  stale := none
  fault := fault
  pass := 0
  failure := .eio

theorem unused_oneName (fault : Option Fault) : Unused (failing fault) oneName := by
  refine ⟨?_,rfl,?_⟩
  · intro k
    have first : k + 3 ≠ 1 := by omega
    have second : k + 3 ≠ 2 := by omega
    simp only [oneName,failing,get_insert_other _ _ first,get_insert_other _ _ second,get_empty]
  · intro d n e here
    have two : e.inode = 2 := by
      simp only [oneName] at here
      split at here
      · by_cases own : n = ['a']
        · rw [own,get_insert_self,Option.some.injEq] at here
          rw [← here]
        · rw [get_insert_other _ _ own] at here
          cases here
      · cases here
    exact ⟨fun k => by simp only [two,failing]; omega,fun k r member => (List.not_mem_nil member).elim⟩

end Calls

end Rozofs.Namespace
