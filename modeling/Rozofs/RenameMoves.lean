import Rozofs.RenameAtomic

/-! What a successful `export_rename` does to the names, to the object that is renamed and to the one that is
replaced. -/
namespace Rozofs.Namespace
open KeyTable

section Files
variable (env : Env) (s : State)

/-- The file count in `export_unlink_multiple`. -/
def unlinkMultipleFiles (parent : Nat) (name : Name) : Int :=
  match parseObjectName (objectName name) with
  | .error _ => 0
  | .ok (count,base) =>
    match (s.entries parent).get name with
    | none => 0
    | some e => if e.dir then 0 else -((removeNumbered s parent base count.toNat).count : Int)

/-- The file count in the rest of `export_unlink`: only a file that is really deleted is taken off. -/
def unlinkNameFiles (parent : Fid) (p : Attr) (name : Name) : Int :=
  match (s.entries parent.inode).get name with
  | none => 0
  | some e =>
    if e.dir ∨ (e.del ∧ toTrash env parent p) ∨ (parent.del ≠ p.del ∧ e.del = false) then 0
    else
      match s.attrs.get e.inode with
      | none => 0
      | some a =>
        if a.nlink = 1 ∧ (keepsData a (toTrash env parent p) = false ∨ ((s.entries parent.inode).get (deletedName env.hour none name)).isSome)
        then -1 else 0

/-- What `export_unlink` adds to the number of files of the export. -/
def unlinkFiles (parent : Fid) (name : Name) : Int :=
  match s.attrs.get parent.inode with
  | none => 0
  | some p =>
    if isMultiple name then
      let done := unlinkMultiple s parent.inode p name
      unlinkMultipleFiles s parent.inode name + if done.2 = none then unlinkNameFiles env done.1 parent p name else 0
    else unlinkNameFiles env s parent p name

/-- What `export_rename` adds to the number of files of the export, when it gets to the new name. -/
def renameFiles (npfid : Fid) (newname : Name) (a : Attr) (sourceIsTrash : Bool) : Int :=
  match (s.entries npfid.inode).get newname with
  | none => 0
  | some r =>
    if sourceIsTrash then 0
    else
      match s.lookup env .replaced r.inode with
      | none => 0
      | some ra =>
        if ra.kind = .dir then (if a.kind ≠ .dir ∨ ra.children ≠ 0 ∨ env.fails .updateFiles then 0 else -1)
        else if ra.kind = .reg ∨ ra.kind = .lnk then unlinkFiles env s npfid newname
        else 0

/-- The name in the attributes of the object, after a rename that ends so. -/
def renamedName (newname : Name) (r : Result) (fname : Name) : Name := if r.2 = none then newname else fname

end Files

section Moved
variable (env : Env) (s s' : State)

/-- The inode is released, its quota given back and its file counted off. -/
def Released (new ra : Attr) (inode : Nat) (files : Int) : Prop :=
  s'.attrs.get inode = none ∧ files = -1 ∧ ∃ later earlier, s.updates <:+ earlier ∧
    s'.updates = later ++ ⟨true,ra.uid,ra.gid,new.cid,if ra.kind = .reg then -(ra.size : Int) else 0⟩ :: ⟨false,ra.uid,ra.gid,new.cid,-1⟩ :: earlier

/-- The object has a new entry in the trash of its directory. -/
def Trashed (npfid : Nat) (newname : Name) (r : Entry) : Prop :=
  (s.entries npfid).get (deletedName env.hour none newname) = none ∧
  (s'.entries npfid).get (deletedName env.hour none newname) = some { r with del := true } ∧
  ∃ a, s'.attrs.get r.inode = some a ∧ a.del = true

/-- A file that has other names loses one. -/
def Unlinked (ra : Attr) (inode : Nat) : Prop :=
  ra.kind ≠ .dir ∧ 1 < ra.nlink ∧ ∃ a, s'.attrs.get inode = some a ∧ a.nlink = dec 16 ra.nlink

/-- A rename has moved one name: the object has the new name and not the old one, the other entries are as they were,
and what had the new name is released, in the trash, or has lost that name. -/
structure Moved (pfid npfid : Nat) (name newname : Name) (inode : Nat) (new : Attr) (files : Int) (fname : Name) : Prop where
  placed : ∃ e, (s'.entries npfid).get newname = some e ∧ e.inode = inode
  object : ∃ a, s'.attrs.get inode = some a ∧ a.pfid = npfid ∧ fname = newname
  left : ¬(pfid = npfid ∧ name = newname) → (s'.entries pfid).get name = none
  others : ∀ d n, ¬(d = pfid ∧ n = name) → ¬(d = npfid ∧ n = newname) → (s'.entries d).get n = (s.entries d).get n ∨
    (d = npfid ∧ n = deletedName env.hour none newname ∧ ∃ r, (s.entries npfid).get newname = some r ∧ Trashed env s s' npfid newname r)
  replaced : ∀ r, (s.entries npfid).get newname = some r → ∃ ra, s.attrs.get r.inode = some ra ∧
    (Released s s' new ra r.inode files ∨ Trashed env s s' npfid newname r ∨ Unlinked s' ra r.inode)

/-- The names of a multi-file name are all free. -/
def NumberedFree (parent : Nat) (name : Name) : Prop :=
  ∃ count base, parseObjectName (objectName name) = .ok (count,base) ∧ ∀ k, 1 ≤ k → k ≤ count.toNat → (s.entries parent).get (numbered base k) = none

/-- What has the new name can be replaced: a regular file or a symbolic link whose removal is accepted, removes no
other file, and leaves the object that is renamed. -/
structure Replaceable (npfid : Fid) (newname : Name) (new : Attr) (inode : Nat) (r : Entry) (ra : Attr) : Prop where
  kind : ra.kind = .reg ∨ ra.kind = .lnk
  file : r.dir = false
  accepted : ¬(r.del = true ∧ toTrash env npfid new = true)
  alone : isMultiple newname = true → NumberedFree s npfid.inode newname
  other : r.inode = inode → 1 < ra.nlink
  linked : ra.nlink = 0 → toTrash env npfid new = true ∧ (s.entries npfid.inode).get (deletedName env.hour none newname) = none

end Moved

section Entered
variable {env : Env} {s : State} {pfid npfid inode : Nat} {name newname : Name} {old new a : Attr}

/-- The counters of the parents are changed, and nothing else. -/
structure Counted (s s' : State) (pfid npfid : Nat) : Prop where
  entries : s'.entries = s.entries
  isSome : ∀ j, (s'.attrs.get j).isSome = (s.attrs.get j).isSome
  other : ∀ j, j ≠ pfid → j ≠ npfid → s'.attrs.get j = s.attrs.get j
  del : ∀ j a, s'.attrs.get j = some a → ∃ b, s.attrs.get j = some b ∧ a.del = b.del
  updates : s.updates <:+ s'.updates

theorem Counted.refl (s : State) (pfid npfid : Nat) : Counted s s pfid npfid :=
  ⟨rfl,fun _ => rfl,fun _ _ _ => rfl,fun _ a here => ⟨a,here,rfl⟩,List.suffix_refl _⟩

theorem Counted.modify {s' : State} (counted : Counted s s' pfid npfid) {i : Nat} (parent : i = pfid ∨ i = npfid) {f : Attr → Attr}
    (kept : ∀ a, (f a).del = a.del) : Counted s (s'.modify i f) pfid npfid where
  entries := (modify_entries ..).trans counted.entries
  isSome j := (isSome_modify ..).trans (counted.isSome j)
  other j out out' := by
    rw [get_modify_other]
    · exact counted.other j out out'
    · rintro rfl
      cases parent with
      | inl same => exact out same
      | inr same => exact out' same
  del j a here := by
    rw [get_modify] at here
    split at here
    · rename_i same
      subst same
      obtain ⟨b,before,rfl⟩ := Option.map_eq_some_iff.mp here
      rw [kept]
      exact counted.del j b before
    · exact counted.del j a here
  updates := by
    rw [modify_updates]
    exact counted.updates

theorem Counted.issue {s' : State} (counted : Counted s s' pfid npfid) (u : Update) : Counted s (s'.issue u) pfid npfid :=
  { counted with updates := counted.updates.trans (List.suffix_cons u s'.updates) }

@[simp] theorem incChildren_del : ∀ a : Attr, a.incChildren.del = a.del
  | ⟨_,_,_,_,_,_,_,_,_,_,_,del,_,_⟩ => Eq.refl del

@[simp] theorem decChildren_del : ∀ a : Attr, a.decChildren.del = a.del
  | ⟨_,_,_,_,_,_,_,_,_,_,_,del,_,_⟩ => Eq.refl del

theorem decChildren_kind : ∀ a : Attr, a.decChildren.kind = a.kind
  | ⟨kind,_,_,_,_,_,_,_,_,_,_,_,_,_⟩ => Eq.refl kind

@[simp] theorem incNlink_del : ∀ a : Attr, a.incNlink.del = a.del
  | ⟨_,_,_,_,_,_,_,_,_,_,_,del,_,_⟩ => Eq.refl del

@[simp] theorem decNlink_del : ∀ a : Attr, a.decNlink.del = a.del
  | ⟨_,_,_,_,_,_,_,_,_,_,_,del,_,_⟩ => Eq.refl del

@[simp] theorem decDeleted_del : ∀ a : Attr, a.decDeleted.del = a.del
  | ⟨_,_,_,_,_,_,_,_,_,_,_,del,_,_⟩ => Eq.refl del

theorem counted_moveCounters (s : State) (pfid npfid : Nat) (old new a : Attr) : Counted s (moveCounters s pfid npfid old new a) pfid npfid := by
  have start := Counted.refl s pfid npfid
  simp only [moveCounters]
  split
  · have first : Counted s (s.modify npfid fun p => if decide (a.kind = .dir) then p.incChildren.incNlink else p.incChildren) pfid npfid := by
      apply start.modify (.inr rfl)
      intro p
      split
      · simp only [incNlink_del,incChildren_del]
      · exact incChildren_del p
    have second : Counted s ((s.modify npfid fun p => if decide (a.kind = .dir) then p.incChildren.incNlink else p.incChildren).modify pfid
        fun p => if a.del then p.decDeleted else if decide (a.kind = .dir) then p.decChildren.decNlink else p.decChildren) pfid npfid := by
      apply first.modify (.inl rfl)
      intro p
      split
      · exact decDeleted_del p
      · split
        · simp only [decNlink_del,decChildren_del]
        · exact decChildren_del p
    split
    · exact (((second.issue _).issue _).issue _).issue _
    · exact second
  · split
    · apply start.modify (.inr rfl)
      intro p
      split
      · simp only [incNlink_del,incChildren_del,decDeleted_del]
      · simp only [incChildren_del,decDeleted_del]
    · exact start

/-- The namespace after the end of a rename: the new entry, without the old one, and the object with its new parent. -/
structure Entered (s s' : State) (pfid npfid : Nat) (name newname : Name) (inode : Nat) : Prop where
  entries : ∃ dir, ∀ d n, (s'.entries d).get n =
    if d = pfid ∧ n = name then none else if d = npfid ∧ n = newname then some ⟨inode,false,dir⟩ else (s.entries d).get n
  isSome : ∀ j, (s'.attrs.get j).isSome = (s.attrs.get j).isSome
  other : ∀ j, j ≠ pfid → j ≠ npfid → j ≠ inode → s'.attrs.get j = s.attrs.get j
  object : ∀ a, s'.attrs.get inode = some a → a.pfid = npfid ∧ a.del = false
  nlink : inode ≠ pfid → inode ≠ npfid → ∀ a, s.attrs.get inode = some a → ∃ a', s'.attrs.get inode = some a' ∧ a'.nlink = a.nlink
  updates : s.updates <:+ s'.updates

theorem renameAttributes_success (success : (renameAttributes env s pfid npfid inode old new).2 = none) :
    (renameAttributes env s pfid npfid inode old new).1 =
      s.modifyHeld inode fun a => { a with pfid := npfid, share := if old.cid = new.cid then a.share else new.cid } := by
  simp only [renameAttributes] at success ⊢
  generalize (if pfid = npfid then writeAttributes env s .writeParent npfid
    else (writeAttributes env s .writeParent npfid).or (writeAttributes env s .writeOldParent pfid)) = parents at success ⊢
  cases parents with
  | some error => cases success
  | none => rfl

theorem entered (success : (renameEntry env s pfid npfid name newname inode old new a).2 = none) :
    Entered s (renameEntry env s pfid npfid name newname inode old new a).1 pfid npfid name newname inode := by
  simp only [renameEntry] at success ⊢
  by_cases put : env.fails .put = true
  · rw [if_pos put] at success
    cases success
  by_cases remove : env.fails .remove = true
  · rw [if_neg put,if_pos remove] at success
    cases success
  rw [if_neg put,if_neg remove] at success ⊢
  generalize (s.held inode).getD a = current at success ⊢
  generalize opened : ((s.modify inode fun a => { a with del := false }).putEntry npfid newname ⟨inode,false,decide (current.kind = .dir)⟩).delEntry
    pfid name = middle at success ⊢
  rw [renameAttributes_success success]
  have attrs : ∀ j, middle.attrs.get j = (s.modify inode fun a => { a with del := false }).attrs.get j := by
    intro j
    rw [← opened]
    rfl
  have counted := counted_moveCounters middle pfid npfid old new current
  constructor
  case entries =>
    refine ⟨decide (current.kind = .dir),fun d n => ?_⟩
    rw [modifyHeld_entries,counted.entries,← opened,get_delEntry,get_putEntry,modify_entries]
  case isSome =>
    intro j
    rw [modifyHeld_attrs,isSome_modify,counted.isSome,attrs,isSome_modify]
  case other =>
    intro j out out' own
    rw [modifyHeld_attrs,get_modify_other _ own,counted.other j out out',attrs,get_modify_other _ own]
  case object =>
    intro a' here
    rw [modifyHeld_attrs,get_modify_self] at here
    obtain ⟨b,before,rfl⟩ := Option.map_eq_some_iff.mp here
    obtain ⟨c,first,same⟩ := counted.del inode b before
    rw [attrs,get_modify_self] at first
    obtain ⟨_,_,rfl⟩ := Option.map_eq_some_iff.mp first
    exact ⟨rfl,same⟩
  case nlink =>
    intro out out' a' here
    rw [modifyHeld_attrs,get_modify_self,counted.other inode out out',attrs,get_modify_self,here,Option.map_some,Option.map_some]
    exact ⟨_,rfl,rfl⟩
  case updates =>
    rw [modifyHeld_updates]
    refine List.IsSuffix.trans ?_ counted.updates
    rw [← opened]
    simp only [State.delEntry,State.putEntry,modify_updates]
    exact List.suffix_refl _

end Entered

section Fates
variable {env : Env} {s t u : State} {npfid : Fid} {newname : Name} {new ra : Attr} {r : Entry}

/-- The object that has the new name is released. -/
structure ReleasedAt (t u : State) (npfid : Nat) (newname : Name) (new ra : Attr) (inode : Nat) : Prop where
  entries : ∀ d n, (u.entries d).get n = if d = npfid ∧ n = newname then none else (t.entries d).get n
  gone : u.attrs.get inode = none
  isSome : ∀ j, j ≠ inode → (u.attrs.get j).isSome = (t.attrs.get j).isSome
  updates : u.updates = ⟨true,ra.uid,ra.gid,new.cid,if ra.kind = .reg then -(ra.size : Int) else 0⟩ :: ⟨false,ra.uid,ra.gid,new.cid,-1⟩ :: t.updates

/-- It goes to the trash. -/
structure TrashedAt (env : Env) (t u : State) (npfid : Nat) (newname : Name) (r : Entry) : Prop where
  free : (t.entries npfid).get (deletedName env.hour none newname) = none
  entries : ∀ d n, (u.entries d).get n = if d = npfid ∧ n = deletedName env.hour none newname then some { r with del := true }
    else if d = npfid ∧ n = newname then none else (t.entries d).get n
  isSome : ∀ j, (u.attrs.get j).isSome = (t.attrs.get j).isSome
  marked : ∃ a, u.attrs.get r.inode = some a ∧ a.del = true

/-- It loses one of its names. -/
structure FewerAt (t u : State) (npfid : Nat) (newname : Name) (ra : Attr) (inode : Nat) : Prop where
  entries : ∀ d n, (u.entries d).get n = if d = npfid ∧ n = newname then none else (t.entries d).get n
  isSome : ∀ j, (u.attrs.get j).isSome = (t.attrs.get j).isSome
  fewer : ∃ a, u.attrs.get inode = some a ∧ a.nlink = dec 16 ra.nlink

/-- It stays as it was. -/
structure StaysAt (t u : State) (npfid : Nat) (newname : Name) (ra : Attr) (inode : Nat) : Prop where
  entries : ∀ n, n ≠ newname → (u.entries npfid).get n = (t.entries npfid).get n
  isSome : ∀ j, (u.attrs.get j).isSome = (t.attrs.get j).isSome
  same : ∃ a, u.attrs.get inode = some a ∧ a.nlink = ra.nlink

/-- A file is removed from an active directory. -/
theorem removeFile_fate (env : Env) (newname : Name) (isActive : active npfid new = true) (object : t.attrs.get r.inode = some ra) (apart : r.inode ≠ npfid.inode) :
    let u := removeFile env (t.delEntry npfid.inode newname) npfid new r ra
    (ra.nlink = 1 → ReleasedAt t u npfid.inode newname new ra r.inode) ∧
    (1 < ra.nlink → FewerAt t u npfid.inode newname ra r.inode) ∧
    (ra.nlink = 0 → StaysAt t u npfid.inode newname ra r.inode) := by
  have result : removeFile env (t.delEntry npfid.inode newname) npfid new r ra =
      (if ra.nlink = 1 then (t.delEntry npfid.inode newname).release env r.inode ra new
        else if ra.nlink > 1 then (t.delEntry npfid.inode newname).modify r.inode Attr.decNlink
        else t.delEntry npfid.inode newname).modify npfid.inode Attr.decChildren := by
    simp only [removeFile,isActive,countsChild,Bool.true_or,Bool.or_true,ite_self,if_true]
  have entries : ∀ d n, ((t.delEntry npfid.inode newname).entries d).get n =
    if d = npfid.inode ∧ n = newname then none else (t.entries d).get n := fun d n => get_delEntry t npfid.inode d newname n
  rw [result]
  refine ⟨?_,?_,?_⟩
  · intro one
    rw [if_pos one]
    constructor
    case entries =>
      intro d n
      rw [modify_entries,release_entries,entries]
    case gone =>
      rw [get_modify_other _ apart,release_attrs,get_delete,if_pos rfl]
    case isSome =>
      intro j differ
      rw [isSome_modify,release_attrs,get_delete,if_neg differ,delEntry_attrs]
    case updates =>
      rw [modify_updates,release_updates]
      rfl
  · intro many
    rw [if_neg (Nat.ne_of_gt many),if_pos many]
    constructor
    case entries =>
      intro d n
      rw [modify_entries,modify_entries,entries]
    case isSome =>
      intro j
      rw [isSome_modify,isSome_modify,delEntry_attrs]
    case fewer =>
      rw [get_modify_other _ apart,get_modify_self,delEntry_attrs,object,Option.map_some]
      exact ⟨_,rfl,by simp only [Attr.decNlink]⟩
  · intro zero
    rw [zero,if_neg Nat.zero_ne_one,if_neg (Nat.not_lt_zero 1)]
    constructor
    case entries =>
      intro n differ
      rw [modify_entries,entries,if_neg fun same => differ same.2]
    case isSome =>
      intro j
      rw [isSome_modify,delEntry_attrs]
    case same =>
      rw [get_modify_other _ apart,delEntry_attrs]
      exact ⟨ra,object,rfl⟩

/-- A file goes to the trash, where its name may be taken. -/
theorem trashFile_fate (env : Env) (newname : Name) (new : Attr) (object : t.attrs.get r.inode = some ra) (apart : r.inode ≠ npfid.inode) :
    let u := trashFile env (t.delEntry npfid.inode newname) npfid.inode new newname r ra
    ((t.entries npfid.inode).get (deletedName env.hour none newname) = none → TrashedAt env t u npfid.inode newname r) ∧
    ((t.entries npfid.inode).get (deletedName env.hour none newname) ≠ none →
      (ra.nlink = 1 → ReleasedAt t u npfid.inode newname new ra r.inode) ∧ (ra.nlink ≠ 1 → StaysAt t u npfid.inode newname ra r.inode)) := by
  have differ := deletedName_ne env.hour newname
  have entries : ∀ d n, ((t.delEntry npfid.inode newname).entries d).get n =
    if d = npfid.inode ∧ n = newname then none else (t.entries d).get n := fun d n => get_delEntry t npfid.inode d newname n
  have taken : ((t.delEntry npfid.inode newname).entries npfid.inode).get (deletedName env.hour none newname) =
    (t.entries npfid.inode).get (deletedName env.hour none newname) := by
    rw [entries,if_neg fun same => differ same.2]
  simp only [trashFile,modify_entries,taken]
  refine ⟨?_,?_⟩
  · intro free
    have absent : ((t.entries npfid.inode).get (deletedName env.hour none newname)).isSome = false := by rw [free]; rfl
    simp only [absent,Bool.false_eq_true,if_false]
    constructor
    case free => exact free
    case entries =>
      intro d n
      rw [get_putEntry,modify_entries,modify_entries,entries]
    case isSome =>
      intro j
      rw [putEntry_attrs,isSome_modify,isSome_modify,delEntry_attrs]
    case marked =>
      rw [putEntry_attrs,get_modify_self,get_modify_other _ apart,delEntry_attrs,object,Option.map_some]
      exact ⟨_,rfl,rfl⟩
  · intro present
    have there : ((t.entries npfid.inode).get (deletedName env.hour none newname)).isSome = true := Option.isSome_iff_ne_none.mpr present
    simp only [there,if_true]
    refine ⟨?_,?_⟩
    · intro one
      rw [if_pos one]
      constructor
      case entries =>
        intro d n
        rw [release_entries,modify_entries,modify_entries,modify_entries,entries]
      case gone =>
        rw [release_attrs,get_delete,if_pos rfl]
      case isSome =>
        intro j own
        rw [release_attrs,get_delete,if_neg own,isSome_modify,isSome_modify,isSome_modify,delEntry_attrs]
      case updates =>
        rw [release_updates,modify_updates,modify_updates,modify_updates]
        rfl
    · intro other
      rw [if_neg other]
      constructor
      case entries =>
        intro n own
        rw [modify_entries,modify_entries,modify_entries,entries,if_neg fun same => own same.2]
      case isSome =>
        intro j
        rw [isSome_modify,isSome_modify,isSome_modify,delEntry_attrs]
      case same =>
        rw [get_modify_other _ apart,get_modify_self,get_modify_other _ apart,delEntry_attrs,object,Option.map_some]
        exact ⟨_,rfl,rfl⟩

/-- The removal of a name is refused. -/
def NameRefused (env : Env) (npfid : Fid) (new : Attr) (r : Entry) : Prop := r.dir = true ∨ (r.del = true ∧ toTrash env npfid new = true)

/-- What becomes of the object whose name is removed, and of the number of files. -/
theorem unlinkName_fate (isActive : active npfid new = true) (here : (t.entries npfid.inode).get newname = some r)
    (object : t.attrs.get r.inode = some ra) (apart : r.inode ≠ npfid.inode) (accepted : ¬NameRefused env npfid new r) :
    let u := (unlinkName env t npfid new newname).1
    (ra.nlink = 1 ∧ ReleasedAt t u npfid.inode newname new ra r.inode ∧ unlinkNameFiles env t npfid new newname = -1) ∨
    (ra.nlink ≤ 1 ∧ TrashedAt env t u npfid.inode newname r ∧ (ra.nlink = 0 → toTrash env npfid new = true)) ∨
    (1 < ra.nlink ∧ FewerAt t u npfid.inode newname ra r.inode) ∨
    (ra.nlink = 0 ∧ ¬(toTrash env npfid new = true ∧ (t.entries npfid.inode).get (deletedName env.hour none newname) = none) ∧
      StaysAt t u npfid.inode newname ra r.inode) := by
  have together : npfid.del = new.del := by
    simp only [active,Bool.and_eq_true,Bool.not_eq_true'] at isActive
    rw [isActive.1,isActive.2]
  rw [NameRefused,not_or] at accepted
  obtain ⟨file,fresh⟩ := accepted
  have guard : ¬(r.dir = true ∨ (r.del = true ∧ toTrash env npfid new = true) ∨ (npfid.del ≠ new.del ∧ r.del = false)) := by
    rintro (dir | trashed | inactive)
    · exact file dir
    · exact fresh trashed
    · exact inactive.1 together
  have inactive : ¬(npfid.del ≠ new.del ∧ r.del = false) := fun both => both.1 together
  obtain ⟨first,second,third⟩ := removeFile_fate env newname isActive object apart
  obtain ⟨free,taken⟩ := trashFile_fate env newname new object apart
  simp only [unlinkName,unlinkNameFiles,here,object,if_neg file,if_neg fresh,if_neg inactive,if_neg guard]
  by_cases one : ra.nlink = 1
  · simp only [if_pos one]
    cases keeps : keepsData ra (toTrash env npfid new) with
    | false => exact .inl ⟨one,first one,by rw [if_pos ⟨one,.inl rfl⟩]⟩
    | true =>
      by_cases absent : (t.entries npfid.inode).get (deletedName env.hour none newname) = none
      · exact .inr (.inl ⟨by omega,free absent,fun zero => by omega⟩)
      · exact .inl ⟨one,(taken absent).1 one,by rw [if_pos ⟨one,.inr (Option.isSome_iff_ne_none.mpr absent)⟩]⟩
  · simp only [if_neg one]
    by_cases zero : ra.nlink = 0
    · simp only [zero,decide_true,Bool.true_and]
      by_cases trash : toTrash env npfid new = true
      · simp only [if_pos trash]
        by_cases absent : (t.entries npfid.inode).get (deletedName env.hour none newname) = none
        · exact .inr (.inl ⟨by omega,free absent,fun _ => trash⟩)
        · exact .inr (.inr (.inr ⟨trivial,fun both => absent both.2,(taken absent).2 one⟩))
      · simp only [if_neg trash]
        exact .inr (.inr (.inr ⟨trivial,fun both => trash both.1,third zero⟩))
    · simp only [zero,decide_false,Bool.false_and,Bool.false_eq_true,if_false]
      exact .inr (.inr (.inl ⟨by omega,second (by omega)⟩))

theorem unlinkName_of_refused (here : (t.entries npfid.inode).get newname = some r) (refused : NameRefused env npfid new r) :
    (unlinkName env t npfid new newname).1 = t := unlinkName_refused here refused

/-- The entries that the removal of a name leaves or writes: a new one leads to an inode that is there. -/
theorem unlinkName_entries (isActive : active npfid new = true) (dir : ∀ a, t.attrs.get npfid.inode = some a → a.kind = .dir)
    (file : ∀ r, (t.entries npfid.inode).get newname = some r → ∀ ra, t.attrs.get r.inode = some ra → ra.kind ≠ .dir) {m : Name} {e : Entry}
    (other : m ≠ newname) (free : (t.entries npfid.inode).get m = none) (gone : t.attrs.get e.inode = none) :
    ((unlinkName env t npfid new newname).1.entries npfid.inode).get m ≠ some e ∧
    (unlinkName env t npfid new newname).1.attrs.get e.inode = none := by
  have absent : (t.entries npfid.inode).get m ≠ some e := by
    rw [free]
    exact fun same => nomatch same
  have isNone : ∀ u : State, (u.attrs.get e.inode).isSome = (t.attrs.get e.inode).isSome → u.attrs.get e.inode = none := by
    exact fun u same => none_of_isSome same gone
  cases here : (t.entries npfid.inode).get newname with
  | none =>
    simp only [unlinkName,here]
    exact ⟨absent,gone⟩
  | some r =>
    by_cases refused : NameRefused env npfid new r
    · rw [unlinkName_of_refused here refused]
      exact ⟨absent,gone⟩
    cases object : t.attrs.get r.inode with
    | none =>
      have together : npfid.del = new.del := by
        simp only [active,Bool.and_eq_true,Bool.not_eq_true'] at isActive
        rw [isActive.1,isActive.2]
      rw [NameRefused,not_or] at refused
      have inactive : ¬(npfid.del ≠ new.del ∧ r.del = false) := fun both => both.1 together
      simp only [unlinkName,here,object,if_neg refused.1,if_neg refused.2,if_neg inactive,get_delEntry]
      rw [if_neg fun same => other same.2]
      exact ⟨absent,gone⟩
    | some ra =>
      have apart : r.inode ≠ npfid.inode := fun same => file r here ra object (dir ra (same ▸ object))
      have differ : e.inode ≠ r.inode := by
        intro same
        rw [same,object] at gone
        cases gone
      obtain ⟨_,released,_⟩ | ⟨_,trashed,_⟩ | ⟨_,fewer⟩ | ⟨_,_,stays⟩ := unlinkName_fate isActive here object apart refused
      · rw [released.entries,if_neg fun same => other same.2]
        exact ⟨absent,isNone _ (released.isSome _ differ)⟩
      · rw [trashed.entries]
        refine ⟨?_,isNone _ (trashed.isSome _)⟩
        split
        · intro same
          exact differ (congrArg Entry.inode (Option.some.inj same)).symm
        · rw [if_neg fun same => other same.2]
          exact absent
      · rw [fewer.entries,if_neg fun same => other same.2]
        exact ⟨absent,isNone _ (fewer.isSome _)⟩
      · rw [stays.entries m other]
        exact ⟨absent,isNone _ (stays.isSome _)⟩

/-- When one of the numbered names is there, an entry is lost with its inode. -/
theorem unlink_spoils (env : Env) (parent : s.attrs.get npfid.inode = some new) (kind : new.kind = .dir) (isActive : active npfid new = true)
    (here : (s.entries npfid.inode).get newname = some r) (object : s.attrs.get r.inode = some ra) (notDir : ra.kind ≠ .dir)
    (file : r.dir = false) (multiple : isMultiple newname = true) {count : Int} {base : Name}
    (parsed : parseObjectName (objectName newname) = .ok (count,base)) {k : Nat} (low : 1 ≤ k) (high : k ≤ count.toNat) {e : Entry}
    (taken : (s.entries npfid.inode).get (numbered base k) = some e) :
    ((unlink env s npfid newname).1.entries npfid.inode).get (numbered base k) ≠ some e ∧
    (unlink env s npfid newname).1.attrs.get e.inode = none := by
  have numbered := removeNumbered_numbered s npfid.inode base count.toNat
  have apart : r.inode ≠ npfid.inode := by
    intro same
    rw [same,parent] at object
    cases object
    exact notDir kind
  have removed := numbered.gone k low high
  have lost : (removeNumbered s npfid.inode base count.toNat).state.attrs.get e.inode = none := by
    obtain same | ⟨_,e',before,lost⟩ := numbered.entries (Namespace.numbered base k)
    · rw [removed,taken] at same
      cases same
    · rw [taken] at before
      cases before
      exact lost
  have refused : ¬r.dir = true := by rw [file]; exact Bool.false_ne_true
  simp only [unlink,parent,if_pos multiple,unlinkMultiple,parsed,here,if_neg refused,if_true]
  apply unlinkName_entries isActive
  · intro a found
    rw [get_modify_self] at found
    obtain ⟨b,before,rfl⟩ := Option.map_eq_some_iff.mp found
    obtain same | ⟨gone,_⟩ := numbered.attrs npfid.inode
    · have before : (removeNumbered s npfid.inode base count.toNat).state.attrs.get npfid.inode = some b := before
      rw [same,parent] at before
      cases before
      exact (decChildren_kind new).trans kind
    · have before : (removeNumbered s npfid.inode base count.toNat).state.attrs.get npfid.inode = some b := before
      rw [gone] at before
      cases before
  · intro r' found ra' found'
    rw [modify_entries] at found
    have found : ((removeNumbered s npfid.inode base count.toNat).state.entries npfid.inode).get newname = some r' := found
    obtain same | ⟨missing,_⟩ := numbered.entries newname
    · rw [same,here] at found
      cases found
      rw [get_modify_other _ apart] at found'
      have found' : (removeNumbered s npfid.inode base count.toNat).state.attrs.get r.inode = some ra' := found'
      obtain same | ⟨gone,_⟩ := numbered.attrs r.inode
      · rw [same,object] at found'
        cases found'
        exact notDir
      · rw [gone] at found'
        cases found'
    · rw [missing] at found
      cases found
  · exact numbered_ne multiple parsed high
  · rw [modify_entries]
    exact removed
  · exact none_of_isSome (isSome_modify ..) lost

/-- The removal of a name that removes no other file. -/
theorem unlink_alone (env : Env) (parent : s.attrs.get npfid.inode = some new) (here : (s.entries npfid.inode).get newname = some r)
    (file : r.dir = false) (alone : isMultiple newname = true → NumberedFree s npfid.inode newname) :
    ∃ t, Counted s t npfid.inode npfid.inode ∧ (unlink env s npfid newname).1 = (unlinkName env t npfid new newname).1 ∧
      unlinkFiles env s npfid newname = unlinkNameFiles env t npfid new newname := by
  have start := Counted.refl s npfid.inode npfid.inode
  by_cases multiple : isMultiple newname = true
  · obtain ⟨count,base,parsed,free⟩ := alone multiple
    have refused : ¬r.dir = true := by rw [file]; exact Bool.false_ne_true
    have counted : Counted s (((s.inodeUpdate noId noId new.cid (-((0 : Nat) : Int))).inodeUpdate noId noId new.cid (-((0 : Nat) : Int))).modify
        npfid.inode Attr.decChildren) npfid.inode npfid.inode :=
      ((start.issue _).issue _).modify (.inl rfl) decChildren_del
    refine ⟨_,counted,?_,?_⟩
    · simp only [unlink,parent,if_pos multiple,unlinkMultiple,parsed,here,if_neg refused,if_true,removeNumbered_free s _ base _ free]
    · simp only [unlinkFiles,parent,if_pos multiple,unlinkMultiple,unlinkMultipleFiles,parsed,here,if_neg refused,if_true,
        removeNumbered_free s _ base _ free]
      simp
  · refine ⟨s,start,?_,?_⟩
    · simp only [unlink,parent,if_neg multiple]
    · simp only [unlinkFiles,parent,if_neg multiple]

/-- The removal of a multi-file name whose number cannot be read. -/
theorem unlink_unread (parent : s.attrs.get npfid.inode = some new) (multiple : isMultiple newname = true)
    (unread : ∀ parsed, parseObjectName (objectName newname) ≠ .ok parsed) : (unlink env s npfid newname).1 = s := by
  simp only [unlink,parent,if_pos multiple,unlinkMultiple]
  cases parsed : parseObjectName (objectName newname) with
  | error error => simp
  | ok result => exact absurd parsed (unread result)

/-- The removal of what its entry calls a directory. -/
theorem unlink_dir (parent : s.attrs.get npfid.inode = some new) (here : (s.entries npfid.inode).get newname = some r)
    (dir : r.dir = true) : (unlink env s npfid newname).1 = s := by
  simp only [unlink,parent,unlinkMultiple,unlinkName,here,if_pos dir]
  split
  · cases parsed : parseObjectName (objectName newname) with
    | error error => simp
    | ok result => simp
  · rfl

end Fates

section Rename
variable {env : Env} {s t u s' : State} {pfid npfid : Fid} {name newname : Name} {inode : Nat} {old new ra : Attr} {e r : Entry} {files : Int}
  {fname : Name}

/-- What has been there before the end of a rename is there after it. -/
theorem Entered.exists_attr (entered : Entered u s' pfid.inode npfid.inode name newname inode) {j : Nat} (there : (u.attrs.get j).isSome = true) :
    ∃ a, s'.attrs.get j = some a := Option.isSome_iff_exists.mp ((entered.isSome j).trans there)

theorem Entered.placed (entered : Entered u s' pfid.inode npfid.inode name newname inode)
    (differ : ¬(pfid.inode = npfid.inode ∧ name = newname)) : ∃ e, (s'.entries npfid.inode).get newname = some e ∧ e.inode = inode := by
  obtain ⟨dir,entries⟩ := entered.entries
  have apart : ¬(npfid.inode = pfid.inode ∧ newname = name) := fun same => differ ⟨same.1.symm,same.2.symm⟩
  rw [entries,if_neg apart,if_pos ⟨rfl,rfl⟩]
  exact ⟨_,rfl,rfl⟩

theorem Entered.moves (entered : Entered u s' pfid.inode npfid.inode name newname inode)
    (differ : ¬(pfid.inode = npfid.inode ∧ name = newname)) (object : (u.attrs.get inode).isSome = true)
    (others : ∀ d n, ¬(d = pfid.inode ∧ n = name) → ¬(d = npfid.inode ∧ n = newname) → (u.entries d).get n = (s.entries d).get n ∨
      (d = npfid.inode ∧ n = deletedName env.hour none newname ∧ ∃ r, (s.entries npfid.inode).get newname = some r ∧ Trashed env s s' npfid.inode newname r))
    (replaced : ∀ r, (s.entries npfid.inode).get newname = some r → ∃ ra, s.attrs.get r.inode = some ra ∧
      (Released s s' new ra r.inode files ∨ Trashed env s s' npfid.inode newname r ∨ Unlinked s' ra r.inode)) :
    Moved env s s' pfid.inode npfid.inode name newname inode new files newname := by
  obtain ⟨dir,entries⟩ := entered.entries
  constructor
  case placed => exact entered.placed differ
  case object =>
    obtain ⟨a,there⟩ := entered.exists_attr object
    exact ⟨a,there,(entered.object a there).1,rfl⟩
  case left =>
    intro _
    rw [entries,if_pos ⟨rfl,rfl⟩]
  case others =>
    intro d n out out'
    rw [entries,if_neg out,if_neg out']
    exact others d n out out'
  case replaced => exact replaced

/-- An object that stays as it was is neither released nor in the trash, and keeps its names. -/
theorem Entered.stuck (entered : Entered u s' pfid.inode npfid.inode name newname inode) (apart : r.inode ≠ pfid.inode ∧ r.inode ≠ npfid.inode)
    (stays : StaysAt s u npfid.inode newname ra r.inode) :
    ¬(Released s s' new ra r.inode files ∨ Trashed env s s' npfid.inode newname r ∨ Unlinked s' ra r.inode) := by
  obtain ⟨a,here,nlink⟩ := stays.same
  have there : (u.attrs.get r.inode).isSome = true := by rw [here]; rfl
  obtain ⟨a',found⟩ := entered.exists_attr there
  obtain ⟨dir,entries⟩ := entered.entries
  rintro (released | trashed | unlinked)
  · rw [released.1] at found
    cases found
  · obtain ⟨free,put,_⟩ := trashed
    rw [entries] at put
    split at put
    · cases put
    · rw [if_neg fun same => deletedName_ne _ _ same.2,stays.entries _ (deletedName_ne _ _),free] at put
      cases put
  · obtain ⟨_,_,a'',found',fewer⟩ := unlinked
    have kept : a''.nlink = ra.nlink := by
      by_cases own : r.inode = inode
      · obtain ⟨a₁,found₁,same⟩ := entered.nlink (own ▸ apart.1) (own ▸ apart.2) a (own ▸ here)
        rw [own,found₁] at found'
        cases found'
        exact same.trans nlink
      · rw [entered.other r.inode apart.1 apart.2 own,here] at found'
        cases found'
        exact nlink
    exact dec_ne (by decide) ra.nlink (fewer.symm.trans kept)

theorem moved_released (entered : Entered u s' pfid.inode npfid.inode name newname inode) (differ : ¬(pfid.inode = npfid.inode ∧ name = newname))
    (counted : Counted s t npfid.inode npfid.inode) (object : (s.attrs.get inode).isSome = true) (here : (s.entries npfid.inode).get newname = some r)
    (found : s.attrs.get r.inode = some ra) (own : r.inode ≠ inode) (released : ReleasedAt t u npfid.inode newname new ra r.inode) :
    Moved env s s' pfid.inode npfid.inode name newname inode new (-1) newname := by
  apply entered.moves differ
  · rw [released.isSome inode (Ne.symm own),counted.isSome,object]
  · intro d n out out'
    rw [released.entries,if_neg out',counted.entries]
    exact .inl rfl
  · intro r' here'
    rw [here] at here'
    cases here'
    refine ⟨ra,found,.inl ⟨?_,rfl,?_⟩⟩
    · exact none_of_isSome (entered.isSome r.inode) released.gone
    · obtain ⟨later,updates⟩ := entered.updates
      exact ⟨later,t.updates,counted.updates,by rw [← updates,released.updates]⟩

theorem moved_trashed (entered : Entered u s' pfid.inode npfid.inode name newname inode) (differ : ¬(pfid.inode = npfid.inode ∧ name = newname))
    (counted : Counted s t npfid.inode npfid.inode) (object : (s.attrs.get inode).isSome = true) (source : (s.entries pfid.inode).get name = some e)
    (here : (s.entries npfid.inode).get newname = some r) (found : s.attrs.get r.inode = some ra)
    (apart : r.inode ≠ pfid.inode ∧ r.inode ≠ npfid.inode) (own : r.inode ≠ inode) (trashed : TrashedAt env t u npfid.inode newname r) :
    Moved env s s' pfid.inode npfid.inode name newname inode new files newname := by
  obtain ⟨dir,entries⟩ := entered.entries
  have free : (s.entries npfid.inode).get (deletedName env.hour none newname) = none := by
    rw [← counted.entries]
    exact trashed.free
  have moved : Trashed env s s' npfid.inode newname r := by
    refine ⟨free,?_,?_⟩
    · -- the old name is not that of the trash, which is free
      have other : ¬(npfid.inode = pfid.inode ∧ deletedName env.hour none newname = name) := by
        rintro ⟨same,same'⟩
        rw [same,same',source] at free
        cases free
      rw [entries,if_neg other,if_neg fun same => deletedName_ne _ _ same.2,trashed.entries,if_pos ⟨rfl,rfl⟩]
    · rw [entered.other r.inode apart.1 apart.2 own]
      exact trashed.marked
  apply entered.moves differ
  · rw [trashed.isSome,counted.isSome,object]
  · intro d n out out'
    rw [trashed.entries]
    split
    · rename_i place
      exact .inr ⟨place.1,place.2,r,here,moved⟩
    · simp only [counted.entries,true_or]
  · intro r' here'
    rw [here] at here'
    cases here'
    exact ⟨ra,found,.inr (.inl moved)⟩

theorem moved_fewer (entered : Entered u s' pfid.inode npfid.inode name newname inode) (differ : ¬(pfid.inode = npfid.inode ∧ name = newname))
    (counted : Counted s t npfid.inode npfid.inode) (object : (s.attrs.get inode).isSome = true) (here : (s.entries npfid.inode).get newname = some r)
    (found : s.attrs.get r.inode = some ra) (kind : ra.kind ≠ .dir) (many : 1 < ra.nlink)
    (apart : r.inode ≠ pfid.inode ∧ r.inode ≠ npfid.inode) (fewer : FewerAt t u npfid.inode newname ra r.inode) :
    Moved env s s' pfid.inode npfid.inode name newname inode new files newname := by
  apply entered.moves differ
  · rw [fewer.isSome,counted.isSome,object]
  · intro d n out out'
    rw [fewer.entries,if_neg out',counted.entries]
    exact .inl rfl
  · intro r' here'
    rw [here] at here'
    cases here'
    refine ⟨ra,found,.inr (.inr ⟨kind,many,?_⟩)⟩
    obtain ⟨a,there,nlink⟩ := fewer.fewer
    by_cases own : r.inode = inode
    · obtain ⟨a',there',same⟩ := entered.nlink (own ▸ apart.1) (own ▸ apart.2) a (own ▸ there)
      exact ⟨a',own ▸ there',same.trans nlink⟩
    · rw [entered.other r.inode apart.1 apart.2 own]
      exact ⟨a,there,nlink⟩

/-- A rename that succeeds has got to the new name. -/
theorem renaming_of_success (ordinary : newname ≠ dirTrash) (success : (rename env s pfid name npfid newname).2 = none) :
    ∃ target old new e a, Renaming env s pfid npfid name newname target old new e a := by
  simp only [rename,if_neg ordinary] at success
  cases source : s.lookup env .parent pfid.inode with
  | none =>
    rw [source] at success
    cases success
  | some old =>
  cases destination : s.lookup env .newParent npfid.inode with
  | none =>
    rw [source,destination] at success
    cases success
  | some new =>
  simp only [source,destination] at success
  by_cases oldDir : old.kind ≠ .dir
  · rw [if_pos oldDir] at success
    cases success
  rw [if_neg oldDir] at success
  by_cases pending : new.del = true ∨ npfid.del = true
  · rw [if_pos pending] at success
    cases success
  rw [if_neg pending] at success
  by_cases trash : name = dirTrash
  · rw [if_pos trash] at success
    cases success
  rw [if_neg trash] at success
  cases kept : targetName pfid old name newname with
  | none =>
    unfold targetName at kept
    rw [kept] at success
    cases success
  | some target =>
  have kept' := kept
  unfold targetName at kept'
  simp only [kept'] at success
  by_cases readable : env.fails .find = true
  · rw [if_pos readable] at success
    cases success
  rw [if_neg readable] at success
  cases entry : (s.entries pfid.inode).get name with
  | none =>
    rw [entry] at success
    cases success
  | some e =>
  cases object : s.lookup env .child e.inode with
  | none =>
    simp only [entry,object] at success
    cases success
  | some a =>
  simp only [entry,object] at success
  by_cases newDir : new.kind ≠ .dir
  · rw [if_pos newDir] at success
    cases success
  rw [if_neg newDir] at success
  by_cases readable' : env.fails .findNew = true
  · rw [if_pos readable'] at success
    cases success
  rw [not_or,Bool.not_eq_true,Bool.not_eq_true] at pending
  have isActive : active npfid new = true := by simp only [active,pending,Bool.not_false,Bool.and_self]
  exact ⟨target,old,new,e,a,⟨ordinary,trash⟩,⟨source,not_not.mp oldDir⟩,⟨destination,not_not.mp newDir⟩,isActive,kept,
    ⟨eq_false_of_ne_true readable,eq_false_of_ne_true readable'⟩,entry,object⟩

/-- What has been changed when the new entry is written, and the number of files. -/
theorem renameOnto_success {a : Attr} {target : Name} {sourceIsTrash : Bool}
    (success : (renameOnto env s pfid npfid name target inode old new a sourceIsTrash).2 = none) :
    ∃ u, Entered u (renameOnto env s pfid npfid name target inode old new a sourceIsTrash).1 pfid.inode npfid.inode name target inode ∧
      (((s.entries npfid.inode).get target = none ∧ u = s) ∨
      ∃ r ra, (s.entries npfid.inode).get target = some r ∧ s.attrs.get r.inode = some ra ∧
        ((ra.kind = .dir ∧ u.entries = s.entries ∧ ∀ j, (u.attrs.get j).isSome = (s.attrs.get j).isSome) ∨
          (ra.kind = .special ∧ u = s) ∨
          ((ra.kind = .reg ∨ ra.kind = .lnk) ∧ u = (unlink env s npfid target).1 ∧
            renameFiles env s npfid target a sourceIsTrash = unlinkFiles env s npfid target))) := by
  simp only [renameOnto,renameFiles] at success ⊢
  cases here : (s.entries npfid.inode).get target with
  | none =>
    rw [here] at success
    exact ⟨s,entered success,.inl ⟨rfl,rfl⟩⟩
  | some r =>
  simp only [here] at success
  cases sourceIsTrash with
  | true => cases success
  | false =>
  simp only [Bool.false_eq_true,if_false] at success ⊢
  cases done : (replace env s npfid target a r).2 with
  | some error =>
    rw [done] at success
    cases success
  | none =>
  simp only [done] at success
  refine ⟨(replace env s npfid target a r).1,entered success,.inr ⟨r,?_⟩⟩
  simp only [replace] at done ⊢
  cases found : s.lookup env .replaced r.inode with
  | none =>
    rw [found] at done
    cases done
  | some ra =>
  simp only [found] at done ⊢
  refine ⟨ra,trivial,get_of_lookup found,?_⟩
  cases kind : ra.kind with
  | dir =>
    left
    simp only [kind,if_true] at done
    by_cases file : a.kind ≠ .dir
    · rw [if_pos file] at done
      cases done
    rw [if_neg file] at done
    by_cases full : ra.children ≠ 0
    · rw [if_pos full] at done
      cases done
    obtain ⟨⟨folders,result⟩,-⟩ := replaceDirectory_spec env s npfid.inode r.inode
    simp only [if_true,if_neg file,if_neg full,result]
    exact ⟨trivial,modify_entries ..,fun j => isSome_modify ..⟩
  | special =>
    right
    left
    simp
  | reg =>
    right
    right
    simp
  | lnk =>
    right
    right
    simp

/-- A name that is renamed to itself is lost. -/
theorem Entered.lost (entered : Entered u s' pfid.inode npfid.inode name newname inode)
    (moved : Moved env s s' pfid.inode npfid.inode name newname inode new files fname) : ¬(pfid.inode = npfid.inode ∧ name = newname) := by
  rintro ⟨same,same'⟩
  obtain ⟨dir,entries⟩ := entered.entries
  obtain ⟨e,there,_⟩ := moved.placed
  rw [entries,if_pos ⟨same.symm,same'.symm⟩] at there
  cases there

/-- A directory that is replaced is not released. -/
theorem not_moved_directory (entered : Entered u s' pfid.inode npfid.inode name newname inode) (here : (s.entries npfid.inode).get newname = some r)
    (found : s.attrs.get r.inode = some ra) (kind : ra.kind = .dir) (entries : u.entries = s.entries)
    (isSome : ∀ j, (u.attrs.get j).isSome = (s.attrs.get j).isSome) :
    ¬Moved env s s' pfid.inode npfid.inode name newname inode new files fname := by
  intro moved
  obtain ⟨ra',found',fate⟩ := moved.replaced r here
  rw [found] at found'
  cases found'
  rcases fate with released | trashed | unlinked
  · have there : (u.attrs.get r.inode).isSome = true := by
      rw [isSome,found]
      rfl
    obtain ⟨a,kept⟩ := entered.exists_attr there
    rw [released.1] at kept
    cases kept
  · obtain ⟨free,put,_⟩ := trashed
    obtain ⟨dir,get⟩ := entered.entries
    rw [get] at put
    split at put
    · cases put
    · rw [if_neg fun same => deletedName_ne _ _ same.2,entries,free] at put
      cases put
  · exact unlinked.1 kind

/-- When another entry is lost with its inode, more than one name has moved. -/
theorem not_moved_spoiled (entered : Entered u s' pfid.inode npfid.inode name newname e.inode) (source : (s.entries pfid.inode).get name = some e)
    {m : Name} {e' : Entry} (other : m ≠ newname) (before : (s.entries npfid.inode).get m = some e') (after : (u.entries npfid.inode).get m ≠ some e')
    (gone : u.attrs.get e'.inode = none) : ¬Moved env s s' pfid.inode npfid.inode name newname e.inode new files fname := by
  intro moved
  obtain ⟨dir,get⟩ := entered.entries
  by_cases own : npfid.inode = pfid.inode ∧ m = name
  · -- the name that is lost is the old one
    have same : e' = e := by
      rw [own.1,own.2,source] at before
      exact (Option.some.inj before).symm
    subst same
    obtain ⟨a,there,_⟩ := moved.object
    rw [none_of_isSome (entered.isSome _) gone] at there
    cases there
  · have out : ¬(npfid.inode = npfid.inode ∧ m = newname) := fun same => other same.2
    obtain same | ⟨_,rfl,r,_,trashed⟩ := moved.others npfid.inode m own out
    · rw [get,if_neg own,if_neg out,before] at same
      exact after same
    · rw [trashed.1] at before
      cases before

/-- A file that is replaced: one name moves exactly when it can be replaced. -/
theorem moved_file_iff (entered : Entered u s' pfid.inode npfid.inode name newname e.inode) (parent : s.attrs.get npfid.inode = some new)
    (newDir : new.kind = .dir) (oldDir : ∀ a, s.attrs.get pfid.inode = some a → a.kind = .dir) (isActive : active npfid new = true)
    (source : (s.entries pfid.inode).get name = some e) (object : (s.attrs.get e.inode).isSome = true)
    (here : (s.entries npfid.inode).get newname = some r) (found : s.attrs.get r.inode = some ra) (kind : ra.kind = .reg ∨ ra.kind = .lnk)
    (removed : u = (unlink env s npfid newname).1) (counted : files = unlinkFiles env s npfid newname)
    (differ : ¬(pfid.inode = npfid.inode ∧ name = newname)) :
    Moved env s s' pfid.inode npfid.inode name newname e.inode new files newname ↔ Replaceable env s npfid newname new e.inode r ra := by
  have notDir : ra.kind ≠ .dir := by
    rcases kind with reg | lnk
    · rw [reg]
      decide
    · rw [lnk]
      decide
  have apart : r.inode ≠ pfid.inode ∧ r.inode ≠ npfid.inode := by
    constructor
    · intro same
      exact notDir (oldDir ra (same ▸ found))
    · intro same
      rw [same,parent] at found
      cases found
      exact notDir newDir
  have unmoved : StaysAt s u npfid.inode newname ra r.inode → ¬Moved env s s' pfid.inode npfid.inode name newname e.inode new files newname := by
    intro stays moved
    obtain ⟨ra',found',fate⟩ := moved.replaced r here
    rw [found] at found'
    cases found'
    exact entered.stuck apart stays fate
  have unchanged : u = s → ¬Moved env s s' pfid.inode npfid.inode name newname e.inode new files newname := by
    intro same
    subst same
    exact unmoved ⟨fun _ _ => rfl,fun _ => rfl,ra,found,rfl⟩
  by_cases dir : r.dir = true
  · have stuck := unchanged (removed.trans (unlink_dir parent here dir))
    exact iff_of_false stuck fun ready => Bool.false_ne_true (ready.file.symm.trans dir)
  have file : r.dir = false := Bool.eq_false_iff.mpr dir
  by_cases alone : isMultiple newname = true → NumberedFree s npfid.inode newname
  · obtain ⟨t,base,result,number⟩ := unlink_alone env parent here file alone
    have here' : (t.entries npfid.inode).get newname = some r := by rw [base.entries]; exact here
    have found' : t.attrs.get r.inode = some ra := (base.other r.inode apart.2 apart.2).trans found
    by_cases refused : NameRefused env npfid new r
    · have stays : StaysAt s u npfid.inode newname ra r.inode := by
        rw [removed,result,unlinkName_of_refused here' refused]
        exact ⟨fun _ _ => by rw [base.entries],base.isSome,ra,found',rfl⟩
      exact iff_of_false (unmoved stays) fun ready => refused.elim (fun there => Bool.false_ne_true (file.symm.trans there)) ready.accepted
    have accepted : ¬(r.del = true ∧ toTrash env npfid new = true) := fun both => refused (.inr both)
    rw [result] at removed
    subst removed
    have unlinked := unlinkName_fate isActive here' found' apart.2 refused
    simp only at unlinked
    rcases unlinked with ⟨one,released,less⟩ | ⟨few,trashed,linked⟩ | ⟨many,fewer⟩ | ⟨zero,never,stays⟩
    · by_cases own : r.inode = e.inode
      · -- the object that is renamed is released
        have lost : ¬Moved env s s' pfid.inode npfid.inode name newname e.inode new files newname := by
          intro moved
          obtain ⟨a,there,_⟩ := moved.object
          rw [none_of_isSome (entered.isSome _) (own ▸ released.gone)] at there
          cases there
        exact iff_of_false lost fun ready => by have many := ready.other own; omega
      · have moved : Moved env s s' pfid.inode npfid.inode name newname e.inode new (-1) newname :=
          moved_released entered differ base object here found own released
        rw [counted,number,less]
        exact iff_of_true moved ⟨kind,file,accepted,alone,fun same => absurd same own,fun zero => by omega⟩
    · by_cases own : r.inode = e.inode
      · have lost : ¬Moved env s s' pfid.inode npfid.inode name newname e.inode new files newname := by
          intro moved
          obtain ⟨ra',same,fate⟩ := moved.replaced r here
          rw [found] at same
          cases same
          rcases fate with gone | inTrash | ⟨_,many,_⟩
          · obtain ⟨a,there,_⟩ := moved.object
            rw [← own,gone.1] at there
            cases there
          · obtain ⟨a,there,marked⟩ := inTrash.2.2
            exact Bool.false_ne_true ((entered.object a (own ▸ there)).2.symm.trans marked)
          · omega
        exact iff_of_false lost fun ready => by have many := ready.other own; omega
      · have moved : Moved env s s' pfid.inode npfid.inode name newname e.inode new files newname :=
          moved_trashed entered differ base object source here found apart own trashed
        refine iff_of_true moved ⟨kind,file,accepted,alone,fun same => absurd same own,fun zero => ⟨linked zero,?_⟩⟩
        rw [← base.entries]
        exact trashed.free
    · have moved : Moved env s s' pfid.inode npfid.inode name newname e.inode new files newname :=
        moved_fewer entered differ base object here found notDir many apart fewer
      exact iff_of_true moved ⟨kind,file,accepted,alone,fun _ => many,fun zero => by omega⟩
    · have stays' : StaysAt s (unlinkName env t npfid new newname).1 npfid.inode newname ra r.inode :=
        ⟨fun n other => by rw [stays.entries n other,base.entries],fun j => (stays.isSome j).trans (base.isSome j),stays.same⟩
      rw [base.entries] at never
      exact iff_of_false (unmoved stays') fun ready => never (ready.linked zero)
  · refine iff_of_false ?_ fun ready => alone ready.alone
    rw [Classical.not_imp] at alone
    obtain ⟨multiple,taken⟩ := alone
    cases parsed : parseObjectName (objectName newname) with
    | error error =>
      exact unchanged (removed.trans (unlink_unread parent multiple fun result same => by rw [parsed] at same; cases same))
    | ok result =>
      obtain ⟨count,base⟩ := result
      have numbered : ∃ k, 1 ≤ k ∧ k ≤ count.toNat ∧ (s.entries npfid.inode).get (numbered base k) ≠ none := by
        by_contra free
        exact taken ⟨count,base,parsed,fun k low high => by_contra fun there => free ⟨k,low,high,there⟩⟩
      obtain ⟨k,low,high,there⟩ := numbered
      obtain ⟨e',before⟩ := Option.ne_none_iff_exists'.mp there
      obtain ⟨after,gone⟩ := unlink_spoils env parent newDir isActive here found notDir file multiple parsed low high before
      rw [← removed] at after gone
      exact not_moved_spoiled entered source (numbered_ne multiple parsed high) before after gone

end Rename

section Theorems

/-- A directory with one file. -/
def oneFile : State where
  attrs := (Table.empty.insert 1 ⟨.dir,0,0,false,2,4096,1,0,0,0,.off,false,1,none⟩).insert 2 ⟨.reg,7,7,false,1,10,0,0,0,0,.off,false,1,none⟩
  entries := fun d => if d = 1 then Table.empty.insert ['a'] ⟨2,false,false⟩ else Table.empty
  recycled := fun _ => []
  links := fun _ => false
  folders := fun d => decide (d = 1)
  updates := []

/-- A directory with two empty directories. -/
def twoDirectories : State where
  attrs := ((Table.empty.insert 1 ⟨.dir,0,0,false,4,4096,2,0,0,0,.off,false,1,none⟩).insert 2 ⟨.dir,7,7,false,2,4096,0,0,0,0,.off,false,1,none⟩).insert 3
    ⟨.dir,8,8,false,2,4096,0,0,0,0,.off,false,1,none⟩
  entries := fun d => if d = 1 then (Table.empty.insert ['a'] ⟨2,false,true⟩).insert ['b'] ⟨3,false,true⟩ else Table.empty
  recycled := fun _ => []
  links := fun _ => false
  folders := fun d => decide (d = 1 ∨ d = 2 ∨ d = 3)
  updates := []

end Theorems

end Rozofs.Namespace
