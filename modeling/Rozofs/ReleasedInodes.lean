import Rozofs.CreationAtomic

/-! Which inodes `export_unlink` releases, so that their attributes can no longer be written. -/
namespace Rozofs.Namespace
open KeyTable
open Function (update)

section Held
variable {env : Env} {s s' t : State}

theorem isSome_modify (s : State) (i j : Nat) (f : Attr → Attr) : ((s.modify i f).attrs.get j).isSome = (s.attrs.get j).isSome := by
  rw [get_modify]
  split
  · rename_i same
    rw [same,Option.isSome_map]
  · rfl

theorem none_of_isSome {x y : Option Attr} (same : x.isSome = y.isSome) (absent : y = none) : x = none := by
  rw [absent] at same
  exact Option.not_isSome_iff_eq_none.mp (by rw [same]; exact Bool.false_ne_true)

/-- The inode waits to be recycled. -/
def Waits (s : State) (i : Nat) : Prop := ∃ r ∈ s.recycled (slice i), r.1 = i

theorem held_iff (s : State) (i : Nat) : (s.held i).isSome = true ↔ (s.attrs.get i).isSome = true ∨ Waits s i := by
  cases here : s.attrs.get i with
  | some a => simp only [State.held,here,Option.isSome_some,true_or]
  | none => simp only [State.held,here,Option.isSome_none,Bool.false_eq_true,false_or,Option.isSome_map,List.find?_isSome,decide_eq_true_eq,Waits]

theorem held_of_get {i : Nat} {a : Attr} (here : s.attrs.get i = some a) : s.held i = some a := by
  simp only [State.held,here]

theorem held_none_iff (s : State) (i : Nat) : s.held i = none ↔ s.attrs.get i = none ∧ ¬Waits s i := by
  rw [← Option.not_isSome_iff_eq_none,held_iff,not_or,Option.not_isSome_iff_eq_none]

@[simp] theorem modifyHeld_attrs (s : State) (i : Nat) (f : Attr → Attr) : (s.modifyHeld i f).attrs = (s.modify i f).attrs := by
  unfold State.modifyHeld
  split
  · rfl
  · rename_i absent
    simp only [State.modify,Option.not_isSome_iff_eq_none.mp absent]
    rfl

@[simp] theorem modifyHeld_entries (s : State) (i : Nat) (f : Attr → Attr) : (s.modifyHeld i f).entries = s.entries := by
  unfold State.modifyHeld
  split
  · exact modify_entries ..
  · rfl

@[simp] theorem modifyHeld_updates (s : State) (i : Nat) (f : Attr → Attr) : (s.modifyHeld i f).updates = s.updates := by
  unfold State.modifyHeld
  split
  · exact modify_updates ..
  · rfl

theorem waits_modifyHeld (s : State) (i : Nat) (f : Attr → Attr) (j : Nat) : Waits (s.modifyHeld i f) j ↔ Waits s j := by
  unfold State.modifyHeld Waits
  split
  · rw [modify_recycled]
  · by_cases same : slice j = slice i
    · simp only [State.setRecycled,same,Function.update_self]
      constructor
      · rintro ⟨r,member,own⟩
        obtain ⟨q,there,rfl⟩ := List.mem_map.mp member
        refine ⟨q,there,?_⟩
        rw [← own]
        split
        · rfl
        · rfl
      · rintro ⟨q,there,own⟩
        refine ⟨_,List.mem_map.mpr ⟨q,there,rfl⟩,?_⟩
        rw [← own]
        split
        · rfl
        · rfl
    · simp only [State.setRecycled,Function.update_of_ne same]

theorem held_modifyHeld (s : State) (i : Nat) (f : Attr → Attr) (j : Nat) : (s.modifyHeld i f).held j = none ↔ s.held j = none := by
  rw [held_none_iff,held_none_iff,waits_modifyHeld,modifyHeld_attrs,← Option.not_isSome_iff_eq_none,isSome_modify,
    Option.not_isSome_iff_eq_none]

theorem writeAttributes_fails (s : State) (fault : Fault) (i : Nat) :
    writeAttributes env s fault i ≠ none ↔ env.fails fault = true ∨ s.held i = none := by
  unfold writeAttributes
  split
  · rename_i fails
    simp only [fails,true_or,ne_eq,reduceCtorEq,not_false_eq_true]
  · rename_i works
    split
    · rename_i absent
      simp only [Option.isNone_iff_eq_none.mp absent,or_true,ne_eq,reduceCtorEq,not_false_eq_true]
    · rename_i present
      simp only [works,Bool.false_eq_true,false_or,ne_eq,not_true_eq_false,false_iff]
      exact fun absent => present (Option.isNone_iff_eq_none.mpr absent)

/-- The same inodes are there, and the same ones wait to be recycled. -/
structure Alike (s s' : State) : Prop where
  attrs : ∀ j, (s'.attrs.get j).isSome = (s.attrs.get j).isSome
  recycled : s'.recycled = s.recycled

theorem Alike.refl (s : State) : Alike s s := ⟨fun _ => rfl,rfl⟩

theorem Alike.trans (first : Alike s s') (second : Alike s' t) : Alike s t :=
  ⟨fun j => (second.attrs j).trans (first.attrs j),second.recycled.trans first.recycled⟩

theorem Alike.modify (alike : Alike s s') (i : Nat) (f : Attr → Attr) : Alike s (s'.modify i f) :=
  ⟨fun j => (isSome_modify ..).trans (alike.attrs j),(modify_recycled ..).trans alike.recycled⟩

theorem Alike.issue (alike : Alike s s') (u : Update) : Alike s (s'.issue u) := ⟨alike.attrs,alike.recycled⟩

theorem Alike.modifyIf (alike : Alike s s') (c : Prop) [Decidable c] (i : Nat) (f : Attr → Attr) :
    Alike s (if c then s'.modify i f else s') := by
  split
  · exact alike.modify i f
  · exact alike

theorem Alike.modifyUnless (alike : Alike s s') (c : Prop) [Decidable c] (i : Nat) (f : Attr → Attr) :
    Alike s (if c then s' else s'.modify i f) := by
  split
  · exact alike
  · exact alike.modify i f

theorem Alike.waits (alike : Alike s s') (i : Nat) : Waits s' i ↔ Waits s i := by
  rw [Waits,Waits,alike.recycled]

theorem Alike.held (alike : Alike s s') (i : Nat) : s'.held i = none ↔ s.held i = none := by
  rw [held_none_iff,held_none_iff,alike.waits,← Option.not_isSome_iff_eq_none,alike.attrs,Option.not_isSome_iff_eq_none]

theorem alike_moveCounters (s : State) (pfid npfid : Nat) (old new a : Attr) : Alike s (moveCounters s pfid npfid old new a) := by
  simp only [moveCounters]
  split
  · have counted := (Alike.refl s).modify npfid (fun p => if decide (a.kind = .dir) = true then p.incChildren.incNlink else p.incChildren)
    split
    · exact ((((counted.modify pfid _).issue _).issue _).issue _).issue _
    · exact counted.modify pfid _
  · split
    · exact (Alike.refl s).modify npfid _
    · exact Alike.refl s

end Held

section Unlink
variable {env : Env} {s s' t : State} {npfid : Fid} {newname : Name} {new ra : Attr} {r : Entry}

/-- The parts of the state that a release changes. -/
theorem release_spec (env : Env) (s : State) (inode : Nat) (a p : Attr) : ∃ links, s.release env inode a p =
    { s.delete inode with
      links := links
      recycled := if a.kind = .reg ∧ env.recycle = true then
        update s.recycled (slice inode) (s.recycled (slice inode) ++ [(inode,{ a with del := false })]) else s.recycled
      updates := ⟨true,a.uid,a.gid,p.cid,if a.kind = .reg then -(a.size : Int) else 0⟩ :: ⟨false,a.uid,a.gid,p.cid,-1⟩ :: s.updates } := by
  simp only [State.release,State.inodeUpdate,State.blockUpdate,State.issue,State.setRecycled,State.setLink,State.delete]
  cases a.link with
  | none =>
    refine ⟨s.links,?_⟩
    split
    · rfl
    · rfl
  | some block =>
    refine ⟨update s.links block false,?_⟩
    split
    · rfl
    · rfl

theorem release_attrs (s : State) (inode : Nat) (a p : Attr) : (s.release env inode a p).attrs = (s.delete inode).attrs := by
  obtain ⟨links,eq⟩ := release_spec env s inode a p
  rw [eq]

theorem release_recycled (s : State) (inode : Nat) (a p : Attr) : (s.release env inode a p).recycled =
    if a.kind = .reg ∧ env.recycle = true then update s.recycled (slice inode) (s.recycled (slice inode) ++ [(inode,{ a with del := false })])
    else s.recycled := by
  obtain ⟨links,eq⟩ := release_spec env s inode a p
  rw [eq]

@[simp] theorem release_entries (s : State) (inode : Nat) (a p : Attr) : (s.release env inode a p).entries = s.entries := by
  obtain ⟨links,eq⟩ := release_spec env s inode a p
  rw [eq]
  rfl

theorem release_updates (s : State) (inode : Nat) (a p : Attr) : (s.release env inode a p).updates =
    ⟨true,a.uid,a.gid,p.cid,if a.kind = .reg then -(a.size : Int) else 0⟩ :: ⟨false,a.uid,a.gid,p.cid,-1⟩ :: s.updates := by
  obtain ⟨links,eq⟩ := release_spec env s inode a p
  rw [eq]

theorem Alike.release (alike : Alike s s') (inode : Nat) (a p : Attr) : Alike (s.release env inode a p) (s'.release env inode a p) := by
  constructor
  · intro j
    rw [release_attrs,release_attrs,get_delete,get_delete]
    split
    · rfl
    · exact alike.attrs j
  · rw [release_recycled,release_recycled,alike.recycled]

/-- A released inode is lost, unless it is to be recycled. -/
theorem held_release {inode : Nat} (there : (s.attrs.get inode).isSome = true) (a p : Attr) (j : Nat) :
    (s.release env inode a p).held j = none ↔ s.held j = none ∨ (inode = j ∧ ¬Waits s j ∧ ¬(a.kind = .reg ∧ env.recycle = true)) := by
  have attrs : (s.release env inode a p).attrs.get j = if j = inode then none else s.attrs.get j := by
    rw [release_attrs,get_delete]
  have waits : Waits (s.release env inode a p) j ↔ Waits s j ∨ (inode = j ∧ a.kind = .reg ∧ env.recycle = true) := by
    unfold Waits
    rw [release_recycled]
    by_cases recycles : a.kind = .reg ∧ env.recycle = true
    · rw [if_pos recycles]
      by_cases same : slice j = slice inode
      · rw [same,Function.update_self]
        simp only [List.mem_append,List.mem_singleton,or_and_right,exists_or,exists_eq_left,recycles,and_true]
      · have other : inode ≠ j := fun own => same (own ▸ rfl)
        rw [Function.update_of_ne same]
        simp only [other,false_and,or_false]
    · rw [if_neg recycles]
      simp only [recycles,and_false,or_false]
  rw [held_none_iff,held_none_iff,attrs,waits]
  by_cases own : j = inode
  · subst own
    have present : s.attrs.get j ≠ none := Option.isSome_iff_ne_none.mp there
    simp only [if_true,true_and,not_or,present,false_and,false_or]
  · have other : ¬inode = j := fun same => own same.symm
    simp only [if_neg own,other,false_and,or_false]

theorem alike_removeFile (env : Env) (s : State) (parent : Fid) (p : Attr) (e : Entry) (a : Attr) :
    Alike (if a.nlink = 1 then s.release env e.inode a p else s) (removeFile env s parent p e a) := by
  have base : Alike (if a.nlink = 1 then s.release env e.inode a p else s)
      (if a.nlink = 1 then s.release env e.inode a p else if a.nlink > 1 then s.modify e.inode Attr.decNlink else s) := by
    split
    · exact Alike.refl _
    · exact (Alike.refl s).modifyIf _ _ _
  exact (base.modifyIf _ _ _).modifyUnless _ _ _

theorem alike_trashFile (env : Env) (s : State) (parent : Nat) (p : Attr) (name : Name) (e : Entry) (a : Attr) :
    Alike (if ((s.entries parent).get (deletedName env.hour none name)).isSome = true ∧ a.nlink = 1 then s.release env e.inode a p else s)
      (trashFile env s parent p name e a) := by
  have marked : Alike s ((s.modify parent fun p => p.decChildren.incDeleted).modify e.inode fun a => { a with del := true }) :=
    ((Alike.refl s).modify _ _).modify _ _
  simp only [trashFile,modify_entries]
  by_cases taken : ((s.entries parent).get (deletedName env.hour none name)).isSome = true
  · simp only [taken,true_and,if_true]
    split
    · exact (marked.modify parent Attr.decDeleted).release e.inode a p
    · exact marked.modify parent Attr.decDeleted
  · simp only [taken,Bool.false_eq_true,false_and,if_false]
    exact ⟨marked.attrs,marked.recycled⟩

/-- The removal of a name takes the last link of its file, which is neither kept in the trash nor to be recycled. -/
def LastLink (env : Env) (s : State) (npfid : Fid) (new : Attr) (newname : Name) (r : Entry) (ra : Attr) : Prop :=
  ¬(r.del = true ∧ toTrash env npfid new = true) ∧ ra.nlink = 1 ∧
    (keepsData ra (toTrash env npfid new) = false ∨ ((s.entries npfid.inode).get (deletedName env.hour none newname)).isSome = true) ∧
    ¬(ra.kind = .reg ∧ env.recycle = true)

theorem deletedName_ne (hour : Name) (name : Name) : deletedName hour none name ≠ name := by
  intro same
  have lengths := congrArg List.length same
  simp only [deletedName,List.length_append,List.length_cons,List.length_nil] at lengths
  omega

/-- What the removal of a name does to the inodes: that of the last link is released. -/
theorem alike_unlinkName (isActive : active npfid new = true) (here : (t.entries npfid.inode).get newname = some r) (file : r.dir = false)
    (accepted : ¬(r.del = true ∧ toTrash env npfid new = true)) (object : t.attrs.get r.inode = some ra) :
    Alike (if ra.nlink = 1 ∧ (keepsData ra (toTrash env npfid new) = false ∨
        ((t.entries npfid.inode).get (deletedName env.hour none newname)).isSome = true) then t.release env r.inode ra new else t)
      (unlinkName env t npfid new newname).1 := by
  have together : ¬(npfid.del ≠ new.del ∧ r.del = false) := by
    simp only [active,Bool.and_eq_true,Bool.not_eq_true'] at isActive
    rw [isActive.1,isActive.2]
    exact fun both => both.1 rfl
  have taken : ((t.delEntry npfid.inode newname).entries npfid.inode).get (deletedName env.hour none newname) =
      (t.entries npfid.inode).get (deletedName env.hour none newname) := by
    rw [get_delEntry,if_neg fun same => deletedName_ne _ _ same.2]
  have removed : Alike t (t.delEntry npfid.inode newname) := ⟨fun _ => rfl,rfl⟩
  simp only [unlinkName,here,file,Bool.false_eq_true,if_false,if_neg accepted,if_neg together,object]
  by_cases one : ra.nlink = 1
  · simp only [one,true_and,if_true]
    cases keeps : keepsData ra (toTrash env npfid new) with
    | false =>
      have gone := alike_removeFile env (t.delEntry npfid.inode newname) npfid new r ra
      rw [if_pos one] at gone
      simp only [true_or,if_true,Bool.false_eq_true,if_false]
      exact (removed.release r.inode ra new).trans gone
    | true =>
      have gone := alike_trashFile env (t.delEntry npfid.inode newname) npfid.inode new newname r ra
      rw [taken] at gone
      simp only [one,and_true] at gone
      simp only [Bool.true_eq_false,false_or,if_true]
      by_cases full : ((t.entries npfid.inode).get (deletedName env.hour none newname)).isSome = true
      · rw [if_pos full] at gone ⊢
        exact (removed.release r.inode ra new).trans gone
      · rw [if_neg full] at gone ⊢
        exact removed.trans gone
  · simp only [one,false_and,if_false]
    generalize (decide (ra.nlink = 0) && toTrash env npfid new) = trash
    cases trash with
    | false =>
      have kept := alike_removeFile env (t.delEntry npfid.inode newname) npfid new r ra
      rw [if_neg one] at kept
      exact removed.trans kept
    | true =>
      have kept := alike_trashFile env (t.delEntry npfid.inode newname) npfid.inode new newname r ra
      rw [if_neg fun both => one both.2] at kept
      exact removed.trans kept

/-- The inodes that the removal of one name releases. -/
theorem held_unlinkName (isActive : active npfid new = true) (here : (t.entries npfid.inode).get newname = some r) (file : r.dir = false)
    (j : Nat) : (unlinkName env t npfid new newname).1.held j = none ↔
      t.held j = none ∨ (r.inode = j ∧ ¬Waits t j ∧ ∃ ra, t.attrs.get r.inode = some ra ∧ LastLink env t npfid new newname r ra) := by
  by_cases refused : r.del = true ∧ toTrash env npfid new = true
  · have unchanged : (unlinkName env t npfid new newname).1 = t := by
      simp only [unlinkName,here,file,Bool.false_eq_true,if_false,if_pos refused]
    rw [unchanged]
    simp only [LastLink,refused,and_self,not_true_eq_false,false_and,and_false,exists_false,or_false]
  cases object : t.attrs.get r.inode with
  | none =>
    have together : ¬(npfid.del ≠ new.del ∧ r.del = false) := by
      simp only [active,Bool.and_eq_true,Bool.not_eq_true'] at isActive
      rw [isActive.1,isActive.2]
      exact fun both => both.1 rfl
    have removed : Alike t (t.delEntry npfid.inode newname) := ⟨fun _ => rfl,rfl⟩
    simp only [unlinkName,here,file,Bool.false_eq_true,if_false,if_neg refused,if_neg together,object,reduceCtorEq,false_and,exists_false,
      and_false,or_false]
    exact removed.held j
  | some ra =>
    rw [(alike_unlinkName isActive here file refused object).held j]
    simp only [Option.some.injEq,exists_eq_left',LastLink,refused,not_false_eq_true,true_and]
    split
    · rename_i last
      rw [held_release (by rw [object]; rfl)]
      simp only [last.1,last.2,true_and]
    · rename_i kept
      have never : ¬(ra.nlink = 1 ∧ (keepsData ra (toTrash env npfid new) = false ∨
          ((t.entries npfid.inode).get (deletedName env.hour none newname)).isSome = true) ∧ ¬(ra.kind = .reg ∧ env.recycle = true)) :=
        fun last => kept ⟨last.1,last.2.1⟩
      simp only [never,and_false,or_false]

/-- One of the numbered names leads to the inode. -/
def Numbers (s : State) (parent : Nat) (base : Name) (n i : Nat) : Prop :=
  ∃ k e, 1 ≤ k ∧ k ≤ n ∧ (s.entries parent).get (numbered base k) = some e ∧ e.inode = i

/-- The numbered files that were removed: no entry and no inode is left of them. -/
structure Numbered (s t : State) (parent : Nat) (base : Name) (n : Nat) : Prop where
  entries : ∀ m, (t.entries parent).get m = (s.entries parent).get m ∨
    ((t.entries parent).get m = none ∧ ∃ e, (s.entries parent).get m = some e ∧ t.attrs.get e.inode = none)
  other : ∀ m, (∀ k, 1 ≤ k → k ≤ n → m ≠ numbered base k) → (t.entries parent).get m = (s.entries parent).get m
  gone : ∀ k, 1 ≤ k → k ≤ n → (t.entries parent).get (numbered base k) = none
  attrs : ∀ j, t.attrs.get j = s.attrs.get j ∨ (t.attrs.get j = none ∧ Numbers s parent base n j)
  recycled : t.recycled = s.recycled

theorem Numbers.mono {s : State} {parent n n' i : Nat} {base : Name} (numbers : Numbers s parent base n i) (more : n ≤ n') :
    Numbers s parent base n' i := by
  obtain ⟨k,e,low,high,here,own⟩ := numbers
  exact ⟨k,e,low,high.trans more,here,own⟩

theorem removeNumbered_numbered (s : State) (parent : Nat) (base : Name) (n : Nat) :
    Numbered s (removeNumbered s parent base n).state parent base n := by
  induction n with
  | zero => exact ⟨fun _ => .inl rfl,fun _ _ => rfl,fun k low high => by omega,fun _ => .inl rfl,rfl⟩
  | succ n ih =>
    cases here : ((removeNumbered s parent base n).state.entries parent).get (numbered base (n + 1)) with
    | none =>
      simp only [removeNumbered,here]
      constructor
      case entries => exact ih.entries
      case other => exact fun m apart => ih.other m fun k low high => apart k low (Nat.le_succ_of_le high)
      case gone =>
        intro k low high
        obtain before | rfl := Nat.le_succ_iff.mp high
        · exact ih.gone k low before
        · exact here
      case attrs => exact fun j => (ih.attrs j).imp_right fun gone => ⟨gone.1,gone.2.mono (Nat.le_succ n)⟩
      case recycled => exact ih.recycled
    | some e =>
      -- both branches remove the entry, and leave no inode
      have removed : ∀ t : State, t.entries = ((removeNumbered s parent base n).state.delEntry parent (numbered base (n + 1))).entries →
          (∀ j, j ≠ e.inode → t.attrs.get j = (removeNumbered s parent base n).state.attrs.get j) → t.attrs.get e.inode = none →
          t.recycled = (removeNumbered s parent base n).state.recycled → Numbered s t parent base (n + 1) := by
        intro t entries attrs gone recycled
        have first : (s.entries parent).get (numbered base (n + 1)) = some e := by
          obtain same | ⟨missing,_⟩ := ih.entries (numbered base (n + 1))
          · rw [← same,here]
          · rw [here] at missing
            cases missing
        have get : ∀ m, (t.entries parent).get m =
            if m = numbered base (n + 1) then none else ((removeNumbered s parent base n).state.entries parent).get m := by
          intro m
          rw [entries,get_delEntry]
          simp only [true_and]
        constructor
        case entries =>
          intro m
          rw [get]
          split
          · rename_i own
            right
            exact ⟨rfl,e,by rw [own,first],gone⟩
          · obtain same | ⟨missing,e',before,lost⟩ := ih.entries m
            · exact .inl same
            · refine .inr ⟨missing,e',before,?_⟩
              by_cases own : e'.inode = e.inode
              · rw [own,gone]
              · rw [attrs _ own,lost]
        case other =>
          intro m apart
          rw [get,if_neg (apart (n + 1) (Nat.succ_pos n) (Nat.le_refl _))]
          exact ih.other m fun k low high => apart k low (Nat.le_succ_of_le high)
        case gone =>
          intro k low high
          rw [get]
          split
          · rfl
          · rename_i differ
            obtain before | rfl := Nat.le_succ_iff.mp high
            · exact ih.gone k low before
            · exact absurd rfl differ
        case attrs =>
          intro j
          by_cases own : j = e.inode
          · subst own
            exact .inr ⟨gone,n + 1,e,Nat.succ_pos n,Nat.le_refl _,first,rfl⟩
          · rw [attrs j own]
            exact (ih.attrs j).imp_right fun gone => ⟨gone.1,gone.2.mono (Nat.le_succ n)⟩
        case recycled => exact recycled.trans ih.recycled
      simp only [removeNumbered,here,delEntry_attrs]
      cases object : (removeNumbered s parent base n).state.attrs.get e.inode with
      | none => exact removed _ rfl (fun _ _ => rfl) object rfl
      | some a =>
        have deleted : ∀ j, j ≠ e.inode → (((removeNumbered s parent base n).state.delEntry parent (numbered base (n + 1))).delete e.inode).attrs.get j =
            (removeNumbered s parent base n).state.attrs.get j := by
          intro j other
          rw [get_delete,if_neg other,delEntry_attrs]
        have own : (((removeNumbered s parent base n).state.delEntry parent (numbered base (n + 1))).delete e.inode).attrs.get e.inode = none := by
          rw [get_delete,if_pos rfl]
        cases link : a.link with
        | none =>
          simp only [link]
          exact removed _ rfl deleted own rfl
        | some block =>
          simp only [link]
          exact removed _ rfl deleted own rfl

/-- When none of the numbered names is there, nothing is removed. -/
theorem removeNumbered_free (s : State) (parent : Nat) (base : Name) (n : Nat)
    (free : ∀ k, 1 ≤ k → k ≤ n → (s.entries parent).get (numbered base k) = none) : removeNumbered s parent base n = ⟨s,0,0,noId⟩ := by
  induction n with
  | zero => rfl
  | succ n ih =>
    rw [removeNumbered,ih fun k low high => free k low (Nat.le_succ_of_le high)]
    simp only [free (n + 1) (Nat.succ_pos n) (Nat.le_refl _)]

theorem digits_suffix (n : Nat) (text : Name) : (digits n text).2 <:+ text := by
  induction text generalizing n with
  | nil => exact List.suffix_refl _
  | cons c rest ih =>
    rw [digits]
    split
    · exact (ih _).trans (List.suffix_cons c rest)
    · exact List.suffix_refl _

theorem strtoul_suffix {text rest : Name} {count : Nat} (parsed : strtoul text = .ok (count,rest)) : rest <:+ text := by
  have read : ∀ (value : Nat → Nat) (body : Name), body <:+ text →
      (if (body.head?.map Char.isDigit).getD false = true then
        (if (digits 0 body).1 ≥ 2 ^ 64 then Except.error Errno.erange else .ok (value (digits 0 body).1,(digits 0 body).2))
      else .ok (0,text)) = .ok (count,rest) → rest <:+ text := by
    intro value body suffix parsed
    by_cases digit : (body.head?.map Char.isDigit).getD false = true
    · rw [if_pos digit] at parsed
      by_cases large : (digits 0 body).1 ≥ 2 ^ 64
      · rw [if_pos large] at parsed
        cases parsed
      · rw [if_neg large] at parsed
        cases parsed
        exact (digits_suffix 0 body).trans suffix
    · rw [if_neg digit] at parsed
      cases parsed
      exact List.suffix_refl _
  have signless : ∀ body : Name, body <:+ text → (if body.head? = some '-' ∨ body.head? = some '+' then body.tail else body) <:+ text := by
    intro body suffix
    split
    · exact (List.tail_suffix body).trans suffix
    · exact suffix
  exact read (fun n => if (text.dropWhile isSpace).head? = some '-' then (2 ^ 64 - n) % 2 ^ 64 else n) _
    (signless _ (List.dropWhile_suffix _)) parsed

theorem bmod_small (number : Nat) : Int.bmod number (2 ^ 32) < 2 ^ 31 := by
  have bound : Int.bmod number (2 ^ 32) < ((2 ^ 32 : Nat) + 1) / 2 := Int.bmod_lt (Nat.two_pow_pos 32)
  omega

/-- The numbered names of a multi-file name are shorter. -/
theorem numbered_shorter {count : Int} {base : Name} {k : Nat} (multiple : isMultiple newname = true)
    (parsed : parseObjectName (objectName newname) = .ok (count,base)) (few : k ≤ count.toNat) :
    (numbered base k).length < newname.length := by
  have whole : 12 + (objectName newname).length = newname.length := by
    have long := (List.isPrefixOf_iff_prefix.mp multiple).length_le
    have twelve : ".@rozofs-mf@".toList.length = 12 := by decide
    rw [objectName,List.length_drop]
    omega
  have parts : '-' :: base <:+ objectName newname ∧ count < 2 ^ 31 := by
    unfold parseObjectName at parsed
    split at parsed
    · cases parsed
    · rename_i number _ read
      obtain ⟨value,rest⟩ := Prod.mk.inj (Except.ok.inj parsed)
      rw [← rest,← value]
      refine ⟨strtoul_suffix read,?_⟩
      exact bmod_small number
    · cases parsed
  have short : (Nat.toDigits 10 k).length ≤ 10 := (Nat.length_toDigits_le_iff (by decide) (by decide)).mpr (by omega)
  have rest := parts.1.length_le
  simp only [numbered,List.length_append,List.length_cons] at rest ⊢
  omega

theorem numbered_ne {count : Int} {base : Name} {k : Nat} (multiple : isMultiple newname = true)
    (parsed : parseObjectName (objectName newname) = .ok (count,base)) (few : k ≤ count.toNat) : numbered base k ≠ newname :=
  fun same => Nat.ne_of_lt (numbered_shorter multiple parsed few) (congrArg List.length same)

/-- Nor is the name in the trash one of them, which is longer. -/
theorem deletedName_ne_numbered {count : Int} {base : Name} {k : Nat} (hour : Name) (multiple : isMultiple newname = true)
    (parsed : parseObjectName (objectName newname) = .ok (count,base)) (few : k ≤ count.toNat) :
    deletedName hour none newname ≠ numbered base k := by
  intro same
  have shorter := numbered_shorter multiple parsed few
  rw [← same] at shorter
  simp only [deletedName,List.length_append,List.length_cons,List.length_nil] at shorter
  omega


/-- The removal of the file that has the new name is refused, and changes nothing. -/
def UnlinkRefused (env : Env) (npfid : Fid) (new : Attr) (newname : Name) (r : Entry) : Prop :=
  if isMultiple newname then (∀ parsed, parseObjectName (objectName newname) ≠ .ok parsed) ∨ r.dir = true
  else r.dir = true ∨ (r.del = true ∧ toTrash env npfid new = true)

/-- The removal of the file that has the new name releases the inode: that of a numbered file, or its own with its last link. -/
def UnlinkReleases (env : Env) (s : State) (npfid : Fid) (new : Attr) (newname : Name) (r : Entry) (ra : Attr) (i : Nat) : Prop :=
  (isMultiple newname = true ∧ ∃ count base, parseObjectName (objectName newname) = .ok (count,base) ∧
    Numbers s npfid.inode base count.toNat i) ∨ (r.inode = i ∧ LastLink env s npfid new newname r ra)

/-- No entry leads to an inode that waits to be recycled. -/
def NoneWaits (s : State) : Prop := ∀ d n e, (s.entries d).get n = some e → ¬Waits s e.inode

theorem Unused.noneWaits (unused : Unused env s) : NoneWaits s := by
  rintro d n e here ⟨r,member,own⟩
  exact (unused.entry d n e here).2 _ r member own

/-- The inodes that can no longer be written after the removal of the file that has the new name. -/
theorem unlink_releases (parent : s.attrs.get npfid.inode = some new) (isActive : active npfid new = true) (apart : r.inode ≠ npfid.inode)
    (here : (s.entries npfid.inode).get newname = some r) (object : s.attrs.get r.inode = some ra)
    (accepted : ¬UnlinkRefused env npfid new newname r) (clean : NoneWaits s) {i : Nat} (there : s.held i ≠ none) :
    (unlink env s npfid newname).1.held i = none ↔ UnlinkReleases env s npfid new newname r ra i := by
  have fresh : r.inode = i → ¬Waits s i := fun own => own ▸ clean _ _ _ here
  unfold UnlinkRefused at accepted
  by_cases multiple : isMultiple newname = true
  · rw [if_pos multiple,not_or] at accepted
    obtain ⟨read,file⟩ := accepted
    have file : r.dir = false := Bool.eq_false_iff.mpr file
    cases parsed : parseObjectName (objectName newname) with
    | error error => exact absurd (fun result same => by rw [parsed] at same; cases same) read
    | ok result =>
      obtain ⟨count,base⟩ := result
      have removed := removeNumbered_numbered s npfid.inode base count.toNat
      generalize gone : (removeNumbered s npfid.inode base count.toNat).state = m at removed
      have kept : (m.entries npfid.inode).get newname = some r := by
        rw [removed.other newname fun k _ few => (numbered_ne multiple parsed few).symm,here]
      have taken : (m.entries npfid.inode).get (deletedName env.hour none newname) =
          (s.entries npfid.inode).get (deletedName env.hour none newname) :=
        removed.other _ fun k _ few => deletedName_ne_numbered env.hour multiple parsed few
      have released : m.held i = none ↔ Numbers s npfid.inode base count.toNat i := by
        rw [held_none_iff,Waits,removed.recycled]
        constructor
        · rintro ⟨absent,waits⟩
          obtain same | ⟨_,numbers⟩ := removed.attrs i
          · exact absurd ((held_none_iff s i).mpr ⟨same ▸ absent,waits⟩) there
          · exact numbers
        · rintro ⟨k,e,low,high,entry,own⟩
          subst own
          refine ⟨?_,clean _ _ _ entry⟩
          obtain same | ⟨_,e',before,lost⟩ := removed.entries (numbered base k)
          · rw [removed.gone k low high,entry] at same
            cases same
          · rw [entry] at before
            cases before
            exact lost
      obtain ⟨u,alike,entries,result⟩ : ∃ u, Alike m u ∧ u.entries = m.entries ∧ u.attrs.get r.inode = m.attrs.get r.inode ∧
          (unlink env s npfid newname).1 = (unlinkName env u npfid new newname).1 := by
        refine ⟨((m.inodeUpdate (removeNumbered s npfid.inode base count.toNat).user (removeNumbered s npfid.inode base count.toNat).user new.cid
            (-((removeNumbered s npfid.inode base count.toNat).count : Int))).inodeUpdate (removeNumbered s npfid.inode base count.toNat).user
            (removeNumbered s npfid.inode base count.toNat).user new.cid (-((removeNumbered s npfid.inode base count.toNat).size : Int))).modify
            npfid.inode Attr.decChildren,?_,?_,?_,?_⟩
        · exact (((Alike.refl m).issue _).issue _).modify _ _
        · rw [modify_entries]
          rfl
        · rw [get_modify_other _ apart]
          rfl
        · simp only [unlink,parent,if_pos multiple,unlinkMultiple,parsed,here,file,Bool.false_eq_true,if_false,if_true,gone]
      obtain ⟨own,result⟩ := result
      rw [result,held_unlinkName isActive (by rw [entries]; exact kept) file i,alike.held i,alike.waits i,released]
      have last : ∀ ra', LastLink env u npfid new newname r ra' ↔ LastLink env s npfid new newname r ra' := by
        intro ra'
        rw [LastLink,LastLink,entries,taken]
      have waits : Waits m i ↔ Waits s i := by
        rw [Waits,Waits,removed.recycled]
      rw [UnlinkReleases,waits]
      constructor
      · rintro (numbers | ⟨at',_,ra',found,gone⟩)
        · exact .inl ⟨multiple,count,base,parsed,numbers⟩
        · obtain same | ⟨lost,_⟩ := removed.attrs r.inode
          · rw [own,same,object] at found
            cases found
            exact .inr ⟨at',(last ra).mp gone⟩
          · rw [own,lost] at found
            cases found
      · rintro (⟨_,count',base',parsed',numbers⟩ | ⟨at',gone⟩)
        · rw [parsed] at parsed'
          cases parsed'
          exact .inl numbers
        · obtain same | ⟨_,numbers⟩ := removed.attrs r.inode
          · refine .inr ⟨at',fresh at',ra,?_,(last ra).mpr gone⟩
            rw [own,same,object]
          · exact .inl (at' ▸ numbers)
  · rw [if_neg multiple,not_or] at accepted
    have file : r.dir = false := Bool.eq_false_iff.mpr accepted.1
    have same : (unlink env s npfid newname).1 = (unlinkName env s npfid new newname).1 := by
      simp only [unlink,parent,if_neg multiple]
    rw [same,held_unlinkName isActive here file i]
    simp only [there,false_or,object,Option.some.injEq,exists_eq_left',UnlinkReleases,multiple,Bool.false_eq_true,false_and]
    constructor
    · exact fun gone => ⟨gone.1,gone.2.2⟩
    · exact fun gone => ⟨gone.1,fresh gone.1,gone.2⟩

end Unlink

end Rozofs.Namespace
