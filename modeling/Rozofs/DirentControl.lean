import Rozofs.DirentInsertion

/-! The control of the list of a bucket finds no cause to repair in files whose lists are sound: the collision
files with entries of the bucket are those that are referenced, each one once. -/
namespace Rozofs.Dirents
open LinkedPath
open Bitmap (test setBit)
open DirentRepair (HashPtr Dirent collFiles)

/-- The places of a list in one file: the bucket and the entries. -/
def placesOf (group : Option Nat × List Nat) : List Slot := .bucket group.1 :: group.2.map (Slot.next group.1)

/-- The collision file that comes behind. -/
def behind (groups : List (Option Nat × List Nat)) : Option Nat := groups.head?.bind Prod.fst

section Groups
variable {st : Dirent} {bucketIdx n : Nat} {pre path : List Slot} {slot : Slot} {idxs : List Nat} {groups before after : List (Option Nat × List Nat)}
  {listIn scanned : Nat → BitVec 8} {f : Option Nat}

/-- A list goes through one file after the other. -/
theorem leads_groups (leads : Leads (follow st bucketIdx) (follow st bucketIdx slot) path none) :
    ∃ (idxs : List Nat) (groups : List (Option Nat × List Nat)), path = idxs.map (Slot.next slot.file) ++ groups.flatMap placesOf ∧ ∀ g ∈ groups, g.1 ≠ none := by
  induction path generalizing slot with
  | nil => exact ⟨[],[],rfl,fun g member => absurd member List.not_mem_nil⟩
  | cons next path ih =>
    obtain ⟨first,rest⟩ := leads
    obtain ⟨idxs,groups,parts,colls⟩ := ih rest
    obtain ⟨p,_,goes⟩ := Option.bind_eq_some_iff.mp first
    cases type : p.type with
    | here =>
      rw [target_of_here type] at goes
      cases goes
      exact ⟨p.idx.toNat :: idxs,groups,by rw [parts]; rfl,colls⟩
    | coll =>
      rw [target_of_coll type] at goes
      cases goes
      refine ⟨[],(some p.idx.toNat,idxs) :: groups,by rw [parts]; rfl,fun g member => ?_⟩
      rcases List.mem_cons.mp member with rfl | member
      · exact Option.some_ne_none _
      · exact colls g member
    | eof =>
      rw [target_of_eof type] at goes
      cases goes
    | free =>
      rw [target,type] at goes
      cases goes

theorem Chained.exists_groups (chained : Chained st bucketIdx path) :
    ∃ (idxs : List Nat) (groups : List (Option Nat × List Nat)), path = ((none,idxs) :: groups).flatMap placesOf ∧ ∀ g ∈ groups, g.1 ≠ none := by
  cases path with
  | nil => cases chained.leads
  | cons slot rest =>
    obtain ⟨first,leads⟩ := chained.leads
    cases first
    obtain ⟨idxs,groups,parts,colls⟩ := leads_groups leads
    exact ⟨idxs,groups,by rw [parts]; rfl,colls⟩

theorem sublist_groups (groups : List (Option Nat × List Nat)) :
    (groups.map fun g => Slot.bucket g.1).Sublist (groups.flatMap placesOf) := by
  induction groups with
  | nil => exact List.Sublist.refl _
  | cons g groups ih => exact (ih.trans (List.sublist_append_right _ _)).cons_cons _

theorem nodup_files (chained : Chained st bucketIdx (groups.flatMap placesOf)) : (groups.map Prod.fst).Nodup := by
  have once := (sublist_groups groups).nodup chained.nodup
  have parts : groups.map (fun g => Slot.bucket g.1) = (groups.map Prod.fst).map Slot.bucket := (List.map_map ..).symm
  rw [parts] at once
  exact once.of_map _

/-- The pointers of a file lead to its end or to the collision file behind. -/
theorem scanPointers_spec (chained : Chained st bucketIdx (pre ++ slot :: (idxs.map (Slot.next slot.file) ++ after.flatMap placesOf)))
    (there : (ptr st bucketIdx slot).isSome = true) (enough : idxs.length < n) (colls : ∀ g ∈ after, g.1 ≠ none)
    (unseen : ∀ c, behind after = some c → slot.file ≠ some c ∧ test scanned c = false) :
    scanPointers st bucketIdx n slot scanned = some ((behind after).elim scanned (setBit scanned)) := by
  induction idxs generalizing pre slot n with
  | nil =>
    cases n with
    | zero => exact absurd enough (Nat.not_lt_zero _)
    | succ n =>
      have turn := chained.turn
      cases after with
      | nil =>
        cases turn with
        | missing read _ =>
          rw [read] at there
          cases there
        | eof read safe type =>
          simp only [scanPointers,read,safe,type,Bool.false_eq_true,if_false]
          rfl
      | cons g after =>
        obtain ⟨file,idxs⟩ := g
        cases file with
        | none => exact absurd rfl (colls _ List.mem_cons_self)
        | some c =>
          obtain ⟨apart,clear⟩ := unseen c rfl
          change Turn st bucketIdx slot (Slot.bucket (some c) :: _) at turn
          cases turn with
          | @coll p g _ read safe type found =>
            simp only [scanPointers,read,safe,type,Bool.false_eq_true,if_false,apart,clear,or_self]
            rfl
  | cons i idxs ih =>
    cases n with
    | zero => exact absurd enough (Nat.not_lt_zero _)
    | succ n =>
      have turn := chained.turn
      have split : pre ++ slot :: ((i :: idxs).map (Slot.next slot.file) ++ after.flatMap placesOf) =
          (pre ++ [slot]) ++ .next slot.file i :: (idxs.map (Slot.next slot.file) ++ after.flatMap placesOf) := by
        rw [List.append_assoc]
        rfl
      rw [split] at chained
      change Turn st bucketIdx slot (Slot.next slot.file i :: _) at turn
      cases turn with
      | @here p e _ read safe type found =>
        have goes : (ptr st bucketIdx (.next slot.file p.idx.toNat)).isSome = true := by
          rw [ptr,found]
          rfl
        have later := ih chained goes (Nat.lt_of_succ_lt_succ enough) unseen
        simp only [scanPointers,read,safe,type,Bool.false_eq_true,if_false]
        exact later

theorem mem_groups {file : Option Nat} {i : Nat} (member : i ∈ idxs) : Slot.next file i ∈ (before ++ (file,idxs) :: after).flatMap placesOf := by
  refine List.mem_flatMap.mpr ⟨(file,idxs),by simp,?_⟩
  exact List.mem_cons_of_mem _ (List.mem_map_of_mem member)

/-- A file has at most 384 entries of a bucket. -/
theorem length_group (chained : Chained st bucketIdx ((before ++ (f,idxs) :: after).flatMap placesOf)) : idxs.length ≤ entriesCount := by
  have once : idxs.Nodup := by
    have whole := chained.nodup
    rw [List.flatMap_append,List.flatMap_cons] at whole
    have inside := (List.nodup_append.mp (List.nodup_append.mp whole).2.1).1
    exact (List.nodup_cons.mp inside).2.of_map _
  have low : idxs ⊆ List.range entriesCount := fun i member =>
    List.mem_range.mpr (chained.owned f i (mem_groups member)).low
  have bound := (List.subperm_of_subset once low).length_le
  rwa [List.length_range] at bound

/-- The scan of a file that the list goes through. -/
theorem scanDirentCacheEntry_spec (chained : Chained st bucketIdx ((before ++ (f,idxs) :: after).flatMap placesOf))
    (colls : ∀ g ∈ after, g.1 ≠ none) (unseen : ∀ c, behind after = some c → f ≠ some c ∧ test scanned c = false) :
    scanDirentCacheEntry st bucketIdx f listIn scanned =
      some (f.elim listIn (setBit listIn),(behind after).elim scanned (setBit scanned)) := by
  have bound := length_group chained
  have parts : (before ++ (f,idxs) :: after).flatMap placesOf =
      before.flatMap placesOf ++ .bucket f :: (idxs.map (Slot.next f) ++ after.flatMap placesOf) := by
    rw [List.flatMap_append,List.flatMap_cons]
    rfl
  rw [parts] at chained
  rw [scanDirentCacheEntry]
  cases read : ptr st bucketIdx (.bucket f) with
  | none =>
    -- only the root, when it has no memory for the bucket
    have stop := chained.leads.after
    rw [follow,read,Option.bind_none] at stop
    have last : idxs = [] ∧ after = [] := by
      cases idxs with
      | nil =>
        cases after with
        | nil => exact ⟨rfl,rfl⟩
        | cons g after => cases stop.1
      | cons i idxs => cases stop.1
    obtain ⟨rfl,rfl⟩ := last
    cases f with
    | none => rfl
    | some c =>
      obtain ⟨i,head⟩ := chained.heads c (by simp)
      rw [follow,read] at head
      cases head
  | some p =>
    have pointers := @scanPointers_spec st bucketIdx 388 _ (.bucket f) idxs after scanned chained (by rw [read]; rfl)
      (Nat.lt_of_le_of_lt bound (by decide)) colls unseen
    have safe : checkRepairNeeded st bucketIdx f p = false := by
      have turn := chained.turn
      generalize idxs.map (Slot.next f) ++ after.flatMap placesOf = rest at turn
      cases turn with
      | missing read' _ => cases read.symm.trans read'
      | eof read' safe _ =>
        cases read.symm.trans read'
        exact safe
      | here read' safe _ _ =>
        cases read.symm.trans read'
        exact safe
      | coll read' safe _ _ =>
        cases read.symm.trans read'
        exact safe
    simp only [safe,Bool.false_eq_true,if_false,pointers,Option.map_some]
    cases f with
    | none => rfl
    | some c =>
      obtain ⟨i,head⟩ := chained.heads c (by simp)
      rw [follow_some read] at head
      have here : p.type = .here := by
        cases type : p.type with
        | here => rfl
        | coll =>
          rw [target_of_coll type] at head
          cases head
        | eof =>
          rw [target_of_eof type] at head
          cases head
        | free =>
          rw [target,type] at head
          cases head
      simp only [here,if_true,Option.elim_some]

/-- The scan of a collision file that the list does not go through. -/
theorem scanDirentCacheEntry_other (chained : Chained st bucketIdx path) {c : Nat} (other : .bucket (some c) ∉ path) :
    scanDirentCacheEntry st bucketIdx (some c) listIn scanned = some (listIn,scanned) := by
  have out : follow st bucketIdx (.bucket (some c)) = none := by
    by_contra leads
    exact other (chained.used c leads)
  rw [scanDirentCacheEntry]
  cases read : ptr st bucketIdx (.bucket (some c)) with
  | none => rfl
  | some p =>
    rw [follow_some read] at out
    have stop : p.type = .eof := by
      have kind := chained.kinds _ p read
      cases type : p.type with
      | eof => rfl
      | here =>
        rw [target_of_here type] at out
        cases out
      | coll =>
        rw [target_of_coll type] at out
        cases out
      | free => exact absurd type kind
    simp only [checkRepairNeeded,scanPointers,read,stop,reduceCtorEq,if_false,Bool.false_eq_true,Option.map_some]

end Groups

/-- A file comes right before another one. -/
def Before (files : List (Option Nat)) (f f' : Option Nat) : Prop := ∃ pre post, files = pre ++ f :: f' :: post

/-- The bitmaps after some of the files were scanned. -/
structure Counted (files done : List (Option Nat)) (listIn scanned : Nat → BitVec 8) : Prop where
  list : ∀ c, test listIn c = true ↔ some c ∈ done ∧ some c ∈ files
  scans : ∀ c, test scanned c = true ↔ ∃ f ∈ done, Before files f (some c)

section Scans
variable {st : Dirent} {bucketIdx : Nat} {groups before after : List (Option Nat × List Nat)} {listIn scanned : Nat → BitVec 8}
  {f f' : Option Nat} {idxs : List Nat} {files done : List (Option Nat)} {c : Nat}

/-- A list without repetition is split at one of its elements in one way. -/
theorem split_unique {l pre pre' post post' : List (Option Nat)} {a : Option Nat} (once : l.Nodup) (parts : l = pre ++ a :: post)
    (parts' : l = pre' ++ a :: post') : pre = pre' ∧ post = post' := by
  have absent : a ∉ pre ∧ a ∉ post := by
    rw [parts,List.nodup_middle,List.nodup_cons,List.mem_append,not_or] at once
    exact once.1
  have same := (List.append_cons_inj_of_notMem absent.1 absent.2).mp (parts.symm.trans parts')
  exact ⟨same.1,same.2.2⟩

/-- A file comes behind one file only. -/
theorem Before.unique (once : files.Nodup) (first : Before files f (some c)) (second : Before files f' (some c)) : f = f' := by
  obtain ⟨pre,post,parts⟩ := first
  obtain ⟨pre',post',parts'⟩ := second
  rw [List.append_cons] at parts parts'
  have same := (split_unique once parts parts').1
  exact List.singleton_inj.mp (List.append_inj_right' same rfl)

/-- A file that is not the first one comes behind another. -/
theorem exists_before (member : some c ∈ none :: files) : ∃ f ∈ none :: files, Before (none :: files) f (some c) := by
  obtain ⟨pre,post,parts⟩ := List.append_of_mem member
  rcases List.eq_nil_or_concat pre with rfl | ⟨init,f,rfl⟩
  · cases parts
  · rw [List.concat_eq_append,List.append_assoc] at parts
    exact ⟨f,by rw [parts]; simp,init,post,parts⟩

theorem before_iff (once : (groups.map Prod.fst).Nodup) (parts : groups = before ++ (f,idxs) :: after) :
    Before (groups.map Prod.fst) f (some c) ↔ behind after = some c := by
  have files : groups.map Prod.fst = before.map Prod.fst ++ f :: after.map Prod.fst := by rw [parts]; simp
  constructor
  · rintro ⟨pre,post,parts'⟩
    have same := (split_unique once files parts').2
    cases after with
    | nil => cases same
    | cons g after => exact (List.cons_eq_cons.mp same).1
  · intro follows
    cases after with
    | nil => cases follows
    | cons g after =>
      have own : g.1 = some c := follows
      exact ⟨_,_,by rw [files,List.map_cons,own]⟩

/-- A file is scanned, and the one behind it. -/
theorem Counted.scan (counted : Counted (groups.map Prod.fst) done listIn scanned) (once : (groups.map Prod.fst).Nodup)
    (parts : groups = before ++ (f,idxs) :: after) :
    Counted (groups.map Prod.fst) (f :: done) (f.elim listIn (setBit listIn)) ((behind after).elim scanned (setBit scanned)) where
  list c := by
    have member : f ∈ groups.map Prod.fst := by rw [parts]; simp
    cases f with
    | none =>
      simp only [Option.elim_none,List.mem_cons,reduceCtorEq,false_or]
      exact counted.list c
    | some own =>
      rw [Option.elim_some,Bitmap.test_setBit,Bool.or_eq_true,decide_eq_true_eq,counted.list,List.mem_cons,Option.some.injEq]
      constructor
      · rintro (rfl | ⟨before,inside⟩)
        · exact ⟨.inl rfl,member⟩
        · exact ⟨.inr before,inside⟩
      · rintro ⟨rfl | before,inside⟩
        · exact .inl rfl
        · exact .inr ⟨before,inside⟩
  scans c := by
    have set : test ((behind after).elim scanned (setBit scanned)) c = true ↔ behind after = some c ∨ test scanned c = true := by
      cases behind after with
      | none => simp only [Option.elim_none,reduceCtorEq,false_or]
      | some next => rw [Option.elim_some,Bitmap.test_setBit,Bool.or_eq_true,decide_eq_true_eq,Option.some.injEq,eq_comm]
    rw [set,counted.scans,← before_iff once parts]
    constructor
    · rintro (follows | ⟨f',member,follows⟩)
      · exact ⟨f,List.mem_cons_self,follows⟩
      · exact ⟨f',List.mem_cons_of_mem f member,follows⟩
    · rintro ⟨f',member,follows⟩
      rcases List.mem_cons.mp member with rfl | member
      · exact .inl follows
      · exact .inr ⟨f',member,follows⟩

/-- A file that the list does not go through counts for nothing. -/
theorem Counted.other (counted : Counted files done listIn scanned) (absent : f ∉ files) : Counted files (f :: done) listIn scanned where
  list c := by
    rw [counted.list,List.mem_cons]
    constructor
    · rintro ⟨before,inside⟩
      exact ⟨.inr before,inside⟩
    · rintro ⟨rfl | before,inside⟩
      · exact absurd inside absent
      · exact ⟨before,inside⟩
  scans c := by
    rw [counted.scans]
    constructor
    · rintro ⟨f',member,follows⟩
      exact ⟨f',List.mem_cons_of_mem f member,follows⟩
    · rintro ⟨f',member,follows⟩
      rcases List.mem_cons.mp member with rfl | member
      · obtain ⟨pre,post,parts⟩ := follows
        exact absurd (by rw [parts]; simp) absent
      · exact ⟨f',member,follows⟩

/-- The scan of a file that was not scanned before. -/
theorem Counted.step (counted : Counted (groups.map Prod.fst) done listIn scanned) (chained : Chained st bucketIdx (groups.flatMap placesOf))
    (colls : ∀ before g after, groups = before ++ g :: after → ∀ g ∈ after, g.1 ≠ none) (unscanned : f ∉ done) (root : f = none → none ∈ groups.map Prod.fst) :
    ∃ listIn' scanned', scanDirentCacheEntry st bucketIdx f listIn scanned = some (listIn',scanned') ∧
      Counted (groups.map Prod.fst) (f :: done) listIn' scanned' := by
  have once := nodup_files chained
  by_cases member : f ∈ groups.map Prod.fst
  · obtain ⟨⟨_,idxs⟩,inside,rfl⟩ := List.mem_map.mp member
    obtain ⟨before,after,parts⟩ := List.append_of_mem inside
    refine ⟨_,_,?_,counted.scan once parts⟩
    have chained' := chained
    rw [parts] at chained'
    refine scanDirentCacheEntry_spec chained' (colls before _ after parts) fun c follows => ?_
    have next := (before_iff once parts).mpr follows
    constructor
    · rintro rfl
      obtain ⟨pre,post,split⟩ := next
      rw [split,List.nodup_middle,List.nodup_cons] at once
      exact once.1 (by simp)
    · by_contra seen
      obtain ⟨f',scanned',next'⟩ := (counted.scans c).mp (eq_true_of_ne_false seen)
      cases next.unique once next'
      exact unscanned scanned'
  · cases f with
    | none => exact absurd (root rfl) member
    | some c =>
      refine ⟨listIn,scanned,scanDirentCacheEntry_other chained fun inside => member ?_,counted.other member⟩
      obtain ⟨g,there,place⟩ := List.mem_flatMap.mp inside
      rcases List.mem_cons.mp place with same | place
      · exact List.mem_map.mpr ⟨g,there,(Slot.bucket.inj same).symm⟩
      · obtain ⟨i,_,same⟩ := List.mem_map.mp place
        cases same

/-- The scan of collision files that were not scanned before. -/
theorem Counted.scanColls {colls : List Nat} (counted : Counted (groups.map Prod.fst) done listIn scanned)
    (chained : Chained st bucketIdx (groups.flatMap placesOf)) (later : ∀ before g after, groups = before ++ g :: after → ∀ g ∈ after, g.1 ≠ none)
    (there : ∀ c ∈ colls, (st.coll c).isSome = true) (once : colls.Nodup) (unscanned : ∀ c ∈ colls, some c ∉ done) :
    ∃ listIn' scanned' done', Dirents.scanColls st bucketIdx colls listIn scanned = some (listIn',scanned') ∧
      Counted (groups.map Prod.fst) done' listIn' scanned' ∧ (∀ f ∈ done, f ∈ done') ∧ ∀ c ∈ colls, some c ∈ done' := by
  induction colls generalizing done listIn scanned with
  | nil => exact ⟨listIn,scanned,done,rfl,counted,fun f member => member,fun c member => absurd member List.not_mem_nil⟩
  | cons c colls ih =>
    obtain ⟨absent,once⟩ := List.nodup_cons.mp once
    obtain ⟨file,found⟩ := Option.isSome_iff_exists.mp (there c List.mem_cons_self)
    obtain ⟨listIn',scanned',result,counted'⟩ := @Counted.step st bucketIdx groups listIn scanned (some c) done counted chained later (unscanned c List.mem_cons_self) fun root => by cases root
    have others : ∀ c' ∈ colls, some c' ∉ some c :: done := by
      intro c' member again
      rcases List.mem_cons.mp again with same | again
      · cases same
        exact absent member
      · exact unscanned c' (List.mem_cons_of_mem c member) again
    obtain ⟨listIn'',scanned'',done',rest,counted'',kept,all⟩ := ih counted' (fun c' member => there c' (List.mem_cons_of_mem c member)) once others
    refine ⟨listIn'',scanned'',done',?_,counted'',fun f member => kept f (List.mem_cons_of_mem _ member),fun c' member => ?_⟩
    · simp only [Dirents.scanColls,found,result,rest]
    · rcases List.mem_cons.mp member with rfl | member
      · exact kept _ List.mem_cons_self
      · exact all c' member

end Scans

/-- Bitmaps with the same bits are the same. -/
theorem eq_of_test {m m' : Nat → BitVec 8} (same : ∀ c, test m c = true ↔ test m' c = true) (byte : Nat) : m byte = m' byte := by
  refine BitVec.eq_of_getLsbD_eq fun bit low => ?_
  rw [← Bitmap.test_at m byte low,← Bitmap.test_at m' byte low]
  exact Bool.eq_iff_iff.mpr (same _)

/-- The control finds no cause to repair. -/
theorem Sound.bucketScanned {st : Dirent} (sound : Sound st) (bucketIdx : Nat) : bucketScanned st bucketIdx = true := by
  obtain ⟨path,chained⟩ := sound.lists bucketIdx
  obtain ⟨idxs,groups,rfl,colls⟩ := chained.exists_groups
  have later : ∀ before g after, (none,idxs) :: groups = before ++ g :: after → ∀ g ∈ after, g.1 ≠ none := by
    intro before g after parts
    cases before with
    | nil =>
      cases parts
      exact colls
    | cons first before =>
      have tail : groups = before ++ g :: after := (List.cons_eq_cons.mp parts).2
      exact fun g' member => colls g' (by rw [tail]; simp [member])
  have zero : ∀ c, test (fun _ => 0) c = false := fun c => BitVec.getLsbD_zero
  have start : Counted (((none,idxs) :: groups).map Prod.fst) [] (fun _ => 0) fun _ => 0 := by
    constructor
    · intro c
      rw [zero]
      simp
    · intro c
      rw [zero]
      simp
  obtain ⟨listIn,scanned,first,counted⟩ := @Counted.step st bucketIdx ((none,idxs) :: groups) _ _ none [] start chained later List.not_mem_nil fun _ => List.mem_cons_self
  have there : ∀ c ∈ collFiles st, (st.coll c).isSome = true := by
    intro c member
    rw [sound.colls,(DirentRepair.mem_collFiles.mp member).2]
    rfl
  obtain ⟨listIn',scanned',done,rest,counted',kept,all⟩ := counted.scanColls chained later there DirentRepair.nodup_collFiles fun c _ => by simp
  -- the collision files of the list are scanned
  have inside : ∀ c, some c ∈ groups.map Prod.fst → some c ∈ done := by
    intro c member
    obtain ⟨g,own,same⟩ := List.mem_map.mp member
    obtain ⟨i,head⟩ := chained.heads c (List.mem_flatMap.mpr ⟨g,List.mem_cons_of_mem _ own,by rw [← same]; exact List.mem_cons_self⟩)
    obtain ⟨file,found⟩ := exists_coll head
    have present : (st.coll c).isSome = true := by rw [found]; rfl
    have low := sound.low c present
    have colls := sound.colls c
    rw [present] at colls
    exact all c (DirentRepair.mem_collFiles.mpr ⟨by omega,Bool.eq_false_of_not_eq_true' colls.symm⟩)
  have every : ∀ f ∈ none :: groups.map Prod.fst, f ∈ done := by
    intro f member
    rcases List.mem_cons.mp member with rfl | member
    · exact kept none List.mem_cons_self
    · cases f with
      | none => exact kept none List.mem_cons_self
      | some c => exact inside c member
  have same : ∀ c, test listIn' c = true ↔ test scanned' c = true := by
    intro c
    rw [counted'.list,counted'.scans]
    constructor
    · rintro ⟨_,member⟩
      obtain ⟨f,own,before⟩ := exists_before member
      exact ⟨f,every f own,before⟩
    · rintro ⟨f,_,pre,post,parts⟩
      have member : some c ∈ ((none,idxs) :: groups).map Prod.fst := by rw [parts]; simp
      exact ⟨every _ member,member⟩
  rw [collFiles] at rest
  simp only [Dirents.bucketScanned,first,rest,List.all_eq_true,decide_eq_true_eq]
  exact fun byte _ => eq_of_test same byte

/-- The control of a bucket marks it and leaves the lists as they are. -/
theorem isBucketIdxSafe_spec (cfg : Config) (bucketIdx : Nat) {st : Files} (sound : Sound st.links) :
    ∃ marks, isBucketIdxSafe cfg bucketIdx st = { st with bucketSafeBitmap := marks } := by
  rw [isBucketIdxSafe]
  split
  · exact ⟨_,rfl⟩
  · exact ⟨_,by rw [sound.bucketScanned,if_pos rfl]⟩

end Rozofs.Dirents
