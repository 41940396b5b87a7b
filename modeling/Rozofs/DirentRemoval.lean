import Rozofs.DirentInsertion
import Rozofs.DirentWalk

/-! The removal of a hash entry takes it out of the list of its bucket, with the collision file that has no
other entry of the bucket, and leaves the other lists as they are. -/
namespace Rozofs.Dirents
open LinkedPath
open Function (update)
open Bitmap (test setBit clearBit)
open DirentRepair (PtrType HashPtr HashEntry CacheEntry Dirent)

/-- What the removal of a hash entry does. -/
structure Unlinked (bucketIdx : Nat) (file : Option Nat) (idx : Nat) (st st' : Dirent) : Prop where
  sound : Sound st'
  others : ∀ b path, b ≠ bucketIdx → Chained st b path → Chained st' b path
  list : ∀ path, Chained st bucketIdx path → ∃ path', Chained st' bucketIdx path' ∧ (entriesOf path).Perm ((file,idx) :: entriesOf path')
  bits : ∀ f i, freeBit st' f i = freeBit st f i
  colls : ∀ c, (st'.coll c).isSome = (st.coll c).isSome
  collBitmap : st'.collBitmap = st.collBitmap

section Unlink
variable {st st' : Dirent} {bucketIdx idx collIdx : Nat} {file : Option Nat} {path path' before after slots : List Slot} {prev cur : Slot}
  {e : HashEntry}

theorem Unlinked.wrote (sound : Sound st) (chained : Chained st bucketIdx path) (wrote : Wrote bucketIdx slots st st')
    (own : ∀ f i, .next f i ∈ slots → .next f i ∈ path) (chained' : Chained st' bucketIdx path')
    (perm : (entriesOf path).Perm ((file,idx) :: entriesOf path')) : Unlinked bucketIdx file idx st st' where
  sound := sound.wrote wrote chained' (apart_of_allocated fun f i written => (chained.owned f i (own f i written)).toAllocated)
  others b old other list :=
    wrote.other list other (apart_of_allocated (fun f i written => (chained.owned f i (own f i written)).toAllocated) b old other list)
  list old list := by
    cases chained.unique list
    exact ⟨path',chained',perm⟩
  bits := wrote.bits
  colls := wrote.colls
  collBitmap := wrote.collBitmap

theorem perm_pull (before after : List Slot) : (entriesOf (before ++ .next file idx :: after)).Perm ((file,idx) :: entriesOf (before ++ after)) :=
  perm_push

/-- The pointer before an entry takes its pointer. -/
theorem unlinked_next (sound : Sound st) (chained : Chained st bucketIdx (before ++ cur :: .next cur.file idx :: after))
    (there : entry st cur.file idx = some e) {value : HashPtr → HashPtr} (read : ∀ p, ptr st bucketIdx cur = some p →
      (value p).type ≠ .free ∧ target cur.file (value p) = target cur.file e.next)
    (head : ∀ c, cur = .bucket (some c) → e.next.type = .here) :
    Unlinked bucketIdx cur.file idx st (setPtr st bucketIdx value cur) := by
  have wrote : Wrote bucketIdx [cur] st (setPtr st bucketIdx value cur) := wrote_setPtr _ _ _ (by simp)
  have once := chained.nodup
  rw [List.nodup_middle,List.nodup_cons] at once
  have leads := chained.leads.next_of_cons
  obtain ⟨p,known,_⟩ := Option.bind_eq_some_iff.mp leads
  obtain ⟨live,goes⟩ := read p known
  have tail : follow st bucketIdx (.next cur.file idx) = target cur.file e.next := by
    rw [follow,ptr,there]
    rfl
  have after_cur : follow (setPtr st bucketIdx value cur) bucketIdx cur = target cur.file e.next := by
    rw [follow,ptr_setPtr,if_pos rfl,known,Option.map_some,Option.bind_some,goes]
  have others : ∀ s ∈ before ++ after, follow (setPtr st bucketIdx value cur) bucketIdx s = follow st bucketIdx s := by
    intro s member
    refine wrote.follow (fun written => ?_) bucketIdx
    rw [List.mem_singleton.mp written] at member
    exact once.1 (by simp only [List.mem_append,List.mem_cons] at member ⊢; tauto)
  have bridge : ∀ middle, Leads (follow st bucketIdx) (follow st bucketIdx cur) [.next cur.file idx] middle →
      Leads (follow (setPtr st bucketIdx value cur) bucketIdx) (follow (setPtr st bucketIdx value cur) bucketIdx cur) [] middle := by
    intro middle start
    exact after_cur.trans (tail.symm.trans start.2)
  have kept : ∀ s, s ∈ before ++ cur :: after → s ∈ before ++ cur :: .next cur.file idx :: after := by
    intro s member
    simp only [List.mem_append,List.mem_cons] at member ⊢
    tauto
  refine Unlinked.wrote sound chained wrote (fun f i written => ?_) (chained.rewritten wrote
    (show Leads _ _ (before ++ cur :: after) _ from chained.leads.replace (fun s member => others s (List.mem_append_left _ member))
      (fun s member => others s (List.mem_append_right _ member)) bridge) (fun f i member => .inl (kept _ member))
    (fun s written q after => ?_) (fun c member => ?_) (fun c written _ => ?_) fun c member _ => ?_) ?_
  · rw [List.mem_singleton.mp written]
    simp
  · rw [List.mem_singleton.mp written,ptr_setPtr,if_pos rfl,known] at after
    cases after
    exact live
  · by_cases own : cur = .bucket (some c)
    · refine .inr ⟨e.next.idx.toNat,?_⟩
      rw [← own,after_cur,target_of_here (head c own),own]
      rfl
    · exact .inl ⟨kept _ member,by simpa using Ne.symm own⟩
  · rw [List.mem_singleton.mp written]
    simp
  · simp only [List.mem_append,List.mem_cons,reduceCtorEq,false_or] at member ⊢
    tauto
  · have split : ∀ tail : List Slot, before ++ cur :: tail = (before ++ [cur]) ++ tail := fun tail => by rw [List.append_assoc]; rfl
    rw [split,split after]
    exact perm_pull ..

/-- The pointer before a collision file takes the pointer of the last entry in the file. -/
theorem unlinked_coll (sound : Sound st) (cur_eq : cur = .bucket (some collIdx))
    (chained : Chained st bucketIdx (before ++ prev :: cur :: .next (some collIdx) idx :: after))
    (there : entry st (some collIdx) idx = some e) {value : HashPtr → HashPtr} (read : ∀ p, ptr st bucketIdx prev = some p →
      (value p).type ≠ .free ∧ target prev.file (value p) = target (some collIdx) e.next) :
    Unlinked bucketIdx (some collIdx) idx st
      (setPtr (setPtr st bucketIdx value prev) bucketIdx (fun p => { p with type := .eof }) cur) := by
  subst cur_eq
  have wrote : Wrote bucketIdx [prev,.bucket (some collIdx)] st
      (setPtr (setPtr st bucketIdx value prev) bucketIdx (fun p => { p with type := .eof }) (.bucket (some collIdx))) :=
    (wrote_setPtr _ _ _ (by simp)).trans (wrote_setPtr _ _ _ (by simp))
  have first := chained.leads.next_of_cons
  have once : prev ∉ before ++ .bucket (some collIdx) :: .next (some collIdx) idx :: after := by
    have whole := chained.nodup
    rw [List.nodup_middle,List.nodup_cons] at whole
    exact whole.1
  have once' : .bucket (some collIdx) ∉ (before ++ [prev]) ++ .next (some collIdx) idx :: after := by
    have whole := chained.nodup
    rw [List.append_cons,List.nodup_middle,List.nodup_cons] at whole
    exact whole.1
  have apart : prev ≠ .bucket (some collIdx) := by
    rintro rfl
    simp at once
  -- the place before is the bucket of the root or an entry
  have not_coll : ∀ c, prev ≠ .bucket (some c) := by
    rintro c rfl
    obtain ⟨i,head⟩ := chained.heads c (by simp)
    cases head.symm.trans first
  obtain ⟨p,known,_⟩ := Option.bind_eq_some_iff.mp first
  obtain ⟨live,goes⟩ := read p known
  obtain ⟨i,head⟩ := chained.heads collIdx (by simp)
  obtain ⟨q,bucket,_⟩ := Option.bind_eq_some_iff.mp head
  have at_prev : ptr (setPtr (setPtr st bucketIdx value prev) bucketIdx (fun p => { p with type := .eof }) (.bucket (some collIdx))) bucketIdx prev =
      some (value p) := by
    rw [ptr_setPtr,if_neg apart,ptr_setPtr,if_pos rfl,known,Option.map_some]
  have at_cur : ptr (setPtr (setPtr st bucketIdx value prev) bucketIdx (fun p => { p with type := .eof }) (.bucket (some collIdx))) bucketIdx
      (.bucket (some collIdx)) = some { q with type := .eof } := by
    rw [ptr_setPtr,if_pos rfl,ptr_setPtr,if_neg apart.symm,bucket,Option.map_some]
  have tail : follow st bucketIdx (.next (some collIdx) idx) = target (some collIdx) e.next := by
    rw [follow,ptr,there]
    rfl
  have others : ∀ s ∈ before ++ after, follow (setPtr (setPtr st bucketIdx value prev) bucketIdx (fun p => { p with type := .eof })
      (.bucket (some collIdx))) bucketIdx s = follow st bucketIdx s := by
    intro s member
    refine wrote.follow (fun written => ?_) bucketIdx
    simp only [List.mem_append,List.mem_cons] at member once once'
    rcases List.mem_pair.mp written with rfl | rfl
    · tauto
    · tauto
  have bridge : ∀ middle, Leads (follow st bucketIdx) (follow st bucketIdx prev) [.bucket (some collIdx),.next (some collIdx) idx] middle →
      Leads (follow (setPtr (setPtr st bucketIdx value prev) bucketIdx (fun p => { p with type := .eof }) (.bucket (some collIdx))) bucketIdx)
        (follow (setPtr (setPtr st bucketIdx value prev) bucketIdx (fun p => { p with type := .eof }) (.bucket (some collIdx))) bucketIdx prev)
        [] middle := by
    intro middle start
    have last : follow st bucketIdx (.next (some collIdx) idx) = middle := start.2.2
    exact (follow_some at_prev).trans (goes.trans (tail.symm.trans last))
  have kept : ∀ s, s ∈ before ++ prev :: after → s ∈ before ++ prev :: .bucket (some collIdx) :: .next (some collIdx) idx :: after := by
    intro s member
    simp only [List.mem_append,List.mem_cons] at member ⊢
    tauto
  refine Unlinked.wrote sound chained wrote (fun f i written => ?_) (chained.rewritten wrote
    (show Leads _ _ (before ++ prev :: after) _ from chained.leads.replace (fun s member => others s (List.mem_append_left _ member))
      (fun s member => others s (List.mem_append_right _ member)) bridge) (fun f i member => .inl (kept _ member))
    (fun s written r after => ?_) (fun c member => ?_) (fun c written nonempty => ?_) fun c member other => ?_) ?_
  · simp only [List.mem_cons,reduceCtorEq,List.not_mem_nil,or_false] at written
    rw [written]
    simp
  · rcases List.mem_pair.mp written with rfl | rfl
    · cases at_prev.symm.trans after
      exact live
    · cases at_cur.symm.trans after
      simp
  · refine .inl ⟨kept _ member,fun written => ?_⟩
    rcases List.mem_pair.mp written with same | same
    · exact not_coll c same.symm
    · cases same
      simp only [List.mem_append,List.mem_cons] at member once'
      tauto
  · rcases List.mem_pair.mp written with same | same
    · exact absurd same.symm (not_coll c)
    · rw [same,follow_some at_cur,target_of_eof rfl] at nonempty
      exact absurd rfl nonempty
  · simp only [List.mem_append,List.mem_cons,reduceCtorEq,List.not_mem_nil,or_false,not_or,false_or] at member other ⊢
    tauto
  · have split : ∀ tail : List Slot, before ++ prev :: tail = (before ++ [prev]) ++ tail := fun tail => by rw [List.append_assoc]; rfl
    have split' : ∀ tail : List Slot, before ++ prev :: .bucket (some collIdx) :: tail = (before ++ [prev,.bucket (some collIdx)]) ++ tail :=
      fun tail => by rw [List.append_assoc]; rfl
    rw [split',split after]
    refine (perm_pull ..).trans (List.Perm.of_eq ?_)
    simp only [entriesOf_append]
    cases prev <;> rfl

theorem Located.first {position : Position} (chained : Chained st bucketIdx path) (located : Located path position before after)
    (root : position.cur = .bucket none) : before = [] := by
  have whole := chained.leads
  have once := chained.nodup
  rw [located.parts,root] at whole once
  cases before with
  | nil => rfl
  | cons slot before =>
    cases whole.1
    simp at once

/-- The pointers that are written take the entry out of the list. -/
theorem unlink_spec (sound : Sound st) (chained : Chained st bucketIdx path) {position : Position}
    (located : Located path position before after) :
    Unlinked bucketIdx position.cur.file position.idx st (unlink bucketIdx position st).1 := by
  obtain ⟨prev,cur,idx⟩ := position
  have parts : path = before ++ cur :: .next cur.file idx :: after := located.parts
  have member : .next cur.file idx ∈ path := by rw [parts]; simp
  have owned := chained.owned cur.file idx member
  obtain ⟨e,there,_⟩ := owned.exists_entry
  have live : e.next.type ≠ .free := owned.kind e.next (by rw [ptr,there]; rfl)
  rw [unlink,there]
  simp only
  by_cases last : cur = .bucket cur.file ∧ (e.next.type = .eof ∨ e.next.type = .coll)
  · rw [if_pos last]
    -- the pointer before leads on where the entry led
    have value : ∀ p : HashPtr, (if e.next.type = .eof then { p with type := .eof } else e.next : HashPtr).type ≠ .free ∧
        ∀ f, target f (if e.next.type = .eof then { p with type := .eof } else e.next) = target cur.file e.next := by
      intro p
      by_cases eof : e.next.type = .eof
      · rw [if_pos eof]
        exact ⟨by simp,fun f => by rw [target_of_eof rfl,target_of_eof eof]⟩
      · rw [if_neg eof]
        exact ⟨live,fun f => target_same (by rcases last.2 with type | type <;> simp [type])⟩
    have written : (if e.next.type = .eof then setPtr st bucketIdx (fun p => { p with type := .eof }) prev
        else setPtr st bucketIdx (fun _ => e.next) prev) =
        setPtr st bucketIdx (fun p => if e.next.type = .eof then { p with type := .eof } else e.next) prev := by
      split <;> rfl
    rw [written]
    cases file : cur.file with
    | none =>
      have root : cur = .bucket none := by rw [last.1,file]
      have start := located.first chained root
      have own : prev = cur := by
        rcases located.prev with ⟨_,same⟩ | ⟨init,same⟩
        · exact same
        · rw [start] at same
          simp at same
      subst own
      rw [parts] at chained
      have unlinked := unlinked_next sound chained there (fun p _ => ⟨(value p).1,(value p).2 _⟩) fun c same => by
        rw [same] at root
        cases root
      rw [file] at unlinked
      exact unlinked
    | some c =>
      have bucket : cur = .bucket (some c) := by rw [last.1,file]
      rcases located.prev with ⟨start,_⟩ | ⟨init,start⟩
      · -- the first place is in the root
        have whole := chained.leads
        rw [parts,start,bucket] at whole
        cases whole.1
      · rw [parts,start,List.append_assoc,file] at chained
        rw [file] at there
        have unlinked := unlinked_coll sound bucket chained there fun p _ => ⟨(value p).1,by rw [(value p).2,file]⟩
        exact unlinked
  · rw [if_neg last]
    rw [parts] at chained
    refine unlinked_next sound chained there (fun p _ => ⟨live,rfl⟩) fun c same => ?_
    have kind : ¬(e.next.type = .eof ∨ e.next.type = .coll) := fun kind => last ⟨by rw [same]; rfl,kind⟩
    cases type : e.next.type <;> simp_all

end Unlink

section Release
variable {st : Dirent} {bucketIdx b idx collIdx : Nat} {file : Option Nat} {path : List Slot}

theorem freeBit_release (st : Dirent) (file : Option Nat) (idx : Nat) (f : Option Nat) (i : Nat) :
    freeBit (releaseHashEntry file idx st) f i =
      if f = file ∧ i = idx then (freeBit st f i).map fun _ => true else freeBit st f i := by
  rw [releaseHashEntry]
  cases found : st.file file with
  | none =>
    by_cases same : f = file ∧ i = idx
    · simp only [freeBit,same.1,found,Option.map_none,ite_self]
    · exact (if_neg same).symm
  | some g =>
    simp only [freeBit,DirentRepair.file_setFile]
    by_cases here : f = file
    · subst here
      by_cases there : i = idx
      · subst there
        simp only [if_true,and_self,found,Option.map_some,releaseEntry,Bitmap.test_setBit,decide_true,Bool.true_or]
      · simp only [if_true,there,and_false,if_false,found,Option.map_some,releaseEntry,Bitmap.test_setBit,decide_false,Bool.false_or]
    · simp only [here,false_and,if_false]

/-- The bits of an array are all free when the array is released. -/
theorem test_of_array {m : Nat → BitVec 8} (all : (List.range' (idx / 64 * 8) 8).all (fun byte => m byte = 0xFF#8) = true) {i : Nat}
    (same : i / 64 = idx / 64) : test m i = true := by
  have byte := List.all_eq_true.mp all (i / 8) (List.mem_range'_1.mpr (by omega))
  exact Bitmap.test_of_byte (v := true) (of_decide_eq_true byte)

/-- An entry that stays allocated is kept. -/
theorem entry_release {f : Option Nat} {i : Nat} (busy : freeBit (releaseHashEntry file idx st) f i = some false) :
    entry (releaseHashEntry file idx st) f i = entry st f i := by
  rw [releaseHashEntry] at busy ⊢
  cases found : st.file file with
  | none => rfl
  | some g =>
    rw [found] at busy
    simp only [freeBit,DirentRepair.file_setFile] at busy
    simp only [entry,DirentRepair.file_setFile]
    by_cases here : f = file
    · subst here
      simp only [if_true,Option.map_some,Option.some.injEq] at busy
      simp only [if_true,found,Option.bind_some,releaseEntry]
      split
      · next all =>
        by_cases array : i / 64 = idx / 64
        · have free := test_of_array all array
          rw [releaseEntry] at busy
          cases busy.symm.trans free
        · exact if_neg array
      · rfl
    · simp only [here,if_false]

theorem ptr_release (st : Dirent) (file : Option Nat) (idx b : Nat) (f : Option Nat) :
    ptr (releaseHashEntry file idx st) b (.bucket f) = ptr st b (.bucket f) := by
  rw [releaseHashEntry]
  cases found : st.file file with
  | none => rfl
  | some g =>
    simp only [ptr,DirentRepair.file_setFile]
    split
    · next same => rw [same,found]; rfl
    · rfl

theorem coll_release (st : Dirent) (file : Option Nat) (idx c : Nat) : ((releaseHashEntry file idx st).coll c).isSome = (st.coll c).isSome := by
  rw [releaseHashEntry]
  cases found : st.file file with
  | none => rfl
  | some g => exact coll_setFile _ found c

theorem collBitmap_release (st : Dirent) (file : Option Nat) (idx : Nat) : (releaseHashEntry file idx st).collBitmap = st.collBitmap := by
  rw [releaseHashEntry]
  cases st.file file with
  | none => rfl
  | some g => exact collBitmap_setFile ..

/-- An entry that is in no list is released. -/
theorem Chained.release (chained : Chained st b path) (unlinked : .next file idx ∉ path) : Chained (releaseHashEntry file idx st) b path := by
  have bits : ∀ f i, .next f i ∈ path → freeBit (releaseHashEntry file idx st) f i = some false := by
    intro f i member
    rw [freeBit_release,if_neg]
    · exact (chained.owned f i member).busy
    · rintro ⟨rfl,rfl⟩
      exact unlinked member
  exact chained.frame {
    bucket f := by rw [follow,follow,ptr_release]
    kinds f p read := by
      rw [ptr_release] at read
      exact chained.kinds f p read
    allocated f i member := by
      have owned := chained.owned f i member
      refine ⟨owned.low,bits f i member,?_⟩
      rw [entry_release (bits f i member)]
      exact owned.own
    entries f i member := entry_release (bits f i member) }

theorem Sound.release (sound : Sound st) (unlinked : ∀ b path, Chained st b path → .next file idx ∉ path) :
    Sound (releaseHashEntry file idx st) where
  lists b := by
    obtain ⟨path,chained⟩ := sound.lists b
    exact ⟨path,chained.release (unlinked b path chained)⟩
  colls c := by
    rw [coll_release,collBitmap_release]
    exact sound.colls c
  low c there := sound.low c ((coll_release ..).symm.trans there)
  arrays f i j same := by
    have old := sound.arrays f i j same
    rw [releaseHashEntry]
    cases found : st.file file with
    | none => exact old
    | some g =>
      simp only [entry,DirentRepair.file_setFile] at old ⊢
      by_cases here : f = file
      · subst here
        simp only [if_true,found,Option.bind_some,releaseEntry] at old ⊢
        split
        · simp only [same]
          split
          · rfl
          · exact old
        · exact old
      · simp only [here,if_false]
        exact old

theorem checkEmpty_iff (st : Dirent) (file : Option Nat) : checkEmpty st file = true ↔
    (∀ i < entriesCount, freeBit st file i = some true) ∧ (file = none → ∀ c < maxCollsIdx, test st.collBitmap c = true) := by
  have ones : ∀ (m : Nat → BitVec 8) n, ((List.range n).all fun byte => m byte = 0xFF#8) = true ↔ ∀ i < 8 * n, test m i = true := by
    intro m n
    rw [← Bitmap.all_ones,Bitmap.firstNot_none,List.all_eq_true]
    simp only [List.mem_range,decide_eq_true_eq]
  rw [checkEmpty]
  cases found : st.file file with
  | none =>
    refine ⟨fun empty => absurd empty (by simp),fun all => ?_⟩
    have bit := all.1 0 (by decide)
    rw [freeBit,found] at bit
    cases bit
  | some f =>
    simp only [Bool.and_eq_true,Bool.or_eq_true,decide_eq_true_eq,ones,freeBit,found,Option.map_some,Option.some.injEq]
    refine and_congr Iff.rfl ⟨fun either root => either.elim (fun other => absurd root other) id,fun all => ?_⟩
    by_cases root : file = none
    · exact .inr (all root)
    · exact .inl root

/-- No list goes through a file whose entries are all free. -/
theorem Chained.unused (chained : Chained st b path) (empty : ∀ i < entriesCount, freeBit st file i = some true) (idx : Nat) :
    .next file idx ∉ path := by
  intro member
  have owned := chained.owned file idx member
  cases owned.busy.symm.trans (empty idx owned.low)

/-- A collision file without entries is removed. -/
theorem file_delCollisionPtr {f : Option Nat} (st : Dirent) (other : f ≠ some collIdx) : (delCollisionPtr collIdx st).file f = st.file f := by
  cases f with
  | none => rfl
  | some c => exact Function.update_of_ne (fun same => other (congrArg some same)) _ _

theorem file_delCollisionPtr_same (st : Dirent) : (delCollisionPtr collIdx st).file (some collIdx) = none := Function.update_self ..

theorem Chained.delCollisionPtr (chained : Chained st b path) (unlinked : ∀ i, .next (some collIdx) i ∉ path) : Chained (delCollisionPtr collIdx st) b path := by
  have out : follow st b (.bucket (some collIdx)) = none := by
    by_contra leads
    have member := chained.used collIdx leads
    obtain ⟨i,head⟩ := chained.heads collIdx member
    exact unlinked i (chained.leads.next_mem member head)
  have apart : ∀ f i, .next f i ∈ path → f ≠ some collIdx := by
    rintro f i member rfl
    exact unlinked i member
  exact chained.frame {
    bucket f := by
      by_cases own : f = some collIdx
      · subst own
        rw [out,follow,ptr,file_delCollisionPtr_same]
        rfl
      · simp only [follow,ptr,file_delCollisionPtr st own]
    kinds f p read := by
      by_cases own : f = some collIdx
      · subst own
        rw [ptr,file_delCollisionPtr_same] at read
        cases read
      · rw [ptr,file_delCollisionPtr st own] at read
        exact chained.kinds f p read
    allocated f i member := by
      have owned := chained.owned f i member
      have same := file_delCollisionPtr st (apart f i member)
      exact ⟨owned.low,by rw [freeBit,same]; exact owned.busy,by rw [entry,same]; exact owned.own⟩
    entries f i member := by rw [entry,entry,file_delCollisionPtr st (apart f i member)] }

theorem Sound.delCollisionPtr (sound : Sound st) (unlinked : ∀ b path, Chained st b path → ∀ i, .next (some collIdx) i ∉ path) :
    Sound (delCollisionPtr collIdx st) where
  lists b := by
    obtain ⟨path,chained⟩ := sound.lists b
    exact ⟨path,chained.delCollisionPtr (unlinked b path chained)⟩
  colls c := by
    simp only [Dirents.delCollisionPtr,Bitmap.test_setBit]
    by_cases own : c = collIdx
    · subst own
      simp
    · simp only [own,decide_false,Bool.false_or,Function.update_of_ne own]
      exact sound.colls c
  low c there := by
    refine sound.low c ?_
    by_cases own : c = collIdx
    · subst own
      simp [Dirents.delCollisionPtr] at there
    · simp only [Dirents.delCollisionPtr,Function.update_of_ne own] at there
      exact there
  arrays f i j same := by
    by_cases own : f = some collIdx
    · subst own
      rw [entry,entry,file_delCollisionPtr_same]
      rfl
    · simp only [entry,file_delCollisionPtr st own]
      exact sound.arrays f i j same

end Release

end Rozofs.Dirents
