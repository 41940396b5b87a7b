import Rozofs.DirentPaths

/-! The insertion of a hash entry puts it in the list of its bucket and leaves the other lists as they are. -/
namespace Rozofs.Dirents
open LinkedPath
open Function (update)
open Bitmap (test)
open DirentRepair (PtrType HashPtr HashEntry CacheEntry Dirent)

/-- A hash entry that was allocated, with its memory, and is in no list. -/
structure Fresh (st : Dirent) (file : Option Nat) (idx : Nat) : Prop where
  low : idx < entriesCount
  busy : freeBit st file idx = some false
  there : (entry st file idx).isSome = true
  unlinked : ∀ b path, Chained st b path → .next file idx ∉ path

section Prepare
variable {st : Dirent} {bucketIdx b idx : Nat} {file : Option Nat} {path : List Slot}

theorem entry_prepareEntry (st : Dirent) (bucketIdx : Nat) (file : Option Nat) (idx : Nat) (f : Option Nat) (i : Nat) :
    entry (prepareEntry st bucketIdx file idx) f i =
      if f = file ∧ i = idx then (entry st f i).map fun e => ⟨bucketIdx,{ e.next with type := .free }⟩ else entry st f i := by
  simp only [prepareEntry]
  cases found : st.file file with
  | none =>
    by_cases same : f = file ∧ i = idx
    · simp only [entry,same.1,found,Option.bind_none,Option.map_none,ite_self]
    · exact (if_neg same).symm
  | some g =>
    simp only [entry,DirentRepair.file_setFile]
    by_cases here : f = file
    · subst here
      by_cases there : i = idx
      · subst there
        simp only [if_true,and_self,found,Option.bind_some,Function.update_self]
      · simp only [if_true,there,and_false,if_false,found,Option.bind_some,Function.update_of_ne there]
    · simp only [here,false_and,if_false]

theorem ptr_prepareEntry (st : Dirent) (bucketIdx : Nat) (file : Option Nat) (idx b : Nat) (f : Option Nat) :
    ptr (prepareEntry st bucketIdx file idx) b (.bucket f) = ptr st b (.bucket f) := by
  simp only [prepareEntry]
  cases found : st.file file with
  | none => rfl
  | some g =>
    simp only [ptr,DirentRepair.file_setFile]
    split
    · next same => rw [same,found]; rfl
    · rfl

theorem freeBit_prepareEntry (st : Dirent) (bucketIdx : Nat) (file : Option Nat) (idx : Nat) (f : Option Nat) (i : Nat) :
    freeBit (prepareEntry st bucketIdx file idx) f i = freeBit st f i := by
  simp only [prepareEntry]
  cases found : st.file file with
  | none => rfl
  | some g => exact freeBit_setFile found (by rfl) f i

theorem coll_prepareEntry (st : Dirent) (bucketIdx : Nat) (file : Option Nat) (idx c : Nat) :
    ((prepareEntry st bucketIdx file idx).coll c).isSome = (st.coll c).isSome := by
  simp only [prepareEntry]
  cases found : st.file file with
  | none => rfl
  | some g => exact coll_setFile _ found c

theorem collBitmap_prepareEntry (st : Dirent) (bucketIdx : Nat) (file : Option Nat) (idx : Nat) :
    (prepareEntry st bucketIdx file idx).collBitmap = st.collBitmap := by
  simp only [prepareEntry]
  cases st.file file with
  | none => rfl
  | some g => exact collBitmap_setFile ..

theorem Chained.prepareEntry (chained : Chained st b path) (bucketIdx : Nat) (unlinked : .next file idx ∉ path) :
    Chained (prepareEntry st bucketIdx file idx) b path := by
  have entries : ∀ f i, .next f i ∈ path → entry (Dirents.prepareEntry st bucketIdx file idx) f i = entry st f i := by
    intro f i member
    rw [entry_prepareEntry]
    apply if_neg
    rintro ⟨same,same'⟩
    subst same same'
    exact unlinked member
  exact chained.frame {
    bucket f := by rw [follow,follow,ptr_prepareEntry]
    kinds f p read := by
      rw [ptr_prepareEntry] at read
      exact chained.kinds f p read
    allocated f i member := by
      have owned := chained.owned f i member
      refine ⟨owned.low,(freeBit_prepareEntry ..).trans owned.busy,?_⟩
      rw [entries f i member]
      exact owned.own
    entries := entries }

theorem Sound.prepareEntry (sound : Sound st) (bucketIdx : Nat) (fresh : Fresh st file idx) :
    Sound (prepareEntry st bucketIdx file idx) where
  lists b := by
    obtain ⟨path,chained⟩ := sound.lists b
    exact ⟨path,chained.prepareEntry bucketIdx (fresh.unlinked b path chained)⟩
  colls c := by
    rw [coll_prepareEntry,collBitmap_prepareEntry]
    exact sound.colls c
  low c there := sound.low c ((coll_prepareEntry ..).symm.trans there)
  arrays f i j same := by
    have kept : ∀ f i, (entry (Dirents.prepareEntry st bucketIdx file idx) f i).isSome = (entry st f i).isSome := by
      intro f i
      rw [entry_prepareEntry]
      split
      · exact Option.isSome_map
      · rfl
    rw [kept,kept]
    exact sound.arrays f i j same

theorem Fresh.allocated (fresh : Fresh st file idx) (bucketIdx : Nat) : Allocated (Dirents.prepareEntry st bucketIdx file idx) bucketIdx file idx := by
  refine ⟨fresh.low,(freeBit_prepareEntry ..).trans fresh.busy,?_⟩
  obtain ⟨e,there⟩ := Option.isSome_iff_exists.mp fresh.there
  rw [entry_prepareEntry,if_pos ⟨rfl,rfl⟩,there]
  rfl

end Prepare

section Links
variable {st st' : Dirent} {bucketIdx b idx collIdx : Nat} {file : Option Nat} {path pre rest : List Slot} {slot : Slot}
  {first last : HashPtr}

theorem toNat_entryIdx (low : idx < entriesCount) : (BitVec.ofNat 10 idx).toNat = idx := by
  rw [BitVec.toNat_ofNat]
  exact Nat.mod_eq_of_lt (Nat.lt_trans low (by decide))

theorem toNat_collIdx (low : collIdx < 1024) : (BitVec.ofNat 10 collIdx).toNat = collIdx := by
  rw [BitVec.toNat_ofNat]
  exact Nat.mod_eq_of_lt low

theorem Allocated.exists_ptr (allocated : Allocated st bucketIdx file idx) : ∃ p, ptr st bucketIdx (.next file idx) = some p := by
  obtain ⟨e,there,_⟩ := allocated.exists_entry
  exact ⟨e.next,by rw [ptr,there]; rfl⟩

theorem wrote_pushEntry (st : Dirent) (bucketIdx : Nat) (file : Option Nat) (idx : Nat) (first : HashPtr) :
    Wrote bucketIdx [.next file idx,.bucket file] st (pushEntry st bucketIdx file idx first) :=
  (wrote_setPtr st bucketIdx _ (by simp)).trans (wrote_setPtr _ bucketIdx _ (by simp))

theorem ptr_pushEntry (allocated : Allocated st bucketIdx file idx) (read : ptr st bucketIdx (.bucket file) = some first)
    (last : HashPtr) (slot : Slot) : ptr (pushEntry st bucketIdx file idx last) bucketIdx slot =
      if slot = .bucket file then some ⟨.here,BitVec.ofNat 10 idx⟩ else if slot = .next file idx then some last
      else ptr st bucketIdx slot := by
  obtain ⟨old,there⟩ := allocated.exists_ptr
  simp only [pushEntry,ptr_setPtr,there,read,Option.map_some,reduceCtorEq,if_false]

/-- An entry is put first in a file that the list goes through. -/
theorem Chained.push (chained : Chained st bucketIdx (pre ++ .bucket file :: rest)) (allocated : Allocated st bucketIdx file idx)
    (unlinked : .next file idx ∉ pre ++ .bucket file :: rest) (read : ptr st bucketIdx (.bucket file) = some first) :
    Chained (pushEntry st bucketIdx file idx first) bucketIdx (pre ++ .bucket file :: .next file idx :: rest) := by
  have reads := ptr_pushEntry allocated read first
  have wrote := wrote_pushEntry st bucketIdx file idx first
  have once := chained.nodup
  rw [List.nodup_middle,List.nodup_cons] at once
  have head : follow (pushEntry st bucketIdx file idx first) bucketIdx (.bucket file) = some (.next file idx) := by
    rw [follow,reads,if_pos rfl,Option.bind_some,target_here,toNat_entryIdx allocated.low]
    rfl
  have tail : follow (pushEntry st bucketIdx file idx first) bucketIdx (.next file idx) = follow st bucketIdx (.bucket file) := by
    rw [follow,reads,if_neg (by simp),if_pos rfl,follow_some read,Option.bind_some]
    rfl
  have others : ∀ s ∈ pre ++ rest, follow (pushEntry st bucketIdx file idx first) bucketIdx s = follow st bucketIdx s := by
    intro s member
    refine wrote.follow (fun written => ?_) bucketIdx
    rcases List.mem_pair.mp written with rfl | rfl
    · exact unlinked (by simp only [List.mem_append,List.mem_cons] at member ⊢; tauto)
    · exact once.1 member
  have bridge : ∀ middle, Leads (follow st bucketIdx) (follow st bucketIdx (.bucket file)) [] middle →
      Leads (follow (pushEntry st bucketIdx file idx first) bucketIdx)
        (follow (pushEntry st bucketIdx file idx first) bucketIdx (.bucket file)) [.next file idx] middle :=
    fun middle start => ⟨head,tail.trans start⟩
  refine chained.rewritten wrote ?_ (fun f i member => ?_) (fun s written p after => ?_) (fun c member => ?_) (fun c written _ => ?_)
    fun c member _ => ?_
  · exact chained.leads.replace (fun s member => others s (List.mem_append_left _ member))
      (fun s member => others s (List.mem_append_right _ member)) bridge
  · by_cases same : Slot.next f i = Slot.next file idx
    · cases same
      exact .inr ⟨by simp,allocated⟩
    · exact .inl (by simpa [same] using member)
  · rw [reads] at after
    rcases List.mem_pair.mp written with rfl | rfl
    · rw [if_neg (by simp),if_pos rfl] at after
      cases after
      exact chained.kinds file first read
    · rw [if_pos rfl] at after
      cases after
      simp
  · by_cases own : some c = file
    · subst own
      exact .inr ⟨idx,head⟩
    · exact .inl ⟨by simpa [own] using member,by simp [own]⟩
  · rcases List.mem_pair.mp written with same | same
    · cases same
    · rw [same]
      simp
  · simp only [List.mem_append,List.mem_cons] at member ⊢
    tauto

/-- The first entry of the bucket in a collision file is linked behind a place that does not lead to an entry. -/
theorem Chained.link (chained : Chained st bucketIdx (pre ++ slot :: rest)) (allocated : Allocated st bucketIdx (some collIdx) idx)
    (low : collIdx < 1024) (root : slot.file = none) (unlinked : .next (some collIdx) idx ∉ pre ++ slot :: rest)
    (empty : .bucket (some collIdx) ∉ pre ++ slot :: rest)
    (wrote : Wrote bucketIdx [.next (some collIdx) idx,.bucket (some collIdx),slot] st st')
    (bucket : ptr st' bucketIdx (.bucket (some collIdx)) = some ⟨.here,BitVec.ofNat 10 idx⟩)
    (next : ptr st' bucketIdx (.next (some collIdx) idx) = some last) (goes : target (some collIdx) last = follow st bucketIdx slot)
    (kind : last.type ≠ .free) (before : ptr st' bucketIdx slot = some ⟨.coll,BitVec.ofNat 10 collIdx⟩) :
    Chained st' bucketIdx (pre ++ slot :: .bucket (some collIdx) :: .next (some collIdx) idx :: rest) := by
  have once := chained.nodup
  rw [List.nodup_middle,List.nodup_cons] at once
  have first : follow st' bucketIdx slot = some (.bucket (some collIdx)) := by
    rw [follow_some before]
    exact (target_coll ..).trans (by rw [toNat_collIdx low])
  have head : follow st' bucketIdx (.bucket (some collIdx)) = some (.next (some collIdx) idx) := by
    rw [follow_some bucket]
    exact (target_here ..).trans (by rw [toNat_entryIdx allocated.low]; rfl)
  have tail : follow st' bucketIdx (.next (some collIdx) idx) = follow st bucketIdx slot := (follow_some next).trans goes
  have others : ∀ s ∈ pre ++ rest, follow st' bucketIdx s = follow st bucketIdx s := by
    intro s member
    have inside : s ∈ pre ++ slot :: rest := by
      simp only [List.mem_append,List.mem_cons] at member ⊢
      tauto
    refine wrote.follow (fun written => ?_) bucketIdx
    simp only [List.mem_cons,List.not_mem_nil,or_false] at written
    rcases written with rfl | rfl | rfl
    · exact unlinked inside
    · exact empty inside
    · exact once.1 member
  have bridge : ∀ middle, Leads (follow st bucketIdx) (follow st bucketIdx slot) [] middle →
      Leads (follow st' bucketIdx) (follow st' bucketIdx slot) [.bucket (some collIdx),.next (some collIdx) idx] middle :=
    fun middle start => ⟨first,head,tail.trans start⟩
  refine chained.rewritten wrote ?_ (fun f i member => ?_) (fun s written p after => ?_) (fun c member => ?_) (fun c written _ => ?_)
    fun c member _ => ?_
  · exact chained.leads.replace (fun s member => others s (List.mem_append_left _ member))
      (fun s member => others s (List.mem_append_right _ member)) bridge
  · by_cases same : Slot.next f i = Slot.next (some collIdx) idx
    · cases same
      exact .inr ⟨by simp,allocated⟩
    · refine .inl ?_
      simp only [List.mem_append,List.mem_cons,reduceCtorEq,false_or,same] at member ⊢
      tauto
  · simp only [List.mem_cons,List.not_mem_nil,or_false] at written
    rcases written with rfl | rfl | rfl
    · cases next.symm.trans after
      exact kind
    · cases bucket.symm.trans after
      simp
    · cases before.symm.trans after
      simp
  · by_cases own : c = collIdx
    · subst own
      exact .inr ⟨idx,head⟩
    · by_cases here : slot = Slot.bucket (some c)
      · rw [here] at root
        cases root
      · refine .inl ⟨?_,by simp [own,Ne.symm here]⟩
        simp only [List.mem_append,List.mem_cons,Slot.bucket.injEq,Option.some.injEq,own,reduceCtorEq,false_or] at member ⊢
        tauto
  · simp only [List.mem_cons,List.not_mem_nil,or_false] at written
    rcases written with same | same | same
    · cases same
    · cases same
      simp
    · rw [same]
      simp
  · simp only [List.mem_append,List.mem_cons] at member ⊢
    tauto

end Links

section Searches
variable {st : Dirent} {bucketIdx b idx collIdx n : Nat} {file : Option Nat} {path pre rest slots : List Slot} {slot : Slot}

/-- A collision file that the list goes through is found. -/
theorem searchForColl_spec (chained : Chained st bucketIdx (pre ++ slot :: rest)) (member : .bucket (some collIdx) ∈ rest)
    (enough : rest.length < n) : searchForColl st bucketIdx collIdx n slot = some .found := by
  induction rest generalizing pre slot n with
  | nil => cases member
  | cons next rest ih =>
    cases n with
    | zero => exact absurd enough (Nat.not_lt_zero _)
    | succ n =>
      have enough' := Nat.lt_of_succ_lt_succ enough
      have chained' : Chained st bucketIdx ((pre ++ [slot]) ++ next :: rest) := by rwa [List.append_assoc]
      cases chained.turn with
      | here read safe type found =>
        have later := ih chained' (by simpa using member) enough'
        simp only [searchForColl,read,safe,type,found,Bool.false_eq_true,if_false]
        exact later
      | @coll p f _ read safe type found =>
        simp only [searchForColl,read,safe,type,found,Bool.false_eq_true,if_false]
        by_cases same : p.idx.toNat = collIdx
        · rw [if_pos same]
        · rw [if_neg same]
          refine ih chained' ?_ enough'
          simpa [Ne.symm same] using member

/-- The loop over the root file ends at its last pointer, when it has fewer entries than turns. -/
theorem searchRootEnd_spec (chained : Chained st bucketIdx (pre ++ slot :: rest)) (root : slot.file = none)
    (there : (ptr st bucketIdx slot).isSome = true) (few : (entriesOf rest).length < n) :
    ∃ before s after last, pre ++ slot :: rest = before ++ s :: after ∧ s.file = none ∧ ptr st bucketIdx s = some last ∧
      last.type ≠ .here ∧ last.type ≠ .free ∧ searchRootEnd st bucketIdx true n slot = .found s := by
  induction rest generalizing pre slot n with
  | nil =>
    cases n with
    | zero => exact absurd few (Nat.not_lt_zero _)
    | succ n =>
      cases chained.turn with
      | missing read _ =>
        rw [read] at there
        cases there
      | @eof p read safe type =>
        rw [root] at safe
        refine ⟨pre,slot,[],p,rfl,root,read,by simp [type],by simp [type],?_⟩
        simp only [searchRootEnd,read,safe,type,Bool.and_false,Bool.false_eq_true,if_false]
  | cons next rest ih =>
    cases n with
    | zero => exact absurd few (Nat.not_lt_zero _)
    | succ n =>
      have turn := chained.turn
      have chained' : Chained st bucketIdx ((pre ++ [slot]) ++ next :: rest) := by rwa [List.append_assoc]
      cases turn with
      | @here p e _ read safe type found =>
        rw [root] at safe found chained'
        rw [entriesOf_next,List.length_cons] at few
        have again : (ptr st bucketIdx (.next none p.idx.toNat)).isSome = true := by rw [ptr,found]; rfl
        obtain ⟨before,s,after,last,parts,file,read',kind,live,found'⟩ := ih chained' rfl again (Nat.lt_of_succ_lt_succ few)
        rw [List.append_assoc] at parts
        refine ⟨before,s,after,last,by rw [root]; exact parts,file,read',kind,live,?_⟩
        simp only [searchRootEnd,read,safe,type,found,Bool.and_false,Bool.false_eq_true,if_false]
        exact found'
      | @coll p f _ read safe type found =>
        rw [root] at safe
        refine ⟨pre,slot,_,p,rfl,root,read,by simp [type],by simp [type],?_⟩
        simp only [searchRootEnd,read,safe,type,Bool.and_false,Bool.false_eq_true,if_false]

/-- Hash entries of the bucket are in no list of another bucket. -/
theorem apart_of_allocated (own : ∀ f i, .next f i ∈ slots → Allocated st bucketIdx f i) (b : Nat) (path : List Slot) (other : b ≠ bucketIdx)
    (chained : Chained st b path) (f : Option Nat) (i : Nat) (member : .next f i ∈ path) : .next f i ∉ slots := fun written =>
  other ((chained.owned f i member).toAllocated.unique (own f i written))

end Searches

/-- What the insertion of a hash entry does. -/
structure Inserted (bucketIdx : Nat) (file : Option Nat) (idx : Nat) (st st' : Dirent) : Prop where
  sound : Sound st'
  others : ∀ b path, b ≠ bucketIdx → Chained st b path → Chained st' b path
  list : ∀ path, Chained st bucketIdx path → ∃ path', Chained st' bucketIdx path' ∧ (entriesOf path').Perm ((file,idx) :: entriesOf path)
  there : ∃ e, entry st' file idx = some e
  bits : ∀ f i, freeBit st' f i = freeBit st f i
  colls : ∀ c, (st'.coll c).isSome = (st.coll c).isSome

/-- What a refused insertion does. -/
structure Refused (st st' : Dirent) : Prop where
  sound : Sound st'
  lists : ∀ b path, Chained st b path → Chained st' b path
  bits : ∀ f i, freeBit st' f i = freeBit st f i
  colls : ∀ c, (st'.coll c).isSome = (st.coll c).isSome

section Insert
variable {st st' : Dirent} {bucketIdx idx collIdx : Nat} {file : Option Nat} {path path' slots : List Slot}

/-- An insertion by writing pointers of the bucket, after the entry was prepared. -/
theorem Inserted.wrote (sound : Sound st) (fresh : Fresh st file idx) (chained : Chained st bucketIdx path)
    (wrote : Wrote bucketIdx slots (prepareEntry st bucketIdx file idx) st')
    (own : ∀ f i, .next f i ∈ slots → Allocated (prepareEntry st bucketIdx file idx) bucketIdx f i)
    (chained' : Chained st' bucketIdx path') (perm : (entriesOf path').Perm ((file,idx) :: entriesOf path)) :
    Inserted bucketIdx file idx st st' where
  sound := (sound.prepareEntry bucketIdx fresh).wrote wrote chained' (apart_of_allocated own)
  others b old other list :=
    wrote.other (list.prepareEntry bucketIdx (fresh.unlinked b old list)) other
      (apart_of_allocated own b old other (list.prepareEntry bucketIdx (fresh.unlinked b old list)))
  list old list := by
    cases chained.unique list
    exact ⟨path',chained',perm⟩
  there := by
    obtain ⟨e,there,_⟩ := (wrote.allocated (fresh.allocated bucketIdx)).exists_entry
    exact ⟨e,there⟩
  bits f i := (wrote.bits f i).trans (freeBit_prepareEntry ..)
  colls c := (wrote.colls c).trans (coll_prepareEntry ..)

theorem perm_push {pre rest : List Slot} : (entriesOf (pre ++ .next file idx :: rest)).Perm ((file,idx) :: entriesOf (pre ++ rest)) := by
  rw [entriesOf_append,entriesOf_next,entriesOf_append]
  exact List.perm_middle

/-- The insertion in a file that the list goes through. -/
theorem inserted_push (sound : Sound st) (fresh : Fresh st file idx) (chained : Chained st bucketIdx path) (member : .bucket file ∈ path)
    {first : HashPtr} (read : ptr st bucketIdx (.bucket file) = some first) :
    Inserted bucketIdx file idx st (pushEntry (prepareEntry st bucketIdx file idx) bucketIdx file idx first) := by
  obtain ⟨pre,rest,rfl⟩ := List.append_of_mem member
  have unlinked := fresh.unlinked bucketIdx _ chained
  have allocated := fresh.allocated bucketIdx
  have pushed := (chained.prepareEntry bucketIdx unlinked).push allocated unlinked ((ptr_prepareEntry ..).trans read)
  refine Inserted.wrote sound fresh chained (wrote_pushEntry ..) (fun f i written => ?_) pushed ?_
  · simp only [List.mem_cons,Slot.next.injEq,reduceCtorEq,List.not_mem_nil,or_false] at written
    obtain ⟨rfl,rfl⟩ := written
    exact allocated
  · have split : ∀ tail : List Slot, pre ++ .bucket file :: tail = (pre ++ [.bucket file]) ++ tail := fun tail => by rw [List.append_assoc]; rfl
    rw [split,split rest]
    exact perm_push

/-- The first insertion in a collision file, behind a place in the root file. -/
theorem inserted_link (sound : Sound st) (fresh : Fresh st (some collIdx) idx) (low : collIdx < 1024) {pre rest : List Slot} {slot : Slot}
    (chained : Chained st bucketIdx (pre ++ slot :: rest)) (root : slot.file = none) (empty : .bucket (some collIdx) ∉ pre ++ slot :: rest)
    (wrote : Wrote bucketIdx [.next (some collIdx) idx,.bucket (some collIdx),slot] (prepareEntry st bucketIdx (some collIdx) idx) st')
    (bucket : ptr st' bucketIdx (.bucket (some collIdx)) = some ⟨.here,BitVec.ofNat 10 idx⟩) {last : HashPtr}
    (next : ptr st' bucketIdx (.next (some collIdx) idx) = some last)
    (goes : target (some collIdx) last = follow (prepareEntry st bucketIdx (some collIdx) idx) bucketIdx slot)
    (kind : last.type ≠ .free) (before : ptr st' bucketIdx slot = some ⟨.coll,BitVec.ofNat 10 collIdx⟩) :
    Inserted bucketIdx (some collIdx) idx st st' := by
  have unlinked := fresh.unlinked bucketIdx _ chained
  have allocated := fresh.allocated bucketIdx
  have prepared := chained.prepareEntry bucketIdx unlinked
  refine Inserted.wrote sound fresh chained wrote (fun f i written => ?_)
    (prepared.link allocated low root unlinked empty wrote bucket next goes kind before) ?_
  · simp only [List.mem_cons,Slot.next.injEq,reduceCtorEq,List.not_mem_nil,or_false,false_or] at written
    rcases written with ⟨rfl,rfl⟩ | rfl
    · exact allocated
    · exact (prepared.owned f i (by simp)).toAllocated
  · have split : ∀ tail : List Slot, pre ++ slot :: tail = (pre ++ [slot]) ++ tail := fun tail => by rw [List.append_assoc]; rfl
    have split' : pre ++ slot :: .bucket (some collIdx) :: .next (some collIdx) idx :: rest =
        (pre ++ [slot,.bucket (some collIdx)]) ++ .next (some collIdx) idx :: rest := by rw [List.append_assoc]; rfl
    rw [split',split rest]
    refine perm_push.trans (List.Perm.of_eq ?_)
    simp only [entriesOf_append]
    cases slot <;> rfl

/-- An entry of a collision file that the list goes through already. -/
theorem insertHashEntry_pushed (sound : Sound st) (fresh : Fresh st (some collIdx) idx) (chained : Chained st bucketIdx path)
    (few : (entriesOf path).length < entriesCount) {first : HashPtr} (read : ptr st bucketIdx (.bucket (some collIdx)) = some first)
    (used : first.type = .here ∨ first.type = .coll) :
    ∃ st', insertHashEntry bucketIdx (some collIdx) idx st = some (st',true) ∧ Inserted bucketIdx (some collIdx) idx st st' := by
  have leads : follow st bucketIdx (.bucket (some collIdx)) ≠ none := by
    rw [follow_some read]
    rcases used with type | type
    · simp [target_of_here type]
    · simp [target_of_coll type]
  have inserted := inserted_push sound fresh chained (chained.used collIdx leads) read
  obtain ⟨path',chained',perm⟩ := inserted.list path chained
  -- the new file is found in the new list
  have member : .bucket (some collIdx) ∈ path' := by
    refine chained'.used collIdx ?_
    rw [follow,ptr_pushEntry (fresh.allocated bucketIdx) ((ptr_prepareEntry ..).trans read),if_pos rfl]
    simp
  have bound := chained'.length_le
  rw [perm.length_eq,List.length_cons] at bound
  obtain ⟨e,there⟩ := Option.isSome_iff_exists.mp fresh.there
  cases path' with
  | nil => cases member
  | cons slot rest =>
    cases chained'.leads.1
    have later : .bucket (some collIdx) ∈ rest := by simpa using member
    have enough : rest.length < places + 1 := by
      rw [List.length_cons] at bound
      rw [places,maxCollsIdx]
      rw [entriesCount] at *
      omega
    have whole : Chained _ bucketIdx ([] ++ .bucket none :: rest) := chained'
    have found := searchForColl_spec whole later enough
    refine ⟨_,?_,inserted⟩
    simp only [insertHashEntry,there,ptr_prepareEntry,read,used,if_true,found,Option.map_some]

/-- The first entry of a collision file, when the list has no entry. -/
theorem insertHashEntry_first (sound : Sound st) (fresh : Fresh st (some collIdx) idx) (low : collIdx < 1024) (chained : Chained st bucketIdx path)
    {first root : HashPtr} (read : ptr st bucketIdx (.bucket (some collIdx)) = some first) (type : first.type = .eof)
    (read' : ptr st bucketIdx (.bucket none) = some root) (type' : root.type = .eof) :
    ∃ st', insertHashEntry bucketIdx (some collIdx) idx st = some (st',true) ∧ Inserted bucketIdx (some collIdx) idx st st' := by
  have alone : path = [.bucket none] := by
    refine chained.leads.unique ⟨rfl,?_⟩
    rw [follow_some read',target_of_eof type']
    rfl
  subst alone
  obtain ⟨e,there⟩ := Option.isSome_iff_exists.mp fresh.there
  have allocated := fresh.allocated bucketIdx
  obtain ⟨old,next⟩ := allocated.exists_ptr
  have reads : ∀ f, ptr (prepareEntry st bucketIdx (some collIdx) idx) bucketIdx (.bucket f) = ptr st bucketIdx (.bucket f) :=
    fun f => ptr_prepareEntry ..
  have wrote : Wrote bucketIdx [.next (some collIdx) idx,.bucket (some collIdx),.bucket none] (prepareEntry st bucketIdx (some collIdx) idx)
      (setPtr (setPtr (setPtr (prepareEntry st bucketIdx (some collIdx) idx) bucketIdx (fun next => { next with type := .eof })
        (.next (some collIdx) idx)) bucketIdx (fun _ => ⟨.here,BitVec.ofNat 10 idx⟩) (.bucket (some collIdx))) bucketIdx
        (fun _ => ⟨.coll,BitVec.ofNat 10 collIdx⟩) (.bucket none)) :=
    ((wrote_setPtr _ _ _ (by simp)).trans (wrote_setPtr _ _ _ (by simp))).trans (wrote_setPtr _ _ _ (by simp))
  refine ⟨_,?_,@inserted_link st _ bucketIdx idx collIdx sound fresh low [] [] (.bucket none) chained rfl (by simp) wrote ?_
    { old with type := .eof } ?_ ?_ (by simp) ?_⟩
  · simp [insertHashEntry,there,reads,read,type,read',type']
  · simp only [ptr_setPtr,reads,read,reduceCtorEq,if_false,if_true,Slot.bucket.injEq,Option.map_some]
  · simp only [ptr_setPtr,next,reduceCtorEq,if_false,if_true,Option.map_some]
  · rw [target_of_eof rfl,follow,reads,read',Option.bind_some,target_of_eof type']
  · simp only [ptr_setPtr,reads,read',reduceCtorEq,if_false,if_true,Slot.bucket.injEq,Option.map_some]

/-- The first entry of a collision file, behind the entries of the root file. -/
theorem insertHashEntry_behind (sound : Sound st) (fresh : Fresh st (some collIdx) idx) (low : collIdx < 1024) (chained : Chained st bucketIdx path)
    (few : (entriesOf path).length < entriesCount) {first root : HashPtr} (read : ptr st bucketIdx (.bucket (some collIdx)) = some first)
    (type : first.type = .eof) (read' : ptr st bucketIdx (.bucket none) = some root) (type' : root.type ≠ .eof) :
    ∃ st', insertHashEntry bucketIdx (some collIdx) idx st = some (st',true) ∧ Inserted bucketIdx (some collIdx) idx st st' := by
  have unlinked := fresh.unlinked bucketIdx path chained
  have allocated := fresh.allocated bucketIdx
  have prepared := chained.prepareEntry bucketIdx unlinked
  obtain ⟨e,there⟩ := Option.isSome_iff_exists.mp fresh.there
  have reads : ∀ f, ptr (prepareEntry st bucketIdx (some collIdx) idx) bucketIdx (.bucket f) = ptr st bucketIdx (.bucket f) :=
    fun f => ptr_prepareEntry ..
  -- the list does not go through the file
  have empty : .bucket (some collIdx) ∉ path := by
    intro member
    obtain ⟨i,head⟩ := chained.heads collIdx member
    rw [follow_some read,target_of_eof type] at head
    cases head
  cases path with
  | nil => cases chained.leads
  | cons slot rest =>
    cases chained.leads.1
    have whole : Chained (prepareEntry st bucketIdx (some collIdx) idx) bucketIdx ([] ++ .bucket none :: rest) := prepared
    obtain ⟨before,s,after,last,parts,root,readLast,kind,live,found⟩ := searchRootEnd_spec whole rfl
      (by rw [reads,read',Option.isSome_some]) few
    rw [List.nil_append] at parts
    rw [parts] at chained empty unlinked
    have other : s ≠ .bucket (some collIdx) := fun same => by
      rw [same] at root
      cases root
    have other' : s ≠ .next (some collIdx) idx := fun same => by
      rw [same] at root
      cases root
    have wrote : Wrote bucketIdx [.next (some collIdx) idx,.bucket (some collIdx),s] (prepareEntry st bucketIdx (some collIdx) idx)
        (setPtr (pushEntry (prepareEntry st bucketIdx (some collIdx) idx) bucketIdx (some collIdx) idx last) bucketIdx
          (fun _ => ⟨.coll,BitVec.ofNat 10 collIdx⟩) s) :=
      ((wrote_setPtr _ _ _ (by simp)).trans (wrote_setPtr _ _ _ (by simp))).trans (wrote_setPtr _ _ _ (by simp))
    have pushed := ptr_pushEntry allocated ((reads _).trans read) last
    refine ⟨_,?_,@inserted_link st _ bucketIdx idx collIdx sound fresh low _ _ _ chained root empty wrote ?_ last ?_ ?_ live ?_⟩
    · simp [insertHashEntry,there,reads,read,type,read',type',found,linkColl,readLast]
    · rw [ptr_setPtr,if_neg other.symm,pushed,if_pos rfl]
    · rw [ptr_setPtr,if_neg other'.symm,pushed,if_neg (by simp),if_pos rfl]
    · rw [follow_some readLast,root]
      exact target_same kind
    · rw [ptr_setPtr,if_pos rfl,pushed,if_neg other,if_neg other',readLast]
      rfl

/-- The insertion of an entry puts it in the list of its bucket. It is refused only for a collision file, when
the root file has no memory for the bucket, and then no list has changed. -/
theorem insertHashEntry_spec (sound : Sound st) (fresh : Fresh st file idx) (there : ∀ c, file = some c → (st.coll c).isSome = true)
    (memory : (ptr st bucketIdx (.bucket file)).isSome = true) (few : ∀ path, Chained st bucketIdx path → (entriesOf path).length < entriesCount) :
    (∃ st', insertHashEntry bucketIdx file idx st = some (st',true) ∧ Inserted bucketIdx file idx st st') ∨
    ∃ st', insertHashEntry bucketIdx file idx st = some (st',false) ∧ Refused st st' ∧ file ≠ none ∧ ptr st bucketIdx (.bucket none) = none := by
  obtain ⟨path,chained⟩ := sound.lists bucketIdx
  obtain ⟨first,read⟩ := Option.isSome_iff_exists.mp memory
  obtain ⟨e,found⟩ := Option.isSome_iff_exists.mp fresh.there
  cases file with
  | none =>
    refine .inl ⟨_,?_,inserted_push sound fresh chained chained.root_mem read⟩
    simp only [insertHashEntry,found,ptr_prepareEntry,read]
  | some c =>
    have low := sound.low c (there c rfl)
    by_cases used : first.type = .here ∨ first.type = .coll
    · exact .inl (insertHashEntry_pushed sound fresh chained (few path chained) read used)
    · have type : first.type = .eof := by
        have kind := chained.kinds _ _ read
        cases same : first.type <;> simp_all
      cases read' : ptr st bucketIdx (.bucket none) with
      | none =>
        refine .inr ⟨prepareEntry st bucketIdx (some c) idx,?_,?_,by simp,rfl⟩
        · simp [insertHashEntry,found,ptr_prepareEntry,read,read',type]
        · exact ⟨sound.prepareEntry bucketIdx fresh,fun b path list => list.prepareEntry bucketIdx (fresh.unlinked b path list),
            freeBit_prepareEntry st bucketIdx (some c) idx,coll_prepareEntry st bucketIdx (some c) idx⟩
      | some root =>
        by_cases type' : root.type = .eof
        · exact .inl (insertHashEntry_first sound fresh low chained read type read' type')
        · exact .inl (insertHashEntry_behind sound fresh low chained (few path chained) read type read' type')

end Insert

end Rozofs.Dirents
