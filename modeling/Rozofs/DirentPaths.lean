import Rozofs.LinkedPath
import Rozofs.DirentFiles

/-! The lists of the buckets in a root file and its collision files: what is read after a pointer is written,
and what a list rests on. -/
namespace Rozofs.Dirents
open LinkedPath
open Bitmap (test)
open DirentRepair (PtrType HashPtr HashEntry CacheEntry Dirent)

/-- The place that a pointer in a file leads to. -/
def target (file : Option Nat) (p : HashPtr) : Option Slot :=
  match p.type with
  | .here => some (.next file p.idx.toNat)
  | .coll => some (.bucket (some p.idx.toNat))
  | _ => none

def follow (st : Dirent) (bucketIdx : Nat) (slot : Slot) : Option Slot := (ptr st bucketIdx slot).bind (target slot.file)

/-- The bit of a hash entry: free is true. -/
def freeBit (st : Dirent) (file : Option Nat) (idx : Nat) : Option Bool := (st.file file).map fun f => test f.hashBitmap idx

/-- An allocated hash entry of the bucket. -/
structure Allocated (st : Dirent) (bucketIdx : Nat) (file : Option Nat) (idx : Nat) : Prop where
  low : idx < entriesCount
  busy : freeBit st file idx = some false
  own : (entry st file idx).map HashEntry.bucketIdx = some bucketIdx

/-- An allocated hash entry whose pointer is not free. -/
structure Owned (st : Dirent) (bucketIdx : Nat) (file : Option Nat) (idx : Nat) : Prop extends Allocated st bucketIdx file idx where
  kind : ∀ p, ptr st bucketIdx (.next file idx) = some p → p.type ≠ .free

/-- The list of a bucket: its entries belong to the bucket, and it goes through the collision files where
the bucket is not empty. -/
structure Chained (st : Dirent) (bucketIdx : Nat) (path : List Slot) : Prop where
  leads : Leads (follow st bucketIdx) (some (.bucket none)) path none
  owned : ∀ file idx, .next file idx ∈ path → Owned st bucketIdx file idx
  heads : ∀ collIdx, .bucket (some collIdx) ∈ path → ∃ idx, follow st bucketIdx (.bucket (some collIdx)) = some (.next (some collIdx) idx)
  used : ∀ collIdx, follow st bucketIdx (.bucket (some collIdx)) ≠ none → .bucket (some collIdx) ∈ path
  kinds : ∀ file p, ptr st bucketIdx (.bucket file) = some p → p.type ≠ .free

/-- Root files whose buckets all have a list. A collision file is there when its bit is cleared, and its index
fits in a pointer. The hash entries are in memory by arrays of 64. -/
structure Sound (st : Dirent) : Prop where
  lists : ∀ bucketIdx, ∃ path, Chained st bucketIdx path
  colls : ∀ collIdx, (st.coll collIdx).isSome = !test st.collBitmap collIdx
  low : ∀ collIdx, (st.coll collIdx).isSome = true → collIdx < 1024
  arrays : ∀ file i j, i / 64 = j / 64 → (entry st file i).isSome = (entry st file j).isSome

def Slot.place : Slot → Option (Option Nat × Nat)
  | .bucket _ => none
  | .next file idx => some (file,idx)

/-- The hash entries of a list. -/
def entriesOf (path : List Slot) : List (Option Nat × Nat) := path.filterMap Slot.place

section Reads
variable {st st' : Dirent} {bucketIdx b idx i : Nat} {file f : Option Nat} {value : HashPtr → HashPtr} {slot slot' : Slot} {p : HashPtr}

@[simp] theorem target_here (file : Option Nat) (idx : BitVec 10) : target file ⟨.here,idx⟩ = some (.next file idx.toNat) := rfl

@[simp] theorem target_coll (file : Option Nat) (idx : BitVec 10) : target file ⟨.coll,idx⟩ = some (.bucket (some idx.toNat)) := rfl

@[simp] theorem target_eof (file : Option Nat) (idx : BitVec 10) : target file ⟨.eof,idx⟩ = none := rfl

theorem target_of_here (type : p.type = .here) : target file p = some (.next file p.idx.toNat) := by
  simp only [target,type]

theorem target_of_coll (type : p.type = .coll) : target file p = some (.bucket (some p.idx.toNat)) := by
  simp only [target,type]

theorem target_of_eof (type : p.type = .eof) : target file p = none := by
  simp only [target,type]

/-- A pointer that does not lead to an entry is read alike in all the files. -/
theorem target_same (type : p.type ≠ .here) : target file p = target f p := by
  obtain ⟨t,idx⟩ := p
  cases t with
  | here => exact absurd rfl type
  | eof => rfl
  | coll => rfl
  | free => rfl

theorem follow_some (read : ptr st bucketIdx slot = some p) : follow st bucketIdx slot = target slot.file p := by
  rw [follow,read,Option.bind_some]

theorem mem_entriesOf {path : List Slot} : (file,idx) ∈ entriesOf path ↔ .next file idx ∈ path := by
  simp only [entriesOf,List.mem_filterMap]
  constructor
  · rintro ⟨slot,member,place⟩
    cases slot with
    | bucket _ => cases place
    | next _ _ =>
      cases place
      exact member
  · exact fun member => ⟨_,member,rfl⟩

theorem entriesOf_append (before after : List Slot) : entriesOf (before ++ after) = entriesOf before ++ entriesOf after :=
  List.filterMap_append ..

@[simp] theorem entriesOf_bucket (file : Option Nat) (path : List Slot) : entriesOf (.bucket file :: path) = entriesOf path := rfl

@[simp] theorem entriesOf_next (file : Option Nat) (idx : Nat) (path : List Slot) :
    entriesOf (.next file idx :: path) = (file,idx) :: entriesOf path := rfl

/-! What is read after a pointer was written. -/

theorem entry_setPtr (st : Dirent) (bucketIdx : Nat) (value : HashPtr → HashPtr) (slot : Slot) (f : Option Nat) (i : Nat) :
    entry (setPtr st bucketIdx value slot) f i =
      if slot = .next f i then (entry st f i).map fun e => { e with next := value e.next } else entry st f i := by
  cases slot with
  | bucket file =>
    simp only [setPtr,reduceCtorEq,if_false]
    cases found : st.file file with
    | none => rfl
    | some g =>
      cases read : g.hashTbl bucketIdx with
      | none => simp only [read]
      | some p =>
        simp only [read,entry,DirentRepair.file_setFile]
        split
        · next same => rw [same,found]; rfl
        · rfl
  | next file idx =>
    simp only [setPtr]
    cases found : st.file file with
    | none =>
      simp only [Slot.next.injEq]
      split
      · next same => simp only [entry,← same.1,found,Option.bind_none,Option.map_none]
      · rfl
    | some g =>
      simp only [entry,DirentRepair.file_setFile,Slot.next.injEq]
      by_cases here : f = file
      · subst here
        by_cases there : idx = i
        · subst there
          simp only [if_true,and_self,found,Option.bind_some,CacheEntry.setNext,Function.update_self]
        · simp only [if_true,there,and_false,if_false,found,Option.bind_some,DirentRepair.setNext_other value (Ne.symm there)]
      · simp only [here,Ne.symm here,false_and,if_false]

theorem ptr_setPtr_bucket (st : Dirent) (bucketIdx : Nat) (value : HashPtr → HashPtr) (slot : Slot) (b : Nat) (f : Option Nat) :
    ptr (setPtr st bucketIdx value slot) b (.bucket f) =
      if slot = .bucket f ∧ b = bucketIdx then (ptr st b (.bucket f)).map value else ptr st b (.bucket f) := by
  cases slot with
  | next file idx =>
    simp only [setPtr,reduceCtorEq,false_and,if_false]
    cases found : st.file file with
    | none => rfl
    | some g =>
      simp only [ptr,DirentRepair.file_setFile]
      split
      · next same => rw [same,found]; rfl
      · rfl
  | bucket file =>
    simp only [setPtr,Slot.bucket.injEq]
    cases found : st.file file with
    | none =>
      simp only [ptr]
      split
      · next same => rw [← same.1,found]; rfl
      · rfl
    | some g =>
      cases read : g.hashTbl bucketIdx with
      | none =>
        simp only [read,ptr]
        split
        · next same => rw [← same.1,found,Option.bind_some,same.2,read]; rfl
        · rfl
      | some p =>
        simp only [read,ptr,DirentRepair.file_setFile]
        by_cases here : f = file
        · subst here
          simp only [if_true,found,Option.bind_some,true_and]
          by_cases own : b = bucketIdx
          · subst own
            rw [if_pos rfl,DirentRepair.setBucket_same,read,Option.map_some]
          · rw [if_neg own,DirentRepair.setBucket_other _ own]
            split
            · next array =>
              -- the array is there, since the bucket is
              have there : ∃ q, g.hashTbl b = some q := by
                simp only [CacheEntry.hashTbl,Option.map_eq_some_iff] at read ⊢
                obtain ⟨slots,kept,_⟩ := read
                exact ⟨_,slots,array ▸ kept,rfl⟩
              obtain ⟨q,there⟩ := there
              rw [there,Option.getD_some]
            · rfl
        · simp only [here,Ne.symm here,false_and,if_false]

theorem ptr_setPtr (st : Dirent) (bucketIdx : Nat) (value : HashPtr → HashPtr) (slot slot' : Slot) :
    ptr (setPtr st bucketIdx value slot) bucketIdx slot' =
      if slot' = slot then (ptr st bucketIdx slot).map value else ptr st bucketIdx slot' := by
  cases slot' with
  | bucket f =>
    rw [ptr_setPtr_bucket]
    simp only [and_true]
    by_cases same : slot = .bucket f
    · subst same
      simp only [if_true]
    · simp only [same,Ne.symm same,if_false]
  | next f i =>
    simp only [ptr,entry_setPtr]
    by_cases same : slot = .next f i
    · subst same
      simp only [if_true,Option.map_map]
      rfl
    · simp only [same,Ne.symm same,if_false]

theorem freeBit_setFile {g : CacheEntry} {h : CacheEntry} (found : st.file file = some g) (bitmap : h.hashBitmap = g.hashBitmap)
    (f : Option Nat) (i : Nat) : freeBit (st.setFile h file) f i = freeBit st f i := by
  simp only [freeBit,DirentRepair.file_setFile]
  split
  · next same => rw [same,found,Option.map_some,Option.map_some,bitmap]
  · rfl

theorem coll_setFile {g : CacheEntry} (h : CacheEntry) (found : st.file file = some g) (c : Nat) :
    ((st.setFile h file).coll c).isSome = (st.coll c).isSome := by
  have same := DirentRepair.file_setFile st h file (some c)
  simp only [Dirent.file] at same
  rw [same]
  split
  · next own =>
    subst own
    have there : st.coll c = some g := found
    rw [there,Option.isSome_some,Option.isSome_some]
  · rfl

theorem collBitmap_setFile (st : Dirent) (h : CacheEntry) (file : Option Nat) : (st.setFile h file).collBitmap = st.collBitmap := by
  cases file <;> rfl

end Reads

/-- Only pointers of the bucket were written, and those of the places in the set. -/
structure Wrote (bucketIdx : Nat) (slots : List Slot) (st st' : Dirent) : Prop where
  buckets : ∀ b f, b ≠ bucketIdx ∨ .bucket f ∉ slots → ptr st' b (.bucket f) = ptr st b (.bucket f)
  entries : ∀ f i, .next f i ∉ slots → entry st' f i = entry st f i
  own : ∀ f i, (entry st' f i).map HashEntry.bucketIdx = (entry st f i).map HashEntry.bucketIdx
  bits : ∀ f i, freeBit st' f i = freeBit st f i
  collBitmap : st'.collBitmap = st.collBitmap
  colls : ∀ c, (st'.coll c).isSome = (st.coll c).isSome

section Writes
variable {st st' st'' : Dirent} {bucketIdx b idx i : Nat} {file f : Option Nat} {value : HashPtr → HashPtr} {slot : Slot}
  {slots slots' path : List Slot}

theorem Wrote.refl : Wrote bucketIdx slots st st :=
  ⟨fun _ _ _ => rfl,fun _ _ _ => rfl,fun _ _ => rfl,fun _ _ => rfl,rfl,fun _ => rfl⟩

theorem Wrote.trans (first : Wrote bucketIdx slots st st') (second : Wrote bucketIdx slots st' st'') : Wrote bucketIdx slots st st'' where
  buckets b f other := (second.buckets b f other).trans (first.buckets b f other)
  entries f i other := (second.entries f i other).trans (first.entries f i other)
  own f i := (second.own f i).trans (first.own f i)
  bits f i := (second.bits f i).trans (first.bits f i)
  collBitmap := second.collBitmap.trans first.collBitmap
  colls c := (second.colls c).trans (first.colls c)

/-- At most the file of the pointer is changed, and not its bitmap. -/
theorem setPtr_cases (st : Dirent) (bucketIdx : Nat) (value : HashPtr → HashPtr) (slot : Slot) :
    setPtr st bucketIdx value slot = st ∨ ∃ g h, st.file slot.file = some g ∧ h.hashBitmap = g.hashBitmap ∧
      setPtr st bucketIdx value slot = st.setFile h slot.file := by
  cases slot with
  | bucket file =>
    simp only [setPtr,Slot.file]
    cases found : st.file file with
    | none => exact .inl rfl
    | some g =>
      cases read : g.hashTbl bucketIdx with
      | none =>
        simp only [read]
        exact .inl trivial
      | some p =>
        simp only [read]
        exact .inr ⟨g,g.setBucket bucketIdx (value p),rfl,rfl,rfl⟩
  | next file idx =>
    simp only [setPtr,Slot.file]
    cases found : st.file file with
    | none => exact .inl rfl
    | some g => exact .inr ⟨g,g.setNext idx value,rfl,rfl,rfl⟩

theorem wrote_setPtr (st : Dirent) (bucketIdx : Nat) (value : HashPtr → HashPtr) (member : slot ∈ slots) :
    Wrote bucketIdx slots st (setPtr st bucketIdx value slot) where
  buckets b f other := by
    rw [ptr_setPtr_bucket]
    apply if_neg
    rintro ⟨same,own⟩
    subst same
    exact other.elim (fun foreign => foreign own) fun absent => absent member
  entries f i other := by
    rw [entry_setPtr]
    refine if_neg fun same => ?_
    subst same
    exact other member
  own f i := by
    rw [entry_setPtr]
    split
    · rw [Option.map_map]
      rfl
    · rfl
  bits f i := by
    rcases setPtr_cases st bucketIdx value slot with same | ⟨g,h,found,bitmap,same⟩
    · rw [same]
    · rw [same,freeBit_setFile found bitmap]
  collBitmap := by
    rcases setPtr_cases st bucketIdx value slot with same | ⟨g,h,_,_,same⟩
    · rw [same]
    · rw [same,collBitmap_setFile]
  colls c := by
    rcases setPtr_cases st bucketIdx value slot with same | ⟨g,h,found,_,same⟩
    · rw [same]
    · rw [same,coll_setFile h found]

theorem Wrote.isSome (wrote : Wrote bucketIdx slots st st') (f : Option Nat) (i : Nat) :
    (entry st' f i).isSome = (entry st f i).isSome := by
  have own := congrArg Option.isSome (wrote.own f i)
  rwa [Option.isSome_map,Option.isSome_map] at own

/-- A place that was not written is read as before. -/
theorem Wrote.ptr (wrote : Wrote bucketIdx slots st st') (other : slot ∉ slots) (b : Nat) : ptr st' b slot = ptr st b slot := by
  cases slot with
  | bucket f => exact wrote.buckets b f (.inr other)
  | next f i => exact congrArg (Option.map HashEntry.next) (wrote.entries f i other)

theorem Wrote.follow (wrote : Wrote bucketIdx slots st st') (other : slot ∉ slots) (b : Nat) : follow st' b slot = follow st b slot := by
  rw [Dirents.follow,Dirents.follow,wrote.ptr other]

theorem Wrote.allocated (wrote : Wrote bucketIdx slots st st') (allocated : Allocated st b f i) : Allocated st' b f i :=
  ⟨allocated.low,(wrote.bits f i).trans allocated.busy,(wrote.own f i).trans allocated.own⟩

theorem Allocated.exists_entry (allocated : Allocated st b f i) : ∃ e, entry st f i = some e ∧ e.bucketIdx = b :=
  Option.map_eq_some_iff.mp allocated.own

/-- An entry belongs to one bucket. -/
theorem Allocated.unique {b' : Nat} (allocated : Allocated st b f i) (other : Allocated st b' f i) : b = b' :=
  Option.some.inj (allocated.own.symm.trans other.own)

/-- What a list needs of a state where its places were not written. -/
structure Frame (bucketIdx : Nat) (path : List Slot) (st st' : Dirent) : Prop where
  bucket : ∀ f, Dirents.follow st' bucketIdx (.bucket f) = Dirents.follow st bucketIdx (.bucket f)
  kinds : ∀ f p, Dirents.ptr st' bucketIdx (.bucket f) = some p → p.type ≠ .free
  allocated : ∀ f i, .next f i ∈ path → Allocated st' bucketIdx f i
  entries : ∀ f i, .next f i ∈ path → entry st' f i = entry st f i

theorem Chained.frame (chained : Chained st bucketIdx path) (frame : Frame bucketIdx path st st') : Chained st' bucketIdx path where
  leads := by
    refine chained.leads.congr fun slot member => ?_
    cases slot with
    | bucket f => exact frame.bucket f
    | next f i => rw [Dirents.follow,Dirents.follow,Dirents.ptr,Dirents.ptr,frame.entries f i member]
  owned f i member := by
    refine ⟨frame.allocated f i member,fun p read => (chained.owned f i member).kind p ?_⟩
    rwa [Dirents.ptr,frame.entries f i member] at read
  heads c member := by
    rw [frame.bucket]
    exact chained.heads c member
  used c nonempty := by
    rw [frame.bucket] at nonempty
    exact chained.used c nonempty
  kinds := frame.kinds

/-- The lists of the other buckets are kept. -/
theorem Wrote.other (wrote : Wrote bucketIdx slots st st') (chained : Chained st b path) (other : b ≠ bucketIdx)
    (apart : ∀ f i, .next f i ∈ path → .next f i ∉ slots) : Chained st' b path :=
  chained.frame {
    bucket f := by rw [Dirents.follow,Dirents.follow,wrote.buckets b f (.inl other)]
    kinds f p read := by
      rw [wrote.buckets b f (.inl other)] at read
      exact chained.kinds f p read
    allocated f i member := wrote.allocated (chained.owned f i member).toAllocated
    entries f i member := wrote.entries f i (apart f i member) }

/-- The list of the bucket after some of its pointers were written. -/
theorem Chained.rewritten {path' : List Slot} (chained : Chained st bucketIdx path) (wrote : Wrote bucketIdx slots st st')
    (leads : Leads (Dirents.follow st' bucketIdx) (some (.bucket none)) path' none)
    (entries : ∀ f i, .next f i ∈ path' → .next f i ∈ path ∨ .next f i ∈ slots ∧ Allocated st bucketIdx f i)
    (kinds : ∀ slot ∈ slots, ∀ p, Dirents.ptr st' bucketIdx slot = some p → p.type ≠ .free)
    (heads : ∀ c, .bucket (some c) ∈ path' → .bucket (some c) ∈ path ∧ .bucket (some c) ∉ slots ∨
      ∃ i, Dirents.follow st' bucketIdx (.bucket (some c)) = some (.next (some c) i))
    (used : ∀ c, .bucket (some c) ∈ slots → Dirents.follow st' bucketIdx (.bucket (some c)) ≠ none → .bucket (some c) ∈ path')
    (kept : ∀ c, .bucket (some c) ∈ path → .bucket (some c) ∉ slots → .bucket (some c) ∈ path') : Chained st' bucketIdx path' where
  leads := leads
  owned f i member := by
    refine ⟨wrote.allocated ((entries f i member).elim (fun old => (chained.owned f i old).toAllocated) And.right),fun p read => ?_⟩
    by_cases written : .next f i ∈ slots
    · exact kinds _ written p read
    · rw [wrote.ptr written] at read
      refine (chained.owned f i ?_).kind p read
      exact (entries f i member).elim id fun new => absurd new.1 written
  heads c member := by
    rcases heads c member with ⟨old,written⟩ | head
    · rw [wrote.follow written]
      exact chained.heads c old
    · exact head
  used c nonempty := by
    by_cases written : .bucket (some c) ∈ slots
    · exact used c written nonempty
    · rw [wrote.follow written] at nonempty
      exact kept c (chained.used c nonempty) written
  kinds f p read := by
    by_cases written : .bucket f ∈ slots
    · exact kinds _ written p read
    · rw [wrote.ptr written] at read
      exact chained.kinds f p read

/-- What the lists of all the buckets rest on is kept, when the places that were written are not in another
list. -/
theorem Sound.wrote {path' : List Slot} (sound : Sound st) (wrote : Wrote bucketIdx slots st st') (chained : Chained st' bucketIdx path')
    (apart : ∀ b path, b ≠ bucketIdx → Chained st b path → ∀ f i, .next f i ∈ path → .next f i ∉ slots) : Sound st' where
  lists b := by
    by_cases own : b = bucketIdx
    · subst own
      exact ⟨path',chained⟩
    · obtain ⟨path,list⟩ := sound.lists b
      exact ⟨path,wrote.other list own (apart b path own list)⟩
  colls c := by
    rw [wrote.colls,wrote.collBitmap]
    exact sound.colls c
  low c there := sound.low c ((wrote.colls c).symm.trans there)
  arrays f i j same := by
    rw [wrote.isSome,wrote.isSome]
    exact sound.arrays f i j same

end Writes

section Lists
variable {st : Dirent} {bucketIdx : Nat} {path path' : List Slot}

theorem Chained.unique (chained : Chained st bucketIdx path) (other : Chained st bucketIdx path') : path = path' :=
  chained.leads.unique other.leads

theorem Chained.nodup (chained : Chained st bucketIdx path) : path.Nodup := chained.leads.nodup

theorem Chained.nodup_entriesOf (chained : Chained st bucketIdx path) : (entriesOf path).Nodup := by
  refine chained.nodup.filterMap fun slot slot' place one other => ?_
  cases slot with
  | bucket _ => cases one
  | next f i =>
    cases slot' with
    | bucket _ => cases other
    | next f' i' =>
      cases one
      cases other
      rfl

theorem Chained.root_mem (chained : Chained st bucketIdx path) : .bucket none ∈ path := by
  cases path with
  | nil => cases chained.leads
  | cons slot rest =>
    cases chained.leads.1
    exact List.mem_cons_self

/-- Each collision file that a list goes through has an entry of it. -/
theorem length_le_of_leads {start : Option Slot} (leads : Leads (follow st bucketIdx) start path none)
    (heads : ∀ collIdx, .bucket (some collIdx) ∈ path → ∃ idx, follow st bucketIdx (.bucket (some collIdx)) = some (.next (some collIdx) idx))
    (root : .bucket none ∉ path) : path.length ≤ 2 * (entriesOf path).length ∧
      ((∀ file, start ≠ some (.bucket file)) → path = [] ∨ path.length + 1 ≤ 2 * (entriesOf path).length) := by
  induction path generalizing start with
  | nil => exact ⟨Nat.zero_le _,fun _ => .inl rfl⟩
  | cons slot rest ih =>
    obtain ⟨first,leads⟩ := leads
    have tail := ih leads (fun c member => heads c (List.mem_cons_of_mem slot member)) fun member => root (List.mem_cons_of_mem slot member)
    cases slot with
    | next f i =>
      rw [entriesOf_next,List.length_cons,List.length_cons]
      exact ⟨by omega,fun _ => .inr (by omega)⟩
    | bucket f =>
      cases f with
      | none => exact absurd List.mem_cons_self root
      | some c =>
        obtain ⟨i,head⟩ := heads c List.mem_cons_self
        rw [entriesOf_bucket,List.length_cons]
        rcases tail.2 fun f => by simp [head] with empty | more
        · rw [head,empty] at leads
          cases leads
        · exact ⟨by omega,fun other => absurd first (other _)⟩

theorem Chained.length_le (chained : Chained st bucketIdx path) : path.length ≤ 2 * (entriesOf path).length + 1 := by
  cases path with
  | nil => exact Nat.zero_le _
  | cons slot rest =>
    obtain ⟨first,leads⟩ := chained.leads
    cases first
    have once := (List.nodup_cons.mp chained.nodup).1
    have bound := (length_le_of_leads leads (fun c member => chained.heads c (List.mem_cons_of_mem _ member)) once).1
    rw [entriesOf_bucket,List.length_cons]
    omega

/-- The pointer at a place of a list, by the places that are after it: it needs no repair, and there is memory
for what it leads to. -/
inductive Turn (st : Dirent) (bucketIdx : Nat) (slot : Slot) : List Slot → Prop
  | missing (read : ptr st bucketIdx slot = none) (bucket : slot = .bucket slot.file) : Turn st bucketIdx slot []
  | eof (read : ptr st bucketIdx slot = some p) (safe : checkRepairNeeded st bucketIdx slot.file p = false) (type : p.type = .eof) :
      Turn st bucketIdx slot []
  | here (read : ptr st bucketIdx slot = some p) (safe : checkRepairNeeded st bucketIdx slot.file p = false) (type : p.type = .here)
      (found : entry st slot.file p.idx.toNat = some e) : Turn st bucketIdx slot (.next slot.file p.idx.toNat :: rest)
  | coll (read : ptr st bucketIdx slot = some p) (safe : checkRepairNeeded st bucketIdx slot.file p = false) (type : p.type = .coll)
      (found : st.coll p.idx.toNat = some f) : Turn st bucketIdx slot (.bucket (some p.idx.toNat) :: rest)

/-- A collision file with a bucket that leads on is in memory. -/
theorem exists_coll {collIdx : Nat} {slot : Slot} (leads : follow st bucketIdx (.bucket (some collIdx)) = some slot) :
    ∃ f, st.coll collIdx = some f := by
  obtain ⟨p,read,_⟩ := Option.bind_eq_some_iff.mp leads
  obtain ⟨f,found,_⟩ := Option.bind_eq_some_iff.mp read
  exact ⟨f,found⟩

theorem Allocated.safe {idx : Nat} {file : Option Nat} {p : HashPtr} (allocated : Allocated st bucketIdx file idx) (type : p.type = .here)
    (same : p.idx.toNat = idx) : checkRepairNeeded st bucketIdx file p = false := by
  obtain ⟨f,found,bit⟩ := Option.map_eq_some_iff.mp allocated.busy
  obtain ⟨e,there,own⟩ := allocated.exists_entry
  rw [entry,found,Option.bind_some] at there
  simp only [checkRepairNeeded,type,found,same,bit,there,own,Bool.false_or,ne_eq,not_true_eq_false,decide_false]

theorem Chained.turn {pre rest : List Slot} {slot : Slot} (chained : Chained st bucketIdx (pre ++ slot :: rest)) :
    Turn st bucketIdx slot rest := by
  have after := chained.leads.after
  have member : slot ∈ pre ++ slot :: rest := by simp
  cases read : ptr st bucketIdx slot with
  | none =>
    rw [follow,read] at after
    cases rest with
    | cons _ _ => cases after.1
    | nil =>
      cases slot with
      | bucket f => exact .missing read rfl
      | next f i =>
        obtain ⟨e,there,_⟩ := (chained.owned f i member).exists_entry
        rw [ptr,there] at read
        cases read
  | some p =>
    rw [follow_some read] at after
    cases type : p.type with
    | eof =>
      rw [target_of_eof type] at after
      cases rest with
      | cons _ _ => cases after.1
      | nil => exact .eof read (by simp only [checkRepairNeeded,type]) type
    | here =>
      rw [target_of_here type] at after
      cases rest with
      | nil => cases after
      | cons b rest =>
        cases after.1
        have owned := chained.owned slot.file p.idx.toNat (by simp)
        obtain ⟨e,there,_⟩ := owned.exists_entry
        exact .here read (owned.safe type rfl) type there
    | coll =>
      rw [target_of_coll type] at after
      cases rest with
      | nil => cases after
      | cons b rest =>
        cases after.1
        obtain ⟨i,head⟩ := chained.heads p.idx.toNat (by simp)
        obtain ⟨f,there⟩ := exists_coll head
        exact .coll read (by simp only [checkRepairNeeded,type,there,Option.isNone_some]) type there
    | free =>
      cases slot with
      | bucket f => exact absurd type (chained.kinds f p read)
      | next f i => exact absurd type ((chained.owned f i member).kind p read)

end Lists

end Rozofs.Dirents
