import Rozofs.DirentAllocation
import Rozofs.DirentControl
import Rozofs.DirentRemoval
import Rozofs.Machine

/-! The requests on a root file: what the lists, the names and the marks of its files hold together is kept by
each request, and no request finds a cause to repair. -/
namespace Rozofs.Dirents
open LinkedPath
open Function (update)
open Bitmap (test setBit clearBit)
open NameChunks (Held nbChunks)
open DirentRepair (HashPtr HashEntry CacheEntry Dirent)

/-- Files whose lists are sound and short enough for a walk, and whose linked entries all have a name. An entry
that is free has none. -/
structure Consistent (st : Files) : Prop extends Ready st where
  held : ∀ f, Held (st.names f)
  spare : ∀ f i, freeBit st.links f i = some true → (st.names f).hashEntry i = none
  named : ∀ b path f i, Chained st.links b path → .next f i ∈ path → ((st.names f).hashEntry i).isSome = true
  few : ∀ b path, Chained st.links b path → (entriesOf path).length ≤ entriesCount

section Lists
variable {st st' : Dirent} {b i : Nat} {f : Option Nat} {path : List Slot}

/-- A list of the new state was the list before, when the lists are kept. -/
theorem Chained.back (sound : Sound st) (lists : ∀ path, Chained st b path → Chained st' b path) (chained : Chained st' b path) :
    Chained st b path := by
  obtain ⟨old,list⟩ := sound.lists b
  cases (lists old list).unique chained
  exact list

theorem Chained.present (chained : Chained st b path) (member : .next f i ∈ path) : st.file f ≠ none := by
  intro missing
  have busy := (chained.owned f i member).busy
  rw [freeBit,missing] at busy
  cases busy

/-- A list that is not too long for a walk. -/
theorem Chained.short (chained : Chained st b path) (few : (entriesOf path).length ≤ entriesCount) : path.length < maxSupportedColl := by
  have bound := chained.length_le
  rw [entriesCount] at few
  rw [maxSupportedColl]
  omega

end Lists

section Requests
variable {st st' : Files} {b idx : Nat} {file : Option Nat} {cfg : Config} {name : Name} {value : Value}

theorem Granted.consistent (consistent : Consistent st) (granted : Granted b file idx st st') :
    Consistent st' ∧ (st'.names file).hashEntry idx = none := by
  have lists : ∀ b path, Chained st'.links b path → Chained st.links b path := fun b path chained =>
    chained.back consistent.sound (granted.lists b)
  refine ⟨⟨granted.ready,fun f => ?_,fun f i free => ?_,fun b path f i chained member => ?_,
    fun b path chained => consistent.few b path (lists b path chained)⟩,?_⟩
  · rcases granted.names f with ⟨same,_⟩ | ⟨_,same⟩
    · rw [same]
      exact consistent.held f
    · rw [same]
      exact NameChunks.held_empty
  · rcases granted.names f with ⟨same,kept⟩ | ⟨_,same⟩
    · rw [same]
      exact consistent.spare f i (kept i free)
    · rw [same]
      rfl
  · have list := lists b path chained
    rcases granted.names f with ⟨same,_⟩ | ⟨missing,_⟩
    · rw [same]
      exact consistent.named b path f i list member
    · exact absurd missing (list.present member)
  · rcases granted.was with free | same
    · rcases granted.names file with ⟨kept,_⟩ | ⟨_,kept⟩
      · rw [kept]
        exact consistent.spare file idx free
      · rw [kept]
        rfl
    · rw [same]
      rfl

/-- The name of a linked entry is written: its hash, its chunks and the bytes in them. -/
theorem fillEntry_eq (cfg : Config) (value : Value) (held : Held (st.names file)) (there : ∃ e, entry st.links file idx = some e)
    (low : idx < entriesCount) (free : (st.names file).hashEntry idx = none) (short : name.length ≤ 300) :
    ∃ start, Held (NameChunks.put idx start (nbChunks name.length) (st.names file)) ∧
      fillEntry cfg name value file idx st = ({ st with
        hash := update st.hash file (update (st.hash file) idx ((cfg.hash2 name).setWidth 28))
        names := update st.names file (NameChunks.put idx start (nbChunks name.length) (st.names file))
        area := update st.area file (writeNameEntry (64 * start) name value (st.area file)) },true) := by
  obtain ⟨e,there⟩ := there
  have five := NameChunks.nbChunks_le_five.mpr short
  obtain ⟨start,feasible,_,created⟩ := held.createEntryName low free five
  have put := held.put low (held.given_none free) (NameChunks.nbChunks_pos _) five feasible
  have inside := put.inside idx (start,nbChunks name.length) (Function.update_self idx _ _)
  have place : (BitVec.ofNat 12 start).toNat = start := inside.toNat.1
  refine ⟨start,put,?_⟩
  rw [fillEntry]
  simp only [there,created,nameEntryPtr,Function.update_self,NameChunks.put,Option.map_some,place]

/-- Only the names and the bytes of its file change. -/
theorem fillEntry_spec (cfg : Config) (value : Value) (held : Held (st.names file)) (there : ∃ e, entry st.links file idx = some e)
    (low : idx < entriesCount) (free : (st.names file).hashEntry idx = none) (short : name.length ≤ 300) :
    ∃ st', fillEntry cfg name value file idx st = (st',true) ∧ st'.links = st.links ∧ st'.collBitmapHashFull = st.collBitmapHashFull ∧
      (∀ f, f ≠ file → st'.names f = st.names f) ∧ Held (st'.names file) ∧ ((st'.names file).hashEntry idx).isSome = true ∧
      ∀ i, i ≠ idx → (st'.names file).hashEntry i = (st.names file).hashEntry i := by
  obtain ⟨start,put,filled⟩ := fillEntry_eq cfg value held there low free short
  refine ⟨_,filled,rfl,rfl,fun f other => Function.update_of_ne other _ _,?_,?_,fun i other => ?_⟩
  · simp only [Function.update_self]
    exact put
  · simp only [Function.update_self,NameChunks.put,Option.isSome_some]
  · simp only [Function.update_self,NameChunks.put,Function.update_of_ne other]

/-- What an accepted insertion does: the list of the bucket gets one entry. -/
structure Appended (b : Nat) (file : Option Nat) (idx : Nat) (st st' : Files) : Prop where
  consistent : Consistent st'
  others : ∀ b' path, b' ≠ b → Chained st.links b' path → Chained st'.links b' path
  list : ∀ path, Chained st.links b path → ∃ path', Chained st'.links b path' ∧ (entriesOf path').Perm ((file,idx) :: entriesOf path)

/-- A list of the state after an insertion: the entry, and those of a list before. -/
theorem Inserted.back {links : Dirent} (sound : Sound st.links) (inserted : Inserted b file idx st.links links) {b' : Nat} {path : List Slot}
    (chained : Chained links b' path) : ∃ old, Chained st.links b' old ∧
      (b' ≠ b ∧ path = old ∨ b' = b ∧ (entriesOf path).Perm ((file,idx) :: entriesOf old)) := by
  obtain ⟨old,list⟩ := sound.lists b'
  by_cases own : b' = b
  · subst own
    obtain ⟨path',chained',perm⟩ := inserted.list old list
    cases chained'.unique chained
    exact ⟨old,list,.inr ⟨rfl,perm⟩⟩
  · cases (inserted.others b' old own list).unique chained
    exact ⟨_,list,.inl ⟨own,rfl⟩⟩

/-- The entry is linked and named. -/
theorem Inserted.appended (consistent : Consistent st) {links : Dirent} (fresh : Fresh st.links file idx)
    (few : ∀ path, Chained st.links b path → (entriesOf path).length < entriesCount) (inserted : Inserted b file idx st.links links)
    (same : st'.links = links) (full : st'.collBitmapHashFull = st.collBitmapHashFull) (others : ∀ f, f ≠ file → st'.names f = st.names f)
    (held : Held (st'.names file)) (own : ((st'.names file).hashEntry idx).isSome = true)
    (kept : ∀ i, i ≠ idx → (st'.names file).hashEntry i = (st.names file).hashEntry i) : Appended b file idx st st' where
  consistent := by
    -- the names of the other entries
    have names : ∀ f i, (f,i) ≠ (file,idx) → (st'.names f).hashEntry i = (st.names f).hashEntry i := by
      intro f i apart
      by_cases here : f = file
      · subst here
        exact kept i fun there => apart (by rw [there])
      · rw [others f here]
    refine ⟨⟨by rw [same]; exact inserted.sound,fun c set => ?_⟩,fun f => ?_,fun f i free => ?_,fun b' path f i chained member => ?_,
      fun b' path chained => ?_⟩
    · rw [full] at set
      rw [same,inserted.colls]
      exact consistent.full c set
    · by_cases here : f = file
      · rw [here]
        exact held
      · rw [others f here]
        exact consistent.held f
    · rw [same,inserted.bits] at free
      rw [names f i]
      · exact consistent.spare f i free
      · intro here
        cases here
        cases fresh.busy.symm.trans free
    · rw [same] at chained
      by_cases here : (f,i) = (file,idx)
      · cases here
        exact own
      · rw [names f i here]
        obtain ⟨old,list,⟨_,rfl⟩ | ⟨rfl,perm⟩⟩ := inserted.back consistent.sound chained
        · exact consistent.named b' path f i list member
        · have inside := perm.mem_iff.mp (mem_entriesOf.mpr member)
          rcases List.mem_cons.mp inside with entry | inside
          · exact absurd entry here
          · exact consistent.named b' old f i list (mem_entriesOf.mp inside)
    · rw [same] at chained
      obtain ⟨old,list,⟨_,rfl⟩ | ⟨rfl,perm⟩⟩ := inserted.back consistent.sound chained
      · exact consistent.few b' path list
      · rw [perm.length_eq,List.length_cons]
        exact few old list
  others b' path other chained := by
    rw [same]
    exact inserted.others b' path other chained
  list path chained := by
    rw [same]
    exact inserted.list path chained

/-- A name that is not in the files gets an entry, or it is refused: the root file has no free entry and no
memory for the bucket. Then all the lists are kept. -/
theorem appendEntry_spec (consistent : Consistent st) (cfg : Config) (value : Value) (room : ∃ c < 1024, test st.links.collBitmap c = true)
    (few : ∀ path, Chained st.links (bucketIdx (cfg.hash2 name)) path → (entriesOf path).length < entriesCount) (short : name.length ≤ 300) :
    (∃ st' file idx, appendEntry cfg name value st = some (st',true) ∧ Appended (bucketIdx (cfg.hash2 name)) file idx st st' ∧
      ∃ st1 links, Granted (bucketIdx (cfg.hash2 name)) file idx st st1 ∧ (∃ e, entry links file idx = some e) ∧
        fillEntry cfg name value file idx { st1 with links := links } = (st',true)) ∨
    ∃ st1 links file idx, appendEntry cfg name value st = some ({ st1 with links := links },false) ∧ Consistent { st1 with links := links } ∧
      (∀ b path, Chained st.links b path → Chained links b path) ∧ Granted (bucketIdx (cfg.hash2 name)) file idx st st1 ∧
      (∀ i, (allocNameEntryIdx (bucketIdx (cfg.hash2 name)) st).2 ≠ some (none,i)) ∧ ptr st.links (bucketIdx (cfg.hash2 name)) (.bucket none) = none := by
  obtain ⟨st1,file,idx,allocated,granted⟩ := allocNameEntryIdx_spec consistent.toReady (bucketIdx (cfg.hash2 name)) room
  obtain ⟨consistent1,free⟩ := granted.consistent consistent
  have few1 : ∀ path, Chained st1.links (bucketIdx (cfg.hash2 name)) path → (entriesOf path).length < entriesCount := fun path chained =>
    few path (chained.back consistent.sound (granted.lists _))
  rw [appendEntry]
  simp only [allocated]
  rcases insertHashEntry_spec granted.ready.sound granted.fresh granted.coll granted.memory few1 with
    ⟨links,done,inserted⟩ | ⟨links,done,refused,other,absent⟩
  · have start : Held (Files.names { st1 with links := links } file) := consistent1.held file
    obtain ⟨st',filled,same,full,others,held,own,kept⟩ := fillEntry_spec cfg value start inserted.there granted.fresh.low free short
    have appended := inserted.appended consistent1 granted.fresh few1 same full others held own kept
    refine .inl ⟨st',file,idx,?_,⟨appended.consistent,fun b path other chained => appended.others b path other (granted.lists b path chained),
      fun path chained => appended.list path (granted.lists _ path chained)⟩,st1,links,granted,inserted.there,filled⟩
    simp only [done,Option.map_some,filled]
  · refine .inr ⟨st1,links,file,idx,?_,?_,fun b path chained => refused.lists b path (granted.lists b path chained),granted,fun i same => ?_,?_⟩
    · simp only [done,Option.map_some]
    · have lists : ∀ b path, Chained links b path → Chained st1.links b path := fun b path chained =>
        chained.back granted.ready.sound (refused.lists b)
      refine ⟨⟨refused.sound,fun c set => (refused.colls c).trans (consistent1.full c set)⟩,consistent1.held,fun f i bit => ?_,
        fun b path f i chained member => consistent1.named b path f i (lists b path chained) member,
        fun b path chained => consistent1.few b path (lists b path chained)⟩
      exact consistent1.spare f i ((refused.bits f i).symm.trans bit)
    · cases same
      exact other rfl
    · rw [ptr,DirentRepair.Dirent.file,granted.root other] at absent
      exact absent

/-- What the removal of an entry does: the list of the bucket loses it. -/
structure Deleted (b : Nat) (file : Option Nat) (idx : Nat) (st st' : Files) : Prop where
  consistent : Consistent st'
  others : ∀ b' path, b' ≠ b → Chained st.links b' path → Chained st'.links b' path
  list : ∀ path, Chained st.links b path → ∃ path', Chained st'.links b path' ∧ (entriesOf path).Perm ((file,idx) :: entriesOf path')
  mark : ∀ c, file = some c → test st'.collBitmapHashFull c = false

/-- What the removal has found, and what it keeps. -/
structure Erased (cfg : Config) (name : Name) (removed : Removed) (idx : Nat) (st st' : Files) : Prop where
  linked : ∃ path, Chained st.links (bucketIdx (cfg.hash2 name)) path ∧ .next removed.file idx ∈ path
  matched : Matches st (cfg.hash2 name) name removed.file idx
  value : ∀ p, nameEntryPtr st removed.file idx = some p → removed.value = valueAt (st.area removed.file) p
  names : ∃ start nb, st'.names = update st.names removed.file (NameChunks.remove idx start nb (st.names removed.file))
  hash : st'.hash = st.hash
  area : st'.area = st.area

section Unlink
variable {links : Dirent} {path : List Slot}

/-- The removed entry is in no list. -/
theorem Unlinked.gone (sound : Sound st.links) (unlinked : Unlinked b file idx st.links links) (chained : Chained st.links b path)
    (member : .next file idx ∈ path) (b' : Nat) (path' : List Slot) (chained' : Chained links b' path') : .next file idx ∉ path' := by
  intro inside
  by_cases own : b' = b
  · subst own
    obtain ⟨path'',chained'',perm⟩ := unlinked.list path chained
    cases chained''.unique chained'
    have once := chained.nodup_entriesOf
    rw [perm.nodup_iff,List.nodup_cons] at once
    exact once.1 (mem_entriesOf.mpr inside)
  · obtain ⟨old,list⟩ := sound.lists b'
    cases (unlinked.others b' old own list).unique chained'
    exact own ((list.owned file idx inside).toAllocated.unique (chained.owned file idx member).toAllocated)

/-- A list of the state after a removal: a list before, without the entry. -/
theorem Unlinked.back (sound : Sound st.links) (unlinked : Unlinked b file idx st.links links) {b' : Nat} (chained : Chained links b' path) :
    ∃ old, Chained st.links b' old ∧ (b' ≠ b ∧ path = old ∨ b' = b ∧ (entriesOf old).Perm ((file,idx) :: entriesOf path)) := by
  obtain ⟨old,list⟩ := sound.lists b'
  by_cases own : b' = b
  · subst own
    obtain ⟨path',chained',perm⟩ := unlinked.list old list
    cases chained'.unique chained
    exact ⟨old,list,.inr ⟨rfl,perm⟩⟩
  · cases (unlinked.others b' old own list).unique chained
    exact ⟨_,list,.inl ⟨own,rfl⟩⟩

/-- The entry is taken out of its list and released with its name. -/
theorem Unlinked.deleted (consistent : Consistent st) (unlinked : Unlinked b file idx st.links links) (chained : Chained st.links b path)
    (member : .next file idx ∈ path) {chunks : Nat × Nat} (own : (st.names file).given idx = some chunks)
    (same : st'.links = releaseHashEntry file idx links)
    (names : st'.names = update st.names file (NameChunks.remove idx chunks.1 chunks.2 (st.names file)))
    (full : ∀ c, test st'.collBitmapHashFull c = true → test st.collBitmapHashFull c = true ∧ file ≠ some c) : Deleted b file idx st st' := by
  have gone := unlinked.gone consistent.sound chained member
  have release : ∀ b' path', Chained links b' path' → Chained st'.links b' path' := by
    intro b' path' list
    rw [same]
    exact list.release (gone b' path' list)
  have back : ∀ b' path', Chained st'.links b' path' → ∃ old, Chained st.links b' old ∧
      (b' ≠ b ∧ path' = old ∨ b' = b ∧ (entriesOf old).Perm ((file,idx) :: entriesOf path')) := fun b' path' list =>
    unlinked.back consistent.sound (list.back unlinked.sound (release b'))
  have others : ∀ f i, (f,i) ≠ (file,idx) → (st'.names f).hashEntry i = (st.names f).hashEntry i := by
    intro f i apart
    rw [names]
    by_cases here : f = file
    · subst here
      have other : i ≠ idx := fun there => apart (by rw [there])
      rw [Function.update_self]
      exact Function.update_of_ne other _ _
    · rw [Function.update_of_ne here]
  refine ⟨⟨⟨?_,fun c set => ?_⟩,fun f => ?_,fun f i free => ?_,fun b' path' f i list inside => ?_,fun b' path' list => ?_⟩,
    fun b' path' other list => release b' path' (unlinked.others b' path' other list),fun path' list => ?_,fun c here => ?_⟩
  · rw [same]
    exact unlinked.sound.release gone
  · rw [same,coll_release,unlinked.colls]
    exact consistent.full c (full c set).1
  · rw [names]
    by_cases here : f = file
    · subst here
      rw [Function.update_self]
      exact (consistent.held f).remove own
    · rw [Function.update_of_ne here]
      exact consistent.held f
  · by_cases here : (f,i) = (file,idx)
    · cases here
      rw [names,Function.update_self,NameChunks.remove]
      exact Function.update_self ..
    · rw [others f i here]
      rw [same,freeBit_release,if_neg (fun both => here (by rw [both.1,both.2])),unlinked.bits] at free
      exact consistent.spare f i free
  · have here : (f,i) ≠ (file,idx) := by
      intro here
      cases here
      exact gone b' path' (list.back unlinked.sound (release b')) inside
    rw [others f i here]
    obtain ⟨old,before,⟨_,rfl⟩ | ⟨rfl,perm⟩⟩ := back b' path' list
    · exact consistent.named b' path' f i before inside
    · exact consistent.named b' old f i before (mem_entriesOf.mp (perm.mem_iff.mpr (List.mem_cons_of_mem _ (mem_entriesOf.mpr inside))))
  · obtain ⟨old,before,⟨_,rfl⟩ | ⟨rfl,perm⟩⟩ := back b' path' list
    · exact consistent.few b' path' before
    · have bound := consistent.few b' old before
      rw [perm.length_eq,List.length_cons] at bound
      omega
  · obtain ⟨path'',list',perm⟩ := unlinked.list path' list
    exact ⟨path'',release b path'' list',perm⟩
  · by_contra set
    exact (full c (eq_true_of_ne_false set)).2 here

end Unlink

/-- The entry of a name is removed, or there is none and nothing changes. -/
theorem deleteHashEntry_spec (consistent : Consistent st) (cfg : Config) (name : Name) :
    (∃ st' removed idx, deleteHashEntry cfg name st = (st',some removed) ∧ Deleted (bucketIdx (cfg.hash2 name)) removed.file idx st st' ∧
      Erased cfg name removed idx st st') ∨
    deleteHashEntry cfg name st = (st,none) ∧ ∀ path f i, Chained st.links (bucketIdx (cfg.hash2 name)) path → .next f i ∈ path →
      ¬Matches st (cfg.hash2 name) name f i := by
  obtain ⟨path,chained⟩ := consistent.sound.lists (bucketIdx (cfg.hash2 name))
  have there : Goal.delete = .delete → ∀ file idx, .next file idx ∈ path → (nameEntryPtr st file idx).isSome = true := by
    intro _ file idx member
    rw [nameEntryPtr,Option.isSome_map]
    exact consistent.named _ path file idx chained member
  rcases @walkTwice_spec st .delete _ (cfg.hash2 name) name path chained (chained.short (consistent.few _ path chained)) there with
    ⟨position,walked,⟨before,after,located⟩,matched⟩ | ⟨walked,missed⟩
  · have member : .next position.cur.file position.idx ∈ path := by
      rw [located.parts]
      simp
    obtain ⟨e,recorded⟩ := Option.isSome_iff_exists.mp (consistent.named _ path _ _ chained member)
    have given : ∃ chunks, (st.names position.cur.file).given position.idx = some chunks := by
      rw [(consistent.held position.cur.file).recorded] at recorded
      obtain ⟨chunks,given,_⟩ := Option.map_eq_some_iff.mp recorded
      exact ⟨chunks,given⟩
    obtain ⟨chunks,own⟩ := given
    have released := ((consistent.held position.cur.file).delEntryName own).2
    have unlinked := unlink_spec consistent.sound chained located
    refine .inl ?_
    rw [deleteHashEntry]
    simp only [walked,nameEntryPtr,recorded,Option.map_some,released]
    refine ⟨_,_,position.idx,rfl,?_,⟨path,chained,member⟩,matched,fun p ptr => ?_,⟨chunks.1,chunks.2,rfl⟩,rfl,rfl⟩
    · refine unlinked.deleted consistent chained member own rfl rfl fun c set => ?_
      cases file : position.cur.file with
      | none =>
        simp only [file] at set
        exact ⟨set,fun same => by cases same⟩
      | some own =>
        simp only [file,Bitmap.test_clearBit,Bool.and_eq_true,Bool.not_eq_true',decide_eq_false_iff_not] at set
        exact ⟨set.2,fun same => set.1 (Option.some.inj same).symm⟩
    · rw [nameEntryPtr,recorded] at ptr
      cases ptr
      rfl
  · refine .inr ⟨?_,fun path' f i list member => ?_⟩
    · rw [deleteHashEntry]
      simp only [walked]
    · rw [list.unique chained] at member
      exact missed f i member

/-- A collision file without entries is removed. -/
theorem Consistent.delColl (consistent : Consistent st) {c : Nat} (empty : checkEmpty st.links (some c) = true)
    (mark : test st.collBitmapHashFull c = false) : Consistent { st with links := delCollisionPtr c st.links } := by
  have unused : ∀ b path, Chained st.links b path → ∀ i, .next (some c) i ∉ path := fun b path chained i =>
    chained.unused ((checkEmpty_iff st.links (some c)).mp empty).1 i
  have lists : ∀ b path, Chained (delCollisionPtr c st.links) b path → Chained st.links b path := fun b path chained =>
    chained.back consistent.sound fun path list => list.delCollisionPtr (unused b path list)
  refine ⟨⟨consistent.sound.delCollisionPtr unused,fun c' set => ?_⟩,consistent.held,fun f i free => ?_,
    fun b path f i chained member => consistent.named b path f i (lists b path chained) member,
    fun b path chained => consistent.few b path (lists b path chained)⟩
  · have other : c' ≠ c := by
      rintro rfl
      cases mark.symm.trans set
    simp only [delCollisionPtr,Function.update_of_ne other]
    exact consistent.full c' set
  · by_cases here : f = some c
    · subst here
      rw [freeBit,file_delCollisionPtr_same] at free
      cases free
    · rw [freeBit,file_delCollisionPtr st.links here] at free
      exact consistent.spare f i free

theorem delMdirentry_consistent (consistent : Consistent st) (cfg : Config) (name : Name) (result : (delMdirentry cfg name (some st)).1 = some st') :
    Consistent st' := by
  rw [delMdirentry] at result
  rcases deleteHashEntry_spec consistent cfg name with ⟨st1,removed,idx,done,deleted,_⟩ | ⟨done,_⟩
  · simp only [done] at result
    have rest := (Option.filter_eq_some_iff.mp result).1
    split at rest
    · next empty =>
      cases file : removed.file with
      | none =>
        rw [file] at rest
        cases rest
      | some c =>
        rw [file] at rest empty
        cases rest
        exact deleted.consistent.delColl empty (deleted.mark c file)
    · cases rest
      exact deleted.consistent
  · simp only [done] at result
    cases result
    exact consistent

/-- The search controls the bucket and changes nothing else: it finds an entry that matches, or there is none. -/
theorem searchHashEntry_spec (consistent : Consistent st) (cfg : Config) (name : Name) :
    ∃ marks, (∃ position path, searchHashEntry cfg name st = ({ st with bucketSafeBitmap := marks },some position) ∧
        Chained st.links (bucketIdx (cfg.hash2 name)) path ∧ .next position.cur.file position.idx ∈ path ∧
        Matches st (cfg.hash2 name) name position.cur.file position.idx) ∨
      searchHashEntry cfg name st = ({ st with bucketSafeBitmap := marks },none) ∧
        ∀ path f i, Chained st.links (bucketIdx (cfg.hash2 name)) path → .next f i ∈ path → ¬Matches st (cfg.hash2 name) name f i := by
  obtain ⟨marks,controlled⟩ := isBucketIdxSafe_spec cfg (bucketIdx (cfg.hash2 name)) consistent.sound
  obtain ⟨path,chained⟩ := consistent.sound.lists (bucketIdx (cfg.hash2 name))
  refine ⟨marks,?_⟩
  rw [searchHashEntry,controlled]
  rcases @walkTwice_spec { st with bucketSafeBitmap := marks } .search _ (cfg.hash2 name) name path chained
      (chained.short (consistent.few _ path chained)) (fun other => by cases other) with
    ⟨position,walked,⟨before,after,located⟩,matched⟩ | ⟨walked,missed⟩
  · refine .inl ⟨position,path,walked,chained,?_,matched⟩
    rw [located.parts]
    simp
  · refine .inr ⟨walked,fun path' f i list member => ?_⟩
    rw [list.unique chained] at member
    exact missed f i member

theorem Consistent.marks (consistent : Consistent st) (marks : Nat → BitVec 8) : Consistent { st with bucketSafeBitmap := marks } :=
  ⟨⟨consistent.sound,consistent.full⟩,consistent.held,consistent.spare,consistent.named,consistent.few⟩

theorem Consistent.area (consistent : Consistent st) (area : Option Nat → ByteMemory.Memory) : Consistent { st with area := area } :=
  ⟨⟨consistent.sound,consistent.full⟩,consistent.held,consistent.spare,consistent.named,consistent.few⟩

end Requests

section Root

theorem ptr_createRoot (b : Nat) (f : Option Nat) : ptr createRoot.links b (.bucket f) = none := by
  cases f <;> rfl

theorem chained_createRoot (b : Nat) : Chained createRoot.links b [.bucket none] where
  leads := ⟨rfl,by rw [follow,ptr_createRoot]; rfl⟩
  owned file idx member := by simp at member
  heads c member := by simp at member
  used c leads := by
    rw [follow,ptr_createRoot] at leads
    exact absurd rfl leads
  kinds f p read := by
    rw [ptr_createRoot] at read
    cases read

theorem list_createRoot {b : Nat} {path : List Slot} (chained : Chained createRoot.links b path) : path = [.bucket none] :=
  chained.unique (chained_createRoot b)

theorem free_createRoot (c : Nat) : test createRoot.links.collBitmap c = true := (Bitmap.eq_ones_iff _).mp rfl _ (Nat.mod_lt _ (by decide))

theorem consistent_createRoot : Consistent createRoot := by
  refine ⟨⟨⟨fun b => ⟨_,chained_createRoot b⟩,fun c => ?_,fun c there => ?_,fun f i j _ => ?_⟩,fun c set => ?_⟩,
    fun _ => NameChunks.held_empty,fun _ _ _ => rfl,fun b path f i chained member => ?_,fun b path chained => ?_⟩
  · rw [free_createRoot]
    rfl
  · cases there
  · cases f <;> rfl
  · have clear : test createRoot.collBitmapHashFull c = false := BitVec.getLsbD_zero
    cases clear.symm.trans set
  · rw [list_createRoot chained] at member
    simp at member
  · rw [list_createRoot chained]
    exact Nat.zero_le _

end Root

/-- A request on the root file. -/
inductive Request where
  | put (name : Name) (fid : Fid) (type : BitVec 32)
  | get (name : Name)
  | del (name : Name)

/-- One request; `none` when it does not end. -/
def step (cfg : Config) : Request → Option Files → Option (Option Files)
  | .put name fid type, st => (putMdirentry cfg name fid type st).map Prod.fst
  | .get name, st => some (getMdirentry cfg name st).1
  | .del name, st => some (delMdirentry cfg name st).1

/-- A name to put has at most 300 bytes, its bucket has less than 384 entries, and one of the first 1024
collision files is not there. -/
def Place (cfg : Config) (st : Option Files) : Request → Prop
  | .put name _ _ => name.length ≤ 300 ∧ ∀ st', st = some st' → (∃ c < 1024, test st'.links.collBitmap c = true) ∧
      ∀ path, Chained st'.links (bucketIdx (cfg.hash2 name)) path → (entriesOf path).length < entriesCount
  | _ => True

section Runs
variable {st st' : Files} {cfg : Config} {name : Name}

theorem putMdirentry_first (cfg : Config) (fid : Fid) (type : BitVec 32) (short : name.length ≤ 300) :
    ∃ st' status, putMdirentry cfg name fid type none = some (some st',status) ∧ Consistent st' ∧
      ∀ b path, Chained st'.links b path → (entriesOf path).length ≤ 1 := by
  have few : ∀ path, Chained createRoot.links (bucketIdx (cfg.hash2 name)) path → (entriesOf path).length < entriesCount := by
    intro path chained
    rw [list_createRoot chained]
    decide
  rw [putMdirentry]
  rcases appendEntry_spec consistent_createRoot cfg ⟨fid,type.setWidth 20⟩ ⟨0,by decide,free_createRoot 0⟩ few short with
    ⟨st',_,_,done,appended,_⟩ | ⟨st1,links,_,_,done,consistent,lists,_⟩
  · refine ⟨st',true,by rw [done,Option.map_some],appended.consistent,fun b path chained => ?_⟩
    by_cases own : b = bucketIdx (cfg.hash2 name)
    · subst own
      obtain ⟨path',chained',perm⟩ := appended.list _ (chained_createRoot _)
      rw [chained.unique chained',perm.length_eq]
      exact Nat.le_refl 1
    · rw [chained.unique (appended.others b _ own (chained_createRoot b))]
      exact Nat.zero_le 1
  · refine ⟨_,false,by rw [done,Option.map_some],consistent,fun b path chained => ?_⟩
    rw [chained.unique (lists b _ (chained_createRoot b))]
    exact Nat.zero_le 1

theorem putMdirentry_consistent (consistent : Consistent st) (fid : Fid) (type : BitVec 32) (place : Place cfg (some st) (.put name fid type)) :
    ∃ st' status, putMdirentry cfg name fid type (some st) = some (some st',status) ∧ Consistent st' := by
  obtain ⟨short,place⟩ := place
  obtain ⟨room,few⟩ := place st rfl
  rw [putMdirentry]
  obtain ⟨marks,⟨position,path,searched,_⟩ | ⟨searched,_⟩⟩ := searchHashEntry_spec consistent cfg name
  · have marked := consistent.marks marks
    simp only [searched]
    split
    · exact ⟨_,false,rfl,marked⟩
    · exact ⟨_,true,rfl,marked.area _⟩
  · have marked := consistent.marks marks
    simp only [searched]
    rcases appendEntry_spec marked cfg ⟨fid,type.setWidth 20⟩ room few short with ⟨st',_,_,done,appended,_⟩ | ⟨st1,links,_,_,done,kept,_⟩
    · exact ⟨st',true,by rw [done,Option.map_some],appended.consistent⟩
    · exact ⟨_,false,by rw [done,Option.map_some],kept⟩

theorem getMdirentry_consistent (consistent : Consistent st) (result : (getMdirentry cfg name (some st)).1 = some st') : Consistent st' := by
  rw [getMdirentry] at result
  obtain ⟨marks,⟨position,path,searched,_⟩ | ⟨searched,_⟩⟩ := searchHashEntry_spec consistent cfg name
  · rw [searched] at result
    cases result
    exact consistent.marks marks
  · rw [searched] at result
    cases result
    exact consistent.marks marks

/-- One request keeps what the files hold. -/
theorem consistent_step {before after : Option Files} (consistent : ∀ st, before = some st → Consistent st) {request : Request}
    (place : Place cfg before request) (next : step cfg request before = some after) : ∀ st, after = some st → Consistent st := by
  rintro st' rfl
  cases request with
  | put name fid type =>
    cases before with
    | none =>
      obtain ⟨st1,status,done,kept,_⟩ := putMdirentry_first cfg fid type place.1
      rw [step,done] at next
      cases next
      exact kept
    | some st =>
      obtain ⟨st1,status,done,kept⟩ := putMdirentry_consistent (consistent st rfl) fid type place
      rw [step,done] at next
      cases next
      exact kept
  | get name =>
    cases before with
    | none => cases next
    | some st => exact getMdirentry_consistent (consistent st rfl) (Option.some.inj next)
  | del name =>
    cases before with
    | none => cases next
    | some st => exact delMdirentry_consistent (consistent st rfl) cfg name (Option.some.inj next)

theorem consistent_run {after : Option Files} (run : Machine.Run (step cfg) (Place cfg) none after) : ∀ st, after = some st → Consistent st :=
  run.invariant (fun state => ∀ st, state = some st → Consistent st) (fun st none => by cases none) fun _ _ _ consistent place next =>
    consistent_step consistent place next

/-- After every run of requests from a missing root file: the list of each bucket ends, within the limit of a walk, and
no hash entry is in the lists of two buckets; the control of a bucket finds no cause to repair, nor does the
search or the removal of a name; and each further request ends. -/
theorem requests_keep_lists (run : Machine.Run (step cfg) (Place cfg) none (some st)) :
    (∀ b, ∃ path, Chained st.links b path ∧ path.length < maxSupportedColl ∧ bucketScanned st.links b = true) ∧
    (∀ b b' path path' file idx, Chained st.links b path → Chained st.links b' path' → .next file idx ∈ path → .next file idx ∈ path' → b = b') ∧
    (∀ goal name, (walkTwice goal (bucketIdx (cfg.hash2 name)) (cfg.hash2 name) name st).1 = st) ∧
    ∀ request, Place cfg (some st) request → ∃ after, step cfg request (some st) = some after := by
  have consistent := consistent_run run st rfl
  refine ⟨fun b => ?_,fun b b' path path' file idx list list' member member' => ?_,fun goal name => ?_,fun request place => ?_⟩
  · obtain ⟨path,chained⟩ := consistent.sound.lists b
    exact ⟨path,chained,chained.short (consistent.few b path chained),consistent.sound.bucketScanned b⟩
  · exact (list.owned file idx member).toAllocated.unique (list'.owned file idx member').toAllocated
  · obtain ⟨path,chained⟩ := consistent.sound.lists (bucketIdx (cfg.hash2 name))
    have there : goal = .delete → ∀ file idx, .next file idx ∈ path → (nameEntryPtr st file idx).isSome = true := by
      intro _ file idx member
      rw [nameEntryPtr,Option.isSome_map]
      exact consistent.named _ path file idx chained member
    rcases @walkTwice_spec st goal _ (cfg.hash2 name) name path chained (chained.short (consistent.few _ path chained)) there with
      ⟨position,walked,_⟩ | ⟨walked,_⟩
    · rw [walked]
    · rw [walked]
  · cases request with
    | put name fid type =>
      obtain ⟨after,status,done,_⟩ := putMdirentry_consistent consistent fid type place
      exact ⟨some after,by rw [step,done,Option.map_some]⟩
    | get name => exact ⟨_,rfl⟩
    | del name => exact ⟨_,rfl⟩

/-- All names go to one bucket. -/
def oneBucket : Config := ⟨fun _ => 0x41#32,true⟩

/-- Two names of one bucket are put in a missing root file. -/
theorem requests_keep_lists_bucket : ∃ st, (getMdirentry oneBucket [65] (some st)).2.isSome = true ∧
    (getMdirentry oneBucket [66] (some st)).2.isSome = true ∧ bucketScanned st.links 65 = true ∧
    (walkTwice .delete (bucketIdx 0x41#32) 0x41#32 [66] st).1 = st := by
  have computed : ((putMdirentry oneBucket [65] ⟨List.replicate 16 7,by decide⟩ 5#32 none).bind fun first =>
      (putMdirentry oneBucket [66] ⟨List.replicate 16 8,by decide⟩ 6#32 first.1).map fun second =>
        (first.1.map fun st => test st.links.collBitmap 0,(getMdirentry oneBucket [65] second.1).2.isSome,
          (getMdirentry oneBucket [66] second.1).2.isSome)) = some (some true,true,true) := by decide +kernel
  have short : ([65] : Name).length ≤ 300 := by decide
  obtain ⟨first,status,done,consistent,few⟩ := putMdirentry_first oneBucket ⟨List.replicate 16 7,by decide⟩ 5#32 short
  rw [done,Option.bind_some,Option.map_some] at computed
  have place : Place oneBucket (some first) (.put [66] ⟨List.replicate 16 8,by decide⟩ 6#32) := by
    refine ⟨by decide,?_⟩
    intro st' same
    cases same
    obtain ⟨_,_,eq⟩ := Option.map_eq_some_iff.mp computed
    refine ⟨⟨0,by decide,Option.some.inj (congrArg Prod.fst eq)⟩,fun path chained => ?_⟩
    exact Nat.lt_of_le_of_lt (few _ path chained) (by decide)
  obtain ⟨st,status',done',_⟩ := putMdirentry_consistent consistent ⟨List.replicate 16 8,by decide⟩ 6#32 place
  rw [done',Option.map_some] at computed
  have found := congrArg Prod.snd (Option.some.inj computed)
  have run : Machine.Run (step oneBucket) (Place oneBucket) none (some st) :=
    .tail (Machine.Run.refl.tail (.put [65] ⟨List.replicate 16 7,by decide⟩ 5#32) ⟨by decide,fun st' none => by cases none⟩
      (by rw [step,done,Option.map_some])) (.put [66] ⟨List.replicate 16 8,by decide⟩ 6#32) place (by rw [step,done',Option.map_some])
  have kept := requests_keep_lists run
  obtain ⟨_,_,_,scanned⟩ := kept.1 65
  exact ⟨st,congrArg Prod.fst found,congrArg Prod.snd found,scanned,kept.2.2.1 .delete [66]⟩

end Runs

end Rozofs.Dirents
