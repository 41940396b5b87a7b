import Rozofs.DirentInsertion

/-! The allocation of a hash entry: a free one of the root file or of a collision file, with its memory, or the
first one of a new collision file. No list is changed. -/
namespace Rozofs.Dirents
open Function (update)
open Bitmap (test setBit clearBit skipVal)
open ChunkScan (direntAllocateChunks allocateLoop)
open DirentRepair (PtrType HashPtr HashEntry CacheEntry Dirent)

/-- The lowest free bit is taken. -/
theorem allocateOne_spec (m : Nat → BitVec 8) {last : Nat} (whole : last % 8 = 0) (small : last ≤ 2048) :
    match direntAllocateChunks 1 m last with
    | (some i,m') => i < last ∧ test m i = true ∧ ∀ j, test m' j = (test m j && !decide (j = i))
    | (none,_) => ∀ j < last, test m j = false := by
  have start : ChunkScan.Scanned m last 1 0 none 0 := by
    constructor
    · exact fun s low => absurd low (Nat.not_lt_zero s)
    · intro s candidate
      cases candidate
    · intro s candidate
      cases candidate
  have found := ChunkScan.allocateLoop_spec whole small 1 last 0 none 0 (Nat.sub_le last 0) start
  have one : BitVec.toNat (1 : BitVec 8) = 1 := rfl
  rw [direntAllocateChunks,one]
  cases result : allocateLoop 1 m last last 0 none 0 with
  | none =>
    rw [result] at found
    intro j low
    by_contra free
    have one : test m j = true := eq_true_of_ne_false free
    refine found j ⟨low,one,low,fun k above below => ?_⟩
    rwa [show k = j by omega]
  | some i =>
    rw [result] at found
    have inside := found.1.inside
    refine ⟨inside,found.1.first,fun j => ?_⟩
    have only : (decide (i ≤ j) && decide (j < i + 1)) = decide (j = i) := by
      rw [← Bool.decide_and]
      exact decide_eq_decide.mpr (by omega)
    rw [ChunkScan.test_reserve 1 (by omega),only]

/-- A file in which an entry was allocated, and the memory of the bucket. -/
structure Grown (bucketIdx idx : Nat) (g g' : CacheEntry) : Prop where
  low : idx < entriesCount
  free : test g.hashBitmap idx = true
  bits : ∀ j, test g'.hashBitmap j = (test g.hashBitmap j && !decide (j = idx))
  kept : ∀ j e, g.hashEntry j = some e → g'.hashEntry j = some e
  there : (g'.hashEntry idx).isSome = true
  arrays : ∀ i j, i / 64 = j / 64 → (g'.hashEntry i).isSome = (g'.hashEntry j).isSome
  buckets : ∀ b, g'.hashTbl b = g.hashTbl b ∨ g.hashTbl b = none ∧ g'.hashTbl b = some ⟨.eof,0⟩
  memory : (g'.hashTbl bucketIdx).isSome = true

section Files
variable {st : Dirent} {bucketIdx b idx : Nat} {file : Option Nat} {g g' : CacheEntry} {path : List Slot}

theorem allocateArrays_grown (arrays : ∀ i j, i / 64 = j / 64 → (g.hashEntry i).isSome = (g.hashEntry j).isSome) (low : idx < entriesCount)
    (free : test g.hashBitmap idx = true) {bitmap : Nat → BitVec 8} (bits : ∀ j, test bitmap j = (test g.hashBitmap j && !decide (j = idx))) :
    Grown bucketIdx idx g (allocateArrays bucketIdx idx { g with hashBitmap := bitmap }) := by
  have entries : ∀ j, (allocateArrays bucketIdx idx { g with hashBitmap := bitmap }).hashEntry j =
      if g.hashEntry idx = none ∧ j / 64 = idx / 64 then some ⟨0,⟨.eof,0⟩⟩ else g.hashEntry j := by
    intro j
    cases here : g.hashEntry idx with
    | none => simp only [allocateArrays,here,true_and]
    | some e => simp only [allocateArrays,here,reduceCtorEq,false_and,if_false]
  have tables : ∀ a, (allocateArrays bucketIdx idx { g with hashBitmap := bitmap }).hashTblArray a =
      if g.hashTblArray (bucketIdx / 64) = none ∧ a = bucketIdx / 64 then some fun _ => ⟨.eof,0⟩ else g.hashTblArray a := by
    intro a
    cases here : g.hashTblArray (bucketIdx / 64) with
    | none =>
      by_cases own : a = bucketIdx / 64
      · simp only [allocateArrays,here,own,Function.update_self,and_self,if_true]
      · simp only [allocateArrays,here,own,Function.update_of_ne own,and_false,if_false]
    | some array => simp only [allocateArrays,here,reduceCtorEq,false_and,if_false]
  constructor
  case low => exact low
  case free => exact free
  case bits => exact bits
  case kept =>
    intro j e found
    rw [entries,if_neg]
    · exact found
    · rintro ⟨missing,same⟩
      have both := arrays j idx same
      rw [found,missing] at both
      cases both
  case there =>
    rw [entries]
    split
    · rfl
    · next present => exact Option.isSome_iff_ne_none.mpr fun missing => present ⟨missing,rfl⟩
  case arrays =>
    intro i j same
    rw [entries,entries,same]
    split
    · rfl
    · exact arrays i j same
  case buckets =>
    intro b
    rw [CacheEntry.hashTbl,CacheEntry.hashTbl,tables]
    split
    · next fresh => exact .inr ⟨by rw [fresh.2,fresh.1]; rfl,rfl⟩
    · exact .inl rfl
  case memory =>
    rw [CacheEntry.hashTbl,Option.isSome_map,tables]
    split
    · rfl
    · next present => exact Option.isSome_iff_ne_none.mpr fun missing => present ⟨missing,rfl⟩

theorem allocateEntry_spec (bucketIdx : Nat) (arrays : ∀ i j, i / 64 = j / 64 → (g.hashEntry i).isSome = (g.hashEntry j).isSome) :
    match allocateEntry bucketIdx g with
    | some (g',idx) => Grown bucketIdx idx g g'
    | none => ∀ i < entriesCount, test g.hashBitmap i = false := by
  have found := allocateOne_spec g.hashBitmap (show entriesCount % 8 = 0 by decide) (by decide)
  rw [allocateEntry]
  cases result : direntAllocateChunks 1 g.hashBitmap entriesCount with
  | mk idx bitmap =>
    rw [result] at found
    cases idx with
    | none => exact found
    | some idx => exact allocateArrays_grown arrays found.1 found.2.1 found.2.2

/-- A list goes on as before when one of the files has grown. -/
theorem Chained.grown (chained : Chained st b path) (found : st.file file = some g) (grown : Grown bucketIdx idx g g') :
    Chained (st.setFile g' file) b path := by
  have busy : ∀ f i, .next f i ∈ path → freeBit (st.setFile g' file) f i = some false := by
    intro f i member
    have owned := (chained.owned f i member).busy
    rw [freeBit,DirentRepair.file_setFile]
    by_cases same : f = file
    · subst same
      rw [freeBit,found,Option.map_some,Option.some.injEq] at owned
      rw [if_pos rfl,Option.map_some,grown.bits,owned,Bool.false_and]
    · rw [if_neg same]
      exact owned
  have kept : ∀ f i, .next f i ∈ path → entry (st.setFile g' file) f i = entry st f i := by
    intro f i member
    obtain ⟨e,there,_⟩ := (chained.owned f i member).exists_entry
    rw [there]
    rw [entry] at there ⊢
    rw [DirentRepair.file_setFile]
    by_cases same : f = file
    · subst same
      rw [found,Option.bind_some] at there
      rw [if_pos rfl,Option.bind_some]
      exact grown.kept i e there
    · rw [if_neg same]
      exact there
  have reads : ∀ f, ptr (st.setFile g' file) b (.bucket f) = ptr st b (.bucket f) ∨
      ptr st b (.bucket f) = none ∧ ptr (st.setFile g' file) b (.bucket f) = some ⟨.eof,0⟩ := by
    intro f
    simp only [ptr,DirentRepair.file_setFile]
    by_cases same : f = file
    · subst same
      rw [if_pos rfl,found,Option.bind_some,Option.bind_some]
      exact grown.buckets b
    · rw [if_neg same]
      exact .inl rfl
  exact chained.frame {
    bucket f := by
      rcases reads f with same | ⟨missing,first⟩
      · rw [follow,follow,same]
      · rw [follow,follow,missing,first]
        rfl
    kinds f p read := by
      rcases reads f with same | ⟨_,first⟩
      · exact chained.kinds f p (same.symm.trans read)
      · cases first.symm.trans read
        exact fun other => by cases other
    allocated f i member := by
      have owned := chained.owned f i member
      refine ⟨owned.low,busy f i member,?_⟩
      rw [kept f i member]
      exact owned.own
    entries := kept }

theorem Sound.grown (sound : Sound st) (found : st.file file = some g) (grown : Grown bucketIdx idx g g') : Sound (st.setFile g' file) where
  lists b := by
    obtain ⟨path,chained⟩ := sound.lists b
    exact ⟨path,chained.grown found grown⟩
  colls c := by
    rw [coll_setFile g' found,collBitmap_setFile]
    exact sound.colls c
  low c there := sound.low c (by rwa [coll_setFile g' found] at there)
  arrays f i j same := by
    rw [entry,entry,DirentRepair.file_setFile]
    by_cases own : f = file
    · rw [if_pos own]
      exact grown.arrays i j same
    · rw [if_neg own]
      exact sound.arrays f i j same

theorem Sound.arrays_file (sound : Sound st) (found : st.file file = some g) (i j : Nat) (same : i / 64 = j / 64) :
    (g.hashEntry i).isSome = (g.hashEntry j).isSome := by
  have whole := sound.arrays file i j same
  rwa [entry,entry,found] at whole

/-- The entry that was allocated is in no list. -/
theorem Sound.fresh (sound : Sound st) (found : st.file file = some g) (grown : Grown bucketIdx idx g g') :
    Fresh (st.setFile g' file) file idx where
  low := grown.low
  busy := by
    rw [freeBit,DirentRepair.file_setFile,if_pos rfl,Option.map_some,grown.bits,decide_eq_true rfl,Bool.not_true,Bool.and_false]
  there := by
    rw [entry,DirentRepair.file_setFile,if_pos rfl]
    exact grown.there
  unlinked b path chained member := by
    obtain ⟨old,list⟩ := sound.lists b
    cases chained.unique (list.grown found grown)
    have busy := (list.owned file idx member).busy
    rw [freeBit,found,Option.map_some,grown.free] at busy
    cases busy

end Files

/-- What the loop over the collision files knows at an index: those that are full are there, and the first index
that is free. -/
structure Scanning (links : Dirent) (collIdx : Nat) (freeCollIdx : Option Nat) (full : Nat → BitVec 8) : Prop where
  full : ∀ c, test full c = true → (links.coll c).isSome = true
  free : ∀ c, freeCollIdx = some c → test links.collBitmap c = true ∧ ∀ lower < c, test links.collBitmap lower = false
  taken : freeCollIdx = none → ∀ c < collIdx, test links.collBitmap c = false

section Search
variable {links : Dirent} {bucketIdx collIdx c : Nat} {freeCollIdx : Option Nat} {full : Nat → BitVec 8}

theorem Sound.taken (sound : Sound links) (there : (links.coll c).isSome = true) : test links.collBitmap c = false := by
  have colls := sound.colls c
  rw [there] at colls
  exact Bool.eq_false_of_not_eq_true' colls.symm

/-- Collision files that are there are passed by. -/
theorem Scanning.pass (scanning : Scanning links collIdx freeCollIdx full) {next : Nat}
    (passed : ∀ c, collIdx ≤ c → c < next → test links.collBitmap c = false) : Scanning links next freeCollIdx full where
  full := scanning.full
  free := scanning.free
  taken none c low := by
    by_cases before : c < collIdx
    · exact scanning.taken none c before
    · exact passed c (Nat.le_of_not_lt before) low

/-- An index that is free is remembered, when none was. -/
theorem Scanning.remember (scanning : Scanning links collIdx freeCollIdx full) (free : test links.collBitmap collIdx = true) (next : Nat) :
    Scanning links next (some (freeCollIdx.getD collIdx)) full where
  full := scanning.full
  free c same := by
    cases known : freeCollIdx with
    | none =>
      rw [known] at same
      cases same
      exact ⟨free,scanning.taken known⟩
    | some first =>
      rw [known] at same
      cases same
      exact scanning.free first known
  taken none := by cases none

/-- The end of the loop: an entry was allocated in a collision file, or none of them has a free entry. -/
structure Searched (bucketIdx : Nat) (links : Dirent) (search : CollSearch) : Prop where
  full : ∀ c, test search.full c = true → (links.coll c).isSome = true
  found : ∀ c g' idx, search.found = some (c,g',idx) → ∃ g, links.coll c = some g ∧ Grown bucketIdx idx g g'
  missing : search.found = none → Scanning links maxCollsIdx search.freeCollIdx search.full

theorem Scanning.searched (scanning : Scanning links collIdx freeCollIdx full) (rest : ∀ c, collIdx ≤ c → c < maxCollsIdx →
    freeCollIdx = none → test links.collBitmap c = false) : Searched bucketIdx links ⟨none,freeCollIdx,full⟩ where
  full := scanning.full
  found c g' idx same := by cases same
  missing _ := by
    refine ⟨scanning.full,scanning.free,fun none c low => ?_⟩
    by_cases before : c < collIdx
    · exact scanning.taken none c before
    · exact rest c (Nat.le_of_not_lt before) low none

theorem searchColl_spec (sound : Sound links) (n : Nat) (enough : maxCollsIdx - collIdx ≤ n) (scanning : Scanning links collIdx freeCollIdx full) :
    Searched bucketIdx links (searchColl bucketIdx links n collIdx freeCollIdx full) := by
  induction n generalizing collIdx freeCollIdx full with
  | zero => exact scanning.searched fun c low high => absurd high (by omega)
  | succ n ih =>
    rw [searchColl]
    by_cases past : maxCollsIdx ≤ collIdx
    · rw [if_pos past]
      exact scanning.searched fun c low high => absurd high (by omega)
    rw [if_neg past]
    have index : ∀ o, (if collIdx % 8 = 0 then skipVal true full maxCollsIdx maxCollsIdx collIdx else some collIdx) = o →
        (o = none → ∀ c, collIdx ≤ c → c < maxCollsIdx → test links.collBitmap c = false) ∧
        ∀ r, o = some r → collIdx ≤ r ∧ r < maxCollsIdx ∧ Scanning links r freeCollIdx full := by
      rintro o rfl
      by_cases start : collIdx % 8 = 0
      · rw [if_pos start]
        have skip := Bitmap.skipVal_spec (v := true) (m := full) (show maxCollsIdx % 8 = 0 by decide) maxCollsIdx collIdx start (Nat.sub_le _ _)
        cases found : skipVal true full maxCollsIdx maxCollsIdx collIdx with
        | none =>
          rw [found] at skip
          refine ⟨fun _ c low high => sound.taken (scanning.full c (skip c low high)),fun r none => by cases none⟩
        | some next =>
          rw [found] at skip
          refine ⟨fun none => (by cases none),fun r same => ?_⟩
          cases same
          exact ⟨skip.1,skip.2.1,scanning.pass fun c low high => sound.taken (scanning.full c (skip.2.2 c low high))⟩
      · rw [if_neg start]
        refine ⟨fun none => (by cases none),fun r same => ?_⟩
        cases same
        exact ⟨Nat.le_refl _,by omega,scanning⟩
    cases reached : if collIdx % 8 = 0 then skipVal true full maxCollsIdx maxCollsIdx collIdx else some collIdx with
    | none => exact scanning.searched fun c low high _ => (index none reached).1 rfl c low high
    | some r =>
      obtain ⟨low,high,scanning⟩ := (index (some r) reached).2 r rfl
      simp only
      have one : test links.collBitmap r = false → Scanning links (r + 1) freeCollIdx full := fun taken =>
        scanning.pass fun c above below => by rwa [show c = r by omega]
      by_cases marked : test full r = true
      · rw [if_pos marked]
        exact ih (by omega) (one (sound.taken (scanning.full r marked)))
      rw [if_neg marked]
      by_cases free : test links.collBitmap r = true
      · rw [if_pos free]
        by_cases start : r % 8 = 0
        · rw [if_pos start]
          have skip := Bitmap.skipVal_spec (v := true) (m := links.collBitmap) (show maxCollsIdx % 8 = 0 by decide) maxCollsIdx r start
            (Nat.sub_le _ _)
          cases found : skipVal true links.collBitmap maxCollsIdx maxCollsIdx r with
          | none => exact (scanning.remember free r).searched fun c _ _ none => by cases none
          | some next =>
            rw [found] at skip
            refine ih ?_ (scanning.remember free _)
            split <;> omega
        · rw [if_neg start]
          exact ih (by omega) (scanning.remember free _)
      rw [if_neg free]
      have taken : test links.collBitmap r = false := eq_false_of_ne_true free
      have present : (links.coll r).isSome = true := by rw [sound.colls,taken]; rfl
      obtain ⟨file,there⟩ := Option.isSome_iff_exists.mp present
      have marks : ∀ c, test (setBit full r) c = true → (links.coll c).isSome = true := by
        intro c set
        rw [Bitmap.test_setBit,Bool.or_eq_true,decide_eq_true_eq] at set
        rcases set with rfl | set
        · exact present
        · exact scanning.full c set
      have allocated := allocateEntry_spec bucketIdx (sound.arrays_file (show links.file (some r) = some file from there))
      rw [there]
      simp only
      cases result : allocateEntry bucketIdx file with
      | none =>
        have next := one taken
        exact ih (by omega) ⟨marks,next.free,next.taken⟩
      | some place =>
        rw [result] at allocated
        refine ⟨fun c set => ?_,fun c g' idx same => ?_,fun none => by cases none⟩
        · simp only at set
          split at set
          · exact marks c set
          · exact scanning.full c set
        · cases same
          exact ⟨file,there,allocated⟩

end Search

/-- Files whose lists are sound, where a collision file that is marked full is there. -/
structure Ready (st : Files) : Prop where
  sound : Sound st.links
  full : ∀ c, test st.collBitmapHashFull c = true → (st.links.coll c).isSome = true

/-- What the allocation of a hash entry does. -/
structure Granted (bucketIdx : Nat) (file : Option Nat) (idx : Nat) (st st' : Files) : Prop where
  ready : Ready st'
  lists : ∀ b path, Chained st.links b path → Chained st'.links b path
  fresh : Fresh st'.links file idx
  coll : ∀ c, file = some c → (st'.links.coll c).isSome = true
  memory : (ptr st'.links bucketIdx (.bucket file)).isSome = true
  root : file ≠ none → st'.links.root = st.links.root
  names : ∀ f, st'.names f = st.names f ∧ (∀ i, freeBit st'.links f i = some true → freeBit st.links f i = some true) ∨
    st.links.file f = none ∧ st'.names f = NameChunks.empty
  was : freeBit st.links file idx = some true ∨ st'.names file = NameChunks.empty
  hash : st'.hash = st.hash
  area : st'.area = st.area

section Alloc
variable {st : Files} {bucketIdx b idx collIdx : Nat} {file : Option Nat} {g g' : CacheEntry} {path : List Slot}

/-- The entry is allocated in a file that is there. -/
theorem Ready.granted (ready : Ready st) (found : st.links.file file = some g) (grown : Grown bucketIdx idx g g') (hashEntryFull : Bool)
    {full : Nat → BitVec 8} (marks : ∀ c, test full c = true → (st.links.coll c).isSome = true) :
    Granted bucketIdx file idx st
      { st with links := st.links.setFile g' file, hashEntryFull := hashEntryFull, collBitmapHashFull := full } where
  ready := ⟨ready.sound.grown found grown,fun c set => (coll_setFile g' found c).trans (marks c set)⟩
  lists b path chained := chained.grown found grown
  fresh := ready.sound.fresh found grown
  coll c own := by
    subst own
    rw [coll_setFile g' found]
    have there : st.links.coll c = some g := found
    rw [there,Option.isSome_some]
  memory := by
    rw [ptr,DirentRepair.file_setFile,if_pos rfl]
    exact grown.memory
  root other := by
    cases file with
    | none => exact absurd rfl other
    | some c => rfl
  names f := by
    refine .inl ⟨rfl,fun i free => ?_⟩
    rw [freeBit,DirentRepair.file_setFile] at free
    by_cases own : f = file
    · subst own
      rw [if_pos rfl,Option.map_some,Option.some.injEq,grown.bits,Bool.and_eq_true] at free
      rw [freeBit,found,Option.map_some,free.1]
    · rw [if_neg own] at free
      exact free
  was := .inl (by rw [freeBit,found,Option.map_some,grown.free])
  hash := rfl
  area := rfl

/-- A collision file without entries is added. -/
def addColl (collIdx : Nat) (st : Dirent) : Dirent :=
  { st with collBitmap := clearBit st.collBitmap collIdx, coll := update st.coll collIdx (some createEntry) }

theorem file_addColl {f : Option Nat} (st : Dirent) (other : f ≠ some collIdx) : (addColl collIdx st).file f = st.file f := by
  cases f with
  | none => rfl
  | some c => exact Function.update_of_ne (fun same => other (congrArg some same)) _ _

theorem file_addColl_same (st : Dirent) : (addColl collIdx st).file (some collIdx) = some createEntry := Function.update_self ..

theorem Chained.addColl {st : Dirent} (chained : Chained st b path) (absent : st.coll collIdx = none) : Chained (addColl collIdx st) b path := by
  have missing : ∀ b, ptr st b (.bucket (some collIdx)) = none := fun b => by rw [ptr,Dirent.file,absent]; rfl
  have missing' : ∀ b, ptr (Dirents.addColl collIdx st) b (.bucket (some collIdx)) = none := fun b => by
    rw [ptr,file_addColl_same]
    rfl
  have apart : ∀ f i, .next f i ∈ path → f ≠ some collIdx := by
    rintro f i member rfl
    have busy := (chained.owned _ i member).busy
    rw [freeBit,Dirent.file,absent] at busy
    cases busy
  exact chained.frame {
    bucket f := by
      by_cases own : f = some collIdx
      · rw [own,follow,follow,missing,missing']
      · rw [follow,follow,ptr,ptr,file_addColl st own]
    kinds f p read := by
      by_cases own : f = some collIdx
      · rw [own,missing'] at read
        cases read
      · rw [ptr,file_addColl st own] at read
        exact chained.kinds f p read
    allocated f i member := by
      have owned := chained.owned f i member
      have same := file_addColl st (apart f i member)
      exact ⟨owned.low,by rw [freeBit,same]; exact owned.busy,by rw [entry,same]; exact owned.own⟩
    entries f i member := by rw [entry,entry,file_addColl st (apart f i member)] }

theorem Sound.addColl {st : Dirent} (sound : Sound st) (absent : st.coll collIdx = none) (low : collIdx < 1024) : Sound (addColl collIdx st) where
  lists b := by
    obtain ⟨path,chained⟩ := sound.lists b
    exact ⟨path,chained.addColl absent⟩
  colls c := by
    simp only [Dirents.addColl,Bitmap.test_clearBit]
    by_cases own : c = collIdx
    · subst own
      simp
    · simp only [own,decide_false,Bool.not_false,Bool.true_and,Function.update_of_ne own]
      exact sound.colls c
  low c there := by
    by_cases own : c = collIdx
    · rw [own]
      exact low
    · simp only [Dirents.addColl,Function.update_of_ne own] at there
      exact sound.low c there
  arrays f i j same := by
    by_cases own : f = some collIdx
    · subst own
      rw [entry,entry,file_addColl_same]
      rfl
    · simp only [entry,file_addColl st own]
      exact sound.arrays f i j same

/-- The entry is allocated in a new collision file. -/
theorem Ready.created (ready : Ready st) (absent : st.links.coll collIdx = none) (low : collIdx < 1024)
    (grown : Grown bucketIdx idx createEntry g') :
    Granted bucketIdx (some collIdx) idx st { st with
      links := { st.links with collBitmap := clearBit st.links.collBitmap collIdx, coll := update st.links.coll collIdx (some g') }
      names := update st.names (some collIdx) NameChunks.empty } := by
  have marks : ∀ c, test st.collBitmapHashFull c = true → ((addColl collIdx st.links).coll c).isSome = true := by
    intro c set
    by_cases own : c = collIdx
    · simp only [Dirents.addColl,own,Function.update_self,Option.isSome_some]
    · simp only [Dirents.addColl,Function.update_of_ne own]
      exact ready.full c set
  have added : Ready { st with links := addColl collIdx st.links, names := update st.names (some collIdx) NameChunks.empty } :=
    ⟨ready.sound.addColl absent low,marks⟩
  have granted := added.granted (file_addColl_same st.links) grown st.hashEntryFull marks
  have links : (addColl collIdx st.links).setFile g' (some collIdx) =
      { st.links with collBitmap := clearBit st.links.collBitmap collIdx, coll := update st.links.coll collIdx (some g') } := by
    simp only [Dirent.setFile,addColl,Function.update_idem]
  simp only [links] at granted
  exact { granted with
    lists b path chained := granted.lists b path (chained.addColl absent)
    root _ := rfl
    names f := by
      by_cases own : f = some collIdx
      · rw [own]
        exact .inr ⟨absent,Function.update_self ..⟩
      · refine .inl ⟨Function.update_of_ne own _ _,fun i free => ?_⟩
        rwa [freeBit,← links,DirentRepair.file_setFile,if_neg own,file_addColl st.links own] at free
    was := .inr (Function.update_self ..)
    hash := rfl
    area := rfl }

theorem Sound.absent (sound : Sound st.links) (free : test st.links.collBitmap collIdx = true) : st.links.coll collIdx = none := by
  have colls := sound.colls collIdx
  rw [free] at colls
  exact Option.isNone_iff_eq_none.mp (Option.isSome_eq_false_iff.mp colls)

/-- As long as one of the first 1024 collision files is not there, an entry is allocated. -/
theorem allocNameEntryIdx_spec (ready : Ready st) (bucketIdx : Nat) (room : ∃ c < 1024, test st.links.collBitmap c = true) :
    ∃ st' file idx, allocNameEntryIdx bucketIdx st = (st',some (file,idx)) ∧ Granted bucketIdx file idx st st' := by
  have root := allocateEntry_spec bucketIdx (ready.sound.arrays_file (show st.links.file none = some st.links.root from rfl))
  rw [allocNameEntryIdx]
  cases local_ : if st.hashEntryFull then none else allocateEntry bucketIdx st.links.root with
  | some place =>
    obtain ⟨g',idx⟩ := place
    have allocated : allocateEntry bucketIdx st.links.root = some (g',idx) := by
      split at local_
      · cases local_
      · exact local_
    rw [allocated] at root
    exact ⟨_,none,idx,rfl,ready.granted (by rfl) root _ ready.full⟩
  | none =>
    have searched := @searchColl_spec st.links bucketIdx 0 none st.collBitmapHashFull ready.sound maxCollsIdx
      (Nat.sub_le _ _) ⟨ready.full,fun c same => (by cases same),fun _ c low => absurd low (Nat.not_lt_zero c)⟩
    simp only
    cases found : (searchColl bucketIdx st.links maxCollsIdx 0 none st.collBitmapHashFull).found with
    | some place =>
      obtain ⟨c,g',idx⟩ := place
      obtain ⟨g,there,grown⟩ := searched.found c g' idx found
      exact ⟨_,some c,idx,rfl,ready.granted (show st.links.file (some c) = some g from there) grown true searched.full⟩
    | none =>
      have scanning := searched.missing found
      obtain ⟨r,inside,free⟩ := room
      -- the first free index was remembered
      cases known : (searchColl bucketIdx st.links maxCollsIdx 0 none st.collBitmapHashFull).freeCollIdx with
      | none =>
        have taken := scanning.taken known r (Nat.lt_trans inside (by decide))
        rw [free] at taken
        cases taken
      | some c =>
        obtain ⟨own,first⟩ := scanning.free c known
        have low : c < 1024 := by
          by_contra high
          have taken := first r (by omega)
          rw [free] at taken
          cases taken
        have created := allocateEntry_spec (g := createEntry) bucketIdx fun i j _ => by rfl
        cases allocated : allocateEntry bucketIdx createEntry with
        | none =>
          rw [allocated] at created
          cases created 0 (by decide)
        | some place =>
          obtain ⟨g',idx⟩ := place
          rw [allocated] at created
          have marked : Ready { st with hashEntryFull := true, collBitmapHashFull :=
            (searchColl bucketIdx st.links maxCollsIdx 0 none st.collBitmapHashFull).full } := ⟨ready.sound,searched.full⟩
          have granted := marked.created (ready.sound.absent own) low created
          refine ⟨_,some c,idx,?_,{ granted with }⟩
          simp only [createColl,allocated]

end Alloc

end Rozofs.Dirents
