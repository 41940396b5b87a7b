import Rozofs.RootCache

/-! The cache of root dirent files is a finite map, with two LRU lists, as long as no array of a
bucket is freed while it has entries. -/
namespace Rozofs.RootCache
open Function (update)
open Bitmap (visit setBit clearBit test test_setBit test_clearBit)

theorem findSome?_only {f : α → Option ρ} {xs : List α} (member : x ∈ xs) (here : f x = some r)
    (others : ∀ y ∈ xs, y ≠ x → f y = none) : xs.findSome? f = some r := by
  induction xs with
  | nil => cases member
  | cons y rest ih =>
    rw [List.findSome?_cons]
    by_cases same : y = x
    · rw [same,here]
    · rw [others y List.mem_cons_self same]
      exact ih ((List.mem_cons.mp member).resolve_left (Ne.symm same)) fun z later => others z (List.mem_cons_of_mem y later)

section Buckets
variable {κ : Type} {hash : κ → BitVec 32} {key : Nat → κ} {b : Bucket}

/-- The entry at a place of a bucket. -/
def Bucket.entryAt (b : Bucket) (i : Nat) : Option Nat := (b.entryTb (i / entriesPerArray)).bind fun a => a.entryPtr (i % entriesPerArray)

/-- The hash value at a place of a bucket. -/
def Bucket.hashAt (b : Bucket) (i : Nat) : Option (BitVec 16) := (b.entryTb (i / entriesPerArray)).map fun a => a.hashValue (i % entriesPerArray)

/-- The busy places of a bucket have the entries of its LRU list. -/
structure Bucket.Good (hash : κ → BitVec 32) (key : Nat → κ) (b : Bucket) : Prop where
  nodup : b.lru.Nodup
  busy : ∀ i < maxCollisions, test b.free i = false →
    ∃ e ∈ b.lru, b.entryAt i = some e ∧ b.hashAt i = some (hashBucketEntry (hash (key e)))
  only : ∀ i < maxCollisions, ∀ j < maxCollisions, test b.free i = false → test b.free j = false → b.entryAt i = b.entryAt j → i = j
  placed : ∀ e ∈ b.lru, ∃ i < maxCollisions, test b.free i = false ∧ b.entryAt i = some e

/-- The array of a place is not freed with other entries in it. -/
def keeps (b : Bucket) (i : Nat) : Bool :=
  !releaseReq (setBit b.free i) (i / entriesPerArray) ||
    (List.range entriesPerArray).all fun j => test (setBit b.free i) (entriesPerArray * (i / entriesPerArray) + j)

theorem good_initial : Bucket.Good hash key ⟨[],fun _ => 0xFF#8,fun _ => none⟩ where
  nodup := List.nodup_nil
  busy := fun i _ taken => by
    have free : test (fun _ => 0xFF#8) i = true := (Bitmap.eq_ones_iff _).mp rfl _ (Nat.mod_lt _ (by decide))
    rw [free] at taken
    cases taken
  only := fun i _ j _ taken => by
    have free : test (fun _ => 0xFF#8) i = true := (Bitmap.eq_ones_iff _).mp rfl _ (Nat.mod_lt _ (by decide))
    rw [free] at taken
    cases taken
  placed := fun _ member => by cases member

theorem Bucket.Good.congr (good : b.Good hash key) (same : ∀ e ∈ b.lru, key' e = key e) : b.Good hash key' where
  nodup := good.nodup
  busy := fun i low taken => by
    obtain ⟨e,member,entry,value⟩ := good.busy i low taken
    exact ⟨e,member,entry,by rw [same e member]; exact value⟩
  only := good.only
  placed := good.placed

theorem Bucket.Good.reorder (good : b.Good hash key) {order : List Nat} (nodup : order.Nodup) (same : ∀ e, e ∈ order ↔ e ∈ b.lru) :
    Bucket.Good hash key { b with lru := order } where
  nodup := nodup
  busy := fun i low taken => by
    obtain ⟨e,member,rest⟩ := good.busy i low taken
    exact ⟨e,(same e).mpr member,rest⟩
  only := good.only
  placed := fun e member => good.placed e ((same e).mp member)

/-- A place that stays busy is not touched by a removal. -/
theorem entryAt_remove (kept : keeps b i = true) (taken : test (setBit b.free i) j = false) :
    (b.remove i e).entryAt j = b.entryAt j ∧ (b.remove i e).hashAt j = b.hashAt j := by
  have other : j ≠ i := by
    rintro rfl
    simp [test_setBit] at taken
  by_cases array : j / entriesPerArray = i / entriesPerArray
  · -- the array is still there: this place of it is busy
    have stays : releaseReq (setBit b.free i) (i / entriesPerArray) = false := by
      rw [keeps,Bool.or_eq_true] at kept
      rcases kept with stays | all
      · simpa using stays
      · have free := List.all_eq_true.mp all (j % entriesPerArray) (List.mem_range.mpr (Nat.mod_lt _ (by decide)))
        have place : entriesPerArray * (i / entriesPerArray) + j % entriesPerArray = j := by
          rw [← array]
          exact Nat.div_add_mod j entriesPerArray
        rw [place,taken] at free
        cases free
    have apart : j % entriesPerArray ≠ i % entriesPerArray := fun same => other (by
      rw [← Nat.div_add_mod j entriesPerArray,← Nat.div_add_mod i entriesPerArray,array,same])
    cases content : b.entryTb (i / entriesPerArray) with
    | none => simp [Bucket.entryAt,Bucket.hashAt,Bucket.remove,array,stays,content]
    | some a => simp [Bucket.entryAt,Bucket.hashAt,Bucket.remove,array,stays,content,apart]
  · simp [Bucket.entryAt,Bucket.hashAt,Bucket.remove,array]

theorem Bucket.Good.remove (good : b.Good hash key) (low : i < maxCollisions) (taken : test b.free i = false)
    (entry : b.entryAt i = some e) (kept : keeps b i = true) : (b.remove i e).Good hash key := by
  have free : ∀ j, test (b.remove i e).free j = false → j ≠ i ∧ test b.free j = false := by
    intro j still
    have eq : (b.remove i e).free = setBit b.free i := rfl
    rw [eq,test_setBit,Bool.or_eq_false_iff,decide_eq_false_iff_not] at still
    exact still
  refine ⟨good.nodup.erase e,fun j inside still => ?_,fun j inside j' inside' still still' same => ?_,fun d member => ?_⟩
  · obtain ⟨other,before⟩ := free j still
    obtain ⟨d,member,at_j,value⟩ := good.busy j inside before
    obtain ⟨same,same'⟩ := entryAt_remove kept still
    refine ⟨d,(good.nodup.mem_erase_iff).mpr ⟨?_,member⟩,same.trans at_j,same'.trans value⟩
    rintro rfl
    exact other (good.only j inside i low before taken (at_j.trans entry.symm))
  · rw [(entryAt_remove kept still).1,(entryAt_remove kept still').1] at same
    exact good.only j inside j' inside' (free j still).2 (free j' still').2 same
  · obtain ⟨other,member⟩ := (good.nodup.mem_erase_iff).mp member
    obtain ⟨j,inside,before,at_j⟩ := good.placed d member
    have apart : j ≠ i := by
      rintro rfl
      exact other (Option.some.inj (at_j.symm.trans entry))
    have still : test (setBit b.free i) j = false := by simp [test_setBit,apart,before]
    exact ⟨j,inside,still,(entryAt_remove kept still).1.trans at_j⟩

/-- The bucket after an insertion for which there is memory. -/
theorem insert_memory (b : Bucket) (i : Nat) (value : BitVec 16) (e : Nat) : ∃ b', b.insert true i value e = (true,b') ∧
    b'.lru = e :: b.lru ∧ b'.free = clearBit b.free i ∧ b'.entryAt i = some e ∧ b'.hashAt i = some value ∧
    ∀ j, j ≠ i → (b.entryAt j).isSome = true → b'.entryAt j = b.entryAt j ∧ b'.hashAt j = b.hashAt j := by
  obtain ⟨a,allocated,old⟩ : ∃ a, (b.entryTb (i / entriesPerArray)).or (some .zero) = some a ∧
      ∀ a', b.entryTb (i / entriesPerArray) = some a' → a = a' := by
    cases content : b.entryTb (i / entriesPerArray) with
    | none => exact ⟨.zero,rfl,fun a' none => by cases none⟩
    | some a => exact ⟨a,rfl,fun a' same => Option.some.inj same⟩
  rw [Bucket.insert]
  simp only [if_true,allocated]
  refine ⟨_,rfl,rfl,rfl,by simp [Bucket.entryAt],by simp [Bucket.hashAt],fun j other present => ?_⟩
  by_cases array : j / entriesPerArray = i / entriesPerArray
  · have apart : j % entriesPerArray ≠ i % entriesPerArray := fun same => other (by
      rw [← Nat.div_add_mod j entriesPerArray,← Nat.div_add_mod i entriesPerArray,array,same])
    cases content : b.entryTb (i / entriesPerArray) with
    | none => simp [Bucket.entryAt,array,content] at present
    | some a' =>
      cases old a' content
      simp [Bucket.entryAt,Bucket.hashAt,array,content,apart]
  · simp [Bucket.entryAt,Bucket.hashAt,array]

theorem Bucket.Good.insert (good : b.Good hash key) (low : i < maxCollisions) (free : test b.free i = true) (fresh : e ∉ b.lru) :
    ∃ b', b.insert true i (hashBucketEntry (hash (key e))) e = (true,b') ∧ b'.lru = e :: b.lru ∧ b'.Good hash key := by
  obtain ⟨b',eq,lru,bits,entry,value,rest⟩ := insert_memory b i (hashBucketEntry (hash (key e))) e
  have other : ∀ j < maxCollisions, j ≠ i → test b'.free j = false → test b.free j = false ∧ ∃ d ∈ b.lru,
      b'.entryAt j = some d ∧ b.entryAt j = some d ∧ b'.hashAt j = some (hashBucketEntry (hash (key d))) := by
    intro j inside apart taken
    have before : test b.free j = false := by simpa [bits,test_clearBit,apart] using taken
    obtain ⟨d,member,at_j,hash_j⟩ := good.busy j inside before
    obtain ⟨same,same'⟩ := rest j apart (by rw [at_j]; rfl)
    exact ⟨before,d,member,same.trans at_j,at_j,same'.trans hash_j⟩
  refine ⟨b',eq,lru,⟨?_,fun j inside taken => ?_,fun j inside j' inside' taken taken' same => ?_,fun d member => ?_⟩⟩
  · rw [lru]
    exact List.nodup_cons.mpr ⟨fresh,good.nodup⟩
  · rw [lru]
    by_cases apart : j = i
    · subst apart
      exact ⟨e,List.mem_cons_self,entry,value⟩
    · obtain ⟨-,d,member,at_j,-,hash_j⟩ := other j inside apart taken
      exact ⟨d,List.mem_cons_of_mem e member,at_j,hash_j⟩
  · by_cases apart : j = i
    · by_cases apart' : j' = i
      · rw [apart,apart']
      · obtain ⟨-,d,member,at_j',-⟩ := other j' inside' apart' taken'
        rw [apart,entry,at_j'] at same
        exact absurd (Option.some.inj same ▸ member) fresh
    · obtain ⟨before,d,member,at_j,old,-⟩ := other j inside apart taken
      by_cases apart' : j' = i
      · rw [apart',entry,at_j] at same
        exact absurd (Option.some.inj same ▸ member) fresh
      · obtain ⟨before',d',-,at_j',old',-⟩ := other j' inside' apart' taken'
        rw [at_j,at_j'] at same
        exact good.only j inside j' inside' before before' (old.trans (same.trans old'.symm))
  · rw [lru] at member
    rcases List.mem_cons.mp member with rfl | member
    · exact ⟨i,low,by simp [bits,test_clearBit],entry⟩
    · obtain ⟨j,inside,before,at_j⟩ := good.placed d member
      have apart : j ≠ i := by
        rintro rfl
        rw [free] at before
        cases before
      exact ⟨j,inside,by simp [bits,test_clearBit,before],(rest j apart (by rw [at_j]; rfl)).1.trans at_j⟩

/-- In a full bucket the array of a place has other entries, in all the bytes that are looked at. -/
theorem keeps_full (full : ∀ j < maxCollisions, test b.free j = false) (low : i < maxCollisions) : keeps b i = true := by
  have size : maxCollisions = 256 := rfl
  have array : i / entriesPerArray = i / 32 := rfl
  have busy : releaseReq (setBit b.free i) (i / entriesPerArray) = false := by
    rw [releaseReq,List.all_eq_false]
    -- a byte that does not have the place
    obtain ⟨n,few,away⟩ : ∃ n < 4, i / 8 ≠ i / entriesPerArray + n := by
      by_cases zero : i / 8 = i / entriesPerArray
      · exact ⟨1,by decide,by omega⟩
      · exact ⟨0,by decide,by omega⟩
    refine ⟨n,List.mem_range.mpr few,?_⟩
    have bit := full (8 * (i / entriesPerArray + n)) (by omega)
    have still : test (setBit b.free i) (8 * (i / entriesPerArray + n)) = false := by
      rw [test_setBit,bit,Bool.or_false,decide_eq_false_iff_not]
      omega
    intro all
    have here : (8 * (i / entriesPerArray + n)) / 8 = i / entriesPerArray + n := by omega
    rw [test,here,of_decide_eq_true all] at still
    have ones := (Bitmap.eq_ones_iff 0xFF#8).mp rfl _ (Nat.mod_lt (8 * (i / entriesPerArray + n)) (show 0 < 8 by decide))
    rw [still] at ones
    cases ones
  rw [keeps,busy]
  rfl

theorem freePlace_spec (b : Bucket) : match freePlace b with
    | some i => i < maxCollisions ∧ test b.free i = true
    | none => ∀ i < maxCollisions, test b.free i = false := by
  have eq : freePlace b = (List.range' 0 maxCollisions).findSome? fun j => if test b.free j = false then none else some j :=
    Bitmap.visit_eq (by decide) some maxCollisions 0 (Nat.le_refl _)
  cases found : freePlace b with
  | none =>
    rw [eq,List.findSome?_eq_none_iff] at found
    intro i low
    have none := found i (by rw [List.mem_range'_1]; omega)
    by_cases free : test b.free i = false
    · exact free
    · rw [if_neg free] at none
      cases none
  | some i =>
    rw [eq] at found
    obtain ⟨j,member,here⟩ := List.exists_of_findSome?_eq_some found
    rw [List.mem_range'_1] at member
    split at here
    · cases here
    · rename_i free
      cases here
      exact ⟨by omega,by simpa using free⟩

end Buckets

section Cache
variable {κ : Type} [DecidableEq κ] {hash : κ → BitVec 32} {cache : Cache κ} {live : List (κ × Nat)}

/-- The cache has the entries of `live`, under their keys. -/
structure Held (hash : κ → BitVec 32) (cache : Cache κ) (live : List (κ × Nat)) : Prop where
  keys : (live.map Prod.fst).Nodup
  entries : (live.map Prod.snd).Nodup
  key : ∀ p ∈ live, cache.key p.2 = p.1
  good : ∀ h, (cache.htable h).Good hash cache.key
  bucket : ∀ h e, e ∈ (cache.htable h).lru ↔ ∃ p ∈ live, p.2 = e ∧ hashBucket (hash p.1) = h
  nodup : cache.lru.Nodup
  lru : ∀ e, e ∈ cache.lru ↔ ∃ p ∈ live, p.2 = e
  size : cache.size = live.length

omit [DecidableEq κ] in
theorem held_initial (zero : κ) : Held hash (initial zero) [] where
  keys := List.nodup_nil
  entries := List.nodup_nil
  key := fun _ member => by cases member
  good := fun _ => good_initial
  bucket := by simp [initial]
  nodup := List.nodup_nil
  lru := by simp [initial]
  size := rfl

theorem unique_of_map {f : α → β} {xs : List α} (nodup : (xs.map f).Nodup) (first : x ∈ xs) (second : y ∈ xs) (same : f x = f y) : x = y :=
  List.inj_on_of_nodup_map nodup first second same

/-- What the loops do at a busy place. -/
theorem matchPlace_busy (held : Held hash cache live) (k : κ) (low : i < maxCollisions)
    (taken : test (cache.htable h).free i = false) : ∃ p ∈ live, (cache.htable h).entryAt i = some p.2 ∧ hashBucket (hash p.1) = h ∧
      matchPlace hash cache k (cache.htable h) i = if p.1 = k then some (.found i p.2) else none := by
  obtain ⟨e,member,entry,value⟩ := (held.good h).busy i low taken
  obtain ⟨p,inside,rfl,bucket⟩ := (held.bucket h e).mp member
  refine ⟨p,inside,entry,bucket,?_⟩
  rw [held.key p inside] at value
  cases content : (cache.htable h).entryTb (i / entriesPerArray) with
  | none => simp [Bucket.entryAt,content] at entry
  | some a =>
    have pointer : a.entryPtr (i % entriesPerArray) = some p.2 := by simpa [Bucket.entryAt,content] using entry
    have hashed : a.hashValue (i % entriesPerArray) = hashBucketEntry (hash p.1) := by simpa [Bucket.hashAt,content] using value
    simp only [matchPlace,content,pointer,hashed,held.key p inside]
    by_cases same : p.1 = k
    · simp [same]
    · simp [same]

theorem lookup_eq (k : κ) (cache : Cache κ) : lookup hash k cache = (List.range' 0 maxCollisions).findSome? fun j =>
    if test (cache.htable (hashBucket (hash k))).free j = true then none
    else matchPlace hash cache k (cache.htable (hashBucket (hash k))) j :=
  Bitmap.visit_eq (by decide) _ maxCollisions 0 (Nat.le_refl _)

/-- A key of the cache is found at the place of its entry. -/
theorem Held.lookup (held : Held hash cache live) (member : p ∈ live) : ∃ i < maxCollisions,
    test (cache.htable (hashBucket (hash p.1))).free i = false ∧
    (cache.htable (hashBucket (hash p.1))).entryAt i = some p.2 ∧ lookup hash p.1 cache = some (.found i p.2) := by
  obtain ⟨i,low,taken,entry⟩ := (held.good _).placed p.2 ((held.bucket (hashBucket (hash p.1)) p.2).mpr ⟨p,member,rfl,rfl⟩)
  refine ⟨i,low,taken,entry,?_⟩
  rw [lookup_eq]
  refine findSome?_only (List.mem_range'_1.mpr ⟨Nat.zero_le i,by omega⟩) ?_ fun j inside other => ?_
  · obtain ⟨q,here,entry',-,eq⟩ := matchPlace_busy held p.1 low taken
    have same : q = p := unique_of_map held.entries here member (Option.some.inj (entry'.symm.trans entry))
    rw [if_neg (by rw [taken]; exact Bool.false_ne_true),eq,same,if_pos rfl]
  · by_cases free : test (cache.htable (hashBucket (hash p.1))).free j = true
    · exact if_pos free
    · rw [Bool.not_eq_true] at free
      have bound : j < maxCollisions := by
        rw [List.mem_range'_1] at inside
        omega
      obtain ⟨q,here,entry',-,eq⟩ := matchPlace_busy held p.1 bound free
      have apart : q.1 ≠ p.1 := by
        intro same
        cases unique_of_map held.keys here member same
        exact other ((held.good _).only j bound i low free taken (entry'.trans entry.symm))
      rw [if_neg (by rw [free]; exact Bool.false_ne_true),eq,if_neg apart]

/-- A key that is not in the cache is not found. -/
theorem Held.lookup_absent (held : Held hash cache live) (absent : ∀ p ∈ live, p.1 ≠ k) : Rozofs.RootCache.lookup hash k cache = none := by
  rw [lookup_eq,List.findSome?_eq_none_iff]
  intro j inside
  by_cases free : test (cache.htable (hashBucket (hash k))).free j = true
  · exact if_pos free
  · rw [if_neg free]
    rw [Bool.not_eq_true] at free
    have bound : j < maxCollisions := by
      rw [List.mem_range'_1] at inside
      omega
    obtain ⟨q,here,-,-,eq⟩ := matchPlace_busy held k bound free
    rw [eq,if_neg (absent q here)]

/-- The removal of a key, if it is in the cache, keeps the array of its place. -/
def keepsKey (hash : κ → BitVec 32) (key : κ) (cache : Cache κ) : Bool :=
  match lookup hash key cache with
  | some (.found i _) => keeps (cache.htable (hashBucket (hash key))) i
  | _ => true

theorem mem_filter_key (held : Held hash cache live) (member : p ∈ live) :
    q ∈ live.filter (fun q => q.1 ≠ p.1) ↔ q ∈ live ∧ q.2 ≠ p.2 := by
  rw [List.mem_filter,decide_eq_true_eq]
  refine and_congr_right fun inside => not_congr ⟨fun same => ?_,fun same => ?_⟩
  · rw [unique_of_map held.keys inside member same]
  · rw [unique_of_map held.entries inside member same]

theorem length_filter_key (keys : (live.map Prod.fst).Nodup) (member : p ∈ live) :
    (live.filter fun q => q.1 ≠ p.1).length = live.length - 1 := by
  induction live with
  | nil => cases member
  | cons q rest ih =>
    rw [List.map_cons,List.nodup_cons] at keys
    rcases List.mem_cons.mp member with rfl | member
    · have all : rest.filter (fun q => q.1 ≠ p.1) = rest := by
        rw [List.filter_eq_self]
        intro r inside
        refine decide_eq_true fun same => keys.1 ?_
        rw [← same]
        exact List.mem_map_of_mem inside
      rw [List.filter_cons_of_neg (by simp),all,List.length_cons,Nat.add_sub_cancel]
    · have other : q.1 ≠ p.1 := fun same => keys.1 (same ▸ List.mem_map_of_mem member)
      have some := List.length_pos_of_mem member
      rw [List.filter_cons_of_pos (by simpa using other),List.length_cons,List.length_cons,ih keys.2 member]
      omega

/-- The removal of a key of the cache. -/
theorem Held.remove (held : Held hash cache live) (member : p ∈ live) (kept : keepsKey hash p.1 cache = true) :
    ∃ cache', removeEntry hash p.1 cache = some (true,cache') ∧ cache'.key = cache.key ∧
      (∃ i < maxCollisions, test (cache'.htable (hashBucket (hash p.1))).free i = true) ∧ Held hash cache' (live.filter fun q => q.1 ≠ p.1) := by
  obtain ⟨i,low,taken,entry,found⟩ := held.lookup member
  rw [keepsKey,found] at kept
  have mem_iff : ∀ q, q ∈ live.filter (fun q => q.1 ≠ p.1) ↔ q ∈ live ∧ q.2 ≠ p.2 := fun q => mem_filter_key held member
  rw [removeEntry]
  simp only [found]
  have freed : test ((cache.htable (hashBucket (hash p.1))).remove i p.2).free i = true := by simp [Bucket.remove,test_setBit]
  refine ⟨_,rfl,rfl,⟨i,low,by simpa using freed⟩,?_,?_,?_,?_,?_,held.nodup.erase _,?_,?_⟩
  · exact held.keys.sublist (List.filter_sublist.map _)
  · exact held.entries.sublist (List.filter_sublist.map _)
  · intro q inside
    exact held.key q ((mem_iff q).mp inside).1
  · intro h
    by_cases here : h = hashBucket (hash p.1)
    · subst here
      simp only [Function.update_self]
      exact (held.good _).remove low taken entry kept
    · simp only [Function.update_of_ne here]
      exact held.good h
  · intro h e
    simp only [mem_iff]
    by_cases here : h = hashBucket (hash p.1)
    · subst here
      simp only [Function.update_self]
      have eq : ((cache.htable (hashBucket (hash p.1))).remove i p.2).lru = (cache.htable (hashBucket (hash p.1))).lru.erase p.2 := rfl
      rw [eq,(held.good _).nodup.mem_erase_iff,held.bucket]
      constructor
      · rintro ⟨other,q,inside,rfl,bucket⟩
        exact ⟨q,⟨inside,other⟩,rfl,bucket⟩
      · rintro ⟨q,⟨inside,other⟩,rfl,bucket⟩
        exact ⟨other,q,inside,rfl,bucket⟩
    · simp only [Function.update_of_ne here,held.bucket]
      constructor
      · rintro ⟨q,inside,rfl,bucket⟩
        refine ⟨q,⟨inside,fun same => here ?_⟩,rfl,bucket⟩
        rw [← bucket,unique_of_map held.entries inside member same]
      · rintro ⟨q,⟨inside,-⟩,rfl,bucket⟩
        exact ⟨q,inside,rfl,bucket⟩
  · intro e
    simp only [mem_iff]
    rw [held.nodup.mem_erase_iff,held.lru]
    constructor
    · rintro ⟨other,q,inside,rfl⟩
      exact ⟨q,⟨inside,other⟩,rfl⟩
    · rintro ⟨q,⟨inside,other⟩,rfl⟩
      exact ⟨other,q,inside,rfl⟩
  · simp only [held.size,length_filter_key held.keys member]

theorem Held.remove_absent (held : Held hash cache live) (absent : ∀ p ∈ live, p.1 ≠ k) :
    removeEntry hash k cache = some (false,cache) := by
  rw [removeEntry]
  simp only [held.lookup_absent absent]

theorem nodup_front {xs : List Nat} (nodup : xs.Nodup) (e : Nat) : (e :: xs.erase e).Nodup :=
  List.nodup_cons.mpr ⟨nodup.not_mem_erase,nodup.erase e⟩

theorem mem_front {xs : List Nat} (member : e ∈ xs) (d : Nat) : d ∈ e :: xs.erase e ↔ d ∈ xs :=
  (List.perm_cons_erase member).mem_iff.symm

/-- The entry of a key of the cache is found and goes to the front of the LRU lists. -/
theorem Held.search (held : Held hash cache live) (member : p ∈ live) :
    ∃ cache', searchEntry hash p.1 cache = some (some p.2,cache') ∧ Held hash cache' live := by
  obtain ⟨i,low,taken,entry,found⟩ := held.lookup member
  have inBucket : p.2 ∈ (cache.htable (hashBucket (hash p.1))).lru := (held.bucket _ _).mpr ⟨p,member,rfl,rfl⟩
  have inLru : p.2 ∈ cache.lru := (held.lru _).mpr ⟨p,member,rfl⟩
  rw [searchEntry]
  simp only [found]
  refine ⟨_,rfl,held.keys,held.entries,held.key,?_,?_,nodup_front held.nodup _,?_,held.size⟩
  · intro h
    by_cases here : h = hashBucket (hash p.1)
    · subst here
      simp only [touch,Function.update_self]
      exact (held.good _).reorder (nodup_front (held.good _).nodup _) (mem_front inBucket)
    · simp only [touch,Function.update_of_ne here]
      exact held.good h
  · intro h e
    rw [← held.bucket]
    by_cases here : h = hashBucket (hash p.1)
    · subst here
      simp only [touch,Function.update_self]
      exact mem_front inBucket e
    · simp only [touch,Function.update_of_ne here]
  · intro e
    rw [← held.lru]
    exact mem_front inLru e

theorem Held.search_absent (held : Held hash cache live) (absent : ∀ p ∈ live, p.1 ≠ k) :
    searchEntry hash k cache = some (none,cache) := by
  rw [searchEntry]
  simp only [held.lookup_absent absent]

omit [DecidableEq κ] in
/-- The key of an entry that is not in the cache is set. -/
theorem Held.setKey (held : Held hash cache live) (fresh : ∀ p ∈ live, p.2 ≠ e) (k : κ) :
    Held hash { cache with key := update cache.key e k } live := by
  have same : ∀ p ∈ live, update cache.key e k p.2 = cache.key p.2 := fun p member => Function.update_of_ne (fresh p member) _ _
  refine { held with key := fun p member => (same p member).trans (held.key p member), good := fun h => ?_ }
  refine (held.good h).congr fun d member => ?_
  obtain ⟨p,inside,rfl,-⟩ := (held.bucket h d).mp member
  exact same p inside

/-- The insertion of an entry at a free place. -/
theorem Held.insertFree (held : Held hash cache live) (fresh : ∀ p ∈ live, p.1 ≠ k ∧ p.2 ≠ e) (key : cache.key e = k)
    (found : freePlace (cache.htable (hashBucket (hash k))) = some i) (n : Nat) :
    ∃ cache', insertPlace hash true k e (n + 1) cache = some (true,[],cache') ∧ Held hash cache' ((k,e) :: live) := by
  have place := freePlace_spec (cache.htable (hashBucket (hash k)))
  rw [found] at place
  have absent : e ∉ (cache.htable (hashBucket (hash k))).lru := by
    intro member
    obtain ⟨p,inside,same,-⟩ := (held.bucket _ _).mp member
    exact (fresh p inside).2 same
  obtain ⟨b',eq,lru,good⟩ := (held.good (hashBucket (hash k))).insert place.1 place.2 absent
  rw [key] at eq
  rw [insertPlace]
  simp only [found,eq,if_true]
  refine ⟨_,rfl,?_,?_,?_,?_,?_,?_,?_,?_⟩
  · refine List.nodup_cons.mpr ⟨fun member => ?_,held.keys⟩
    obtain ⟨p,inside,same⟩ := List.mem_map.mp member
    exact (fresh p inside).1 same
  · refine List.nodup_cons.mpr ⟨fun member => ?_,held.entries⟩
    obtain ⟨p,inside,same⟩ := List.mem_map.mp member
    exact (fresh p inside).2 same
  · intro p member
    rcases List.mem_cons.mp member with rfl | member
    · exact key
    · exact held.key p member
  · intro h
    by_cases here : h = hashBucket (hash k)
    · subst here
      simp only [Function.update_self]
      exact good
    · simp only [Function.update_of_ne here]
      exact held.good h
  · intro h d
    simp only [List.exists_mem_cons_iff]
    by_cases here : h = hashBucket (hash k)
    · subst here
      simp only [Function.update_self,lru,List.mem_cons,held.bucket,and_true,eq_comm]
    · simp only [Function.update_of_ne here,held.bucket,Ne.symm here,and_false,false_or]
  · refine List.nodup_cons.mpr ⟨fun member => ?_,held.nodup⟩
    obtain ⟨p,inside,same⟩ := (held.lru e).mp member
    exact (fresh p inside).2 same
  · intro d
    rw [List.exists_mem_cons_iff,List.mem_cons,held.lru,eq_comm]
  · simp only [held.size,List.length_cons]

/-- The oldest entry of an LRU list is evicted. -/
theorem Held.evict (held : Held hash cache live) {order : List Nat} (nonempty : order ≠ []) (inside : ∀ e ∈ order, ∃ p ∈ live, p.2 = e)
    (kept : ∀ old, order.getLast? = some old → keepsKey hash (cache.key old) cache = true) :
    ∃ p ∈ live, ∃ cache', evictLast hash order cache = some (true,[p.2],cache') ∧ cache'.key = cache.key ∧
      (∃ i < maxCollisions, test (cache'.htable (hashBucket (hash p.1))).free i = true) ∧
      Held hash cache' (live.filter fun q => q.2 ∉ [p.2]) ∧ order.getLast? = some p.2 := by
  have last := List.getLast?_eq_getLast_of_ne_nil nonempty
  obtain ⟨p,member,old⟩ := inside _ (List.getLast_mem nonempty)
  rw [← old] at last
  have spare := kept p.2 last
  rw [held.key p member] at spare
  obtain ⟨cache',eq,key,freed,held'⟩ := held.remove member spare
  have same : (live.filter fun q => q.2 ∉ [p.2]) = live.filter fun q => q.1 ≠ p.1 := by
    refine List.filter_congr fun q here => ?_
    rw [decide_eq_decide,List.mem_singleton]
    exact ⟨fun other both => other (by rw [unique_of_map held.keys here member both]),
      fun other both => other (by rw [unique_of_map held.entries here member both])⟩
  refine ⟨p,member,cache',?_,key,freed,same ▸ held',last⟩
  rw [evictLast,last]
  simp only [held.key p member,eq,Option.map_some,if_true]

/-- The insertion in a bucket, which evicts an entry of a full bucket. -/
theorem Held.insertPlace (held : Held hash cache live) (fresh : ∀ p ∈ live, p.1 ≠ k ∧ p.2 ≠ e) (key : cache.key e = k) :
    ∃ released cache', insertPlace hash true k e 2 cache = some (true,released,cache') ∧
      Held hash cache' ((k,e) :: live.filter fun p => p.2 ∉ released) := by
  have place := freePlace_spec (cache.htable (hashBucket (hash k)))
  cases found : freePlace (cache.htable (hashBucket (hash k))) with
  | some i =>
    obtain ⟨cache',eq,held'⟩ := held.insertFree fresh key found 1
    refine ⟨[],cache',eq,?_⟩
    rw [List.filter_eq_self.mpr fun p _ => decide_eq_true List.not_mem_nil]
    exact held'
  | none =>
    rw [found] at place
    obtain ⟨d,member,-⟩ := (held.good (hashBucket (hash k))).busy 0 (by decide) (place 0 (by decide))
    -- no array of a full bucket is freed
    have kept : ∀ old, (cache.htable (hashBucket (hash k))).lru.getLast? = some old → keepsKey hash (cache.key old) cache = true := by
      intro old last
      obtain ⟨p,inside,rfl,bucket⟩ := (held.bucket _ _).mp (List.mem_of_getLast? last)
      obtain ⟨i,low,-,-,at_i⟩ := held.lookup inside
      rw [held.key p inside,keepsKey,at_i]
      simp only [bucket]
      exact keeps_full place low
    obtain ⟨p,inside,cache₁,evicted,key₁,⟨i,low,freed⟩,held₁,last⟩ := held.evict (List.ne_nil_of_mem member) (fun e member => by
      obtain ⟨p,inside,same,-⟩ := (held.bucket _ _).mp member
      exact ⟨p,inside,same⟩) kept
    have fresh₁ : ∀ q ∈ live.filter fun q => q.2 ∉ [p.2], q.1 ≠ k ∧ q.2 ≠ e := fun q here => fresh q (List.mem_of_mem_filter here)
    have room : ∃ i, freePlace (cache₁.htable (hashBucket (hash k))) = some i := by
      obtain ⟨q,here,same,bucket⟩ := (held.bucket _ _).mp (List.mem_of_getLast? last)
      rw [unique_of_map held.entries here inside same] at bucket
      rw [bucket] at freed
      have again := freePlace_spec (cache₁.htable (hashBucket (hash k)))
      cases full : freePlace (cache₁.htable (hashBucket (hash k))) with
      | some i => exact ⟨i,rfl⟩
      | none =>
        rw [full] at again
        rw [again i low] at freed
        cases freed
    obtain ⟨i,free⟩ := room
    obtain ⟨cache',eq,held'⟩ := held₁.insertFree fresh₁ (key₁ ▸ key) free 0
    refine ⟨[p.2],cache',?_,held'⟩
    rw [Rozofs.RootCache.insertPlace]
    simp only [found,evicted,eq,Option.map_some,List.append_nil]

/-- `dirent_cache_bucket_insert_entry` when there is memory. -/
theorem Held.insert (held : Held hash cache live) (fresh : ∀ p ∈ live, p.1 ≠ k ∧ p.2 ≠ e) (key : cache.key e = k) (room : 0 < limit)
    (kept : limit ≤ cache.size → ∀ old, cache.lru.getLast? = some old → keepsKey hash (cache.key old) cache = true) :
    ∃ released cache', insertEntry hash limit true k e cache = some (true,released,cache') ∧
      Held hash cache' ((k,e) :: live.filter fun p => p.2 ∉ released) := by
  rw [insertEntry]
  by_cases full : limit ≤ cache.size
  · have some : cache.lru ≠ [] := by
      intro none
      have size := held.size
      cases live with
      | nil =>
        rw [List.length_nil] at size
        omega
      | cons p rest =>
        have member := (held.lru p.2).mpr ⟨p,List.mem_cons_self,rfl⟩
        rw [none] at member
        cases member
    obtain ⟨p,inside,cache₁,evicted,key₁,-,held₁,-⟩ := held.evict some (fun e => (held.lru e).mp) (kept full)
    have fresh₁ : ∀ q ∈ live.filter fun q => q.2 ∉ [p.2], q.1 ≠ k ∧ q.2 ≠ e := fun q here => fresh q (List.mem_of_mem_filter here)
    obtain ⟨released,cache',eq,held'⟩ := held₁.insertPlace fresh₁ (key₁ ▸ key)
    rw [if_pos full]
    simp only [evicted,eq,Option.map_some]
    refine ⟨_,cache',rfl,?_⟩
    rw [List.filter_filter] at held'
    have same : (live.filter fun q => q.2 ∉ [p.2] ++ released) =
        live.filter fun q => decide (q.2 ∉ released) && decide (q.2 ∉ [p.2]) := by
      refine List.filter_congr fun q _ => ?_
      rw [← Bool.decide_and,decide_eq_decide,List.mem_append,not_or,and_comm]
    rw [same]
    exact held'
  · rw [if_neg full]
    exact held.insertPlace fresh key

end Cache

section Runs
variable {κ : Type} [DecidableEq κ] {hash : κ → BitVec 32}

/-- No array is freed with entries in it, neither by a removal nor by the eviction of the oldest
entry of a full cache, and there is memory for a new array. -/
def keepsArrays (hash : κ → BitVec 32) (limit : Nat) (st : State κ) : Action κ → Bool
  | .insert _ _ memory => memory && (st.cache.size < limit || (st.cache.lru.getLast?.map fun old =>
      keepsKey hash (st.cache.key old) st.cache).getD true)
  | .search _ => true
  | .remove key => keepsKey hash key st.cache

theorem keepsKey_setKey (held : Held hash cache live) (fresh : ∀ p ∈ live, p.2 ≠ e) (member : p ∈ live) (k : κ)
    (kept : keepsKey hash p.1 cache = true) : keepsKey hash p.1 { cache with key := update cache.key e k } = true := by
  obtain ⟨i,low,taken,entry,found⟩ := held.lookup member
  obtain ⟨j,low',taken',entry',found'⟩ := (held.setKey fresh k).lookup member
  have same : i = j := (held.good _).only i low j low' taken taken' (entry.trans entry'.symm)
  rw [keepsKey,found] at kept
  rw [keepsKey,found',← same]
  exact kept

/-- The insertion of a key that is absent, in an entry that is not in the cache. -/
theorem Held.insertNew {cache : Cache κ} {live : List (κ × Nat)} (held : Held hash cache live)
    (absent : ∀ p ∈ live, p.1 ≠ k ∧ p.2 ≠ e) (room : 0 < limit)
    (kept : keepsArrays hash limit ⟨cache,live⟩ (.insert k e true) = true) :
    ∃ released cache', insertEntry hash limit true k e { cache with key := update cache.key e k } = some (true,released,cache') ∧
      Held hash cache' ((k,e) :: live.filter fun p => p.2 ∉ released) := by
  have unused : ∀ p ∈ live, p.2 ≠ e := fun p member => (absent p member).2
  refine (held.setKey unused k).insert absent (Function.update_self _ _ _) room fun full old last => ?_
  obtain ⟨p,member,rfl⟩ := (held.lru old).mp (List.mem_of_getLast? last)
  rw [keepsArrays,Bool.true_and] at kept
  have spare := (Bool.or_eq_true _ _ ▸ kept).resolve_left fun small => by
    have low : cache.size < limit := of_decide_eq_true small
    simp only at full
    omega
  simp only at last
  rw [last,Option.map_some,Option.getD_some,held.key p member] at spare
  simp only [Function.update_of_ne (unused p member),held.key p member]
  exact keepsKey_setKey held unused member k spare

/-- An insertion is for a key that is absent, with an entry that is not in the cache. -/
def fresh (st : State κ) : Action κ → Prop
  | .insert key entry _ => ∀ p ∈ st.live, p.1 ≠ key ∧ p.2 ≠ entry
  | _ => True

theorem Held.step (room : 0 < limit) {st : State κ} (held : Held hash st.cache st.live) {action : Action κ}
    (kept : keepsArrays hash limit st action = true) (absent : fresh st action) :
    ∃ st', step hash limit action st = some st' ∧ Held hash st'.cache st'.live := by
  cases action with
  | insert key entry memory =>
    rw [fresh] at absent
    have found : memory = true := by
      rw [keepsArrays,Bool.and_eq_true] at kept
      exact kept.1
    subst found
    obtain ⟨released,cache',eq,held'⟩ := held.insertNew absent room kept
    refine ⟨⟨cache',_⟩,?_,held'⟩
    rw [RootCache.step,if_pos absent,eq]
    simp only [Option.map_some,if_true]
  | search key =>
    by_cases there : ∃ p ∈ st.live, p.1 = key
    · obtain ⟨p,member,rfl⟩ := there
      obtain ⟨cache',eq,held'⟩ := held.search member
      exact ⟨_,by rw [RootCache.step,eq,Option.map_some],held'⟩
    · have missing : ∀ p ∈ st.live, p.1 ≠ key := fun p member same => there ⟨p,member,same⟩
      exact ⟨_,by rw [RootCache.step,held.search_absent missing,Option.map_some],held⟩
  | remove key =>
    by_cases there : ∃ p ∈ st.live, p.1 = key
    · obtain ⟨p,member,rfl⟩ := there
      obtain ⟨cache',eq,-,-,held'⟩ := held.remove member kept
      exact ⟨_,by rw [RootCache.step,eq,Option.map_some],held'⟩
    · have missing : ∀ p ∈ st.live, p.1 ≠ key := fun p member same => there ⟨p,member,same⟩
      refine ⟨_,by rw [RootCache.step,held.remove_absent missing,Option.map_some],?_⟩
      rw [List.filter_eq_self.mpr fun p member => decide_eq_true (missing p member)]
      exact held

theorem fresh_of_step {st : State κ} {action : Action κ} (next : step hash limit action st = some st') : fresh st action := by
  cases action with
  | insert key entry memory =>
    rw [step] at next
    split at next
    · rename_i absent
      exact absent
    · cases next
  | search key => trivial
  | remove key => trivial

theorem held_run (room : 0 < limit) (zero : κ) {st : State κ}
    (run : Machine.Run (step hash limit) (fun st action => keepsArrays hash limit st action = true) ⟨initial zero,[]⟩ st) :
    Held hash st.cache st.live := by
  refine run.invariant (fun st => Held hash st.cache st.live) (held_initial zero) fun st action st' held kept next => ?_
  obtain ⟨_,eq,held'⟩ := held.step room kept (fresh_of_step next)
  cases eq.symm.trans next
  exact held'

theorem lookup_of_mem {live : List (κ × Nat)} (keys : (live.map Prod.fst).Nodup) (member : p ∈ live) : live.lookup p.1 = some p.2 := by
  obtain ⟨before,after,split⟩ := List.append_of_mem member
  rw [List.lookup_eq_some_iff]
  refine ⟨before,after,split,fun q earlier => bne_iff_ne.mpr fun same => ?_⟩
  rw [split,List.map_append,List.map_cons] at keys
  exact (List.nodup_append.mp keys).2.2 q.1 (List.mem_map_of_mem earlier) p.1 List.mem_cons_self same.symm

/-- What a search finds, and the cache after it. -/
theorem Held.search_lookup {cache : Cache κ} {live : List (κ × Nat)} (held : Held hash cache live) (key : κ) :
    ∃ cache', searchEntry hash key cache = some (live.lookup key,cache') ∧ Held hash cache' live := by
  by_cases there : ∃ p ∈ live, p.1 = key
  · obtain ⟨p,member,rfl⟩ := there
    rw [lookup_of_mem held.keys member]
    exact held.search member
  · have missing : ∀ p ∈ live, p.1 ≠ key := fun p member same => there ⟨p,member,same⟩
    have none : live.lookup key = none := by
      rw [List.lookup_eq_none_iff]
      exact fun p member => bne_iff_ne.mpr (Ne.symm (missing p member))
    rw [none]
    exact ⟨cache,held.search_absent missing,held⟩

theorem Held.search_eq (held : Held hash cache live) (key : κ) : (searchEntry hash key cache).map Prod.fst = some (live.lookup key) := by
  obtain ⟨cache',eq,-⟩ := held.search_lookup key
  rw [eq,Option.map_some]

/-- In every run in which no array is freed with entries in it, a search finds the entry of a key
that was inserted and neither removed nor evicted since, and nothing for other keys, removals and
insertions do not follow a null pointer, the size is the number of entries and the LRU lists have
exactly these entries. -/
theorem root_cache_is_map (room : 0 < limit) (zero : κ) {st : State κ}
    (run : Machine.Run (step hash limit) (fun st action => keepsArrays hash limit st action = true) ⟨initial zero,[]⟩ st) :
    (∀ key, (searchEntry hash key st.cache).map Prod.fst = some (st.live.lookup key)) ∧
    (∀ action, keepsArrays hash limit st action = true → fresh st action → (step hash limit action st).isSome = true) ∧
    st.cache.size = st.live.length ∧ (st.live.map Prod.fst).Nodup ∧
    st.cache.lru.Nodup ∧ (∀ entry, entry ∈ st.cache.lru ↔ ∃ key, (key,entry) ∈ st.live) ∧
    ∀ h, (st.cache.htable h).lru.Nodup ∧ ∀ entry, entry ∈ (st.cache.htable h).lru ↔ ∃ key, (key,entry) ∈ st.live ∧ hashBucket (hash key) = h := by
  have held := held_run room zero run
  refine ⟨fun key => ?_,fun action kept absent => ?_,held.size,held.keys,held.nodup,fun entry => ?_,fun h => ⟨(held.good h).nodup,fun entry => ?_⟩⟩
  · exact held.search_eq key
  · obtain ⟨st',eq,-⟩ := held.step room kept absent
    rw [eq]
    rfl
  · rw [held.lru]
    constructor
    · rintro ⟨p,member,rfl⟩
      exact ⟨p.1,member⟩
    · rintro ⟨key,member⟩
      exact ⟨_,member,rfl⟩
  · rw [held.bucket]
    constructor
    · rintro ⟨p,member,rfl,bucket⟩
      exact ⟨p.1,member,bucket⟩
    · rintro ⟨key,member,bucket⟩
      exact ⟨_,member,rfl,bucket⟩

end Runs

/-- All keys go to one bucket. -/
def collide (_ : Nat) : BitVec 32 := 0

/-- Forty keys of one bucket are inserted in a cache of 39 entries, and the last array is emptied. -/
theorem root_cache_is_map_collisions : ∃ st : State Nat,
    Machine.Run (step collide 39) (fun st action => keepsArrays collide 39 st action = true) ⟨initial 0,[]⟩ st ∧
    (searchEntry collide 5 st.cache).map Prod.fst = some (some 5) ∧ (searchEntry collide 0 st.cache).map Prod.fst = some none ∧
    st.cache.size = 32 := by
  have done : (Machine.exec (step collide 39) (fun st action => keepsArrays collide 39 st action = true)
      ((List.range 40).map (fun i => .insert i i true) ++ (List.range' 32 7).map .remove) ⟨initial 0,[]⟩).map
      (fun st => (st.live.lookup 5,st.live.lookup 0,st.live.length)) = some (some 5,none,32) := by decide +kernel
  obtain ⟨st,done,seen⟩ := Option.map_eq_some_iff.mp done
  obtain ⟨there,seen⟩ := Prod.mk.inj seen
  obtain ⟨evicted,count⟩ := Prod.mk.inj seen
  have run : Machine.Run (step collide 39) (fun st action => keepsArrays collide 39 st action = true) ⟨initial 0,[]⟩ st :=
    Machine.Run.refl.exec done
  obtain ⟨search,-,size,-⟩ := root_cache_is_map (by decide) 0 run
  exact ⟨st,run,by rw [search,there],by rw [search,evicted],by rw [size,count]⟩

/-- Forty-one keys of one bucket are inserted, and those of the places 8 to 39 are removed: the last
removal frees the second array, with the place 40, whose key is not found any more. -/
theorem array_freed_with_entry : ∃ st : State Nat, Machine.Run (step collide 256000) (fun _ _ => True) ⟨initial 0,[]⟩ st ∧
    (40,40) ∈ st.live ∧ (searchEntry collide 40 st.cache).map Prod.fst = some none := by
  have done : (Machine.exec (step collide 256000) (fun _ _ => True)
      ((List.range 41).map (fun i => .insert i i true) ++ (List.range' 8 32).map .remove) ⟨initial 0,[]⟩).map
      (fun st => (decide ((40,40) ∈ st.live),(searchEntry collide 40 st.cache).map Prod.fst)) = some (true,some none) := by decide +kernel
  obtain ⟨st,done,seen⟩ := Option.map_eq_some_iff.mp done
  obtain ⟨there,lost⟩ := Prod.mk.inj seen
  exact ⟨st,Machine.Run.refl.exec done,of_decide_eq_true there,lost⟩

end Rozofs.RootCache
