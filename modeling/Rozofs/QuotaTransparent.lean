import Rozofs.QuotaWriteback

/-! The quota write-back cache is transparent: a read gives the last record written for its key, or
the one on disk, as long as no write counter wraps. -/
namespace Rozofs.QuotaWriteback
open Function (update)

variable {ν : Type} {c : Cache ν} {k : Key} {slot i j : Nat} {data buf : Dquot ν}

theorem key_ext {a b : Key} (table : a.table = b.table) (qid : a.qid = b.qid) : a = b := by
  have eid : a.eid = b.eid := BitVec.eq_of_toNat_eq (congrArg DiskTb.eid table)
  have type : a.type = b.type := congrArg DiskTb.type table
  cases a
  cases b
  simp_all

/-- A key of an export is not the one of an unused chunk. -/
theorem key_ne_zero (eid : k.eid ≠ 0) : k ≠ .zero := by
  rintro rfl
  exact eid rfl

/-- Every chunk that holds data is in the slot of its key with the table of its key, and what is
clean is on disk; a key has one chunk. -/
structure Coherent (c : Cache ν) : Prop where
  empty : ∀ slot i, (c.chunk slot i).chunk = none → (c.chunk slot i).key = .zero ∧ (c.chunk slot i).wrCpt = 0
  filled : ∀ slot i data, (c.chunk slot i).chunk = some data →
    (c.chunk slot i).key = data.key ∧ data.key ≠ .zero ∧ getIndex data.key = slot ∧ (c.chunk slot i).ctx = data.key.table
  clean : ∀ slot i data, (c.chunk slot i).chunk = some data → (c.chunk slot i).wrCpt = 0 →
    c.disk data.key.table data.key.qid = some data
  unique : ∀ slot i j, (c.chunk slot i).key = (c.chunk slot j).key → (c.chunk slot i).key ≠ .zero → i = j

theorem coherent_start (disk : DiskTb → BitVec 32 → Option (Dquot ν)) : Coherent (start disk).cache := by
  refine ⟨fun _ _ _ => ⟨rfl,rfl⟩,fun _ _ _ held => ?_,fun _ _ _ held => ?_,fun _ _ _ _ used => absurd rfl used⟩
  · cases held
  · cases held

/-- The record of a key: in its chunk, or else on disk. -/
def Cache.view (c : Cache ν) (k : Key) : Option (Dquot ν) :=
  match c.matching k with
  | none => c.disk k.table k.qid
  | some i => (c.chunk (getIndex k) i).chunk

theorem matching_some (found : c.matching k = some i) : i < cacheMaxChunk ∧ (c.chunk (getIndex k) i).key = k := by
  have here := List.find?_some found
  exact ⟨List.mem_range.mp (List.mem_of_find?_eq_some found),of_decide_eq_true here⟩

theorem matching_none (absent : c.matching k = none) (inside : i < cacheMaxChunk) : (c.chunk (getIndex k) i).key ≠ k := by
  have none := List.find?_eq_none.mp absent i (List.mem_range.mpr inside)
  simpa using none

namespace Coherent

/-- The chunk of a key of an export holds its data. -/
theorem held (coherent : Coherent c) (used : k ≠ .zero) (key : (c.chunk slot i).key = k) :
    ∃ data, (c.chunk slot i).chunk = some data ∧ data.key = k := by
  cases chunk : (c.chunk slot i).chunk with
  | none => exact absurd (key.symm.trans (coherent.empty slot i chunk).1) used
  | some data => exact ⟨data,rfl,((coherent.filled slot i data chunk).1.symm.trans key)⟩

theorem matching_of (coherent : Coherent c) (inside : i < cacheMaxChunk) (used : k ≠ .zero)
    (key : (c.chunk (getIndex k) i).key = k) : c.matching k = some i := by
  cases found : c.matching k with
  | none => exact absurd key (matching_none found inside)
  | some j =>
    have other := (matching_some found).2
    rw [coherent.unique _ j i (other.trans key.symm) fun zero => used (other.symm.trans zero)]

theorem view_held (coherent : Coherent c) (inside : i < cacheMaxChunk) (used : k ≠ .zero)
    (chunk : (c.chunk (getIndex k) i).chunk = some data) (key : data.key = k) : c.view k = some data := by
  have own : (c.chunk (getIndex k) i).key = k := (coherent.filled _ i data chunk).1.trans key
  rw [Cache.view,coherent.matching_of inside used own]
  exact chunk

theorem view_disk (absent : ∀ i < cacheMaxChunk, (c.chunk (getIndex k) i).key ≠ k) : c.view k = c.disk k.table k.qid := by
  cases found : c.matching k with
  | none => rw [Cache.view,found]
  | some i => exact absurd (matching_some found).2 (absent i (matching_some found).1)

theorem read (coherent : Coherent c) (used : buf.key ≠ .zero) : c.read buf.key.table buf = (c.view buf.key).getD buf := by
  simp only [Cache.read,Cache.view]
  cases found : c.matching buf.key with
  | none => rfl
  | some i =>
    obtain ⟨data,chunk,_⟩ := coherent.held used (matching_some found).2
    simp only [chunk,Option.getD_some]

end Coherent

@[simp] theorem setChunk_disk (new : Chunk ν) : (c.setChunk slot i new).disk = c.disk := rfl

theorem setChunk_here (new : Chunk ν) : (c.setChunk slot i new).chunk slot i = new := by
  simp [Cache.setChunk]

theorem setChunk_other {new : Chunk ν} (other : ¬(slot' = slot ∧ i' = i)) :
    (c.setChunk slot i new).chunk slot' i' = c.chunk slot' i' := by
  by_cases same : slot' = slot
  · subst same
    have ne : i' ≠ i := fun here => other ⟨rfl,here⟩
    simp [Cache.setChunk,ne]
  · simp [Cache.setChunk,same]

@[simp] theorem diskWrite_chunk (ctx : DiskTb) : (c.diskWrite ctx data).chunk = c.chunk := rfl

theorem diskWrite_here : (c.diskWrite data.key.table data).disk data.key.table data.key.qid = some data := by
  simp [Cache.diskWrite]

theorem diskWrite_other (other : k ≠ data.key) : (c.diskWrite data.key.table data).disk k.table k.qid = c.disk k.table k.qid := by
  by_cases table : k.table = data.key.table
  · have qid : k.qid ≠ data.key.qid := fun qid => other (key_ext table qid)
    simp [Cache.diskWrite,table,qid]
  · simp [Cache.diskWrite,table]

/-- What the flush of a chunk that holds data does. -/
structure Flushed (c c' : Cache ν) (slot i : Nat) (data : Dquot ν) : Prop where
  here : c'.chunk slot i = { c.chunk slot i with wrCpt := 0 }
  there : ∀ slot' i', ¬(slot' = slot ∧ i' = i) → c'.chunk slot' i' = c.chunk slot' i'
  stored : c'.disk data.key.table data.key.qid = some data
  others : ∀ k : Key, k ≠ data.key → c'.disk k.table k.qid = c.disk k.table k.qid

theorem Coherent.flushChunk (coherent : Coherent c) (chunk : (c.chunk slot i).chunk = some data) :
    Flushed c (c.flushChunk slot i) slot i data := by
  have table := (coherent.filled slot i data chunk).2.2.2
  simp only [Cache.flushChunk,chunk,table]
  refine ⟨?_,fun slot' i' other => ?_,?_,fun k other => ?_⟩
  · rw [setChunk_here]
    simp [chunk,table]
  · exact setChunk_other other
  · exact diskWrite_here
  · exact diskWrite_other other

namespace Flushed
variable {c' : Cache ν}

/-- A flush changes the counter of its chunk only. -/
theorem fields (flushed : Flushed c c' slot i data) (slot' i' : Nat) :
    (c'.chunk slot' i').key = (c.chunk slot' i').key ∧ (c'.chunk slot' i').chunk = (c.chunk slot' i').chunk ∧
      (c'.chunk slot' i').ctx = (c.chunk slot' i').ctx := by
  by_cases here : slot' = slot ∧ i' = i
  · rw [here.1,here.2,flushed.here]
    exact ⟨rfl,rfl,rfl⟩
  · rw [flushed.there slot' i' here]
    exact ⟨rfl,rfl,rfl⟩

theorem coherent (flushed : Flushed c c' slot i data) (before : Coherent c) (chunk : (c.chunk slot i).chunk = some data) :
    Coherent c' := by
  refine ⟨fun slot' i' none => ?_,fun slot' i' other some => ?_,fun slot' i' other some counter => ?_,fun slot' i' j' same used => ?_⟩
  · have fields := flushed.fields slot' i'
    have ne : ¬(slot' = slot ∧ i' = i) := by
      rintro ⟨rfl,rfl⟩
      rw [fields.2.1,chunk] at none
      cases none
    rw [flushed.there slot' i' ne] at none ⊢
    exact before.empty slot' i' none
  · have fields := flushed.fields slot' i'
    rw [fields.2.1] at some
    rw [fields.1,fields.2.2]
    exact before.filled slot' i' other some
  · rw [(flushed.fields slot' i').2.1] at some
    by_cases key : other.key = data.key
    · have filled := before.filled slot' i' other some
      have own := before.filled slot i data chunk
      have slots : slot' = slot := by rw [← filled.2.2.1,← own.2.2.1,key]
      subst slots
      have place : i' = i := before.unique slot' i' i (by rw [filled.1,own.1,key]) (filled.1 ▸ filled.2.1)
      subst place
      rw [chunk] at some
      cases some
      exact flushed.stored
    · rw [flushed.others other.key key]
      have ne : ¬(slot' = slot ∧ i' = i) := by
        rintro ⟨rfl,rfl⟩
        rw [chunk] at some
        cases some
        exact key rfl
      rw [flushed.there slot' i' ne] at counter
      exact before.clean slot' i' other some counter
  · rw [(flushed.fields slot' i').1] at same used
    rw [(flushed.fields slot' j').1] at same
    exact before.unique slot' i' j' same used

theorem view (flushed : Flushed c c' slot i data) (before : Coherent c) (inside : i < cacheMaxChunk)
    (chunk : (c.chunk slot i).chunk = some data) (k : Key) : c'.view k = c.view k := by
  have match_eq : c'.matching k = c.matching k := by
    simp only [Cache.matching]
    congr 1
    funext j
    rw [(flushed.fields (getIndex k) j).1]
  simp only [Cache.view,match_eq]
  cases found : c.matching k with
  | some j => exact (flushed.fields (getIndex k) j).2.1
  | none =>
    apply flushed.others
    rintro rfl
    have own := before.filled slot i data chunk
    exact matching_none found inside (by rw [own.2.2.1]; exact own.1)

end Flushed

/-- A record goes into a chunk that is its own, or free for it: what the chunk held is on disk. -/
structure Place (c : Cache ν) (i : Nat) (buf : Dquot ν) : Prop where
  inside : i < cacheMaxChunk
  alone : ∀ j, (c.chunk (getIndex buf.key) j).key = buf.key → j = i
  saved : ∀ data, (c.chunk (getIndex buf.key) i).chunk = some data → data.key ≠ buf.key →
    c.disk data.key.table data.key.qid = some data

namespace Place
variable {cpt : BitVec 32}

theorem coherent (place : Place c i buf) (before : Coherent c) (used : buf.key ≠ .zero) (counted : cpt ≠ 0) :
    Coherent (c.setChunk (getIndex buf.key) i ⟨cpt,buf.key,buf.key.table,some buf⟩) := by
  have split : ∀ slot' i', (c.setChunk (getIndex buf.key) i ⟨cpt,buf.key,buf.key.table,some buf⟩).chunk slot' i' =
        ⟨cpt,buf.key,buf.key.table,some buf⟩ ∧ slot' = getIndex buf.key ∧ i' = i ∨
      (c.setChunk (getIndex buf.key) i ⟨cpt,buf.key,buf.key.table,some buf⟩).chunk slot' i' = c.chunk slot' i' ∧
        ¬(slot' = getIndex buf.key ∧ i' = i) := by
    intro slot' i'
    by_cases here : slot' = getIndex buf.key ∧ i' = i
    · exact .inl ⟨by rw [here.1,here.2,setChunk_here],here⟩
    · exact .inr ⟨setChunk_other here,here⟩
  refine ⟨fun slot' i' none => ?_,fun slot' i' data some => ?_,fun slot' i' data some counter => ?_,fun slot' i' j' same used => ?_⟩
  · rcases split slot' i' with ⟨new,_⟩ | ⟨old,_⟩
    · rw [new] at none
      cases none
    · rw [old] at none ⊢
      exact before.empty slot' i' none
  · rcases split slot' i' with ⟨new,rfl,_⟩ | ⟨old,_⟩
    · rw [new] at some ⊢
      cases some
      exact ⟨rfl,used,rfl,rfl⟩
    · rw [old] at some ⊢
      exact before.filled slot' i' data some
  · rcases split slot' i' with ⟨new,_⟩ | ⟨old,_⟩
    · rw [new] at counter
      exact absurd counter counted
    · rw [old] at some counter
      exact before.clean slot' i' data some counter
  · rcases split slot' i' with ⟨new,slots,rfl⟩ | ⟨old,elsewhere⟩ <;> rcases split slot' j' with ⟨new',slots',rfl⟩ | ⟨old',elsewhere'⟩
    · rfl
    · rw [new,old',slots] at same
      exact (place.alone j' same.symm).symm
    · rw [old,new',slots'] at same
      exact place.alone i' same
    · rw [old,old'] at same
      rw [old] at used
      exact before.unique slot' i' j' same used

theorem view_own (place : Place c i buf) (before : Coherent c) (used : buf.key ≠ .zero) (counted : cpt ≠ 0) :
    (c.setChunk (getIndex buf.key) i ⟨cpt,buf.key,buf.key.table,some buf⟩).view buf.key = some buf := by
  apply (place.coherent before used counted).view_held place.inside used _ rfl
  rw [setChunk_here]

theorem view_other (place : Place c i buf) (before : Coherent c) (used : buf.key ≠ .zero) (counted : cpt ≠ 0)
    (valid : k ≠ .zero) (other : k ≠ buf.key) :
    (c.setChunk (getIndex buf.key) i ⟨cpt,buf.key,buf.key.table,some buf⟩).view k = c.view k := by
  have after := place.coherent before used counted
  cases found : c.matching k with
  | some j =>
    obtain ⟨inside,key⟩ := matching_some found
    obtain ⟨data,chunk,own⟩ := before.held valid key
    rw [before.view_held inside valid chunk own]
    by_cases here : getIndex k = getIndex buf.key ∧ j = i
    · -- the chunk of the other key was free, its record is read from disk
      have gone : ∀ j < cacheMaxChunk,
          ((c.setChunk (getIndex buf.key) i ⟨cpt,buf.key,buf.key.table,some buf⟩).chunk (getIndex k) j).key ≠ k := by
        intro j' _ there
        by_cases same : j' = i
        · rw [same,here.1,setChunk_here] at there
          exact other there.symm
        · rw [setChunk_other fun both => same both.2] at there
          exact same ((before.unique _ j' j (there.trans key.symm) (fun zero => valid (there.symm.trans zero))).trans here.2)
      rw [Coherent.view_disk gone,setChunk_disk,← own]
      rw [here.1,here.2] at chunk
      exact place.saved data chunk (own ▸ other)
    · apply after.view_held inside valid _ own
      rw [setChunk_other here]
      exact chunk
  | none =>
    rw [Coherent.view_disk fun j inside => matching_none found inside]
    apply Coherent.view_disk
    intro j inside there
    by_cases here : getIndex k = getIndex buf.key ∧ j = i
    · rw [here.1,here.2,setChunk_here] at there
      exact other there.symm
    · rw [setChunk_other here] at there
      exact matching_none found inside there

end Place

/-- What a write does: the cache stays coherent, the key of the record has it as its view, and all
other keys keep theirs. -/
structure Stored (c c' : Cache ν) (buf : Dquot ν) : Prop where
  coherent : Coherent c'
  own : c'.view buf.key = some buf
  others : ∀ k : Key, k ≠ .zero → k ≠ buf.key → c'.view k = c.view k

theorem Place.stored {cpt : BitVec 32} (place : Place c i buf) (before : Coherent c) (used : buf.key ≠ .zero) (counted : cpt ≠ 0) :
    Stored c (c.setChunk (getIndex buf.key) i ⟨cpt,buf.key,buf.key.table,some buf⟩) buf :=
  ⟨place.coherent before used counted,place.view_own before used counted,
    fun _ valid other => place.view_other before used counted valid other⟩

theorem freeChunk_some (found : c.freeChunk slot = some i) :
    i < cacheMaxChunk ∧ ((c.chunk slot i).key = .zero ∨ (c.chunk slot i).wrCpt = 0) := by
  have here := List.find?_some found
  exact ⟨List.mem_range.mp (List.mem_of_find?_eq_some found),of_decide_eq_true here⟩

theorem freeChunk_none (full : c.freeChunk slot = none) (inside : i < cacheMaxChunk) :
    (c.chunk slot i).key ≠ .zero ∧ (c.chunk slot i).wrCpt ≠ 0 := by
  have none := List.find?_eq_none.mp full i (List.mem_range.mpr inside)
  simpa [not_or] using none

/-- A free chunk is clean, even when it was never used. -/
theorem Coherent.free_clean (coherent : Coherent c) (free : (c.chunk slot i).key = .zero ∨ (c.chunk slot i).wrCpt = 0) :
    (c.chunk slot i).wrCpt = 0 := by
  rcases free with zero | clean
  · cases chunk : (c.chunk slot i).chunk with
    | none => exact (coherent.empty slot i chunk).2
    | some data =>
      have filled := coherent.filled slot i data chunk
      exact absurd (filled.1.symm.trans zero) (filled.2.1)
  · exact clean

/-- All the chunks beyond the last one are unused. -/
def Bounded (c : Cache ν) : Prop := ∀ slot i, cacheMaxChunk ≤ i → (c.chunk slot i).key = .zero

theorem Coherent.alone (bounded : Bounded c) (used : buf.key ≠ .zero) (absent : c.matching buf.key = none) (j : Nat) :
    (c.chunk (getIndex buf.key) j).key ≠ buf.key := by
  intro key
  by_cases inside : j < cacheMaxChunk
  · exact matching_none absent inside key
  · exact used (key.symm.trans (bounded _ j (Nat.not_lt.mp inside)))

theorem Coherent.write (coherent : Coherent c) (bounded : Bounded c) (used : buf.key ≠ .zero)
    (counted : ∀ i < cacheMaxChunk, (c.chunk (getIndex buf.key) i).key = buf.key →
      (c.chunk (getIndex buf.key) i).wrCpt + 1 ≠ 0) :
    Stored c (c.write buf.key.table buf) buf := by
  simp only [Cache.write]
  cases found : c.matching buf.key with
  | some i =>
    obtain ⟨inside,key⟩ := matching_some found
    have place : Place c i buf := by
      refine ⟨inside,fun j same => ?_,fun data chunk other => ?_⟩
      · exact coherent.unique _ j i (same.trans key.symm) fun zero => used (same.symm.trans zero)
      · exact absurd ((coherent.filled _ i data chunk).1.symm.trans key) other
    have stored := place.stored coherent used (counted i inside key)
    simp only [key]
    exact stored
  | none =>
    have alone := Coherent.alone bounded used found
    cases free : c.freeChunk (getIndex buf.key) with
    | some i =>
      obtain ⟨inside,free⟩ := freeChunk_some free
      have clean := coherent.free_clean free
      have place : Place c i buf :=
        ⟨inside,fun j same => absurd same (alone j),fun data chunk _ => coherent.clean _ i data chunk clean⟩
      apply place.stored coherent used
      rw [clean]
      decide
    | none =>
      obtain ⟨dirty,_⟩ := freeChunk_none free (i := 0) (by decide)
      cases chunk : (c.chunk (getIndex buf.key) 0).chunk with
      | none => exact absurd (coherent.empty _ 0 chunk).1 dirty
      | some data =>
        have flushed := coherent.flushChunk chunk
        have after := flushed.coherent coherent chunk
        have place : Place (c.flushChunk (getIndex buf.key) 0) 0 buf := by
          refine ⟨by decide,fun j same => ?_,fun other there _ => ?_⟩
          · rw [(flushed.fields _ j).1] at same
            exact absurd same (alone j)
          · rw [(flushed.fields _ 0).2.1,chunk] at there
            cases there
            exact flushed.stored
        have stored : Stored (c.flushChunk (getIndex buf.key) 0) ((c.flushChunk (getIndex buf.key) 0).setChunk (getIndex buf.key) 0
            ⟨((c.flushChunk (getIndex buf.key) 0).chunk (getIndex buf.key) 0).wrCpt + 1,buf.key,buf.key.table,some buf⟩) buf := by
          apply place.stored after used
          simp only [flushed.here]
          decide
        refine ⟨stored.coherent,stored.own,fun k valid other => ?_⟩
        rw [stored.others k valid other]
        exact flushed.view coherent (by decide) chunk k

theorem Bounded.setChunk (bounded : Bounded c) (inside : i < cacheMaxChunk) (new : Chunk ν) :
    Bounded (c.setChunk slot i new) := by
  intro slot' i' beyond
  rw [setChunk_other fun here => absurd here.2 (by omega)]
  exact bounded slot' i' beyond

theorem Bounded.flushChunk (bounded : Bounded c) (inside : i < cacheMaxChunk) : Bounded (c.flushChunk slot i) := by
  simp only [Cache.flushChunk]
  cases (c.chunk slot i).chunk with
  | none => exact bounded
  | some data => exact Bounded.setChunk (c := c.diskWrite _ data) bounded inside _

theorem Bounded.write (bounded : Bounded c) (diskP : DiskTb) : Bounded (c.write diskP buf) := by
  simp only [Cache.write]
  cases found : c.matching buf.key with
  | some i => exact bounded.setChunk (matching_some found).1 _
  | none =>
    cases free : c.freeChunk (getIndex buf.key) with
    | some i => exact bounded.setChunk (freeChunk_some free).1 _
    | none => exact (bounded.flushChunk (by decide)).setChunk (by decide) _

/-- What a flush of some chunks does: the views stay, and so do the keys of the chunks. -/
structure Drained (c c' : Cache ν) : Prop where
  coherent : Coherent c'
  bounded : Bounded c'
  view : ∀ k, c'.view k = c.view k
  key : ∀ slot i, (c'.chunk slot i).key = (c.chunk slot i).key

theorem Drained.refl (coherent : Coherent c) (bounded : Bounded c) : Drained c c :=
  ⟨coherent,bounded,fun _ => rfl,fun _ _ => rfl⟩

theorem Drained.trans {c₁ c₂ : Cache ν} (first : Drained c c₁) (second : Drained c₁ c₂) : Drained c c₂ :=
  ⟨second.coherent,second.bounded,fun k => (second.view k).trans (first.view k),
    fun slot i => (second.key slot i).trans (first.key slot i)⟩

theorem drained_flushChunk (coherent : Coherent c) (bounded : Bounded c) (inside : i < cacheMaxChunk) :
    Drained c (c.flushChunk slot i) := by
  cases chunk : (c.chunk slot i).chunk with
  | none =>
    simp only [Cache.flushChunk,chunk]
    exact .refl coherent bounded
  | some data =>
    have flushed := coherent.flushChunk chunk
    exact ⟨flushed.coherent coherent chunk,bounded.flushChunk inside,flushed.view coherent inside chunk,
      fun slot i => (flushed.fields slot i).1⟩

theorem drained_diskflush (coherent : Coherent c) (bounded : Bounded c) (slot : Nat) : Drained c (c.diskflush slot) := by
  simp only [Cache.diskflush]
  have inside : ∀ i ∈ List.range cacheMaxChunk, i < cacheMaxChunk := fun i => List.mem_range.mp
  -- over the chunks of the slot that are left to flush
  generalize List.range cacheMaxChunk = left at inside
  induction left generalizing c with
  | nil => exact .refl coherent bounded
  | cons i left ih =>
    simp only [List.mem_cons,forall_eq_or_imp] at inside
    simp only [List.foldl_cons]
    split
    · exact ih coherent bounded inside.2
    · have first : Drained c (c.flushChunk slot i) := drained_flushChunk coherent bounded inside.1
      exact first.trans (ih first.coherent first.bounded inside.2)

/-- The invariant of a run: the cache is coherent and gives each key the record expected of it. -/
structure Transparent (s : State ν) : Prop where
  coherent : Coherent s.cache
  bounded : Bounded s.cache
  view : ∀ k : Key, k ≠ .zero → s.cache.view k = s.expected k

theorem transparent_start (disk : DiskTb → BitVec 32 → Option (Dquot ν)) : Transparent (start disk) := by
  refine ⟨coherent_start disk,fun _ _ _ => rfl,fun k used => ?_⟩
  apply Coherent.view_disk
  exact fun _ _ zero => used zero.symm

variable {s s' : State ν} {a : Action ν}

/-- What each step does. -/
theorem step_cases (stepped : step a s = some s') :
    (∃ buf, a = .write buf.key.table buf ∧ buf.key.eid ≠ 0 ∧
      s' = ⟨s.cache.write buf.key.table buf,update s.expected buf.key (some buf)⟩) ∨
    ((∃ diskP buf, a = .read diskP buf) ∧ s' = s) ∨
    (∃ slot, a = .flush slot ∧ s' = { s with cache := s.cache.diskflush slot }) := by
  cases a with
  | write diskP buf =>
    simp only [step,Option.ite_none_right_eq_some,Option.some.injEq] at stepped
    obtain ⟨⟨rfl,eid⟩,rfl⟩ := stepped
    exact .inl ⟨buf,rfl,eid,rfl⟩
  | read diskP buf =>
    simp only [step,Option.ite_none_right_eq_some,Option.some.injEq] at stepped
    exact .inr (.inl ⟨⟨diskP,buf,rfl⟩,stepped.2.symm⟩)
  | flush slot =>
    simp only [step,Option.some.injEq] at stepped
    exact .inr (.inr ⟨slot,rfl,stepped.symm⟩)

theorem Transparent.drained (before : Transparent s) (drained : Drained s.cache c) : Transparent { s with cache := c } :=
  ⟨drained.coherent,drained.bounded,fun k used => (drained.view k).trans (before.view k used)⟩

theorem Transparent.step (before : Transparent s) (counted : Counted s a) (stepped : step a s = some s') : Transparent s' := by
  rcases step_cases stepped with ⟨buf,rfl,eid,rfl⟩ | ⟨_,rfl⟩ | ⟨slot,rfl,rfl⟩
  · have stored := before.coherent.write before.bounded (key_ne_zero eid) counted
    refine ⟨stored.coherent,before.bounded.write _,fun k used => ?_⟩
    by_cases own : k = buf.key
    · simp only [own,stored.own,Function.update_self]
    · simp only [stored.others k used own,Function.update_of_ne own]
      exact before.view k used
  · exact before
  · have drained := drained_diskflush before.coherent before.bounded slot
    exact before.drained drained

theorem transparent_run {disk : DiskTb → BitVec 32 → Option (Dquot ν)} (run : Machine.Run step Counted (start disk) s) :
    Transparent s :=
  run.invariant Transparent (transparent_start disk) fun _ _ _ before counted stepped => before.step counted stepped

/-- A write that gives a chunk to another key leaves what the chunk held on disk. -/
theorem Coherent.reused (coherent : Coherent c) (chunk : (c.chunk slot i).chunk = some data)
    (changed : ((c.write buf.key.table buf).chunk slot i).key ≠ (c.chunk slot i).key) :
    (c.write buf.key.table buf).disk data.key.table data.key.qid = some data := by
  -- only the chunk that is written to can change
  have elsewhere : ∀ {c' : Cache ν} {j : Nat} {new : Chunk ν}, (c'.chunk slot i).key = (c.chunk slot i).key →
      ((c'.setChunk (getIndex buf.key) j new).chunk slot i).key ≠ (c.chunk slot i).key → slot = getIndex buf.key ∧ i = j := by
    intro c' j new same changed
    by_contra other
    rw [setChunk_other other] at changed
    exact changed same
  simp only [Cache.write] at changed ⊢
  cases found : c.matching buf.key with
  | some j =>
    simp only [found] at changed
    obtain ⟨rfl,rfl⟩ := elsewhere rfl changed
    simp only [setChunk_here] at changed
    exact absurd rfl changed
  | none =>
    simp only [found] at changed
    cases free : c.freeChunk (getIndex buf.key) with
    | some j =>
      simp only [free] at changed
      obtain ⟨rfl,rfl⟩ := elsewhere rfl changed
      exact coherent.clean _ i data chunk (coherent.free_clean (freeChunk_some free).2)
    | none =>
      simp only [free] at changed
      cases first : (c.chunk (getIndex buf.key) 0).chunk with
      | none => exact absurd (coherent.empty _ 0 first).1 (freeChunk_none free (by decide)).1
      | some other =>
        have flushed := coherent.flushChunk first
        obtain ⟨rfl,rfl⟩ := elsewhere (flushed.fields slot i).1 changed
        rw [first] at chunk
        cases chunk
        exact flushed.stored

/-- A write leaves the chunks of all other keys as they are, or takes one of them. -/
theorem write_kept {diskP : DiskTb} (other : (((c.write diskP buf).chunk slot i).key) ≠ buf.key) :
    (c.write diskP buf).chunk slot i = c.chunk slot i := by
  have elsewhere : ∀ {c' : Cache ν} {j : Nat} {new : Chunk ν}, new.key = buf.key →
      ((c'.setChunk (getIndex buf.key) j new).chunk slot i).key ≠ buf.key → ¬(slot = getIndex buf.key ∧ i = j) := by
    rintro c' j new key other ⟨rfl,rfl⟩
    rw [setChunk_here] at other
    exact other key
  simp only [Cache.write] at other ⊢
  cases found : c.matching buf.key with
  | some j =>
    simp only [found] at other
    apply setChunk_other
    apply elsewhere _ other
    exact (matching_some found).2
  | none =>
    simp only [found] at other
    cases free : c.freeChunk (getIndex buf.key) with
    | some j =>
      simp only [free] at other
      exact setChunk_other (elsewhere rfl other)
    | none =>
      simp only [free] at other
      have place := elsewhere rfl other
      simp only [setChunk_other place,Cache.flushChunk]
      cases (c.chunk (getIndex buf.key) 0).chunk with
      | none => rfl
      | some data => exact setChunk_other place

/-- In every run in which no write counter comes back to 0: a read gives the record expected of its
key; a slot has one chunk for a key; and a chunk that a step gives to another key has its record on
the disk table of its own key, under its own identifier. -/
theorem cache_is_transparent {disk : DiskTb → BitVec 32 → Option (Dquot ν)} (run : Machine.Run step Counted (start disk) s) :
    (∀ buf : Dquot ν, buf.key.eid ≠ 0 → s.cache.read buf.key.table buf = (s.expected buf.key).getD buf) ∧
    (∀ slot i j, (s.cache.chunk slot i).key = (s.cache.chunk slot j).key → (s.cache.chunk slot i).key ≠ .zero → i = j) ∧
    (∀ a s', step a s = some s' → ∀ slot i data, (s.cache.chunk slot i).chunk = some data →
      (s'.cache.chunk slot i).key ≠ (s.cache.chunk slot i).key →
        (s.cache.chunk slot i).key = data.key ∧ s'.cache.disk data.key.table data.key.qid = some data) := by
  have transparent := transparent_run run
  refine ⟨fun buf eid => ?_,transparent.coherent.unique,fun a s' stepped slot i data chunk changed => ?_⟩
  · rw [transparent.coherent.read (key_ne_zero eid),transparent.view buf.key (key_ne_zero eid)]
  · refine ⟨(transparent.coherent.filled slot i data chunk).1,?_⟩
    rcases step_cases stepped with ⟨buf,rfl,_,rfl⟩ | ⟨_,rfl⟩ | ⟨other,rfl,rfl⟩
    · exact transparent.coherent.reused chunk changed
    · exact absurd rfl changed
    · have drained := drained_diskflush transparent.coherent transparent.bounded other
      generalize s.cache.diskflush other = flushed at drained changed
      exact absurd (drained.key slot i) changed

/-- Two records of one export whose keys have the same slot. -/
def record : Dquot Nat := ⟨⟨1,0,0⟩,7⟩

def rival : Dquot Nat := ⟨⟨1,0,6442⟩,8⟩

theorem cache_is_transparent_rival :
    ∃ s : State Nat, Machine.Run step Counted (start fun _ _ => none) s ∧
      s.cache.read record.key.table ⟨record.key,0⟩ = (s.expected record.key).getD ⟨record.key,0⟩ ∧
      s.cache.read record.key.table ⟨record.key,0⟩ = record := by
  have reads : (Machine.exec step Counted
      [.write record.key.table record,.flush (getIndex record.key),.write rival.key.table rival] (start fun _ _ => none)).map
        (fun s => s.cache.read record.key.table ⟨record.key,0⟩) = some record := by decide +kernel
  obtain ⟨s,done,read⟩ := Option.map_eq_some_iff.mp reads
  have run : Machine.Run step Counted (start fun _ _ => none) s := Machine.Run.refl.exec done
  exact ⟨s,run,(cache_is_transparent run).1 ⟨record.key,0⟩ (by decide),read⟩

/-- The record was written a number of times and never flushed. -/
def written (n : Nat) : State Nat :=
  ⟨⟨fun slot i => if slot = getIndex record.key ∧ i = 0 then ⟨BitVec.ofNat 32 n,record.key,record.key.table,some record⟩ else .initial,
    fun _ _ => none⟩,update (fun _ => none) record.key (some record)⟩

theorem matching_written (n : Nat) : (written n).cache.matching record.key = some 0 := by
  simp [Cache.matching,written,cacheMaxChunk,List.range_succ_eq_map]

theorem setChunk_written {c : Cache Nat} (disk : c.disk = fun _ _ => none)
    (others : ∀ slot i, ¬(slot = getIndex record.key ∧ i = 0) → c.chunk slot i = .initial) (n : Nat) :
    c.setChunk (getIndex record.key) 0 ⟨BitVec.ofNat 32 n,record.key,record.key.table,some record⟩ = (written n).cache := by
  simp only [Cache.setChunk,written,Cache.mk.injEq,disk,and_true]
  funext slot i
  by_cases here : slot = getIndex record.key ∧ i = 0
  · simp [here.1,here.2]
  · rw [if_neg here,← others slot i here]
    by_cases same : slot = getIndex record.key
    · have other : i ≠ 0 := fun zero => here ⟨same,zero⟩
      simp [same,other]
    · simp [same]

theorem step_written (n : Nat) : step (.write record.key.table record) (written n) = some (written (n + 1)) := by
  have next : (written n).cache.write record.key.table record = (written (n + 1)).cache := by
    have initial : ∀ slot i, ¬(slot = getIndex record.key ∧ i = 0) → (written n).cache.chunk slot i = .initial :=
      fun slot i other => if_neg other
    simp only [Cache.write,matching_written]
    rw [← setChunk_written rfl initial (n + 1)]
    simp [written,BitVec.ofNat_add]
  have expected : update (written n).expected record.key (some record) = (written n).expected := by
    simp [written]
  rw [step,if_pos (by decide),next,expected]
  rfl

theorem step_start : step (.write record.key.table record) (start fun _ _ => none) = some (written 1) := by
  have next : (start fun _ _ => none).cache.write record.key.table record = (written 1).cache := by
    have absent : (start (ν := Nat) fun _ _ => none).cache.matching record.key = none := by decide +kernel
    have free : (start (ν := Nat) fun _ _ => none).cache.freeChunk (getIndex record.key) = some 0 := by decide +kernel
    simp only [Cache.write,absent,free]
    rw [← setChunk_written (c := (start fun _ _ => none).cache) rfl (fun _ _ _ => rfl) 1]
    rfl
  rw [step,if_pos (by decide),next]
  rfl

theorem run_written (n : Nat) : Machine.Run step (fun _ _ => True) (start fun _ _ => none) (written (n + 1)) := by
  induction n with
  | zero => exact Machine.Run.refl.tail _ trivial step_start
  | succ n ih => exact ih.tail _ trivial (step_written (n + 1))

/-- The chunk of the record counts as clean after as many writes as the counter has values. -/
theorem written_wraps : (written (2 ^ 32 - 1 + 1)).cache = (written 0).cache := by
  simp [written]

/-- The next key of the slot then takes the chunk. -/
theorem read_lost : ((written 0).cache.write rival.key.table rival).read record.key.table ⟨record.key,0⟩ = ⟨record.key,0⟩ := by
  decide +kernel

/-- A record that was written 2^32 times is lost when a rival is written. -/
theorem record_lost_after_wrap :
    ¬∀ s : State Nat, Machine.Run step (fun _ _ => True) (start fun _ _ => none) s →
      ∀ buf : Dquot Nat, buf.key.eid ≠ 0 → s.cache.read buf.key.table buf = (s.expected buf.key).getD buf := by
  intro claim
  have full := run_written (2 ^ 32 - 1)
  have stepped : step (.write rival.key.table rival) (written (2 ^ 32 - 1 + 1)) =
      some ⟨(written 0).cache.write rival.key.table rival,update (written 0).expected rival.key (some rival)⟩ := by
    rw [step,if_pos (by decide),written_wraps]
    rfl
  have wrong := claim _ (full.tail _ trivial stepped) ⟨record.key,0⟩ (by decide)
  simp only at wrong
  rw [read_lost] at wrong
  revert wrong
  decide +kernel

end Rozofs.QuotaWriteback
