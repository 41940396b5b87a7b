import Rozofs.CacheMap

/-! The insertion in a bucket of the cache of file contexts where all the entries are used. -/
namespace Rozofs.FidCache
open Function (update)
open Bitmap (lowest0 set clear firstNot test)

/-- All the entries of a bucket are used. -/
def Used (b : Bucket) : Prop := ∀ s < 32, ∀ e < 32, (b.cell s e).isSome = true

section Full
variable {b : Bucket}

/-- The sub-buckets that are not marked full. -/
def unmarked (b : Bucket) : Finset Nat := (Finset.range 32).filter fun s => test b.full s = false

theorem mem_unmarked {s : Nat} : s ∈ unmarked b ↔ s < 32 ∧ test b.full s = false := by
  rw [unmarked,Finset.mem_filter,Finset.mem_range]

/-- A restart leaves the cells as they are. -/
theorem Used.restart (used : Used b) {s : Nat} {pSub : SubBucket} (stored : Stored b s pSub) (full empty : Nat → BitVec 8) :
    Used { b.setSub s pSub with full := full, empty := empty } := by
  intro t inside e low
  rw [Bucket.cell_setSub]
  split
  · next here =>
    rw [← stored e,← here]
    exact used t inside e low
  · exact used t inside e low

/-- An insertion in a bucket whose entries are used marks the sub-buckets that were not marked, one at
each restart, and finds no place. -/
theorem insertEntry_used {memory : Bool} {new : Entry} (restarts : Nat) (used : Used b) (few : (unmarked b).card < restarts) :
    ∃ b', insertEntry memory new restarts b = .bucketFull b' ∧ firstNot 0xFF#8 4 b'.full = none := by
  induction restarts generalizing b with
  | zero => exact absurd few (Nat.not_lt_zero _)
  | succ restarts ih =>
    rw [insertEntry]
    cases first : firstNot 0xFF#8 4 b.full with
    | none => exact ⟨b,rfl,first⟩
    | some bbyte =>
      obtain ⟨inside,bitInside,free⟩ := Bitmap.firstNot_ones first
      simp only
      generalize lowest0 (b.full bbyte) = bbit at bitInside free
      have subInside : 8 * bbyte + bbit < 32 := by omega
      cases sub : b.sub (8 * bbyte + bbit) with
      | none =>
        have cell := used _ subInside 0 (by decide)
        simp [Bucket.cell,sub] at cell
      | some pSub =>
        have stored : Stored b (8 * bbyte + bbit) pSub := by
          intro e
          rw [Bucket.cell,sub,Option.bind_some]
        simp only [stored.full.mpr (used _ subInside)]
        apply ih (used.restart stored _ _)
        have fewer : (unmarked { b.setSub (8 * bbyte + bbit) pSub with
            full := set b.full bbyte bbit, empty := clear b.empty bbyte bbit }).card < (unmarked b).card := by
          apply Finset.card_lt_card
          constructor
          · intro s member
            obtain ⟨low,clear⟩ := mem_unmarked.mp member
            rw [Bitmap.test_set _ _ _ bitInside] at clear
            exact mem_unmarked.mpr ⟨low,by simp_all⟩
          · intro subset
            obtain ⟨_,clear⟩ := mem_unmarked.mp (subset (mem_unmarked.mpr ⟨subInside,free⟩))
            simp [Bitmap.test_set _ _ _ bitInside] at clear
        omega

end Full

section Eviction
variable {κ : Type} [DecidableEq κ] {hash : κ → BitVec 32} {nbCtx : Nat} {st : State κ} {slot : κ → Nat × Nat}

/-- What an insertion in a full bucket is to do, `busy` being the contexts in use by a request: it succeeds,
loses idle contexts only, and leaves the others and the new one in the cache. -/
structure Inserted (hash : κ → BitVec 32) (nbCtx : Nat) (busy : Nat → Bool) (key : κ) (index : Nat) (st : State κ)
    (after : State κ × Bool) : Prop where
  succeeds : after.2 = true
  idle : ∀ p ∈ st.live, (searchOrRemove hash nbCtx true p.1 after.1).2 = some p.2 ∨
    busy p.2 = false ∧ (searchOrRemove hash nbCtx true p.1 after.1).2 = none
  retrievable : (searchOrRemove hash nbCtx true key after.1).2 = some index

theorem unmarked_card (b : Bucket) : (unmarked b).card < 33 := by
  have within := Finset.card_le_card (Finset.filter_subset (fun s => test b.full s = false) (Finset.range 32))
  rw [Finset.card_range] at within
  exact Nat.lt_succ_of_le within

/-- The insertion in a full bucket is refused. -/
theorem insert_refused (used : Used (st.bucket (bucketOf (hash key)))) (index : Nat) (memory : Bool) :
    (deviceMappingInsert hash nbCtx key index memory st).2 = false := by
  obtain ⟨b,call,_⟩ := @insertEntry_used _ memory ⟨subhash (hash key),BitVec.ofNat 18 index⟩ 33 used
    (unmarked_card _)
  simp only [deviceMappingInsert,call]

/-- A consistent cache loses all the keys of the bucket, in use or not. -/
theorem Served.refused (served : Served hash nbCtx slot st) (used : Used (st.bucket (bucketOf (hash key))))
    (absent : ∀ p ∈ st.live, p.1 ≠ key ∧ p.2 ≠ index) (memory : Bool) {p : κ × Nat}
    (bucket : bucketOf (hash p.1) = bucketOf (hash key)) :
    (FidCache.searchOrRemove hash nbCtx true p.1 (deviceMappingInsert hash nbCtx key index memory st).1).2 ≠ some p.2 := by
  have marked : firstNot 0xFF#8 4 (st.bucket (bucketOf (hash key))).full = none :=
    Bitmap.all_ones.mpr fun s inside => ((served.marked _).full s inside).mpr (used s inside)
  have call : insertEntry memory ⟨subhash (hash key),BitVec.ofNat 18 index⟩ 33 (st.bucket (bucketOf (hash key))) =
      .bucketFull (st.bucket (bucketOf (hash key))) := by
    rw [insertEntry,marked]
  have given := served.setKey key fun p live => (absent p live).2
  obtain ⟨rest,lost,away⟩ := given.failed (bucketOf (hash key)) index
  simp only [deviceMappingInsert,call,Function.update_eq_self]
  intro found
  generalize releaseEntry hash nbCtx index _ = after at found lost
  have still : (FidCache.searchOrRemove hash nbCtx true p.1 (after.recording rest)).2 = some p.2 := by
    rw [searchOrRemove_recording]
    exact found
  exact away p (((lost.search p.1).2 p.2).mp still) bucket

omit [DecidableEq κ] in
/-- A bucket with 1024 live keys of a consistent cache is used. -/
theorem Served.used (served : Served hash nbCtx slot st) (h : BitVec 13)
    (many : 1024 ≤ (st.live.filter fun p => bucketOf (hash p.1) = h).length) : Used (st.bucket h) :=
  fun s inside => ((served.marked h).full s inside).mp (Bitmap.all_ones.mp (served.full h many) s inside)

/-- Keys of one hash, inserted one after the other, fill the bucket. -/
theorem exists_filled (n : Nat) (few : n ≤ 1024) : ∃ st slot, Served (fun _ : Nat => 0) 2048 slot st ∧
    Machine.Run (step (fun _ => 0) 2048) (fun st a => FidCache.fits (fun _ => 0) st a = true) (start 0) st ∧
    st.live.length = n ∧ ∀ p ∈ st.live, p.1 < n ∧ p.2 = p.1 := by
  induction n with
  | zero => exact ⟨start 0,_,served_start 0,.refl,rfl,fun _ member => absurd member List.not_mem_nil⟩
  | succ n ih =>
    obtain ⟨st,slot,served,run,count,keys⟩ := ih (Nat.le_of_succ_le few)
    have absent : ∀ p ∈ st.live, p.1 ≠ n ∧ p.2 ≠ n := fun p member => by
      obtain ⟨low,same⟩ := keys p member
      omega
    have bound : n < 2048 := by omega
    have fit : FidCache.fits (fun _ => 0) st (.insert n n true) = true := by
      simp [FidCache.fits,count]
      omega
    obtain ⟨no,-⟩ | ⟨after,slot',call,lists,served'⟩ := served.insert n true absent bound fit
    · cases no
    · refine ⟨_,slot',served',run.tail (.insert n n true) fit ?_,?_,?_⟩
      · simp only [FidCache.step,if_pos (And.intro absent bound),call,lists]
      · simp [count]
      · intro p member
        obtain rfl | old := List.mem_cons.mp member
        · exact ⟨Nat.lt_succ_self _,rfl⟩
        · exact ⟨Nat.lt_succ_of_lt (keys p old).1,(keys p old).2⟩

/-- The insertion in a full bucket never succeeds, and it loses each key of the bucket whose context was
consistent, whether a request uses it or not. -/
theorem full_bucket_lost (hash : κ → BitVec 32) (nbCtx : Nat) (busy : Nat → Bool) (key : κ) (index : Nat) (memory : Bool)
    (st : State κ) (used : Used (st.bucket (bucketOf (hash key)))) :
    ¬Inserted hash nbCtx busy key index st (deviceMappingInsert hash nbCtx key index memory st) ∧
    ∀ slot, Served hash nbCtx slot st → (∀ p ∈ st.live, p.1 ≠ key ∧ p.2 ≠ index) →
      ∀ p ∈ st.live, bucketOf (hash p.1) = bucketOf (hash key) →
        (searchOrRemove hash nbCtx true p.1 (deviceMappingInsert hash nbCtx key index memory st).1).2 ≠ some p.2 := by
  constructor
  · intro inserted
    have refused : (deviceMappingInsert hash nbCtx key index memory st).2 = false := insert_refused used index memory
    rw [inserted.succeeds] at refused
    cases refused
  · exact fun slot served absent p _ bucket => served.refused used absent memory bucket

/-- A bucket filled by 1024 insertions loses all its keys with the next one. -/
theorem full_bucket_lost_filled : ∃ st : State Nat,
    Machine.Run (step (fun _ => 0) 2048) (fun st a => fits (fun _ => 0) st a = true) (start 0) st ∧ st.live.length = 1024 ∧
    ∀ p ∈ st.live, (searchOrRemove (fun _ => 0) 2048 true p.1 (deviceMappingInsert (fun _ => 0) 2048 1024 1024 true st).1).2 ≠
      some p.2 := by
  obtain ⟨st,slot,served,run,count,keys⟩ := exists_filled 1024 (Nat.le_refl _)
  have used : Used (st.bucket (bucketOf 0)) := served.used _ (by simp [count])
  have absent : ∀ p ∈ st.live, p.1 ≠ 1024 ∧ p.2 ≠ 1024 := fun p member => by
    obtain ⟨low,same⟩ := keys p member
    omega
  have lost := (full_bucket_lost (fun _ => 0) 2048 (fun _ => false) 1024 1024 true st used).2 slot served absent
  exact ⟨st,run,count,fun p member => lost p member rfl⟩

/-- The insertion of a new key fails in a bucket filled by 1024 insertions, though no context is in use. -/
theorem insert_full_refused : ∃ st : State Nat,
    Machine.Run (step (fun _ => 0) 2048) (fun st a => fits (fun _ => 0) st a = true) (start 0) st ∧ st.live.length = 1024 ∧
    ¬Inserted (fun _ => 0) 2048 (fun _ => false) 1024 1024 st (deviceMappingInsert (fun _ => 0) 2048 1024 1024 true st) := by
  obtain ⟨st,slot,served,run,count,_⟩ := exists_filled 1024 (Nat.le_refl _)
  refine ⟨st,run,count,?_⟩
  intro inserted
  have refused : (deviceMappingInsert (fun _ => 0) 2048 1024 1024 true st).2 = false :=
    insert_refused (served.used _ (by simp [count])) 1024 true
  rw [inserted.succeeds] at refused
  cases refused

end Eviction

end Rozofs.FidCache
