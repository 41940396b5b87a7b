import Rozofs.FidCache
import Mathlib.Data.Finset.Card
import Mathlib.Data.Finset.Prod
import Mathlib.Data.List.Nodup

/-! The cache of file contexts is a finite map from keys to indexes. A bucket is seen as a table of
32 times 32 cells, with an entry in those that are allocated. -/
namespace Rozofs.FidCache
open Function (update)
open Bitmap (lowest0 ones zeros set clear firstNot test)

section Buckets
variable {b b' : Bucket} {s e : Nat}

theorem Bucket.sub_setSub (b : Bucket) (s t : Nat) (pSub : SubBucket) :
    (b.setSub s pSub).sub t = if t = s then some pSub else b.sub t := by
  by_cases zero : s = 0
  · subst zero
    by_cases same : t = 0 <;> simp [Bucket.setSub,Bucket.sub,same]
  · by_cases first : t = 0
    · simp [Bucket.setSub,Bucket.sub,zero,first,Ne.symm zero]
    · by_cases same : t = s
      · simp [Bucket.setSub,Bucket.sub,same,zero]
      · have apart : t - 1 ≠ s - 1 := by omega
        simp [Bucket.setSub,Bucket.sub,zero,first,same,apart]

theorem Bucket.sub_freeSub (b : Bucket) (s t : Nat) :
    (b.freeSub s).sub t = if t = s ∧ s ≠ 0 then none else b.sub t := by
  by_cases zero : s = 0
  · simp [Bucket.freeSub,zero]
  · by_cases first : t = 0
    · simp [Bucket.freeSub,Bucket.sub,zero,first,Ne.symm zero]
    · by_cases same : t = s
      · simp [Bucket.freeSub,Bucket.sub,same,zero]
      · have apart : t - 1 ≠ s - 1 := by omega
        simp [Bucket.freeSub,Bucket.sub,zero,first,same,apart]

@[simp] theorem Bucket.setSub_empty (b : Bucket) (s : Nat) (pSub : SubBucket) : (b.setSub s pSub).empty = b.empty := by
  rw [Bucket.setSub]
  split <;> rfl

@[simp] theorem Bucket.setSub_full (b : Bucket) (s : Nat) (pSub : SubBucket) : (b.setSub s pSub).full = b.full := by
  rw [Bucket.setSub]
  split <;> rfl

@[simp] theorem Bucket.freeSub_full (b : Bucket) (s : Nat) : (b.freeSub s).full = b.full := by
  rw [Bucket.freeSub]
  split <;> rfl

/-- The entry in a cell, if it is allocated. -/
def Bucket.cell (b : Bucket) (s e : Nat) : Option Entry :=
  (b.sub s).bind fun pSub => if test pSub.allocated e then some (pSub.entry e) else none

/-- The marks of the sub-buckets agree with their cells. -/
structure Marked (b : Bucket) : Prop where
  full : ∀ s < 32, test b.full s = true ↔ ∀ e < 32, (b.cell s e).isSome = true
  empty : ∀ s < 32, test b.empty s = false ↔ ∃ e < 32, (b.cell s e).isSome = true

theorem marked_initial : Marked .initial := by
  have none : ∀ s e, Bucket.initial.cell s e = none := by
    intro s e
    by_cases zero : s = 0 <;> simp [Bucket.cell,Bucket.sub,Bucket.initial,SubBucket.zero,test,zero]
  constructor
  · intro s _
    have clear : test Bucket.initial.full s = false := by simp [test,Bucket.initial]
    simp only [clear,none,Option.isSome_none,Bool.false_eq_true,imp_false,false_iff,not_forall]
    exact ⟨0,by simp⟩
  · intro s _
    have low : s % 8 < 8 := Nat.mod_lt _ (by decide)
    have marked : test Bucket.initial.empty s = true := (Bitmap.eq_ones_iff _).mp rfl _ low
    simp [marked,none]

/-- The cells after a change of one of them. -/
def Changed (b b' : Bucket) (s e : Nat) (value : Option Entry) : Prop :=
  ∀ s' < 32, ∀ e' < 32, b'.cell s' e' = if s' = s ∧ e' = e then value else b.cell s' e'

theorem Changed.here (changed : Changed b b' s e value) (inside : s < 32) (inside' : e < 32) : b'.cell s e = value := by
  rw [changed s inside e inside',if_pos ⟨rfl,rfl⟩]

theorem Changed.other (changed : Changed b b' s e value) (inside : s' < 32) (inside' : e' < 32) (apart : s' ≠ s ∨ e' ≠ e) :
    b'.cell s' e' = b.cell s' e' := by
  rw [changed s' inside e' inside',if_neg (by tauto)]

/-- The marks of the other sub-buckets are not touched. -/
theorem Changed.marked (changed : Changed b b' s e value) (marked : Marked b)
    (full : ∀ t < 32, t ≠ s → test b'.full t = test b.full t)
    (empty : ∀ t < 32, t ≠ s → test b'.empty t = test b.empty t)
    (fullHere : s < 32 → (test b'.full s = true ↔ ∀ e < 32, (b'.cell s e).isSome = true))
    (emptyHere : s < 32 → (test b'.empty s = false ↔ ∃ e < 32, (b'.cell s e).isSome = true)) : Marked b' := by
  constructor
  · intro t inside
    by_cases same : t = s
    · subst same
      exact fullHere inside
    · rw [full t inside same,marked.full t inside]
      exact forall₂_congr fun f low => by rw [changed.other inside low (.inl same)]
  · intro t inside
    by_cases same : t = s
    · subst same
      exact emptyHere inside
    · rw [empty t inside same,marked.empty t inside]
      exact exists_congr fun f => and_congr_right fun low => by rw [changed.other inside low (.inl same)]

theorem Bucket.cell_setSub (b : Bucket) (s t f : Nat) (pSub : SubBucket) (full empty : Nat → BitVec 8) :
    Bucket.cell { b.setSub s pSub with full := full, empty := empty } t f =
      if t = s then if test pSub.allocated f then some (pSub.entry f) else none else b.cell t f := by
  have same : Bucket.sub { b.setSub s pSub with full := full, empty := empty } t = (b.setSub s pSub).sub t := rfl
  rw [Bucket.cell,same,b.sub_setSub]
  by_cases here : t = s <;> simp [here,Bucket.cell]

/-- The cells of a sub-bucket are those of `pSub`. -/
def Stored (b : Bucket) (s : Nat) (pSub : SubBucket) : Prop :=
  ∀ e, b.cell s e = if test pSub.allocated e then some (pSub.entry e) else none

theorem Stored.isSome (stored : Stored b s pSub) (e : Nat) : (b.cell s e).isSome = test pSub.allocated e := by
  rw [stored e]
  by_cases marked : test pSub.allocated e = true <;> simp [marked]

theorem Stored.full (stored : Stored b s pSub) :
    firstNot 0xFF#8 4 pSub.allocated = none ↔ ∀ e < 32, (b.cell s e).isSome = true := by
  rw [Bitmap.all_ones]
  exact forall₂_congr fun e _ => by rw [stored.isSome]

theorem Stored.empty (stored : Stored b s pSub) :
    firstNot 0#8 4 pSub.allocated ≠ none ↔ ∃ e < 32, (b.cell s e).isSome = true := by
  rw [Ne,Bitmap.all_zeros]
  simp only [stored.isSome,not_forall,exists_prop,Bool.not_eq_false]

theorem stored_setSub (b : Bucket) (s : Nat) (pSub : SubBucket) (full empty : Nat → BitVec 8) :
    Stored { b.setSub s pSub with full := full, empty := empty } s pSub := by
  intro e
  rw [Bucket.cell_setSub,if_pos rfl]

/-- The sub-bucket that an insertion works on. -/
theorem insertEntry_sub {memory : Bool} (pSub : SubBucket)
    (found : (match b.sub s with | some pSub => some pSub | none => if memory then some SubBucket.zero else none) =
      some pSub) : Stored b s pSub := by
  intro e
  cases old : b.sub s with
  | some given =>
    rw [old] at found
    cases found
    simp [Bucket.cell,old]
  | none =>
    rw [old] at found
    simp only [Option.ite_none_right_eq_some,Option.some.injEq] at found
    obtain ⟨-,rfl⟩ := found
    simp [Bucket.cell,old,SubBucket.zero,test]

/-- An insertion in a bucket that is not full takes a cell that is free; it fails without a
change when there is no memory for a sub-bucket. -/
theorem insertEntry_spec (marked : Marked b) (room : ∃ s < 32, ∃ e < 32, b.cell s e = none) (memory : Bool) (new : Entry)
    (restarts : Nat) :
    memory = false ∧ insertEntry memory new (restarts + 1) b = .outOfMemory b ∨
    ∃ b' s e, insertEntry memory new (restarts + 1) b = .done b' ∧ s < 32 ∧ e < 32 ∧ b.cell s e = none ∧
      Changed b b' s e (some new) ∧ Marked b' := by
  rw [insertEntry]
  cases byte : firstNot 0xFF#8 4 b.full with
  | none =>
    obtain ⟨s,inside,e,low,none⟩ := room
    have all := (marked.full s inside).mp (Bitmap.all_ones.mp byte s inside) e low
    simp [none] at all
  | some bbyte =>
    obtain ⟨inside,bitInside,clear⟩ := Bitmap.firstNot_ones byte
    simp only
    generalize lowest0 (b.full bbyte) = bbit at bitInside clear
    have subInside : 8 * bbyte + bbit < 32 := by omega
    split
    · rename_i none
      refine .inl ⟨?_,rfl⟩
      split at none
      · cases none
      · simpa using none
    · rename_i pSub found
      have stored := insertEntry_sub pSub found
      cases entryByte : firstNot 0xFF#8 4 pSub.allocated with
      | none =>
        have all := (marked.full _ subInside).mpr (stored.full.mp entryByte)
        rw [clear] at all
        cases all
      | some sbyte =>
        obtain ⟨entryInside,entryBit,free⟩ := Bitmap.firstNot_ones entryByte
        simp only
        generalize lowest0 (pSub.allocated sbyte) = sbit at entryBit free
        have cellInside : 8 * sbyte + sbit < 32 := by omega
        have changed : ∀ full empty, Changed b
            { b.setSub (8 * bbyte + bbit)
                ⟨set pSub.allocated sbyte sbit,update pSub.entry (8 * sbyte + sbit) new⟩ with
              full := full, empty := empty } (8 * bbyte + bbit) (8 * sbyte + sbit) (Option.some new) := by
          intro full empty t _ f _
          rw [Bucket.cell_setSub]
          by_cases here : t = 8 * bbyte + bbit
          · subst here
            by_cases same : f = 8 * sbyte + sbit
            · simp [same,Bitmap.test_set _ _ _ entryBit]
            · simp [same,Bitmap.test_set _ _ _ entryBit,stored f]
          · simp [here]
        refine .inr ⟨_,_,_,rfl,subInside,cellInside,by simp [stored _,free],changed _ _,?_⟩
        refine (changed _ _).marked marked ?_ ?_ (fun _ => ?_) fun _ => ?_
        · intro t _ apart
          simp only
          split
          · simp [Bitmap.test_set _ _ _ bitInside,apart]
          · rfl
        · intro t _ apart
          simp only
          split
          · simp [Bitmap.test_clear _ _ _ bitInside,apart]
          · rfl
        · rw [← (stored_setSub b _ _ _ _).full]
          simp only
          split
          · rename_i all
            exact iff_of_true (by simp [Bitmap.test_set _ _ _ bitInside]) all
          · rename_i more
            exact iff_of_false (by simp [clear]) more
        · have now : test (if (b.empty bbyte).getLsbD bbit then Bitmap.clear b.empty bbyte bbit else b.empty)
              (8 * bbyte + bbit) = false := by
            split
            · simp [Bitmap.test_clear _ _ _ bitInside]
            · rename_i off
              rw [Bitmap.test_at _ _ bitInside]
              exact Bool.eq_false_iff.mpr off
          refine iff_of_true now ⟨8 * sbyte + sbit,cellInside,?_⟩
          rw [(changed _ _).here subInside cellInside]
          rfl

section Removal
variable (slot : Slot) (pSub : SubBucket) (found : b.sub (8 * slot.bbyte + slot.bbit) = some pSub)
include found

/-- The sub-buckets after a removal: its own one is freed when it is empty and not the first. -/
theorem removeEntry_sub (t : Nat) :
    (removeEntry slot b).sub t =
      if t = 8 * slot.bbyte + slot.bbit then
        if firstNot 0#8 4 (clear pSub.allocated slot.sbyte slot.sbit) = none ∧ t ≠ 0 then none
        else some { pSub with allocated := clear pSub.allocated slot.sbyte slot.sbit }
      else b.sub t := by
  have marks : ∀ (b : Bucket) (full : Nat → BitVec 8), Bucket.sub { b with full := full } t = b.sub t := fun _ _ => rfl
  simp only [removeEntry,found]
  rw [apply_ite (fun b : Bucket => b.sub t),marks,ite_self]
  split
  · rename_i none
    have empties : ∀ (b : Bucket) (empty : Nat → BitVec 8), Bucket.sub { b with empty := empty } t = b.sub t :=
      fun _ _ => rfl
    rw [empties,Bucket.sub_freeSub,Bucket.sub_setSub]
    by_cases here : t = 8 * slot.bbyte + slot.bbit
    · subst here
      simp [none]
    · simp [here]
  · rename_i some
    rw [Bucket.sub_setSub]
    simp only [some,false_and,if_false]

theorem removeEntry_full : (removeEntry slot b).full =
    if (b.full slot.bbyte).getLsbD slot.bbit then clear b.full slot.bbyte slot.bbit else b.full := by
  simp only [removeEntry,found]
  split <;> split <;> simp_all

theorem removeEntry_empty : (removeEntry slot b).empty =
    if firstNot 0#8 4 (clear pSub.allocated slot.sbyte slot.sbit) = none then set b.empty slot.bbyte slot.bbit
    else b.empty := by
  simp only [removeEntry,found]
  split <;> split <;> simp_all

/-- The removal of an entry frees its cell and no other. -/
theorem removeEntry_spec (marked : Marked b) (bitInside : slot.bbit < 8)
    (entryInside : slot.sbyte < 4) (entryBit : slot.sbit < 8) :
    Changed b (removeEntry slot b) (8 * slot.bbyte + slot.bbit) (8 * slot.sbyte + slot.sbit) none ∧
      Marked (removeEntry slot b) := by
  have old : Stored b (8 * slot.bbyte + slot.bbit) pSub := fun e => by simp [Bucket.cell,found]
  have cells : ∀ e < 32, (removeEntry slot b).cell (8 * slot.bbyte + slot.bbit) e =
      if test (clear pSub.allocated slot.sbyte slot.sbit) e then some (pSub.entry e) else none := by
    intro e low
    rw [Bucket.cell,removeEntry_sub slot pSub found,if_pos rfl]
    split
    · rename_i freed
      simp [Bitmap.all_zeros.mp freed.1 e low]
    · rfl
  have changed : Changed b (removeEntry slot b) (8 * slot.bbyte + slot.bbit) (8 * slot.sbyte + slot.sbit) none := by
    intro t _ e low
    by_cases here : t = 8 * slot.bbyte + slot.bbit
    · subst here
      rw [cells e low,Bitmap.test_clear _ _ _ entryBit]
      by_cases same : e = 8 * slot.sbyte + slot.sbit
      · simp [same]
      · simp [same,old e]
    · rw [Bucket.cell,removeEntry_sub slot pSub found,if_neg here,if_neg fun both => here both.1,Bucket.cell]
  refine ⟨changed,changed.marked marked (fun t _ apart => ?_) (fun t _ apart => ?_) (fun inside => ?_) fun inside => ?_⟩
  · rw [removeEntry_full slot pSub found]
    split
    · simp [Bitmap.test_clear _ _ _ bitInside,apart]
    · rfl
  · rw [removeEntry_empty slot pSub found]
    split
    · simp [Bitmap.test_set _ _ _ bitInside,apart]
    · rfl
  · have off : test (removeEntry slot b).full (8 * slot.bbyte + slot.bbit) = false := by
      rw [removeEntry_full slot pSub found]
      split
      · simp [Bitmap.test_clear _ _ _ bitInside]
      · rename_i off
        rw [Bitmap.test_at _ _ bitInside]
        exact Bool.eq_false_iff.mpr off
    have free := changed.here inside (by omega)
    refine iff_of_false (by simp [off]) fun all => ?_
    have some := all (8 * slot.sbyte + slot.sbit) (by omega)
    rw [free] at some
    cases some
  · have left : (∃ e < 32, ((removeEntry slot b).cell (8 * slot.bbyte + slot.bbit) e).isSome = true) ↔
        firstNot 0#8 4 (clear pSub.allocated slot.sbyte slot.sbit) ≠ none := by
      rw [Ne,Bitmap.all_zeros]
      simp only [not_forall,exists_prop,Bool.not_eq_false]
      refine exists_congr fun e => and_congr_right fun low => ?_
      rw [cells e low]
      by_cases on : test (clear pSub.allocated slot.sbyte slot.sbit) e = true <;> simp [on]
    rw [left,removeEntry_empty slot pSub found]
    split
    · rename_i none
      exact iff_of_false (by simp [Bitmap.test_set _ _ _ bitInside]) fun some => some none
    · rename_i some
      obtain ⟨e,low,more⟩ := left.mpr some
      refine iff_of_true ((marked.empty _ inside).mpr ⟨e,low,?_⟩) some
      rw [changed _ inside e low] at more
      split at more
      · cases more
      · exact more

end Removal

/-- A scan of a sub-bucket finds an allocated entry that matches, if there is one. -/
theorem findEntry_spec (matched : Entry → Bool) (stored : Stored b s pSub) :
    match findEntry matched pSub with
    | some (sbyte,sbit) => sbyte < 4 ∧ sbit < 8 ∧ ∃ entry, b.cell s (8 * sbyte + sbit) = some entry ∧ matched entry = true
    | none => ∀ e < 32, ∀ entry, b.cell s e = some entry → matched entry = false := by
  split
  · rename_i sbyte sbit found
    obtain ⟨byte,inside,found⟩ := List.exists_of_findSome?_eq_some found
    obtain ⟨bit,visited,found⟩ := List.exists_of_findSome?_eq_some found
    obtain ⟨bitInside,marked⟩ := (Bitmap.mem_ones _ _).mp visited
    split at found
    · rename_i good
      cases found
      refine ⟨List.mem_range.mp inside,bitInside,_,?_,good⟩
      rw [stored,Bitmap.test_at _ _ bitInside,if_pos marked]
    · cases found
  · rename_i none
    intro e inside entry here
    have visited : e % 8 ∈ ones 8 (pSub.allocated (e / 8)) := by
      have set : test pSub.allocated e = true := by
        rw [← stored.isSome,here]
        rfl
      exact (Bitmap.mem_ones _ _).mpr ⟨Nat.mod_lt _ (by decide),set⟩
    have entryIs : pSub.entry e = entry := by
      rw [stored e] at here
      split at here
      · exact Option.some.inj here
      · cases here
    have skipped := List.findSome?_eq_none_iff.mp
      (List.findSome?_eq_none_iff.mp none (e / 8) (List.mem_range.mpr (by omega))) (e % 8) visited
    rw [Nat.div_add_mod,entryIs] at skipped
    by_contra good
    simp [Bool.eq_true_of_not_eq_false good] at skipped

theorem scanByte_spec (matched : Entry → Bool) (marked : Marked b) (inside : bbyte < 4) (bits : List Nat)
    (visible : ∀ bbit ∈ bits, bbit < 8 ∧ test b.empty (8 * bbyte + bbit) = false) :
    (scanByte matched bbyte bits b).1 = b ∧
    match (scanByte matched bbyte bits b).2 with
    | some slot => slot.bbyte = bbyte ∧ slot.bbit < 8 ∧ slot.sbyte < 4 ∧ slot.sbit < 8 ∧
        ∃ entry, b.cell (8 * slot.bbyte + slot.bbit) (8 * slot.sbyte + slot.sbit) = some entry ∧ matched entry = true
    | none => ∀ bbit ∈ bits, ∀ e < 32, ∀ entry, b.cell (8 * bbyte + bbit) e = some entry → matched entry = false := by
  induction bits with
  | nil => exact ⟨rfl,fun _ member => by cases member⟩
  | cons bbit rest ih =>
    obtain ⟨bitInside,notEmpty⟩ := visible bbit List.mem_cons_self
    obtain ⟨e,low,some⟩ := (marked.empty _ (by omega)).mp notEmpty
    rw [scanByte]
    cases sub : b.sub (8 * bbyte + bbit) with
    | none => simp [Bucket.cell,sub] at some
    | some pSub =>
      have stored : Stored b (8 * bbyte + bbit) pSub := fun e => by simp [Bucket.cell,sub]
      have found := findEntry_spec matched stored
      simp only
      cases entry : findEntry matched pSub with
      | some place =>
        rw [entry] at found
        exact ⟨rfl,rfl,bitInside,found⟩
      | none =>
        rw [entry] at found
        obtain ⟨same,rest⟩ := ih fun bit member => visible bit (List.mem_cons_of_mem _ member)
        refine ⟨same,?_⟩
        simp only
        split
        · rename_i slot later
          rwa [later] at rest
        · rename_i later
          rw [later] at rest
          intro bit member
          rcases List.mem_cons.mp member with rfl | behind
          · exact found
          · exact rest bit behind

/-- The scan of a bucket finds an allocated entry that matches, if there is one. -/
theorem scan_spec (matched : Entry → Bool) (marked : Marked b) (bytes : List Nat) (inside : ∀ bbyte ∈ bytes, bbyte < 4) :
    (scan matched bytes b).1 = b ∧
    match (scan matched bytes b).2 with
    | some slot => slot.bbyte < 4 ∧ slot.bbit < 8 ∧ slot.sbyte < 4 ∧ slot.sbit < 8 ∧
        ∃ entry, b.cell (8 * slot.bbyte + slot.bbit) (8 * slot.sbyte + slot.sbit) = some entry ∧ matched entry = true
    | none => ∀ s, s / 8 ∈ bytes → ∀ e < 32, ∀ entry, b.cell s e = some entry → matched entry = false := by
  induction bytes with
  | nil => exact ⟨rfl,fun _ member => by cases member⟩
  | cons bbyte rest ih =>
    have low := inside bbyte List.mem_cons_self
    obtain ⟨same,found⟩ := scanByte_spec matched marked low (zeros 8 (b.empty bbyte)) fun bbit member => by
      obtain ⟨bitInside,off⟩ := (Bitmap.mem_zeros _ _).mp member
      exact ⟨bitInside,by rw [Bitmap.test_at _ _ bitInside,off]⟩
    rw [scan]
    rcases result : scanByte matched bbyte (zeros 8 (b.empty bbyte)) b with ⟨after,slot⟩
    rw [result] at same found
    cases same
    cases slot with
    | some slot =>
      obtain ⟨rfl,rest⟩ := found
      exact ⟨rfl,low,rest⟩
    | none =>
      obtain ⟨same,rest⟩ := ih fun bbyte member => inside bbyte (List.mem_cons_of_mem _ member)
      refine ⟨same,?_⟩
      simp only
      split
      · rename_i slot later
        rwa [later] at rest
      · rename_i later
        rw [later] at rest
        intro s member e cellInside entry here
        rcases List.mem_cons.mp member with first | behind
        · have notEmpty := (marked.empty s (by omega)).mpr ⟨e,cellInside,by simp [here]⟩
          have place : 8 * bbyte + s % 8 = s := by omega
          refine found (s % 8) ((Bitmap.mem_zeros _ _).mpr ⟨Nat.mod_lt _ (by decide),?_⟩) e cellInside entry ?_
          · rwa [test,first] at notEmpty
          · rwa [place]
        · exact rest s behind e cellInside entry here

end Buckets

section Map
variable {κ : Type} {hash : κ → BitVec 32} {nbCtx : Nat} {st : State κ} {slot : κ → Nat × Nat}

/-- `slot` is the cell of each live key, and each cell that is allocated is the one of a live key. -/
structure Served (hash : κ → BitVec 32) (nbCtx : Nat) (slot : κ → Nat × Nat) (st : State κ) : Prop where
  marked : ∀ h, Marked (st.bucket h)
  inside : ∀ p ∈ st.live, (slot p.1).1 < 32 ∧ (slot p.1).2 < 32
  placed : ∀ p ∈ st.live, (st.bucket (bucketOf (hash p.1))).cell (slot p.1).1 (slot p.1).2 =
    some ⟨subhash (hash p.1),BitVec.ofNat 18 p.2⟩
  owned : ∀ h, ∀ s < 32, ∀ e < 32, ((st.bucket h).cell s e).isSome = true →
    ∃ p ∈ st.live, bucketOf (hash p.1) = h ∧ slot p.1 = (s,e)
  keys : ∀ p ∈ st.live, p.2 < 2 ^ 18 ∧ p.2 < nbCtx ∧ st.ctxKey p.2 = p.1
  once : st.live.Nodup

theorem served_start (zero : κ) : Served hash nbCtx (fun _ => (0,0)) (start zero) := by
  refine ⟨fun _ => marked_initial,by simp [start],by simp [start],fun h s inside e low some => ?_,by simp [start],List.nodup_nil⟩
  have marked := (marked_initial.empty s inside).mpr ⟨e,low,some⟩
  have set : test Bucket.initial.empty s = true := (Bitmap.eq_ones_iff _).mp rfl _ (Nat.mod_lt _ (by decide))
  rw [set] at marked
  cases marked

theorem Served.fits (served : Served hash nbCtx slot st) (live : p ∈ st.live) : (BitVec.ofNat 18 p.2).toNat = p.2 := by
  rw [BitVec.toNat_ofNat,Nat.mod_eq_of_lt (served.keys p live).1]

/-- Two live keys are not in one cell. -/
theorem Served.apart (served : Served hash nbCtx slot st) (live : p ∈ st.live) (live' : q ∈ st.live)
    (bucket : bucketOf (hash p.1) = bucketOf (hash q.1)) (same : slot p.1 = slot q.1) : p = q := by
  have first := served.placed p live
  rw [bucket,same,served.placed q live'] at first
  have index : p.2 = q.2 := by
    rw [← served.fits live,← served.fits live',(Entry.mk.inj (Option.some.inj first)).2]
  refine Prod.ext ?_ index
  rw [← (served.keys p live).2.2,← (served.keys q live').2.2,index]

theorem Served.unique (served : Served hash nbCtx slot st) (live : p ∈ st.live) (live' : q ∈ st.live)
    (same : p.1 = q.1) : p = q := served.apart live live' (by rw [same]) (by rw [same])

/-- One cell of one bucket changes. -/
theorem cell_update (h : BitVec 13) (changed : Changed (st.bucket h) b s e value) (g : BitVec 13)
    (inside : t < 32) (low : f < 32) :
    (update st.bucket h b g).cell t f = if g = h ∧ t = s ∧ f = e then value else (st.bucket g).cell t f := by
  by_cases here : g = h
  · subst here
    rw [Function.update_self,changed t inside f low]
    simp
  · rw [Function.update_of_ne here,if_neg fun both => here both.1]

/-- The key of a free context changes. -/
theorem Served.setKey (served : Served hash nbCtx slot st) (key : κ) (free : ∀ p ∈ st.live, p.2 ≠ index) :
    Served hash nbCtx slot { st with ctxKey := update st.ctxKey index key } := by
  refine { served with keys := fun p live => ?_ }
  simpa [free p live] using served.keys p live

/-- A bucket with few live keys has a free cell. -/
theorem Served.room (served : Served hash nbCtx slot st) (h : BitVec 13)
    (few : (st.live.filter fun p => bucketOf (hash p.1) = h).length < 1024) :
    ∃ s < 32, ∃ e < 32, (st.bucket h).cell s e = none := by
  by_contra full
  have all : ∀ s < 32, ∀ e < 32, ((st.bucket h).cell s e).isSome = true := by
    intro s inside e low
    by_contra none
    exact full ⟨s,inside,e,low,Option.not_isSome_iff_eq_none.mp none⟩
  let slots := (st.live.filter fun p => bucketOf (hash p.1) = h).map fun p => slot p.1
  have covered : Finset.range 32 ×ˢ Finset.range 32 ⊆ slots.toFinset := by
    rintro ⟨s,e⟩ member
    obtain ⟨inside,low⟩ := Finset.mem_product.mp member
    have inside := Finset.mem_range.mp inside
    have low := Finset.mem_range.mp low
    obtain ⟨p,live,bucket,place⟩ := served.owned h s inside e low (all s inside e low)
    refine List.mem_toFinset.mpr (List.mem_map.mpr ⟨p,List.mem_filter.mpr ⟨live,?_⟩,place⟩)
    simpa using bucket
  have count := (Finset.card_le_card covered).trans (List.toFinset_card_le slots)
  simp only [Finset.card_product,Finset.card_range,slots,List.length_map] at count
  omega

/-- A bucket with 1024 live keys has no free cell. -/
theorem Served.full (served : Served hash nbCtx slot st) (h : BitVec 13)
    (many : 1024 ≤ (st.live.filter fun p => bucketOf (hash p.1) = h).length) :
    firstNot 0xFF#8 4 (st.bucket h).full = none := by
  have chosen : ∀ p, p ∈ (st.live.filter fun p => bucketOf (hash p.1) = h) ↔ p ∈ st.live ∧ bucketOf (hash p.1) = h := by simp
  let slots := (st.live.filter fun p => bucketOf (hash p.1) = h).map fun p => slot p.1
  have distinct : slots.Nodup := (served.once.filter _).map_on fun p first q second same =>
    served.apart ((chosen p).mp first).1 ((chosen q).mp second).1
      (((chosen p).mp first).2.trans ((chosen q).mp second).2.symm) same
  have within : slots.toFinset ⊆ Finset.range 32 ×ˢ Finset.range 32 := by
    intro c member
    obtain ⟨p,live,rfl⟩ := List.mem_map.mp (List.mem_toFinset.mp member)
    have low := served.inside p ((chosen p).mp live).1
    exact Finset.mem_product.mpr ⟨Finset.mem_range.mpr low.1,Finset.mem_range.mpr low.2⟩
  have all : slots.toFinset = Finset.range 32 ×ˢ Finset.range 32 := by
    refine Finset.eq_of_subset_of_card_le within ?_
    rw [List.toFinset_card_of_nodup distinct,List.length_map,Finset.card_product,Finset.card_range]
    exact many
  refine Bitmap.all_ones.mpr fun s inside => ((served.marked h).full s inside).mpr fun e low => ?_
  have member : (s,e) ∈ slots.toFinset := by
    rw [all]
    exact Finset.mem_product.mpr ⟨Finset.mem_range.mpr inside,Finset.mem_range.mpr low⟩
  obtain ⟨p,live,place⟩ := List.mem_map.mp (List.mem_toFinset.mp member)
  obtain ⟨live,bucket⟩ := (chosen p).mp live
  have stored := served.placed p live
  rw [bucket,place] at stored
  rw [stored]
  rfl

variable [DecidableEq κ]

/-- The entries that a call compares with. -/
def matching (hash : κ → BitVec 32) (nbCtx : Nat) (st : State κ) (key : κ) (e : Entry) : Bool :=
  decide (e.hash = subhash (hash key)) && exactMatch nbCtx st key e.index

/-- A scan finds the cell of the key if it is live. -/
theorem Served.finds (served : Served hash nbCtx slot st) (key : κ) :
    (scan (matching hash nbCtx st key) (List.range 4) (st.bucket (bucketOf (hash key)))).1 =
      st.bucket (bucketOf (hash key)) ∧
    match (scan (matching hash nbCtx st key) (List.range 4) (st.bucket (bucketOf (hash key)))).2 with
    | some found => found.bbit < 8 ∧ found.sbyte < 4 ∧ found.sbit < 8 ∧
        slot key = (8 * found.bbyte + found.bbit,8 * found.sbyte + found.sbit) ∧ ∃ p ∈ st.live, p.1 = key
    | none => ∀ p ∈ st.live, p.1 ≠ key := by
  obtain ⟨same,result⟩ := scan_spec (matching hash nbCtx st key) (served.marked (bucketOf (hash key))) (List.range 4)
    fun bbyte member => List.mem_range.mp member
  refine ⟨same,?_⟩
  split
  · rename_i found eq
    rw [eq] at result
    obtain ⟨byte,bit,entryByte,entryBit,entry,here,good⟩ := result
    obtain ⟨p,live,bucket,cell⟩ := served.owned (bucketOf (hash key)) (8 * found.bbyte + found.bbit) (by omega)
      (8 * found.sbyte + found.sbit) (by omega) (by rw [here]; rfl)
    have stored := served.placed p live
    rw [bucket,cell,here] at stored
    simp only [matching,exactMatch,Option.some.inj stored,served.fits live,Bool.and_eq_true,decide_eq_true_eq] at good
    have same : p.1 = key := (served.keys p live).2.2.symm.trans good.2.2
    exact ⟨bit,entryByte,entryBit,same ▸ cell,p,live,same⟩
  · rename_i eq
    rw [eq] at result
    rintro p live rfl
    have low := served.inside p live
    have miss := result (slot p.1).1 (List.mem_range.mpr (by omega)) (slot p.1).2 low.2 _ (served.placed p live)
    obtain ⟨-,exists',same⟩ := served.keys p live
    simp [matching,exactMatch,served.fits live,exists',same] at miss

theorem searchOrRemove_eq_scan (search : Bool) (key : κ) (st : State κ) : searchOrRemove hash nbCtx search key st =
    match scan (matching hash nbCtx st key) (List.range 4) (st.bucket (bucketOf (hash key))) with
    | (b,none) => ({ st with bucket := update st.bucket (bucketOf (hash key)) b },none)
    | (b,some slot) =>
      ({ st with bucket := update st.bucket (bucketOf (hash key)) (if search then b else removeEntry slot b) },
        (b.entryAt slot).map fun e => e.index.toNat) := rfl

/-- What a call does: nothing for a key that is not live, else it works on the cell of the key. -/
theorem Served.searchOrRemove (served : Served hash nbCtx slot st) (search : Bool) (key : κ) :
    ((∀ p ∈ st.live, p.1 ≠ key) ∧ searchOrRemove hash nbCtx search key st = (st,none)) ∨
    ∃ found : Slot, ∃ p ∈ st.live, p.1 = key ∧ found.bbit < 8 ∧ found.sbyte < 4 ∧ found.sbit < 8 ∧
      slot key = (8 * found.bbyte + found.bbit,8 * found.sbyte + found.sbit) ∧
      searchOrRemove hash nbCtx search key st =
        ({ st with bucket := update st.bucket (bucketOf (hash key)) (if search then st.bucket (bucketOf (hash key))
            else removeEntry found (st.bucket (bucketOf (hash key)))) },some p.2) := by
  obtain ⟨same,result⟩ := served.finds key
  rw [searchOrRemove_eq_scan]
  generalize scan (matching hash nbCtx st key) (List.range 4) (st.bucket (bucketOf (hash key))) = outcome at same result
  obtain ⟨b,found⟩ := outcome
  cases same
  cases found with
  | none => exact .inl ⟨result,by simp⟩
  | some found =>
    obtain ⟨bit,entryByte,entryBit,cell,p,live,rfl⟩ := result
    refine .inr ⟨found,p,live,rfl,bit,entryByte,entryBit,cell,?_⟩
    have stored := served.placed p live
    rw [cell] at stored
    have entry : (st.bucket (bucketOf (hash p.1))).entryAt found = some ⟨subhash (hash p.1),BitVec.ofNat 18 p.2⟩ := by
      simp only [Bucket.cell,Option.bind_eq_some_iff] at stored
      obtain ⟨pSub,sub,stored⟩ := stored
      split at stored
      · rw [Bucket.entryAt,sub]
        exact stored
      · cases stored
    simp only [entry,Option.map_some,served.fits live]

/-- A search changes nothing and returns the index of the key if it is live. -/
theorem Served.search (served : Served hash nbCtx slot st) (key : κ) :
    (FidCache.searchOrRemove hash nbCtx true key st).1 = st ∧
    ∀ index, (FidCache.searchOrRemove hash nbCtx true key st).2 = some index ↔ (key,index) ∈ st.live := by
  rcases served.searchOrRemove true key with ⟨absent,call⟩ | ⟨found,p,live,rfl,-,-,-,-,call⟩
  · rw [call]
    refine ⟨rfl,fun index => iff_of_false (by simp) fun live => absent _ live rfl⟩
  · rw [call]
    refine ⟨by simp,fun index => ⟨fun eq => ?_,fun other => ?_⟩⟩
    · cases eq
      exact live
    · rw [served.unique live other rfl]

/-- A removal frees the cell of the key. -/
theorem Served.remove (served : Served hash nbCtx slot st) (key : κ) :
    Served hash nbCtx slot { (FidCache.searchOrRemove hash nbCtx false key st).1 with
      live := st.live.filter fun p => p.1 ≠ key } := by
  rcases served.searchOrRemove false key with ⟨absent,call⟩ | ⟨found,p,live,rfl,bit,entryByte,entryBit,cell,call⟩
  · have all : (st.live.filter fun p => p.1 ≠ key) = st.live :=
      List.filter_eq_self.mpr fun p live => by simpa using absent p live
    rw [call,all]
    exact served
  · have subInside : 8 * found.bbyte + found.bbit < 32 := by
      have low := (served.inside p live).1
      rwa [cell] at low
    have stored := served.placed p live
    rw [cell] at stored
    obtain ⟨pSub,sub,-⟩ := Option.bind_eq_some_iff.mp stored
    obtain ⟨changed,marked⟩ := removeEntry_spec found pSub sub (served.marked _) bit entryByte entryBit
    have kept : ∀ q, q ∈ st.live.filter (fun q => q.1 ≠ p.1) ↔ q ∈ st.live ∧ q.1 ≠ p.1 := by simp
    rw [call]
    refine ⟨fun h => ?_,fun q member => ?_,fun q member => ?_,fun h s inside e low some => ?_,fun q member => ?_,
      served.once.filter _⟩
    · by_cases here : h = bucketOf (hash p.1)
      · subst here
        simpa using marked
      · simpa [here] using served.marked h
    · exact served.inside q ((kept q).mp member).1
    · obtain ⟨before,other⟩ := (kept q).mp member
      have low := served.inside q before
      have away : ¬ (bucketOf (hash q.1) = bucketOf (hash p.1) ∧ (slot q.1).1 = 8 * found.bbyte + found.bbit ∧
          (slot q.1).2 = 8 * found.sbyte + found.sbit) := by
        rintro ⟨bucket,first,second⟩
        exact other (by rw [served.apart before live bucket (by rw [cell,← first,← second])])
      simp only [Bool.false_eq_true,if_false]
      rw [cell_update _ changed _ low.1 low.2,if_neg away]
      exact served.placed q before
    · simp only [Bool.false_eq_true,if_false] at some
      rw [cell_update _ changed _ inside low] at some
      split at some
      · cases some
      · rename_i away
        obtain ⟨q,before,bucket,place⟩ := served.owned h s inside e low some
        refine ⟨q,(kept q).mpr ⟨before,fun same => away ?_⟩,bucket,place⟩
        rw [same] at bucket place
        rw [cell] at place
        obtain ⟨rfl,rfl⟩ := Prod.mk.inj place
        exact ⟨bucket.symm,rfl,rfl⟩
    · exact served.keys q ((kept q).mp member).1

theorem Served.insert (served : Served hash nbCtx slot st) (key : κ) (memory : Bool)
    (absent : ∀ p ∈ st.live, p.1 ≠ key ∧ p.2 ≠ index) (bound : index < nbCtx)
    (fit : FidCache.fits hash st (.insert key index memory) = true) :
    (memory = false ∧ deviceMappingInsert hash nbCtx key index memory st =
      ({ st with ctxKey := update st.ctxKey index key },false)) ∨
    ∃ st' slot', deviceMappingInsert hash nbCtx key index memory st = (st',true) ∧ st'.live = st.live ∧
      Served hash nbCtx slot' { st' with live := (key,index) :: st.live } := by
  simp only [FidCache.fits,Bool.and_eq_true,decide_eq_true_eq] at fit
  have given := served.setKey key fun p live => (absent p live).2
  have new := insertEntry_spec (served.marked (bucketOf (hash key))) (served.room _ fit.2) memory
    ⟨subhash (hash key),BitVec.ofNat 18 index⟩ 32
  rcases new with ⟨none,call⟩ | ⟨b,s,e,call,inside,low,free,changed,marked⟩
  · refine .inl ⟨none,?_⟩
    simp only [deviceMappingInsert,call,Function.update_eq_self,releaseEntry,Function.update_self]
    rcases given.searchOrRemove false key with ⟨-,same⟩ | ⟨-,p,live,other,-⟩
    · rw [same]
    · exact absurd other (absent p live).1
  · refine .inr ⟨{ st with bucket := update st.bucket (bucketOf (hash key)) b, ctxKey := update st.ctxKey index key },
      update slot key (s,e),by simp only [deviceMappingInsert,call],rfl,?_⟩
    have old : ∀ p ∈ st.live, update slot key (s,e) p.1 = slot p.1 := fun p live =>
      Function.update_of_ne (absent p live).1 _ _
    refine ⟨fun h => ?_,fun p member => ?_,fun p member => ?_,fun h t inside' f low' some => ?_,fun p member => ?_,
      List.nodup_cons.mpr ⟨fun live => (absent _ live).1 rfl,served.once⟩⟩
    · by_cases here : h = bucketOf (hash key)
      · subst here
        simpa using marked
      · simpa [here] using served.marked h
    · rcases List.mem_cons.mp member with rfl | live
      · simpa using ⟨inside,low⟩
      · rw [old p live]
        exact served.inside p live
    · rcases List.mem_cons.mp member with rfl | live
      · simpa using changed.here inside low
      · have within := served.inside p live
        have stored := served.placed p live
        have away : ¬ (bucketOf (hash p.1) = bucketOf (hash key) ∧ (slot p.1).1 = s ∧ (slot p.1).2 = e) := by
          rintro ⟨bucket,rfl,rfl⟩
          rw [bucket,free] at stored
          cases stored
        rw [old p live,cell_update _ changed _ within.1 within.2,if_neg away]
        exact stored
    · rw [cell_update _ changed _ inside' low'] at some
      split at some
      · rename_i here
        obtain ⟨rfl,rfl,rfl⟩ := here
        exact ⟨(key,index),List.mem_cons_self,rfl,by simp⟩
      · obtain ⟨p,live,bucket,place⟩ := served.owned h t inside' f low' some
        exact ⟨p,List.mem_cons_of_mem _ live,bucket,(old p live).trans place⟩
    · rcases List.mem_cons.mp member with rfl | live
      · simpa using ⟨fit.1,bound⟩
      · exact given.keys p live

/-- Steps whose insertions fit keep the map. -/
theorem Served.step (served : Served hash nbCtx slot st) (a : Action κ) (fit : FidCache.fits hash st a = true)
    (next : step hash nbCtx a st = some st') : ∃ slot, Served hash nbCtx slot st' := by
  cases a with
  | insert key index memory =>
    simp only [FidCache.step] at next
    split at next
    · rename_i enabled
      rcases served.insert key memory enabled.1 enabled.2 fit with ⟨-,call⟩ | ⟨after,slot',call,lists,served'⟩
      · rw [call] at next
        cases next
        exact ⟨slot,served.setKey key fun p live => (enabled.1 p live).2⟩
      · rw [call] at next
        cases next
        rw [← lists] at served'
        exact ⟨slot',served'⟩
    · cases next
  | search key =>
    cases next
    rw [(served.search key).1]
    exact ⟨slot,served⟩
  | remove key =>
    cases next
    have same : (FidCache.searchOrRemove hash nbCtx false key st).1.live = st.live := by
      rcases served.searchOrRemove false key with ⟨-,call⟩ | ⟨_,_,_,_,_,_,_,_,call⟩ <;> rw [call]
    rw [same]
    exact ⟨slot,served.remove key⟩

/-- The same cache with another record of the live keys. -/
def State.recording (st : State κ) (live : List (κ × Nat)) : State κ := { st with live := live }

/-- A call does not look at the record of the live keys. -/
theorem searchOrRemove_recording (search : Bool) (key : κ) (st : State κ) (live : List (κ × Nat)) :
    FidCache.searchOrRemove hash nbCtx search key (st.recording live) =
      ((FidCache.searchOrRemove hash nbCtx search key st).1.recording live,
        (FidCache.searchOrRemove hash nbCtx search key st).2) := by
  have same : (fun e : Entry => decide (e.hash = subhash (hash key)) && exactMatch nbCtx (st.recording live) key e.index) =
      fun e => decide (e.hash = subhash (hash key)) && exactMatch nbCtx st key e.index := rfl
  have cells : (st.recording live).bucket = st.bucket := rfl
  simp only [FidCache.searchOrRemove,same,cells]
  generalize FidCache.scan _ (List.range 4) (st.bucket (bucketOf (hash key))) = outcome
  rcases outcome with ⟨b,_ | slot⟩ <;> rfl

/-- The release of a context that is still in the cache loses its key. -/
theorem Served.release (served : Served hash nbCtx slot (st.recording live)) (index : Nat) :
    Served hash nbCtx slot ((releaseEntry hash nbCtx index st).recording
      (live.filter fun p => p.1 ≠ st.ctxKey index)) := by
  have removed := served.remove (st.ctxKey index)
  rw [searchOrRemove_recording] at removed
  exact removed

/-- Live keys of bucket `h` are in none of the cells of `gone`. -/
def Evicted (hash : κ → BitVec 32) (slot : κ → Nat × Nat) (h : BitVec 13) (gone : Nat × Nat → Prop)
    (live : List (κ × Nat)) : Prop := ∀ p ∈ live, bucketOf (hash p.1) = h → ¬ gone (slot p.1)

/-- The delete requests for the first `n` entries of a sub-bucket. -/
theorem Served.deleteSub (served : Served hash nbCtx slot (st.recording live)) (h : BitVec 13)
    (s : Nat) (pSub : SubBucket) (gone : Nat × Nat → Prop) (evicted : Evicted hash slot h gone live)
    (entries : ∀ p ∈ live, bucketOf (hash p.1) = h → (slot p.1).1 = s → (pSub.entry (slot p.1).2).index.toNat = p.2)
    (n : Nat) : ∃ rest, List.Subset rest live ∧
      Served hash nbCtx slot (((List.range n).foldl (fun st entryIdx =>
        releaseEntry hash nbCtx (pSub.entry entryIdx).index.toNat st) st).recording rest) ∧
      Evicted hash slot h (fun c => gone c ∨ c.1 = s ∧ c.2 < n) rest := by
  induction n with
  | zero => exact ⟨live,fun _ member => member,served,fun p member bucket => by simpa using evicted p member bucket⟩
  | succ n ih =>
    obtain ⟨rest,subset,served,evicted⟩ := ih
    rw [List.range_succ,List.foldl_append]
    generalize (List.range n).foldl _ st = st at served
    refine ⟨_,fun p member => subset (List.mem_of_mem_filter member),served.release _,fun p member bucket => ?_⟩
    obtain ⟨before,kept⟩ := List.mem_filter.mp member
    rintro (old | ⟨first,second⟩)
    · exact evicted p before bucket (.inl old)
    · rcases Nat.lt_succ_iff_lt_or_eq.mp second with lower | same
      · exact evicted p before bucket (.inr ⟨first,lower⟩)
      · have index := entries p (subset before) bucket first
        have key : st.ctxKey p.2 = p.1 := (served.keys p before).2.2
        rw [same] at index
        simp [index,key] at kept

/-- The delete requests for the first `n` sub-buckets. -/
theorem Served.deleteSubs (served : Served hash nbCtx slot st) (h : BitVec 13) (n : Nat) :
    ∃ rest, Served hash nbCtx slot (((List.range n).foldl (fun st subIdx =>
        match (st.bucket h).sub subIdx with
        | none => st
        | some pSub => (List.range 32).foldl (fun st entryIdx =>
            releaseEntry hash nbCtx (pSub.entry entryIdx).index.toNat st) st) st).recording rest) ∧
      Evicted hash slot h (fun c => c.1 < n) rest := by
  induction n with
  | zero => exact ⟨st.live,served,fun _ _ _ => Nat.not_lt_zero _⟩
  | succ n ih =>
    obtain ⟨live,served,evicted⟩ := ih
    rw [show List.range (n + 1) = List.range n ++ [n] from List.range_succ,List.foldl_append]
    generalize (List.range n).foldl _ st = st at served
    simp only [List.foldl_cons,List.foldl_nil]
    have lower : ∀ {s}, s < n + 1 → s < n ∨ s = n := Nat.lt_succ_iff_lt_or_eq.mp
    cases sub : (st.bucket h).sub n with
    | none =>
      refine ⟨live,served,fun p member bucket below => ?_⟩
      rcases lower below with lower | same
      · exact evicted p member bucket lower
      · have stored := served.placed p member
        rw [bucket,same] at stored
        simp [Bucket.cell,State.recording,sub] at stored
    | some pSub =>
      have entries : ∀ p ∈ live, bucketOf (hash p.1) = h → (slot p.1).1 = n →
          (pSub.entry (slot p.1).2).index.toNat = p.2 := by
        intro p member bucket first
        have stored := served.placed p member
        rw [bucket,first] at stored
        simp only [Bucket.cell,State.recording,sub,Option.bind_some,Option.ite_none_right_eq_some,
          Option.some.injEq] at stored
        rw [stored.2]
        exact served.fits member
      obtain ⟨rest,-,served',evicted'⟩ := served.deleteSub h n pSub _ evicted entries 32
      refine ⟨rest,served',fun p member bucket below => evicted' p member bucket ?_⟩
      rcases lower below with lower | same
      · exact .inl lower
      · exact .inr ⟨same,(served'.inside p member).2⟩

/-- The search of an entry to free in a bucket loses all its keys. -/
theorem Served.deleteRequests (served : Served hash nbCtx slot st) (h : BitVec 13) :
    ∃ rest, Served hash nbCtx slot ((deleteRequests hash nbCtx h st).recording rest) ∧
      ∀ p ∈ rest, bucketOf (hash p.1) ≠ h := by
  obtain ⟨rest,served',evicted⟩ := served.deleteSubs h 32
  exact ⟨rest,served',fun p member bucket => evicted p member bucket (served'.inside p member).1⟩

/-- An insertion in a full bucket fails, and the caller releases its own context too. -/
theorem Served.failed (served : Served hash nbCtx slot st) (h : BitVec 13) (index : Nat) :
    ∃ rest, Served hash nbCtx slot ((releaseEntry hash nbCtx index
        (FidCache.deleteRequests hash nbCtx h st)).recording rest) ∧
      ∀ p ∈ rest, bucketOf (hash p.1) ≠ h := by
  obtain ⟨rest,lost,away⟩ := served.deleteRequests h
  exact ⟨_,lost.release index,fun p member => away p (List.mem_of_mem_filter member)⟩

theorem searchOrRemove_live (search : Bool) (key : κ) (st : State κ) :
    (FidCache.searchOrRemove hash nbCtx search key st).1.live = st.live := by
  simp only [FidCache.searchOrRemove]
  generalize FidCache.scan _ (List.range 4) (st.bucket (bucketOf (hash key))) = outcome
  rcases outcome with ⟨b,_ | slot⟩ <;> rfl

theorem searchOrRemove_index (found : (FidCache.searchOrRemove hash nbCtx search key st).2 = some index) :
    index < 2 ^ 18 := by
  simp only [FidCache.searchOrRemove] at found
  generalize FidCache.scan _ (List.range 4) (st.bucket (bucketOf (hash key))) = outcome at found
  rcases outcome with ⟨b,_ | slot⟩
  · cases found
  · obtain ⟨e,-,rfl⟩ := Option.map_eq_some_iff.mp found
    exact e.index.isLt

theorem deleteRequests_live (h : BitVec 13) (st : State κ) :
    (FidCache.deleteRequests hash nbCtx h st).live = st.live := by
  rw [FidCache.deleteRequests]
  refine List.foldlRecOn (motive := fun after : State κ => after.live = st.live) _ _ rfl fun after same subIdx _ => ?_
  split
  · exact same
  · refine List.foldlRecOn (motive := fun after : State κ => after.live = st.live) _ _ same fun after same entryIdx _ => ?_
    exact (searchOrRemove_live false _ after).trans same

/-- An insertion that does not fit breaks the map: the index is cut, or the bucket is full and
all its keys are lost. -/
theorem Served.unfit (served : Served hash nbCtx slot st) (key : κ)
    (absent : ∀ p ∈ st.live, p.1 ≠ key ∧ p.2 ≠ index) (unfit : FidCache.fits hash st (.insert key index true) = false)
    (next : FidCache.step hash nbCtx (.insert key index true) st = some st') :
    ∃ p ∈ st'.live, (FidCache.searchOrRemove hash nbCtx true p.1 st').2 ≠ some p.2 := by
  have given := served.setKey key fun p live => (absent p live).2
  simp only [FidCache.fits,Bool.and_eq_false_iff,decide_eq_false_iff_not,not_lt] at unfit
  simp only [FidCache.step] at next
  split at next
  case isFalse => cases next
  by_cases many : 1024 ≤ (st.live.filter fun p => bucketOf (hash p.1) = bucketOf (hash key)).length
  · have call : insertEntry true ⟨subhash (hash key),BitVec.ofNat 18 index⟩ 33 (st.bucket (bucketOf (hash key))) =
        .bucketFull (st.bucket (bucketOf (hash key))) := by
      rw [insertEntry,served.full _ many]
    simp only [deviceMappingInsert,call,Function.update_eq_self] at next
    have result := Option.some.inj next
    subst result
    obtain ⟨p,chosen⟩ := List.exists_mem_of_length_pos (Nat.lt_of_lt_of_le (by decide) many)
    obtain ⟨live,bucket⟩ := List.mem_filter.mp chosen
    obtain ⟨rest,lost,away⟩ := given.failed (bucketOf (hash key)) index
    refine ⟨p,?_,fun found => ?_⟩
    · rw [releaseEntry,searchOrRemove_live,deleteRequests_live]
      exact live
    · generalize releaseEntry hash nbCtx index _ = after at found lost
      have still : (FidCache.searchOrRemove hash nbCtx true p.1 (after.recording rest)).2 = some p.2 := by
        rw [searchOrRemove_recording]
        exact found
      exact away p (((lost.search p.1).2 p.2).mp still) (by simpa using bucket)
  · have wide : 2 ^ 18 ≤ index := by
      rcases unfit with wide | full
      · exact wide
      · exact absurd full many
    rcases insertEntry_spec (served.marked (bucketOf (hash key))) (served.room _ (Nat.lt_of_not_le many)) true
      ⟨subhash (hash key),BitVec.ofNat 18 index⟩ 32 with ⟨no,-⟩ | ⟨b,s,e,call,-⟩
    · cases no
    · simp only [deviceMappingInsert,call] at next
      have result := Option.some.inj next
      subst result
      refine ⟨(key,index),List.mem_cons_self,fun found => ?_⟩
      exact absurd (searchOrRemove_index found) (Nat.not_lt_of_le wide)

/-- In every run whose insertions fit, the cache is the map of the live keys: a search returns the
index of a key exactly when it is live, and `slot` takes the live keys one to one to the
cells that are allocated, each with the entry of its key. The next insertion for which there is
memory succeeds if it fits, and breaks the map if it does not. -/
theorem cache_is_map (hash : κ → BitVec 32) (nbCtx : Nat) (zero : κ)
    (run : Machine.Run (FidCache.step hash nbCtx) (fun st a => FidCache.fits hash st a = true) (start zero) st) :
    (∀ key index, (FidCache.searchOrRemove hash nbCtx true key st).2 = some index ↔ (key,index) ∈ st.live) ∧
    (∃ slot : κ → Nat × Nat,
      (∀ p ∈ st.live, (slot p.1).1 < 32 ∧ (slot p.1).2 < 32 ∧
        (st.bucket (bucketOf (hash p.1))).cell (slot p.1).1 (slot p.1).2 =
          some ⟨subhash (hash p.1),BitVec.ofNat 18 p.2⟩ ∧ (BitVec.ofNat 18 p.2).toNat = p.2) ∧
      (∀ h, ∀ s < 32, ∀ e < 32, ((st.bucket h).cell s e).isSome = true ↔
        ∃ p ∈ st.live, bucketOf (hash p.1) = h ∧ slot p.1 = (s,e)) ∧
      ∀ p ∈ st.live, ∀ q ∈ st.live, bucketOf (hash p.1) = bucketOf (hash q.1) → slot p.1 = slot q.1 → p = q) ∧
    ∀ key index st', FidCache.step hash nbCtx (.insert key index true) st = some st' →
      (FidCache.fits hash st (.insert key index true) = true → st'.live = (key,index) :: st.live) ∧
      (FidCache.fits hash st (.insert key index true) = false →
        ∃ p ∈ st'.live, (FidCache.searchOrRemove hash nbCtx true p.1 st').2 ≠ some p.2) := by
  obtain ⟨slot,served⟩ : ∃ slot, Served hash nbCtx slot st :=
    run.invariant (fun st => ∃ slot, Served hash nbCtx slot st) ⟨_,served_start zero⟩
      fun _ a _ ⟨_,served⟩ fit next => served.step a fit next
  refine ⟨fun key => (served.search key).2,⟨slot,fun p live => ?_,fun h s inside e low => ⟨?_,?_⟩,?_⟩,?_⟩
  · exact ⟨(served.inside p live).1,(served.inside p live).2,served.placed p live,served.fits live⟩
  · exact served.owned h s inside e low
  · rintro ⟨p,live,rfl,place⟩
    have stored := served.placed p live
    rw [place] at stored
    rw [stored]
    rfl
  · exact fun p live q live' bucket same => served.apart live live' bucket same
  · intro key index st' next
    have enabled := next
    simp only [FidCache.step] at enabled
    split at enabled
    · rename_i free
      refine ⟨fun fit => ?_,fun unfit => served.unfit key free.1 unfit next⟩
      rcases served.insert key true free.1 free.2 fit with ⟨no,-⟩ | ⟨after,slot',call,lists,-⟩
      · cases no
      · rw [call] at enabled
        cases enabled
        rw [lists]
    · cases enabled

end Map

/-- Keys with one hash: the first of two is removed, the other one is found in its cell. -/
theorem cache_is_map_collision : ∃ st : State Nat, st.live = [(8,5)] ∧
    ((st.bucket 0).cell 0 0,(st.bucket 0).cell 0 1) = (none,some ⟨0,5⟩) ∧
    (searchOrRemove (fun _ => 0) 1024 true 8 st).2 = some 5 := by
  have done : (Machine.exec (step (fun _ => 0) 1024) (fun st a => fits (fun _ => 0) st a = true)
      [.insert 7 4 true,.insert 8 5 true,.search 8,.remove 7] (start 0)).map
      (fun st => (st.live,(st.bucket 0).cell 0 0,(st.bucket 0).cell 0 1)) =
      some ([(8,5)],none,some ⟨0,5⟩) := by decide +kernel
  obtain ⟨st,done,seen⟩ := Option.map_eq_some_iff.mp done
  obtain ⟨live,cells⟩ := Prod.mk.inj seen
  refine ⟨st,live,cells,((cache_is_map (fun _ => 0) 1024 0 (Machine.Run.refl.exec done)).1 8 5).mpr ?_⟩
  rw [live]
  exact List.mem_cons_self

/-- With more than 2^18 contexts, an index is cut when it is stored and its key is not found. -/
theorem wide_index_lost : ∃ st : State Nat,
    Machine.Run (step (fun _ => 0) (257 * 1024)) (fun _ _ => True) (start 0) st ∧
    st.live = [(7,262144)] ∧ (searchOrRemove (fun _ => 0) (257 * 1024) true 7 st).2 = none := by
  have done : (Machine.exec (step (fun _ => 0) (257 * 1024)) (fun _ _ => True) [.insert 7 262144 true] (start 0)).map
      (fun st => (st.live,(searchOrRemove (fun _ => 0) (257 * 1024) true 7 st).2)) =
      some ([(7,262144)],none) := by decide +kernel
  obtain ⟨st,done,seen⟩ := Option.map_eq_some_iff.mp done
  exact ⟨st,Machine.Run.refl.exec done,Prod.mk.inj seen⟩

end Rozofs.FidCache
