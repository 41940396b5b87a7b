import Rozofs.BitmapScan
import Rozofs.Machine
import Mathlib.Combinatorics.Pigeonhole

/-! The chunks of the names in a dirent file, `mdirent.h`: 4096 chunks in arrays of 32, given to the names
that are put in and taken back from those that are removed. In the bitmap a 1 is a free chunk. -/
namespace Rozofs.NameChunks
open Function (update)
open Bitmap (test setBit clearBit skipVal)

/-- `MDIRENTS_NAME_CHUNK_MAX_CNT`. -/
def nameChunkMaxCnt : Nat := 4096

/-- `MDIRENTS_CACHE_NB_CHUNK_PER_CHUNK_ARRAY`. -/
def nbChunkPerChunkArray : Nat := 32

/-- The chunks of `mdirents_name_entry_t` with a name of this length. -/
def nbChunks (len : Nat) : Nat := (4 + 16 + len - 1) / 64 + 1

/-- The loop of `dirent_allocate_chunks_with_alignment` over the chunks from `chunkIdx` on: `startIdx` is the
start of the free chunks before it, and `countIdx` their number. The alignment is a power of 2. -/
def findChunks (nb alignment : Nat) (m : Nat → BitVec 8) (last : Nat) : Nat → Nat → Option Nat → Nat → Option Nat
  | 0, _, _, _ => none
  | n + 1, chunkIdx, startIdx, countIdx =>
    if last ≤ chunkIdx then startIdx
    else if test m chunkIdx = false then
      if chunkIdx % 8 = 0 then
        match skipVal false m last last chunkIdx with
        | none => none
        | some next => findChunks nb alignment m last n (if next = chunkIdx then chunkIdx + 1 else next) none 0
      else findChunks nb alignment m last n (chunkIdx + 1) none 0
    else
      match startIdx with
      | none =>
        if last < chunkIdx + nb then none
        else if chunkIdx / alignment * alignment ≠ (chunkIdx + nb) / alignment * alignment then
          -- to the beginning of the next array
          findChunks nb alignment m last n ((chunkIdx + nb) / alignment * alignment) none 0
        else if 1 < nb then findChunks nb alignment m last n (chunkIdx + 1) (some chunkIdx) 1
        else some chunkIdx
      | some start =>
        if countIdx + 1 < nb then findChunks nb alignment m last n (chunkIdx + 1) (some start) (countIdx + 1)
        else some start

/-- `dirent_allocate_chunks_with_alignment`. -/
def allocateChunksWithAlignment (nb alignment : Nat) (m : Nat → BitVec 8) (last : Nat) : (Nat → BitVec 8) × Option Nat :=
  match findChunks nb alignment m last (last + 1) 0 none 0 with
  | none => (m,none)
  | some start => ((List.range' start nb).foldl clearBit m,some start)

/-- `dirent_release_chunks`. -/
def releaseChunks (start nb : Nat) (m : Nat → BitVec 8) (last : Nat) : Nat → BitVec 8 :=
  if last < start + nb then m else (List.range' start nb).foldl setBit m

/-- The place of a name in `mdirents_hash_entry_t`. -/
structure HashEntry where
  chunkIdx : BitVec 12
  nbChunk : BitVec 4
  deriving DecidableEq

/-- A dirent file: the bitmap of the chunks and the hash entries, `none` for one that is free. `given` tells the
chunks that were allocated to each entry, as a start and a count. -/
structure DirentFile where
  nameBitmap : Nat → BitVec 8
  hashEntry : Nat → Option HashEntry
  given : Nat → Option (Nat × Nat)

def empty : DirentFile := ⟨fun _ => 0xFF#8,fun _ => none,fun _ => none⟩

/-- `dirent_create_entry_name`, for a hash entry that is free. -/
def createEntryName (localIdx len : Nat) (st : DirentFile) : Option DirentFile :=
  match allocateChunksWithAlignment (nbChunks len) nbChunkPerChunkArray st.nameBitmap nameChunkMaxCnt with
  | (_,none) => none
  | (m,some start) =>
    some ⟨m,update st.hashEntry localIdx (some ⟨BitVec.ofNat 12 start,BitVec.ofNat 4 (nbChunks len)⟩),
      update st.given localIdx (some (start,nbChunks len))⟩

/-- `dirent_cache_del_entry_name`, then the hash entry is released. -/
def delEntryName (localIdx : Nat) (st : DirentFile) : Option DirentFile :=
  (st.hashEntry localIdx).map fun e =>
    ⟨releaseChunks e.chunkIdx.toNat e.nbChunk.toNat st.nameBitmap nameChunkMaxCnt,update st.hashEntry localIdx none,
      update st.given localIdx none⟩

inductive Action where
  | insert (localIdx len : Nat)
  | delete (localIdx : Nat)

/-- A name is put in any of the 384 hash entries that are free. -/
def step : Action → DirentFile → Option DirentFile
  | .insert localIdx len, st => if localIdx < 384 ∧ st.hashEntry localIdx = none then createEntryName localIdx len st else none
  | .delete localIdx, st => delEntryName localIdx st

/-- Names of up to 300 bytes. -/
theorem nbChunks_le_five : nbChunks len ≤ 5 ↔ len ≤ 300 := by
  rw [nbChunks]
  omega

/-- Names of at most 5 chunks. -/
def short : Action → Prop
  | .insert _ len => nbChunks len ≤ 5
  | .delete _ => True

instance : DecidablePred short
  | .insert _ len => inferInstanceAs (Decidable (nbChunks len ≤ 5))
  | .delete _ => .isTrue trivial

section Scan
variable {nb alignment last : Nat} {m : Nat → BitVec 8}

/-- Chunks that can be taken: free, up to the last one, and in one array, of which the last chunk is never
used. -/
structure Feasible (nb alignment : Nat) (m : Nat → BitVec 8) (last s : Nat) : Prop where
  within : s + nb ≤ last
  array : s / alignment = (s + nb) / alignment
  free : ∀ k < nb, test m (s + k) = true

/-- What the loop knows: no chunks before can be taken, and those from the start on are free. -/
def Scanned (nb alignment : Nat) (m : Nat → BitVec 8) (last chunkIdx : Nat) (startIdx : Option Nat) (countIdx : Nat) : Prop :=
  match startIdx with
  | none => ∀ s, Feasible nb alignment m last s → chunkIdx ≤ s
  | some start => start + countIdx = chunkIdx ∧ countIdx < nb ∧ start + nb ≤ last ∧ start / alignment = (start + nb) / alignment ∧
    (∀ k < countIdx, test m (start + k) = true) ∧ ∀ s, Feasible nb alignment m last s → start ≤ s

/-- A chunk that is not free is passed by. -/
theorem Scanned.busy {chunkIdx countIdx : Nat} {startIdx : Option Nat} (scanned : Scanned nb alignment m last chunkIdx startIdx countIdx)
    (some_chunk : 0 < nb) (busy : test m chunkIdx = false) (s : Nat) (feasible : Feasible nb alignment m last s) : chunkIdx < s := by
  have from_start : chunkIdx < s + nb → s ≤ chunkIdx → False := by
    intro high low
    have free := feasible.free (chunkIdx - s) (by omega)
    rw [Nat.add_sub_cancel' low,busy] at free
    cases free
  cases startIdx with
  | none =>
    have low := scanned s feasible
    by_contra here
    exact from_start (by omega) (by omega)
  | some start =>
    obtain ⟨place,few,_,_,_,first⟩ := scanned
    have low := first s feasible
    by_contra here
    exact from_start (by omega) (by omega)

/-- The loop finds chunks that can be taken when there are some. -/
theorem findChunks_spec (whole : last % 8 = 0) (some_chunk : 0 < nb) (aligned : 0 < alignment) (n chunkIdx : Nat)
    (startIdx : Option Nat) (countIdx : Nat) (enough : last - chunkIdx < n)
    (scanned : Scanned nb alignment m last chunkIdx startIdx countIdx) :
    match findChunks nb alignment m last n chunkIdx startIdx countIdx with
    | none => ∀ s, ¬Feasible nb alignment m last s
    | some start => Feasible nb alignment m last start := by
  induction n generalizing chunkIdx startIdx countIdx with
  | zero => exact absurd enough (Nat.not_lt_zero _)
  | succ n ih =>
    unfold findChunks
    by_cases past : last ≤ chunkIdx
    · rw [if_pos past]
      cases startIdx with
      | none =>
        intro s feasible
        have low := scanned s feasible
        have within := feasible.within
        omega
      | some start =>
        obtain ⟨place,few,within,_⟩ := scanned
        omega
    rw [if_neg past]
    by_cases busy : test m chunkIdx = false
    · have passed := scanned.busy some_chunk busy
      rw [if_pos busy]
      by_cases start : chunkIdx % 8 = 0
      · rw [if_pos start]
        have skip := Bitmap.skipVal_spec (v := false) (m := m) whole last chunkIdx start (Nat.sub_le _ _)
        cases found : skipVal false m last last chunkIdx with
        | none =>
          rw [found] at skip
          intro s feasible
          have free := feasible.free 0 some_chunk
          have within := feasible.within
          rw [Nat.add_zero,skip s (Nat.le_of_lt (passed s feasible)) (by omega)] at free
          cases free
        | some next =>
          rw [found] at skip
          obtain ⟨low,high,skipped⟩ := skip
          have after : ∀ s, Feasible nb alignment m last s → next ≤ s := by
            intro s feasible
            by_contra early
            have free := feasible.free 0 some_chunk
            rw [Nat.add_zero,skipped s (Nat.le_of_lt (passed s feasible)) (by omega)] at free
            cases free
          simp only
          by_cases stuck : next = chunkIdx
          · rw [if_pos stuck]
            exact ih _ none 0 (by omega) passed
          · rw [if_neg stuck]
            exact ih _ none 0 (by omega) after
      · rw [if_neg start]
        exact ih _ none 0 (by omega) passed
    rw [if_neg busy]
    have free : test m chunkIdx = true := by simpa using busy
    cases startIdx with
    | none =>
      simp only
      by_cases short : last < chunkIdx + nb
      · rw [if_pos short]
        intro s feasible
        have low := scanned s feasible
        have within := feasible.within
        omega
      rw [if_neg short]
      by_cases crossing : chunkIdx / alignment * alignment ≠ (chunkIdx + nb) / alignment * alignment
      · rw [if_pos crossing]
        have later : chunkIdx / alignment < (chunkIdx + nb) / alignment := by
          have le : chunkIdx / alignment ≤ (chunkIdx + nb) / alignment := Nat.div_le_div_right (Nat.le_add_right _ _)
          have ne : chunkIdx / alignment ≠ (chunkIdx + nb) / alignment := fun same => crossing (by rw [same])
          omega
        have further : chunkIdx < (chunkIdx + nb) / alignment * alignment := (Nat.div_lt_iff_lt_mul aligned).mp later
        apply ih _ none 0 (by omega)
        intro s feasible
        by_contra early
        have low := scanned s feasible
        have first : s / alignment < (chunkIdx + nb) / alignment := (Nat.div_lt_iff_lt_mul aligned).mpr (by omega)
        have second : (chunkIdx + nb) / alignment ≤ (s + nb) / alignment := Nat.div_le_div_right (by omega)
        have array := feasible.array
        omega
      rw [if_neg crossing]
      have array : chunkIdx / alignment = (chunkIdx + nb) / alignment :=
        Nat.eq_of_mul_eq_mul_right aligned (not_not.mp crossing)
      have freeHere : ∀ k < 1, test m (chunkIdx + k) = true := by
        intro k low
        rw [Nat.lt_one_iff.mp low]
        exact free
      by_cases many : 1 < nb
      · rw [if_pos many]
        exact ih _ (some chunkIdx) 1 (by omega) ⟨rfl,many,by omega,array,freeHere,scanned⟩
      · rw [if_neg many]
        exact ⟨by omega,array,fun k low => freeHere k (by omega)⟩
    | some start =>
      obtain ⟨place,few,within,array,freeBefore,first⟩ := scanned
      have freeHere : ∀ k < countIdx + 1, test m (start + k) = true := by
        intro k low
        obtain before | rfl := Nat.lt_succ_iff_lt_or_eq.mp low
        · exact freeBefore k before
        · rw [place]
          exact free
      simp only
      by_cases more : countIdx + 1 < nb
      · rw [if_pos more]
        exact ih _ (some start) (countIdx + 1) (by omega) ⟨by omega,more,within,array,freeHere,first⟩
      · rw [if_neg more]
        exact ⟨within,array,fun k low => freeHere k (by omega)⟩

end Scan

theorem test_reserve (nb start c : Nat) (m : Nat → BitVec 8) :
    test ((List.range' start nb).foldl clearBit m) c = (!decide (start ≤ c ∧ c < start + nb) && test m c) := by
  induction nb generalizing start m with
  | zero =>
    have outside : decide (start ≤ c ∧ c < start + 0) = false := decide_eq_false (by omega)
    rw [outside]
    rfl
  | succ nb ih =>
    have parts : (start ≤ c ∧ c < start + (nb + 1)) ↔ (start + 1 ≤ c ∧ c < start + 1 + nb) ∨ c = start := by omega
    rw [List.range'_succ,List.foldl_cons,ih,Bitmap.test_clearBit,decide_eq_decide.mpr parts,Bool.decide_or,Bool.not_or,Bool.and_assoc]

theorem test_release (nb start c : Nat) (m : Nat → BitVec 8) :
    test ((List.range' start nb).foldl setBit m) c = (decide (start ≤ c ∧ c < start + nb) || test m c) := by
  induction nb generalizing start m with
  | zero =>
    have outside : decide (start ≤ c ∧ c < start + 0) = false := decide_eq_false (by omega)
    rw [outside]
    rfl
  | succ nb ih =>
    have parts : (start ≤ c ∧ c < start + (nb + 1)) ↔ (start + 1 ≤ c ∧ c < start + 1 + nb) ∨ c = start := by omega
    rw [List.range'_succ,List.foldl_cons,ih,Bitmap.test_setBit,decide_eq_decide.mpr parts,Bool.decide_or,Bool.or_assoc]

section Names
variable {st st' : DirentFile}

/-- The chunks of a name: in one array, without its last chunk. -/
structure Inside (localIdx : Nat) (chunks : Nat × Nat) : Prop where
  entry : localIdx < 384
  some_chunk : 0 < chunks.2
  few : chunks.2 ≤ 5
  array : chunks.1 % 32 + chunks.2 < 32
  within : chunks.1 + chunks.2 ≤ 4096

/-- Two names have no chunk in common. -/
def Apart (chunks chunks' : Nat × Nat) : Prop := chunks.1 + chunks.2 ≤ chunks'.1 ∨ chunks'.1 + chunks'.2 ≤ chunks.1

/-- The hash entries tell the chunks that were given, and the bitmap those that are free. -/
structure Held (st : DirentFile) : Prop where
  recorded : ∀ i, st.hashEntry i = (st.given i).map fun chunks => ⟨BitVec.ofNat 12 chunks.1,BitVec.ofNat 4 chunks.2⟩
  inside : ∀ i chunks, st.given i = some chunks → Inside i chunks
  apart : ∀ i j chunks chunks', st.given i = some chunks → st.given j = some chunks' → i ≠ j → Apart chunks chunks'
  busy : ∀ c < 4096, test st.nameBitmap c = false ↔ ∃ i chunks, st.given i = some chunks ∧ chunks.1 ≤ c ∧ c < chunks.1 + chunks.2

theorem held_empty : Held empty where
  recorded _ := rfl
  inside _ _ none := by cases none
  apart _ _ _ _ none := by cases none
  busy c _ := by
    have free : test empty.nameBitmap c = true := (Bitmap.eq_ones_iff _).mp rfl _ (Nat.mod_lt _ (by decide))
    rw [free]
    simp [empty]

/-- The hash entries with a name in an array. -/
def arrayNames (st : DirentFile) (a : Nat) : Finset Nat :=
  (Finset.range 384).filter fun i => (st.given i).map (fun chunks => chunks.1 / 32) = some a

/-- One of the arrays has at most two names, as there are less than three times as many names as arrays. -/
theorem exists_array {localIdx : Nat} (low : localIdx < 384) (free : st.given localIdx = none) :
    ∃ a < 128, (arrayNames st a).card < 3 := by
  have few : ((Finset.range 384).filter fun i => st.given i ≠ none).card < (Finset.range 128).card * 3 := by
    rw [Finset.card_range]
    have proper : (Finset.range 384).filter (fun i => st.given i ≠ none) ⊂ Finset.range 384 := by
      apply Finset.filter_ssubset.mpr
      exact ⟨localIdx,Finset.mem_range.mpr low,not_not.mpr free⟩
    have less := Finset.card_lt_card proper
    rwa [Finset.card_range] at less
  let f := fun i => ((st.given i).map fun chunks => chunks.1 / 32).getD 0
  have pigeon : ∃ a ∈ Finset.range 128, (((Finset.range 384).filter fun i => st.given i ≠ none).filter fun i => f i = a).card < 3 :=
    Finset.exists_card_fiber_lt_of_card_lt_mul few
  obtain ⟨a,array,fiber⟩ := pigeon
  refine ⟨a,Finset.mem_range.mp array,Nat.lt_of_le_of_lt (Finset.card_le_card ?_) fiber⟩
  intro i member
  obtain ⟨inside,here⟩ := Finset.mem_filter.mp member
  have given : st.given i ≠ none := by
    intro none
    rw [none] at here
    cases here
  exact Finset.mem_filter.mpr ⟨Finset.mem_filter.mpr ⟨inside,given⟩,by simp only [f,here,Option.getD_some]⟩

/-- The windows of 5 chunks that a name of an array may have chunks in. -/
def windowsOf (st : DirentFile) (i : Nat) : Finset Nat :=
  let first := ((st.given i).map fun chunks => chunks.1 % 32).getD 0
  {first / 5,first / 5 + 1}

/-- Two names of at most 5 chunks leave one of the 6 windows of 5 chunks of an array free. -/
theorem Held.exists_window (held : Held st) {a : Nat} (few : (arrayNames st a).card < 3) :
    ∃ j < 6, ∀ i chunks, st.given i = some chunks → Apart chunks (32 * a + 5 * j,5) := by
  have taken : ((arrayNames st a).biUnion (windowsOf st)).card < (Finset.range 6).card := by
    have bound := Finset.card_biUnion_le_card_mul (arrayNames st a) (windowsOf st) 2 fun i _ => Finset.card_le_two
    rw [Finset.card_range]
    omega
  obtain ⟨j,low,free⟩ := Finset.exists_mem_notMem_of_card_lt_card taken
  refine ⟨j,Finset.mem_range.mp low,fun i chunks given => ?_⟩
  obtain ⟨entry,_,five,array,within⟩ := held.inside i chunks given
  have window := Finset.mem_range.mp low
  by_cases here : chunks.1 / 32 = a
  · have member : i ∈ arrayNames st a :=
      Finset.mem_filter.mpr ⟨Finset.mem_range.mpr entry,by rw [given,Option.map_some,here]⟩
    have away : j ∉ windowsOf st i := fun inside => free (Finset.mem_biUnion.mpr ⟨i,member,inside⟩)
    simp only [windowsOf,given,Option.map_some,Option.getD_some,Finset.mem_insert,Finset.mem_singleton,not_or] at away
    rw [Apart]
    omega
  · rw [Apart]
    omega

/-- Chunks apart from those of the names are free. -/
theorem Held.free (held : Held st) {first nb : Nat} (within : first + nb ≤ 4096)
    (away : ∀ i chunks, st.given i = some chunks → Apart chunks (first,nb)) : ∀ k < nb, test st.nameBitmap (first + k) = true := by
  intro k low
  by_contra taken
  obtain ⟨i,chunks,given,start,stop⟩ := (held.busy (first + k) (by omega)).mp (Bool.eq_false_iff.mpr taken)
  have parted := away i chunks given
  rw [Apart] at parted
  omega

/-- Chunks that are free are apart from those of the names. -/
theorem Held.away (held : Held st) {first nb : Nat} (some_chunk : 0 < nb) (within : first + nb ≤ 4096)
    (free : ∀ k < nb, test st.nameBitmap (first + k) = true) {i : Nat} {chunks : Nat × Nat} (given : st.given i = some chunks) :
    Apart chunks (first,nb) := by
  have own := (held.inside i chunks given).some_chunk
  by_contra meet
  rw [Apart] at meet
  -- the first chunk that both have
  have taken : test st.nameBitmap (max first chunks.1) = false :=
    (held.busy _ (by omega)).mpr ⟨i,chunks,given,by omega,by omega⟩
  have here := free (max first chunks.1 - first) (by omega)
  rw [Nat.add_sub_cancel' (Nat.le_max_left _ _),taken] at here
  cases here

theorem nbChunks_pos (len : Nat) : 0 < nbChunks len := Nat.succ_pos _

/-- As long as a hash entry is free, chunks can be taken for a name. -/
theorem Held.exists_feasible (held : Held st) {localIdx nb : Nat} (low : localIdx < 384) (free : st.given localIdx = none) (five : nb ≤ 5) :
    ∃ first, Feasible nb 32 st.nameBitmap 4096 first := by
  obtain ⟨a,array,few⟩ := exists_array low free
  obtain ⟨j,window,away⟩ := held.exists_window few
  have open5 := held.free (by omega) away
  have first : (32 * a + 5 * j) / 32 = a := by omega
  have last : (32 * a + 5 * j + nb) / 32 = a := by omega
  exact ⟨32 * a + 5 * j,by omega,first.trans last.symm,fun k inside => open5 k (by omega)⟩

/-- The chunks that are allocated for a name. -/
theorem Held.allocate (held : Held st) {localIdx nb : Nat} (low : localIdx < 384) (free : st.given localIdx = none) (some_chunk : 0 < nb)
    (five : nb ≤ 5) : ∃ first, Feasible nb 32 st.nameBitmap 4096 first ∧
      allocateChunksWithAlignment nb 32 st.nameBitmap 4096 = ((List.range' first nb).foldl clearBit st.nameBitmap,some first) := by
  obtain ⟨can,feasible⟩ := held.exists_feasible low free five
  have spec := findChunks_spec (m := st.nameBitmap) (show 4096 % 8 = 0 by decide) some_chunk (show 0 < 32 by decide) 4097 0 none 0
    (by decide) fun s _ => Nat.zero_le s
  rw [allocateChunksWithAlignment]
  cases found : findChunks nb 32 st.nameBitmap 4096 (4096 + 1) 0 none 0 with
  | none =>
    rw [found] at spec
    exact absurd feasible (spec can)
  | some first =>
    rw [found] at spec
    exact ⟨first,spec,rfl⟩

theorem Feasible.offset {nb last first : Nat} {m : Nat → BitVec 8} (feasible : Feasible nb 32 m last first) : first % 32 + nb < 32 := by
  have array := feasible.array
  omega

/-- The fields of a hash entry are wide enough for the chunks. -/
theorem Inside.toNat {i : Nat} {chunks : Nat × Nat} (inside : Inside i chunks) :
    (BitVec.ofNat 12 chunks.1).toNat = chunks.1 ∧ (BitVec.ofNat 4 chunks.2).toNat = chunks.2 := by
  obtain ⟨_,some_chunk,few,_,within⟩ := inside
  rw [BitVec.toNat_ofNat,BitVec.toNat_ofNat]
  exact ⟨Nat.mod_eq_of_lt (by omega),Nat.mod_eq_of_lt (by omega)⟩

theorem Held.given_none (held : Held st) {i : Nat} (free : st.hashEntry i = none) : st.given i = none := by
  rw [held.recorded i] at free
  exact Option.map_eq_none_iff.mp free

/-- The entry after one of its names is put in. -/
def put (localIdx first nb : Nat) (st : DirentFile) : DirentFile :=
  ⟨(List.range' first nb).foldl clearBit st.nameBitmap,update st.hashEntry localIdx (some ⟨BitVec.ofNat 12 first,BitVec.ofNat 4 nb⟩),
    update st.given localIdx (some (first,nb))⟩

/-- Chunks that can be taken are given to a hash entry that was free. -/
theorem Held.put (held : Held st) {localIdx first nb : Nat} (low : localIdx < 384) (free : st.given localIdx = none)
    (some_chunk : 0 < nb) (five : nb ≤ 5) (feasible : Feasible nb 32 st.nameBitmap 4096 first) : Held (put localIdx first nb st) := by
  have away : ∀ i chunks, st.given i = some chunks → Apart chunks (first,nb) :=
    fun i chunks given => held.away some_chunk feasible.within feasible.free given
  constructor
  case recorded =>
    intro i
    by_cases own : i = localIdx
    · subst own
      simp only [NameChunks.put,Function.update_self,Option.map_some]
    · simp only [NameChunks.put,Function.update_of_ne own]
      exact held.recorded i
  case inside =>
    intro i chunks given
    by_cases own : i = localIdx
    · subst own
      simp only [NameChunks.put,Function.update_self,Option.some.injEq] at given
      subst given
      exact ⟨low,some_chunk,five,feasible.offset,feasible.within⟩
    · simp only [NameChunks.put,Function.update_of_ne own] at given
      exact held.inside i chunks given
  case apart =>
    intro i j chunks chunks' given given' differ
    by_cases own : i = localIdx
    · subst own
      simp only [NameChunks.put,Function.update_self,Option.some.injEq,Function.update_of_ne (Ne.symm differ)] at given given'
      subst given
      exact (away j chunks' given').symm
    · by_cases own' : j = localIdx
      · subst own'
        simp only [NameChunks.put,Function.update_self,Option.some.injEq,Function.update_of_ne own] at given given'
        subst given'
        exact away i chunks given
      · simp only [NameChunks.put,Function.update_of_ne own,Function.update_of_ne own'] at given given'
        exact held.apart i j chunks chunks' given given' differ
  case busy =>
    intro c inside
    simp only [NameChunks.put,test_reserve,Bool.and_eq_false_iff,Bool.not_eq_eq_eq_not,Bool.not_false,decide_eq_true_eq]
    constructor
    · rintro (here | before)
      · exact ⟨localIdx,(first,nb),Function.update_self _ _ _,here⟩
      · obtain ⟨i,chunks,given,here⟩ := (held.busy c inside).mp before
        refine ⟨i,chunks,?_,here⟩
        rwa [Function.update_of_ne]
        intro own
        rw [own,free] at given
        cases given
    · rintro ⟨i,chunks,given,here⟩
      by_cases own : i = localIdx
      · rw [own,Function.update_self,Option.some.injEq] at given
        subst given
        exact .inl here
      · rw [Function.update_of_ne own] at given
        exact .inr ((held.busy c inside).mpr ⟨i,chunks,given,here⟩)

/-- The entry after one of its names is removed. -/
def remove (localIdx first nb : Nat) (st : DirentFile) : DirentFile :=
  ⟨(List.range' first nb).foldl setBit st.nameBitmap,update st.hashEntry localIdx none,update st.given localIdx none⟩

/-- The chunks of a hash entry are taken back. -/
theorem Held.remove (held : Held st) {localIdx : Nat} {chunks : Nat × Nat} (own : st.given localIdx = some chunks) :
    Held (remove localIdx chunks.1 chunks.2 st) := by
  have other : ∀ i chunks', update st.given localIdx none i = some chunks' → i ≠ localIdx ∧ st.given i = some chunks' := by
    intro i chunks' given
    by_cases same : i = localIdx
    · rw [same,Function.update_self] at given
      cases given
    · rw [Function.update_of_ne same] at given
      exact ⟨same,given⟩
  constructor
  case recorded =>
    intro i
    by_cases same : i = localIdx
    · subst same
      simp only [NameChunks.remove,Function.update_self,Option.map_none]
    · simp only [NameChunks.remove,Function.update_of_ne same]
      exact held.recorded i
  case inside => exact fun i chunks' given => held.inside i chunks' (other i chunks' given).2
  case apart =>
    exact fun i j first second given given' => held.apart i j first second (other i first given).2 (other j second given').2
  case busy =>
    intro c inside
    simp only [NameChunks.remove,test_release,Bool.or_eq_false_iff,decide_eq_false_iff_not]
    constructor
    · rintro ⟨out,before⟩
      obtain ⟨i,chunks',given,here⟩ := (held.busy c inside).mp before
      refine ⟨i,chunks',?_,here⟩
      rwa [Function.update_of_ne]
      intro same
      rw [same,own,Option.some.injEq] at given
      subst given
      exact out here
    · rintro ⟨i,chunks',given,here⟩
      obtain ⟨differ,before⟩ := other i chunks' given
      have parted := held.apart i localIdx chunks' chunks before own differ
      rw [Apart] at parted
      exact ⟨by omega,(held.busy c inside).mpr ⟨i,chunks',before,here⟩⟩

/-- What a name is given when it is put in a hash entry that is free. -/
theorem Held.createEntryName (held : Held st) {localIdx len : Nat} (low : localIdx < 384) (free : st.hashEntry localIdx = none)
    (five : nbChunks len ≤ 5) : ∃ first, Feasible (nbChunks len) 32 st.nameBitmap 4096 first ∧
      allocateChunksWithAlignment (nbChunks len) nbChunkPerChunkArray st.nameBitmap nameChunkMaxCnt =
        ((List.range' first (nbChunks len)).foldl clearBit st.nameBitmap,some first) ∧
      createEntryName localIdx len st = some (NameChunks.put localIdx first (nbChunks len) st) := by
  obtain ⟨first,feasible,allocated⟩ := held.allocate low (held.given_none free) (nbChunks_pos len) five
  refine ⟨first,feasible,allocated,?_⟩
  have allocated' : allocateChunksWithAlignment (nbChunks len) nbChunkPerChunkArray st.nameBitmap nameChunkMaxCnt =
    ((List.range' first (nbChunks len)).foldl clearBit st.nameBitmap,some first) := allocated
  simp only [NameChunks.createEntryName,allocated',NameChunks.put]

/-- What is released when a name is removed. -/
theorem Held.delEntryName (held : Held st) {localIdx : Nat} {chunks : Nat × Nat} (own : st.given localIdx = some chunks) :
    st.hashEntry localIdx = some ⟨BitVec.ofNat 12 chunks.1,BitVec.ofNat 4 chunks.2⟩ ∧
      delEntryName localIdx st = some (NameChunks.remove localIdx chunks.1 chunks.2 st) := by
  have recorded := held.recorded localIdx
  rw [own,Option.map_some] at recorded
  have inside := held.inside localIdx chunks own
  have bound : ¬nameChunkMaxCnt < chunks.1 + chunks.2 := Nat.not_lt.mpr inside.within
  refine ⟨recorded,?_⟩
  simp only [NameChunks.delEntryName,recorded,Option.map_some,inside.toNat,releaseChunks,if_neg bound,NameChunks.remove]

/-- One step keeps what is held. -/
theorem Held.step (held : Held st) {a : Action} (good : short a) (next : step a st = some st') : Held st' := by
  cases a with
  | insert localIdx len =>
    rw [NameChunks.step] at next
    split at next
    · rename_i free
      obtain ⟨first,feasible,_,created⟩ := held.createEntryName free.1 free.2 good
      rw [created,Option.some.injEq] at next
      subst next
      exact held.put free.1 (held.given_none free.2) (nbChunks_pos len) good feasible
    · cases next
  | delete localIdx =>
    rw [NameChunks.step] at next
    cases own : st.given localIdx with
    | none =>
      rw [NameChunks.delEntryName,held.recorded,own] at next
      cases next
    | some chunks =>
      rw [(held.delEntryName own).2,Option.some.injEq] at next
      subst next
      exact held.remove own

/-- What is held after every run. -/
theorem Held.run (run : Machine.Run NameChunks.step (fun _ a => short a) empty st) : Held st :=
  run.invariant Held held_empty fun _ _ _ held good next => held.step good next

/-- The hash entries that are allocated. -/
def allocated (st : DirentFile) : Nat := ((List.range 384).filter fun i => (st.hashEntry i).isSome).length

theorem exists_free (few : allocated st < 384) : ∃ i < 384, st.hashEntry i = none := by
  by_contra none
  have all : (List.range 384).filter (fun i => (st.hashEntry i).isSome) = List.range 384 := by
    apply List.filter_eq_self.mpr
    intro i member
    apply Option.isSome_iff_ne_none.mpr
    exact fun free => none ⟨i,List.mem_range.mp member,free⟩
  rw [allocated,all,List.length_range] at few
  exact Nat.lt_irrefl _ few

/-- After every history of names of at most 5 chunks, as long as fewer than 384 hash entries are allocated, the
allocation for such a name succeeds: its chunks were free, are inside one array, and apart from those of all the
entries. An entry records the chunks it was given, and it is these that are released with it. -/
theorem chunks_available (run : Machine.Run NameChunks.step (fun _ a => short a) empty st) :
    (allocated st < 384 → ∀ len, nbChunks len ≤ 5 → ∃ m first,
      allocateChunksWithAlignment (nbChunks len) nbChunkPerChunkArray st.nameBitmap nameChunkMaxCnt = (m,some first) ∧
      first + nbChunks len ≤ nameChunkMaxCnt ∧ (∀ k < nbChunks len, test st.nameBitmap (first + k) = true) ∧
      first / nbChunkPerChunkArray = (first + nbChunks len - 1) / nbChunkPerChunkArray ∧
      (∀ i chunks, st.given i = some chunks → Apart chunks (first,nbChunks len)) ∧
      (∀ c, test m c = (!decide (first ≤ c ∧ c < first + nbChunks len) && test st.nameBitmap c)) ∧
      ∀ localIdx < 384, st.hashEntry localIdx = none → ∃ st' e, NameChunks.step (.insert localIdx len) st = some st' ∧
        st'.nameBitmap = m ∧ st'.given = update st.given localIdx (some (first,nbChunks len)) ∧
        st'.hashEntry = update st.hashEntry localIdx (some e) ∧ e.chunkIdx.toNat = first ∧ e.nbChunk.toNat = nbChunks len) ∧
    (∀ i, (st.hashEntry i).isSome = (st.given i).isSome) ∧
    ∀ i chunks, st.given i = some chunks → ∃ e st', st.hashEntry i = some e ∧ e.chunkIdx.toNat = chunks.1 ∧
      e.nbChunk.toNat = chunks.2 ∧ NameChunks.step (.delete i) st = some st' ∧
      st'.given = update st.given i none ∧ st'.hashEntry = update st.hashEntry i none ∧
      ∀ c, test st'.nameBitmap c = (decide (chunks.1 ≤ c ∧ c < chunks.1 + chunks.2) || test st.nameBitmap c) := by
  have held := Held.run run
  refine ⟨?_,?_,?_⟩
  · intro few len five
    have some_chunk := nbChunks_pos len
    obtain ⟨spare,low,free⟩ := exists_free few
    obtain ⟨first,feasible,found,_⟩ := held.createEntryName low free five
    have offset := feasible.offset
    have array : first / 32 = (first + nbChunks len - 1) / 32 := by omega
    refine ⟨_,first,found,feasible.within,feasible.free,array,?_,?_,?_⟩
    · exact fun i chunks given => held.away some_chunk feasible.within feasible.free given
    · exact fun c => test_reserve _ _ _ _
    · intro localIdx inside free'
      have bounds : Inside localIdx (first,nbChunks len) := ⟨inside,some_chunk,five,offset,feasible.within⟩
      refine ⟨NameChunks.put localIdx first (nbChunks len) st,_,?_,rfl,rfl,rfl,bounds.toNat⟩
      rw [NameChunks.step,if_pos ⟨inside,free'⟩]
      simp only [NameChunks.createEntryName,found,NameChunks.put]
  · intro i
    rw [held.recorded i,Option.isSome_map]
  · intro i chunks own
    obtain ⟨recorded,released⟩ := held.delEntryName own
    obtain ⟨start,count⟩ := (held.inside i chunks own).toNat
    exact ⟨_,_,recorded,start,count,released,rfl,rfl,fun c => test_release _ _ _ _⟩

/-- Three names are put in and the first one removed: a long name goes after the others. -/
theorem chunks_available_three :
    ∃ st m, Machine.exec step (fun _ a => short a) [.insert 0 10,.insert 7 300,.insert 3 50,.delete 0] empty = some st ∧
      st.given 7 = some (1,5) ∧ allocateChunksWithAlignment 5 32 st.nameBitmap 4096 = (m,some 8) ∧
      test st.nameBitmap 8 = true := by
  have reached : (Machine.exec step (fun _ a => short a) [.insert 0 10,.insert 7 300,.insert 3 50,.delete 0] empty).isSome = true := by
    decide +kernel
  obtain ⟨st,run⟩ := Option.isSome_iff_exists.mp reached
  have given : (Machine.exec step (fun _ a => short a) [.insert 0 10,.insert 7 300,.insert 3 50,.delete 0] empty).map
      (fun st => (st.given 7,decide (allocated st < 384),findChunks 5 32 st.nameBitmap 4096 4097 0 none 0)) =
      some (some (1,5),true,some 8) := by decide +kernel
  rw [run,Option.map_some,Option.some.injEq,Prod.mk.injEq,Prod.mk.injEq] at given
  obtain ⟨given,few,start⟩ := given
  have reachable := Machine.Run.refl.exec run
  obtain ⟨m,first,found,_,free,_⟩ := (chunks_available reachable).1 (of_decide_eq_true few) 300 (by decide)
  have place : allocateChunksWithAlignment 5 32 st.nameBitmap 4096 = ((List.range' 8 5).foldl clearBit st.nameBitmap,some 8) := by
    rw [allocateChunksWithAlignment,start]
  have same : (m,some first) = ((List.range' 8 5).foldl clearBit st.nameBitmap,some 8) := found.symm.trans place
  have eight : first = 8 := Option.some.inj (congrArg Prod.snd same)
  subst eight
  exact ⟨st,m,run,given,found,free 0 (by decide)⟩

end Names

end Rozofs.NameChunks
