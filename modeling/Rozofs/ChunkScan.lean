import Rozofs.BitmapScan
import Mathlib.Algebra.Order.Ring.Int

/-! The scans of the bitmaps of a dirent file: `check_bytes_val`, `dirent_allocate_chunks` and
`dirent_getnext_chunk`. A bitmap is read by words of 64, 32, 16 and 8 bits. An index of a byte is kept
on 8 bits, where the source does so. -/
namespace Rozofs.ChunkScan
open Bitmap

/-- An unsigned word of `n` bytes, the first byte being the lowest. -/
def load (p : Nat → BitVec 8) (byte : Nat) : Nat → Nat
  | 0 => 0
  | n + 1 => (p byte).toNat + 256 * load p (byte + 1) n

/-- `((uint64_t*) p)[i]`, and the same for the shorter words. -/
def u64 (p : Nat → BitVec 8) (i : Nat) : Nat := load p (8 * i) 8

def u32 (p : Nat → BitVec 8) (i : Nat) : Nat := load p (4 * i) 4

def u16 (p : Nat → BitVec 8) (i : Nat) : Nat := load p (2 * i) 2

def u8 (p : Nat → BitVec 8) (i : Nat) : Nat := load p i 1

/-- The word to skip: all ones when the search is for an allocated chunk. -/
def skipped (empty : Bool) : Nat := if empty then 0xFFFFFFFFFFFFFFFF else 0

/-- One turn of the loop of `check_bytes_val`: it goes on at a chunk, or it returns one. -/
inductive Turn where
  | next (chunkIdx : Nat)
  | done (chunkIdx : Nat)
  deriving DecidableEq

/-- The tests of a byte, which end all the cases of the `switch`. -/
def byteTurn (p : Nat → BitVec 8) (val chunkIdx : Nat) : Turn :=
  if u8 p (chunkIdx / 8) = val &&& 0xFF then .next (chunkIdx + 8)
  else if u8 p (chunkIdx / 8) &&& 0xF = val &&& 0xF then .done (chunkIdx + 4)
  else .done chunkIdx

/-- The `switch` on the place of the byte in a word of 64 bits. -/
def turn (p : Nat → BitVec 8) (val chunkIdx : Nat) : Turn :=
  match chunkIdx / 8 % 8 with
  | 0 =>
    if u64 p (chunkIdx / 64) = val then .next (chunkIdx + 64)
    else if u32 p (chunkIdx / 32) = val &&& 0xFFFFFFFF then .next (chunkIdx + 32)
    else if u16 p (chunkIdx / 16) = val &&& 0xFFFF then .next (chunkIdx + 16)
    else byteTurn p val chunkIdx
  | 2 | 6 =>
    if u16 p (chunkIdx / 16) = val &&& 0xFFFF then .next (chunkIdx + 16)
    else byteTurn p val chunkIdx
  | 4 =>
    if u32 p (chunkIdx / 32) = val &&& 0xFFFFFFFF then .next (chunkIdx + 32)
    else if u16 p (chunkIdx / 16) = val &&& 0xFFFF then .next (chunkIdx + 16)
    else byteTurn p val chunkIdx
  | _ => byteTurn p val chunkIdx

/-- `check_bytes_val`, in at most `n` turns; -1 is `none`. -/
def checkBytesVal (p : Nat → BitVec 8) (lastChunk : Nat) (empty : Bool) : Nat → Nat → Option Nat
  | 0, _ => none
  | n + 1, chunkIdx =>
    if chunkIdx < lastChunk then
      match turn p (skipped empty) chunkIdx with
      | .next chunkIdx => checkBytesVal p lastChunk empty n chunkIdx
      | .done chunkIdx => some chunkIdx
    else none

/-- `p[chunk_u8_idx] & (1 << bit_idx)`. -/
def chunkBit (p : Nat → BitVec 8) (chunkIdx : Nat) : Bool := p (chunkIdx / 8 % 256) &&& 1#8 <<< (chunkIdx % 8) ≠ 0

/-- The chunk after one that has not the value of the search; -1 is `none`. -/
def advance (p : Nat → BitVec 8) (lastChunk : Nat) (empty : Bool) (chunkIdx : Nat) : Option Nat :=
  if chunkIdx % 8 = 0 then
    match checkBytesVal p lastChunk empty lastChunk chunkIdx with
    | none => none
    | some nextChunkIdx => some (if nextChunkIdx = chunkIdx then chunkIdx + 1 else nextChunkIdx)
  else some (chunkIdx + 1)

/-- The loop of `dirent_getnext_chunk`. -/
def getnextLoop (p : Nat → BitVec 8) (lastChunk : Nat) (val : Bool) : Nat → Nat → Option Nat
  | 0, _ => none
  | n + 1, chunkIdx =>
    if chunkIdx < lastChunk then
      if chunkBit p chunkIdx ≠ val then
        match advance p lastChunk (!val) chunkIdx with
        | none => none
        | some chunkIdx => getnextLoop p lastChunk val n chunkIdx
      else some chunkIdx
    else none

/-- `dirent_getnext_chunk`; -1 is `none`. -/
def direntGetnextChunk (firstChunk : Nat) (p : Nat → BitVec 8) (lastChunk : Nat) (val : Bool) : Option Nat :=
  getnextLoop p lastChunk val lastChunk firstChunk

/-- The loop of `dirent_allocate_chunks`, which ends with `start_idx`; -1 is `none`. -/
def allocateLoop (nbChunks : Nat) (p : Nat → BitVec 8) (lastChunk : Nat) : Nat → Nat → Option Nat → Nat → Option Nat
  | 0, _, startIdx, _ => startIdx
  | n + 1, chunkIdx, startIdx, countIdx =>
    if chunkIdx < lastChunk then
      if chunkBit p chunkIdx = false then
        match advance p lastChunk false chunkIdx with
        | none => none
        | some chunkIdx => allocateLoop nbChunks p lastChunk n chunkIdx none 0
      else
        match startIdx with
        | none =>
          if chunkIdx + nbChunks > lastChunk then none
          else if 1 < nbChunks then allocateLoop nbChunks p lastChunk n (chunkIdx + 1) (some chunkIdx) 1
          else some chunkIdx
        | some startIdx =>
          if countIdx + 1 < nbChunks then allocateLoop nbChunks p lastChunk n (chunkIdx + 1) (some startIdx) (countIdx + 1)
          else some startIdx
    else startIdx

/-- The reservation of the bits. -/
def reserve (startIdx nbChunks : Nat) (p : Nat → BitVec 8) : Nat → BitVec 8 :=
  (List.range' startIdx nbChunks).foldl (fun p k => clear p (k / 8 % 256) (k % 8)) p

/-- `dirent_allocate_chunks`: the first chunk, -1 being `none`, and the bitmap. -/
def direntAllocateChunks (nbChunks : BitVec 8) (p : Nat → BitVec 8) (lastChunk : Nat) : Option Nat × (Nat → BitVec 8) :=
  match allocateLoop nbChunks.toNat p lastChunk lastChunk 0 none 0 with
  | none => (none,p)
  | some startIdx => (some startIdx,reserve startIdx nbChunks.toNat p)

section Words
variable {p : Nat → BitVec 8} {v : Bool}

/-- The word of `n` bytes whose bits are all `v`. -/
def wordOf (v : Bool) (n : Nat) : Nat := if v then 256 ^ n - 1 else 0

theorem toNat_byteOf (v : Bool) : (byteOf v).toNat = wordOf v 1 := by
  cases v <;> rfl

theorem wordOf_succ (v : Bool) (n : Nat) : wordOf v (n + 1) = wordOf v 1 + 256 * wordOf v n := by
  have positive : 0 < 256 ^ n := Nat.pow_pos (by decide)
  cases v with
  | false => rfl
  | true =>
    simp only [wordOf,if_true,Nat.pow_succ,Nat.pow_zero]
    omega

/-- A word has all its bits equal when its bytes have. -/
theorem load_eq_iff (byte n : Nat) : load p byte n = wordOf v n ↔ allBytes v p byte n = true := by
  rw [allBytes_iff]
  induction n generalizing byte with
  | zero => exact ⟨fun _ j low => absurd low (Nat.not_lt_zero j),fun _ => by cases v <;> rfl⟩
  | succ n ih =>
    have first := (p byte).isLt
    have ends : wordOf v 1 < 256 := by cases v <;> decide
    rw [load,wordOf_succ]
    constructor
    · intro same j low
      cases j with
      | zero =>
        apply BitVec.eq_of_toNat_eq
        rw [Nat.add_zero,toNat_byteOf]
        omega
      | succ j =>
        have rest := (ih (byte + 1)).mp (by omega) j (by omega)
        rwa [Nat.add_assoc,Nat.add_comm 1] at rest
    · intro all
      have here := congrArg BitVec.toNat (all 0 (by omega))
      rw [Nat.add_zero,toNat_byteOf] at here
      rw [here,(ih (byte + 1)).mpr fun j low => by
        have next := all (j + 1) (by omega)
        rwa [Nat.add_comm j,← Nat.add_assoc] at next]

theorem mask_skipped (v : Bool) : skipped v = wordOf v 8 ∧ skipped v &&& 0xFFFFFFFF = wordOf v 4 ∧
    skipped v &&& 0xFFFF = wordOf v 2 ∧ skipped v &&& 0xFF = wordOf v 1 := by
  cases v <;> decide

theorem nibble_iff (x : BitVec 8) : x.toNat &&& 0xF = skipped v &&& 0xF ↔ x &&& 0xF#8 = byteOf v &&& 0xF#8 := by
  have all : ∀ v : Bool, ∀ x : BitVec 8, x.toNat &&& 0xF = skipped v &&& 0xF ↔ x &&& 0xF#8 = byteOf v &&& 0xF#8 := by decide +kernel
  exact all v x

theorem u8_eq (byte : Nat) : u8 p byte = (p byte).toNat := by
  rw [u8,load,load,Nat.mul_zero,Nat.add_zero]

theorem byteTurn_eq (i : Nat) : byteTurn p (skipped v) i =
    if allBytes v p (i / 8) 1 = true then .next (i + 8)
    else .done (if p (i / 8) &&& 0xF#8 = byteOf v &&& 0xF#8 then i + 4 else i) := by
  have whole : u8 p (i / 8) = skipped v &&& 0xFF ↔ allBytes v p (i / 8) 1 = true := by
    rw [(mask_skipped v).2.2.2,u8,load_eq_iff]
  have nibble : u8 p (i / 8) &&& 0xF = skipped v &&& 0xF ↔ p (i / 8) &&& 0xF#8 = byteOf v &&& 0xF#8 := by
    rw [u8_eq,nibble_iff]
  simp only [byteTurn,whole,nibble]
  split
  · rfl
  · split <;> rfl

/-- The `switch` skips the longest word of one value that is aligned at the chunk. -/
theorem turn_eq (start : i % 8 = 0) : turn p (skipped v) i =
    if skipBytes v p (i / 8) = 0 then .done (if p (i / 8) &&& 0xF#8 = byteOf v &&& 0xF#8 then i + 4 else i)
    else .next (i + 8 * skipBytes v p (i / 8)) := by
  obtain ⟨long,half,quarter,_⟩ := mask_skipped v
  have two (even : i / 8 % 2 = 0) : u16 p (i / 16) = skipped v &&& 0xFFFF ↔ allBytes v p (i / 8) 2 = true := by
    rw [quarter,u16,show 2 * (i / 16) = i / 8 by omega,load_eq_iff]
  have four (aligned : i / 8 % 4 = 0) : u32 p (i / 32) = skipped v &&& 0xFFFFFFFF ↔ allBytes v p (i / 8) 4 = true := by
    rw [half,u32,show 4 * (i / 32) = i / 8 by omega,load_eq_iff]
  have eight (aligned : i / 8 % 8 = 0) : u64 p (i / 64) = skipped v ↔ allBytes v p (i / 8) 8 = true := by
    rw [long,u64,show 8 * (i / 64) = i / 8 by omega,load_eq_iff]
  rw [turn,skipBytes]
  generalize place : i / 8 % 8 = r
  have places : r = 0 ∨ r = 4 ∨ (r = 2 ∨ r = 6) ∨ r = 1 ∨ r = 3 ∨ r = 5 ∨ r = 7 := by omega
  rcases places with rfl | rfl | middle | odd
  · have even : i / 8 % 2 = 0 := by omega
    have aligned : i / 8 % 4 = 0 := by omega
    simp only [eight place,four aligned,two even,byteTurn_eq,even,aligned,Bool.and_eq_true,decide_eq_true_eq,true_and]
    split_ifs <;> first | rfl | simp_all
  · have even : i / 8 % 2 = 0 := by omega
    have aligned : i / 8 % 4 = 0 := by omega
    simp only [four aligned,two even,byteTurn_eq,even,aligned,Bool.and_eq_true,decide_eq_true_eq,true_and]
    split_ifs <;> first | rfl | simp_all
  · have even : i / 8 % 2 = 0 := by omega
    have far : ¬i / 8 % 4 = 0 := by omega
    have first : ¬r = 0 := by omega
    simp only [even,far,first,Bool.and_eq_true,decide_eq_true_eq,true_and,false_and,if_false]
    rcases middle with rfl | rfl
    all_goals
      simp only [two even,byteTurn_eq]
      split_ifs <;> first | rfl | simp_all
  · have far : ¬i / 8 % 2 = 0 := by omega
    have far' : ¬i / 8 % 4 = 0 := by omega
    have first : ¬r = 0 := by omega
    simp only [far,far',first,Bool.and_eq_true,decide_eq_true_eq,false_and,if_false]
    rcases odd with rfl | rfl | rfl | rfl
    all_goals
      simp only [byteTurn_eq]
      split_ifs <;> first | rfl | simp_all

/-- `check_bytes_val` skips the words of one value, from the start of a byte on. -/
theorem checkBytesVal_eq (n i : Nat) (start : i % 8 = 0) : checkBytesVal p last v n i = skipVal v p last n i := by
  induction n generalizing i with
  | zero => rfl
  | succ n ih =>
    rw [checkBytesVal,skipVal]
    by_cases past : last ≤ i
    · rw [if_pos past,if_neg (Nat.not_lt.mpr past)]
    · rw [if_neg past,if_pos (Nat.lt_of_not_le past),turn_eq start]
      by_cases stop : skipBytes v p (i / 8) = 0
      · simp only [if_pos stop]
      · simp only [if_neg stop]
        exact ih _ (by omega)

theorem chunkBit_eq (small : i < 2048) : chunkBit p i = test p i := by
  have reads : ∀ x : BitVec 8, ∀ b < 8, decide (x &&& 1#8 <<< b ≠ 0) = x.getLsbD b := by decide +kernel
  have byte : i / 8 % 256 = i / 8 := by omega
  rw [chunkBit,byte,test]
  exact reads _ _ (Nat.mod_lt i (by decide))

/-- The chunks that are passed at once have the value to skip. -/
theorem advance_spec (whole : last % 8 = 0) (low : i < last) (same : test p i = v) :
    match advance p last v i with
    | none => ∀ j, i ≤ j → j < last → test p j = v
    | some r => i < r ∧ r ≤ last ∧ ∀ j, i ≤ j → j < r → test p j = v := by
  have one : ∀ j, i ≤ j → j < i + 1 → test p j = v := fun j here next => by rwa [show j = i by omega]
  rw [advance]
  by_cases start : i % 8 = 0
  · have skip := skipVal_spec (v := v) (m := p) whole last i start (Nat.sub_le last i)
    rw [if_pos start,checkBytesVal_eq last i start]
    cases found : skipVal v p last last i with
    | none =>
      rw [found] at skip
      exact skip
    | some r =>
      rw [found] at skip
      obtain ⟨above,below,between⟩ := skip
      by_cases stuck : r = i
      · simp only [if_pos stuck]
        exact ⟨Nat.lt_succ_self i,low,one⟩
      · simp only [if_neg stuck]
        exact ⟨by omega,Nat.le_of_lt below,between⟩
  · rw [if_neg start]
    exact ⟨Nat.lt_succ_self i,low,one⟩

end Words

section Scans
variable {p : Nat → BitVec 8} {last : Nat}

/-- The plain scan: the least index from `start` on whose bit has the value. -/
structure Least (p : Nat → BitVec 8) (last : Nat) (val : Bool) (start i : Nat) : Prop where
  above : start ≤ i
  inside : i < last
  value : test p i = val
  least : ∀ j, start ≤ j → j < i → test p j ≠ val

/-- The loop finds the least index, or there is none. -/
theorem getnextLoop_spec (whole : last % 8 = 0) (small : last ≤ 2048) (val : Bool) (n i : Nat) (enough : last - i ≤ n) :
    match getnextLoop p last val n i with
    | none => ∀ j, i ≤ j → j < last → test p j ≠ val
    | some r => Least p last val i r := by
  induction n generalizing i with
  | zero => exact fun j low high => absurd high (by omega)
  | succ n ih =>
    rw [getnextLoop]
    by_cases inside : i < last
    · rw [if_pos inside,chunkBit_eq (by omega)]
      by_cases here : test p i = val
      · rw [if_neg (not_not.mpr here)]
        exact ⟨Nat.le_refl i,inside,here,fun j low high => absurd low (Nat.not_le.mpr high)⟩
      · have other : test p i = !val := by
          cases val with
          | false => exact eq_true_of_ne_false here
          | true => exact eq_false_of_ne_true here
        have differs : ∀ j, test p j = !val → test p j ≠ val := by
          intro j same
          rw [same]
          cases val <;> simp
        have passed := advance_spec whole inside other
        rw [if_pos here]
        cases next : advance p last (!val) i with
        | none =>
          rw [next] at passed
          exact fun j low high => differs j (passed j low high)
        | some r =>
          rw [next] at passed
          obtain ⟨above,below,between⟩ := passed
          have rest := ih r (by omega)
          simp only
          cases found : getnextLoop p last val n r with
          | none =>
            rw [found] at rest
            intro j low high
            by_cases near : j < r
            · exact differs j (between j low near)
            · exact rest j (by omega) high
          | some k =>
            rw [found] at rest
            refine ⟨by have := rest.above; omega,rest.inside,rest.value,fun j low high => ?_⟩
            by_cases near : j < r
            · exact differs j (between j low near)
            · exact rest.least j (by omega) high
    · rw [if_neg inside]
      exact fun j low high => absurd high (by omega)

/-- `n` consecutive free bits from `start` on. The first bit is free also when no bit is asked for. -/
structure FreeRun (p : Nat → BitVec 8) (last n start : Nat) : Prop where
  inside : start < last
  first : test p start = true
  fits : start + n ≤ last
  free : ∀ j, start ≤ j → j < start + n → test p j = true

/-- The lowest start of `n` consecutive free bits. -/
def LowestRun (p : Nat → BitVec 8) (last n start : Nat) : Prop :=
  FreeRun p last n start ∧ ∀ lower < start, ¬FreeRun p last n lower

/-- What the allocation knows at a chunk: no run starts before the candidate, whose bits so far
are free. -/
structure Scanned (p : Nat → BitVec 8) (last nb i : Nat) (startIdx : Option Nat) (countIdx : Nat) : Prop where
  lower : ∀ s < startIdx.getD i, ¬FreeRun p last nb s
  counted : ∀ s, startIdx = some s → s + countIdx = i ∧ 0 < countIdx ∧ countIdx < nb ∧ s + nb ≤ last
  free : ∀ s, startIdx = some s → ∀ j, s ≤ j → j < i → test p j = true

/-- A busy chunk ends the candidate, and the chunks that are passed with it start no run. -/
theorem Scanned.busy (scanned : Scanned p last nb i startIdx countIdx) (busy : ∀ j, i ≤ j → j < r → test p j = false)
    (above : i < r) : ∀ s < r, ¬FreeRun p last nb s := by
  intro s low run
  by_cases before : s < startIdx.getD i
  · exact scanned.lower s before run
  · have clear := busy i (Nat.le_refl i) above
    by_cases late : i ≤ s
    · have first := run.first
      rw [busy s late low] at first
      cases first
    · cases candidate : startIdx with
      | none =>
        rw [candidate] at before
        exact before (Nat.lt_of_not_le late)
      | some start =>
        rw [candidate,Option.getD_some] at before
        obtain ⟨count,_,few,_⟩ := scanned.counted start candidate
        rw [run.free i (by omega) (by omega)] at clear
        cases clear

/-- A candidate is complete before the end of the bitmap. -/
theorem Scanned.ended (scanned : Scanned p last nb i startIdx countIdx) (past : last ≤ i) : startIdx = none := by
  cases candidate : startIdx with
  | none => rfl
  | some s =>
    obtain ⟨count,_,few,fits⟩ := scanned.counted s candidate
    omega

/-- There are not enough bits left for a run. -/
theorem Scanned.short (scanned : Scanned p last nb i none countIdx) (past : last < i + nb ∨ last ≤ i) (s : Nat) : ¬FreeRun p last nb s := by
  intro run
  by_cases before : s < i
  · exact scanned.lower s before run
  · have := run.fits
    have := run.inside
    omega

theorem allocateLoop_spec (whole : last % 8 = 0) (small : last ≤ 2048) (nb n i : Nat) (startIdx : Option Nat) (countIdx : Nat)
    (enough : last - i ≤ n) (scanned : Scanned p last nb i startIdx countIdx) :
    match allocateLoop nb p last n i startIdx countIdx with
    | none => ∀ s, ¬FreeRun p last nb s
    | some s => LowestRun p last nb s := by
  induction n generalizing i startIdx countIdx with
  | zero =>
    obtain rfl := scanned.ended (by omega)
    simp only [allocateLoop]
    exact scanned.short (.inr (by omega))
  | succ n ih =>
    unfold allocateLoop
    by_cases inside : i < last
    · rw [if_pos inside,chunkBit_eq (by omega)]
      by_cases busy : test p i = false
      · have passed := advance_spec whole inside busy
        rw [if_pos busy]
        cases next : advance p last false i with
        | none =>
          rw [next] at passed
          exact fun s run => scanned.busy passed inside s run.inside run
        | some r =>
          rw [next] at passed
          obtain ⟨above,below,between⟩ := passed
          apply ih r none 0 (by omega)
          constructor
          · exact scanned.busy between above
          · exact fun s candidate => nomatch candidate
          · exact fun s candidate => nomatch candidate
      · have free : test p i = true := eq_true_of_ne_false busy
        rw [if_neg busy]
        cases candidate : startIdx with
        | none =>
          rw [candidate] at scanned
          simp only
          by_cases far : i + nb > last
          · rw [if_pos far]
            exact scanned.short (.inl far)
          · have alone : ∀ j, i ≤ j → j < i + 1 → test p j = true := fun j low high => by rwa [show j = i by omega]
            rw [if_neg far]
            by_cases more : 1 < nb
            · rw [if_pos more]
              apply ih (i + 1) (some i) 1 (by omega)
              constructor
              · exact scanned.lower
              · rintro s ⟨⟩
                omega
              · rintro s ⟨⟩
                exact alone
            · rw [if_neg more]
              exact ⟨⟨inside,free,by omega,fun j low high => alone j low (by omega)⟩,scanned.lower⟩
        | some s =>
          rw [candidate] at scanned
          obtain ⟨count,positive,few,fits⟩ := scanned.counted s rfl
          have all : ∀ j, s ≤ j → j < i + 1 → test p j = true := by
            intro j low high
            by_cases before : j < i
            · exact scanned.free s rfl j low before
            · rwa [show j = i by omega]
          simp only
          by_cases more : countIdx + 1 < nb
          · rw [if_pos more]
            apply ih (i + 1) (some s) (countIdx + 1) (by omega)
            constructor
            · exact scanned.lower
            · rintro s' ⟨⟩
              omega
            · rintro s' ⟨⟩
              exact all
          · rw [if_neg more]
            exact ⟨⟨by omega,all s (Nat.le_refl s) (by omega),fits,fun j low high => all j low (by omega)⟩,scanned.lower⟩
    · rw [if_neg inside]
      obtain rfl := scanned.ended (by omega)
      exact scanned.short (.inr (by omega))

/-- The reservation clears the bits of the run and no other. -/
theorem test_reserve (n : Nat) (small : s + n ≤ 2048) (p : Nat → BitVec 8) (i : Nat) :
    test (reserve s n p) i = (test p i && !(decide (s ≤ i) && decide (i < s + n))) := by
  induction n with
  | zero =>
    have outside : ¬(s ≤ i ∧ i < s + 0) := by omega
    rw [← Bool.decide_and,decide_eq_false outside,Bool.not_false,Bool.and_true]
    rfl
  | succ n ih =>
    have byte : (s + n) / 8 % 256 = (s + n) / 8 := by omega
    have last : reserve s (n + 1) p = clearBit (reserve s n p) (s + n) := by
      rw [reserve,List.range'_concat,List.foldl_append,List.foldl_cons,List.foldl_nil,Nat.one_mul,byte]
      rfl
    rw [last,test_clearBit,ih (by omega)]
    grind

end Scans

/-- In a bitmap of whole words of 64 bits, the search gives the least chunk from the first one on that has
the value, or -1 when there is none. The allocation gives the lowest start of the free chunks asked for
and clears their bits only, or -1 when there is no such run, and then it clears none. -/
theorem scans_plain (p : Nat → BitVec 8) (last : Nat) (whole : 64 ∣ last) (small : last ≤ 2048) :
    (∀ first val, match direntGetnextChunk first p last val with
      | some i => Least p last val first i
      | none => ∀ j, first ≤ j → j < last → test p j ≠ val) ∧
    (∀ nbChunks : BitVec 8, match direntAllocateChunks nbChunks p last with
      | (some s,p') => LowestRun p last nbChunks.toNat s ∧
          ∀ i, test p' i = (test p i && !(decide (s ≤ i) && decide (i < s + nbChunks.toNat)))
      | (none,p') => (∀ s, ¬FreeRun p last nbChunks.toNat s) ∧ p' = p) := by
  have bytes : last % 8 = 0 := by omega
  constructor
  · intro first val
    have found := @getnextLoop_spec p last bytes small val last first (Nat.sub_le last first)
    rw [direntGetnextChunk]
    cases result : getnextLoop p last val last first with
    | none =>
      rw [result] at found
      exact found
    | some i =>
      rw [result] at found
      exact found
  · intro nbChunks
    have start : Scanned p last nbChunks.toNat 0 none 0 := by
      constructor
      · exact fun s low => absurd low (Nat.not_lt_zero s)
      · exact fun s candidate => nomatch candidate
      · exact fun s candidate => nomatch candidate
    have found := allocateLoop_spec bytes small nbChunks.toNat last 0 none 0 (Nat.sub_le last 0) start
    rw [direntAllocateChunks]
    cases result : allocateLoop nbChunks.toNat p last last 0 none 0 with
    | none =>
      rw [result] at found
      exact ⟨found,rfl⟩
    | some s =>
      rw [result] at found
      exact ⟨found,test_reserve _ (by have := found.1.fits; omega) p⟩

/-- In the second of two words, of which the first is allocated, three chunks are found behind a busy one. -/
theorem scans_plain_second_word : ∃ p : Nat → BitVec 8, (64 ∣ 128 ∧ 128 ≤ 2048) ∧
    direntGetnextChunk 3 p 128 true = some 64 ∧ (direntAllocateChunks 3 p 128).1 = some 66 ∧
    Least p 128 true 3 64 ∧ LowestRun p 128 3 66 := by
  refine ⟨fun byte => if byte < 8 then 0#8 else 0xFD#8,by decide,by decide +kernel,by decide +kernel,?_,?_⟩
  · have next := (scans_plain (fun byte => if byte < 8 then 0#8 else 0xFD#8) 128 (by decide) (by decide)).1 3 true
    rwa [show direntGetnextChunk 3 (fun byte => if byte < 8 then 0#8 else 0xFD#8) 128 true = some 64 by decide +kernel] at next
  · have run := (scans_plain (fun byte => if byte < 8 then 0#8 else 0xFD#8) 128 (by decide) (by decide)).2 3#8
    have first : (direntAllocateChunks 3#8 (fun byte => if byte < 8 then 0#8 else 0xFD#8) 128).1 = some 66 := by decide +kernel
    cases result : direntAllocateChunks 3#8 (fun byte => if byte < 8 then 0#8 else 0xFD#8) 128 with
    | mk start bitmap =>
      rw [result] at run first
      obtain rfl := first
      exact run.1

end Rozofs.ChunkScan
