import Mathlib.Data.List.GetD
import Mathlib.Data.List.Count
import Mathlib.Algebra.BigOperators.Group.List.Basic
import Mathlib.Logic.Function.Basic
import Mathlib.Algebra.Order.Ring.Int

/-! The macros `ROZOFS_BITMAP64_*` of `rozofs.h`: bitmaps built upon arrays of 64 bit unsigned. The sizes
that the functions behind the macros get are of type `int`, and so are the numbers of bits they return. -/
namespace Rozofs.WordBitmap
open Function (update)

/-- `ROZOFS_BITMAP64_BIT`. -/
def bit (bitNumber : Nat) : BitVec 64 := 1#64 <<< (bitNumber % 64)

/-- `ROZOFS_BITMAP64_IDX`. -/
def idx (bitNumber : Nat) : Nat := bitNumber / 64

/-- `ROZOFS_BITMAP64_SET`. -/
def set (bitNumber : Nat) (bitmap : List (BitVec 64)) : List (BitVec 64) :=
  bitmap.modify (idx bitNumber) fun word => word ||| bit bitNumber

/-- `ROZOFS_BITMAP64_RESET`. -/
def reset (bitNumber : Nat) (bitmap : List (BitVec 64)) : List (BitVec 64) :=
  bitmap.modify (idx bitNumber) fun word => word &&& ~~~bit bitNumber

/-- `ROZOFS_BITMAP64_TEST1`. -/
def test1 (bitNumber : Nat) (bitmap : List (BitVec 64)) : Bool := bitmap.getD (idx bitNumber) 0 &&& bit bitNumber ≠ 0

/-- `sizeof (bitmap)`. -/
def sizeof (bitmap : List (BitVec 64)) : Nat := 8 * bitmap.length

/-- The turns of a loop that counts down a parameter of type `int` from a size. -/
def turns (size : Nat) : Nat := (BitVec.ofNat 32 size).toInt.toNat

/-- The loop over the words, from the last one down. -/
def testAllFunc (value : BitVec 64) (bitmap : List (BitVec 64)) : Nat → Bool
  | 0 => true
  | sz64 + 1 => if bitmap.getD sz64 0 ≠ value then false else testAllFunc value bitmap sz64

/-- `ROZOFS_BITMAP64_TEST_ALL1`. The constant has 32 bits. -/
def testAll1 (bitmap : List (BitVec 64)) : Bool := testAllFunc 0xFFFFFFFF#64 bitmap (turns (sizeof bitmap / 8))

/-- `ROZOFS_BITMAP64_TEST_ALL0`. -/
def testAll0 (bitmap : List (BitVec 64)) : Bool := testAllFunc 0#64 bitmap (turns (sizeof bitmap / 8))

/-- The bytes of a bitmap, as `(uint8_t*)bitmap` reads them. -/
def bytes (bitmap : List (BitVec 64)) : List (BitVec 8) :=
  bitmap.flatMap fun word => (List.range 8).map fun j => word.extractLsb' (8 * j) 8

/-- The loop over the bits of a byte. -/
def countByte (hit : BitVec 8 → Bool) (p8 : BitVec 8) (count : BitVec 32) : BitVec 32 :=
  (List.range 8).foldl (fun count i => if hit (1#8 <<< i &&& p8) then count + 1 else count) count

/-- The loop over the bytes. It passes over the bytes that have no bit to count. -/
def nbBitFunc (skipped : BitVec 8) (hit : BitVec 8 → Bool) : Nat → List (BitVec 8) → BitVec 32 → BitVec 32
  | sz8 + 1, p8 :: rest, count => nbBitFunc skipped hit sz8 rest (if p8 ≠ skipped then countByte hit p8 count else count)
  | _, _, count => count

/-- `ROZOFS_BITMAP64_NB_BIT1`. -/
def nbBit1 (bitmap : List (BitVec 64)) : BitVec 32 :=
  nbBitFunc 0#8 (fun masked => decide (masked ≠ 0)) (turns (sizeof bitmap)) (bytes bitmap) 0

/-- `ROZOFS_BITMAP64_NB_BIT0`. -/
def nbBit0 (bitmap : List (BitVec 64)) : BitVec 32 :=
  nbBitFunc 0xFF#8 (fun masked => decide (masked = 0)) (turns (sizeof bitmap)) (bytes bitmap) 0

/-- A modification of one bit: it is set or reset. -/
structure Edit where
  bitNumber : Nat
  value : Bool

def Edit.run (bitmap : List (BitVec 64)) (edit : Edit) : List (BitVec 64) :=
  if edit.value then set edit.bitNumber bitmap else reset edit.bitNumber bitmap

/-- The bits of a bitmap, in the terms of its words. -/
def bitOf (bitmap : List (BitVec 64)) (i : Nat) : Bool := (bitmap.getD (i / 64) 0).getLsbD (i % 64)

/-- The bits as they were set last. -/
def lastSet (bitmap : List (BitVec 64)) (edits : List Edit) : Nat → Bool :=
  edits.foldl (fun f edit => update f edit.bitNumber edit.value) (bitOf bitmap)

theorem and_shift_eq_zero {w : Nat} (word : BitVec w) (inside : k < w) : word &&& 1#w <<< k = 0#w ↔ word.getLsbD k = false := by
  constructor
  · intro zero
    have here := congrArg (fun x => x.getLsbD k) zero
    simpa [inside] using here
  · intro clear
    apply BitVec.eq_of_getLsbD_eq
    intro i low
    by_cases same : i = k
    · simp [same,clear]
    · have shifted : ¬(¬i < k ∧ i - k = 0) := by omega
      simp only [BitVec.getLsbD_and,BitVec.getLsbD_shiftLeft,BitVec.getLsbD_one,BitVec.getLsbD_zero]
      grind

theorem getLsbD_bit (bitNumber : Nat) (low : k < 64) : (bit bitNumber).getLsbD k = decide (k = bitNumber % 64) := by
  simp only [bit,BitVec.getLsbD_shiftLeft,BitVec.getLsbD_one]
  grind

theorem test1_eq (bitNumber : Nat) (bitmap : List (BitVec 64)) : test1 bitNumber bitmap = bitOf bitmap bitNumber := by
  have zero := and_shift_eq_zero (bitmap.getD (bitNumber / 64) 0) (Nat.mod_lt bitNumber (by decide : 0 < 64))
  rw [test1,bitOf,idx,bit]
  cases value : (bitmap.getD (bitNumber / 64) 0).getLsbD (bitNumber % 64) with
  | false => exact decide_eq_false (not_not.mpr (zero.mpr value))
  | true => exact decide_eq_true fun clear => Bool.false_ne_true ((zero.mp clear).symm.trans value)

section Edits
variable {bitmap : List (BitVec 64)} {edits : List Edit}

@[simp] theorem length_run (edit : Edit) : (edit.run bitmap).length = bitmap.length := by
  unfold Edit.run
  split <;> simp [set,reset]

theorem bitOf_modify (f : BitVec 64 → BitVec 64) (word : k < bitmap.length) (i : Nat) :
    bitOf (bitmap.modify k f) i =
      if k = i / 64 then (f (bitmap.getD (i / 64) 0)).getLsbD (i % 64) else bitOf bitmap i := by
  simp only [bitOf,List.getD_eq_getElem?_getD,List.getElem?_modify]
  by_cases here : k = i / 64
  · subst here
    simp only [if_true,List.getElem?_eq_getElem word]
    rfl
  · simp only [if_neg here]
    cases bitmap[i / 64]? <;> rfl

theorem bitOf_set (bitNumber i : Nat) (inside : bitNumber < 64 * bitmap.length) :
    bitOf (set bitNumber bitmap) i = (decide (i = bitNumber) || bitOf bitmap i) := by
  have low : i % 64 < 64 := Nat.mod_lt _ (by decide)
  rw [set,idx,bitOf_modify _ (by omega)]
  by_cases here : bitNumber / 64 = i / 64
  · have own : (i % 64 = bitNumber % 64) ↔ i = bitNumber := by omega
    rw [if_pos here,BitVec.getLsbD_or,getLsbD_bit _ low,decide_eq_decide.mpr own,Bool.or_comm,bitOf]
  · have other : ¬i = bitNumber := by omega
    rw [if_neg here,decide_eq_false other,Bool.false_or]

theorem bitOf_reset (bitNumber i : Nat) (inside : bitNumber < 64 * bitmap.length) :
    bitOf (reset bitNumber bitmap) i = (!decide (i = bitNumber) && bitOf bitmap i) := by
  have low : i % 64 < 64 := Nat.mod_lt _ (by decide)
  rw [reset,idx,bitOf_modify _ (by omega)]
  by_cases here : bitNumber / 64 = i / 64
  · have own : (i % 64 = bitNumber % 64) ↔ i = bitNumber := by omega
    rw [if_pos here,BitVec.getLsbD_and,BitVec.getLsbD_not,decide_eq_true low,Bool.true_and,getLsbD_bit _ low,
      decide_eq_decide.mpr own,Bool.and_comm,bitOf]
  · have other : ¬i = bitNumber := by omega
    rw [if_neg here,decide_eq_false other,Bool.not_false,Bool.true_and]

/-- A modification changes its own bit only. -/
theorem bitOf_run (edit : Edit) (inside : edit.bitNumber < 64 * bitmap.length) :
    bitOf (edit.run bitmap) = update (bitOf bitmap) edit.bitNumber edit.value := by
  funext i
  rw [Edit.run]
  cases value : edit.value with
  | true =>
    rw [if_pos rfl,bitOf_set _ i inside]
    by_cases same : i = edit.bitNumber
    · simp [same]
    · simp [same]
  | false =>
    rw [if_neg Bool.false_ne_true,bitOf_reset _ i inside]
    by_cases same : i = edit.bitNumber
    · simp [same]
    · simp [same]

theorem length_edits (edits : List Edit) (bitmap : List (BitVec 64)) : (edits.foldl Edit.run bitmap).length = bitmap.length := by
  induction edits generalizing bitmap with
  | nil => rfl
  | cons edit edits ih => rw [List.foldl_cons,ih,length_run]

/-- A bitmap has the bits that were set last. -/
theorem bitOf_edits (inside : ∀ edit ∈ edits, edit.bitNumber < 64 * bitmap.length) :
    bitOf (edits.foldl Edit.run bitmap) = lastSet bitmap edits := by
  induction edits generalizing bitmap with
  | nil => rfl
  | cons edit edits ih =>
    rw [List.foldl_cons,ih,lastSet,lastSet,List.foldl_cons,bitOf_run edit (inside edit List.mem_cons_self)]
    intro other member
    rw [length_run]
    exact inside other (List.mem_cons_of_mem _ member)

end Edits

section Tests
variable {bitmap : List (BitVec 64)}

theorem turns_le (size : Nat) : turns size ≤ size ∧ turns size < 2 ^ 31 := by
  rw [turns,BitVec.toInt_eq_toNat_cond,BitVec.toNat_ofNat]
  split <;> omega

theorem turns_of_lt (low : size < 2 ^ 31) : turns size = size := by
  rw [turns,BitVec.toInt_eq_toNat_cond,BitVec.toNat_ofNat]
  split <;> omega

theorem testAllFunc_iff (value : BitVec 64) (n : Nat) : testAllFunc value bitmap n = true ↔ ∀ k < n, bitmap.getD k 0 = value := by
  induction n with
  | zero => simp [testAllFunc]
  | succ n ih =>
    rw [testAllFunc]
    by_cases same : bitmap.getD n 0 = value
    · rw [if_neg (not_not.mpr same),ih]
      constructor
      · intro below k inside
        obtain low | rfl := Nat.lt_succ_iff_lt_or_eq.mp inside
        · exact below k low
        · exact same
      · exact fun all k inside => all k (Nat.lt_succ_of_lt inside)
    · rw [if_pos same]
      exact ⟨fun no => absurd no Bool.false_ne_true,fun all => absurd (all n (Nat.lt_succ_self n)) same⟩

/-- Words that have one value are bits that follow its pattern. -/
theorem words_iff (value : BitVec 64) (n : Nat) : (∀ k < n, bitmap.getD k 0 = value) ↔
    ∀ i < 64 * n, bitOf bitmap i = value.getLsbD (i % 64) := by
  constructor
  · intro words i inside
    rw [bitOf,words (i / 64) (by omega)]
  · intro bits k inside
    apply BitVec.eq_of_getLsbD_eq
    intro b low
    have here := bits (64 * k + b) (by omega)
    rwa [bitOf,show (64 * k + b) / 64 = k by omega,show (64 * k + b) % 64 = b by omega] at here

theorem testAllFunc_words (value : BitVec 64) (low : sizeof bitmap < 2 ^ 31) :
    testAllFunc value bitmap (turns (sizeof bitmap / 8)) = true ↔
      ∀ i < 64 * bitmap.length, bitOf bitmap i = value.getLsbD (i % 64) := by
  have words : turns (sizeof bitmap / 8) = bitmap.length := by
    rw [turns_of_lt (by omega),sizeof]
    omega
  rw [words,testAllFunc_iff,words_iff]

/-- `TEST_ALL1` is true when the low half of every word is set and the high half is not. -/
theorem testAll1_iff (low : sizeof bitmap < 2 ^ 31) :
    testAll1 bitmap = true ↔ ∀ i < 64 * bitmap.length, bitOf bitmap i = decide (i % 64 < 32) := by
  have pattern : ∀ b < 64, (0xFFFFFFFF#64).getLsbD b = decide (b < 32) := by decide +kernel
  rw [testAll1,testAllFunc_words _ low]
  exact forall₂_congr fun i _ => by rw [pattern _ (Nat.mod_lt i (by decide))]

theorem testAll0_iff (low : sizeof bitmap < 2 ^ 31) :
    testAll0 bitmap = true ↔ ∀ i < 64 * bitmap.length, bitOf bitmap i = false := by
  rw [testAll0,testAllFunc_words _ low]
  exact forall₂_congr fun i _ => by rw [BitVec.getLsbD_zero]

end Tests

section Counts
variable {bitmap : List (BitVec 64)}

/-- The bits of a byte that have one value. -/
def tally (v : Bool) (p8 : BitVec 8) : Nat := (List.range 8).countP fun i => p8.getLsbD i == v

/-- The bits of a bitmap that have one value. -/
def countOf (v : Bool) (f : Nat → Bool) (n : Nat) : Nat := (List.range n).countP fun i => f i == v

theorem foldl_count {α : Type} (P : α → Bool) (l : List α) (count : BitVec 32) :
    l.foldl (fun count x => if P x then count + 1 else count) count = count + BitVec.ofNat 32 (l.countP P) := by
  induction l generalizing count with
  | nil => simp
  | cons x l ih =>
    rw [List.foldl_cons,ih,List.countP_cons]
    by_cases hit : P x = true
    · rw [if_pos hit,if_pos hit,BitVec.ofNat_add,BitVec.add_assoc,BitVec.add_comm 1]
      rfl
    · rw [if_neg hit,if_neg hit,Nat.add_zero]

/-- What the loops over the bytes add to the count. -/
theorem nbBitFunc_eq {hit : BitVec 8 → Bool} (reads : ∀ p8 : BitVec 8, ∀ i < 8, hit (1#8 <<< i &&& p8) = (p8.getLsbD i == v))
    (none : tally v skipped = 0) (n : Nat) (p8s : List (BitVec 8)) (count : BitVec 32) :
    nbBitFunc skipped hit n p8s count = count + BitVec.ofNat 32 ((p8s.take n).map (tally v)).sum := by
  induction n generalizing p8s count with
  | zero => simp [nbBitFunc]
  | succ n ih =>
    cases p8s with
    | nil => simp [nbBitFunc]
    | cons p8 rest =>
      have byte : (if p8 ≠ skipped then countByte hit p8 count else count) = count + BitVec.ofNat 32 (tally v p8) := by
        by_cases skip : p8 = skipped
        · rw [if_neg (not_not.mpr skip),skip,none]
          simp
        · have same : (List.range 8).countP (fun i => hit (1#8 <<< i &&& p8)) = tally v p8 :=
            List.countP_congr fun i member => by rw [reads p8 i (List.mem_range.mp member)]
          rw [if_pos skip,countByte,foldl_count,same]
      rw [nbBitFunc,byte,ih,List.take_succ_cons,List.map_cons,List.sum_cons,BitVec.ofNat_add,BitVec.add_assoc]

theorem tally_add (p8 : BitVec 8) : tally true p8 + tally false p8 = 8 := by
  have all : ∀ p8 : BitVec 8, tally true p8 + tally false p8 = 8 := by decide +kernel
  exact all p8

theorem sum_tally_add (p8s : List (BitVec 8)) : (p8s.map (tally true)).sum + (p8s.map (tally false)).sum = 8 * p8s.length := by
  induction p8s with
  | nil => rfl
  | cons p8 rest ih =>
    have byte := tally_add p8
    simp only [List.map_cons,List.sum_cons,List.length_cons]
    omega

theorem length_bytes : (bytes bitmap).length = sizeof bitmap := by
  simp [bytes,sizeof,List.length_flatMap,Nat.mul_comm]

/-- The bits of the bytes are the bits of the words. -/
theorem sum_tally (v : Bool) (bitmap : List (BitVec 64)) :
    ((bytes bitmap).map (tally v)).sum = countOf v (bitOf bitmap) (64 * bitmap.length) := by
  induction bitmap with
  | nil => rfl
  | cons word bitmap ih =>
    have positions : List.range 64 = (List.range 8).flatMap fun j => (List.range 8).map fun i => 8 * j + i := by decide +kernel
    have first : (((List.range 8).map fun j => word.extractLsb' (8 * j) 8).map (tally v)).sum =
        (List.range 64).countP fun i => bitOf (word :: bitmap) i == v := by
      rw [positions,List.countP_flatMap,List.map_map]
      apply congrArg List.sum
      apply List.map_congr_left
      intro j member
      have inside := List.mem_range.mp member
      rw [Function.comp_apply,Function.comp_apply,tally,List.countP_map]
      apply List.countP_congr
      intro i low
      have low := List.mem_range.mp low
      rw [Function.comp_apply,bitOf,show (8 * j + i) / 64 = 0 by omega,show (8 * j + i) % 64 = 8 * j + i by omega,
        BitVec.getLsbD_extractLsb',decide_eq_true low,Bool.true_and]
      rfl
    have next : ∀ i, bitOf (word :: bitmap) (64 + i) = bitOf bitmap i := by
      intro i
      rw [bitOf,bitOf,show (64 + i) / 64 = i / 64 + 1 by omega,show (64 + i) % 64 = i % 64 by omega,List.getD_cons_succ]
    have split : 64 * (word :: bitmap).length = 64 + 64 * bitmap.length := by
      rw [List.length_cons]
      omega
    rw [countOf,split,List.range_add,List.countP_append,List.countP_map,← first,bytes,List.flatMap_cons,List.map_append,List.sum_append]
    rw [bytes] at ih
    rw [ih,countOf]
    congr 1
    apply List.countP_congr
    intro i _
    rw [Function.comp_apply,next]

theorem toInt_ofNat (c : Nat) : (BitVec.ofNat 32 c).toInt ≤ c ∧ ((BitVec.ofNat 32 c).toInt = c ↔ c < 2 ^ 31) := by
  rw [BitVec.toInt_eq_toNat_cond,BitVec.toNat_ofNat]
  split <;> omega

/-- The two numbers of bits have the right sum when no `int` overflows. -/
theorem nbBit_add_iff : (nbBit1 bitmap).toInt + (nbBit0 bitmap).toInt = 64 * bitmap.length ↔
    sizeof bitmap < 2 ^ 31 ∧ countOf true (bitOf bitmap) (64 * bitmap.length) < 2 ^ 31 ∧
      countOf false (bitOf bitmap) (64 * bitmap.length) < 2 ^ 31 := by
  have reads : ∀ p8 : BitVec 8, ∀ i < 8, decide (1#8 <<< i &&& p8 = 0) = (p8.getLsbD i == false) := by decide +kernel
  have one : nbBit1 bitmap = BitVec.ofNat 32 (((bytes bitmap).take (turns (sizeof bitmap))).map (tally true)).sum := by
    rw [nbBit1,@nbBitFunc_eq true 0#8 (fun masked => decide (masked ≠ 0)) (fun p8 i low => by simp only [decide_not,reads p8 i low]; cases p8.getLsbD i <;> rfl)
      (by decide)]
    exact BitVec.zero_add _
  have zero : nbBit0 bitmap = BitVec.ofNat 32 (((bytes bitmap).take (turns (sizeof bitmap))).map (tally false)).sum := by
    rw [nbBit0,nbBitFunc_eq reads (by decide)]
    exact BitVec.zero_add _
  have both := sum_tally_add ((bytes bitmap).take (turns (sizeof bitmap)))
  obtain ⟨short,small⟩ := turns_le (sizeof bitmap)
  rw [List.length_take_of_le (by rwa [length_bytes])] at both
  have ones := toInt_ofNat (((bytes bitmap).take (turns (sizeof bitmap))).map (tally true)).sum
  have zeros := toInt_ofNat (((bytes bitmap).take (turns (sizeof bitmap))).map (tally false)).sum
  rw [one,zero,← sum_tally,← sum_tally]
  have size : sizeof bitmap = 8 * bitmap.length := rfl
  by_cases low : sizeof bitmap < 2 ^ 31
  · have whole : (bytes bitmap).take (turns (sizeof bitmap)) = bytes bitmap := by
      rw [turns_of_lt low,← length_bytes,List.take_length]
    rw [whole] at ones zeros both ⊢
    rw [turns_of_lt low] at both
    omega
  · omega

end Counts

/-- What the macros have to say of a bitmap whose bits were last set to `f`. -/
structure Reports (bitmap : List (BitVec 64)) (f : Nat → Bool) : Prop where
  bits : ∀ i < 64 * bitmap.length, test1 i bitmap = f i
  all1 : testAll1 bitmap = true ↔ ∀ i < 64 * bitmap.length, f i = true
  all0 : testAll0 bitmap = true ↔ ∀ i < 64 * bitmap.length, f i = false
  numbers : (nbBit1 bitmap).toInt + (nbBit0 bitmap).toInt = 64 * bitmap.length

/-- The macros agree with the modifications exactly when neither all the bits are set nor just those of
the low half of every word, and the numbers of bits are of type `int`. An empty bitmap is no exception. -/
theorem reports_iff (bitmap : List (BitVec 64)) (edits : List Edit)
    (inside : ∀ edit ∈ edits, edit.bitNumber < 64 * bitmap.length) :
    Reports (edits.foldl Edit.run bitmap) (lastSet bitmap edits) ↔
      (bitmap = [] ∨ (∃ i < 64 * bitmap.length, lastSet bitmap edits i = false) ∧
        ∃ i < 64 * bitmap.length, lastSet bitmap edits i ≠ decide (i % 64 < 32)) ∧
      sizeof bitmap < 2 ^ 31 ∧ countOf true (lastSet bitmap edits) (64 * bitmap.length) < 2 ^ 31 ∧
      countOf false (lastSet bitmap edits) (64 * bitmap.length) < 2 ^ 31 := by
  have bits := bitOf_edits inside
  have length := length_edits edits bitmap
  have size : sizeof (edits.foldl Edit.run bitmap) = sizeof bitmap := by rw [sizeof,length,sizeof]
  have numbers := @nbBit_add_iff (edits.foldl Edit.run bitmap)
  rw [bits,length,size] at numbers
  constructor
  · intro reports
    have small := numbers.mp (by rw [reports.numbers,length])
    have pattern := @testAll1_iff (edits.foldl Edit.run bitmap) (size ▸ small.1)
    have all1 := reports.all1
    rw [bits,length] at pattern
    rw [length] at all1
    refine ⟨?_,small⟩
    by_cases empty : bitmap = []
    · exact .inl empty
    · have some : 0 < bitmap.length := List.length_pos_iff.mpr empty
      -- bit 32 of the first word tells the two patterns apart
      have clash : ¬((∀ i < 64 * bitmap.length, lastSet bitmap edits i = true) ∧
          ∀ i < 64 * bitmap.length, lastSet bitmap edits i = decide (i % 64 < 32)) := by
        rintro ⟨set,half⟩
        have first := set 32 (by omega)
        rw [half 32 (by omega)] at first
        cases first
      right
      constructor
      · by_contra none
        have set : ∀ i < 64 * bitmap.length, lastSet bitmap edits i = true := fun i low =>
          eq_true_of_ne_false fun clear => none ⟨i,low,clear⟩
        exact clash ⟨set,pattern.mp (all1.mpr set)⟩
      · by_contra none
        have half : ∀ i < 64 * bitmap.length, lastSet bitmap edits i = decide (i % 64 < 32) := fun i low =>
          not_not.mp fun differ => none ⟨i,low,differ⟩
        exact clash ⟨all1.mp (pattern.mpr half),half⟩
  · rintro ⟨shape,small⟩
    have pattern := @testAll1_iff (edits.foldl Edit.run bitmap) (size ▸ small.1)
    have zero := @testAll0_iff (edits.foldl Edit.run bitmap) (size ▸ small.1)
    rw [bits,length] at pattern zero
    refine ⟨fun i _ => by rw [test1_eq,bits],?_,by rwa [length],by rw [numbers.mpr small,length]⟩
    rw [length,pattern]
    obtain rfl | ⟨⟨i,low,clear⟩,j,low',differ⟩ := shape
    · exact ⟨fun _ i low => absurd low (Nat.not_lt_zero i),fun _ i low => absurd low (Nat.not_lt_zero i)⟩
    · constructor
      · exact fun half => absurd (half j low') differ
      · intro set
        rw [set i low] at clear
        cases clear

/-- One bit of a word is set. -/
theorem reports_iff_one : (5 < 64 * [0#64].length) ∧ Reports ([⟨5,true⟩].foldl Edit.run [0#64]) (lastSet [0#64] [⟨5,true⟩]) := by
  have inside : ∀ edit ∈ [(⟨5,true⟩ : Edit)], edit.bitNumber < 64 * [0#64].length := by
    intro edit member
    rw [List.mem_singleton.mp member]
    decide
  refine ⟨by decide,(reports_iff [0#64] [⟨5,true⟩] inside).mpr ⟨.inr ⟨⟨0,by decide,by decide +kernel⟩,0,by decide,by decide +kernel⟩,?_⟩⟩
  decide +kernel

/-- A word with all its bits set is not all ones for `TEST_ALL1`, and one with the low half set is. -/
theorem full_word_refused : testAll1 [BitVec.allOnes 64] = false ∧ testAll1 [0xFFFFFFFF#64] = true ∧
    ¬Reports ([].foldl Edit.run [BitVec.allOnes 64]) (lastSet [BitVec.allOnes 64] []) := by
  have refused : testAll1 [BitVec.allOnes 64] = false := by decide +kernel
  refine ⟨refused,by decide +kernel,fun reports => ?_⟩
  have all : ∀ i < 64, lastSet [BitVec.allOnes 64] [] i = true := by decide +kernel
  have said := reports.all1.mpr all
  rw [List.foldl_nil,refused] at said
  cases said

end Rozofs.WordBitmap
