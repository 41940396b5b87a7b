import Mathlib.Data.List.GetD
import Mathlib.Logic.Function.Basic

/-! Files with holes, in blocks: what was never written, and what was cut off, is zero. A file may
be cut in chunks of one size that are files themselves; a chunk that ends early, and is not the
last one, ends with a hole. -/

/-- A file of `size` blocks. -/
structure SparseFile (α : Type) [Zero α] where
  size : Nat
  get : Nat → α
  beyond : ∀ i, size ≤ i → get i = 0

namespace SparseFile
variable {α : Type} [Zero α] {f g : SparseFile α}

def empty : SparseFile α := ⟨0,fun _ => 0,fun _ _ => rfl⟩

/-- Blocks are written from block `start` on. Nothing happens when there are none. -/
def pwrite (f : SparseFile α) (start : Nat) (data : List α) : SparseFile α where
  size := if data.length = 0 then f.size else max f.size (start + data.length)
  get := fun i => if start ≤ i ∧ i < start + data.length then data.getD (i - start) 0 else f.get i
  beyond := by
    intro i high
    have outside : ¬ (start ≤ i ∧ i < start + data.length) := by
      split at high <;> omega
    rw [if_neg outside]
    apply f.beyond
    split at high <;> omega

/-- The file gets this size: it is cut, or extended by zeros. -/
def ftruncate (f : SparseFile α) (size : Nat) : SparseFile α where
  size := size
  get := fun i => if i < size then f.get i else 0
  beyond := fun _ high => if_neg (Nat.not_lt.mpr high)

/-- At most `count` blocks, up to the end of the file. -/
def pread (f : SparseFile α) (start count : Nat) : List α :=
  (List.range (min count (f.size - start))).map fun i => f.get (start + i)

theorem ext (size : f.size = g.size) (get : ∀ i, f.get i = g.get i) : f = g := by
  obtain ⟨_,_,_⟩ := f
  obtain ⟨_,_,_⟩ := g
  cases size
  cases funext get
  rfl

@[simp] theorem pread_length (f : SparseFile α) (start count : Nat) :
    (f.pread start count).length = min count (f.size - start) := by
  simp [pread]

theorem pread_getD (f : SparseFile α) (start count i : Nat) :
    (f.pread start count).getD i 0 = if i < count then f.get (start + i) else 0 := by
  by_cases inside : i < min count (f.size - start)
  · rw [if_pos (by omega)]
    simp [pread,List.getD,inside]
  · have none : (f.pread start count)[i]? = none := by
      rw [List.getElem?_eq_none_iff,pread_length]
      omega
    rw [List.getD,none]
    split
    · exact (f.beyond _ (by omega)).symm
    · rfl

theorem getD_ext {xs ys : List α} (length : xs.length = ys.length) (get : ∀ i < xs.length, xs.getD i 0 = ys.getD i 0) : xs = ys := by
  refine List.ext_getElem length fun i low high => ?_
  simpa [List.getD,low,high] using get i low

/-- Reading in two parts. -/
theorem pread_add (f : SparseFile α) (start first second : Nat) :
    f.pread start (first + second) = f.pread start first ++ f.pread (start + first) second := by
  refine getD_ext (by simp only [List.length_append,pread_length]; omega) fun i low => ?_
  rw [pread_length] at low
  by_cases inside : i < (f.pread start first).length
  · rw [List.getD_append _ _ _ _ inside,pread_getD,pread_getD]
    rw [pread_length] at inside
    rw [if_pos (by omega),if_pos (by omega)]
  · have outside := Nat.le_of_not_lt inside
    rw [List.getD_append_right _ _ _ _ outside,pread_getD,pread_getD]
    rw [pread_length] at outside ⊢
    have all : min first (f.size - start) = first := by omega
    rw [all,if_pos (by omega),if_pos (by omega)]
    congr 1
    omega

/-- Writing in two parts. -/
theorem pwrite_append (f : SparseFile α) (start : Nat) {first second : List α} (some : first ≠ []) (more : second ≠ []) :
    f.pwrite start (first ++ second) = (f.pwrite start first).pwrite (start + first.length) second := by
  have pos := List.length_pos_iff.mpr some
  have pos' := List.length_pos_iff.mpr more
  refine ext ?_ fun i => ?_
  · simp only [pwrite,List.length_append]
    rw [if_neg (by omega),if_neg (by omega),if_neg (by omega)]
    omega
  · simp only [pwrite,List.length_append]
    by_cases inside : start ≤ i ∧ i < start + first.length
    · rw [if_pos (by omega),if_neg (by omega),if_pos inside,List.getD_append _ _ _ _ (by omega)]
    · by_cases later : start + first.length ≤ i ∧ i < start + first.length + second.length
      · rw [if_pos (by omega),if_pos later,List.getD_append_right _ _ _ _ (by omega)]
        congr 1
        omega
      · rw [if_neg (by omega),if_neg later,if_neg inside]

/-- Zeros after the end need not be written. -/
theorem ftruncate_eq_pwrite (f : SparseFile α) (high : f.size ≤ start) (some : 0 < count) :
    f.ftruncate (start + count) = f.pwrite start (List.replicate count 0) := by
  refine ext ?_ fun i => ?_
  · simp only [ftruncate,pwrite,List.length_replicate]
    rw [if_neg (by omega)]
    omega
  · simp only [ftruncate,pwrite,List.length_replicate]
    by_cases inside : start ≤ i ∧ i < start + count
    · rw [if_pos inside.2,if_pos inside,f.beyond i (by omega)]
      exact (List.getElem?_getD_replicate_default_eq _ _ _).symm
    · rw [if_neg inside]
      split
      · rfl
      · exact (f.beyond i (by omega)).symm

theorem pread_empty (start count : Nat) : (empty : SparseFile α).pread start count = [] := by
  simp [pread,empty]

end SparseFile

/-- The file `whole` is cut in `n` chunks of `chunk` blocks. -/
structure Chunked {α : Type} [Zero α] (chunk n : Nat) (files : Nat → SparseFile α) (whole : SparseFile α) : Prop where
  sizes : ∀ c, (files c).size ≤ chunk
  beyond : ∀ c, n ≤ c → files c = .empty
  size : whole.size = if n = 0 then 0 else (n - 1) * chunk + (files (n - 1)).size
  get : ∀ c i, i < chunk → whole.get (c * chunk + i) = (files c).get i

namespace Chunked
open Function (update)
variable {α : Type} [Zero α] {chunk n : Nat} {files : Nat → SparseFile α} {whole : SparseFile α}

theorem empty (chunk : Nat) : Chunked chunk 0 (fun _ => .empty) (.empty : SparseFile α) :=
  ⟨fun _ => Nat.zero_le _,fun _ _ => rfl,rfl,fun _ _ _ => rfl⟩

/-- A block is in a chunk. -/
theorem split (pos : 0 < chunk) (b : Nat) : ∃ c i, i < chunk ∧ b = c * chunk + i :=
  ⟨b / chunk,b % chunk,Nat.mod_lt _ pos,by rw [Nat.mul_comm]; exact (Nat.div_add_mod b chunk).symm⟩

theorem le_mul (lt : c < c') : c * chunk + chunk ≤ c' * chunk := by
  rw [← Nat.succ_mul]
  exact Nat.mul_le_mul_right chunk lt

/-- The file ends in its last chunk. -/
theorem le_size (chunked : Chunked chunk n files whole) (low : c < n) : c * chunk ≤ whole.size ∧ whole.size ≤ n * chunk := by
  have last := chunked.sizes (n - 1)
  have below : c * chunk ≤ (n - 1) * chunk := Nat.mul_le_mul_right chunk (by omega)
  have all : n * chunk = (n - 1) * chunk + chunk := by rw [← Nat.succ_mul,Nat.succ_eq_add_one,Nat.sub_add_cancel (by omega)]
  rw [chunked.size,if_neg (by omega)]
  omega

/-- Blocks of one chunk are written. -/
theorem pwrite (chunked : Chunked chunk n files whole) (c : Nat) {data : List α} (some : data ≠ []) (fits : start + data.length ≤ chunk) :
    Chunked chunk (max n (c + 1)) (update files c ((files c).pwrite start data)) (whole.pwrite (c * chunk + start) data) := by
  have pos := List.length_pos_iff.mpr some
  have here := chunked.sizes c
  refine ⟨fun c' => ?_,fun c' high => ?_,?_,fun c' i low => ?_⟩
  · by_cases same : c' = c
    · subst same
      simp only [Function.update_self,SparseFile.pwrite]
      rw [if_neg (by omega)]
      omega
    · rw [Function.update_of_ne same]
      exact chunked.sizes c'
  · rw [Function.update_of_ne (by omega)]
    exact chunked.beyond c' (by omega)
  · simp only [SparseFile.pwrite]
    rw [if_neg (by omega),if_neg (by omega)]
    rcases Nat.lt_trichotomy n (c + 1) with new | last | inner
    · -- the chunk is after those of the file
      have bound : whole.size ≤ c * chunk := by
        have zero := chunked.size
        by_cases none : n = 0
        · rw [zero,if_pos none]
          exact Nat.zero_le _
        · have all := (chunked.le_size (show n - 1 < n by omega)).2
          exact Nat.le_trans all (Nat.mul_le_mul_right chunk (by omega))
      have fresh : (files c).size = 0 := by rw [chunked.beyond c (by omega)]; rfl
      rw [show max n (c + 1) - 1 = c by omega,Function.update_self]
      simp only [fresh]
      rw [if_neg (by omega)]
      omega
    · have size := chunked.size
      rw [if_neg (by omega),show n - 1 = c by omega] at size
      rw [show max n (c + 1) - 1 = c by omega,Function.update_self]
      simp only
      rw [if_neg (by omega)]
      omega
    · have step : c * chunk + chunk ≤ (n - 1) * chunk := le_mul (by omega)
      have size := chunked.size
      rw [if_neg (by omega)] at size
      rw [show max n (c + 1) - 1 = n - 1 by omega,Function.update_of_ne (by omega)]
      omega
  · simp only [SparseFile.pwrite]
    rcases Nat.lt_trichotomy c' c with less | rfl | more
    · have step : c' * chunk + chunk ≤ c * chunk := le_mul less
      rw [if_neg (by omega),Function.update_of_ne (by omega)]
      exact chunked.get c' i low
    · rw [Function.update_self]
      simp only
      by_cases inside : start ≤ i ∧ i < start + data.length
      · rw [if_pos (by omega),if_pos inside]
        congr 1
        omega
      · rw [if_neg (by omega),if_neg inside]
        exact chunked.get c' i low
    · have step : c * chunk + chunk ≤ c' * chunk := le_mul more
      rw [if_neg (by omega),Function.update_of_ne (by omega)]
      exact chunked.get c' i low

/-- The file is cut, or extended, in one chunk. -/
theorem ftruncate (chunked : Chunked chunk n files whole) (c : Nat) (fits : last ≤ chunk) :
    Chunked chunk (c + 1) (fun i => if i < c then files i else if i = c then (files c).ftruncate last else .empty)
      (whole.ftruncate (c * chunk + last)) := by
  refine ⟨fun c' => ?_,fun c' high => ?_,?_,fun c' i low => ?_⟩
  · split
    · exact chunked.sizes c'
    · split
      · exact fits
      · exact Nat.zero_le _
  · rw [if_neg (by omega),if_neg (by omega)]
  · simp [SparseFile.ftruncate]
  · simp only [SparseFile.ftruncate]
    rcases Nat.lt_trichotomy c' c with less | rfl | more
    · have step : c' * chunk + chunk ≤ c * chunk := le_mul less
      rw [if_pos (by omega),if_pos less]
      exact chunked.get c' i low
    · rw [if_neg (Nat.lt_irrefl c'),if_pos rfl]
      simp only
      by_cases inside : i < last
      · rw [if_pos (by omega),if_pos inside]
        exact chunked.get c' i low
      · rw [if_neg (by omega),if_neg inside]
    · have step : c * chunk + chunk ≤ c' * chunk := le_mul more
      rw [if_neg (by omega),if_neg (by omega),if_neg (by omega)]
      rfl

/-- Blocks of one chunk are read, with zeros for those that miss in a chunk that is not the last one. -/
theorem pread (chunked : Chunked chunk n files whole) (low : c < n) (fits : start + count ≤ chunk) :
    whole.pread (c * chunk + start) count =
      if c + 1 < n then (files c).pread start count ++ List.replicate (count - ((files c).pread start count).length) 0
      else (files c).pread start count := by
  have here := chunked.sizes c
  have get : ∀ i < count, whole.get (c * chunk + start + i) = (files c).get (start + i) := by
    intro i inside
    rw [Nat.add_assoc]
    exact chunked.get c (start + i) (by omega)
  split
  · rename_i inner
    have size : c * chunk + chunk ≤ whole.size :=
      Nat.le_trans (le_mul (show c < n - 1 by omega)) (chunked.le_size (show n - 1 < n by omega)).1
    refine SparseFile.getD_ext ?_ fun i inside => ?_
    · simp only [List.length_append,List.length_replicate,SparseFile.pread_length]
      omega
    · rw [SparseFile.pread_length] at inside
      rw [SparseFile.pread_getD,if_pos (by omega),get i (by omega)]
      by_cases present : i < ((files c).pread start count).length
      · rw [List.getD_append _ _ _ _ present,SparseFile.pread_getD,if_pos (by omega)]
      · rw [List.getD_append_right _ _ _ _ (by omega)]
        rw [SparseFile.pread_length] at present
        rw [(files c).beyond _ (by omega)]
        exact (List.getElem?_getD_replicate_default_eq _ _ _).symm
  · have last : n = c + 1 := by omega
    have size := chunked.size
    rw [if_neg (by omega),last,Nat.add_sub_cancel] at size
    refine SparseFile.getD_ext ?_ fun i inside => ?_
    · simp only [SparseFile.pread_length]
      omega
    · rw [SparseFile.pread_length] at inside
      rw [SparseFile.pread_getD,SparseFile.pread_getD,if_pos (by omega),if_pos (by omega),get i (by omega)]

/-- There is nothing to read in a chunk after the last one. -/
theorem pread_beyond (chunked : Chunked chunk n files whole) (high : n ≤ c) (start count : Nat) :
    whole.pread (c * chunk + start) count = [] := by
  have size : whole.size ≤ c * chunk := by
    by_cases none : n = 0
    · rw [chunked.size,if_pos none]
      exact Nat.zero_le _
    · exact Nat.le_trans (chunked.le_size (show n - 1 < n by omega)).2 (Nat.mul_le_mul_right chunk high)
  apply List.length_eq_zero_iff.mp
  rw [SparseFile.pread_length]
  omega

end Chunked
