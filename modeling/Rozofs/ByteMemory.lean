import Mathlib.Algebra.Order.Ring.Int
import Rozofs.Overlay

/-! Memory as bytes at offsets: integers in little-endian order, runs of bytes, and the functions
of the C library that move, clear and copy them. -/
namespace ByteMemory
open Overlay

abbrev Memory := Nat → UInt8

def byte (n : Nat) : UInt8 := UInt8.ofNat n

def read16 (m : Memory) (p : Nat) : Nat := (m p).toNat + 2 ^ 8 * (m (p + 1)).toNat

def read32 (m : Memory) (p : Nat) : Nat := read16 m p + 2 ^ 16 * read16 m (p + 2)

def write8 (m : Memory) (p value : Nat) : Memory := overlay m p 1 fun _ => byte value

def write16 (m : Memory) (p value : Nat) : Memory := overlay m p 2 fun i => byte (value / 2 ^ (8 * i))

def write32 (m : Memory) (p value : Nat) : Memory := overlay m p 4 fun i => byte (value / 2 ^ (8 * i))

def memset (m : Memory) (p : Nat) (count : Nat) : Memory := overlay m p count fun _ => 0

def memmove (m : Memory) (dst src count : Nat) : Memory := overlay m dst count fun i => m (src + i)

def memcpy (m : Memory) (dst : Nat) (bytes : List UInt8) : Memory := overlay m dst bytes.length fun i => bytes.getD i 0

/-- The bytes of a run. -/
def run (m : Memory) (p count : Nat) : List UInt8 := (List.range count).map fun i => m (p + i)

section Reads
variable {m m' : Memory}

theorem read16_congr (first : m' q = m p) (second : m' (q + 1) = m (p + 1)) : read16 m' q = read16 m p := by
  rw [read16,read16,first,second]

theorem read32_congr (same : ∀ i < 4, m' (q + i) = m (p + i)) : read32 m' q = read32 m p := by
  have low : read16 m' q = read16 m p := read16_congr (same 0 (by omega)) (same 1 (by omega))
  have high : read16 m' (q + 2) = read16 m (p + 2) := read16_congr (same 2 (by omega)) (same 3 (by omega))
  rw [read32,read32,low,high]

theorem run_congr (same : ∀ i < count, m' (q + i) = m (p + i)) : run m' q count = run m p count :=
  List.map_congr_left fun i member => same i (List.mem_range.mp member)

@[simp] theorem run_length (m : Memory) (p count : Nat) : (run m p count).length = count := by simp [run]

@[simp] theorem run_zero (m : Memory) (p : Nat) : run m p 0 = [] := rfl

theorem toNat_byte (n : Nat) : (byte n).toNat = n % 2 ^ 8 := UInt8.toNat_ofNat'

/-- A word is 0 when its bytes are. -/
theorem read32_eq_zero : read32 m p = 0 ↔ ∀ i < 4, m (p + i) = 0 := by
  have zero (b : UInt8) : b.toNat = 0 ↔ b = 0 := by rw [← UInt8.toNat_inj]; rfl
  rw [read32,read16,read16,show p + 2 + 1 = p + 3 from rfl]
  constructor
  · intro word i bound
    rw [← zero]
    have place : i = 0 ∨ i = 1 ∨ i = 2 ∨ i = 3 := by omega
    rcases place with rfl | rfl | rfl | rfl
    · rw [Nat.add_zero]
      omega
    all_goals omega
  · intro bytes
    have b0 := (zero _).mpr (bytes 0 (by omega))
    have b1 := (zero _).mpr (bytes 1 (by omega))
    have b2 := (zero _).mpr (bytes 2 (by omega))
    have b3 := (zero _).mpr (bytes 3 (by omega))
    simp only [Nat.add_zero] at b0
    omega

end Reads

section Writes
variable {m : Memory}

theorem write8_same (m : Memory) (p value : Nat) : write8 m p value p = byte value :=
  overlay_inside (Nat.le_refl p) (Nat.lt_succ_self p)

theorem write8_other (other : i ≠ p) : write8 m p value i = m i := overlay_outside (by omega)

theorem write16_other (other : i < p ∨ p + 2 ≤ i) : write16 m p value i = m i := overlay_outside other

theorem write32_other (other : i < p ∨ p + 4 ≤ i) : write32 m p value i = m i := overlay_outside other

theorem read16_write16 (m : Memory) (p : Nat) (small : value < 2 ^ 16) : read16 (write16 m p value) p = value := by
  rw [read16,write16,overlay_inside (by omega) (by omega),overlay_inside (by omega) (by omega),toNat_byte,toNat_byte]
  simp only [Nat.sub_self,Nat.add_sub_cancel_left,Nat.mul_zero,Nat.mul_one,Nat.pow_zero,Nat.div_one]
  omega

theorem read32_write32 (m : Memory) (p : Nat) (small : value < 2 ^ 32) : read32 (write32 m p value) p = value := by
  rw [read32,read16,read16,write32,overlay_inside (by omega) (by omega),overlay_inside (by omega) (by omega),
    overlay_inside (by omega) (by omega),overlay_inside (by omega) (by omega),toNat_byte,toNat_byte,toNat_byte,toNat_byte]
  simp only [Nat.sub_self,Nat.add_sub_cancel_left,Nat.mul_zero,Nat.mul_one,Nat.pow_zero,Nat.div_one,
    show p + 2 + 1 - p = 3 by omega]
  omega

theorem memset_inside (low : p ≤ i) (high : i < p + count) : memset m p count i = 0 := overlay_inside low high

theorem memset_outside (other : i < p ∨ p + count ≤ i) : memset m p count i = m i := overlay_outside other

theorem memmove_inside (low : dst ≤ i) (high : i < dst + count) : memmove m dst src count i = m (src + (i - dst)) :=
  overlay_inside low high

theorem memmove_outside (other : i < dst ∨ dst + count ≤ i) : memmove m dst src count i = m i := overlay_outside other

theorem memcpy_outside (other : i < dst ∨ dst + bytes.length ≤ i) : memcpy m dst bytes i = m i := overlay_outside other

theorem memcpy_inside (bound : i < bytes.length) : memcpy m dst bytes (dst + i) = bytes.getD i 0 := by
  rw [memcpy,overlay_inside (by omega) (by omega),Nat.add_sub_cancel_left]

/-- A run is read back as it was copied. -/
theorem run_memcpy (m : Memory) (dst : Nat) (bytes : List UInt8) : run (memcpy m dst bytes) dst bytes.length = bytes := by
  apply List.ext_getElem (run_length _ _ _)
  intro i low high
  simp only [run,List.getElem_map,List.getElem_range]
  rw [memcpy_inside high,List.getD_eq_getElem?_getD,List.getElem?_eq_getElem high,Option.getD_some]

end Writes

end ByteMemory
