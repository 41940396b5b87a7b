import Rozofs.Bitmap

/-! Loops over the bits of a bitmap that have one value. The bits of the other value are skipped
by whole words, aligned on their size, as long as a loop is at the start of a byte. -/
namespace Bitmap

/-- The byte whose bits are all `v`. -/
def byteOf (v : Bool) : BitVec 8 := if v then 0xFF#8 else 0#8

/-- The bits of `n` bytes are all `v`. -/
def allBytes (v : Bool) (m : Nat → BitVec 8) (byte n : Nat) : Bool := (List.range n).all fun j => m (byte + j) = byteOf v

/-- The bytes that are skipped at once: a word of 8, 4 or 2 bytes, or a byte. -/
def skipBytes (v : Bool) (m : Nat → BitVec 8) (byte : Nat) : Nat :=
  if byte % 8 = 0 && allBytes v m byte 8 then 8
  else if byte % 4 = 0 && allBytes v m byte 4 then 4
  else if byte % 2 = 0 && allBytes v m byte 2 then 2
  else if allBytes v m byte 1 then 1
  else 0

/-- The next bit to look at, from the start of a byte on, in at most `n` steps; `none` when all the
bits up to `last` are `v`. -/
def skipVal (v : Bool) (m : Nat → BitVec 8) (last : Nat) : Nat → Nat → Option Nat
  | 0, _ => none
  | n + 1, i =>
    if last ≤ i then none
    else if skipBytes v m (i / 8) = 0 then
      some (if m (i / 8) &&& 0xF#8 = byteOf v &&& 0xF#8 then i + 4 else i)
    else skipVal v m last n (i + 8 * skipBytes v m (i / 8))

/-- A loop over the bits up to `last` that are not `v`, which ends when its body gives a result. -/
def visit (v : Bool) (m : Nat → BitVec 8) (last : Nat) (body : Nat → Option ρ) : Nat → Nat → Option ρ
  | 0, _ => none
  | n + 1, i =>
    if last ≤ i then none
    else
      match if i % 8 = 0 then skipVal v m last last i else some i with
      | none => none
      | some i =>
        if test m i = v then visit v m last body n (i + 1)
        else
          match body i with
          | some result => some result
          | none => visit v m last body n (i + 1)

/-- The bits up to `last` that are not `v`, one search after the other. -/
def others (v : Bool) (m : Nat → BitVec 8) (last : Nat) : Nat → Nat → List Nat
  | 0, _ => []
  | n + 1, i =>
    match visit v m last some last i with
    | none => []
    | some j => j :: others v m last n (j + 1)

/-- A bit is set. -/
def setBit (m : Nat → BitVec 8) (i : Nat) : Nat → BitVec 8 := set m (i / 8) (i % 8)

/-- A bit is cleared. -/
def clearBit (m : Nat → BitVec 8) (i : Nat) : Nat → BitVec 8 := clear m (i / 8) (i % 8)

theorem test_setBit (m : Nat → BitVec 8) (i j : Nat) : test (setBit m i) j = (decide (j = i) || test m j) := by
  rw [setBit,test_set m _ _ (Nat.mod_lt _ (by decide)),Nat.div_add_mod]

theorem test_clearBit (m : Nat → BitVec 8) (i j : Nat) : test (clearBit m i) j = (!decide (j = i) && test m j) := by
  rw [clearBit,test_clear m _ _ (Nat.mod_lt _ (by decide)),Nat.div_add_mod]

section Skip
variable {v : Bool} {m : Nat → BitVec 8} {last : Nat}

theorem getLsbD_byteOf (v : Bool) (low : bit < 8) : (byteOf v).getLsbD bit = v := by
  have all : ∀ v : Bool, ∀ bit < 8, (byteOf v).getLsbD bit = v := by decide
  exact all v bit low

theorem test_of_byte (same : m (i / 8) = byteOf v) : test m i = v := by
  rw [test,same]
  exact getLsbD_byteOf v (Nat.mod_lt _ (by decide))

theorem allBytes_iff {n : Nat} : allBytes v m byte n = true ↔ ∀ j < n, m (byte + j) = byteOf v := by
  simp [allBytes]

theorem test_of_allBytes {n : Nat} (all : allBytes v m byte n = true) (low : 8 * byte ≤ i) (high : i < 8 * (byte + n)) : test m i = v := by
  apply test_of_byte
  have here := allBytes_iff.mp all (i / 8 - byte) (by omega)
  rwa [Nat.add_sub_cancel' (by omega)] at here

theorem test_of_nibble (same : m byte &&& 0xF#8 = byteOf v &&& 0xF#8) (low : 8 * byte ≤ i) (high : i < 8 * byte + 4) : test m i = v := by
  have all : ∀ v : Bool, ∀ x : BitVec 8, x &&& 0xF#8 = byteOf v &&& 0xF#8 → ∀ bit < 4, x.getLsbD bit = v := by decide +kernel
  have here : i / 8 = byte := by omega
  rw [test,here]
  exact all v _ same _ (by omega)

/-- The bits that are skipped at once are all `v`. -/
theorem test_of_skipBytes (low : 8 * byte ≤ i) (high : i < 8 * (byte + skipBytes v m byte)) : test m i = v := by
  rw [skipBytes] at high
  split at high
  · rename_i wide
    exact test_of_allBytes (Bool.and_eq_true_iff.mp wide).2 low high
  · split at high
    · rename_i wide
      exact test_of_allBytes (Bool.and_eq_true_iff.mp wide).2 low high
    · split at high
      · rename_i wide
        exact test_of_allBytes (Bool.and_eq_true_iff.mp wide).2 low high
      · split at high
        · rename_i one
          exact test_of_allBytes one low high
        · omega

/-- What is skipped has the value that is skipped. -/
theorem skipVal_spec (whole : last % 8 = 0) (n i : Nat) (start : i % 8 = 0) (enough : last - i ≤ n) :
    match skipVal v m last n i with
    | none => ∀ j, i ≤ j → j < last → test m j = v
    | some r => i ≤ r ∧ r < last ∧ ∀ j, i ≤ j → j < r → test m j = v := by
  induction n generalizing i with
  | zero =>
    rw [skipVal]
    intro j low high
    omega
  | succ n ih =>
    rw [skipVal]
    by_cases past : last ≤ i
    · rw [if_pos past]
      intro j low high
      omega
    · rw [if_neg past]
      by_cases stop : skipBytes v m (i / 8) = 0
      · rw [if_pos stop]
        by_cases nibble : m (i / 8) &&& 0xF#8 = byteOf v &&& 0xF#8
        · rw [if_pos nibble]
          exact ⟨by omega,by omega,fun j low high => test_of_nibble nibble (by omega) (by omega)⟩
        · rw [if_neg nibble]
          exact ⟨Nat.le_refl i,by omega,fun j low high => by omega⟩
      · rw [if_neg stop]
        have rest := ih (i + 8 * skipBytes v m (i / 8)) (by omega) (by omega)
        have skipped : ∀ j, i ≤ j → j < i + 8 * skipBytes v m (i / 8) → test m j = v :=
          fun j low high => test_of_skipBytes (show 8 * (i / 8) ≤ j by omega) (by omega)
        split
        · rename_i none
          rw [none] at rest
          intro j low high
          by_cases near : j < i + 8 * skipBytes v m (i / 8)
          · exact skipped j low near
          · exact rest j (by omega) high
        · rename_i r some
          rw [some] at rest
          refine ⟨by omega,rest.2.1,fun j low high => ?_⟩
          by_cases near : j < i + 8 * skipBytes v m (i / 8)
          · exact skipped j low near
          · exact rest.2.2 j (by omega) high

/-- The loop is a search over all the bits that are not `v`. -/
theorem visit_eq (whole : last % 8 = 0) (body : Nat → Option ρ) (n i : Nat) (enough : last - i ≤ n) :
    visit v m last body n i = (List.range' i (last - i)).findSome? fun j => if test m j = v then none else body j := by
  induction n generalizing i with
  | zero =>
    have none : last - i = 0 := by omega
    rw [visit,none]
    rfl
  | succ n ih =>
    rw [visit]
    by_cases past : last ≤ i
    · have none : last - i = 0 := by omega
      rw [if_pos past,none]
      rfl
    · rw [if_neg past]
      -- the loop at a bit that is not skipped
      have at_bit : ∀ r, i ≤ r → r < last → (∀ j, i ≤ j → j < r → test m j = v) →
          (if test m r = v then visit v m last body n (r + 1)
            else match body r with
              | some result => some result
              | none => visit v m last body n (r + 1)) =
          (List.range' i (last - i)).findSome? fun j => if test m j = v then none else body j := by
        intro r low high same
        have split : List.range' i (last - i) = List.range' i (r - i) ++ (r :: List.range' (r + 1) (last - (r + 1))) := by
          have parts : last - i = (r - i) + (last - (r + 1) + 1) := by omega
          have next : r = i + 1 * (r - i) := by omega
          rw [parts,← List.range'_append,← next,List.range'_succ]
        have skipped : ((List.range' i (r - i)).findSome? fun j => if test m j = v then none else body j) = none := by
          rw [List.findSome?_eq_none_iff]
          intro j member
          rw [List.mem_range'_1] at member
          exact if_pos (same j (by omega) (by omega))
        rw [split,List.findSome?_append,skipped,Option.none_or,List.findSome?_cons,ih (r + 1) (by omega)]
        by_cases here : test m r = v
        · rw [if_pos here,if_pos here]
        · rw [if_neg here,if_neg here]
          cases body r <;> rfl
      by_cases start : i % 8 = 0
      · rw [if_pos start]
        have skip := skipVal_spec (v := v) (m := m) whole last i start (by omega)
        cases found : skipVal v m last last i with
        | none =>
          rw [found] at skip
          refine (List.findSome?_eq_none_iff.mpr fun j member => ?_).symm
          rw [List.mem_range'_1] at member
          exact if_pos (skip j member.1 (by omega))
        | some r =>
          rw [found] at skip
          exact at_bit r skip.1 skip.2.1 skip.2.2
      · rw [if_neg start]
        exact at_bit i (Nat.le_refl i) (by omega) fun j low high => by omega

theorem others_eq (whole : last % 8 = 0) (n i : Nat) (enough : last - i < n) :
    others v m last n i = (List.range' i (last - i)).filter fun j => test m j ≠ v := by
  induction n generalizing i with
  | zero => exact absurd enough (Nat.not_lt_zero _)
  | succ n ih =>
    rw [others,visit_eq whole some last i (Nat.sub_le last i)]
    cases found : (List.range' i (last - i)).findSome? fun j => if test m j = v then none else some j with
    | none =>
      refine (List.filter_eq_nil_iff.mpr fun j member => ?_).symm
      simpa using List.findSome?_eq_none_iff.mp found j member
    | some j =>
      obtain ⟨before,k,after,parts,here,earlier⟩ := List.findSome?_eq_some_iff.mp found
      have other : test m k ≠ v := by
        intro same
        simp [same] at here
      cases (Option.some.inj ((if_neg other).symm.trans here))
      obtain ⟨length,within,first,rest⟩ := List.range'_eq_append_iff.mp parts
      obtain ⟨place,_,after_eq⟩ := List.range'_eq_cons_iff.mp rest.symm
      have none : before.filter (fun j => test m j ≠ v) = [] := by
        refine List.filter_eq_nil_iff.mpr fun j member => ?_
        simpa using earlier j member
      have remaining : last - i - length - 1 = last - (j + 1) := by omega
      simp only [parts,List.filter_append,none,List.nil_append,List.filter_cons,other,ne_eq,not_false_eq_true,decide_true,if_true]
      rw [ih (j + 1) (by omega),after_eq,remaining]

end Skip

end Bitmap
