import Mathlib.Data.List.Basic

/-! The CRC of the blocks of a projection file: how `storio_crc32.c` puts it in the headers when blocks
are written and controls it when they are read, in one buffer or in a vector of buffers. -/
namespace Rozofs.BlockCrc

/-- A block with its header: `filler` holds the CRC, `data` is the other fields of the header and
the bins. -/
structure Block (δ : Type) where
  projectionId : Nat
  filler : BitVec 32
  data : δ
  deriving DecidableEq, Repr

/-- `crc32c_generate_enable` and `crc32c_check_enable`. -/
structure Switches where
  generateEnable : Bool
  checkEnable : Bool

/-- The buffers after a control and the bits that are set in `errors`. -/
structure Checked (δ : Type) where
  bins : List (Block δ)
  errors : List Nat
  deriving DecidableEq, Repr

section Code
variable {δ : Type} (crc32c : BitVec 32 → Block δ → BitVec 32)

/-- The CRC of a block: `crc32c` runs over the block with no CRC in it, and 0 says that there is no
CRC. -/
def blockCrc (seed : BitVec 32) (buf : Block δ) : BitVec 32 :=
  let crc := crc32c seed { buf with filler := 0 }
  if crc = 0 then 1 else crc

/-- The seed of block `i`. -/
def seed (initialCrc : BitVec 32) (i : Nat) : BitVec 32 := initialCrc + BitVec.ofNat 32 i

def genLoop (initialCrc : BitVec 32) : Nat → List (Block δ) → List (Block δ)
  | _, [] => []
  | i, buf :: rest => { buf with filler := blockCrc crc32c (seed initialCrc i) buf } :: genLoop initialCrc (i + 1) rest

/-- `storio_gen_crc32`. -/
def storioGenCrc32 (switches : Switches) (initialCrc : BitVec 32) (bins : List (Block δ)) : List (Block δ) :=
  if !switches.generateEnable then bins else genLoop crc32c initialCrc 0 bins

/-- `storio_gen_crc32_vect`. -/
def storioGenCrc32Vect (switches : Switches) (initialCrc : BitVec 32) (vector : List (Block δ)) : List (Block δ) :=
  if switches.generateEnable then genLoop crc32c initialCrc 0 vector
  else vector.map fun buf => { buf with filler := 0 }

/-- The control of the block at `buf` with the seed of block `i`. -/
def controlBlock (initialCrc : BitVec 32) (i : Nat) (buf : Block δ) (checked : Checked δ) : Checked δ :=
  if buf.filler ≠ blockCrc crc32c (seed initialCrc i) buf then ⟨{ buf with projectionId := 0xff } :: checked.bins,i :: checked.errors⟩
  else ⟨buf :: checked.bins,checked.errors⟩

/-- The loop of `storio_check_crc32` over what is left of the buffer from `buf` on. The pointer stays on
a block that has no CRC. -/
def checkLoop (initialCrc : BitVec 32) : Nat → Nat → List (Block δ) → Checked δ
  | 0, _, bins => ⟨bins,[]⟩
  | _ + 1, _, [] => ⟨[],[]⟩
  | nbProj + 1, i, buf :: rest =>
    if buf.filler = 0 then checkLoop initialCrc nbProj (i + 1) (buf :: rest)
    else controlBlock crc32c initialCrc i buf (checkLoop initialCrc nbProj (i + 1) rest)

/-- `storio_check_crc32`. -/
def storioCheckCrc32 (switches : Switches) (initialCrc : BitVec 32) (bins : List (Block δ)) : Checked δ :=
  if !switches.checkEnable then ⟨bins,[]⟩ else checkLoop crc32c initialCrc bins.length 0 bins

def checkVectLoop (initialCrc : BitVec 32) : Nat → List (Block δ) → Checked δ
  | _, [] => ⟨[],[]⟩
  | i, buf :: rest =>
    let checked := checkVectLoop initialCrc (i + 1) rest
    if buf.filler = 0 then ⟨buf :: checked.bins,checked.errors⟩ else controlBlock crc32c initialCrc i buf checked

/-- `storio_check_crc32_vect`. -/
def storioCheckCrc32Vect (switches : Switches) (initialCrc : BitVec 32) (vector : List (Block δ)) : Checked δ :=
  if !switches.checkEnable then ⟨vector,[]⟩ else checkVectLoop crc32c initialCrc 0 vector

end Code

section Loops
variable {δ : Type} {crc32c : BitVec 32 → Block δ → BitVec 32} {switches : Switches} {initialCrc : BitVec 32} {bins : List (Block δ)}

/-- A block whose CRC is not the one that is computed again. -/
def Wrong (crc32c : BitVec 32 → Block δ → BitVec 32) (seed : BitVec 32) (buf : Block δ) : Prop :=
  buf.filler ≠ 0 ∧ buf.filler ≠ blockCrc crc32c seed buf

/-- Block `i` of a range has a wrong CRC. -/
def Corrupt (crc32c : BitVec 32 → Block δ → BitVec 32) (initialCrc : BitVec 32) (bins : List (Block δ)) (i : Nat) : Prop :=
  ∃ buf, bins[i]? = some buf ∧ Wrong crc32c (seed initialCrc i) buf

theorem seed_add (first i : Nat) : seed (seed initialCrc first) i = seed initialCrc (first + i) := by
  simp only [seed,BitVec.ofNat_add,BitVec.add_assoc]

theorem blockCrc_filler (crc : BitVec 32) (seed : BitVec 32) (buf : Block δ) :
    blockCrc crc32c seed { buf with filler := crc } = blockCrc crc32c seed buf := rfl

theorem controlBlock_errors {i j : Nat} {buf : Block δ} {checked : Checked δ} (used : buf.filler ≠ 0) :
    j ∈ (controlBlock crc32c initialCrc i buf checked).errors ↔ (j = i ∧ Wrong crc32c (seed initialCrc j) buf) ∨ j ∈ checked.errors := by
  have own : (j = i ∧ Wrong crc32c (seed initialCrc j) buf) ↔ j = i ∧ Wrong crc32c (seed initialCrc i) buf :=
    and_congr_right fun same => by rw [same]
  rw [own]
  unfold controlBlock Wrong
  split
  case isTrue wrong =>
    rw [List.mem_cons]
    exact or_congr_left (and_iff_left ⟨used,wrong⟩).symm
  case isFalse right => simp [right]

/-- A property of a block of a list, at its head or further on. -/
theorem exists_block {P : Nat → Block δ → Prop} (buf : Block δ) (rest : List (Block δ)) :
    (∃ k buf', (buf :: rest)[k]? = some buf' ∧ P k buf') ↔ P 0 buf ∨ ∃ k buf', rest[k]? = some buf' ∧ P (k + 1) buf' := by
  constructor
  · rintro ⟨k,buf',eq,holds⟩
    cases k with
    | zero =>
      cases eq
      exact .inl holds
    | succ k => exact .inr ⟨k,buf',eq,holds⟩
  · rintro (holds | ⟨k,buf',eq,holds⟩)
    · exact ⟨0,buf,rfl,holds⟩
    · exact ⟨k + 1,buf',eq,holds⟩

/-- The control of a vector finds the blocks with a wrong CRC. -/
theorem checkVectLoop_errors (vector : List (Block δ)) (i j : Nat) : j ∈ (checkVectLoop crc32c initialCrc i vector).errors ↔
    ∃ k buf, vector[k]? = some buf ∧ j = i + k ∧ Wrong crc32c (seed initialCrc j) buf := by
  induction vector generalizing i with
  | nil => simp [checkVectLoop]
  | cons buf rest ih =>
    have later : j ∈ (checkVectLoop crc32c initialCrc (i + 1) rest).errors ↔
        ∃ k buf', rest[k]? = some buf' ∧ j = i + (k + 1) ∧ Wrong crc32c (seed initialCrc j) buf' := by
      rw [ih (i + 1)]
      simp only [Nat.add_assoc,Nat.add_comm 1]
    rw [exists_block (P := fun k buf' => j = i + k ∧ Wrong crc32c (seed initialCrc j) buf'),← later,checkVectLoop]
    split
    case isTrue hole => simp [Wrong,hole]
    case isFalse used => exact controlBlock_errors used

/-- The pointer is at a block that has no CRC: nothing is controlled any more. -/
theorem checkLoop_hole (nbProj i : Nat) {buf : Block δ} (rest : List (Block δ)) (hole : buf.filler = 0) :
    checkLoop crc32c initialCrc nbProj i (buf :: rest) = ⟨buf :: rest,[]⟩ := by
  induction nbProj generalizing i with
  | zero => rfl
  | succ nbProj ih => rw [checkLoop,if_pos hole,ih]

/-- The control of a buffer finds the blocks with a wrong CRC that come before every block without
CRC. -/
theorem checkLoop_errors (bins : List (Block δ)) (i j : Nat) : j ∈ (checkLoop crc32c initialCrc bins.length i bins).errors ↔
    ∃ k buf, bins[k]? = some buf ∧ (j = i + k ∧ Wrong crc32c (seed initialCrc j) buf) ∧ ∀ front ∈ bins.take k, front.filler ≠ 0 := by
  induction bins generalizing i with
  | nil => simp [checkLoop]
  | cons buf rest ih =>
    rw [exists_block (P := fun k buf' => (j = i + k ∧ Wrong crc32c (seed initialCrc j) buf') ∧ ∀ front ∈ (buf :: rest).take k, front.filler ≠ 0)]
    by_cases hole : buf.filler = 0
    · rw [checkLoop_hole _ _ _ hole]
      simp [Wrong,hole]
    · have later : j ∈ (checkLoop crc32c initialCrc rest.length (i + 1) rest).errors ↔ ∃ k buf', rest[k]? = some buf' ∧
          (j = i + (k + 1) ∧ Wrong crc32c (seed initialCrc j) buf') ∧ ∀ front ∈ (buf :: rest).take (k + 1), front.filler ≠ 0 := by
        rw [ih (i + 1)]
        simp only [Nat.add_assoc,Nat.add_comm 1,List.take_succ_cons,List.forall_mem_cons,ne_eq,hole,not_false_eq_true,true_and]
      rw [List.length_cons,checkLoop,if_neg hole,controlBlock_errors hole,later]
      simp

theorem checkVect_errors (switches : Switches) (initialCrc : BitVec 32) (bins : List (Block δ)) (i : Nat) :
    i ∈ (storioCheckCrc32Vect crc32c switches initialCrc bins).errors ↔ switches.checkEnable = true ∧ Corrupt crc32c initialCrc bins i := by
  unfold storioCheckCrc32Vect Corrupt
  cases switches.checkEnable with
  | false => simp
  | true =>
    simp only [Bool.not_true,Bool.false_eq_true,if_false,checkVectLoop_errors,true_and,Nat.zero_add]
    constructor
    · rintro ⟨k,buf,eq,rfl,wrong⟩
      exact ⟨buf,eq,wrong⟩
    · rintro ⟨buf,eq,wrong⟩
      exact ⟨i,buf,eq,rfl,wrong⟩

theorem check_errors (switches : Switches) (initialCrc : BitVec 32) (bins : List (Block δ)) (i : Nat) :
    i ∈ (storioCheckCrc32 crc32c switches initialCrc bins).errors ↔
      switches.checkEnable = true ∧ Corrupt crc32c initialCrc bins i ∧ ∀ front ∈ bins.take i, front.filler ≠ 0 := by
  unfold storioCheckCrc32 Corrupt
  cases switches.checkEnable with
  | false => simp
  | true =>
    simp only [Bool.not_true,Bool.false_eq_true,if_false,checkLoop_errors,true_and,Nat.zero_add]
    constructor
    · rintro ⟨k,buf,eq,⟨rfl,wrong⟩,fronts⟩
      exact ⟨⟨buf,eq,wrong⟩,fronts⟩
    · rintro ⟨⟨buf,eq,wrong⟩,fronts⟩
      exact ⟨i,buf,eq,⟨rfl,wrong⟩,fronts⟩

theorem genLoop_getElem (bins : List (Block δ)) (i k : Nat) : (genLoop crc32c initialCrc i bins)[k]? =
    bins[k]?.map fun buf => { buf with filler := blockCrc crc32c (seed initialCrc (i + k)) buf } := by
  induction bins generalizing i k with
  | nil => simp [genLoop]
  | cons buf rest ih =>
    cases k with
    | zero => rfl
    | succ k =>
      rw [genLoop,List.getElem?_cons_succ,List.getElem?_cons_succ,ih (i + 1) k,Nat.add_assoc,Nat.add_comm 1]

/-- Part of a range, with the CRC of the whole range, has the CRC of its own. -/
theorem generated_right (bins : List (Block δ)) (first nbProj i : Nat) :
    ¬Corrupt crc32c (seed initialCrc first) (((genLoop crc32c initialCrc 0 bins).drop first).take nbProj) i := by
  rintro ⟨buf,eq,_,wrong⟩
  rw [List.getElem?_take] at eq
  split at eq
  case isFalse => cases eq
  case isTrue =>
    rw [List.getElem?_drop,genLoop_getElem] at eq
    obtain ⟨old,_,rfl⟩ := Option.map_eq_some_iff.mp eq
    rw [seed_add,blockCrc_filler,Nat.zero_add] at wrong
    exact wrong rfl

/-- A wrong block of a part of a range is one of the range. -/
theorem Corrupt.of_part {first nbProj i : Nat} (corrupt : Corrupt crc32c (seed initialCrc first) ((bins.drop first).take nbProj) i) :
    Corrupt crc32c initialCrc bins (first + i) := by
  obtain ⟨buf,eq,wrong⟩ := corrupt
  rw [List.getElem?_take] at eq
  split at eq
  case isFalse => cases eq
  case isTrue =>
    rw [List.getElem?_drop] at eq
    rw [seed_add] at wrong
    exact ⟨buf,eq,wrong⟩

/-- A wrong block is a wrong part of the range. -/
theorem Corrupt.part {i : Nat} (corrupt : Corrupt crc32c initialCrc bins i) : Corrupt crc32c (seed initialCrc i) ((bins.drop i).take 1) 0 := by
  obtain ⟨buf,eq,wrong⟩ := corrupt
  refine ⟨buf,?_,?_⟩
  · rw [List.getElem?_take,if_pos (by decide),List.getElem?_drop]
    exact eq
  · rw [seed_add]
    exact wrong

theorem cleared_right (i : Nat) : ¬Corrupt crc32c initialCrc (bins.map fun buf => { buf with filler := 0 }) i := by
  rintro ⟨buf,eq,used,_⟩
  rw [List.getElem?_map] at eq
  obtain ⟨old,_,rfl⟩ := Option.map_eq_some_iff.mp eq
  exact used rfl

/-- The control of a range that has no wrong block sets no bit. -/
theorem right_errors (right : ∀ i, ¬Corrupt crc32c initialCrc bins i) :
    (storioCheckCrc32 crc32c switches initialCrc bins).errors = [] ∧ (storioCheckCrc32Vect crc32c switches initialCrc bins).errors = [] := by
  constructor
  · apply List.eq_nil_iff_forall_not_mem.mpr
    exact fun i mem => right i ((check_errors switches initialCrc bins i).mp mem).2.1
  · apply List.eq_nil_iff_forall_not_mem.mpr
    exact fun i mem => right i ((checkVect_errors switches initialCrc bins i).mp mem).2

/-- Both controls set the bits of the wrong blocks, and none for a part of a range whose CRC has just
been computed. -/
structure Complete (crc32c : BitVec 32 → Block δ → BitVec 32) (switches : Switches) (initialCrc : BitVec 32) (bins : List (Block δ)) : Prop where
  buffer : ∀ i, i ∈ (storioCheckCrc32 crc32c switches initialCrc bins).errors ↔ Corrupt crc32c initialCrc bins i
  vector : ∀ i, i ∈ (storioCheckCrc32Vect crc32c switches initialCrc bins).errors ↔ Corrupt crc32c initialCrc bins i
  generated : ∀ written ∈ [storioGenCrc32 crc32c switches initialCrc bins,storioGenCrc32Vect crc32c switches initialCrc bins], ∀ first nbProj,
    (storioCheckCrc32 crc32c switches (seed initialCrc first) ((written.drop first).take nbProj)).errors = [] ∧
    (storioCheckCrc32Vect crc32c switches (seed initialCrc first) ((written.drop first).take nbProj)).errors = []

/-- Wrong blocks are controlled, and no block without CRC comes before one. -/
def Controlled (crc32c : BitVec 32 → Block δ → BitVec 32) (switches : Switches) (initialCrc : BitVec 32) (bins : List (Block δ)) : Prop :=
  ∀ i, Corrupt crc32c initialCrc bins i →
    switches.checkEnable = true ∧ switches.generateEnable = true ∧ ∀ front ∈ bins.take i, front.filler ≠ 0

theorem Complete.controlled (complete : Complete crc32c switches initialCrc bins) : Controlled crc32c switches initialCrc bins := by
  intro i corrupt
  have checked := ((checkVect_errors switches initialCrc bins i).mp ((complete.vector i).mpr corrupt)).1
  have fronts := ((check_errors switches initialCrc bins i).mp ((complete.buffer i).mpr corrupt)).2.2
  refine ⟨checked,?_,fronts⟩
  by_contra disabled
  have written : storioGenCrc32 crc32c switches initialCrc bins = bins := by simp [storioGenCrc32,disabled]
  have clean := (complete.generated (storioGenCrc32 crc32c switches initialCrc bins) (by simp) i 1).2
  rw [written] at clean
  have found := (checkVect_errors switches (seed initialCrc i) ((bins.drop i).take 1) 0).mpr ⟨checked,corrupt.part⟩
  rw [clean] at found
  cases found

theorem Controlled.complete (controlled : Controlled crc32c switches initialCrc bins) : Complete crc32c switches initialCrc bins := by
  constructor
  case buffer =>
    intro i
    rw [check_errors]
    exact ⟨fun found => found.2.1,fun corrupt => ⟨(controlled i corrupt).1,corrupt,(controlled i corrupt).2.2⟩⟩
  case vector =>
    intro i
    rw [checkVect_errors]
    exact ⟨fun found => found.2,fun corrupt => ⟨(controlled i corrupt).1,corrupt⟩⟩
  case generated =>
    intro written isWritten first nbProj
    apply right_errors
    cases enabled : switches.generateEnable with
    | true =>
      have computed : written = genLoop crc32c initialCrc 0 bins := by
        simpa [storioGenCrc32,storioGenCrc32Vect,enabled] using isWritten
      rw [computed]
      exact generated_right bins first nbProj
    | false =>
      have left : written = bins ∨ written = bins.map fun buf => { buf with filler := 0 } := by
        simpa [storioGenCrc32,storioGenCrc32Vect,enabled] using isWritten
      intro i corrupt
      rcases left with rfl | rfl
      · have on := (controlled _ corrupt.of_part).2.1
        rw [enabled] at on
        cases on
      · exact cleared_right _ corrupt.of_part

/-- The control of the CRC is complete exactly when each wrong block is controlled: no block without
CRC comes before it in the buffer, where the control would stop. -/
theorem crc_complete (crc32c : BitVec 32 → Block δ → BitVec 32) (switches : Switches) (initialCrc : BitVec 32) (bins : List (Block δ)) :
    Complete crc32c switches initialCrc bins ↔ Controlled crc32c switches initialCrc bins :=
  ⟨Complete.controlled,Controlled.complete⟩

/-- A hole, and then a block with a wrong CRC: only the control of a vector finds it. -/
theorem hole_stops : ∃ (crc32c : BitVec 32 → Block Nat → BitVec 32) (bins : List (Block Nat)),
    (storioCheckCrc32 crc32c ⟨true,true⟩ 7 bins).errors = [] ∧ (storioCheckCrc32Vect crc32c ⟨true,true⟩ 7 bins).errors = [1] ∧
    ¬Complete crc32c ⟨true,true⟩ 7 bins := by
  have buffer : (storioCheckCrc32 (fun seed buf => seed + BitVec.ofNat 32 buf.data) ⟨true,true⟩ 7 [⟨0,0,0⟩,⟨0,5,9⟩]).errors = [] := by decide
  have vector : (storioCheckCrc32Vect (fun seed buf => seed + BitVec.ofNat 32 buf.data) ⟨true,true⟩ 7 [⟨0,0,0⟩,⟨0,5,9⟩]).errors = [1] := by decide
  refine ⟨fun seed buf => seed + BitVec.ofNat 32 buf.data,[⟨0,0,0⟩,⟨0,5,9⟩],buffer,vector,?_⟩
  intro complete
  have found := (complete.buffer 1).mpr ((complete.vector 1).mp (vector ▸ List.mem_singleton_self 1))
  rw [buffer] at found
  cases found

end Loops

end Rozofs.BlockCrc
