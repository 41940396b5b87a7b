import Mathlib.Data.List.Basic

/-! Erasure layouts, block sizes and the projection size tables built by
`rozofs_layout_initialize`. A layout value at or above `LAYOUT_MAX` and a block size
above `ROZOFS_BSIZE_MAX` are not values of these types. -/
namespace Rozofs

/-- `rozofs_layout_t`; the three numbers are inverse, forward and safe. -/
inductive Layout where
  | layout_2_3_4
  | layout_4_6_8
  | layout_8_12_16
  deriving DecidableEq, Repr

/-- `ROZOFS_BSIZE_E`. -/
inductive BSize where
  | bsize4K
  | bsize8K
  | bsize16K
  | bsize32K
  deriving DecidableEq, Repr

/-- `ROZOFS_BSIZE_BYTES`. -/
def BSize.bytes : BSize → Nat
  | .bsize4K => 4096
  | .bsize8K => 8192
  | .bsize16K => 16384
  | .bsize32K => 32768

theorem BSize.bytes_pos (bsize : BSize) : 0 < bsize.bytes := by
  cases bsize <;> decide

/-- The block sizes for which `rozofs_layout_initialize` has effective projection sizes. -/
def Effective (bsize : BSize) : Prop := bsize = .bsize4K ∨ bsize = .bsize8K

def Layout.rozofsSafe : Layout → Nat
  | .layout_2_3_4 => 4
  | .layout_4_6_8 => 8
  | .layout_8_12_16 => 16

def Layout.rozofsForward : Layout → Nat
  | .layout_2_3_4 => 3
  | .layout_4_6_8 => 6
  | .layout_8_12_16 => 12

def Layout.rozofsInverse : Layout → Nat
  | .layout_2_3_4 => 2
  | .layout_4_6_8 => 4
  | .layout_8_12_16 => 8

structure Angle where
  p : Int
  q : Int
  deriving DecidableEq, Repr, Inhabited

/-- `rozofs_angles[i]`. -/
def Layout.rozofsAngles (layout : Layout) (i : Nat) : Angle :=
  ⟨(i : Int) - (layout.rozofsForward / 2 : Nat), 1⟩

/-- `rozofs_eff_psizes`, in bins of 128 bits. The optimized transform has no table
above 8K: `rozofs_layout_initialize` stores 0 there. -/
def Layout.rozofsEffPsizes : Layout → BSize → List Nat
  | .layout_2_3_4, .bsize4K => [128, 128, 128]
  | .layout_2_3_4, .bsize8K => [256, 256, 256]
  | .layout_4_6_8, .bsize4K => [64, 66, 66, 64, 65, 64]
  | .layout_4_6_8, .bsize8K => [128, 130, 130, 128, 129, 128]
  | .layout_8_12_16, .bsize4K => [32, 37, 40, 41, 40, 37, 32, 36, 38, 38, 36, 32]
  | .layout_8_12_16, .bsize8K => [64, 69, 72, 73, 72, 69, 64, 68, 70, 70, 68, 64]
  | layout, .bsize16K => List.replicate layout.rozofsForward 0
  | layout, .bsize32K => List.replicate layout.rozofsForward 0

/-- `rozofs_eff_psizes_max`, the running maximum of the table. -/
def Layout.rozofsEffPsizesMax (layout : Layout) (bsize : BSize) : Nat :=
  (layout.rozofsEffPsizes bsize).foldl max 0

/-- `rozofs_get_angles_p`: 0 for a projection id out of range. -/
def getAnglesP (layout : Layout) (projectionId : Nat) : Int :=
  if projectionId ≥ layout.rozofsForward then 0 else (layout.rozofsAngles projectionId).p

def getAnglesQ (layout : Layout) (projectionId : Nat) : Int :=
  if projectionId ≥ layout.rozofsForward then 0 else (layout.rozofsAngles projectionId).q

/-- `rozofs_get_psizes`, in 64-bit words: 0 for a projection id out of range. -/
def getPsizes (layout : Layout) (bsize : BSize) (projectionId : Nat) : Nat :=
  if projectionId ≥ layout.rozofsForward then 0
  else 2 * (layout.rozofsEffPsizes bsize).getD projectionId 0

/-- `rozofs_get_128bits_psizes`. -/
def get128bitsPsizes (layout : Layout) (bsize : BSize) (projectionId : Nat) : Nat :=
  if projectionId ≥ layout.rozofsForward then 0
  else (layout.rozofsEffPsizes bsize).getD projectionId 0

/-- `rozofs_get_max_psize`, in 64-bit words. -/
def getMaxPsize (layout : Layout) (bsize : BSize) : Nat :=
  2 * layout.rozofsEffPsizesMax bsize

end Rozofs
