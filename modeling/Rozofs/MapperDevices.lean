import Rozofs.StorcliRing
import Rozofs.WrappedRanks

/-! The mapper devices that hold the copies of the header file of a FID. The hash of the FID plus the
rank of a copy is a sum of 32 bits, which may wrap before it is reduced modulo the number of mapper
devices. -/
namespace Rozofs.MapperDevices
open StorcliRing (Fid)
open WrappedRanks

/-- The hash on the FID in `storage_mapper_device`. -/
def fidHash (fid : Fid) : BitVec 32 := fid.toList.foldl (fun h d => h * 16777619#32 ^^^ d.setWidth 32) 2166136261#32

/-- `storage_mapper_device`. C converts the rank and the modulo to the unsigned type of the hash. -/
def storageMapperDevice (fid : Fid) (rank modulo : BitVec 32) : BitVec 32 := (fidHash fid + rank) % modulo

/-- What `storage_t` says of the devices. -/
structure Storage where
  deviceNumber : BitVec 32
  mapperModulo : BitVec 32
  mapperRedundancy : BitVec 32
  deriving DecidableEq

/-- The checks of `storage_initialize` and the numbers that it keeps. -/
def storageInitialize (deviceNumber mapperModulo mapperRedundancy : BitVec 32) : Option Storage :=
  if mapperModulo > deviceNumber then none
  else if mapperRedundancy > mapperModulo then none
  else some ⟨deviceNumber,mapperModulo,mapperRedundancy⟩

/-- The devices on which `storage_write_all_header_files` writes, in order. -/
def hdrDevices (st : Storage) (fid : Fid) : List (BitVec 32) :=
  (List.range st.mapperRedundancy.toNat).map fun dev => storageMapperDevice fid (BitVec.ofNat 32 dev) st.mapperModulo

/-- The ranks below the redundancy have devices of their own, below the modulo. -/
def Spread (fid : Fid) (modulo redundancy : BitVec 32) : Prop :=
  (∀ rank < redundancy, storageMapperDevice fid rank modulo < modulo) ∧
  ∀ rank rank', rank < rank' → rank' < redundancy → storageMapperDevice fid rank modulo ≠ storageMapperDevice fid rank' modulo

theorem storageInitialize_some (found : storageInitialize deviceNumber mapperModulo mapperRedundancy = some st) :
    st.mapperRedundancy ≤ st.mapperModulo ∧ st.mapperModulo ≤ st.deviceNumber := by
  simp only [storageInitialize] at found
  split at found
  · cases found
  · next modulo =>
    split at found
    · cases found
    · next redundancy =>
      cases found
      exact ⟨BitVec.not_lt.mp redundancy,BitVec.not_lt.mp modulo⟩

theorem toNat_rank {r : Nat} (low : r < 2 ^ 32) : (BitVec.ofNat 32 r).toNat = r := by
  rw [BitVec.toNat_ofNat,Nat.mod_eq_of_lt low]

theorem toNat_storageMapperDevice (fid : Fid) (rank modulo : BitVec 32) :
    (storageMapperDevice fid rank modulo).toNat = place (2 ^ 32) modulo.toNat (fidHash fid).toNat rank.toNat := by
  rw [storageMapperDevice,BitVec.toNat_umod,BitVec.toNat_add,place]

theorem storageMapperDevice_lt (bound : redundancy ≤ modulo) (inside : rank < redundancy) :
    storageMapperDevice fid rank modulo < modulo := by
  have bound := BitVec.le_def.mp bound
  have inside := BitVec.lt_def.mp inside
  rw [BitVec.lt_def,storageMapperDevice,BitVec.toNat_umod]
  exact Nat.mod_lt _ (by omega)

/-- The devices are those of the places of the ranks. -/
theorem spread_iff (bound : redundancy ≤ modulo) : Spread fid modulo redundancy ↔
    ∀ r r', r < r' → r' < redundancy.toNat →
      place (2 ^ 32) modulo.toNat (fidHash fid).toNat r ≠ place (2 ^ 32) modulo.toNat (fidHash fid).toNat r' := by
  constructor
  · rintro ⟨_,apart⟩ r r' less last
    have small : redundancy.toNat < 2 ^ 32 := redundancy.isLt
    have rank : (BitVec.ofNat 32 r).toNat = r := toNat_rank (by omega)
    have rank' : (BitVec.ofNat 32 r').toNat = r' := toNat_rank (by omega)
    have differ := apart (BitVec.ofNat 32 r) (BitVec.ofNat 32 r') (by rwa [BitVec.lt_def,rank,rank'])
      (by rwa [BitVec.lt_def,rank'])
    rw [BitVec.toNat_ne,toNat_storageMapperDevice,toNat_storageMapperDevice,rank,rank'] at differ
    exact differ
  · intro apart
    refine ⟨fun rank inside => storageMapperDevice_lt bound inside,fun rank rank' less last => ?_⟩
    rw [BitVec.toNat_ne,toNat_storageMapperDevice,toNat_storageMapperDevice]
    exact apart _ _ (BitVec.lt_def.mp less) (BitVec.lt_def.mp last)

/-- The copies of a header file are on devices of their own when the ranks are spread. -/
theorem hdrDevices_nodup (spread : Spread fid st.mapperModulo st.mapperRedundancy) : (hdrDevices st fid).Nodup := by
  rw [hdrDevices,List.Nodup,List.pairwise_map]
  apply (List.pairwise_lt_range (n := st.mapperRedundancy.toNat)).imp_of_mem
  intro dev dev' _ inside less
  have small := st.mapperRedundancy.isLt
  have last := List.mem_range.mp inside
  have rank : (BitVec.ofNat 32 dev).toNat = dev := toNat_rank (by omega)
  have rank' : (BitVec.ofNat 32 dev').toNat = dev' := toNat_rank (by omega)
  exact spread.2 _ _ (by rwa [BitVec.lt_def,rank,rank']) (by rwa [BitVec.lt_def,rank'])

/-- The copies of a header file go to devices of their own exactly when the sums of the hash and the
ranks do not wrap, or the wrap does not show: the modulo divides the word size, or two ranks are never
at the distance of its remainder. -/
theorem header_copies_apart (fid : Fid) (modulo redundancy : BitVec 32) (bound : redundancy ≤ modulo) :
    Spread fid modulo redundancy ↔
      (fidHash fid).toNat + redundancy.toNat ≤ 2 ^ 32 ∨ modulo.toNat ∣ 2 ^ 32 ∨ redundancy.toNat ≤ 2 ^ 32 % modulo.toNat := by
  rw [spread_iff bound]
  exact places_apart_iff (fidHash fid).isLt (BitVec.le_def.mp bound) (Nat.le_of_lt redundancy.isLt)

/-- File 400 of a slice of the first export, whose hash is the last one before the wrap. -/
def lastHash : Fid := #v[0,0,0,0,0,0,64,0,119,34,76,0,0,0,144,9]

theorem fidHash_lastHash : fidHash lastHash = 0xFFFFFFFF#32 := by decide +kernel

/-- With four mapper devices, the copies of that file are apart. -/
theorem header_copies_apart_four : ∃ st, storageInitialize 4 4 2 = some st ∧ Spread lastHash st.mapperModulo st.mapperRedundancy ∧
    (hdrDevices st lastHash).Nodup := by
  have accepted : storageInitialize 4 4 2 = some ⟨4,4,2⟩ := by decide
  have spread : Spread lastHash 4#32 2#32 :=
    (header_copies_apart lastHash 4#32 2#32 (storageInitialize_some accepted).1).mpr (.inr (.inl (by decide)))
  exact ⟨⟨4,4,2⟩,accepted,spread,hdrDevices_nodup spread⟩

/-- With three mapper devices, both copies of that file are on the first one. -/
theorem header_copy_lost : storageInitialize 3 3 2 = some ⟨3,3,2⟩ ∧ hdrDevices ⟨3,3,2⟩ lastHash = [0,0] ∧
    ¬Spread lastHash 3#32 2#32 := by
  have zero : storageMapperDevice lastHash 0#32 3#32 = 0#32 := by rw [storageMapperDevice,fidHash_lastHash]; rfl
  have one : storageMapperDevice lastHash 1#32 3#32 = 0#32 := by rw [storageMapperDevice,fidHash_lastHash]; rfl
  refine ⟨by decide,?_,?_⟩
  · change [storageMapperDevice lastHash 0#32 3#32,storageMapperDevice lastHash 1#32 3#32] = _
    rw [zero,one]
    rfl
  · intro spread
    exact spread.2 0#32 1#32 (by decide) (by decide) (zero.trans one.symm)

end Rozofs.MapperDevices
