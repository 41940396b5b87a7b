import Mathlib.Data.List.Basic
import Mathlib.Algebra.Order.Ring.Int
import Rozofs.Layout

/-! The storages that `do_cluster_distribute` takes for a file, by each of the three distribution
rules. -/
namespace Rozofs.Distribution

/-- Fields of `volume_storage_t`; `free` is `stat.free`. -/
structure Storage where
  sid : BitVec 8
  hostRank : BitVec 8
  siteNum : BitVec 8
  status : Nat
  free : Nat
  inverseCounter : BitVec 64
  forwardCounter : BitVec 64
  spareCounter : BitVec 64
  deriving DecidableEq, Repr

/-- `cluster_t`: the storages of each site. -/
structure Cluster where
  free : Nat
  storages : Nat → List Storage

section Lists
variable {α : Type} (cmp : α → α → Int)

/-- A pass of `list_sort` over runs of `insize` elements, and the number of merges. -/
def mergePass (insize : Nat) : Nat → List α → List α × Nat
  | 0, p => (p,0)
  | _ + 1, [] => ([],0)
  | fuel + 1, p =>
    let q := p.drop insize
    let (list,nmerges) := mergePass insize fuel (q.drop insize)
    ((p.take insize).merge (q.take insize) (fun p q => cmp p q ≤ 0) ++ list,nmerges + 1)

def sortLoop : Nat → Nat → List α → List α
  | 0, _, list => list
  | fuel + 1, insize, list =>
    let (list,nmerges) := mergePass cmp insize list.length list
    if nmerges ≤ 1 then list else sortLoop fuel (2 * insize) list

/-- `list_sort`. -/
def listSort (list : List α) : List α := if list = [] then [] else sortLoop cmp list.length 1 list

end Lists

/-- The difference of two counters as an `int`. -/
def compareCounter (counter : Storage → BitVec 64) (a b : Storage) : Int := ((counter a - counter b).setWidth 32).toInt

def compareInverse : Storage → Storage → Int := compareCounter Storage.inverseCounter
def compareForward : Storage → Storage → Int := compareCounter Storage.forwardCounter
def compareSpare : Storage → Storage → Int := compareCounter Storage.spareCounter

/-- `volume_storage_compare`. -/
def volumeStorageCompare (e1 e2 : Storage) : Int :=
  if (e1.status = 0 ∧ e2.status ≠ 0) ∨ (e1.status ≠ 0 ∧ e2.status = 0) then e2.status - e1.status
  else if e1.free ≤ e2.free then 1 else 0

section Masks
variable {w : Nat}

/-- A bit of a map of `w` bits, as `ROZOFS_BITMAP64_TEST1` (256 bits) and a shift of a 64-bit word
look at it. -/
def test (mask : BitVec w) (bit : Nat) : Bool := mask.getLsbD (bit % w)

def set (mask : BitVec w) (bit : Nat) : BitVec w := mask ||| BitVec.twoPow w (bit % w)

end Masks

/-- The site number in multi site, else the rank of the host. -/
def location (multiSite : Bool) (vs : Storage) : Nat := if multiSite then vs.siteNum.toNat else vs.hostRank.toNat

/-- The three parts of a distribution. -/
inductive Part where
  | inverse
  | forward
  | spare
  deriving DecidableEq, Repr

section Strict

/-- Local variables of `do_cluster_distribute_strict_round_robin`; `nb_selected` is the length of
`sids`. -/
structure Selection where
  selectedBitMap : BitVec 256
  locationBitMap : BitVec 256
  sids : List (BitVec 8)
  locationCollision : Nat
  weight : Nat

/-- The counters of a storage that is taken. -/
def Part.count (part : Part) (weight : Nat) (vs : Storage) : Storage :=
  match part with
  | .inverse => { vs with inverseCounter := vs.inverseCounter + 1, forwardCounter := vs.forwardCounter + 1 }
  | .forward => { vs with forwardCounter := vs.forwardCounter + 1 }
  | .spare => { vs with spareCounter := vs.spareCounter + BitVec.ofNat 64 weight }

def Selection.take (part : Part) (multiSite : Bool) (sel : Selection) (vs : Storage) : Selection :=
  { sel with
    selectedBitMap := set sel.selectedBitMap vs.sid.toNat
    locationBitMap := set sel.locationBitMap (location multiSite vs)
    sids := sel.sids ++ [vs.sid]
    weight := if part = .spare ∧ sel.weight > 1 then sel.weight - 1 else sel.weight }

/-- One loop over the list; `true` when enough storages are found. -/
def scan (part : Part) (multiSite : Bool) (wanted : Nat) : List Storage → Selection → List Storage × Selection × Bool
  | [], sel => ([],sel,false)
  | vs :: rest, sel =>
    if test sel.selectedBitMap vs.sid.toNat then
      let (rest,sel,done) := scan part multiSite wanted rest sel
      (vs :: rest,sel,done)
    else if test sel.locationBitMap (location multiSite vs) then
      let (rest,sel,done) := scan part multiSite wanted rest { sel with locationCollision := sel.locationCollision + 1 }
      (vs :: rest,sel,done)
    else
      let vs' := part.count sel.weight vs
      let sel := sel.take part multiSite vs
      if wanted = sel.sids.length then (vs' :: rest,sel,true)
      else
        let (rest,sel,done) := scan part multiSite wanted rest sel
        (vs' :: rest,sel,done)

/-- The loops for one part; `false` for `return -1`. -/
def phase (part : Part) (multiSite : Bool) (wanted : Nat) : Nat → List Storage → Selection → List Storage × Selection × Bool
  | 0, storages, sel => (storages,sel,false)
  | loops + 1, storages, sel =>
    match scan part multiSite wanted storages sel with
    | (storages,sel,true) => (storages,sel,true)
    | (storages,sel,false) =>
      if sel.sids.length + sel.locationCollision < wanted then (storages,sel,false)
      else phase part multiSite wanted loops storages { sel with locationBitMap := 0, locationCollision := 0 }

/-- `do_cluster_distribute_strict_round_robin` on the list of a site. -/
def strictRoundRobin (layout : Layout) (multiSite : Bool) (storages : List Storage) : List Storage × Option (List (BitVec 8)) :=
  match phase .inverse multiSite layout.rozofsInverse 4 (listSort compareInverse storages) ⟨0,0,[],0,0⟩ with
  | (storages,_,false) => (storages,none)
  | (storages,sel,true) =>
    match phase .forward multiSite layout.rozofsForward 4 (listSort compareForward storages) sel with
    | (storages,_,false) => (storages,none)
    | (storages,sel,true) =>
      match phase .spare multiSite layout.rozofsSafe 4 (listSort compareSpare storages)
        { sel with weight := layout.rozofsSafe - layout.rozofsForward } with
      | (storages,_,false) => (storages,none)
      | (storages,sel,true) => (storages,some sel.sids)

end Strict

section Weighted

/-- Local variables of the two rules that go by the free size; `selected` holds places of the list. -/
structure Taking where
  sidTaken : BitVec 64
  locationMask : BitVec 64
  locationCollision : Nat
  msOk : BitVec 8
  selected : List Nat

def Taking.take (multiSite : Bool) (idx : Nat) (vs : Storage) (taking : Taking) : Taking :=
  { taking with
    sidTaken := set taking.sidTaken idx
    locationMask := set taking.locationMask (location multiSite vs)
    msOk := if vs.status ≠ 0 ∧ vs.free ≠ 0 then taking.msOk + 1 else taking.msOk
    selected := taking.selected ++ [idx] }

/-- One loop over the list from place `idx` on; `true` when enough storages are found. -/
def takeScan (multiSite : Bool) (safe : Nat) : Nat → List Storage → Taking → Taking × Bool
  | _, [], taking => (taking,false)
  | idx, vs :: rest, taking =>
    if test taking.sidTaken idx then takeScan multiSite safe (idx + 1) rest taking
    else if test taking.locationMask (location multiSite vs) then
      takeScan multiSite safe (idx + 1) rest { taking with locationCollision := taking.locationCollision + 1 }
    else
      let taking := taking.take multiSite idx vs
      if safe = taking.selected.length then (taking,true) else takeScan multiSite safe (idx + 1) rest taking

/-- The loops; `none` for `return -1`. -/
def takeLoop (layout : Layout) (multiSite : Bool) (storages : List Storage) : Nat → Taking → Option Taking
  | 0, _ => none
  | loops + 1, taking =>
    match takeScan multiSite layout.rozofsSafe 0 storages { taking with locationMask := 0, locationCollision := 0 } with
    | (taking,true) => if taking.msOk.toNat < layout.rozofsForward then none else some taking
    | (taking,false) =>
      if taking.selected.length + taking.locationCollision < layout.rozofsSafe then none
      else takeLoop layout multiSite storages loops taking

/-- The estimated free size of a storage that is taken. -/
def decrease (decreaseSize : Nat) (vs : Storage) : Storage :=
  if decreaseSize = 0 then vs
  else if vs.free > 256 * decreaseSize then { vs with free := vs.free - decreaseSize }
  else if vs.free > 64 * decreaseSize then { vs with free := vs.free - decreaseSize / 2 }
  else if vs.free > decreaseSize then { vs with free := vs.free - decreaseSize / 8 }
  else { vs with free := vs.free / 2 }

/-- The size that is taken off the storage of rank `idx` of a distribution. -/
def decreaseSize (layout : Layout) (allocEstimatedMb idx : Nat) : Nat :=
  let size := allocEstimatedMb * (1024 * 1024)
  if idx < layout.rozofsInverse then size else if idx < layout.rozofsForward then size / 2 else size / 2 / 16

/-- The storages that the two rules take from the list of a site. -/
def takeBySize (allocEstimatedMb : Nat) (layout : Layout) (multiSite : Bool) (storages : List Storage) :
    List Storage × Option (List (BitVec 8)) :=
  match takeLoop layout multiSite storages 8 ⟨0,0,0,0,[]⟩ with
  | none => (storages,none)
  | some taking =>
    let decreased := taking.selected.zipIdx.foldl
      (fun storages (place,idx) => storages.modify place (decrease (decreaseSize layout allocEstimatedMb idx))) storages
    (listSort volumeStorageCompare decreased,some (taking.selected.filterMap fun place => storages[place]?.map Storage.sid))

end Weighted

section Rules
variable (allocEstimatedMb : Nat) (layout : Layout) (siteIdx : Nat) (cluster : Cluster) (multiSite : Bool)

def Cluster.setStorages (storages : List Storage) : Cluster :=
  { cluster with storages := fun site => if site = siteIdx then storages else cluster.storages site }

/-- `do_cluster_distribute_strict_round_robin`; `none` stands for -1. -/
def doClusterDistributeStrictRoundRobin : Cluster × Option (List (BitVec 8)) :=
  let (storages,sids) := strictRoundRobin layout multiSite (cluster.storages siteIdx)
  (cluster.setStorages siteIdx storages,sids)

/-- `do_cluster_distribute_weighted_round_robin`. -/
def doClusterDistributeWeightedRoundRobin : Cluster × Option (List (BitVec 8)) :=
  let (storages,sids) := takeBySize allocEstimatedMb layout multiSite (cluster.storages siteIdx)
  (cluster.setStorages siteIdx storages,sids)

/-- `do_cluster_distribute_size_balancing`: the free size of the cluster is computed again. -/
def doClusterDistributeSizeBalancing : Cluster × Option (List (BitVec 8)) :=
  match takeBySize allocEstimatedMb layout multiSite (cluster.storages siteIdx) with
  | (storages,none) => (cluster.setStorages siteIdx storages,none)
  | (storages,some sids) =>
    ({ cluster.setStorages siteIdx storages with free := (storages.map Storage.free).sum % 2 ^ 64 },some sids)

/-- The values of `file_distribution_rule`, the three that stand for the strict rule as one. -/
inductive Rule where
  | sizeBalancing
  | weightedRoundRobin
  | strictRoundRobin
  deriving DecidableEq, Repr

/-- `do_cluster_distribute`. -/
def doClusterDistribute (rule : Rule) : Cluster × Option (List (BitVec 8)) :=
  match rule with
  | .sizeBalancing => doClusterDistributeSizeBalancing allocEstimatedMb layout siteIdx cluster multiSite
  | .weightedRoundRobin => doClusterDistributeWeightedRoundRobin allocEstimatedMb layout siteIdx cluster multiSite
  | .strictRoundRobin => doClusterDistributeStrictRoundRobin layout siteIdx cluster multiSite

end Rules

end Rozofs.Distribution
