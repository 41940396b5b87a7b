import Rozofs.CircularMoves
import Rozofs.DistributionFailure
import Mathlib.Algebra.Order.Ring.Int

/-! `volume_distribute`: the first cluster that can take a file takes it, and goes to its new place in the list. -/
namespace Rozofs.VolumeDistribution
open Function (update)
open CircularList (Links Ring Family Same pushBack_same)
open Distribution

/-- `volume_t`: the two lists of clusters, by their heads, with the links, the cid and the content of each element. -/
structure Volume (α : Type) where
  multiSite : Bool
  georep : Bool
  activeList : Bool
  clusterDistribute : Bool → α
  links : Links α
  cid : α → BitVec 16
  clusters : α → Cluster

/-- The arguments of `volume_distribute`, with the configuration and the site of the export. -/
structure Request where
  rule : Rule
  allocEstimatedMb : Nat
  localSite : Nat
  layout : Layout
  siteNumber : Nat

section Code
variable {α : Type} [DecidableEq α]

def Volume.setCluster (v : Volume α) (p : α) (cluster : Cluster) : Volume α := { v with clusters := update v.clusters p cluster }

@[simp] theorem setCluster_same (v : Volume α) (p : α) (cluster : Cluster) : (v.setCluster p cluster).clusters p = cluster :=
  Function.update_self _ _ _

theorem setCluster_other {p q : α} (v : Volume α) (cluster : Cluster) (other : q ≠ p) : (v.setCluster p cluster).clusters q = v.clusters q :=
  Function.update_of_ne other _ _

@[simp] theorem setCluster_links (v : Volume α) (p : α) (cluster : Cluster) : (v.setCluster p cluster).links = v.links := rfl

@[simp] theorem setCluster_clusterDistribute (v : Volume α) (p : α) (cluster : Cluster) :
    (v.setCluster p cluster).clusterDistribute = v.clusterDistribute := rfl

@[simp] theorem setCluster_activeList (v : Volume α) (p : α) (cluster : Cluster) : (v.setCluster p cluster).activeList = v.activeList := rfl

/-- The loop that puts a cluster behind those that have at least its free size; `none` when the fuel is used up. -/
def reorder (free : α → Nat) (head p : α) : Nat → Links α → Option (Links α)
  | 0, _ => none
  | fuel + 1, l =>
    let q := l.next p
    if q = head then some l
    else if free p > free q then some l
    else reorder free head p fuel (l.exchange p)

/-- The loop over the clusters, from `p` on; the outer `none` stands for no more fuel and the inner one for -1. -/
def distributeFrom (r : Request) (siteIdx : Nat) : Nat → α → Volume α → Option (Volume α × Option (BitVec 16 × List (BitVec 8)))
  | 0, _, _ => none
  | fuel + 1, p, v =>
    let head := v.clusterDistribute v.activeList
    if p = head then some (v,none)
    else
      match doClusterDistribute r.allocEstimatedMb r.layout siteIdx (v.clusters p) v.multiSite r.rule with
      | (cluster,none) => distributeFrom r siteIdx fuel (v.links.next p) (v.setCluster p cluster)
      | (cluster,some sids) =>
        let v := v.setCluster p cluster
        if r.rule ≠ .sizeBalancing then some ({ v with links := (v.links.remove p).pushBack head p },some (v.cid p,sids))
        else (reorder (fun q => (v.clusters q).free) head p fuel v.links).map fun links => ({ v with links := links },some (v.cid p,sids))

/-- The site of the storages. -/
def Request.siteIdx (r : Request) (v : Volume α) : Nat := if v.georep then r.siteNumber else r.localSite

/-- `volume_distribute`. -/
def volumeDistribute (r : Request) (fuel : Nat) (v : Volume α) : Option (Volume α × Option (BitVec 16 × List (BitVec 8))) :=
  distributeFrom r (r.siteIdx v) fuel (v.links.next (v.clusterDistribute v.activeList)) v

end Code

section Order
variable {α : Type} [DecidableEq α] {l : Links α} {head p b : α} {xs ys : List α} {free free' : α → Nat}

/-- Where `reorder` puts a cluster. -/
def settle (free : α → Nat) (p : α) : List α → List α
  | [] => [p]
  | q :: rest => if free p > free q then p :: q :: rest else q :: settle free p rest

omit [DecidableEq α] in
theorem settle_perm (free : α → Nat) (p : α) (ys : List α) : (settle free p ys).Perm (p :: ys) := by
  induction ys with
  | nil => exact .refl _
  | cons q rest ih =>
    rw [settle]
    split
    · exact .refl _
    · exact (ih.cons q).trans (.swap p q rest)

omit [DecidableEq α] in
theorem next_inside (ring : Ring l head (xs ++ p :: ys)) : l.next p = (ys ++ [head]).head (by simp) := by
  have turned := ring.rotate
  cases ys with
  | nil => exact turned.next_first
  | cons q rest => exact turned.next_first

/-- The loop ends, and the cluster is in its place. -/
theorem reorder_run (fuel : Nat) (ring : Ring l head (xs ++ p :: ys)) (enough : ys.length < fuel) :
    ∃ l', reorder free head p fuel l = some l' ∧ Ring l' head (xs ++ settle free p ys) ∧
      ∀ b, b ∉ head :: (xs ++ p :: ys) → Same l l' b := by
  induction fuel generalizing l xs ys with
  | zero => exact absurd enough (Nat.not_lt_zero _)
  | succ fuel ih =>
    have next := next_inside ring
    cases ys with
    | nil =>
      refine ⟨l,?_,ring,fun b _ => ⟨rfl,rfl⟩⟩
      rw [reorder,next]
      exact if_pos rfl
    | cons q rest =>
      have nodup := ring.nodup
      have other : q ≠ head := by
        rintro rfl
        exact (List.nodup_cons.mp nodup).1 (by simp)
      have next : l.next p = q := next
      rw [reorder]
      simp only [next,if_neg other]
      rw [settle]
      split
      case isTrue more => exact ⟨l,rfl,ring,fun b _ => ⟨rfl,rfl⟩⟩
      case isFalse less =>
        have moved : Ring (l.exchange p) head ((xs ++ [q]) ++ p :: rest) := by simpa using ring.exchange
        obtain ⟨l',done,placed,same⟩ := ih moved (Nat.lt_of_succ_lt_succ enough)
        refine ⟨l',done,by simpa using placed,fun b outside => ?_⟩
        have outside' : b ∉ head :: ((xs ++ [q]) ++ p :: rest) := fun member => outside (by
          simp only [List.mem_cons,List.mem_append] at member ⊢
          tauto)
        have first := ring.exchange_outside outside
        have later := same b outside'
        exact ⟨later.1.trans first.1,later.2.trans first.2⟩

/-- Clusters by decreasing free size. -/
def Sorted (free : α → Nat) (xs : List α) : Prop := xs.Pairwise fun p q => free q ≤ free p

omit [DecidableEq α] in
theorem settle_sorted (sorted : Sorted free ys) : Sorted free (settle free p ys) := by
  induction ys with
  | nil => exact List.pairwise_singleton _ _
  | cons q rest ih =>
    obtain ⟨first,later⟩ := List.pairwise_cons.mp sorted
    rw [settle]
    split
    case isTrue more =>
      refine List.pairwise_cons.mpr ⟨fun x mem => ?_,sorted⟩
      rcases List.mem_cons.mp mem with rfl | inRest
      · exact Nat.le_of_lt more
      · exact (first x inRest).trans (Nat.le_of_lt more)
    case isFalse less =>
      refine List.pairwise_cons.mpr ⟨fun x mem => ?_,ih later⟩
      rcases List.mem_cons.mp ((settle_perm free p rest).mem_iff.mp mem) with rfl | inRest
      · exact Nat.le_of_not_gt less
      · exact first x inRest

omit [DecidableEq α] in
/-- A cluster whose free size decreases finds its place in a sorted list. -/
theorem Sorted.settle (sorted : Sorted free (xs ++ p :: ys)) (same : ∀ q ∈ xs ++ ys, free' q = free q) (less : free' p ≤ free p) :
    Sorted free' (xs ++ settle free' p ys) := by
  obtain ⟨front,back,cross⟩ := List.pairwise_append.mp sorted
  obtain ⟨_,later⟩ := List.pairwise_cons.mp back
  have kept : ∀ zs, (∀ q ∈ zs, q ∈ xs ++ ys) → Sorted free zs → Sorted free' zs := by
    intro zs inside sorted
    apply List.Pairwise.imp_of_mem _ sorted
    intro a b memA memB le
    rw [same a (inside a memA),same b (inside b memB)]
    exact le
  have front' := kept xs (fun q mem => List.mem_append_left _ mem) front
  have later' := kept ys (fun q mem => List.mem_append_right _ mem) later
  refine List.pairwise_append.mpr ⟨front',settle_sorted later',fun a memA b memB => ?_⟩
  rw [same a (List.mem_append_left _ memA)]
  rcases List.mem_cons.mp ((settle_perm free' p ys).mem_iff.mp memB) with rfl | inRest
  · exact less.trans (cross a memA _ List.mem_cons_self)
  · rw [same b (List.mem_append_right _ inRest)]
    exact cross a memA b (List.mem_cons_of_mem _ inRest)

end Order

section Runs
variable {α : Type} [DecidableEq α] {r : Request} {siteIdx : Nat} {v v' : Volume α} {head p : α} {xs ys : List α}

/-- The clusters `xs` could not take the file; nothing else has changed. -/
structure Refused (r : Request) (siteIdx : Nat) (v v' : Volume α) (xs : List α) : Prop where
  only : v' = { v with clusters := v'.clusters }
  tried : ∀ p ∈ xs, doClusterDistribute r.allocEstimatedMb r.layout siteIdx (v.clusters p) v.multiSite r.rule = (v'.clusters p,none)
  others : ∀ p, p ∉ xs → v'.clusters p = v.clusters p

/-- The place of the cluster that has taken the file, among those that follow it. -/
def placed (r : Request) (free : α → Nat) (p : α) (ys : List α) : List α :=
  if r.rule = .sizeBalancing then settle free p ys else ys ++ [p]

/-- The cluster `p` takes the file after those of `front` could not. -/
structure Served (r : Request) (siteIdx : Nat) (v v' : Volume α) (head : α) (before front : List α) (p : α) (after : List α) : Prop where
  refused : ∃ v₁, Refused r siteIdx v v₁ front ∧ ∃ cluster sids,
    doClusterDistribute r.allocEstimatedMb r.layout siteIdx (v.clusters p) v.multiSite r.rule = (cluster,some sids) ∧
    v' = { v₁.setCluster p cluster with links := v'.links }
  ring : Ring v'.links head (before ++ front ++ placed r (fun q => (v'.clusters q).free) p after)
  outside : ∀ b, b ∉ head :: (before ++ front ++ p :: after) → Same v.links v'.links b

/-- One more cluster has refused. -/
theorem Refused.cons {cluster : Cluster} {v₁ : Volume α}
    (failed : doClusterDistribute r.allocEstimatedMb r.layout siteIdx (v.clusters p) v.multiSite r.rule = (cluster,none)) (fresh : p ∉ xs)
    (later : Refused r siteIdx (v.setCluster p cluster) v₁ xs) : Refused r siteIdx v v₁ (p :: xs) := by
  have only := later.only
  have here : v₁.clusters p = cluster := by
    rw [later.others p fresh]
    exact setCluster_same _ _ _
  constructor
  case only => exact only
  case tried =>
    intro q mem
    rcases List.mem_cons.mp mem with rfl | inRest
    · rw [here]
      exact failed
    · have tried := later.tried q inRest
      have other : q ≠ p := fun same => fresh (same ▸ inRest)
      rw [setCluster_other v cluster other] at tried
      exact tried
  case others =>
    intro q outside
    simp only [List.mem_cons,not_or] at outside
    rw [later.others q outside.2]
    exact setCluster_other v cluster outside.1

theorem distributeFrom_head {fuel : Nat} (atHead : p = v.clusterDistribute v.activeList) : distributeFrom r siteIdx (fuel + 1) p v = some (v,none) := by
  rw [distributeFrom]
  exact if_pos atHead

theorem distributeFrom_refused {fuel : Nat} {cluster : Cluster} (other : p ≠ v.clusterDistribute v.activeList)
    (refused : doClusterDistribute r.allocEstimatedMb r.layout siteIdx (v.clusters p) v.multiSite r.rule = (cluster,none)) :
    distributeFrom r siteIdx (fuel + 1) p v = distributeFrom r siteIdx fuel (v.links.next p) (v.setCluster p cluster) := by
  rw [distributeFrom]
  simp only [if_neg other,refused]

theorem distributeFrom_balanced {fuel : Nat} {cluster : Cluster} {sids : List (BitVec 8)} (other : p ≠ v.clusterDistribute v.activeList)
    (balancing : r.rule = .sizeBalancing)
    (taken : doClusterDistribute r.allocEstimatedMb r.layout siteIdx (v.clusters p) v.multiSite r.rule = (cluster,some sids)) :
    distributeFrom r siteIdx (fuel + 1) p v =
      (reorder (fun q => ((v.setCluster p cluster).clusters q).free) (v.clusterDistribute v.activeList) p fuel v.links).map
        fun links => ({ v.setCluster p cluster with links := links },some (v.cid p,sids)) := by
  have same : ¬r.rule ≠ .sizeBalancing := fun differ => differ balancing
  rw [distributeFrom]
  simp only [if_neg other,taken,if_neg same]
  rfl

theorem distributeFrom_last {fuel : Nat} {cluster : Cluster} {sids : List (BitVec 8)} (other : p ≠ v.clusterDistribute v.activeList)
    (balancing : r.rule ≠ .sizeBalancing)
    (taken : doClusterDistribute r.allocEstimatedMb r.layout siteIdx (v.clusters p) v.multiSite r.rule = (cluster,some sids)) :
    distributeFrom r siteIdx (fuel + 1) p v =
      some ({ v.setCluster p cluster with links := (v.links.remove p).pushBack (v.clusterDistribute v.activeList) p },some (v.cid p,sids)) := by
  rw [distributeFrom]
  simp only [if_neg other,taken,if_pos balancing]
  rfl

/-- What the loop returns, from a place of the list on. -/
theorem distributeFrom_run (fuel : Nat) (before ys : List α) (v : Volume α) (ring : Ring v.links (v.clusterDistribute v.activeList) (before ++ ys))
    (enough : ys.length < fuel) :
    ∃ v' result, distributeFrom r siteIdx fuel ((ys ++ [v.clusterDistribute v.activeList]).head (by simp)) v = some (v',result) ∧
      (result = none ∧ Refused r siteIdx v v' ys ∨ ∃ front p after, ys = front ++ p :: after ∧ result.isSome = true ∧
        Served r siteIdx v v' (v.clusterDistribute v.activeList) before front p after) := by
  induction fuel generalizing before ys v with
  | zero => exact absurd enough (Nat.not_lt_zero _)
  | succ fuel ih =>
    cases ys with
    | nil =>
      exact ⟨v,none,distributeFrom_head rfl,.inl ⟨rfl,rfl,fun p mem => absurd mem List.not_mem_nil,fun p _ => rfl⟩⟩
    | cons p after =>
      have nodup := ring.nodup
      have notHead : p ≠ v.clusterDistribute v.activeList := by
        rintro same
        exact (List.nodup_cons.mp nodup).1 (by simp [← same])
      have apart := (List.nodup_cons.mp (List.nodup_append.mp (List.nodup_cons.mp nodup).2).2.1).1
      have next := next_inside ring
      simp only [List.cons_append,List.head_cons]
      rcases tried : doClusterDistribute r.allocEstimatedMb r.layout siteIdx (v.clusters p) v.multiSite r.rule with ⟨cluster,sids⟩
      cases sids with
      | none =>
        have ring' : Ring (v.setCluster p cluster).links (v.clusterDistribute v.activeList) ((before ++ [p]) ++ after) := by simpa using ring
        obtain ⟨v',result,done,outcome⟩ := ih (before ++ [p]) after (v.setCluster p cluster) ring' (Nat.lt_of_succ_lt_succ enough)
        refine ⟨v',result,?_,?_⟩
        · rw [distributeFrom_refused notHead tried,next]
          exact done
        · rcases outcome with ⟨none,refused⟩ | ⟨front,q,rest,rfl,found,served⟩
          · exact .inl ⟨none,refused.cons tried apart⟩
          · obtain ⟨⟨v₁,refused,cluster',sids,taken,only⟩,ring,outside⟩ := served
            have other : q ≠ p := by
              rintro rfl
              exact apart (by simp)
            have fresh : p ∉ front := fun mem => apart (List.mem_append_left _ mem)
            refine .inr ⟨p :: front,q,rest,rfl,found,⟨v₁,refused.cons tried fresh,cluster',sids,?_,only⟩,?_,fun b away => outside b ?_⟩
            · rw [setCluster_other v cluster other] at taken
              exact taken
            · simpa using ring
            · simpa using away
      | some sids =>
        have start : Refused r siteIdx v v [] := ⟨rfl,fun p mem => absurd mem List.not_mem_nil,fun p _ => rfl⟩
        by_cases balancing : r.rule = .sizeBalancing
        · obtain ⟨l',done,ring',same⟩ := @reorder_run α _ v.links (v.clusterDistribute v.activeList) p before after
            (fun q => ((v.setCluster p cluster).clusters q).free) fuel ring (Nat.lt_of_succ_lt_succ enough)
          refine ⟨{ v.setCluster p cluster with links := l' },some (v.cid p,sids),?_,.inr ⟨[],p,after,rfl,rfl,
            ⟨v,start,cluster,sids,tried,rfl⟩,?_,?_⟩⟩
          · rw [distributeFrom_balanced notHead balancing tried,done]
            rfl
          · rw [placed,if_pos balancing,List.append_nil]
            exact ring'
          · rw [List.append_nil]
            exact same
        · have removed := ring.remove
          have fresh : p ∉ v.clusterDistribute v.activeList :: (before ++ after) := by
            have split := List.nodup_middle.mp (List.nodup_cons.mp nodup).2
            exact fun mem => (List.mem_cons.mp mem).elim notHead (List.nodup_cons.mp split).1
          refine ⟨{ v.setCluster p cluster with links := (v.links.remove p).pushBack (v.clusterDistribute v.activeList) p },
            some (v.cid p,sids),?_,.inr ⟨[],p,after,rfl,rfl,⟨v,start,cluster,sids,tried,rfl⟩,?_,fun b away => ?_⟩⟩
          · exact distributeFrom_last notHead balancing tried
          · rw [placed,if_neg balancing,List.append_nil,← List.append_assoc]
            exact removed.pushBack fresh
          · rw [List.append_nil] at away
            have first := ring.remove_outside away
            simp only [List.mem_cons,List.mem_append,not_or] at away
            have later : Same (v.links.remove p) ((v.links.remove p).pushBack (v.clusterDistribute v.activeList) p) b :=
              pushBack_same removed away.2.2.1 (by simp [away])
            exact ⟨later.1.trans first.1,later.2.trans first.2⟩

end Runs

section Outcomes
variable {α : Type} [DecidableEq α] {r : Request} {v v' : Volume α} {lists : Bool → List α} {head p : α} {xs ys : List α} {siteIdx : Nat}

/-- The clusters that a distribution on them has left as they were, and why it failed on each. -/
theorem Refused.kept (refused : Refused r siteIdx v v' xs) (distinct : ∀ p ∈ xs, (((v.clusters p).storages siteIdx).map Storage.sid).Nodup) :
    (∀ p, Kept r.rule (v.clusters p) (v'.clusters p)) ∧ ∀ p ∈ xs, Justified r.rule r.layout v.multiSite ((v.clusters p).storages siteIdx) := by
  have failed : ∀ p ∈ xs, _ := fun p mem => doClusterDistribute_failed (distinct p mem) (refused.tried p mem)
  refine ⟨fun p => ?_,fun p mem => (failed p mem).2⟩
  by_cases mem : p ∈ xs
  · exact (failed p mem).1
  · rw [refused.others p mem]
    exact ⟨rfl,fun _ => .refl _,fun _ => rfl⟩

omit [DecidableEq α] in
theorem placed_perm (r : Request) (free : α → Nat) (p : α) (ys : List α) : (placed r free p ys).Perm (p :: ys) := by
  unfold placed
  split
  · exact settle_perm free p ys
  · exact List.perm_append_singleton p ys

/-- The list with the cluster that has taken a file in its new place. -/
theorem Served.sorted {front after : List α} (served : Served r siteIdx v v' head [] front p after) (balancing : r.rule = .sizeBalancing)
    (distinct : ∀ q ∈ front, (((v.clusters q).storages siteIdx).map Storage.sid).Nodup) (nodup : (front ++ p :: after).Nodup)
    (counted : (((v.clusters p).storages siteIdx).map Storage.free).sum ≤ (v.clusters p).free)
    (sorted : Sorted (fun q => (v.clusters q).free) (front ++ p :: after)) :
    Sorted (fun q => (v'.clusters q).free) (front ++ placed r (fun q => (v'.clusters q).free) p after) := by
  obtain ⟨v₁,refused,cluster,sids,taken,only⟩ := served.refused
  have kept := (refused.kept distinct).1
  have clusters : v'.clusters = (v₁.setCluster p cluster).clusters := by rw [only]
  have away := (List.nodup_cons.mp (List.nodup_middle.mp nodup)).1
  rw [placed,if_pos balancing]
  apply sorted.settle
  case same =>
    intro q mem
    have other : q ≠ p := fun same => away (same ▸ mem)
    rw [clusters,setCluster_other v₁ cluster other]
    exact (kept q).free
  case less =>
    rw [balancing] at taken
    rw [clusters,setCluster_same]
    exact (sizeBalancing_free taken).trans counted

/-- What `volume_distribute` does to the two lists of clusters. -/
structure Harmless (r : Request) (v : Volume α) (lists : Bool → List α) (v' : Volume α) (result : Option (BitVec 16 × List (BitVec 8))) : Prop where
  unchanged : result = none → v' = { v with clusters := v'.clusters } ∧ ∀ p, Kept r.rule (v.clusters p) (v'.clusters p)
  justified : result = none → ∀ p ∈ lists v.activeList, Justified r.rule r.layout v.multiSite ((v.clusters p).storages (r.siteIdx v))
  listed : result ≠ none → ∃ xs, xs.Perm (lists v.activeList) ∧ v'.activeList = v.activeList ∧
    Family v'.links v'.clusterDistribute (update lists v.activeList xs) ∧
    (r.rule = .sizeBalancing → (∀ p ∈ lists v.activeList, (((v.clusters p).storages (r.siteIdx v)).map Storage.free).sum ≤ (v.clusters p).free) →
      Sorted (fun p => (v.clusters p).free) (lists v.activeList) → Sorted (fun p => (v'.clusters p).free) xs)

/-- A distribution ends. When it fails it is harmless and there is a reason for each cluster; else the list has the
same clusters, and under size balancing it stays sorted. -/
theorem distribution_harmless (r : Request) (v : Volume α) (lists : Bool → List α) (fuel : Nat)
    (family : Family v.links v.clusterDistribute lists)
    (distinct : ∀ p ∈ lists v.activeList, (((v.clusters p).storages (r.siteIdx v)).map Storage.sid).Nodup)
    (enough : (lists v.activeList).length < fuel) :
    ∃ v' result, volumeDistribute r fuel v = some (v',result) ∧ Harmless r v lists v' result := by
  have ring := family.ring v.activeList
  have first : v.links.next (v.clusterDistribute v.activeList) = (lists v.activeList ++ [v.clusterDistribute v.activeList]).head (by simp) := by
    cases clusters : lists v.activeList with
    | nil =>
      rw [clusters] at ring
      exact ring.next_alone
    | cons p rest =>
      rw [clusters] at ring
      exact ring.next_first
  obtain ⟨v',result,done,outcome⟩ := @distributeFrom_run α _ r (r.siteIdx v) fuel [] (lists v.activeList) v ring enough
  refine ⟨v',result,?_,?_⟩
  · rw [volumeDistribute,first]
    exact done
  · rcases outcome with ⟨failed,refused⟩ | ⟨front,p,after,shape,found,served⟩
    · obtain ⟨kept,justified⟩ := refused.kept distinct
      exact ⟨fun _ => ⟨refused.only,kept⟩,fun _ => justified,fun some => absurd failed some⟩
    · have some : result ≠ none := by
        rintro rfl
        cases found
      have nodup := (List.nodup_cons.mp ring.nodup).2
      have placing := served.ring
      have outside := served.outside
      obtain ⟨v₁,refused,cluster,sids,taken,only⟩ := served.refused
      rw [shape] at nodup distinct
      simp only [List.nil_append] at placing outside
      rw [← shape] at outside
      have heads : v'.clusterDistribute = v.clusterDistribute := by
        rw [only,refused.only]
        rfl
      have active : v'.activeList = v.activeList := by
        rw [only,refused.only]
        rfl
      have perm : (front ++ placed r (fun q => (v'.clusters q).free) p after).Perm (lists v.activeList) := by
        rw [shape]
        exact (placed_perm _ _ _ _).append_left front
      refine ⟨fun none => absurd none some,fun none => absurd none some,fun _ => ⟨_,perm,active,?_,fun balancing counted sorted => ?_⟩⟩
      · rw [heads]
        apply family.change placing
        · intro b other q mem
          exact outside q fun inside => family.apart b v.activeList other mem inside
        · exact fun q mem => .inl (perm.mem_iff.mp mem)
      · rw [shape] at sorted counted
        exact served.sorted balancing (fun q mem => distinct q (List.mem_append_left _ mem)) nodup (counted p (by simp)) sorted

end Outcomes

section Clusters

instance (free : Nat → Nat) (xs : List Nat) : Decidable (Sorted free xs) := inferInstanceAs (Decidable (List.Pairwise _ _))

/-- The heads of the two lists. -/
def heads (active : Bool) : Nat := if active then 1 else 0

/-- Clusters 2 and 3 in the active list. -/
def volume (clusters : Nat → Cluster) : Volume Nat :=
  ⟨false,false,false,heads,((Links.mk id id).pushBack 0 2).pushBack 0 3,BitVec.ofNat 16,clusters⟩

theorem volume_family (clusters : Nat → Cluster) :
    Family (volume clusters).links (volume clusters).clusterDistribute (update (update (fun _ => []) false [2]) false [2,3]) := by
  have empty : Family (Links.mk id id) heads (fun _ => ([] : List Nat)) := by
    constructor
    case ring => exact fun active => ⟨.singleton _,⟨rfl,rfl⟩,List.nodup_singleton _⟩
    case apart =>
      intro active other differ
      cases active <;> cases other <;> simp_all [heads]
  have first := empty.pushBack (x := false) (a := 2) (by simp [heads])
  have second := first.pushBack (x := false) (a := 3) (by
    intro active
    cases active <;> simp [heads])
  exact second

def sameHost (count : Nat) : List Storage := (List.range count).map fun i => online (i + 1) 0

/-- Two storages, and sixteen of a host. -/
def hosts (p : Nat) : Cluster := ⟨0,fun _ => if p = 2 then sameHost 2 else sameHost 16⟩

def strictRequest : Request := ⟨.strictRoundRobin,10,0,.layout_8_12_16,0⟩

/-- A request that no cluster can serve. -/
theorem distribution_harmless_hosts :
    ∃ v' result, volumeDistribute strictRequest 3 (volume hosts) = some (v',result) ∧
      Harmless strictRequest (volume hosts) (update (update (fun _ => []) false [2]) false [2,3]) v' result := by
  have distinct : ∀ p ∈ [2,3], (((hosts p).storages 0).map Storage.sid).Nodup := by decide
  exact distribution_harmless strictRequest (volume hosts) _ 3 (volume_family hosts) distinct (by decide)

/-- Twelve storages of a host and four of another one. -/
def twoHosts : List Storage := sameHost 12 ++ (List.range 4).map fun i => online (i + 13) 1

def weightedRequest : Request := ⟨.weightedRoundRobin,10,0,.layout_8_12_16,0⟩

/-- The first cluster has too few storages. The second one has a storage that is down. -/
def downStorage (p : Nat) : Cluster :=
  if p = 2 then ⟨1000,fun _ => sameHost 2⟩
  else ⟨500,fun _ => { online 9 4 with status := 0, free := 5000 } :: (List.range 4).map fun i => { online (i + 1) i with free := 100 }⟩

def balancingRequest : Request := ⟨.sizeBalancing,0,0,.layout_2_3_4,0⟩

theorem strict_sameHost (count : Nat) (few : count = 2 ∨ count = 16) :
    (strictRoundRobin .layout_8_12_16 false (sameHost count)).2 = none := by
  have same : listSort compareInverse (sameHost count) = sameHost count := by
    apply listSort_ordered
    rcases few with rfl | rfl <;> decide +kernel
  rw [strictRoundRobin,same]
  rcases few with rfl | rfl <;> decide +kernel

/-- What a cluster answers to a request. -/
def answer (r : Request) (cluster : Cluster) : Cluster × Option (List (BitVec 8)) :=
  doClusterDistribute r.allocEstimatedMb r.layout 0 cluster false r.rule

theorem hosts_refuse (p : Nat) : (answer strictRequest (hosts p)).2 = none := by
  by_cases small : p = 2
  · have list : (hosts p).storages 0 = sameHost 2 := if_pos small
    simp only [answer,strictRequest,doClusterDistribute,doClusterDistributeStrictRoundRobin,list,strict_sameHost 2 (.inl rfl)]
  · have list : (hosts p).storages 0 = sameHost 16 := if_neg small
    simp only [answer,strictRequest,doClusterDistribute,doClusterDistributeStrictRoundRobin,list,strict_sameHost 16 (.inr rfl)]

theorem hosts_counted : ((answer strictRequest (hosts 2)).1.storages 0).map Storage.inverseCounter = [1,0] := by
  have same : listSort compareInverse (sameHost 2) = sameHost 2 := by
    apply listSort_ordered
    decide +kernel
  have list : (hosts 2).storages 0 = sameHost 2 := rfl
  simp only [answer,strictRequest,doClusterDistribute,doClusterDistributeStrictRoundRobin,list,strictRoundRobin,same]
  decide +kernel

theorem downStorage_free : (answer balancingRequest (downStorage 3)).1.free = 5400 := by
  have sids : (answer balancingRequest (downStorage 3)).2 = some [9,1,2,3] := by decide +kernel
  have done : answer balancingRequest (downStorage 3) = ((answer balancingRequest (downStorage 3)).1,some [9,1,2,3]) := Prod.ext rfl sids
  have places : (takeLoop .layout_2_3_4 false ((downStorage 3).storages 0) 8 ⟨0,0,0,0,[]⟩).map Taking.selected = some [0,1,2,3] := by
    decide +kernel
  obtain ⟨taking,found,selected⟩ := Option.map_eq_some_iff.mp places
  have sum := @takeBySize_sum false ((downStorage 3).storages 0) taking .layout_2_3_4 0 found
  refine (sizeBalancing_sum done).trans ?_
  simp only [balancingRequest,sum,selected]
  decide +kernel

/-- A run in which both clusters refuse. -/
theorem volume_refused {r : Request} {clusters : Nat → Cluster} (site : r.localSite = 0) (first : (answer r (clusters 2)).2 = none)
    (second : (answer r (clusters 3)).2 = none) :
    volumeDistribute r 3 (volume clusters) =
      some (((volume clusters).setCluster 2 (answer r (clusters 2)).1).setCluster 3 (answer r (clusters 3)).1,none) := by
  have first : answer r (clusters 2) = ((answer r (clusters 2)).1,none) := Prod.ext rfl first
  have second : answer r (clusters 3) = ((answer r (clusters 3)).1,none) := Prod.ext rfl second
  have onSite : r.siteIdx (volume clusters) = 0 := site
  have two : (2 : Nat) ≠ heads false := by decide
  have three : (3 : Nat) ≠ heads false := by decide
  have start : (volume clusters).links.next ((volume clusters).clusterDistribute (volume clusters).activeList) = 2 := rfl
  rw [volumeDistribute,onSite,start,@distributeFrom_refused Nat _ r 0 (volume clusters) 2 2 _ two first]
  refine (@distributeFrom_refused Nat _ r 0 ((volume clusters).setCluster 2 _) 3 1 _ three second).trans ?_
  exact distributeFrom_head rfl

/-- A run in which the second cluster takes the file. -/
theorem volume_balanced {clusters : Nat → Cluster} {sids : List (BitVec 8)} (first : (answer balancingRequest (clusters 2)).2 = none)
    (second : (answer balancingRequest (clusters 3)).2 = some sids) :
    volumeDistribute balancingRequest 3 (volume clusters) =
      some (((volume clusters).setCluster 2 (answer balancingRequest (clusters 2)).1).setCluster 3 (answer balancingRequest (clusters 3)).1,
        some (3,sids)) := by
  have first : answer balancingRequest (clusters 2) = ((answer balancingRequest (clusters 2)).1,none) := Prod.ext rfl first
  have second : answer balancingRequest (clusters 3) = ((answer balancingRequest (clusters 3)).1,some sids) := Prod.ext rfl second
  have onSite : balancingRequest.siteIdx (volume clusters) = 0 := rfl
  have two : (2 : Nat) ≠ heads false := by decide
  have three : (3 : Nat) ≠ heads false := by decide
  have start : (volume clusters).links.next ((volume clusters).clusterDistribute (volume clusters).activeList) = 2 := rfl
  rw [volumeDistribute,onSite,start,@distributeFrom_refused Nat _ balancingRequest 0 (volume clusters) 2 2 _ two first]
  exact @distributeFrom_balanced Nat _ balancingRequest 0 ((volume clusters).setCluster 2 _) 3 1 _ _ three rfl second

/-- Sixteen storages of a host are not enough for the strict rule, and the storage that was taken stays counted. Sixteen
storages that are up with free space on two hosts are not enough for the weighted rule, which has taken twelve of
them. Under size balancing the list is not sorted any more when a storage that is down has an old free size. -/
theorem distribution_unjustified :
    (∃ v', volumeDistribute strictRequest 3 (volume hosts) = some (v',none) ∧ ((hosts 3).storages 0).length = 16 ∧
      ((hosts 2).storages 0).map Storage.inverseCounter = [0,0] ∧ ((v'.clusters 2).storages 0).map Storage.inverseCounter = [1,0]) ∧
    (∃ v', volumeDistribute weightedRequest 3 (volume fun _ => ⟨0,fun _ => twoHosts⟩) = some (v',none) ∧ twoHosts.length = 16 ∧
      availableCount twoHosts ((List.range 8).foldl (fun taking _ =>
        (takeScan false 16 0 twoHosts { taking with locationMask := 0, locationCollision := 0 }).1) ⟨0,0,0,0,[]⟩).selected = 12) ∧
    ∃ v', volumeDistribute balancingRequest 3 (volume downStorage) = some (v',some (3,[9,1,2,3])) ∧
      (v'.links.next 0,v'.links.next 2,v'.links.next 3) = (2,3,0) ∧ Sorted (fun p => (downStorage p).free) [2,3] ∧
      ¬Sorted (fun p => (v'.clusters p).free) [2,3] := by
  refine ⟨⟨_,volume_refused rfl (hosts_refuse 2) (hosts_refuse 3),rfl,rfl,?_⟩,?_,?_⟩
  · rw [setCluster_other _ _ (by decide),setCluster_same]
    exact hosts_counted
  · have refuses : (answer weightedRequest ⟨0,fun _ => twoHosts⟩).2 = none := by decide +kernel
    exact ⟨_,volume_refused rfl refuses refuses,rfl,by decide +kernel⟩
  · have first : (answer balancingRequest (downStorage 2)).2 = none := by decide +kernel
    have second : (answer balancingRequest (downStorage 3)).2 = some [9,1,2,3] := by decide +kernel
    refine ⟨_,volume_balanced first second,rfl,by decide,fun sorted => ?_⟩
    have le := List.rel_of_pairwise_cons sorted List.mem_cons_self
    have kept : (answer balancingRequest (downStorage 2)).1.free = 1000 := by decide +kernel
    simp only [setCluster_same,setCluster_other _ _ (show (2 : Nat) ≠ 3 by decide),downStorage_free,kept] at le
    exact absurd le (by decide)

end Clusters

end Rozofs.VolumeDistribution
