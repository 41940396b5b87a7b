import Mathlib.Algebra.Order.Ring.Int
import Mathlib.Tactic.Tauto
import Rozofs.NestedTree

/-! Filters of IPv4 addresses, `rozofs_ip4_flt.h`: a tree of subnets, in which every subnet lies inside
its father, and the rule of the longest prefix of an address. -/
namespace Rozofs.IpFilter
open NestedTree

structure Subnet where
  ip : BitVec 32
  len : Nat
  allow : Bool
  deriving DecidableEq, Repr

/-- The machine shifts by 0 where a length of 0 asks for a shift by 32. -/
def ip4mask (len : Nat) : BitVec 32 := 0xFFFFFFFF#32 <<< ((32 - len) % 32)

/-- Codes -1, 0, 1 and 2 of `rozofs_subnet_compare`. -/
inductive Comparison where
  | equal | disjoint | firstFather | secondFather
  deriving DecidableEq, Repr

def subnetCompare (subnet1 subnet2 : Subnet) : Comparison :=
  if subnet1.len = subnet2.len then
    if subnet1.ip &&& ip4mask subnet1.len = subnet2.ip &&& ip4mask subnet1.len then .equal else .disjoint
  else if subnet1.len < subnet2.len then
    if subnet1.ip &&& ip4mask subnet1.len = subnet2.ip &&& ip4mask subnet1.len then .firstFather else .disjoint
  else if subnet2.ip &&& ip4mask subnet2.len = subnet1.ip &&& ip4mask subnet2.len then .secondFather else .disjoint

abbrev SubnetTree := NestedTree.Tree Subnet

/-- The loop over the sons of a tree, of which those in `before` stay. A son that lies in the new
subnet is removed and inserted there. When the subnet is found again nothing takes the sons back. -/
def filterInsertLoop (insert : SubnetTree → SubnetTree → Option (Int × SubnetTree)) :
    List SubnetTree → List SubnetTree → SubnetTree → Option (Int × List SubnetTree)
  | before, [], new => some (0,before ++ [new])
  | before, pcur :: rest, new =>
    match subnetCompare pcur.label new.label with
    | .disjoint => filterInsertLoop insert (before ++ [pcur]) rest new
    | .firstFather => (insert pcur new).map fun r => (r.1,before ++ r.2 :: rest)
    | .secondFather => (insert new pcur).bind fun r => filterInsertLoop insert before rest r.2
    | .equal => some (-1,before ++ pcur :: rest)

/-- `rozofs_ip4_filter_insert`, with a bound on the depth of its calls. The first son is the loop
without any round. -/
def filterInsert : Nat → SubnetTree → SubnetTree → Option (Int × SubnetTree)
  | 0, _, _ => none
  | fuel + 1, tree, new => (filterInsertLoop (filterInsert fuel) [] tree.sons new).map fun r => (r.1,.node tree.label r.2)

def filterCheckInternal (tree : SubnetTree) (new : Subnet) : Bool :=
  (tree.find fun pcur => subnetCompare pcur new = .firstFather || subnetCompare pcur new = .equal).allow

def filterCheck (tree : Option SubnetTree) (ip : BitVec 32) : Bool :=
  match tree with
  | none => true
  | some tree => filterCheckInternal tree ⟨ip,32,false⟩

/-- The memory of a filter: its tree, and the two counters of eight bits of the root. -/
structure Filter where
  size : Nat
  next : Nat
  tree : SubnetTree

def filterTreeAllocate (allow : Bool) (nbSubnet : Nat) : Filter := ⟨nbSubnet % 2 ^ 8,0,.node ⟨0,0,allow⟩ []⟩

def filterAddSubnet (f : Filter) (ip : BitVec 32) (len : Nat) (allow : Bool) : Option (Int × Filter) :=
  if f.size = 0 then some (-1,f)
  else if 32 < len then some (-1,f)
  else (filterInsert f.tree.labels.length f.tree (.node ⟨ip,len,allow⟩ [])).map fun r =>
    (r.1,⟨f.size - 1,(f.next + 1) % 2 ^ 8,r.2⟩)

/-- The subnets of a configuration one after the other, and those that were added. -/
def addSubnets (f : Filter) : List Subnet → Option (List Subnet × Filter)
  | [] => some ([],f)
  | r :: rest => (filterAddSubnet f r.ip r.len r.allow).bind fun added =>
    (addSubnets added.2 rest).map fun more => (if added.1 = 0 then r :: more.1 else more.1,more.2)

/-! ### Subnets as prefixes -/

/-- The first `len` bits are those of the other address. -/
def Agree (len : Nat) (a b : BitVec 32) : Prop := ∀ i < len, a.getMsbD i = b.getMsbD i

instance (len : Nat) (a b : BitVec 32) : Decidable (Agree len a b) := inferInstanceAs (Decidable (∀ i < len, _))

def Subnet.Holds (s : Subnet) (ip : BitVec 32) : Prop := Agree s.len s.ip ip

instance (s : Subnet) (ip : BitVec 32) : Decidable (s.Holds ip) := inferInstanceAs (Decidable (Agree _ _ _))

def Inside (a b : Subnet) : Prop := a.len < b.len ∧ Agree a.len a.ip b.ip

def Apart (a b : Subnet) : Prop := ¬Agree (min a.len b.len) a.ip b.ip

def Same (a b : Subnet) : Prop := a.len = b.len ∧ Agree a.len a.ip b.ip

theorem Agree.symm (agree : Agree len a b) : Agree len b a := fun i bound => (agree i bound).symm

theorem Agree.trans (first : Agree len a b) (second : Agree len b c) : Agree len a c :=
  fun i bound => (first i bound).trans (second i bound)

theorem Agree.mono (agree : Agree len a b) (le : len' ≤ len) : Agree len' a b := fun i bound => agree i (by omega)

theorem Inside.trans (first : Inside a b) (second : Inside b c) : Inside a c :=
  ⟨by have := first.1; have := second.1; omega,first.2.trans (second.2.mono (Nat.le_of_lt first.1))⟩

theorem Inside.holds (inside : Inside a b) (held : b.Holds ip) : a.Holds ip :=
  inside.2.trans (held.mono (Nat.le_of_lt inside.1))

theorem Apart.symm (apart : Apart a b) : Apart b a := fun agree => apart (Nat.min_comm b.len a.len ▸ agree.symm)

theorem Apart.separate (apart : Apart a b) : ¬(a.Holds ip ∧ b.Holds ip) := fun both =>
  apart ((both.1.mono (Nat.min_le_left _ _)).trans (both.2.mono (Nat.min_le_right _ _)).symm)

/-- What lies inside one of two subnets that are apart is apart from the other. -/
theorem Apart.inner (apart : Apart a b) (inside : Inside b c) : Apart a c := by
  intro agree
  apply apart
  have le := inside.1
  apply Agree.trans (agree.mono (by omega))
  exact (inside.2.mono (Nat.min_le_right _ _)).symm

theorem Apart.same (apart : Apart a b) (same : Same b c) : Apart a c := by
  intro agree
  apply apart
  have equal := same.1
  apply Agree.trans (agree.mono (by omega))
  exact (same.2.mono (Nat.min_le_right _ _)).symm

theorem mask_msb (positive : 0 < len) (short : len ≤ 32) (i : Nat) : (ip4mask len).getMsbD i = decide (i < len) := by
  have full : (0xFFFFFFFF#32) = BitVec.allOnes 32 := rfl
  rw [ip4mask,full,BitVec.getMsbD_shiftLeft,BitVec.getMsbD_allOnes,Nat.mod_eq_of_lt (by omega)]
  rw [decide_eq_decide]
  omega

theorem masked_eq_iff (positive : 0 < len) (short : len ≤ 32) :
    a &&& ip4mask len = b &&& ip4mask len ↔ Agree len a b := by
  constructor
  · intro equal i bound
    have bit := congrArg (fun x => x.getMsbD i) equal
    simpa only [BitVec.getMsbD_and,mask_msb positive short,bound,decide_true,Bool.and_true] using bit
  · intro agree
    apply BitVec.eq_of_getMsbD_eq
    intro i _
    rw [BitVec.getMsbD_and,BitVec.getMsbD_and,mask_msb positive short]
    by_cases bound : i < len
    · rw [agree i bound]
    · simp [bound]

/-- Lengths for which the masks are those of prefixes. -/
def Subnet.Plain (s : Subnet) : Prop := 0 < s.len ∧ s.len ≤ 32

theorem subnetCompare_spec (first : a.Plain) (second : b.Plain) :
    (subnetCompare a b = .equal ↔ Same a b) ∧ (subnetCompare a b = .firstFather ↔ Inside a b) ∧
      (subnetCompare a b = .secondFather ↔ Inside b a) ∧ (subnetCompare a b = .disjoint ↔ Apart a b) := by
  simp only [subnetCompare,masked_eq_iff first.1 first.2,masked_eq_iff second.1 second.2,Same,Inside,Apart]
  rcases Nat.lt_trichotomy a.len b.len with less | equal | more
  · by_cases agree : Agree a.len a.ip b.ip <;>
      simp [agree,less,Nat.ne_of_lt less,Nat.min_eq_left (Nat.le_of_lt less),Nat.not_lt_of_lt less]
  · by_cases agree : Agree b.len a.ip b.ip <;> simp [agree,equal]
  · have swap : Agree b.len b.ip a.ip ↔ Agree b.len a.ip b.ip := ⟨.symm,.symm⟩
    by_cases agree : Agree b.len a.ip b.ip <;>
      simp [agree,swap,more,Nat.ne_of_gt more,Nat.min_eq_right (Nat.le_of_lt more),Nat.not_lt_of_lt more]

/-! ### Insertion -/

section Loop
variable {insert : SubnetTree → SubnetTree → Option (Int × SubnetTree)}

theorem loop_disjoint {new : SubnetTree} (first : List SubnetTree)
    (disjoint : ∀ s ∈ first, subnetCompare s.label new.label = .disjoint) (before rest : List SubnetTree) :
    filterInsertLoop insert before (first ++ rest) new = filterInsertLoop insert (before ++ first) rest new := by
  induction first generalizing before with
  | nil => simp
  | cons s first ih =>
    rw [List.cons_append,filterInsertLoop,disjoint s List.mem_cons_self]
    simp only
    rw [ih fun t member => disjoint t (List.mem_cons_of_mem _ member)]
    simp

/-- Without a father and without the same subnet among the sons, the new subnet takes the sons that
lie in it and becomes the last son. -/
theorem loop_takes (n : Subnet) (taken sons before : List SubnetTree)
    (codes : ∀ s ∈ sons, subnetCompare s.label n = .disjoint ∨ subnetCompare s.label n = .secondFather)
    (appends : ∀ ts, ∀ s ∈ sons, (∃ later, taken ++ later = ts ∧ List.Sublist (later ++ [s]) sons) →
      insert (.node n ts) s = some (0,.node n (ts ++ [s]))) :
    filterInsertLoop insert before sons (.node n taken) =
      some (0,before ++ sons.filter (fun s => subnetCompare s.label n = .disjoint) ++
        [.node n (taken ++ sons.filter fun s => subnetCompare s.label n = .secondFather)]) := by
  induction sons generalizing taken before with
  | nil => simp [filterInsertLoop]
  | cons s rest ih =>
    rw [filterInsertLoop,label_node]
    cases codes s List.mem_cons_self with
    | inl disjoint =>
      rw [disjoint]
      simp only
      rw [ih taken _ (fun t member => codes t (List.mem_cons_of_mem _ member)) fun ts t member place =>
        appends ts t (List.mem_cons_of_mem _ member) (place.imp fun later found => ⟨found.1,found.2.trans (List.sublist_cons_self _ _)⟩)]
      simp [disjoint]
    | inr inner =>
      rw [inner]
      simp only
      rw [appends taken s List.mem_cons_self ⟨[],by simp,by simp⟩]
      simp only [Option.bind_some]
      rw [ih (taken ++ [s]) _ (fun t member => codes t (List.mem_cons_of_mem _ member)) fun ts t member place => ?_]
      · simp [inner]
      · obtain ⟨later,split,inside⟩ := place
        exact appends ts t (List.mem_cons_of_mem _ member) ⟨s :: later,by simp [← split],by simpa using inside⟩

end Loop

theorem Inside.not_same (inside : Inside a b) : ¬Same a b := fun same => Nat.ne_of_lt inside.1 same.1

theorem Inside.not_same' (inside : Inside b a) : ¬Same a b := fun same => Nat.ne_of_gt inside.1 same.1

theorem Apart.not_same (apart : Apart a b) : ¬Same a b := fun same => apart (same.2.mono (Nat.min_le_left _ _))

/-- A subnet that is apart from the top of a tree is apart from all of it. -/
theorem apart_labels {s : SubnetTree} (nested : Nested Inside Apart s) (apart : Apart s.label n) :
    ∀ b ∈ s.labels, Apart b n := by
  intro b member
  cases nested.labels_below (fun _ _ _ => Inside.trans) b member with
  | inl same => exact same ▸ apart
  | inr deep => exact (apart.symm.inner deep).symm

theorem inside_labels {s : SubnetTree} (nested : Nested Inside Apart s) (inside : Inside n s.label) :
    ∀ b ∈ s.labels, Inside n b := by
  intro b member
  cases nested.labels_below (fun _ _ _ => Inside.trans) b member with
  | inl same => exact same ▸ inside
  | inr deep => exact inside.trans deep

theorem filterInsert_append (fuel : Nat) (n : Subnet) (s : SubnetTree) (sons : List SubnetTree)
    (disjoint : ∀ t ∈ sons, subnetCompare t.label s.label = .disjoint) :
    filterInsert (fuel + 1) (.node n sons) s = some (0,.node n (sons ++ [s])) := by
  rw [filterInsert,sons_node,← List.append_nil sons,loop_disjoint sons disjoint]
  simp [filterInsertLoop]

/-- What an insertion into a tree does: nothing when the subnet is there, and otherwise a nested tree
with this subnet more. -/
def Inserted (t : SubnetTree) (n : Subnet) (result : Option (Int × SubnetTree)) : Prop :=
  (∃ b ∈ labelsIn t.sons, Same b n) ∧ result = some (-1,t) ∨
    (∀ b ∈ labelsIn t.sons, ¬Same b n) ∧ ∃ t', result = some (0,t') ∧ t'.label = t.label ∧
      Nested Inside Apart t' ∧ ∀ b, b ∈ labelsIn t'.sons ↔ b ∈ labelsIn t.sons ∨ b = n

section Insertion
variable {a n : Subnet} {sons first rest : List SubnetTree} {s : SubnetTree}

theorem insert_found (fuel : Nat) (nested : Nested Inside Apart (.node a (first ++ s :: rest)))
    (plain : ∀ b ∈ labelsIn (first ++ s :: rest), b.Plain) (new : n.Plain) (same : Same s.label n) :
    filterInsert (fuel + 1) (.node a (first ++ s :: rest)) (.node n []) = some (-1,.node a (first ++ s :: rest)) := by
  have brothers := (List.pairwise_append.mp nested.sons_apart).2.2
  have labels : ∀ t ∈ first ++ s :: rest, t.label.Plain := fun t member => plain _ (mem_labelsIn.mpr ⟨t,member,label_mem t⟩)
  rw [filterInsert,sons_node,loop_disjoint first,filterInsertLoop,label_node,label_node]
  · rw [(subnetCompare_spec (labels s (by simp)) new).1.mpr same]
    simp
  · intro t member
    apply (subnetCompare_spec (labels t (by simp [member])) new).2.2.2.mpr
    exact (brothers t member s List.mem_cons_self).same same

theorem insert_below (fuel : Nat) (nested : Nested Inside Apart (.node a (first ++ s :: rest)))
    (plain : ∀ b ∈ labelsIn (first ++ s :: rest), b.Plain) (new : n.Plain) (inside : Inside s.label n) :
    filterInsert (fuel + 1) (.node a (first ++ s :: rest)) (.node n []) =
      (filterInsert fuel s (.node n [])).map fun r => (r.1,.node a (first ++ r.2 :: rest)) := by
  have brothers := (List.pairwise_append.mp nested.sons_apart).2.2
  have labels : ∀ t ∈ first ++ s :: rest, t.label.Plain := fun t member => plain _ (mem_labelsIn.mpr ⟨t,member,label_mem t⟩)
  rw [filterInsert,sons_node,loop_disjoint first,filterInsertLoop,label_node,label_node]
  · rw [(subnetCompare_spec (labels s (by simp)) new).2.1.mpr inside]
    simp [Option.map_map,Function.comp_def]
  · intro t member
    apply (subnetCompare_spec (labels t (by simp [member])) new).2.2.2.mpr
    exact (brothers t member s List.mem_cons_self).inner inside

theorem insert_takes (fuel : Nat) (nested : Nested Inside Apart (.node a sons)) (plain : ∀ b ∈ labelsIn sons, b.Plain)
    (new : n.Plain) (enough : labelsIn sons ≠ [] → 0 < fuel) (sides : ∀ s ∈ sons, Apart s.label n ∨ Inside n s.label) :
    filterInsert (fuel + 1) (.node a sons) (.node n []) =
      some (0,.node a (sons.filter (fun s => subnetCompare s.label n = .disjoint) ++
        [.node n (sons.filter fun s => subnetCompare s.label n = .secondFather)])) := by
  have labels : ∀ t ∈ sons, t.label.Plain := fun t member => plain _ (mem_labelsIn.mpr ⟨t,member,label_mem t⟩)
  rw [filterInsert,sons_node,loop_takes n [] sons []]
  · simp
  · intro s member
    have spec := (subnetCompare_spec (labels s member) new).2.2
    exact (sides s member).imp spec.2.mpr spec.1.mpr
  · intro ts s member place
    obtain ⟨later,split,inside⟩ := place
    rw [List.nil_append] at split
    subst split
    obtain ⟨fuel,rfl⟩ : ∃ k, fuel = k + 1 := by
      have positive := enough (List.ne_nil_of_mem (mem_labelsIn.mpr ⟨s,member,label_mem s⟩))
      exact ⟨fuel - 1,by omega⟩
    apply filterInsert_append
    intro t earlier
    have apart := (List.pairwise_append.mp (nested.sons_apart.sublist inside)).2.2 t earlier s List.mem_cons_self
    exact (subnetCompare_spec (labels t (inside.subset (List.mem_append_left _ earlier))) (labels s member)).2.2.2.mpr apart

theorem taken_nested (nested : Nested Inside Apart (.node a sons)) (plain : ∀ b ∈ labelsIn sons, b.Plain)
    (new : n.Plain) (below : Inside a n) :
    Nested Inside Apart (.node a (sons.filter (fun s => subnetCompare s.label n = .disjoint) ++
      [.node n (sons.filter fun s => subnetCompare s.label n = .secondFather)])) := by
  have labels : ∀ t ∈ sons, t.label.Plain := fun t member => plain _ (mem_labelsIn.mpr ⟨t,member,label_mem t⟩)
  have top : Nested Inside Apart (.node n (sons.filter fun s => subnetCompare s.label n = .secondFather)) := by
    refine .node (fun t member => ?_) (fun t member => ?_) ?_
    · exact nested.sons_nested t (List.mem_of_mem_filter member)
    · obtain ⟨son,code⟩ := List.mem_filter.mp member
      exact (subnetCompare_spec (labels t son) new).2.2.1.mp (of_decide_eq_true code)
    · exact nested.sons_apart.sublist List.filter_sublist
  refine .node (fun t member => ?_) (fun t member => ?_) ?_
  · cases List.mem_append.mp member with
    | inl kept => exact nested.sons_nested t (List.mem_of_mem_filter kept)
    | inr last => exact List.mem_singleton.mp last ▸ top
  · cases List.mem_append.mp member with
    | inl kept => exact nested.sons_inside t (List.mem_of_mem_filter kept)
    | inr last => exact List.mem_singleton.mp last ▸ below
  · apply List.pairwise_append.mpr
    refine ⟨nested.sons_apart.sublist List.filter_sublist,List.pairwise_singleton _ _,?_⟩
    intro s kept t last
    obtain ⟨son,code⟩ := List.mem_filter.mp kept
    rw [List.mem_singleton.mp last]
    exact (subnetCompare_spec (labels s son) new).2.2.2.mp (of_decide_eq_true code)

theorem taken_labels (plain : ∀ b ∈ labelsIn sons, b.Plain) (new : n.Plain)
    (sides : ∀ s ∈ sons, Apart s.label n ∨ Inside n s.label) (b : Subnet) :
    b ∈ labelsIn (sons.filter (fun s => subnetCompare s.label n = .disjoint) ++
      [.node n (sons.filter fun s => subnetCompare s.label n = .secondFather)]) ↔ b ∈ labelsIn sons ∨ b = n := by
  simp only [labelsIn_append,labelsIn_cons,labels_node,labelsIn_nil,List.append_nil,List.mem_append,List.mem_cons,mem_labelsIn,
    List.mem_filter,decide_eq_true_eq]
  constructor
  · rintro (⟨s,son,member⟩ | same | ⟨s,son,member⟩)
    · exact .inl ⟨s,son.1,member⟩
    · exact .inr same
    · exact .inl ⟨s,son.1,member⟩
  · rintro (⟨s,son,member⟩ | same)
    · have spec := (subnetCompare_spec (plain _ (mem_labelsIn.mpr ⟨s,son,label_mem s⟩)) new).2.2
      cases sides s son with
      | inl apart => exact .inl ⟨s,⟨son,spec.2.mpr apart⟩,member⟩
      | inr inner => exact .inr (.inr ⟨s,⟨son,spec.1.mpr inner⟩,member⟩)
    · exact .inr (.inl same)

end Insertion

/-- A subnet in a son is not one of the subnets around this son. -/
theorem others_differ {s : SubnetTree} {first rest : List SubnetTree} (nested : Nested Inside Apart (.node a (first ++ s :: rest)))
    (inside : Inside s.label n) : ∀ b ∈ labelsIn (first ++ rest), ¬Same b n := by
  intro b member
  obtain ⟨t,place,inner⟩ := mem_labelsIn.mp member
  have brothers := List.pairwise_append.mp nested.sons_apart
  have sides : Apart t.label s.label ∧ t ∈ first ++ s :: rest := by
    cases List.mem_append.mp place with
    | inl before => exact ⟨brothers.2.2 t before s List.mem_cons_self,List.mem_append_left _ before⟩
    | inr after => exact ⟨((List.pairwise_cons.mp brothers.2.1).1 t after).symm,List.mem_append_right _ (List.mem_cons_of_mem _ after)⟩
  exact (apart_labels (nested.sons_nested t sides.2) (sides.1.inner inside) b inner).not_same

theorem filterInsert_spec (t : SubnetTree) : ∀ fuel, t.labels.length ≤ fuel → Nested Inside Apart t →
    (∀ b ∈ labelsIn t.sons, b.Plain) → n.Plain → Inside t.label n → Inserted t n (filterInsert fuel t (.node n [])) := by
  induction t using NestedTree.Tree.induction with
  | node a sons ih =>
    intro fuel enough nested plain new below
    rw [sons_node] at plain
    rw [labels_node,List.length_cons] at enough
    obtain ⟨fuel,rfl⟩ : ∃ k, fuel = k + 1 := ⟨fuel - 1,by omega⟩
    by_cases found : ∃ s ∈ sons, Same s.label n
    · obtain ⟨s,son,same⟩ := found
      have member : s.label ∈ labelsIn sons := mem_labelsIn.mpr ⟨s,son,label_mem s⟩
      obtain ⟨first,rest,rfl⟩ := List.append_of_mem son
      exact .inl ⟨⟨s.label,member,same⟩,insert_found fuel nested plain new same⟩
    by_cases father : ∃ s ∈ sons, Inside s.label n
    · obtain ⟨s,son,inside⟩ := father
      have sNested := nested.sons_nested s son
      have sPlain : ∀ b ∈ labelsIn s.sons, b.Plain := fun b member =>
        plain b (mem_labelsIn.mpr ⟨s,son,labels_eq s ▸ List.mem_cons_of_mem _ member⟩)
      obtain ⟨first,rest,rfl⟩ := List.append_of_mem son
      have size : s.labels.length ≤ fuel := by
        simp only [labelsIn_append,labelsIn_cons,List.length_append] at enough
        omega
      rw [Inserted,sons_node,insert_below fuel nested plain new inside]
      rcases ih s son fuel size sNested sPlain new inside with ⟨⟨b,member,same⟩,result⟩ | ⟨fresh,s',result,label,nested',labels'⟩
      · exact .inl ⟨⟨b,mem_labels_middle.mpr (.inr (.inr member)),same⟩,by rw [result]; rfl⟩
      · refine .inr ⟨fun b member => ?_,.node a (first ++ s' :: rest),by rw [result]; rfl,rfl,nested.replace label nested',fun b => ?_⟩
        · rcases mem_labels_middle.mp member with other | top | deep
          · exact others_differ nested inside b other
          · exact top ▸ inside.not_same
          · exact fresh b deep
        · rw [sons_node,mem_labels_middle,mem_labels_middle,label,labels']
          tauto
    · have sides : ∀ s ∈ sons, Apart s.label n ∨ Inside n s.label := by
        intro s son
        have spec := subnetCompare_spec (plain _ (mem_labelsIn.mpr ⟨s,son,label_mem s⟩)) new
        cases code : subnetCompare s.label n with
        | equal => exact absurd ⟨s,son,spec.1.mp code⟩ found
        | firstFather => exact absurd ⟨s,son,spec.2.1.mp code⟩ father
        | secondFather => exact .inr (spec.2.2.1.mp code)
        | disjoint => exact .inl (spec.2.2.2.mp code)
      refine .inr ⟨fun b member => ?_,_,insert_takes fuel nested plain new (fun some => ?_) sides,rfl,
        taken_nested nested plain new below,taken_labels plain new sides⟩
      · obtain ⟨s,son,inner⟩ := mem_labelsIn.mp member
        cases sides s son with
        | inl apart => exact (apart_labels (nested.sons_nested s son) apart b inner).not_same
        | inr inside => exact (inside_labels (nested.sons_nested s son) inside b inner).not_same'
      · have := List.length_pos_iff.mpr some
        omega

/-! ### Rules of a filter -/

/-- The memory of a filter after the subnets in `accepted` were added. -/
structure Filter.Valid (allow : Bool) (accepted : List Subnet) (f : Filter) : Prop where
  root : f.tree.label = ⟨0,0,allow⟩
  nested : Nested Inside Apart f.tree
  plain : ∀ b ∈ labelsIn f.tree.sons, b.Plain
  members : ∀ b, b ∈ labelsIn f.tree.sons ↔ b ∈ accepted

theorem root_inside (new : n.Plain) : Inside ⟨0,0,allow⟩ n := ⟨new.1,fun i bound => absurd bound (Nat.not_lt_zero i)⟩

theorem filterTreeAllocate_valid (allow : Bool) (nbSubnet : Nat) : (filterTreeAllocate allow nbSubnet).Valid allow [] where
  root := rfl
  nested := .node (by simp) (by simp) .nil
  plain := by simp [filterTreeAllocate]
  members := by simp [filterTreeAllocate]

/-- A subnet is added when the filter has room, the length fits an address and the subnet is not there. -/
theorem filterAddSubnet_spec (valid : f.Valid allow accepted) (positive : 0 < r.len) :
    ∃ ret f', filterAddSubnet f r.ip r.len r.allow = some (ret,f') ∧
      f'.Valid allow (if ret = 0 then accepted ++ [r] else accepted) ∧
      (ret = 0 ↔ 0 < f.size ∧ r.len ≤ 32 ∧ ∀ b ∈ accepted, ¬Same b r) ∧ (ret = 0 → f'.size = f.size - 1) := by
  rw [filterAddSubnet]
  by_cases full : f.size = 0
  · rw [if_pos full]
    exact ⟨_,_,rfl,valid,by simp [full],by simp⟩
  by_cases long : 32 < r.len
  · rw [if_neg full,if_pos long]
    exact ⟨_,_,rfl,valid,by simp; omega,by simp⟩
  rw [if_neg full,if_neg long]
  have new : r.Plain := ⟨positive,Nat.le_of_not_lt long⟩
  have inside : Inside f.tree.label r := valid.root ▸ root_inside new
  rcases filterInsert_spec f.tree _ (Nat.le_refl _) valid.nested valid.plain new inside with
    ⟨⟨b,member,same⟩,result⟩ | ⟨fresh,t',result,label,nested,labels⟩
  · refine ⟨-1,⟨f.size - 1,(f.next + 1) % 2 ^ 8,f.tree⟩,by rw [result]; rfl,⟨valid.root,valid.nested,valid.plain,valid.members⟩,?_,by simp⟩
    refine ⟨by simp,fun conditions => absurd same (conditions.2.2 b ((valid.members b).mp member))⟩
  · refine ⟨0,⟨f.size - 1,(f.next + 1) % 2 ^ 8,t'⟩,by rw [result]; rfl,⟨label.trans valid.root,nested,fun b member => ?_,fun b => ?_⟩,?_,fun _ => rfl⟩
    · cases (labels b).mp member with
      | inl old => exact valid.plain b old
      | inr same => exact same ▸ new
    · rw [labels,valid.members,if_pos rfl,List.mem_append,List.mem_singleton]
    · exact ⟨fun _ => ⟨by omega,by omega,fun b member => fresh b ((valid.members b).mpr member)⟩,fun _ => rfl⟩

/-- The rule of an address under a default and rules for subnets: that of the longest prefix. -/
structure Decides (allow : Bool) (rules : List Subnet) (ip : BitVec 32) (verdict : Bool) : Prop where
  longest : ∀ r ∈ rules, r.Holds ip → (∀ s ∈ rules, s.Holds ip → s.len ≤ r.len) → verdict = r.allow
  otherwise : (∀ r ∈ rules, ¬r.Holds ip) → verdict = allow

theorem compare_address {s : Subnet} (plain : s.Plain) (ip : BitVec 32) :
    (subnetCompare s ⟨ip,32,false⟩ = .firstFather || subnetCompare s ⟨ip,32,false⟩ = .equal) = decide (s.Holds ip) := by
  have spec := subnetCompare_spec plain (⟨by simp,by simp⟩ : Subnet.Plain ⟨ip,32,false⟩)
  rw [← Bool.decide_or,decide_eq_decide,spec.1,spec.2.1]
  simp only [Inside,Same,Subnet.Holds]
  have := plain.2
  constructor
  · rintro (inside | same)
    · exact inside.2
    · exact same.2
  · intro held
    cases Nat.lt_or_eq_of_le plain.2 with
    | inl less => exact .inl ⟨less,held⟩
    | inr equal => exact .inr ⟨equal,held⟩

theorem filterCheck_decides (valid : Filter.Valid allow accepted f) (ip : BitVec 32) :
    Decides allow accepted ip (filterCheck (some f.tree) ip) := by
  rw [filterCheck,filterCheckInternal,find_congr f.tree fun b member => compare_address (valid.plain b member) ip]
  have innermost := find_innermost (fun s => decide (s.Holds ip)) valid.nested (fun _ _ _ => Inside.trans)
    (fun a b inside held => decide_eq_true (inside.holds (of_decide_eq_true held)))
    fun a b apart both => apart.separate ⟨of_decide_eq_true both.1,of_decide_eq_true both.2⟩
  have good := find_good (fun s : Subnet => decide (s.Holds ip)) f.tree
  have place := find_mem (fun s : Subnet => decide (s.Holds ip)) f.tree
  rw [labels_eq,List.mem_cons,valid.members] at place
  constructor
  · intro r member held longest
    have inner := innermost r (labels_eq f.tree ▸ List.mem_cons_of_mem _ ((valid.members r).mpr member)) (decide_eq_true held)
    cases inner with
    | inl same => rw [same]
    | inr inside =>
      have less := inside.1
      rcases place with top | found
      · rw [top,valid.root] at less
        exact absurd less (Nat.not_lt_zero _)
      · cases good with
        | inl top =>
          rw [top,valid.root] at less
          exact absurd less (Nat.not_lt_zero _)
        | inr holds => exact absurd (longest _ found (of_decide_eq_true holds)) (Nat.not_le_of_lt less)
  · intro nothing
    cases good with
    | inl top => rw [top,valid.root]
    | inr holds =>
      rcases place with top | found
      · rw [top,valid.root]
      · exact absurd (of_decide_eq_true holds) (nothing _ found)

theorem addSubnets_spec (rules : List Subnet) : ∀ (f : Filter) (accepted : List Subnet), f.Valid allow accepted →
    (∀ r ∈ rules, 0 < r.len) → ∃ more f', addSubnets f rules = some (more,f') ∧ f'.Valid allow (accepted ++ more) ∧
      (rules.length ≤ f.size → (∀ r ∈ rules, r.len ≤ 32) → (accepted ++ rules).Pairwise (fun a b => ¬Same a b) → more = rules) := by
  induction rules with
  | nil =>
    intro f accepted valid _
    exact ⟨[],f,rfl,by simpa using valid,fun _ _ _ => rfl⟩
  | cons r rest ih =>
    intro f accepted valid positive
    obtain ⟨ret,f₁,added,valid₁,success,room⟩ := filterAddSubnet_spec valid (positive r List.mem_cons_self)
    obtain ⟨more,f₂,run,valid₂,all⟩ := ih f₁ _ valid₁ fun s member => positive s (List.mem_cons_of_mem _ member)
    refine ⟨if ret = 0 then r :: more else more,f₂,by rw [addSubnets,added]; simp [run],?_,?_⟩
    · split at valid₂ <;> simp_all
    · intro fits short distinct
      have fresh : ∀ b ∈ accepted, ¬Same b r := fun b member => (List.pairwise_append.mp distinct).2.2 b member r List.mem_cons_self
      have zero : ret = 0 := success.mpr ⟨by simp only [List.length_cons] at fits; omega,short r List.mem_cons_self,fresh⟩
      rw [if_pos zero,all]
      · rw [room zero]
        simp only [List.length_cons] at fits
        omega
      · exact fun s member => short s (List.mem_cons_of_mem _ member)
      · rw [if_pos zero]
        simpa using distinct

/-- Every address gets the rule of the longest prefix that was added, and all the subnets of a
configuration are added when they are different and there are no more than announced. -/
theorem longest_prefix_decides (allow : Bool) (nbSubnet : Nat) (rules : List Subnet) (positive : ∀ r ∈ rules, 0 < r.len) :
    ∃ accepted f, addSubnets (filterTreeAllocate allow nbSubnet) rules = some (accepted,f) ∧
      (∀ ip, Decides allow accepted ip (filterCheck (some f.tree) ip)) ∧
      (rules.length ≤ nbSubnet → nbSubnet < 2 ^ 8 → (∀ r ∈ rules, r.len ≤ 32) → rules.Pairwise (fun a b => ¬Same a b) →
        accepted = rules) := by
  obtain ⟨more,f,run,valid,all⟩ := addSubnets_spec rules _ [] (filterTreeAllocate_valid allow nbSubnet) positive
  refine ⟨more,f,run,fun ip => filterCheck_decides (by simpa using valid) ip,fun fits small short distinct => ?_⟩
  apply all _ short (by simpa using distinct)
  rw [filterTreeAllocate,Nat.mod_eq_of_lt small]
  exact fits

theorem longest_prefix_two : ∃ accepted f,
    addSubnets (filterTreeAllocate false 2) [⟨0x0A010000#32,16,false⟩,⟨0x0A000000#32,8,true⟩] = some (accepted,f) ∧
      (∀ ip, Decides false accepted ip (filterCheck (some f.tree) ip)) ∧
      (2 ≤ 2 → 2 < 2 ^ 8 → (∀ r ∈ [(⟨0x0A010000#32,16,false⟩ : Subnet),⟨0x0A000000#32,8,true⟩], r.len ≤ 32) →
        [(⟨0x0A010000#32,16,false⟩ : Subnet),⟨0x0A000000#32,8,true⟩].Pairwise (fun a b => ¬Same a b) →
        accepted = [⟨0x0A010000#32,16,false⟩,⟨0x0A000000#32,8,true⟩]) :=
  longest_prefix_decides false 2 _ (by decide)

end Rozofs.IpFilter
