import Rozofs.IndirectTable
import Mathlib.Data.List.GetD

/-! The arrays of an indirect pointer table as a tree, whose nodes are the prefixes of the indexes. The
table is the finite map of the pointers that were stored last and not deleted. -/
namespace Rozofs.IndirectTable
open Function (update)

/-- Bits of an index below level `i`. -/
def Template.rem (t : Template) (i : Nat) : Nat := (t.level.drop i).sum

/-- The part of an index that leads to its array of level `i`. -/
def Template.pre (t : Template) (i : Nat) (idx : BitVec 32) : Nat := idx.toNat / 2 ^ t.rem i

/-- A template whose levels are not wider than a byte and have all the indexes. -/
structure Template.Fit (t : Template) : Prop where
  some : 0 < t.levels
  narrow : ∀ bits ∈ t.level, bits ≤ 8
  whole : t.lastIdx = 2 ^ t.level.sum

theorem fit_indirectCollDistrib : indirectCollDistrib.Fit := by
  constructor <;> decide

theorem fit_namePtrDistrib : namePtrDistrib.Fit := by
  constructor <;> decide

section Indexes
variable {t : Template} {idx : BitVec 32} {i : Nat}

theorem rem_succ (low : i < t.levels) : t.rem i = t.nbBit i + t.rem (i + 1) := by
  rw [Template.rem,Template.rem,Template.nbBit,List.drop_eq_getElem_cons low,List.sum_cons,List.getD_eq_getElem _ _ low]

theorem rem_levels : t.rem t.levels = 0 := by
  rw [Template.rem,Template.levels,List.drop_length,List.sum_nil]

@[simp] theorem pre_levels : t.pre t.levels idx = idx.toNat := by
  rw [Template.pre,rem_levels,Nat.pow_zero,Nat.div_one]

/-- A prefix is the one above followed by the index in its array. -/
theorem pre_succ (low : i < t.levels) : t.pre i idx = t.pre (i + 1) idx / 2 ^ t.nbBit i := by
  rw [Template.pre,Template.pre,Nat.div_div_eq_div_mul,rem_succ low,← Nat.pow_add,Nat.add_comm]

theorem getD_indexLoop (idx : Nat) (level : List Nat) (narrow : ∀ bits ∈ level, bits ≤ 8) (low : i < level.length) :
    (indexLoop idx level.sum level).getD i 0 = idx / 2 ^ (level.drop (i + 1)).sum % 2 ^ level.getD i 0 := by
  induction level generalizing i with
  | nil => exact absurd low (Nat.not_lt_zero i)
  | cons bits rest ih =>
    have shift : (bits :: rest).sum - bits = rest.sum := by
      rw [List.sum_cons,Nat.add_sub_cancel_left]
    have small : 2 ^ bits ≤ 2 ^ 8 := Nat.pow_le_pow_right (by decide) (narrow bits List.mem_cons_self)
    rw [indexLoop,shift]
    cases i with
    | zero =>
      have below : idx / 2 ^ rest.sum % 2 ^ bits < 2 ^ bits := Nat.mod_lt _ (Nat.two_pow_pos bits)
      simp only [List.getD_cons_zero,List.drop_succ_cons,List.drop_zero,Nat.one_shiftLeft,Nat.and_two_pow_sub_one_eq_mod,
        Nat.shiftRight_eq_div_pow]
      exact Nat.mod_eq_of_lt (Nat.lt_of_lt_of_le below small)
    | succ i =>
      rw [List.getD_cons_succ,List.drop_succ_cons,List.getD_cons_succ]
      exact ih (fun b member => narrow b (List.mem_cons_of_mem _ member)) (Nat.lt_of_succ_lt_succ low)

/-- The indexes of an index in range are those of its prefixes. -/
theorem direntGetCacheIndexes_spec (fit : t.Fit) (idx : BitVec 32) :
    (t.lastIdx ≤ idx.toNat ∧ direntGetCacheIndexes idx t = none) ∨
    (t.pre 0 idx = 0 ∧ ∃ tabIdx, direntGetCacheIndexes idx t = some tabIdx ∧
      ∀ i < t.levels, tabIdx.getD i 0 = t.pre (i + 1) idx % 2 ^ t.nbBit i) := by
  have positive : 0 < t.lastIdx := by
    rw [fit.whole]
    exact Nat.two_pow_pos _
  rw [direntGetCacheIndexes]
  by_cases out : idx.toNat > t.lastIdx - 1
  · exact .inl ⟨by omega,if_pos out⟩
  · right
    constructor
    · rw [Template.pre,Template.rem,List.drop_zero,← fit.whole]
      exact Nat.div_eq_of_lt (by omega)
    · refine ⟨_,if_neg out,fun i low => ?_⟩
      rw [← List.sum_eq_foldl]
      exact getD_indexLoop idx.toNat t.level fit.narrow low

end Indexes

section Heaps
variable {heap : Heap} {p a : Addr} {cells : List CachePtr} {f : CachePtr → CachePtr}

theorem read_some (found : heap p = some cells) (low : k < cells.length) : heap.read p k = some cells[k] := by
  rw [Heap.read,found,Option.bind_some,List.getElem?_eq_getElem low]

theorem write_same (found : heap p = some cells) : heap.write p k f p = some (cells.modify k f) := by
  rw [Heap.write,Function.update_self,found,Option.map_some]

theorem write_other (apart : a ≠ p) : heap.write p k f a = heap a := Function.update_of_ne apart _ _

theorem alloc_other (apart : a ≠ p) : heap.alloc p cells a = heap a := Function.update_of_ne apart _ _

theorem free_other (apart : a ≠ p) : heap.free p a = heap a := Function.update_of_ne apart _ _

end Heaps

/-- A tree with another node or pointer at one place. -/
def graft (tree : Nat → Nat → Addr) (i q : Nat) (a : Addr) : Nat → Nat → Addr :=
  fun j r => if j = i ∧ r = q then a else tree j r

theorem graft_self (tree : Nat → Nat → Addr) (i q : Nat) (a : Addr) : graft tree i q a i q = a := if_pos ⟨rfl,rfl⟩

theorem graft_of_ne {tree : Nat → Nat → Addr} (apart : ¬(j = i ∧ r = q)) : graft tree i q a j r = tree j r := if_neg apart

/-- An array of `n` pointers whose values are those of `child`. -/
def Cells (cells : List CachePtr) (n : Nat) (child : Nat → Addr) : Prop :=
  cells.length = n ∧ ∀ k (low : k < cells.length), cells[k].val = child k

/-- The arrays are the nodes of a tree: the array of a prefix has the addresses of the prefixes that are
longer by one index. Those of the last level are the stored pointers. -/
structure Tree (t : Template) (virtHead : Addr) (heap : Heap) (tree : Nat → Nat → Addr) : Prop where
  head : virtHead ≠ 0
  root : ∀ q, tree 0 q = if q = 0 then virtHead else 0
  array : ∀ i q, i < t.levels → tree i q ≠ 0 → ∃ cells, heap (tree i q) = some cells ∧
    Cells cells (2 ^ t.nbBit i) fun k => tree (i + 1) (q * 2 ^ t.nbBit i + k)
  closed : ∀ i r, i < t.levels → tree i (r / 2 ^ t.nbBit i) = 0 → tree (i + 1) r = 0
  apart : ∀ i q j r, i < t.levels → j < t.levels → tree i q ≠ 0 → tree i q = tree j r → i = j ∧ q = r

section Trees
variable {t : Template} {virtHead : Addr} {heap : Heap} {tree : Nat → Nat → Addr}

theorem div_mul_add (r : Nat) (bits : Nat) : r / 2 ^ bits * 2 ^ bits + r % 2 ^ bits = r := Nat.div_add_mod' r _

theorem child_div (q k : Nat) (low : k < 2 ^ bits) : (q * 2 ^ bits + k) / 2 ^ bits = q := by
  rw [Nat.add_comm,Nat.add_mul_div_right _ _ (Nat.two_pow_pos bits),Nat.div_eq_of_lt low,Nat.zero_add]

theorem child_mod (q k : Nat) (low : k < 2 ^ bits) : (q * 2 ^ bits + k) % 2 ^ bits = k := by
  rw [Nat.add_comm,Nat.add_mul_mod_self_right,Nat.mod_eq_of_lt low]

/-- The entry of a node or pointer in the array above. -/
theorem Tree.entry (shape : Tree t virtHead heap tree) (low : i < t.levels) (present : tree i (r / 2 ^ t.nbBit i) ≠ 0) :
    ∃ cell, heap.read (tree i (r / 2 ^ t.nbBit i)) (r % 2 ^ t.nbBit i) = some cell ∧ cell.val = tree (i + 1) r := by
  obtain ⟨cells,found,length,values⟩ := shape.array i _ low present
  have inside : r % 2 ^ t.nbBit i < cells.length := by
    rw [length]
    exact Nat.mod_lt _ (Nat.two_pow_pos _)
  exact ⟨_,read_some found inside,(values _ inside).trans (congrArg (tree (i + 1)) (div_mul_add r _))⟩

/-- An array with one entry written. -/
theorem Cells.modify (has : Cells cells n child) (value : ∀ cell, (f cell).val = a) (same : ∀ j < n, j ≠ k → child' j = child j)
    (new : child' k = a) : Cells (cells.modify k f) n child' := by
  constructor
  · rw [List.length_modify,has.1]
  · intro j low
    rw [List.length_modify] at low
    rw [List.getElem_modify]
    by_cases here : k = j
    · rw [if_pos here,value,← here,new]
    · rw [if_neg here,has.2 j low,same j (has.1 ▸ low) (Ne.symm here)]

/-- What a change of one entry needs of the arrays around it. -/
structure Grafted (t : Template) (heap heap' : Heap) (tree : Nat → Nat → Addr) (i r : Nat) (a : Addr) : Prop where
  entry : ∃ f : CachePtr → CachePtr, (∀ cell, (f cell).val = a) ∧
    ∀ cells, heap (tree i (r / 2 ^ t.nbBit i)) = some cells → heap' (tree i (r / 2 ^ t.nbBit i)) = some (cells.modify (r % 2 ^ t.nbBit i) f)
  others : ∀ j q, j < t.levels → tree j q ≠ 0 → ¬(j = i ∧ q = r / 2 ^ t.nbBit i) → ¬(j = i + 1 ∧ q = r) →
    heap' (tree j q) = heap (tree j q)
  array : i + 1 < t.levels → a ≠ 0 → ∃ cells, heap' a = some cells ∧
    Cells cells (2 ^ t.nbBit (i + 1)) fun k => tree (i + 2) (r * 2 ^ t.nbBit (i + 1) + k)
  below : i + 1 < t.levels → a = 0 → ∀ r', r' / 2 ^ t.nbBit (i + 1) = r → tree (i + 2) r' = 0
  fresh : i + 1 < t.levels → a ≠ 0 → ∀ j q, j < t.levels → ¬(j = i + 1 ∧ q = r) → tree j q ≠ a

/-- The tree after a change of one entry. -/
theorem Tree.grafted (shape : Tree t virtHead heap tree) (low : i < t.levels) (present : tree i (r / 2 ^ t.nbBit i) ≠ 0)
    (change : Grafted t heap heap' tree i r a) : Tree t virtHead heap' (graft tree (i + 1) r a) := by
  constructor
  case head => exact shape.head
  case root =>
    intro q
    rw [graft_of_ne (by omega)]
    exact shape.root q
  case array =>
    intro j q inside some
    by_cases child : j = i + 1 ∧ q = r
    · obtain ⟨rfl,rfl⟩ := child
      rw [graft_self] at some ⊢
      obtain ⟨cells,found,has⟩ := change.array inside some
      refine ⟨cells,found,has.1,fun k small => ?_⟩
      rw [has.2 k small]
      symm
      exact graft_of_ne (by omega)
    · rw [graft_of_ne child] at some ⊢
      obtain ⟨cells,found,has⟩ := shape.array j q inside some
      by_cases parent : j = i ∧ q = r / 2 ^ t.nbBit i
      · obtain ⟨rfl,rfl⟩ := parent
        obtain ⟨f,value,written⟩ := change.entry
        refine ⟨_,written cells found,has.modify value ?_ ?_⟩
        · intro k small differ
          apply graft_of_ne
          rintro ⟨_,same⟩
          apply differ
          rw [← same,child_mod _ _ small]
        · rw [div_mul_add,graft_self]
      · refine ⟨cells,(change.others j q inside some parent child).trans found,has.1,fun k small => ?_⟩
        rw [has.2 k small]
        symm
        apply graft_of_ne
        rintro ⟨level,same⟩
        have own : j = i := by omega
        subst own
        exact parent ⟨rfl,by rw [← same,child_div _ _ (has.1 ▸ small)]⟩
  case closed =>
    intro j q inside absent
    by_cases child : j = i + 1 ∧ q / 2 ^ t.nbBit j = r
    · obtain ⟨rfl,own⟩ := child
      rw [own,graft_self] at absent
      rw [graft_of_ne (by omega)]
      exact change.below inside absent q own
    · rw [graft_of_ne child] at absent
      by_cases here : j + 1 = i + 1 ∧ q = r
      · obtain ⟨level,rfl⟩ := here
        have own : j = i := by omega
        subst own
        exact absurd absent present
      · rw [graft_of_ne here]
        exact shape.closed j q inside absent
  case apart =>
    intro j q j' q' inside inside' some same
    by_cases child : j = i + 1 ∧ q = r
    · by_cases child' : j' = i + 1 ∧ q' = r
      · exact ⟨child.1.trans child'.1.symm,child.2.trans child'.2.symm⟩
      · obtain ⟨rfl,rfl⟩ := child
        rw [graft_self] at some same
        rw [graft_of_ne child'] at same
        exact absurd same.symm (change.fresh inside some j' q' inside' child')
    · rw [graft_of_ne child] at some same
      by_cases child' : j' = i + 1 ∧ q' = r
      · obtain ⟨rfl,rfl⟩ := child'
        rw [graft_self] at same
        exact absurd same (change.fresh inside' (same ▸ some) j q inside child)
      · rw [graft_of_ne child'] at same
        exact shape.apart j q j' q' inside inside' some same

/-- Two nodes at different places are different arrays. -/
theorem Tree.differ (shape : Tree t virtHead heap tree) (low : i < t.levels) (present : tree i q ≠ 0) (inside : j < t.levels)
    (other : ¬(j = i ∧ q' = q)) : tree j q' ≠ tree i q := by
  intro same
  obtain ⟨level,own⟩ := shape.apart i q j q' low inside present same.symm
  exact other ⟨level.symm,own.symm⟩

/-- A pointer is written in an array of the last level. -/
theorem Tree.store (shape : Tree t virtHead heap tree) (last : i + 1 = t.levels) (present : tree i (r / 2 ^ t.nbBit i) ≠ 0)
    (value : ∀ cell, (f cell).val = a) :
    Tree t virtHead (heap.write (tree i (r / 2 ^ t.nbBit i)) (r % 2 ^ t.nbBit i) f) (graft tree (i + 1) r a) := by
  apply shape.grafted (by omega) present
  constructor
  case entry => exact ⟨f,value,fun cells found => write_same found⟩
  case others =>
    intro j q inside _ parent _
    exact write_other (shape.differ (by omega) present inside parent)
  all_goals exact fun inside => absurd inside (by omega)

/-- An array is allocated below another. -/
theorem Tree.alloc (shape : Tree t virtHead heap tree) (low : i + 1 < t.levels) (present : tree i (r / 2 ^ t.nbBit i) ≠ 0)
    (absent : tree (i + 1) r = 0) (free : heap a = none) (some : a ≠ 0) (value : ∀ cell, (f cell).val = a) :
    Tree t virtHead
      ((heap.alloc a (blank (1 <<< t.nbBit (i + 1)))).write (tree i (r / 2 ^ t.nbBit i)) (r % 2 ^ t.nbBit i) f)
      (graft tree (i + 1) r a) := by
  have away : ∀ j q, j < t.levels → tree j q ≠ 0 → tree j q ≠ a := by
    rintro j q inside node rfl
    obtain ⟨cells,found,_⟩ := shape.array j q inside node
    cases free.symm.trans found
  have parent := away i _ (by omega) present
  apply shape.grafted (by omega) present
  constructor
  case entry =>
    refine ⟨f,value,fun cells found => write_same ?_⟩
    rwa [alloc_other parent]
  case others =>
    intro j q inside node other _
    rw [write_other (shape.differ (by omega) present inside other),alloc_other (away j q inside node)]
  case array =>
    intro _ _
    refine ⟨blank (1 <<< t.nbBit (i + 1)),?_,?_,fun k small => ?_⟩
    · rw [write_other parent.symm]
      exact Function.update_self ..
    · rw [blank,List.length_replicate,Nat.one_shiftLeft]
    · have zero := shape.closed (i + 1) (r * 2 ^ t.nbBit (i + 1) + k) low
      rw [blank,List.length_replicate,Nat.one_shiftLeft] at small
      rw [child_div _ _ small] at zero
      refine Eq.trans ?_ (zero absent).symm
      simp only [blank,List.getElem_replicate]
  case below => exact fun _ zero => absurd zero some
  case fresh =>
    intro _ _ j q inside _ same
    exact away j q inside (same ▸ some) same

/-- An array that has no pointer is freed, and its entry in the array above is cleared. -/
theorem Tree.free (shape : Tree t virtHead heap tree) (low : i + 1 < t.levels) (present : tree i (r / 2 ^ t.nbBit i) ≠ 0)
    (node : tree (i + 1) r ≠ 0) (empty : ∀ k < 2 ^ t.nbBit (i + 1), tree (i + 2) (r * 2 ^ t.nbBit (i + 1) + k) = 0)
    (value : ∀ cell, (f cell).val = 0) :
    Tree t virtHead
      ((heap.free (tree (i + 1) r)).write (tree i (r / 2 ^ t.nbBit i)) (r % 2 ^ t.nbBit i) f) (graft tree (i + 1) r 0) := by
  apply shape.grafted (by omega) present
  constructor
  case entry =>
    refine ⟨f,value,fun cells found => write_same ?_⟩
    rwa [free_other (shape.differ low node (by omega) (by omega))]
  case others =>
    intro j q inside some parent child
    rw [write_other (shape.differ (by omega) present inside parent),free_other (shape.differ low node inside child)]
  case array => exact fun _ some => absurd rfl some
  case below =>
    rintro _ _ r' rfl
    have zero := empty (r' % 2 ^ t.nbBit (i + 1)) (Nat.mod_lt _ (Nat.two_pow_pos _))
    rwa [div_mul_add] at zero
  case fresh => exact fun _ some => absurd rfl some

/-- The arrays below one that is not there are not there, and no pointer is stored below it. -/
theorem Tree.absent (shape : Tree t virtHead heap tree) (n : Nat) (inside : i + n ≤ t.levels) (zero : tree i (t.pre i idx) = 0) :
    tree (i + n) (t.pre (i + n) idx) = 0 := by
  induction n with
  | zero => exact zero
  | succ n ih =>
    have above := ih (by omega)
    rw [pre_succ (by omega)] at above
    exact shape.closed (i + n) _ (by omega) above

/-- A table without arrays below the first. -/
theorem Tree.start (place : virtHead ≠ 0) (empty : heap virtHead = some (blank (1 <<< t.nbBit 0))) :
    Tree t virtHead heap fun i q => if i = 0 ∧ q = 0 then virtHead else 0 := by
  have inner : ∀ i q, (if i + 1 = 0 ∧ q = 0 then virtHead else 0) = 0 := fun i q => if_neg (by omega)
  constructor
  case head => exact place
  case root =>
    intro q
    simp only [true_and]
  case array =>
    intro i q _ present
    by_cases here : i = 0 ∧ q = 0
    · obtain ⟨rfl,rfl⟩ := here
      refine ⟨_,empty,?_,fun k _ => ?_⟩
      · rw [blank,List.length_replicate,Nat.one_shiftLeft]
      · refine Eq.trans ?_ (inner 0 _).symm
        simp only [blank,List.getElem_replicate]
    · exact absurd (if_neg here) present
  case closed => exact fun i r _ _ => inner i r
  case apart =>
    intro i q j r _ _ present same
    by_cases here : i = 0 ∧ q = 0
    · by_cases there : j = 0 ∧ r = 0
      · exact ⟨here.1.trans there.1.symm,here.2.trans there.2.symm⟩
      · rw [if_neg there] at same
        exact absurd same present
    · exact absurd (if_neg here) present

end Trees

section Operations
variable {t : Template} {virtHead : Addr} {heap : Heap} {tree : Nat → Nat → Addr} {idx : BitVec 32} {tabIdx : List Nat}

/-- The table has the indexes of the prefixes of `idx`. -/
def Leads (t : Template) (idx : BitVec 32) (tabIdx : List Nat) : Prop :=
  ∀ i < t.levels, tabIdx.getD i 0 = t.pre (i + 1) idx % 2 ^ t.nbBit i

/-- One step along the path of an index. -/
theorem Tree.step (shape : Tree t virtHead heap tree) (leads : Leads t idx tabIdx) (low : i < t.levels)
    (present : tree i (t.pre i idx) ≠ 0) :
    ∃ cell, heap.read (tree i (t.pre i idx)) (tabIdx.getD i 0) = some cell ∧ cell.val = tree (i + 1) (t.pre (i + 1) idx) := by
  rw [leads i low]
  rw [pre_succ low] at present ⊢
  exact shape.entry low present

/-- The arrays on the path of an index are made. -/
theorem storeLoop_spec (leads : Leads t idx tabIdx) (alloc : Allocator) (n i : Nat) (depth : i + n + 1 = t.levels)
    (shape : Tree t virtHead heap tree) (present : tree i (t.pre i idx) ≠ 0) :
    match storeLoop alloc t tabIdx n i heap (tree i (t.pre i idx)) with
    | none => False
    | some (_,none) => True
    | some (heap',some p) => ∃ tree', Tree t virtHead heap' tree' ∧ tree' t.levels = tree t.levels ∧
        p = tree' (t.levels - 1) (t.pre (t.levels - 1) idx) ∧ p ≠ 0 := by
  induction n generalizing i heap tree with
  | zero =>
    rw [storeLoop]
    have last : t.levels - 1 = i := by omega
    exact ⟨tree,shape,rfl,by rw [last],present⟩
  | succ n ih =>
    obtain ⟨cell,found,value⟩ := shape.step leads (by omega) present
    simp only [storeLoop,found]
    by_cases missing : cell.val = 0
    · rw [if_pos missing]
      cases memory : alloc.malloc heap ((1 <<< t.nbBit (i + 1)) * 8) with
      | none => trivial
      | some a =>
        obtain ⟨free,some⟩ := alloc.fresh _ _ _ memory
        rw [value] at missing
        have above := present
        rw [pre_succ (show i < t.levels by omega)] at above
        have grown := shape.alloc (f := fun cell => { cell with val := a }) (by omega) above missing free some fun _ => rfl
        rw [← pre_succ (show i < t.levels by omega),← leads i (by omega)] at grown
        have self := graft_self tree (i + 1) (t.pre (i + 1) idx) a
        have rest := ih (i + 1) (by omega) grown (by rwa [self])
        rw [self] at rest
        simp only
        split at rest
        · exact rest
        · trivial
        · obtain ⟨tree',shape',same,place,node⟩ := rest
          refine ⟨tree',shape',?_,place,node⟩
          rw [same]
          funext r
          exact graft_of_ne (by omega)
    · rw [if_neg missing,value]
      rw [value] at missing
      exact ih (i + 1) (by omega) shape missing

/-- The arrays on the path of an index, or there is no pointer for it. -/
theorem followLoop_spec (shape : Tree t virtHead heap tree) (leads : Leads t idx tabIdx) (n i : Nat) (depth : i + n + 1 = t.levels)
    (ptrTab : List Addr) (present : tree i (t.pre i idx) ≠ 0) :
    match followLoop heap tabIdx n i ptrTab (tree i (t.pre i idx)) with
    | none => False
    | some none => tree t.levels idx.toNat = 0
    | some (some (ptrTab',p)) => p = tree (t.levels - 1) (t.pre (t.levels - 1) idx) ∧ p ≠ 0 ∧
        ptrTab' = ptrTab ++ (List.range' i n).map fun j => tree j (t.pre j idx) := by
  induction n generalizing i ptrTab with
  | zero =>
    rw [followLoop]
    have last : t.levels - 1 = i := by omega
    exact ⟨by rw [last],present,(List.append_nil _).symm⟩
  | succ n ih =>
    obtain ⟨cell,found,value⟩ := shape.step leads (by omega) present
    simp only [followLoop,found]
    by_cases missing : cell.val = 0
    · rw [if_pos missing]
      rw [value] at missing
      have none := shape.absent (n + 1) (by omega) missing
      rwa [show i + 1 + (n + 1) = t.levels by omega,pre_levels] at none
    · rw [if_neg missing,value]
      rw [value] at missing
      have rest := ih (i + 1) (by omega) (ptrTab ++ [tree i (t.pre i idx)]) missing
      rwa [List.append_assoc,List.singleton_append] at rest

theorem Tree.outside (shape : Tree t virtHead heap tree) (fit : t.Fit) (out : t.lastIdx ≤ idx.toNat) : tree t.levels idx.toNat = 0 := by
  have away : t.pre 0 idx ≠ 0 := by
    rw [Template.pre,Template.rem,List.drop_zero,← fit.whole]
    apply Nat.pos_iff_ne_zero.mp
    apply Nat.div_pos out
    rw [fit.whole]
    exact Nat.two_pow_pos _
  have none := shape.absent t.levels (by omega) ((shape.root _).trans (if_neg away))
  rwa [Nat.zero_add,pre_levels] at none

theorem Tree.at_root (shape : Tree t virtHead heap tree) (first : t.pre 0 idx = 0) : tree 0 (t.pre 0 idx) = virtHead :=
  (shape.root _).trans (if_pos first)

/-- The pointer that is found for an index. -/
theorem direntCacheGetPtr_spec (fit : t.Fit) (shape : Tree t virtHead heap tree) (idx : BitVec 32) :
    direntCacheGetPtr t virtHead idx heap = some (tree t.levels idx.toNat) := by
  have levels := fit.some
  rw [direntCacheGetPtr]
  obtain ⟨out,none⟩ | ⟨first,tabIdx,indexes,leads⟩ := direntGetCacheIndexes_spec fit idx
  · rw [none,shape.outside fit out]
  · have root := shape.at_root first
    have path := followLoop_spec shape leads (t.levels - 1) 0 (by omega) [] (root ▸ shape.head)
    rw [root] at path
    simp only [indexes]
    cases result : followLoop heap tabIdx (t.levels - 1) 0 [] virtHead with
    | none =>
      rw [result] at path
      exact path.elim
    | some ended =>
      rw [result] at path
      cases ended with
      | none => exact congrArg some path.symm
      | some arrays =>
        obtain ⟨place,node,_⟩ := path
        rw [place] at node
        obtain ⟨cell,found,value⟩ := shape.step leads (by omega) node
        simp only [place,found,Option.map_some,value]
        rw [Nat.sub_add_cancel levels,pre_levels]

/-- A pointer is stored for an index in range, unless there is no memory. -/
theorem direntCacheStorePtr_spec (fit : t.Fit) (shape : Tree t virtHead heap tree) (alloc : Allocator) (idx : BitVec 32) (ptr : Addr) :
    ∃ heap' r, direntCacheStorePtr alloc t virtHead idx ptr heap = some (heap',r) ∧ (r.errno ≠ some .enomem →
      ∃ tree', Tree t virtHead heap' tree' ∧ ∀ i : BitVec 32, tree' t.levels i.toNat =
        if i = idx ∧ idx.toNat < t.lastIdx then ptr else tree t.levels i.toNat) := by
  have levels := fit.some
  rw [direntCacheStorePtr]
  obtain ⟨out,none⟩ | ⟨first,tabIdx,indexes,leads⟩ := direntGetCacheIndexes_spec fit idx
  · rw [none]
    refine ⟨_,_,rfl,fun _ => ⟨tree,shape,fun i => ?_⟩⟩
    rw [if_neg (by omega)]
  · have root := shape.at_root first
    have inside : idx.toNat < t.lastIdx := by
      rw [fit.whole]
      rw [Template.pre,Template.rem,List.drop_zero] at first
      exact (Nat.div_eq_zero_iff_lt (Nat.two_pow_pos _)).mp first
    have made := storeLoop_spec leads alloc (t.levels - 1) 0 (by omega) shape (root ▸ shape.head)
    rw [root] at made
    simp only [indexes]
    cases result : storeLoop alloc t tabIdx (t.levels - 1) 0 heap virtHead with
    | none =>
      rw [result] at made
      exact made.elim
    | some ended =>
      obtain ⟨heap',array⟩ := ended
      rw [result] at made
      cases array with
      | none => exact ⟨_,_,rfl,fun memory => absurd rfl memory⟩
      | some p =>
        obtain ⟨tree',shape',same,place,node⟩ := made
        rw [place] at node
        obtain ⟨cell,found,value⟩ := shape'.step leads (by omega) node
        have last : t.levels - 1 + 1 = t.levels := Nat.sub_add_cancel levels
        have above := node
        rw [pre_succ (show t.levels - 1 < t.levels by omega)] at above
        have stored := shape'.store (f := fun _ => { val := ptr, dirty := true, rd := false }) last above fun _ => rfl
        rw [← pre_succ (show t.levels - 1 < t.levels by omega),← leads _ (show t.levels - 1 < t.levels by omega),last,pre_levels] at stored
        simp only [place,found]
        refine ⟨_,_,rfl,fun _ => ⟨_,stored,fun i => ?_⟩⟩
        by_cases own : i = idx
        · rw [own,graft_self,if_pos ⟨rfl,inside⟩]
        · have apart : ¬i.toNat = idx.toNat := fun eq => own (BitVec.eq_of_toNat_eq eq)
          rw [graft_of_ne fun both => apart both.2,if_neg fun both => own both.1,same]

/-- An array is empty when the search finds no entry in use. -/
theorem emptyLoop_spec {cells : List CachePtr} (found : heap p = some cells) (n k : Nat) (inside : k + n ≤ cells.length) :
    ∃ empty, emptyLoop heap p n k = some empty ∧
      (empty = true → ∀ j, k ≤ j → (low : j < k + n) → (cells.get ⟨j,Nat.lt_of_lt_of_le low inside⟩).val = 0) := by
  induction n generalizing k with
  | zero => exact ⟨true,rfl,fun _ j above low => absurd low (by omega)⟩
  | succ n ih =>
    obtain ⟨empty,rest,zero⟩ := ih (k + 1) (by omega)
    simp only [emptyLoop,read_some found (show k < cells.length by omega)]
    by_cases used : cells[k].val = 0
    · rw [if_neg (not_not.mpr used)]
      refine ⟨empty,rest,fun all j above low => ?_⟩
      by_cases here : j = k
      · subst here
        exact used
      · exact zero all j (by omega) (by omega)
    · rw [if_pos used]
      exact ⟨false,rfl,fun no => absurd no Bool.false_ne_true⟩

/-- Arrays that have become empty are freed; the pointers that are stored stay. -/
theorem freeLoop_spec (leads : Leads t idx tabIdx) (ptrTab : List Addr) (n i : Nat) (depth : n + i + 1 = t.levels)
    (shape : Tree t virtHead heap tree) (present : tree n (t.pre n idx) ≠ 0)
    (path : ∀ j < n, ptrTab[j]? = some (tree j (t.pre j idx))) :
    ∃ heap' tree', freeLoop t tabIdx ptrTab n i heap (tree n (t.pre n idx)) = some heap' ∧ Tree t virtHead heap' tree' ∧
      tree' t.levels = tree t.levels := by
  induction n generalizing i heap tree with
  | zero => exact ⟨heap,tree,rfl,shape,rfl⟩
  | succ n ih =>
    obtain ⟨cells,array,has⟩ := shape.array (n + 1) _ (by omega) present
    have size : 1 <<< t.nbBit (t.levels - 1 - i) = cells.length := by
      rw [has.1,Nat.one_shiftLeft,show t.levels - 1 - i = n + 1 by omega]
    obtain ⟨empty,search,zero⟩ := emptyLoop_spec array (1 <<< t.nbBit (t.levels - 1 - i)) 0 (by omega)
    simp only [freeLoop,search]
    cases empty with
    | false => exact ⟨heap,tree,rfl,shape,rfl⟩
    | true =>
      have above : tree n (t.pre n idx) ≠ 0 := fun none => present (shape.absent 1 (by omega) none)
      obtain ⟨cell,found,_⟩ := shape.step leads (by omega) above
      have parent : tree n (t.pre n idx) ≠ tree (n + 1) (t.pre (n + 1) idx) := shape.differ (by omega) present (by omega) (by omega)
      have kept : (heap.free (tree (n + 1) (t.pre (n + 1) idx))).read (tree n (t.pre n idx)) (tabIdx.getD n 0) = some cell := by
        rw [← found,Heap.read,Heap.read,free_other parent]
      have clear : ∀ k < 2 ^ t.nbBit (n + 1), tree (n + 2) (t.pre (n + 1) idx * 2 ^ t.nbBit (n + 1) + k) = 0 := by
        intro k low
        rw [← has.1] at low
        exact (has.2 k low).symm.trans (zero rfl k (Nat.zero_le k) (by omega))
      have above' := above
      rw [pre_succ (show n < t.levels by omega)] at above'
      have freed := shape.free (f := fun cell => { cell with val := 0 }) (by omega) above' present clear fun _ => rfl
      rw [← pre_succ (show n < t.levels by omega),← leads n (by omega)] at freed
      have stays : ∀ j ≤ n, graft tree (n + 1) (t.pre (n + 1) idx) 0 j (t.pre j idx) = tree j (t.pre j idx) :=
        fun j low => graft_of_ne (by omega)
      obtain ⟨heap',tree',rest,shape',same⟩ := ih (i + 1) (by omega) freed (by rwa [stays n (Nat.le_refl n)])
        fun j low => by rw [stays j (Nat.le_of_lt low),path j (by omega)]
      rw [stays n (Nat.le_refl n)] at rest
      simp only [show t.levels - 2 - i = n by omega,path n (Nat.lt_succ_self n),kept]
      refine ⟨heap',tree',rest,shape',same.trans ?_⟩
      funext r
      exact graft_of_ne (by omega)

/-- A pointer is deleted when it is the one that is stored. -/
theorem direntCacheDelPtr_spec (fit : t.Fit) (shape : Tree t virtHead heap tree) (idx : BitVec 32) (ptr : Addr) :
    ∃ heap' r tree', direntCacheDelPtr t virtHead idx ptr heap = some (heap',r) ∧ Tree t virtHead heap' tree' ∧
      ∀ i : BitVec 32, tree' t.levels i.toNat =
        if i = idx ∧ tree t.levels idx.toNat = ptr then 0 else tree t.levels i.toNat := by
  have levels := fit.some
  -- nothing is stored for the index
  have none_stored : tree t.levels idx.toNat = 0 → ∀ i : BitVec 32, tree t.levels i.toNat =
      if i = idx ∧ tree t.levels idx.toNat = ptr then 0 else tree t.levels i.toNat := by
    intro zero i
    split
    · next both => rw [both.1,zero]
    · rfl
  rw [direntCacheDelPtr]
  obtain ⟨out,none⟩ | ⟨first,tabIdx,indexes,leads⟩ := direntGetCacheIndexes_spec fit idx
  · rw [none]
    exact ⟨_,_,tree,rfl,shape,none_stored (shape.outside fit out)⟩
  · have root := shape.at_root first
    have arrays := followLoop_spec shape leads (t.levels - 1) 0 (by omega) [] (root ▸ shape.head)
    rw [root] at arrays
    simp only [indexes]
    cases result : followLoop heap tabIdx (t.levels - 1) 0 [] virtHead with
    | none =>
      rw [result] at arrays
      exact arrays.elim
    | some ended =>
      rw [result] at arrays
      cases ended with
      | none => exact ⟨_,_,tree,rfl,shape,none_stored arrays⟩
      | some last =>
        obtain ⟨ptrTab,p⟩ := last
        obtain ⟨place,node,tab⟩ := arrays
        rw [place] at node
        obtain ⟨cell,found,value⟩ := shape.step leads (by omega) node
        have top : t.levels - 1 + 1 = t.levels := Nat.sub_add_cancel levels
        rw [top,pre_levels] at value
        simp only [place,found]
        by_cases other : ptr = cell.val
        · rw [if_neg (not_not.mpr other)]
          have above := node
          rw [pre_succ (show t.levels - 1 < t.levels by omega)] at above
          have cleared := shape.store (f := fun _ => { val := 0, dirty := true, rd := false }) top above fun _ => rfl
          rw [← pre_succ (show t.levels - 1 < t.levels by omega),← leads _ (show t.levels - 1 < t.levels by omega),top,pre_levels] at cleared
          have stays : ∀ j < t.levels, graft tree t.levels idx.toNat 0 j (t.pre j idx) = tree j (t.pre j idx) :=
            fun j low => graft_of_ne (by omega)
          obtain ⟨heap',tree',freed,shape',same⟩ := freeLoop_spec leads ptrTab (t.levels - 1) 0 (by omega) cleared
            (by rwa [stays _ (by omega)]) fun j low => by
              rw [stays j (by omega),tab,List.nil_append,List.getElem?_map,List.getElem?_range' low,Option.map_some,Nat.zero_add,Nat.one_mul]
          rw [stays _ (by omega)] at freed
          refine ⟨heap',0,tree',by rw [freed]; rfl,shape',fun i => ?_⟩
          rw [same]
          by_cases own : i = idx
          · rw [own,graft_self,if_pos ⟨rfl,by rw [other,value]⟩]
          · have apart : ¬i.toNat = idx.toNat := fun eq => own (BitVec.eq_of_toNat_eq eq)
            rw [graft_of_ne fun both => apart both.2,if_neg fun both => own both.1]
        · rw [if_pos other]
          refine ⟨_,_,tree,rfl,shape,fun i => ?_⟩
          rw [if_neg]
          rintro ⟨_,same⟩
          exact other (same.symm.trans value.symm)

end Operations

/-- The entry of the arrays that belongs to an index, when its arrays are there. -/
def slot (t : Template) (virtHead : Addr) (heap : Heap) (idx : BitVec 32) : Option (Addr × Nat) :=
  match direntGetCacheIndexes idx t with
  | none => none
  | some tabIdx =>
    match followLoop heap tabIdx (t.levels - 1) 0 [] virtHead with
    | some (some (_,p)) => some (p,tabIdx.getD (t.levels - 1) 0)
    | _ => none

/-- The entry of an index is in the array of its prefix. -/
theorem slot_some {t : Template} {virtHead : Addr} {heap : Heap} {tree : Nat → Nat → Addr} {idx : BitVec 32} (fit : t.Fit)
    (shape : Tree t virtHead heap tree) (found : slot t virtHead heap idx = some (p,k)) :
    p = tree (t.levels - 1) (idx.toNat / 2 ^ t.nbBit (t.levels - 1)) ∧ p ≠ 0 ∧ k = idx.toNat % 2 ^ t.nbBit (t.levels - 1) := by
  have levels := fit.some
  have last : t.levels - 1 + 1 = t.levels := Nat.sub_add_cancel levels
  have own : t.pre (t.levels - 1) idx = idx.toNat / 2 ^ t.nbBit (t.levels - 1) := by
    rw [pre_succ (by omega),last,pre_levels]
  rw [slot] at found
  obtain ⟨_,none⟩ | ⟨first,tabIdx,indexes,leads⟩ := direntGetCacheIndexes_spec fit idx
  · rw [none] at found
    cases found
  · have root := shape.at_root first
    have path := followLoop_spec shape leads (t.levels - 1) 0 (by omega) [] (root ▸ shape.head)
    rw [root] at path
    simp only [indexes] at found
    split at found
    · next result =>
      rw [result] at path
      cases found
      rw [leads _ (by omega),last,pre_levels,← own]
      exact ⟨path.1,path.2.1,rfl⟩
    · cases found

/-- The operations on a table. The memory that a store may take is its own. -/
inductive Op where
  | store (alloc : Allocator) (idx : BitVec 32) (ptr : Addr)
  | get (idx : BitVec 32)
  | del (idx : BitVec 32) (ptr : Addr)

/-- A table. What is observed of it: the pointer that was stored last for an index in range, and not
deleted since. -/
structure State where
  heap : Heap
  held : BitVec 32 → Addr

/-- One operation; without a result it has left the arrays. -/
def step (t : Template) (virtHead : Addr) (op : Op) (st : State) : Option State :=
  match op with
  | .store alloc idx ptr => (direntCacheStorePtr alloc t virtHead idx ptr st.heap).map fun r =>
      ⟨r.1,if idx.toNat < t.lastIdx then update st.held idx ptr else st.held⟩
  | .get idx => (direntCacheGetPtr t virtHead idx st.heap).map fun _ => st
  | .del idx ptr => (direntCacheDelPtr t virtHead idx ptr st.heap).map fun r =>
      ⟨r.1,if st.held idx = ptr then update st.held idx 0 else st.held⟩

/-- Memory is not exhausted. -/
def Memory (t : Template) (virtHead : Addr) (st : State) : Op → Prop
  | .store alloc idx ptr => ∀ heap r, direntCacheStorePtr alloc t virtHead idx ptr st.heap = some (heap,r) → r.errno ≠ some .enomem
  | _ => True

/-- The tree of the arrays holds the pointers. -/
def Holds (t : Template) (virtHead : Addr) (st : State) : Prop :=
  ∃ tree, Tree t virtHead st.heap tree ∧ ∀ idx : BitVec 32, tree t.levels idx.toNat = st.held idx

/-- An operation has a result, and the arrays hold the pointers after it. -/
theorem holds_step {t : Template} {virtHead : Addr} {st : State} (fit : t.Fit) (holds : Holds t virtHead st) (op : Op)
    (memory : Memory t virtHead st op) : ∃ st', step t virtHead op st = some st' ∧ Holds t virtHead st' := by
  obtain ⟨tree,shape,stored⟩ := holds
  cases op with
  | store alloc idx ptr =>
    obtain ⟨heap,r,result,kept⟩ := direntCacheStorePtr_spec fit shape alloc idx ptr
    obtain ⟨tree',shape',same⟩ := kept (memory heap r result)
    refine ⟨_,congrArg (Option.map _) result,tree',shape',fun i => ?_⟩
    rw [same,stored]
    by_cases inside : idx.toNat < t.lastIdx
    · simp only [inside,and_true,if_true]
      by_cases own : i = idx
      · rw [if_pos own,own,Function.update_self]
      · rw [if_neg own,Function.update_of_ne own]
    · simp only [inside,and_false,if_false]
  | get idx =>
    refine ⟨st,?_,tree,shape,stored⟩
    rw [step,direntCacheGetPtr_spec fit shape idx]
    rfl
  | del idx ptr =>
    obtain ⟨heap,r,tree',result,shape',same⟩ := direntCacheDelPtr_spec fit shape idx ptr
    refine ⟨_,congrArg (Option.map _) result,tree',shape',fun i => ?_⟩
    rw [same,stored,stored]
    by_cases inside : st.held idx = ptr
    · simp only [inside,and_true,if_true]
      by_cases own : i = idx
      · rw [if_pos own,own,Function.update_self]
      · rw [if_neg own,Function.update_of_ne own]
    · simp only [inside,and_false,if_false]

/-- After every sequence of operations on one of the two tables, a get gives the pointer stored last for the
index and not deleted since, the entries of two indexes are different, and the next operation stays in the
arrays. -/
theorem indirect_tables_are_maps (t : Template) (known : t = indirectCollDistrib ∨ t = namePtrDistrib) (virtHead : Addr)
    (heap : Heap) (place : virtHead ≠ 0) (empty : heap virtHead = some (blank (1 <<< t.nbBit 0)))
    (run : Machine.Run (step t virtHead) (Memory t virtHead) ⟨heap,fun _ => 0⟩ st) :
    (∀ idx, direntCacheGetPtr t virtHead idx st.heap = some (st.held idx)) ∧
    (∀ idx idx' s, slot t virtHead st.heap idx = some s → slot t virtHead st.heap idx' = some s → idx = idx') ∧
    ∀ op, Memory t virtHead st op → (step t virtHead op st).isSome = true := by
  have fit : t.Fit := by
    obtain rfl | rfl := known
    · exact fit_indirectCollDistrib
    · exact fit_namePtrDistrib
  have levels := fit.some
  have start : Holds t virtHead ⟨heap,fun _ => 0⟩ := ⟨_,Tree.start place empty,fun idx => if_neg (by omega)⟩
  have holds := run.invariant (Holds t virtHead) start fun s op s' holds memory next => by
    obtain ⟨s'',result,after⟩ := holds_step fit holds op memory
    cases next.symm.trans result
    exact after
  obtain ⟨tree,shape,stored⟩ := holds
  refine ⟨fun idx => ?_,fun idx idx' s first second => ?_,fun op memory => ?_⟩
  · rw [direntCacheGetPtr_spec fit shape,stored]
  · obtain ⟨p,k⟩ := s
    obtain ⟨place,node,index⟩ := slot_some fit shape first
    obtain ⟨place',_,index'⟩ := slot_some fit shape second
    have prefixes := (shape.apart _ _ _ _ (by omega) (by omega) (place ▸ node) (place.symm.trans place')).2
    apply BitVec.eq_of_toNat_eq
    rw [← div_mul_add idx.toNat (t.nbBit (t.levels - 1)),prefixes,← index,index',div_mul_add]
  · obtain ⟨st',result,_⟩ := holds_step fit ⟨tree,shape,stored⟩ op memory
    rw [result]
    rfl

/-- Memory with room for two arrays. -/
def twoArrays : Allocator where
  malloc heap _ := [0x1000#62,0x2000#62].find? fun p => (heap p).isNone
  fresh heap size p found := by
    have member := List.mem_of_find?_eq_some found
    constructor
    · have free : (heap p).isNone = true := @List.find?_some _ (fun p => (heap p).isNone) _ _ found
      exact Option.isNone_iff_eq_none.mp free
    · rintro rfl
      revert member
      decide

/-- Two pointers of a name array are stored, and the first one is deleted. -/
theorem indirect_tables_are_maps_names : ∃ heap st, heap 0x800#62 = some (blank (1 <<< namePtrDistrib.nbBit 0)) ∧
    Machine.Run (step namePtrDistrib 0x800#62) (Memory namePtrDistrib 0x800#62) ⟨heap,fun _ => 0⟩ st ∧
    direntCacheGetPtr namePtrDistrib 0x800#62 21#32 st.heap = some 0#62 ∧
    direntCacheGetPtr namePtrDistrib 0x800#62 22#32 st.heap = some 0x6000#62 := by
  let heap : Heap := fun p => if p = 0x800#62 then some (blank 8) else none
  have plain : ∀ {st idx ptr}, (direntCacheStorePtr twoArrays namePtrDistrib 0x800#62 idx ptr st.heap).map (fun r => r.2.errno) = some none →
      Memory namePtrDistrib 0x800#62 st (.store twoArrays idx ptr) := by
    intro st idx ptr errno heap' r result
    rw [result] at errno
    have none : r.errno = none := Option.some.inj errno
    rw [none]
    decide
  have computed : ((step namePtrDistrib 0x800#62 (.store twoArrays 21#32 0x5000#62) ⟨heap,fun _ => 0⟩).map fun st =>
      (direntCacheStorePtr twoArrays namePtrDistrib 0x800#62 22#32 0x6000#62 st.heap).map fun r => r.2.errno) = some (some none) := by
    decide +kernel
  have memory : Memory namePtrDistrib 0x800#62 ⟨heap,fun _ => 0⟩ (.store twoArrays 21#32 0x5000#62) := plain (by decide +kernel)
  have start : Holds namePtrDistrib 0x800#62 ⟨heap,fun _ => 0⟩ :=
    ⟨_,Tree.start (by decide) rfl,fun _ => if_neg fun both => absurd both.1 (by decide)⟩
  obtain ⟨first,stored,holds⟩ := holds_step fit_namePtrDistrib start _ memory
  rw [stored,Option.map_some] at computed
  have memory' : Memory namePtrDistrib 0x800#62 first (.store twoArrays 22#32 0x6000#62) := plain (Option.some.inj computed)
  obtain ⟨second,stored',holds'⟩ := holds_step fit_namePtrDistrib holds _ memory'
  obtain ⟨st,deleted,_⟩ := holds_step fit_namePtrDistrib holds' (.del 21#32 0x5000#62) trivial
  have run : Machine.Run (step namePtrDistrib 0x800#62) (Memory namePtrDistrib 0x800#62) ⟨heap,fun _ => 0⟩ st :=
    .tail (.tail (.tail .refl _ memory stored) _ memory' stored') (.del 21#32 0x5000#62) trivial deleted
  have found := (indirect_tables_are_maps namePtrDistrib (.inr rfl) 0x800#62 heap (by decide) rfl run).1
  refine ⟨heap,st,rfl,run,?_⟩
  rw [found,found]
  simp only [step] at stored stored' deleted
  obtain ⟨_,_,rfl⟩ := Option.map_eq_some_iff.mp stored
  obtain ⟨_,_,rfl⟩ := Option.map_eq_some_iff.mp stored'
  obtain ⟨_,_,rfl⟩ := Option.map_eq_some_iff.mp deleted
  exact ⟨rfl,rfl⟩

end Rozofs.IndirectTable
