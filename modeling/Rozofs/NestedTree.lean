import Mathlib.Data.List.Basic
import Mathlib.Tactic.Tauto

/-! Rose trees whose sons lie inside their father and apart from each other, and the search of the
innermost node that meets a test. -/
namespace NestedTree

inductive Tree (α : Type) where
  | node (label : α) (sons : List (Tree α))

variable {α : Type}

def Tree.label : Tree α → α
  | node a _ => a

def Tree.sons : Tree α → List (Tree α)
  | node _ sons => sons

mutual
/-- The labels of a tree, the father before its sons. -/
def Tree.labels : Tree α → List α
  | .node a sons => a :: labelsIn sons

def labelsIn : List (Tree α) → List α
  | [] => []
  | t :: rest => t.labels ++ labelsIn rest
end

mutual
/-- Descends, as long as there is one, into the first son that meets the test. -/
def Tree.find (test : α → Bool) : Tree α → α
  | .node a sons => findIn test a sons

def findIn (test : α → Bool) (a : α) : List (Tree α) → α
  | [] => a
  | t :: rest => if test t.label then t.find test else findIn test a rest
end

@[simp] theorem label_node (a : α) (sons : List (Tree α)) : (Tree.node a sons).label = a := rfl

@[simp] theorem sons_node (a : α) (sons : List (Tree α)) : (Tree.node a sons).sons = sons := rfl

@[simp] theorem labels_node (a : α) (sons : List (Tree α)) : (Tree.node a sons).labels = a :: labelsIn sons := by
  rw [Tree.labels]

@[simp] theorem labelsIn_nil : labelsIn ([] : List (Tree α)) = [] := by rw [labelsIn]

@[simp] theorem labelsIn_cons (t : Tree α) (rest : List (Tree α)) : labelsIn (t :: rest) = t.labels ++ labelsIn rest := by
  rw [labelsIn]

@[simp] theorem labelsIn_append (first second : List (Tree α)) : labelsIn (first ++ second) = labelsIn first ++ labelsIn second := by
  induction first with
  | nil => rfl
  | cons t rest ih => simp [ih]

theorem label_mem (t : Tree α) : t.label ∈ t.labels := by
  cases t
  simp

theorem mem_labelsIn {sons : List (Tree α)} : b ∈ labelsIn sons ↔ ∃ t ∈ sons, b ∈ t.labels := by
  induction sons with
  | nil => simp
  | cons t rest ih => simp [ih]

theorem labels_eq (t : Tree α) : t.labels = t.label :: labelsIn t.sons := by
  cases t
  simp

theorem mem_labels_middle {first rest : List (Tree α)} {s : Tree α} :
    b ∈ labelsIn (first ++ s :: rest) ↔ b ∈ labelsIn (first ++ rest) ∨ b = s.label ∨ b ∈ labelsIn s.sons := by
  simp only [labelsIn_append,labelsIn_cons,labels_eq,List.mem_append,List.mem_cons]
  exact ⟨by tauto,by tauto⟩

@[simp] theorem find_node (test : α → Bool) (a : α) (sons : List (Tree α)) :
    (Tree.node a sons).find test = findIn test a sons := by rw [Tree.find]

@[simp] theorem findIn_nil (test : α → Bool) (a : α) : findIn test a [] = a := by rw [findIn]

@[simp] theorem findIn_cons (test : α → Bool) (a : α) (t : Tree α) (rest : List (Tree α)) :
    findIn test a (t :: rest) = if test t.label then t.find test else findIn test a rest := by rw [findIn]

/-- Induction with the hypothesis for every son. -/
theorem Tree.induction {motive : Tree α → Prop} (node : ∀ a sons, (∀ t ∈ sons, motive t) → motive (.node a sons)) :
    ∀ t, motive t
  | .node a sons => node a sons fun t _ => Tree.induction node t

/-- Every son lies inside its father, and brothers are apart. -/
inductive Nested (inside apart : α → α → Prop) : Tree α → Prop
  | node (each : ∀ t ∈ sons, Nested inside apart t) (below : ∀ t ∈ sons, inside a t.label)
      (brothers : sons.Pairwise fun s t => apart s.label t.label) : Nested inside apart (.node a sons)

section Search
variable {inside apart : α → α → Prop} {test : α → Bool} {t : Tree α}

theorem Nested.sons_nested (nested : Nested inside apart t) : ∀ s ∈ t.sons, Nested inside apart s := by
  cases nested with
  | node each _ _ => exact each

theorem Nested.sons_inside (nested : Nested inside apart t) : ∀ s ∈ t.sons, inside t.label s.label := by
  cases nested with
  | node _ below _ => exact below

theorem Nested.sons_apart (nested : Nested inside apart t) : t.sons.Pairwise fun s t => apart s.label t.label := by
  cases nested with
  | node _ _ brothers => exact brothers

/-- Another nested tree with the same label can take the place of a son. -/
theorem Nested.replace {first rest : List (Tree α)} {s s' : Tree α} (nested : Nested inside apart (.node a (first ++ s :: rest)))
    (label : s'.label = s.label) (nested' : Nested inside apart s') : Nested inside apart (.node a (first ++ s' :: rest)) := by
  have brothers := List.pairwise_append.mp nested.sons_apart
  have alone := List.pairwise_cons.mp brothers.2.1
  have place : ∀ t ∈ first ++ s' :: rest, t = s' ∨ t ∈ first ++ s :: rest := by
    intro t member
    rcases List.mem_append.mp member with before | after
    · exact .inr (List.mem_append_left _ before)
    · exact (List.mem_cons.mp after).imp id fun later => List.mem_append_right _ (List.mem_cons_of_mem _ later)
  refine .node (fun t member => ?_) (fun t member => ?_) ?_
  · rcases place t member with here | other
    · exact here ▸ nested'
    · exact nested.sons_nested t other
  · rcases place t member with here | other
    · rw [here,label]
      exact nested.sons_inside s (List.mem_append_right _ List.mem_cons_self)
    · exact nested.sons_inside t other
  · apply List.pairwise_append.mpr
    refine ⟨brothers.1,List.pairwise_cons.mpr ⟨fun t member => label ▸ alone.1 t member,alone.2⟩,?_⟩
    intro t before u after
    rcases List.mem_cons.mp after with here | after
    · rw [here,label]
      exact brothers.2.2 t before s List.mem_cons_self
    · exact brothers.2.2 t before u (List.mem_cons_of_mem _ after)

/-- The label of a tree has all its other labels inside. -/
theorem Nested.labels_below (nested : Nested inside apart t) (trans : ∀ a b c, inside a b → inside b c → inside a c) :
    ∀ b ∈ t.labels, b = t.label ∨ inside t.label b := by
  induction t using Tree.induction with
  | node a sons ih =>
    intro b member
    rw [labels_node] at member
    cases List.mem_cons.mp member with
    | inl same => exact .inl same
    | inr later =>
      obtain ⟨s,son,member⟩ := mem_labelsIn.mp later
      cases ih s son (nested.sons_nested s son) b member with
      | inl same => exact .inr (same ▸ nested.sons_inside s son)
      | inr deep => exact .inr (trans _ _ _ (nested.sons_inside s son) deep)

theorem find_mem (test : α → Bool) (t : Tree α) : t.find test ∈ t.labels := by
  induction t using Tree.induction with
  | node a sons ih =>
    rw [find_node,labels_node]
    induction sons with
    | nil => simp
    | cons s rest rest_ih =>
      rw [findIn_cons,labelsIn_cons]
      split
      · exact List.mem_cons_of_mem _ (List.mem_append_left _ (ih s List.mem_cons_self))
      · cases List.mem_cons.mp (rest_ih fun t member => ih t (List.mem_cons_of_mem _ member)) with
        | inl same => exact List.mem_cons.mpr (.inl same)
        | inr later => exact List.mem_cons_of_mem _ (List.mem_append_right _ later)

theorem findIn_none (a : α) {sons : List (Tree α)} (fails : ∀ s ∈ sons, test s.label = false) : findIn test a sons = a := by
  induction sons with
  | nil => rw [findIn_nil]
  | cons s rest ih =>
    rw [findIn_cons,if_neg (by simp [fails s List.mem_cons_self])]
    exact ih fun t member => fails t (List.mem_cons_of_mem _ member)

/-- The only son that meets the test is the one that the search descends into. -/
theorem findIn_son (a : α) {sons : List (Tree α)} {s : Tree α} (son : s ∈ sons) (good : test s.label = true)
    (brothers : sons.Pairwise fun s t => ¬(test s.label = true ∧ test t.label = true)) : findIn test a sons = s.find test := by
  induction sons with
  | nil => cases son
  | cons first rest ih =>
    obtain ⟨alone,brothers⟩ := List.pairwise_cons.mp brothers
    rw [findIn_cons]
    cases List.mem_cons.mp son with
    | inl same => rw [← same,if_pos good]
    | inr later =>
      rw [if_neg fun met => alone s later ⟨met,good⟩]
      exact ih later brothers

/-- In a nested tree the search gives the innermost of the labels that meet a test which the labels
around them meet too. -/
theorem find_innermost (test : α → Bool) (nested : Nested inside apart t) (trans : ∀ a b c, inside a b → inside b c → inside a c)
    (outer : ∀ a b, inside a b → test b = true → test a = true)
    (separate : ∀ a b, apart a b → ¬(test a = true ∧ test b = true)) :
    ∀ b ∈ t.labels, test b = true → b = t.find test ∨ inside b (t.find test) := by
  induction t using Tree.induction with
  | node a sons ih =>
    intro b member good
    rw [find_node]
    have brothers := nested.sons_apart.imp fun {s t} apart => separate s.label t.label apart
    have descend : ∀ s ∈ sons, ∀ c ∈ s.labels, test c = true → findIn test a sons = s.find test ∧ test s.label = true := by
      intro s son c inner met
      have top : test s.label = true := by
        cases (nested.sons_nested s son).labels_below trans c inner with
        | inl same => exact same ▸ met
        | inr deep => exact outer _ _ deep met
      exact ⟨findIn_son a son top brothers,top⟩
    rw [labels_node] at member
    cases List.mem_cons.mp member with
    | inr later =>
      obtain ⟨s,son,member⟩ := mem_labelsIn.mp later
      rw [(descend s son b member good).1]
      exact ih s son (nested.sons_nested s son) b member good
    | inl root =>
      subst root
      by_cases found : ∃ s ∈ sons, test s.label = true
      · obtain ⟨s,son,met⟩ := found
        rw [findIn_son b son met brothers]
        cases (nested.sons_nested s son).labels_below trans _ (find_mem test s) with
        | inl same => exact .inr (same ▸ nested.sons_inside s son)
        | inr deep => exact .inr (trans _ _ _ (nested.sons_inside s son) deep)
      · have fails : ∀ s ∈ sons, test s.label = false := fun s son => by
          cases met : test s.label with
          | false => rfl
          | true => exact absurd ⟨s,son,met⟩ found
        exact .inl (findIn_none b fails).symm

theorem find_congr {test' : α → Bool} (t : Tree α) (same : ∀ b ∈ labelsIn t.sons, test b = test' b) : t.find test = t.find test' := by
  induction t using Tree.induction with
  | node a sons ih =>
    rw [find_node,find_node]
    rw [sons_node] at same
    induction sons with
    | nil => rw [findIn_nil,findIn_nil]
    | cons s rest rest_ih =>
      rw [findIn_cons,findIn_cons,same s.label (mem_labelsIn.mpr ⟨s,List.mem_cons_self,label_mem s⟩)]
      split
      · apply ih s List.mem_cons_self
        intro b member
        exact same b (mem_labelsIn.mpr ⟨s,List.mem_cons_self,by rw [labels_eq]; exact List.mem_cons_of_mem _ member⟩)
      · apply rest_ih fun t member => ih t (List.mem_cons_of_mem _ member)
        intro b member
        obtain ⟨t,place,inner⟩ := mem_labelsIn.mp member
        exact same b (mem_labelsIn.mpr ⟨t,List.mem_cons_of_mem _ place,inner⟩)

/-- What the search gives meets the test, unless it stays at the root. -/
theorem find_good (test : α → Bool) (t : Tree α) : t.find test = t.label ∨ test (t.find test) = true := by
  induction t using Tree.induction with
  | node a sons ih =>
    rw [find_node,label_node]
    induction sons with
    | nil => exact .inl (findIn_nil test a)
    | cons s rest rest_ih =>
      rw [findIn_cons]
      split
      · rename_i met
        cases ih s List.mem_cons_self with
        | inl same => exact .inr (same ▸ met)
        | inr good => exact .inr good
      · exact rest_ih fun t member => ih t (List.mem_cons_of_mem _ member)

end Search

end NestedTree
