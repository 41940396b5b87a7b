import Mathlib.Data.List.Induction
import Mathlib.Data.List.Perm.Basic

/-! Peeling decoders over a self-inverse commutative operation. A plan visits cells
in a fixed order; each visit takes the word at its read address as the cell's value
and combines that value into every write address. Nothing here fixes the operation,
the addresses or the shape of the plan. -/
namespace Peeling

variable {α β γ ι : Type} [DecidableEq β]

/-- Combination of all values of a list. -/
def total (op : α → α → α) (z : α) (xs : List α) : α := xs.foldr op z

def bump (op : α → α → α) (v : α) (mem : β → α) (a : β) : β → α :=
  fun b => if b = a then op (mem b) v else mem b

/-- Combine one value into each listed address. -/
def scatter (op : α → α → α) (v : α) (addrs : List β) (mem : β → α) : β → α :=
  addrs.foldl (bump op v) mem

/-- Values of `cells`, each combined into its own address. -/
def gather (op : α → α → α) (addr : ι → β) (value : ι → α) (cells : List ι) (mem : β → α) : β → α :=
  cells.foldl (fun m x => bump op (value x) m (addr x)) mem

structure Plan (ι β γ : Type) where
  read : ι → β
  writes : ι → List β
  place : ι → γ

structure State (α β γ : Type) where
  mem : β → α
  out : γ → α

def visit [DecidableEq γ] (op : α → α → α) (plan : Plan ι β γ) (s : State α β γ) (x : ι) : State α β γ :=
  let v := s.mem (plan.read x)
  ⟨scatter op v (plan.writes x) s.mem, fun g => if g = plan.place x then v else s.out g⟩

def peel [DecidableEq γ] (op : α → α → α) (plan : Plan ι β γ) (order : List ι) (s : State α β γ) : State α β γ :=
  order.foldl (visit op plan) s

variable {op : α → α → α} {z : α}

@[simp] theorem total_nil : total op z [] = z := rfl

@[simp] theorem total_cons (x : α) (xs : List α) : total op z (x :: xs) = op x (total op z xs) := rfl

theorem total_append [Std.Associative op] [Std.LawfulIdentity op z] (xs ys : List α) :
    total op z (xs ++ ys) = op (total op z xs) (total op z ys) := by
  induction xs with
  | nil => exact (Std.LawfulLeftIdentity.left_id _).symm
  | cons x xs ih => simp only [List.cons_append,total_cons,ih,@Std.Associative.assoc α op _]

theorem total_perm [Std.Associative op] [Std.Commutative op] {xs ys : List α} (same : xs.Perm ys) :
    total op z xs = total op z ys :=
  same.foldr_op_eq

/-- A word receives one contribution per occurrence of its address. -/
theorem scatter_apply [Std.Associative op] [Std.LawfulIdentity op z] (v : α) (addrs : List β)
    (mem : β → α) (b : β) :
    scatter op v addrs mem b = op (mem b) (total op z (List.replicate (addrs.count b) v)) := by
  induction addrs generalizing mem with
  | nil => exact (Std.LawfulRightIdentity.right_id _).symm
  | cons a addrs ih =>
    change scatter op v addrs (bump op v mem a) b = _
    rw [ih]
    by_cases here : b = a
    · subst b
      rw [List.count_cons_self,List.replicate_succ,total_cons,← @Std.Associative.assoc α op _]
      simp [bump]
    · rw [List.count_cons_of_ne (Ne.symm here)]
      simp [bump,here]

theorem gather_apply [Std.Associative op] [Std.LawfulIdentity op z] (addr : ι → β) (value : ι → α)
    (cells : List ι) (mem : β → α) (b : β) :
    gather op addr value cells mem b =
      op (mem b) (total op z ((cells.filter (fun x => addr x = b)).map value)) := by
  induction cells generalizing mem with
  | nil => exact (Std.LawfulRightIdentity.right_id _).symm
  | cons x cells ih =>
    change gather op addr value cells (bump op (value x) mem (addr x)) b = _
    rw [ih]
    by_cases here : addr x = b
    · simp [bump,here,@Std.Associative.assoc α op _]
    · simp [bump,here,Ne.symm here]

/-- Among distinct addresses, one is written at most once. -/
theorem count_distinct {addrs : List β} {b : β} {hit : Bool} (distinct : addrs.Nodup) (written : b ∈ addrs ↔ hit = true) :
    addrs.count b = if hit then 1 else 0 := by
  rw [distinct.count]
  exact if_congr written rfl rfl

/-- Contributions of earlier visits to one address, counted with multiplicity. -/
def contributions (plan : Plan ι β γ) (pix : γ → α) (visited : List ι) (b : β) : List α :=
  visited.flatMap fun y => List.replicate ((plan.writes y).count b) (pix (plan.place y))

/-- The condition that makes an order decodable: the word read for a cell is its value
combined with exactly what the visits before it put there. `hits x y` says that the
visit of `y` touches the word read for `x`. -/
structure Triangular (op : α → α → α) (z : α) (plan : Plan ι β γ) (pix : γ → α)
    (order : List ι) (mem : β → α) (hits : ι → ι → Bool) : Prop where
  counted : ∀ before x after, order = before ++ x :: after → ∀ y ∈ before,
    (plan.writes y).count (plan.read x) = if hits x y then 1 else 0
  word : ∀ before x after, order = before ++ x :: after →
    mem (plan.read x) =
      op (pix (plan.place x)) (total op z ((before.filter (hits x)).map fun y => pix (plan.place y)))

theorem contributions_eq (plan : Plan ι β γ) (pix : γ → α) (visited : List ι) (b : β)
    (hit : ι → Bool) (counted : ∀ y ∈ visited, (plan.writes y).count b = if hit y then 1 else 0) :
    contributions plan pix visited b = (visited.filter hit).map fun y => pix (plan.place y) := by
  induction visited with
  | nil => rfl
  | cons y visited ih =>
    have rest := ih fun x member => counted x (List.mem_cons_of_mem _ member)
    have first := counted y List.mem_cons_self
    unfold contributions at rest ⊢
    rw [List.flatMap_cons,first,rest]
    cases chosen : hit y <;> simp [chosen]

/-- Invariant of a partial run: memory has received the true values of the visited
cells, and exactly their places hold decoded values. -/
theorem peel_invariant [DecidableEq γ] [Std.Associative op] [Std.Commutative op] [Std.LawfulIdentity op z]
    (cancel : ∀ a, op a a = z) (plan : Plan ι β γ) (pix : γ → α) (hits : ι → ι → Bool)
    (s : State α β γ) (order before after : List ι) (split : order = before ++ after)
    (triangular : Triangular op z plan pix order s.mem hits) :
    (∀ b, (peel op plan before s).mem b =
      op (s.mem b) (total op z (contributions plan pix before b))) ∧
    (∀ g, (peel op plan before s).out g = if g ∈ before.map plan.place then pix g else s.out g) := by
  induction before using List.reverseRecOn generalizing after with
  | nil =>
    refine ⟨fun b => (Std.LawfulRightIdentity.right_id _).symm, fun g => ?_⟩
    simp [peel]
  | append_singleton before x ih =>
    have here : order = before ++ x :: after := by simpa using split
    obtain ⟨memory,out⟩ := ih (x :: after) here
    -- The visited contributions cancel, so the word read is the cell's own value.
    have value : (peel op plan before s).mem (plan.read x) = pix (plan.place x) := by
      rw [memory,contributions_eq plan pix before _ (hits x) (triangular.counted before x after here),
        triangular.word before x after here,@Std.Associative.assoc α op _,cancel]
      exact Std.LawfulRightIdentity.right_id _
    have run : peel op plan (before ++ [x]) s = visit op plan (peel op plan before s) x := by
      simp [peel,List.foldl_append]
    constructor
    · intro b
      rw [run]
      simp only [visit,value,scatter_apply (z := z),memory]
      simp only [contributions,List.flatMap_append,List.flatMap_cons,List.flatMap_nil,List.append_nil,
        total_append,@Std.Associative.assoc α op _]
    · intro g
      rw [run]
      simp only [visit,value,out,List.map_append,List.map_cons,List.map_nil,List.mem_append,
        List.mem_singleton]
      by_cases placed : g = plan.place x
      · simp [placed]
      · simp [placed]

/-- A triangular plan decodes every place it visits and touches no other. -/
theorem peel_out [DecidableEq γ] [Std.Associative op] [Std.Commutative op] [Std.LawfulIdentity op z]
    (cancel : ∀ a, op a a = z) (plan : Plan ι β γ) (pix : γ → α) (hits : ι → ι → Bool)
    (s : State α β γ) (order : List ι)
    (triangular : Triangular op z plan pix order s.mem hits) (g : γ) :
    (peel op plan order s).out g = if g ∈ order.map plan.place then pix g else s.out g :=
  (peel_invariant cancel plan pix hits s order order [] (by simp) triangular).2 g

end Peeling
