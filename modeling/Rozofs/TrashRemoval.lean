import Rozofs.TrashBuckets

/-! A file in the trash stays on one list until each of its storages has removed its data. -/
namespace Rozofs.Trash
open Function (update)
open CircularList (Links Family Ring)

variable {c : Config} {s s' : State} {lists : Head → List Nat} {h : Head} {id thread : Nat} {l : Links Node}

/-- The lists of entries, as linked. -/
abbrev Listed (l : Links Node) (lists : Head → List Nat) : Prop := Family l Node.head fun h => (lists h).map Node.entry

/-- The first element after the head. -/
def front (h : Head) : List Nat → Node
  | [] => .head h
  | id :: _ => .entry id

theorem next_head (listed : Listed l lists) (h : Head) : l.next (.head h) = front h (lists h) := by
  have ring := listed.ring h
  cases xs : lists h with
  | nil =>
    simp only [xs,List.map_nil] at ring
    exact ring.next_alone
  | cons a rest =>
    simp only [xs,List.map_cons] at ring
    exact ring.next_first

theorem next_front (listed : Listed l lists) (h : Head) : l.next (front h (lists h)) = front h (lists h).tail := by
  have ring := listed.ring h
  cases xs : lists h with
  | nil =>
    simp only [xs,List.map_nil] at ring
    exact ring.next_alone
  | cons a rest =>
    simp only [xs,List.map_cons] at ring
    cases rest with
    | nil => exact ring.close.1
    | cons b rest => exact (List.isChain_cons_cons.mp (List.isChain_cons_cons.mp ring.chain).2).1.1

theorem isEmpty_head (listed : Listed l lists) (h : Head) : l.isEmpty (.head h) = (lists h).isEmpty := by
  rw [(listed.ring h).isEmpty]
  cases lists h <;> rfl

theorem map_update (lists : Head → List Nat) (h : Head) (xs : List Nat) :
    (fun h' => (update lists h xs h').map Node.entry) = update (fun h' => (lists h').map Node.entry) h (xs.map Node.entry) := by
  funext h'
  by_cases here : h' = h
  · simp [here]
  · simp [here]

/-- An entry that is on no list. -/
theorem unlisted (absent : ∀ h, id ∉ lists h) (h : Head) : Node.entry id ∉ Node.head h :: (lists h).map Node.entry := by
  simpa using absent h

theorem Listed.pushBack (listed : Listed l lists) (absent : ∀ h, id ∉ lists h) :
    Listed (l.pushBack (.head h) (.entry id)) (update lists h (lists h ++ [id])) := by
  have pushed := Family.pushBack (x := h) listed (unlisted absent)
  rw [Listed,map_update,List.map_append]
  exact pushed

theorem Listed.pushFront (listed : Listed l lists) (absent : ∀ h, id ∉ lists h) :
    Listed (l.pushFront (.head h) (.entry id)) (update lists h (id :: lists h)) := by
  have pushed := Family.pushFront (x := h) listed (unlisted absent)
  rw [Listed,map_update]
  exact pushed

theorem Listed.removeFirst (listed : Listed l lists) {rest : List Nat} (first : lists h = id :: rest) :
    Listed (l.remove (.entry id)) (update lists h rest) := by
  rw [Listed,map_update]
  exact Family.removeFirst listed (by simp [first])

/-- The entries of one list go to the end of another. -/
def moved (lists : Head → List Nat) (target source : Head) : Head → List Nat :=
  update (update lists target (lists target ++ lists source)) source []

theorem Listed.move (listed : Listed l lists) (target source : Head) (different : target ≠ source) :
    Listed (l.move (.head target) (.head source)) (moved lists target source) := by
  have done := Family.move listed different
  rw [Listed,moved,map_update,map_update,List.map_append]
  exact done

theorem mem_moved {target source : Head} (different : target ≠ source) : (∃ h, id ∈ moved lists target source h) ↔ ∃ h, id ∈ lists h := by
  constructor
  · rintro ⟨h,member⟩
    by_cases last : h = source
    · simp [moved,last] at member
    · by_cases first : h = target
      · subst first
        simp only [moved,Function.update_of_ne last,Function.update_self,List.mem_append] at member
        rcases member with old | new
        · exact ⟨h,old⟩
        · exact ⟨source,new⟩
      · simp only [moved,Function.update_of_ne last,Function.update_of_ne first] at member
        exact ⟨h,member⟩
  · rintro ⟨h,member⟩
    by_cases last : h = source
    · subst last
      exact ⟨target,by simp [moved,different,member]⟩
    · refine ⟨h,?_⟩
      by_cases first : h = target
      · subst first
        simp [moved,last,member]
      · simp [moved,last,first,member]

theorem moved_other {target source : Head} (first : h ≠ target) (last : h ≠ source) : moved lists target source h = lists h := by
  simp [moved,first,last]

theorem Listed.single (listed : Listed l lists) {h' : Head} (first : id ∈ lists h) (second : id ∈ lists h') : h = h' :=
  Family.single (a := .entry id) listed (by simpa using first) (by simpa using second)

theorem Listed.nodup (listed : Listed l lists) (h : Head) : (lists h).Nodup := by
  have nodup := (List.nodup_cons.mp (listed.ring h).nodup).2
  exact List.Nodup.of_map _ nodup

/-- One more entry is on the lists. -/
theorem mem_added {xs : List Nat} (added : ∀ a, a ∈ xs ↔ a = id ∨ a ∈ lists h) (a : Nat) :
    (∃ h', a ∈ update lists h xs h') ↔ a = id ∨ ∃ h', a ∈ lists h' := by
  constructor
  · rintro ⟨h',member⟩
    by_cases here : h' = h
    · rw [here,Function.update_self,added] at member
      exact member.imp_right fun old => ⟨h,old⟩
    · rw [Function.update_of_ne here] at member
      exact .inr ⟨h',member⟩
  · rintro (own | ⟨h',member⟩)
    · exact ⟨h,by rw [Function.update_self,added]; exact .inl own⟩
    · by_cases here : h' = h
      · exact ⟨h,by rw [Function.update_self,added]; exact .inr (here ▸ member)⟩
      · exact ⟨h',by rw [Function.update_of_ne here]; exact member⟩

/-- An entry leaves the lists. -/
theorem Listed.mem_removed (listed : Listed l lists) {rest : List Nat} (first : lists h = id :: rest) (a : Nat) :
    (∃ h', a ∈ update lists h rest h') ↔ a ≠ id ∧ ∃ h', a ∈ lists h' := by
  have nodup := listed.nodup h
  rw [first,List.nodup_cons] at nodup
  have here : id ∈ lists h := by rw [first]; exact List.mem_cons_self
  constructor
  · rintro ⟨h',member⟩
    by_cases own : h' = h
    · rw [own,Function.update_self] at member
      exact ⟨fun same => nodup.1 (same ▸ member),h,by rw [first]; exact List.mem_cons_of_mem _ member⟩
    · rw [Function.update_of_ne own] at member
      exact ⟨fun same => own (listed.single (same ▸ member) here),h',member⟩
  · rintro ⟨other,h',member⟩
    by_cases own : h' = h
    · rw [own,first] at member
      exact ⟨h,by rw [Function.update_self]; exact (List.mem_cons.mp member).resolve_left other⟩
    · exact ⟨h',by rw [Function.update_of_ne own]; exact member⟩

/-- The cells of a thread: nothing is on its working lists outside a bucket, and in a bucket the
scan is at the first entry left. -/
def Placed (lists : Head → List Nat) (thread : Nat) : Option Point → Prop
  | none => lists (.todo thread) = [] ∧ lists (.failed thread) = []
  | some .buckets => lists (.todo thread) = [] ∧ lists (.failed thread) = []
  | some (.scan _ p n) => p = front (.todo thread) (lists (.todo thread)) ∧ n = front (.todo thread) (lists (.todo thread)).tail
  | some (.out _) => True

/-- The invariant of the trash. -/
structure Inv (c : Config) (s : State) (lists : Head → List Nat) : Prop where
  listed : Listed s.links lists
  live : ∀ id, (∃ h, id ∈ lists h) ↔ s.trashed id ≠ none ∧ s.finished id = false
  placed : ∀ thread, Placed lists thread ((s.pass thread).map (·.point))
  ready : ∀ thread pass, s.pass thread = some pass → pass.cnxInit = true → pass.connexions = c.client
  dist : ∀ id d, s.trashed id = some d → ∀ i, (s.entry id).currentDistSet i = d i ∨
    (s.entry id).currentDistSet i = 0 ∧ s.acknowledged id i = true
  done : ∀ id d, s.trashed id = some d → s.finished id = true → ∀ i < c.safe, d i ≠ 0 →
    (c.client (s.entry id).cid (d i)).isSome → s.acknowledged id i = true
  fresh : ∀ id, s.trashed id = none → s.finished id = false

theorem inv_initial (c : Config) : Inv c initial fun _ => [] := by
  refine ⟨⟨fun _ => ⟨.singleton _,⟨rfl,rfl⟩,List.nodup_singleton _⟩,fun x y different a first second => ?_⟩,fun _ => ?_,
    fun _ => ⟨rfl,rfl⟩,fun _ _ none => ?_,fun _ _ none => ?_,fun _ _ none => ?_,fun _ _ => rfl⟩
  · cases List.mem_singleton.mp first
    cases List.mem_singleton.mp second
    exact different rfl
  · simp [initial]
  · cases none
  · cases none
  · cases none

section Storages
variable {r r' : Removal} {connexions : Nat → Nat → Option Nat} {removed : Nat → Bool} {cid : Nat}

/-- What some turns of the loop over the storages do: a storage is cleared when it acknowledges, and
a full count means that each storage was cleared before, is unknown or has acknowledged. -/
structure Cleared (r r' : Removal) (connexions : Nat → Nat → Option Nat) (cid : Nat) (is : List Nat) : Prop where
  dist : ∀ i, r'.distSet i = r.distSet i ∨ r'.distSet i = 0 ∧ r'.acknowledged i = true
  kept : ∀ i, r.acknowledged i = true → r'.acknowledged i = true
  most : r'.sidCount ≤ r.sidCount + is.length
  all : r'.sidCount = r.sidCount + is.length → ∀ i ∈ is, r.distSet i = 0 ∨ connexions cid (r.distSet i) = none ∨ r'.acknowledged i = true

theorem cleared_storage (r : Removal) (i : Nat) : Cleared r (r.storage connexions removed cid i) connexions cid [i] := by
  unfold Removal.storage
  split
  · rename_i zero
    exact ⟨fun _ => .inl rfl,fun _ acked => acked,Nat.le_refl _,fun _ j member => .inl (List.mem_singleton.mp member ▸ zero)⟩
  · split
    · rename_i unknown
      refine ⟨fun _ => .inl rfl,fun _ acked => acked,Nat.le_refl _,fun _ j member => .inr (.inl ?_)⟩
      rw [List.mem_singleton.mp member]
      exact unknown
    · split
      · exact ⟨fun _ => .inl rfl,fun _ acked => acked,Nat.le_succ _,fun full => by simp at full⟩
      · split
        · exact ⟨fun _ => .inl rfl,fun _ acked => acked,Nat.le_succ _,fun full => by simp at full⟩
        · refine ⟨fun j => ?_,fun j acked => ?_,Nat.le_refl _,fun _ j member => .inr (.inr ?_)⟩
          · by_cases here : j = i
            · subst here
              exact .inr ⟨Function.update_self ..,Function.update_self ..⟩
            · exact .inl (Function.update_of_ne here ..)
          · by_cases here : j = i
            · simp [here]
            · simpa [here] using acked
          · simp [List.mem_singleton.mp member]

theorem Cleared.append {r₁ : Removal} {i : Nat} {is : List Nat} (first : Cleared r r₁ connexions cid [i]) (second : Cleared r₁ r' connexions cid is) :
    Cleared r r' connexions cid (i :: is) := by
  have most := first.most
  have most' := second.most
  simp only [List.length_singleton] at most
  refine ⟨fun j => ?_,fun j acked => second.kept j (first.kept j acked),?_,fun full j member => ?_⟩
  · rcases second.dist j with same | cleared
    · rcases first.dist j with same' | ⟨zero,acked⟩
      · exact .inl (same.trans same')
      · exact .inr ⟨same.trans zero,second.kept j acked⟩
    · exact .inr cleared
  · simp only [List.length_cons]
    omega
  · simp only [List.length_cons] at full
    rcases List.mem_cons.mp member with rfl | there
    · rcases first.all (by simp only [List.length_singleton]; omega) j List.mem_cons_self with zero | unknown | acked
      · exact .inl zero
      · exact .inr (.inl unknown)
      · exact .inr (.inr (second.kept j acked))
    · have later := second.all (by omega) j there
      rcases first.dist j with same | ⟨_,acked⟩
      · rw [same] at later
        exact later
      · exact .inr (.inr (second.kept j acked))

theorem cleared_storages (r : Removal) (is : List Nat) :
    Cleared r (is.foldl (fun r i => r.storage connexions removed cid i) r) connexions cid is := by
  induction is generalizing r with
  | nil => exact ⟨fun _ => .inl rfl,fun _ acked => acked,Nat.le_refl _,fun _ _ none => absurd none List.not_mem_nil⟩
  | cons i is ih => exact (cleared_storage r i).append (ih _)

end Storages

/-- The condition on a step: the set-up of the connections does not fail. -/
def Fit (_ : State) : Action → Prop
  | .scan _ o => o.setup.isNone
  | _ => True

instance (s : State) (a : Action) : Decidable (Fit s a) :=
  match a with
  | .insert .. => .isTrue trivial
  | .begin .. => .isTrue trivial
  | .bucket .. => .isTrue trivial
  | .scan _ o => inferInstanceAs (Decidable (o.setup.isNone = true))
  | .leave .. => .isTrue trivial

section Steps

/-- The lists of the other threads and the pass of this one after a step. -/
theorem placed_other {lists' : Head → List Nat} {passes : Nat → Option Pass} {pass : Option Pass}
    (before : ∀ thread, Placed lists thread ((passes thread).map (·.point)))
    (others : ∀ other, other ≠ thread → lists' (.todo other) = lists (.todo other) ∧ lists' (.failed other) = lists (.failed other))
    (own : Placed lists' thread (pass.map (·.point))) (other : Nat) :
    Placed lists' other ((update passes thread pass other).map (·.point)) := by
  by_cases here : other = thread
  · rw [here,Function.update_self]
    exact own
  · rw [Function.update_of_ne here]
    obtain ⟨todo,failed⟩ := others other here
    have same := before other
    cases point : (passes other).map (·.point) with
    | none =>
      rw [point] at same
      exact ⟨todo.trans same.1,failed.trans same.2⟩
    | some point' =>
      rw [point] at same
      cases point' with
      | buckets => exact ⟨todo.trans same.1,failed.trans same.2⟩
      | scan b p n =>
        simp only [Placed,todo]
        exact same
      | out b => trivial

/-- What an insertion does. -/
theorem Inv.insert (inv : Inv c s lists) (unused : s.trashed id = none) (bucket : Nat) (front_ : Bool) (entry : Entry)
    (stepped : step c (.insert id bucket front_ entry) s = some s') : ∃ lists', Inv c s' lists' := by
  simp only [step,unused,if_true,Option.some.injEq] at stepped
  subst stepped
  have absent : ∀ h, id ∉ lists h := fun h member => ((inv.live id).mp ⟨h,member⟩).1 unused
  have start : Listed (s.links.init (.entry id)) lists := by
    refine ⟨fun h => (inv.listed.ring h).frame fun x member => CircularList.init_same ?_,inv.listed.apart⟩
    rintro rfl
    exact unlisted absent h member
  have pushed : ∃ xs, Listed (if front_ then (s.links.init (.entry id)).pushFront (.head (.bucket bucket)) (.entry id)
      else (s.links.init (.entry id)).pushBack (.head (.bucket bucket)) (.entry id)) (update lists (.bucket bucket) xs) ∧
      ∀ a, a ∈ xs ↔ a = id ∨ a ∈ lists (.bucket bucket) := by
    cases front_ with
    | true => exact ⟨_,start.pushFront absent,fun a => List.mem_cons⟩
    | false => exact ⟨_,start.pushBack absent,fun a => by simp [or_comm]⟩
  obtain ⟨xs,listed,added⟩ := pushed
  refine ⟨_,listed,fun id' => ?_,fun thread => inv.placed thread,inv.ready,fun id' d there i => ?_,fun id' d there finished => ?_,fun id' none => ?_⟩
  · rw [mem_added added]
    by_cases own : id' = id
    · subst own
      simp [inv.fresh id' unused]
    · simp only [own,false_or,Function.update_of_ne own]
      exact inv.live id'
  · by_cases own : id' = id
    · subst own
      simp only [Function.update_self,Option.some.injEq] at there ⊢
      exact .inl (congrFun there i)
    · simp only [Function.update_of_ne own] at there ⊢
      exact inv.dist id' d there i
  · by_cases own : id' = id
    · subst own
      rw [inv.fresh id' unused] at finished
      cases finished
    · simp only [Function.update_of_ne own] at there ⊢
      exact inv.done id' d there finished
  · by_cases own : id' = id
    · simp [own] at none
    · simp only [Function.update_of_ne own] at none
      exact inv.fresh id' none

/-- The lists and the pass of one thread change, and the same entries are listed. -/
theorem Inv.relink (inv : Inv c s lists) {l : Links Node} {lists' : Head → List Nat} {pass : Option Pass} (listed : Listed l lists')
    (same : ∀ id, (∃ h, id ∈ lists' h) ↔ ∃ h, id ∈ lists h)
    (others : ∀ other, other ≠ thread → lists' (.todo other) = lists (.todo other) ∧ lists' (.failed other) = lists (.failed other))
    (own : Placed lists' thread (pass.map (·.point))) (ready : ∀ p, pass = some p → p.cnxInit = true → p.connexions = c.client) :
    Inv c { s with links := l, pass := update s.pass thread pass } lists' := by
  refine ⟨listed,fun id => (same id).trans (inv.live id),placed_other inv.placed others own,fun other p running init => ?_,inv.dist,inv.done,inv.fresh⟩
  by_cases here : other = thread
  · simp only [here,Function.update_self] at running
    exact ready p running init
  · simp only [Function.update_of_ne here] at running
    exact inv.ready other p running init

/-- Only the pass of one thread changes. -/
theorem Inv.repoint (inv : Inv c s lists) {pass : Option Pass} (own : Placed lists thread (pass.map (·.point)))
    (ready : ∀ p, pass = some p → p.cnxInit = true → p.connexions = c.client) :
    Inv c { s with pass := update s.pass thread pass } lists :=
  inv.relink inv.listed (fun _ => .rfl) (fun _ _ => ⟨rfl,rfl⟩) own ready

theorem Inv.begin (inv : Inv c s lists) {firstBucketIdx : Nat} (stepped : step c (.begin thread firstBucketIdx) s = some s') :
    Inv c s' lists := by
  simp only [step] at stepped
  split at stepped
  · rename_i idle
    cases stepped
    have placed := inv.placed thread
    rw [idle] at placed
    refine inv.repoint placed fun p running init => ?_
    cases running
    cases init
  · cases stepped

theorem Inv.bucket (inv : Inv c s lists) {now : Nat} (stepped : step c (.bucket thread now) s = some s') : ∃ lists', Inv c s' lists' := by
  simp only [step] at stepped
  split at stepped
  · rename_i pass running
    split at stepped
    · rename_i point
      have placed := inv.placed thread
      simp only [running,Option.map_some,point,Placed] at placed
      have ready := inv.ready thread pass running
      split at stepped
      · split at stepped
        · cases stepped
          refine ⟨lists,inv.repoint ?_ fun p same init => ?_⟩
          · simp only [Option.map_some,point]
            exact placed
          · cases same
            exact ready init
        · simp only [Option.some.injEq] at stepped
          subst stepped
          have todo := inv.listed.ring (.todo thread)
          have failed := inv.listed.ring (.failed thread)
          simp only [placed.1,List.map_nil] at todo
          simp only [placed.2,List.map_nil] at failed
          rw [todo.init_alone,failed.init_alone]
          have moved := inv.listed.move (.todo thread) (.bucket ((pass.idx + pass.firstBucketIdx) % c.sliceNumber)) (by simp)
          refine ⟨_,inv.relink moved (fun _ => mem_moved (by simp)) (fun other different => ?_) ?_ fun p same init => ?_⟩
          · exact ⟨moved_other (by simpa using different) (by simp),moved_other (by simp) (by simp)⟩
          · simp only [Option.map_some,Placed,next_head moved]
            exact ⟨trivial,next_front moved _⟩
          · cases same
            exact ready init
      · cases stepped
        refine ⟨lists,inv.repoint placed fun p same => ?_⟩
        cases same
    · cases stepped
  · cases stepped

theorem Inv.leave (inv : Inv c s lists) {limit : Nat} (stepped : step c (.leave thread limit) s = some s') : ∃ lists', Inv c s' lists' := by
  simp only [step] at stepped
  split at stepped
  · rename_i pass running
    split at stepped
    · rename_i bucket point
      have ready := inv.ready thread pass running
      -- both working lists are empty at the end
      have emptied : ∃ lists', Listed (s.pushBackAll thread bucket).links lists' ∧ (∀ id, (∃ h, id ∈ lists' h) ↔ ∃ h, id ∈ lists h) ∧
          (∀ other, other ≠ thread → lists' (.todo other) = lists (.todo other) ∧ lists' (.failed other) = lists (.failed other)) ∧
          lists' (.todo thread) = [] ∧ lists' (.failed thread) = [] := by
        simp only [State.pushBackAll,isEmpty_head inv.listed,List.isEmpty_iff]
        split
        · rename_i empty
          exact ⟨lists,inv.listed,fun _ => .rfl,fun _ _ => ⟨rfl,rfl⟩,empty⟩
        · have first := inv.listed.move (.todo thread) (.bucket bucket) (by simp)
          have second := first.move (.todo thread) (.failed thread) (by simp)
          have third := second.move (.bucket bucket) (.todo thread) (by simp)
          refine ⟨_,third,fun id => ?_,fun other different => ⟨?_,?_⟩,?_,?_⟩
          · rw [mem_moved (by simp),mem_moved (by simp),mem_moved (by simp)]
          · rw [moved_other (by simp) (by simpa using different),moved_other (by simpa using different) (by simp),
              moved_other (by simpa using different) (by simp)]
          · rw [moved_other (by simp) (by simp),moved_other (by simp) (by simpa using different),moved_other (by simp) (by simp)]
          · simp [moved]
          · simp [moved]
      obtain ⟨lists',listed,same,others,empty⟩ := emptied
      have kept : (s.pushBackAll thread bucket) = { s with links := (s.pushBackAll thread bucket).links } := by
        unfold State.pushBackAll
        split
        · rfl
        · rfl
      rw [kept] at stepped
      split at stepped
      · cases stepped
        refine ⟨lists',inv.relink listed same others empty fun p none => ?_⟩
        cases none
      · cases stepped
        refine ⟨lists',inv.relink listed same others empty fun p same init => ?_⟩
        cases same
        exact ready init
    · cases stepped
  · cases stepped

theorem placed_advance {rest : List Nat} {bucket : Nat} (listed : Listed l lists) (left : lists (.todo thread) = rest) :
    Placed lists thread (some (.scan bucket (front (.todo thread) rest) (l.next (front (.todo thread) rest)))) := by
  subst left
  exact ⟨rfl,next_front listed _⟩

/-- An entry goes from the working list of a thread to its failed list. -/
theorem Inv.postpone (inv : Inv c s lists) {rest : List Nat} (pass : Pass) (first : lists (.todo thread) = id :: rest)
    (ready : pass.cnxInit = true → pass.connexions = c.client)
    (place : ∀ l lists', Listed l lists' → lists' (.todo thread) = rest →
      l = (s.links.remove (.entry id)).pushBack (.head (.failed thread)) (.entry id) → Placed lists' thread (some pass.point)) :
    ∃ lists', Inv c { s with links := (s.links.remove (.entry id)).pushBack (.head (.failed thread)) (.entry id), pass := update s.pass thread (some pass) } lists' := by
  have removed := inv.listed.removeFirst first
  have absent : ∀ h, id ∉ update lists (.todo thread) rest h := fun h member => ((inv.listed.mem_removed first id).mp ⟨h,member⟩).1 rfl
  have pushed := removed.pushBack (h := .failed thread) absent
  refine ⟨_,inv.relink pushed (fun a => ?_) (fun other different => ?_) ?_ fun p same init => ?_⟩
  · rw [mem_added fun a => (by simp [or_comm] : a ∈ _ ++ [id] ↔ a = id ∨ a ∈ _),inv.listed.mem_removed first]
    constructor
    · rintro (rfl | ⟨_,there⟩)
      · exact ⟨.todo thread,by rw [first]; exact List.mem_cons_self⟩
      · exact there
    · intro there
      by_cases own : a = id
      · exact .inl own
      · exact .inr ⟨own,there⟩
  · simp [different]
  · apply place _ _ pushed ?_ rfl
    simp
  · cases same
    exact ready init

/-- An entry whose storages are all removed leaves the lists. -/
theorem Inv.finish (inv : Inv c s lists) {rest : List Nat} (pass : Pass) (first : lists (.todo thread) = id :: rest)
    (ready : pass.cnxInit = true → pass.connexions = c.client)
    (place : ∀ l lists', Listed l lists' → lists' (.todo thread) = rest → l = s.links.remove (.entry id) → Placed lists' thread (some pass.point))
    (acked : ∀ d, s.trashed id = some d → ∀ i < c.safe, d i ≠ 0 → (c.client (s.entry id).cid (d i)).isSome → s.acknowledged id i = true) :
    ∃ lists', Inv c { s with links := s.links.remove (.entry id), finished := update s.finished id true, pass := update s.pass thread (some pass) } lists' := by
  have removed := inv.listed.removeFirst first
  have here : s.trashed id ≠ none := ((inv.live id).mp ⟨.todo thread,by rw [first]; exact List.mem_cons_self⟩).1
  refine ⟨_,removed,fun a => ?_,placed_other inv.placed (fun other different => ?_) ?_,fun other p running init => ?_,inv.dist,
    fun a d there finished => ?_,fun a none => ?_⟩
  · rw [inv.listed.mem_removed first,inv.live]
    by_cases own : a = id
    · simp [own]
    · simp [own]
  · simp [different]
  · exact place _ _ removed (Function.update_self ..) rfl
  · by_cases own : other = thread
    · simp only [own,Function.update_self,Option.some.injEq] at running
      subst running
      exact ready init
    · simp only [Function.update_of_ne own] at running
      exact inv.ready other p running init
  · by_cases own : a = id
    · subst own
      exact acked d there
    · simp only [Function.update_of_ne own] at finished
      exact inv.done a d there finished
  · have other : a ≠ id := by
      rintro rfl
      exact here none
    simp only [Function.update_of_ne other]
    exact inv.fresh a none

/-- The storages of an entry on a list are cleared as they acknowledge. -/
theorem Inv.clear (inv : Inv c s lists) {r r' : Removal} {connexions : Nat → Nat → Option Nat} {is : List Nat}
    (member : ∃ h, id ∈ lists h) (dist : r.distSet = (s.entry id).currentDistSet) (acked : r.acknowledged = s.acknowledged id)
    (cleared : Cleared r r' connexions (s.entry id).cid is) :
    Inv c { s with
      entry := update s.entry id { s.entry id with currentDistSet := r'.distSet }
      acknowledged := update s.acknowledged id r'.acknowledged } lists := by
  have unfinished := ((inv.live id).mp member).2
  refine ⟨inv.listed,inv.live,inv.placed,inv.ready,fun a d there i => ?_,fun a d there finished => ?_,inv.fresh⟩
  · by_cases own : a = id
    · subst own
      simp only [Function.update_self]
      rcases cleared.dist i with same | now
      · rw [same,dist]
        rcases inv.dist a d there i with full | ⟨zero,before⟩
        · exact .inl full
        · rw [← acked] at before
          exact .inr ⟨zero,cleared.kept i before⟩
      · exact .inr now
    · simp only [Function.update_of_ne own]
      exact inv.dist a d there i
  · by_cases own : a = id
    · subst own
      rw [unfinished] at finished
      cases finished
    · simp only [Function.update_of_ne own]
      exact inv.done a d there finished

/-- The entry at which a scan stands is the first one left. -/
theorem Inv.at_entry (inv : Inv c s lists) {pass : Pass} {bucket : Nat} {n : Node} (running : s.pass thread = some pass)
    (point : pass.point = .scan bucket (.entry id) n) :
    ∃ rest, lists (.todo thread) = id :: rest ∧ n = front (.todo thread) rest := by
  have placed := inv.placed thread
  simp only [running,Option.map_some,point,Placed] at placed
  cases todo : lists (.todo thread) with
  | nil =>
    rw [todo] at placed
    cases placed.1
  | cons a rest =>
    rw [todo] at placed
    cases placed.1
    exact ⟨rest,rfl,placed.2⟩

/-- The storages of the entry are removed over the connections of the volume. -/
theorem Inv.remove (inv : Inv c s lists) (pass : Pass) {rest : List Nat} {bucket : Nat} (first : lists (.todo thread) = id :: rest)
    (ready : pass.connexions = c.client) (removed : Nat → Bool) (limit : Nat) :
    let r := Removal.storages ⟨0,(s.entry id).currentDistSet,pass.status,s.acknowledged id⟩ pass.connexions removed (s.entry id).cid c.safe
    let pass := { pass with status := r.status, processedFiles := pass.processedFiles + 1 }
    let s := { s with
      links := s.links.remove (.entry id)
      entry := update s.entry id { s.entry id with currentDistSet := r.distSet }
      acknowledged := update s.acknowledged id r.acknowledged }
    let s := if r.sidCount = c.safe then { s with finished := update s.finished id true }
      else { s with links := s.links.pushBack (.head (.failed thread)) (.entry id) }
    ∃ lists', Inv c (if pass.processedFiles ≥ limit then s.setPass thread { pass with point := .out bucket }
      else s.advance thread bucket pass (front (.todo thread) rest)) lists' := by
  intro r pass' s₁ s₂
  have cleared : Cleared _ r pass.connexions (s.entry id).cid (List.range c.safe) := cleared_storages _ _
  have member : ∃ h, id ∈ lists h := ⟨.todo thread,by rw [first]; exact List.mem_cons_self⟩
  have clear := inv.clear member rfl rfl cleared
  have stepped : ∀ point : Links Node → Point, (∀ l lists', Listed l lists' → lists' (.todo thread) = rest → Placed lists' thread (some (point l))) →
      ∃ lists', Inv c (s₂.setPass thread { pass' with point := point s₂.links }) lists' := by
    intro point place
    by_cases full : r.sidCount = c.safe
    · simp only [s₂,full,if_true]
      refine clear.finish { pass' with point := point s₁.links } first (fun _ => ready) (fun l lists' listed left same => ?_) fun d there i inside used known => ?_
      · have placed := place l lists' listed left
        rw [same] at placed
        exact placed
      · simp only [Function.update_self] at known ⊢
        have all := cleared.all (by simpa using full) i (List.mem_range.mpr inside)
        rcases inv.dist id d there i with same | ⟨_,before⟩
        · simp only [same] at all
          rcases all with zero | unknown | acked
          · exact absurd zero used
          · rw [ready] at unknown
            rw [unknown] at known
            cases known
          · exact acked
        · exact cleared.kept i before
    · simp only [s₂,full,if_false]
      refine clear.postpone { pass' with point := point (s₁.links.pushBack (.head (.failed thread)) (.entry id)) } first (fun _ => ready)
        fun l lists' listed left same => ?_
      have placed := place l lists' listed left
      rw [same] at placed
      exact placed
  split
  · exact stepped (fun _ => .out bucket) fun _ _ _ _ => trivial
  · exact stepped (fun l => .scan bucket (front (.todo thread) rest) (l.next (front (.todo thread) rest))) fun l lists' listed left =>
      placed_advance listed left

theorem Inv.scanEntry (inv : Inv c s lists) {pass : Pass} {bucket : Nat} {n : Node} {o : Outcome} (running : s.pass thread = some pass)
    (point : pass.point = .scan bucket (.entry id) n) (setup : o.setup = none) : ∃ lists', Inv c (s.scanEntry c thread bucket pass id n o) lists' := by
  obtain ⟨rest,first,rfl⟩ := inv.at_entry running point
  have ready := inv.ready thread pass running
  simp only [State.scanEntry,setup]
  by_cases late : (s.entry id).time ≠ 0 ∧ (s.entry id).time ≥ pass.now
  · rw [if_pos late]
    refine inv.postpone { pass with point := .scan bucket (front (.todo thread) rest) _ } first ready ?_
    rintro l lists' listed left rfl
    exact placed_advance listed left
  · rw [if_neg late]
    cases init : pass.cnxInit with
    | true => exact inv.remove pass first (ready init) o.removed o.limitRmFiles
    | false => exact inv.remove { pass with cnxInit := true, connexions := c.client, status := o.status } first rfl o.removed o.limitRmFiles

theorem Inv.scan (inv : Inv c s lists) {o : Outcome} (setup : o.setup = none) (stepped : step c (.scan thread o) s = some s') :
    ∃ lists', Inv c s' lists' := by
  simp only [step] at stepped
  split at stepped
  · rename_i pass running
    split at stepped
    · rename_i bucket p n point
      split at stepped
      · cases stepped
        exact inv.scanEntry running point setup
      · cases stepped
        refine ⟨lists,inv.repoint trivial fun p same init => ?_⟩
        cases same
        exact inv.ready thread pass running init
    · cases stepped
  · cases stepped

/-- The invariant holds after each step whose set-up of connections does not fail. -/
theorem Inv.step (inv : Inv c s lists) {a : Action} (fit : Fit s a) (stepped : Trash.step c a s = some s') : ∃ lists', Inv c s' lists' := by
  cases a with
  | insert id bucket front entry =>
    have unused : s.trashed id = none := by
      by_contra used
      simp [Trash.step,used] at stepped
    exact inv.insert unused bucket front entry stepped
  | begin thread firstBucketIdx => exact ⟨lists,inv.begin stepped⟩
  | bucket thread now => exact inv.bucket stepped
  | scan thread o => exact inv.scan (Option.isNone_iff_eq_none.mp fit) stepped
  | leave thread limit => exact inv.leave stepped

end Steps

section Runs

/-- An entry is on the list of a head. -/
def State.On (s : State) (h : Head) (id : Nat) : Prop := ∃ xs, Ring s.links (.head h) xs ∧ .entry id ∈ xs

theorem Inv.on_iff (inv : Inv c s lists) (h : Head) (id : Nat) : s.On h id ↔ id ∈ lists h := by
  constructor
  · rintro ⟨xs,ring,member⟩
    rw [ring.unique (inv.listed.ring h)] at member
    simpa using member
  · intro member
    exact ⟨_,inv.listed.ring h,List.mem_map_of_mem member⟩

/-- A thread that is in no pass has empty working lists. -/
theorem Inv.idle (inv : Inv c s lists) (member : id ∈ lists h) :
    (∃ b, h = .bucket b) ∨ ∃ thread pass, s.pass thread = some pass ∧ (h = .todo thread ∨ h = .failed thread) := by
  cases h with
  | bucket b => exact .inl ⟨b,rfl⟩
  | todo thread =>
    have placed := inv.placed thread
    cases running : s.pass thread with
    | some pass => exact .inr ⟨thread,pass,running,.inl rfl⟩
    | none =>
      rw [running] at placed
      rw [placed.1] at member
      cases member
  | failed thread =>
    have placed := inv.placed thread
    cases running : s.pass thread with
    | some pass => exact .inr ⟨thread,pass,running,.inr rfl⟩
    | none =>
      rw [running] at placed
      rw [placed.2] at member
      cases member

/-- In every run where no set-up of the connections fails, a file in the trash that is not finished is
on one list, of a bucket or of a thread in a pass, and a finished one was removed by each storage of
its distribution that the volume knows. -/
theorem trash_is_emptied (run : Machine.Run (step c) Fit initial s) :
    (∀ id, s.trashed id ≠ none → s.finished id = false → (∃! h, s.On h id) ∧
      ∀ h, s.On h id → (∃ b, h = .bucket b) ∨ ∃ thread pass, s.pass thread = some pass ∧ (h = .todo thread ∨ h = .failed thread)) ∧
    ∀ id d, s.trashed id = some d → s.finished id = true → ∀ i < c.safe, d i ≠ 0 → (c.client (s.entry id).cid (d i)).isSome →
      s.acknowledged id i = true := by
  have reached : ∃ lists, Inv c s lists := by
    apply run.invariant (fun s => ∃ lists, Inv c s lists) ⟨_,inv_initial c⟩
    rintro s a s' ⟨lists,inv⟩ fit stepped
    exact inv.step fit stepped
  obtain ⟨lists,inv⟩ := reached
  refine ⟨fun id trashed unfinished => ⟨?_,fun h on => inv.idle ((inv.on_iff h id).mp on)⟩,inv.done⟩
  obtain ⟨h,member⟩ := (inv.live id).mpr ⟨trashed,unfinished⟩
  refine ⟨h,(inv.on_iff h id).mpr member,fun other on => ?_⟩
  exact inv.listed.single ((inv.on_iff other id).mp on) member

/-- Two buckets and one storage for each file. -/
def twoBuckets : Config := ⟨2,1,fun _ sid => some sid⟩

def oneStorage (sid : Nat) : Entry := ⟨0,fun i => if i = 0 then sid else 0,0⟩

/-- The storage is up and removes what it is asked to. -/
def served : Outcome := ⟨none,fun _ => true,fun _ => true,10⟩

/-- The storage is down. -/
def down : Outcome := ⟨none,fun _ => false,fun _ => false,10⟩

/-- The set-up stops before the first client. -/
def unset : Outcome := ⟨some fun _ _ => none,fun _ => true,fun _ => true,10⟩

/-- A file is removed in the second pass, after one with the storage down, and another waits. -/
theorem trash_is_emptied_second_pass :
    ∃ s : State, s.trashed 0 ≠ none ∧ s.finished 0 = true ∧ s.acknowledged 0 0 = true ∧ s.trashed 1 ≠ none ∧ s.finished 1 = false ∧
      ∃! h, s.On h 1 := by
  have values : (Machine.exec (step twoBuckets) Fit [.insert 0 1 false (oneStorage 5),.begin 3 0,.bucket 3 9,.scan 3 down,.scan 3 down,.leave 3 10,
      .insert 1 0 true (oneStorage 6),.bucket 3 9,.scan 3 down,.scan 3 down,.leave 3 10,.bucket 3 9,.begin 3 0,.bucket 3 9,.scan 3 served,
      .scan 3 served,.leave 3 1] initial).map (fun s => ((s.trashed 0).map (· 0),s.finished 0,(s.trashed 1).isSome,s.finished 1)) =
      some (some 5,true,true,false) := by decide +kernel
  obtain ⟨s,done,value⟩ := Option.map_eq_some_iff.mp values
  simp only [Prod.mk.injEq] at value
  obtain ⟨first,finished,second,waits⟩ := value
  obtain ⟨d,first,used⟩ := Option.map_eq_some_iff.mp first
  have trashed : s.trashed 1 ≠ none := by
    intro none
    rw [none] at second
    cases second
  have kept := trash_is_emptied (c := twoBuckets) (Machine.Run.refl.exec done)
  refine ⟨s,by simp [first],finished,?_,trashed,waits,(kept.1 1 trashed waits).1⟩
  apply kept.2 0 d first finished 0 Nat.one_pos _ rfl
  rw [used]
  decide

/-- When the set-up fails, the first file is on no list after the pass, and the next one is finished
although its storage was not asked. -/
theorem forgotten_after_setup_failure :
    ∃ s, Machine.Run (step twoBuckets) (fun _ _ => True) initial s ∧ s.pass 3 = none ∧
      (s.trashed 0 ≠ none ∧ s.finished 0 = false ∧ ∀ h, ¬s.On h 0) ∧
      (s.trashed 1).map (· 0) = some 6 ∧ s.finished 1 = true ∧ (twoBuckets.client (s.entry 1).cid 6).isSome ∧ s.acknowledged 1 0 = false := by
  have values : (Machine.exec (step twoBuckets) (fun _ _ => True) [.insert 0 1 false (oneStorage 5),.insert 1 0 false (oneStorage 6),
      .begin 3 0,.bucket 3 9,.scan 3 unset,.leave 3 10,.bucket 3 9,.scan 3 served,.scan 3 served,.leave 3 10,.bucket 3 9] initial).map
      (fun s => (((s.pass 3).isNone,(s.trashed 0).isSome,s.finished 0,s.links.next (.entry 0)),((s.trashed 1).map (· 0),s.finished 1,s.acknowledged 1 0))) =
      some ((true,true,false,.entry 0),(some 6,true,false)) := by decide +kernel
  obtain ⟨s,done,value⟩ := Option.map_eq_some_iff.mp values
  simp only [Prod.mk.injEq] at value
  obtain ⟨⟨idle,trashed,waits,alone⟩,second,finished,silent⟩ := value
  refine ⟨s,Machine.Run.refl.exec done,Option.isNone_iff_eq_none.mp idle,⟨?_,waits,?_⟩,second,finished,rfl,silent⟩
  · intro none
    rw [none] at trashed
    cases trashed
  · rintro h ⟨xs,ring,member⟩
    exact ring.next_ne member alone

end Runs

end Rozofs.Trash
