import Rozofs.RequestQueue
import Rozofs.StorcliRing
import Mathlib.Data.List.Nodup
import Mathlib.Data.List.Perm.Subperm

/-! The ring keeps one queue for each file, whatever the collisions of the hash. The queues
follow the discipline of `RequestQueue`, which gives the order of the requests of a file. -/
namespace Rozofs.RingSerialisation
open StorcliRing
open Function (update)

section Slots

theorem findSlot_some (found : findSlot p = some slot) : slot < stcRngHashEntries ∧ p slot = true := by
  obtain ⟨i,word,found⟩ := List.exists_of_findSome?_eq_some found
  have member := List.mem_of_find?_eq_some found
  have holds := List.find?_some found
  simp only [List.mem_map,List.mem_range,stcRngHashEntriesWord,stcRngHashEntries] at word member ⊢
  obtain ⟨j,small,rfl⟩ := member
  exact ⟨by omega,holds⟩

theorem findSlot_none (missed : findSlot p = none) (inside : slot < stcRngHashEntries) : p slot = false := by
  have inside : slot < 128 := inside
  have word := List.findSome?_eq_none_iff.mp missed (slot / 32) (List.mem_range.mpr (by simp [stcRngHashEntriesWord,stcRngHashEntries]; omega))
  have none := List.find?_eq_none.mp word slot (List.mem_map.mpr ⟨slot % 32,List.mem_range.mpr (by omega),by omega⟩)
  simpa using none

theorem getLsbD_one_shiftLeft (i j : Nat) (inside : j < 32) : (1#32 <<< i).getLsbD j = decide (j = i) := by
  simp only [BitVec.getLsbD_shiftLeft,BitVec.getLsbD_one]
  by_cases same : j = i
  · simp [same]
    omega
  · simp [same]
    omega

theorem bit_update (table : Table) (slot s : Nat) (word : BitVec 32) (hashBit : Nat → BitVec 32)
    (eq : hashBit = update table.hashBit (slot / 32) word) (fids : Nat → Fid) (lists : Nat → List Entry)
    (same : ∀ j < 32, j ≠ slot % 32 → word.getLsbD j = (table.hashBit (slot / 32)).getLsbD j) (other : s ≠ slot) :
    (Table.mk hashBit fids lists).bit s = table.bit s := by
  simp only [Table.bit,eq,Function.update_apply]
  split
  · rename_i here
    rw [same (s % 32) (by omega) (by omega),here]
  · rfl

/-- What the lists, the bits and the file identifiers of the tables have to do with each other. -/
structure Slots (table : Nat → Table) : Prop where
  bits : ∀ t s, (table t).listTable s ≠ [] ↔ s < stcRngHashEntries ∧ (table t).bit s = true
  home : ∀ t s, (table t).listTable s ≠ [] → rngTbIdx ((table t).fidTable s) = t
  distinct : ∀ t s s', (table t).listTable s ≠ [] → (table t).listTable s' ≠ [] →
    (table t).fidTable s = (table t).fidTable s' → s = s'

/-- The requests of a file. -/
def queue (table : Nat → Table) (fid : Fid) : List Entry :=
  match (table (rngTbIdx fid)).search fid with
  | some slot => (table (rngTbIdx fid)).listTable slot
  | none => []

variable {table table' : Nat → Table}

theorem Slots.search_iff (slots : Slots table) :
    (table t).search fid = some s ↔ (table t).listTable s ≠ [] ∧ (table t).fidTable s = fid := by
  constructor
  · intro found
    obtain ⟨inside,holds⟩ := findSlot_some found
    simp only [Bool.and_eq_true,beq_iff_eq] at holds
    exact ⟨(slots.bits t s).mpr ⟨inside,holds.1⟩,holds.2⟩
  · rintro ⟨used,same⟩
    cases found : (table t).search fid with
    | none =>
      obtain ⟨inside,bit⟩ := (slots.bits t s).mp used
      have missed := findSlot_none found inside
      simp [bit,same] at missed
    | some s' =>
      obtain ⟨inside,holds⟩ := findSlot_some found
      simp only [Bool.and_eq_true,beq_iff_eq] at holds
      rw [slots.distinct t s' s ((slots.bits t s').mpr ⟨inside,holds.1⟩) used (holds.2.trans same.symm)]

theorem Slots.queue_of_search (found : (table (rngTbIdx fid)).search fid = some s) :
    queue table fid = (table (rngTbIdx fid)).listTable s := by
  rw [queue,found]

/-- Every list is the queue of a file. -/
theorem Slots.queue_fidTable (slots : Slots table) (used : (table t).listTable s ≠ []) :
    queue table ((table t).fidTable s) = (table t).listTable s := by
  have home := slots.home t s used
  have found : (table (rngTbIdx ((table t).fidTable s))).search ((table t).fidTable s) = some s := by
    rw [home]
    exact slots.search_iff.mpr ⟨used,rfl⟩
  rw [queue_of_search found,home]

/-- The list of a file, at its slot, is replaced. -/
structure Put (table table' : Nat → Table) (fid : Fid) (slot : Nat) (list : List Entry) : Prop where
  inside : slot < stcRngHashEntries
  own : ∀ s, (table (rngTbIdx fid)).listTable s ≠ [] → ((table (rngTbIdx fid)).fidTable s = fid ↔ s = slot)
  others : ∀ t s, t ≠ rngTbIdx fid ∨ s ≠ slot → (table' t).bit s = (table t).bit s ∧
    (table' t).fidTable s = (table t).fidTable s ∧ (table' t).listTable s = (table t).listTable s
  bit : (table' (rngTbIdx fid)).bit slot = true ↔ list ≠ []
  fids : (table' (rngTbIdx fid)).fidTable slot = fid
  lists : (table' (rngTbIdx fid)).listTable slot = list

theorem Put.slots (put : Put table table' fid slot list) (slots : Slots table) : Slots table' := by
  have cases : ∀ t s, (t = rngTbIdx fid ∧ s = slot) ∨ (t ≠ rngTbIdx fid ∨ s ≠ slot) := by
    intro t s
    by_cases here : t = rngTbIdx fid <;> by_cases there : s = slot <;> simp [here,there]
  constructor
  · intro t s
    rcases cases t s with ⟨rfl,rfl⟩ | other
    · rw [put.lists,put.bit]
      exact ⟨fun used => ⟨put.inside,used⟩,fun used => used.2⟩
    · obtain ⟨bit,-,lists⟩ := put.others t s other
      rw [bit,lists]
      exact slots.bits t s
  · intro t s used
    rcases cases t s with ⟨rfl,rfl⟩ | other
    · rw [put.fids]
    · obtain ⟨-,fids,lists⟩ := put.others t s other
      rw [lists] at used
      rw [fids]
      exact slots.home t s used
  · intro t s s' used used' same
    rcases cases t s with ⟨rfl,rfl⟩ | other
    · rcases cases (rngTbIdx fid) s' with ⟨-,rfl⟩ | other'
      · rfl
      · obtain ⟨-,fids,lists⟩ := put.others _ s' other'
        rw [lists] at used'
        rw [fids,put.fids] at same
        exact ((put.own s' used').mp same.symm).symm
    · obtain ⟨-,fids,lists⟩ := put.others t s other
      rw [lists] at used
      rw [fids] at same
      rcases cases t s' with ⟨rfl,rfl⟩ | other'
      · rw [put.fids] at same
        exact (put.own s used).mp same
      · obtain ⟨-,fids',lists'⟩ := put.others t s' other'
        rw [lists'] at used'
        rw [fids'] at same
        exact slots.distinct t s s' used used' same

theorem Put.search_same (put : Put table table' fid slot list) (slots : Slots table) (kept : list ≠ []) :
    (table' (rngTbIdx fid)).search fid = some slot := by
  apply (put.slots slots).search_iff.mpr
  rw [put.lists]
  exact ⟨kept,put.fids⟩

theorem Put.search_other (put : Put table table' fid slot list) (slots : Slots table) (other : f ≠ fid) :
    (table' (rngTbIdx f)).search f = (table (rngTbIdx f)).search f := by
  apply Option.ext
  intro s
  rw [(put.slots slots).search_iff,slots.search_iff]
  by_cases here : rngTbIdx f = rngTbIdx fid ∧ s = slot
  · obtain ⟨home,rfl⟩ := here
    rw [home]
    constructor
    · rintro ⟨-,same⟩
      exact absurd (same.symm.trans put.fids) other
    · rintro ⟨used,same⟩
      exact absurd (same.symm.trans ((put.own s used).mpr rfl)) other
  · obtain ⟨-,fids,lists⟩ := put.others (rngTbIdx f) s (by tauto)
    rw [fids,lists]

theorem Put.queue_other (put : Put table table' fid slot list) (slots : Slots table) (other : f ≠ fid) :
    queue table' f = queue table f := by
  have same := put.search_other slots other
  cases found : (table (rngTbIdx f)).search f with
  | none => simp [queue,same,found]
  | some s =>
    rw [found] at same
    rw [Slots.queue_of_search same,Slots.queue_of_search found]
    refine (put.others (rngTbIdx f) s ?_).2.2
    obtain ⟨used,fids⟩ := slots.search_iff.mp found
    by_contra here
    simp only [not_or,ne_eq,not_not] at here
    obtain ⟨home,rfl⟩ := here
    rw [home] at used fids
    exact other (fids.symm.trans ((put.own s used).mpr rfl))

theorem Put.queue_same (put : Put table table' fid slot list) (slots : Slots table) : queue table' fid = list := by
  by_cases kept : list = []
  · have missed : (table' (rngTbIdx fid)).search fid = none := by
      apply Option.eq_none_iff_forall_ne_some.mpr
      intro s found
      obtain ⟨used,same⟩ := (put.slots slots).search_iff.mp found
      by_cases here : s = slot
      · rw [here,put.lists] at used
        exact used kept
      · obtain ⟨-,fids,lists⟩ := put.others _ s (.inr here)
        rw [lists] at used
        rw [fids] at same
        exact here ((put.own s used).mp same)
    rw [queue,missed,kept]
  · rw [Slots.queue_of_search (put.search_same slots kept),put.lists]

end Slots

section Operations
variable {ring : Ring}

theorem allocate_some (found : Table.allocate table fid = some (slot,table')) :
    slot < stcRngHashEntries ∧ table.bit slot = false ∧ table'.bit slot = true ∧ table'.fidTable = update table.fidTable slot fid ∧
    table'.listTable = update table.listTable slot [] ∧ ∀ s, s ≠ slot → table'.bit s = table.bit s := by
  obtain ⟨s,free,eq⟩ := Option.map_eq_some_iff.mp found
  obtain ⟨inside,holds⟩ := findSlot_some free
  cases eq
  refine ⟨inside,by simpa using holds,?_,rfl,rfl,fun other apart => ?_⟩
  · simp only [Table.bit,Function.update_self,BitVec.getLsbD_or]
    rw [getLsbD_one_shiftLeft _ _ (by omega)]
    simp
  · refine bit_update table _ _ _ _ rfl _ _ (fun j small apart => ?_) apart
    rw [BitVec.getLsbD_or,getLsbD_one_shiftLeft _ _ small]
    simp [apart]

/-- The slot of an insertion holds the queue of the file, and the new entry goes to its end. -/
theorem locate_put {table : Nat → Table} (slots : Slots table)
    (found : (table (rngTbIdx fid)).locate fid = some (slot,located)) (e : Entry) :
    located.listTable slot = queue table fid ∧
    Put table (update table (rngTbIdx fid)
      { located with listTable := update located.listTable slot (located.listTable slot ++ [e]) }) fid slot
      (queue table fid ++ [e]) := by
  unfold Table.locate at found
  split at found
  · rename_i s known
    cases found
    have same := Slots.queue_of_search known
    obtain ⟨used,fids⟩ := slots.search_iff.mp known
    obtain ⟨inside,bit⟩ := (slots.bits _ _).mp used
    refine ⟨same.symm,inside,fun s other => ⟨fun eq => ?_,fun eq => eq ▸ fids⟩,fun t s other => ?_,?_,?_,?_⟩
    · exact slots.distinct _ _ _ other used (eq.trans fids.symm)
    · rcases other with apart | apart
      · rw [Function.update_of_ne apart]
        exact ⟨rfl,rfl,rfl⟩
      · by_cases here : t = rngTbIdx fid
        · subst here
          rw [Function.update_self]
          exact ⟨rfl,rfl,Function.update_of_ne apart _ _⟩
        · rw [Function.update_of_ne here]
          exact ⟨rfl,rfl,rfl⟩
    · rw [Function.update_self]
      exact ⟨fun _ => by simp,fun _ => bit⟩
    · rw [Function.update_self]
      exact fids
    · rw [Function.update_self,same]
      exact Function.update_self _ _ _
  · rename_i missed
    obtain ⟨inside,free,bit,fids,lists,bits⟩ := allocate_some found
    have none : queue table fid = [] := by rw [queue,missed]
    have empty : located.listTable slot = [] := by rw [lists,Function.update_self]
    have unused : (table (rngTbIdx fid)).listTable slot = [] := by
      by_contra used
      rw [((slots.bits _ _).mp used).2] at free
      cases free
    refine ⟨empty.trans none.symm,inside,fun s used => ⟨fun eq => ?_,fun eq => ?_⟩,fun t s other => ?_,?_,?_,?_⟩
    · rw [slots.search_iff.mpr ⟨used,eq⟩] at missed
      cases missed
    · subst eq
      exact absurd unused used
    · by_cases here : t = rngTbIdx fid
      · subst here
        have apart : s ≠ slot := by tauto
        rw [Function.update_self,fids,lists]
        exact ⟨bits s apart,Function.update_of_ne apart _ _,by simp [Function.update_of_ne apart]⟩
      · rw [Function.update_of_ne here]
        exact ⟨rfl,rfl,rfl⟩
    · rw [Function.update_self]
      exact ⟨fun _ => by simp,fun _ => bit⟩
    · rw [Function.update_self,fids]
      exact Function.update_self _ _ _
    · rw [Function.update_self,empty,none]
      exact Function.update_self _ _ _

theorem entryIdx_table (t slot : Nat) (small : t < 2 ^ 8) : entryIdx t slot &&& 0xff = t := by
  apply Nat.eq_of_testBit_eq
  intro j
  simp only [entryIdx,show (0xff : Nat) = 2 ^ 8 - 1 from rfl,Nat.testBit_and,Nat.testBit_or,Nat.testBit_shiftLeft,
    Nat.testBit_two_pow_sub_one]
  by_cases inside : j < 8
  · simp [inside]
  · have high : t.testBit j = false :=
      Nat.testBit_lt_two_pow (Nat.lt_of_lt_of_le small (Nat.pow_le_pow_right Nat.zero_lt_two (Nat.le_of_not_lt inside)))
    simp [inside,high]

theorem entryIdx_slot (t slot : Nat) : entryIdx t slot >>> 8 = slot := by
  apply Nat.eq_of_testBit_eq
  intro j
  simp only [entryIdx,show (0xff : Nat) = 2 ^ 8 - 1 from rfl,Nat.testBit_shiftRight,Nat.testBit_and,Nat.testBit_or,
    Nat.testBit_shiftLeft,Nat.testBit_two_pow_sub_one]
  simp

theorem rngTbIdx_lt (fid : Fid) : rngTbIdx fid < 2 ^ 8 :=
  Nat.lt_of_lt_of_le (Nat.mod_lt _ (by decide)) (by decide)

/-- The test of the insertion. -/
def Collides (x y : Entry) : Prop := noCollision y.bid y.nbBlks x = false

def discipline : RequestQueue.Discipline Entry where
  runs := Entry.run
  arrival := Entry.arrival
  conflict := Collides
  wake e := { e with run := true }
  symm {x y} collides := by
    simp only [Collides,noCollision,Bool.or_eq_false_iff] at collides ⊢
    exact ⟨collides.2,collides.1⟩
  wake_runs _ := rfl
  wake_arrival _ := rfl
  wake_conflict collides := collides

theorem releaseList_eq (obj : Nat) (list : List Entry) :
    releaseList obj list = RequestQueue.leave discipline (fun e => e.objPtr == obj) list := by
  cases list with
  | nil => rfl
  | cons cur rest =>
    simp only [releaseList,RequestQueue.leave,beq_iff_eq]
    split
    · cases rest with
      | nil => rfl
      | cons elt tail => rfl
    · rfl

theorem releaseList_objs (obj : Nat) (list : List Entry) :
    (releaseList obj list).1.map Entry.objPtr = (list.map Entry.objPtr).erase obj := by
  cases list with
  | nil => rfl
  | cons cur rest =>
    by_cases here : cur.objPtr = obj
    · rw [List.map_cons,here,List.erase_cons_head]
      cases rest with
      | nil => simp [releaseList,here]
      | cons elt tail =>
        simp only [releaseList,if_pos here]
        split
        · rfl
        · rfl
    · have same : (fun e : Entry => e.objPtr == obj) = (fun x => obj == x) ∘ Entry.objPtr := by
        funext e
        exact Bool.beq_comm
      rw [List.erase_eq_eraseP,List.eraseP_map,← same]
      simp only [releaseList,if_neg here]

theorem releaseList_arrival (member : e ∈ (releaseList obj list).1 ∨ e ∈ (releaseList obj list).2.toList) :
    ∃ old ∈ list, e.arrival = old.arrival := by
  cases list with
  | nil => simp [releaseList] at member
  | cons cur rest =>
    by_cases here : cur.objPtr = obj
    · cases rest with
      | nil => simp [releaseList,here] at member
      | cons elt tail =>
        by_cases runs : elt.run = true
        · simp only [releaseList,if_pos here,if_pos runs,Option.toList_none,List.not_mem_nil,or_false] at member
          exact ⟨e,List.mem_cons_of_mem cur member,rfl⟩
        · simp only [releaseList,if_pos here,if_neg runs,Option.toList_some,List.mem_cons,List.not_mem_nil,
            or_false] at member
          rcases member with (rfl | behind) | rfl
          · exact ⟨elt,by simp,rfl⟩
          · exact ⟨e,by simp [behind],rfl⟩
          · exact ⟨elt,by simp,rfl⟩
    · simp only [releaseList,if_neg here,Option.toList_none,List.not_mem_nil,or_false] at member
      exact ⟨e,List.mem_of_mem_eraseP member,rfl⟩

/-- Tables after a release at the slot of the file. -/
theorem release_put {table : Nat → Table} (slots : Slots table) (known : (table (rngTbIdx fid)).search fid = some slot)
    (list : List Entry) :
    Put table (update table (rngTbIdx fid) { table (rngTbIdx fid) with
      hashBit := if list = [] then update (table (rngTbIdx fid)).hashBit (slot / 32)
        ((table (rngTbIdx fid)).hashBit (slot / 32) &&& ~~~(1#32 <<< (slot % 32))) else (table (rngTbIdx fid)).hashBit
      listTable := update (table (rngTbIdx fid)).listTable slot list }) fid slot list := by
  obtain ⟨used,fids⟩ := slots.search_iff.mp known
  obtain ⟨inside,bit⟩ := (slots.bits _ _).mp used
  refine ⟨inside,fun s other => ⟨fun eq => ?_,fun eq => eq ▸ fids⟩,fun t s other => ?_,?_,?_,?_⟩
  · exact slots.distinct _ _ _ other used (eq.trans fids.symm)
  · by_cases here : t = rngTbIdx fid
    · subst here
      have apart : s ≠ slot := by tauto
      rw [Function.update_self]
      refine ⟨?_,rfl,Function.update_of_ne apart _ _⟩
      split
      · refine bit_update _ _ _ _ _ rfl _ _ (fun j small apart => ?_) apart
        rw [BitVec.getLsbD_and,BitVec.getLsbD_not,getLsbD_one_shiftLeft _ _ small]
        simp [apart,small]
      · rfl
    · rw [Function.update_of_ne here]
      exact ⟨rfl,rfl,rfl⟩
  · rw [Function.update_self]
    split
    · rename_i empty
      simp only [Table.bit,Function.update_self,BitVec.getLsbD_and,BitVec.getLsbD_not]
      rw [getLsbD_one_shiftLeft _ _ (by omega)]
      simp [empty]
    · rename_i kept
      exact ⟨fun _ => kept,fun _ => bit⟩
  · rw [Function.update_self]
    exact fids
  · rw [Function.update_self]
    exact Function.update_self _ _ _

end Operations

/-- The queues of the files are orderly, and hold the requests of the contexts in progress. -/
structure Inv (ring : Ring) : Prop where
  slots : Slots ring.table
  objs : (ring.live.map Ctx.objPtr).Nodup
  orderly : ∀ fid, RequestQueue.Orderly discipline (queue ring.table fid) (ring.started fid)
  counted : ∀ fid, ∀ e ∈ queue ring.table fid ++ ring.started fid, e.arrival ≤ ring.submitCount
  placed : ∀ c ∈ ring.live, (∃ s, c.schedIdx = some (entryIdx (rngTbIdx c.fid) s) ∧
    (ring.table (rngTbIdx c.fid)).search c.fid = some s) ∧ c.objPtr ∈ (queue ring.table c.fid).map Entry.objPtr
  owned : ∀ fid, ∀ obj ∈ (queue ring.table fid).map Entry.objPtr, ∃ c ∈ ring.live, c.objPtr = obj ∧ c.fid = fid
  entries : ∀ fid, ((queue ring.table fid).map Entry.objPtr).Nodup

section Steps
variable {ring ring' : Ring}

theorem Inv.same_ctx (inv : Inv ring) (first : c ∈ ring.live) (second : c' ∈ ring.live) (same : c.objPtr = c'.objPtr) :
    c = c' := List.inj_on_of_nodup_map inv.objs first second same

/-- The lists of a table are fewer than the requests in progress, so that a slot is free. -/
theorem Inv.locate (inv : Inv ring) (few : ring.live.length < storcliCtxCnt) (fid : Fid) :
    ∃ found, (ring.table (rngTbIdx fid)).locate fid = some found := by
  by_contra full
  have missed : (ring.table (rngTbIdx fid)).locate fid = none := by
    cases located : (ring.table (rngTbIdx fid)).locate fid with
    | none => rfl
    | some found => exact absurd ⟨found,located⟩ full
  have busy : ∀ s < stcRngHashEntries, (ring.table (rngTbIdx fid)).listTable s ≠ [] := by
    intro s inside
    unfold Table.locate at missed
    split at missed
    · cases missed
    · have taken := findSlot_none (Option.map_eq_none_iff.mp missed) inside
      exact (inv.slots.bits _ s).mpr ⟨inside,by simpa using taken⟩
  -- one request in progress for each slot
  have request : ∀ s, ∃ c, s < stcRngHashEntries → c ∈ ring.live ∧ c.fid = (ring.table (rngTbIdx fid)).fidTable s := by
    intro s
    by_cases inside : s < stcRngHashEntries
    · have used := busy s inside
      obtain ⟨e,member⟩ := List.exists_mem_of_ne_nil _ used
      rw [← inv.slots.queue_fidTable used] at member
      obtain ⟨c,live,-,same⟩ := inv.owned _ e.objPtr (List.mem_map_of_mem member)
      exact ⟨c,fun _ => ⟨live,same⟩⟩
    · exact ⟨⟨0,fid,none⟩,fun now => absurd now inside⟩
  choose ctx live using request
  have nodup : ((List.range stcRngHashEntries).map ctx).Nodup := by
    refine List.Nodup.map_on (fun s first s' second same => ?_) List.nodup_range
    have first := List.mem_range.mp first
    have second := List.mem_range.mp second
    refine inv.slots.distinct _ s s' (busy s first) (busy s' second) ?_
    rw [← (live s first).2,← (live s' second).2,same]
  have inside : (List.range stcRngHashEntries).map ctx ⊆ ring.live := by
    intro c member
    obtain ⟨s,small,rfl⟩ := List.mem_map.mp member
    exact (live s (List.mem_range.mp small)).1
  have long := (List.subperm_of_subset nodup inside).length_le
  simp only [List.length_map,List.length_range,stcRngHashEntries,storcliCtxCnt] at long few
  omega

/-- The queue of one file changes. -/
theorem Inv.put (inv : Inv ring) (put : Put ring.table ring'.table fid slot list) (objs : (ring'.live.map Ctx.objPtr).Nodup)
    (orderly : RequestQueue.Orderly discipline list (ring'.started fid))
    (started : ∀ f, f ≠ fid → ring'.started f = ring.started f) (count : ring.submitCount ≤ ring'.submitCount)
    (counted : ∀ e ∈ list ++ ring'.started fid, e.arrival ≤ ring'.submitCount)
    (placed : ∀ c ∈ ring'.live, c.fid = fid → c.schedIdx = some (entryIdx (rngTbIdx fid) slot) ∧ c.objPtr ∈ list.map Entry.objPtr)
    (live : ∀ c, c.fid ≠ fid → (c ∈ ring'.live ↔ c ∈ ring.live))
    (owned : ∀ obj ∈ list.map Entry.objPtr, ∃ c ∈ ring'.live, c.objPtr = obj ∧ c.fid = fid)
    (entries : (list.map Entry.objPtr).Nodup) : Inv ring' := by
  have same := put.queue_same inv.slots
  constructor
  · exact put.slots inv.slots
  · exact objs
  · intro f
    by_cases here : f = fid
    · subst here
      rw [same]
      exact orderly
    · rw [put.queue_other inv.slots here,started f here]
      exact inv.orderly f
  · intro f e member
    by_cases here : f = fid
    · subst here
      rw [same] at member
      exact counted e member
    · rw [put.queue_other inv.slots here,started f here] at member
      exact Nat.le_trans (inv.counted f e member) count
  · intro c member
    by_cases here : c.fid = fid
    · obtain ⟨idx,inside⟩ := placed c member here
      have kept : list ≠ [] := by
        rintro rfl
        cases inside
      rw [here,same]
      exact ⟨⟨slot,idx,put.search_same inv.slots kept⟩,inside⟩
    · rw [put.search_other inv.slots here,put.queue_other inv.slots here]
      exact inv.placed c ((live c here).mp member)
  · intro f obj member
    by_cases here : f = fid
    · subst here
      rw [same] at member
      exact owned obj member
    · rw [put.queue_other inv.slots here] at member
      obtain ⟨c,old,owner,file⟩ := inv.owned f obj member
      exact ⟨c,(live c (file ▸ here)).mpr old,owner,file⟩
  · intro f
    by_cases here : f = fid
    · subst here
      rw [same]
      exact entries
    · rw [put.queue_other inv.slots here]
      exact inv.entries f

/-- The context of a request of the file knows the slot of the file. -/
theorem Inv.placed_slot (inv : Inv ring) (put : Put ring.table table' c.fid slot list) (member : c ∈ ring.live) :
    c.schedIdx = some (entryIdx (rngTbIdx c.fid) slot) := by
  obtain ⟨⟨s,idx,found⟩,-⟩ := inv.placed c member
  obtain ⟨used,fids⟩ := inv.slots.search_iff.mp found
  rw [idx,(put.own s used).mp fids]

theorem insert_inv (inv : Inv ring) (few : ring.live.length < storcliCtxCnt) (new : obj ∉ ring.live.map Ctx.objPtr) :
    Inv (stcRngInsert obj opcode fid bid nbBlks ring).1 := by
  obtain ⟨⟨slot,located⟩,found⟩ := inv.locate few fid
  simp only [stcRngInsert,found]
  generalize entered : Entry.mk bid nbBlks obj opcode _ _ = e
  obtain ⟨list,put⟩ := locate_put inv.slots found e
  have runs : e.run = (queue ring.table fid).all fun elt => !ring.serialize && noCollision bid nbBlks elt := by
    rw [← entered,← list]
  have arrived : e.arrival = ring.submitCount + 1 := by rw [← entered]
  have owner : e.objPtr = obj := by rw [← entered]
  have fresh : obj ∉ (queue ring.table fid).map Entry.objPtr := by
    intro member
    obtain ⟨c,live,same,-⟩ := inv.owned fid obj member
    exact new (same ▸ List.mem_map_of_mem live)
  rw [show ((located.listTable slot).all fun elt => !ring.serialize && noCollision bid nbBlks elt) = e.run from
    by rw [runs,list]]
  refine inv.put put ?_ ?_ (fun f apart => Function.update_of_ne apart _ _) (Nat.le_succ _) ?_ ?_ ?_ ?_ ?_
  · rw [List.map_append,List.nodup_append]
    exact ⟨inv.objs,by simp,by simpa using new⟩
  · dsimp only
    rw [Function.update_self]
    refine (inv.orderly fid).enter e (fun x member => ?_) (fun empty => ?_) (fun run x member collides => ?_)
    · have := inv.counted fid x member
      change x.arrival < e.arrival
      omega
    · change e.run = true
      rw [runs,empty]
      rfl
    · have run : e.run = true := run
      rw [runs,List.all_eq_true] at run
      have apart := run x member
      simp only [Bool.and_eq_true] at apart
      have collides : noCollision e.bid e.nbBlks x = false := collides
      rw [← entered,apart.2] at collides
      cases collides
  · intro x member
    dsimp only at member ⊢
    rw [Function.update_self] at member
    have old : x = e ∨ x ∈ queue ring.table fid ++ ring.started fid := by
      split at member
      · simp only [List.mem_append,List.mem_singleton] at member ⊢
        tauto
      · simp only [List.mem_append,List.mem_singleton] at member ⊢
        tauto
    rcases old with rfl | old
    · exact Nat.le_of_eq arrived
    · exact Nat.le_succ_of_le (inv.counted fid x old)
  · intro c member file
    rcases List.mem_append.mp member with old | last
    · subst file
      rw [List.map_append]
      exact ⟨inv.placed_slot put old,List.mem_append_left _ (inv.placed c old).2⟩
    · cases List.mem_singleton.mp last
      exact ⟨rfl,by simp [owner]⟩
  · intro c file
    constructor
    · intro member
      rcases List.mem_append.mp member with old | last
      · exact old
      · cases List.mem_singleton.mp last
        exact absurd rfl file
    · exact List.mem_append_left _
  · intro o member
    rw [List.map_append] at member
    rcases List.mem_append.mp member with old | last
    · obtain ⟨c,live,found⟩ := inv.owned fid o old
      exact ⟨c,List.mem_append_left _ live,found⟩
    · simp only [List.map_cons,List.map_nil,List.mem_singleton] at last
      exact ⟨_,List.mem_append_right _ List.mem_cons_self,(last.trans owner).symm,rfl⟩
  · rw [List.map_append,List.nodup_append]
    refine ⟨inv.entries fid,by simp,?_⟩
    rw [List.map_cons,List.map_nil,owner]
    simpa using fresh

/-- The request that is inserted is the last one of the list of its file, with its range of blocks. -/
theorem insert_queue (inv : Inv ring) (few : ring.live.length < storcliCtxCnt) (obj opcode : Nat) (fid : Fid) (bid nbBlks : BitVec 64) :
    ∃ e : Entry, e.objPtr = obj ∧ e.bid = bid ∧ e.nbBlks = nbBlks ∧
      queue (stcRngInsert obj opcode fid bid nbBlks ring).1.table fid = queue ring.table fid ++ [e] := by
  obtain ⟨⟨slot,located⟩,found⟩ := inv.locate few fid
  simp only [stcRngInsert,found]
  generalize entered : Entry.mk bid nbBlks obj opcode _ _ = e
  refine ⟨e,?_,?_,?_,(locate_put inv.slots found e).2.queue_same inv.slots⟩
  · rw [← entered]
  · rw [← entered]
  · rw [← entered]

theorem release_inv (inv : Inv ring) (found : ring.live[k]? = some ctx) (idx : ctx.schedIdx = some i) :
    Inv (stcRngReleaseEntry i ctx.objPtr ctx.fid { ring with live := ring.live.eraseIdx k }) := by
  have member := List.mem_of_getElem? found
  obtain ⟨⟨slot,at_slot,known⟩,-⟩ := inv.placed ctx member
  rw [idx] at at_slot
  cases at_slot
  have list := Slots.queue_of_search known
  have put := release_put inv.slots known (releaseList ctx.objPtr ((ring.table (rngTbIdx ctx.fid)).listTable slot)).1
  simp only [stcRngReleaseEntry,entryIdx_table _ _ (rngTbIdx_lt ctx.fid),entryIdx_slot]
  rw [← list] at put ⊢
  generalize released : releaseList ctx.objPtr (queue ring.table ctx.fid) = result at put ⊢
  have objs : result.1.map Entry.objPtr = ((queue ring.table ctx.fid).map Entry.objPtr).erase ctx.objPtr := by
    rw [← released]
    exact releaseList_objs _ _
  -- the contexts that stay are the ones of other requests
  obtain ⟨inside,rfl⟩ := List.getElem?_eq_some_iff.mp found
  have perm := List.getElem_cons_eraseIdx_perm inside
  have nodup : ((ring.live.eraseIdx k).map Ctx.objPtr).Nodup ∧ ring.live[k].objPtr ∉ (ring.live.eraseIdx k).map Ctx.objPtr := by
    have whole := ((perm.map Ctx.objPtr).nodup_iff).mpr inv.objs
    rw [List.map_cons,List.nodup_cons] at whole
    exact ⟨whole.2,whole.1⟩
  have stays : ∀ c, c ∈ ring.live ↔ c = ring.live[k] ∨ c ∈ ring.live.eraseIdx k := by
    intro c
    rw [← perm.mem_iff,List.mem_cons]
  refine inv.put put nodup.1 ?_ (fun f apart => Function.update_of_ne apart _ _) (Nat.le_refl _) ?_ ?_ ?_ ?_ ?_
  · dsimp only
    rw [Function.update_self,← released,releaseList_eq]
    exact (inv.orderly _).leave _
  · intro e member
    dsimp only at member ⊢
    rw [Function.update_self,← released] at member
    have old : e ∈ ring.started ring.live[k].fid ∨ ∃ x ∈ queue ring.table ring.live[k].fid, e.arrival = x.arrival := by
      simp only [List.mem_append] at member
      rcases member with now | before | woken
      · exact .inr (releaseList_arrival (.inl now))
      · exact .inl before
      · exact .inr (releaseList_arrival (.inr woken))
    rcases old with before | ⟨x,queued,same⟩
    · exact inv.counted _ e (List.mem_append_right _ before)
    · rw [same]
      exact inv.counted _ x (List.mem_append_left _ queued)
  · intro c member file
    have old := (stays c).mpr (.inr member)
    have entry := (inv.placed c old).2
    rw [← file] at put ⊢
    refine ⟨inv.placed_slot put old,?_⟩
    rw [objs,← file]
    refine (List.mem_erase_of_ne ?_).mpr entry
    intro same
    exact nodup.2 (same ▸ List.mem_map_of_mem member)
  · intro c file
    rw [stays c]
    constructor
    · exact .inr
    · rintro (rfl | member)
      · exact absurd rfl file
      · exact member
  · intro o member
    rw [objs] at member
    obtain ⟨apart,queued⟩ := (inv.entries _).mem_erase_iff.mp member
    obtain ⟨c,live,owner,file⟩ := inv.owned _ o queued
    rcases (stays c).mp live with rfl | member
    · exact absurd owner.symm apart
    · exact ⟨c,member,owner,file⟩
  · rw [objs]
    exact (inv.entries _).erase _

theorem step_inv (a : Act) (inv : Inv ring) (next : step a ring = some ring') : Inv ring' := by
  cases a with
  | insert obj opcode fid bid nbBlks =>
    simp only [step] at next
    split at next
    · rename_i allowed
      cases next
      exact insert_inv inv allowed.1 allowed.2
    · cases next
  | release k =>
    obtain ⟨ctx,found,rfl⟩ := Option.map_eq_some_iff.mp next
    obtain ⟨⟨s,idx,-⟩,-⟩ := inv.placed ctx (List.mem_of_getElem? found)
    simp only [idx]
    exact release_inv inv found idx
  | serialize forced =>
    cases next
    exact ⟨inv.slots,inv.objs,inv.orderly,inv.counted,inv.placed,inv.owned,inv.entries⟩

theorem init_inv : Inv stcRngInit := by
  have slots : Slots stcRngInit.table := by
    constructor
    · intro t s
      simp [stcRngInit,Table.bit]
    · exact fun t s used => absurd rfl used
    · exact fun t s s' used => absurd rfl used
  have empty : ∀ fid, queue stcRngInit.table fid = [] := by
    intro fid
    unfold queue
    split
    · rfl
    · rfl
  constructor
  · exact slots
  · exact List.nodup_nil
  · intro fid
    rw [empty]
    exact .nil
  · intro fid e member
    rw [empty] at member
    cases member
  · exact fun c member => absurd member List.not_mem_nil
  · intro fid
    simp [empty]
  · intro fid
    simp [empty]

end Steps

section Blocks

/-- The range of blocks of an entry ends below 2^64. -/
def Fits (e : Entry) : Prop := e.bid.toNat + e.nbBlks.toNat < 2 ^ 64

def Covers (e : Entry) (block : Nat) : Prop := e.bid.toNat ≤ block ∧ block < e.bid.toNat + e.nbBlks.toNat

def Overlap (x y : Entry) : Prop := ∃ block, Covers x block ∧ Covers y block

theorem collides_of_overlap (first : Fits x) (second : Fits y) (overlap : Overlap x y) : Collides x y := by
  obtain ⟨block,inFirst,inSecond⟩ := overlap
  unfold Fits at first second
  unfold Covers at inFirst inSecond
  simp only [Collides,noCollision,Bool.or_eq_false_iff,decide_eq_false_iff_not,BitVec.le_def,BitVec.toNat_add,
    Nat.mod_eq_of_lt first,Nat.mod_eq_of_lt second]
  omega

theorem u32_lt (n : Int) : WritePlan.u32 n < 2 ^ 32 := by
  unfold WritePlan.u32
  omega

theorem bytes_least (bsize : BSize) : 4096 ≤ bsize.bytes := by
  cases bsize <;> decide

theorem numberOfBlocks_le (bsize : BSize) (n : Nat) : n / bsize.bytes * bsize.bytes / bsize.bytes ≤ n := by
  rw [Nat.mul_div_cancel _ bsize.bytes_pos]
  exact Nat.div_le_self _ _

theorem div_bytes_lt (bsize : BSize) (small : off < 2 ^ 64) : off / bsize.bytes < 2 ^ 52 := by
  apply Nat.div_lt_of_lt_mul
  calc off < 4096 * 2 ^ 52 := small
    _ ≤ bsize.bytes * 2 ^ 52 := Nat.mul_le_mul_right _ (bytes_least bsize)

theorem prepare2write_fits (bsize : BSize) (flags : Nat) (small : off < 2 ^ 64) (short : len < 2 ^ 32) :
    (WritePlan.prepare2write bsize off len flags).bid < 2 ^ 52 ∧
    (WritePlan.prepare2write bsize off len flags).nbBlocks < 2 ^ 32 + 2 := by
  have bid := div_bytes_lt bsize small
  unfold WritePlan.prepare2write
  split_ifs
  · unfold WritePlan.prepareOne
    split
    · exact ⟨bid,Nat.lt_add_left (2 ^ 32) Nat.one_lt_two⟩
    · exact ⟨bid,Nat.lt_add_left (2 ^ 32) Nat.one_lt_two⟩
  · refine ⟨bid,?_⟩
    have after := numberOfBlocks_le bsize (WritePlan.u32 (len - (bsize.bytes - WritePlan.foffset bsize.bytes off)))
    have start := numberOfBlocks_le bsize len
    have word := u32_lt (len - (bsize.bytes - WritePlan.foffset bsize.bytes off))
    simp only [WritePlan.prepareRead]
    split_ifs <;> simp only [WritePlan.Segment.unused,WritePlan.middleAfterRead,WritePlan.middleFromStart,WritePlan.lastToRead] <;>
      omega
  · simp only [WritePlan.prepareAligned]
    exact ⟨bid,Nat.lt_add_right 2 (u32_lt _)⟩

/-- The callers of `stc_rng_insert` pass ranges that end below 2^64. -/
theorem blocks_fit (bsize : BSize) (request : Request) :
    (request.blocks bsize).1.toNat + (request.blocks bsize).2.toNat < 2 ^ 64 := by
  have whole : (0 : BitVec 64).toNat + (0 - 1 : BitVec 64).toNat < 2 ^ 64 := by decide
  cases request with
  | read off len =>
    have first := div_bytes_lt bsize off.isLt
    have count : len.toNat / bsize.bytes < 2 ^ 32 := Nat.lt_of_le_of_lt (Nat.div_le_self _ _) len.isLt
    simp only [Request.blocks,BitVec.toNat_ofNat]
    generalize off.toNat / bsize.bytes = bid at first ⊢
    generalize len.toNat / bsize.bytes = nbBlks at count ⊢
    omega
  | write off len flags =>
    simp only [Request.blocks]
    split
    · obtain ⟨first,count⟩ := prepare2write_fits bsize flags off.isLt len.isLt
      simp only [BitVec.toNat_ofNat]
      omega
    · exact whole
  | truncate => exact whole
  | delete => exact whole

end Blocks

/-- In every run of insertions and releases: running requests of a file do not overlap, the
first one of each list runs, overlapping ones start in the order of their arrival, and the
requests of a file are on one list, whose bit is set exactly while it has some. A request is put
last on the list of its file, with its blocks, and stays on it as long as it is in progress. -/
theorem requests_serialised (run : Machine.Run step (fun _ _ => True) stcRngInit ring) :
    (∀ fid, (queue ring.table fid).Pairwise fun x y =>
      x.run = true → y.run = true → Fits x → Fits y → ¬ Overlap x y) ∧
    (∀ t s e rest, (ring.table t).listTable s = e :: rest → e.run = true) ∧
    (∀ fid, (ring.started fid).Pairwise fun x y => Fits x → Fits y → Overlap x y → x.arrival < y.arrival) ∧
    (∀ c ∈ ring.live, ∀ t s, (∃ e ∈ (ring.table t).listTable s, e.objPtr = c.objPtr) ↔
      t = rngTbIdx c.fid ∧ (ring.table t).search c.fid = some s) ∧
    (∀ t s, (ring.table t).listTable s ≠ [] ↔ s < stcRngHashEntries ∧ (ring.table t).bit s = true) ∧
    (∀ c ∈ ring.live, ∃ s, (ring.table (rngTbIdx c.fid)).search c.fid = some s ∧
      ∃ e ∈ (ring.table (rngTbIdx c.fid)).listTable s, e.objPtr = c.objPtr) ∧
    ∀ obj opcode fid bid nbBlks ring', step (.insert obj opcode fid bid nbBlks) ring = some ring' →
      ∃ e : Entry, e.objPtr = obj ∧ e.bid = bid ∧ e.nbBlks = nbBlks ∧ queue ring'.table fid = queue ring.table fid ++ [e] := by
  have inv : Inv ring := run.invariant _ init_inv fun _ a _ inv _ next => step_inv a inv next
  refine ⟨fun fid => ?_,fun t s e rest list => ?_,fun fid => ?_,fun c member t s => ⟨?_,?_⟩,inv.slots.bits,fun c member => ?_,
    fun obj opcode fid bid nbBlks ring' next => ?_⟩
  · exact (inv.orderly fid).ahead.imp fun free _ runs first second overlap =>
      free runs (collides_of_overlap first second overlap)
  · have used : (ring.table t).listTable s ≠ [] := by simp [list]
    exact (inv.orderly _).first e rest ((inv.slots.queue_fidTable used).trans list)
  · exact (inv.orderly fid).order.imp fun order first second overlap => order (collides_of_overlap first second overlap)
  · rintro ⟨e,queued,same⟩
    have used := List.ne_nil_of_mem queued
    rw [← inv.slots.queue_fidTable used] at queued
    obtain ⟨c',live,owner,file⟩ := inv.owned _ e.objPtr (List.mem_map_of_mem queued)
    cases inv.same_ctx live member (owner.trans same)
    rw [file]
    exact ⟨(inv.slots.home t s used).symm,inv.slots.search_iff.mpr ⟨used,rfl⟩⟩
  · rintro ⟨rfl,found⟩
    obtain ⟨e,queued,same⟩ := List.mem_map.mp (inv.placed c member).2
    rw [Slots.queue_of_search found] at queued
    exact ⟨e,queued,same⟩
  · obtain ⟨⟨s,-,found⟩,queued⟩ := inv.placed c member
    obtain ⟨e,queued,same⟩ := List.mem_map.mp queued
    rw [Slots.queue_of_search found] at queued
    exact ⟨s,found,e,queued,same⟩
  · rw [step] at next
    split at next
    · next allowed =>
      cases next
      exact insert_queue inv allowed.1 obj opcode fid bid nbBlks
    · cases next

/-- A file, and another one in the same table. -/
def firstFile : Fid := Vector.replicate 16 0

def otherFile : Fid := firstFile.set 0 1

/-- A request that overlaps a running one waits for its release; the one of the other file
does not. -/
theorem requests_serialised_waiting : ∃ ring : Ring, (queue ring.table firstFile).map Entry.objPtr = [2] ∧
    (ring.started firstFile).map Entry.arrival = [1,2] ∧ ring.live.map Ctx.objPtr = [2,3] ∧
    ∀ t s e rest, (ring.table t).listTable s = e :: rest → e.run = true := by
  have done : ∃ ring, Machine.exec step (fun _ _ => True)
      [.insert 1 0 firstFile 0 4,.insert 2 0 firstFile 2 4,.insert 3 0 otherFile 2 4,.release 0] stcRngInit = some ring ∧
      (queue ring.table firstFile).map Entry.objPtr = [2] ∧ (ring.started firstFile).map Entry.arrival = [1,2] ∧
      ring.live.map Ctx.objPtr = [2,3] := ⟨_,rfl,by decide,by decide,by decide⟩
  obtain ⟨ring,done,queued,started,live⟩ := done
  exact ⟨ring,queued,started,live,(requests_serialised (Machine.Run.refl.exec done)).2.1⟩

end Rozofs.RingSerialisation
