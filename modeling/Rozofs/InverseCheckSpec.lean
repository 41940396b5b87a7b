import Rozofs.InverseCheck
import Mathlib.Data.List.Induction
import Mathlib.Data.List.Nodup

/-! What the two passes of the inverse check decide, in terms of the projections that each
timestamp and length gathers among the answers. -/
namespace Rozofs.InverseCheck
open TimestampCtx

abbrev Key := Nat × Nat

def keyOf (a : Answer) : Key := (a.2.timestamp,a.2.effectiveLength)

def TimestampCtx.key (p : TimestampCtx) : Key := (p.timestamp,p.effectiveLength)

/-- Effect of one answer on the entry of some timestamp and length. -/
def vote (p : TimestampCtx) (a : Answer) : TimestampCtx :=
  if a.2.projectionId = 0xff then p
  else if p.agrees a.2 && !p.listed a.2 then p.add a else p

/-- The entry of a key once a list of answers has been seen. -/
def groupOf (k : Key) (as : List Answer) : TimestampCtx := as.foldl vote ⟨k.1,k.2,0,[]⟩

/-- Key of the first answer the reference pass looks at. -/
def refKey (as : List Answer) : Option Key :=
  (as.find? fun a => ¬(a.2.timestamp = 0 ∧ a.2.effectiveLength = 0) ∧ a.2.projectionId ≠ 0xff).map keyOf

theorem agrees_iff (p : TimestampCtx) (a : Answer) : p.agrees a.2 = true ↔ keyOf a = p.key := by
  simp [agrees,keyOf,key]

@[simp] theorem add_key (p : TimestampCtx) (a : Answer) : (p.add a).key = p.key := rfl

@[simp] theorem add_count (p : TimestampCtx) (a : Answer) : (p.add a).count = p.count + 1 := by
  simp [add,count]

@[simp] theorem vote_key (p : TimestampCtx) (a : Answer) : (vote p a).key = p.key := by
  unfold vote
  split
  · rfl
  · split <;> rfl

theorem vote_of_ne (p : TimestampCtx) (a : Answer) (other : keyOf a ≠ p.key) : vote p a = p := by
  have off : p.agrees a.2 = false := by
    cases agree : p.agrees a.2 with
    | false => rfl
    | true => exact absurd ((agrees_iff p a).mp agree) other
  simp [vote,off]

theorem vote_count (p : TimestampCtx) (a : Answer) :
    (vote p a).count = p.count ∨ (vote p a).count = p.count + 1 ∧ keyOf a = p.key := by
  unfold vote
  split
  · exact .inl rfl
  · split
    · rename_i chosen
      rw [Bool.and_eq_true] at chosen
      exact .inr ⟨add_count p a,(agrees_iff p a).mp chosen.1⟩
    · exact .inl rfl

@[simp] theorem groupOf_nil (k : Key) : (groupOf k []).count = 0 := rfl

theorem groupOf_append (k : Key) (as : List Answer) (a : Answer) :
    groupOf k (as ++ [a]) = vote (groupOf k as) a := by
  simp [groupOf]

@[simp] theorem groupOf_key (k : Key) (as : List Answer) : (groupOf k as).key = k := by
  induction as using List.reverseRecOn with
  | nil => rfl
  | append_singleton as a ih => rw [groupOf_append,vote_key,ih]

@[simp] theorem groupOf_timestamp (k : Key) (as : List Answer) : (groupOf k as).timestamp = k.1 :=
  congrArg Prod.fst (groupOf_key k as)

@[simp] theorem groupOf_effectiveLength (k : Key) (as : List Answer) : (groupOf k as).effectiveLength = k.2 :=
  congrArg Prod.snd (groupOf_key k as)

/-- Later answers only append to what an entry has gathered. -/
theorem groupOf_extends (k : Key) (as bs : List Answer) :
    (groupOf k as).prjIdxTb <+: (groupOf k (as ++ bs)).prjIdxTb := by
  induction bs using List.reverseRecOn with
  | nil => simp
  | append_singleton bs b ih =>
    rw [← List.append_assoc,groupOf_append]
    refine ih.trans ?_
    unfold vote
    split
    · exact List.prefix_rfl
    · split
      · exact List.prefix_append _ _
      · exact List.prefix_rfl

theorem groupOf_count_mono (k : Key) (as bs : List Answer) :
    (groupOf k as).count ≤ (groupOf k (as ++ bs)).count :=
  (groupOf_extends k as bs).length_le

/-- An entry that has no vote yet starts with its first answer. -/
theorem vote_start (k : Key) (a : Answer) (same : keyOf a = k) (valid : a.2.projectionId ≠ 0xff) :
    vote ⟨k.1,k.2,0,[]⟩ a = start a := by
  subst same
  simp [vote,valid,agrees,listed,keyOf,add,start]

theorem groupOf_skip (k : Key) (as : List Answer) (none : ∀ a ∈ as, keyOf a = k → a.2.projectionId = 0xff) :
    groupOf k as = ⟨k.1,k.2,0,[]⟩ := by
  induction as using List.reverseRecOn with
  | nil => rfl
  | append_singleton as a ih =>
    have rest := ih fun b member => none b (List.mem_append_left _ member)
    rw [groupOf_append,rest]
    by_cases same : keyOf a = k
    · simp [vote,none a (by simp) same]
    · exact vote_of_ne _ a same

theorem vote_agrees (p : TimestampCtx) (a : Answer) (valid : a.2.projectionId ≠ 0xff)
    (agree : p.agrees a.2 = true) : vote p a = if p.listed a.2 then p else p.add a := by
  simp only [vote,valid,if_false,agree,Bool.true_and]
  cases p.listed a.2 <;> rfl

theorem checkReference_some (inverse : Nat) (as : List Answer) (p : TimestampCtx) (others : List Nat)
    (real : p.key ≠ (0,0)) (small : p.count < inverse) :
    (∃ before a after rest, as = before ++ a :: after ∧
      checkReference inverse as (some p) others = .found ((before ++ [a]).foldl vote p) rest ∧
      ((before ++ [a]).foldl vote p).count = inverse) ∨
    (checkReference inverse as (some p) others = .missed [as.foldl vote p] ∧
      (as.foldl vote p).count < inverse) := by
  induction as generalizing p others with
  | nil => exact .inr ⟨rfl,small⟩
  | cons a as ih =>
    -- Once the head has been counted or skipped, the tail decides.
    have lift : ∀ q : TimestampCtx, ∀ others', q.key ≠ (0,0) → q.count < inverse → vote p a = q →
        checkReference inverse (a :: as) (some p) others = checkReference inverse as (some q) others' →
        (∃ before b after rest, a :: as = before ++ b :: after ∧
          checkReference inverse (a :: as) (some p) others = .found ((before ++ [b]).foldl vote p) rest ∧
          ((before ++ [b]).foldl vote p).count = inverse) ∨
        (checkReference inverse (a :: as) (some p) others = .missed [(a :: as).foldl vote p] ∧
          ((a :: as).foldl vote p).count < inverse) := by
      intro q others' realQ smallQ voted run
      rw [run,List.foldl_cons,voted]
      rcases ih q others' realQ smallQ with ⟨before,b,after,rest,split,result,full⟩ | missed
      · left
        refine ⟨a :: before,b,after,rest,by rw [split]; rfl,?_,?_⟩
        · simpa [voted] using result
        · simpa [voted] using full
      · exact .inr missed
    by_cases skipped : a.2.timestamp = 0 ∧ a.2.effectiveLength = 0
    · refine lift p others real small (vote_of_ne p a ?_) (by simp [checkReference,skipped])
      intro same
      exact real (by rw [← same,keyOf,skipped.1,skipped.2])
    · by_cases error : a.2.projectionId = 0xff
      · exact lift p others real small (by simp [vote,error]) (by simp [checkReference,skipped,error])
      · cases agree : p.agrees a.2 with
        | false =>
          refine lift p (others ++ [a.1]) real small ?_ (by simp [checkReference,skipped,error,agree])
          simp [vote,agree]
        | true =>
          have voted := vote_agrees p a error agree
          cases dup : p.listed a.2 with
          | true => exact lift p others real small (by simp [voted,dup]) (by simp [checkReference,skipped,error,agree,dup])
          | false =>
            simp only [dup,Bool.false_eq_true,if_false] at voted
            by_cases full : p.count + 1 = inverse
            · left
              refine ⟨[],a,as,[⟨0,0,0,others⟩],rfl,?_,by simpa [voted] using full⟩
              simp [checkReference,skipped,error,agree,dup,full,voted]
            · refine lift (p.add a) others real ?_ voted
                (by simp [checkReference,skipped,error,agree,dup,full])
              rw [add_count]
              omega

theorem groupOf_cons (k : Key) (a : Answer) (as : List Answer) :
    groupOf k (a :: as) = as.foldl vote (vote ⟨k.1,k.2,0,[]⟩ a) := rfl

/-- The reference pass: it counts for the key of the first answer with data only. -/
theorem checkReference_spec (inverse : Nat) (two : 2 ≤ inverse) (as : List Answer) (others : List Nat) :
    (refKey as = none ∧ checkReference inverse as none others = .missed []) ∨
    ∃ k, refKey as = some k ∧
      ((∃ before a after rest, as = before ++ a :: after ∧
        checkReference inverse as none others = .found (groupOf k (before ++ [a])) rest ∧
        (groupOf k (before ++ [a])).count = inverse) ∨
      (checkReference inverse as none others = .missed [groupOf k as] ∧ (groupOf k as).count < inverse)) := by
  induction as with
  | nil => exact .inl ⟨rfl,rfl⟩
  | cons a as ih =>
    by_cases skipped : (a.2.timestamp = 0 ∧ a.2.effectiveLength = 0) ∨ a.2.projectionId = 0xff
    · have run : checkReference inverse (a :: as) none others = checkReference inverse as none others := by
        rcases skipped with empty | error
        · simp [checkReference,empty]
        · simp [checkReference,error]
      have ref : refKey (a :: as) = refKey as := by
        rcases skipped with empty | error
        · simp [refKey,empty]
        · simp [refKey,error]
      rw [run,ref]
      rcases ih with none | ⟨k,first,result⟩
      · exact .inl none
      · refine .inr ⟨k,first,?_⟩
        have real : k ≠ (0,0) := by
          rintro rfl
          obtain ⟨b,found,key⟩ := Option.map_eq_some_iff.mp first
          have shown := List.find?_some found
          simp only [keyOf,Prod.mk.injEq] at key
          simp [key] at shown
        have voted : vote ⟨k.1,k.2,0,[]⟩ a = ⟨k.1,k.2,0,[]⟩ := by
          rcases skipped with empty | error
          · refine vote_of_ne _ a fun same => real ?_
            rw [← show keyOf a = k from same,keyOf,empty.1,empty.2]
          · simp [vote,error]
        have same : ∀ bs, groupOf k (a :: bs) = groupOf k bs := fun bs => by rw [groupOf_cons,voted]; rfl
        rcases result with ⟨before,b,after,rest,split,found,full⟩ | ⟨missed,few⟩
        · left
          exact ⟨a :: before,b,after,rest,by rw [split]; rfl,by rw [List.cons_append,same,found],
            by rw [List.cons_append,same,full]⟩
        · right
          exact ⟨by rw [same,missed],by rwa [same]⟩
    · obtain ⟨real,valid⟩ := not_or.mp skipped
      right
      have shows : refKey (a :: as) = some (keyOf a) := by
        have first : decide (¬(a.2.timestamp = 0 ∧ a.2.effectiveLength = 0) ∧ a.2.projectionId ≠ 0xff) = true :=
          decide_eq_true ⟨real,valid⟩
        simp only [refKey,List.find?_cons,first,Option.map_some]
      refine ⟨keyOf a,shows,?_⟩
      have started := vote_start (keyOf a) a rfl valid
      have run : checkReference inverse (a :: as) none others =
          checkReference inverse as (some (start a)) others := by
        simp [checkReference,real,valid]
      have shown : (start a).key ≠ (0,0) := by
        intro zero
        simp only [key,start,Prod.mk.injEq] at zero
        exact real zero
      have one : (start a).count < inverse := by simp [start,count]; omega
      rw [run]
      rcases checkReference_some inverse as (start a) others shown one with
        ⟨before,b,after,rest,split,found,full⟩ | ⟨missed,few⟩
      · left
        refine ⟨a :: before,b,after,rest,by rw [split]; rfl,?_,?_⟩
        · rw [List.cons_append,groupOf_cons,started,found]
        · rw [List.cons_append,groupOf_cons,started,full]
      · right
        rw [groupOf_cons,started]
        exact ⟨missed,few⟩

/-- The timestamp table after some answers: one entry for each key among them. -/
structure TableOf (tb : List TimestampCtx) (seen : List Answer) : Prop where
  entry : ∀ p ∈ tb, p = groupOf p.key seen
  used : ∀ p ∈ tb, ∃ a ∈ seen, a.2.projectionId ≠ 0xff ∧ keyOf a = p.key
  covers : ∀ a ∈ seen, a.2.projectionId ≠ 0xff → ∃ p ∈ tb, p.key = keyOf a
  distinct : tb.Pairwise fun p q => p.key ≠ q.key

theorem TableOf.few (table : TableOf tb seen) (positive : 0 < inverse)
    (small : ∀ p ∈ tb, p.count < inverse) (k : Key) : (groupOf k seen).count < inverse := by
  by_cases known : ∃ a ∈ seen, a.2.projectionId ≠ 0xff ∧ keyOf a = k
  · obtain ⟨a,member,valid,rfl⟩ := known
    obtain ⟨p,inside,same⟩ := table.covers a member valid
    rw [← same,← table.entry p inside]
    exact small p inside
  · rw [groupOf_skip k seen]
    · exact positive
    · intro a member same
      by_contra valid
      exact known ⟨a,member,valid,same⟩

theorem register_new (inverse : Nat) (a : Answer) (tb : List TimestampCtx)
    (absent : ∀ p ∈ tb, p.key ≠ keyOf a) : register inverse a tb = (tb ++ [start a],none) := by
  induction tb with
  | nil => rfl
  | cons p tb ih =>
    have off : p.agrees a.2 = false := by
      cases agree : p.agrees a.2 with
      | false => rfl
      | true => exact absurd ((agrees_iff p a).mp agree).symm (absent p List.mem_cons_self)
    simp [register,off,ih fun q member => absent q (List.mem_cons_of_mem _ member)]

/-- With distinct keys, an answer whose key is known is one vote in every entry. -/
theorem register_known (inverse : Nat) (a : Answer) (tb : List TimestampCtx) (valid : a.2.projectionId ≠ 0xff)
    (distinct : tb.Pairwise fun p q => p.key ≠ q.key) (known : ∃ p ∈ tb, p.key = keyOf a) :
    (register inverse a tb).1 = tb.map (vote · a) ∧
    ∃ p ∈ tb, p.key = keyOf a ∧ (register inverse a tb).2 =
      if p.count < (vote p a).count ∧ (vote p a).count = inverse then some (vote p a) else none := by
  induction tb with
  | nil => simp at known
  | cons p tb ih =>
    obtain ⟨apart,rest⟩ := List.pairwise_cons.mp distinct
    cases agree : p.agrees a.2 with
    | true =>
      have same := ((agrees_iff p a).mp agree).symm
      have others : tb.map (vote · a) = tb := by
        rw [List.map_congr_left (g := id),List.map_id]
        intro q member
        exact vote_of_ne q a fun eq => apart q member (same.trans eq)
      have voted := vote_agrees p a valid agree
      cases dup : p.listed a.2 with
      | true =>
        simp only [dup,if_true] at voted
        refine ⟨by simp [register,agree,dup,others,voted],p,List.mem_cons_self,same,?_⟩
        simp [register,agree,dup,voted]
      | false =>
        simp only [dup,Bool.false_eq_true,if_false] at voted
        refine ⟨by simp [register,agree,dup,others,voted],p,List.mem_cons_self,same,?_⟩
        simp [register,agree,dup,voted]
    | false =>
      have different : p.key ≠ keyOf a := fun eq => by
        rw [(agrees_iff p a).mpr eq.symm] at agree
        cases agree
      have later : ∃ q ∈ tb, q.key = keyOf a := by
        obtain ⟨q,member,same⟩ := known
        rcases List.mem_cons.mp member with rfl | inside
        · exact absurd same different
        · exact ⟨q,inside,same⟩
      obtain ⟨table,q,member,same,winner⟩ := ih rest later
      refine ⟨?_,q,List.mem_cons_of_mem _ member,same,?_⟩
      · simp [register,agree,table,vote_of_ne p a different.symm]
      · simp [register,agree,winner]

/-- One answer of the second pass. -/
theorem TableOf.register (table : TableOf tb seen) (a : Answer) (valid : a.2.projectionId ≠ 0xff)
    (two : 2 ≤ inverse) (small : ∀ p ∈ tb, p.count < inverse) :
    TableOf (register inverse a tb).1 (seen ++ [a]) ∧
    match (InverseCheck.register inverse a tb).2 with
    | some w => w = groupOf (keyOf a) (seen ++ [a]) ∧ w.count = inverse
    | none => ∀ p ∈ (InverseCheck.register inverse a tb).1, p.count < inverse := by
  by_cases known : ∃ p ∈ tb, p.key = keyOf a
  · obtain ⟨run,p,member,same,winner⟩ := register_known inverse a tb valid table.distinct known
    constructor
    · rw [run]
      constructor
      · intro q inside
        obtain ⟨q,old,rfl⟩ := List.mem_map.mp inside
        rw [vote_key,groupOf_append,← table.entry q old]
      · intro q inside
        obtain ⟨q,old,rfl⟩ := List.mem_map.mp inside
        obtain ⟨b,earlier,ok,eq⟩ := table.used q old
        exact ⟨b,List.mem_append_left _ earlier,ok,by rw [vote_key,eq]⟩
      · intro b earlier ok
        have present : ∃ q ∈ tb, q.key = keyOf b := by
          rcases List.mem_append.mp earlier with before | last
          · exact table.covers b before ok
          · rw [List.mem_singleton.mp last]
            exact known
        obtain ⟨q,old,eq⟩ := present
        exact ⟨vote q a,List.mem_map_of_mem old,by rw [vote_key,eq]⟩
      · rw [List.pairwise_map]
        simpa using table.distinct
    · rw [winner]
      have voted : vote p a = groupOf (keyOf a) (seen ++ [a]) := by
        rw [groupOf_append,← same,← table.entry p member]
      split
      · rename_i w chosen
        split at chosen
        · rename_i full
          rw [← Option.some.inj chosen]
          exact ⟨voted,full.2⟩
        · cases chosen
      · rename_i chosen
        split at chosen
        · cases chosen
        · rename_i few
          intro q inside
          rw [run] at inside
          obtain ⟨q,old,rfl⟩ := List.mem_map.mp inside
          have bound := small q old
          rcases vote_count q a with unchanged | ⟨more,eq⟩
          · omega
          · have one : q = p := by rw [table.entry q old,table.entry p member,← eq,same]
            subst one
            omega
  · have absent : ∀ p ∈ tb, p.key ≠ keyOf a := fun p member same => known ⟨p,member,same⟩
    rw [register_new inverse a tb absent]
    have fresh : groupOf (keyOf a) seen = ⟨(keyOf a).1,(keyOf a).2,0,[]⟩ := by
      refine groupOf_skip _ seen fun b member same => ?_
      by_contra ok
      obtain ⟨p,inside,eq⟩ := table.covers b member ok
      exact absent p inside (eq.trans same)
    have started : start a = groupOf (keyOf a) (seen ++ [a]) := by
      rw [groupOf_append,fresh,vote_start _ a rfl valid]
    constructor
    · constructor
      · intro p inside
        rcases List.mem_append.mp inside with old | last
        · rw [groupOf_append,← table.entry p old,vote_of_ne p a (absent p old).symm]
        · rw [List.mem_singleton.mp last]
          exact started
      · intro p inside
        rcases List.mem_append.mp inside with old | last
        · obtain ⟨b,earlier,ok,eq⟩ := table.used p old
          exact ⟨b,List.mem_append_left _ earlier,ok,eq⟩
        · rw [List.mem_singleton.mp last]
          exact ⟨a,by simp,valid,rfl⟩
      · intro b earlier ok
        rcases List.mem_append.mp earlier with before | last
        · obtain ⟨p,inside,eq⟩ := table.covers b before ok
          exact ⟨p,List.mem_append_left _ inside,eq⟩
        · rw [List.mem_singleton.mp last]
          exact ⟨start a,by simp,rfl⟩
      · rw [List.pairwise_append]
        refine ⟨table.distinct,List.pairwise_singleton _ _,fun p old q last => ?_⟩
        rw [List.mem_singleton.mp last]
        exact absent p old
    · intro p inside
      rcases List.mem_append.mp inside with old | last
      · exact small p old
      · rw [List.mem_singleton.mp last]
        simp only [start,count,List.length_singleton]
        omega

/-- The second pass stops at the first key to gather `inverse` projections. -/
theorem checkTable_spec (inverse : Nat) (two : 2 ≤ inverse) (as seen : List Answer) (tb : List TimestampCtx)
    (table : TableOf tb seen) (small : ∀ p ∈ tb, p.count < inverse) :
    (∃ before a after rest, as = before ++ a :: after ∧
      checkTable inverse as tb = .found (groupOf (keyOf a) (seen ++ before ++ [a])) rest ∧
      (groupOf (keyOf a) (seen ++ before ++ [a])).count = inverse ∧
      ∀ k, (groupOf k (seen ++ before)).count < inverse) ∨
    (∃ last, checkTable inverse as tb = .missed last ∧ TableOf last (seen ++ as) ∧
      ∀ p ∈ last, p.count < inverse) := by
  induction as generalizing seen tb with
  | nil => exact .inr ⟨tb,rfl,by simpa using table,small⟩
  | cons a as ih =>
    -- The tail runs from the table left by the head.
    have lift : ∀ tb', TableOf tb' (seen ++ [a]) → (∀ p ∈ tb', p.count < inverse) →
        checkTable inverse (a :: as) tb = checkTable inverse as tb' →
        (∃ before b after rest, a :: as = before ++ b :: after ∧
          checkTable inverse (a :: as) tb = .found (groupOf (keyOf b) (seen ++ before ++ [b])) rest ∧
          (groupOf (keyOf b) (seen ++ before ++ [b])).count = inverse ∧
          ∀ k, (groupOf k (seen ++ before)).count < inverse) ∨
        (∃ last, checkTable inverse (a :: as) tb = .missed last ∧ TableOf last (seen ++ a :: as) ∧
          ∀ p ∈ last, p.count < inverse) := by
      intro tb' table' small' run
      rw [run]
      rcases ih (seen ++ [a]) tb' table' small' with ⟨before,b,after,rest,split,found,full,few⟩ | ⟨last,missed,final,few⟩
      · left
        refine ⟨a :: before,b,after,rest,by rw [split]; rfl,?_,?_,?_⟩
        · simpa using found
        · simpa using full
        · simpa using few
      · right
        exact ⟨last,missed,by simpa using final,few⟩
    by_cases error : a.2.projectionId = 0xff
    · refine lift tb ?_ small (by simp [checkTable,error])
      have same : ∀ k, groupOf k (seen ++ [a]) = groupOf k seen := fun k => by
        rw [groupOf_append]
        simp [vote,error]
      constructor
      · intro p inside
        rw [same]
        exact table.entry p inside
      · intro p inside
        obtain ⟨b,earlier,rest⟩ := table.used p inside
        exact ⟨b,List.mem_append_left _ earlier,rest⟩
      · intro b earlier ok
        rcases List.mem_append.mp earlier with before | last
        · exact table.covers b before ok
        · exact absurd (List.mem_singleton.mp last ▸ error) ok
      · exact table.distinct
    · obtain ⟨next,winner⟩ := table.register a error two small
      cases result : register inverse a tb with
      | mk tb' found =>
        rw [result] at next winner
        cases found with
        | none => exact lift tb' next winner (by simp [checkTable,error,result])
        | some w =>
          left
          refine ⟨[],a,as,tb'.filter (· ≠ w),rfl,?_,?_,?_⟩
          · simp only [checkTable,error,result,if_false,List.append_nil]
            rw [← winner.1]
          · simpa [← winner.1] using winner.2
          · simpa using table.few (by omega) small

/-- How a quorum for `k` is decided: at the reference pass, or at the second pass when the
reference failed, before any other key is complete. -/
def Decides (inverse : Nat) (as before : List Answer) (k : Key) : Prop :=
  refKey as = some k ∨
  ((∀ r, refKey as = some r → (groupOf r as).count < inverse) ∧ ∀ r, (groupOf r before).count < inverse)

/-- The four ends of the check of a block. -/
inductive Verdict (layout : Layout) (bsize : BSize) (left : Nat) (as : List Answer) : Outcome → Prop
  | endOfFile : refKey as = none → Verdict layout bsize left as ⟨0,0,0,[],0,[]⟩
  | quorum (k : Key) (before : List Answer) (a : Answer) (after : List Answer) (ret : Int) (rebuild : List Nat) :
      as = before ++ a :: after → (groupOf k (before ++ [a])).count = layout.rozofsInverse →
      Decides layout.rozofsInverse as before k → 0 < ret →
      Verdict layout bsize left as ⟨ret,k.1,k.2,(groupOf k (before ++ [a])).prjIdxTb,0,rebuild⟩
  | wait (idxs : List Nat) :
      (∀ k, (groupOf k as).count < layout.rozofsInverse) →
      (∃ a ∈ as, a.2.projectionId ≠ 0xff ∧ layout.rozofsForward ≤ left + (groupOf (keyOf a) as).count) →
      Verdict layout bsize left as ⟨-1,0,0,idxs,0,[]⟩
  | corrupted (idxs : List Nat) :
      refKey as ≠ none → (∀ k, (groupOf k as).count < layout.rozofsInverse) →
      (∀ a ∈ as, a.2.projectionId ≠ 0xff → left + (groupOf (keyOf a) as).count < layout.rozofsForward) →
      Verdict layout bsize left as ⟨0,0,bsize.bytes,idxs,1,[]⟩

theorem two_inverse (layout : Layout) : 2 ≤ layout.rozofsInverse := by
  cases layout <;> decide

theorem exists_of_refKey (first : refKey as = some k) :
    ∃ a ∈ as, keyOf a = k ∧ a.2.projectionId ≠ 0xff ∧ k ≠ (0,0) := by
  obtain ⟨a,found,rfl⟩ := Option.map_eq_some_iff.mp first
  have shown := List.find?_some found
  rw [decide_eq_true_eq] at shown
  refine ⟨a,List.mem_of_find?_eq_some found,rfl,shown.2,fun zero => shown.1 ?_⟩
  simpa [keyOf] using zero

theorem checkTimestampTb_verdict (layout : Layout) (bsize : BSize) (ctxs : Nat → PrjCtx) (blockIdx : Nat)
    (idxs : List Nat) (first : refKey (answers layout ctxs blockIdx) = some k)
    (failed : (groupOf k (answers layout ctxs blockIdx)).count < layout.rozofsInverse) :
    Verdict layout bsize (leftStorage layout ctxs) (answers layout ctxs blockIdx)
      (checkTimestampTb layout bsize ctxs blockIdx idxs) := by
  have start : TableOf [] [] := ⟨by simp,by simp,by simp,List.Pairwise.nil⟩
  rcases checkTable_spec layout.rozofsInverse (two_inverse layout) (answers layout ctxs blockIdx) [] [] start
    (by simp) with ⟨before,a,after,rest,split,found,full,few⟩ | ⟨tb,missed,table,few⟩
  · simp only [List.nil_append] at found full few
    rw [checkTimestampTb,found]
    simp only [groupOf_timestamp,groupOf_effectiveLength]
    refine .quorum (keyOf a) before a after 1 _ split full (.inr ⟨fun r same => ?_,few⟩) (by decide)
    rw [first] at same
    rwa [← Option.some.inj same]
  · simp only [List.nil_append] at table
    rw [checkTimestampTb,missed]
    obtain ⟨a,member,same,valid,_⟩ := exists_of_refKey first
    obtain ⟨p,inside,_⟩ := table.covers a member valid
    simp only [show tb ≠ [] from fun empty => by simp [empty] at inside,if_false]
    split
    · rename_i chance
      obtain ⟨q,entry,room⟩ := List.any_eq_true.mp chance
      obtain ⟨b,earlier,ok,eq⟩ := table.used q entry
      refine .wait idxs (table.few (by have := two_inverse layout; omega) few) ⟨b,earlier,ok,?_⟩
      rw [eq,← table.entry q entry]
      simpa using room
    · rename_i hopeless
      refine .corrupted idxs (by simp [first]) (table.few (by have := two_inverse layout; omega) few) ?_
      intro b earlier ok
      obtain ⟨q,entry,eq⟩ := table.covers b earlier ok
      rw [← eq,← table.entry q entry]
      by_contra room
      exact hopeless (List.any_eq_true.mpr ⟨q,entry,decide_eq_true (by omega)⟩)

/-- Complete description of the block check. -/
theorem transformInverseCheck_verdict (layout : Layout) (bsize : BSize) (ctxs : Nat → PrjCtx) (blockIdx : Nat) :
    Verdict layout bsize (leftStorage layout ctxs) (answers layout ctxs blockIdx)
      (transformInverseCheck layout bsize ctxs blockIdx) := by
  rcases checkReference_spec layout.rozofsInverse (two_inverse layout) (answers layout ctxs blockIdx) [] with
    ⟨none,missed⟩ | ⟨k,first,⟨before,a,after,rest,split,found,full⟩ | ⟨missed,few⟩⟩
  · rw [transformInverseCheck,missed]
    exact .endOfFile none
  · rw [transformInverseCheck,found]
    simp only [groupOf_timestamp,groupOf_effectiveLength]
    exact .quorum k before a after _ _ split full (.inl first) (by have := two_inverse layout; omega)
  · rw [transformInverseCheck,missed]
    exact checkTimestampTb_verdict layout bsize ctxs blockIdx _ first few

/-- The answers counted in the entry of a key. -/
structure Voters (k : Key) (as vs : List Answer) : Prop where
  sublist : vs.Sublist as
  indexes : (groupOf k as).prjIdxTb = vs.map (·.1)
  bits : ∀ j, (groupOf k as).prjidBitmap.testBit j = true ↔ ∃ v ∈ vs, v.2.projectionId = j
  keyed : ∀ v ∈ vs, keyOf v = k ∧ v.2.projectionId ≠ 0xff
  apart : k.1 ≠ 0 → (vs.map (·.2.projectionId)).Nodup
  complete : ∀ a ∈ as, a.2.projectionId ≠ 0xff → keyOf a = k →
    a ∈ vs ∨ k.1 ≠ 0 ∧ ∃ v ∈ vs, v.2.projectionId = a.2.projectionId

theorem Voters.length (voters : Voters k as vs) : (groupOf k as).count = vs.length := by
  rw [count,voters.indexes,List.length_map]

/-- An answer that adds no vote. -/
theorem Voters.skip (voters : Voters k as vs) (a : Answer) (same : vote (groupOf k as) a = groupOf k as)
    (known : a.2.projectionId ≠ 0xff → keyOf a = k →
      k.1 ≠ 0 ∧ ∃ v ∈ vs, v.2.projectionId = a.2.projectionId) : Voters k (as ++ [a]) vs := by
  constructor
  · exact voters.sublist.trans (List.sublist_append_left _ _)
  · rw [groupOf_append,same,voters.indexes]
  · rw [groupOf_append,same]
    exact voters.bits
  · exact voters.keyed
  · exact voters.apart
  · intro b member valid key
    rcases List.mem_append.mp member with old | last
    · exact voters.complete b old valid key
    · rw [List.mem_singleton.mp last] at valid key ⊢
      exact .inr (known valid key)

theorem exists_voters (k : Key) (as : List Answer) : ∃ vs, Voters k as vs := by
  induction as using List.reverseRecOn with
  | nil => exact ⟨[],by simp,rfl,by simp [groupOf],by simp,by simp,by simp⟩
  | append_singleton as a ih =>
    obtain ⟨vs,voters⟩ := ih
    by_cases error : a.2.projectionId = 0xff
    · exact ⟨vs,voters.skip a (by simp [vote,error]) fun valid => absurd error valid⟩
    by_cases same : keyOf a = k
    · have agree : (groupOf k as).agrees a.2 = true := (agrees_iff _ a).mpr (by rw [groupOf_key,same])
      have voted := vote_agrees (groupOf k as) a error agree
      cases dup : (groupOf k as).listed a.2 with
      | true =>
        simp only [dup,if_true] at voted
        simp only [listed,Bool.and_eq_true,bne_iff_ne] at dup
        refine ⟨vs,voters.skip a voted fun _ _ => ⟨?_,(voters.bits _).mp dup.2⟩⟩
        rw [← same]
        exact dup.1
      | false =>
        simp only [dup,Bool.false_eq_true,if_false] at voted
        refine ⟨vs ++ [a],?_,?_,?_,?_,?_,?_⟩
        · exact voters.sublist.append (List.Sublist.refl _)
        · rw [groupOf_append,voted,add,voters.indexes,List.map_append]
          rfl
        · intro j
          rw [groupOf_append,voted]
          simp only [add,Nat.testBit_or,Bool.or_eq_true,voters.bits,List.mem_append,List.mem_singleton,
            or_and_right,exists_or,exists_eq_left,Nat.one_shiftLeft,Nat.testBit_two_pow,decide_eq_true_eq]
        · intro v member
          rcases List.mem_append.mp member with old | last
          · exact voters.keyed v old
          · rw [List.mem_singleton.mp last]
            exact ⟨same,error⟩
        · intro real
          rw [List.map_append,List.nodup_append]
          refine ⟨voters.apart real,by simp,?_⟩
          intro x old y last eq
          obtain ⟨v,member,rfl⟩ := List.mem_map.mp old
          have stamped : a.2.timestamp ≠ 0 := by
            rw [← same] at real
            exact real
          simp only [List.map_cons,List.map_nil,List.mem_singleton] at last
          have hit : (groupOf k as).listed a.2 = true := by
            simp only [listed,Bool.and_eq_true,bne_iff_ne]
            exact ⟨stamped,(voters.bits _).mpr ⟨v,member,by rw [eq,last]⟩⟩
          rw [hit] at dup
          cases dup
        · intro b member valid key
          rcases List.mem_append.mp member with old | last
          · rcases voters.complete b old valid key with inside | ⟨real,v,inside,eq⟩
            · exact .inl (List.mem_append_left _ inside)
            · exact .inr ⟨real,v,List.mem_append_left _ inside,eq⟩
          · left
            rw [List.mem_singleton.mp last]
            simp
    · refine ⟨vs,voters.skip a (vote_of_ne _ a ?_) fun _ key => absurd key same⟩
      rwa [groupOf_key]

theorem mem_answers : (i,h) ∈ answers layout ctxs blockIdx ↔
    i < layout.rozofsSafe ∧ (ctxs i).prjState = .done ∧ (ctxs i).blockHdrTab blockIdx = h := by
  simp only [answers,List.mem_filterMap,List.mem_range,Option.ite_none_right_eq_some,Option.some.injEq,
    Prod.mk.injEq]
  constructor
  · rintro ⟨_,bound,done,rfl,rfl⟩
    exact ⟨bound,done,rfl⟩
  · rintro ⟨bound,done,same⟩
    exact ⟨i,bound,done,rfl,same⟩

theorem answers_nodup (layout : Layout) (ctxs : Nat → PrjCtx) (blockIdx : Nat) :
    ((answers layout ctxs blockIdx).map (·.1)).Nodup := by
  rw [answers,List.map_filterMap]
  refine List.nodup_range.filterMap fun i j k first second => ?_
  simp only [Option.mem_def,Option.map_eq_some_iff,Option.ite_none_right_eq_some,Option.some.injEq] at first second
  obtain ⟨_,⟨_,rfl⟩,rfl⟩ := first
  obtain ⟨_,⟨_,rfl⟩,same⟩ := second
  exact same.symm

end Rozofs.InverseCheck
