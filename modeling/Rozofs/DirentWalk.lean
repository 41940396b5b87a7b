import Rozofs.DirentPaths

/-! The search of a name in the list of its bucket: it reaches all the entries when the list is not too
long, and needs no repair. -/
namespace Rozofs.Dirents
open DirentRepair (Dirent)

/-- The entry is the one of the name, as the two functions compare it. -/
def Matches (st : Files) (hash2 : BitVec 32) (name : Name) (file : Option Nat) (idx : Nat) : Prop :=
  st.hash file idx = hash2.setWidth 28 ∧ ∃ m, nameEntryPtr st file idx = some m ∧ named (st.area file) m name = true

/-- The place before a place of a list, the root's bucket being its own one. -/
def Precedes (before : List Slot) (prev cur : Slot) : Prop := before = [] ∧ prev = cur ∨ ∃ init, before = init ++ [prev]

/-- A position in a list. -/
structure Located (path : List Slot) (position : Position) (before after : List Slot) : Prop where
  parts : path = before ++ position.cur :: .next position.cur.file position.idx :: after
  prev : Precedes before position.prev position.cur

section Walks
variable {st : Files} {goal : Goal} {bucketIdx n : Nat} {hash2 : BitVec 32} {name : Name} {checked : Bool} {path pre rest : List Slot} {prev cur : Slot}

theorem precedes_append (pre : List Slot) (cur next : Slot) : Precedes (pre ++ [cur]) cur next := .inr ⟨pre,rfl⟩

/-- The walk from a place of a list goes through the entries after it. -/
theorem walk_spec (chained : Chained st.links bucketIdx (pre ++ cur :: rest)) (before : Precedes pre prev cur) (enough : rest.length < n)
    (there : goal = .delete → ∀ file idx, .next file idx ∈ rest → (nameEntryPtr st file idx).isSome = true) :
    match walk goal bucketIdx hash2 name checked st n prev cur with
    | .found position => (∃ before after, Located (pre ++ cur :: rest) position before after) ∧
        Matches st hash2 name position.cur.file position.idx
    | .missing => ∀ file idx, .next file idx ∈ rest → ¬Matches st hash2 name file idx
    | .repair _ => False := by
  induction rest generalizing pre prev cur n with
  | nil =>
    cases n with
    | zero => exact absurd enough (Nat.not_lt_zero _)
    | succ n =>
      cases chained.turn with
      | missing read _ =>
        simp only [walk,read]
        exact fun _ _ member => absurd member List.not_mem_nil
      | eof read safe type =>
        simp only [walk,read,safe,type,Bool.and_false,Bool.false_eq_true,if_false]
        exact fun _ _ member => absurd member List.not_mem_nil
  | cons next rest ih =>
    cases n with
    | zero => exact absurd enough (Nat.not_lt_zero _)
    | succ n =>
      have turn := chained.turn
      have split : pre ++ cur :: next :: rest = (pre ++ [cur]) ++ next :: rest := by rw [List.append_assoc]; rfl
      have chained' := chained
      rw [split] at chained'
      have later := ih chained' (precedes_append pre cur next) (Nat.lt_of_succ_lt_succ enough)
        fun delete file idx member => there delete file idx (List.mem_cons_of_mem next member)
      rw [← split] at later
      cases turn with
      | @here p e _ read safe type found =>
        simp only [walk,read,safe,type,found,Bool.and_false,Bool.false_eq_true,if_false]
        -- an entry that is passed by does not match
        have pass : ¬Matches st hash2 name cur.file p.idx.toNat →
            match walk goal bucketIdx hash2 name checked st n cur (.next cur.file p.idx.toNat) with
            | .found position => (∃ before after, Located (pre ++ cur :: .next cur.file p.idx.toNat :: rest) position before after) ∧
                Matches st hash2 name position.cur.file position.idx
            | .missing => ∀ file idx, .next file idx ∈ Slot.next cur.file p.idx.toNat :: rest → ¬Matches st hash2 name file idx
            | .repair _ => False := by
          intro other
          cases result : walk goal bucketIdx hash2 name checked st n cur (.next cur.file p.idx.toNat) with
          | found position =>
            rw [result] at later
            exact later
          | missing =>
            rw [result] at later
            intro file idx member
            rcases List.mem_cons.mp member with same | member
            · cases same
              exact other
            · exact later file idx member
          | repair left =>
            rw [result] at later
            exact later
        by_cases hash : st.hash cur.file p.idx.toNat = hash2.setWidth 28
        · rw [if_neg (fun differs => differs hash)]
          cases memory : nameEntryPtr st cur.file p.idx.toNat with
          | none =>
            have search : goal = .search := by
              cases goal with
              | search => rfl
              | delete =>
                have known := there rfl cur.file p.idx.toNat List.mem_cons_self
                rw [memory] at known
                cases known
            simp only [search,if_true]
            rw [search] at pass
            refine pass fun same => ?_
            obtain ⟨_,m,known,_⟩ := same
            cases memory.symm.trans known
          | some m =>
            by_cases same : named (st.area cur.file) m name = true
            · simp only [same,if_true]
              exact ⟨⟨pre,rest,rfl,before⟩,hash,m,memory,same⟩
            · simp only [same,Bool.false_eq_true,if_false]
              refine pass fun equal => ?_
              obtain ⟨_,m',known,equal⟩ := equal
              cases memory.symm.trans known
              exact same equal
        · rw [if_pos hash]
          exact pass fun equal => hash equal.1
      | @coll p f _ read safe type found =>
        simp only [walk,read,safe,type,found,Bool.and_false,Bool.false_eq_true,if_false]
        cases result : walk goal bucketIdx hash2 name checked st n cur (.bucket (some p.idx.toNat)) with
        | found position =>
          rw [result] at later
          exact later
        | missing =>
          rw [result] at later
          exact fun file idx member => later file idx (by simpa using member)
        | repair left =>
          rw [result] at later
          exact later

/-- The walk over a list: one entry of the name, or there is none. The files are not changed. -/
theorem walkTwice_spec (chained : Chained st.links bucketIdx path) (short : path.length < maxSupportedColl)
    (there : goal = .delete → ∀ file idx, .next file idx ∈ path → (nameEntryPtr st file idx).isSome = true) :
    (∃ position, walkTwice goal bucketIdx hash2 name st = (st,some position) ∧ (∃ before after, Located path position before after) ∧
      Matches st hash2 name position.cur.file position.idx) ∨
    (walkTwice goal bucketIdx hash2 name st = (st,none) ∧ ∀ file idx, .next file idx ∈ path → ¬Matches st hash2 name file idx) := by
  cases path with
  | nil => cases chained.leads
  | cons slot rest =>
    cases chained.leads.1
    have enough : rest.length < maxSupportedColl - 1 := by
      rw [List.length_cons] at short
      omega
    have walked := @walk_spec st goal bucketIdx _ hash2 name true [] rest _ _ chained (.inl ⟨rfl,rfl⟩) enough
      fun delete file idx member => there delete file idx (List.mem_cons_of_mem _ member)
    rw [walkTwice]
    cases result : walk goal bucketIdx hash2 name true st (maxSupportedColl - 1) (.bucket none) (.bucket none) with
    | found position =>
      rw [result] at walked
      exact .inl ⟨position,rfl,walked⟩
    | missing =>
      rw [result] at walked
      exact .inr ⟨rfl,fun file idx member => walked file idx (by simpa using member)⟩
    | repair left =>
      rw [result] at walked
      exact walked.elim

end Walks

end Rozofs.Dirents
