import Mathlib.Data.List.Induction
import Rozofs.ThinRecompute

/-! The number of blocks that a pass computes from the answers of the storages. -/
namespace Rozofs.ThinProvisioning
open Function (update)

/-- The size and the sectors that a storage answers, if it answers. -/
abbrev Response := Option (Nat × Nat)

section Responses
variable {φ : Type} {env : Env φ} {entry : Ctx φ} {needed : Nat}

/-- What the storages of a file answer from storage `i` on. -/
def responses (env : Env φ) (entry : Ctx φ) : Nat → Nat → Connexions → List Response
  | 0, _, _ => []
  | left + 1, i, connexions =>
    let sid := entry.sids.getD i 0
    if sid = 0 then none :: responses env entry left (i + 1) connexions
    else if connexions.status entry.cid sid ≠ some true then none :: responses env entry left (i + 1) connexions
    else
      match (env.reply entry.cid sid entry.fid).answer with
      | none => none :: responses env entry left (i + 1) (connexions.down entry.cid sid)
      | some answer => some answer :: responses env entry left (i + 1) connexions

/-- The loop over the storages on what they answer: the responses that it has received, and its variables. -/
def tallyLoop (needed : Nat) : List Response → List Response → Poll → List Response × Poll
  | got, [], poll => (got,poll)
  | got, none :: rest, poll => tallyLoop needed (got ++ [none]) rest poll
  | got, some (size,sectors) :: rest, poll =>
    let poll := poll.tally got.length size sectors
    if poll.nbOccurences ≥ needed then (got ++ [some (size,sectors)],poll) else tallyLoop needed (got ++ [some (size,sectors)]) rest poll

theorem tally_connexions (i size sectors : Nat) (poll : Poll) (connexions : Connexions) :
    { poll with connexions := connexions }.tally i size sectors = { poll.tally i size sectors with connexions := connexions } := by
  unfold Poll.tally
  dsimp only
  cases (List.range i).find? fun k => (poll.table k).fileSizeInBlocks = size <;> rfl

/-- The loop depends on the storages by their responses only. -/
theorem pollLoop_responses (left : Nat) {i : Nat} {got : List Response} (length : got.length = i) (poll : Poll) (connexions : Connexions) :
    ∃ connexions', pollLoop env entry needed left i { poll with connexions := connexions } =
      { (tallyLoop needed got (responses env entry left i connexions) poll).2 with connexions := connexions' } := by
  induction left generalizing i got poll connexions with
  | zero => exact ⟨connexions,rfl⟩
  | succ left ih =>
    have next : ∀ r, (got ++ [r]).length = i + 1 := fun r => by rw [List.length_append,length,List.length_singleton]
    rw [pollLoop,responses]
    dsimp only
    by_cases zero : entry.sids.getD i 0 = 0
    · rw [if_pos zero,if_pos zero]
      exact ih (next none) poll connexions
    · rw [if_neg zero,if_neg zero]
      by_cases down : connexions.status entry.cid (entry.sids.getD i 0) ≠ some true
      · rw [if_pos down,if_pos down]
        exact ih (next none) poll connexions
      · rw [if_neg down,if_neg down]
        cases answered : (env.reply entry.cid (entry.sids.getD i 0) entry.fid).answer with
        | none => exact ih (next none) poll _
        | some a =>
          obtain ⟨size,sectors⟩ := a
          dsimp only
          rw [tallyLoop,tally_connexions,length]
          dsimp only
          split
          case isTrue => exact ⟨connexions,rfl⟩
          case isFalse => exact ih (next _) _ connexions

end Responses

section Records
variable {needed i size sectors : Nat} {poll : Poll} {got rest : List Response} {f : Nat → Option (List Nat)}

/-- The sectors that the table has for each size, once a response is tallied. -/
def record (f : Nat → Option (List Nat)) (r : Response) (size : Nat) : Option (List Nat) :=
  match f size with
  | some stored =>
    match r with
    | some (other,sectors) => some (if other = size then stored ++ [sectors] else stored)
    | none => some stored
  | none =>
    match r with
    | some (other,_) => if other % 2 ^ 32 = size then some [0] else if size = 0 ∧ (f other).isSome = true then some [] else none
    | none => if size = 0 then some [] else none

/-- The sectors that the table has for each size; a place of the table that is not used is for size 0. -/
def recorded (got : List Response) : Nat → Option (List Nat) := got.foldl record fun _ => none

theorem recorded_append (got : List Response) (r : Response) : recorded (got ++ [r]) = record (recorded got) r := by
  rw [recorded,List.foldl_append]
  rfl

/-- The first `i` places of the table have what is recorded. -/
structure Tabled (table : Nat → Compute) (i : Nat) (f : Nat → Option (List Nat)) : Prop where
  fresh : ∀ k, i ≤ k → table k = ⟨0,[]⟩
  low : ∀ k, (table k).fileSizeInBlocks < 2 ^ 32
  stored : ∀ size, f size = (slot table i size).map fun k => (table k).allocatedSectors

theorem Tabled.silent (tabled : Tabled poll.table i f) : Tabled poll.table (i + 1) (record f none) := by
  have blank := tabled.fresh i (Nat.le_refl _)
  refine ⟨fun k less => tabled.fresh k (by omega),tabled.low,fun size => ?_⟩
  have stored := tabled.stored size
  rw [slot_succ,blank]
  cases found : slot poll.table i size with
  | some k =>
    rw [found] at stored
    simp [record,stored]
  | none =>
    rw [found] at stored
    by_cases zero : size = 0
    · subst zero
      simp [record,stored,blank]
    · simp [record,stored,zero,Ne.symm zero]

/-- The answers so far have a place for the size. -/
theorem Tabled.again (tabled : Tabled poll.table i f) {k : Nat} (found : slot poll.table i size = some k) (sectors : Nat) :
    Tabled (poll.tally i size sectors).table (i + 1) (record f (some (size,sectors))) := by
  obtain ⟨less,own⟩ := slot_some found
  have blank := tabled.fresh i (Nat.le_refl _)
  have mine := tabled.stored size
  have low : size % 2 ^ 32 = size := Nat.mod_eq_of_lt (own ▸ tabled.low k)
  rw [tally_found found,low]
  dsimp only
  have sizes : ∀ k', (update poll.table k ⟨size,(poll.table k).allocatedSectors ++ [sectors]⟩ k').fileSizeInBlocks =
      (poll.table k').fileSizeInBlocks := by
    intro k'
    by_cases here : k' = k
    · rw [here,Function.update_self,own]
    · rw [Function.update_of_ne here]
  constructor
  case fresh =>
    intro k' le
    rw [Function.update_of_ne (by omega)]
    exact tabled.fresh k' (by omega)
  case low =>
    intro k'
    rw [sizes]
    exact tabled.low k'
  case stored =>
    intro other
    have stored := tabled.stored other
    rw [slot_congr (fun k' _ => sizes k'),slot_succ,blank]
    rw [found] at mine
    cases place : slot poll.table i other with
    | some k' =>
      rw [place] at stored
      by_cases same : size = other
      · subst same
        rw [found] at place
        cases place
        simp [record,mine]
      · have apart : k' ≠ k := by
          rintro rfl
          exact same (own.symm.trans (slot_some place).2)
        simp [record,stored,same,apart]
    | none =>
      rw [place] at stored
      have other' : size % 2 ^ 32 ≠ other := by
        rw [low]
        rintro rfl
        rw [found] at place
        cases place
      by_cases zero : other = 0
      · subst zero
        have apart : i ≠ k := Nat.ne_of_gt less
        simp [-Nat.reducePow,record,stored,mine,other',apart,blank]
      · simp [-Nat.reducePow,record,stored,other',zero,Ne.symm zero]

/-- The answers so far have no place for the size. -/
theorem Tabled.first (tabled : Tabled poll.table i f) (notFound : slot poll.table i size = none) (sectors : Nat) :
    Tabled (poll.tally i size sectors).table (i + 1) (record f (some (size,sectors))) := by
  have blank := tabled.fresh i (Nat.le_refl _)
  have mine := tabled.stored size
  rw [tally_new notFound]
  dsimp only
  rw [notFound] at mine
  have before : ∀ k < i, (update poll.table i ⟨size % 2 ^ 32,(poll.table i).allocatedSectors ++ [0]⟩ k).fileSizeInBlocks =
      (poll.table k).fileSizeInBlocks := by
    intro k less
    rw [Function.update_of_ne (by omega)]
  constructor
  case fresh =>
    intro k le
    rw [Function.update_of_ne (by omega)]
    exact tabled.fresh k (by omega)
  case low =>
    intro k
    by_cases here : k = i
    · rw [here,Function.update_self]
      exact Nat.mod_lt _ (by decide)
    · rw [Function.update_of_ne here]
      exact tabled.low k
  case stored =>
    intro other
    have stored := tabled.stored other
    rw [slot_succ,slot_congr before,Function.update_self,blank]
    cases place : slot poll.table i other with
    | some k =>
      rw [place] at stored
      have apart : k ≠ i := Nat.ne_of_lt (slot_some place).1
      have differ : size ≠ other := by
        rintro rfl
        rw [notFound] at place
        cases place
      simp [record,stored,differ,apart]
    | none =>
      rw [place] at stored
      by_cases same : size % 2 ^ 32 = other
      · simp [-Nat.reducePow,record,stored,same]
      · simp [-Nat.reducePow,record,stored,mine,same]

theorem Tabled.answer (tabled : Tabled poll.table i f) (size sectors : Nat) :
    Tabled (poll.tally i size sectors).table (i + 1) (record f (some (size,sectors))) := by
  cases found : slot poll.table i size with
  | some k => exact tabled.again found sectors
  | none => exact tabled.first found sectors

/-- Fewer answers than needed are recorded for each size. -/
def Few (needed : Nat) (f : Nat → Option (List Nat)) : Prop := ∀ size stored, f size = some stored → stored.length < needed

theorem Few.silent (few : Few needed f) (two : 2 ≤ needed) : Few needed (record f none) := by
  intro size stored some
  have before := few size
  unfold record at some
  cases had : f size with
  | some l =>
    rw [had] at some
    cases some
    exact before stored had
  | none =>
    rw [had] at some
    dsimp only at some
    split at some
    · cases some
      exact Nat.lt_of_lt_of_le Nat.zero_lt_two two
    · cases some

/-- The other sizes have as many answers as before, or one. -/
theorem Few.others (few : Few needed f) (two : 2 ≤ needed) {other : Nat} (differ : other ≠ size ∨ f size = none) {stored : List Nat}
    (here : record f (some (size,sectors)) other = some stored) : stored.length < needed := by
  have before := few other
  unfold record at here
  cases had : f other with
  | some l =>
    have apart : size ≠ other := by
      rintro rfl
      rcases differ with differ | absent
      · exact differ rfl
      · rw [had] at absent
        cases absent
    simp only [had,if_neg apart,Option.some.injEq] at here
    subst here
    exact before l had
  | none =>
    rw [had] at here
    dsimp only at here
    split at here
    · cases here
      exact two
    · split at here
      · cases here
        exact Nat.lt_of_lt_of_le Nat.zero_lt_two two
      · cases here

/-- How the loop ends: too few answers of each size, or just enough of the size of the last one. -/
inductive Ended (needed : Nat) (got : List Response) (poll : Poll) : Prop where
  | few (few : Few needed (recorded got)) (count : poll.nbOccurences < needed)
  | enough (before : List Response) (size sectors : Nat) (stored : List Nat) (last : got = before ++ [some (size,sectors)])
    (here : recorded got size = some stored) (exact : stored.length = needed)
    (table : (poll.table poll.occurenceIndex).allocatedSectors = stored) (count : needed ≤ poll.nbOccurences)
    (others : ∀ other stored, other ≠ size → recorded got other = some stored → stored.length < needed)

theorem tallyLoop_ended (two : 2 ≤ needed) (rest : List Response) {got : List Response} {poll : Poll}
    (tabled : Tabled poll.table got.length (recorded got)) (few : Few needed (recorded got)) (under : poll.nbOccurences < needed) :
    Ended needed (tallyLoop needed got rest poll).1 (tallyLoop needed got rest poll).2 := by
  induction rest generalizing got poll with
  | nil => exact .few few under
  | cons r rest ih =>
    cases r with
    | none =>
      apply ih
      · rw [recorded_append,List.length_append]
        exact tabled.silent
      · rw [recorded_append]
        exact few.silent two
      · exact under
    | some answer =>
      obtain ⟨size,sectors⟩ := answer
      have tabled' : Tabled (poll.tally got.length size sectors).table (got ++ [some (size,sectors)]).length
          (recorded (got ++ [some (size,sectors)])) := by
        rw [recorded_append,List.length_append]
        exact tabled.answer size sectors
      have own := tabled.stored size
      rw [tallyLoop]
      cases found : slot poll.table got.length size with
      | none =>
        rw [found] at own
        have same : (poll.tally got.length size sectors).nbOccurences = poll.nbOccurences := by rw [tally_new found]
        rw [same,if_neg (Nat.not_le_of_lt under)]
        apply ih tabled' _ (same ▸ under)
        rw [recorded_append]
        exact fun other stored here => few.others two (.inr own) here
      | some k =>
        rw [found,Option.map_some] at own
        have count : (poll.tally got.length size sectors).nbOccurences = ((poll.table k).allocatedSectors ++ [sectors]).length := by
          rw [tally_found found]
        have here : recorded (got ++ [some (size,sectors)]) size = some ((poll.table k).allocatedSectors ++ [sectors]) := by
          rw [recorded_append]
          simp [record,own]
        have before := few size _ own
        have others : ∀ other stored, other ≠ size → recorded (got ++ [some (size,sectors)]) other = some stored → stored.length < needed := by
          intro other stored differ there
          rw [recorded_append] at there
          exact few.others two (.inl differ) there
        split
        case isTrue enough =>
          refine .enough got size sectors _ rfl here ?_ ?_ enough others
          · rw [count] at enough
            rw [List.length_append,List.length_singleton] at enough ⊢
            omega
          · rw [tally_found found]
            dsimp only
            rw [Function.update_self]
        case isFalse less =>
          refine ih tabled' (fun other stored there => ?_) (Nat.lt_of_not_le less)
          by_cases same : other = size
          · subst same
            rw [here] at there
            cases there
            rw [← count]
            exact Nat.lt_of_not_le less
          · exact others other stored same there

end Records

section Groups
variable {needed size other sectors : Nat} {got before after : List Response} {r : Response} {stored : List Nat} {layout : Layout}

/-- The sectors of the answers of a size. -/
def answersOf (got : List Response) (size : Nat) : List Nat :=
  got.filterMap fun r => r.bind fun answer => if answer.1 = size then some answer.2 else none

/-- The size is that of an earlier answer, in 32 bits. -/
def Repeats (before : List Response) (size : Nat) : Prop :=
  size < 2 ^ 32 ∧ ∃ earlier sectors, some (earlier,sectors) ∈ before ∧ earlier % 2 ^ 32 = size

/-- The place of the table of a response is for the size: it is the first one of the size in 32 bits, or its place
is not used and the size is 0. -/
def Takes (before : List Response) (r : Response) (size : Nat) : Prop :=
  match r with
  | some (other,_) => other % 2 ^ 32 = size ∨ size = 0 ∧ Repeats before other
  | none => size = 0

/-- No place is for the size. -/
def Free (got : List Response) (size : Nat) : Prop := ∀ before r after, got = before ++ r :: after → ¬Takes before r size

theorem Free.init (free : Free (got ++ [r]) size) : Free got size := by
  rintro before r' after rfl takes
  exact free before r' (after ++ [r]) (by simp) takes

theorem repeats_recorded (mem : some (other,sectors) ∈ got) : (recorded got (other % 2 ^ 32)).isSome = true := by
  induction got using List.reverseRecOn with
  | nil => cases mem
  | append_singleton got r ih =>
    rw [recorded_append]
    unfold record
    cases had : recorded got (other % 2 ^ 32) with
    | some stored => cases r <;> rfl
    | none =>
      rcases List.mem_append.mp mem with before | last
      · rw [had] at ih
        cases ih before
      · obtain rfl := List.mem_singleton.mp last
        simp

theorem recorded_repeats (some : recorded got size = some stored) : size = 0 ∨ Repeats got size := by
  induction got using List.reverseRecOn generalizing stored with
  | nil => cases some
  | append_singleton got r ih =>
    rw [recorded_append] at some
    unfold record at some
    cases had : recorded got size with
    | some before =>
      apply (ih had).imp id
      rintro ⟨low,earlier,sectors,mem,same⟩
      exact ⟨low,earlier,sectors,List.mem_append_left _ mem,same⟩
    | none =>
      rw [had] at some
      by_cases zero : size = 0
      · exact .inl zero
      · cases r with
        | none => simp [zero] at some
        | some answer =>
          obtain ⟨other,sectors⟩ := answer
          by_cases same : other % 2 ^ 32 = size
          · refine .inr ⟨?_,other,sectors,by simp,same⟩
            rw [← same]
            exact Nat.mod_lt _ (by decide)
          · simp [-Nat.reducePow,zero,same] at some

/-- What is recorded when the place of a response is for a size: the sectors of an answer are not. -/
def lead (r : Response) (size : Nat) : List Nat :=
  match r with
  | some (other,_) => if other % 2 ^ 32 = size then [0] else []
  | none => []

theorem record_takes (absent : recorded before size = none) (takes : Takes before r size) :
    record (recorded before) r size = some (lead r size) := by
  unfold record
  rw [absent]
  cases r with
  | none =>
    have zero : size = 0 := takes
    simp [lead,zero]
  | some answer =>
    obtain ⟨other,sectors⟩ := answer
    by_cases same : other % 2 ^ 32 = size
    · simp [-Nat.reducePow,lead,same]
    · obtain ⟨zero,low,earlier,sectors',mem,rfl⟩ := takes.resolve_left same
      have had := repeats_recorded mem
      subst zero
      simp only [lead,if_neg same,had,true_and,if_true]

theorem record_free (absent : recorded before size = none) (free : ¬Takes before r size) : record (recorded before) r size = none := by
  unfold record
  rw [absent]
  cases r with
  | none => exact if_neg free
  | some answer =>
    obtain ⟨other,sectors⟩ := answer
    have differ : ¬other % 2 ^ 32 = size := fun same => free (.inl same)
    dsimp only
    rw [if_neg differ,if_neg]
    rintro ⟨zero,some⟩
    obtain ⟨stored,had⟩ := Option.isSome_iff_exists.mp some
    rcases recorded_repeats had with otherZero | repeats
    · exact differ (by rw [otherZero,zero,Nat.zero_mod])
    · exact free (.inr ⟨zero,repeats⟩)

theorem recorded_free (free : Free got size) : recorded got size = none := by
  induction got using List.reverseRecOn with
  | nil => rfl
  | append_singleton got r ih =>
    rw [recorded_append]
    exact record_free (ih free.init) (free got r [] rfl)

/-- All that is recorded for a size, from the response on that takes its place. -/
theorem recorded_taken (free : Free before size) (takes : Takes before r size) (after : List Response) :
    recorded (before ++ r :: after) size = some (lead r size ++ answersOf after size) := by
  induction after using List.reverseRecOn with
  | nil =>
    rw [recorded_append,record_takes (recorded_free free) takes]
    simp [answersOf]
  | append_singleton after last ih =>
    have split : before ++ r :: (after ++ [last]) = (before ++ r :: after) ++ [last] := by simp
    rw [split,recorded_append]
    unfold record
    rw [ih]
    cases last with
    | none => simp [answersOf]
    | some answer =>
      by_cases same : answer.1 = size
      · simp [answersOf,same]
      · simp [answersOf,same]

/-- A size that has a place has a first one. -/
theorem first_taken (taken : ¬Free got size) : ∃ before r after, got = before ++ r :: after ∧ Free before size ∧ Takes before r size := by
  induction got using List.reverseRecOn with
  | nil =>
    refine absurd (fun before r after same => ?_) taken
    simp at same
  | append_singleton got r ih =>
    by_cases free : Free got size
    · refine ⟨got,r,[],rfl,free,?_⟩
      by_contra no
      refine taken fun before r' after same => ?_
      rcases List.eq_nil_or_concat after with rfl | ⟨rest,last,rfl⟩
      · obtain ⟨same,last⟩ := List.append_inj' same rfl
        rw [← same,← List.singleton_inj.mp last]
        exact no
      · have longer : got ++ [r] = (before ++ r' :: rest) ++ [last] := by simpa using same
        exact free before r' rest (List.append_inj' longer rfl).1
    · obtain ⟨before,r',after,rfl,first,takes⟩ := ih free
      exact ⟨before,r',after ++ [r],by simp,first,takes⟩

theorem taken_of_recorded (some : recorded got size = some stored) :
    ∃ before r after, got = before ++ r :: after ∧ Free before size ∧ Takes before r size := by
  apply first_taken
  intro free
  rw [recorded_free free] at some
  cases some

/-- No answer before the first place of a size is of the size. -/
theorem answersOf_free (free : Free before size) (low : size < 2 ^ 32) : answersOf before size = [] := by
  unfold answersOf
  rw [List.filterMap_eq_nil_iff]
  intro r mem
  obtain ⟨first,rest,rfl⟩ := List.append_of_mem mem
  cases r with
  | none => rfl
  | some answer =>
    have differ : answer.1 ≠ size := by
      intro same
      refine free first (some answer) rest rfl (.inl ?_)
      rw [same,Nat.mod_eq_of_lt low]
    simp [differ]

theorem takes_low (takes : Takes before r size) : size < 2 ^ 32 := by
  cases r with
  | none =>
    have zero : size = 0 := takes
    omega
  | some answer =>
    rcases takes with same | ⟨zero,_⟩
    · rw [← same]
      exact Nat.mod_lt _ (by decide)
    · omega

/-- All the answers of a size. -/
theorem answersOf_taken (free : Free before size) (takes : Takes before r size) (after : List Response) :
    answersOf (before ++ r :: after) size = answersOf [r] size ++ answersOf after size := by
  have none := answersOf_free free (takes_low takes)
  have split : before ++ r :: after = before ++ ([r] ++ after) := rfl
  unfold answersOf at none ⊢
  rw [split,List.filterMap_append,List.filterMap_append,none,List.nil_append]

/-- The greatest number of sectors. -/
def greatest (sectors : List Nat) : Nat := sectors.foldl max 0

/-- A number of sectors in units of 4KB, rounded up. -/
def units (sectors : Nat) : Nat := (sectors + 7) / 8

theorem foldl_max (n : Nat) (sectors : List Nat) : sectors.foldl max n = max n (greatest sectors) := by
  unfold greatest
  induction sectors generalizing n with
  | nil => simp
  | cons m rest ih =>
    rw [List.foldl_cons,List.foldl_cons,ih (max n m),ih (max 0 m)]
    omega

theorem greatest_cons (n : Nat) (sectors : List Nat) : greatest (n :: sectors) = max n (greatest sectors) := by
  have folded := foldl_max (max 0 n) sectors
  rw [Nat.zero_max] at folded
  exact folded

/-- The count of the code is that of the greatest number exactly when the number that it has is as great, in units, and
fits in 32 bits. -/
theorem nbBlocks_right (layout : Layout) {stored : List Nat} {sectors : Nat} (le : greatest stored ≤ sectors)
    (fits : layout.rozofsInverse * units sectors < 2 ^ 32) :
    nbBlocks layout stored = layout.rozofsInverse * units sectors ↔ greatest stored < 2 ^ 32 ∧ units sectors ≤ units (greatest stored) := by
  have shape : nbBlocks layout stored =
      (greatest stored % 2 ^ 32 / 8 + if greatest stored % 8 ≠ 0 then 1 else 0) * layout.rozofsInverse % 2 ^ 32 := rfl
  rw [shape]
  generalize greatest stored = n at le
  unfold units at fits ⊢
  cases layout with
  | layout_2_3_4 =>
    simp only [Layout.rozofsInverse] at fits ⊢
    split <;> omega
  | layout_4_6_8 =>
    simp only [Layout.rozofsInverse] at fits ⊢
    split <;> omega
  | layout_8_12_16 =>
    simp only [Layout.rozofsInverse] at fits ⊢
    split <;> omega

/-- The blocks of the greatest number of sectors among the answers of a size. -/
def blocksOf (layout : Layout) (got : List Response) (size : Nat) : Nat := layout.rozofsInverse * units (greatest (answersOf got size))

/-- What a count is to be: the loop stays in the nine places of its tables, enough answers have the size of the last one,
and the count is that of the greatest one. -/
structure BlocksRight (layout : Layout) (got : List Response) (count : Option Nat) : Prop where
  inside : got.length ≤ maxSid
  right : ∀ n, count = some n → ∃ before size sectors, got = before ++ [some (size,sectors)] ∧ quorum layout ≤ (answersOf got size).length ∧
    (blocksOf layout got size < 2 ^ 32 → n = blocksOf layout got size)

/-- The answers of each size that has enough of them: the first place of the size is not that of another size, and
among the answers that follow one has as many units as the greatest one, below 2^32 sectors. -/
def WellRecorded (layout : Layout) (got : List Response) : Prop :=
  ∀ size before r after, got = before ++ r :: after → Free before size → Takes before r size →
    quorum layout ≤ (lead r size).length + (answersOf after size).length →
    (∀ other sectors, r = some (other,sectors) → other % 2 ^ 32 = size → other = size) ∧
    (blocksOf layout got size < 2 ^ 32 → greatest (answersOf after size) < 2 ^ 32 ∧
      units (greatest (answersOf got size)) ≤ units (greatest (answersOf after size)))

theorem greatest_lead (r : Response) (size : Nat) (sectors : List Nat) : greatest (lead r size ++ sectors) = greatest sectors := by
  have zero : greatest (0 :: sectors) = greatest sectors := by rw [greatest_cons,Nat.zero_max]
  cases r with
  | none => rfl
  | some answer =>
    unfold lead
    dsimp only
    split
    case isTrue => exact zero
    case isFalse => rfl

theorem greatest_append (front back : List Nat) : greatest back ≤ greatest (front ++ back) := by
  induction front with
  | nil => exact Nat.le_refl _
  | cons n rest ih =>
    rw [List.cons_append,greatest_cons]
    exact ih.trans (Nat.le_max_right _ _)

/-- What is recorded for a size that has a place is what is missing or not of the answers of the size. -/
theorem answersOf_length (free : Free before size) (takes : Takes before r size) (after : List Response) :
    (answersOf (before ++ r :: after) size).length ≤ (lead r size).length + (answersOf after size).length ∧
    ((answersOf (before ++ r :: after) size).length = (lead r size).length + (answersOf after size).length ↔
      ∀ other sectors, r = some (other,sectors) → other % 2 ^ 32 = size → other = size) := by
  have low := takes_low takes
  rw [answersOf_taken free takes after,List.length_append]
  cases r with
  | none => simp [answersOf,lead]
  | some answer =>
    obtain ⟨other,sectors⟩ := answer
    by_cases own : other = size
    · subst own
      simp [-Nat.reducePow,answersOf,lead,Nat.mod_eq_of_lt low]
    · by_cases same : other % 2 ^ 32 = size
      · simp [-Nat.reducePow,answersOf,lead,same,own]
      · simp [-Nat.reducePow,answersOf,lead,same,own]

/-- The count that the loop has found is right exactly when the answers are well recorded. -/
theorem enough_right {before : List Response} {size sectors : Nat} (last : got = before ++ [some (size,sectors)])
    (here : recorded got size = some stored) (exact : stored.length = quorum layout)
    (others : ∀ other stored, other ≠ size → recorded got other = some stored → stored.length < quorum layout) :
    (quorum layout ≤ (answersOf got size).length ∧ (blocksOf layout got size < 2 ^ 32 → nbBlocks layout stored = blocksOf layout got size)) ↔
      WellRecorded layout got := by
  constructor
  · rintro ⟨enough,right⟩ size' before' r after shape free takes full
    have there := recorded_taken free takes after
    rw [← shape] at there
    have same : size' = size := by
      by_contra differ
      have less := others size' _ differ there
      rw [List.length_append] at less
      omega
    subst same
    rw [here,Option.some.injEq] at there
    have length := (answersOf_length free takes after).1
    have full := (answersOf_length free takes after).2
    rw [← shape] at length full
    rw [there,List.length_append] at exact
    refine ⟨full.mp (by omega),fun fits => ?_⟩
    have le : greatest stored ≤ greatest (answersOf got size') := by
      rw [there,greatest_lead,shape,answersOf_taken free takes after]
      exact greatest_append _ _
    have well := (nbBlocks_right layout le fits).mp (right fits)
    rwa [there,greatest_lead] at well
  · intro well
    obtain ⟨before',r,after,shape,free,takes⟩ := taken_of_recorded here
    have there := recorded_taken free takes after
    rw [← shape,here,Option.some.injEq] at there
    rw [there,List.length_append] at exact
    obtain ⟨own,great⟩ := well size before' r after shape free takes (by omega)
    have full := (answersOf_length free takes after).2.mpr own
    rw [← shape] at full
    refine ⟨by omega,fun fits => ?_⟩
    have le : greatest stored ≤ greatest (answersOf got size) := by
      rw [there,greatest_lead,shape,answersOf_taken free takes after]
      exact greatest_append _ _
    apply (nbBlocks_right layout le fits).mpr
    rw [there,greatest_lead]
    exact great fits

end Groups

section Counts
variable {φ : Type} {env : Env φ} {entry : Ctx φ} {line : Line φ} {layout : Layout} {p : Nat} {connexions : Connexions}

/-- The responses that the loop over the storages of a file receives. -/
def received (env : Env φ) (entry : Ctx φ) (layout : Layout) (connexions : Connexions) : List Response :=
  (tallyLoop (quorum layout) [] (responses env entry layout.rozofsForward 0 connexions) ⟨connexions,fun _ => ⟨0,[]⟩,0,0⟩).1

/-- The count that the work on a context sets, if it does. -/
def newCount (p : Nat) (before after : Line φ) : Option Nat :=
  if after.processedFiles = before.processedFiles then none else (after.heap p).map Ctx.nb4KBBlocks

/-- The blocks of a file are counted as they should exactly when the loop stays in its tables and the answers of the
size that is found are well recorded. -/
theorem blocks_counted (env : Env φ) (entry : Ctx φ) (line : Line φ) (p : Nat) (layout : Layout) (connexions : Connexions)
    (exported : env.exports entry.fid = some layout)
    (connected : (if line.cnxInit then some line.connexions else env.setup entry.fid) = some connexions) :
    BlocksRight layout (received env entry layout connexions) (newCount p line (computeEntry env p entry line).1) ↔
      (received env entry layout connexions).length ≤ maxSid ∧ WellRecorded layout (received env entry layout connexions) := by
  have two := quorum_two layout
  have tabled : Tabled (fun _ => ⟨0,[]⟩ : Nat → Compute) 0 (recorded []) := by
    refine ⟨fun _ _ => rfl,fun _ => by decide,fun size => ?_⟩
    simp [slot,recorded]
  have few : Few (quorum layout) (recorded []) := fun size stored some => by cases some
  have ended := @tallyLoop_ended (quorum layout) two (responses env entry layout.rozofsForward 0 connexions) []
    ⟨connexions,fun _ => ⟨0,[]⟩,0,0⟩ tabled few (Nat.lt_of_lt_of_le Nat.zero_lt_two two)
  obtain ⟨connexions',polled⟩ := @pollLoop_responses φ env entry (quorum layout) layout.rozofsForward 0 [] rfl
    ⟨connexions,fun _ => ⟨0,[]⟩,0,0⟩ connexions
  unfold computeEntry received
  simp only [exported,connected]
  dsimp only at polled
  rw [polled]
  generalize tallyLoop (quorum layout) [] (responses env entry layout.rozofsForward 0 connexions) ⟨connexions,fun _ => ⟨0,[]⟩,0,0⟩ = result at ended
  obtain ⟨got,poll⟩ := result
  cases ended with
  | few few count =>
    have vacuous : WellRecorded layout got := by
      intro size before r after shape free takes full
      have less := few size _ (shape ▸ recorded_taken free takes after)
      rw [List.length_append] at less
      omega
    simp only [if_pos count]
    constructor
    · exact fun right => ⟨right.inside,vacuous⟩
    · rintro ⟨inside,_⟩
      refine ⟨inside,fun n some => ?_⟩
      simp [newCount] at some
  | enough before size sectors stored last here exact table count others =>
    dsimp only at last here table count others
    have counted := enough_right last here exact others
    have none : ¬poll.nbOccurences < quorum layout := Nat.not_lt_of_le count
    have found : ∀ n, newCount p line { line with
        cnxInit := true, connexions := connexions', processedFiles := line.processedFiles + 1
        heap := update line.heap p (some { entry with
          timestamp := env.later, nb4KBBlocks := nbBlocks layout (poll.table poll.occurenceIndex).allocatedSectors
          state := if entry.state = .inPrg then .idle else entry.state }) } = some n ↔ nbBlocks layout stored = n := by
      intro n
      rw [table]
      simp [newCount]
    simp only [if_neg none]
    constructor
    · intro right
      refine ⟨right.inside,counted.mp ?_⟩
      obtain ⟨before',size',sectors',shape,enough,count⟩ := right.right _ ((found _).mpr rfl)
      have lasts := List.append_inj' (last.symm.trans shape) rfl
      cases List.singleton_inj.mp lasts.2
      exact ⟨enough,count⟩
    · rintro ⟨inside,well⟩
      refine ⟨inside,fun n some => ?_⟩
      obtain ⟨enough,count⟩ := counted.mpr well
      obtain rfl := (found n).mp some
      exact ⟨before,size,sectors,last,enough,count⟩

/-- The storages are on different hosts, which are up. -/
def hosts : Connexions := ⟨fun _ sid => some sid,fun _ => true⟩

/-- A file of an export of some layout, and what each of its storages answers. -/
def answering (layout : Layout) (reply : Nat → Reply) : Env Nat :=
  ⟨100,101,fun _ => some layout,fun _ => some hosts,fun _ sid _ => reply sid⟩

def polledFile : Ctx Nat := ⟨1,1,[1,2,3,4,5,6,7,8,9],.inPrg,0,0⟩

def idleLine : Line Nat := ⟨fun _ => some polledFile,1,false,⟨fun _ _ => none,fun _ => false⟩,0⟩

def polledCount (layout : Layout) (reply : Nat → Reply) : Option Nat :=
  newCount 0 idleLine (computeEntry (answering layout reply) 0 polledFile idleLine).1

def polled (layout : Layout) (reply : Nat → Reply) : List Response :=
  received (answering layout reply) polledFile layout hosts

/-- Three storages with one size and the same number of sectors. -/
theorem blocks_counted_same :
    polled .layout_2_3_4 (fun _ => .size 5 40) = [some (5,40),some (5,40)] ∧ polledCount .layout_2_3_4 (fun _ => .size 5 40) = some 10 ∧
    (BlocksRight .layout_2_3_4 (polled .layout_2_3_4 fun _ => .size 5 40) (polledCount .layout_2_3_4 fun _ => .size 5 40) ↔
      (polled .layout_2_3_4 fun _ => .size 5 40).length ≤ maxSid ∧ WellRecorded .layout_2_3_4 (polled .layout_2_3_4 fun _ => .size 5 40)) :=
  ⟨by decide,by decide,blocks_counted (answering .layout_2_3_4 fun _ => .size 5 40) polledFile idleLine 0 .layout_2_3_4 _ rfl rfl⟩

/-- The first storage has 800 sectors and the second one 40: the count is that of 40. With 2^32 sectors the count is 0.
Sizes that differ by 2^32 are taken for one. With twelve storages that do not answer, the loop goes on after its nine places. -/
theorem first_answer_lost :
    ¬BlocksRight .layout_2_3_4 (polled .layout_2_3_4 fun sid => .size 5 (if sid = 1 then 800 else 40))
      (polledCount .layout_2_3_4 fun sid => .size 5 (if sid = 1 then 800 else 40)) ∧
    polledCount .layout_2_3_4 (fun _ => .size 5 (2 ^ 32)) = some 0 ∧
    polled .layout_2_3_4 (fun sid => .size (if sid = 1 then 2 ^ 32 + 5 else 5) 40) = [some (2 ^ 32 + 5,40),some (5,40)] ∧
    polledCount .layout_2_3_4 (fun sid => .size (if sid = 1 then 2 ^ 32 + 5 else 5) 40) = some 10 ∧
    (polled .layout_8_12_16 fun _ => .error).length = 12 := by
  have got : polled .layout_2_3_4 (fun sid => .size 5 (if sid = 1 then 800 else 40)) = [some (5,800),some (5,40)] := by decide
  have count : polledCount .layout_2_3_4 (fun sid => .size 5 (if sid = 1 then 800 else 40)) = some 10 := by decide
  refine ⟨fun right => ?_,by decide +kernel,by decide +kernel,by decide +kernel,by decide⟩
  obtain ⟨before,size,sectors,last,_,same⟩ := right.right 10 count
  rw [got] at last same
  have shape : [some (5,800)] ++ [some (5,40)] = before ++ [some (size,sectors)] := last
  cases List.singleton_inj.mp (List.append_inj' shape rfl).2
  exact absurd (same (by decide)) (by decide)

end Counts

end Rozofs.ThinProvisioning
