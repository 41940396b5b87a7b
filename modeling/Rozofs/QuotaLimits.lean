import Rozofs.QuotaAccounts

/-! Limits: creations that pass the check keep each account within its hard limit of inodes, and the
deadline of an account above a soft limit, of inodes or of blocks, is the one of its last crossing. -/
namespace Rozofs.Quota

/-- Above the soft limit. -/
def Kind.above : Kind → MemDqblk → Bool
  | .inodes, q => exceeds q.curinodes q.isoftlimit
  | .blocks, q => exceeds (toqb q.curspace) q.bsoftlimit

/-- The deadline in the account. -/
def Kind.deadline : Kind → MemDqblk → BitVec 64
  | .inodes, q => q.itime
  | .blocks, q => q.btime

/-- The grace period. -/
def Kind.grace : Kind → QuotaInfo → BitVec 32
  | .inodes, info => info.igrace
  | .blocks, info => info.bgrace

/-- The deadline that a limit change gives. -/
def Kind.timeleft : Kind → SqDqblk → BitVec 64
  | .inodes, src => src.ftimeleft
  | .blocks, src => src.btimeleft

/-- The deadline of an account above its soft limit is now. -/
def Kind.expires (kind : Kind) (now : Nat) (q : MemDqblk) : Prop := kind.above q = true ∧ kind.deadline q = timeT now

instance {kind : Kind} : Decidable (kind.expires now q) := inferInstanceAs (Decidable (_ ∧ _))

end Rozofs.Quota

namespace Rozofs.Quota.Limits
open QuotaWriteback (Key)

/-- The deadline that a change of an account calls for: the old one, or a new one at a crossing. -/
def dueAfter (kind : Kind) (now : Nat) (grace : BitVec 32) (before after : MemDqblk) (due : Option (BitVec 64)) : Option (BitVec 64) :=
  if kind.above after then if kind.above before then due else some (timeT now + grace.setWidth 64) else none

/-- The deadlines of the accounts by account; none for an account that is not above its limit or
whose deadline was set by the administrator. -/
abbrev Deadlines := Nat → QuotaType → BitVec 32 → Kind → Option (BitVec 64)

/-- The quotas with the deadlines due. -/
structure Watch where
  quota : State
  due : Deadlines

/-- The grace period in force. -/
def grace (s : State) (eid : Nat) (type : QuotaType) (kind : Kind) : BitVec 32 :=
  match s.context eid with
  | none => 0
  | some p => kind.grace (p type)

/-- The deadlines after a change of the accounts. -/
def Watch.next (w : Watch) (s : State) : Watch :=
  ⟨s,fun eid type id kind =>
    dueAfter kind s.now (grace w.quota eid type kind) (w.quota.account eid type id) (s.account eid type id) (w.due eid type id kind)⟩

inductive Action where
  | create (eid : Nat) (userId grpId : BitVec 32) (share : BitVec 16) (later : Nat)
  | delete (eid : Nat) (userId grpId : BitVec 32) (share : BitVec 16)
  | block (eid : Nat) (userId grpId : BitVec 32) (size : BitVec 64) (action : Direction) (share : BitVec 16)
  | setQuota (eid : Nat) (type : QuotaType) (identifier : BitVec 32) (src : SqDqblk)
  | setQuotainfo (eid : Nat) (type : QuotaType) (btimeleft ftimeleft : BitVec 64)
  | evict (i : Nat)
  | flush (slot : Nat)
  | tick (now : Nat)

/-- The clock is after 1970, and no deadline is beyond its range. -/
def Clock (now : Nat) : Prop := 0 < now ∧ now < 2 ^ 62

instance : Decidable (Clock now) := inferInstanceAs (Decidable (_ ∧ _))

/-- A creation is made when it is not refused, and recorded a little later. A hard limit is not set
below the usage. The deadline of an account whose times are set is the one of the administrator. -/
def step : Action → Watch → Option Watch
  | .create eid userId grpId share later, w =>
    if Clock later then
      match w.quota.checkQuota eid userId grpId share with
      | (true,s) => some (w.next s)
      | (false,s) => some (w.next ({ s with now := later }.inodeUpdate eid userId grpId 1 .inc share))
    else none
  | .delete eid userId grpId share, w => some (w.next (w.quota.inodeUpdate eid userId grpId 1 .dec share))
  | .block eid userId grpId size action share, w => some (w.next (w.quota.blockUpdate eid userId grpId size action share))
  | .setQuota eid type identifier src, w =>
    if src.ilimits = true → src.fhardlimit ≠ 0 → (w.quota.account eid type identifier).curinodes.toInt ≤ src.fhardlimit.toInt then
      let w' := w.next (w.quota.setQuota eid type identifier src)
      some (if src.times then
        { w' with due := fun eid' type' id kind =>
            if eid' = eid ∧ type' = type ∧ id = identifier then none else w'.due eid' type' id kind }
        else w')
    else none
  | .setQuotainfo eid type btimeleft ftimeleft, w => some { w with quota := w.quota.setQuotainfo eid type btimeleft ftimeleft }
  | .evict i, w => some { w with quota := w.quota.evict i }
  | .flush slot, w => some { w with quota := w.quota.flush slot }
  | .tick now, w => if Clock now then some { w with quota := { w.quota with now := now } } else none

/-- The accounts that the check of a creation reads. -/
def checkTargets (userId grpId : BitVec 32) (share : BitVec 16) : Targets :=
  [(.usrquota,userId),(.grpquota,grpId)] ++ (if share ≠ 0 then [(.shrquota,share.setWidth 32)] else [])

/-- The usage is exactly the hard limit, or a deadline is now. -/
def onTheEdge (now : Nat) (q : MemDqblk) : Prop :=
  q.ihardlimit ≠ 0 ∧ q.curinodes = q.ihardlimit ∨ Kind.inodes.expires now q ∨ Kind.blocks.expires now q

instance : Decidable (onTheEdge now q) := inferInstanceAs (Decidable (_ ∨ _ ∨ _))

/-- The condition on a step: no creation by an account on the edge, and no counter wraps. -/
def Fit (w : Watch) : Action → Prop
  | .create eid userId grpId share _ => (w.quota.context eid).isNone ∨
      (∀ target ∈ checkTargets userId grpId share, ¬onTheEdge w.quota.now (w.quota.account eid target.1 target.2)) ∧
      ∀ target ∈ inodeTargets userId grpId share, w.quota.Counted (accountKey eid target.1 target.2) ∧
        (w.quota.account eid target.1 target.2).curinodes.toInt + 1 < 2 ^ 63
  | .delete eid userId grpId share =>
    ∀ target ∈ inodeTargets userId grpId share, w.quota.Counted (accountKey eid target.1 target.2)
  | .block eid userId grpId _ _ share =>
    ∀ target ∈ blockTargets userId grpId share, w.quota.Counted (accountKey eid target.1 target.2)
  | .setQuota eid type identifier _ => w.quota.Counted (accountKey eid type identifier)
  | _ => True

instance (w : Watch) : (a : Action) → Decidable (Fit w a)
  | .create .. => inferInstanceAs (Decidable (_ ∨ _))
  | .delete .. => inferInstanceAs (Decidable (∀ target ∈ _, _))
  | .block .. => inferInstanceAs (Decidable (∀ target ∈ _, _))
  | .setQuota .. => inferInstanceAs (Decidable (State.Counted _ _))
  | .setQuotainfo .. => inferInstanceAs (Decidable True)
  | .evict _ => inferInstanceAs (Decidable True)
  | .flush _ => inferInstanceAs (Decidable True)
  | .tick _ => inferInstanceAs (Decidable True)

/-- Exports numbered from 1 to 1023 with the quotas of all types enabled. -/
def Configured (table : Nat → Option (QuotaType → QuotaInfo)) : Prop :=
  Numbered table ∧ ∀ eid p, table eid = some p → ∀ type, (p type).enable = true

/-- The deadline of a soft limit is the one due. -/
structure Timely (kind : Kind) (q : MemDqblk) (due : Option (BitVec 64)) : Prop where
  soft : kind.above q = true → kind.deadline q ≠ 0 ∧ ∀ t, due = some t → kind.deadline q = t
  calm : kind.above q = false → kind.deadline q = 0

/-- An account within its limits, whose deadlines are the ones due. -/
structure Kept (q : MemDqblk) (due : Kind → Option (BitVec 64)) : Prop where
  positive : 0 ≤ q.curinodes.toInt
  hard : q.ihardlimit ≠ 0 → q.curinodes.toInt ≤ q.ihardlimit.toInt
  timely : ∀ kind, Timely kind q (due kind)

theorem kept_zero (due : Kind → Option (BitVec 64)) : Kept .zero due := by
  refine ⟨by decide,fun set => absurd rfl set,fun kind => ⟨fun over' => ?_,fun _ => ?_⟩⟩
  · cases kind <;> cases over'
  · cases kind <;> rfl

variable {kind : Kind} {q q' : MemDqblk} {due : Kind → Option (BitVec 64)} {now : Nat} {info : QuotaInfo} {period : BitVec 32}

theorem deadline_ne_zero (clock : Clock now) (period : BitVec 32) : timeT now + period.setWidth 64 ≠ 0 := by
  intro zero
  have value : (timeT now + period.setWidth 64).toNat = 0 := by rw [zero]; rfl
  have small := period.isLt
  unfold Clock at clock
  simp only [timeT,BitVec.toNat_add,BitVec.toNat_ofNat,BitVec.toNat_setWidth] at value
  omega

/-- The deadline is updated after the usage or the limits have changed. -/
theorem Timely.updated {due : Option (BitVec 64)} (timely : Timely kind q due) (clock : Clock now)
    (time : kind.deadline q' = graceTime now period (kind.above q') (kind.deadline q)) :
    Timely kind q' (dueAfter kind now period q q' due) := by
  refine ⟨fun over' => ?_,fun calm => ?_⟩
  · simp only [over',graceTime,if_true] at time
    simp only [dueAfter,over',if_true]
    cases before : kind.above q with
    | true =>
      obtain ⟨set,deadline⟩ := timely.soft before
      simp only [set,if_false] at time
      simp only [if_true,time]
      exact ⟨set,deadline⟩
    | false =>
      simp only [timely.calm before,if_true] at time
      simp only [Bool.false_eq_true,if_false,Option.some.injEq,time]
      exact ⟨deadline_ne_zero clock _,fun _ same => same⟩
  · simp only [calm,graceTime,Bool.false_eq_true,if_false] at time
    exact time

/-- The usage, the limit and the deadline stay as they are. -/
theorem Timely.unchanged {due : Option (BitVec 64)} (timely : Timely kind q due) (over' : kind.above q' = kind.above q)
    (time : kind.deadline q' = kind.deadline q) : Timely kind q' (dueAfter kind now period q q' due) := by
  refine ⟨fun high => ?_,fun calm => ?_⟩
  · have before : kind.above q = true := over'.symm.trans high
    simp only [dueAfter,high,before,if_true,time]
    exact timely.soft before
  · rw [time]
    exact timely.calm (over'.symm.trans calm)

/-- The deadline set by the administrator counts from then on. -/
theorem Timely.administered {left : BitVec 64} (clock : Clock now) (time : kind.deadline q' = graceTime now period (kind.above q') left) :
    Timely kind q' none := by
  refine ⟨fun over' => ⟨?_,fun _ none => ?_⟩,fun calm => ?_⟩
  · simp only [over',graceTime,if_true] at time
    rw [time]
    split
    · exact deadline_ne_zero clock _
    · assumption
  · cases none
  · simp only [calm,graceTime,Bool.false_eq_true,if_false] at time
    exact time

/-- The deadlines due after a change of an account. -/
def duesAfter (now : Nat) (info : QuotaInfo) (before after : MemDqblk) (due : Kind → Option (BitVec 64)) (kind : Kind) : Option (BitVec 64) :=
  dueAfter kind now (kind.grace info) before after (due kind)

/-- An account that does not change. -/
theorem Kept.unchanged (kept : Kept q due) : Kept q (duesAfter now info q q due) :=
  ⟨kept.positive,kept.hard,fun kind => (kept.timely kind).unchanged rfl rfl⟩

/-- An update of the inodes leaves the blocks of its account as they are. -/
theorem Kept.inodes (kept : Kept q due) (clock : Clock now) (count : BitVec 64) (action : Direction)
    (positive : 0 ≤ (inodeChange now count action info q).curinodes.toInt)
    (hard : (inodeChange now count action info q).ihardlimit ≠ 0 →
      (inodeChange now count action info q).curinodes.toInt ≤ (inodeChange now count action info q).ihardlimit.toInt) :
    Kept (inodeChange now count action info q) (duesAfter now info q (inodeChange now count action info q) due) := by
  refine ⟨positive,hard,fun kind => ?_⟩
  cases kind with
  | inodes => exact (kept.timely .inodes).updated clock rfl
  | blocks => exact (kept.timely .blocks).unchanged rfl rfl

/-- A creation below the hard limit. -/
theorem Kept.create (kept : Kept q due) (clock : Clock now) (below : q.ihardlimit ≠ 0 → q.curinodes ≠ q.ihardlimit)
    (room : q.curinodes.toInt + 1 < 2 ^ 63) :
    Kept (inodeChange now 1 .inc info q) (duesAfter now info q (inodeChange now 1 .inc info q) due) := by
  have value : (inodeChange now 1 .inc info q).curinodes.toInt = q.curinodes.toInt + 1 := by
    have positive := kept.positive
    have fits : Representable (q.curinodes.toInt + 1) := ⟨by omega,room⟩
    have one : (q.curinodes + 1).toInt = (q.curinodes.toInt + 1).bmod (2 ^ 64) := BitVec.toInt_add _ _
    rw [bmod_representable fits] at one
    exact one
  refine kept.inodes clock 1 .inc ?_ fun set => ?_
  · rw [value]
    have := kept.positive
    omega
  · rw [value]
    have most := kept.hard set
    have ne : q.curinodes.toInt ≠ q.ihardlimit.toInt := fun same => below set (BitVec.eq_of_toInt_eq same)
    change q.curinodes.toInt + 1 ≤ q.ihardlimit.toInt
    omega

theorem Kept.delete (kept : Kept q due) (clock : Clock now) :
    Kept (inodeChange now 1 .dec info q) (duesAfter now info q (inodeChange now 1 .dec info q) due) := by
  have positive := kept.positive
  have value : 0 ≤ (inodeChange now 1 .dec info q).curinodes.toInt ∧
      (inodeChange now 1 .dec info q).curinodes.toInt ≤ q.curinodes.toInt := by
    have high := BitVec.toInt_lt (x := q.curinodes)
    have fits : Representable (q.curinodes.toInt - 1) := ⟨by omega,by omega⟩
    have one : (q.curinodes - 1).toInt = (q.curinodes.toInt - 1).bmod (2 ^ 64) := BitVec.toInt_sub
    rw [bmod_representable fits] at one
    simp only [inodeChange,updateGraceTimesInodes,newUsage]
    split
    · exact ⟨by decide,positive⟩
    · constructor <;> omega
  refine kept.inodes clock 1 .dec value.1 fun set => ?_
  exact Int.le_trans value.2 (kept.hard set)

/-- A block update leaves the inodes of its account as they are. -/
theorem Kept.block (kept : Kept q due) (clock : Clock now) (count : BitVec 64) (action : Direction) :
    Kept (blockChange now count action info q) (duesAfter now info q (blockChange now count action info q) due) := by
  refine ⟨kept.positive,kept.hard,fun kind => ?_⟩
  cases kind with
  | inodes => exact (kept.timely .inodes).unchanged rfl rfl
  | blocks => exact (kept.timely .blocks).updated clock rfl

variable {s s' : State} {eid : Nat} {type : QuotaType} {qid : BitVec 32}

/-- A state that differs in the order and number of its cached entries, or in its clock. -/
structure Reads (s s' : State) : Prop where
  sound : Sound s'
  writeback : s'.writeback = s.writeback
  table : s'.table = s.table

theorem Reads.refl (sound : Sound s) : Reads s s := ⟨sound,rfl,rfl⟩

theorem Reads.trans {s₁ : State} (first : Reads s s₁) (second : Reads s₁ s') : Reads s s' :=
  ⟨second.sound,second.writeback.trans first.writeback,second.table.trans first.table⟩

theorem Reads.book (reads : Reads s s') (k : Key) : s'.book k = s.book k := by
  simp only [State.book,reads.writeback]

theorem Reads.counted (reads : Reads s s') {k : Key} (counted : s.Counted k) : s'.Counted k := by
  unfold State.Counted
  rw [reads.writeback]
  exact counted

theorem Reads.later (reads : Reads s s') (now : Nat) : Reads s { s' with now := now } :=
  ⟨⟨reads.sound.coherent,reads.sound.bounded,reads.sound.keyed,reads.sound.distinct,reads.sound.current⟩,reads.writeback,reads.table⟩

/-- The check of an account that is enabled. -/
theorem check_account (sound : Sound s) (inside : 0 < eid ∧ eid < eidMaxIdx) (enabled : info.enable = true)
    (type : QuotaType) (qid : BitVec 32) :
    (s.checkAccount eid info type qid).1 = checkGraceTimes s.now (s.book (accountKey eid type qid)) ∧
      Reads s (s.checkAccount eid info type qid).2 ∧ (s.checkAccount eid info type qid).2.now = s.now := by
  have used : accountKey eid type qid ≠ .zero := accountKey_ne_zero inside
  obtain ⟨entry,gotten⟩ := sound.get used
  rw [accountKey_table inside.2] at entry gotten
  simp only [State.checkAccount,enabled,if_true]
  rw [entry,gotten.now]
  exact ⟨rfl,⟨gotten.sound,gotten.writeback,gotten.table⟩,rfl⟩

/-- The check of a creation is the check of its accounts. -/
theorem check_quota {p : QuotaType → QuotaInfo} (sound : Sound s) (inside : 0 < eid ∧ eid < eidMaxIdx) (context : s.context eid = some p)
    (enabled : ∀ type, (p type).enable = true) (userId grpId : BitVec 32) (share : BitVec 16) :
    (s.checkQuota eid userId grpId share).1 =
        (checkTargets userId grpId share).any (fun target => checkGraceTimes s.now (s.book (accountKey eid target.1 target.2))) ∧
      Reads s (s.checkQuota eid userId grpId share).2 ∧ (s.checkQuota eid userId grpId share).2.now = s.now := by
  simp only [State.checkQuota,context,checkTargets]
  obtain ⟨user,first,now₁⟩ := check_account sound inside (enabled .usrquota) .usrquota userId
  cases checked : s.checkAccount eid (p .usrquota) .usrquota userId with
  | mk refused s₁ =>
    simp only [checked] at user first now₁
    cases refused with
    | true => exact ⟨by simp [← user],first,now₁⟩
    | false =>
      obtain ⟨group,second,now₂⟩ := check_account first.sound inside (enabled .grpquota) .grpquota grpId
      rw [now₁,first.book] at group
      dsimp only
      cases checked : s₁.checkAccount eid (p .grpquota) .grpquota grpId with
      | mk refused s₂ =>
        simp only [checked] at group second now₂
        cases refused with
        | true => exact ⟨by simp [← group],first.trans second,now₂.trans now₁⟩
        | false =>
          dsimp only
          by_cases none : share = 0
          · simp only [none,if_true]
            exact ⟨by simp [← user,← group],first.trans second,now₂.trans now₁⟩
          · obtain ⟨shared,third,now₃⟩ := check_account second.sound inside (enabled .shrquota) .shrquota (share.setWidth 32)
            rw [now₂,now₁,second.book,first.book] at shared
            simp only [none,if_false,ne_eq,not_false_eq_true,if_true]
            exact ⟨by simp [← user,← group,shared],(first.trans second).trans third,now₃.trans (now₂.trans now₁)⟩

/-- The invariant of a run. -/
structure Guarded (w : Watch) : Prop where
  sound : Sound w.quota
  configured : Configured w.quota.table
  clock : Clock w.quota.now
  kept : ∀ eid type id, w.quota.table eid ≠ none → Kept (w.quota.book (accountKey eid type id)) (w.due eid type id)

variable {w : Watch}

/-- The deadline watched, in terms of the book. -/
theorem Guarded.due_next (guarded : Guarded w) (sound : Sound s) {p : QuotaType → QuotaInfo} (there : w.quota.table eid = some p)
    (id : BitVec 32) : (w.next s).due eid type id =
      duesAfter s.now (p type) (w.quota.book (accountKey eid type id)) (s.book (accountKey eid type id)) (w.due eid type id) := by
  have inside := guarded.configured.1 eid (by rw [there]; simp)
  funext kind
  simp only [Watch.next,guarded.sound.account inside,sound.account inside]
  simp only [duesAfter,grace,guarded.configured.1.context,there]

/-- What the updates of a call do to the accounts, after a change of the cached entries and of the
clock. -/
structure Changed (w : Watch) (s s' : State) (eid : Nat) (targets : Targets) (change : QuotaInfo → MemDqblk → MemDqblk) : Prop where
  sound : Sound s'
  table : s'.table = w.quota.table
  now : s'.now = s.now
  own : ∀ p, w.quota.table eid = some p → ∀ target ∈ targets, s'.book (accountKey eid target.1 target.2) =
    change (p target.1) (w.quota.book (accountKey eid target.1 target.2))
  others : ∀ eid' type id, w.quota.table eid' ≠ none → ¬(eid' = eid ∧ (type,id) ∈ targets) →
    s'.book (accountKey eid' type id) = w.quota.book (accountKey eid' type id)

theorem Guarded.updateAll (guarded : Guarded w) (reads : Reads w.quota s) {targets : Targets} (distinct : (targets.map Prod.fst).Nodup)
    (counted : ∀ target ∈ targets, w.quota.Counted (accountKey eid target.1 target.2)) (change : QuotaInfo → MemDqblk → MemDqblk) :
    Changed w s (s.updateAll eid targets change) eid targets change := by
  have same : s.context eid = w.quota.table eid := by
    rw [State.context,reads.table]
    exact guarded.configured.1.context eid
  simp only [State.updateAll,same]
  cases there : w.quota.table eid with
  | none =>
    refine ⟨reads.sound,reads.table,rfl,fun p known => ?_,fun _ _ _ _ _ => reads.book _⟩
    cases there.symm.trans known
  | some p =>
    have inside := guarded.configured.1 eid (by rw [there]; simp)
    have recorded := reads.sound.updates inside distinct (fun target member => reads.counted (counted target member)) fun type => change (p type)
    refine ⟨recorded.sound,recorded.table.trans reads.table,recorded.now,fun p' known target member => ?_,fun eid' type id known apart => ?_⟩
    · cases there.symm.trans known
      rw [recorded.own target member,reads.book]
    · have inside' := guarded.configured.1 eid' known
      rw [recorded.others _ (accountKey_ne_zero inside'),reads.book]
      rintro ⟨type',id'⟩ member equal
      obtain ⟨rfl,rfl,rfl⟩ := accountKey_injective inside'.2 inside.2 equal
      exact apart ⟨rfl,member⟩

/-- The accounts stay within their limits when the changed ones do. -/
theorem Guarded.next (guarded : Guarded w) {targets : Targets} {change : QuotaInfo → MemDqblk → MemDqblk}
    (changed : Changed w s s' eid targets change) (clock : Clock s.now)
    (kept : ∀ target ∈ targets, ∀ p, w.quota.table eid = some p →
      Kept (change (p target.1) (w.quota.book (accountKey eid target.1 target.2)))
        (duesAfter s.now (p target.1) (w.quota.book (accountKey eid target.1 target.2))
          (change (p target.1) (w.quota.book (accountKey eid target.1 target.2))) (w.due eid target.1 target.2))) :
    Guarded (w.next s') := by
  refine ⟨changed.sound,by rw [Watch.next,changed.table]; exact guarded.configured,by rw [Watch.next,changed.now]; exact clock,?_⟩
  intro eid' type id known
  simp only [Watch.next,changed.table] at known
  obtain ⟨p,there⟩ := Option.ne_none_iff_exists'.mp known
  rw [guarded.due_next changed.sound there,changed.now]
  by_cases target : eid' = eid ∧ (type,id) ∈ targets
  · obtain ⟨rfl,member⟩ := target
    have own := changed.own p there _ member
    simp only [Watch.next,own]
    exact kept _ member p there
  · have other := changed.others eid' type id known target
    simp only [Watch.next,other]
    exact (guarded.kept eid' type id known).unchanged

/-- Nothing changes but the cached entries and the clock. -/
theorem Guarded.reads (guarded : Guarded w) (reads : Reads w.quota s) (clock : Clock s.now) : Guarded { w with quota := s } := by
  refine ⟨reads.sound,by rw [reads.table]; exact guarded.configured,clock,fun eid type id known => ?_⟩
  simp only [reads.table] at known
  simp only [reads.book]
  exact guarded.kept eid type id known

section Steps
variable {userId grpId : BitVec 32} {share : BitVec 16} {src : SqDqblk} {identifier : BitVec 32}

theorem checkTargets_of_inodeTargets {target : QuotaType × BitVec 32} (member : target ∈ inodeTargets userId grpId share) :
    target ∈ checkTargets userId grpId share := by
  unfold inodeTargets at member
  unfold checkTargets
  grind

theorem blockTargets_distinct (userId grpId : BitVec 32) (share : BitVec 16) :
    ((blockTargets userId grpId share).map Prod.fst).Nodup := by
  unfold blockTargets
  split <;> split <;> split <;> simp

theorem Guarded.refused (guarded : Guarded w) (reads : Reads w.quota s) (clock : Clock s.now) : Guarded (w.next s) := by
  have changed : Changed w s s 0 [] fun _ q => q :=
    ⟨reads.sound,reads.table,rfl,fun _ _ _ none => absurd none List.not_mem_nil,fun _ _ _ _ _ => reads.book _⟩
  exact guarded.next changed clock fun _ none => absurd none List.not_mem_nil

theorem Guarded.create (guarded : Guarded w) (reads : Reads w.quota s) {later : Nat} (clock : Clock later)
    (edge : ∀ target ∈ checkTargets userId grpId share, ¬onTheEdge w.quota.now (w.quota.account eid target.1 target.2))
    (room : ∀ target ∈ inodeTargets userId grpId share, w.quota.Counted (accountKey eid target.1 target.2) ∧
      (w.quota.account eid target.1 target.2).curinodes.toInt + 1 < 2 ^ 63) :
    Guarded (w.next ({ s with now := later }.inodeUpdate eid userId grpId 1 .inc share)) := by
  have changed := guarded.updateAll (reads.later later) (inodeTargets_distinct userId grpId share) (fun target member => (room target member).1)
    (inodeChange later ((1 : BitVec 32).signExtend 64) .inc)
  refine guarded.next changed clock fun target member p there => ?_
  have inside := guarded.configured.1 eid (by rw [there]; simp)
  have free := edge target (checkTargets_of_inodeTargets member)
  have fits := (room target member).2
  rw [guarded.sound.account inside] at free fits
  exact (guarded.kept eid target.1 target.2 (by rw [there]; simp)).create clock (fun set full => free (.inl ⟨set,full⟩)) fits

theorem Guarded.delete (guarded : Guarded w)
    (counted : ∀ target ∈ inodeTargets userId grpId share, w.quota.Counted (accountKey eid target.1 target.2)) :
    Guarded (w.next (w.quota.inodeUpdate eid userId grpId 1 .dec share)) := by
  have changed := guarded.updateAll (.refl guarded.sound) (inodeTargets_distinct userId grpId share) counted
    (inodeChange w.quota.now ((1 : BitVec 32).signExtend 64) .dec)
  refine guarded.next changed guarded.clock fun target _ p there => ?_
  exact (guarded.kept eid target.1 target.2 (by rw [there]; simp)).delete guarded.clock

theorem Guarded.block (guarded : Guarded w) (size : BitVec 64) (action : Direction)
    (counted : ∀ target ∈ blockTargets userId grpId share, w.quota.Counted (accountKey eid target.1 target.2)) :
    Guarded (w.next (w.quota.blockUpdate eid userId grpId size action share)) := by
  have changed := guarded.updateAll (.refl guarded.sound) (blockTargets_distinct userId grpId share) counted
    (blockChange w.quota.now size action)
  refine guarded.next changed guarded.clock fun target _ p there => ?_
  exact (guarded.kept eid target.1 target.2 (by rw [there]; simp)).block guarded.clock size action

/-- The fields of an account that its hard limit is about, after a limit change. -/
theorem setLimits_inodes (now : Nat) (info : QuotaInfo) (src : SqDqblk) (q : MemDqblk) :
    (updateGraceTimes now info (setLimits src q)).curinodes = q.curinodes ∧
    (updateGraceTimes now info (setLimits src q)).ihardlimit = if src.ilimits then src.fhardlimit else q.ihardlimit := by
  simp only [setLimits,updateGraceTimes,updateGraceTimesBlocks,updateGraceTimesInodes]
  cases src.blimits <;> cases src.times <;> cases src.ilimits <;> exact ⟨rfl,rfl⟩

/-- The deadlines of an account after a limit change. -/
theorem setLimits_deadline (kind : Kind) (now : Nat) (info : QuotaInfo) (src : SqDqblk) (q : MemDqblk) :
    kind.deadline (updateGraceTimes now info (setLimits src q)) = graceTime now (kind.grace info)
      (kind.above (updateGraceTimes now info (setLimits src q))) (if src.times then kind.timeleft src else kind.deadline q) := by
  simp only [setLimits,updateGraceTimes,updateGraceTimesBlocks,updateGraceTimesInodes]
  cases src.blimits <;> cases src.times <;> cases src.ilimits <;> cases kind <;> rfl

/-- The usage stays within the hard limit that is set. -/
theorem Kept.limits (kept : Kept q due) (now : Nat) (info : QuotaInfo)
    (lawful : src.ilimits = true → src.fhardlimit ≠ 0 → q.curinodes.toInt ≤ src.fhardlimit.toInt) :
    0 ≤ (updateGraceTimes now info (setLimits src q)).curinodes.toInt ∧
    ((updateGraceTimes now info (setLimits src q)).ihardlimit ≠ 0 →
      (updateGraceTimes now info (setLimits src q)).curinodes.toInt ≤ (updateGraceTimes now info (setLimits src q)).ihardlimit.toInt) := by
  obtain ⟨usage,hard⟩ := setLimits_inodes now info src q
  rw [usage,hard]
  refine ⟨kept.positive,fun set => ?_⟩
  cases limits : src.ilimits with
  | true =>
    simp only [limits,if_true] at set ⊢
    exact lawful limits set
  | false =>
    simp only [limits,Bool.false_eq_true,if_false] at set ⊢
    exact kept.hard set

theorem Guarded.setQuota_changed (guarded : Guarded w) (counted : w.quota.Counted (accountKey eid type identifier)) :
    Changed w w.quota (w.quota.setQuota eid type identifier src) eid [(type,identifier)]
      fun info q => updateGraceTimes w.quota.now info (setLimits src q) := by
  apply guarded.updateAll (.refl guarded.sound)
  · simp
  · intro target member
    rw [List.mem_singleton.mp member]
    exact counted

/-- A change of limits that leaves the deadline to the code. -/
theorem Guarded.setQuota (guarded : Guarded w) (counted : w.quota.Counted (accountKey eid type identifier))
    (lawful : src.ilimits = true → src.fhardlimit ≠ 0 → (w.quota.account eid type identifier).curinodes.toInt ≤ src.fhardlimit.toInt)
    (times : src.times = false) : Guarded (w.next (w.quota.setQuota eid type identifier src)) := by
  refine guarded.next (guarded.setQuota_changed counted) guarded.clock fun target member p there => ?_
  rw [List.mem_singleton.mp member]
  have known : w.quota.table eid ≠ none := by rw [there]; simp
  have kept := guarded.kept eid type identifier known
  rw [guarded.sound.account (guarded.configured.1 eid known)] at lawful
  obtain ⟨positive,hard⟩ := kept.limits w.quota.now (p type) lawful
  refine ⟨positive,hard,fun kind => (kept.timely kind).updated guarded.clock ?_⟩
  have time := setLimits_deadline kind w.quota.now (p type) src (w.quota.book (accountKey eid type identifier))
  simp only [times,Bool.false_eq_true,if_false] at time
  exact time

/-- A change of limits with the deadline of the administrator. -/
theorem Guarded.setQuota_times (guarded : Guarded w) (counted : w.quota.Counted (accountKey eid type identifier))
    (lawful : src.ilimits = true → src.fhardlimit ≠ 0 → (w.quota.account eid type identifier).curinodes.toInt ≤ src.fhardlimit.toInt) :
    Guarded { w.next (w.quota.setQuota eid type identifier src) with
      due := fun eid' type' id kind => if eid' = eid ∧ type' = type ∧ id = identifier then none
        else (w.next (w.quota.setQuota eid type identifier src)).due eid' type' id kind } := by
  have changed : Changed w w.quota (w.quota.setQuota eid type identifier src) eid [(type,identifier)] _ := guarded.setQuota_changed counted
  refine ⟨changed.sound,by simp only [Watch.next,changed.table]; exact guarded.configured,by simp only [Watch.next,changed.now]; exact guarded.clock,?_⟩
  intro eid' type' id known
  simp only [Watch.next,changed.table] at known
  obtain ⟨p,there⟩ := Option.ne_none_iff_exists'.mp known
  by_cases here : eid' = eid ∧ type' = type ∧ id = identifier
  · obtain ⟨rfl,rfl,rfl⟩ := here
    have own := changed.own p there (type',id) List.mem_cons_self
    simp only [Watch.next,own,and_self,if_true]
    rw [guarded.sound.account (guarded.configured.1 eid' known)] at lawful
    obtain ⟨positive,hard⟩ := (guarded.kept eid' type' id known).limits w.quota.now (p type') lawful
    exact ⟨positive,hard,fun kind => .administered guarded.clock
      (setLimits_deadline kind w.quota.now (p type') src (w.quota.book (accountKey eid' type' id)))⟩
  · have other := changed.others eid' type' id known (by simpa using here)
    have watched : (w.next (w.quota.setQuota eid type identifier src)).due eid' type' id = _ := guarded.due_next changed.sound there id
    simp only [if_neg here,watched]
    simp only [Watch.next,other]
    exact (guarded.kept eid' type' id known).unchanged

theorem Guarded.setQuotainfo (guarded : Guarded w) (eid : Nat) (type : QuotaType) (btimeleft ftimeleft : BitVec 64) :
    Guarded { w with quota := w.quota.setQuotainfo eid type btimeleft ftimeleft } := by
  unfold State.setQuotainfo
  cases context : w.quota.context eid with
  | none => exact guarded
  | some p =>
    rw [guarded.configured.1.context] at context
    -- an export keeps its number and stays enabled
    have known : ∀ eid', Function.update w.quota.table eid (some (Function.update p type { p type with
        bgrace := btimeleft.setWidth 32, igrace := ftimeleft.setWidth 32 })) eid' ≠ none → w.quota.table eid' ≠ none := by
      intro eid' there
      by_cases same : eid' = eid
      · rw [same,context]
        simp
      · rw [Function.update_of_ne same] at there
        exact there
    refine ⟨⟨guarded.sound.coherent,guarded.sound.bounded,guarded.sound.keyed,guarded.sound.distinct,guarded.sound.current⟩,
      ⟨fun eid' there => guarded.configured.1 eid' (known eid' there),fun eid' p' there type' => ?_⟩,guarded.clock,
      fun eid' type' id there => guarded.kept eid' type' id (known eid' there)⟩
    by_cases same : eid' = eid
    · subst same
      simp only [Function.update_self,Option.some.injEq] at there
      subst there
      by_cases own : type' = type
      · subst own
        simp only [Function.update_self]
        exact guarded.configured.2 eid' p context type'
      · simp only [Function.update_of_ne own]
        exact guarded.configured.2 eid' p context type'
    · simp only [Function.update_of_ne same] at there
      exact guarded.configured.2 eid' p' there type'

theorem Guarded.step {w' : Watch} {a : Action} (guarded : Guarded w) (fit : Fit w a) (stepped : step a w = some w') : Guarded w' := by
  cases a with
  | create eid userId grpId share later =>
    simp only [Limits.step] at stepped
    split at stepped
    · rename_i clock
      have checked : Reads w.quota (w.quota.checkQuota eid userId grpId share).2 ∧
          (w.quota.checkQuota eid userId grpId share).2.now = w.quota.now := by
        cases context : w.quota.context eid with
        | none =>
          simp only [State.checkQuota,context]
          exact ⟨.refl guarded.sound,trivial⟩
        | some p =>
          have there := context
          rw [guarded.configured.1.context] at there
          exact (check_quota guarded.sound (guarded.configured.1 eid (by rw [there]; simp)) context
            (guarded.configured.2 eid p there) userId grpId share).2
      split at stepped
      · rename_i s refused
        rw [refused] at checked
        cases stepped
        exact guarded.refused checked.1 (by rw [checked.2]; exact guarded.clock)
      · rename_i s accepted
        rw [accepted] at checked
        cases stepped
        rcases fit with missing | ⟨edge,room⟩
        · rw [Option.isNone_iff_eq_none] at missing
          simp only [State.checkQuota,missing] at accepted
          cases accepted
        · exact guarded.create checked.1 clock edge room
    · cases stepped
  | delete eid userId grpId share =>
    cases stepped
    exact guarded.delete fit
  | block eid userId grpId size action share =>
    cases stepped
    exact guarded.block size action fit
  | setQuota eid type identifier src =>
    simp only [Limits.step] at stepped
    split at stepped
    · rename_i lawful
      simp only [Option.some.injEq] at stepped
      subst stepped
      cases times : src.times with
      | true => exact guarded.setQuota_times fit lawful
      | false => exact guarded.setQuota fit lawful times
    · cases stepped
  | setQuotainfo eid type btimeleft ftimeleft =>
    cases stepped
    exact guarded.setQuotainfo eid type btimeleft ftimeleft
  | evict i =>
    cases stepped
    exact guarded.reads ⟨guarded.sound.evict i,rfl,rfl⟩ guarded.clock
  | flush slot =>
    simp only [Limits.step,Option.some.injEq] at stepped
    subst stepped
    have flushed := guarded.sound.flush slot
    generalize w.quota.flush slot = s at flushed
    refine ⟨flushed.1,by rw [flushed.2.1]; exact guarded.configured,by rw [flushed.2.2.1]; exact guarded.clock,fun eid type id known => ?_⟩
    simp only [flushed.2.1] at known
    simp only [flushed.2.2.2]
    exact guarded.kept eid type id known
  | tick now =>
    simp only [Limits.step] at stepped
    split at stepped
    · cases stepped
      exact guarded.reads ((Reads.refl guarded.sound).later now) (by assumption)
    · cases stepped

end Steps

/-- A creation has to be refused: the hard limit of blocks is exceeded, the one of inodes reached, or the deadline of a
soft limit. -/
def mustRefuse (now : Nat) (q : MemDqblk) : Prop :=
  exceeds (toqb q.curspace) q.bhardlimit = true ∨ q.ihardlimit ≠ 0 ∧ q.ihardlimit.toInt ≤ q.curinodes.toInt ∨
    ∃ kind : Kind, kind.above q = true ∧ (kind.deadline q).toInt ≤ (timeT now).toInt

/-- Unless the deadline is now, it is the same to be before it or not after it. -/
theorem expired_iff (edge : ¬kind.expires now q) : kind.above q = true ∧ (kind.deadline q).toInt < (timeT now).toInt ↔
    kind.above q = true ∧ (kind.deadline q).toInt ≤ (timeT now).toInt := by
  apply and_congr_right
  intro over'
  have ne : (kind.deadline q).toInt ≠ (timeT now).toInt := fun same => edge ⟨over',BitVec.eq_of_toInt_eq same⟩
  omega

theorem check_iff_mustRefuse (edge : ¬onTheEdge now q) : checkGraceTimes now q = true ↔ mustRefuse now q := by
  have hard : exceeds q.curinodes q.ihardlimit = true ↔ q.ihardlimit ≠ 0 ∧ q.ihardlimit.toInt ≤ q.curinodes.toInt := by
    simp only [exceeds,decide_eq_true_eq]
    apply and_congr_right
    intro set
    have ne : q.ihardlimit.toInt ≠ q.curinodes.toInt := fun same => edge (.inl ⟨set,(BitVec.eq_of_toInt_eq same).symm⟩)
    omega
  have inodes := expired_iff fun due : Kind.inodes.expires now q => edge (.inr (.inl due))
  have blocks := expired_iff fun due : Kind.blocks.expires now q => edge (.inr (.inr due))
  have check : checkGraceTimes now q = true ↔ exceeds (toqb q.curspace) q.bhardlimit = true ∨
      (Kind.blocks.above q = true ∧ (Kind.blocks.deadline q).toInt < (timeT now).toInt) ∨
      exceeds q.curinodes q.ihardlimit = true ∨ Kind.inodes.above q = true ∧ (Kind.inodes.deadline q).toInt < (timeT now).toInt := by
    simp only [checkGraceTimes,Kind.above,Kind.deadline,Bool.or_eq_true,Bool.and_eq_true,decide_eq_true_eq,or_assoc]
  rw [check,hard,inodes,blocks,mustRefuse]
  constructor
  · rintro (space | block | full | inode)
    · exact .inl space
    · exact .inr (.inr ⟨.blocks,block⟩)
    · exact .inr (.inl full)
    · exact .inr (.inr ⟨.inodes,inode⟩)
  · rintro (space | full | ⟨kind,due⟩)
    · exact .inl space
    · exact .inr (.inr (.inl full))
    · cases kind with
      | inodes => exact .inr (.inr (.inr due))
      | blocks => exact .inr (.inl due)

section Runs
variable {table : Nat → Option (QuotaType → QuotaInfo)}

theorem guarded_run (configured : Configured table) (clock : Clock now)
    (run : Machine.Run step Fit ⟨initial table now,fun _ _ _ _ => none⟩ w) : Guarded w := by
  apply run.invariant Guarded
  · refine ⟨sound_initial table now,configured,clock,fun eid type id known => ?_⟩
    rw [book_initial (configured.1 eid known)]
    exact kept_zero _
  · exact fun _ _ _ guarded fit stepped => guarded.step fit stepped

/-- In every run whose steps all meet the condition, on exports numbered from 1 to 1023 with all
quotas enabled: the inode usage of an account is within its hard limit; an account above a soft
limit, of inodes or of blocks, has a deadline, the one of its last crossing unless the administrator
has set it; and a creation is refused exactly when one of its accounts has reached a hard limit or a
deadline. -/
theorem limits_enforced (configured : Configured table) (clock : Clock now)
    (run : Machine.Run step Fit ⟨initial table now,fun _ _ _ _ => none⟩ w) :
    (∀ eid type id, w.quota.table eid ≠ none →
      ((w.quota.account eid type id).ihardlimit ≠ 0 →
        (w.quota.account eid type id).curinodes.toInt ≤ (w.quota.account eid type id).ihardlimit.toInt) ∧
      ∀ kind : Kind, kind.above (w.quota.account eid type id) = true → kind.deadline (w.quota.account eid type id) ≠ 0 ∧
        ∀ t, w.due eid type id kind = some t → kind.deadline (w.quota.account eid type id) = t) ∧
    (∀ eid userId grpId share later, w.quota.table eid ≠ none → Fit w (.create eid userId grpId share later) →
      ((w.quota.checkQuota eid userId grpId share).1 = true ↔
        ∃ target ∈ checkTargets userId grpId share, mustRefuse w.quota.now (w.quota.account eid target.1 target.2))) := by
  have guarded := guarded_run configured clock run
  refine ⟨fun eid type id known => ?_,fun eid userId grpId share later known fit => ?_⟩
  · rw [guarded.sound.account (guarded.configured.1 eid known)]
    have kept := guarded.kept eid type id known
    exact ⟨kept.hard,fun kind => (kept.timely kind).soft⟩
  · have inside := guarded.configured.1 eid known
    obtain ⟨p,there⟩ := Option.ne_none_iff_exists'.mp known
    have context : w.quota.context eid = some p := (guarded.configured.1.context eid).trans there
    have edge : ∀ target ∈ checkTargets userId grpId share, ¬onTheEdge w.quota.now (w.quota.account eid target.1 target.2) := by
      rcases fit with missing | both
      · simp [context] at missing
      · exact both.1
    rw [(check_quota guarded.sound inside context (guarded.configured.2 eid p there) userId grpId share).1,List.any_eq_true]
    apply exists_congr
    intro target
    apply and_congr_right
    intro member
    have free := edge target member
    rw [guarded.sound.account inside] at free ⊢
    exact check_iff_mustRefuse free

theorem configured_oneExport : Configured oneExport := by
  refine ⟨numbered_oneExport,fun eid p there type => ?_⟩
  unfold oneExport at there
  split at there
  · cases there
    rfl
  · cases there

/-- Soft limits of one block and one inode, with a hard limit of inodes. -/
def limitsOf (hard : BitVec 64) : SqDqblk := ⟨0,1,hard,1,0,0,true,true,false⟩

/-- User 5 crosses its soft limit of inodes at 20 and its soft limit of blocks at 20 too, with another grace period. -/
theorem limits_enforced_crossing :
    ∃ w, Machine.Run step Fit ⟨initial oneExport 10,fun _ _ _ _ => none⟩ w ∧
      (∀ kind : Kind, kind.above (w.quota.account 1 .usrquota 5) = true) ∧
      (w.quota.account 1 .usrquota 5).itime = 604820 ∧ (w.quota.account 1 .usrquota 5).btime = 620 := by
  have values : (Machine.exec step Fit [.setQuotainfo 1 .usrquota 600 604800,.setQuota 1 .usrquota 5 (limitsOf 2),.create 1 5 7 0 11,
      .evict 0,.create 1 5 7 0 20,.block 1 5 7 4096 .inc 0] ⟨initial oneExport 10,fun _ _ _ _ => none⟩).map (fun w =>
        ((w.quota.table 1).isSome,Kind.inodes.above (w.quota.account 1 .usrquota 5),Kind.blocks.above (w.quota.account 1 .usrquota 5),
          w.due 1 .usrquota 5 .inodes,w.due 1 .usrquota 5 .blocks)) = some (true,true,true,some 604820,some 620) := by decide +kernel
  obtain ⟨w,done,value⟩ := Option.map_eq_some_iff.mp values
  have run : Machine.Run step Fit ⟨initial oneExport 10,fun _ _ _ _ => none⟩ w := Machine.Run.refl.exec done
  simp only [Prod.mk.injEq] at value
  obtain ⟨there,inodes,blocks,due,due'⟩ := value
  have known : w.quota.table 1 ≠ none := by
    intro none
    rw [none] at there
    cases there
  have timely := ((limits_enforced configured_oneExport (by decide) run).1 1 .usrquota 5 known).2
  refine ⟨w,run,fun kind => ?_,(timely .inodes inodes).2 _ due,(timely .blocks blocks).2 _ due'⟩
  cases kind with
  | inodes => exact inodes
  | blocks => exact blocks

/-- A creation by an account that has reached its hard limit passes the check. -/
theorem hard_limit_exceeded :
    ¬∀ w, Machine.Run step (fun _ _ => True) ⟨initial oneExport 10,fun _ _ _ _ => none⟩ w →
      ∀ eid type id, w.quota.table eid ≠ none → (w.quota.account eid type id).ihardlimit ≠ 0 →
        (w.quota.account eid type id).curinodes.toInt ≤ (w.quota.account eid type id).ihardlimit.toInt := by
  intro enforced
  have values : (Machine.exec step (fun _ _ => True) [.setQuota 1 .usrquota 5 (limitsOf 1),.create 1 5 7 0 11,.create 1 5 7 0 20]
      ⟨initial oneExport 10,fun _ _ _ _ => none⟩).map (fun w => ((w.quota.table 1).isSome,(w.quota.account 1 .usrquota 5).ihardlimit,
        (w.quota.account 1 .usrquota 5).curinodes)) = some (true,1,2) := by decide +kernel
  obtain ⟨w,done,value⟩ := Option.map_eq_some_iff.mp values
  have run : Machine.Run step (fun _ _ => True) ⟨initial oneExport 10,fun _ _ _ _ => none⟩ w := Machine.Run.refl.exec done
  simp only [Prod.mk.injEq] at value
  have known : w.quota.table 1 ≠ none := by
    intro none
    rw [none] at value
    cases value.1
  have within := enforced w run 1 .usrquota 5 known
  rw [value.2.1,value.2.2] at within
  revert within
  decide

end Runs

end Rozofs.Quota.Limits
