import Rozofs.QuotaWriteback

/-! Quota accounts, `rozofs_quota.c`: usage updates, limit checks and limit changes on an LRU cache
of accounts over the write-back cache. -/
namespace Rozofs.Quota
open QuotaWriteback (Key DiskTb Dquot)

/-- The three types of account. -/
inductive QuotaType where
  | usrquota
  | grpquota
  | shrquota
  deriving DecidableEq

def QuotaType.code : QuotaType → BitVec 4
  | .usrquota => 0
  | .grpquota => 1
  | .shrquota => 2

/-- `rozo_mem_dqblk`: signed words, a limit of 0 is no limit. -/
structure MemDqblk where
  bhardlimit : BitVec 64
  bsoftlimit : BitVec 64
  curspace : BitVec 64
  rsvspace : BitVec 64
  ihardlimit : BitVec 64
  isoftlimit : BitVec 64
  curinodes : BitVec 64
  btime : BitVec 64
  itime : BitVec 64
  deriving DecidableEq

def MemDqblk.zero : MemDqblk := ⟨0,0,0,0,0,0,0,0,0⟩

/-- `rozofs_quota_info_t`. -/
structure QuotaInfo where
  bgrace : BitVec 32
  igrace : BitVec 32
  enable : Bool

/-- `ROZOFS_QT_MAX_ENTRIES`. -/
def maxEntries : Nat := 64 * 1024

/-- `EXPGW_EID_MAX_IDX`. -/
def eidMaxIdx : Nat := 1024

/-- The export table, the quota cache with its most recent entry first, the write-back cache and
the clock in seconds. -/
structure State where
  table : Nat → Option (QuotaType → QuotaInfo)
  lru : List (Dquot MemDqblk)
  writeback : QuotaWriteback.Cache MemDqblk
  now : Nat

/-- The context of an export, when its id is in range. -/
def State.context (s : State) (eid : Nat) : Option (QuotaType → QuotaInfo) :=
  if eid > eidMaxIdx then none else s.table eid

/-- The key of an account; the field of the export id has ten bits. -/
def accountKey (eid : Nat) (type : QuotaType) (qid : BitVec 32) : Key := ⟨BitVec.ofNat 10 eid,type.code,qid⟩

/-- `p->quota_inode[type]`. -/
def quotaInode (eid : Nat) (type : QuotaType) : DiskTb := ⟨eid,type.code⟩

/-- The last entries leave a full cache, at most three of them. -/
def trim : Nat → List (Dquot MemDqblk) → List (Dquot MemDqblk)
  | 0, lru => lru
  | n + 1, lru => if lru.length ≥ maxEntries ∧ lru ≠ [] then trim n lru.dropLast else lru

/-- `rozofs_qt_cache_get`. The entry comes to the front. -/
def State.cacheGet (s : State) (diskP : DiskTb) (key : Key) : Dquot MemDqblk × State :=
  match s.lru.find? (fun entry => entry.key = key) with
  | some entry => (entry,{ s with lru := entry :: s.lru.filter fun other => other.key ≠ key })
  | none =>
    let entry := s.writeback.read diskP ⟨key,.zero⟩
    (entry,{ s with lru := entry :: trim 3 s.lru })

/-- `rozofs_qt_cache_put`, of the entry at the front after it was changed in place. -/
def State.cachePut (s : State) (diskP : DiskTb) (entry : Dquot MemDqblk) : State :=
  { s with lru := entry :: s.lru.tail, writeback := s.writeback.write diskP entry }

/-- The body that `rozofs_qt_dqot_inode_update` and `rozofs_qt_dqot_block_update` share. -/
def State.dqotUpdate (s : State) (eid : Nat) (type : QuotaType) (qid : BitVec 32) (change : MemDqblk → MemDqblk) : State :=
  let (entry,s) := s.cacheGet (quotaInode eid type) (accountKey eid type qid)
  s.cachePut (quotaInode eid type) { entry with quota := change entry.quota }

/-- `rozofs_toqb`: bytes in blocks of 1024. -/
def toqb (x : BitVec 64) : BitVec 64 := (x + 1023).sshiftRight 10

/-- A limit that is set and exceeded. -/
def exceeds (usage limit : BitVec 64) : Bool := limit ≠ 0 ∧ usage.toInt > limit.toInt

/-- A clock value as a `time_t`. -/
def timeT (now : Nat) : BitVec 64 := BitVec.ofNat 64 now

/-- The deadline after a change of usage or limits. -/
def graceTime (now : Nat) (grace : BitVec 32) (above : Bool) (deadline : BitVec 64) : BitVec 64 :=
  if above then if deadline = 0 then timeT now + grace.setWidth 64 else deadline else 0

/-- `rozofs_quota_update_grace_times_inodes`. -/
def updateGraceTimesInodes (now : Nat) (info : QuotaInfo) (q : MemDqblk) : MemDqblk :=
  { q with itime := graceTime now info.igrace (exceeds q.curinodes q.isoftlimit) q.itime }

/-- `rozofs_quota_update_grace_times_blocks`. -/
def updateGraceTimesBlocks (now : Nat) (info : QuotaInfo) (q : MemDqblk) : MemDqblk :=
  { q with btime := graceTime now info.bgrace (exceeds (toqb q.curspace) q.bsoftlimit) q.btime }

/-- `rozofs_quota_update_grace_times`. -/
def updateGraceTimes (now : Nat) (info : QuotaInfo) (q : MemDqblk) : MemDqblk :=
  updateGraceTimesBlocks now info (updateGraceTimesInodes now info q)

/-- `ROZOFS_QT_INC` or `ROZOFS_QT_DEC`. -/
inductive Direction where
  | inc
  | dec
  deriving DecidableEq

/-- A usage after an update: signed words with an unsigned amount, negative results are 0 when the
amount is subtracted. -/
def newUsage (count : BitVec 64) (action : Direction) (usage : BitVec 64) : BitVec 64 :=
  match action with
  | .inc => usage + count
  | .dec => if (usage - count).toInt < 0 then 0 else usage - count

def inodeChange (now : Nat) (count : BitVec 64) (action : Direction) (info : QuotaInfo) (q : MemDqblk) : MemDqblk :=
  updateGraceTimesInodes now info { q with curinodes := newUsage count action q.curinodes }

def blockChange (now : Nat) (count : BitVec 64) (action : Direction) (info : QuotaInfo) (q : MemDqblk) : MemDqblk :=
  updateGraceTimesBlocks now info { q with curspace := newUsage count action q.curspace }

/-- The accounts of a call, in the order of the updates. -/
abbrev Targets := List (QuotaType × BitVec 32)

/-- `rozofs_qt_inode_update` skips user and group -1, and share 0. -/
def inodeTargets (userId grpId : BitVec 32) (share : BitVec 16) : Targets :=
  (if userId ≠ -1 then [(.usrquota,userId)] else []) ++ (if grpId ≠ -1 then [(.grpquota,grpId)] else []) ++
    (if share ≠ 0 then [(.shrquota,share.setWidth 32)] else [])

/-- `rozofs_qt_block_update` gives the user id to the update of the group account. -/
def blockTargets (userId grpId : BitVec 32) (share : BitVec 16) : Targets :=
  (if userId ≠ -1 then [(.usrquota,userId)] else []) ++ (if grpId ≠ -1 then [(.grpquota,userId)] else []) ++
    (if share ≠ 0 then [(.shrquota,share.setWidth 32)] else [])

/-- The updates of a call one after the other; nothing happens without a context. -/
def State.updateAll (s : State) (eid : Nat) (targets : Targets) (change : QuotaInfo → MemDqblk → MemDqblk) : State :=
  match s.context eid with
  | none => s
  | some p => targets.foldl (fun s target => s.dqotUpdate eid target.1 target.2 (change (p target.1))) s

/-- `rozofs_qt_inode_update`. -/
def State.inodeUpdate (s : State) (eid : Nat) (userId grpId nbInode : BitVec 32) (action : Direction) (share : BitVec 16) : State :=
  s.updateAll eid (inodeTargets userId grpId share) (inodeChange s.now (nbInode.signExtend 64) action)

/-- `rozofs_qt_block_update`. -/
def State.blockUpdate (s : State) (eid : Nat) (userId grpId : BitVec 32) (size : BitVec 64) (action : Direction) (share : BitVec 16) : State :=
  s.updateAll eid (blockTargets userId grpId share) (blockChange s.now size action)

/-- `rozofs_quota_check_grace_times`: true when a creation is refused. -/
def checkGraceTimes (now : Nat) (q : MemDqblk) : Bool :=
  exceeds (toqb q.curspace) q.bhardlimit ||
    exceeds (toqb q.curspace) q.bsoftlimit && q.btime.toInt < (timeT now).toInt ||
      exceeds q.curinodes q.ihardlimit ||
        exceeds q.curinodes q.isoftlimit && q.itime.toInt < (timeT now).toInt

/-- The check of one account of an export, when its type is enabled; the first refusal ends the
checks. -/
def State.checkAccount (s : State) (eid : Nat) (info : QuotaInfo) (type : QuotaType) (qid : BitVec 32) : Bool × State :=
  if info.enable then
    let (entry,s) := s.cacheGet (quotaInode eid type) (accountKey eid type qid)
    (checkGraceTimes s.now entry.quota,s)
  else (false,s)

/-- `rozofs_qt_check_quota`: true when the creation is refused. -/
def State.checkQuota (s : State) (eid : Nat) (userId grpId : BitVec 32) (shareId : BitVec 16) : Bool × State :=
  match s.context eid with
  | none => (true,s)
  | some p =>
    match s.checkAccount eid (p .usrquota) .usrquota userId with
    | (true,s) => (true,s)
    | (false,s) =>
      match s.checkAccount eid (p .grpquota) .grpquota grpId with
      | (true,s) => (true,s)
      | (false,s) =>
        if shareId = 0 then (false,s)
        else s.checkAccount eid (p .shrquota) .shrquota (shareId.setWidth 32)

/-- `sq_dqblk`, the fields that a limit change reads, and the bits of its command. -/
structure SqDqblk where
  bhardlimit : BitVec 64
  bsoftlimit : BitVec 64
  fhardlimit : BitVec 64
  fsoftlimit : BitVec 64
  btimeleft : BitVec 64
  ftimeleft : BitVec 64
  blimits : Bool
  ilimits : Bool
  times : Bool

/-- The new limits and deadlines of an account. -/
def setLimits (src : SqDqblk) (q : MemDqblk) : MemDqblk :=
  let q := if src.blimits then { q with bhardlimit := src.bhardlimit, bsoftlimit := src.bsoftlimit } else q
  let q := if src.times then { q with btime := src.btimeleft, itime := src.ftimeleft } else q
  if src.ilimits then { q with ihardlimit := src.fhardlimit, isoftlimit := src.fsoftlimit } else q

/-- `rozofs_qt_set_quota`. -/
def State.setQuota (s : State) (eid : Nat) (type : QuotaType) (identifier : BitVec 32) (src : SqDqblk) : State :=
  s.updateAll eid [(type,identifier)] fun info q => updateGraceTimes s.now info (setLimits src q)

/-- `rozofs_qt_set_quotainfo`. -/
def State.setQuotainfo (s : State) (eid : Nat) (type : QuotaType) (btimeleft ftimeleft : BitVec 64) : State :=
  match s.context eid with
  | none => s
  | some p =>
    { s with table := Function.update s.table eid (some (Function.update p type { p type with
        bgrace := btimeleft.setWidth 32, igrace := ftimeleft.setWidth 32 })) }

/-- An entry leaves the quota cache. -/
def State.evict (s : State) (i : Nat) : State := { s with lru := s.lru.eraseIdx i }

/-- A slot of the write-back cache is flushed. -/
def State.flush (s : State) (slot : Nat) : State := { s with writeback := s.writeback.diskflush slot }

/-- New exports: nothing is recorded. -/
def initial (table : Nat → Option (QuotaType → QuotaInfo)) (now : Nat) : State :=
  ⟨table,[],⟨fun _ _ => .initial,fun _ _ => none⟩,now⟩

end Rozofs.Quota
