import Rozofs.Quota
import Rozofs.QuotaTransparent

/-! The quota cache and the write-back cache are one book of accounts, and the usage in it is the
sum of the updates. -/
namespace Rozofs.Quota
open QuotaWriteback (Key DiskTb Dquot Coherent Bounded getIndex cacheMaxChunk)

variable {s s' : State} {k : Key} {eid : Nat}

/-- The account of a key, as the write-back cache has it. -/
def State.book (s : State) (k : Key) : MemDqblk := ((s.writeback.view k).getD ⟨k,.zero⟩).quota

/-- The invariant of the two caches: an entry of the quota cache is the account of its key. -/
structure Sound (s : State) : Prop where
  coherent : Coherent s.writeback
  bounded : Bounded s.writeback
  keyed : ∀ k data, k ≠ .zero → s.writeback.view k = some data → data.key = k
  distinct : (s.lru.map (·.key)).Nodup
  current : ∀ entry ∈ s.lru, entry.key ≠ .zero ∧ entry.quota = s.book entry.key

theorem sound_initial (table : Nat → Option (QuotaType → QuotaInfo)) (now : Nat) : Sound (initial table now) := by
  have transparent := QuotaWriteback.transparent_start (ν := MemDqblk) fun _ _ => none
  refine ⟨transparent.coherent,transparent.bounded,fun k data used there => ?_,List.nodup_nil,fun _ member => ?_⟩
  · have none := transparent.view k used
    rw [QuotaWriteback.start] at none
    exact absurd (none.symm.trans there) (by simp)
  · cases member

/-- The record of a key that the write-back cache gives. -/
theorem Sound.read (sound : Sound s) (used : k ≠ .zero) : s.writeback.read k.table ⟨k,.zero⟩ = ⟨k,s.book k⟩ := by
  have reads : s.writeback.read k.table ⟨k,.zero⟩ = (s.writeback.view k).getD ⟨k,.zero⟩ := sound.coherent.read used
  rw [reads,State.book]
  cases view : s.writeback.view k with
  | none => rfl
  | some data =>
    have key := sound.keyed k data used view
    cases data
    cases key
    rfl

theorem trim_sublist (n : Nat) (lru : List (Dquot MemDqblk)) : (trim n lru).Sublist lru := by
  induction n generalizing lru with
  | zero => exact .refl _
  | succ n ih =>
    rw [trim]
    split
    · exact (ih lru.dropLast).trans (List.dropLast_sublist lru)
    · exact .refl _

/-- Entries leave the quota cache. -/
theorem Sound.forget (sound : Sound s) {lru : List (Dquot MemDqblk)} (kept : lru.Sublist s.lru) : Sound { s with lru := lru } :=
  ⟨sound.coherent,sound.bounded,sound.keyed,sound.distinct.sublist (kept.map _),fun entry member => sound.current entry (kept.subset member)⟩

/-- What a get does: it puts the account of its key at the front. -/
structure Gotten (s s' : State) (k : Key) : Prop where
  front : ∃ rest, s'.lru = ⟨k,s.book k⟩ :: rest
  sound : Sound s'
  writeback : s'.writeback = s.writeback
  table : s'.table = s.table
  now : s'.now = s.now

/-- An account is put in front of entries of other keys. -/
theorem Sound.push (sound : Sound s) (used : k ≠ .zero) {rest : List (Dquot MemDqblk)} (kept : rest.Sublist s.lru)
    (fresh : ∀ entry ∈ rest, entry.key ≠ k) : Gotten s { s with lru := ⟨k,s.book k⟩ :: rest } k := by
  have forgotten := sound.forget kept
  refine ⟨⟨rest,rfl⟩,⟨sound.coherent,sound.bounded,sound.keyed,?_,?_⟩,rfl,rfl,rfl⟩
  · rw [List.map_cons,List.nodup_cons]
    refine ⟨fun member => ?_,forgotten.distinct⟩
    obtain ⟨entry,there,key⟩ := List.mem_map.mp member
    exact fresh entry there key
  · intro entry member
    rcases List.mem_cons.mp member with rfl | there
    · exact ⟨used,rfl⟩
    · exact forgotten.current entry there

theorem Sound.get (sound : Sound s) (used : k ≠ .zero) :
    (s.cacheGet k.table k).1 = ⟨k,s.book k⟩ ∧ Gotten s (s.cacheGet k.table k).2 k := by
  simp only [State.cacheGet]
  cases found : s.lru.find? (fun entry => entry.key = k) with
  | some entry =>
    have member := List.mem_of_find?_eq_some found
    have key := List.find?_some found
    simp only [decide_eq_true_eq] at key
    have account : entry = ⟨k,s.book k⟩ := by
      have current := (sound.current entry member).2
      cases entry
      cases key
      exact congrArg _ current
    refine ⟨account,?_⟩
    simp only [account]
    apply sound.push used List.filter_sublist
    intro other there
    exact of_decide_eq_true (List.mem_filter.mp there).2
  | none =>
    have absent : ∀ entry ∈ s.lru, entry.key ≠ k := by
      intro entry member
      simpa using List.find?_eq_none.mp found entry member
    refine ⟨sound.read used,?_⟩
    simp only [sound.read used]
    apply sound.push used (trim_sublist 3 s.lru)
    exact fun entry there => absent entry ((trim_sublist 3 s.lru).subset there)

/-- The write counter of the chunk of a key does not come back to 0 at the next write. -/
def State.Counted (s : State) (k : Key) : Prop :=
  ∀ i < cacheMaxChunk, (s.writeback.chunk (getIndex k) i).key = k → (s.writeback.chunk (getIndex k) i).wrCpt + 1 ≠ 0

instance : Decidable (s.Counted k) := inferInstanceAs (Decidable (∀ i < cacheMaxChunk, _ → _))

/-- What an update of an account does. -/
structure Updated (s s' : State) (k : Key) (q : MemDqblk) : Prop where
  sound : Sound s'
  own : s'.book k = q
  others : ∀ other, other ≠ .zero → other ≠ k → s'.book other = s.book other
  counted : ∀ other, other ≠ k → s.Counted other → s'.Counted other
  table : s'.table = s.table
  now : s'.now = s.now

theorem Gotten.put (gotten : Gotten s s' k) (used : k ≠ .zero) (counted : s.Counted k) (q : MemDqblk) :
    Updated s (s'.cachePut k.table ⟨k,q⟩) k q := by
  obtain ⟨rest,front⟩ := gotten.front
  have stored : QuotaWriteback.Stored s'.writeback (s'.writeback.write k.table ⟨k,q⟩) ⟨k,q⟩ := by
    apply gotten.sound.coherent.write gotten.sound.bounded used
    rw [gotten.writeback]
    exact counted
  have own : (s'.cachePut k.table ⟨k,q⟩).book k = q := by
    simp only [State.book,State.cachePut]
    rw [stored.own]
    rfl
  have others : ∀ other, other ≠ .zero → other ≠ k → (s'.cachePut k.table ⟨k,q⟩).book other = s'.book other := by
    intro other valid ne
    simp only [State.book,State.cachePut]
    rw [stored.others other valid ne]
  have distinct := gotten.sound.distinct
  rw [front,List.map_cons,List.nodup_cons] at distinct
  refine ⟨⟨stored.coherent,gotten.sound.bounded.write _,?_,?_,?_⟩,own,?_,?_,gotten.table,gotten.now⟩
  · intro other data valid there
    by_cases same : other = k
    · subst same
      have here : some (⟨other,q⟩ : Dquot MemDqblk) = some data := stored.own.symm.trans there
      cases here
      rfl
    · apply gotten.sound.keyed other data valid
      exact (stored.others other valid same).symm.trans there
  · simp only [State.cachePut,front,List.tail_cons,List.map_cons,List.nodup_cons]
    exact distinct
  · intro entry member
    simp only [State.cachePut,front,List.tail_cons] at member
    rcases List.mem_cons.mp member with rfl | there
    · exact ⟨used,own.symm⟩
    · have current := gotten.sound.current entry (by rw [front]; exact List.mem_cons_of_mem _ there)
      have ne : entry.key ≠ k := fun same => distinct.1 (List.mem_map.mpr ⟨entry,there,same⟩)
      exact ⟨current.1,by rw [others entry.key current.1 ne]; exact current.2⟩
  · intro other valid ne
    rw [others other valid ne,State.book,State.book,gotten.writeback]
  · intro other ne counted i inside key
    have kept : (s'.cachePut k.table ⟨k,q⟩).writeback.chunk (getIndex other) i = s'.writeback.chunk (getIndex other) i :=
      QuotaWriteback.write_kept (by simp only [State.cachePut] at key; rw [key]; exact ne)
    rw [kept,gotten.writeback] at key ⊢
    exact counted i inside key

section Updates
variable {type : QuotaType} {qid : BitVec 32} {targets : Targets}

/-- Exports are numbered so that the ten bits of a key tell them apart, and from an unused chunk. -/
def Numbered (table : Nat → Option (QuotaType → QuotaInfo)) : Prop :=
  ∀ eid, table eid ≠ none → 0 < eid ∧ eid < eidMaxIdx

theorem Numbered.context (numbered : Numbered s.table) (eid : Nat) : s.context eid = s.table eid := by
  rw [State.context]
  split
  · rename_i beyond
    by_contra there
    have := (numbered eid fun none => there none.symm).2
    omega
  · rfl

theorem accountKey_eid (below : eid < eidMaxIdx) : (accountKey eid type qid).eid.toNat = eid := by
  simp only [accountKey,BitVec.toNat_ofNat]
  exact Nat.mod_eq_of_lt below

theorem accountKey_table (below : eid < eidMaxIdx) : (accountKey eid type qid).table = quotaInode eid type := by
  simp only [Key.table,accountKey_eid below]
  rfl

theorem accountKey_ne_zero (inside : 0 < eid ∧ eid < eidMaxIdx) : accountKey eid type qid ≠ .zero := by
  intro zero
  have none : (accountKey eid type qid).eid.toNat = 0 := by rw [zero]; rfl
  rw [accountKey_eid inside.2] at none
  omega

/-- Nothing is recorded at first. -/
theorem book_initial {table : Nat → Option (QuotaType → QuotaInfo)} {now : Nat} (inside : 0 < eid ∧ eid < eidMaxIdx) :
    (initial table now).book (accountKey eid type qid) = .zero := by
  have transparent := QuotaWriteback.transparent_start (ν := MemDqblk) fun _ _ => none
  have used : accountKey eid type qid ≠ .zero := accountKey_ne_zero inside
  have view := transparent.view _ used
  simp only [QuotaWriteback.start] at view
  simp only [State.book,initial,view,Option.getD_none]

theorem code_injective {a b : QuotaType} (same : a.code = b.code) : a = b := by
  cases a <;> cases b <;> first | rfl | cases same

theorem accountKey_injective {eid' : Nat} {type' : QuotaType} {qid' : BitVec 32} (below : eid < eidMaxIdx) (below' : eid' < eidMaxIdx)
    (same : accountKey eid type qid = accountKey eid' type' qid') : eid = eid' ∧ type = type' ∧ qid = qid' := by
  refine ⟨?_,code_injective (congrArg Key.type same),congrArg Key.qid same⟩
  have eids : (accountKey eid type qid).eid.toNat = (accountKey eid' type' qid').eid.toNat := by rw [same]
  rw [accountKey_eid below,accountKey_eid below'] at eids
  exact eids

/-- The account that a get gives. -/
def State.account (s : State) (eid : Nat) (type : QuotaType) (qid : BitVec 32) : MemDqblk :=
  (s.cacheGet (quotaInode eid type) (accountKey eid type qid)).1.quota

theorem Sound.account (sound : Sound s) (inside : 0 < eid ∧ eid < eidMaxIdx) :
    s.account eid type qid = s.book (accountKey eid type qid) := by
  have used : accountKey eid type qid ≠ .zero := accountKey_ne_zero inside
  have got := (sound.get used).1
  rw [accountKey_table inside.2] at got
  rw [State.account,got]

theorem Sound.update (sound : Sound s) (inside : 0 < eid ∧ eid < eidMaxIdx) (counted : s.Counted (accountKey eid type qid))
    (change : MemDqblk → MemDqblk) :
    Updated s (s.dqotUpdate eid type qid change) (accountKey eid type qid) (change (s.book (accountKey eid type qid))) := by
  have used : accountKey eid type qid ≠ .zero := accountKey_ne_zero inside
  obtain ⟨entry,gotten⟩ := sound.get used
  have put := gotten.put used counted (change (s.book (accountKey eid type qid)))
  rw [accountKey_table inside.2] at entry put
  simp only [State.dqotUpdate]
  rw [entry]
  exact put

/-- What the updates of a call do. -/
structure Recorded (s s' : State) (eid : Nat) (targets : Targets) (change : QuotaType → MemDqblk → MemDqblk) : Prop where
  sound : Sound s'
  own : ∀ target ∈ targets, s'.book (accountKey eid target.1 target.2) = change target.1 (s.book (accountKey eid target.1 target.2))
  others : ∀ k, k ≠ .zero → (∀ target ∈ targets, k ≠ accountKey eid target.1 target.2) → s'.book k = s.book k
  table : s'.table = s.table
  now : s'.now = s.now

theorem Sound.updates (sound : Sound s) (inside : 0 < eid ∧ eid < eidMaxIdx) (distinct : (targets.map Prod.fst).Nodup)
    (counted : ∀ target ∈ targets, s.Counted (accountKey eid target.1 target.2)) (change : QuotaType → MemDqblk → MemDqblk) :
    Recorded s (targets.foldl (fun s target => s.dqotUpdate eid target.1 target.2 (change target.1)) s) eid targets change := by
  induction targets generalizing s with
  | nil => exact ⟨sound,fun _ none => absurd none List.not_mem_nil,fun _ _ _ => rfl,rfl,rfl⟩
  | cons first rest ih =>
    obtain ⟨type,qid⟩ := first
    simp only [List.map_cons,List.nodup_cons,List.mem_map] at distinct
    simp only [List.mem_cons,forall_eq_or_imp] at counted
    simp only [List.foldl_cons]
    -- the accounts of the other targets have another type
    have apart : ∀ target ∈ rest, accountKey eid target.1 target.2 ≠ accountKey eid type qid := by
      intro target member same
      exact distinct.1 ⟨target,member,(accountKey_injective inside.2 inside.2 same).2.1⟩
    have updated := sound.update inside counted.1 (change type)
    have recorded := ih updated.sound distinct.2 fun target member => updated.counted _ (apart target member) (counted.2 target member)
    refine ⟨recorded.sound,?_,?_,recorded.table.trans updated.table,recorded.now.trans updated.now⟩
    · intro target member
      rcases List.mem_cons.mp member with rfl | there
      · rw [recorded.others _ (accountKey_ne_zero inside) fun target member => (apart target member).symm]
        exact updated.own
      · rw [recorded.own target there,updated.others _ (accountKey_ne_zero inside) (apart target there)]
    · intro k used apart'
      rw [recorded.others k used fun target member => apart' target (List.mem_cons_of_mem _ member)]
      exact updated.others k used (apart' (type,qid) List.mem_cons_self)

end Updates

section Ledger

/-- What an update counts. -/
inductive Kind where
  | inodes
  | blocks
  deriving DecidableEq

def MemDqblk.usage : Kind → MemDqblk → BitVec 64
  | .inodes, q => q.curinodes
  | .blocks, q => q.curspace

/-- A call of `rozofs_qt_inode_update` or `rozofs_qt_block_update`. -/
structure Call where
  kind : Kind
  eid : Nat
  userId : BitVec 32
  grpId : BitVec 32
  amount : Int
  action : Direction
  share : BitVec 16

/-- The call names the account: -1 is no user and no group, 0 is no share. -/
def Call.names (call : Call) (eid : Nat) (type : QuotaType) (id : BitVec 32) : Bool :=
  call.eid = eid && match type with
    | .usrquota => call.userId = id && id ≠ -1
    | .grpquota => call.grpId = id && id ≠ -1
    | .shrquota => call.share.setWidth 32 = id && call.share ≠ 0

/-- The usage before the floor. -/
def Call.balance (call : Call) (usage : Int) : Int :=
  match call.action with
  | .inc => usage + call.amount
  | .dec => usage - call.amount

def Call.adjust (call : Call) (usage : Int) : Int :=
  match call.action with
  | .inc => call.balance usage
  | .dec => max 0 (call.balance usage)

/-- The usage of an account after some calls. -/
def total (calls : List Call) (kind : Kind) (eid : Nat) (type : QuotaType) (id : BitVec 32) : Int :=
  (calls.filter fun call => call.kind = kind && call.names eid type id).foldl (fun usage call => call.adjust usage) 0

/-- The quotas with the calls made so far. -/
structure Ledger where
  quota : State
  calls : List Call

inductive Action where
  | inode (eid : Nat) (userId grpId nbInode : BitVec 32) (action : Direction) (share : BitVec 16)
  | block (eid : Nat) (userId grpId : BitVec 32) (size : BitVec 64) (action : Direction) (share : BitVec 16)
  | evict (i : Nat)
  | flush (slot : Nat)
  | tick (now : Nat)

def step : Action → Ledger → Option Ledger
  | .inode eid userId grpId nbInode action share, l =>
    some ⟨l.quota.inodeUpdate eid userId grpId nbInode action share,l.calls ++ [⟨.inodes,eid,userId,grpId,nbInode.toInt,action,share⟩]⟩
  | .block eid userId grpId size action share, l =>
    some ⟨l.quota.blockUpdate eid userId grpId size action share,l.calls ++ [⟨.blocks,eid,userId,grpId,size.toNat,action,share⟩]⟩
  | .evict i, l => some { l with quota := l.quota.evict i }
  | .flush slot, l => some { l with quota := l.quota.flush slot }
  | .tick now, l => some { l with quota := { l.quota with now := now } }

/-- The value of a signed word. -/
def Representable (x : Int) : Prop := -2 ^ 63 ≤ x ∧ x < 2 ^ 63

instance : Decidable (Representable x) := inferInstanceAs (Decidable (_ ∧ _))

/-- Each account of the call has a result that fits, and a chunk that can count one more write. -/
def Call.Fits (call : Call) (s : State) : Prop :=
  ∀ target ∈ inodeTargets call.userId call.grpId call.share, s.Counted (accountKey call.eid target.1 target.2) ∧
    Representable (call.balance ((s.account call.eid target.1 target.2).usage call.kind).toInt)

instance (call : Call) (s : State) : Decidable (call.Fits s) := inferInstanceAs (Decidable (∀ target ∈ _, _ ∧ _))

/-- The condition on a step: a block update that names a group names it as its user too. -/
def Fit (l : Ledger) : Action → Prop
  | .inode eid userId grpId nbInode action share =>
    (l.quota.context eid).isNone ∨ Call.Fits ⟨.inodes,eid,userId,grpId,nbInode.toInt,action,share⟩ l.quota
  | .block eid userId grpId size action share =>
    (l.quota.context eid).isNone ∨
      (grpId = -1 ∨ grpId = userId) ∧ Call.Fits ⟨.blocks,eid,userId,grpId,size.toNat,action,share⟩ l.quota
  | _ => True

instance (l : Ledger) : (a : Action) → Decidable (Fit l a)
  | .inode .. => inferInstanceAs (Decidable (_ ∨ _))
  | .block .. => inferInstanceAs (Decidable (_ ∨ _))
  | .evict _ => inferInstanceAs (Decidable True)
  | .flush _ => inferInstanceAs (Decidable True)
  | .tick _ => inferInstanceAs (Decidable True)

/-- The change of an account by a call. -/
def change (kind : Kind) (now : Nat) (count : BitVec 64) (action : Direction) (info : QuotaInfo) : MemDqblk → MemDqblk :=
  match kind with
  | .inodes => inodeChange now count action info
  | .blocks => blockChange now count action info

variable {call : Call} {kind : Kind} {now : Nat} {info : QuotaInfo} {q : MemDqblk}

theorem usage_change (count : BitVec 64) (action : Direction) :
    (change kind now count action info q).usage kind = newUsage count action (q.usage kind) := by
  cases kind <;> rfl

theorem usage_change_other (count : BitVec 64) (action : Direction) {other : Kind} (ne : other ≠ kind) :
    (change kind now count action info q).usage other = q.usage other := by
  cases kind <;> cases other <;> first | rfl | exact absurd rfl ne

theorem bmod_representable {x : Int} (fits : Representable x) : x.bmod (2 ^ 64) = x := by
  obtain ⟨low,high⟩ := fits
  apply Int.bmod_eq_of_le
  · omega
  · omega

/-- Machine arithmetic gives the adjusted usage when the balance is representable. -/
theorem newUsage_toInt {usage : BitVec 64} (fits : Representable (call.balance usage.toInt)) :
    (newUsage (BitVec.ofInt 64 call.amount) call.action usage).toInt = call.adjust usage.toInt := by
  unfold newUsage Call.adjust
  unfold Call.balance at fits ⊢
  cases action : call.action with
  | inc =>
    simp only [action] at fits ⊢
    rw [BitVec.toInt_add,BitVec.toInt_ofInt,Int.add_bmod_bmod,bmod_representable fits]
  | dec =>
    simp only [action] at fits ⊢
    have exact_ : (usage - BitVec.ofInt 64 call.amount).toInt = usage.toInt - call.amount := by
      rw [BitVec.toInt_sub,BitVec.toInt_ofInt,Int.sub_bmod_bmod,bmod_representable fits]
    rw [exact_]
    split
    · rw [Int.max_eq_left (by omega)]
      rfl
    · rw [Int.max_eq_right (by omega)]
      exact exact_

theorem names_iff_target (id : BitVec 32) (type : QuotaType) :
    call.names eid type id = true ↔ call.eid = eid ∧ (type,id) ∈ inodeTargets call.userId call.grpId call.share := by
  simp only [Call.names,Bool.and_eq_true,decide_eq_true_eq]
  apply and_congr_right
  intro _
  unfold inodeTargets
  cases type <;> grind

theorem inodeTargets_distinct (userId grpId : BitVec 32) (share : BitVec 16) :
    ((inodeTargets userId grpId share).map Prod.fst).Nodup := by
  unfold inodeTargets
  split <;> split <;> split <;> simp

/-- A block update with a group that is its user updates the accounts it names. -/
theorem blockTargets_eq {userId grpId : BitVec 32} (same : grpId = -1 ∨ grpId = userId) (share : BitVec 16) :
    blockTargets userId grpId share = inodeTargets userId grpId share := by
  unfold blockTargets inodeTargets
  rcases same with rfl | rfl
  · rfl
  · rfl

theorem total_append (calls : List Call) (call : Call) (kind : Kind) (eid : Nat) (type : QuotaType) (id : BitVec 32) :
    total (calls ++ [call]) kind eid type id =
      if call.kind = kind ∧ call.names eid type id then call.adjust (total calls kind eid type id) else total calls kind eid type id := by
  unfold total
  rw [List.filter_append,List.foldl_append]
  by_cases here : call.kind = kind ∧ call.names eid type id
  · simp [here.1,here.2]
  · rw [if_neg here]
    have none : (call.kind = kind && call.names eid type id) = false := by
      simpa using here
    simp [List.filter,none]

/-- The invariant of a run: the book has for each account of an export the total of its calls. -/
structure Balanced (table : Nat → Option (QuotaType → QuotaInfo)) (l : Ledger) : Prop where
  sound : Sound l.quota
  exports : l.quota.table = table
  usage : ∀ kind eid type id, table eid ≠ none →
    ((l.quota.book (accountKey eid type id)).usage kind).toInt = total l.calls kind eid type id

section Steps
variable {table : Nat → Option (QuotaType → QuotaInfo)} {l : Ledger}

/-- A change of the caches that keeps the book. -/
theorem Balanced.same_book (balanced : Balanced table l) (sound : Sound s) (same : s.table = l.quota.table)
    (book : ∀ k, s.book k = l.quota.book k) : Balanced table { l with quota := s } :=
  ⟨sound,same.trans balanced.exports,fun kind eid type id there => by rw [← balanced.usage kind eid type id there,book]⟩

theorem Sound.evict (sound : Sound s) (i : Nat) : Sound (s.evict i) := sound.forget (List.eraseIdx_sublist s.lru i)

theorem Sound.flush (sound : Sound s) (slot : Nat) :
    Sound (s.flush slot) ∧ (s.flush slot).table = s.table ∧ (s.flush slot).now = s.now ∧ ∀ k, (s.flush slot).book k = s.book k := by
  unfold State.flush State.book
  have drained := QuotaWriteback.drained_diskflush sound.coherent sound.bounded slot
  generalize s.writeback.diskflush slot = writeback at drained
  refine ⟨⟨drained.coherent,drained.bounded,?_,sound.distinct,?_⟩,rfl,rfl,?_⟩
  · intro k data used there
    exact sound.keyed k data used ((drained.view k).symm.trans there)
  · intro entry member
    simp only [State.book,drained.view]
    exact sound.current entry member
  · intro k
    simp only [drained.view]

/-- A call that updates the accounts it names. -/
theorem Balanced.made (balanced : Balanced table l) (numbered : Numbered table) (call : Call)
    (fits : (l.quota.context call.eid).isNone ∨ call.Fits l.quota) :
    Balanced table ⟨l.quota.updateAll call.eid (inodeTargets call.userId call.grpId call.share)
      (change call.kind l.quota.now (BitVec.ofInt 64 call.amount) call.action),l.calls ++ [call]⟩ := by
  have context : l.quota.context call.eid = table call.eid := by
    have numbered : Numbered l.quota.table := balanced.exports ▸ numbered
    rw [numbered.context,balanced.exports]
  simp only [context] at fits
  simp only [State.updateAll,context]
  cases there : table call.eid with
  | none =>
    -- the call returns an error, and its export has no account
    refine ⟨balanced.sound,balanced.exports,fun kind eid type id known => ?_⟩
    rw [total_append,if_neg,balanced.usage kind eid type id known]
    rintro ⟨_,named⟩
    obtain ⟨rfl,_⟩ := (names_iff_target id type).mp named
    exact known there
  | some p =>
    simp only [there,Option.isNone_some,Bool.false_eq_true,false_or] at fits
    have inside := numbered call.eid (by rw [there]; simp)
    have recorded := balanced.sound.updates inside (inodeTargets_distinct call.userId call.grpId call.share)
      (fun target member => (fits target member).1) fun type => change call.kind l.quota.now (BitVec.ofInt 64 call.amount) call.action (p type)
    refine ⟨recorded.sound,recorded.table.trans balanced.exports,fun kind eid type id known => ?_⟩
    rw [total_append,← balanced.usage kind eid type id known]
    by_cases named : call.names eid type id = true
    · obtain ⟨rfl,member⟩ := (names_iff_target id type).mp named
      have fit := (fits _ member).2
      rw [balanced.sound.account inside] at fit
      rw [recorded.own _ member]
      by_cases same : call.kind = kind
      · subst same
        rw [if_pos ⟨rfl,named⟩,usage_change,newUsage_toInt fit]
      · rw [if_neg fun both => same both.1,usage_change_other _ _ fun other => same other.symm]
    · rw [if_neg fun both => named both.2,recorded.others]
      · exact accountKey_ne_zero (numbered eid known)
      · rintro ⟨type',id'⟩ member same
        obtain ⟨rfl,rfl,rfl⟩ := accountKey_injective (numbered eid known).2 inside.2 same
        exact named ((names_iff_target id type).mpr ⟨rfl,member⟩)

theorem Balanced.step {l' : Ledger} {a : Action} (balanced : Balanced table l) (numbered : Numbered table) (fit : Fit l a)
    (stepped : step a l = some l') : Balanced table l' := by
  cases a with
  | inode eid userId grpId nbInode action share =>
    simp only [Quota.step,Option.some.injEq] at stepped
    subst stepped
    have made := balanced.made numbered ⟨.inodes,eid,userId,grpId,nbInode.toInt,action,share⟩ fit
    rw [State.inodeUpdate]
    exact made
  | block eid userId grpId size action share =>
    simp only [Quota.step,Option.some.injEq] at stepped
    subst stepped
    have count : BitVec.ofInt 64 (size.toNat : Int) = size := by
      rw [BitVec.ofInt_natCast,BitVec.ofNat_toNat,BitVec.setWidth_eq]
    rcases fit with missing | ⟨same,fits⟩
    · have made := balanced.made numbered ⟨.blocks,eid,userId,grpId,size.toNat,action,share⟩ (.inl missing)
      simp only [State.blockUpdate,State.updateAll] at made ⊢
      rw [Option.isNone_iff_eq_none] at missing
      simp only [missing] at made ⊢
      exact made
    · have made := balanced.made numbered _ (.inr fits)
      simp only [count] at made
      rw [State.blockUpdate,blockTargets_eq same]
      exact made
  | evict i =>
    simp only [Quota.step,Option.some.injEq] at stepped
    subst stepped
    exact balanced.same_book (balanced.sound.evict i) rfl fun _ => rfl
  | flush slot =>
    simp only [Quota.step,Option.some.injEq] at stepped
    subst stepped
    have flushed := balanced.sound.flush slot
    generalize l.quota.flush slot = s at flushed
    exact balanced.same_book flushed.1 flushed.2.1 flushed.2.2.2
  | tick now =>
    simp only [Quota.step,Option.some.injEq] at stepped
    subst stepped
    exact balanced.same_book ⟨balanced.sound.coherent,balanced.sound.bounded,balanced.sound.keyed,balanced.sound.distinct,balanced.sound.current⟩
      rfl fun _ => rfl

theorem balanced_run (numbered : Numbered table) (run : Machine.Run step Fit ⟨initial table now,[]⟩ l) : Balanced table l := by
  apply run.invariant (Balanced table)
  · refine ⟨sound_initial table now,rfl,fun kind eid type id known => ?_⟩
    rw [book_initial (numbered eid known)]
    cases kind <;> rfl
  · exact fun _ _ _ balanced fit stepped => balanced.step numbered fit stepped

/-- In every run whose steps all meet the condition, on exports numbered from 1 to 1023: the usage
recorded for an account is the total of the calls that name it, and a call changes the usage of no
account that it does not name. -/
theorem usage_is_total (numbered : Numbered table) (run : Machine.Run step Fit ⟨initial table now,[]⟩ l) :
    (∀ eid type id kind, table eid ≠ none → ((l.quota.account eid type id).usage kind).toInt = total l.calls kind eid type id) ∧
    (∀ a l' call, Fit l a → step a l = some l' → l'.calls = l.calls ++ [call] →
      ∀ eid type id kind, table eid ≠ none → call.names eid type id = false →
        (l'.quota.account eid type id).usage kind = (l.quota.account eid type id).usage kind) := by
  have balanced := balanced_run numbered run
  refine ⟨fun eid type id kind known => ?_,fun a l' call fit stepped calls eid type id kind known unnamed => ?_⟩
  · rw [balanced.sound.account (numbered eid known)]
    exact balanced.usage kind eid type id known
  · have after := balanced.step numbered fit stepped
    rw [balanced.sound.account (numbered eid known),after.sound.account (numbered eid known)]
    apply BitVec.eq_of_toInt_eq
    rw [balanced.usage kind eid type id known,after.usage kind eid type id known,calls,total_append,if_neg]
    simp [unnamed]

/-- Export 1 alone. -/
def oneExport : Nat → Option (QuotaType → QuotaInfo) := fun eid => if eid = 1 then some fun _ => ⟨604800,604800,true⟩ else none

theorem numbered_oneExport : Numbered oneExport := by
  intro eid known
  by_cases one : eid = 1
  · subst one
    decide
  · simp [oneExport,one] at known

theorem usage_is_total_evicted :
    ∃ l, Machine.Run step Fit ⟨initial oneExport 1,[]⟩ l ∧ ((l.quota.account 1 .grpquota 7).usage .inodes).toInt = 2 ∧
      total l.calls .inodes 1 .grpquota 7 = 2 := by
  have usage : (Machine.exec step Fit [.inode 1 5 7 3 .inc 0,.evict 0,.flush 0,.block 1 7 7 4096 .inc 2,.inode 1 5 7 1 .dec 0]
      ⟨initial oneExport 1,[]⟩).map (fun l => ((l.quota.account 1 .grpquota 7).usage .inodes).toInt) = some 2 := by decide +kernel
  obtain ⟨l,done,value⟩ := Option.map_eq_some_iff.mp usage
  have run : Machine.Run step Fit ⟨initial oneExport 1,[]⟩ l := Machine.Run.refl.exec done
  refine ⟨l,run,value,?_⟩
  rw [← (usage_is_total numbered_oneExport run).1 1 .grpquota 7 .inodes (by decide)]
  exact value

/-- A block update of user 5 and group 7 is recorded for group 5. -/
theorem group_update_to_user_id :
    ¬∀ l, Machine.Run step (fun _ _ => True) ⟨initial oneExport 1,[]⟩ l →
      ∀ eid type id kind, oneExport eid ≠ none → ((l.quota.account eid type id).usage kind).toInt = total l.calls kind eid type id := by
  intro claim
  have usage : (Machine.exec step (fun _ _ => True) [.block 1 5 7 4096 .inc 0] ⟨initial oneExport 1,[]⟩).map
      (fun l => (((l.quota.account 1 .grpquota 7).usage .blocks).toInt,total l.calls .blocks 1 .grpquota 7)) = some (0,4096) := by
    decide +kernel
  obtain ⟨l,done,value⟩ := Option.map_eq_some_iff.mp usage
  have run : Machine.Run step (fun _ _ => True) ⟨initial oneExport 1,[]⟩ l := Machine.Run.refl.exec done
  have equal := claim l run 1 .grpquota 7 .blocks (by decide)
  rw [Prod.mk.injEq] at value
  rw [value.1,value.2] at equal
  cases equal

end Steps

end Ledger

end Rozofs.Quota
