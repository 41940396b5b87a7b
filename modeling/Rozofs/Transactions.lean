import Mathlib.Algebra.Order.Ring.Int
import Rozofs.Machine
import Rozofs.StorcliRing

/-! Transactions of a client, `rozofs_tx_engine.c`, and the choice of a storage client for the requests
of a file, `rozofs_rw_load_balancing.c`. The buffers of the messages and their counters of users are left
out. The callbacks of a transaction release its context. -/
namespace Rozofs.Transactions
open Function (update)
open StorcliRing (Fid)

/-- `rozofs_tx_ctx_t`; `lbg` is the file and the storcli of its load balancing context, when that is linked. -/
structure Ctx where
  free : Bool
  xid : BitVec 32
  xidLow : BitVec 32
  timer : Bool
  status : Int
  txErrno : Nat
  lbg : Option (Fid × Nat)

/-- The contexts with the list of those that are free, and the hash table of the load balancing. -/
structure Pool where
  count : Nat
  ctx : Nat → Ctx
  allocated : Nat
  freeList : List Nat
  buckets : Nat → List Nat
  nextIdx : BitVec 32
  storcliCount : Nat

/-- `rozofs_tx_alloc_xid`. The counter skips zero. -/
def allocXid (index : Nat) (c : Ctx) : Ctx :=
  let low := c.xidLow + 1
  let xid := low &&& 0xffff
  if xid = 0 then { c with xidLow := 1, xid := BitVec.ofNat 32 index <<< 16 ||| 1 }
  else { c with xidLow := low, xid := BitVec.ofNat 32 index <<< 16 ||| xid }

/-- `rozofs_tx_get_tx_idx_from_xid`. -/
def txIdxFromXid (xid : BitVec 32) : Nat := (xid >>> 16 &&& 0xffff).toNat

def ctxInit (c : Ctx) : Ctx := { c with timer := false, xid := 0, status := 0, txErrno := 0, lbg := none }

/-- `rozofs_tx_alloc`. -/
def txAlloc (p : Pool) : Option (Nat × Pool) :=
  match p.freeList with
  | [] => none
  | i :: rest =>
    some (i,{ p with ctx := update p.ctx i { ctxInit (p.ctx i) with free := false }, allocated := p.allocated + 1, freeList := rest })

/-- `ruc_objRemove` on the link of a load balancing context, whichever list it is on. -/
def unlink (p : Pool) (i : Nat) : Pool :=
  { p with ctx := update p.ctx i { p.ctx i with lbg := none }, buckets := fun h => (p.buckets h).filter (· ≠ i) }

/-- `rozofs_tx_free_from_idx`. -/
def txFree (p : Pool) (i : Nat) : Pool :=
  let p := unlink { p with freeList := p.freeList.filter (· ≠ i) } i
  { p with ctx := update p.ctx i { p.ctx i with xid := 0, free := true }, allocated := p.allocated - 1, freeList := p.freeList ++ [i] }

def fidHash (fid : Fid) : BitVec 32 := fid.toList.foldl (fun hash c => c.setWidth 32 + (hash <<< 6) + (hash <<< 16) - hash) 0

def stclbgHashSize : Nat := 48

def hashIdx (fid : Fid) : Nat := (fidHash fid).toNat % stclbgHashSize

/-- `stclbg_hash_table_search_ctx`. -/
def searchCtx (p : Pool) (fid : Fid) : Option Nat :=
  ((p.buckets (hashIdx fid)).find? fun i => decide ((p.ctx i).lbg.map Prod.fst = some fid))

/-- `stclbg_hash_table_insert_ctx`. -/
def insertCtx (p : Pool) (i : Nat) (fid : Fid) (storcliIdx : Nat) : Pool :=
  let p := unlink p i
  { p with ctx := update p.ctx i { p.ctx i with lbg := some (fid,storcliIdx) },
           buckets := update p.buckets (hashIdx fid) (p.buckets (hashIdx fid) ++ [i]) }

/-- `stclbg_storcli_idx_from_fid`. -/
def storcliIdxFromFid (p : Pool) (fid : Fid) : Nat × Pool :=
  match (searchCtx p fid).bind fun i => (p.ctx i).lbg with
  | some found => (found.2,p)
  | none => ((p.nextIdx + 1).toNat % p.storcliCount,{ p with nextIdx := p.nextIdx + 1 })

def storcliPerFsmount : Nat := 4

/-- `stclbg_update_storcli_number`; the processes that are started and stopped are left out. -/
def updateStorcliNumber (p : Pool) (nb : Nat) : Pool :=
  if storcliPerFsmount < nb ∨ nb = 0 ∨ nb = p.storcliCount then p else { p with storcliCount := nb, nextIdx := 0 }

/-! ### Runs -/

/-- A message carries its `xid`. The request it belongs to is the context with the number of its use. -/
structure Msg where
  xid : BitVec 32
  id : Nat × Nat
  deriving DecidableEq

/-- What the callback of a request, or the caller that sends it, is told. -/
inductive Outcome where
  | reply (id : Nat × Nat)
  | timeout
  | aborted (errno : Nat)
  | refused
  deriving DecidableEq

structure State where
  pool : Pool
  uses : Nat → Nat
  requests : List Msg
  replies : List Msg
  log : List ((Nat × Nat) × Outcome)

/-- How far `rozofs_storcli_send_common` comes once it has a context. -/
inductive Fate where
  | noBuffer | notEncoded | notSent | sent

def refuse (s : State) (i : Nat) : State :=
  { s with pool := txFree s.pool i, log := ((i,s.uses i),.refused) :: s.log }

/-- The part of `rozofs_storcli_send_common` that follows the allocation of a context. -/
def sendFrom (s : State) (i : Nat) (fate : Fate) : State :=
  match fate with
  | .noBuffer => { s with pool := txFree s.pool i }
  | .notEncoded | .notSent =>
    refuse { s with pool := { s.pool with ctx := update s.pool.ctx i (allocXid i (s.pool.ctx i)) },
                    uses := update s.uses i (s.uses i + 1) } i
  | .sent =>
    let c := allocXid i (s.pool.ctx i)
    { s with pool := { s.pool with ctx := update s.pool.ctx i { c with timer := true } }, uses := update s.uses i (s.uses i + 1),
             requests := ⟨c.xid,(i,s.uses i + 1)⟩ :: s.requests }

/-- A request to a storcli, or, without a file, to another server. -/
def send (s : State) (fid : Option Fid) (fate : Fate) : State :=
  let chosen := match fid with
    | none => (0,s.pool)
    | some fid => storcliIdxFromFid s.pool fid
  match txAlloc chosen.2 with
  | none => { s with pool := chosen.2 }
  | some (i,p) =>
    let p := match fid with
      | none => p
      | some fid => insertCtx p i fid chosen.1
    sendFrom { s with pool := p } i fate

/-- The callback of a transaction. -/
def finish (s : State) (i : Nat) (outcome : Outcome) (status : Int) (errno : Nat) : State :=
  let c := { s.pool.ctx i with status := status, txErrno := errno, timer := false }
  { s with pool := txFree { s.pool with ctx := update s.pool.ctx i c } i, log := ((i,s.uses i),outcome) :: s.log }

/-- What `rozofs_tx_recv_rpc_cbk` and `rozofs_tx_xmit_abort_rpc_cbk` do with a buffer. -/
def dispatch (s : State) (xid : BitVec 32) (outcome : Outcome) (status : Int) (errno : Nat) : State :=
  if s.pool.count ≤ txIdxFromXid xid then s
  else if (s.pool.ctx (txIdxFromXid xid)).xid ≠ xid then s
  else finish s (txIdxFromXid xid) outcome status errno

inductive Action where
  | send (fid : Option Fid) (fate : Fate)
  | serve (m : Msg)
  | lose (m : Msg)
  | receive (m : Msg)
  | abort (m : Msg) (errno : Nat)
  | expire (i : Nat)
  | updateStorcli (nb : Nat)

def etime : Nat := 62

/-- One step of the client and of the network, which may lose messages, change their order and have a
request served again. -/
def step (a : Action) (s : State) : Option State :=
  match a with
  | .send fid fate => some (send s fid fate)
  | .serve m => if m ∈ s.requests then some { s with replies := m :: s.replies } else none
  | .lose m => some { s with requests := s.requests.erase m, replies := s.replies.erase m }
  | .receive m => if m ∈ s.replies then some (dispatch { s with replies := s.replies.erase m } m.xid (.reply m.id) 0 0) else none
  | .abort m errno =>
    if m ∈ s.requests then some (dispatch { s with requests := s.requests.erase m } m.xid (.aborted errno) (-1) errno) else none
  | .expire i => if i < s.pool.count ∧ (s.pool.ctx i).timer then some (finish s i .timeout (-1) etime) else none
  | .updateStorcli nb => some { s with pool := updateStorcliNumber s.pool nb }

/-- `rozofs_tx_module_init`. -/
def moduleInit (count storcliCount : Nat) : State :=
  { pool := ⟨count,fun _ => ⟨true,0,0,false,0,0,none⟩,0,List.range count,fun _ => [],0,storcliCount⟩,
    uses := fun _ => 0, requests := [], replies := [], log := [] }

/-! ### Transaction numbers -/

/-- The low part of the number that a context gives at its use `n`. -/
def lowOf (n : Nat) : Nat := if n = 0 then 0 else (n - 1) % 65535 + 1

def mkXid (i n : Nat) : BitVec 32 := BitVec.ofNat 32 i <<< 16 ||| BitVec.ofNat 32 (lowOf n)

theorem lowOf_le (n : Nat) : lowOf n ≤ 65535 := by
  rw [lowOf]
  split <;> omega

theorem lowOf_pos (used : 1 ≤ n) : 1 ≤ lowOf n := by
  rw [lowOf,if_neg (by omega)]
  omega

theorem lowOf_succ (n : Nat) : lowOf (n + 1) = if lowOf n = 65535 then 1 else lowOf n + 1 := by
  rw [lowOf,if_neg (by omega),Nat.add_sub_cancel,lowOf]
  split
  · rename_i zero
    subst zero
    rfl
  · split <;> omega

theorem lowOf_eq_iff (first : 1 ≤ n) (second : 1 ≤ k) : lowOf n = lowOf k ↔ (n - 1) % 65535 = (k - 1) % 65535 := by
  rw [lowOf,if_neg (by omega),lowOf,if_neg (by omega),Nat.add_right_cancel_iff]

theorem mkXid_toNat (small : i < 2 ^ 16) (n : Nat) : (mkXid i n).toNat = i * 2 ^ 16 + lowOf n := by
  have low := lowOf_le n
  rw [mkXid,BitVec.toNat_or,BitVec.toNat_shiftLeft,BitVec.toNat_ofNat,BitVec.toNat_ofNat,Nat.mod_eq_of_lt (by omega),
    Nat.shiftLeft_eq,Nat.mod_eq_of_lt (by omega),Nat.mod_eq_of_lt (by omega),← Nat.shiftLeft_eq,
    ← Nat.shiftLeft_add_eq_or_of_lt (by omega)]

theorem txIdx_mkXid (small : i < 2 ^ 16) (n : Nat) : txIdxFromXid (mkXid i n) = i := by
  have low := lowOf_le n
  rw [txIdxFromXid,BitVec.toNat_and,BitVec.toNat_ushiftRight,mkXid_toNat small,Nat.shiftRight_eq_div_pow]
  rw [show (0xffff : BitVec 32).toNat = 2 ^ 16 - 1 from rfl,Nat.and_two_pow_sub_one_eq_mod]
  omega

theorem mkXid_inj (first : i < 2 ^ 16) (second : j < 2 ^ 16) : mkXid i n = mkXid j k ↔ i = j ∧ lowOf n = lowOf k := by
  have lowN := lowOf_le n
  have lowK := lowOf_le k
  constructor
  · intro same
    have value := congrArg BitVec.toNat same
    rw [mkXid_toNat first,mkXid_toNat second] at value
    omega
  · rintro ⟨rfl,same⟩
    rw [mkXid,mkXid,same]

theorem mkXid_ne_zero (small : i < 2 ^ 16) (used : 1 ≤ n) : mkXid i n ≠ 0 := by
  intro zero
  have value := congrArg BitVec.toNat zero
  have := lowOf_pos used
  rw [mkXid_toNat small] at value
  change _ = 0 at value
  omega

theorem allocXid_spec (low : c.xidLow = BitVec.ofNat 32 (lowOf n)) (i : Nat) :
    allocXid i c = { c with xidLow := BitVec.ofNat 32 (lowOf (n + 1)), xid := mkXid i (n + 1) } := by
  have bound := lowOf_le n
  have next : (c.xidLow + 1).toNat = lowOf n + 1 := by
    rw [low,BitVec.toNat_add,BitVec.toNat_ofNat]
    change (lowOf n % 2 ^ 32 + 1) % 2 ^ 32 = _
    omega
  have part : (c.xidLow + 1 &&& 0xffff).toNat = (lowOf n + 1) % 2 ^ 16 := by
    rw [BitVec.toNat_and,next,show (0xffff : BitVec 32).toNat = 2 ^ 16 - 1 from rfl,Nat.and_two_pow_sub_one_eq_mod]
  have succ := lowOf_succ n
  rw [allocXid,mkXid]
  by_cases last : lowOf n = 65535
  · rw [if_pos last] at succ
    have zero : c.xidLow + 1 &&& 0xffff = 0 := BitVec.eq_of_toNat_eq (by rw [part,last]; rfl)
    rw [if_pos zero,succ]
    rfl
  · rw [if_neg last] at succ
    have some : c.xidLow + 1 &&& 0xffff ≠ 0 := by
      intro zero
      rw [zero] at part
      change 0 = _ at part
      omega
    have value : c.xidLow + 1 = BitVec.ofNat 32 (lowOf n + 1) := BitVec.eq_of_toNat_eq (by rw [next,BitVec.toNat_ofNat]; omega)
    have kept : c.xidLow + 1 &&& 0xffff = BitVec.ofNat 32 (lowOf n + 1) :=
      BitVec.eq_of_toNat_eq (by rw [part,BitVec.toNat_ofNat]; omega)
    rw [if_neg some,succ,kept,value]

/-! ### The pool -/

/-- The free list has the free contexts, a context is in the bucket of its file, and the contexts of one
file have one storcli. -/
structure Pool.Inv (p : Pool) : Prop where
  small : p.count ≤ 2 ^ 16
  idle : ∀ i, i ∈ p.freeList ↔ i < p.count ∧ (p.ctx i).free = true
  nodup : p.freeList.Nodup
  counted : p.allocated + p.freeList.length = p.count
  unlinked : ∀ i, (p.ctx i).free = true → (p.ctx i).lbg = none
  linked : ∀ h i, i ∈ p.buckets h ↔ ∃ fid idx, (p.ctx i).lbg = some (fid,idx) ∧ hashIdx fid = h
  agreed : ∀ i j fid a b, (p.ctx i).lbg = some (fid,a) → (p.ctx j).lbg = some (fid,b) → a = b

section Pools
variable {p : Pool}

/-- A context changes in what the lists do not depend on. -/
theorem Pool.Inv.set (inv : p.Inv) (free : c.free = (p.ctx i).free) (lbg : c.lbg = (p.ctx i).lbg) :
    Pool.Inv { p with ctx := update p.ctx i c } := by
  have frees : ∀ j, (update p.ctx i c j).free = (p.ctx j).free := fun j => by
    by_cases same : j = i
    · rw [same,Function.update_self,free]
    · rw [Function.update_of_ne same]
  have links : ∀ j, (update p.ctx i c j).lbg = (p.ctx j).lbg := fun j => by
    by_cases same : j = i
    · rw [same,Function.update_self,lbg]
    · rw [Function.update_of_ne same]
  constructor
  · exact inv.small
  · intro j
    rw [frees]
    exact inv.idle j
  · exact inv.nodup
  · exact inv.counted
  · intro j
    rw [frees,links]
    exact inv.unlinked j
  · intro h j
    rw [links]
    exact inv.linked h j
  · intro j k
    rw [links,links]
    exact inv.agreed j k

theorem searchCtx_spec (inv : p.Inv) (fid : Fid) :
    match (searchCtx p fid).bind fun i => (p.ctx i).lbg with
    | some found => ∃ i, (p.ctx i).lbg = some (fid,found.2)
    | none => ∀ i a, (p.ctx i).lbg ≠ some (fid,a) := by
  cases found : searchCtx p fid with
  | none =>
    intro i a link
    have member : i ∈ p.buckets (hashIdx fid) := (inv.linked _ i).mpr ⟨fid,a,link,rfl⟩
    have other := List.find?_eq_none.mp found i member
    rw [link] at other
    simp at other
  | some i =>
    have test := List.find?_some (show (p.buckets (hashIdx fid)).find? _ = some i from found)
    have good := of_decide_eq_true test
    obtain ⟨⟨fid',a⟩,link,same⟩ := Option.map_eq_some_iff.mp good
    rw [Option.bind_some,link]
    exact ⟨i,by rw [link,← same]⟩

theorem storcliIdx_spec (inv : p.Inv) (fid : Fid) : (storcliIdxFromFid p fid).2.Inv ∧
    (storcliIdxFromFid p fid).2.ctx = p.ctx ∧ (storcliIdxFromFid p fid).2.count = p.count ∧
    ∀ i a, (p.ctx i).lbg = some (fid,a) → a = (storcliIdxFromFid p fid).1 := by
  have search := searchCtx_spec inv fid
  rw [storcliIdxFromFid]
  cases eq : (searchCtx p fid).bind fun i => (p.ctx i).lbg with
  | some found =>
    rw [eq] at search
    obtain ⟨j,link⟩ := search
    exact ⟨inv,rfl,rfl,fun i a here => inv.agreed i j fid a _ here link⟩
  | none =>
    rw [eq] at search
    exact ⟨⟨inv.small,inv.idle,inv.nodup,inv.counted,inv.unlinked,inv.linked,inv.agreed⟩,rfl,rfl,
      fun i a here => absurd here (search i a)⟩

theorem txAlloc_spec (inv : p.Inv) (run : txAlloc p = some (i,q)) : i < p.count ∧ (p.ctx i).free = true ∧ q.Inv ∧
    q.count = p.count ∧ q.ctx = update p.ctx i { ctxInit (p.ctx i) with free := false } := by
  rw [txAlloc] at run
  split at run
  · cases run
  · rename_i j rest list
    cases run
    have nodup := inv.nodup
    have idle := inv.idle
    have counted := inv.counted
    rw [list] at nodup counted
    simp only [list,List.mem_cons] at idle
    obtain ⟨fresh,nodup⟩ := List.nodup_cons.mp nodup
    obtain ⟨bound,free⟩ := (idle i).mp (.inl rfl)
    have links : ∀ k, (update p.ctx i { ctxInit (p.ctx i) with free := false } k).lbg = (p.ctx k).lbg := fun k => by
      by_cases same : k = i
      · rw [same,Function.update_self,inv.unlinked i free,ctxInit]
      · rw [Function.update_of_ne same]
    refine ⟨bound,free,⟨inv.small,fun k => ?_,nodup,?_,fun k isFree => ?_,fun h k => ?_,fun k l => ?_⟩,rfl,rfl⟩
    · by_cases same : k = i
      · subst same
        simp [fresh]
      · simp only [Function.update_of_ne same]
        rw [← idle k]
        simp [same]
    · rw [List.length_cons] at counted
      change p.allocated + 1 + rest.length = p.count
      omega
    · by_cases same : k = i
      · subst same
        simp at isFree
      · simp only [Function.update_of_ne same] at isFree ⊢
        exact inv.unlinked k isFree
    · simp only [links]
      exact inv.linked h k
    · simp only [links]
      exact inv.agreed k l

theorem insertCtx_spec (inv : p.Inv) (busy : (p.ctx i).free = false) (agreed : ∀ j, ∀ a, (p.ctx j).lbg = some (fid,a) → a = idx) : (insertCtx p i fid idx).Inv := by
  have ctx : (insertCtx p i fid idx).ctx = update p.ctx i { p.ctx i with lbg := some (fid,idx) } := by
    simp [insertCtx,unlink]
  have buckets (h : Nat) : (insertCtx p i fid idx).buckets h =
      if h = hashIdx fid then (p.buckets h).filter (· ≠ i) ++ [i] else (p.buckets h).filter (· ≠ i) := by
    simp only [insertCtx,unlink,Function.update_apply]
    split <;> simp_all
  constructor
  · exact inv.small
  · intro k
    rw [ctx]
    by_cases same : k = i
    · rw [same,Function.update_self]
      exact inv.idle i
    · rw [Function.update_of_ne same]
      exact inv.idle k
  · exact inv.nodup
  · exact inv.counted
  · intro k
    rw [ctx]
    by_cases same : k = i
    · rw [same,Function.update_self]
      intro isFree
      exact absurd (busy.symm.trans isFree) Bool.false_ne_true
    · rw [Function.update_of_ne same]
      exact inv.unlinked k
  · intro h k
    rw [ctx,buckets]
    by_cases same : k = i
    · subst same
      rw [Function.update_self]
      split
      · rename_i here
        exact ⟨fun _ => ⟨fid,idx,rfl,here.symm⟩,fun _ => List.mem_append_right _ (List.mem_singleton.mpr rfl)⟩
      · rename_i other
        simp only [List.mem_filter,ne_eq,not_true_eq_false,decide_false,Bool.false_eq_true,and_false,false_iff]
        rintro ⟨fid',idx',link,hash⟩
        cases link
        exact other hash.symm
    · rw [Function.update_of_ne same,← inv.linked h k]
      split <;> simp [same]
  · intro k l fid' a b
    rw [ctx]
    by_cases first : k = i
    · rw [first,Function.update_self]
      intro link
      cases link
      by_cases second : l = i
      · rw [second,Function.update_self]
        intro link
        cases link
        rfl
      · rw [Function.update_of_ne second]
        intro link
        exact (agreed l b link).symm
    · rw [Function.update_of_ne first]
      intro link
      by_cases second : l = i
      · rw [second,Function.update_self]
        intro link'
        cases link'
        exact agreed k a link
      · rw [Function.update_of_ne second]
        exact inv.agreed k l fid' a b link

theorem txFree_ctx (p : Pool) (i : Nat) : (txFree p i).ctx = update p.ctx i { p.ctx i with xid := 0, free := true, lbg := none } := by
  simp [txFree,unlink]

theorem txFree_spec (inv : p.Inv) (bound : i < p.count) (busy : (p.ctx i).free = false) : (txFree p i).Inv := by
  have ctx := txFree_ctx p i
  have absent : i ∉ p.freeList := by
    intro member
    exact absurd (busy.symm.trans ((inv.idle i).mp member).2) Bool.false_ne_true
  have list : (txFree p i).freeList = p.freeList ++ [i] := by
    have kept : p.freeList.filter (· ≠ i) = p.freeList :=
      List.filter_eq_self.mpr fun k member => decide_eq_true fun same => absent (same ▸ member)
    change p.freeList.filter (· ≠ i) ++ [i] = _
    rw [kept]
  have links : ∀ k, k ≠ i → ((txFree p i).ctx k).lbg = (p.ctx k).lbg := fun k other => by rw [ctx,Function.update_of_ne other]
  have gone : ((txFree p i).ctx i).lbg = none := by rw [ctx,Function.update_self]
  constructor
  · exact inv.small
  · intro k
    rw [list,ctx,List.mem_append,inv.idle k]
    by_cases same : k = i
    · rw [same,Function.update_self]
      exact ⟨fun _ => ⟨bound,rfl⟩,fun _ => .inr (List.mem_singleton.mpr rfl)⟩
    · rw [Function.update_of_ne same]
      exact ⟨fun either => either.resolve_right fun member => same (List.mem_singleton.mp member),.inl⟩
  · rw [list]
    exact List.nodup_append.mpr ⟨inv.nodup,List.nodup_singleton i,fun k member l single same =>
      absent (List.mem_singleton.mp single ▸ same ▸ member)⟩
  · have counted := inv.counted
    have positive : p.freeList.length < p.count := by
      have sub : (i :: p.freeList) ⊆ List.range p.count := by
        intro k member
        cases List.mem_cons.mp member with
        | inl same => exact List.mem_range.mpr (same ▸ bound)
        | inr there => exact List.mem_range.mpr ((inv.idle k).mp there).1
      have := (List.subperm_of_subset (List.nodup_cons.mpr ⟨absent,inv.nodup⟩) sub).length_le
      rw [List.length_cons,List.length_range] at this
      omega
    rw [list,List.length_append,List.length_singleton]
    change p.allocated - 1 + (p.freeList.length + 1) = p.count
    omega
  · intro k isFree
    by_cases same : k = i
    · rw [same,gone]
    · rw [links k same]
      rw [ctx,Function.update_of_ne same] at isFree
      exact inv.unlinked k isFree
  · intro h k
    have bucket : (txFree p i).buckets h = (p.buckets h).filter (· ≠ i) := rfl
    rw [bucket]
    by_cases same : k = i
    · subst same
      rw [gone]
      simp
    · rw [links k same,← inv.linked h k]
      simp [same]
  · intro k l fid a b first second
    have other : ∀ k a, ((txFree p i).ctx k).lbg = some (fid,a) → k ≠ i := by
      rintro k a link rfl
      rw [gone] at link
      cases link
    rw [links k (other k a first)] at first
    rw [links l (other l b second)] at second
    exact inv.agreed k l fid a b first second

end Pools

end Rozofs.Transactions
