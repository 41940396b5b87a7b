import Rozofs.Transactions

/-! Every transaction ends once: by its own reply, a timeout, an abort or a refusal. The requests of one file
that are in progress are with one storcli. -/
namespace Rozofs.Transactions
open Function (update)
open StorcliRing (Fid)

/-- The use of a context that is in progress. -/
def State.Pending (s : State) (id : Nat × Nat) : Prop := id.2 = s.uses id.1 ∧ (s.pool.ctx id.1).free = false

/-- A context at its use `n`. -/
structure Ctx.Ok (c : Ctx) (i n : Nat) : Prop where
  low : c.xidLow = BitVec.ofNat 32 (lowOf n)
  busy : c.free = false → 1 ≤ n ∧ c.xid = mkXid i n ∧ c.timer = true
  idle : c.free = true → c.xid = 0 ∧ c.timer = false

/-- The outcome of every use that is over is in the log, once. -/
structure State.Inv (s : State) : Prop where
  pool : s.pool.Inv
  ctx : ∀ i < s.pool.count, (s.pool.ctx i).Ok i (s.uses i)
  carried : ∀ m ∈ s.requests ++ s.replies, m.id.1 < s.pool.count ∧ 1 ≤ m.id.2 ∧ m.id.2 ≤ s.uses m.id.1 ∧ m.xid = mkXid m.id.1 m.id.2
  once : (s.log.map Prod.fst).Nodup
  logged : ∀ id, id ∈ s.log.map Prod.fst ↔ id.1 < s.pool.count ∧ 1 ≤ id.2 ∧ id.2 ≤ s.uses id.1 ∧ ¬s.Pending id

/-- A reply in the log is the one to the use that it has ended. -/
def State.Own (s : State) : Prop := ∀ e ∈ s.log, ∀ id, e.2 = .reply id → id = e.1

section Steps
variable {s s' : State} {i : Nat} {requests replies : List Msg} {outcome : Outcome} {p : Pool}

theorem State.Inv.network (inv : s.Inv) (part : ∀ m ∈ requests ++ replies, m ∈ s.requests ++ s.replies) :
    State.Inv { s with requests := requests, replies := replies } :=
  ⟨inv.pool,inv.ctx,fun m member => inv.carried m (part m member),inv.once,inv.logged⟩

/-- A step that touches one context. -/
theorem State.Inv.change (inv : s.Inv) (bound : i < s.pool.count) (pool : s'.pool.Inv) (count : s'.pool.count = s.pool.count)
    (others : ∀ j, j ≠ i → s'.pool.ctx j = s.pool.ctx j ∧ s'.uses j = s.uses j) (more : s.uses i ≤ s'.uses i)
    (ok : (s'.pool.ctx i).Ok i (s'.uses i))
    (carried : ∀ m ∈ s'.requests ++ s'.replies, m ∈ s.requests ++ s.replies ∨
      m.id = (i,s'.uses i) ∧ 1 ≤ s'.uses i ∧ m.xid = mkXid i (s'.uses i))
    (once : (s'.log.map Prod.fst).Nodup) (elsewhere : ∀ id, id.1 ≠ i → (id ∈ s'.log.map Prod.fst ↔ id ∈ s.log.map Prod.fst))
    (here : ∀ n, (i,n) ∈ s'.log.map Prod.fst ↔ 1 ≤ n ∧ n ≤ s'.uses i ∧ ¬s'.Pending (i,n)) : s'.Inv := by
  refine ⟨pool,fun j inside => ?_,fun m member => ?_,once,?_⟩
  · by_cases same : j = i
    · exact same ▸ ok
    · rw [(others j same).1,(others j same).2]
      exact inv.ctx j (count ▸ inside)
  · rw [count]
    rcases carried m member with old | ⟨id,used,xid⟩
    · obtain ⟨inside,first,last,xid⟩ := inv.carried m old
      refine ⟨inside,first,?_,xid⟩
      by_cases same : m.id.1 = i
      · rw [same] at last ⊢
        exact Nat.le_trans last more
      · rw [(others _ same).2]
        exact last
    · rw [id]
      exact ⟨bound,used,Nat.le_refl _,xid⟩
  · rintro ⟨j,n⟩
    rw [count]
    by_cases same : j = i
    · subst same
      rw [here]
      exact ⟨fun rest => ⟨bound,rest⟩,And.right⟩
    · rw [elsewhere (j,n) same,inv.logged,State.Pending,State.Pending,(others j same).1,(others j same).2]

theorem finish_ctx (s : State) (i : Nat) (outcome : Outcome) (status : Int) (errno : Nat) : (finish s i outcome status errno).pool.ctx =
    update s.pool.ctx i ⟨true,0,(s.pool.ctx i).xidLow,false,status,errno,none⟩ := by
  simp [finish,txFree_ctx]

/-- The callback of a use in progress is its end. -/
theorem finish_inv (inv : s.Inv) (bound : i < s.pool.count) (busy : (s.pool.ctx i).free = false) (outcome : Outcome) (status : Int)
    (errno : Nat) : (finish s i outcome status errno).Inv := by
  have pending : s.Pending (i,s.uses i) := ⟨rfl,busy⟩
  have fresh : (i,s.uses i) ∉ s.log.map Prod.fst := fun member => ((inv.logged _).mp member).2.2.2 pending
  have old := inv.ctx i bound
  apply inv.change bound
  · exact txFree_spec (inv.pool.set rfl rfl) bound (by simpa using busy)
  · rfl
  · intro j other
    exact ⟨by rw [finish_ctx,Function.update_of_ne other],rfl⟩
  · exact Nat.le_refl _
  · rw [finish_ctx,Function.update_self]
    exact ⟨old.low,nofun,fun _ => ⟨rfl,rfl⟩⟩
  · exact fun m member => .inl member
  · exact List.nodup_cons.mpr ⟨fresh,inv.once⟩
  · rintro ⟨j,n⟩ other
    change _ ∈ (i,s.uses i) :: _ ↔ _
    rw [List.mem_cons]
    exact ⟨fun either => either.resolve_left fun same => other (congrArg Prod.fst same),.inr⟩
  · intro n
    change _ ∈ (i,s.uses i) :: _ ↔ _
    have ended : ¬(finish s i outcome status errno).Pending (i,n) := by
      rintro ⟨_,used⟩
      rw [finish_ctx,Function.update_self] at used
      cases used
    rw [List.mem_cons,inv.logged]
    constructor
    · rintro (same | ⟨_,first,last,_⟩)
      · cases same
        exact ⟨(old.busy busy).1,Nat.le_refl _,ended⟩
      · exact ⟨first,last,ended⟩
    · rintro ⟨first,last,_⟩
      by_cases same : n = s.uses i
      · exact .inl (by rw [same])
      · exact .inr ⟨bound,first,last,fun h => same h.1⟩

/-- The log of a use that ends. -/
theorem State.Own.ended (own : s.Own) {e : (Nat × Nat) × Outcome} (this : ∀ id, e.2 = .reply id → id = e.1) (log : s'.log = e :: s.log) :
    s'.Own := by
  intro e' member
  rw [log] at member
  cases List.mem_cons.mp member with
  | inl same =>
    subst same
    exact this
  | inr there => exact own e' there

theorem State.Own.same (own : s.Own) (log : s'.log = s.log) : s'.Own := by
  intro e member
  rw [log] at member
  exact own e member

/-- A message of use `n` of a context that is in progress ends the present use when they are 65535 uses apart,
or a multiple of that. -/
theorem dispatch_spec (inv : s.Inv) (bound : i < s.pool.count) (used : 1 ≤ n) (last : n ≤ s.uses i) (outcome : Outcome)
    (status : Int) (errno : Nat) : dispatch s (mkXid i n) outcome status errno =
      if (s.pool.ctx i).free = false ∧ (s.uses i - n) % 65535 = 0 then finish s i outcome status errno else s := by
  have small := Nat.lt_of_lt_of_le bound inv.pool.small
  have ok := inv.ctx i bound
  rw [dispatch,txIdx_mkXid small,if_neg (by omega)]
  cases free : (s.pool.ctx i).free with
  | true =>
    rw [(ok.idle free).1,if_pos (mkXid_ne_zero small used).symm,if_neg nofun]
  | false =>
    obtain ⟨first,xid,_⟩ := ok.busy free
    have same : mkXid i (s.uses i) = mkXid i n ↔ (s.uses i - n) % 65535 = 0 := by
      rw [mkXid_inj small small,lowOf_eq_iff first used]
      omega
    rw [xid]
    by_cases apart : (s.uses i - n) % 65535 = 0
    · rw [if_neg (not_not.mpr (same.mpr apart)),if_pos ⟨rfl,apart⟩]
    · rw [if_pos (mt same.mp apart),if_neg fun h => apart h.2]

theorem dispatch_inv (inv : s.Inv) (bound : i < s.pool.count) (used : 1 ≤ n) (last : n ≤ s.uses i) (outcome : Outcome) (status : Int)
    (errno : Nat) : (dispatch s (mkXid i n) outcome status errno).Inv := by
  rw [dispatch_spec inv bound used last]
  split
  · next taken => exact finish_inv inv bound taken.1 outcome status errno
  · exact inv

/-- A message that is not too old ends the use that it belongs to. -/
theorem dispatch_own (inv : s.Inv) (own : s.Own) (bound : i < s.pool.count) (used : 1 ≤ n) (last : n ≤ s.uses i) (young : s.uses i < n + 65535)
    (this : ∀ id, outcome = .reply id → id = (i,n)) (status : Int) (errno : Nat) : (dispatch s (mkXid i n) outcome status errno).Own := by
  rw [dispatch_spec inv bound used last]
  split
  · next taken =>
    have same : n = s.uses i := by omega
    exact own.ended (same ▸ this) rfl
  · exact own

/-! ### Sending -/

/-- What an allocation leaves: one context that was free is in use, and keeps its counter. -/
structure Taken (s : State) (i : Nat) (p : Pool) : Prop where
  pool : p.Inv
  bound : i < s.pool.count
  free : (s.pool.ctx i).free = true
  count : p.count = s.pool.count
  others : ∀ j, j ≠ i → p.ctx j = s.pool.ctx j
  taken : (p.ctx i).free = false
  low : (p.ctx i).xidLow = (s.pool.ctx i).xidLow
  stopped : (p.ctx i).timer = false

theorem sendFrom_noBuffer (inv : s.Inv) (taken : Taken s i p) : (sendFrom { s with pool := p } i .noBuffer).Inv := by
  have ctx : (sendFrom { s with pool := p } i .noBuffer).pool.ctx = _ := txFree_ctx p i
  have released : ((sendFrom { s with pool := p } i .noBuffer).pool.ctx i).free = true := by rw [ctx,Function.update_self]
  apply inv.change taken.bound
  · exact txFree_spec taken.pool (taken.count ▸ taken.bound) taken.taken
  · exact taken.count
  · intro j other
    exact ⟨by rw [ctx,Function.update_of_ne other,taken.others j other],rfl⟩
  · exact Nat.le_refl _
  · rw [ctx,Function.update_self]
    exact ⟨taken.low.trans (inv.ctx i taken.bound).low,nofun,fun _ => ⟨rfl,taken.stopped⟩⟩
  · exact fun m member => .inl member
  · exact inv.once
  · exact fun _ _ => Iff.rfl
  · intro n
    change _ ∈ s.log.map Prod.fst ↔ 1 ≤ n ∧ n ≤ s.uses i ∧ _
    rw [inv.logged]
    have ended : ¬(sendFrom { s with pool := p } i .noBuffer).Pending (i,n) := fun h => Bool.false_ne_true (h.2.symm.trans released)
    have before : ¬s.Pending (i,n) := fun h => Bool.false_ne_true (h.2.symm.trans taken.free)
    exact ⟨fun h => ⟨h.2.1,h.2.2.1,ended⟩,fun h => ⟨taken.bound,h.1,h.2.1,before⟩⟩

/-- The uses of a free context are over. -/
theorem logged_free (inv : s.Inv) (bound : i < s.pool.count) (free : (s.pool.ctx i).free = true) (n : Nat) :
    (i,n) ∈ s.log.map Prod.fst ↔ 1 ≤ n ∧ n ≤ s.uses i := by
  rw [inv.logged]
  exact ⟨fun h => ⟨h.2.1,h.2.2.1⟩,fun h => ⟨bound,h.1,h.2,fun pending => Bool.false_ne_true (pending.2.symm.trans free)⟩⟩

theorem allocXid_taken (inv : s.Inv) (taken : Taken s i p) : allocXid i (p.ctx i) =
    { p.ctx i with xidLow := BitVec.ofNat 32 (lowOf (s.uses i + 1)), xid := mkXid i (s.uses i + 1) } :=
  allocXid_spec (taken.low.trans (inv.ctx i taken.bound).low) i

theorem sendFrom_refused (inv : s.Inv) (taken : Taken s i p) (fate : Fate) (refused : fate = .notEncoded ∨ fate = .notSent) :
    (sendFrom { s with pool := p } i fate).Inv := by
  have run : sendFrom { s with pool := p } i fate = refuse { s with
      pool := { p with ctx := update p.ctx i (allocXid i (p.ctx i)) }, uses := update s.uses i (s.uses i + 1) } i := by
    rcases refused with rfl | rfl <;> rfl
  rw [run,allocXid_taken inv taken]
  generalize counted : { p.ctx i with xidLow := BitVec.ofNat 32 (lowOf (s.uses i + 1)), xid := mkXid i (s.uses i + 1) } = c
  have busy : c.free = false := by rw [← counted]; exact taken.taken
  have lbg : c.lbg = (p.ctx i).lbg := by rw [← counted]
  have low : c.xidLow = BitVec.ofNat 32 (lowOf (s.uses i + 1)) := by rw [← counted]
  have stopped : c.timer = false := by rw [← counted]; exact taken.stopped
  let q : Pool := { p with ctx := update p.ctx i c }
  let t : State := { s with pool := q, uses := update s.uses i (s.uses i + 1) }
  have ctx := txFree_ctx q i
  have released : ((txFree q i).ctx i).free = true := by rw [ctx,Function.update_self]
  have log := logged_free inv taken.bound taken.free
  apply inv.change taken.bound
  · exact txFree_spec (taken.pool.set (busy.trans taken.taken.symm) lbg) (taken.count ▸ taken.bound) (by simpa using busy)
  · exact taken.count
  · intro j other
    refine ⟨?_,Function.update_of_ne other _ _⟩
    change (txFree q i).ctx j = _
    rw [ctx,Function.update_of_ne other]
    exact (Function.update_of_ne other _ _).trans (taken.others j other)
  · simp [refuse]
  · change ((txFree q i).ctx i).Ok i (update s.uses i (s.uses i + 1) i)
    rw [ctx,Function.update_self,Function.update_self]
    simp only [q,Function.update_self]
    exact ⟨low,nofun,fun _ => ⟨rfl,stopped⟩⟩
  · exact fun m member => .inl member
  · refine List.nodup_cons.mpr ⟨?_,inv.once⟩
    change (i,update s.uses i (s.uses i + 1) i) ∉ s.log.map Prod.fst
    rw [Function.update_self,log]
    omega
  · rintro ⟨j,n⟩ other
    change _ ∈ (i,update s.uses i (s.uses i + 1) i) :: _ ↔ _
    rw [List.mem_cons]
    exact ⟨fun either => either.resolve_left fun same => other (congrArg Prod.fst same),.inr⟩
  · intro n
    have ended : ¬(refuse t i).Pending (i,n) := fun pending => Bool.false_ne_true (pending.2.symm.trans released)
    change _ ∈ (i,update s.uses i (s.uses i + 1) i) :: _ ↔ 1 ≤ n ∧ n ≤ update s.uses i (s.uses i + 1) i ∧ _
    rw [Function.update_self,List.mem_cons,log,Prod.mk.injEq]
    refine ⟨fun either => ⟨by omega,by omega,ended⟩,fun ⟨first,last,_⟩ => ?_⟩
    by_cases new : n = s.uses i + 1
    · exact .inl ⟨rfl,new⟩
    · exact .inr ⟨first,by omega⟩

theorem sendFrom_sent (inv : s.Inv) (taken : Taken s i p) : (sendFrom { s with pool := p } i .sent).Inv := by
  have log := logged_free inv taken.bound taken.free
  rw [sendFrom]
  simp only [allocXid_taken inv taken]
  apply inv.change taken.bound
  · exact taken.pool.set rfl rfl
  · exact taken.count
  · intro j other
    exact ⟨(Function.update_of_ne other _ _).trans (taken.others j other),Function.update_of_ne other _ _⟩
  · simp
  · simp only [Function.update_self]
    exact ⟨rfl,fun _ => ⟨Nat.succ_pos _,rfl,rfl⟩,fun free => absurd (taken.taken.symm.trans free) Bool.false_ne_true⟩
  · intro m member
    simp only [Function.update_self]
    cases List.mem_cons.mp member with
    | inl same => exact .inr ⟨by rw [same],Nat.succ_pos _,by rw [same]⟩
    | inr there => exact .inl there
  · exact inv.once
  · exact fun _ _ => Iff.rfl
  · intro n
    simp only [State.Pending,Function.update_self,log]
    have used := taken.taken
    refine ⟨fun h => ⟨h.1,by omega,fun pending => ?_⟩,fun h => ⟨h.1,?_⟩⟩
    · omega
    · have : n ≠ s.uses i + 1 := fun same => h.2.2 ⟨same,used⟩
      omega

theorem sendFrom_inv (inv : s.Inv) (taken : Taken s i p) (fate : Fate) : (sendFrom { s with pool := p } i fate).Inv := by
  cases fate with
  | noBuffer => exact sendFrom_noBuffer inv taken
  | notEncoded => exact sendFrom_refused inv taken _ (.inl rfl)
  | notSent => exact sendFrom_refused inv taken _ (.inr rfl)
  | sent => exact sendFrom_sent inv taken

/-- Only the number of the next storcli changes when a context cannot be had. -/
theorem State.Inv.pool_same (inv : s.Inv) (pool : p.Inv) (count : p.count = s.pool.count) (ctx : p.ctx = s.pool.ctx) :
    State.Inv { s with pool := p } := by
  refine ⟨pool,?_,?_,inv.once,fun id => ?_⟩
  · intro i bound
    rw [count] at bound
    simp only [ctx]
    exact inv.ctx i bound
  · intro m member
    simp only [count]
    exact inv.carried m member
  · simp only [count,State.Pending,ctx]
    exact inv.logged id

theorem send_inv (inv : s.Inv) (fid : Option Fid) (fate : Fate) : (send s fid fate).Inv := by
  have fresh (p : Pool) (pool : p.Inv) (count : p.count = s.pool.count) (ctx : p.ctx = s.pool.ctx) (i : Nat) (q : Pool)
      (run : txAlloc p = some (i,q)) : Taken s i q := by
    obtain ⟨bound,free,inv',count',ctx'⟩ := txAlloc_spec pool run
    rw [ctx] at free ctx'
    refine ⟨inv',count ▸ bound,free,count'.trans count,fun j other => ?_,?_,?_,?_⟩ <;> rw [ctx']
    · exact Function.update_of_ne other _ _
    · rw [Function.update_self]
    · rw [Function.update_self,ctxInit]
    · rw [Function.update_self,ctxInit]
  cases fid with
  | none =>
    rw [send]
    cases run : txAlloc s.pool with
    | none => simpa only [run] using inv
    | some r =>
      obtain ⟨i,q⟩ := r
      simp only
      exact sendFrom_inv inv (fresh s.pool inv.pool rfl rfl i q run) fate
  | some fid =>
    obtain ⟨pool,ctx,count,agreed⟩ := storcliIdx_spec inv.pool fid
    rw [send]
    cases run : txAlloc (storcliIdxFromFid s.pool fid).2 with
    | none =>
      simp only
      exact inv.pool_same pool count ctx
    | some r =>
      obtain ⟨i,q⟩ := r
      simp only
      have taken := fresh _ pool count ctx i q run
      obtain ⟨_,_,_,_,ctx'⟩ := txAlloc_spec pool run
      have inserted : (insertCtx q i fid (storcliIdxFromFid s.pool fid).1).Inv := by
        apply insertCtx_spec taken.pool taken.taken
        intro j a link
        apply agreed j a
        by_cases same : j = i
        · rw [same,ctx',Function.update_self] at link
          cases link
        · rw [← taken.others j same]
          exact link
      have changed : (insertCtx q i fid (storcliIdxFromFid s.pool fid).1).ctx =
          update q.ctx i { q.ctx i with lbg := some (fid,(storcliIdxFromFid s.pool fid).1) } := by simp [insertCtx,unlink]
      refine sendFrom_inv inv ⟨inserted,taken.bound,taken.free,taken.count,fun j other => ?_,?_,?_,?_⟩ fate <;> rw [changed]
      · rw [Function.update_of_ne other,taken.others j other]
      · rw [Function.update_self,taken.taken]
      · rw [Function.update_self,taken.low]
      · rw [Function.update_self,taken.stopped]

theorem sendFrom_own (own : s.Own) (i : Nat) (fate : Fate) : (sendFrom s i fate).Own := by
  have refused : ∀ id, Outcome.refused = .reply id → id = (i,update s.uses i (s.uses i + 1) i) := fun id same => by cases same
  cases fate with
  | noBuffer => exact own.same rfl
  | notEncoded => exact own.ended refused rfl
  | notSent => exact own.ended refused rfl
  | sent => exact own.same rfl

theorem send_own (own : s.Own) (fid : Option Fid) (fate : Fate) : (send s fid fate).Own := by
  cases fid with
  | none =>
    rw [send]
    cases txAlloc s.pool with
    | none => exact own.same rfl
    | some taken =>
      refine sendFrom_own ?_ taken.1 fate
      exact own.same rfl
  | some fid =>
    rw [send]
    cases txAlloc (storcliIdxFromFid s.pool fid).2 with
    | none => exact own.same rfl
    | some taken =>
      refine sendFrom_own ?_ taken.1 fate
      exact own.same rfl

end Steps

/-! ### Runs -/

/-- A reply that arrives belongs to a request that was sent less than 65535 uses of its context ago. -/
def Young (s : State) : Action → Prop
  | .receive m => s.uses m.id.1 < m.id.2 + 65535
  | _ => True

instance (s : State) : (a : Action) → Decidable (Young s a)
  | .receive m => inferInstanceAs (Decidable (s.uses m.id.1 < m.id.2 + 65535))
  | .send _ _ | .serve _ | .lose _ | .abort _ _ | .expire _ | .updateStorcli _ => .isTrue trivial

theorem updateStorcliNumber_spec (p : Pool) (nb : Nat) : (p.Inv → (updateStorcliNumber p nb).Inv) ∧
    (updateStorcliNumber p nb).count = p.count ∧ (updateStorcliNumber p nb).ctx = p.ctx := by
  rw [updateStorcliNumber]
  split
  · exact ⟨id,rfl,rfl⟩
  · exact ⟨fun inv => ⟨inv.small,inv.idle,inv.nodup,inv.counted,inv.unlinked,inv.linked,inv.agreed⟩,rfl,rfl⟩

theorem State.Inv.received (inv : State.Inv s) (m : Msg) : State.Inv { s with requests := s.requests, replies := s.replies.erase m } := by
  apply inv.network
  intro k place
  cases List.mem_append.mp place with
  | inl left => exact List.mem_append_left _ left
  | inr right => exact List.mem_append_right _ (List.mem_of_mem_erase right)

theorem step_inv (inv : State.Inv s) (run : step a s = some s') : s'.Inv := by
  cases a with
  | send fid fate =>
    cases run
    exact send_inv inv fid fate
  | serve m =>
    rw [step] at run
    split at run
    · rename_i member
      cases run
      apply inv.network
      intro k place
      simp only [List.mem_append,List.mem_cons] at place ⊢
      rcases place with old | rfl | old
      · exact .inl old
      · exact .inl member
      · exact .inr old
    · cases run
  | lose m =>
    cases run
    apply inv.network
    intro k place
    cases List.mem_append.mp place with
    | inl left => exact List.mem_append_left _ (List.mem_of_mem_erase left)
    | inr right => exact List.mem_append_right _ (List.mem_of_mem_erase right)
  | receive m =>
    rw [step] at run
    split at run
    · rename_i member
      cases run
      obtain ⟨bound,used,last,xid⟩ := inv.carried m (List.mem_append_right _ member)
      have rest := inv.received m
      rw [xid]
      exact dispatch_inv rest bound used last _ _ _
    · cases run
  | abort m errno =>
    rw [step] at run
    split at run
    · rename_i member
      cases run
      obtain ⟨bound,used,last,xid⟩ := inv.carried m (List.mem_append_left _ member)
      have rest : State.Inv { s with requests := s.requests.erase m, replies := s.replies } := by
        apply inv.network
        intro k place
        cases List.mem_append.mp place with
        | inl left => exact List.mem_append_left _ (List.mem_of_mem_erase left)
        | inr right => exact List.mem_append_right _ right
      rw [xid]
      exact dispatch_inv rest bound used last _ _ _
    · cases run
  | expire i =>
    rw [step] at run
    split at run
    · rename_i enabled
      cases run
      have busy : (s.pool.ctx i).free = false := by
        cases free : (s.pool.ctx i).free with
        | false => rfl
        | true =>
          have stopped := ((inv.ctx i enabled.1).idle free).2
          exact absurd (stopped.symm.trans enabled.2) Bool.false_ne_true
      exact finish_inv inv enabled.1 busy _ _ _
    · cases run
  | updateStorcli nb =>
    cases run
    obtain ⟨keep,count,ctx⟩ := updateStorcliNumber_spec s.pool nb
    exact inv.pool_same (keep inv.pool) count ctx

theorem init_inv (small : count ≤ 2 ^ 16) (storcliCount : Nat) : (moduleInit count storcliCount).Inv where
  pool := ⟨small,fun i => by simp [moduleInit],List.nodup_range,by simp [moduleInit],fun _ _ => rfl,
    fun h i => ⟨nofun,fun ⟨_,_,link,_⟩ => by cases link⟩,fun _ _ _ _ _ link => by cases link⟩
  ctx _ _ := ⟨rfl,nofun,fun _ => ⟨rfl,rfl⟩⟩
  carried _ := nofun
  once := List.nodup_nil
  logged id := ⟨nofun,fun ⟨_,used,last,_⟩ => by
    change id.2 ≤ 0 at last
    omega⟩

theorem run_inv {ok : State → Action → Prop} (small : count ≤ 2 ^ 16) (run : Machine.Run step ok (moduleInit count storcliCount) s) : s.Inv :=
  run.invariant State.Inv (init_inv small _) fun _ _ _ inv _ next => step_inv inv next

/-- One step keeps the replies in the log with the uses that they belong to. -/
theorem step_own (inv : State.Inv s) (own : State.Own s) (young : Young s a) (run : step a s = some s') : s'.Own := by
  cases a with
  | send fid fate =>
    cases run
    exact send_own own fid fate
  | serve m =>
    rw [step] at run
    split at run
    · cases run
      exact own.same rfl
    · cases run
  | lose m =>
    cases run
    exact own.same rfl
  | receive m =>
    rw [step] at run
    split at run
    · next member =>
      cases run
      obtain ⟨bound,used,last,xid⟩ := inv.carried m (List.mem_append_right _ member)
      rw [xid]
      exact dispatch_own (inv.received m) (own.same rfl) bound used last young (fun id same => by cases same; rfl) _ _
    · cases run
  | abort m errno =>
    rw [step] at run
    split at run
    · cases run
      rw [dispatch]
      split
      · exact own.same rfl
      · split
        · exact own.same rfl
        · exact State.Own.ended own (e := (_,.aborted errno)) (fun id same => by cases same) rfl
    · cases run
  | expire i =>
    rw [step] at run
    split at run
    · cases run
      exact own.ended (fun id same => by cases same) rfl
    · cases run
  | updateStorcli nb =>
    cases run
    exact own.same rfl

theorem run_own (small : count ≤ 2 ^ 16) (run : Machine.Run step Young (moduleInit count storcliCount) s) : s.Inv ∧ s.Own :=
  run.invariant (fun s => s.Inv ∧ s.Own) ⟨init_inv small _,fun _ => nofun⟩ fun _ _ _ both young next =>
    ⟨step_inv both.1 next,step_own both.1 both.2 young next⟩

/-- What the log has about a use of a context. -/
def State.outcomes (s : State) (id : Nat × Nat) : List ((Nat × Nat) × Outcome) := s.log.filter fun e => e.1 = id

theorem filter_key {l : List (α × β)} [DecidableEq α] (nodup : (l.map Prod.fst).Nodup) (member : (a,b) ∈ l) :
    l.filter (fun e => decide (e.1 = a)) = [(a,b)] := by
  induction l with
  | nil => cases member
  | cons e l ih =>
    obtain ⟨fresh,nodup⟩ := List.nodup_cons.mp nodup
    cases List.mem_cons.mp member with
    | inl same =>
      subst same
      rw [List.filter_cons_of_pos (by simp)]
      congr 1
      apply List.filter_eq_nil_iff.mpr
      intro f there same
      exact fresh (List.mem_map.mpr ⟨f,there,of_decide_eq_true same⟩)
    | inr there =>
      have other : e.1 ≠ a := fun same => fresh (List.mem_map.mpr ⟨(a,b),there,same.symm⟩)
      rw [List.filter_cons_of_neg (by simpa using other)]
      exact ih nodup there

/-- Every use of a context is in progress, with its timer, and has no outcome, or has one outcome; when no reply
of the run was too old, a reply is the reply to it. -/
theorem one_outcome (small : count ≤ 2 ^ 16) (run : Machine.Run step (fun _ _ => True) (moduleInit count storcliCount) s)
    (bound : i < s.pool.count) (used : 1 ≤ n) (last : n ≤ s.uses i) :
    if n = s.uses i ∧ (s.pool.ctx i).free = false then (s.pool.ctx i).timer = true ∧ s.outcomes (i,n) = []
    else ∃ outcome, s.outcomes (i,n) = [((i,n),outcome)] ∧
      (Machine.Run step Young (moduleInit count storcliCount) s → ∀ id, outcome = .reply id → id = (i,n)) := by
  have inv := run_inv small run
  split
  · rename_i pending
    refine ⟨((inv.ctx i bound).busy pending.2).2.2,List.filter_eq_nil_iff.mpr fun e member same => ?_⟩
    have logged : (i,n) ∈ s.log.map Prod.fst := List.mem_map.mpr ⟨e,member,of_decide_eq_true same⟩
    exact ((inv.logged _).mp logged).2.2.2 pending
  · rename_i ended
    obtain ⟨⟨id,outcome⟩,member,same⟩ := List.mem_map.mp ((inv.logged (i,n)).mpr ⟨bound,used,last,ended⟩)
    cases same
    exact ⟨outcome,filter_key inv.once member,fun young id reply => (run_own small young).2 _ member id reply⟩

/-- A context whose first use has timed out is used again, and the two replies come, first the late one. -/
theorem one_outcome_replied : ∃ s, Machine.Run step Young (moduleInit 1 1) s ∧ s.log = [((0,2),.reply (0,2)),((0,1),.timeout)] ∧
    ∃ outcome, s.outcomes (0,2) = [((0,2),outcome)] ∧ ∀ id, outcome = .reply id → id = (0,2) := by
  have done : ∃ s, Machine.exec step Young [.send none .sent,.serve ⟨mkXid 0 1,(0,1)⟩,.expire 0,.send none .sent,.serve ⟨mkXid 0 2,(0,2)⟩,
      .receive ⟨mkXid 0 1,(0,1)⟩,.receive ⟨mkXid 0 2,(0,2)⟩] (moduleInit 1 1) = some s ∧
      0 < s.pool.count ∧ s.uses 0 = 2 ∧ (s.pool.ctx 0).free = true ∧ s.log = [((0,2),.reply (0,2)),((0,1),.timeout)] :=
    ⟨_,rfl,by decide,by decide,by decide,by decide⟩
  obtain ⟨s,done,bound,used,free,log⟩ := done
  have run := Machine.Run.refl.exec done
  have once := one_outcome (by decide) (run.mono fun _ _ _ => trivial) bound (by decide : 1 ≤ 2) used.ge
  rw [if_neg fun pending => Bool.false_ne_true (pending.2.symm.trans free)] at once
  obtain ⟨outcome,only,reply⟩ := once
  exact ⟨s,run,log,outcome,only,reply run⟩

/-- The requests of one file that are in progress are with one storcli, and the next one will be. -/
theorem one_storcli (small : count ≤ 2 ^ 16) (run : Machine.Run step (fun _ _ => True) (moduleInit count storcliCount) s)
    (first : (s.pool.ctx i).lbg = some (fid,a)) (second : (s.pool.ctx j).lbg = some (fid,b)) :
    a = b ∧ (storcliIdxFromFid s.pool fid).1 = a := by
  have inv := (run_inv small run).pool
  obtain ⟨_,_,_,agreed⟩ := storcliIdx_spec inv fid
  exact ⟨inv.agreed i j fid a b first second,(agreed i a first).symm⟩

theorem one_storcli_two : ∃ s i j a b, i ≠ j ∧ Machine.Run step (fun _ _ => True) (moduleInit 2 3) s ∧
    (s.pool.ctx i).lbg = some (Vector.replicate 16 7,a) ∧ (s.pool.ctx j).lbg = some (Vector.replicate 16 7,b) ∧
    a = b ∧ (storcliIdxFromFid s.pool (Vector.replicate 16 7)).1 = a := by
  have first : Machine.Run step (fun _ _ => True) (moduleInit 2 3) _ := Machine.Run.refl.tail (.send (some (Vector.replicate 16 7)) .sent) trivial rfl
  have both := first.tail (.send (some (Vector.replicate 16 7)) .sent) trivial rfl
  refine ⟨_,0,1,1,1,by decide,both,by decide,by decide,?_⟩
  exact one_storcli (i := 0) (j := 1) (by decide) both (by decide) (by decide)

/-- A reply that arrives ends the request that its context has in progress exactly when that is the one it
answers or one a multiple of 65535 uses later. -/
theorem late_reply (small : count ≤ 2 ^ 16) (run : Machine.Run step (fun _ _ => True) (moduleInit count storcliCount) s) (member : m ∈ s.replies) :
    ∃ s', step (.receive m) s = some s' ∧ s'.log =
      if (s.pool.ctx m.id.1).free = false ∧ (s.uses m.id.1 - m.id.2) % 65535 = 0
      then ((m.id.1,s.uses m.id.1),.reply m.id) :: s.log else s.log := by
  have inv := run_inv small run
  obtain ⟨bound,used,last,xid⟩ := inv.carried m (List.mem_append_right _ member)
  have rest := inv.received m
  refine ⟨_,if_pos member,?_⟩
  rw [xid]
  have taken := dispatch_spec rest bound used last (.reply m.id) 0 0
  rw [taken]
  split <;> rfl

/-- The reply to a request that has timed out is dropped while the context is in use again, and the one to the request
in progress ends it. -/
theorem late_reply_first : ∃ s s' s'', Machine.Run step (fun _ _ => True) (moduleInit 1 1) s ∧ s.uses 0 = 2 ∧ (s.pool.ctx 0).free = false ∧
    step (.receive ⟨mkXid 0 1,(0,1)⟩) s = some s' ∧ s'.log = s.log ∧
    step (.receive ⟨mkXid 0 2,(0,2)⟩) s = some s'' ∧ s''.log = ((0,2),.reply (0,2)) :: s.log := by
  have done : ∃ s, Machine.exec step (fun _ _ => True)
      [.send none .sent,.serve ⟨mkXid 0 1,(0,1)⟩,.expire 0,.send none .sent,.serve ⟨mkXid 0 2,(0,2)⟩] (moduleInit 1 1) = some s ∧
      s.uses 0 = 2 ∧ (s.pool.ctx 0).free = false ∧ ⟨mkXid 0 1,(0,1)⟩ ∈ s.replies ∧ ⟨mkXid 0 2,(0,2)⟩ ∈ s.replies :=
    ⟨_,rfl,by decide,by decide,by decide,by decide⟩
  obtain ⟨s,done,uses,busy,first,second⟩ := done
  have run := Machine.Run.refl.exec done
  obtain ⟨s',next,log⟩ := late_reply (by decide) run first
  obtain ⟨s'',next',log'⟩ := late_reply (by decide) run second
  rw [if_neg (by simp [uses])] at log
  rw [if_pos ⟨busy,by simp [uses]⟩] at log'
  refine ⟨s,s',s'',run,uses,busy,next,log,next',?_⟩
  rw [log',uses]

end Rozofs.Transactions
