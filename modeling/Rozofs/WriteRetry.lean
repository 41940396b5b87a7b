import Rozofs.WriteRequest
import Mathlib.Data.List.Perm.Basic

/-! Bins carried by the transmissions of a write request. The invariant follows the buffers of
the projections, of the transactions and of the sockets: each holds the bins that the forward
transform computed, and none of them is free. -/
namespace Rozofs.WriteRetry
open WriteRequest
open Function (update)

/-- What the invariant reads of a state. -/
structure View (β : Type) where
  prjBuf : Nat → Option Nat
  bins : Nat → Nat
  prjBufMissing : Nat → Option Nat
  buf : Nat → Buf β
  txs : List Tx
  xmit : List (Nat × Nat)
  wire : List (Nat × β)
  released : Bool
  readSeqnum : Nat

def view (st : State β) : View β :=
  ⟨fun i => (st.prj i).prjBuf,fun i => (st.prj i).bins,fun i => (st.prj i).prjBufMissing,st.buf,st.txs,st.xmit,st.wire,
    st.released,st.readSeqnum⟩

/-- Users of a buffer. -/
def refs (n : Nat) (v : View β) (b : Nat) : Nat :=
  (List.range n).countP (fun i => v.prjBuf i == some b) + (List.range n).countP (fun i => v.prjBufMissing i == some b) +
    (v.txs.countP (fun t => t.xmitBuf == b) + v.xmit.countP (fun x => x.2 == b))

structure Intact (n : Nat) (computed : Nat → β) (v : View β) : Prop where
  kept : ∀ i b, v.prjBuf i = some b → i < n ∧ v.bins i = b ∧ (v.buf b).bins = computed i
  missing : ∀ i b, v.prjBufMissing i = some b → i < n ∧ (v.buf b).bins = computed i
  txs : ∀ t ∈ v.txs, (v.buf t.xmitBuf).bins = computed t.projectionId ∧ t.seqnum ≠ 0
  xmit : ∀ x ∈ v.xmit, (v.buf x.2).bins = computed x.1
  wire : ∀ x ∈ v.wire, x.2 = computed x.1
  counted : ∀ b, refs n v b = 0 ∨ refs n v b + 1 ≤ (v.buf b).inuse

section Counting

theorem countP_update (p : α → Bool) (f : Nat → α) (x : α) (inside : i < n) :
    (List.range n).countP (fun j => p (update f i x j)) + (if p (f i) then 1 else 0) =
      (List.range n).countP (fun j => p (f j)) + (if p x then 1 else 0) := by
  induction n with
  | zero => omega
  | succ n ih =>
    simp only [List.range_succ,List.countP_append,List.countP_singleton]
    rcases Nat.lt_or_eq_of_le (Nat.le_of_lt_succ inside) with before | rfl
    · have := ih before
      rw [Function.update_of_ne (show n ≠ i by omega)]
      omega
    · have same : (List.range i).countP (fun j => p (update f i x j)) = (List.range i).countP fun j => p (f j) := by
        apply List.countP_congr
        intro j member
        rw [Function.update_of_ne (show j ≠ i by simp at member; omega)]
      rw [Function.update_self]
      omega

theorem countP_eraseIdx (p : α → Bool) {l : List α} (found : l[k]? = some a) :
    (l.eraseIdx k).countP p + (if p a then 1 else 0) = l.countP p := by
  obtain ⟨inside,rfl⟩ := List.getElem?_eq_some_iff.mp found
  rw [← (List.getElem_cons_eraseIdx_perm inside).countP_eq p,List.countP_cons]

end Counting

section Changes
variable {β : Type} {n : Nat} {computed : Nat → β} {v : View β}

theorem refs_pos_kept (inside : i < n) (kept : v.prjBuf i = some b) : 0 < refs n v b := by
  have : 0 < (List.range n).countP (fun i => v.prjBuf i == some b) :=
    List.countP_pos_iff.mpr ⟨i,List.mem_range.mpr inside,by simp [kept]⟩
  unfold refs
  omega

theorem refs_pos_missing (inside : i < n) (kept : v.prjBufMissing i = some b) : 0 < refs n v b := by
  have : 0 < (List.range n).countP (fun i => v.prjBufMissing i == some b) :=
    List.countP_pos_iff.mpr ⟨i,List.mem_range.mpr inside,by simp [kept]⟩
  unfold refs
  omega

theorem refs_pos_txs (member : t ∈ v.txs) : 0 < refs n v t.xmitBuf := by
  have : 0 < v.txs.countP (fun u => u.xmitBuf == t.xmitBuf) := List.countP_pos_iff.mpr ⟨t,member,by simp⟩
  unfold refs
  omega

theorem refs_pos_xmit (member : x ∈ v.xmit) : 0 < refs n v x.2 := by
  have : 0 < v.xmit.countP (fun y => y.2 == x.2) := List.countP_pos_iff.mpr ⟨x,member,by simp⟩
  unfold refs
  omega

/-- A buffer that is free has no user. -/
theorem Intact.unused (intact : Intact n computed v) (free : (v.buf b).inuse = 0) : refs n v b = 0 := by
  have := intact.counted b
  omega

/-- A user gives its buffer back: its counter goes down by one, to 0 when only the allocation
was left. -/
theorem Intact.drop (intact : Intact n computed v) (v' : View β) (b : Nat) (m : Nat)
    (kept : ∀ i b, v'.prjBuf i = some b → v.prjBuf i = some b ∧ v'.bins i = v.bins i)
    (missing : ∀ i b, v'.prjBufMissing i = some b → v.prjBufMissing i = some b)
    (txs : ∀ t ∈ v'.txs, t ∈ v.txs) (xmit : ∀ x ∈ v'.xmit, x ∈ v.xmit) (wire : v'.wire = v.wire)
    (buf : v'.buf = update v.buf b { v.buf b with inuse := m })
    (less : m = (v.buf b).inuse - 1 ∨ (v.buf b).inuse - 1 = 1 ∧ m = 0)
    (fewer : ∀ c, refs n v' c + (if b = c then 1 else 0) = refs n v c) : Intact n computed v' := by
  have same : ∀ c, (v'.buf c).bins = (v.buf c).bins := by
    intro c
    rw [buf,Function.update_apply]
    split
    · rename_i eq
      rw [eq]
    · rfl
  refine ⟨fun i c found => ?_,fun i c found => ?_,fun t member => ?_,fun x member => ?_,fun x member => ?_,fun c => ?_⟩
  · obtain ⟨before,bins⟩ := kept i c found
    rw [same,bins]
    exact intact.kept i c before
  · rw [same]
    exact intact.missing i c (missing i c found)
  · rw [same]
    exact intact.txs t (txs t member)
  · rw [same]
    exact intact.xmit x (xmit x member)
  · exact intact.wire x (wire ▸ member)
  · have counted := intact.counted c
    have count := fewer c
    rw [buf,Function.update_apply]
    by_cases here : c = b
    · subst here
      rw [if_pos rfl] at count ⊢
      dsimp only
      omega
    · rw [if_neg (Ne.symm here)] at count
      rw [if_neg here]
      omega

/-- A transaction or a socket takes a buffer that already has a user. -/
theorem Intact.share (intact : Intact n computed v) (v' : View β) (b : Nat) (used : 0 < refs n v b)
    (kept : v'.prjBuf = v.prjBuf) (bins : v'.bins = v.bins) (missing : v'.prjBufMissing = v.prjBufMissing)
    (txs : ∀ t ∈ v'.txs, t ∈ v.txs ∨ t.xmitBuf = b ∧ (v.buf b).bins = computed t.projectionId ∧ t.seqnum ≠ 0)
    (xmit : ∀ x ∈ v'.xmit, x ∈ v.xmit ∨ x.2 = b ∧ (v.buf b).bins = computed x.1) (wire : v'.wire = v.wire)
    (buf : v'.buf = update v.buf b { v.buf b with inuse := (v.buf b).inuse + 1 })
    (more : ∀ c, refs n v' c = refs n v c + (if b = c then 1 else 0)) : Intact n computed v' := by
  have same : ∀ c, (v'.buf c).bins = (v.buf c).bins := by
    intro c
    rw [buf,Function.update_apply]
    split
    · rename_i eq
      rw [eq]
    · rfl
  refine ⟨fun i c found => ?_,fun i c found => ?_,fun t member => ?_,fun x member => ?_,fun x member => ?_,fun c => ?_⟩
  · rw [same,bins]
    exact intact.kept i c (kept ▸ found)
  · rw [same]
    exact intact.missing i c (missing ▸ found)
  · rw [same]
    rcases txs t member with old | ⟨rfl,new⟩
    · exact intact.txs t old
    · exact new
  · rw [same]
    rcases xmit x member with old | ⟨rfl,new⟩
    · exact intact.xmit x old
    · exact new
  · exact intact.wire x (wire ▸ member)
  · have counted := intact.counted c
    rw [more c,buf,Function.update_apply]
    by_cases here : c = b
    · subst here
      rw [if_pos rfl,if_pos rfl]
      dsimp only
      omega
    · rw [if_neg (Ne.symm here),if_neg here]
      omega

/-- The context takes a free buffer, which then holds the bins of its projection. -/
theorem Intact.take (intact : Intact n computed v) (v' : View β) (i b : Nat) (inside : i < n)
    (free : (v.buf b).inuse = 0)
    (kept : ∀ j c, v'.prjBuf j = some c → v.prjBuf j = some c ∧ v'.bins j = v.bins j ∨ j = i ∧ c = b ∧ v'.bins j = b)
    (missing : ∀ j c, v'.prjBufMissing j = some c → v.prjBufMissing j = some c ∨ j = i ∧ c = b)
    (txs : v'.txs = v.txs) (xmit : v'.xmit = v.xmit) (wire : v'.wire = v.wire)
    (buf : v'.buf = update v.buf b ⟨2,computed i⟩)
    (more : ∀ c, refs n v' c ≤ refs n v c + (if b = c then 1 else 0)) : Intact n computed v' := by
  have unused := intact.unused free
  have other : ∀ c, 0 < refs n v c → v'.buf c = v.buf c := by
    intro c used
    rw [buf,Function.update_of_ne]
    rintro rfl
    omega
  have here : (v'.buf b).bins = computed i := by
    rw [buf,Function.update_self]
  refine ⟨fun j c found => ?_,fun j c found => ?_,fun t member => ?_,fun x member => ?_,fun x member => ?_,fun c => ?_⟩
  · rcases kept j c found with ⟨old,bins⟩ | ⟨rfl,rfl,bins⟩
    · have before := intact.kept j c old
      rw [bins,other c (refs_pos_kept before.1 old)]
      exact before
    · exact ⟨inside,bins,here⟩
  · rcases missing j c found with old | ⟨rfl,rfl⟩
    · have before := intact.missing j c old
      rw [other c (refs_pos_missing before.1 old)]
      exact before
    · exact ⟨inside,here⟩
  · rw [txs] at member
    rw [other _ (refs_pos_txs member)]
    exact intact.txs t member
  · rw [xmit] at member
    rw [other _ (refs_pos_xmit member)]
    exact intact.xmit x member
  · exact intact.wire x (wire ▸ member)
  · have counted := intact.counted c
    have count := more c
    rw [buf,Function.update_apply]
    by_cases same : c = b
    · subst same
      rw [if_pos rfl] at count ⊢
      dsimp only
      omega
    · rw [if_neg (Ne.symm same)] at count
      rw [if_neg same]
      omega

end Changes

section Views
variable {β : Type} {n : Nat} {computed : Nat → β} (st : State β)

theorem view_setPrj (i : Nat) (p : PrjCtx) :
    view (setPrj st i p) = { view st with
      prjBuf := update (view st).prjBuf i p.prjBuf
      bins := update (view st).bins i p.bins
      prjBufMissing := update (view st).prjBufMissing i p.prjBufMissing } := by
  simp only [view,setPrj,View.mk.injEq,and_true]
  refine ⟨?_,?_,?_⟩ <;> funext j <;> simp only [Function.update_apply] <;> split <;> rfl

/-- Fields of a projection context that the invariant does not read. -/
theorem view_setPrj_same (i : Nat) (p : PrjCtx) (kept : p.prjBuf = (st.prj i).prjBuf) (bins : p.bins = (st.prj i).bins)
    (missing : p.prjBufMissing = (st.prj i).prjBufMissing) : view (setPrj st i p) = view st := by
  rw [view_setPrj,kept,bins,missing]
  have one := Function.update_eq_self i (view st).prjBuf
  have two := Function.update_eq_self i (view st).bins
  have three := Function.update_eq_self i (view st).prjBufMissing
  simp only [view] at one two three ⊢
  rw [one,two,three]

@[simp] theorem view_failed (i errcode : Nat) : view (failed st i errcode) = view st := view_setPrj_same st i _ rfl rfl rfl

@[simp] theorem view_assign (i index : Nat) : view (assign st i index) = view st :=
  view_setPrj_same st i { st.prj i with storIdx := some index } rfl rfl rfl

@[simp] theorem view_insertLbgStates (layout : Layout) (env : Nat → LbgView) :
    view (insertLbgStates layout env st) = view st := rfl

theorem writeReplyError_intact (errcode : Nat) (intact : Intact n computed (view st)) :
    Intact n computed (view (writeReplyError st errcode)) := by
  unfold writeReplyError
  split
  · exact intact
  · exact ⟨intact.kept,intact.missing,intact.txs,intact.xmit,intact.wire,intact.counted⟩

@[simp] theorem view_writeReplySuccess : view (writeReplySuccess st) = view st := by
  unfold writeReplySuccess
  split <;> rfl

/-- The selection of a storage touches neither the buffers nor the calls. -/
theorem select_quiet {st st' : State β} (found : selectStorageIdxForWrite layout env st i = some st') :
    view st' = view st ∧ st'.stack = st.stack := by
  obtain ⟨index,-,rfl⟩ := Option.map_eq_some_iff.mp found
  exact ⟨view_assign st i index,rfl⟩

theorem selectAll_quiet {l : List Nat} {st st' : State β} (found : l.foldlM (selectStorageIdxForWrite layout env) st = some st') :
    view st' = view st ∧ st'.stack = st.stack := by
  induction l generalizing st with
  | nil =>
    cases found
    exact ⟨rfl,rfl⟩
  | cons i rest ih =>
    rw [List.foldlM_cons] at found
    obtain ⟨middle,first,found⟩ := Option.bind_eq_some_iff.mp found
    obtain ⟨same,stack⟩ := select_quiet first
    obtain ⟨same',stack'⟩ := ih found
    exact ⟨same'.trans same,stack'.trans stack⟩

/-- A buffer counter after `releaseBuffer`. -/
def givenBack (b : Buf β) : Buf β := { b with inuse := if b.inuse - 1 = 1 then 0 else b.inuse - 1 }

theorem givenBack_less (b : Buf β) : (givenBack b).inuse = b.inuse - 1 ∨ b.inuse - 1 = 1 ∧ (givenBack b).inuse = 0 := by
  unfold givenBack
  dsimp only
  split <;> omega

def dropKept (v : View β) (i : Nat) : View β :=
  match v.prjBuf i with
  | none => v
  | some b => { v with prjBuf := update v.prjBuf i none, buf := update v.buf b (givenBack (v.buf b)) }

def dropMissing (v : View β) (i : Nat) : View β :=
  match v.prjBufMissing i with
  | none => v
  | some b => { v with prjBufMissing := update v.prjBufMissing i none, buf := update v.buf b (givenBack (v.buf b)) }

theorem update_none_eq_some {f : Nat → Option Nat} (found : update f i none j = some b) : f j = some b := by
  rw [Function.update_apply] at found
  split at found
  · cases found
  · exact found

theorem countP_update_none (f : Nat → Option Nat) (inside : i < n) (held : f i = some b) (c : Nat) :
    (List.range n).countP (fun j => update f i none j == some c) + (if b = c then 1 else 0) =
      (List.range n).countP (fun j => f j == some c) := by
  have count := countP_update (fun x => x == some c) f none inside
  simpa [held] using count

theorem Intact.dropKept {v : View β} (intact : Intact n computed v) (i : Nat) :
    Intact n computed (WriteRetry.dropKept v i) := by
  unfold WriteRetry.dropKept
  split
  · exact intact
  · rename_i b held
    refine intact.drop _ b _ (fun j c found => ⟨update_none_eq_some found,rfl⟩) (fun _ _ found => found)
      (fun _ member => member) (fun _ member => member) rfl rfl (givenBack_less (v.buf b)) fun c => ?_
    have count := countP_update_none v.prjBuf (intact.kept i b held).1 held c
    simp only [refs]
    omega

theorem Intact.dropMissing {v : View β} (intact : Intact n computed v) (i : Nat) :
    Intact n computed (WriteRetry.dropMissing v i) := by
  unfold WriteRetry.dropMissing
  split
  · exact intact
  · rename_i b held
    refine intact.drop _ b _ (fun _ _ found => ⟨found,rfl⟩) (fun j c found => update_none_eq_some found)
      (fun _ member => member) (fun _ member => member) rfl rfl (givenBack_less (v.buf b)) fun c => ?_
    have count := countP_update_none v.prjBufMissing (intact.missing i b held).1 held c
    simp only [refs]
    omega

theorem view_releasePrj (i : Nat) : view (releasePrj st i) = dropMissing (dropKept (view st) i) i := by
  have kept := Function.update_eq_self i fun j => (st.prj j).prjBuf
  have missing := Function.update_eq_self i fun j => (st.prj j).prjBufMissing
  have bins := Function.update_eq_self i fun j => (st.prj j).bins
  rw [releasePrj,view_setPrj]
  cases held : (st.prj i).prjBuf <;> cases lost : (st.prj i).prjBufMissing <;>
    simp_all [view,releaseOption,dropKept,dropMissing,releaseBuffer,givenBack]

theorem releaseContext_intact (layout : Layout) (intact : Intact n computed (view st)) :
    Intact n computed (view (releaseContext st layout)) := by
  suffices fold : Intact n computed (view ((List.range layout.rozofsForward).foldl releasePrj st)) from
    ⟨fold.kept,fold.missing,fold.txs,fold.xmit,fold.wire,fold.counted⟩
  generalize List.range layout.rozofsForward = l
  induction l generalizing st with
  | nil => exact intact
  | cons i rest ih =>
    refine ih (releasePrj st i) ?_
    rw [view_releasePrj]
    exact (intact.dropKept i).dropMissing i

end Views

/-- A retry after an error that goes on while the transmit buffer of the projection has other
users: it takes a new buffer and copies its payload over the bins kept for the projection. Only
a buffer that already holds the bins makes this right. -/
def replacesBuffer [DecidableEq β] (layout : Layout) (st : State β) : Act β → Bool
  | .call env alloc _ =>
    match st.stack with
    | .retry i sameStorage false :: stack =>
      (retryStorage layout env sameStorage { st with stack := stack } i).toBool &&
      ((st.prj i).prjBuf.any fun b => 2 < (st.buf b).inuse) &&
      alloc.all fun x => (st.buf x.1).inuse != 0 || x.2 != (st.buf (st.prj i).bins).bins
    | _ => false
  | _ => false

/-- No buffer is about to be sent by these calls, and lists of missing projections are
projections of the layout. -/
def Calm (n : Nat) (stack : List Frame) : Prop :=
  (∀ i b, .send i b ∉ stack) ∧ ∀ l, .missing l ∈ stack → ∀ i ∈ l, i < n

/-- Before the context is released, every projection keeps a buffer. -/
structure Going (n : Nat) (computed : Nat → β) (v : View β) : Prop extends Intact n computed v where
  going : v.released = false
  numbered : v.readSeqnum ≠ 0
  live : ∀ i < n, ∃ b, v.prjBuf i = some b

structure Inv (layout : Layout) (computed : Nat → β) (st : State β) : Prop where
  intact : Intact layout.rozofsForward computed (view st)
  going : st.released = false → Going layout.rozofsForward computed (view st)
  ended : st.released = true → st.stack = [] ∧ st.readSeqnum = 0
  calm : Calm layout.rozofsForward st.stack.tail
  head : ∀ i b rest, st.stack = .send i b :: rest → (view st).prjBuf i = some b ∨ (view st).prjBufMissing i = some b
  list : ∀ l rest, st.stack = .missing l :: rest → ∀ i ∈ l, i < layout.rozofsForward

section Calls
variable {β : Type} {layout : Layout} {computed : Nat → β} {st : State β}

theorem Calm.nil (n : Nat) : Calm n [] := ⟨fun _ _ => List.not_mem_nil,fun _ member => absurd member List.not_mem_nil⟩

theorem Calm.cons (calm : Calm n stack) (other : ∀ i b, f ≠ .send i b) (known : ∀ l, f = .missing l → ∀ i ∈ l, i < n) :
    Calm n (f :: stack) := by
  refine ⟨fun i b member => ?_,fun l member => ?_⟩
  · rcases List.mem_cons.mp member with eq | member
    · exact other i b eq.symm
    · exact calm.1 i b member
  · rcases List.mem_cons.mp member with eq | member
    · exact known l eq.symm
    · exact calm.2 l member

theorem Inv.of_calm (going : Going layout.rozofsForward computed (view st)) (calm : Calm layout.rozofsForward st.stack) :
    Inv layout computed st where
  intact := going.toIntact
  going _ := going
  ended ended := absurd ended (by simp [show st.released = false from going.going])
  calm := ⟨fun i b member => calm.1 i b (List.mem_of_mem_tail member),fun l member => calm.2 l (List.mem_of_mem_tail member)⟩
  head i b rest eq := absurd (by rw [eq]; exact List.mem_cons_self) (calm.1 i b)
  list l rest eq := calm.2 l (by rw [eq]; exact List.mem_cons_self)

theorem Inv.send (going : Going layout.rozofsForward computed (view st)) (calm : Calm layout.rozofsForward st.stack)
    (held : (view st).prjBuf i = some b ∨ (view st).prjBufMissing i = some b) :
    Inv layout computed { st with stack := .send i b :: st.stack } where
  intact := going.toIntact
  going _ := going
  ended ended := absurd ended (by simp [show st.released = false from going.going])
  calm := calm
  head j c rest eq := by
    cases eq
    exact held
  list l rest eq := by cases eq

theorem Inv.released (intact : Intact layout.rozofsForward computed (view st)) :
    Inv layout computed (releaseContext st layout) where
  intact := releaseContext_intact st layout intact
  going going := absurd going (by simp [releaseContext])
  ended _ := ⟨rfl,rfl⟩
  calm := Calm.nil _
  head i b rest eq := by cases eq
  list l rest eq := by cases eq

theorem abandon_inv (errcode : Nat) (going : Going layout.rozofsForward computed (view st))
    (calm : Calm layout.rozofsForward st.stack) : Inv layout computed (abandon st layout errcode) := by
  unfold abandon
  split
  · exact .of_calm going calm
  · exact .released (writeReplyError_intact st errcode going.toIntact)

/-- The state after the choice of a storage, whether there is one or not. -/
def either : Except σ σ → σ
  | .ok s => s
  | .error s => s

theorem retryStorage_quiet (layout : Layout) (env : Nat → LbgView) (sameStorage : Bool) (st : State β) (i : Nat) :
    view (either (retryStorage layout env sameStorage st i)) = view st ∧
    (either (retryStorage layout env sameStorage st i)).stack = st.stack := by
  simp only [retryStorage]
  cases found : selectStorageIdxForWrite layout env (insertLbgStates layout env st) i with
  | some st' =>
    obtain ⟨same,stack⟩ := select_quiet found
    exact ⟨same,stack⟩
  | none =>
    dsimp only
    split
    · exact ⟨view_setPrj_same _ i _ rfl rfl rfl,rfl⟩
    · split
      · exact ⟨view_setPrj_same _ i _ rfl rfl rfl,rfl⟩
      · exact ⟨view_setPrj_same _ i _ rfl rfl rfl,rfl⟩

theorem getBuffer_some {new : Nat} {st' : State β} (found : getBuffer st alloc = some (new,st')) :
    ∃ content, alloc = some (new,content) ∧ (st.buf new).inuse = 0 ∧
      st' = { st with buf := update st.buf new ⟨1,content⟩ } := by
  unfold getBuffer at found
  split at found
  · rename_i b content
    split at found
    · rename_i free
      cases found
      exact ⟨content,rfl,free,rfl⟩
    · cases found
  · cases found

/-- The copy is harmless when the new buffer happens to hold the bins already. -/
theorem retryBuffer_going (alloc : Option (Nat × β)) (i : Nat) (going : Going n computed (view st))
    (right : ∀ b, (st.prj i).prjBuf = some b → 2 < (st.buf b).inuse →
      ∃ new, alloc = some (new,computed i) ∧ (st.buf new).inuse = 0) :
    Going n computed (view (retryBuffer alloc st i).1) ∧ (retryBuffer alloc st i).1.stack = st.stack ∧
    ∀ b, (retryBuffer alloc st i).2 = some b → (view (retryBuffer alloc st i).1).prjBuf i = some b := by
  unfold retryBuffer
  cases held : (st.prj i).prjBuf with
  | none => exact ⟨going,rfl,fun b eq => by cases eq⟩
  | some b =>
    obtain ⟨inside,bins,computedHere⟩ := going.kept i b held
    dsimp only
    split
    · exact ⟨going,rfl,fun c eq => by cases eq; exact held⟩
    · rename_i busy
      obtain ⟨new,rfl,free⟩ := right b held (by omega)
      have apart : new ≠ b := by
        rintro rfl
        omega
      have lost : Intact n computed { view st with
          prjBuf := update (view st).prjBuf i none
          buf := update st.buf b { st.buf b with inuse := (st.buf b).inuse - 1 } } := by
        refine going.drop _ b _ (fun j c found => ⟨update_none_eq_some found,rfl⟩) (fun _ _ found => found)
          (fun _ member => member) (fun _ member => member) rfl rfl (.inl rfl) fun c => ?_
        have count := countP_update_none (view st).prjBuf inside held c
        simp only [refs]
        omega
      have fresh : getBuffer (inuseDecrement st b) (some (new,computed i)) =
          some (new,{ inuseDecrement st b with buf := update (inuseDecrement st b).buf new ⟨1,computed i⟩ }) := by
        simp [getBuffer,inuseDecrement,apart,free]
      rw [fresh]
      dsimp only
      refine ⟨⟨?_,going.going,going.numbered,fun j small => ?_⟩,rfl,fun c eq => ?_⟩
      · refine lost.take _ i new inside (by dsimp only; rw [Function.update_of_ne apart]; exact free) ?_ ?_ rfl rfl rfl ?_ ?_
        · intro j c found
          by_cases here : j = i
          · subst here
            refine .inr ⟨rfl,?_,?_⟩
            · simp only [view,setPrj,Function.update_self] at found
              cases found
              rfl
            · simp only [view,setPrj,Function.update_self]
          · refine .inl ?_
            simp only [view,setPrj,inuseIncrement,memcpy,inuseDecrement,Function.update_of_ne here] at found ⊢
            exact ⟨found,trivial⟩
        · intro j c found
          refine .inl ?_
          simp only [view,setPrj,inuseIncrement,memcpy,inuseDecrement] at found ⊢
          by_cases here : j = i
          · subst here
            simpa only [Function.update_self] using found
          · simpa only [Function.update_of_ne here] using found
        · funext c
          simp only [view,setPrj,inuseIncrement,memcpy,inuseDecrement] at bins computedHere ⊢
          rw [bins]
          by_cases old : c = b
          · subst old
            simp [apart.symm,computedHere]
          · by_cases fresh : c = new
            · subst fresh
              simp [old]
            · simp [old,fresh]
        · intro c
          have gone := countP_update (fun x => x == some c) (view st).prjBuf none inside
          have taken := countP_update (fun x => x == some c) (view st).prjBuf (some new) inside
          have other := countP_update (fun x => x == some c) (view st).prjBufMissing ((view st).prjBufMissing i) inside
          rw [view_setPrj]
          simp only [refs,view,inuseIncrement,memcpy,inuseDecrement,beq_iff_eq,reduceCtorEq,if_false,
            Option.some.injEq] at gone taken other ⊢
          omega
      · rw [view_setPrj]
        by_cases here : j = i
        · subst here
          exact ⟨new,Function.update_self ..⟩
        · simp only [Function.update_of_ne here]
          exact going.live j small
      · cases eq
        rw [view_setPrj]
        exact Function.update_self ..

theorem writeProjectionRetry_inv (env : Nat → LbgView) (alloc : Option (Nat × β)) (i : Nat) (sameStorage missing : Bool)
    (going : Going layout.rozofsForward computed (view st)) (calm : Calm layout.rozofsForward st.stack)
    (right : missing = false → (retryStorage layout env sameStorage st i).toBool = true → ∀ b,
      (st.prj i).prjBuf = some b → 2 < (st.buf b).inuse →
      ∃ new, alloc = some (new,computed i) ∧ (st.buf new).inuse = 0) :
    Inv layout computed (writeProjectionRetry layout env alloc i sameStorage missing st) := by
  have quiet := retryStorage_quiet layout env sameStorage st i
  unfold writeProjectionRetry
  cases chosen : retryStorage layout env sameStorage st i with
  | error st' =>
    rw [chosen] at quiet
    exact abandon_inv eio (quiet.1 ▸ going) (quiet.2 ▸ calm)
  | ok st' =>
    rw [chosen] at quiet
    obtain ⟨seen,stack⟩ := quiet
    simp only [either] at seen stack
    rw [← seen] at going
    rw [← stack] at calm
    have ending : ∀ st'' : State β, Going layout.rozofsForward computed (view st'') → st''.stack = st'.stack →
        Inv layout computed (abandon (setPrj st'' i { st''.prj i with errcode := efault }) layout efault) := by
      intro st'' going' stack'
      refine abandon_inv efault ?_ (by simpa [setPrj,stack'] using calm)
      rw [view_setPrj_same st'' i { st''.prj i with errcode := efault } rfl rfl rfl]
      exact going'
    cases missing with
    | true =>
      dsimp only [if_true]
      cases lost : (st'.prj i).prjBufMissing with
      | none => exact ending st' going rfl
      | some b => exact .send going calm (.inr lost)
    | false =>
      have buffer := retryBuffer_going alloc i going fun b held busy => by
        have kept : (view st').prjBuf i = (view st).prjBuf i := by rw [seen]
        have counts : st'.buf = st.buf := congrArg View.buf seen
        rw [counts] at busy ⊢
        exact right rfl (by rw [chosen]; rfl) b (kept.symm.trans held) busy
      obtain ⟨good,stack',held⟩ := buffer
      simp only [Bool.false_eq_true,if_false]
      cases result : (retryBuffer alloc st' i).2 with
      | none =>
        rw [show retryBuffer alloc st' i = ((retryBuffer alloc st' i).1,none) from Prod.ext rfl result]
        exact ending _ good stack'
      | some b =>
        rw [show retryBuffer alloc st' i = ((retryBuffer alloc st' i).1,some b) from Prod.ext rfl result]
        exact .send good (stack' ▸ calm) (.inl (held b result))

theorem refs_held (intact : Intact n computed (view st))
    (held : (view st).prjBuf i = some b ∨ (view st).prjBufMissing i = some b) :
    0 < refs n (view st) b ∧ (st.buf b).bins = computed i := by
  rcases held with kept | missing
  · obtain ⟨inside,-,bins⟩ := intact.kept i b kept
    exact ⟨refs_pos_kept inside kept,bins⟩
  · obtain ⟨inside,bins⟩ := intact.missing i b missing
    exact ⟨refs_pos_missing inside missing,bins⟩

theorem send_inv (env : Nat → LbgView) (result : Send) (going : Going layout.rozofsForward computed (view st))
    (calm : Calm layout.rozofsForward st.stack)
    (held : (view st).prjBuf i = some b ∨ (view st).prjBufMissing i = some b) :
    Inv layout computed (send layout env result i b st) := by
  have seen : view (setPrj st i { st.prj i with prjState := .inPrg }) = view st := view_setPrj_same st i _ rfl rfl rfl
  unfold send
  dsimp only
  rw [← seen] at going held
  change Calm _ (setPrj st i { st.prj i with prjState := .inPrg }).stack at calm
  generalize setPrj st i { st.prj i with prjState := .inPrg } = st at *
  cases result with
  | accepted =>
    obtain ⟨used,bins⟩ := refs_held going.toIntact held
    refine .of_calm ⟨going.share _ b used rfl rfl rfl ?_ (fun _ member => .inl member) rfl rfl fun c => ?_,
      going.going,going.numbered,going.live⟩ calm
    · intro t member
      rcases List.mem_append.mp member with old | new
      · exact .inl old
      · rw [List.mem_singleton] at new
        subst new
        exact .inr ⟨rfl,bins,going.numbered⟩
    · simp only [refs,view,inuseIncrement,List.countP_append,List.countP_singleton,beq_iff_eq]
      omega
  | refused =>
    dsimp only
    cases found : selectStorageIdxForWrite layout env st i with
    | none => exact abandon_inv 0 going calm
    | some st' =>
      obtain ⟨same,stack⟩ := select_quiet found
      rw [← same] at going held
      rw [← stack] at calm
      exact .send going calm held
  | direct errcode =>
    refine .of_calm ?_ ((calm.cons ?_ ?_).cons ?_ ?_)
    · exact (view_failed st i errcode).symm ▸ going
    all_goals
      intros
      simp_all

theorem sendMissing_inv (alloc : Option (Nat × β)) (rest : List Nat) (inside : i < layout.rozofsForward)
    (others : ∀ j ∈ rest, j < layout.rozofsForward) (going : Going layout.rozofsForward computed (view st))
    (calm : Calm layout.rozofsForward st.stack) : Inv layout computed (sendMissing alloc i rest st) := by
  unfold sendMissing
  cases fresh : getBuffer st alloc with
  | none => exact .of_calm going calm
  | some result =>
    obtain ⟨new,st'⟩ := result
    obtain ⟨content,-,free,rfl⟩ := getBuffer_some fresh
    obtain ⟨b,kept⟩ := going.live i inside
    obtain ⟨-,bins,right⟩ := going.kept i b kept
    have apart : b ≠ new := by
      rintro rfl
      have := refs_pos_kept inside kept
      have := going.unused free
      omega
    have seen : view (sendMissing (some (new,content)) i rest st) = { view st with
        prjBufMissing := update (view st).prjBufMissing i (some new)
        buf := update st.buf new ⟨2,computed i⟩ } := by
      simp only [view] at bins right
      simp only [sendMissing,getBuffer,free,if_true,view,setPrj,memcpy,inuseIncrement,View.mk.injEq,and_true]
      refine ⟨funext fun j => ?_,funext fun j => ?_,funext fun j => ?_,funext fun j => ?_⟩
      · by_cases here : j = i <;> simp [here]
      · by_cases here : j = i <;> simp [here]
      · by_cases here : j = i <;> simp [here]
      · by_cases here : j = new <;> simp [here,bins,apart,right]
    have taken : Going layout.rozofsForward computed { view st with
        prjBufMissing := update (view st).prjBufMissing i (some new)
        buf := update st.buf new ⟨2,computed i⟩ } := by
      refine ⟨going.take _ i new inside free (fun _ _ found => .inl ⟨found,rfl⟩) (fun j c found => ?_) rfl rfl rfl rfl
        fun c => ?_,going.going,going.numbered,going.live⟩
      · by_cases here : j = i
        · subst here
          dsimp only at found
          rw [Function.update_self] at found
          cases found
          exact .inr ⟨rfl,rfl⟩
        · dsimp only at found
          rw [Function.update_of_ne here] at found
          exact .inl found
      · have count := countP_update (fun x => x == some c) (view st).prjBufMissing (some new) inside
        simp only [refs,beq_iff_eq,Option.some.injEq] at count ⊢
        omega
    have result : Inv layout computed (sendMissing (some (new,content)) i rest st) := by
      refine .of_calm (seen ▸ taken) ?_
      simp only [sendMissing,getBuffer,free,if_true]
      refine ((calm.cons ?_ fun l eq => ?_).cons ?_ ?_).cons ?_ ?_
      · simp
      · cases eq
        exact others
      all_goals simp
    simpa only [sendMissing,getBuffer,free,if_true] using result

theorem call_inv (env : Nat → LbgView) (alloc : Option (Nat × β)) (result : Send) (f : Frame)
    (going : Going layout.rozofsForward computed (view st)) (calm : Calm layout.rozofsForward st.stack)
    (held : ∀ i b, f = .send i b → (view st).prjBuf i = some b ∨ (view st).prjBufMissing i = some b)
    (list : ∀ l, f = .missing l → ∀ i ∈ l, i < layout.rozofsForward)
    (right : ∀ i sameStorage, f = .retry i sameStorage false →
      (retryStorage layout env sameStorage st i).toBool = true → ∀ b,
      (st.prj i).prjBuf = some b → 2 < (st.buf b).inuse →
      ∃ new, alloc = some (new,computed i) ∧ (st.buf new).inuse = 0) :
    Inv layout computed (call layout env alloc result f st) := by
  cases f with
  | processing =>
    simp only [call,writeReqProcessing]
    cases found : (List.range layout.rozofsForward).foldlM (selectStorageIdxForWrite layout env)
        (insertLbgStates layout env st) with
    | none => exact .released (writeReplyError_intact _ eio going.toIntact)
    | some st' =>
      obtain ⟨same,stack⟩ := selectAll_quiet found
      refine .of_calm (same ▸ going) (Calm.cons (stack ▸ calm) ?_ ?_) <;> simp
  | sendAll i =>
    simp only [call,sendAll]
    split
    · rename_i inside
      obtain ⟨b,kept⟩ := going.live i inside
      have kept : (st.prj i).prjBuf = some b := kept
      rw [kept]
      refine @Inv.send _ _ _ { st with stack := .sendAll (i + 1) :: st.stack } _ _ going (calm.cons ?_ ?_) (.inl kept) <;> simp
    · exact .of_calm going calm
  | retry i sameStorage missing =>
    exact writeProjectionRetry_inv env alloc i sameStorage missing going calm fun eq => right i sameStorage (eq ▸ rfl)
  | send i b => exact send_inv env result going calm (held i b rfl)
  | sent i =>
    simp only [call,sent]
    split
    · exact @abandon_inv _ _ _ { st with writeCtxLock := st.writeCtxLock - 1 } _ going calm
    · exact .of_calm going calm
  | missing l =>
    cases l with
    | nil => exact .of_calm going calm
    | cons i rest =>
      exact sendMissing_inv alloc rest (list _ rfl i List.mem_cons_self)
        (fun j member => list _ rfl j (List.mem_cons_of_mem _ member)) going calm
  | unlock => exact .of_calm going calm

theorem giveBack_tx {t : Tx} {k : Nat} (found : st.txs[k]? = some t) (intact : Intact n computed (view st)) :
    Intact n computed (view (releaseBuffer { st with txs := st.txs.eraseIdx k } t.xmitBuf)) := by
  refine intact.drop _ t.xmitBuf _ (fun _ _ found => ⟨found,rfl⟩) (fun _ _ found => found)
    (fun u member => List.mem_of_mem_eraseIdx member) (fun _ member => member) rfl rfl
    (givenBack_less (st.buf t.xmitBuf)) fun c => ?_
  have count := countP_eraseIdx (fun u : Tx => u.xmitBuf == c) found
  simp only [refs,view,releaseBuffer,beq_iff_eq] at count ⊢
  omega

theorem giveBack_xmit {x : Nat × Nat} {k : Nat} (found : st.xmit[k]? = some x) (intact : Intact n computed (view st)) :
    Intact n computed (view (releaseBuffer { st with xmit := st.xmit.eraseIdx k } x.2)) := by
  refine intact.drop _ x.2 _ (fun _ _ found => ⟨found,rfl⟩) (fun _ _ found => found)
    (fun _ member => member) (fun y member => List.mem_of_mem_eraseIdx member) rfl rfl
    (givenBack_less (st.buf x.2)) fun c => ?_
  have count := countP_eraseIdx (fun y : Nat × Nat => y.2 == c) found
  simp only [refs,view,releaseBuffer,beq_iff_eq] at count ⊢
  omega

theorem grab_tx {t : Tx} {k : Nat} (found : st.txs[k]? = some t) (intact : Intact n computed (view st)) :
    Intact n computed (view (inuseIncrement { st with xmit := st.xmit ++ [(t.projectionId,t.xmitBuf)] } t.xmitBuf)) := by
  have member := List.mem_of_getElem? found
  have right := intact.txs t member
  refine intact.share _ t.xmitBuf (refs_pos_txs member) rfl rfl rfl (fun _ member => .inl member) (fun x member => ?_)
    rfl rfl fun c => ?_
  · rcases List.mem_append.mp member with old | new
    · exact .inl old
    · rw [List.mem_singleton] at new
      subst new
      exact .inr ⟨rfl,right.1⟩
  · simp only [refs,view,inuseIncrement,List.countP_append,List.countP_singleton,beq_iff_eq]
    omega

/-- The buffers change while the calls in progress and the projections stay. -/
theorem Inv.rebuffer (inv : Inv layout computed st) {st' : State β}
    (intact : Intact layout.rozofsForward computed (view st')) (prj : st'.prj = st.prj) (stack : st'.stack = st.stack)
    (released : st'.released = st.released) (seqnum : st'.readSeqnum = st.readSeqnum) : Inv layout computed st' where
  intact := intact
  going going := by
    have before := inv.going (released ▸ going)
    refine ⟨intact,going,?_,?_⟩
    · rw [show (view st').readSeqnum = (view st).readSeqnum from seqnum]
      exact before.numbered
    · simp only [view,prj]
      exact before.live
  ended ended := by
    rw [stack,seqnum]
    exact inv.ended (released ▸ ended)
  calm := stack ▸ inv.calm
  head i b rest eq := by
    simp only [view,prj]
    exact inv.head i b rest (stack ▸ eq)
  list l rest eq := inv.list l rest (stack ▸ eq)

theorem cbk_inv (wrAckOnInverse : Bool) (t : Tx) (response : Response) (inv : Inv layout computed st)
    (empty : st.stack = []) (dated : t.seqnum ≠ 0) :
    Inv layout computed (writeReqProcessingCbk layout wrAckOnInverse t response st) := by
  unfold writeReqProcessingCbk
  dsimp only
  split
  · exact inv
  split
  · exact inv
  rename_i current _
  have going : Going layout.rozofsForward computed (view st) := by
    refine inv.going (Bool.eq_false_iff.mpr fun ended => ?_)
    have := (inv.ended ended).2
    omega
  have calm : Calm layout.rozofsForward st.stack := by
    rw [empty]
    exact Calm.nil _
  cases response with
  | failed errcode =>
    refine .of_calm ((view_failed st t.projectionId errcode).symm ▸ going) (calm.cons ?_ ?_) <;> simp
  | noBuffer => exact abandon_inv efault ((view_failed st t.projectionId efault).symm ▸ going) calm
  | storageError errcode =>
    refine .of_calm ((view_failed st t.projectionId errcode).symm ▸ going) (calm.cons ?_ ?_) <;> simp
  | success =>
    have going : Going layout.rozofsForward computed (view { setPrj st t.projectionId
        { st.prj t.projectionId with prjState := .done } with acks := st.acks ++ [(t.projectionId,t.storIdx)] }) :=
      (view_setPrj_same st t.projectionId { st.prj t.projectionId with prjState := .done } rfl rfl rfl).symm ▸ going
    dsimp only
    split
    · exact .released (by simpa using going.toIntact)
    · split
      · refine .of_calm (by simpa using going) ?_
        unfold writeReplySuccess
        split <;> exact calm
      · exact .of_calm going calm
    · exact .of_calm going calm

theorem step_inv [DecidableEq β] (inv : Inv layout computed st) (good : replacesBuffer layout st a = false)
    (next : step layout wrAckOnInverse a st = some st') : Inv layout computed st' := by
  cases a with
  | call env alloc result =>
    cases busy : st.stack with
    | nil => simp [step,busy] at next
    | cons f stack =>
      simp only [step,busy,Option.some.injEq] at next
      subst next
      have going := inv.going (Bool.eq_false_iff.mpr fun ended => by simp [(inv.ended ended).1] at busy)
      have calm := inv.calm
      rw [busy] at calm
      refine @call_inv _ _ _ { st with stack := stack } env alloc result f going calm (fun i b eq => inv.head i b stack (eq ▸ busy))
        (fun l eq => inv.list l stack (eq ▸ busy)) ?_
      rintro i sameStorage rfl found b held used
      dsimp only at held used
      obtain ⟨-,bins,right⟩ := going.kept i b held
      simp only [view] at bins right
      simp only [replacesBuffer,busy,found,held,Option.any_some,used,decide_true,Bool.true_and,bins,right] at good
      cases alloc with
      | none => cases good
      | some x =>
        simp only [Option.all_some,Bool.or_eq_false_iff,bne_eq_false_iff_eq] at good
        exact ⟨x.1,by rw [← good.2],good.1⟩
  | response k response =>
    simp only [step] at next
    split at next
    · cases next
    · rename_i empty
      obtain ⟨t,found,rfl⟩ := Option.map_eq_some_iff.mp next
      refine cbk_inv wrAckOnInverse t response (inv.rebuffer (giveBack_tx found inv.intact) rfl rfl rfl rfl) (not_not.mp empty) ?_
      exact (inv.intact.txs t (List.mem_of_getElem? found)).2
  | timeout =>
    simp only [step] at next
    split at next
    · cases next
    · rename_i idle
      simp only [not_or,ne_eq,not_not,Bool.not_eq_true] at idle
      cases next
      refine .of_calm (inv.going idle.2) (Calm.cons (by rw [idle.1]; exact Calm.nil _) (by simp) ?_)
      intro l eq i member
      cases eq
      simp only [List.mem_filter,List.mem_range] at member
      exact member.1
  | grab k =>
    obtain ⟨t,found,rfl⟩ := Option.map_eq_some_iff.mp next
    exact inv.rebuffer (grab_tx found inv.intact) rfl rfl rfl rfl
  | transmit k =>
    obtain ⟨x,found,rfl⟩ := Option.map_eq_some_iff.mp next
    refine inv.rebuffer ⟨inv.intact.kept,inv.intact.missing,inv.intact.txs,inv.intact.xmit,?_,inv.intact.counted⟩ rfl rfl rfl rfl
    intro y member
    rcases List.mem_append.mp member with old | new
    · exact inv.intact.wire y old
    · rw [List.mem_singleton] at new
      subst new
      exact inv.intact.xmit x (List.mem_of_getElem? found)
  | giveBack k =>
    obtain ⟨x,found,rfl⟩ := Option.map_eq_some_iff.mp next
    exact inv.rebuffer (giveBack_xmit found inv.intact) rfl rfl rfl rfl

end Calls

theorem countP_le_one {f : Nat → Option Nat} (distinct : ∀ i j, f i = some b → f j = some b → i = j) (n : Nat) :
    (List.range n).countP (fun i => f i == some b) ≤ 1 := by
  induction n with
  | zero => simp
  | succ n ih =>
    rw [List.range_succ,List.countP_append,List.countP_singleton]
    split
    · rename_i last
      have none : (List.range n).countP (fun i => f i == some b) = 0 := by
        rw [List.countP_eq_zero]
        intro i member found
        have := distinct i n (by simpa using found) (by simpa using last)
        simp only [List.mem_range] at member
        omega
      omega
    · omega

theorem start_inv {st : State β} (start : Start layout computed st) : Inv layout computed st := by
  obtain ⟨txs,xmit,wire,-,-⟩ := start.observed
  have inside : ∀ i b, (st.prj i).prjBuf = some b → i < layout.rozofsForward := by
    intro i b held
    refine Nat.lt_of_not_le fun outside => ?_
    rw [start.others i outside] at held
    cases held
  have holds : ∀ i b, (st.prj i).prjBuf = some b → (st.prj i).bins = b ∧ st.buf b = ⟨2,computed i⟩ := by
    intro i b held
    obtain ⟨c,kept,bins,buf⟩ := start.kept i (inside i b held)
    rw [held] at kept
    cases kept
    exact ⟨bins,buf⟩
  have intact : Intact layout.rozofsForward computed (view st) := by
    refine ⟨fun i b held => ?_,fun i b held => ?_,?_,?_,?_,fun b => ?_⟩
    · obtain ⟨bins,buf⟩ := holds i b held
      exact ⟨inside i b held,bins,by simp [view,buf]⟩
    · have none := (start.prj i).2.2
      simp only [view] at held
      rw [none] at held
      cases held
    · simp [view,txs]
    · simp [view,xmit]
    · simp [view,wire]
    · have few := countP_le_one (fun i j first second => start.distinct i j b first second) layout.rozofsForward
      by_cases used : ∃ i, (st.prj i).prjBuf = some b
      · obtain ⟨i,held⟩ := used
        obtain ⟨-,buf⟩ := holds i b held
        simp only [refs,view,txs,xmit,(start.prj _).2.2,buf]
        simp
        omega
      · left
        simp only [not_exists] at used
        simp [refs,view,txs,xmit,(start.prj _).2.2,used]
  have live : ∀ i < layout.rozofsForward, ∃ b, (st.prj i).prjBuf = some b := by
    intro i small
    obtain ⟨b,kept,-⟩ := start.kept i small
    exact ⟨b,kept⟩
  refine .of_calm ⟨intact,start.released,start.seqnum,live⟩ ?_
  rw [start.stack]
  exact (Calm.nil _).cons (by simp) (by simp)

/-- In every run in which no retry replaces a buffer that is in use, every transmission of a
projection carries the bins computed for it, and so does the copy kept for further retries. -/
theorem transmissions_intact [DecidableEq β] {st₀ st : State β} (start : Start layout computed st₀)
    (run : Machine.Run (step layout wrAckOnInverse) (fun s a => replacesBuffer layout s a = false) st₀ st) :
    (∀ x ∈ st.wire, x.2 = computed x.1) ∧
    ∀ i b, (st.prj i).prjBuf = some b → (st.prj i).bins = b ∧ (st.buf b).bins = computed i := by
  have inv : Inv layout computed st := run.invariant _ (start_inv start) fun s a s' inv good next => step_inv inv good next
  exact ⟨inv.intact.wire,fun i b held => (inv.intact.kept i b held).2⟩

/-- A request of layout 2/3/4 with buffers 0, 1 and 2. -/
def ready : State Nat where
  assoc _ := ⟨true,.up,false⟩
  prj i := ⟨.idle,none,0,0,if i < 3 then some i else none,i,none⟩
  buf b := if b < 3 then ⟨2,b + 10⟩ else ⟨0,99⟩
  txs := []
  xmit := []
  wire := []
  acks := []
  replies := []
  readSeqnum := 1
  writeCtxLock := 0
  replyDone := false
  released := false
  stack := [.processing]

theorem ready_start : Start .layout_2_3_4 (· + 10) ready where
  assoc _ := rfl
  prj _ := ⟨rfl,rfl,rfl⟩
  kept i small := by
    have small : i < 3 := small
    exact ⟨i,by simp [ready,small],rfl,by simp [ready,small]⟩
  distinct i j b first second := by
    simp only [ready,Option.ite_none_right_eq_some,Option.some.injEq] at first second
    omega
  others i large := by
    have large : 3 ≤ i := large
    simp [ready]
    omega
  observed := ⟨rfl,rfl,rfl,rfl,rfl⟩
  seqnum := by decide
  released := rfl
  stack := rfl

def allUp : Nat → LbgView := fun _ => ⟨.up,true,true⟩

/-- All projections are sent and taken by a socket. -/
def sendThree : List (Act Nat) := List.replicate 8 (.call allUp none .accepted) ++ [.grab 0]

/-- The socket has transmitted projection 0, its storage answers with an error, and the spare
storage gets it. -/
theorem transmissions_intact_spare : ∃ st : State Nat, st.wire = [(0,10),(0,10)] ∧
    (∀ x ∈ st.wire, x.2 = x.1 + 10) ∧
    ∀ i b, (st.prj i).prjBuf = some b → (st.prj i).bins = b ∧ (st.buf b).bins = i + 10 := by
  have done : ∃ st, Machine.exec (step .layout_2_3_4 false) (fun s a => replacesBuffer .layout_2_3_4 s a = false)
      (sendThree ++ [.transmit 0,.giveBack 0,.response 0 (.storageError 5),.call allUp none .accepted,
        .call allUp none .accepted,.grab 2,.transmit 0]) ready = some st ∧ st.wire = [(0,10),(0,10)] := ⟨_,rfl,rfl⟩
  obtain ⟨st,done,wire⟩ := done
  exact ⟨st,wire,transmissions_intact ready_start (Machine.Run.refl.exec done)⟩

/-- The transaction of projection 0 times out while the socket still has its buffer: the retry
transmits what the new buffer held. -/
theorem stale_payload_transmitted : Start .layout_2_3_4 (· + 10) ready ∧
    ∃ st : State Nat, Machine.Run (step .layout_2_3_4 false) (fun _ _ => True) ready st ∧ ∃ x ∈ st.wire, x.2 ≠ x.1 + 10 := by
  have done : ∃ st, Machine.exec (step .layout_2_3_4 false) (fun _ _ => True)
      (sendThree ++ [.response 0 (.failed 62),.call allUp (some (7,99)) .accepted,
        .call allUp none .accepted,.grab 2,.transmit 1]) ready = some st ∧ st.wire = [(0,99)] := ⟨_,rfl,rfl⟩
  obtain ⟨st,done,wire⟩ := done
  exact ⟨ready_start,st,Machine.Run.refl.exec done,(0,99),by simp [wire],by decide⟩

end Rozofs.WriteRetry
