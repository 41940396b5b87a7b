import Rozofs.Layout
import Rozofs.Machine
import Mathlib.Logic.Function.Basic

/-! The part of a write request that sends projections: `rozofs_storcli_write_req_processing`,
its response callback, its retries and its guard timer. The calls in progress are an explicit
stack, since a send may fail at once and call the response callback before it returns. The
transmit buffers carry their in-use counter; what their payload holds is of any type. -/
namespace Rozofs.WriteRequest
open Function (update)

/-- `north_lbg_entry_state_e`. -/
inductive LbgState where
  | dependency
  | up
  | down
  | shuttingDown
  deriving DecidableEq, Repr

/-- What the load balancing group of a storage says when it is asked: its state, that it is
not in quarantine, that its supervision allows it. -/
structure LbgView where
  state : LbgState
  available : Bool
  selectable : Bool
  deriving DecidableEq, Repr

/-- `rozofs_storcli_lbg_prj_assoc_t`, under the index of the storage in the distribution. -/
structure Assoc where
  valid : Bool
  state : LbgState
  validPrj : Bool
  deriving DecidableEq, Repr

/-- `rozofs_wr_req_state_e`. -/
inductive PrjState where
  | idle
  | inPrg
  | done
  | error
  deriving DecidableEq, Repr

/-- `rozofs_storcli_projection_ctx_t`. A pointer to a buffer is the index of the buffer, and
`bins` is the buffer whose payload it points into. -/
structure PrjCtx where
  prjState : PrjState
  storIdx : Option Nat
  retryCpt : Nat
  errcode : Nat
  prjBuf : Option Nat
  bins : Nat
  prjBufMissing : Option Nat
  deriving DecidableEq, Repr

/-- A buffer of the pools; it is free when its counter is 0. -/
structure Buf (β : Type) where
  inuse : Nat
  bins : β

/-- `rozofs_tx_ctx_t` with its opaque data. -/
structure Tx where
  seqnum : Nat
  projectionId : Nat
  storIdx : Nat
  xmitBuf : Nat
  deriving DecidableEq, Repr

/-- Calls in progress. -/
inductive Frame where
  | processing
  | sendAll (next : Nat)
  | retry (projectionId : Nat) (sameStorage missing : Bool)
  | send (projectionId xmitBuf : Nat)
  | sent (projectionId : Nat)
  | missing (projections : List Nat)
  | unlock
  deriving DecidableEq, Repr

inductive Reply where
  | success
  | error (errcode : Nat)
  deriving DecidableEq, Repr

/-- The context of the request, the buffers, and what is observed of the request: buffers in
the sockets, bins put on the wire, storages that acknowledged, replies. -/
structure State (β : Type) where
  assoc : Nat → Assoc
  prj : Nat → PrjCtx
  buf : Nat → Buf β
  txs : List Tx
  xmit : List (Nat × Nat)
  wire : List (Nat × β)
  acks : List (Nat × Nat)
  replies : List Reply
  readSeqnum : Nat
  writeCtxLock : Nat
  replyDone : Bool
  released : Bool
  stack : List Frame

def eio : Nat := 5

def efault : Nat := 14

def maxRetry : Nat := 3

section Selection
variable {β : Type} (layout : Layout) (env : Nat → LbgView) (st : State β)

/-- `rozofs_storcli_lbg_prj_is_lbg_selectable`. -/
def isLbgSelectable (index : Nat) (downAcceptable : Bool) : Bool :=
  (st.assoc index).valid && !(st.assoc index).validPrj && (env index).available && (env index).selectable &&
    ((st.assoc index).state == .up || ((st.assoc index).state == .down && downAcceptable))

def selectSpare (downAcceptable : Bool) : Option Nat :=
  (List.range' layout.rozofsForward (layout.rozofsSafe - layout.rozofsForward)).find?
    fun index => isLbgSelectable env st index downAcceptable

/-- `rozofs_storcli_lbg_prj_set_projection_id` and the index in the projection context. -/
def assign (i index : Nat) : State β :=
  { st with
    prj := update st.prj i { st.prj i with storIdx := some index }
    assoc := update st.assoc index { st.assoc index with validPrj := true } }

/-- `rozofs_storcli_select_storage_idx_for_write`. -/
def selectStorageIdxForWrite (i : Nat) : Option (State β) :=
  let choice :=
    if isLbgSelectable env st i false then some i
    else match selectSpare layout env st false with
      | some index => some index
      | none => if isLbgSelectable env st i true then some i else selectSpare layout env st true
  choice.map (assign st i)

/-- `rozofs_storcli_lbg_prj_insert_lbg_state` over the storages of the distribution. -/
def insertLbgStates : State β :=
  { st with assoc := fun index =>
      if index < layout.rozofsSafe then
        { st.assoc index with state := if (st.assoc index).valid then (env index).state else .dependency }
      else st.assoc index }

end Selection

section Buffers
variable {β : Type} (st : State β)

def setPrj (i : Nat) (p : PrjCtx) : State β := { st with prj := update st.prj i p }

/-- `ruc_buf_inuse_increment`. -/
def inuseIncrement (b : Nat) : State β :=
  { st with buf := update st.buf b { st.buf b with inuse := (st.buf b).inuse + 1 } }

def inuseDecrement (b : Nat) : State β :=
  { st with buf := update st.buf b { st.buf b with inuse := (st.buf b).inuse - 1 } }

/-- The decrement of a user that frees the buffer when only the allocation is left. -/
def releaseBuffer (b : Nat) : State β :=
  let inuse := (st.buf b).inuse - 1
  { st with buf := update st.buf b { st.buf b with inuse := if inuse = 1 then 0 else inuse } }

/-- `ruc_buf_getBuffer`: a free buffer, with what its payload happens to hold. -/
def getBuffer : Option (Nat × β) → Option (Nat × State β)
  | some (b,content) =>
    if (st.buf b).inuse = 0 then some (b,{ st with buf := update st.buf b ⟨1,content⟩ }) else none
  | none => none

/-- `memcpy` of the bins from the payload of a buffer to that of another. -/
def memcpy (dst src : Nat) : State β :=
  { st with buf := update st.buf dst { st.buf dst with bins := (st.buf src).bins } }

end Buffers

section Context
variable {β : Type} (st : State β)

def failed (i errcode : Nat) : State β := setPrj st i { st.prj i with prjState := .error, errcode := errcode }

/-- `rozofs_storcli_write_reply_error`. -/
def writeReplyError (errcode : Nat) : State β :=
  if st.replyDone then st else { st with replies := st.replies ++ [.error errcode], readSeqnum := 0 }

def writeReplySuccess : State β :=
  if st.replyDone then st else { st with replies := st.replies ++ [.success], replyDone := true }

def releaseOption : Option Nat → State β → State β
  | some b, st => releaseBuffer st b
  | none, st => st

/-- The buffers of one projection in `rozofs_storcli_release_context`. -/
def releasePrj (st : State β) (i : Nat) : State β :=
  let p := st.prj i
  let st := releaseOption p.prjBufMissing (releaseOption p.prjBuf st)
  setPrj st i { st.prj i with prjBuf := none, prjBufMissing := none }

def releaseContext (layout : Layout) : State β :=
  { (List.range layout.rozofsForward).foldl releasePrj st with readSeqnum := 0, released := true, stack := [] }

/-- The labels `reject` and `fatal`: with the lock the caller goes on. -/
def abandon (layout : Layout) (errcode : Nat) : State β :=
  if st.writeCtxLock ≠ 0 then st else releaseContext (writeReplyError st errcode) layout

end Context

/-- Result of `rozofs_sorcli_send_rq_common`: accepted, refused, or accepted with a direct call
of the response callback for an error. -/
inductive Send where
  | accepted
  | refused
  | direct (errcode : Nat)
  deriving DecidableEq, Repr

/-- What a transaction ends with. -/
inductive Response where
  | failed (errcode : Nat)
  | noBuffer
  | storageError (errcode : Nat)
  | success
  deriving DecidableEq, Repr

section Retry
variable {β : Type} (layout : Layout)

/-- Transmit buffer of a retry after an error. A buffer that somebody else uses is replaced by
a new one, and the bins are copied. -/
def retryBuffer (alloc : Option (Nat × β)) (st : State β) (i : Nat) : State β × Option Nat :=
  match (st.prj i).prjBuf with
  | none => (st,none)
  | some b =>
    if (st.buf b).inuse ≤ 2 then (st,some b)
    else
      match getBuffer (inuseDecrement st b) alloc with
      | none =>
        let st := inuseDecrement st b
        (setPrj st i { st.prj i with prjBuf := none },none)
      | some (new,st) =>
        let st := inuseIncrement (memcpy st (st.prj i).bins new) new
        (setPrj st i { st.prj i with prjBuf := some new, bins := new },some new)

/-- Choice of the storage of a retry: a new one, or the same one a few times. -/
def retryStorage (env : Nat → LbgView) (sameStorage : Bool) (st : State β) (i : Nat) : Except (State β) (State β) :=
  let st := insertLbgStates layout env st
  match selectStorageIdxForWrite layout env st i with
  | some st => .ok st
  | none =>
    if sameStorage = false then .error (setPrj st i { st.prj i with errcode := eio })
    else
      let p := { st.prj i with retryCpt := (st.prj i).retryCpt + 1 }
      if p.retryCpt ≥ maxRetry then .error (setPrj st i { p with errcode := eio })
      else .ok (setPrj st i p)

/-- `rozofs_storcli_write_projection_retry` up to its send. -/
def writeProjectionRetry (env : Nat → LbgView) (alloc : Option (Nat × β)) (i : Nat) (sameStorage missing : Bool)
    (st : State β) : State β :=
  match retryStorage layout env sameStorage st i with
  | .error st => abandon st layout eio
  | .ok st =>
    match if missing then (st,(st.prj i).prjBufMissing) else retryBuffer alloc st i with
    | (st,some b) => { st with stack := .send i b :: st.stack }
    | (st,none) => abandon (setPrj st i { st.prj i with errcode := efault }) layout efault

/-- The label `retry` of the two senders: submission of the buffer, again on another storage
when it is refused. A direct failure calls the response callback under the lock. -/
def send (env : Nat → LbgView) (result : Send) (i b : Nat) (st : State β) : State β :=
  let st := setPrj st i { st.prj i with prjState := .inPrg }
  match result with
  | .accepted =>
    inuseIncrement { st with txs := st.txs ++ [⟨st.readSeqnum,i,(st.prj i).storIdx.getD 0,b⟩] } b
  | .refused =>
    match selectStorageIdxForWrite layout env st i with
    | some st => { st with stack := .send i b :: st.stack }
    | none => abandon st layout 0
  | .direct errcode =>
    { failed st i errcode with
      writeCtxLock := st.writeCtxLock + 1, stack := .retry i true false :: .sent i :: st.stack }

/-- Return of a send whose transaction failed at once. -/
def sent (i : Nat) (st : State β) : State β :=
  let st := { st with writeCtxLock := st.writeCtxLock - 1 }
  if (st.prj i).prjState = .error then abandon st layout (st.prj i).errcode else st

/-- `rozofs_storcli_write_req_processing` up to its loop of sends. -/
def writeReqProcessing (env : Nat → LbgView) (st : State β) : State β :=
  let st := insertLbgStates layout env st
  match (List.range layout.rozofsForward).foldlM (selectStorageIdxForWrite layout env) st with
  | some st => { st with stack := .sendAll 0 :: st.stack }
  | none => releaseContext (writeReplyError st eio) layout

def sendAll (i : Nat) (st : State β) : State β :=
  if i < layout.rozofsForward then
    match (st.prj i).prjBuf with
    | some b => { st with stack := .send i b :: .sendAll (i + 1) :: st.stack }
    | none => releaseContext (writeReplyError st eio) layout
  else st

/-- One projection of the loop of `rozofs_storcli_write_timeout`. -/
def sendMissing (alloc : Option (Nat × β)) (i : Nat) (rest : List Nat) (st : State β) : State β :=
  match getBuffer st alloc with
  | none => st
  | some (b,st) =>
    let st := setPrj st i { st.prj i with prjBufMissing := some b }
    let st := memcpy (inuseIncrement st b) b (st.prj i).bins
    { st with
      writeCtxLock := st.writeCtxLock + 1
      stack := .retry i false true :: .unlock :: .missing rest :: st.stack }

/-- One call of the stack. -/
def call (env : Nat → LbgView) (alloc : Option (Nat × β)) (result : Send) : Frame → State β → State β
  | .processing, st => writeReqProcessing layout env st
  | .sendAll i, st => sendAll layout i st
  | .retry i sameStorage missing, st => writeProjectionRetry layout env alloc i sameStorage missing st
  | .send i b, st => send layout env result i b st
  | .sent i, st => sent layout i st
  | .missing [], st => st
  | .missing (i :: rest), st => sendMissing alloc i rest st
  | .unlock, st => { st with writeCtxLock := st.writeCtxLock - 1 }

end Retry

section Callback
variable {β : Type} (layout : Layout)

def received (st : State β) : Nat :=
  (List.range layout.rozofsForward).countP fun i => (st.prj i).prjState == .done

/-- `rozofs_storcli_all_prj_write_check`. -/
def allPrjWriteCheck (st : State β) : Nat :=
  if received layout st = layout.rozofsForward then 2 else if received layout st = layout.rozofsInverse then 1 else 0

/-- `rozofs_storcli_write_req_processing_cbk`, once the transaction has left the engine. -/
def writeReqProcessingCbk (wrAckOnInverse : Bool) (t : Tx) (response : Response) (st : State β) : State β :=
  let i := t.projectionId
  if t.seqnum ≠ st.readSeqnum then st
  else if (st.prj i).prjState = .done then st
  else match response with
    | .failed errcode => { failed st i errcode with stack := .retry i true false :: st.stack }
    | .noBuffer => abandon (failed st i efault) layout efault
    | .storageError errcode => { failed st i errcode with stack := .retry i false false :: st.stack }
    | .success =>
      let st := { setPrj st i { st.prj i with prjState := .done } with acks := st.acks ++ [(i,t.storIdx)] }
      match allPrjWriteCheck layout st with
      | 2 => releaseContext (writeReplySuccess st) layout
      | 1 => if wrAckOnInverse then writeReplySuccess st else st
      | _ => st

/-- `rozofs_storcli_write_timeout` up to its loop. -/
def writeTimeout (st : State β) : State β :=
  { st with stack := .missing ((List.range layout.rozofsForward).filter fun i => (st.prj i).prjState ≠ .done) :: st.stack }

end Callback

/-- A call goes on with what its environment answers; between calls a transaction ends or the
guard timer expires; sockets take, transmit and give back buffers at any time. -/
inductive Act (β : Type) where
  | call (env : Nat → LbgView) (alloc : Option (Nat × β)) (result : Send)
  | response (k : Nat) (response : Response)
  | timeout
  | grab (k : Nat)
  | transmit (k : Nat)
  | giveBack (k : Nat)

def step {β : Type} (layout : Layout) (wrAckOnInverse : Bool) (a : Act β) (st : State β) : Option (State β) :=
  match a with
  | .call env alloc result =>
    match st.stack with
    | [] => none
    | frame :: stack => some (call layout env alloc result frame { st with stack := stack })
  | .response k response =>
    if st.stack ≠ [] then none
    else st.txs[k]?.map fun t =>
      writeReqProcessingCbk layout wrAckOnInverse t response
        (releaseBuffer { st with txs := st.txs.eraseIdx k } t.xmitBuf)
  | .timeout => if st.stack ≠ [] ∨ st.released then none else some (writeTimeout layout st)
  | .grab k => st.txs[k]?.map fun t =>
      inuseIncrement { st with xmit := st.xmit ++ [(t.projectionId,t.xmitBuf)] } t.xmitBuf
  | .transmit k => st.xmit[k]?.map fun x => { st with wire := st.wire ++ [(x.1,(st.buf x.2).bins)] }
  | .giveBack k => st.xmit[k]?.map fun x => releaseBuffer { st with xmit := st.xmit.eraseIdx k } x.2

/-- A request whose transforms are done: each projection has a buffer of its own, used by the
context only, with the bins that were computed for it. -/
structure Start {β : Type} (layout : Layout) (computed : Nat → β) (st : State β) : Prop where
  assoc : ∀ index, (st.assoc index).validPrj = false
  prj : ∀ i, (st.prj i).prjState = .idle ∧ (st.prj i).storIdx = none ∧ (st.prj i).prjBufMissing = none
  kept : ∀ i < layout.rozofsForward, ∃ b, (st.prj i).prjBuf = some b ∧ (st.prj i).bins = b ∧ st.buf b = ⟨2,computed i⟩
  distinct : ∀ i j b, (st.prj i).prjBuf = some b → (st.prj j).prjBuf = some b → i = j
  others : ∀ i, layout.rozofsForward ≤ i → (st.prj i).prjBuf = none
  observed : st.txs = [] ∧ st.xmit = [] ∧ st.wire = [] ∧ st.acks = [] ∧ st.replies = []
  seqnum : st.readSeqnum ≠ 0
  released : st.released = false
  stack : st.stack = [.processing]

end Rozofs.WriteRequest
