import Rozofs.Layout
import Rozofs.Machine
import Mathlib.Logic.Function.Basic

/-! File locks of the metadata server: the ranges of `cache.c`, the requests of
`export_tracking.c`, and the lists that link a lock to its file and to its client. A client
computes the range in blocks of a request, the server computes it again when it edits a lock.
A list is the list of its elements; an element is known by its address. -/
namespace Rozofs.FileLock
open Function (update)

/-- `ep_lock_mode_t`. -/
inductive Mode where
  | free
  | read
  | write
  deriving DecidableEq, Repr

/-- `ep_lock_size_t`; a range of size `EP_LOCK_NULL` is not sent. -/
inductive Size where
  | total
  | fromStart
  | toEnd
  | partialRange
  deriving DecidableEq, Repr

/-- `ep_lock_range_t`. -/
structure Range where
  size : Size
  offsetStart : Nat
  offsetStop : Nat
  deriving DecidableEq, Repr

/-- `ep_lock_t`. -/
structure Lock where
  mode : Mode
  clientRef : Nat
  ownerRef : Nat
  userRange : Range
  effectiveRange : Range
  deriving DecidableEq, Repr

section Ranges
variable (bsize : BSize)

/-- `rozofs_flock_canonical` from the first offset of the request. -/
def flockCanonical (start len : Int) : Option Range :=
  if start < 0 then none
  else
    let stop := if len < 0 then start else if len > 0 then start + len else 0
    let start := if len < 0 then start + len else start
    if start < 0 then none
    else
      let size :=
        if stop = 0 then if start = 0 then Size.total else .toEnd
        else if start = 0 then .fromStart else .partialRange
      some ⟨size,start.toNat,stop.toNat⟩

/-- `compute_effective_lock_range` of the client. -/
def clientEffectiveRange (user : Range) : Range :=
  if user.size = .total then ⟨.total,0,0⟩
  else
    let start := user.offsetStart / bsize.bytes
    if user.size = .toEnd then ⟨if start = 0 then .total else .toEnd,start,0⟩
    else
      let stop :=
        if user.offsetStop % bsize.bytes = 0 then user.offsetStop / bsize.bytes else user.offsetStop / bsize.bytes + 1
      ⟨if start = 0 then .fromStart else .partialRange,start,stop⟩

/-- `compute_effective_lock_range` of the server: the total range goes on with the others, and
the stop is rounded by the remainder of the former effective stop. -/
def computeEffectiveLockRange (lock : Lock) : Lock :=
  let user := lock.userRange
  let before := if user.size = .total then 0 else lock.effectiveRange.offsetStop
  let start := user.offsetStart / bsize.bytes
  let effective :=
    if user.size = .toEnd then ⟨if start = 0 then Size.total else .toEnd,start,0⟩
    else
      let stop := if before % bsize.bytes = 0 then user.offsetStop / bsize.bytes else user.offsetStop / bsize.bytes + 1
      ⟨if start = 0 then .fromStart else .partialRange,start,stop⟩
  { lock with effectiveRange := effective }

/-- `are_file_locks_compatible`. -/
def areFileLocksCompatible (lock1 lock2 : Lock) : Bool :=
  let p1 := lock1.effectiveRange
  let p2 := lock2.effectiveRange
  if lock1.mode = .read ∧ lock2.mode = .read then true
  else
    match p1.size, p2.size with
    | .fromStart, .toEnd | .fromStart, .partialRange | .partialRange, .toEnd => p1.offsetStop ≤ p2.offsetStart
    | .toEnd, .fromStart | .toEnd, .partialRange | .partialRange, .fromStart => p1.offsetStart ≥ p2.offsetStop
    | .partialRange, .partialRange =>
      if p1.offsetStart ≤ p2.offsetStart then p1.offsetStop ≤ p2.offsetStart else p2.offsetStop ≤ p1.offsetStart
    | _, _ => false

/-- `are_file_locks_overlapping`: ranges that follow each other count. -/
def areFileLocksOverlapping (lock1 lock2 : Lock) : Bool :=
  let p1 := lock1.userRange
  let p2 := lock2.userRange
  match p1.size, p2.size with
  | .fromStart, .toEnd | .fromStart, .partialRange | .partialRange, .toEnd => !(p1.offsetStop < p2.offsetStart)
  | .toEnd, .fromStart | .toEnd, .partialRange | .partialRange, .fromStart => !(p1.offsetStart > p2.offsetStop)
  | .partialRange, .partialRange =>
    if p1.offsetStart ≤ p2.offsetStart then !(p1.offsetStop < p2.offsetStart) else !(p2.offsetStop < p1.offsetStart)
  | _, _ => true

/-- The lock with another user range. -/
def setUserRange (lock : Lock) (range : Range) : Lock := computeEffectiveLockRange bsize { lock with userRange := range }

@[simp] theorem setUserRange_clientRef (lock : Lock) (range : Range) :
    (setUserRange bsize lock range).clientRef = lock.clientRef := rfl

@[simp] theorem setUserRange_userRange (lock : Lock) (range : Range) :
    (setUserRange bsize lock range).userRange = range := rfl

/-- `try_file_locks_concatenate`: the first lock with the second one in it. -/
def tryFileLocksConcatenate (lock1 lock2 : Lock) : Option Lock :=
  let p1 := lock1.userRange
  let p2 := lock2.userRange
  match p1.size, p2.size with
  | .fromStart, .toEnd =>
    if p1.offsetStop < p2.offsetStart then none
    else some (setUserRange bsize lock1 { p1 with size := .total, offsetStop := p2.offsetStop })
  | .fromStart, .partialRange =>
    if p1.offsetStop < p2.offsetStart then none
    else some (setUserRange bsize lock1 { p1 with offsetStop := max p2.offsetStop p1.offsetStop })
  | .partialRange, .toEnd =>
    if p1.offsetStop < p2.offsetStart then none
    else some (setUserRange bsize lock1 ⟨.toEnd,min p2.offsetStart p1.offsetStart,p2.offsetStop⟩)
  | .toEnd, .fromStart =>
    if p1.offsetStart > p2.offsetStop then none
    else some (setUserRange bsize lock1 { p1 with size := .total, offsetStart := p2.offsetStart })
  | .toEnd, .partialRange =>
    if p1.offsetStart > p2.offsetStop then none
    else some (setUserRange bsize lock1 { p1 with offsetStart := min p2.offsetStart p1.offsetStart })
  | .partialRange, .fromStart =>
    if p1.offsetStart > p2.offsetStop then none
    else some (setUserRange bsize lock1 ⟨.fromStart,p2.offsetStart,max p2.offsetStop p1.offsetStop⟩)
  | .partialRange, .partialRange =>
    if p1.offsetStart ≤ p2.offsetStart then
      if p1.offsetStop < p2.offsetStart then none
      else some (setUserRange bsize lock1 { p1 with offsetStop := max p2.offsetStop p1.offsetStop })
    else if p2.offsetStop < p1.offsetStart then none
    else some (setUserRange bsize lock1
      { p1 with offsetStart := p2.offsetStart, offsetStop := max p2.offsetStop p1.offsetStop })
  | .fromStart, .fromStart => some (setUserRange bsize lock1 { p1 with offsetStop := max p2.offsetStop p1.offsetStop })
  | .toEnd, .toEnd => some (setUserRange bsize lock1 { p1 with offsetStart := min p2.offsetStart p1.offsetStart })
  | .total, _ => some lock1
  | _, .total => some (setUserRange bsize lock1 ⟨.total,p2.offsetStart,p2.offsetStop⟩)

/-- Result of `must_file_lock_be_removed`: the lock as it stays, and a new lock when it is cut
in two. -/
inductive Verdict where
  | remove
  | keep (lock : Lock) (newLock : Option Lock)
  deriving DecidableEq, Repr

def sameOwner (lock1 lock2 : Lock) : Bool := lock1.clientRef = lock2.clientRef && lock1.ownerRef = lock2.ownerRef

@[simp] theorem sameOwner_setUserRange (lock lock' : Lock) (range : Range) :
    sameOwner lock' (setUserRange bsize lock range) = sameOwner lock' lock := rfl

/-- `must_file_lock_be_removed`. The last cut of two partial ranges does not compute the
effective range again. -/
def mustFileLockBeRemoved (lockFree lockSet : Lock) : Verdict :=
  let pfree := lockFree.userRange
  let plock := lockSet.userRange
  if !sameOwner lockFree lockSet then .keep lockSet none
  else
    match pfree.size, plock.size with
    | .total, _ => .remove
    | .fromStart, .total =>
      .keep (setUserRange bsize lockSet { plock with offsetStart := pfree.offsetStop, size := .toEnd }) none
    | .fromStart, .fromStart =>
      if pfree.offsetStop ≥ plock.offsetStop then .remove
      else .keep (setUserRange bsize lockSet { plock with offsetStart := pfree.offsetStop, size := .partialRange }) none
    | .fromStart, .toEnd =>
      if pfree.offsetStop ≤ plock.offsetStart then .keep lockSet none
      else .keep (setUserRange bsize lockSet { plock with offsetStart := pfree.offsetStop }) none
    | .fromStart, .partialRange =>
      if pfree.offsetStop ≤ plock.offsetStart then .keep lockSet none
      else if plock.offsetStop ≤ pfree.offsetStop then .remove
      else .keep (setUserRange bsize lockSet { plock with offsetStart := pfree.offsetStop }) none
    | .toEnd, .total =>
      .keep (setUserRange bsize lockSet { plock with offsetStop := pfree.offsetStart, size := .fromStart }) none
    | .toEnd, .fromStart =>
      if pfree.offsetStart ≥ plock.offsetStop then .keep lockSet none
      else .keep (setUserRange bsize lockSet { plock with offsetStop := pfree.offsetStart }) none
    | .toEnd, .toEnd =>
      if pfree.offsetStart ≤ plock.offsetStart then .remove
      else .keep (setUserRange bsize lockSet { plock with offsetStop := pfree.offsetStart, size := .partialRange }) none
    | .toEnd, .partialRange =>
      if plock.offsetStop ≤ pfree.offsetStart then .keep lockSet none
      else if plock.offsetStart ≥ pfree.offsetStart then .remove
      else .keep (setUserRange bsize lockSet { plock with offsetStop := pfree.offsetStart }) none
    | .partialRange, .total =>
      .keep (setUserRange bsize lockSet { plock with offsetStart := pfree.offsetStop, size := .toEnd })
        (some (setUserRange bsize lockSet { plock with size := .fromStart, offsetStop := pfree.offsetStart }))
    | .partialRange, .toEnd =>
      if pfree.offsetStop ≤ plock.offsetStart then .keep lockSet none
      else
        .keep (setUserRange bsize lockSet { plock with offsetStart := pfree.offsetStop })
          (if pfree.offsetStart > plock.offsetStart then
            some (setUserRange bsize lockSet { plock with size := .partialRange, offsetStop := pfree.offsetStart })
          else none)
    | .partialRange, .fromStart =>
      if pfree.offsetStart ≥ plock.offsetStop then .keep lockSet none
      else if plock.offsetStop ≤ pfree.offsetStop then
        .keep (setUserRange bsize lockSet { plock with offsetStop := pfree.offsetStart }) none
      else
        .keep (setUserRange bsize lockSet { plock with offsetStop := pfree.offsetStart })
          (some (setUserRange bsize lockSet { plock with size := .partialRange, offsetStart := pfree.offsetStop }))
    | .partialRange, .partialRange =>
      if pfree.offsetStart ≥ plock.offsetStop then .keep lockSet none
      else if plock.offsetStart ≥ pfree.offsetStop then .keep lockSet none
      else if pfree.offsetStart ≤ plock.offsetStart then
        if pfree.offsetStop ≥ plock.offsetStop then .remove
        else .keep (setUserRange bsize lockSet { plock with offsetStart := pfree.offsetStop }) none
      else if pfree.offsetStop ≥ plock.offsetStop then
        .keep (setUserRange bsize lockSet { plock with offsetStop := pfree.offsetStart }) none
      else
        .keep { lockSet with userRange := { plock with offsetStart := pfree.offsetStop } }
          (some (setUserRange bsize lockSet { plock with offsetStop := pfree.offsetStart }))

end Ranges

/-- `rozofs_file_lock_t` at its address. -/
structure Node where
  ptr : Nat
  lock : Lock
  deriving DecidableEq, Repr

/-- Fields of `lv2_entry_t`; a file that is not in the attribute cache has no lock. -/
structure Entry where
  nbLocks : Int
  locks : List Node

/-- `rozofs_file_lock_client_t`. -/
structure Client where
  clientRef : Nat
  nbLock : Int
  locks : List Nat
  deriving DecidableEq, Repr

/-- The locks of all exports; `heap` is the locks that are allocated. -/
structure State (φ : Type) where
  next : Nat
  heap : List Nat
  files : Nat → φ → Entry
  clients : Nat → List Client
  nbFileLock : Int

section Lists
variable {φ : Type} [DecidableEq φ]

def setEntry (st : State φ) (eid : Nat) (fid : φ) (entry : Entry) : State φ :=
  { st with files := update st.files eid (update (st.files eid) fid entry) }

def setClients (st : State φ) (eid : Nat) (clients : List Client) : State φ :=
  { st with clients := update st.clients eid clients }

/-- `file_lock_unlink`: the lock leaves the lists that it is in. -/
def fileLockUnlink (st : State φ) (ptr : Nat) : State φ :=
  { st with
    nbFileLock := st.nbFileLock - 1
    files := fun eid fid => { st.files eid fid with locks := (st.files eid fid).locks.filter fun x => x.ptr ≠ ptr }
    clients := fun eid => (st.clients eid).map fun c => { c with locks := c.locks.filter fun p => p ≠ ptr } }

def xfree (st : State φ) (ptr : Nat) : State φ := { st with heap := st.heap.filter fun p => p ≠ ptr }

def unlinkAll (st : State φ) (ptrs : List Nat) : State φ := ptrs.foldl (fun st ptr => xfree (fileLockUnlink st ptr) ptr) st

/-- `file_lock_remove_client`, with `file_lock_remove_one_client`. -/
def fileLockRemoveClient (st : State φ) (eid clientRef : Nat) : State φ :=
  match (st.clients eid).find? fun c => c.clientRef = clientRef with
  | none => st
  | some client =>
    let st := unlinkAll st client.locks
    setClients st eid ((st.clients eid).filter fun c => c.clientRef ≠ clientRef)

/-- `file_lock_create_client`. -/
def fileLockCreateClient (st : State φ) (eid clientRef : Nat) : State φ :=
  setClients st eid (⟨clientRef,0,[]⟩ :: st.clients eid)

/-- `file_lock_poll_client`; `late` are the clients whose last poll is too old. -/
def fileLockPollClient (st : State φ) (eid clientRef : Nat) (late : Nat → Bool) : State φ :=
  let found := (st.clients eid).any fun c => c.clientRef = clientRef
  let old := (st.clients eid).filter fun c => c.clientRef ≠ clientRef ∧ late c.clientRef = true
  let st := old.foldl (fun st c => fileLockRemoveClient st eid c.clientRef) st
  if found then st else fileLockCreateClient st eid clientRef

/-- `lv2_cache_unlink` of an entry, with `file_lock_remove_fid_locks`. -/
def lv2CacheUnlink (st : State φ) (eid : Nat) (fid : φ) : State φ :=
  setEntry (unlinkAll st ((st.files eid fid).locks.map Node.ptr)) eid fid ⟨0,[]⟩

/-- `file_lock_add_lock_to_client`. -/
def fileLockAddLockToClient (st : State φ) (eid clientRef ptr : Nat) : State φ :=
  let st := if (st.clients eid).any fun c => c.clientRef = clientRef then st else fileLockCreateClient st eid clientRef
  setClients st eid ((st.clients eid).map fun c =>
    if c.clientRef = clientRef then { c with nbLock := c.nbLock + 1, locks := ptr :: c.locks } else c)

/-- `lv2_cache_allocate_file_lock`, and the lock is put in the list of the file. -/
def addFileLock (st : State φ) (eid : Nat) (fid : φ) (lock : Lock) : State φ :=
  let ptr := st.next
  let st := { st with next := ptr + 1, heap := ptr :: st.heap, nbFileLock := st.nbFileLock + 1 }
  let st := fileLockAddLockToClient st eid lock.clientRef ptr
  let entry := st.files eid fid
  setEntry st eid fid ⟨entry.nbLocks + 1,⟨ptr,lock⟩ :: entry.locks⟩

/-- `lv2_cache_free_file_lock`. -/
def lv2CacheFreeFileLock (st : State φ) (eid : Nat) (x : Node) : State φ :=
  let st :=
    if (st.clients eid).any fun c => c.clientRef = x.lock.clientRef then
      fileLockUnlink (setClients st eid ((st.clients eid).map fun c =>
        if c.clientRef = x.lock.clientRef then { c with nbLock := c.nbLock - 1 } else c)) x.ptr
    else st
  xfree st x.ptr

/-- A lock of a file is freed and counted. -/
def dropFileLock (st : State φ) (eid : Nat) (fid : φ) (x : Node) : State φ :=
  let st := lv2CacheFreeFileLock st eid x
  let entry := st.files eid fid
  setEntry st eid fid ⟨if entry.locks = [] then 0 else entry.nbLocks - 1,entry.locks⟩

/-- A lock is edited in its place. -/
def setFileLock (st : State φ) (eid : Nat) (fid : φ) (ptr : Nat) (lock : Lock) : State φ :=
  let entry := st.files eid fid
  setEntry st eid fid { entry with locks := entry.locks.map fun x => if x.ptr = ptr then ⟨ptr,lock⟩ else x }

end Lists

section Requests
variable {φ : Type} [DecidableEq φ] (bsize : BSize)

/-- A walk over the list for a free request; `true` when a lock was removed and the walk starts
again. -/
def freeWalk (eid : Nat) (fid : φ) (lockFree : Lock) : List Node → State φ → State φ × Bool
  | [], st => (st,false)
  | x :: rest, st =>
    match mustFileLockBeRemoved bsize lockFree x.lock with
    | .remove => (dropFileLock st eid fid x,true)
    | .keep lock newLock =>
      let st := setFileLock st eid fid x.ptr lock
      freeWalk eid fid lockFree rest (match newLock with
        | none => st
        | some newLock => addFileLock st eid fid newLock)

/-- The walks of a free request. Each one but the last removes a lock. -/
def freeLoop (eid : Nat) (fid : φ) (lockFree : Lock) : Nat → State φ → Option (State φ)
  | 0, _ => none
  | walks + 1, st =>
    match freeWalk bsize eid fid lockFree (st.files eid fid).locks st with
    | (st,false) => some st
    | (st,true) => if (st.files eid fid).locks = [] then some st else freeLoop eid fid lockFree walks st

/-- The first lock of the same owner and mode that can be put in the request. -/
def findConcatenate (request : Lock) : List Node → Option (Node × Lock)
  | [] => none
  | x :: rest =>
    if sameOwner x.lock request ∧ x.lock.mode = request.mode then
      match tryFileLocksConcatenate bsize request x.lock with
      | some lock => some (x,lock)
      | none => findConcatenate request rest
    else findConcatenate request rest

/-- The loop from `concatenate` on. -/
def concatenate (eid : Nat) (fid : φ) : Nat → Lock → State φ → Lock × State φ
  | 0, request, st => (request,st)
  | overlap + 1, request, st =>
    match findConcatenate bsize request (st.files eid fid).locks with
    | none => (request,st)
    | some (x,lock) => concatenate eid fid overlap lock (dropFileLock st eid fid x)

/-- Locks of the same owner and mode that the request meets. -/
def meets (request : Lock) (locks : List Node) : List Node :=
  locks.filter fun x => sameOwner x.lock request && x.lock.mode = request.mode && areFileLocksOverlapping request x.lock

/-- `export_set_file_lock`. -/
def exportSetFileLock (eid : Nat) (fid : φ) (request : Lock) (st : State φ) : Option (State φ) :=
  let entry := st.files eid fid
  if request.mode = .free then
    if entry.nbLocks = 0 then some st
    else if entry.locks = [] then some (setEntry st eid fid { entry with nbLocks := 0 })
    else freeLoop bsize eid fid request (entry.locks.length + 1) st
  else if entry.locks.all fun x => sameOwner x.lock request || areFileLocksCompatible x.lock request then
    let (lock,st) := concatenate bsize eid fid (meets request entry.locks).length request st
    some (addFileLock st eid fid lock)
  else some st

/-- The blocking lock of `export_set_file_lock`, `none` when the request is granted: its walk over
the locks leaves those of the owner of the request out. -/
def setBlockingLock (request : Lock) (locks : List Node) : Option Lock :=
  if request.mode = .free then none
  else (locks.find? fun x => !sameOwner x.lock request && !areFileLocksCompatible x.lock request).map Node.lock

/-- `export_get_file_lock`: the blocking lock, `none` on success. -/
def exportGetFileLock (request : Lock) (locks : List Node) : Option Lock :=
  if request.mode = .free then none
  else (locks.find? fun x => !areFileLocksCompatible x.lock request).map Node.lock

/-- `export_clear_owner_file_lock`: the locks of the owner are freed one after the other. -/
def exportClearOwnerFileLock (eid : Nat) (fid : φ) (clientRef ownerRef : Nat) (st : State φ) : State φ :=
  ((st.files eid fid).locks.filter fun x => x.lock.clientRef = clientRef && x.lock.ownerRef = ownerRef).foldl
    (fun st x => dropFileLock st eid fid x) st

/-- `export_clear_client_file_lock`. -/
def exportClearClientFileLock (eid clientRef : Nat) (late : Nat → Bool) (st : State φ) : State φ :=
  fileLockPollClient (fileLockRemoveClient st eid clientRef) eid clientRef late

/-- A request of a client for the range of a `struct flock`. -/
def clientLock (mode : Mode) (clientRef ownerRef : Nat) (range : Range) : Lock :=
  ⟨mode,clientRef,ownerRef,range,clientEffectiveRange bsize range⟩

inductive Act (φ : Type) where
  | setlk (eid : Nat) (fid : φ) (mode : Mode) (clientRef ownerRef : Nat) (start len : Int)
  | clearOwner (eid : Nat) (fid : φ) (clientRef ownerRef : Nat)
  | clearClient (eid clientRef : Nat) (late : Nat → Bool)
  | removeClient (eid clientRef : Nat)
  | poll (eid clientRef : Nat) (late : Nat → Bool)
  | evict (eid : Nat) (fid : φ)
  | del (eid : Nat) (fid : φ)

/-- Only a file whose counter is zero is in the list from which entries are evicted. -/
def step (a : Act φ) (st : State φ) : Option (State φ) :=
  match a with
  | .setlk eid fid mode clientRef ownerRef start len =>
    match flockCanonical start len with
    | none => some st
    | some range => exportSetFileLock bsize eid fid (clientLock bsize mode clientRef ownerRef range) st
  | .clearOwner eid fid clientRef ownerRef => some (exportClearOwnerFileLock eid fid clientRef ownerRef st)
  | .clearClient eid clientRef late => some (exportClearClientFileLock eid clientRef late st)
  | .removeClient eid clientRef => some (fileLockRemoveClient st eid clientRef)
  | .poll eid clientRef late => some (fileLockPollClient st eid clientRef late)
  | .evict eid fid => if (st.files eid fid).nbLocks = 0 then some (lv2CacheUnlink st eid fid) else none
  | .del eid fid => some (lv2CacheUnlink st eid fid)

/-- `file_lock_service_init`. -/
def serviceInit : State φ where
  next := 0
  heap := []
  files := fun _ _ => ⟨0,[]⟩
  clients := fun _ => []
  nbFileLock := 0

end Requests

end Rozofs.FileLock
