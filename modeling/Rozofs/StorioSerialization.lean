import Rozofs.CircularList
import Rozofs.Machine

/-! Requests of one file on a storage: `storio_serialization.c` and the loop of
`storio_disk_thread.c`. The main thread links a request to the context of its file and posts an
activation message when no disk thread has the file; the disk thread that receives it moves
whole batches to a list of its own until it finds none. A step of a thread is what it does in one
critical section of `serial_lock`, or without it on what no other thread writes. -/
namespace Rozofs.StorioSerialization
open CircularList (Links Ring)
open Function (update)

section Model
variable {φ τ ρ : Type}

/-- Elements of lists: the head `serial_pending_request` of a context, the head
`diskthread_list` of a disk thread, the link of a request. -/
inductive Node (φ τ ρ : Type) where
  | pending (file : φ)
  | batch (t : τ)
  | request (r : ρ)
  deriving DecidableEq

/-- Where a disk thread stands: in the receive call, before a call of
`storio_get_pending_request_list`, in front of its lock with what it read before it, behind it,
in the processing of a request. -/
inductive Phase (φ ρ : Type) where
  | receive
  | get (file : φ)
  | lock (file : φ) (someSeen : Bool)
  | first (file : φ)
  | process (file : φ) (r : ρ)
  deriving DecidableEq

/-- The file a disk thread works for. -/
def Phase.file : Phase φ ρ → Option φ
  | .receive => none
  | .get file | .lock file _ | .first file | .process file _ => some file

/-- `arrived` and `handed` record requests of a file in the order of their insertion and in the
order in which disk threads take them. -/
structure State (φ τ ρ : Type) where
  links : Links (Node φ τ ρ)
  isRunning : φ → Bool
  /-- The file for which the main thread is about to send an activation message. -/
  sending : Option φ
  /-- Activation messages in the socket of the disk threads. -/
  posted : List φ
  thread : τ → Phase φ ρ
  /-- Responses in the socket of the main thread. -/
  answered : List ρ
  /-- Request contexts in use. -/
  busy : ρ → Bool
  arrived : φ → List ρ
  handed : φ → List ρ

inductive Action (φ τ ρ : Type) where
  | begin (file : φ) (r : ρ)
  | send
  | run (t : τ)
  | finish
  deriving DecidableEq

def start : State φ τ ρ :=
  { links := ⟨id,id⟩, isRunning := fun _ => false, sending := none, posted := [], thread := fun _ => .receive,
    answered := [], busy := fun _ => false, arrived := fun _ => [], handed := fun _ => [] }

variable [DecidableEq φ] [DecidableEq τ] [DecidableEq ρ]

/-- `storio_insert_pending_request_list`: whether the file has to be activated. -/
def insertPendingRequestList (file : φ) (r : ρ) (st : State φ τ ρ) : State φ τ ρ × Bool :=
  let links := (st.links.init (.request r)).pushBack (.pending file) (.request r)
  ({ st with links := links, isRunning := update st.isRunning file true },!st.isRunning file)

/-- `storio_serialization_begin` up to the message, for a request context that is not in use. -/
def serializationBegin (file : φ) (r : ρ) (st : State φ τ ρ) : State φ τ ρ :=
  let (next,need2activate) := insertPendingRequestList file r st
  { next with
    sending := if need2activate then some file else none
    busy := update st.busy r true
    arrived := update st.arrived file (st.arrived file ++ [r]) }

/-- The part of `storio_get_pending_request_list` that comes before the lock. -/
def getBeforeLock (t : τ) (file : φ) (st : State φ τ ρ) : State φ τ ρ :=
  let phase :=
    if st.links.isEmpty (.pending file) then
      if st.links.isEmpty (.batch t) then Phase.lock file false else .first file
    else .lock file true
  { st with thread := update st.thread t phase }

/-- The part of `storio_get_pending_request_list` that holds the lock: when it read an empty
list before, it reads the list once more. -/
def getLocked (t : τ) (file : φ) (someSeen : Bool) (st : State φ τ ρ) : State φ τ ρ :=
  if !someSeen && st.links.isEmpty (.pending file) then
    { st with isRunning := update st.isRunning file false, thread := update st.thread t .receive }
  else
    { st with links := st.links.moveNocheck (.batch t) (.pending file), thread := update st.thread t (.first file) }

/-- The head of `storio_disk_serial` and one turn of its loop, in parts. A first entry that is no
request has no meaning. -/
def diskSerial (t : τ) (st : State φ τ ρ) : Option (State φ τ ρ) :=
  match st.thread t with
  | .receive =>
    match st.posted with
    | [] => none
    | file :: rest =>
      some { st with links := st.links.init (.batch t), posted := rest, thread := update st.thread t (.get file) }
  | .get file => some (getBeforeLock t file st)
  | .lock file someSeen => some (getLocked t file someSeen st)
  | .first file =>
    match st.links.next (.batch t) with
    | .request r =>
      some { st with
        links := st.links.remove (.request r)
        thread := update st.thread t (.process file r)
        handed := update st.handed file (st.handed file ++ [r]) }
    | _ => none
  | .process file r =>
    some { st with answered := st.answered ++ [r], thread := update st.thread t (.get file) }

theorem diskSerial_get {st : State φ τ ρ} (works : st.thread t = .get file) :
    diskSerial t st = some (getBeforeLock t file st) := by
  simp only [diskSerial,works]

theorem diskSerial_lock {st : State φ τ ρ} (works : st.thread t = .lock file someSeen) :
    diskSerial t st = some (getLocked t file someSeen st) := by
  simp only [diskSerial,works]

theorem diskSerial_first {st : State φ τ ρ} (works : st.thread t = .first file)
    (next : st.links.next (.batch t) = .request r) :
    diskSerial t st = some { st with
      links := st.links.remove (.request r)
      thread := update st.thread t (.process file r)
      handed := update st.handed file (st.handed file ++ [r]) } := by
  simp only [diskSerial,works,next]

theorem diskSerial_process {st : State φ τ ρ} (works : st.thread t = .process file r) :
    diskSerial t st = some { st with answered := st.answered ++ [r], thread := update st.thread t (.get file) } := by
  simp only [diskSerial,works]

/-- `storio_serialization_end`, after which the request context is released. -/
def serializationEnd (r : ρ) (st : State φ τ ρ) : State φ τ ρ :=
  { st with links := st.links.remove (.request r), busy := update st.busy r false }

def step : Action φ τ ρ → State φ τ ρ → Option (State φ τ ρ)
  | .begin file r, st => if st.sending = none ∧ st.busy r = false then some (serializationBegin file r st) else none
  | .send, st =>
    match st.sending with
    | none => none
    | some file => some { st with sending := none, posted := st.posted ++ [file] }
  | .run t, st => diskSerial t st
  | .finish, st =>
    match st.sending, st.answered with
    | none, r :: rest => some (serializationEnd r { st with answered := rest })
    | _, _ => none

end Model

/-- Where a request context is. -/
inductive Place (φ τ : Type) where
  | free
  | waiting (file : φ)
  | batch (t : τ)
  | processed (t : τ)
  | answered
  deriving DecidableEq

/-- The lists as lists of requests, with the place of each request. -/
structure View (φ τ ρ : Type) where
  waiting : φ → List ρ
  batch : τ → List ρ
  place : ρ → Place φ τ

section Lists
variable {φ τ ρ : Type} {v : View φ τ ρ} {links links' : Links (Node φ τ ρ)}

/-- The list an element belongs to; requests that are in none go by their place. -/
def View.zone (v : View φ τ ρ) : Node φ τ ρ → Place φ τ
  | .pending file => .waiting file
  | .batch t => .batch t
  | .request r => v.place r

/-- The links are those of the lists of the view. -/
structure Linking (v : View φ τ ρ) (links : Links (Node φ τ ρ)) : Prop where
  waitingRing : ∀ file, Ring links (.pending file) ((v.waiting file).map .request)
  batchRing : ∀ t, Ring links (.batch t) ((v.batch t).map .request)
  alone : ∀ r, v.place r = .answered ∨ (∃ t, v.place r = .processed t) → Ring links (.request r) []
  placeWaiting : ∀ r file, r ∈ v.waiting file ↔ v.place r = .waiting file
  placeBatch : ∀ r t, r ∈ v.batch t ↔ v.place r = .batch t

theorem Linking.zone_waiting (linking : Linking v links) (n : Node φ τ ρ) (file : φ) :
    n ∈ .pending file :: (v.waiting file).map .request ↔ v.zone n = .waiting file := by
  cases n with
  | pending other => simp [View.zone]
  | batch t => simp [View.zone]
  | request r => simp [View.zone,linking.placeWaiting]

theorem Linking.zone_batch (linking : Linking v links) (n : Node φ τ ρ) (t : τ) :
    n ∈ .batch t :: (v.batch t).map .request ↔ v.zone n = .batch t := by
  cases n with
  | pending other => simp [View.zone]
  | batch t => simp [View.zone]
  | request r => simp [View.zone,linking.placeBatch]

/-- Lists in which no link changed. -/
theorem Linking.waiting_frame (linking : Linking v links) (file : φ)
    (same : ∀ n, v.zone n = .waiting file → CircularList.Same links links' n) :
    Ring links' (.pending file) ((v.waiting file).map .request) :=
  (linking.waitingRing file).frame fun n member => same n ((linking.zone_waiting n file).mp member)

theorem Linking.batch_frame (linking : Linking v links) (t : τ)
    (same : ∀ n, v.zone n = .batch t → CircularList.Same links links' n) :
    Ring links' (.batch t) ((v.batch t).map .request) :=
  (linking.batchRing t).frame fun n member => same n ((linking.zone_batch n t).mp member)

theorem Linking.alone_frame (linking : Linking v links) (r : ρ)
    (apart : v.place r = .answered ∨ ∃ t, v.place r = .processed t)
    (same : CircularList.Same links links' (.request r)) : Ring links' (.request r) [] :=
  (linking.alone r apart).frame fun n member => by
    cases List.mem_singleton.mp member
    exact same

variable [DecidableEq ρ]

/-- A request that is in no list changes its place. -/
theorem Linking.relabel (linking : Linking v links) (r : ρ) (place : Place φ τ)
    (apart : v.place r = .answered ∨ ∃ t, v.place r = .processed t) (target : place = .answered ∨ place = .free) :
    Linking { v with place := update v.place r place } links := by
  refine { linking with alone := ?_, placeWaiting := ?_, placeBatch := ?_ }
  · intro x moved
    by_cases eq : x = r
    · exact eq ▸ linking.alone r apart
    · exact linking.alone x (by simpa [eq] using moved)
  · intro x file
    have placed := linking.placeWaiting x file
    by_cases eq : x = r
    · subst eq
      rcases apart with done | ⟨t,done⟩ <;> rcases target with rfl | rfl <;> simp [placed,done]
    · simp [eq,placed]
  · intro x t
    have placed := linking.placeBatch x t
    by_cases eq : x = r
    · subst eq
      rcases apart with done | ⟨t,done⟩ <;> rcases target with rfl | rfl <;> simp [placed,done]
    · simp [eq,placed]

variable [DecidableEq φ] [DecidableEq τ]

/-- A free request enters the list of a file. -/
theorem Linking.enqueue (linking : Linking v links) (file : φ) (r : ρ) (free : v.place r = .free) :
    Linking { v with
        waiting := update v.waiting file (v.waiting file ++ [r])
        place := update v.place r (.waiting file) }
      ((links.init (.request r)).pushBack (.pending file) (.request r)) := by
  have begun : ∀ n, v.zone n ≠ .free → CircularList.Same links (links.init (.request r)) n := fun n away =>
    CircularList.init_same fun eq => away (eq ▸ free)
  have target := linking.waiting_frame file fun n inside => begun n (by simp [inside])
  have fresh : Node.request r ∉ (Node.pending file :: (v.waiting file).map .request : List (Node φ τ ρ)) := by
    simp [linking.placeWaiting,free]
  have same : ∀ n, v.zone n ≠ .free → v.zone n ≠ .waiting file →
      CircularList.Same links ((links.init (.request r)).pushBack (.pending file) (.request r)) n := by
    intro n notFree away
    have other : n ≠ .request r := by
      rintro rfl
      exact notFree free
    have pushed := CircularList.pushBack_same target other (mt (linking.zone_waiting n file).mp away)
    exact ⟨pushed.1.trans (begun n notFree).1,pushed.2.trans (begun n notFree).2⟩
  constructor
  · intro other
    by_cases eq : other = file
    · subst eq
      simpa using target.pushBack fresh
    · simp only [update,eq,dite_false]
      exact linking.waiting_frame other fun n inside => same n (by simp [inside]) (by simpa [inside] using eq)
  · exact fun t => linking.batch_frame t fun n inside => same n (by simp [inside]) (by simp [inside])
  · intro x apart
    by_cases eq : x = r
    · simp [eq] at apart
    · simp only [update,eq,dite_false] at apart
      refine linking.alone_frame x apart (same _ ?_ ?_)
      · rcases apart with done | ⟨t,done⟩ <;> simp [View.zone,done]
      · rcases apart with done | ⟨t,done⟩ <;> simp [View.zone,done]
  · intro x other
    have placed := linking.placeWaiting x other
    by_cases eq : x = r
    · subst eq
      by_cases here : other = file
      · simp [here]
      · simp [here,placed,free,Ne.symm here]
    · by_cases here : other = file
      · subst here
        simp [eq,placed]
      · simp [eq,here,placed]
  · intro x t
    have placed := linking.placeBatch x t
    by_cases eq : x = r
    · subst eq
      simp [placed,free]
    · simp [eq,placed]

/-- The whole list of a file goes to the list of a disk thread. -/
theorem Linking.move (linking : Linking v links) (file : φ) (t : τ) (some : v.waiting file ≠ []) :
    Linking { v with
        waiting := update v.waiting file []
        batch := update v.batch t (v.batch t ++ v.waiting file)
        place := fun r => if v.place r = .waiting file then .batch t else v.place r }
      (links.moveNocheck (.batch t) (.pending file)) := by
  obtain ⟨r,rest,list⟩ := List.exists_cons_of_ne_nil some
  have source := linking.waitingRing file
  have target := linking.batchRing t
  have apart : List.Disjoint (Node.batch t :: (v.batch t).map .request : List (Node φ τ ρ))
      (.pending file :: (v.waiting file).map .request) := by
    intro n front back
    cases ((linking.zone_batch n t).mp front).symm.trans ((linking.zone_waiting n file).mp back)
  have same : ∀ n, v.zone n ≠ .batch t → v.zone n ≠ .waiting file →
      CircularList.Same links (links.moveNocheck (.batch t) (.pending file)) n := by
    intro n notTarget notSource
    have outside := mt (linking.zone_waiting n file).mp notSource
    rw [list] at source apart outside
    exact CircularList.moveNocheck_same target source apart (mt (linking.zone_batch n t).mp notTarget) outside
  constructor
  · intro other
    by_cases eq : other = file
    · subst eq
      rw [list] at source apart
      simpa using CircularList.ring_moveNocheck_source target source apart
    · simp only [update,eq,dite_false]
      exact linking.waiting_frame other fun n inside => same n (by simp [inside]) (by simpa [inside] using eq)
  · intro other
    by_cases eq : other = t
    · subst eq
      rw [list] at source apart
      simpa [list] using target.moveNocheck source apart
    · simp only [update,eq,dite_false]
      exact linking.batch_frame other fun n inside => same n (by simpa [inside] using eq) (by simp [inside])
  · intro x apart
    by_cases eq : v.place x = .waiting file
    · simp [eq] at apart
    · simp only [eq,if_false] at apart
      refine linking.alone_frame x apart (same _ ?_ eq)
      rcases apart with done | ⟨t,done⟩ <;> simp [View.zone,done]
  · intro x other
    have placed := linking.placeWaiting x other
    by_cases eq : v.place x = .waiting file
    · by_cases here : other = file
      · simp [eq,here]
      · simp [eq,here,placed,Ne.symm here]
    · by_cases here : other = file
      · simp [eq,here]
      · simp [eq,here,placed]
  · intro x other
    have placed := linking.placeBatch x other
    have moved := linking.placeWaiting x file
    by_cases eq : v.place x = .waiting file
    · by_cases here : other = t
      · subst here
        simp [eq,moved]
      · simp [eq,here,placed,Ne.symm here]
    · by_cases here : other = t
      · subst here
        simp [eq,placed,moved]
      · simp [eq,here,placed]

/-- A disk thread takes the first request of its list. -/
theorem Linking.take (linking : Linking v links) (t : τ) (list : v.batch t = r :: rest) :
    Linking { v with batch := update v.batch t rest, place := update v.place r (.processed t) }
      (links.remove (.request r)) := by
  have here : v.place r = .batch t := (linking.placeBatch r t).mp (by simp [list])
  have ring := linking.batchRing t
  have unique : r ∉ rest := by
    have nodup := (List.nodup_cons.mp ring.nodup).2
    rw [list] at nodup
    have fresh := (List.nodup_cons.mp nodup).1
    simpa using fresh
  have same : ∀ n, v.zone n ≠ .batch t → CircularList.Same links (links.remove (.request r)) n := by
    intro n away
    have outside := mt (linking.zone_batch n t).mp away
    rw [list] at ring outside
    exact CircularList.remove_same ring outside
  constructor
  · exact fun file => linking.waiting_frame file fun n inside => same n (by simp [inside])
  · intro other
    by_cases eq : other = t
    · subst eq
      rw [list] at ring
      simpa using ring.removeFirst
    · simp only [update,eq,dite_false]
      exact linking.batch_frame other fun n inside => same n (by simpa [inside] using eq)
  · intro x apart
    by_cases eq : x = r
    · subst eq
      rw [list] at ring
      exact ring.removed
    · simp only [update,eq,dite_false] at apart
      refine linking.alone_frame x apart (same _ ?_)
      rcases apart with done | ⟨t,done⟩ <;> simp [View.zone,done]
  · intro x file
    have placed := linking.placeWaiting x file
    by_cases eq : x = r
    · subst eq
      simp [placed,here]
    · simp [eq,placed]
  · intro x other
    have placed := linking.placeBatch x other
    by_cases eq : x = r
    · subst eq
      by_cases own : other = t
      · subst own
        simp [unique]
      · simp [own,placed,here,Ne.symm own]
    · by_cases own : other = t
      · subst own
        simpa [eq,list] using placed
      · simp [eq,own,placed]

/-- A disk thread starts with an empty list. -/
theorem Linking.initBatch (linking : Linking v links) (t : τ) (none : v.batch t = []) :
    Linking v (links.init (.batch t)) := by
  have same : ∀ n, v.zone n ≠ .batch t → CircularList.Same links (links.init (.batch t)) n := fun n away =>
    CircularList.init_same fun eq => away (eq ▸ rfl)
  refine { linking with waitingRing := ?_, batchRing := ?_, alone := ?_ }
  · exact fun file => linking.waiting_frame file fun n inside => same n (by simp [inside])
  · intro other
    by_cases eq : other = t
    · subst eq
      rw [none]
      exact CircularList.ring_init _ _
    · exact linking.batch_frame other fun n inside => same n (by simpa [inside] using eq)
  · intro x apart
    refine linking.alone_frame x apart (same _ ?_)
    rcases apart with done | ⟨t,done⟩ <;> simp [View.zone,done]

end Lists

end Rozofs.StorioSerialization
