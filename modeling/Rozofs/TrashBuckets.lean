import Rozofs.Machine
import Rozofs.CircularList

/-! The trash of an export, `export_rm_bins` of `export_tracking.c`. Files to delete wait in buckets,
and trash threads ask the storages to remove their projection files. -/
namespace Rozofs.Trash
open Function (update)
open CircularList (Links)

/-- The heads of the lists: the buckets, and the working lists of the trash threads. -/
inductive Head where
  | bucket (i : Nat)
  | todo (thread : Nat)
  | failed (thread : Nat)
  deriving DecidableEq

inductive Node where
  | head (h : Head)
  | entry (n : Nat)
  deriving DecidableEq

/-- `rmfentry_t`; a storage of `currentDistSet` is 0 once its projection file is removed. -/
structure Entry where
  cid : Nat
  currentDistSet : Nat → Nat
  time : Nat

/-- Where a trash thread is in a pass. -/
inductive Point where
  | buckets
  | scan (bucket : Nat) (p n : Node)
  | out (bucket : Nat)
  deriving DecidableEq

/-- The variables of `export_rm_bins` and `export_rm_bucket`. `connexions` gives the client of a
storage, and `status` tells the clients that are up. -/
structure Pass where
  cnxInit : Bool
  connexions : Nat → Nat → Option Nat
  status : Nat → Bool
  processedFiles : Nat
  firstBucketIdx : Nat
  idx : Nat
  now : Nat
  point : Point

/-- The slices, the safe storages of the layout, and the client of each storage of the volume. -/
structure Config where
  sliceNumber : Nat
  safe : Nat
  client : Nat → Nat → Option Nat

/-- The lists and the entries, the threads that run a pass, and the record of what has happened:
the entries put in the trash with their distribution, the removals that were acknowledged, and the
entries that are finished. -/
structure State where
  links : Links Node
  entry : Nat → Entry
  pass : Nat → Option Pass
  trashed : Nat → Option (Nat → Nat)
  acknowledged : Nat → Nat → Bool
  finished : Nat → Bool

variable (c : Config)

/-- What the environment does in the step of an entry: the result of the connection set-up and the
clients that are up after it, the removals that succeed, and the limit on files. -/
structure Outcome where
  setup : Option (Nat → Nat → Option Nat)
  status : Nat → Bool
  removed : Nat → Bool
  limitRmFiles : Nat

/-- The storages of an entry one after the other: `sid_count`, the entry, the clients that are up and
the removals that were acknowledged. -/
structure Removal where
  sidCount : Nat
  distSet : Nat → Nat
  status : Nat → Bool
  acknowledged : Nat → Bool

/-- One turn of the loop over the storages of an entry. -/
def Removal.storage (r : Removal) (connexions : Nat → Nat → Option Nat) (removed : Nat → Bool) (cid i : Nat) : Removal :=
  if r.distSet i = 0 then { r with sidCount := r.sidCount + 1 }
  else
    match connexions cid (r.distSet i) with
    | none => { r with sidCount := r.sidCount + 1 }
    | some stor =>
      if r.status stor = false then r
      else if removed i = false then { r with status := update r.status stor false }
      else
        { r with
          sidCount := r.sidCount + 1
          distSet := update r.distSet i 0
          acknowledged := update r.acknowledged i true }

def Removal.storages (r : Removal) (connexions : Nat → Nat → Option Nat) (removed : Nat → Bool) (cid safe : Nat) : Removal :=
  (List.range safe).foldl (fun r i => r.storage connexions removed cid i) r

def State.setPass (s : State) (thread : Nat) (pass : Pass) : State := { s with pass := update s.pass thread (some pass) }

/-- The next entry of the working list. -/
def State.advance (s : State) (thread bucket : Nat) (pass : Pass) (n : Node) : State :=
  s.setPass thread { pass with point := .scan bucket n (s.links.next n) }

/-- The body of the loop over the entries of a bucket. An entry is finished when all its storages
count as removed, else it goes to the failed list. -/
def State.scanEntry (s : State) (thread bucket : Nat) (pass : Pass) (id : Nat) (n : Node) (o : Outcome) : State :=
  let s := { s with links := s.links.remove (.entry id) }
  let entry := s.entry id
  if entry.time ≠ 0 ∧ entry.time ≥ pass.now then
    { s with links := s.links.pushBack (.head (.failed thread)) (.entry id) }.advance thread bucket pass n
  else
    -- the connections are set up once for a pass
    let ready := if pass.cnxInit then (pass,true)
      else match o.setup with
        | none => ({ pass with cnxInit := true, connexions := c.client, status := o.status },true)
        | some connexions => ({ pass with cnxInit := true, connexions := connexions, status := o.status },false)
    let pass := ready.1
    if ready.2 = false then s.setPass thread { pass with point := .out bucket }
    else
      let r := Removal.storages ⟨0,entry.currentDistSet,pass.status,s.acknowledged id⟩ pass.connexions o.removed entry.cid c.safe
      let pass := { pass with status := r.status, processedFiles := pass.processedFiles + 1 }
      let s := { s with entry := update s.entry id { entry with currentDistSet := r.distSet }, acknowledged := update s.acknowledged id r.acknowledged }
      let s := if r.sidCount = c.safe then { s with finished := update s.finished id true }
        else { s with links := s.links.pushBack (.head (.failed thread)) (.entry id) }
      if pass.processedFiles ≥ o.limitRmFiles then s.setPass thread { pass with point := .out bucket }
      else s.advance thread bucket pass n

/-- The end of `export_rm_bucket`: what is left goes back to the bucket, after the entries that came
in between. -/
def State.pushBackAll (s : State) (thread bucket : Nat) : State :=
  if s.links.isEmpty (.head (.todo thread)) ∧ s.links.isEmpty (.head (.failed thread)) then s
  else
    let l := s.links.move (.head (.todo thread)) (.head (.bucket bucket))
    let l := l.move (.head (.todo thread)) (.head (.failed thread))
    { s with links := l.move (.head (.bucket bucket)) (.head (.todo thread)) }

inductive Action where
  | insert (id bucket : Nat) (front : Bool) (entry : Entry)
  | begin (thread firstBucketIdx : Nat)
  | bucket (thread now : Nat)
  | scan (thread : Nat) (o : Outcome)
  | leave (thread limitRmFiles : Nat)

/-- The steps of the threads. An insertion and the moves of a bucket are made under the lock of the
bucket. -/
def step : Action → State → Option State
  | .insert id bucket front entry, s =>
    if s.trashed id = none then
      let links := s.links.init (.entry id)
      some { s with
        links := if front then links.pushFront (.head (.bucket bucket)) (.entry id) else links.pushBack (.head (.bucket bucket)) (.entry id)
        entry := update s.entry id entry
        trashed := update s.trashed id (some entry.currentDistSet)
        acknowledged := update s.acknowledged id fun _ => false }
    else none
  | .begin thread firstBucketIdx, s =>
    match s.pass thread with
    | none => some (s.setPass thread ⟨false,fun _ _ => none,fun _ => false,0,firstBucketIdx,1,0,.buckets⟩)
    | some _ => none
  | .bucket thread now, s =>
    match s.pass thread with
    | some pass =>
      if pass.point = .buckets then
        if pass.idx ≤ c.sliceNumber then
          let bucket := (pass.idx + pass.firstBucketIdx) % c.sliceNumber
          if s.links.isEmpty (.head (.bucket bucket)) then some (s.setPass thread { pass with idx := pass.idx + 1 })
          else
            let links := (s.links.init (.head (.todo thread))).init (.head (.failed thread))
            let links := links.move (.head (.todo thread)) (.head (.bucket bucket))
            let first := links.next (.head (.todo thread))
            some ({ s with links := links }.setPass thread { pass with now := now, point := .scan bucket first (links.next first) })
        else some { s with pass := update s.pass thread none }
      else none
    | none => none
  | .scan thread o, s =>
    match s.pass thread with
    | some pass =>
      match pass.point with
      | .scan bucket p n =>
        match p with
        | .entry id => some (s.scanEntry c thread bucket pass id n o)
        | .head _ => some (s.setPass thread { pass with point := .out bucket })
      | _ => none
    | none => none
  | .leave thread limitRmFiles, s =>
    match s.pass thread with
    | some pass =>
      match pass.point with
      | .out bucket =>
        let s := s.pushBackAll thread bucket
        if pass.processedFiles ≥ limitRmFiles then some { s with pass := update s.pass thread none }
        else some (s.setPass thread { pass with idx := pass.idx + 1, point := .buckets })
      | _ => none
    | none => none

/-- An empty trash. -/
def initial : State :=
  ⟨⟨id,id⟩,fun _ => ⟨0,fun _ => 0,0⟩,fun _ => none,fun _ => none,fun _ _ => false,fun _ => false⟩

end Rozofs.Trash
