import Rozofs.Machine
import Rozofs.SlotLists
import Mathlib.Algebra.Order.Ring.Int

/-! The timer wheel of `ruc_timer.c`. Timers are on the lists of the slots of a wheel, and the
callbacks of a tick edit the lists while they are scanned. -/
namespace Rozofs.TimerWheel
open Function (update)
open SlotLists (Links)

/-- `ruc_timer_init`: the size of the wheel is a power of two of at least 2, the system tick is not
0, and memory holds a number of timers. -/
structure Config where
  slotSize2n : Nat
  systemTick : Nat
  timers : Nat
  wide : 0 < slotSize2n
  running : 0 < systemTick

def Config.slotSize (c : Config) : Nat := 2 ^ c.slotSize2n

def Config.slotSizeMask (c : Config) : Nat := c.slotSize - 1

/-- `X_NIL`, the slot of a timer that is on no list. -/
def xNil : Nat := 0x7fff

/-- `struct timer_cell`, less its links. -/
structure Cell where
  toModNb : Nat
  xHead : Nat
  periodFlag : Bool
  toVal : BitVec 64

structure Wheel where
  links : Links Nat
  cell : Nat → Cell
  headFirst : Nat → Option Nat
  handClock : Nat
  modulo : Nat
  curCellToDelete : Option Nat
  curCellProcess : Option Nat
  pCellNew : Option Nat

variable (c : Config)

/-- The delay of a time-out value in ticks. -/
def delta (toVal : BitVec 64) : Nat :=
  if toVal.toNat / c.systemTick = 0 then 1 else toVal.toNat / c.systemTick

/-- `timer_insert`. A long delay is a slot and a number of laps. -/
def Wheel.timerInsert (w : Wheel) (t : Nat) (toVal : BitVec 64) : Wheel :=
  let delta := delta c toVal
  let x := if delta > c.slotSize then w.handClock + (delta &&& c.slotSizeMask) else w.handClock + delta
  let nb := if delta > c.slotSize then delta >>> c.slotSize2n else 0
  let x := x &&& c.slotSizeMask
  { w with
    cell := update w.cell t { w.cell t with xHead := x, toModNb := nb % 2 ^ 32 }
    links := w.links.push (w.headFirst x) t
    headFirst := update w.headFirst x (some t) }

/-- `ruc_timer_stop`. The scan of a tick goes on after a timer that is stopped. -/
def Wheel.timerStop (w : Wheel) (t : Nat) : Wheel :=
  if (w.cell t).xHead = xNil then w
  else
    { w with
      pCellNew := if w.pCellNew = some t then w.links.next t else w.pCellNew
      headFirst := if w.links.prior t = none then update w.headFirst (w.cell t).xHead (w.links.next t) else w.headFirst
      links := w.links.remove t
      cell := update w.cell t { w.cell t with xHead := xNil } }

def Wheel.setCell (w : Wheel) (t : Nat) (periodFlag : Bool) (toVal : BitVec 64) : Wheel :=
  { w with cell := update w.cell t { w.cell t with periodFlag := periodFlag, toVal := toVal } }

/-- `ruc_timer_start`. -/
def Wheel.timerStart (w : Wheel) (t : Nat) (toVal : BitVec 64) : Wheel :=
  ((w.timerStop t).setCell t false toVal).timerInsert c t toVal

/-- The first time-out value of a periodic timer. -/
def Wheel.toValInit (w : Wheel) (toVal : BitVec 64) : BitVec 64 :=
  toVal + BitVec.ofNat 64 (c.systemTick * ((w.modulo + 1) % 20) % 2 ^ 32)

/-- `ruc_periodic_timer_start`. -/
def Wheel.periodicTimerStart (w : Wheel) (t : Nat) (toVal : BitVec 64) : Wheel :=
  let w := (w.timerStop t).setCell t true toVal
  { w with modulo := (w.modulo + 1) % 20 }.timerInsert c t (w.toValInit c toVal)

/-- `ruc_timer_free`. The timer whose callback runs is released after it. -/
def Wheel.timerFree (w : Wheel) (t : Nat) : Wheel :=
  let w := w.timerStop t
  if w.curCellProcess = some t then { w with curCellToDelete := some t } else w

/-- `ruc_timer_alloc`, which gives the cell `t`. -/
def Wheel.timerAlloc (w : Wheel) (t : Nat) : Wheel :=
  { w with
    links := (w.links.setNext t none).setPrior t none
    cell := update w.cell t { w.cell t with xHead := xNil } }

/-- A callback was called at a tick, when this deadline was due. -/
structure Fire where
  timer : Nat
  tick : Nat
  due : Option Nat
  deriving DecidableEq

/-- The wheel, the timers that the application holds, and what is expected of them: the tick at
which a timer is due and its period. -/
structure State where
  wheel : Wheel
  owned : Nat → Bool
  tick : Nat
  due : Nat → Option Nat
  every : Nat → Option Nat
  fires : List Fire

/-- The calls of an application. -/
inductive Op where
  | alloc (t : Nat)
  | start (t : Nat) (toVal : BitVec 64)
  | periodicStart (t : Nat) (toVal : BitVec 64)
  | stop (t : Nat)
  | free (t : Nat)

/-- The ticks after which a timer inserted with a delay expires on this wheel. It is the delay
itself unless it is a multiple of the size that has more than one lap, or has 2^32 laps. -/
def expiry (d : Nat) : Nat :=
  if d > c.slotSize then (if d % c.slotSize = 0 then c.slotSize else d % c.slotSize) + d / c.slotSize % 2 ^ 32 * c.slotSize else d

/-- A call, and what it makes due. An application uses the timers it holds only, and the memory of
a timer that waits for its release is not given again. The first expiry of a periodic timer is the
one that its first insertion gives. -/
def State.perform (s : State) : Op → State
  | .alloc t =>
    if t < c.timers ∧ s.owned t = false ∧ s.wheel.curCellToDelete ≠ some t then
      { s with wheel := s.wheel.timerAlloc t, owned := update s.owned t true }
    else s
  | .start t toVal =>
    if s.owned t then
      { s with wheel := s.wheel.timerStart c t toVal, due := update s.due t (some (s.tick + delta c toVal)), every := update s.every t none }
    else s
  | .periodicStart t toVal =>
    if s.owned t then
      { s with
        wheel := s.wheel.periodicTimerStart c t toVal
        due := update s.due t (some (s.tick + expiry c (delta c (s.wheel.toValInit c toVal))))
        every := update s.every t (some (delta c toVal)) }
    else s
  | .stop t =>
    if s.owned t then { s with wheel := s.wheel.timerStop t, due := update s.due t none } else s
  | .free t =>
    if s.owned t then
      { s with wheel := s.wheel.timerFree t, due := update s.due t none, owned := update s.owned t false }
    else s

/-- The callback of a timer is called. A periodic timer is due again after its period. -/
def State.fire (s : State) (t : Nat) : State :=
  { s with
    wheel := { s.wheel with curCellProcess := some t, curCellToDelete := none }
    fires := s.fires ++ [⟨t,s.tick,s.due t⟩]
    due := update s.due t ((s.every t).map (s.tick + ·)) }

/-- The end of a callback: a timer is released, or a periodic timer is inserted again. -/
def State.finish (s : State) (t : Nat) : State :=
  let w := s.wheel
  let w := if w.curCellToDelete.isSome then { w with curCellToDelete := none }
    else if (w.cell t).periodFlag then w.timerInsert c t (w.cell t).toVal else w
  { s with wheel := { w with curCellProcess := none } }

/-- The scan of the list of a slot by `ruc_timer_process`, where `script` has the calls that each
callback makes; none when the list does not end. -/
def State.scan (script : Nat → List Op) : Nat → Option Nat → State → Option State
  | 0, pCell, s => if pCell = none then some s else none
  | fuel + 1, pCell, s =>
    match pCell with
    | none => some s
    | some t =>
      let s := { s with wheel := { s.wheel with pCellNew := s.wheel.links.next t } }
      if (s.wheel.cell t).toModNb = 0 then
        let s := { s with wheel := s.wheel.timerStop t }.fire t
        let s := ((script t).foldl (State.perform c) s).finish c t
        scan script fuel s.wheel.pCellNew s
      else
        let cell := update s.wheel.cell t { s.wheel.cell t with toModNb := (s.wheel.cell t).toModNb - 1 }
        let s := { s with wheel := { s.wheel with cell := cell } }
        scan script fuel s.wheel.pCellNew s

/-- `ruc_timer_process`. -/
def State.process (script : Nat → List Op) (s : State) : Option State :=
  let hand := if s.wheel.handClock + 1 = c.slotSize then 0 else s.wheel.handClock + 1
  let w := { s.wheel with curCellToDelete := none, curCellProcess := none, pCellNew := none, handClock := hand }
  let s := { s with wheel := w, tick := s.tick + 1 }
  (s.scan c script (c.timers + 1) (w.headFirst hand)).map fun s => { s with wheel := { s.wheel with pCellNew := none } }

inductive Action where
  | op (op : Op)
  | tick (script : Nat → List Op)

def step : Action → State → Option State
  | .op op, s => some (s.perform c op)
  | .tick script, s => s.process c script

/-- No timer at first. -/
def initial : State :=
  ⟨⟨⟨fun _ => none,fun _ => none⟩,fun _ => ⟨0,xNil,false,0⟩,fun _ => none,0,0,none,none,none⟩,fun _ => false,0,
    fun _ => none,fun _ => none,[]⟩

end Rozofs.TimerWheel
