import Rozofs.StreamFraming

/-! The transmitter of a stream socket, `af_unix_socket_stream_send.c`, and the connection between two
processes: the bytes that the socket of one takes are those that the receiver of the other one gets.
A buffer is a reference, whose payload does not change while it is queued or sent. -/
namespace Rozofs.Stream

/-- The states of the transmitter. -/
inductive XmitState where
  | idle
  | ready
  | inPrg
  | checkXmitq
  | congested
  | dead
  deriving DecidableEq

/-- `com_xmit_template_t`. One priority is used. The counters are lengths within a buffer. -/
structure Xmit (β : Type) where
  state : XmitState
  congestedFlag : Bool
  nbWrite : Nat
  nb2Write : Nat
  bufRefCurrent : Option β
  xmitList : List β

/-- A connection of two processes. `calling` while the loop of the transmitter runs. The input of the
receiver is what was sent and not received yet. `accepted` are the buffers that the transmitter took,
`sent` those that it sent whole, and `lost` counts those that were withdrawn or thrown away. -/
structure Channel (β : Type) where
  xmit : Xmit β
  calling : Bool
  conn : Conn
  accepted : List β
  sent : List β
  lost : Nat

/-- What the socket answers to a request to send. -/
inductive SendAnswer where
  | bytes (n : Nat)
  | wouldBlock
  | error

/-- `RUC_OK`, `RUC_PARTIAL`, `RUC_WOULDBLOCK` or `RUC_DISC`. -/
inductive SendStatus where
  | ok
  | part (n : Nat)
  | wouldBlock
  | disc

/-- `af_unix_send_stream_generic`: nothing is sent for a request without length, which looks like a
socket whose other end is dead. -/
def sendStreamGeneric (lgth : Nat) : SendAnswer → Option SendStatus
  | .bytes n =>
    if lgth = 0 then some .disc
    else if 0 < n ∧ n ≤ lgth then some (if n = lgth then .ok else .part n)
    else none
  | .wouldBlock => some (if lgth = 0 then .disc else .wouldBlock)
  | .error => some .disc

variable {β : Type} (payload : β → List (BitVec 8))

/-- Bytes are on their way. -/
def Conn.arrive (c : Conn) (bytes : List (BitVec 8)) : Conn := { c with input := c.input ++ bytes }

/-- `af_unix_sock_stream_disconnect_internal`, for the transmitter: the buffers are given back. -/
def Channel.disconnect (c : Channel β) : Channel β :=
  { c with
    xmit := { c.xmit with state := .dead, congestedFlag := false, bufRefCurrent := none, xmitList := [] }
    calling := false
    lost := c.lost + (c.xmit.bufRefCurrent.toList ++ c.xmit.xmitList).length }

/-- The loop of `af_unix_send_stream_fsm`. -/
def fsmTurn (answer : SendAnswer) (c : Channel β) : Option (Channel β) :=
  let x := c.xmit
  match x.state with
  | .ready =>
    match x.bufRefCurrent with
    | some buf => some { c with xmit := { x with nbWrite := 0, nb2Write := (payload buf).length, state := .inPrg } }
    | none => some { c with calling := false }
  | .inPrg =>
    match x.bufRefCurrent with
    -- there is no payload to send from
    | none => none
    | some buf =>
      let rest := (payload buf).drop x.nbWrite
      match sendStreamGeneric (x.nb2Write - x.nbWrite) answer with
      | none => none
      | some .ok =>
        some { c with
          xmit := { x with bufRefCurrent := none, nbWrite := 0, nb2Write := 0, state := .checkXmitq }
          conn := c.conn.arrive (rest.take (x.nb2Write - x.nbWrite))
          sent := c.sent ++ [buf] }
      | some (.part n) => some { c with xmit := { x with nbWrite := x.nbWrite + n }, conn := c.conn.arrive (rest.take n) }
      | some .wouldBlock => some { c with xmit := { x with congestedFlag := true, state := .congested }, calling := false }
      | some .disc => some c.disconnect
  | .checkXmitq =>
    match x.bufRefCurrent,x.xmitList with
    | some _,_ => some { c with xmit := { x with state := .inPrg } }
    | none,[] => some { c with xmit := { x with state := .ready }, calling := false }
    | none,buf :: queue => some { c with xmit := { x with bufRefCurrent := some buf, xmitList := queue, state := .ready } }
  | .congested => some { c with xmit := { x with congestedFlag := false, state := .inPrg } }
  | .idle => none
  | .dead => some { c with calling := false }

/-- `af_unix_generic_stream_send`, up to the call of `af_unix_send_stream_fsm`. -/
def genericStreamSend (c : Channel β) (buf : β) : Int × Channel β :=
  match c.xmit.state with
  | .ready => (0,{ c with xmit := { c.xmit with bufRefCurrent := some buf }, calling := true, accepted := c.accepted ++ [buf] })
  | .inPrg => (0,{ c with xmit := { c.xmit with xmitList := c.xmit.xmitList ++ [buf] }, accepted := c.accepted ++ [buf] })
  | .checkXmitq => (0,{ c with xmit := { c.xmit with xmitList := c.xmit.xmitList ++ [buf] }, accepted := c.accepted ++ [buf] })
  | .congested => (0,{ c with xmit := { c.xmit with xmitList := c.xmit.xmitList ++ [buf] }, accepted := c.accepted ++ [buf] })
  | .idle => (-1,c)
  | .dead => (-1,c)

/-- The events of a connection. -/
inductive Event (β : Type) where
  /-- A buffer is sent. -/
  | send (buf : β)
  /-- The buffer at a place of the queue is withdrawn: its transaction is over. -/
  | withdraw (place : Nat)
  /-- The socket controller calls the transmitter after a congestion. -/
  | xmitEvt
  /-- A turn of the loop of the transmitter. -/
  | xmit (answer : SendAnswer)
  /-- The process of the transmitter finds the connection closed. -/
  | disconnect
  /-- The receiver. -/
  | recv (action : Action)

/-- Another function of the process can run: the loop of the transmitter does not, or it calls
`userXmitDoneCallBack` for the buffer that it sent. -/
def Channel.Idle (c : Channel β) : Prop := c.calling = false ∨ c.xmit.state = .inPrg

instance (c : Channel β) : Decidable c.Idle := inferInstanceAs (Decidable (_ ∨ _))

/-- A step of one of the processes. -/
def Channel.step (cfg : Config) : Event β → Channel β → Option (Channel β)
  | .send buf,c => if c.Idle then some (genericStreamSend c buf).2 else none
  | .withdraw place,c =>
    if c.Idle ∧ place < c.xmit.xmitList.length then
      some { c with xmit := { c.xmit with xmitList := c.xmit.xmitList.eraseIdx place }, lost := c.lost + 1 }
    else none
  | .xmitEvt,c => if c.calling = false ∧ c.xmit.congestedFlag then some { c with calling := true } else none
  | .xmit answer,c => if c.calling then fsmTurn payload answer c else none
  | .disconnect,c => if c.calling = false then some c.disconnect else none
  | .recv action,c => (Stream.step (rpcTurn cfg) cfg action c.conn).map fun conn => { c with conn := conn }

/-- The connection is established. -/
def connected : Channel β := ⟨⟨.ready,false,0,0,none,[]⟩,false,opened [],[],[],0⟩

end Rozofs.Stream
