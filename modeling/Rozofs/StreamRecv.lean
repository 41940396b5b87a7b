import Rozofs.Machine
import Mathlib.Algebra.Order.Ring.Int

/-! The receivers of a stream socket, `af_unix_socket_stream_recv.c`: messages with one header, and
RPC messages, which are made of records. A receiver is called for each event on its socket, and
keeps its state between the calls. The socket answers a receive request with some of the bytes that
are there, with none, or with a disconnection; three `EINTR` in a row are one. -/
namespace Rozofs.Stream

/-- The states of the receiver. -/
inductive RecvState where
  | idle
  | waitHdr
  | allocBuf
  | payload
  | dead
  deriving DecidableEq

/-- `com_recv_template_t` and `com_rpc_recv_template_t`. The counters are the values modulo 2^32 of
32-bit integers, of which `nbread` and `nb2read` are signed. -/
structure Recv where
  state : RecvState
  nbread : Nat
  nb2read : Nat
  bufferHeader : Nat → BitVec 8
  bufRefCurrent : Option (Nat → BitVec 8)
  inTotLen : Nat
  recordLen : Nat
  lastRecord : Bool
  inWrOffset : Nat

/-- A connection: the receiver, its remaining credit during a call, the bytes that were not
received yet, and the messages that were given to the application. -/
structure Conn where
  recv : Recv
  credit : Nat
  input : List (BitVec 8)
  delivered : List (List (BitVec 8))

def wrap (n : Nat) : Nat := n % 2 ^ 32

/-- A 32-bit value as a signed integer. -/
def signed (n : Nat) : Int := if n < 2 ^ 31 then n else n - 2 ^ 32

/-- The 32-bit integer in network order at the start of a header. -/
def ntohl (header : Nat → BitVec 8) : BitVec 32 := header 0 ++ header 1 ++ header 2 ++ header 3

def htonl (n : BitVec 32) : List (BitVec 8) :=
  [n.extractLsb' 24 8,n.extractLsb' 16 8,n.extractLsb' 8 8,n.extractLsb' 0 8]

/-- Bytes are stored in memory from `offset` on. -/
def store (memory : Nat → BitVec 8) (offset : Nat) (bytes : List (BitVec 8)) (i : Nat) : BitVec 8 :=
  if offset ≤ i ∧ i < offset + bytes.length then bytes.getD (i - offset) 0 else memory i

def load (memory : Nat → BitVec 8) (n : Nat) : List (BitVec 8) := (List.range n).map memory

/-- The length of a receive request. -/
def Recv.len (r : Recv) : Int := signed (wrap (r.nb2read + (2 ^ 32 - r.nbread)))

/-- A request to the socket: the place in the header or in the receive buffer, and the length. -/
structure Ask where
  inHeader : Bool
  offset : Nat
  len : Int

/-- The request of the receiver. -/
def Recv.ask (r : Recv) : Option Ask :=
  match r.state with
  | .waitHdr => some ⟨true,r.nbread,r.len⟩
  | .payload => some ⟨false,r.inWrOffset + r.nbread,r.len⟩
  | _ => none

/-- What the socket answers to a receive request, and the application to an allocation. -/
inductive Answer where
  | data (n : Nat)
  | wouldBlock
  | disc
  | buffer (allocated : Bool)
  deriving DecidableEq

/-- `RUC_OK`, `RUC_PARTIAL`, `RUC_WOULDBLOCK` or `RUC_DISC`. -/
inductive Status where
  | ok (bytes : List (BitVec 8))
  | part (bytes : List (BitVec 8))
  | wouldBlock
  | disc

/-- `af_unix_recv_stream_sock_recv`: a negative length is a huge one for `recv`, and a request
without length looks like a closed socket. -/
def sockRecv (len : Int) (input : List (BitVec 8)) : Answer → Option Status
  | .data n =>
    if len = 0 then some .disc
    else if 0 < n ∧ n ≤ input.length ∧ (len < 0 ∨ (n : Int) ≤ len) then
      some (if (n : Int) = len then .ok (input.take n) else .part (input.take n))
    else none
  | .wouldBlock => some (if len = 0 then .disc else .wouldBlock)
  | .disc => some .disc
  | .buffer _ => none

/-- The connection is closed and the call ends. -/
def Conn.close (c : Conn) : Conn := { c with recv := { c.recv with state := .dead, bufRefCurrent := none }, credit := 0 }

/-- A receive request: `save` puts the bytes where they were asked for, and `done` goes on when all
of them are there. -/
def Conn.receive (c : Conn) (answer : Answer) (save : Recv → List (BitVec 8) → Recv) (done : Conn → Conn) : Option Conn :=
  match sockRecv c.recv.len c.input answer with
  | none => none
  | some (.ok bytes) => some (done { c with recv := save c.recv bytes, input := c.input.drop bytes.length })
  | some (.part bytes) =>
    let recv := save c.recv bytes
    some { c with recv := { recv with nbread := recv.nbread + bytes.length }, input := c.input.drop bytes.length }
  | some .wouldBlock => some { c with credit := 0 }
  | some .disc => some c.close

/-- Bytes of a header. -/
def saveHeader (r : Recv) (bytes : List (BitVec 8)) : Recv := { r with bufferHeader := store r.bufferHeader r.nbread bytes }

/-- Bytes of a payload. -/
def savePayload (r : Recv) (bytes : List (BitVec 8)) : Recv :=
  { r with bufRefCurrent := r.bufRefCurrent.map fun buffer => store buffer (r.inWrOffset + r.nbread) bytes }

/-- The record mark in the header: the last record of a message has bit 31 set. -/
def Recv.record (r : Recv) : Recv :=
  let mark := ntohl r.bufferHeader
  { r with recordLen := (mark &&& 0x7fffffff#32).toNat, lastRecord := r.lastRecord || mark.msb }

/-- The application gets the message. -/
def Conn.deliver (c : Conn) (message : List (BitVec 8)) : Conn :=
  { c with
    recv := { c.recv with state := .idle, bufRefCurrent := none }
    credit := c.credit - 1
    delivered := c.delivered ++ [message] }

/-- The sizes that a receiver is configured with. -/
structure Config where
  headerSize : Nat
  bufSize : Nat
  maxReceiveSz : Nat
  recvCreditConf : Nat

/-- The header of a record that is not the first of its message was received. -/
def nextRecord (cfg : Config) (c : Conn) : Conn :=
  let r := c.recv.record
  let r := { r with inTotLen := wrap (r.inTotLen + r.recordLen) }
  if cfg.maxReceiveSz < wrap (r.inTotLen + cfg.headerSize) then Conn.close { c with recv := r }
  else { c with recv := { r with nbread := 0, nb2read := r.recordLen, state := .payload } }

/-- The header of a record was received. -/
def headerDone (cfg : Config) (c : Conn) : Conn :=
  match c.recv.bufRefCurrent with
  | none => { c with recv := { c.recv with state := .allocBuf } }
  | some _ => nextRecord cfg c

/-- A record was received. -/
def recordDone (cfg : Config) (c : Conn) : Conn :=
  let r := { c.recv with nbread := c.recv.nb2read }
  if r.lastRecord then
    let buffer := store (r.bufRefCurrent.getD fun _ => 0) 0 (htonl (.ofNat 32 r.inTotLen ||| 0x80000000#32))
    Conn.deliver { c with recv := r } (load buffer (wrap (r.inTotLen + cfg.headerSize)))
  else
    { c with recv := { r with inWrOffset := wrap (r.inWrOffset + r.nbread), nbread := 0, nb2read := cfg.headerSize, state := .waitHdr } }

/-- The loop of `af_unix_recv_rpc_stream_generic_cbk`. -/
def rpcTurn (cfg : Config) (answer : Answer) (c : Conn) : Option Conn :=
  match c.recv.state with
  | .idle => some { c with recv := { c.recv with
      lastRecord := false, recordLen := 0, inTotLen := 0, inWrOffset := 0, nbread := 0, nb2read := cfg.headerSize,
      bufRefCurrent := none, state := .waitHdr } }
  | .waitHdr => c.receive answer saveHeader (headerDone cfg)
  | .allocBuf =>
    let r := c.recv.record
    -- the length of the message is not known when there are more records
    let fullMsgLen := if r.lastRecord then wrap (r.recordLen + cfg.headerSize) else cfg.maxReceiveSz
    if cfg.maxReceiveSz < fullMsgLen then some (Conn.close { c with recv := r })
    else
      match answer with
      | .buffer false => some { c with recv := r, credit := 0 }
      | .buffer true => some { c with recv := { r with
          inTotLen := wrap (r.inTotLen + r.recordLen), nbread := cfg.headerSize, nb2read := wrap (cfg.headerSize + r.recordLen),
          bufRefCurrent := some (store (fun _ => 0) 0 (load r.bufferHeader cfg.headerSize)), state := .payload } }
      | _ => none
  | .payload => c.receive answer savePayload (recordDone cfg)
  | .dead => some { c with credit := 0 }

/-- The loop of `af_unix_recv_stream_generic_cbk`. `payloadLen` is what the application or
`com_sock_extract_length_from_header_host_format` finds in the header, a 32-bit integer. -/
def genericTurn (cfg : Config) (payloadLen : (Nat → BitVec 8) → BitVec 32) (answer : Answer) (c : Conn) : Option Conn :=
  match c.recv.state with
  | .idle => some { c with recv := { c.recv with nbread := 0, nb2read := cfg.headerSize, bufRefCurrent := none, state := .waitHdr } }
  | .waitHdr => c.receive answer saveHeader fun c => { c with recv := { c.recv with state := .allocBuf } }
  | .allocBuf =>
    let len := (payloadLen c.recv.bufferHeader).toNat
    if len = 0 then some c.close
    else if cfg.bufSize < wrap (len + cfg.headerSize) then some c.close
    else
      match answer with
      | .buffer false => some { c with credit := 0 }
      | .buffer true => some { c with recv := { c.recv with
          nbread := cfg.headerSize, nb2read := wrap (cfg.headerSize + len),
          bufRefCurrent := some (store (fun _ => 0) 0 (load c.recv.bufferHeader cfg.headerSize)), state := .payload } }
      | _ => none
  | .payload => c.receive answer savePayload fun c => c.deliver (load (c.recv.bufRefCurrent.getD fun _ => 0) c.recv.nb2read)
  | .dead => some { c with credit := 0 }

/-- A call of the receiver, and a turn of its loop. -/
inductive Action where
  | event
  | turn (answer : Answer)
  deriving DecidableEq

def step (turn : Answer → Conn → Option Conn) (cfg : Config) : Action → Conn → Option Conn
  | .event, c => if c.credit = 0 then some { c with credit := cfg.recvCreditConf } else none
  | .turn answer, c => if c.credit = 0 then none else turn answer c

/-- A connection before the first event. -/
def opened (input : List (BitVec 8)) : Conn := ⟨⟨.idle,0,0,fun _ => 0,none,0,0,false,0⟩,0,input,[]⟩

end Rozofs.Stream
