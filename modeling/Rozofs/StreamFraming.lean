import Rozofs.StreamRecv

/-! The receivers of a stream socket ask for no byte beyond the size limit of their buffers, as long
as the lengths that the peer announces pass the checks for what they are, and the RPC receiver
gives the application the messages of the stream, however the socket cuts it. -/
namespace Rozofs.Stream

section Record
variable (r : Recv)

@[simp] theorem record_state : r.record.state = r.state := rfl

@[simp] theorem record_bufRefCurrent : r.record.bufRefCurrent = r.bufRefCurrent := rfl

@[simp] theorem record_bufferHeader : r.record.bufferHeader = r.bufferHeader := rfl

@[simp] theorem record_inTotLen : r.record.inTotLen = r.inTotLen := rfl

@[simp] theorem record_inWrOffset : r.record.inWrOffset = r.inWrOffset := rfl

theorem recordLen_lt : r.record.recordLen < 2 ^ 31 := by
  have low := Nat.and_le_right (n := (ntohl r.bufferHeader).toNat) (m := 0x7fffffff)
  simp only [Recv.record,BitVec.toNat_and]
  exact Nat.lt_of_le_of_lt low (by decide)

end Record

section Bounds
variable {cfg : Config} {c c' : Conn}

/-- A request stays in the header or within the limit of the receive buffer. -/
def Ask.inBounds (cfg : Config) (limit : Nat) (ask : Ask) : Prop :=
  0 ≤ ask.len ∧ ask.offset + ask.len ≤ if ask.inHeader then cfg.headerSize else limit

theorem len_eq (r : Recv) (order : r.nbread ≤ r.nb2read) (small : r.nb2read < 2 ^ 31) : r.len = ((r.nb2read - r.nbread : Nat) : Int) := by
  have value : wrap (r.nb2read + (2 ^ 32 - r.nbread)) = r.nb2read - r.nbread := by
    rw [wrap]
    omega
  rw [Recv.len,value,signed,if_pos (by omega)]

/-- A step is a call of the receiver or a turn of its loop. -/
theorem step_cases {turn : Answer → Conn → Option Conn} {action : Action} (next : step turn cfg action c = some c') :
    action = .event ∧ c' = { c with credit := cfg.recvCreditConf } ∨ ∃ answer, action = .turn answer ∧ turn answer c = some c' := by
  cases action with
  | event =>
    rw [step] at next
    split at next
    · exact .inl ⟨rfl,(Option.some.inj next).symm⟩
    · cases next
  | turn answer =>
    rw [step] at next
    split at next
    · cases next
    · exact .inr ⟨answer,rfl,next⟩

/-- How a receive request ends. -/
theorem receive_cases {save : Recv → List (BitVec 8) → Recv} {done : Conn → Conn} (order : c.recv.nbread ≤ c.recv.nb2read)
    (small : c.recv.nb2read < 2 ^ 31) (next : c.receive answer save done = some c') :
    (c.recv.nb2read - c.recv.nbread ≤ c.input.length ∧ 0 < c.recv.nb2read - c.recv.nbread ∧ c' = done { c with
      recv := save c.recv (c.input.take (c.recv.nb2read - c.recv.nbread)), input := c.input.drop (c.recv.nb2read - c.recv.nbread) }) ∨
    (∃ n, 0 < n ∧ n < c.recv.nb2read - c.recv.nbread ∧ n ≤ c.input.length ∧ c' = { c with
      recv := { save c.recv (c.input.take n) with nbread := (save c.recv (c.input.take n)).nbread + n }, input := c.input.drop n }) ∨
    (0 < c.recv.nb2read - c.recv.nbread ∧ c' = { c with credit := 0 }) ∨
    ((answer = .disc ∨ c.recv.nb2read = c.recv.nbread) ∧ c' = c.close) := by
  rw [Conn.receive,len_eq c.recv order small] at next
  cases answer with
  | data n =>
    rw [sockRecv] at next
    by_cases none : ((c.recv.nb2read - c.recv.nbread : Nat) : Int) = 0
    · simp only [if_pos none,Option.some.injEq] at next
      exact .inr (.inr (.inr ⟨.inr (by omega),next.symm⟩))
    · rw [if_neg none] at next
      split at next
      · cases next
      · rename_i bytes eq
        split at eq
        · rename_i fits
          split at eq
          · rename_i all
            simp only [Option.some.injEq,Status.ok.injEq] at eq next
            subst eq
            have same : n = c.recv.nb2read - c.recv.nbread := by omega
            subst same
            have length : (c.input.take (c.recv.nb2read - c.recv.nbread)).length = c.recv.nb2read - c.recv.nbread := by
              rw [List.length_take]
              omega
            rw [length] at next
            exact .inl ⟨fits.2.1,fits.1,next.symm⟩
          · cases eq
        · cases eq
      · rename_i bytes eq
        split at eq
        · rename_i fits
          split at eq
          · cases eq
          · simp only [Option.some.injEq,Status.part.injEq] at eq next
            subst eq
            have length : (c.input.take n).length = n := by
              rw [List.length_take]
              omega
            rw [length] at next
            exact .inr (.inl ⟨n,fits.1,by omega,fits.2.1,next.symm⟩)
        · cases eq
      · rename_i eq
        split at eq
        · split at eq <;> cases eq
        · cases eq
      · rename_i eq
        split at eq
        · split at eq <;> cases eq
        · cases eq
  | wouldBlock =>
    rw [sockRecv] at next
    by_cases none : ((c.recv.nb2read - c.recv.nbread : Nat) : Int) = 0
    · simp only [if_pos none,Option.some.injEq] at next
      exact .inr (.inr (.inr ⟨.inr (by omega),next.symm⟩))
    · simp only [if_neg none,Option.some.injEq] at next
      exact .inr (.inr (.inl ⟨by omega,next.symm⟩))
  | disc =>
    simp only [sockRecv,Option.some.injEq] at next
    exact .inr (.inr (.inr ⟨.inl rfl,next.symm⟩))
  | buffer allocated => cases next

theorem savePayload_some (some : r.bufRefCurrent = some buffer) (bytes : List (BitVec 8)) :
    (savePayload r bytes).bufRefCurrent = .some (store buffer (r.inWrOffset + r.nbread) bytes) := by
  rw [savePayload,some]
  rfl

/-- The counters of the RPC receiver. -/
def RpcBounded (cfg : Config) (r : Recv) : Prop :=
  match r.state with
  | .waitHdr => r.nb2read = cfg.headerSize ∧ r.nbread < cfg.headerSize ∧
      (r.bufRefCurrent = none ∧ r.inTotLen = 0 ∧ r.inWrOffset = 0 ∨
        (∃ buffer, r.bufRefCurrent = some buffer) ∧ r.inWrOffset = cfg.headerSize + r.inTotLen ∧
          r.inTotLen + cfg.headerSize ≤ cfg.maxReceiveSz)
  | .allocBuf => r.inTotLen = 0 ∧ r.inWrOffset = 0
  | .payload => (∃ buffer, r.bufRefCurrent = some buffer) ∧ r.nbread ≤ r.nb2read ∧
      r.inWrOffset + r.nb2read = r.inTotLen + cfg.headerSize ∧ r.inTotLen + cfg.headerSize ≤ cfg.maxReceiveSz
  | _ => True

/-- A first record that is not the last one of its message fits in the receive buffer. -/
def firstFits (cfg : Config) (c : Conn) : Bool :=
  c.recv.state ≠ .allocBuf || c.recv.record.lastRecord || c.recv.record.recordLen + cfg.headerSize ≤ cfg.maxReceiveSz

theorem close_bounded (cfg : Config) (c : Conn) : RpcBounded cfg c.close.recv := True.intro

theorem nextRecord_bounded (small : cfg.maxReceiveSz < 2 ^ 31) (some : c.recv.bufRefCurrent = some buffer) (offset : c.recv.inWrOffset = cfg.headerSize + c.recv.inTotLen)
    (total : c.recv.inTotLen + cfg.headerSize ≤ cfg.maxReceiveSz) : RpcBounded cfg (nextRecord cfg c).recv := by
  have length := recordLen_lt c.recv
  have sum : wrap (c.recv.inTotLen + c.recv.record.recordLen) = c.recv.inTotLen + c.recv.record.recordLen := by
    rw [wrap]
    omega
  have all : wrap (c.recv.inTotLen + c.recv.record.recordLen + cfg.headerSize) =
      c.recv.inTotLen + c.recv.record.recordLen + cfg.headerSize := by
    rw [wrap]
    omega
  simp only [nextRecord,record_inTotLen,sum,all]
  split
  · exact close_bounded cfg _
  · rename_i low
    simp only [RpcBounded,record_inWrOffset,record_bufRefCurrent]
    exact ⟨⟨buffer,some⟩,by omega,by omega,by omega⟩

theorem recordDone_bounded (some : c.recv.bufRefCurrent = some buffer) (header : 0 < cfg.headerSize) (small : cfg.maxReceiveSz < 2 ^ 31)
    (offset : c.recv.inWrOffset + c.recv.nb2read = c.recv.inTotLen + cfg.headerSize)
    (total : c.recv.inTotLen + cfg.headerSize ≤ cfg.maxReceiveSz) : RpcBounded cfg (recordDone cfg c).recv := by
  have sum : wrap (c.recv.inWrOffset + c.recv.nb2read) = cfg.headerSize + c.recv.inTotLen := by
    rw [wrap]
    omega
  simp only [recordDone]
  split
  · exact True.intro
  · exact ⟨rfl,header,.inr ⟨⟨buffer,some⟩,sum,total⟩⟩

theorem allocBuf_bounded (header : cfg.headerSize ≤ cfg.maxReceiveSz) (small : cfg.maxReceiveSz < 2 ^ 31) (state : c.recv.state = .allocBuf)
    (zero : c.recv.inTotLen = 0) (origin : c.recv.inWrOffset = 0) (first : firstFits cfg c = true)
    (next : rpcTurn cfg answer c = some c') : RpcBounded cfg c'.recv := by
  have length := recordLen_lt c.recv
  have full : wrap (c.recv.record.recordLen + cfg.headerSize) = c.recv.record.recordLen + cfg.headerSize := by
    rw [wrap]
    omega
  have fits : ¬ cfg.maxReceiveSz < (if c.recv.record.lastRecord then c.recv.record.recordLen + cfg.headerSize else cfg.maxReceiveSz) →
      c.recv.record.recordLen + cfg.headerSize ≤ cfg.maxReceiveSz := by
    intro low
    simp only [firstFits,state,ne_eq,not_true_eq_false,decide_false,Bool.false_or,Bool.or_eq_true,decide_eq_true_eq] at first
    rcases first with last | fits
    · rw [if_pos last] at low
      omega
    · exact fits
  simp only [rpcTurn,state,full,record_inTotLen,zero,Nat.zero_add] at next
  by_cases high : cfg.maxReceiveSz < (if c.recv.record.lastRecord then c.recv.record.recordLen + cfg.headerSize else cfg.maxReceiveSz)
  · rw [if_pos high,Option.some.injEq] at next
    subst next
    exact close_bounded cfg _
  · have bound := fits high
    have sum : wrap c.recv.record.recordLen = c.recv.record.recordLen := by
      rw [wrap]
      omega
    have all : wrap (cfg.headerSize + c.recv.record.recordLen) = cfg.headerSize + c.recv.record.recordLen := by
      rw [wrap]
      omega
    rw [if_neg high] at next
    cases answer with
    | buffer allocated =>
      cases allocated with
      | false =>
        simp only [Option.some.injEq] at next
        subst next
        simp only [RpcBounded,record_state,state,record_inTotLen,record_inWrOffset]
        exact ⟨zero,origin⟩
      | true =>
        simp only [Option.some.injEq] at next
        subst next
        simp only [RpcBounded,sum,all,record_inWrOffset]
        exact ⟨⟨_,rfl⟩,by omega,by omega,by omega⟩
    | _ => cases next

theorem rpcTurn_bounded (header : 0 < cfg.headerSize) (small : cfg.maxReceiveSz < 2 ^ 31) (fits : cfg.headerSize ≤ cfg.maxReceiveSz)
    (bounded : RpcBounded cfg c.recv) (first : firstFits cfg c = true) (next : rpcTurn cfg answer c = some c') :
    RpcBounded cfg c'.recv := by
  have length := recordLen_lt c.recv
  cases state : c.recv.state with
  | idle =>
    simp only [rpcTurn,state,Option.some.injEq] at next
    subst next
    exact ⟨rfl,header,.inl ⟨rfl,rfl,rfl⟩⟩
  | waitHdr =>
    simp only [RpcBounded,state] at bounded
    simp only [rpcTurn,state] at next
    rcases receive_cases (by omega) (by omega) next with ⟨-,-,eq⟩ | ⟨n,pos,less,-,eq⟩ | ⟨-,eq⟩ | ⟨-,eq⟩
    · subst eq
      rcases bounded.2.2 with ⟨none,zero,origin⟩ | ⟨⟨buffer,some⟩,offset,total⟩
      · simp only [headerDone,saveHeader,none]
        exact ⟨zero,origin⟩
      · simp only [headerDone,saveHeader,some]
        exact nextRecord_bounded small rfl offset total
    · subst eq
      simp only [RpcBounded,saveHeader,state]
      exact ⟨bounded.1,by omega,bounded.2.2⟩
    · subst eq
      simp only [RpcBounded,state]
      exact bounded
    · subst eq
      exact close_bounded cfg _
  | allocBuf =>
    simp only [RpcBounded,state] at bounded
    exact allocBuf_bounded fits small state bounded.1 bounded.2 first next
  | payload =>
    simp only [RpcBounded,state] at bounded
    simp only [rpcTurn,state] at next
    rcases receive_cases (by omega) (by omega) next with ⟨-,-,eq⟩ | ⟨n,pos,less,-,eq⟩ | ⟨-,eq⟩ | ⟨-,eq⟩
    · subst eq
      obtain ⟨⟨buffer,some⟩,-,offset,total⟩ := bounded
      exact recordDone_bounded (savePayload_some some _) header small offset total
    · subst eq
      obtain ⟨⟨buffer,some⟩,-,rest⟩ := bounded
      simp only [RpcBounded,savePayload,state,some,Option.map_some]
      exact ⟨⟨_,rfl⟩,by omega,rest⟩
    · subst eq
      simp only [RpcBounded,state]
      exact bounded
    · subst eq
      exact close_bounded cfg _
  | dead =>
    simp only [rpcTurn,state,Option.some.injEq] at next
    subst next
    simp only [RpcBounded,state]

/-- The length of a message, with its header, as the records tell it whose marks were received, at a turn that
looks at a mark. -/
def announced (cfg : Config) (answer : Answer) (c : Conn) : Option Nat :=
  match c.recv.state with
  | .allocBuf => some (c.recv.record.recordLen + cfg.headerSize)
  | .waitHdr =>
    match c.recv.bufRefCurrent,answer with
    | some _,.data n =>
      if (n : Int) = c.recv.len ∧ n ≤ c.input.length then
        some (c.recv.inTotLen + (saveHeader c.recv (c.input.take n)).record.recordLen + cfg.headerSize)
      else none
    | _,_ => none
  | _ => none

/-- A stream that announces more than the limit is disconnected. -/
def Disconnected (c c' : Conn) : Prop := c'.recv.state = .dead ∧ c'.recv.bufRefCurrent = none ∧ c'.delivered = c.delivered

theorem nextRecord_oversize (small : cfg.maxReceiveSz < 2 ^ 31) (total : c.recv.inTotLen + cfg.headerSize ≤ cfg.maxReceiveSz)
    (large : cfg.maxReceiveSz < c.recv.inTotLen + c.recv.record.recordLen + cfg.headerSize) : Disconnected c (nextRecord cfg c) := by
  have length := recordLen_lt c.recv
  have sum : wrap (c.recv.inTotLen + c.recv.record.recordLen) = c.recv.inTotLen + c.recv.record.recordLen := by
    rw [wrap]
    omega
  have all : wrap (c.recv.inTotLen + c.recv.record.recordLen + cfg.headerSize) =
      c.recv.inTotLen + c.recv.record.recordLen + cfg.headerSize := by
    rw [wrap]
    omega
  simp only [nextRecord,record_inTotLen,sum,all,if_pos large]
  exact ⟨rfl,rfl,rfl⟩

theorem rpcTurn_oversize (small : cfg.maxReceiveSz < 2 ^ 31) (fits : cfg.headerSize ≤ cfg.maxReceiveSz) (bounded : RpcBounded cfg c.recv)
    (first : firstFits cfg c = true) (tells : announced cfg answer c = some size) (large : cfg.maxReceiveSz < size) :
    ∃ c', rpcTurn cfg answer c = some c' ∧ Disconnected c c' := by
  have length := recordLen_lt c.recv
  cases state : c.recv.state with
  | allocBuf =>
    simp only [announced,state,Option.some.injEq] at tells
    subst tells
    have full : wrap (c.recv.record.recordLen + cfg.headerSize) = c.recv.record.recordLen + cfg.headerSize := by
      rw [wrap]
      omega
    have last : c.recv.record.lastRecord = true := by
      simp only [firstFits,state,ne_eq,not_true_eq_false,decide_false,Bool.false_or,Bool.or_eq_true,decide_eq_true_eq] at first
      rcases first with last | low
      · exact last
      · omega
    refine ⟨Conn.close { c with recv := c.recv.record },?_,rfl,rfl,rfl⟩
    simp only [rpcTurn,state,full,last,if_true,if_pos large]
  | waitHdr =>
    simp only [RpcBounded,state] at bounded
    cases buffer : c.recv.bufRefCurrent with
    | none => simp [announced,state,buffer] at tells
    | some memory =>
      rcases bounded.2.2 with ⟨none,-⟩ | ⟨-,-,total⟩
      · cases buffer.symm.trans none
      cases answer with
      | data n =>
        simp only [announced,state,buffer,Option.ite_none_right_eq_some,Option.some.injEq] at tells
        obtain ⟨⟨all,there⟩,rfl⟩ := tells
        have len := len_eq c.recv (show c.recv.nbread ≤ c.recv.nb2read by omega) (by omega)
        have ok : sockRecv c.recv.len c.input (.data n) = some (.ok (c.input.take n)) := by
          rw [sockRecv,if_neg (by omega),if_pos (by omega),if_pos all]
        refine ⟨_,?_,nextRecord_oversize (c := { c with recv := saveHeader c.recv (c.input.take n), input := c.input.drop (c.input.take n).length })
          small total large⟩
        simp only [rpcTurn,state,Conn.receive,ok,headerDone,saveHeader,buffer]
      | _ => simp [announced,state,buffer] at tells
  | _ => simp [announced,state] at tells

theorem rpcBounded_ask (small : cfg.maxReceiveSz < 2 ^ 31) (fits : cfg.headerSize ≤ cfg.maxReceiveSz) (bounded : RpcBounded cfg r)
    (asked : r.ask = some ask) : ask.inBounds cfg cfg.maxReceiveSz := by
  cases state : r.state with
  | waitHdr =>
    simp only [RpcBounded,state] at bounded
    simp only [Recv.ask,state,Option.some.injEq] at asked
    subst asked
    simp only [Ask.inBounds,len_eq r (show r.nbread ≤ r.nb2read by omega) (by omega),if_true]
    omega
  | payload =>
    simp only [RpcBounded,state] at bounded
    simp only [Recv.ask,state,Option.some.injEq] at asked
    subst asked
    simp only [Ask.inBounds,len_eq r bounded.2.1 (by omega),Bool.false_eq_true,if_false]
    omega
  | _ => simp [Recv.ask,state] at asked

/-- The counters of the receiver of messages with one header. -/
def GenericBounded (cfg : Config) (r : Recv) : Prop :=
  r.inWrOffset = 0 ∧
  match r.state with
  | .waitHdr => r.nb2read = cfg.headerSize ∧ r.nbread < cfg.headerSize
  | .payload => r.nbread ≤ r.nb2read ∧ r.nb2read ≤ cfg.bufSize
  | _ => True

/-- The length of a message, with its header, fits in 32 bits. -/
def lengthFits (cfg : Config) (payloadLen : (Nat → BitVec 8) → BitVec 32) (c : Conn) : Bool :=
  c.recv.state ≠ .allocBuf || (payloadLen c.recv.bufferHeader).toNat + cfg.headerSize < 2 ^ 32

/-- The length that is announced is looked at when the header is there. -/
theorem genericTurn_oversize {payloadLen : (Nat → BitVec 8) → BitVec 32} (length : lengthFits cfg payloadLen c = true)
    (state : c.recv.state = .allocBuf) (large : cfg.bufSize < (payloadLen c.recv.bufferHeader).toNat + cfg.headerSize) (answer : Answer) :
    ∃ c', genericTurn cfg payloadLen answer c = some c' ∧ Disconnected c c' := by
  simp only [lengthFits,state,ne_eq,not_true_eq_false,decide_false,Bool.false_or,decide_eq_true_eq] at length
  have full : wrap ((payloadLen c.recv.bufferHeader).toNat + cfg.headerSize) = (payloadLen c.recv.bufferHeader).toNat + cfg.headerSize := by
    rw [wrap]
    omega
  refine ⟨c.close,?_,rfl,rfl,rfl⟩
  simp only [genericTurn,state,full,if_pos large,ite_self]

theorem genericTurn_bounded {payloadLen : (Nat → BitVec 8) → BitVec 32} (header : 0 < cfg.headerSize) (small : cfg.bufSize < 2 ^ 31)
    (fits : cfg.headerSize ≤ cfg.bufSize) (bounded : GenericBounded cfg c.recv) (length : lengthFits cfg payloadLen c = true)
    (next : genericTurn cfg payloadLen answer c = some c') : GenericBounded cfg c'.recv := by
  obtain ⟨origin,bounded⟩ := bounded
  cases state : c.recv.state with
  | idle =>
    simp only [genericTurn,state,Option.some.injEq] at next
    subst next
    exact ⟨origin,rfl,header⟩
  | waitHdr =>
    simp only [state] at bounded
    simp only [genericTurn,state] at next
    rcases receive_cases (by omega) (by omega) next with ⟨-,-,eq⟩ | ⟨n,pos,less,-,eq⟩ | ⟨-,eq⟩ | ⟨-,eq⟩
    · subst eq
      exact ⟨origin,True.intro⟩
    · subst eq
      simp only [GenericBounded,saveHeader,state]
      exact ⟨origin,bounded.1,by omega⟩
    · subst eq
      simp only [GenericBounded,state]
      exact ⟨origin,bounded⟩
    · subst eq
      exact ⟨origin,True.intro⟩
  | allocBuf =>
    simp only [genericTurn,state] at next
    have sum : (payloadLen c.recv.bufferHeader).toNat + cfg.headerSize < 2 ^ 32 := by
      simpa [lengthFits,state] using length
    have all : wrap ((payloadLen c.recv.bufferHeader).toNat + cfg.headerSize) = (payloadLen c.recv.bufferHeader).toNat + cfg.headerSize := by
      rw [wrap]
      omega
    rw [Nat.add_comm cfg.headerSize,all] at next
    split at next
    · rw [Option.some.injEq] at next
      subst next
      exact ⟨origin,True.intro⟩
    · split at next
      · rw [Option.some.injEq] at next
        subst next
        exact ⟨origin,True.intro⟩
      · rename_i low
        cases answer with
        | buffer allocated =>
          cases allocated with
          | false =>
            simp only [Option.some.injEq] at next
            subst next
            simp only [GenericBounded,state]
            exact ⟨origin,True.intro⟩
          | true =>
            simp only [Option.some.injEq] at next
            subst next
            exact ⟨origin,by simp only; omega,by simp only; omega⟩
        | _ => cases next
  | payload =>
    simp only [state] at bounded
    simp only [genericTurn,state] at next
    rcases receive_cases bounded.1 (by omega) next with ⟨-,-,eq⟩ | ⟨n,pos,less,-,eq⟩ | ⟨-,eq⟩ | ⟨-,eq⟩
    · subst eq
      exact ⟨origin,True.intro⟩
    · subst eq
      simp only [GenericBounded,savePayload,state]
      exact ⟨origin,by omega,bounded.2⟩
    · subst eq
      simp only [GenericBounded,state]
      exact ⟨origin,bounded⟩
    · subst eq
      exact ⟨origin,True.intro⟩
  | dead =>
    simp only [genericTurn,state,Option.some.injEq] at next
    subst next
    simp only [GenericBounded,state]
    exact ⟨origin,True.intro⟩

theorem genericBounded_ask (small : cfg.bufSize < 2 ^ 31) (fits : cfg.headerSize ≤ cfg.bufSize) (bounded : GenericBounded cfg r)
    (asked : r.ask = some ask) : ask.inBounds cfg cfg.bufSize := by
  obtain ⟨origin,bounded⟩ := bounded
  cases state : r.state with
  | waitHdr =>
    simp only [state] at bounded
    simp only [Recv.ask,state,Option.some.injEq] at asked
    subst asked
    simp only [Ask.inBounds,len_eq r (show r.nbread ≤ r.nb2read by omega) (by omega),if_true]
    omega
  | payload =>
    simp only [state] at bounded
    simp only [Recv.ask,state,Option.some.injEq] at asked
    subst asked
    simp only [Ask.inBounds,len_eq r bounded.1 (by omega),Bool.false_eq_true,if_false]
    omega
  | _ => simp [Recv.ask,state] at asked

end Bounds

section Framing
variable {cfg : Config} {c c' : Conn}

theorem load_store (memory : Nat → BitVec 8) (n : Nat) (bytes : List (BitVec 8)) :
    load (store memory n bytes) (n + bytes.length) = load memory n ++ bytes := by
  refine List.ext_getElem (by simp [load]) fun i low high => ?_
  simp only [load,List.getElem_map,List.getElem_range,store]
  by_cases inside : i < n
  · rw [if_neg (by omega),List.getElem_append_left (by simpa using inside)]
    simp
  · have bound : i < n + bytes.length := by simpa [load] using low
    rw [if_pos (by omega),List.getElem_append_right (by simpa using Nat.le_of_not_lt inside)]
    have here : i - n < bytes.length := by omega
    simp [List.getD,here]

theorem ntohl_of_load {header : Nat → BitVec 8} (loaded : load header 4 = htonl n) : ntohl header = n := by
  simp only [load,htonl,List.range_succ,List.range_zero,List.nil_append,List.map_cons,List.map_nil,
    List.cons_append,List.cons.injEq,and_true] at loaded
  obtain ⟨first,second,third,fourth⟩ := loaded
  rw [ntohl,first,second,third,fourth]
  apply BitVec.eq_of_getLsbD_eq
  intro i low
  simp only [BitVec.getLsbD_append,BitVec.getLsbD_extractLsb',Nat.zero_add]
  -- the byte that holds the bit
  split
  · simp [*]
  · split
    · simp only [*,decide_true,Bool.true_and]
      congr 1
      omega
    · split
      · simp only [*,decide_true,Bool.true_and]
        congr 1
        omega
      · have byte : i - 8 - 8 - 8 < 8 := by omega
        simp only [byte,decide_true,Bool.true_and]
        congr 1
        omega

/-- The mark of a record: its length, with bit 31 set for the last one. -/
def mark (last : Bool) (len : Nat) : BitVec 32 := .ofNat 32 len ||| if last then 0x80000000#32 else 0#32

theorem mark_msb (small : len < 2 ^ 31) (last : Bool) : (mark last len).msb = last := by
  have low : (BitVec.ofNat 32 len).msb = false := by
    rw [BitVec.msb_eq_false_iff_two_mul_lt,BitVec.toNat_ofNat]
    omega
  cases last
  · simp [mark,low]
  · rw [mark,BitVec.msb_or,low]
    decide

theorem mark_len (small : len < 2 ^ 31) (last : Bool) : (mark last len &&& 0x7fffffff#32).toNat = len := by
  have mask : (0x7fffffff#32).toNat = 2 ^ 31 - 1 := by decide
  rw [BitVec.toNat_and,mask,Nat.and_two_pow_sub_one_eq_mod,mark,BitVec.toNat_or,Nat.or_mod_two_pow,BitVec.toNat_ofNat]
  have self : len % 2 ^ 32 % 2 ^ 31 = len := by omega
  cases last
  · simpa using self
  · rw [self]
    simp
/-- The bytes of the receive buffer after the header. -/
def body (buffer : Nat → BitVec 8) (n : Nat) : List (BitVec 8) := load (fun i => buffer (4 + i)) n

theorem body_store (buffer : Nat → BitVec 8) (n : Nat) (bytes : List (BitVec 8)) :
    body (store buffer (4 + n) bytes) (n + bytes.length) = body buffer n ++ bytes := by
  have shift : (fun i => store buffer (4 + n) bytes (4 + i)) = store (fun i => buffer (4 + i)) n bytes := by
    funext i
    have cond : (4 + n ≤ 4 + i ∧ 4 + i < 4 + n + bytes.length) ↔ (n ≤ i ∧ i < n + bytes.length) := by omega
    have place : 4 + i - (4 + n) = i - n := by omega
    simp only [store,cond,place]
  rw [body,shift,load_store]
  rfl

theorem load_header (buffer : Nat → BitVec 8) (n : Nat) (mark : BitVec 32) :
    load (store buffer 0 (htonl mark)) (n + 4) = htonl mark ++ body buffer n := by
  have length : (htonl mark).length = 4 := rfl
  refine List.ext_getElem (by simp [load,body,length,Nat.add_comm]) fun i low high => ?_
  simp only [load,List.getElem_map,List.getElem_range,store,Nat.zero_le,true_and,Nat.zero_add,Nat.sub_zero]
  by_cases inside : i < (htonl mark).length
  · rw [if_pos inside,List.getElem_append_left inside]
    simp [List.getD,inside]
  · rw [if_neg inside,List.getElem_append_right (Nat.le_of_not_lt inside)]
    simp only [body,load,List.getElem_map,List.getElem_range,length]
    congr 1
    omega

/-- The records of a message, with their marks. -/
def encode : List (List (BitVec 8)) → List (BitVec 8)
  | [] => []
  | fragment :: rest => htonl (mark rest.isEmpty fragment.length) ++ (fragment ++ encode rest)

/-- The message that the application gets: the fragments after one header. -/
def message (fragments : List (List (BitVec 8))) : List (BitVec 8) :=
  htonl (mark true fragments.flatten.length) ++ fragments.flatten

/-- A message of records that have bytes, for which there is room in a receive buffer. -/
structure Fits (cfg : Config) (fragments : List (List (BitVec 8))) : Prop where
  some : fragments ≠ []
  positive : ∀ fragment ∈ fragments, fragment ≠ []
  room : fragments.flatten.length + 4 ≤ cfg.maxReceiveSz

/-- Where the receiver is in the messages that were not given to the application yet. -/
inductive Phase (rest : List (List (List (BitVec 8)))) (c : Conn) : Prop where
  | idle (state : c.recv.state = .idle) (input : c.input = rest.flatMap encode)
  | header (state : c.recv.state = .waitHdr) (none : c.recv.bufRefCurrent = none) (all : c.recv.nb2read = 4) (read : c.recv.nbread < 4)
      (last : c.recv.lastRecord = false) (total : c.recv.inTotLen = 0) (offset : c.recv.inWrOffset = 0)
      (input : load c.recv.bufferHeader c.recv.nbread ++ c.input = rest.flatMap encode)
  | alloc (state : c.recv.state = .allocBuf) (last : c.recv.lastRecord = true → (ntohl c.recv.bufferHeader).msb = true)
      (total : c.recv.inTotLen = 0) (offset : c.recv.inWrOffset = 0)
      (input : load c.recv.bufferHeader 4 ++ c.input = rest.flatMap encode)
  | next (done todo : List (List (BitVec 8))) (later : List (List (List (BitVec 8)))) (buffer : Nat → BitVec 8)
      (split : rest = (done ++ todo) :: later) (more : todo ≠ [])
      (state : c.recv.state = .waitHdr) (some : c.recv.bufRefCurrent = some buffer) (all : c.recv.nb2read = 4) (read : c.recv.nbread < 4)
      (last : c.recv.lastRecord = false) (total : c.recv.inTotLen = done.flatten.length)
      (offset : c.recv.inWrOffset = 4 + done.flatten.length) (holds : body buffer done.flatten.length = done.flatten)
      (input : load c.recv.bufferHeader c.recv.nbread ++ c.input = encode todo ++ later.flatMap encode)
  | payload (done todo : List (List (BitVec 8))) (part left : List (BitVec 8)) (later : List (List (List (BitVec 8)))) (buffer : Nat → BitVec 8)
      (split : rest = (done ++ (part ++ left) :: todo) :: later) (more : left ≠ [])
      (state : c.recv.state = .payload) (some : c.recv.bufRefCurrent = some buffer) (all : c.recv.nb2read = c.recv.nbread + left.length)
      (last : c.recv.lastRecord = todo.isEmpty) (total : c.recv.inTotLen = (done.flatten ++ (part ++ left)).length)
      (offset : c.recv.inWrOffset + c.recv.nbread = 4 + (done.flatten ++ part).length)
      (holds : body buffer (done.flatten ++ part).length = done.flatten ++ part)
      (input : c.input = left ++ (encode todo ++ later.flatMap encode))

/-- The header of the next record was received. -/
theorem encode_split {todo : List (List (BitVec 8))} (more : todo ≠ []) {memory : Nat → BitVec 8} {input after : List (BitVec 8)}
    (eq : load memory 4 ++ input = encode todo ++ after) : ∃ fragment todo', todo = fragment :: todo' ∧
      load memory 4 = htonl (mark todo'.isEmpty fragment.length) ∧ input = fragment ++ (encode todo' ++ after) := by
  cases todo with
  | nil => exact absurd rfl more
  | cons fragment todo' =>
    rw [encode,List.append_assoc,List.append_assoc] at eq
    obtain ⟨head,tail⟩ := List.append_inj eq (by simp [load,htonl])
    exact ⟨fragment,todo',rfl,head,tail⟩

theorem record_of_mark {r : Recv} (loaded : load r.bufferHeader 4 = htonl (mark last len)) (small : len < 2 ^ 31) :
    r.record.recordLen = len ∧ r.record.lastRecord = (r.lastRecord || last) := by
  have value := ntohl_of_load loaded
  simp only [Recv.record,value,mark_len small,mark_msb small]
  exact ⟨trivial,trivial⟩

/-- Bytes of a header were received. -/
theorem load_received (r : Recv) {n : Nat} {input : List (BitVec 8)} (enough : n ≤ input.length) :
    load (saveHeader r (input.take n)).bufferHeader (r.nbread + n) ++ input.drop n = load r.bufferHeader r.nbread ++ input := by
  have length : (input.take n).length = n := by
    rw [List.length_take]
    omega
  have loaded := load_store r.bufferHeader r.nbread (input.take n)
  rw [length] at loaded
  rw [saveHeader,loaded,List.append_assoc,List.take_append_drop]

/-- A record starts: its bytes go after those that are in the buffer. -/
theorem Phase.nextRecord (size : cfg.headerSize = 4) (small : cfg.maxReceiveSz < 2 ^ 31) {done todo : List (List (BitVec 8))}
    {later : List (List (List (BitVec 8)))} (fits : Fits cfg (done ++ todo)) (more : todo ≠ []) (some : c.recv.bufRefCurrent = some buffer)
    (last : c.recv.lastRecord = false) (total : c.recv.inTotLen = done.flatten.length)
    (offset : c.recv.inWrOffset = 4 + done.flatten.length) (holds : body buffer done.flatten.length = done.flatten)
    (input : load c.recv.bufferHeader 4 ++ c.input = encode todo ++ later.flatMap encode) :
    Phase ((done ++ todo) :: later) (Stream.nextRecord cfg c) ∧ (Stream.nextRecord cfg c).delivered = c.delivered := by
  obtain ⟨fragment,todo',rfl,loaded,rest⟩ := encode_split more input
  have room := fits.room
  rw [List.flatten_append,List.length_append,List.flatten_cons,List.length_append] at room
  obtain ⟨length,flag⟩ := record_of_mark loaded (show fragment.length < 2 ^ 31 by omega)
  have sum : wrap (c.recv.inTotLen + c.recv.record.recordLen) = done.flatten.length + fragment.length := by
    rw [wrap,total,length]
    omega
  have low : ¬ cfg.maxReceiveSz < wrap (done.flatten.length + fragment.length + cfg.headerSize) := by
    rw [wrap,size]
    omega
  simp only [Stream.nextRecord,record_inTotLen,sum,if_neg low]
  refine ⟨.payload done todo' [] fragment later buffer rfl (fits.positive fragment (by simp)) rfl some ?_ ?_ ?_ ?_ ?_ rest,trivial⟩
  · simp [length]
  · simp only [flag,last,Bool.false_or]
  · simp
  · simp only [record_inWrOffset,offset,List.append_nil,Nat.add_zero]
  · simpa using holds

/-- The first record starts in a new buffer. -/
theorem Phase.allocate (size : cfg.headerSize = 4) (small : cfg.maxReceiveSz < 2 ^ 31) {rest : List (List (List (BitVec 8)))}
    (fits : ∀ m ∈ rest, Fits cfg m) (state : c.recv.state = .allocBuf) (last : c.recv.lastRecord = true → (ntohl c.recv.bufferHeader).msb = true)
    (total : c.recv.inTotLen = 0) (offset : c.recv.inWrOffset = 0)
    (input : load c.recv.bufferHeader 4 ++ c.input = rest.flatMap encode) (next : rpcTurn cfg answer c = some c') :
    Phase rest c' ∧ c'.delivered = c.delivered := by
  cases rest with
  | nil => simp [load] at input
  | cons m later =>
    have good := fits m List.mem_cons_self
    rw [List.flatMap_cons] at input
    obtain ⟨fragment,todo,rfl,loaded,after⟩ := encode_split good.some input
    have room := good.room
    rw [List.flatten_cons,List.length_append] at room
    obtain ⟨length,flag⟩ := record_of_mark loaded (show fragment.length < 2 ^ 31 by omega)
    have flag' : c.recv.record.lastRecord = todo.isEmpty := by
      rw [flag]
      cases set : c.recv.lastRecord with
      | false => rfl
      | true =>
        have bit := last set
        rw [ntohl_of_load loaded,mark_msb (by omega)] at bit
        rw [bit]
        rfl
    have full : ¬ cfg.maxReceiveSz < (if todo.isEmpty then wrap (fragment.length + cfg.headerSize) else cfg.maxReceiveSz) := by
      split
      · rw [wrap,size]
        omega
      · exact Nat.lt_irrefl _
    simp only [rpcTurn,state,flag',length,if_neg full,record_inTotLen,total,Nat.zero_add] at next
    cases answer with
    | buffer allocated =>
      cases allocated with
      | false =>
        simp only [Option.some.injEq] at next
        subst next
        refine ⟨.alloc state (fun set => ?_) total offset ?_,rfl⟩
        · simp only [record_bufferHeader]
          rw [ntohl_of_load loaded,mark_msb (by omega)]
          exact flag'.symm.trans set
        · simp only [record_bufferHeader,List.flatMap_cons]
          exact input
      | true =>
        simp only [Option.some.injEq] at next
        subst next
        refine ⟨.payload [] todo [] fragment later _ rfl (good.positive fragment List.mem_cons_self) rfl rfl ?_ rfl ?_ ?_ rfl after,rfl⟩
        · simp only [size]
          rw [wrap]
          omega
        · simp only [List.flatten_nil,List.nil_append]
          rw [wrap]
          omega
        · simp only [record_inWrOffset,offset,size]
          rfl
    | _ => cases next

/-- The last byte of a record was received. -/
theorem Phase.recordDone (size : cfg.headerSize = 4) (small : cfg.maxReceiveSz < 2 ^ 31) {done todo : List (List (BitVec 8))}
    {part left : List (BitVec 8)} {later : List (List (List (BitVec 8)))}
    (room : done.flatten.length + (part.length + left.length) + 4 ≤ cfg.maxReceiveSz) {r : Recv} (some : r.bufRefCurrent = some buffer)
    (last : r.lastRecord = todo.isEmpty) (total : r.inTotLen = done.flatten.length + (part.length + left.length))
    (offset : r.inWrOffset + r.nbread = 4 + (done.flatten.length + part.length)) (all : r.nb2read = r.nbread + left.length)
    (holds : body buffer (done.flatten.length + part.length) = done.flatten ++ part) :
    let c' := Stream.recordDone cfg { c with recv := savePayload r left, input := encode todo ++ later.flatMap encode }
    Phase ((done ++ (part ++ left) :: todo) :: later) c' ∧ c'.delivered = c.delivered ∨
      ∃ m later', (done ++ (part ++ left) :: todo) :: later = m :: later' ∧ Phase later' c' ∧ c'.delivered = c.delivered ++ [message m] := by
  have written := body_store buffer (done.flatten.length + part.length) left
  rw [holds,List.append_assoc,← offset] at written
  have bytes : done.flatten.length + part.length + left.length = (done ++ [part ++ left]).flatten.length := by
    simp [Nat.add_assoc]
  cases todo with
  | nil =>
    have flag : (savePayload r left).lastRecord = true := last
    have length : wrap (r.inTotLen + cfg.headerSize) = done.flatten.length + part.length + left.length + 4 := by
      rw [wrap,size]
      omega
    refine .inr ⟨_,later,rfl,?_,?_⟩
    · simp only [Stream.recordDone,flag,if_true]
      exact .idle rfl rfl
    · simp only [Stream.recordDone,flag,if_true,Conn.deliver]
      congr 2
      rw [savePayload_some some]
      simp only [savePayload,Option.getD_some,length,load_header]
      rw [written,message,mark,if_pos rfl]
      congr 3
      · simp [total]
      · simp
  | cons f rest =>
    have flag : (savePayload r left).lastRecord = false := last
    have sum : wrap (r.inWrOffset + r.nb2read) = 4 + (done ++ [part ++ left]).flatten.length := by
      rw [wrap,← bytes]
      omega
    simp only [Stream.recordDone,flag,Bool.false_eq_true,if_false]
    refine .inl ⟨.next (done ++ [part ++ left]) (f :: rest) later _ (by simp) (List.cons_ne_nil f rest) rfl (savePayload_some some left) size
      (by simp) rfl ?_ sum ?_ rfl,trivial⟩
    · simp only [savePayload,total,← bytes]
      omega
    · rw [← bytes,written]
      simp

/-- A turn of the loop goes on in the same message, or gives the application one. -/
theorem Phase.turn (size : cfg.headerSize = 4) (small : cfg.maxReceiveSz < 2 ^ 31) {rest : List (List (List (BitVec 8)))}
    (fits : ∀ m ∈ rest, Fits cfg m) (phase : Phase rest c) (calm : answer ≠ .disc) (next : rpcTurn cfg answer c = some c') :
    Phase rest c' ∧ c'.delivered = c.delivered ∨
      ∃ m later, rest = m :: later ∧ Phase later c' ∧ c'.delivered = c.delivered ++ [message m] := by
  cases phase with
  | idle state input =>
    simp only [rpcTurn,state,Option.some.injEq] at next
    subst next
    exact .inl ⟨.header rfl rfl size (by simp) rfl rfl rfl input,rfl⟩
  | header state none all read last total offset input =>
    simp only [rpcTurn,state] at next
    rcases receive_cases (by omega) (by omega) next with ⟨enough,pos,eq⟩ | ⟨n,pos,less,enough,eq⟩ | ⟨pos,eq⟩ | ⟨end',eq⟩
    · subst eq
      simp only [headerDone,saveHeader,none]
      refine .inl ⟨.alloc rfl (fun set => ?_) total offset ?_,trivial⟩
      · rw [last] at set
        cases set
      · have loaded := load_received c.recv enough
        rw [show c.recv.nbread + (c.recv.nb2read - c.recv.nbread) = 4 by omega] at loaded
        exact loaded.trans input
    · subst eq
      refine .inl ⟨.header state none all ?_ last total offset ?_,rfl⟩
      · simp only [saveHeader]
        omega
      · exact (load_received c.recv enough).trans input
    · subst eq
      exact .inl ⟨.header state none all read last total offset input,rfl⟩
    · exact absurd end' (by simp only [calm,false_or]; omega)
  | alloc state last total offset input => exact .inl (Phase.allocate size small fits state last total offset input next)
  | next done todo later buffer split more state some all read last total offset holds input =>
    subst split
    simp only [rpcTurn,state] at next
    rcases receive_cases (by omega) (by omega) next with ⟨enough,pos,eq⟩ | ⟨n,pos,less,enough,eq⟩ | ⟨pos,eq⟩ | ⟨end',eq⟩
    · subst eq
      simp only [headerDone,saveHeader,some]
      refine .inl (Phase.nextRecord size small (fits _ List.mem_cons_self) more rfl last total offset holds ?_)
      have loaded := load_received c.recv enough
      rw [show c.recv.nbread + (c.recv.nb2read - c.recv.nbread) = 4 by omega] at loaded
      exact loaded.trans input
    · subst eq
      refine .inl ⟨.next done todo later buffer rfl more state some all ?_ last total offset holds ?_,rfl⟩
      · simp only [saveHeader]
        omega
      · exact (load_received c.recv enough).trans input
    · subst eq
      exact .inl ⟨.next done todo later buffer rfl more state some all read last total offset holds input,rfl⟩
    · exact absurd end' (by simp only [calm,false_or]; omega)
  | payload done todo part left later buffer split more state some all last total offset holds input =>
    subst split
    have room := (fits _ List.mem_cons_self).room
    rw [List.flatten_append,List.length_append,List.flatten_cons,List.length_append,List.length_append] at room
    have pos := List.length_pos_iff.mpr more
    have size' : c.recv.nb2read - c.recv.nbread = left.length := by omega
    simp only [List.length_append] at total offset holds
    simp only [rpcTurn,state] at next
    rcases receive_cases (by omega) (by omega) next with ⟨enough,-,eq⟩ | ⟨n,pos,less,enough,eq⟩ | ⟨-,eq⟩ | ⟨end',eq⟩
    · rw [size',input,List.take_left,List.drop_left] at eq
      subst eq
      exact Phase.recordDone size small (by omega) some last (by simpa using total) offset all holds
    · rw [size'] at less
      have cut : c.input.take n = left.take n := by rw [input,List.take_append_of_le_length (Nat.le_of_lt less)]
      have rest : c.input.drop n = left.drop n ++ (encode todo ++ later.flatMap encode) := by
        rw [input,List.drop_append_of_le_length (Nat.le_of_lt less)]
      have length : (left.take n).length = n := by
        rw [List.length_take]
        omega
      have written := body_store buffer (done.flatten.length + part.length) (left.take n)
      rw [cut,rest] at eq
      subst eq
      refine .inl ⟨.payload done todo (part ++ left.take n) (left.drop n) later _ (by simp) ?_ state (savePayload_some some _) ?_ last ?_ ?_ ?_ rfl,rfl⟩
      · exact List.ne_nil_of_length_pos (by rw [List.length_drop]; omega)
      · simp only [savePayload,List.length_drop]
        omega
      · simp only [savePayload,List.append_assoc,List.take_append_drop,List.length_append]
        exact total
      · simp only [savePayload,List.length_append,length]
        omega
      · rw [length,holds,List.append_assoc] at written
        simp only [List.length_append,length,offset]
        rw [← Nat.add_assoc done.flatten.length]
        exact written
    · subst eq
      exact .inl ⟨.payload done todo part left later buffer rfl more state some all last (by simpa using total) (by simpa using offset)
        (by simpa using holds) input,rfl⟩
    · exact absurd end' (by simp only [calm,false_or]; omega)

/-- The messages that the application got are the first ones of the stream, and the receiver is in the next one. -/
def Framed (messages : List (List (List (BitVec 8)))) (c : Conn) : Prop :=
  ∃ sent rest, messages = sent ++ rest ∧ c.delivered = sent.map message ∧ Phase rest c

theorem Framed.step (size : cfg.headerSize = 4) (small : cfg.maxReceiveSz < 2 ^ 31) {messages : List (List (List (BitVec 8)))}
    (fits : ∀ m ∈ messages, Fits cfg m) (framed : Framed messages c) {action : Action} (calm : action ≠ .turn .disc)
    (next : step (rpcTurn cfg) cfg action c = some c') : Framed messages c' := by
  obtain ⟨sent,rest,rfl,delivered,phase⟩ := framed
  obtain ⟨rfl,rfl⟩ | ⟨answer,rfl,turned⟩ := step_cases next
  · refine ⟨sent,rest,rfl,delivered,?_⟩
    cases phase with
    | idle state input => exact .idle state input
    | header state none all read last total offset input => exact .header state none all read last total offset input
    | alloc state last total offset input => exact .alloc state last total offset input
    | next done todo later buffer split more state some all read last total offset holds input =>
      exact .next done todo later buffer split more state some all read last total offset holds input
    | payload done todo part left later buffer split more state some all last total offset holds input =>
      exact .payload done todo part left later buffer split more state some all last total offset holds input
  · have peaceful : answer ≠ .disc := fun same => calm (by rw [same])
    rcases phase.turn size small (fun m member => fits m (List.mem_append_right sent member)) peaceful turned with
      ⟨phase',same⟩ | ⟨m,later,rfl,phase',more⟩
    · exact ⟨sent,rest,rfl,same.trans delivered,phase'⟩
    · refine ⟨sent ++ [m],later,by simp,?_,phase'⟩
      rw [more,delivered,List.map_append]
      rfl

/-- A message that is not complete needs more bytes. -/
theorem Phase.input_ne_nil {rest : List (List (List (BitVec 8)))} (fits : ∀ m ∈ rest, Fits cfg m) (phase : Phase rest c) (more : rest ≠ []) :
    c.input ≠ [] := by
  have long : ∀ todo : List (List (BitVec 8)), todo ≠ [] → ∀ after, 4 ≤ (encode todo ++ after).length := by
    intro todo some after
    cases todo with
    | nil => exact absurd rfl some
    | cons f todo =>
      simp only [encode,htonl,List.length_append,List.length_cons]
      omega
  have first : 4 ≤ (rest.flatMap encode).length := by
    cases rest with
    | nil => exact absurd rfl more
    | cons m later =>
      rw [List.flatMap_cons]
      exact long m (fits m List.mem_cons_self).some _
  intro none
  cases phase with
  | idle state input =>
    rw [← input,none] at first
    simp at first
  | header state _ all read last total offset input =>
    rw [← input,none] at first
    simp only [List.length_append,load,List.length_map,List.length_range,List.length_nil] at first
    omega
  | alloc state last total offset input =>
    cases rest with
    | nil => exact more rfl
    | cons m later =>
      rw [List.flatMap_cons] at input
      obtain ⟨f,todo,rfl,-,after⟩ := encode_split (fits m List.mem_cons_self).some input
      rw [none] at after
      exact (fits _ List.mem_cons_self).positive f List.mem_cons_self (List.append_eq_nil_iff.mp after.symm).1
  | next done todo later buffer split some' state some all read last total offset holds input =>
    have enough := long todo some' (later.flatMap encode)
    rw [← input,none] at enough
    simp only [List.length_append,load,List.length_map,List.length_range,List.length_nil] at enough
    omega
  | payload done todo part left later buffer split some' state some all last total offset holds input =>
    rw [none] at input
    exact some' (List.append_eq_nil_iff.mp input.symm).1

/-- The receiver asks for bytes. -/
theorem Phase.ask_pos {rest : List (List (List (BitVec 8)))} (small : cfg.maxReceiveSz < 2 ^ 31) (fits : ∀ m ∈ rest, Fits cfg m)
    (phase : Phase rest c) (asked : c.recv.ask = some ask) : 0 < ask.len := by
  cases phase with
  | idle state input => simp [Recv.ask,state] at asked
  | alloc state last total offset input => simp [Recv.ask,state] at asked
  | header state _ all read last total offset input =>
    simp only [Recv.ask,state,Option.some.injEq] at asked
    subst asked
    simp only [len_eq c.recv (show c.recv.nbread ≤ c.recv.nb2read by omega) (by omega)]
    omega
  | next done todo later buffer split some' state some all read last total offset holds input =>
    simp only [Recv.ask,state,Option.some.injEq] at asked
    subst asked
    simp only [len_eq c.recv (show c.recv.nbread ≤ c.recv.nb2read by omega) (by omega)]
    omega
  | payload done todo part left later buffer split some' state some all last total offset holds input =>
    subst split
    have room := (fits _ List.mem_cons_self).room
    rw [List.flatten_append,List.length_append,List.flatten_cons,List.length_append,List.length_append] at room
    have pos := List.length_pos_iff.mpr some'
    simp only [List.length_append] at offset
    simp only [Recv.ask,state,Option.some.injEq] at asked
    subst asked
    simp only [len_eq c.recv (show c.recv.nbread ≤ c.recv.nb2read by omega) (by omega)]
    omega

theorem Phase.not_dead {rest : List (List (List (BitVec 8)))} (phase : Phase rest c) : c.recv.state ≠ .dead := by
  cases phase with
  | idle state => simp [state]
  | header state => simp [state]
  | alloc state => simp [state]
  | next _ _ _ _ _ _ state => simp [state]
  | payload _ _ _ _ _ _ _ _ state => simp [state]

end Framing

/-- However the socket cuts a stream of RPC messages and buffers miss, the RPC receiver gives the
application the first messages of the stream, all of them once all bytes are received, and it never
closes the connection nor asks for nothing. On any stream whose first records, when they are not
the last ones, pass the check that the other records get, it asks for nothing beyond the limit of
its buffer, and so does the other receiver on any stream whose lengths fit in 32 bits. Both close the
connection, for good, at the turn that finds a length beyond the limit. -/
theorem streams_framed {cfg : Config} (size : cfg.headerSize = 4) (room : 4 ≤ cfg.maxReceiveSz) (small : cfg.maxReceiveSz < 2 ^ 31) :
    (∀ (messages : List (List (List (BitVec 8)))) (c : Conn), (∀ m ∈ messages, Fits cfg m) →
      Machine.Run (step (rpcTurn cfg) cfg) (fun _ action => action ≠ .turn .disc) (opened (messages.flatMap encode)) c →
      c.recv.state ≠ .dead ∧ c.delivered <+: messages.map message ∧ (c.input = [] → c.delivered = messages.map message) ∧
        ∀ ask, c.recv.ask = some ask → 0 < ask.len) ∧
    (∀ (input : List (BitVec 8)) (c : Conn), Machine.Run (step (rpcTurn cfg) cfg) (fun c _ => firstFits cfg c = true) (opened input) c →
      (∀ ask, c.recv.ask = some ask → ask.inBounds cfg cfg.maxReceiveSz) ∧
        (c.recv.state = .payload → c.recv.inTotLen + cfg.headerSize ≤ cfg.maxReceiveSz) ∧
        (∀ answer size, c.credit ≠ 0 → firstFits cfg c = true → announced cfg answer c = some size → cfg.maxReceiveSz < size →
          ∃ c', step (rpcTurn cfg) cfg (.turn answer) c = some c' ∧ Disconnected c c') ∧
        ∀ action c', c.recv.state = .dead → step (rpcTurn cfg) cfg action c = some c' → c'.recv.state = .dead ∧ c'.delivered = c.delivered) ∧
    ∀ (generic : Config) (payloadLen : (Nat → BitVec 8) → BitVec 32) (input : List (BitVec 8)) (c : Conn),
      0 < generic.headerSize → generic.headerSize ≤ generic.bufSize → generic.bufSize < 2 ^ 31 →
      Machine.Run (step (genericTurn generic payloadLen) generic) (fun c _ => lengthFits generic payloadLen c = true) (opened input) c →
      (∀ ask, c.recv.ask = some ask → ask.inBounds generic generic.bufSize) ∧
        (∀ answer, c.credit ≠ 0 → lengthFits generic payloadLen c = true → c.recv.state = .allocBuf →
          generic.bufSize < (payloadLen c.recv.bufferHeader).toNat + generic.headerSize →
          ∃ c', step (genericTurn generic payloadLen) generic (.turn answer) c = some c' ∧ Disconnected c c') ∧
        ∀ action c', c.recv.state = .dead → step (genericTurn generic payloadLen) generic action c = some c' →
          c'.recv.state = .dead ∧ c'.delivered = c.delivered := by
  refine ⟨fun messages c fits run => ?_,fun input c run => ?_,fun generic payloadLen input c header fits low run => ?_⟩
  · have framed : Framed messages c := by
      refine run.invariant (Framed messages) ⟨[],messages,rfl,rfl,.idle rfl rfl⟩ fun c action c' framed calm next => ?_
      exact framed.step size small fits calm next
    obtain ⟨sent,rest,rfl,delivered,phase⟩ := framed
    have good : ∀ m ∈ rest, Fits cfg m := fun m member => fits m (List.mem_append_right sent member)
    refine ⟨phase.not_dead,?_,fun none => ?_,fun ask asked => phase.ask_pos small good asked⟩
    · rw [delivered,List.map_append]
      exact List.prefix_append _ _
    · have all : rest = [] := by
        cases rest with
        | nil => rfl
        | cons m later => exact absurd none (phase.input_ne_nil good (List.cons_ne_nil m later))
      rw [delivered,all,List.append_nil]
  · have bounded : RpcBounded cfg c.recv := by
      refine run.invariant (fun c => RpcBounded cfg c.recv) (show RpcBounded cfg (opened input).recv from True.intro) fun c action c' bounded first next => ?_
      obtain ⟨rfl,rfl⟩ | ⟨answer,rfl,turned⟩ := step_cases next
      · exact bounded
      · exact rpcTurn_bounded (by omega) small (by omega) bounded first turned
    refine ⟨fun ask asked => rpcBounded_ask small (by omega) bounded asked,fun state => ?_,fun answer size credit first tells large => ?_,
      fun action c' dead next => ?_⟩
    · simp only [RpcBounded,state] at bounded
      exact bounded.2.2.2
    · rw [step,if_neg credit]
      exact rpcTurn_oversize small (by omega) bounded first tells large
    · obtain ⟨-,rfl⟩ | ⟨answer,-,turned⟩ := step_cases next
      · exact ⟨dead,rfl⟩
      · simp only [rpcTurn,dead,Option.some.injEq] at turned
        subst turned
        exact ⟨dead,rfl⟩
  · have bounded : GenericBounded generic c.recv := by
      refine run.invariant (fun c => GenericBounded generic c.recv) ⟨rfl,True.intro⟩ fun c action c' bounded length next => ?_
      obtain ⟨rfl,rfl⟩ | ⟨answer,rfl,turned⟩ := step_cases next
      · exact bounded
      · exact genericTurn_bounded header low fits bounded length turned
    refine ⟨fun ask asked => genericBounded_ask low fits bounded asked,fun answer credit length state large => ?_,fun action c' dead next => ?_⟩
    · rw [step,if_neg credit]
      exact genericTurn_oversize length state large answer
    · obtain ⟨-,rfl⟩ | ⟨answer,-,turned⟩ := step_cases next
      · exact ⟨dead,rfl⟩
      · simp only [genericTurn,dead,Option.some.injEq] at turned
        subst turned
        exact ⟨dead,rfl⟩

/-- Receive buffers of 16 bytes, with one message a call. -/
def tiny : Config := ⟨4,16,16,1⟩

/-- Two messages, the first one of two records. The second header comes in two parts, with an empty
read and a shortage of buffers between. -/
theorem streams_framed_cut : ∃ c, Machine.Run (step (rpcTurn tiny) tiny) (fun _ action => action ≠ .turn .disc)
      (opened ([[[1,2],[3]],[[4]]].flatMap encode)) c ∧
    c.delivered = [[0x80,0,0,3,1,2,3],[0x80,0,0,1,4]] := by
  have done : (Machine.exec (step (rpcTurn tiny) tiny) (fun _ (action : Action) => action ≠ .turn .disc)
      [.event,.turn .wouldBlock,.turn (.data 4),.turn (.buffer false),.event,.turn (.buffer true),.turn (.data 1),.turn (.data 1),
        .turn (.data 3),.turn .wouldBlock,.event,.turn (.data 1),.turn (.data 1),.event,.turn .wouldBlock,.turn (.data 4),
        .turn (.buffer true),.turn (.data 1)] (opened ([[[1,2],[3]],[[4]]].flatMap encode))).map (fun c => c.input.length) = some 0 := by
    decide +kernel
  obtain ⟨c,done,read⟩ := Option.map_eq_some_iff.mp done
  have run := Machine.Run.refl.exec done
  have fits : ∀ m ∈ [[[1,2],[3]],[[4]]], Fits tiny m := by
    intro m member
    simp only [List.mem_cons,List.not_mem_nil,or_false] at member
    rcases member with rfl | rfl <;> exact ⟨by decide,by decide,by decide⟩
  obtain ⟨-,-,all,-⟩ := (streams_framed rfl (by decide) (by decide)).1 _ c fits run
  exact ⟨c,run,(all (List.length_eq_zero_iff.mp read)).trans (by decide)⟩

/-- A first record of 100 bytes that is not the last one is asked for in a buffer of 16 bytes, and
so is a message whose length with its header is more than 32 bits. -/
theorem asks_beyond_buffer :
    (∃ c ask, Machine.Run (step (rpcTurn tiny) tiny) (fun _ _ => True) (opened [0,0,0,100]) c ∧
      c.recv.ask = some ask ∧ ¬ ask.inBounds tiny tiny.maxReceiveSz) ∧
    ∃ c ask, Machine.Run (step (genericTurn tiny ntohl) tiny) (fun _ _ => True) (opened [0xff,0xff,0xff,0xff]) c ∧
      c.recv.ask = some ask ∧ ¬ ask.inBounds tiny tiny.bufSize := by
  have first : (Machine.exec (step (rpcTurn tiny) tiny) (fun _ _ => True)
      [.event,.turn .wouldBlock,.turn (.data 4),.turn (.buffer true)] (opened [0,0,0,100])).map
      (fun c => c.recv.ask.map fun ask => (ask.inHeader,ask.offset,ask.len)) = some (some (false,4,100)) := by decide +kernel
  have second : (Machine.exec (step (genericTurn tiny ntohl) tiny) (fun _ _ => True)
      [.event,.turn .wouldBlock,.turn (.data 4),.turn (.buffer true)] (opened [0xff,0xff,0xff,0xff])).map
      (fun c => c.recv.ask.map fun ask => (ask.inHeader,ask.offset,ask.len)) = some (some (false,4,-1)) := by decide +kernel
  obtain ⟨c,done,seen⟩ := Option.map_eq_some_iff.mp first
  obtain ⟨ask,asked,seen⟩ := Option.map_eq_some_iff.mp seen
  obtain ⟨c',done',seen'⟩ := Option.map_eq_some_iff.mp second
  obtain ⟨ask',asked',seen'⟩ := Option.map_eq_some_iff.mp seen'
  simp only [Prod.mk.injEq] at seen seen'
  refine ⟨⟨c,ask,Machine.Run.refl.exec done,asked,?_⟩,⟨c',ask',Machine.Run.refl.exec done',asked',?_⟩⟩
  · simp [Ask.inBounds,seen,tiny]
  · simp [Ask.inBounds,seen']

end Rozofs.Stream
