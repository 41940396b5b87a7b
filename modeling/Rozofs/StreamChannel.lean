import Rozofs.StreamSend

/-! A connection gives the application of the receiver the messages that the transmitter sent, each one
whole and once, in the order in which the transmitter took them, however the sockets cut them, whatever is
withdrawn from the queue of the transmitter and whenever one of the processes closes the connection. -/
namespace Rozofs.Stream

/-- The records of a message. -/
abbrev Fragments := List (List (BitVec 8))

section Receiver
variable {cfg : Config} {c c' : Conn} {bytes : List (BitVec 8)}

/-- What the socket answers does not depend on bytes that arrive later. -/
theorem receive_arrive {save : Recv → List (BitVec 8) → Recv} {done : Conn → Conn} (later : ∀ c, done (c.arrive bytes) = (done c).arrive bytes)
    (next : c.receive answer save done = some c') : (c.arrive bytes).receive answer save done = some (c'.arrive bytes) := by
  have same : (c.arrive bytes).recv = c.recv := rfl
  rw [Conn.receive,same]
  rw [Conn.receive] at next
  cases answer with
  | buffer allocated => cases next
  | wouldBlock =>
    simp only [sockRecv] at next ⊢
    by_cases none : c.recv.len = 0
    · simp only [if_pos none,Option.some.injEq] at next ⊢
      rw [← next]
      rfl
    · simp only [if_neg none,Option.some.injEq] at next ⊢
      rw [← next]
      rfl
  | disc =>
    simp only [sockRecv,Option.some.injEq] at next ⊢
    rw [← next]
    rfl
  | data n =>
    simp only [sockRecv] at next ⊢
    by_cases none : c.recv.len = 0
    · simp only [if_pos none,Option.some.injEq] at next ⊢
      rw [← next]
      rfl
    · rw [if_neg none] at next ⊢
      by_cases good : 0 < n ∧ n ≤ c.input.length ∧ (c.recv.len < 0 ∨ (n : Int) ≤ c.recv.len)
      · have more : 0 < n ∧ n ≤ (c.arrive bytes).input.length ∧ (c.recv.len < 0 ∨ (n : Int) ≤ c.recv.len) := by
          refine ⟨good.1,?_,good.2.2⟩
          rw [Conn.arrive,List.length_append]
          exact Nat.le_trans good.2.1 (Nat.le_add_right _ _)
        have taken : (c.arrive bytes).input.take n = c.input.take n := List.take_append_of_le_length good.2.1
        have length : (c.input.take n).length = n := List.length_take_of_le good.2.1
        have left : (c.arrive bytes).input.drop n = c.input.drop n ++ bytes := List.drop_append_of_le_length good.2.1
        rw [if_pos good] at next
        rw [if_pos more,taken]
        by_cases whole : (n : Int) = c.recv.len
        · simp only [if_pos whole,length,left,Option.some.injEq] at next ⊢
          rw [← next]
          exact later { c with recv := save c.recv (c.input.take n), input := c.input.drop n }
        · simp only [if_neg whole,length,left,Option.some.injEq] at next ⊢
          rw [← next]
          rfl
      · rw [if_neg good] at next
        cases next

theorem headerDone_arrive (c : Conn) : headerDone cfg (c.arrive bytes) = (headerDone cfg c).arrive bytes := by
  have same : (c.arrive bytes).recv = c.recv := rfl
  rw [headerDone,headerDone,same]
  cases c.recv.bufRefCurrent with
  | none => rfl
  | some buffer =>
    simp only [nextRecord,same]
    split <;> rfl

theorem recordDone_arrive (c : Conn) : recordDone cfg (c.arrive bytes) = (recordDone cfg c).arrive bytes := by
  have same : (c.arrive bytes).recv = c.recv := rfl
  simp only [recordDone,same]
  split <;> rfl

/-- A step of the receiver does not depend on bytes that arrive later. -/
theorem step_arrive {action : Action} (next : Stream.step (rpcTurn cfg) cfg action c = some c') :
    Stream.step (rpcTurn cfg) cfg action (c.arrive bytes) = some (c'.arrive bytes) := by
  have same : (c.arrive bytes).recv = c.recv := rfl
  have credit : (c.arrive bytes).credit = c.credit := rfl
  obtain ⟨rfl,rfl⟩ | ⟨answer,rfl,turned⟩ := step_cases next
  · rw [Stream.step] at next
    rw [Stream.step,credit]
    split at next
    · rename_i zero
      rw [if_pos zero]
      rfl
    · cases next
  · rw [Stream.step] at next
    rw [Stream.step,credit]
    split at next
    · cases next
    · rename_i some
      rw [if_neg some]
      clear next
      rw [rpcTurn] at turned
      rw [rpcTurn,same]
      cases state : c.recv.state with
      | idle =>
        simp only [state,Option.some.injEq] at turned
        rw [← turned]
        rfl
      | waitHdr =>
        simp only [state] at turned
        exact receive_arrive headerDone_arrive turned
      | allocBuf =>
        simp only [state] at turned ⊢
        by_cases long : cfg.maxReceiveSz < if c.recv.record.lastRecord = true then wrap (c.recv.record.recordLen + cfg.headerSize) else cfg.maxReceiveSz
        · rw [if_pos long,Option.some.injEq] at turned
          rw [if_pos long,← turned]
          rfl
        · rw [if_neg long] at turned ⊢
          cases answer with
          | buffer allocated =>
            cases allocated with
            | false =>
              simp only [Option.some.injEq] at turned
              rw [← turned]
              rfl
            | true =>
              simp only [Option.some.injEq] at turned
              rw [← turned]
              rfl
          | _ => cases turned
      | payload =>
        simp only [state] at turned
        exact receive_arrive recordDone_arrive turned
      | dead =>
        simp only [state,Option.some.injEq] at turned
        rw [← turned]
        rfl

/-- A disconnection closes the receiver when it waits for bytes; else the socket is not asked. -/
theorem step_disc (next : Stream.step (rpcTurn cfg) cfg (.turn .disc) c = some c') :
    c'.recv.state = .dead ∧ c'.delivered = c.delivered ∨ Stream.step (rpcTurn cfg) cfg (.turn .wouldBlock) c = some c' := by
  rw [Stream.step] at next ⊢
  split at next
  · cases next
  · rename_i some
    rw [if_neg some]
    rw [rpcTurn] at next ⊢
    cases state : c.recv.state with
    | waitHdr =>
      simp only [state,Conn.receive,sockRecv,Option.some.injEq] at next
      rw [← next]
      exact .inl ⟨rfl,rfl⟩
    | payload =>
      simp only [state,Conn.receive,sockRecv,Option.some.injEq] at next
      rw [← next]
      exact .inl ⟨rfl,rfl⟩
    | _ =>
      simp only [state] at next ⊢
      exact .inr next

theorem step_dead {action : Action} (dead : c.recv.state = .dead) (next : Stream.step (rpcTurn cfg) cfg action c = some c') :
    c'.recv.state = .dead ∧ c'.delivered = c.delivered := by
  obtain ⟨rfl,rfl⟩ | ⟨answer,rfl,turned⟩ := step_cases next
  · exact ⟨dead,rfl⟩
  · simp only [rpcTurn,dead,Option.some.injEq] at turned
    rw [← turned]
    exact ⟨dead,rfl⟩

theorem encode_length {todo : Fragments} (some : todo ≠ []) (positive : ∀ fragment ∈ todo, fragment ≠ []) : 5 ≤ (encode todo).length := by
  cases todo with
  | nil => exact absurd rfl some
  | cons fragment rest =>
    have one := List.length_pos_iff.mpr (positive fragment List.mem_cons_self)
    simp only [encode,htonl,List.length_append,List.length_cons,List.length_nil]
    omega

theorem Fits.length {m : Fragments} (fits : Fits cfg m) : 5 ≤ (encode m).length := encode_length fits.some fits.positive

/-- The receiver did not get the last byte of the message that it is in. -/
theorem Phase.unread {rest : List Fragments} (fits : ∀ m ∈ rest, Fits cfg m) (phase : Phase rest c) :
    rest = [] ∧ c.input = [] ∨ ∃ m later, rest = m :: later ∧ (later.flatMap encode).length < c.input.length := by
  cases phase with
  | idle state input =>
    cases rest with
    | nil => exact .inl ⟨rfl,input⟩
    | cons m later =>
      have long := (fits m List.mem_cons_self).length
      refine .inr ⟨m,later,rfl,?_⟩
      rw [input,List.flatMap_cons,List.length_append]
      omega
  | header state none all read last total offset input =>
    cases rest with
    | nil => exact .inl ⟨rfl,(List.append_eq_nil_iff.mp input).2⟩
    | cons m later =>
      have long := (fits m List.mem_cons_self).length
      have total := congrArg List.length input
      rw [List.flatMap_cons,List.length_append,List.length_append,load,List.length_map,List.length_range] at total
      exact .inr ⟨m,later,rfl,by omega⟩
  | alloc state last total offset input =>
    have total := congrArg List.length input
    rw [List.length_append,load,List.length_map,List.length_range] at total
    cases rest with
    | nil =>
      rw [List.flatMap_nil,List.length_nil] at total
      omega
    | cons m later =>
      have long := (fits m List.mem_cons_self).length
      rw [List.flatMap_cons,List.length_append] at total
      exact .inr ⟨m,later,rfl,by omega⟩
  | next done todo later buffer split more state some all read last total offset holds input =>
    subst split
    have long := encode_length more fun f member => (fits _ List.mem_cons_self).positive f (List.mem_append_right _ member)
    have total := congrArg List.length input
    rw [List.length_append,List.length_append,load,List.length_map,List.length_range] at total
    exact .inr ⟨_,later,rfl,by omega⟩
  | payload done todo part left later buffer split more state some all last total offset holds input =>
    have one := List.length_pos_iff.mpr more
    refine .inr ⟨_,later,split,?_⟩
    rw [input,List.length_append,List.length_append]
    omega

/-- Another message comes after the ones of the stream. -/
theorem Phase.append {rest : List Fragments} (phase : Phase rest c) (m : Fragments) : Phase (rest ++ [m]) (c.arrive (encode m)) := by
  have after : (rest ++ [m]).flatMap encode = rest.flatMap encode ++ encode m := by simp
  cases phase with
  | idle state input => exact .idle state (by rw [after,← input]; rfl)
  | header state none all read last total offset input =>
    refine .header state none all read last total offset ?_
    rw [after,← input,List.append_assoc]
    rfl
  | alloc state last total offset input =>
    refine .alloc state last total offset ?_
    rw [after,← input,List.append_assoc]
    rfl
  | next done todo later buffer split more state some all read last total offset holds input =>
    refine .next done todo (later ++ [m]) buffer (by rw [split]; rfl) more state some all read last total offset holds ?_
    have whole : (later ++ [m]).flatMap encode = later.flatMap encode ++ encode m := by simp
    rw [whole,← List.append_assoc,← input,List.append_assoc]
    rfl
  | payload done todo part left later buffer split more state some all last total offset holds input =>
    refine .payload done todo part left (later ++ [m]) buffer (by rw [split]; rfl) more state some all last total offset holds ?_
    have whole : (later ++ [m]).flatMap encode = later.flatMap encode ++ encode m := by simp
    rw [whole,← List.append_assoc (encode todo),← List.append_assoc,← input]
    rfl

theorem Framed.append {messages : List Fragments} (framed : Framed messages c) (m : Fragments) : Framed (messages ++ [m]) (c.arrive (encode m)) := by
  obtain ⟨sent,rest,rfl,delivered,phase⟩ := framed
  exact ⟨sent,rest ++ [m],List.append_assoc _ _ _,delivered,phase.append m⟩

theorem Framed.not_dead {messages : List Fragments} (framed : Framed messages c) : c.recv.state ≠ .dead := by
  obtain ⟨_,_,_,_,phase⟩ := framed
  exact phase.not_dead

@[simp] theorem arrive_recv (c : Conn) (bytes : List (BitVec 8)) : (c.arrive bytes).recv = c.recv := rfl

@[simp] theorem arrive_delivered (c : Conn) (bytes : List (BitVec 8)) : (c.arrive bytes).delivered = c.delivered := rfl

theorem arrive_arrive (c : Conn) (first second : List (BitVec 8)) : (c.arrive first).arrive second = c.arrive (first ++ second) := by
  simp only [Conn.arrive,List.append_assoc]

end Receiver

section Flow
variable {β : Type} {cfg : Config} {fragments : β → Fragments} {c c' : Channel β}

/-- The bytes of the current buffer that were not sent. -/
def Xmit.unsent (fragments : β → Fragments) (x : Xmit β) : List (BitVec 8) :=
  match x.bufRefCurrent with
  | none => []
  | some buf => if x.state = .ready then encode (fragments buf) else (encode (fragments buf)).drop x.nbWrite

/-- The end of the last message that was started: there are bytes in it. -/
def Remains (fragments : β → Fragments) (started : Option β) (rest : List (BitVec 8)) : Prop :=
  match started with
  | none => rest = []
  | some buf => rest ≠ [] ∧ rest <:+ encode (fragments buf)

/-- While the receiver is open it is in the stream of what was sent, of which the end of one message may be
missing. -/
inductive Flow (fragments : β → Fragments) (c : Channel β) : Prop
  | closed (dead : c.conn.recv.state = .dead) (given : c.conn.delivered <+: c.sent.map fun buf => message (fragments buf))
  | live (started : Option β) (rest : List (BitVec 8))
      (framed : Framed ((c.sent ++ started.toList).map fragments) (c.conn.arrive rest)) (remains : Remains fragments started rest)
      (known : ∀ buf ∈ c.sent ++ started.toList, buf ∈ c.accepted)
      (current : c.xmit.state ≠ .dead → started = c.xmit.bufRefCurrent ∧ rest = c.xmit.unsent fragments)

/-- The messages that the application of the receiver got are the first ones that were sent whole. -/
theorem Flow.given (flow : Flow fragments c) (fits : ∀ buf ∈ c.accepted, Fits cfg (fragments buf)) :
    c.conn.delivered <+: c.sent.map fun buf => message (fragments buf) := by
  cases flow with
  | closed _ given => exact given
  | live started rest framed remains known _ =>
    obtain ⟨got,coming,split,delivered,phase⟩ := framed
    have good : ∀ m ∈ coming, Fits cfg m := by
      intro m member
      have among : m ∈ (c.sent ++ started.toList).map fragments := split ▸ List.mem_append_right got member
      obtain ⟨buf,inside,rfl⟩ := List.mem_map.mp among
      exact fits buf (known buf inside)
    have first : got <+: c.sent.map fragments := by
      cases started with
      | none =>
        rw [Option.toList_none,List.append_nil] at split
        exact ⟨coming,split.symm⟩
      | some buf =>
        have more : coming ≠ [] := by
          rintro rfl
          rcases phase.unread good with ⟨-,none⟩ | ⟨_,_,eq,_⟩
          · exact remains.1 (List.append_eq_nil_iff.mp none).2
          · cases eq
        rw [Option.toList_some,List.map_append,← List.dropLast_concat_getLast more,← List.append_assoc] at split
        exact ⟨coming.dropLast,(List.append_inj' split rfl).1.symm⟩
    have prefixed := first.map message
    rw [List.map_map] at prefixed
    rw [arrive_delivered] at delivered
    rw [delivered]
    exact prefixed

/-- Once nothing is on its way, the application of an open receiver has all the messages that were sent. -/
theorem Flow.drained (flow : Flow fragments c) (fits : ∀ buf ∈ c.accepted, Fits cfg (fragments buf)) (live : c.conn.recv.state ≠ .dead)
    (empty : c.conn.input = []) : c.conn.delivered = c.sent.map fun buf => message (fragments buf) := by
  cases flow with
  | closed dead _ => exact absurd dead live
  | live started rest framed remains known _ =>
    obtain ⟨got,coming,split,delivered,phase⟩ := framed
    have good : ∀ m ∈ coming, Fits cfg m := by
      intro m member
      have among : m ∈ (c.sent ++ started.toList).map fragments := split ▸ List.mem_append_right got member
      obtain ⟨buf,inside,rfl⟩ := List.mem_map.mp among
      exact fits buf (known buf inside)
    have input : (c.conn.arrive rest).input = rest := by rw [Conn.arrive,empty,List.nil_append]
    have all : got = c.sent.map fragments := by
      rcases phase.unread good with ⟨rfl,none⟩ | ⟨m,later,rfl,unread⟩
      · cases started with
        | none => simpa using split.symm
        | some buf => exact absurd (input ▸ none) remains.1
      · rw [input] at unread
        cases started with
        | none =>
          rw [remains] at unread
          exact absurd unread (Nat.not_lt_zero _)
        | some buf =>
          rw [Option.toList_some,List.map_append] at split
          rcases List.eq_nil_or_concat later with rfl | ⟨init,last,rfl⟩
          · exact (List.append_inj' split rfl).1.symm
          · -- the message that was started is a later one, and its bytes do not come before its end
            rw [List.concat_eq_append] at split unread
            have same : [fragments buf] = [last] := by
              have apart : c.sent.map fragments ++ [fragments buf] = (got ++ m :: init) ++ [last] := by simpa using split
              exact (List.append_inj' apart rfl).2
            cases same
            have short := remains.2.length_le
            rw [List.flatMap_append,List.length_append,List.flatMap_singleton] at unread
            omega
    rw [arrive_delivered] at delivered
    rw [delivered,all,List.map_map]
    rfl

/-- The stream, the buffer that is sent and its bytes are the same. -/
theorem Flow.same (flow : Flow fragments c) (conn : c'.conn = c.conn) (sent : c'.sent = c.sent) (accepted : ∀ buf ∈ c.accepted, buf ∈ c'.accepted)
    (current : c'.xmit.state ≠ .dead → c.xmit.state ≠ .dead ∧ c'.xmit.bufRefCurrent = c.xmit.bufRefCurrent ∧
      c'.xmit.unsent fragments = c.xmit.unsent fragments) : Flow fragments c' := by
  cases flow with
  | closed dead given => exact .closed (conn ▸ dead) (by rw [conn,sent]; exact given)
  | live started rest framed remains known now =>
    refine .live started rest (by rw [conn,sent]; exact framed) remains (by rw [sent]; exact fun buf member => accepted buf (known buf member)) ?_
    intro open'
    obtain ⟨before,buffer,bytes⟩ := current open'
    obtain ⟨first,second⟩ := now before
    exact ⟨first.trans buffer.symm,second.trans bytes.symm⟩

/-- A buffer is started. -/
theorem Flow.start (flow : Flow fragments c) (conn : c'.conn = c.conn) (sent : c'.sent = c.sent) (accepted : ∀ buf ∈ c.accepted, buf ∈ c'.accepted)
    (open' : c.xmit.state ≠ .dead) (none : c.xmit.bufRefCurrent = none) {buf : β} (some : c'.xmit.bufRefCurrent = some buf)
    (ready : c'.xmit.state = .ready) (taken : buf ∈ c'.accepted) (fits : Fits cfg (fragments buf)) : Flow fragments c' := by
  have bytes : c'.xmit.unsent fragments = encode (fragments buf) := by
    rw [Xmit.unsent,some]
    exact if_pos ready
  cases flow with
  | closed dead given => exact .closed (conn ▸ dead) (by rw [conn,sent]; exact given)
  | live started rest framed remains known now =>
    obtain ⟨rfl,eq⟩ := now open'
    rw [none] at framed remains known
    rw [Xmit.unsent,none] at eq
    refine .live (.some buf) (encode (fragments buf)) ?_ ⟨?_,List.suffix_refl _⟩ ?_ fun _ => ⟨some.symm,bytes.symm⟩
    · have more := framed.append (fragments buf)
      rw [arrive_arrive,eq,List.nil_append] at more
      rw [conn,sent]
      simpa using more
    · exact List.ne_nil_of_length_pos (Nat.lt_of_lt_of_le (by decide) fits.length)
    · intro other member
      rw [sent] at member
      rcases List.mem_append.mp member with old | new
      · exact accepted other (known other (List.mem_append_left _ old))
      · rw [List.mem_singleton.mp new]
        exact taken

/-- Some of the bytes of the current buffer are sent. -/
theorem Flow.part (flow : Flow fragments c) (sent : c'.sent = c.sent) (accepted : c'.accepted = c.accepted)
    (open' : c.xmit.state ≠ .dead) {n : Nat} (less : n < (c.xmit.unsent fragments).length)
    (conn : c'.conn = c.conn.arrive ((c.xmit.unsent fragments).take n)) (buffer : c'.xmit.bufRefCurrent = c.xmit.bufRefCurrent)
    (bytes : c'.xmit.unsent fragments = (c.xmit.unsent fragments).drop n) : Flow fragments c' := by
  cases flow with
  | closed dead given =>
    refine .closed ?_ ?_
    · rw [conn]
      exact dead
    · rw [conn,sent]
      exact given
  | live started rest framed remains known now =>
    obtain ⟨first,second⟩ := now open'
    refine .live started (rest.drop n) ?_ ?_ ?_ fun _ => ⟨first.trans buffer.symm,second ▸ bytes.symm⟩
    · rw [conn,sent,arrive_arrive,← second,List.take_append_drop]
      exact framed
    · rw [← second] at less
      cases started with
      | none =>
        rw [remains] at less
        exact absurd less (Nat.not_lt_zero _)
      | some buf =>
        refine ⟨?_,(List.drop_suffix n rest).trans remains.2⟩
        exact List.ne_nil_of_length_pos (by rw [List.length_drop]; exact Nat.sub_pos_of_lt less)
    · rw [sent,accepted]
      exact known

/-- The last byte of the current buffer is sent. -/
theorem Flow.whole (flow : Flow fragments c) {buf : β} (some : c.xmit.bufRefCurrent = some buf) (sent : c'.sent = c.sent ++ [buf])
    (accepted : c'.accepted = c.accepted) (open' : c.xmit.state ≠ .dead) (conn : c'.conn = c.conn.arrive (c.xmit.unsent fragments))
    (none : c'.xmit.bufRefCurrent = none) : Flow fragments c' := by
  cases flow with
  | closed dead given =>
    refine .closed ?_ ?_
    · rw [conn]
      exact dead
    · rw [conn,sent,List.map_append]
      exact given.trans (List.prefix_append _ _)
  | live started rest framed remains known now =>
    obtain ⟨first,second⟩ := now open'
    rw [some] at first
    subst first second
    refine .live .none [] ?_ rfl ?_ fun _ => ⟨none.symm,by rw [Xmit.unsent,none]⟩
    · rw [conn,sent,arrive_arrive,List.append_nil]
      simpa using framed
    · rw [sent,accepted]
      simpa using known

/-- A step of the receiver. -/
theorem Flow.receive (size : cfg.headerSize = 4) (small : cfg.maxReceiveSz < 2 ^ 31) (flow : Flow fragments c)
    (fits : ∀ buf ∈ c.accepted, Fits cfg (fragments buf)) {conn : Conn} {action : Action}
    (next : Stream.step (rpcTurn cfg) cfg action c.conn = some conn) : Flow fragments { c with conn := conn } := by
  have closed : conn.recv.state = .dead ∧ conn.delivered = c.conn.delivered → Flow fragments { c with conn := conn } := by
    rintro ⟨dead,same⟩
    exact .closed dead (by rw [same]; exact flow.given fits)
  cases flow with
  | closed dead given => exact closed (step_dead dead next)
  | live started rest framed remains known now =>
    have good : ∀ m ∈ (c.sent ++ started.toList).map fragments, Fits cfg m := by
      intro m member
      obtain ⟨buf,inside,rfl⟩ := List.mem_map.mp member
      exact fits buf (known buf inside)
    have calm : ∀ action' : Action, action' ≠ .turn .disc → Stream.step (rpcTurn cfg) cfg action' c.conn = some conn →
        Flow fragments { c with conn := conn } := by
      intro action' peaceful run
      exact .live started rest (framed.step size small good peaceful (step_arrive run)) remains known now
    by_cases peaceful : action = .turn .disc
    · subst peaceful
      cases step_disc next with
      | inl dead => exact closed dead
      | inr blocked => exact calm _ (by simp) blocked
    · exact calm action peaceful next

end Flow

section Transmitter
variable {β : Type} {cfg : Config} {fragments : β → Fragments} {c c' : Channel β}

/-- Where the transmitter is. Its loop does not end while it can go on. -/
inductive Sending (fragments : β → Fragments) (c : Channel β) : Prop
  | ready (state : c.xmit.state = .ready) (none : c.xmit.bufRefCurrent = none) (empty : c.xmit.xmitList = []) (out : c.calling = false)
  | first (buf : β) (state : c.xmit.state = .ready) (some : c.xmit.bufRefCurrent = some buf) (loop : c.calling = true)
  | inPrg (buf : β) (state : c.xmit.state = .inPrg) (some : c.xmit.bufRefCurrent = some buf)
      (all : c.xmit.nb2Write = (encode (fragments buf)).length) (less : c.xmit.nbWrite < c.xmit.nb2Write) (loop : c.calling = true)
  | check (state : c.xmit.state = .checkXmitq) (none : c.xmit.bufRefCurrent = none) (loop : c.calling = true)
  | congested (buf : β) (state : c.xmit.state = .congested) (some : c.xmit.bufRefCurrent = some buf)
      (all : c.xmit.nb2Write = (encode (fragments buf)).length) (less : c.xmit.nbWrite < c.xmit.nb2Write)
  | dead (state : c.xmit.state = .dead) (none : c.xmit.bufRefCurrent = none) (empty : c.xmit.xmitList = [])

/-- The buffers that the transmitter holds, in their order. -/
def Channel.held (c : Channel β) : List β := c.xmit.bufRefCurrent.toList ++ c.xmit.xmitList

/-- Every buffer that was accepted was sent, is held or was lost, in the order in which they were accepted. -/
structure Channel.Inv (cfg : Config) (fragments : β → Fragments) (c : Channel β) : Prop where
  sending : Sending fragments c
  flag : c.xmit.congestedFlag = true ↔ c.xmit.state = .congested
  order : (c.sent ++ c.held).Sublist c.accepted
  count : (c.sent ++ c.held).length + c.lost = c.accepted.length
  fits : ∀ buf ∈ c.accepted, Fits cfg (fragments buf)
  flow : Flow fragments c

theorem Channel.Inv.current (inv : c.Inv cfg fragments) (some : c.xmit.bufRefCurrent = some buf) : Fits cfg (fragments buf) := by
  refine inv.fits buf (inv.order.subset (List.mem_append_right _ ?_))
  rw [Channel.held,some]
  exact List.mem_cons_self

theorem unsent_inPrg (fragments : β → Fragments) (state : c.xmit.state ≠ .ready) (some : c.xmit.bufRefCurrent = some buf) :
    c.xmit.unsent fragments = (encode (fragments buf)).drop c.xmit.nbWrite := by
  rw [Xmit.unsent,some]
  exact if_neg state

theorem disconnect_inv (inv : c.Inv cfg fragments) : c.disconnect.Inv cfg fragments := by
  refine ⟨.dead rfl rfl rfl,⟨fun flag => ?_,fun state => ?_⟩,?_,?_,inv.fits,?_⟩
  · cases flag
  · cases state
  · have held : c.disconnect.held = [] := rfl
    rw [held,List.append_nil]
    exact (List.sublist_append_left c.sent c.held).trans inv.order
  · have count := inv.count
    simp only [Channel.held,Channel.disconnect,List.length_append,Option.toList_none,List.length_nil] at count ⊢
    omega
  · exact inv.flow.same rfl rfl (fun _ member => member) fun alive => absurd rfl alive

/-- A turn of the loop. -/
theorem fsmTurn_inv (inv : c.Inv cfg fragments) (run : c.calling = true)
    (next : fsmTurn (fun buf => encode (fragments buf)) answer c = some c') : c'.Inv cfg fragments := by
  rw [fsmTurn] at next
  cases inv.sending with
  | ready state none empty out =>
    rw [out] at run
    cases run
  | first buf state some loop =>
    simp only [state,some,Option.some.injEq] at next
    subst next
    have bytes := inv.current some
    have order := inv.order
    have count := inv.count
    rw [Channel.held,some] at order count
    refine ⟨.inPrg buf rfl rfl rfl (Nat.lt_of_lt_of_le (Nat.zero_lt_succ 4) bytes.length) loop,⟨fun flag => ?_,fun state' => ?_⟩,order,
      count,inv.fits,?_⟩
    · exact absurd (inv.flag.mp flag) (by rw [state]; simp)
    · cases state'
    · refine inv.flow.same rfl rfl (fun _ member => member) fun _ => ⟨by rw [state]; simp,some.symm,?_⟩
      simp only [Xmit.unsent,some,state,List.drop_zero]
      rfl
  | inPrg buf state some all less loop =>
    have closed : c.xmit.state ≠ .dead := by
      rw [state]
      simp
    have unready : c.xmit.state ≠ .ready := by
      rw [state]
      simp
    have bytes := unsent_inPrg fragments unready some
    have length : (c.xmit.unsent fragments).length = c.xmit.nb2Write - c.xmit.nbWrite := by rw [bytes,List.length_drop,all]
    have flag : c.xmit.congestedFlag ≠ true := fun set => by
      have other := inv.flag.mp set
      rw [state] at other
      cases other
    have rest : c.xmit.nb2Write - c.xmit.nbWrite ≠ 0 := by omega
    have order := inv.order
    have count := inv.count
    rw [Channel.held,some] at order count
    simp only [state,some,sendStreamGeneric] at next
    cases answer with
    | error =>
      cases next
      exact disconnect_inv inv
    | wouldBlock =>
      simp only [if_neg rest,Option.some.injEq] at next
      subst next
      refine ⟨.congested buf rfl rfl all less,⟨fun _ => rfl,fun _ => rfl⟩,order,count,inv.fits,?_⟩
      refine inv.flow.same rfl rfl (fun _ member => member) fun _ => ⟨closed,some.symm,?_⟩
      rw [bytes]
      exact unsent_inPrg fragments (by simp) rfl
    | bytes n =>
      simp only [if_neg rest] at next
      by_cases good : 0 < n ∧ n ≤ c.xmit.nb2Write - c.xmit.nbWrite
      · rw [if_pos good] at next
        by_cases whole : n = c.xmit.nb2Write - c.xmit.nbWrite
        · simp only [if_pos whole,Option.some.injEq] at next
          subst next
          have everything : ((encode (fragments buf)).drop c.xmit.nbWrite).take (c.xmit.nb2Write - c.xmit.nbWrite) = c.xmit.unsent fragments := by
            rw [← bytes,← length,List.take_length]
          refine ⟨.check rfl rfl loop,⟨fun set => absurd set flag,fun state' => ?_⟩,?_,?_,inv.fits,?_⟩
          · cases state'
          · simpa [Channel.held] using order
          · simpa [Channel.held] using count
          · exact inv.flow.whole some rfl rfl closed (by simp only [everything]) rfl
        · simp only [if_neg whole,Option.some.injEq] at next
          subst next
          refine ⟨.inPrg buf rfl rfl all (by simp only; omega) loop,⟨fun set => absurd set flag,fun state' => ?_⟩,order,count,inv.fits,?_⟩
          · cases state'
          · refine inv.flow.part (n := n) rfl rfl closed (by omega) (by simp only [bytes]) some.symm ?_
            rw [bytes,List.drop_drop]
            exact unsent_inPrg fragments (by simp) rfl
      · rw [if_neg good] at next
        cases next
  | check state none loop =>
    have closed : c.xmit.state ≠ .dead := by
      rw [state]
      simp
    have flag : c.xmit.congestedFlag ≠ true := fun set => by
      have other := inv.flag.mp set
      rw [state] at other
      cases other
    simp only [state,none] at next
    cases queue : c.xmit.xmitList with
    | nil =>
      simp only [queue,Option.some.injEq] at next
      subst next
      have order := inv.order
      have count := inv.count
      rw [Channel.held,none,queue] at order count
      refine ⟨.ready rfl rfl rfl rfl,⟨fun set => absurd set flag,fun state' => ?_⟩,order,count,inv.fits,?_⟩
      · cases state'
      · refine inv.flow.same rfl rfl (fun _ member => member) fun _ => ⟨closed,none.symm,?_⟩
        simp only [Xmit.unsent,none]
    | cons buf queue' =>
      simp only [queue,Option.some.injEq] at next
      subst next
      have order := inv.order
      have count := inv.count
      simp only [Channel.held,none,queue,Option.toList_none,List.nil_append] at order count
      have taken : buf ∈ c.accepted := order.subset (List.mem_append_right _ List.mem_cons_self)
      refine ⟨.first buf rfl rfl loop,⟨fun set => absurd set flag,fun state' => ?_⟩,order,count,inv.fits,?_⟩
      · cases state'
      · exact inv.flow.start rfl rfl (fun _ member => member) closed none rfl rfl taken (inv.fits buf taken)
  | congested buf state some all less =>
    simp only [state,Option.some.injEq] at next
    subst next
    refine ⟨.inPrg buf rfl some all less run,⟨fun flag => ?_,fun state' => ?_⟩,inv.order,inv.count,inv.fits,?_⟩
    · cases flag
    · cases state'
    · refine inv.flow.same rfl rfl (fun _ member => member) fun _ => ⟨by rw [state]; simp,rfl,?_⟩
      have before := unsent_inPrg fragments (by rw [state]; simp) some
      have after := unsent_inPrg (c := { c with xmit := { c.xmit with congestedFlag := false, state := .inPrg } }) fragments
        (by simp) some
      exact after.trans before.symm
  | dead state none empty =>
    simp only [state,Option.some.injEq] at next
    subst next
    exact ⟨.dead state none empty,inv.flag,inv.order,inv.count,inv.fits,
      inv.flow.same rfl rfl (fun _ member => member) fun alive => absurd state alive⟩

/-- A buffer goes to the end of the queue. -/
theorem queue_inv (inv : c.Inv cfg fragments) (busy : c.xmit.state = .inPrg ∨ c.xmit.state = .checkXmitq ∨ c.xmit.state = .congested)
    (fits : Fits cfg (fragments buf)) :
    Channel.Inv cfg fragments
      { c with xmit := { c.xmit with xmitList := c.xmit.xmitList ++ [buf] }, accepted := c.accepted ++ [buf] } := by
  refine ⟨?_,inv.flag,?_,?_,?_,?_⟩
  · cases inv.sending with
    | ready state => simp [state] at busy
    | first _ state => simp [state] at busy
    | inPrg current state some all less loop => exact .inPrg current state some all less loop
    | check state none loop => exact .check state none loop
    | congested current state some all less => exact .congested current state some all less
    | dead state => simp [state] at busy
  · have order := inv.order.append_right [buf]
    simpa [Channel.held] using order
  · have count := inv.count
    simp only [Channel.held,List.length_append,List.length_singleton] at count ⊢
    omega
  · intro other member
    rcases List.mem_append.mp member with old | new
    · exact inv.fits other old
    · rw [List.mem_singleton.mp new]
      exact fits
  · exact inv.flow.same rfl rfl (fun _ member => List.mem_append_left _ member) fun alive => ⟨alive,rfl,rfl⟩

theorem genericStreamSend_busy (busy : c.xmit.state = .inPrg ∨ c.xmit.state = .checkXmitq ∨ c.xmit.state = .congested) (buf : β) :
    (genericStreamSend c buf).2 =
      { c with xmit := { c.xmit with xmitList := c.xmit.xmitList ++ [buf] }, accepted := c.accepted ++ [buf] } := by
  rcases busy with state | state | state <;> simp only [genericStreamSend,state]

theorem genericStreamSend_inv (inv : c.Inv cfg fragments) (idle : c.Idle) (fits : Fits cfg (fragments buf)) :
    (genericStreamSend c buf).2.Inv cfg fragments := by
  cases inv.sending with
  | ready state none empty out =>
    simp only [genericStreamSend,state]
    refine ⟨.first buf rfl rfl rfl,⟨fun flag => ?_,fun state' => ?_⟩,?_,?_,?_,?_⟩
    · exact absurd (inv.flag.mp flag) (by rw [state]; simp)
    · cases state'
    · have order := inv.order.append_right [buf]
      simpa [Channel.held,none,empty] using order
    · have count := inv.count
      simp only [Channel.held,none,empty,List.length_append,Option.toList_none,Option.toList_some,List.length_nil,List.length_singleton] at count ⊢
      omega
    · intro other member
      rcases List.mem_append.mp member with old | new
      · exact inv.fits other old
      · rw [List.mem_singleton.mp new]
        exact fits
    · exact inv.flow.start rfl rfl (fun _ member => List.mem_append_left _ member) (by rw [state]; simp) none rfl rfl
        (List.mem_append_right _ List.mem_cons_self) fits
  | first current state some loop =>
    rcases idle with out | other
    · rw [loop] at out
      cases out
    · rw [state] at other
      cases other
  | inPrg current state =>
    rw [genericStreamSend_busy (.inl state)]
    exact queue_inv inv (.inl state) fits
  | check state =>
    rw [genericStreamSend_busy (.inr (.inl state))]
    exact queue_inv inv (.inr (.inl state)) fits
  | congested current state =>
    rw [genericStreamSend_busy (.inr (.inr state))]
    exact queue_inv inv (.inr (.inr state)) fits
  | dead state =>
    simp only [genericStreamSend,state]
    exact inv

/-- The messages that are sent are RPC messages for which the receiver has room. -/
def Sends (cfg : Config) (fragments : β → Fragments) (_ : Channel β) : Event β → Prop
  | .send buf => Fits cfg (fragments buf)
  | _ => True

theorem step_inv (size : cfg.headerSize = 4) (small : cfg.maxReceiveSz < 2 ^ 31) (inv : c.Inv cfg fragments) {e : Event β}
    (sends : Sends cfg fragments c e) (next : Channel.step (fun buf => encode (fragments buf)) cfg e c = some c') : c'.Inv cfg fragments := by
  cases e with
  | send buf =>
    simp only [Channel.step] at next
    split at next
    · rename_i idle
      cases next
      exact genericStreamSend_inv inv idle sends
    · cases next
  | withdraw place =>
    simp only [Channel.step] at next
    split at next
    · rename_i idle
      cases next
      refine ⟨?_,inv.flag,?_,?_,inv.fits,inv.flow.same rfl rfl (fun _ member => member) fun alive => ⟨alive,rfl,rfl⟩⟩
      · cases inv.sending with
        | ready state none empty out => exact .ready state none (by simp only [empty,List.eraseIdx_nil]) out
        | first current state some loop => exact .first current state some loop
        | inPrg current state some all less loop => exact .inPrg current state some all less loop
        | check state none loop => exact .check state none loop
        | congested current state some all less => exact .congested current state some all less
        | dead state none empty => exact .dead state none (by simp only [empty,List.eraseIdx_nil])
      · refine List.Sublist.trans ?_ inv.order
        exact (List.Sublist.refl _).append ((List.Sublist.refl _).append (List.eraseIdx_sublist _ _))
      · have count := inv.count
        simp only [Channel.held,List.length_append,List.length_eraseIdx,if_pos idle.2] at count ⊢
        omega
    · cases next
  | xmitEvt =>
    simp only [Channel.step] at next
    split at next
    · rename_i congested
      cases next
      have state := inv.flag.mp congested.2
      refine ⟨?_,inv.flag,inv.order,inv.count,inv.fits,inv.flow.same rfl rfl (fun _ member => member) fun alive => ⟨alive,rfl,rfl⟩⟩
      cases inv.sending with
      | congested current state some all less => exact .congested current state some all less
      | ready other => simp [other] at state
      | first _ other => simp [other] at state
      | inPrg _ other => simp [other] at state
      | check other => simp [other] at state
      | dead other => simp [other] at state
    · cases next
  | xmit answer =>
    simp only [Channel.step] at next
    split at next
    · rename_i run
      exact fsmTurn_inv inv run next
    · cases next
  | disconnect =>
    simp only [Channel.step] at next
    split at next
    · cases next
      exact disconnect_inv inv
    · cases next
  | recv action =>
    obtain ⟨conn,run,rfl⟩ := Option.map_eq_some_iff.mp next
    refine ⟨?_,inv.flag,inv.order,inv.count,inv.fits,inv.flow.receive size small inv.fits run⟩
    cases inv.sending with
    | ready state none empty out => exact .ready state none empty out
    | first current state some loop => exact .first current state some loop
    | inPrg current state some all less loop => exact .inPrg current state some all less loop
    | check state none loop => exact .check state none loop
    | congested current state some all less => exact .congested current state some all less
    | dead state none empty => exact .dead state none empty

theorem connected_inv (cfg : Config) (fragments : β → Fragments) : Channel.Inv cfg fragments connected := by
  refine ⟨.ready rfl rfl rfl rfl,⟨fun flag => ?_,fun state => ?_⟩,List.Sublist.refl _,rfl,fun _ member => ?_,?_⟩
  · cases flag
  · cases state
  · cases member
  · exact .live none [] ⟨[],[],rfl,rfl,.idle rfl rfl⟩ rfl (fun _ member => by cases member) fun _ => ⟨rfl,rfl⟩

theorem run_inv (size : cfg.headerSize = 4) (small : cfg.maxReceiveSz < 2 ^ 31)
    (run : Machine.Run (Channel.step (fun buf => encode (fragments buf)) cfg) (Sends cfg fragments) connected c) : c.Inv cfg fragments :=
  run.invariant (Channel.Inv cfg fragments) (connected_inv cfg fragments) fun _ _ _ inv sends next => step_inv size small inv sends next

/-- The application of the receiver gets the first of the messages that were sent whole, in their order, and
all of them when nothing is on its way to an open receiver. The buffers that were accepted are sent in their
order, but those that were lost, and the transmitter does not keep one without asking to be called again. -/
theorem sent_in_order (size : cfg.headerSize = 4) (small : cfg.maxReceiveSz < 2 ^ 31)
    (run : Machine.Run (Channel.step (fun buf => encode (fragments buf)) cfg) (Sends cfg fragments) connected c) :
    (c.conn.delivered <+: c.sent.map fun buf => message (fragments buf)) ∧
    (c.conn.recv.state ≠ .dead → c.conn.input = [] → c.conn.delivered = c.sent.map fun buf => message (fragments buf)) ∧
    (c.sent ++ c.held).Sublist c.accepted ∧ (c.sent ++ c.held).length + c.lost = c.accepted.length ∧
    (c.calling = false → c.held = [] ∨ c.xmit.congestedFlag = true) := by
  have inv := run_inv size small run
  refine ⟨inv.flow.given inv.fits,inv.flow.drained inv.fits,inv.order,inv.count,fun out => ?_⟩
  cases inv.sending with
  | ready state none empty _ =>
    rw [Channel.held,none,empty]
    exact .inl rfl
  | dead state none empty =>
    rw [Channel.held,none,empty]
    exact .inl rfl
  | congested buf state some all less => exact .inr (inv.flag.mpr state)
  | first buf state some loop => exact absurd (loop.symm.trans out) (by simp)
  | inPrg buf state some all less loop => exact absurd (loop.symm.trans out) (by simp)
  | check state none loop => exact absurd (loop.symm.trans out) (by simp)

/-- A message of one byte is cut by the socket and by a congestion. -/
theorem sent_in_order_cut : ∃ c : Channel Unit, c.sent = [()] ∧ c.conn.recv.state ≠ .dead ∧ c.conn.input = [] ∧
    (c.conn.delivered <+: c.sent.map fun _ => message [[7]]) ∧
    (c.conn.recv.state ≠ .dead → c.conn.input = [] → c.conn.delivered = c.sent.map fun _ => message [[7]]) ∧
    (c.sent ++ c.held).Sublist c.accepted ∧ (c.sent ++ c.held).length + c.lost = c.accepted.length ∧
    (c.calling = false → c.held = [] ∨ c.xmit.congestedFlag = true) := by
  have fits : Fits ⟨4,64,64,4⟩ [[7]] := ⟨by simp,by simp,by decide⟩
  have sent : Machine.Run (Channel.step (fun _ : Unit => encode [[7]]) ⟨4,64,64,4⟩) (Sends ⟨4,64,64,4⟩ fun _ => [[7]]) connected _ :=
    Machine.Run.refl.tail (.send ()) fits rfl
  have first := (sent.tail (.xmit .wouldBlock) trivial rfl).tail (.xmit (.bytes 2)) trivial rfl
  have congested := (first.tail (.xmit .wouldBlock) trivial rfl).tail .xmitEvt trivial rfl
  have last := (congested.tail (.xmit .wouldBlock) trivial rfl).tail (.xmit (.bytes 3)) trivial rfl
  have header := (last.tail (.recv .event) trivial rfl).tail (.recv (.turn .wouldBlock)) trivial rfl
  have buffer := (header.tail (.recv (.turn (.data 4))) trivial rfl).tail (.recv (.turn (.buffer true))) trivial rfl
  have received := buffer.tail (.recv (.turn (.data 1))) trivial rfl
  exact ⟨_,rfl,by decide,rfl,sent_in_order rfl (by decide) received⟩

end Transmitter

end Rozofs.Stream
