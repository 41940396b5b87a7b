import Rozofs.Layout
import Rozofs.Machine
import Rozofs.Overlay
import Mathlib.Algebra.Order.Ring.Int

/-! The buffer of an open file in the client: `buf_file_write_nb`, `buf_flush`,
`flush_write_ientry`, `file_read_nb` and the merge of received blocks in `rozofs_ll_read_cbk`.
Two nested windows of file offsets describe the buffer. What the cache of the client returns
and whether a request can be sent are answers of the environment. -/
namespace Rozofs.FileBuffer
open Overlay

/-- `exportclt`: the size of the buffer is between 128 and 256 KiB. -/
structure Config where
  bsize : BSize
  bufsize : Nat
  low : 128 * 1024 ≤ bufsize
  high : bufsize ≤ 256 * 1024

def Config.bbytes (cfg : Config) : Nat := cfg.bsize.bytes

def rozofsMaxFileBufSz : Nat := 256 * 1024

/-- A read sent to the storage client; `data` is the file as it was when the read was served. -/
structure Read (β : Type) where
  off : Nat
  size : Nat
  readahead : Bool
  data : Option (Nat → β)

/-- What `rozofs_mbcache_get` does: the bytes it copies, and whether it returns their number
or -1, which it may also do after it has copied some. -/
structure CacheGet (β : Type) where
  copied : Nat
  bytes : Nat → β
  found : Bool

/-- `file_t` and the fields of its `ientry_t`. What is observed of the file: the bytes that the
storages hold once they have executed what was sent, the bytes that the application wrote last,
and each byte sent by a flush with the one written last at that offset. -/
structure State (β : Type) where
  buffer : Nat → β
  readFrom : Nat
  readPos : Nat
  writeFrom : Nat
  writePos : Nat
  bufWriteWait : Bool
  readConsistency : Nat
  writePending : Bool
  ieReadConsistency : Nat
  reads : List (Read β)
  storage : Nat → β
  written : Nat → β
  flushed : List (Nat × β × β)

/-- Answer to a write request: sent, not sent, or not tried because a former write failed. -/
inductive Answer where
  | accepted
  | refused
  | wrError
  deriving DecidableEq, Repr

section Flush
variable {β : Type} (st : State β)

/-- `write_buf_nb`. -/
def writeBufNb (off len : Nat) (data : Nat → β) : State β :=
  { st with
    storage := overlay st.storage off len data
    flushed := st.flushed ++ (List.range len).map fun i => (off + i,data i,st.written (off + i)) }

/-- Conversion of a difference of offsets to `uint32_t`. -/
def diff32 (a b : Nat) : Nat := (((a : Int) - b) % 2 ^ 32).toNat

/-- `buf_flush`. -/
def bufFlush (answer : Answer) : State β × Bool :=
  if answer = .accepted then
    let base := diff32 st.writeFrom st.readFrom
    let st := writeBufNb st st.writeFrom (diff32 st.writePos st.writeFrom) fun i => st.buffer (base + i)
    ({ st with bufWriteWait := false, writePending := false },true)
  else (st,false)

/-- `rozofs_asynchronous_flush`. -/
def asynchronousFlush (answer : Answer) : State β × Bool :=
  if answer = .wrError then (st,false)
  else if st.bufWriteWait then bufFlush st answer
  else (st,true)

/-- `flush_write_ientry`: the window is reset after a success. -/
def flushWriteIentry (answer : Answer) : State β × Bool :=
  if st.writePending then
    match asynchronousFlush { st with writePending := false } answer with
    | (st,true) => ({ st with bufWriteWait := false, writeFrom := 0, writePos := 0 },true)
    | (st,false) => (st,false)
  else (st,true)

end Flush

section Write
variable {β : Type} (cfg : Config)

/-- `rozofs_write_in_buffer`; it stops the client rather than writing after the buffer. -/
def writeInBuffer (dst len : Nat) (data : Nat → β) (st : State β) : Option (State β) :=
  if dst + len ≤ cfg.bufsize then some { st with buffer := overlay st.buffer dst len data } else none

/-- Bytes of the application are taken from its buffer. -/
def take (off len : Nat) (data : Nat → β) (st : State β) : State β :=
  { st with written := overlay st.written off len data }

def copyUser (dst off len : Nat) (data : Nat → β) (st : State β) : Option (State β) :=
  (writeInBuffer cfg dst len data st).map (take off len data)

def bufAlignWriteFrom (st : State β) : State β :=
  let off2start := st.writeFrom / cfg.bbytes * cfg.bbytes
  if st.readFrom ≤ off2start then { st with writeFrom := off2start } else st

def bufAlignWritePos (st : State β) : State β :=
  if st.writePos % cfg.bbytes ≠ 0 then
    let off2end := (st.writePos / cfg.bbytes + 1) * cfg.bbytes
    if off2end ≤ st.readPos then { st with writePos := off2end } else st
  else st

/-- Both windows are the one of the write. -/
def window (start stop : Nat) (st : State β) : State β :=
  { st with readFrom := start, readPos := stop, writeFrom := start, writePos := stop, bufWriteWait := true }

/-- `BUF_ACT_COPY_EMPTY`; a write of the size of a buffer goes directly to the storages. -/
def copyEmpty (answer : Answer) (off len : Nat) (data : Nat → β) (st : State β) : Option (State β) :=
  if len < rozofsMaxFileBufSz then copyUser cfg 0 off len data (window off (off + len) st)
  else some (if answer = .accepted then writeBufNb (take off len data st) off len data else st)

/-- `BUF_ACT_COPY`. -/
def copy (off len : Nat) (data : Nat → β) (st : State β) : Option (State β) :=
  let st :=
    if st.writeFrom = st.writePos then { st with writeFrom := off, writePos := off + len }
    else { st with
      writeFrom := if st.writeFrom > off then off else st.writeFrom
      writePos := if st.writePos < off + len then off + len else st.writePos }
  let st := bufAlignWriteFrom cfg st
  let st := if st.writePos > st.readPos then { st with readPos := st.writePos } else bufAlignWritePos cfg st
  copyUser cfg (off - st.readFrom) off len data { st with bufWriteWait := true }

/-- `BUF_ACT_COPY_OVERLAP`. -/
def copyOverlap (off len : Nat) (data : Nat → β) (st : State β) : Option (State β) :=
  let st := bufAlignWriteFrom cfg { st with writeFrom := off }
  if off = st.writeFrom then copyUser cfg 0 off len data (window off (off + len) st)
  else
    let lenAlignment := off - st.writeFrom
    if len + lenAlignment > cfg.bufsize then copyUser cfg 0 off len data (window off (off + len) st)
    else
      (writeInBuffer cfg 0 lenAlignment (fun i => st.buffer (off - lenAlignment - st.readFrom + i)) st).bind fun st =>
        copyUser cfg lenAlignment off len data (window (off - lenAlignment) (off + len) st)

/-- `BUF_ACT_FLUSH_THEN_COPY_NEW`. -/
def flushThenCopyNew (flush send : Answer) (off len : Nat) (data : Nat → β) (st : State β) : Option (State β) :=
  let flushed :=
    if st.bufWriteWait then
      if len < rozofsMaxFileBufSz then bufFlush st flush else flushWriteIentry st flush
    else (st,true)
  match flushed with
  | (st,true) => copyEmpty cfg send off len data st
  | (st,false) => some st

/-- `BUF_ACT_FLUSH_ALIGN_THEN_COPY_NEW`. -/
def flushAlignThenCopyNew (flush : Answer) (off len : Nat) (data : Nat → β) (st : State β) : Option (State β) :=
  let st := { st with
    writeFrom := if st.writeFrom = st.writePos then off else if st.writeFrom > off then off else st.writeFrom }
  let st := bufAlignWriteFrom cfg st
  let off2end := st.readFrom + cfg.bufsize
  (copyUser cfg (off - st.readFrom) off (off2end - off) data st).bind fun st =>
    match bufFlush { st with writePos := off2end, bufWriteWait := true } flush with
    | (st,false) => some st
    | (st,true) =>
      let bufOff := off2end - off
      (copyUser cfg 0 off2end (len - bufOff) (fun i => data (bufOff + i)) st).map fun st =>
        { st with
          writeFrom := off2end, writePos := off + len, readFrom := off2end, readPos := off + len
          bufWriteWait := st.bufWriteWait || off2end ≠ off + len }

/-- Place of the first byte of a write with respect to the window of valid bytes. -/
inductive BufSt where
  | empty
  | readBefore
  | readInside
  | readAfter
  deriving DecidableEq, Repr

inductive BufAct where
  | copyEmpty
  | copy
  | copyOverlap
  | flushThenCopyNew
  | flushAlignThenCopyNew
  deriving DecidableEq, Repr

def bufSt (st : State β) (off : Nat) : BufSt :=
  if st.readFrom ≠ st.readPos then
    if st.readFrom ≤ off then if off ≤ st.readPos then .readInside else .readAfter
    else .readBefore
  else .empty

def bufAct (st : State β) (off len : Nat) : BufAct :=
  match bufSt st off with
  | .empty => .copyEmpty
  | .readBefore => .flushThenCopyNew
  | .readInside =>
    if cfg.bufsize ≤ off + len - st.readFrom then
      if st.writeFrom ≠ st.writePos then .flushAlignThenCopyNew else .copyOverlap
    else .copy
  | .readAfter => .flushThenCopyNew

/-- What `buf_file_write_nb` does before it looks at the windows. -/
def prepareWrite (flush : Answer) (len : Nat) (st : State β) : State β :=
  let st := if st.writePending then st else (flushWriteIentry st flush).1
  let st := if len ≥ rozofsMaxFileBufSz then { (flushWriteIentry st flush).1 with readFrom := 0, readPos := 0 } else st
  let st := if st.readConsistency ≠ st.ieReadConsistency then { st with readFrom := 0, readPos := 0 } else st
  { st with ieReadConsistency := st.ieReadConsistency + 1, readConsistency := st.ieReadConsistency + 1 }

/-- `buf_file_write_nb`. -/
def bufFileWriteNb (flush send : Answer) (off len : Nat) (data : Nat → β) (st : State β) : Option (State β) :=
  let st := prepareWrite flush len st
  let result :=
    match bufAct cfg st off len with
    | .copyEmpty => copyEmpty cfg send off len data st
    | .copy => copy cfg off len data st
    | .copyOverlap => copyOverlap cfg off len data st
    | .flushThenCopyNew => flushThenCopyNew cfg flush send off len data st
    | .flushAlignThenCopyNew => flushAlignThenCopyNew cfg flush off len data st
  result.map fun st => if st.bufWriteWait then { st with writePending := true } else st

end Write

section Read
variable {β : Type} (cfg : Config)

/-- First offset of `rozofs_align_off_and_len`. -/
def offAligned (off : Nat) : Nat := off / cfg.bbytes * cfg.bbytes

/-- What `file_read_nb` does before it looks at the window. -/
def prepareRead (flush : Answer) (st : State β) : State β :=
  let st := (flushWriteIentry st flush).1
  if st.readConsistency ≠ st.ieReadConsistency then
    { st with readFrom := 0, readPos := 0, readConsistency := st.ieReadConsistency }
  else st

/-- The window does not have all the bytes, the file has some, and no read is in progress. -/
def asksCache (size off len : Nat) (st : State β) : Bool :=
  (off < st.readFrom || st.readPos < off || st.readPos < off + len) && size ≠ 0 &&
    !(!st.reads.isEmpty && len < cfg.bufsize)

/-- `rozofs_mbcache_get` has copied its bytes into the buffer. -/
def fromCache (cache : CacheGet β) (st : State β) : State β :=
  { st with buffer := overlay st.buffer 0 cache.copied cache.bytes }

def cacheSuffices (size off len : Nat) (cache : CacheGet β) : Bool :=
  cache.found && (offAligned cfg off + cache.copied = size || len ≤ cache.copied)

/-- `file_read_nb` for a file of `size` bytes. -/
def fileReadNb (flush : Answer) (size off len : Nat) (cache : CacheGet β) (st : State β) : State β :=
  let st := prepareRead flush st
  if asksCache cfg size off len st then
    let st := fromCache cache st
    if cacheSuffices cfg size off len cache then
      { st with readFrom := offAligned cfg off, readPos := offAligned cfg off + cache.copied }
    else { st with reads := st.reads ++ [⟨off,len,false,none⟩] }
  else st

/-- The cases of the merge, `RZ_FUSE_WRITE_0` to `RZ_FUSE_WRITE_9`; 6, 7 and 8 do the same. -/
inductive Merge where
  | writeBefore
  | writeEndsInside
  | readInside
  | writeInside
  | writeStartsInside
  | writeStartsInsideLong
  | writeAfter
  | none
  deriving DecidableEq, Repr

def mergeCase (st : State β) (nextReadFrom nextReadPos : Nat) : Merge :=
  if st.writePos ≤ nextReadFrom then .writeBefore
  else if st.writeFrom ≤ nextReadFrom ∧ nextReadFrom ≤ st.writePos ∧ nextReadPos > st.writePos then .writeEndsInside
  else if (st.writeFrom ≤ nextReadFrom ∧ nextReadFrom ≤ st.writePos) ∧
      (st.writeFrom ≤ nextReadPos ∧ nextReadPos ≤ st.writePos) then .readInside
  else if (nextReadFrom ≤ st.writeFrom ∧ st.writeFrom ≤ nextReadPos) ∧
      (nextReadFrom ≤ st.writePos ∧ st.writePos ≤ nextReadPos) then .writeInside
  else if (nextReadFrom ≤ st.writeFrom ∧ st.writeFrom ≤ nextReadPos) ∧ st.writePos > nextReadPos then
    if st.writePos - nextReadFrom ≤ cfg.bufsize then .writeStartsInside else .writeStartsInsideLong
  else if nextReadPos ≤ st.writeFrom then .writeAfter
  else .none

/-- The received bytes, with saved bytes of the write window over them. -/
def installOver (nextReadFrom readPos n : Nat) (data : Nat → β) (dst len : Nat) (saved : Nat → β) (st : State β) :
    Option (State β) :=
  ((writeInBuffer cfg 0 n data st).bind (writeInBuffer cfg dst len saved)).map fun st =>
    { st with readFrom := nextReadFrom, readPos := readPos }

/-- The merge of received bytes with a write that waits. -/
def mergeReceived (flush : Answer) (nextReadFrom n : Nat) (data : Nat → β) (st : State β) : Option (State β) :=
  let nextReadPos := nextReadFrom + n
  match mergeCase cfg st nextReadFrom nextReadPos with
  | .writeBefore | .writeAfter =>
    let st := { (asynchronousFlush st flush).1 with writePos := 0, writeFrom := 0 }
    (writeInBuffer cfg 0 n data st).map fun st => { st with readFrom := nextReadFrom, readPos := nextReadPos }
  | .writeEndsInside =>
    let len := st.writePos - nextReadFrom
    let saved := fun i => st.buffer (st.writeFrom - st.readFrom + (nextReadFrom - st.writeFrom) + i)
    installOver cfg nextReadFrom nextReadPos n data 0 len saved
      { (asynchronousFlush st flush).1 with writePos := 0, writeFrom := 0 }
  | .readInside => some st
  | .writeInside =>
    installOver cfg nextReadFrom nextReadPos n data (st.writeFrom - nextReadFrom) (st.writePos - st.writeFrom)
      (fun i => st.buffer (st.writeFrom - st.readFrom + i)) st
  | .writeStartsInside =>
    installOver cfg nextReadFrom st.writePos n data (st.writeFrom - nextReadFrom) (st.writePos - st.writeFrom)
      (fun i => st.buffer (st.writeFrom - st.readFrom + i)) st
  | .writeStartsInsideLong =>
    let offsetEnd := nextReadFrom + cfg.bufsize
    installOver cfg nextReadFrom offsetEnd n data (st.writeFrom - nextReadFrom) (offsetEnd - st.writeFrom)
      (fun i => st.buffer (st.writeFrom - st.readFrom + i))
      { (asynchronousFlush st flush).1 with writePos := 0, writeFrom := 0 }
  | .none => some st

/-- Without a write that waits, the part that the application has not asked for is kept. -/
def installReceived (r : Read β) (nextReadFrom n : Nat) (data : Nat → β) (st : State β) : Option (State β) :=
  let readPos := nextReadFrom + n
  let length := if r.off < readPos then min r.size (readPos - r.off) else 0
  let newReadFrom := if r.readahead then nextReadFrom else (r.off + length) / cfg.bbytes * cfg.bbytes
  (writeInBuffer cfg 0 (readPos - newReadFrom) (fun i => data (newReadFrom - nextReadFrom + i)) st).map fun st =>
    { st with readFrom := newReadFrom, readPos := readPos }

/-- Received bytes that are too many for the buffer go to the application only. -/
def bigRead (r : Read β) (n : Nat) : Bool := !r.readahead && rozofsMaxFileBufSz < n

/-- `rozofs_ll_read_cbk` for `n` received bytes, cut to the size of the file. -/
def readCbk (flush : Answer) (r : Read β) (n : Nat) (data : Nat → β) (st : State β) : Option (State β) :=
  let nextReadFrom := offAligned cfg r.off
  if n = 0 || bigRead r n then some st
  else if st.bufWriteWait then mergeReceived cfg flush nextReadFrom n data st
  else installReceived cfg r nextReadFrom n data st

end Read

/-- Requests of the application, flushes, and the life of the reads at the storages. -/
inductive Act (β : Type) where
  | write (flush send : Answer) (off len : Nat) (data : Nat → β)
  | flush (answer : Answer)
  | flushIentry (answer : Answer)
  | read (flush : Answer) (size off len : Nat) (cache : CacheGet β)
  | readahead
  | serve (k : Nat)
  | response (flush : Answer) (k n : Nat)

def step {β : Type} (cfg : Config) (a : Act β) (st : State β) : Option (State β) :=
  match a with
  | .write flush send off len data => bufFileWriteNb cfg flush send off len data st
  | .flush answer => some (if st.bufWriteWait then (bufFlush st answer).1 else st)
  | .flushIentry answer => some (flushWriteIentry st answer).1
  | .read flush size off len cache => some (fileReadNb cfg flush size off len cache st)
  | .readahead => some { st with reads := st.reads ++ [⟨st.readPos,cfg.bufsize,true,none⟩] }
  | .serve k => st.reads[k]?.map fun r => { st with reads := st.reads.set k { r with data := some st.storage } }
  | .response flush k n =>
    st.reads[k]?.bind fun r => r.data.bind fun data =>
      readCbk cfg flush r n (fun i => data (offAligned cfg r.off + i)) { st with reads := st.reads.eraseIdx k }

/-- `rozofs_file_working_var_init`: nothing is in the buffer. -/
def fileInit {β : Type} (buffer storage : Nat → β) : State β where
  buffer := buffer
  readFrom := 0
  readPos := 0
  writeFrom := 0
  writePos := 0
  bufWriteWait := false
  readConsistency := 0
  writePending := false
  ieReadConsistency := 1
  reads := []
  storage := storage
  written := storage
  flushed := []

end Rozofs.FileBuffer
