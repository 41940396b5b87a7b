import Rozofs.FileBuffer
import Mathlib.Tactic.Common

/-! Coherence of the buffer of an open file: its bytes are the ones written last, a write that
waits is inside the valid bytes, and what does not wait is at the storages. A former write
window that is left behind, bytes that the cache copies and does not use, bytes that were read
before a later flush, and flushes that fail unnoticed break it; `safe` leaves these steps out. -/
namespace Rozofs.BufferCoherence
open FileBuffer Overlay

structure Coherent (cfg : Config) (st : State β) : Prop where
  read : st.readFrom ≤ st.readPos ∧ st.readPos ≤ st.readFrom + cfg.bufsize
  write : st.writeFrom ≤ st.writePos
  nested : st.bufWriteWait = true → st.readFrom ≤ st.writeFrom ∧ st.writePos ≤ st.readPos
  idle : st.bufWriteWait = false → st.writePending = false
  consistent : st.bufWriteWait = true → st.readConsistency = st.ieReadConsistency
  content : ∀ o, st.readFrom ≤ o → o < st.readPos → st.buffer (o - st.readFrom) = st.written o
  stored : ∀ o, ¬ (st.bufWriteWait = true ∧ st.writeFrom ≤ o ∧ o < st.writePos) → st.storage o = st.written o
  flushed : ∀ x ∈ st.flushed, x.2.1 = x.2.2

/-- Nothing waits: all that was written is at the storages. -/
def Settled (st : State β) : Prop := ∀ o, st.storage o = st.written o

section Flushes
variable {β : Type} {cfg : Config} {st st' : State β}

theorem diff32_of_le (le : b ≤ a) (small : a - b < 2 ^ 32) : diff32 a b = a - b := by
  unfold diff32
  omega

theorem Coherent.settled (coherent : Coherent cfg st) (none : st.bufWriteWait = false ∨ st.writeFrom = st.writePos) :
    Settled st := by
  intro o
  apply coherent.stored
  rintro ⟨wait,low,high⟩
  rcases none with idle | empty
  · rw [idle] at wait
    cases wait
  · omega

theorem writeBufNb_flushed (old : ∀ x ∈ st.flushed, x.2.1 = x.2.2) (right : ∀ i < len, data i = st.written (off + i)) :
    ∀ x ∈ (writeBufNb st off len data).flushed, x.2.1 = x.2.2 := by
  intro x member
  rcases List.mem_append.mp member with before | now
  · exact old x before
  · obtain ⟨i,inside,rfl⟩ := List.mem_map.mp now
    exact right i (List.mem_range.mp inside)

/-- A flush of a window inside the valid bytes leaves nothing behind. -/
theorem bufFlush_accepted (coherent : Coherent cfg st) (low : st.readFrom ≤ st.writeFrom) (high : st.writePos ≤ st.readPos) :
    ∃ storage flushed, bufFlush st .accepted =
        ({ st with storage := storage, flushed := flushed, bufWriteWait := false, writePending := false },true) ∧
      (∀ o, storage o = st.written o) ∧ ∀ x ∈ flushed, x.2.1 = x.2.2 := by
  have wide := coherent.read
  have order := coherent.write
  have size := cfg.high
  have base : diff32 st.writeFrom st.readFrom = st.writeFrom - st.readFrom := diff32_of_le low (by omega)
  have count : diff32 st.writePos st.writeFrom = st.writePos - st.writeFrom := diff32_of_le order (by omega)
  refine ⟨_,_,rfl,fun o => ?_,?_⟩
  · dsimp only [writeBufNb]
    rw [base,count]
    by_cases here : st.writeFrom ≤ o ∧ o < st.writePos
    · rw [overlay_inside here.1 (by omega),← coherent.content o (by omega) (by omega)]
      congr 1
      omega
    · rw [overlay_outside (by omega)]
      exact coherent.stored o fun inside => here inside.2
  · apply writeBufNb_flushed coherent.flushed
    intro i inside
    rw [count] at inside
    rw [base,← coherent.content (st.writeFrom + i) (by omega) (by omega)]
    congr 1
    omega

/-- A state with other bytes at the storages, once nothing waits. -/
theorem Coherent.flushedState (coherent : Coherent cfg st) (storage : Nat → β) (flushed : List (Nat × β × β))
    (all : ∀ o, storage o = st.written o) (sound : ∀ x ∈ flushed, x.2.1 = x.2.2) :
    Coherent cfg { st with storage := storage, flushed := flushed, bufWriteWait := false, writePending := false } where
  read := coherent.read
  write := coherent.write
  nested wait := by cases wait
  idle _ := rfl
  consistent wait := by cases wait
  content := coherent.content
  stored o _ := all o
  flushed := sound

theorem bufFlush_coherent (coherent : Coherent cfg st) (low : st.readFrom ≤ st.writeFrom) (high : st.writePos ≤ st.readPos) :
    Coherent cfg (bufFlush st .accepted).1 ∧ (bufFlush st .accepted).1.bufWriteWait = false ∧
    (bufFlush st .accepted).1.writePending = false := by
  obtain ⟨storage,flushed,eq,all,sound⟩ := bufFlush_accepted coherent low high
  rw [eq]
  exact ⟨coherent.flushedState storage flushed all sound,rfl,rfl⟩

theorem asynchronousFlush_coherent (coherent : Coherent cfg st) :
    Coherent cfg (asynchronousFlush st .accepted).1 ∧ (asynchronousFlush st .accepted).1.bufWriteWait = false ∧
    (asynchronousFlush st .accepted).2 = true := by
  simp only [asynchronousFlush,reduceCtorEq,if_false]
  split
  · rename_i wait
    obtain ⟨low,high⟩ := coherent.nested wait
    obtain ⟨flushed,idle,-⟩ := bufFlush_coherent coherent low high
    exact ⟨flushed,idle,rfl⟩
  · rename_i idle
    exact ⟨coherent,Bool.eq_false_iff.mpr idle,rfl⟩

/-- Without a write that waits, the write window says nothing. -/
theorem Coherent.rewindow (coherent : Coherent cfg st) (idle : st.bufWriteWait = false) (order : writeFrom ≤ writePos) :
    Coherent cfg { st with writeFrom := writeFrom, writePos := writePos, bufWriteWait := false } where
  read := coherent.read
  write := order
  nested wait := by cases wait
  idle _ := coherent.idle idle
  consistent wait := by cases wait
  content := coherent.content
  stored o _ := coherent.settled (.inl idle) o
  flushed := coherent.flushed

/-- The bytes of the buffer are forgotten. -/
theorem Coherent.forget (coherent : Coherent cfg st) (idle : st.bufWriteWait = false) :
    Coherent cfg { st with readFrom := 0, readPos := 0 } where
  read := ⟨Nat.le_refl 0,Nat.zero_le _⟩
  write := coherent.write
  nested wait := by
    rw [idle] at wait
    cases wait
  idle := coherent.idle
  consistent wait := by
    rw [idle] at wait
    cases wait
  content o _ high := absurd high (Nat.not_lt_zero o)
  stored := coherent.stored
  flushed := coherent.flushed

theorem Coherent.counters (coherent : Coherent cfg st) (n : Nat) :
    Coherent cfg { st with readConsistency := n, ieReadConsistency := n } :=
  ⟨coherent.read,coherent.write,coherent.nested,coherent.idle,fun _ => rfl,coherent.content,coherent.stored,coherent.flushed⟩

theorem Coherent.setPending (coherent : Coherent cfg st) (idle : st.bufWriteWait = false → pending = false) :
    Coherent cfg { st with writePending := pending } :=
  ⟨coherent.read,coherent.write,coherent.nested,idle,coherent.consistent,coherent.content,coherent.stored,coherent.flushed⟩

/-- An empty window does not wait. -/
theorem Coherent.unwait (coherent : Coherent cfg st) (empty : st.writeFrom = st.writePos) (quiet : st.writePending = false) :
    Coherent cfg { st with bufWriteWait := false } where
  read := coherent.read
  write := coherent.write
  nested wait := by cases wait
  idle _ := quiet
  consistent wait := by cases wait
  content := coherent.content
  stored o _ := coherent.settled (.inr empty) o
  flushed := coherent.flushed

theorem flushWriteIentry_coherent (coherent : Coherent cfg st) (pending : st.bufWriteWait = true → st.writePending = true)
    (accepted : st.writePending = true → answer = .accepted) :
    Coherent cfg (flushWriteIentry st answer).1 ∧ (flushWriteIentry st answer).1.bufWriteWait = false ∧
    (flushWriteIentry st answer).1.writePending = false := by
  unfold flushWriteIentry
  by_cases waits : st.writePending = true
  · rw [if_pos waits,accepted waits]
    have quiet : Coherent cfg { st with writePending := false } := coherent.setPending fun _ => rfl
    obtain ⟨flushed,idle,sent⟩ := asynchronousFlush_coherent quiet
    generalize asynchronousFlush { st with writePending := false } .accepted = result at flushed idle sent
    obtain ⟨st',done⟩ := result
    cases sent
    exact ⟨flushed.rewindow idle (Nat.le_refl 0),rfl,flushed.idle idle⟩
  · rw [if_neg waits]
    exact ⟨coherent,Bool.eq_false_iff.mpr fun wait => waits (pending wait),Bool.eq_false_iff.mpr waits⟩

end Flushes

section Writes
variable {β : Type} {cfg : Config} {st st' : State β}

theorem copyUser_some (found : copyUser cfg dst off len data st = some st') : dst + len ≤ cfg.bufsize ∧
    st' = { st with buffer := overlay st.buffer dst len data, written := overlay st.written off len data } := by
  obtain ⟨middle,copied,rfl⟩ := Option.map_eq_some_iff.mp found
  unfold writeInBuffer at copied
  split at copied
  · rename_i fits
    cases copied
    exact ⟨fits,rfl⟩
  · cases copied

theorem writeInBuffer_some (found : writeInBuffer cfg dst len data st = some st') : dst + len ≤ cfg.bufsize ∧
    st' = { st with buffer := overlay st.buffer dst len data } := by
  unfold writeInBuffer at found
  split at found
  · rename_i fits
    cases found
    exact ⟨fits,rfl⟩
  · cases found

theorem bufAlignWriteFrom_eq (cfg : Config) (st : State β) : ∃ writeFrom, bufAlignWriteFrom cfg st = { st with writeFrom := writeFrom } ∧
    writeFrom ≤ st.writeFrom ∧ (st.readFrom ≤ st.writeFrom → st.readFrom ≤ writeFrom) := by
  unfold bufAlignWriteFrom
  dsimp only
  split
  · rename_i inside
    exact ⟨_,rfl,Nat.div_mul_le_self _ _,fun _ => inside⟩
  · exact ⟨_,rfl,Nat.le_refl _,fun inside => inside⟩

theorem bufAlignWritePos_eq (cfg : Config) (st : State β) : ∃ writePos, bufAlignWritePos cfg st = { st with writePos := writePos } ∧
    st.writePos ≤ writePos ∧ (st.writePos ≤ st.readPos → writePos ≤ st.readPos) := by
  have positive : 0 < cfg.bbytes := by
    unfold Config.bbytes
    cases cfg.bsize <;> decide
  unfold bufAlignWritePos
  split
  · dsimp only
    split
    · rename_i inside
      refine ⟨_,rfl,?_,fun _ => inside⟩
      have := Nat.div_add_mod st.writePos cfg.bbytes
      have := Nat.mod_lt st.writePos positive
      rw [Nat.add_mul,Nat.one_mul,Nat.mul_comm]
      omega
    · exact ⟨_,rfl,Nat.le_refl _,fun inside => inside⟩
  · exact ⟨_,rfl,Nat.le_refl _,fun inside => inside⟩

/-- The buffer gets a new window that ends with the bytes of the application. -/
theorem replace_coherent (settled : Settled st) (flushed : ∀ x ∈ st.flushed, x.2.1 = x.2.2)
    (consistent : st.readConsistency = st.ieReadConsistency) (start : s ≤ off) (fits : off - s + len ≤ cfg.bufsize)
    (buffer : Nat → β) (old : ∀ o, s ≤ o → o < off → buffer (o - s) = st.written o) (data : Nat → β) :
    Coherent cfg { window s (off + len) st with
      buffer := overlay buffer (off - s) len data, written := overlay st.written off len data } where
  read := by
    dsimp only [window]
    omega
  write := by
    dsimp only [window]
    omega
  nested _ := ⟨Nat.le_refl _,Nat.le_refl _⟩
  idle wait := by cases wait
  consistent _ := consistent
  content o low high := by
    dsimp only [window] at low high ⊢
    apply overlay_shift start low
    intro outside
    exact old o low (by omega)
  stored o outside := by
    dsimp only [window] at outside ⊢
    rw [overlay_outside (by by_contra inside; exact outside ⟨rfl,by omega,by omega⟩)]
    exact settled o
  flushed := flushed

/-- The bytes of the application go into the window or right after it. -/
theorem extend_coherent (coherent : Coherent cfg st) (consistent : st.readConsistency = st.ieReadConsistency)
    (low : st.readFrom ≤ off) (high : off ≤ st.readPos) (fits : off - st.readFrom + len ≤ cfg.bufsize)
    (readPos : Nat) (grown : readPos = max st.readPos (off + len)) (writeFrom writePos : Nat)
    (start : st.readFrom ≤ writeFrom ∧ writeFrom ≤ off) (stop : off + len ≤ writePos ∧ writePos ≤ readPos)
    (before : st.bufWriteWait = true → writeFrom ≤ st.writeFrom ∧ st.writePos ≤ writePos ∨ st.writeFrom = st.writePos)
    (data : Nat → β) :
    Coherent cfg { st with
      readPos := readPos, writeFrom := writeFrom, writePos := writePos, bufWriteWait := true
      buffer := overlay st.buffer (off - st.readFrom) len data, written := overlay st.written off len data } where
  read := by
    have := coherent.read
    dsimp only
    omega
  write := by
    dsimp only
    omega
  nested _ := ⟨start.1,stop.2⟩
  idle wait := by cases wait
  consistent _ := consistent
  content o above below := by
    dsimp only at above below ⊢
    apply overlay_shift low above
    intro outside
    exact coherent.content o above (by omega)
  stored o outside := by
    dsimp only at outside ⊢
    rw [overlay_outside (by by_contra inside; exact outside ⟨rfl,by omega,by omega⟩)]
    apply coherent.stored
    rintro ⟨wait,inside⟩
    rcases before wait with larger | empty
    · exact outside ⟨rfl,by omega,by omega⟩
    · omega
  flushed := coherent.flushed

/-- The buffer gets the bytes of the application only. -/
theorem renew_coherent (settled : Settled st) (flushed : ∀ x ∈ st.flushed, x.2.1 = x.2.2)
    (consistent : st.readConsistency = st.ieReadConsistency)
    (found : copyUser cfg 0 off len data (window off (off + len) st) = some st') : Coherent cfg st' := by
  obtain ⟨fits,rfl⟩ := copyUser_some found
  have room : off - off + len ≤ cfg.bufsize := by omega
  have replaced := replace_coherent settled flushed consistent (Nat.le_refl off) room st.buffer
    (fun o low high => absurd low (Nat.not_le.mpr high)) data
  rw [Nat.sub_self] at replaced
  exact replaced

theorem copyEmpty_coherent (coherent : Coherent cfg st) (settled : Settled st)
    (consistent : st.readConsistency = st.ieReadConsistency) (small : len < rozofsMaxFileBufSz ∨ st.readFrom = st.readPos)
    (found : copyEmpty cfg answer off len data st = some st') : Coherent cfg st' := by
  unfold copyEmpty at found
  split at found
  · exact renew_coherent settled coherent.flushed consistent found
  · rename_i large
    have empty := small.resolve_left large
    split at found
    · cases found
      refine ⟨coherent.read,coherent.write,coherent.nested,coherent.idle,coherent.consistent,fun o low high => ?_,fun o _ => ?_,?_⟩
      · dsimp only [writeBufNb,take] at low high
        omega
      · dsimp only [writeBufNb,take,overlay]
        rw [settled o]
      · refine @writeBufNb_flushed _ (take off len data st) _ _ _ coherent.flushed fun i inside => ?_
        dsimp only [take]
        rw [overlay_inside (Nat.le_add_right off i) (by omega),Nat.add_sub_cancel_left]
    · cases found
      exact coherent

theorem copy_coherent (coherent : Coherent cfg st) (consistent : st.readConsistency = st.ieReadConsistency)
    (low : st.readFrom ≤ off) (high : off ≤ st.readPos)
    (current : st.writeFrom = st.writePos ∨ st.readFrom ≤ st.writeFrom ∧ st.writePos ≤ st.readPos)
    (found : copy cfg off len data st = some st') : Coherent cfg st' := by
  have order := coherent.write
  -- the window of the write and of what waits already
  have joined : ∃ writeFrom writePos,
      (if st.writeFrom = st.writePos then { st with writeFrom := off, writePos := off + len }
        else { st with
          writeFrom := if st.writeFrom > off then off else st.writeFrom
          writePos := if st.writePos < off + len then off + len else st.writePos }) =
        { st with writeFrom := writeFrom, writePos := writePos } ∧
      (st.readFrom ≤ writeFrom ∧ writeFrom ≤ off) ∧ (off + len ≤ writePos ∧ writePos ≤ max st.readPos (off + len)) ∧
      (writeFrom ≤ st.writeFrom ∧ st.writePos ≤ writePos ∨ st.writeFrom = st.writePos) := by
    by_cases empty : st.writeFrom = st.writePos
    · rw [if_pos empty]
      exact ⟨off,off + len,rfl,by omega,by omega,.inr empty⟩
    · rw [if_neg empty]
      refine ⟨_,_,rfl,?_,?_,?_⟩
      · split <;> omega
      · split <;> omega
      · split <;> split <;> omega
  obtain ⟨writeFrom,writePos,eq,start,stop,larger⟩ := joined
  unfold copy at found
  rw [eq] at found
  obtain ⟨aligned,eq,less,inside⟩ := bufAlignWriteFrom_eq cfg { st with writeFrom := writeFrom, writePos := writePos }
  have inside := inside start.1
  dsimp only at less inside found
  rw [eq] at found
  dsimp only at found
  split at found
  · rename_i grows
    obtain ⟨fits,rfl⟩ := copyUser_some found
    exact extend_coherent coherent consistent low high fits writePos (by omega) aligned writePos (by omega) (by omega)
      (fun _ => by omega) data
  · rename_i kept
    obtain ⟨stopped,eq,more,below⟩ :=
      bufAlignWritePos_eq cfg { st with writeFrom := aligned, writePos := writePos }
    have below := below (Nat.not_lt.mp kept)
    dsimp only at more below
    rw [eq] at found
    obtain ⟨fits,rfl⟩ := copyUser_some found
    exact extend_coherent coherent consistent low high fits st.readPos (by omega) aligned stopped (by omega) (by omega)
      (fun _ => by omega) data

theorem copyOverlap_coherent (coherent : Coherent cfg st) (consistent : st.readConsistency = st.ieReadConsistency)
    (low : st.readFrom ≤ off) (high : off ≤ st.readPos) (empty : st.writeFrom = st.writePos)
    (found : copyOverlap cfg off len data st = some st') : Coherent cfg st' := by
  have settled := coherent.settled (.inr empty)
  obtain ⟨aligned,eq,less,inside⟩ := bufAlignWriteFrom_eq cfg { st with writeFrom := off }
  have inside := inside low
  dsimp only at less inside
  unfold copyOverlap at found
  rw [eq] at found
  dsimp only at found
  split at found
  · exact renew_coherent settled coherent.flushed consistent found
  · split at found
    · exact renew_coherent settled coherent.flushed consistent found
    · -- the bytes of the block before the write are moved to the front of the buffer
      obtain ⟨middle,moved,copied⟩ := Option.bind_eq_some_iff.mp found
      obtain ⟨-,rfl⟩ := writeInBuffer_some moved
      obtain ⟨fits,rfl⟩ := copyUser_some copied
      have back : off - (off - aligned) = aligned := by omega
      have front : ∀ o, aligned ≤ o → o < off →
          overlay st.buffer 0 (off - aligned) (fun i => st.buffer (off - (off - aligned) - st.readFrom + i)) (o - aligned) =
            st.written o := by
        intro o above below
        rw [overlay_inside (Nat.zero_le _) (by omega),← coherent.content o (by omega) (by omega)]
        congr 1
        omega
      have replaced := replace_coherent settled coherent.flushed consistent less fits _ front data
      rw [back] at replaced ⊢
      exact replaced

theorem flushThenCopyNew_coherent (coherent : Coherent cfg st) (consistent : st.readConsistency = st.ieReadConsistency)
    (small : len < rozofsMaxFileBufSz) (found : flushThenCopyNew cfg flush send off len data st = some st') :
    Coherent cfg st' := by
  unfold flushThenCopyNew at found
  dsimp only at found
  by_cases wait : st.bufWriteWait = true
  · rw [if_pos wait,if_pos small] at found
    by_cases accepted : flush = .accepted
    · subst accepted
      obtain ⟨low,high⟩ := coherent.nested wait
      obtain ⟨storage,flushed,eq,all,sound⟩ := bufFlush_accepted coherent low high
      rw [eq] at found
      refine copyEmpty_coherent (coherent.flushedState storage flushed all sound) all consistent (.inl small) found
    · rw [bufFlush,if_neg accepted] at found
      cases found
      exact coherent
  · rw [if_neg wait] at found
    exact copyEmpty_coherent coherent (coherent.settled (.inl (Bool.eq_false_iff.mpr wait))) consistent (.inl small) found

theorem flushAlignThenCopyNew_coherent (coherent : Coherent cfg st) (consistent : st.readConsistency = st.ieReadConsistency)
    (low : st.readFrom ≤ off) (high : off ≤ st.readPos) (long : cfg.bufsize ≤ off + len - st.readFrom)
    (nonempty : st.writeFrom ≠ st.writePos) (start : st.readFrom ≤ st.writeFrom) (stop : st.bufWriteWait = true → st.writePos ≤ st.readPos)
    (found : flushAlignThenCopyNew cfg .accepted off len data st = some st') : Coherent cfg st' := by
  have wide := coherent.read
  have order := coherent.write
  unfold flushAlignThenCopyNew at found
  rw [if_neg nonempty] at found
  obtain ⟨aligned,eq,less,inside⟩ :=
    bufAlignWriteFrom_eq cfg { st with writeFrom := if st.writeFrom > off then off else st.writeFrom }
  have before : aligned ≤ off ∧ aligned ≤ st.writeFrom ∧ st.readFrom ≤ aligned := by
    dsimp only at less inside
    by_cases place : st.writeFrom > off
    · rw [if_pos place] at less inside
      omega
    · rw [if_neg place] at less inside
      omega
  dsimp only at found
  rw [eq] at found
  obtain ⟨middle,copied,found⟩ := Option.bind_eq_some_iff.mp found
  obtain ⟨fits,rfl⟩ := copyUser_some copied
  dsimp only at fits found
  generalize ends : st.readFrom + cfg.bufsize = off2end at fits found
  -- the flush sees a buffer that is valid to its end
  have full := extend_coherent coherent consistent low high fits off2end (by omega) aligned off2end (by omega) (by omega)
    (fun wait => .inl ⟨before.2.1,by have := stop wait; omega⟩) data
  obtain ⟨storage,flushed,sent,all,sound⟩ := bufFlush_accepted full before.2.2 (Nat.le_refl off2end)
  have sent' : bufFlush { st with
      writeFrom := aligned, writePos := off2end, bufWriteWait := true
      buffer := overlay st.buffer (off - st.readFrom) (off2end - off) data
      written := overlay st.written off (off2end - off) data } .accepted = ({ st with
      writeFrom := aligned, writePos := off2end, bufWriteWait := false, writePending := false
      buffer := overlay st.buffer (off - st.readFrom) (off2end - off) data
      written := overlay st.written off (off2end - off) data, storage := storage, flushed := flushed },true) := by
    have fields := congrArg (fun r => { r.1 with readPos := st.readPos }) sent
    exact Prod.ext fields rfl
  rw [sent'] at found
  obtain ⟨last,copied,rfl⟩ := Option.map_eq_some_iff.mp found
  obtain ⟨fits,rfl⟩ := copyUser_some copied
  have rest : off + len = off2end + (len - (off2end - off)) := by omega
  rw [rest]
  generalize len - (off2end - off) = n at fits
  have room : off2end - off2end + n ≤ cfg.bufsize := by omega
  let sentState : State β := { st with
    writeFrom := aligned, writePos := off2end, bufWriteWait := false, writePending := false
    buffer := overlay st.buffer (off - st.readFrom) (off2end - off) data
    written := overlay st.written off (off2end - off) data, storage := storage, flushed := flushed }
  have settled : Settled sentState := all
  have replaced := replace_coherent settled sound consistent (Nat.le_refl off2end) room sentState.buffer
    (fun o above below => absurd above (Nat.not_le.mpr below)) fun i => data (off2end - off + i)
  rw [Nat.sub_self] at replaced
  have either : ∀ wait, (wait = false → n = 0) → Coherent cfg { window off2end (off2end + n) sentState with
      bufWriteWait := wait, buffer := overlay sentState.buffer 0 n fun i => data (off2end - off + i)
      written := overlay sentState.written off2end n fun i => data (off2end - off + i) } := by
    intro wait empty
    cases wait with
    | true => exact replaced
    | false => exact replaced.unwait (by dsimp only [window]; have := empty rfl; omega) rfl
  exact either _ (by simp)

end Writes

/-- Cases of the merge that flush the write that waits, and cases that drop what was received. -/
def flushes : Merge → Bool
  | .writeBefore | .writeAfter | .writeEndsInside | .writeStartsInsideLong => true
  | _ => false

def drops : Merge → Bool
  | .readInside | .none => true
  | _ => false

section Condition
variable {β : Type} [DecidableEq β] (cfg : Config) (st : State β)

/-- The bytes of the buffer are still taken for those of the file. -/
def current : Bool := st.readConsistency = st.ieReadConsistency

/-- A write that would be joined with a former window needs it inside the valid bytes. -/
def safeWrite (flush : Answer) (off len : Nat) : Bool :=
  if rozofsMaxFileBufSz ≤ len then !st.writePending || flush = .accepted
  else !current st ||
    match bufAct cfg st off len with
    | .copy => st.writeFrom = st.writePos || (st.readFrom ≤ st.writeFrom && st.writePos ≤ st.readPos)
    | .flushAlignThenCopyNew => st.readFrom ≤ st.writeFrom && flush = .accepted
    | _ => true

/-- The cache returns the bytes of the file, or copies nothing over the valid bytes. -/
def safeRead (flush : Answer) (size off len : Nat) (cache : CacheGet β) : Bool :=
  (!st.writePending || flush = .accepted) &&
  (current st && !asksCache cfg size off len st ||
    if cacheSuffices cfg size off len cache then
      cache.copied ≤ cfg.bufsize && decide (∀ i < cache.copied, cache.bytes i = st.written (offAligned cfg off + i))
    else !current st || decide (∀ i < cache.copied, i < st.readPos - st.readFrom → cache.bytes i = st.buffer i))

/-- The bytes that are received are still the ones of the storages. -/
def safeResponse (flush : Answer) (r : Read β) (n : Nat) (data : Nat → β) : Bool :=
  let start := offAligned cfg r.off
  bigRead r n || st.bufWriteWait && drops (mergeCase cfg st start (start + n)) ||
    (!(st.bufWriteWait && flushes (mergeCase cfg st start (start + n))) || flush = .accepted) &&
    decide (∀ i < n, data (start + i) = st.storage (start + i))

def safe : Act β → Bool
  | .write flush _ off len _ => safeWrite cfg st flush off len
  | .flush _ => true
  | .flushIentry answer => !st.writePending || answer = .accepted
  | .read flush size off len cache => safeRead cfg st flush size off len cache
  | .readahead => true
  | .serve _ => true
  | .response flush k n =>
    match st.reads[k]? with
    | some ⟨off,size,readahead,some data⟩ => n = 0 || safeResponse cfg st flush ⟨off,size,readahead,some data⟩ n data
    | _ => true

end Condition

/-- Between two calls a write that waits is known by its inode. -/
structure Inv (cfg : Config) (st : State β) : Prop extends Coherent cfg st where
  pending : st.bufWriteWait = true → st.writePending = true

section WriteStep
variable {β : Type} {cfg : Config} {st st' : State β}

/-- A file that is not known as pending has nothing to flush. -/
theorem first_flush (st : State β) (flush : Answer) :
    (if st.writePending = true then st else (flushWriteIentry st flush).1) = st := by
  split
  · rfl
  · rename_i none
    rw [flushWriteIentry,if_neg none]

theorem prepareWrite_coherent (inv : Inv cfg st)
    (accepted : rozofsMaxFileBufSz ≤ len → st.writePending = true → flush = .accepted) :
    Coherent cfg (prepareWrite flush len st) ∧
    (prepareWrite flush len st).readConsistency = (prepareWrite flush len st).ieReadConsistency ∧
    (rozofsMaxFileBufSz ≤ len → (prepareWrite flush len st).readFrom = (prepareWrite flush len st).readPos ∧
      (prepareWrite flush len st).bufWriteWait = false) := by
  unfold prepareWrite
  rw [first_flush]
  dsimp only
  by_cases large : len ≥ rozofsMaxFileBufSz
  · simp only [if_pos large]
    obtain ⟨flushed,idle,-⟩ := flushWriteIentry_coherent inv.toCoherent inv.pending (accepted large)
    generalize (flushWriteIentry st flush).1 = now at flushed idle
    have forgotten := flushed.forget idle
    split
    · exact ⟨(forgotten.forget idle).counters _,trivial,fun _ => ⟨rfl,idle⟩⟩
    · exact ⟨forgotten.counters _,trivial,fun _ => ⟨rfl,idle⟩⟩
  · simp only [if_neg large]
    split
    · rename_i other
      have idle : st.bufWriteWait = false := by
        by_contra wait
        exact other (inv.consistent (by simpa using wait))
      exact ⟨(inv.toCoherent.forget idle).counters _,trivial,fun now => absurd now large⟩
    · exact ⟨inv.toCoherent.counters _,trivial,fun now => absurd now large⟩

/-- A window that is empty has nothing to be joined with. -/
theorem bufAct_empty (empty : st.readFrom = st.readPos) (off len : Nat) : bufAct cfg st off len = .copyEmpty := by
  simp [bufAct,bufSt,empty]

/-- The condition on the state before the write is one on the windows that it looks at. -/
theorem safeWrite_prepared [DecidableEq β] (inv : Inv cfg st) (safe : safeWrite cfg st flush off len = true) :
    (rozofsMaxFileBufSz ≤ len → st.writePending = true → flush = .accepted) ∧
    match bufAct cfg (prepareWrite flush len st) off len with
    | .copy => (prepareWrite flush len st).writeFrom = (prepareWrite flush len st).writePos ∨
        (prepareWrite flush len st).readFrom ≤ (prepareWrite flush len st).writeFrom ∧
        (prepareWrite flush len st).writePos ≤ (prepareWrite flush len st).readPos
    | .flushAlignThenCopyNew =>
      (prepareWrite flush len st).readFrom ≤ (prepareWrite flush len st).writeFrom ∧ flush = .accepted
    | _ => True := by
  unfold safeWrite at safe
  by_cases large : rozofsMaxFileBufSz ≤ len
  · rw [if_pos large] at safe
    have accepted : rozofsMaxFileBufSz ≤ len → st.writePending = true → flush = .accepted := by
      intro _ pending
      simpa [pending] using safe
    refine ⟨accepted,?_⟩
    rw [bufAct_empty ((prepareWrite_coherent inv accepted).2.2 large).1]
    trivial
  · refine ⟨fun now => absurd now large,?_⟩
    rw [if_neg large] at safe
    by_cases kept : st.readConsistency = st.ieReadConsistency
    · have same : prepareWrite flush len st =
          { st with ieReadConsistency := st.ieReadConsistency + 1, readConsistency := st.ieReadConsistency + 1 } := by
        simp [prepareWrite,first_flush,large,kept]
      have act : bufAct cfg (prepareWrite flush len st) off len = bufAct cfg st off len := by
        rw [same]
        rfl
      rw [act,same]
      simp only [current,kept,decide_true,Bool.not_true,Bool.false_or] at safe
      generalize bufAct cfg st off len = act at safe
      cases act <;> first | trivial | simpa using safe
    · rw [bufAct_empty (by simp [prepareWrite,first_flush,large,kept])]
      trivial

theorem write_inv [DecidableEq β] (inv : Inv cfg st) (safe : safeWrite cfg st flush off len = true)
    (next : bufFileWriteNb cfg flush send off len data st = some st') : Inv cfg st' := by
  obtain ⟨accepted,safe⟩ := safeWrite_prepared inv safe
  obtain ⟨coherent,consistent,large⟩ := prepareWrite_coherent inv accepted
  unfold bufFileWriteNb at next
  dsimp only at next
  generalize prepareWrite flush len st = now at safe coherent consistent large next
  obtain ⟨last,result,rfl⟩ := Option.map_eq_some_iff.mp next
  -- a window of valid bytes means that the write is small
  have small : now.readFrom ≠ now.readPos → len < rozofsMaxFileBufSz := by
    intro some
    by_contra big
    exact some (large (Nat.not_lt.mp big)).1
  have done : Coherent cfg last := by
    unfold bufAct bufSt at result safe
    by_cases empty : now.readFrom = now.readPos
    · simp only [ne_eq,empty,not_true_eq_false,if_false] at result
      have none : now.bufWriteWait = false ∨ now.writeFrom = now.writePos := by
        by_cases wait : now.bufWriteWait = true
        · have := coherent.nested wait
          have := coherent.write
          right
          omega
        · exact .inl (Bool.eq_false_iff.mpr wait)
      exact copyEmpty_coherent coherent (coherent.settled none) consistent (.inr empty) result
    · by_cases low : now.readFrom ≤ off
      · by_cases high : off ≤ now.readPos
        · by_cases long : cfg.bufsize ≤ off + len - now.readFrom
          · by_cases nonempty : now.writeFrom = now.writePos
            · simp only [ne_eq,empty,low,high,long,nonempty,not_true_eq_false,not_false_eq_true,if_true,if_false] at result
              exact copyOverlap_coherent coherent consistent low high nonempty result
            · simp only [ne_eq,empty,low,high,long,nonempty,not_false_eq_true,if_true] at result safe
              obtain ⟨start,rfl⟩ := safe
              exact flushAlignThenCopyNew_coherent coherent consistent low high long nonempty start
                (fun wait => (coherent.nested wait).2) result
          · simp only [ne_eq,empty,low,high,long,not_false_eq_true,if_true,if_false] at result safe
            exact copy_coherent coherent consistent low high safe result
        · simp only [ne_eq,empty,low,high,not_false_eq_true,if_true,if_false] at result
          exact flushThenCopyNew_coherent coherent consistent (small empty) result
      · simp only [ne_eq,empty,low,not_false_eq_true,if_true,if_false] at result
        exact flushThenCopyNew_coherent coherent consistent (small empty) result
  by_cases wait : last.bufWriteWait = true
  · rw [if_pos wait]
    have known : Coherent cfg { last with writePending := true } := by
      apply done.setPending
      intro idle
      rw [wait] at idle
      cases idle
    exact ⟨known,fun _ => rfl⟩
  · rw [if_neg wait]
    exact ⟨done,fun now => absurd now wait⟩

end WriteStep

section ReadStep
variable {β : Type} {cfg : Config} {st st' : State β}

/-- New bytes of the file in the buffer, without a write that waits. -/
theorem Coherent.install (coherent : Coherent cfg st) (idle : st.bufWriteWait = false) (buffer : Nat → β) (readFrom readPos : Nat)
    (order : readFrom ≤ readPos ∧ readPos ≤ readFrom + cfg.bufsize)
    (content : ∀ o, readFrom ≤ o → o < readPos → buffer (o - readFrom) = st.written o) :
    Coherent cfg { st with buffer := buffer, readFrom := readFrom, readPos := readPos } where
  read := order
  write := coherent.write
  nested wait := by
    rw [idle] at wait
    cases wait
  idle := coherent.idle
  consistent := coherent.consistent
  content := content
  stored := coherent.stored
  flushed := coherent.flushed

theorem Coherent.setReads (coherent : Coherent cfg st) (reads : List (Read β)) : Coherent cfg { st with reads := reads } :=
  ⟨coherent.read,coherent.write,coherent.nested,coherent.idle,coherent.consistent,coherent.content,coherent.stored,
    coherent.flushed⟩

theorem prepareRead_coherent (inv : Inv cfg st) (accepted : st.writePending = true → flush = .accepted) :
    Coherent cfg (prepareRead flush st) ∧ (prepareRead flush st).bufWriteWait = false := by
  obtain ⟨flushed,idle,-⟩ := flushWriteIentry_coherent inv.toCoherent inv.pending accepted
  unfold prepareRead
  generalize (flushWriteIentry st flush).1 = now at flushed idle
  dsimp only
  split
  · exact ⟨(flushed.forget idle).counters _,idle⟩
  · exact ⟨flushed,idle⟩

/-- A flush keeps the valid bytes and what is known of the file. -/
theorem flushWriteIentry_frame (st : State β) (answer : Answer) :
    (flushWriteIentry st answer).1.buffer = st.buffer ∧ (flushWriteIentry st answer).1.readFrom = st.readFrom ∧
    (flushWriteIentry st answer).1.readPos = st.readPos ∧ (flushWriteIentry st answer).1.reads = st.reads ∧
    (flushWriteIentry st answer).1.readConsistency = st.readConsistency ∧
    (flushWriteIentry st answer).1.ieReadConsistency = st.ieReadConsistency ∧
    (flushWriteIentry st answer).1.written = st.written := by
  unfold flushWriteIentry asynchronousFlush bufFlush
  cases answer <;> cases st.writePending <;> cases st.bufWriteWait <;> simp [writeBufNb]

/-- The condition on the state before the read is one on the window that it looks at. -/
theorem safeRead_prepared [DecidableEq β] {cache : CacheGet β} (safe : safeRead cfg st flush size off len cache = true) :
    (st.writePending = true → flush = .accepted) ∧
    (asksCache cfg size off len (prepareRead flush st) = true →
      if cacheSuffices cfg size off len cache then
        cache.copied ≤ cfg.bufsize ∧
          ∀ i < cache.copied, cache.bytes i = (prepareRead flush st).written (offAligned cfg off + i)
      else ∀ i < cache.copied, i < (prepareRead flush st).readPos - (prepareRead flush st).readFrom →
        cache.bytes i = (prepareRead flush st).buffer i) := by
  obtain ⟨buffer,readFrom,readPos,reads,consistency,ieConsistency,written⟩ := flushWriteIentry_frame st flush
  unfold safeRead at safe
  simp only [Bool.and_eq_true,Bool.or_eq_true,decide_eq_true_eq,Bool.not_eq_true'] at safe
  obtain ⟨sent,safe⟩ := safe
  refine ⟨fun pending => sent.resolve_left (by simp [pending]),fun asks => ?_⟩
  unfold prepareRead at asks ⊢
  by_cases kept : st.readConsistency = st.ieReadConsistency
  · simp only [consistency,ieConsistency,kept,ne_eq,not_true_eq_false,if_false,readFrom,readPos,buffer,written] at asks ⊢
    have same : asksCache cfg size off len (flushWriteIentry st flush).1 = asksCache cfg size off len st := by
      unfold asksCache
      rw [readFrom,readPos,reads]
    rw [same] at asks
    have safe := safe.resolve_left fun none => by simp [asks] at none
    split
    · rename_i enough
      rw [if_pos enough] at safe
      simpa using safe
    · rename_i short
      rw [if_neg short] at safe
      simpa [current,kept] using safe
  · simp only [consistency,ieConsistency,kept,ne_eq,not_false_eq_true,if_true,written] at asks ⊢
    have safe := safe.resolve_left fun none => by simp [current,kept] at none
    split
    · rename_i enough
      rw [if_pos enough] at safe
      simpa using safe
    · intro i _ inside
      omega

theorem read_inv [DecidableEq β] {cache : CacheGet β} (inv : Inv cfg st)
    (safe : safeRead cfg st flush size off len cache = true) : Inv cfg (fileReadNb cfg flush size off len cache st) := by
  obtain ⟨accepted,safe⟩ := safeRead_prepared safe
  obtain ⟨coherent,idle⟩ := prepareRead_coherent inv accepted
  unfold fileReadNb
  dsimp only
  generalize prepareRead flush st = now at safe coherent idle
  have quiet : ∀ st : State β, Coherent cfg st → st.bufWriteWait = false → Inv cfg st :=
    fun st coherent idle => ⟨coherent,fun wait => by rw [idle] at wait; cases wait⟩
  split
  · rename_i asks
    have safe := safe asks
    split
    · rename_i suffices'
      rw [if_pos suffices'] at safe
      refine quiet _ (coherent.install idle _ _ _ ⟨Nat.le_add_right _ _,Nat.add_le_add_left safe.1 _⟩ fun o low high => ?_) idle
      dsimp only [fromCache]
      rw [overlay_inside (Nat.zero_le _) (by omega),safe.2 _ (by omega)]
      congr 1
      omega
    · rename_i short
      rw [if_neg short] at safe
      refine quiet _ ((coherent.install idle _ now.readFrom now.readPos coherent.read fun o low high => ?_).setReads _) idle
      by_cases copied : o - now.readFrom < cache.copied
      · rw [overlay_inside (Nat.zero_le _) (by omega),Nat.sub_zero,safe _ copied (by omega)]
        exact coherent.content o low high
      · rw [overlay_outside (by omega)]
        exact coherent.content o low high
  · exact quiet now coherent idle

/-- The received bytes with bytes of the write window over them. -/
theorem installOver_some (found : installOver cfg start readPos n data dst len saved st = some st') :
    n ≤ cfg.bufsize ∧ dst + len ≤ cfg.bufsize ∧
    st' = { st with buffer := overlay (overlay st.buffer 0 n data) dst len saved, readFrom := start, readPos := readPos } := by
  obtain ⟨last,both,rfl⟩ := Option.map_eq_some_iff.mp found
  obtain ⟨middle,first,second⟩ := Option.bind_eq_some_iff.mp both
  obtain ⟨room,rfl⟩ := writeInBuffer_some first
  obtain ⟨fits,rfl⟩ := writeInBuffer_some second
  exact ⟨by omega,fits,rfl⟩

theorem over_content {buffer written data saved : Nat → β} (kept : ∀ i < len, saved i = written (start + dst + i))
    (rest : ∀ o, start ≤ o → o < readPos → (o < start + dst ∨ start + dst + len ≤ o) → o < start + n ∧ data (o - start) = written o)
    (o : Nat) (low : start ≤ o) (high : o < readPos) :
    overlay (overlay buffer 0 n data) dst len saved (o - start) = written o := by
  by_cases here : start + dst ≤ o ∧ o < start + dst + len
  · rw [overlay_inside (by omega) (by omega),kept _ (by omega)]
    congr 1
    omega
  · obtain ⟨inside,right⟩ := rest o low high (by omega)
    rw [overlay_outside (by omega),overlay_inside (Nat.zero_le _) (by omega),Nat.sub_zero,right]

/-- The state of the merge after the flush of what waited. -/
theorem flushed_state (coherent : Coherent cfg st) (wait : st.bufWriteWait = true) :
    ∃ storage flushed, (asynchronousFlush st .accepted).1 =
        { st with storage := storage, flushed := flushed, bufWriteWait := false, writePending := false } ∧
      Coherent cfg { st with
        storage := storage, flushed := flushed, bufWriteWait := false, writePending := false, writeFrom := 0, writePos := 0 } := by
  obtain ⟨low,high⟩ := coherent.nested wait
  obtain ⟨storage,flushed,eq,all,sound⟩ := bufFlush_accepted coherent low high
  refine ⟨storage,flushed,?_,?_⟩
  · simp only [asynchronousFlush,reduceCtorEq,if_false,if_pos wait,eq]
  · exact (coherent.flushedState storage flushed all sound).rewindow rfl (Nat.le_refl 0)

/-- What a case of the merge says of the windows. -/
theorem mergeCase_spec (cfg : Config) (st : State β) (start stop : Nat) :
    match mergeCase cfg st start stop with
    | .writeBefore => st.writePos ≤ start
    | .writeEndsInside => st.writeFrom ≤ start ∧ start ≤ st.writePos ∧ st.writePos < stop
    | .writeInside => start ≤ st.writeFrom ∧ st.writePos ≤ stop
    | .writeStartsInside => start ≤ st.writeFrom ∧ st.writeFrom ≤ stop ∧ stop < st.writePos ∧ st.writePos - start ≤ cfg.bufsize
    | .writeStartsInsideLong => start ≤ st.writeFrom ∧ st.writeFrom ≤ stop ∧ cfg.bufsize < st.writePos - start
    | .writeAfter => stop ≤ st.writeFrom
    | _ => True := by
  unfold mergeCase
  split_ifs
  all_goals dsimp only
  all_goals omega

theorem mergeReceived_inv (inv : Inv cfg st) (wait : st.bufWriteWait = true)
    (accepted : flushes (mergeCase cfg st start (start + n)) = true → flush = .accepted)
    (fresh : drops (mergeCase cfg st start (start + n)) = false → ∀ i < n, data i = st.storage (start + i))
    (found : mergeReceived cfg flush start n data st = some st') : Inv cfg st' := by
  obtain ⟨low,high⟩ := inv.nested wait
  have order := inv.write
  have wide := inv.read
  -- bytes that were received outside the write window are the ones written last
  have outside : drops (mergeCase cfg st start (start + n)) = false → ∀ o, start ≤ o → o < start + n →
      (o < st.writeFrom ∨ st.writePos ≤ o) → data (o - start) = st.written o := by
    intro kept o above below apart
    rw [fresh kept _ (by omega),show start + (o - start) = o by omega]
    exact inv.stored o (by omega)
  have saved : ∀ i < st.writePos - st.writeFrom, st.buffer (st.writeFrom - st.readFrom + i) = st.written (st.writeFrom + i) := by
    intro i inside
    rw [← inv.content (st.writeFrom + i) (by omega) (by omega)]
    congr 1
    omega
  obtain ⟨storage,flushed,sent,after⟩ := flushed_state inv.toCoherent wait
  have place := mergeCase_spec cfg st start (start + n)
  unfold mergeReceived at found
  dsimp only at found
  generalize mergeCase cfg st start (start + n) = merge at accepted outside place found
  -- the window waits no more, and the buffer gets other bytes of the file
  have installed : ∀ readPos buffer, start ≤ readPos ∧ readPos ≤ start + cfg.bufsize →
      (∀ o, start ≤ o → o < readPos → buffer (o - start) = st.written o) → Inv cfg { st with
        storage := storage, flushed := flushed, bufWriteWait := false, writePending := false, writeFrom := 0, writePos := 0
        buffer := buffer, readFrom := start, readPos := readPos } := by
    intro readPos buffer order content
    exact ⟨after.install rfl buffer start readPos order content,fun wait => by cases wait⟩
  -- the window still waits, inside the new bytes
  have merged : ∀ readPos buffer, (start ≤ st.writeFrom ∧ st.writePos ≤ readPos) ∧ readPos ≤ start + cfg.bufsize →
      (∀ o, start ≤ o → o < readPos → buffer (o - start) = st.written o) →
      Inv cfg { st with buffer := buffer, readFrom := start, readPos := readPos } := by
    intro readPos buffer order content
    exact ⟨⟨by dsimp only; omega,inv.write,fun _ => order.1,inv.idle,inv.consistent,content,inv.stored,inv.flushed⟩,inv.pending⟩
  have alone : ∀ st', (writeInBuffer cfg 0 n data { (asynchronousFlush st flush).1 with writePos := 0, writeFrom := 0 }).map
      (fun st => { st with readFrom := start, readPos := start + n }) = some st' → flush = .accepted →
      (∀ o, start ≤ o → o < start + n → data (o - start) = st.written o) → Inv cfg st' := by
    intro st' found accepted right
    subst accepted
    rw [sent] at found
    obtain ⟨last,copied,rfl⟩ := Option.map_eq_some_iff.mp found
    obtain ⟨fits,rfl⟩ := writeInBuffer_some copied
    apply installed (start + n) (overlay st.buffer 0 n data) ⟨by omega,by omega⟩
    intro o above below
    rw [overlay_inside (Nat.zero_le _) (by omega),Nat.sub_zero]
    exact right o above below
  cases merge with
  | writeBefore =>
    exact alone st' found (accepted rfl) fun o above below => outside rfl o above below (.inr (by omega))
  | writeAfter =>
    exact alone st' found (accepted rfl) fun o above below => outside rfl o above below (.inl (by omega))
  | writeEndsInside =>
    cases accepted rfl
    dsimp only at found
    rw [sent] at found
    obtain ⟨fits,-,rfl⟩ := installOver_some found
    refine installed (start + n) _ ⟨by omega,by omega⟩ (over_content (fun i inside => ?_) fun o above below apart => ?_)
    · rw [show st.writeFrom - st.readFrom + (start - st.writeFrom) + i = st.writeFrom - st.readFrom + (start - st.writeFrom + i) by omega,
        saved _ (by omega)]
      congr 1
      omega
    · exact ⟨below,outside rfl o above below (by omega)⟩
  | readInside =>
    cases found
    exact inv
  | writeInside =>
    obtain ⟨fits,-,rfl⟩ := installOver_some found
    refine merged (start + n) _ (by omega) (over_content (fun i inside => ?_) fun o above below apart => ?_)
    · rw [saved i inside]
      congr 1
      omega
    · exact ⟨below,outside rfl o above below (by omega)⟩
  | writeStartsInside =>
    obtain ⟨fits,-,rfl⟩ := installOver_some found
    refine merged st.writePos _ (by omega) (over_content (fun i inside => ?_) fun o above below apart => ?_)
    · rw [saved i inside]
      congr 1
      omega
    · exact ⟨by omega,outside rfl o above (by omega) (by omega)⟩
  | writeStartsInsideLong =>
    cases accepted rfl
    dsimp only at found
    rw [sent] at found
    obtain ⟨fits,-,rfl⟩ := installOver_some found
    refine installed (start + cfg.bufsize) _ ⟨by omega,by omega⟩ (over_content (fun i inside => ?_) fun o above below apart => ?_)
    · rw [saved i (by omega)]
      congr 1
      omega
    · exact ⟨by omega,outside rfl o above (by omega) (by omega)⟩
  | none =>
    cases found
    exact inv

theorem installReceived_inv (inv : Inv cfg st) (idle : st.bufWriteWait = false) (r : Read β)
    (fresh : ∀ i < n, data i = st.storage (offAligned cfg r.off + i))
    (found : installReceived cfg r (offAligned cfg r.off) n data st = some st') : Inv cfg st' := by
  obtain ⟨last,copied,rfl⟩ := Option.map_eq_some_iff.mp found
  obtain ⟨fits,rfl⟩ := writeInBuffer_some copied
  generalize place : (if r.readahead = true then offAligned cfg r.off
    else (r.off + if r.off < offAligned cfg r.off + n then min r.size (offAligned cfg r.off + n - r.off) else 0) /
      cfg.bbytes * cfg.bbytes) = newReadFrom at fits ⊢
  have start : offAligned cfg r.off ≤ newReadFrom ∧ newReadFrom ≤ offAligned cfg r.off + n := by
    have whole := Nat.div_mul_le_self r.off cfg.bbytes
    subst place
    unfold offAligned at *
    split
    · omega
    · constructor
      · apply Nat.mul_le_mul_right
        apply Nat.div_le_div_right
        omega
      · split
        · have := Nat.div_mul_le_self (r.off + min r.size (r.off / cfg.bbytes * cfg.bbytes + n - r.off)) cfg.bbytes
          omega
        · exact Nat.le_add_right _ _
  refine ⟨inv.toCoherent.install idle _ newReadFrom _ ⟨start.2,by omega⟩ fun o low high => ?_,fun wait => ?_⟩
  · dsimp only
    rw [overlay_inside (Nat.zero_le _) (by omega),fresh _ (by omega),← inv.toCoherent.settled (.inl idle) o]
    congr 1
    omega
  · have wait : st.bufWriteWait = true := wait
    rw [idle] at wait
    cases wait

theorem response_inv [DecidableEq β] {data : Nat → β} (inv : Inv cfg st) (r : Read β)
    (safe : n = 0 ∨ safeResponse cfg st flush r n data = true)
    (found : readCbk cfg flush r n (fun i => data (offAligned cfg r.off + i)) st = some st') : Inv cfg st' := by
  unfold readCbk at found
  dsimp only at found
  by_cases skipped : (n = 0 || bigRead r n) = true
  · rw [if_pos skipped] at found
    cases found
    exact inv
  · rw [if_neg skipped] at found
    simp only [Bool.or_eq_true,decide_eq_true_eq,not_or,Bool.not_eq_true] at skipped
    have safe := safe.resolve_left skipped.1
    unfold safeResponse at safe
    simp only [skipped.2,Bool.or_eq_true,Bool.and_eq_true,decide_eq_true_eq,Bool.not_eq_true',Bool.and_eq_false_iff,
      Bool.false_eq_true,false_or] at safe
    by_cases wait : st.bufWriteWait = true
    · rw [if_pos wait] at found
      simp only [wait,true_and,Bool.true_eq_false,false_or] at safe
      refine mergeReceived_inv inv wait (fun sends => ?_) (fun kept => ?_) found
      · rcases safe with dropped | ⟨none | accepted,-⟩
        · revert sends dropped
          generalize mergeCase cfg st _ _ = merge
          cases merge <;> simp [flushes,drops]
        · rw [sends] at none
          cases none
        · exact accepted
      · rcases safe with dropped | ⟨-,fresh⟩
        · rw [kept] at dropped
          cases dropped
        · exact fresh
    · rw [if_neg wait] at found
      have idle := Bool.eq_false_iff.mpr wait
      simp only [idle,Bool.false_eq_true,false_and,true_or,true_and,false_or] at safe
      exact installReceived_inv inv idle r safe found

end ReadStep

section Runs
variable {β : Type} {cfg : Config} {st st' : State β}

theorem Inv.setReads (inv : Inv cfg st) (reads : List (Read β)) : Inv cfg { st with reads := reads } :=
  ⟨inv.toCoherent.setReads reads,inv.pending⟩

theorem flush_inv (inv : Inv cfg st) (wait : st.bufWriteWait = true) (answer : Answer) : Inv cfg (bufFlush st answer).1 := by
  by_cases accepted : answer = .accepted
  · subst accepted
    obtain ⟨low,high⟩ := inv.nested wait
    obtain ⟨coherent,idle,-⟩ := bufFlush_coherent inv.toCoherent low high
    exact ⟨coherent,fun wait => by rw [idle] at wait; cases wait⟩
  · rw [bufFlush,if_neg accepted]
    exact inv

theorem step_inv [DecidableEq β] (inv : Inv cfg st) (a : Act β) (allowed : safe cfg st a = true)
    (next : step cfg a st = some st') : Inv cfg st' := by
  cases a with
  | write flush send off len data => exact write_inv inv allowed next
  | flush answer =>
    cases next
    split
    · rename_i wait
      exact flush_inv inv wait answer
    · exact inv
  | flushIentry answer =>
    cases next
    simp only [safe,Bool.or_eq_true,decide_eq_true_eq,Bool.not_eq_true'] at allowed
    have accepted : st.writePending = true → answer = .accepted := by
      intro pending
      apply allowed.resolve_left
      simp [pending]
    obtain ⟨coherent,idle,-⟩ := flushWriteIentry_coherent inv.toCoherent inv.pending accepted
    exact ⟨coherent,fun wait => by rw [idle] at wait; cases wait⟩
  | read flush size off len cache =>
    cases next
    exact read_inv inv allowed
  | readahead =>
    cases next
    exact inv.setReads _
  | serve k =>
    obtain ⟨r,-,rfl⟩ := Option.map_eq_some_iff.mp next
    exact inv.setReads _
  | response flush k n =>
    obtain ⟨⟨off,size,readahead,data⟩,found,next⟩ := Option.bind_eq_some_iff.mp next
    obtain ⟨data,rfl,next⟩ := Option.bind_eq_some_iff.mp next
    simp only [safe,found,Bool.or_eq_true,decide_eq_true_eq] at allowed
    exact response_inv (inv.setReads (st.reads.eraseIdx k)) _ allowed next

theorem init_inv (cfg : Config) (buffer storage : Nat → β) : Inv cfg (fileInit buffer storage) where
  read := ⟨Nat.le_refl 0,Nat.zero_le _⟩
  write := Nat.le_refl 0
  nested wait := by cases wait
  idle _ := rfl
  consistent wait := by cases wait
  content o _ high := absurd high (Nat.not_lt_zero o)
  stored _ _ := rfl
  flushed x member := by cases member
  pending wait := by cases wait

/-- In every run of safe steps the windows of a write that waits are nested, flushes send the bytes
written last, and a byte that was written is at the storages or waits in the buffer. -/
theorem buffer_coherent [DecidableEq β] (cfg : Config) (buffer storage : Nat → β)
    (run : Machine.Run (step cfg) (fun st a => safe cfg st a = true) (fileInit buffer storage) st) :
    (st.bufWriteWait = true → st.readFrom ≤ st.writeFrom ∧ st.writeFrom ≤ st.writePos ∧ st.writePos ≤ st.readPos ∧
      st.readPos ≤ st.readFrom + cfg.bufsize) ∧
    (∀ x ∈ st.flushed, x.2.1 = x.2.2) ∧
    ∀ o, st.storage o = st.written o ∨ st.bufWriteWait = true ∧ st.writeFrom ≤ o ∧ o < st.writePos ∧
      st.buffer (o - st.readFrom) = st.written o := by
  have inv : Inv cfg st := run.invariant _ (init_inv cfg buffer storage) fun _ a _ inv allowed next => step_inv inv a allowed next
  refine ⟨fun wait => ?_,inv.flushed,fun o => ?_⟩
  · have nested := inv.nested wait
    exact ⟨nested.1,inv.write,nested.2,inv.read.2⟩
  · by_cases waits : st.bufWriteWait = true ∧ st.writeFrom ≤ o ∧ o < st.writePos
    · obtain ⟨wait,low,high⟩ := waits
      have nested := inv.nested wait
      exact .inr ⟨wait,low,high,inv.content o (Nat.le_trans nested.1 low) (Nat.lt_of_lt_of_le high nested.2)⟩
    · exact .inl (inv.stored o waits)

/-- The default buffer, with blocks of 4 KiB. -/
def defaultConfig : Config := ⟨.bsize4K,256 * 1024,by decide,by decide⟩

/-- A read is merged with a write that waits, and the file is written again. -/
theorem buffer_coherent_merged : ∃ st : State Nat, st.bufWriteWait = true ∧
    (st.readFrom,st.writeFrom,st.writePos,st.readPos) = (0,0,2,3) ∧ (st.storage 0,st.storage 1) = (7,7) ∧ st.written 1 = 8 ∧
    ∀ o, st.storage o = st.written o ∨ st.bufWriteWait = true ∧ st.writeFrom ≤ o ∧ o < st.writePos ∧
      st.buffer (o - st.readFrom) = st.written o := by
  have done : (Machine.exec (step defaultConfig) (fun st a => safe defaultConfig st a = true)
      [.write .accepted .accepted 0 2 fun _ => 7,.readahead,.serve 0,.response .accepted 0 3,
        .write .accepted .accepted 1 1 fun _ => 8] (fileInit (fun _ => 0) fun _ => 0)).map
      (fun st => (st.bufWriteWait,(st.readFrom,st.writeFrom,st.writePos,st.readPos),(st.storage 0,st.storage 1),st.written 1)) =
      some (true,(0,0,2,3),(7,7),8) := by decide +kernel
  obtain ⟨st,done,seen⟩ := Option.map_eq_some_iff.mp done
  simp only [Prod.mk.injEq] at seen
  obtain ⟨wait,windows,stored,last⟩ := seen
  exact ⟨st,wait,by simp [windows],by simp [stored],last,(buffer_coherent defaultConfig _ _ (Machine.Run.refl.exec done)).2.2⟩

/-- A flush keeps the write window, the bytes of a read replace those of the buffer, and the
next write is joined with what was flushed. -/
theorem stale_window : ∃ st : State Nat, Machine.Run (step defaultConfig) (fun _ _ => True)
      (fileInit (fun _ => 0) fun _ => 0) st ∧
    st.bufWriteWait = true ∧ ¬ st.readFrom ≤ st.writeFrom := by
  have done : (Machine.exec (step defaultConfig) (fun _ _ => True)
      [.write .accepted .accepted 0 1 fun _ => 7,.flush .accepted,.read .accepted 12288 8192 1 ⟨0,fun _ => 0,false⟩,.serve 0,
        .response .accepted 0 4096,.write .accepted .accepted 8200 1 fun _ => 8] (fileInit (fun _ => 0) fun _ => 0)).map
      (fun st => (st.bufWriteWait,st.readFrom,st.writeFrom)) = some (true,8192,0) := by decide +kernel
  obtain ⟨st,done,seen⟩ := Option.map_eq_some_iff.mp done
  simp only [Prod.mk.injEq] at seen
  exact ⟨st,Machine.Run.refl.exec done,seen.1,by omega⟩

end Runs

end Rozofs.BufferCoherence
