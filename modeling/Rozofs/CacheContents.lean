import Rozofs.CacheBlocks
import Rozofs.CacheView

/-! Contents of the data cache of the client. A block belongs to the slot whose key is in its
header, and the key of a slot is new, so buffers can be shared. The arithmetic of unaligned
offsets and of partial blocks, two sizes of a buffer that differ unless a block has 8 KiB, and the
key that all slots of one insertion share break it; `safe` leaves these requests out. -/
namespace Rozofs.CacheContents
open BlockCache CacheBlocks Overlay
open RootCache (Held contents keepsKey keepsArrays)
open StorcliRing (Fid)
open Function (update update_self update_of_ne update_eq_self)

/-- The cache as a map from the files to their slots. -/
structure View (β : Type) extends Data β where
  table : Fid → Option File

def view (st : State β) : View β := ⟨st.toData,contents comCacheHash st.cache st.files⟩

/-- The view after a loop over the slots of a file. -/
def View.put (st : View β) (fid : Fid) (file : File) (data : Data β) : View β := ⟨data,update st.table fid (some file)⟩

theorem View.put_self (st : View β) (found : st.table fid = some file) : st.put fid file st.toData = st := by
  rw [View.put,← found,update_eq_self]

/-- A slot of a file that is in use. -/
def Live (st : View β) (fid : Fid) (pool i : Nat) (slot : Slot) : Prop :=
  ∃ file, st.table fid = some file ∧ file pool i = slot ∧ slot.state = true

/-- Byte `x` of block `n` at a slot of a file is the one inserted last. -/
def Holds (bsize : BSize) (st : View β) (fid : Fid) (slot : Slot) (buf : Buffer β) (n : Nat) : Prop :=
  ∀ x < (buf.header n).len, st.inserted fid (slot.off + n * bsize.bytes + x) = some (buf.payload (n * bsize.bytes + x))

structure Inv (bsize : BSize) (st : View β) : Prop where
  keys : ∀ fid pool i slot, Live st fid pool i slot → 0 < slot.ownerKey ∧ slot.ownerKey ≤ st.key
  headers : ∀ pool j buf n, st.gcache pool j = some buf → (buf.header n).ownerKey ≤ st.key ∧
    (buf.header n).len ≤ bsize.bytes
  home : ∀ fid pool i slot, Live st fid pool i slot → i < mbcacheMxBufPerPool ∧ ∃ w, slot.off = w * bufferBsize bsize ∧
    pool = w % mbcacheMxPool
  unique : ∀ fid pool i j slot other, Live st fid pool i slot → Live st fid pool j other → slot.off = other.off → i = j
  apart : ∀ fid pool i slot fid' pool' j other, Live st fid pool i slot → Live st fid' pool' j other →
    slot.ownerKey = other.ownerKey → fid = fid' ∧
      (slot.off = other.off ∨ poolIdx bsize fid slot.off ≠ poolIdx bsize fid other.off)
  owned : ∀ fid pool i slot j buf n, Live st fid pool i slot → st.gcache (poolIdx bsize fid slot.off) j = some buf →
    (buf.header n).ownerKey = slot.ownerKey → slot.bufIdxValid = true ∧ j = slot.bufIdx
  content : ∀ fid pool i slot j buf n, Live st fid pool i slot → st.gcache (poolIdx bsize fid slot.off) j = some buf →
    (buf.header n).ownerKey = slot.ownerKey → n < cacheBcount → Holds bsize st fid slot buf n
  gets : ∀ g ∈ st.gets, g.len ≤ g.size ∧ ∀ i < g.len, g.cached (g.off + i) = some (g.bytes i)
  used : ∀ i ∈ st.used, i < cacheBcount

section Tables
variable {β : Type} {bsize : BSize} {st : View β}

/-- The slots of a file are put back as they are. -/
theorem Inv.putSelf (inv : Inv bsize st) (found : st.table fid = some file) : Inv bsize (st.put fid file st.toData) := by
  rw [View.put_self st found]
  exact inv

theorem window_div (bsize : BSize) (w : Nat) : w * bufferBsize bsize / bufferBsize bsize = w :=
  Nat.mul_div_cancel w (bufferBsize_pos bsize)

theorem poolIdx_window (bsize : BSize) (fid : Fid) (off : Nat) :
    poolIdx bsize fid (off / bufferBsize bsize * bufferBsize bsize) = poolIdx bsize fid off := by
  unfold poolIdx
  rw [window_div]

/-- A live slot of the table after one slot of a file was set. -/
theorem live_setSlot {st' : View β} {file : File} (found : st.table fid = some file)
    (eq : st'.table = update st.table fid (some (setSlot file pool i slot))) (live : Live st' fid' pool' j other) :
    (fid' = fid ∧ pool' = pool ∧ j = i ∧ other = slot) ∨ Live st fid' pool' j other ∧ ¬ (fid' = fid ∧ pool' = pool ∧ j = i) := by
  obtain ⟨file',found',at',state⟩ := live
  rw [eq] at found'
  by_cases same : fid' = fid
  · subst same
    rw [update_self] at found'
    cases found'
    by_cases here : pool' = pool ∧ j = i
    · obtain ⟨rfl,rfl⟩ := here
      simp only [setSlot,update_self] at at'
      exact .inl ⟨rfl,rfl,rfl,at'.symm⟩
    · right
      refine ⟨⟨file,found,?_,state⟩,fun both => here both.2⟩
      by_cases samePool : pool' = pool
      · subst samePool
        have other : j ≠ i := fun same => here ⟨rfl,same⟩
        simpa [setSlot,other] using at'
      · simpa [setSlot,samePool] using at'
  · rw [update_of_ne same] at found'
    exact .inr ⟨⟨file',found',at',state⟩,fun both => same both.1⟩

theorem findSlot_none {slots : Nat → Slot} (none : findSlot slots off = none) (inside : i < mbcacheMxBufPerPool)
    (state : (slots i).state = true) : (slots i).off ≠ off := by
  intro same
  have := List.find?_eq_none.mp none i (List.mem_range.mpr inside)
  simp [state,same] at this

theorem findSlot_some {slots : Nat → Slot} (found : findSlot slots off = some i) :
    (slots i).state = true ∧ (slots i).off = off := by
  have := List.find?_some found
  simpa using this

/-- The slot of a window is the one that is found, or is new and has no equal. -/
theorem takeSlot_spec (slots : Nat → Slot) (curOff key : Nat) (inside : offCache < 2 ^ 42) :
    (findSlot slots offCache = some (takeSlot slots curOff offCache key).1 ∧
      (takeSlot slots curOff offCache key).2 = slots (takeSlot slots curOff offCache key).1) ∨
    (findSlot slots offCache = none ∧ (takeSlot slots curOff offCache key).1 < mbcacheMxBufPerPool ∧
      (takeSlot slots curOff offCache key).2.off = offCache ∧ (takeSlot slots curOff offCache key).2.state = true ∧
      (takeSlot slots curOff offCache key).2.ownerKey = key) := by
  unfold takeSlot
  cases found : findSlot slots offCache with
  | some i => exact .inl ⟨rfl,rfl⟩
  | none =>
    right
    refine ⟨rfl,?_,Nat.mod_eq_of_lt inside,rfl,rfl⟩
    cases free : (List.range mbcacheMxBufPerPool).find? fun i => !(slots i).state with
    | some i => exact List.mem_range.mp (List.mem_of_find?_eq_some free)
    | none => exact Nat.mod_lt _ (by decide)

/-- Two live slots of a file for one window are the same. -/
theorem Inv.same_slot (inv : Inv bsize st) (live : Live st fid pool i slot) (other : Live st fid pool' j slot')
    (same : slot.off = slot'.off) : pool = pool' ∧ i = j := by
  obtain ⟨-,w,eq,rfl⟩ := inv.home fid pool i slot live
  obtain ⟨-,w',eq',rfl⟩ := inv.home fid pool' j slot' other
  have : w = w' := Nat.eq_of_mul_eq_mul_right (bufferBsize_pos bsize) (by rw [← eq,← eq',same])
  subst this
  exact ⟨rfl,inv.unique fid _ i j slot slot' live other same⟩

end Tables

/-- Windows of an insertion that have their buffers in different pools. -/
def Distinct (bsize : BSize) (fid : Fid) (start stop : Nat) : Prop :=
  ∀ w v, start ≤ w → w < v → v ≤ stop → poolIdx bsize fid (w * bufferBsize bsize) ≠ poolIdx bsize fid (v * bufferBsize bsize)

/-- During an insertion its key is only at the windows from `start` to `stop`. -/
structure Loop (bsize : BSize) (st : View β) (fid : Fid) (start stop : Nat) : Prop extends Inv bsize st where
  slots : ∀ fid' pool i slot, Live st fid' pool i slot → slot.ownerKey = st.key →
    fid' = fid ∧ ∃ w, start ≤ w ∧ w < stop ∧ slot.off = w * bufferBsize bsize
  blocks : ∀ pool j buf n, st.gcache pool j = some buf → (buf.header n).ownerKey = st.key →
    ∃ w, start ≤ w ∧ w < stop ∧ pool = poolIdx bsize fid (w * bufferBsize bsize)

section Turns
variable {β : Type} {bsize : BSize} {st : View β}

theorem Loop.more (loop : Loop bsize st fid start stop) (le : stop ≤ stop') : Loop bsize st fid start stop' where
  toInv := loop.toInv
  slots fid' pool i slot live own := by
    obtain ⟨same,w,low,high,eq⟩ := loop.slots fid' pool i slot live own
    exact ⟨same,w,low,Nat.lt_of_lt_of_le high le,eq⟩
  blocks pool j buf n found own := by
    obtain ⟨w,low,high,eq⟩ := loop.blocks pool j buf n found own
    exact ⟨w,low,Nat.lt_of_lt_of_le high le,eq⟩

/-- A new slot has the key of the insertion, which no block of its pool has. -/
theorem Loop.newSlot (loop : Loop bsize st fid start stop) (positive : 0 < st.key) (order : start ≤ stop)
    (distinct : Distinct bsize fid start stop) {file : File} (found : st.table fid = some file)
    (none : findSlot (file (stop % mbcacheMxPool)) (stop * bufferBsize bsize) = none) (inside : i < mbcacheMxBufPerPool)
    (off : slot.off = stop * bufferBsize bsize) (own : slot.ownerKey = st.key) :
    Loop bsize { st with table := update st.table fid (some (setSlot file (stop % mbcacheMxPool) i slot)) } fid start (stop + 1) := by
  have cases : ∀ fid' pool' j other,
      Live { st with table := update st.table fid (some (setSlot file (stop % mbcacheMxPool) i slot)) } fid' pool' j other →
      (fid' = fid ∧ pool' = stop % mbcacheMxPool ∧ j = i ∧ other = slot) ∨
        Live st fid' pool' j other ∧ ¬ (fid' = fid ∧ pool' = stop % mbcacheMxPool ∧ j = i) :=
    fun fid' pool' j other live => live_setSlot found rfl live
  -- the other live slots with this key are for earlier windows
  have other_pool : ∀ fid' pool' j other, Live st fid' pool' j other → other.ownerKey = st.key →
      fid' = fid ∧ poolIdx bsize fid other.off ≠ poolIdx bsize fid slot.off := by
    intro fid' pool' j other live same
    obtain ⟨rfl,w,low,high,eq⟩ := loop.slots fid' pool' j other live same
    rw [eq,off]
    exact ⟨rfl,distinct w stop low high (Nat.le_refl stop)⟩
  have no_block : ∀ j buf n, st.gcache (poolIdx bsize fid slot.off) j = some buf → (buf.header n).ownerKey ≠ slot.ownerKey := by
    intro j buf n at' same
    rw [own] at same
    obtain ⟨w,low,high,eq⟩ := loop.blocks _ j buf n at' same
    rw [off] at eq
    exact distinct w stop low high (Nat.le_refl stop) eq.symm
  have new_window : ∀ j other, Live st fid (stop % mbcacheMxPool) j other → other.off ≠ slot.off := by
    intro j other live
    have bound := (loop.home _ _ j other live).1
    obtain ⟨file',found',rfl,state⟩ := live
    rw [found] at found'
    cases found'
    rw [off]
    exact findSlot_none none bound state
  refine ⟨⟨?_,loop.headers,?_,?_,?_,?_,?_,loop.gets,loop.used⟩,?_,?_⟩
  · intro fid' pool' j other live
    rcases cases fid' pool' j other live with ⟨-,-,-,rfl⟩ | ⟨live,-⟩
    · rw [own]
      exact ⟨positive,Nat.le_refl _⟩
    · exact loop.keys fid' pool' j other live
  · intro fid' pool' j other live
    rcases cases fid' pool' j other live with ⟨-,rfl,rfl,rfl⟩ | ⟨live,-⟩
    · exact ⟨inside,stop,off,rfl⟩
    · exact loop.home fid' pool' j other live
  · intro fid' pool' j j' other other' live live' same
    rcases cases fid' pool' j other live with ⟨rfl,rfl,rfl,rfl⟩ | ⟨old,-⟩
    · rcases cases fid' _ j' other' live' with ⟨-,-,rfl,-⟩ | ⟨old,-⟩
      · rfl
      · exact absurd same.symm (new_window j' other' old)
    · rcases cases fid' pool' j' other' live' with ⟨rfl,rfl,rfl,rfl⟩ | ⟨old',-⟩
      · exact absurd same (new_window j other old)
      · exact loop.unique fid' pool' j j' other other' old old' same
  · intro fid' pool' j other fid'' pool'' j' other' live live' same
    rcases cases fid' pool' j other live with ⟨rfl,-,-,rfl⟩ | ⟨old,-⟩
    · rcases cases fid'' pool'' j' other' live' with ⟨rfl,-,-,rfl⟩ | ⟨old,-⟩
      · exact ⟨rfl,.inl rfl⟩
      · obtain ⟨rfl,apart⟩ := other_pool fid'' pool'' j' other' old (same.symm.trans own)
        exact ⟨rfl,.inr apart.symm⟩
    · rcases cases fid'' pool'' j' other' live' with ⟨rfl,-,-,rfl⟩ | ⟨old',-⟩
      · obtain ⟨rfl,apart⟩ := other_pool fid' pool' j other old (same.trans own)
        exact ⟨rfl,.inr apart⟩
      · exact loop.apart fid' pool' j other fid'' pool'' j' other' old old' same
  · intro fid' pool' j other k buf n live at' same
    rcases cases fid' pool' j other live with ⟨rfl,-,-,rfl⟩ | ⟨live,-⟩
    · exact absurd same (no_block k buf n at')
    · exact loop.owned fid' pool' j other k buf n live at' same
  · intro fid' pool' j other k buf n live at' same
    rcases cases fid' pool' j other live with ⟨rfl,-,-,rfl⟩ | ⟨live,-⟩
    · exact absurd same (no_block k buf n at')
    · exact loop.content fid' pool' j other k buf n live at' same
  · intro fid' pool' j other live same
    rcases cases fid' pool' j other live with ⟨rfl,-,-,rfl⟩ | ⟨live,-⟩
    · exact ⟨rfl,stop,order,Nat.lt_succ_self stop,off⟩
    · exact (loop.more (Nat.le_succ stop)).slots fid' pool' j other live same
  · exact (loop.more (Nat.le_succ stop)).blocks

/-- New buffers have no owner. -/
def Grown (gcache gcache' : Nat → Nat → Option (Buffer β)) : Prop :=
  ∀ pool j buf, gcache' pool j = some buf → gcache pool j = some buf ∨ ∀ n, buf.header n = ⟨0,0⟩

theorem Grown.setBuffer (gcache : Nat → Nat → Option (Buffer β)) (pool j : Nat) (memory : Nat → β) :
    Grown gcache (setBuffer gcache pool j (allocBuffer memory)) := by
  intro pool' j' buf found
  by_cases here : pool' = pool ∧ j' = j
  · obtain ⟨rfl,rfl⟩ := here
    simp only [BlockCache.setBuffer,update_self] at found
    cases found
    exact .inr fun _ => rfl
  · left
    by_cases samePool : pool' = pool
    · subst samePool
      have other : j' ≠ j := fun same => here ⟨rfl,same⟩
      simpa [BlockCache.setBuffer,other] using found
    · simpa [BlockCache.setBuffer,samePool] using found

/-- A slot without a block may refer to another buffer. -/
theorem live_rebuffer {st' : View β} {file : File} (found : st.table fid = some file) (state : (file pool i).state = true)
    (eq : st'.table = update st.table fid (some (setSlot file pool i { file pool i with bufIdxValid := valid, bufIdx := idx })))
    (live : Live st' fid' pool' j other) :
    ∃ old, Live st fid' pool' j old ∧ old.off = other.off ∧ old.ownerKey = other.ownerKey ∧
      (old = other ∨ fid' = fid ∧ old = file pool i) := by
  rcases live_setSlot found eq live with ⟨rfl,rfl,rfl,rfl⟩ | ⟨old,-⟩
  · exact ⟨file pool' j,⟨file,found,rfl,state⟩,rfl,rfl,.inr ⟨rfl,rfl⟩⟩
  · exact ⟨other,old,rfl,rfl,.inl rfl⟩

theorem Inv.rebuffer (inv : Inv bsize st) {file : File} (found : st.table fid = some file) (state : (file pool i).state = true)
    (none : ∀ j buf n, st.gcache (poolIdx bsize fid (file pool i).off) j = some buf →
      (buf.header n).ownerKey ≠ (file pool i).ownerKey)
    {gcache : Nat → Nat → Option (Buffer β)} (grown : Grown st.gcache gcache) (valid : Bool) (idx : Nat) :
    Inv bsize { st with
      gcache := gcache
      table := update st.table fid (some (setSlot file pool i { file pool i with bufIdxValid := valid, bufIdx := idx })) } := by
  have cases : ∀ fid' pool' j other, Live { st with
      gcache := gcache
      table := update st.table fid (some (setSlot file pool i { file pool i with bufIdxValid := valid, bufIdx := idx })) }
        fid' pool' j other → ∃ old, Live st fid' pool' j old ∧ old.off = other.off ∧ old.ownerKey = other.ownerKey ∧
      (old = other ∨ fid' = fid ∧ old = file pool i) := fun fid' pool' j other live => live_rebuffer found state rfl live
  -- a block of a live slot is an old one, of a slot that was not changed
  have blocks : ∀ fid' pool' j other k buf n, Live { st with
      gcache := gcache
      table := update st.table fid (some (setSlot file pool i { file pool i with bufIdxValid := valid, bufIdx := idx })) }
        fid' pool' j other → gcache (poolIdx bsize fid' other.off) k = some buf → (buf.header n).ownerKey = other.ownerKey →
      Live st fid' pool' j other ∧ st.gcache (poolIdx bsize fid' other.off) k = some buf := by
    intro fid' pool' j other k buf n live at' same
    obtain ⟨old,before',off,key,changed⟩ := cases fid' pool' j other live
    rcases grown _ k buf at' with before | fresh
    · rcases changed with rfl | ⟨rfl,rfl⟩
      · exact ⟨before',before⟩
      · rw [← off] at before
        exact absurd (same.trans key.symm) (none k buf n before)
    · have := (inv.keys fid' pool' j old before').1
      rw [fresh n] at same
      dsimp only at same
      omega
  refine ⟨?_,?_,?_,?_,?_,?_,?_,inv.gets,inv.used⟩
  · intro fid' pool' j other live
    obtain ⟨old,live,off,key,-⟩ := cases fid' pool' j other live
    rw [← key]
    exact inv.keys fid' pool' j old live
  · intro pool' j buf n at'
    rcases grown pool' j buf at' with before | fresh
    · exact inv.headers pool' j buf n before
    · rw [fresh n]
      exact ⟨Nat.zero_le _,Nat.zero_le _⟩
  · intro fid' pool' j other live
    obtain ⟨old,live,off,-,-⟩ := cases fid' pool' j other live
    rw [← off]
    exact inv.home fid' pool' j old live
  · intro fid' pool' j j' other other' live live' same
    obtain ⟨old,live,off,-,-⟩ := cases fid' pool' j other live
    obtain ⟨old',live',off',-,-⟩ := cases fid' pool' j' other' live'
    exact inv.unique fid' pool' j j' old old' live live' (by rw [off,off',same])
  · intro fid' pool' j other fid'' pool'' j' other' live live' same
    obtain ⟨old,live,off,key,-⟩ := cases fid' pool' j other live
    obtain ⟨old',live',off',key',-⟩ := cases fid'' pool'' j' other' live'
    rw [← off,← off']
    exact inv.apart fid' pool' j old fid'' pool'' j' old' live live' (by rw [key,key',same])
  · intro fid' pool' j other k buf n live at' same
    obtain ⟨old,before⟩ := blocks fid' pool' j other k buf n live at' same
    exact inv.owned fid' pool' j other k buf n old before same
  · intro fid' pool' j other k buf n live at' same inside
    obtain ⟨old,before⟩ := blocks fid' pool' j other k buf n live at' same
    exact inv.content fid' pool' j other k buf n old before same inside

theorem Loop.rebuffer (loop : Loop bsize st fid start stop) (positive : 0 < st.key) {file : File}
    (found : st.table fid = some file) (state : (file pool i).state = true)
    (none : ∀ j buf n, st.gcache (poolIdx bsize fid (file pool i).off) j = some buf →
      (buf.header n).ownerKey ≠ (file pool i).ownerKey)
    {gcache : Nat → Nat → Option (Buffer β)} (grown : Grown st.gcache gcache) (valid : Bool) (idx : Nat) :
    Loop bsize { st with
      gcache := gcache
      table := update st.table fid (some (setSlot file pool i { file pool i with bufIdxValid := valid, bufIdx := idx })) }
      fid start stop where
  toInv := loop.toInv.rebuffer found state none grown valid idx
  slots fid' pool' j other live same := by
    obtain ⟨old,live,off,key,-⟩ := live_rebuffer found state rfl live
    rw [← off]
    exact loop.slots fid' pool' j old live (key.trans same)
  blocks pool' j buf n at' same := by
    rcases grown pool' j buf at' with before | fresh
    · exact loop.blocks pool' j buf n before same
    · rw [fresh n] at same
      dsimp only at same
      omega

theorem allocBuf256K_spec (bsize : BSize) (fid : Fid) (off : Nat) (memory : Nat → β) (gcache : Nat → Nat → Option (Buffer β)) :
    Grown gcache (allocBuf256K bsize fid off memory gcache).1 ∧
    ((allocBuf256K bsize fid off memory gcache).1 (poolIdx bsize fid off)
      (allocBuf256K bsize fid off memory gcache).2).isSome = true := by
  unfold allocBuf256K
  dsimp only
  cases free : (List.range cacheMaxBufInAPool).find? fun i => (gcache (poolIdx bsize fid off) i).isNone with
  | some i =>
    dsimp only
    exact ⟨Grown.setBuffer gcache _ i memory,by simp [setBuffer]⟩
  | none =>
    dsimp only
    refine ⟨fun pool j buf found => .inl found,?_⟩
    have full := List.find?_eq_none.mp free (((poolHash (off / bufferBsize bsize) fid).toNat >>> 16) % cacheMaxBufInAPool)
      (List.mem_range.mpr (Nat.mod_lt _ (by decide)))
    simpa [Option.isSome_iff_ne_none] using full

theorem setBuffer_cases {gcache : Nat → Nat → Option (Buffer β)} (found : setBuffer gcache pool j buf pool' j' = some buf') :
    (pool' = pool ∧ j' = j ∧ buf' = buf) ∨ ¬ (pool' = pool ∧ j' = j) ∧ gcache pool' j' = some buf' := by
  by_cases here : pool' = pool ∧ j' = j
  · obtain ⟨rfl,rfl⟩ := here
    simp only [setBuffer,update_self] at found
    cases found
    exact .inl ⟨rfl,rfl,rfl⟩
  · refine .inr ⟨here,?_⟩
    by_cases samePool : pool' = pool
    · subst samePool
      have other : j' ≠ j := fun same => here ⟨rfl,same⟩
      simpa [setBuffer,other] using found
    · simpa [setBuffer,samePool] using found

/-- Bytes of another window or of another file. -/
theorem other_window {inserted : Fid → Nat → Option β} (bsize : BSize) {off len : Nat}
    (fits : off % bufferBsize bsize + len ≤ bufferBsize bsize)
    (apart : fid' ≠ fid ∨ w ≠ off / bufferBsize bsize) (inside : n < cacheBcount) (low : x < bsize.bytes) (data : Nat → Option β) :
    update inserted fid (overlay (inserted fid) off len data) fid' (w * bufferBsize bsize + n * bsize.bytes + x) =
      inserted fid' (w * bufferBsize bsize + n * bsize.bytes + x) := by
  by_cases same : fid' = fid
  · subst same
    rw [update_self]
    apply overlay_outside
    have whole := Nat.div_add_mod' off (bufferBsize bsize)
    have last := block_before bsize.bytes inside
    have size : cacheBcount * bsize.bytes = bufferBsize bsize := rfl
    rcases Nat.lt_or_gt_of_ne (apart.resolve_left (not_not.mpr rfl)) with before | after
    · have := block_before (bufferBsize bsize) before
      omega
    · have := block_before (bufferBsize bsize) after
      omega
  · rw [update_of_ne same]

theorem Live.eq (live : Live st fid pool i slot) (other : Live st fid pool i slot') : slot = slot' := by
  obtain ⟨file,found,rfl,-⟩ := live
  obtain ⟨file',found',rfl,-⟩ := other
  rw [found] at found'
  cases found'
  rfl

theorem Inv.write (inv : Inv bsize st) (live : Live st fid pool i slot) (valid : slot.bufIdxValid = true)
    (at' : st.gcache (poolIdx bsize fid slot.off) slot.bufIdx = some buf) {src : Nat → β}
    (stores : Stores bsize buf buf' (off % bufferBsize bsize) len src slot.ownerKey)
    (window : slot.off = off / bufferBsize bsize * bufferBsize bsize)
    (fits : off % bufferBsize bsize + len ≤ bufferBsize bsize) {looked : List Nat}
    (small : ∀ i ∈ looked, i < cacheBcount) :
    Inv bsize { st with
      gcache := setBuffer st.gcache (poolIdx bsize fid slot.off) slot.bufIdx buf'
      inserted := update st.inserted fid (overlay (st.inserted fid) off len fun i => some (src i))
      used := st.used ++ looked } := by
  have short := fun n => (inv.headers _ _ buf n at').2
  -- a slot that shares the key and the pool is the one that is written
  have only : ∀ fid' pool' j other, Live st fid' pool' j other → other.ownerKey = slot.ownerKey →
      poolIdx bsize fid' other.off = poolIdx bsize fid slot.off → fid' = fid ∧ other = slot := by
    intro fid' pool' j other live' key samePool
    obtain ⟨rfl,same | apart⟩ := inv.apart fid' pool' j other fid pool i slot live' live key
    · obtain ⟨rfl,rfl⟩ := inv.same_slot live' live same
      exact ⟨rfl,live'.eq live⟩
    · exact absurd samePool apart
  have untouched : ∀ fid' pool' j other n x, Live st fid' pool' j other → ¬ (fid' = fid ∧ other = slot) → n < cacheBcount →
      x < bsize.bytes → update st.inserted fid (overlay (st.inserted fid) off len fun i => some (src i)) fid'
        (other.off + n * bsize.bytes + x) = st.inserted fid' (other.off + n * bsize.bytes + x) := by
    intro fid' pool' j other n x live' differ inside below
    obtain ⟨-,w,eq,-⟩ := inv.home fid' pool' j other live'
    rw [eq]
    refine other_window bsize fits ?_ inside below _
    by_contra both
    obtain ⟨rfl,rfl⟩ := not_or.mp both |>.imp not_not.mp not_not.mp
    obtain ⟨rfl,rfl⟩ := inv.same_slot live' live (eq.trans window.symm)
    exact differ ⟨rfl,live'.eq live⟩
  refine ⟨inv.keys,?_,inv.home,inv.unique,inv.apart,?_,?_,inv.gets,?_⟩
  · intro pool' j b n found
    rcases setBuffer_cases found with ⟨rfl,rfl,rfl⟩ | ⟨-,old⟩
    · refine ⟨?_,stores.short short n⟩
      by_cases mine : (b.header n).ownerKey = slot.ownerKey
      · rw [mine]
        exact (inv.keys fid pool i slot live).2
      · rw [(stores.others n mine).1]
        exact (inv.headers _ _ buf n at').1
    · exact inv.headers pool' j b n old
  · intro fid' pool' j other k b n live' found same
    have found : setBuffer st.gcache (poolIdx bsize fid slot.off) slot.bufIdx buf' (poolIdx bsize fid' other.off) k = some b :=
      found
    rcases setBuffer_cases found with ⟨samePool,rfl,rfl⟩ | ⟨-,old⟩
    · by_cases mine : other.ownerKey = slot.ownerKey
      · obtain ⟨rfl,rfl⟩ := only fid' pool' j other live' mine samePool
        exact ⟨valid,rfl⟩
      · have kept := (stores.others n (by rw [same]; exact mine)).1
        rw [kept] at same
        rw [← samePool] at at'
        exact inv.owned fid' pool' j other _ buf n live' at' same
    · exact inv.owned fid' pool' j other k b n live' old same
  · intro fid' pool' j other k b n live' found same inside x below
    have found : setBuffer st.gcache (poolIdx bsize fid slot.off) slot.bufIdx buf' (poolIdx bsize fid' other.off) k = some b :=
      found
    rcases setBuffer_cases found with ⟨samePool,rfl,rfl⟩ | ⟨elsewhere,old⟩
    · have bound := stores.short short n
      by_cases mine : other.ownerKey = slot.ownerKey
      · obtain ⟨rfl,rfl⟩ := only fid' pool' j other live' mine samePool
        have whole := Nat.div_add_mod' off (bufferBsize bsize)
        dsimp only
        rw [update_self]
        rcases stores.mine n x same below with ⟨here,right⟩ | ⟨outside,owner,known,kept⟩
        · rw [overlay_inside (by omega) (by omega),right]
          congr 2
          omega
        · rw [overlay_outside (by omega),kept]
          exact inv.content fid' pool' j other _ buf n live' at' owner inside x known
      · obtain ⟨eq,kept⟩ := stores.others n (by rw [same]; exact mine)
        rw [eq] at same below
        dsimp only
        rw [untouched fid' pool' j other n x live' (fun both => mine (by rw [both.2])) inside (by have := short n; omega),
          kept x (by have := short n; omega)]
        rw [← samePool] at at'
        exact inv.content fid' pool' j other _ buf n live' at' same inside x below
    · dsimp only
      have differ : ¬ (fid' = fid ∧ other = slot) := by
        rintro ⟨rfl,rfl⟩
        exact elsewhere ⟨rfl,(inv.owned fid' pool' j other k b n live' old same).2⟩
      rw [untouched fid' pool' j other n x live' differ inside (by have := (inv.headers _ _ b n old).2; omega)]
      exact inv.content fid' pool' j other k b n live' old same inside x below
  · intro i member
    rcases List.mem_append.mp member with before | now
    · exact inv.used i before
    · exact small i now

theorem Loop.write (loop : Loop bsize st fid start stop) (live : Live st fid pool i slot) (valid : slot.bufIdxValid = true)
    (at' : st.gcache (poolIdx bsize fid slot.off) slot.bufIdx = some buf) {src : Nat → β}
    (stores : Stores bsize buf buf' (off % bufferBsize bsize) len src slot.ownerKey)
    (window : slot.off = off / bufferBsize bsize * bufferBsize bsize)
    (fits : off % bufferBsize bsize + len ≤ bufferBsize bsize) {looked : List Nat}
    (small : ∀ i ∈ looked, i < cacheBcount) :
    Loop bsize { st with
      gcache := setBuffer st.gcache (poolIdx bsize fid slot.off) slot.bufIdx buf'
      inserted := update st.inserted fid (overlay (st.inserted fid) off len fun i => some (src i))
      used := st.used ++ looked } fid start stop where
  toInv := loop.toInv.write live valid at' stores window fits small
  slots := loop.slots
  blocks pool' j b n found same := by
    rcases setBuffer_cases found with ⟨rfl,rfl,rfl⟩ | ⟨-,old⟩
    · by_cases mine : slot.ownerKey = st.key
      · obtain ⟨-,w,low,high,eq⟩ := loop.slots fid pool i slot live mine
        rw [eq]
        exact ⟨w,low,high,rfl⟩
      · have foreign : (b.header n).ownerKey ≠ slot.ownerKey := fun own => mine (own.symm.trans same)
        rw [(stores.others n foreign).1] at same
        exact loop.blocks _ _ buf n at' same
    · exact loop.blocks pool' j b n old same

end Turns

/-- Length of the block of an offset, when it belongs to the file. -/
def ownedLen {β : Type} (bsize : BSize) (st : View β) (fid : Fid) (off : Nat) : Option Nat :=
  (st.table fid).bind fun file =>
    let offKey := off / bufferBsize bsize
    (findSlot (file (offKey % mbcacheMxPool)) (offKey * bufferBsize bsize)).bind fun i =>
      let slot := file (offKey % mbcacheMxPool) i
      if slot.bufIdxValid then
        (st.gcache (poolIdx bsize fid off) slot.bufIdx).bind fun buf =>
          let header := buf.header (off % bufferBsize bsize / bsize.bytes)
          if header.ownerKey = slot.ownerKey then some header.len else none
      else none

section Insertion
variable {β : Type} {bsize : BSize} {st : View β}

/-- The slot of a turn after it was given a buffer. -/
def turnSlot (bsize : BSize) (fid : Fid) (key : Nat) (memory : Nat → β) (curOff : Nat) (file : File) (st : View β) :
    (Nat → Nat → Option (Buffer β)) × Slot :=
  ensureBuffer bsize fid curOff memory (takeSlot (file (curOff / bufferBsize bsize % mbcacheMxPool)) curOff
    (curOff / bufferBsize bsize * bufferBsize bsize) key).2 st.gcache

/-- Index of the slot of a turn. -/
def turnIdx (bsize : BSize) (key curOff : Nat) (file : File) : Nat :=
  (takeSlot (file (curOff / bufferBsize bsize % mbcacheMxPool)) curOff (curOff / bufferBsize bsize * bufferBsize bsize) key).1

/-- A slot without blocks gets a buffer where it has none. -/
theorem ensureBuffer_cases (bsize : BSize) (fid : Fid) (off : Nat) (memory : Nat → β) (slot : Slot)
    (gcache : Nat → Nat → Option (Buffer β)) :
    (slot.bufIdxValid = true ∧ (∃ buf, gcache (poolIdx bsize fid off) slot.bufIdx = some buf) ∧
      ensureBuffer bsize fid off memory slot gcache = (gcache,slot)) ∨
    (¬ (slot.bufIdxValid = true ∧ ∃ buf, gcache (poolIdx bsize fid off) slot.bufIdx = some buf) ∧
      ∃ gcache' idx, Grown gcache gcache' ∧ (∃ buf, gcache' (poolIdx bsize fid off) idx = some buf) ∧
        ensureBuffer bsize fid off memory slot gcache = (gcache',{ slot with bufIdxValid := true, bufIdx := idx })) := by
  unfold ensureBuffer
  by_cases has : (slot.bufIdxValid && (gcache (poolIdx bsize fid off) slot.bufIdx).isSome) = true
  · rw [if_pos has]
    simp only [Bool.and_eq_true,Option.isSome_iff_exists] at has
    exact .inl ⟨has.1,has.2,rfl⟩
  · rw [if_neg has]
    obtain ⟨grown,some⟩ := allocBuf256K_spec bsize fid off memory gcache
    simp only [Bool.and_eq_true,Option.isSome_iff_exists] at has
    exact .inr ⟨has,_,_,grown,Option.isSome_iff_exists.mp some,rfl⟩

/-- The blocks of a slot that gets a buffer are not its own. -/
theorem fresh_foreign {gcache' : Nat → Nat → Option (Buffer β)} (positive : 0 < key)
    (none : ∀ j buf n, st.gcache pool j = some buf → (buf.header n).ownerKey ≠ key) (grown : Grown st.gcache gcache')
    (found : gcache' pool j = some buf) (n : Nat) : (buf.header n).ownerKey ≠ key := by
  rcases grown pool j buf found with before | fresh
  · exact none j buf n before
  · rw [fresh n]
    exact Nat.ne_of_lt positive

/-- A turn of the loop up to the write. -/
theorem turn_placed (loop : Loop bsize st fid start (curOff / bufferBsize bsize)) (positive : 0 < st.key)
    (order : start ≤ curOff / bufferBsize bsize) (distinct : Distinct bsize fid start (curOff / bufferBsize bsize))
    (small : curOff < 2 ^ 42) {file : File} (found : st.table fid = some file) (memory : Nat → β) :
    let pool := curOff / bufferBsize bsize % mbcacheMxPool
    let i := turnIdx bsize st.key curOff file
    let slot := (turnSlot bsize fid st.key memory curOff file st).2
    let gcache := (turnSlot bsize fid st.key memory curOff file st).1
    Loop bsize { st with table := update st.table fid (some (setSlot file pool i slot)), gcache := gcache } fid start
      (curOff / bufferBsize bsize + 1) ∧
    slot.off = curOff / bufferBsize bsize * bufferBsize bsize ∧ slot.state = true ∧ slot.bufIdxValid = true ∧
    ∃ buf, gcache (poolIdx bsize fid curOff) slot.bufIdx = some buf ∧ ownedLen bsize st fid curOff =
      if (buf.header (curOff % bufferBsize bsize / bsize.bytes)).ownerKey = slot.ownerKey then
        some (buf.header (curOff % bufferBsize bsize / bsize.bytes)).len else none := by
  have inside : curOff / bufferBsize bsize * bufferBsize bsize < 2 ^ 42 :=
    Nat.lt_of_le_of_lt (Nat.div_mul_le_self _ _) small
  unfold turnSlot turnIdx
  obtain spec := takeSlot_spec (file (curOff / bufferBsize bsize % mbcacheMxPool)) curOff st.key inside
  unfold ownedLen
  rw [found]
  generalize takeSlot (file (curOff / bufferBsize bsize % mbcacheMxPool)) curOff
    (curOff / bufferBsize bsize * bufferBsize bsize) st.key = taken at spec
  obtain ⟨i,slot⟩ := taken
  dsimp only [Option.bind_some] at spec ⊢
  rcases spec with ⟨known,rfl⟩ | ⟨none,bound,off,state,own⟩
  · -- the slot of the window is known
    obtain ⟨state,off⟩ := findSlot_some known
    have live : Live st fid _ i _ := ⟨file,found,rfl,state⟩
    have more := loop.more (Nat.le_succ (curOff / bufferBsize bsize))
    rw [known]
    dsimp only [Option.bind_some]
    have pool : poolIdx bsize fid (file (curOff / bufferBsize bsize % mbcacheMxPool) i).off = poolIdx bsize fid curOff := by
      rw [off,poolIdx_window]
    rcases ensureBuffer_cases bsize fid curOff memory (file (curOff / bufferBsize bsize % mbcacheMxPool) i) st.gcache with
      ⟨valid,⟨buf,at'⟩,eq⟩ | ⟨lacks,gcache,idx,grown,⟨buf,at'⟩,eq⟩
    · rw [eq]
      refine ⟨?_,off,state,valid,buf,at',?_⟩
      · have same : update st.table fid (some (setSlot file (curOff / bufferBsize bsize % mbcacheMxPool) i
            (file (curOff / bufferBsize bsize % mbcacheMxPool) i))) = st.table := by
          unfold setSlot
          rw [update_eq_self,update_eq_self,← found,update_eq_self]
        dsimp only
        rw [same]
        exact more
      · rw [if_pos valid,at']
        rfl
    · rw [eq]
      have none : ∀ j buf n, st.gcache (poolIdx bsize fid (file (curOff / bufferBsize bsize % mbcacheMxPool) i).off) j = some buf →
          (buf.header n).ownerKey ≠ (file (curOff / bufferBsize bsize % mbcacheMxPool) i).ownerKey := by
        intro j buf n at' same
        obtain ⟨valid,rfl⟩ := loop.owned fid _ i _ j buf n live at' same
        rw [pool] at at'
        exact lacks ⟨valid,buf,at'⟩
      refine ⟨more.rebuffer positive found state none grown true idx,off,state,rfl,buf,at',?_⟩
      rw [pool] at none
      have foreign := fresh_foreign (loop.keys fid _ i _ live).1 none grown at' (curOff % bufferBsize bsize / bsize.bytes)
      rw [if_neg foreign]
      split
      · rename_i valid
        cases before : st.gcache (poolIdx bsize fid curOff) (file (curOff / bufferBsize bsize % mbcacheMxPool) i).bufIdx with
        | none => rfl
        | some old => exact absurd ⟨valid,old,before⟩ lacks
      · rfl
  · -- the slot is new
    have placed := loop.newSlot positive order distinct found none bound off own
    have set : setSlot file (curOff / bufferBsize bsize % mbcacheMxPool) i slot (curOff / bufferBsize bsize % mbcacheMxPool) i =
        slot := by simp [setSlot]
    have again : ∀ slot', setSlot (setSlot file (curOff / bufferBsize bsize % mbcacheMxPool) i slot)
        (curOff / bufferBsize bsize % mbcacheMxPool) i slot' = setSlot file (curOff / bufferBsize bsize % mbcacheMxPool) i slot' := by
      intro slot'
      simp [setSlot]
    have blocks : ∀ j buf n, st.gcache (poolIdx bsize fid curOff) j = some buf → (buf.header n).ownerKey ≠ slot.ownerKey := by
      intro j buf n at' same
      rw [own] at same
      obtain ⟨w,low,high,eq⟩ := loop.blocks _ j buf n at' same
      rw [← poolIdx_window] at eq
      exact distinct w _ low high (Nat.le_refl _) eq.symm
    have pool : poolIdx bsize fid slot.off = poolIdx bsize fid curOff := by rw [off,poolIdx_window]
    rw [none]
    dsimp only [Option.bind_none]
    rcases ensureBuffer_cases bsize fid curOff memory slot st.gcache with
      ⟨valid,⟨buf,at'⟩,eq⟩ | ⟨lacks,gcache,idx,grown,⟨buf,at'⟩,eq⟩
    · rw [eq]
      refine ⟨placed,off,state,valid,buf,at',?_⟩
      rw [if_neg (blocks _ buf _ at')]
    · rw [eq]
      refine ⟨?_,off,state,rfl,buf,at',?_⟩
      · have stored : update st.table fid (some (setSlot file (curOff / bufferBsize bsize % mbcacheMxPool) i slot)) fid =
            some (setSlot file (curOff / bufferBsize bsize % mbcacheMxPool) i slot) := update_self _ _ _
        have busy : (setSlot file (curOff / bufferBsize bsize % mbcacheMxPool) i slot
            (curOff / bufferBsize bsize % mbcacheMxPool) i).state = true := by
          rw [set]
          exact state
        have done := placed.rebuffer positive stored busy (by rw [set,pool]; exact blocks) grown true idx
        rw [set,again] at done
        dsimp only at done ⊢
        rw [Function.update_idem] at done
        exact done
      · rw [if_neg (fresh_foreign (by rw [own]; exact positive) blocks grown at' _)]

/-- What a part of an insertion needs of the block of its first byte. -/
def Begins (bsize : BSize) (st : View β) (fid : Fid) (off len : Nat) : Prop :=
  off % bsize.bytes = 0 ∨
  match ownedLen bsize st fid off with
  | some n => off < bsize.bytes ∧ off ≤ n
  | none => len ≤ off % bsize.bytes ∧ off % bsize.bytes + len ≤ bsize.bytes

theorem insertChunk_loop (loop : Loop bsize st fid start (curOff / bufferBsize bsize)) (positive : 0 < st.key)
    (order : start ≤ curOff / bufferBsize bsize) (distinct : Distinct bsize fid start (curOff / bufferBsize bsize))
    (small : curOff < 2 ^ 42) {file : File} (found : st.table fid = some file)
    (fits : curOff % bufferBsize bsize + len ≤ bufferBsize bsize) (begins : Begins bsize st fid curOff len)
    (memory src : Nat → β) :
    Loop bsize (st.put fid (insertChunk bsize fid st.key memory curOff len src file st.toData).1
      (insertChunk bsize fid st.key memory curOff len src file st.toData).2) fid start (curOff / bufferBsize bsize + 1) ∧
    (insertChunk bsize fid st.key memory curOff len src file st.toData).2.key = st.key := by
  obtain ⟨placed,off,state,valid,buf,at',owned⟩ := turn_placed loop positive order distinct small found memory
  have pool : poolIdx bsize fid (turnSlot bsize fid st.key memory curOff file st).2.off = poolIdx bsize fid curOff := by
    rw [off,poolIdx_window]
  have ready : Ready bsize buf curOff len (turnSlot bsize fid st.key memory curOff file st).2.ownerKey := by
    rcases begins with aligned | begins
    · exact .inl aligned
    · rw [owned] at begins
      right
      by_cases own : (buf.header (curOff % bufferBsize bsize / bsize.bytes)).ownerKey =
          (turnSlot bsize fid st.key memory curOff file st).2.ownerKey
      · rw [if_pos own] at begins
        exact .inl ⟨own,begins⟩
      · rw [if_neg own] at begins
        exact .inr ⟨own,begins⟩
  obtain ⟨stores,looked⟩ := cacheInsert_stores (fun n => (placed.headers _ _ buf n at').2) fits ready src
  have live := (⟨_,update_self _ _ _,by simp [setSlot],state⟩ : Live { st with
    table := update st.table fid (some (setSlot file (curOff / bufferBsize bsize % mbcacheMxPool)
      (turnIdx bsize st.key curOff file) (turnSlot bsize fid st.key memory curOff file st).2))
    gcache := (turnSlot bsize fid st.key memory curOff file st).1 } fid (curOff / bufferBsize bsize % mbcacheMxPool)
      (turnIdx bsize st.key curOff file) (turnSlot bsize fid st.key memory curOff file st).2)
  have done := placed.write live valid (by rw [pool]; exact at') stores off fits looked
  rw [pool] at done
  have eq : insertChunk bsize fid st.key memory curOff len src file st.toData =
      (setSlot file (curOff / bufferBsize bsize % mbcacheMxPool) (turnIdx bsize st.key curOff file)
        (turnSlot bsize fid st.key memory curOff file st).2,{ st.toData with
        gcache := setBuffer (turnSlot bsize fid st.key memory curOff file st).1 (poolIdx bsize fid curOff)
          (turnSlot bsize fid st.key memory curOff file st).2.bufIdx
          (cacheInsert bsize buf curOff len src (turnSlot bsize fid st.key memory curOff file st).2.ownerKey).1
        inserted := update st.inserted fid (overlay (st.inserted fid) curOff len fun i => some (src i))
        used := st.used ++
          (cacheInsert bsize buf curOff len src (turnSlot bsize fid st.key memory curOff file st).2.ownerKey).2 }) := by
    have same : ((turnSlot bsize fid st.key memory curOff file st).1 (poolIdx bsize fid curOff)
        (turnSlot bsize fid st.key memory curOff file st).2.bufIdx).getD (allocBuffer memory) = buf := by
      rw [at']
      rfl
    rw [← same]
    rfl
  rw [eq]
  exact ⟨done,rfl⟩

/-- Length of the first turn of an insertion or of a get. -/
theorem turn_len (small : bsize = .bsize8K ∨ curOff % bufferBsize bsize + curLen ≤ min (bufferBsize bsize) mbcacheBufSize) :
    ¬ curOff % bufferBsize bsize > mbcacheBufSize ∧
    let len := if curOff % bufferBsize bsize + curLen > mbcacheBufSize then mbcacheBufSize - curOff % bufferBsize bsize
      else curLen
    curOff % bufferBsize bsize + len ≤ bufferBsize bsize ∧ len ≤ curLen ∧ (0 < curLen → 0 < len) ∧
    (len ≠ curLen → bsize = .bsize8K ∧ curOff + len = (curOff / bufferBsize bsize + 1) * bufferBsize bsize) := by
  have inside := Nat.mod_lt curOff (bufferBsize_pos bsize)
  have whole := Nat.div_add_mod' curOff (bufferBsize bsize)
  generalize curOff % bufferBsize bsize = skip at inside whole small
  rcases small with rfl | small
  · have size : bufferBsize .bsize8K = mbcacheBufSize := rfl
    rw [Nat.succ_mul]
    refine ⟨by omega,?_⟩
    dsimp only
    split
    · exact ⟨by omega,by omega,by omega,fun _ => ⟨rfl,by omega⟩⟩
    · exact ⟨by omega,Nat.le_refl _,id,fun differ => absurd rfl differ⟩
  · refine ⟨by omega,?_⟩
    dsimp only
    rw [if_neg (by omega)]
    exact ⟨by omega,Nat.le_refl _,id,fun differ => absurd rfl differ⟩

theorem insertLoop_inv (memory : Nat → β) (turns curLen curOff : Nat) (src : Nat → β) (file : File) (st : View β)
    (loop : Loop bsize st fid start (curOff / bufferBsize bsize)) (positive : 0 < st.key)
    (order : start ≤ curOff / bufferBsize bsize)
    (distinct : Distinct bsize fid start ((curOff + curLen - 1) / bufferBsize bsize)) (small : curOff + curLen ≤ 2 ^ 42)
    (found : st.table fid = some file)
    (sizes : bsize = .bsize8K ∨ curOff % bufferBsize bsize + curLen ≤ min (bufferBsize bsize) mbcacheBufSize)
    (begins : Begins bsize st fid curOff curLen) (enough : curLen ≤ turns) :
    ∃ file' data, insertLoop bsize fid st.key memory turns curLen curOff src file st.toData = some (file',data) ∧
      Inv bsize (st.put fid file' data) := by
  induction turns generalizing curLen curOff src file st with
  | zero =>
    cases Nat.le_zero.mp enough
    exact ⟨file,st.toData,by rw [insertLoop],loop.toInv.putSelf found⟩
  | succ turns ih =>
    cases curLen with
    | zero => exact ⟨file,st.toData,by rw [insertLoop],loop.toInv.putSelf found⟩
    | succ curLen =>
      obtain ⟨reach,fits,less,some,next⟩ := turn_len sizes
      rw [insertLoop]
      dsimp only
      rw [if_neg reach]
      generalize (if curOff % bufferBsize bsize + (curLen + 1) > mbcacheBufSize then
        mbcacheBufSize - curOff % bufferBsize bsize else curLen + 1) = len at fits less some next
      have some := some (Nat.succ_pos curLen)
      have upto : Distinct bsize fid start (curOff / bufferBsize bsize) := by
        intro w v low less high
        apply distinct w v low less
        exact Nat.le_trans high (Nat.div_le_div_right (by omega))
      -- a part that is not the whole starts at an offset that is aligned or in an owned block
      have begins' : Begins bsize st fid curOff len := by
        rcases begins with aligned | begins
        · exact .inl aligned
        · right
          cases owner : ownedLen bsize st fid curOff with
          | none =>
            rw [owner] at begins
            exact ⟨Nat.le_trans less begins.1,Nat.le_trans (Nat.add_le_add_left less _) begins.2⟩
          | some n =>
            rw [owner] at begins
            exact begins
      obtain ⟨after,key⟩ := insertChunk_loop loop positive order upto (by omega) found fits begins' memory src
      generalize insertChunk bsize fid st.key memory curOff len src file st.toData = result at after key
      obtain ⟨file',data⟩ := result
      dsimp only at after key ⊢
      by_cases last : len = curLen + 1
      · rw [last,Nat.sub_self]
        exact ⟨file',data,by cases turns <;> rw [insertLoop],after.toInv⟩
      · obtain ⟨rfl,ends⟩ := next last
        have window : (curOff + len) / bufferBsize .bsize8K = curOff / bufferBsize .bsize8K + 1 := by
          rw [ends,window_div]
        have aligned : (curOff + len) % BSize.bytes .bsize8K = 0 := by
          rw [ends,← relative_mod,Nat.mul_mod_left,Nat.zero_mod]
        have total : curOff + len + (curLen + 1 - len) = curOff + (curLen + 1) := by omega
        have rest := ih (curLen + 1 - len) (curOff + len) (fun i => src (len + i)) file' (st.put fid file' data)
          (by rw [window]; exact after) (by rw [View.put,key]; exact positive) (by rw [window]; omega)
          (by rw [total]; exact distinct) (by omega) (update_self _ _ _) (.inl rfl) (.inl aligned) (by omega)
        rw [← key]
        simpa only [View.put,Function.update_idem] using rest

/-- The table after a file gets an entry, for which others may be dropped. -/
structure Opened (table table' : Fid → Option File) (fid : Fid) : Prop where
  here : table' fid = some ((table fid).getD allocEntry)
  others : ∀ other, other ≠ fid → table' other = table other ∨ table' other = none

/-- A new entry has no slot in use. -/
theorem live_opened {st' : View β} (opened : Opened st.table st'.table fid) (live : Live st' fid' pool i slot) :
    Live st fid' pool i slot := by
  obtain ⟨file,found,at',state⟩ := live
  by_cases same : fid' = fid
  · subst same
    rw [opened.here] at found
    cases before : st.table fid' with
    | some old =>
      rw [before] at found
      exact ⟨file,before.trans found,at',state⟩
    | none =>
      rw [before] at found
      cases found
      subst at'
      cases state
  · rcases opened.others fid' same with kept | gone
    · exact ⟨file,kept.symm.trans found,at',state⟩
    · rw [gone] at found
      cases found

/-- The state of an insertion before its first turn. -/
theorem Inv.opened (inv : Inv bsize st) {table : Fid → Option File} (opened : Opened st.table table fid) (start : Nat) :
    Loop bsize { st with key := st.key + 1, table := table } fid start start := by
  have old : ∀ fid' pool i slot, Live { st with key := st.key + 1, table := table } fid' pool i slot →
      Live st fid' pool i slot := fun _ _ _ _ live => live_opened opened live
  refine ⟨⟨?_,?_,?_,?_,?_,?_,?_,inv.gets,inv.used⟩,?_,?_⟩
  · intro fid' pool i slot live
    have := inv.keys fid' pool i slot (old fid' pool i slot live)
    exact ⟨this.1,Nat.le_succ_of_le this.2⟩
  · intro pool j buf n found
    have := inv.headers pool j buf n found
    exact ⟨Nat.le_succ_of_le this.1,this.2⟩
  · intro fid' pool i slot live
    exact inv.home fid' pool i slot (old fid' pool i slot live)
  · intro fid' pool i j slot other live live'
    exact inv.unique fid' pool i j slot other (old _ _ _ _ live) (old _ _ _ _ live')
  · intro fid' pool i slot fid'' pool' j other live live'
    exact inv.apart fid' pool i slot fid'' pool' j other (old _ _ _ _ live) (old _ _ _ _ live')
  · intro fid' pool i slot j buf n live
    exact inv.owned fid' pool i slot j buf n (old _ _ _ _ live)
  · intro fid' pool i slot j buf n live
    exact inv.content fid' pool i slot j buf n (old _ _ _ _ live)
  · intro fid' pool i slot live same
    have := (inv.keys fid' pool i slot (old _ _ _ _ live)).2
    dsimp only at same
    omega
  · intro pool j buf n found same
    have := (inv.headers pool j buf n found).1
    dsimp only at same
    omega

theorem ownedLen_opened (st : View β) (opened : Opened st.table table fid) (key off : Nat) :
    ownedLen bsize { st with key := key, table := table } fid off = ownedLen bsize st fid off := by
  unfold ownedLen
  dsimp only
  rw [opened.here]
  cases st.table fid with
  | some file => rfl
  | none =>
    have nothing : ∀ pool off, findSlot (allocEntry pool) off = none := by
      intro pool off
      apply List.find?_eq_none.mpr
      simp [allocEntry]
    dsimp only [Option.getD_none,Option.bind_some,Option.bind_none]
    rw [nothing]
    rfl

end Insertion

section Condition
variable {β : Type} (bsize : BSize)

/-- The windows of an insertion have their buffers in different pools. -/
def distinctPools (fid : Fid) (off size : Nat) : Bool :=
  decide (∀ j < (off + size - 1) / bufferBsize bsize - off / bufferBsize bsize + 1, ∀ i < j,
    poolIdx bsize fid (off + i * bufferBsize bsize) ≠ poolIdx bsize fid (off + j * bufferBsize bsize))

/-- No array of a bucket is freed with other files in it when a full cache drops a file for a new one. -/
def spares (st : State β) (fid : Fid) : Bool :=
  (contents comCacheHash st.cache st.files fid).isSome || st.cache.size < mbcacheMaxEntries ||
    (st.cache.lru.getLast?.map fun old => keepsKey comCacheHash (st.cache.key old) st.cache).getD true

/-- A new key, offsets and lengths that their fields hold, windows that both sizes of a buffer
agree on, and an unaligned start only in the first block of the file when it is known up to
there, or in a block of nobody that is not reached. -/
def safeInsert (st : State β) (fid : Fid) (off size : Nat) : Bool :=
  !st.enable || size = 0 || spares st fid && st.key + 1 < 2 ^ 64 && off + size ≤ 2 ^ 42 && size + bufferBsize bsize ≤ 2 ^ 31 &&
    (bsize = .bsize8K || off % bufferBsize bsize + size ≤ min (bufferBsize bsize) mbcacheBufSize) &&
    distinctPools bsize fid off size &&
    (off % bsize.bytes = 0 ||
      match ownedLen bsize (view st) fid off with
      | some n => off < bsize.bytes && off ≤ n
      | none => size ≤ off % bsize.bytes && off % bsize.bytes + size ≤ bsize.bytes)

/-- Whole blocks, or nothing to find at the first one. -/
def safeGet (st : State β) (fid : Fid) (off size : Nat) : Bool :=
  !st.enable || size = 0 || ownedLen bsize (view st) fid off = none ||
    off % bsize.bytes = 0 && (size % bsize.bytes = 0 || size < bsize.bytes) && size + bufferBsize bsize ≤ 2 ^ 31

def safe (st : State β) : Act β → Bool
  | .insert fid off size _ _ _ => safeInsert bsize st fid off size
  | .get fid off size _ => safeGet bsize st fid off size
  | .remove fid => !st.enable || keepsKey comCacheHash fid st.cache
  | _ => true

end Condition

section Gets
variable {β : Type} {bsize : BSize} {st : View β}

theorem distinct_of_distinctPools (distinct : distinctPools bsize fid off size = true) :
    Distinct bsize fid (off / bufferBsize bsize) ((off + size - 1) / bufferBsize bsize) := by
  intro w v low less high
  have far := of_decide_eq_true distinct (v - off / bufferBsize bsize) (by omega) (w - off / bufferBsize bsize) (by omega)
  have window : ∀ u, off / bufferBsize bsize ≤ u →
      poolIdx bsize fid (off + (u - off / bufferBsize bsize) * bufferBsize bsize) = poolIdx bsize fid (u * bufferBsize bsize) := by
    intro u above
    unfold poolIdx
    rw [Nat.add_mul_div_right _ _ (bufferBsize_pos bsize),window_div]
    congr 3
    omega
  rw [window w low,window v (by omega)] at far
  exact far

theorem Inv.look (inv : Inv bsize st) {looked : List Nat} (small : ∀ i ∈ looked, i < cacheBcount) :
    Inv bsize { st with used := st.used ++ looked } := by
  refine ⟨inv.keys,inv.headers,inv.home,inv.unique,inv.apart,inv.owned,inv.content,inv.gets,fun i member => ?_⟩
  rcases List.mem_append.mp member with before | now
  · exact inv.used i before
  · exact small i now

/-- A slot whose buffer is gone is told so. -/
theorem Inv.invalidate (inv : Inv bsize st) {file : File} (found : st.table fid = some file)
    (known : findSlot (file (curOff / bufferBsize bsize % mbcacheMxPool)) (curOff / bufferBsize bsize * bufferBsize bsize) = some i)
    (gone : st.gcache (poolIdx bsize fid curOff) (file (curOff / bufferBsize bsize % mbcacheMxPool) i).bufIdx = none) :
    Inv bsize { st with
      table := update st.table fid (some (setSlot file (curOff / bufferBsize bsize % mbcacheMxPool) i
        { file (curOff / bufferBsize bsize % mbcacheMxPool) i with bufIdxValid := false })) } := by
  obtain ⟨state,off⟩ := findSlot_some known
  refine inv.rebuffer found state ?_ (fun pool j buf found => .inl found) false _
  intro j buf n at' same
  obtain ⟨-,rfl⟩ := inv.owned fid _ i _ j buf n ⟨file,found,rfl,state⟩ at' same
  rw [off,poolIdx_window,gone] at at'
  cases at'

/-- What a read of whole blocks copies is what was inserted last. -/
theorem read_right (inv : Inv bsize st) {file : File} (found : st.table fid = some file)
    (known : findSlot (file (curOff / bufferBsize bsize % mbcacheMxPool)) (curOff / bufferBsize bsize * bufferBsize bsize) = some i)
    (at' : st.gcache (poolIdx bsize fid curOff) (file (curOff / bufferBsize bsize % mbcacheMxPool) i).bufIdx = some buf)
    (aligned : curOff % bsize.bytes = 0) (whole : len % bsize.bytes = 0 ∨ len < bsize.bytes)
    (read : (cacheRead bsize buf curOff len (file (curOff / bufferBsize bsize % mbcacheMxPool) i).ownerKey).1 = some n) :
    n ≤ len ∧ ∀ x < n, st.inserted fid (curOff + x) = some (buf.payload (curOff % bufferBsize bsize + x)) := by
  obtain ⟨state,off⟩ := findSlot_some known
  have short := fun n => (inv.headers _ _ buf n at').2
  obtain ⟨less,right⟩ := (cacheRead_spec short whole curOff _).2 n read
  refine ⟨less,fun x inside => ?_⟩
  obtain ⟨place,owner,below⟩ := right x inside
  have before := at'
  rw [← poolIdx_window,← off] at before
  have holds := inv.content fid _ i _ _ buf _ ⟨file,found,rfl,state⟩ before owner place (x % bsize.bytes) below
  have first := Nat.div_add_mod' (curOff % bufferBsize bsize) bsize.bytes
  rw [relative_mod,aligned] at first
  have second := Nat.div_add_mod' x bsize.bytes
  have third := Nat.div_add_mod' curOff (bufferBsize bsize)
  rw [off,Nat.add_mul] at holds
  convert holds using 2 <;> [skip; congr 1] <;> omega

theorem getLoop_right_zero (turns curOff total : Nat) (dst : Nat → β) {file : File} {st : View β} (inv : Inv bsize st)
    (found : st.table fid = some file) :
    Inv bsize (st.put fid (getLoop bsize fid turns 0 curOff total dst file st.toData).1
      (getLoop bsize fid turns 0 curOff total dst file st.toData).2.1) ∧
    (getLoop bsize fid turns 0 curOff total dst file st.toData).2.1.inserted = st.inserted ∧
    ∀ n bytes, (getLoop bsize fid turns 0 curOff total dst file st.toData).2.2 = some (n,bytes) →
      (total ≤ n ∧ n ≤ total + 0) ∧ (∀ i < total, bytes i = dst i) ∧
      ∀ i, total ≤ i → i < n → st.inserted fid (curOff + (i - total)) = some (bytes i) := by
  rw [getLoop,View.put_self st found]
  refine ⟨inv,rfl,fun n bytes eq => ?_⟩
  cases eq
  exact ⟨by omega,fun _ _ => rfl,fun i low high => absurd low (Nat.not_le.mpr high)⟩

theorem getLoop_right (turns curLen curOff total : Nat) (dst : Nat → β) (file : File) (st : View β) (inv : Inv bsize st)
    (found : st.table fid = some file) (aligned : curOff % bsize.bytes = 0)
    (whole : curLen % bsize.bytes = 0 ∨ curLen < bsize.bytes) :
    Inv bsize (st.put fid (getLoop bsize fid turns curLen curOff total dst file st.toData).1
      (getLoop bsize fid turns curLen curOff total dst file st.toData).2.1) ∧
    (getLoop bsize fid turns curLen curOff total dst file st.toData).2.1.inserted = st.inserted ∧
    ∀ n bytes, (getLoop bsize fid turns curLen curOff total dst file st.toData).2.2 = some (n,bytes) →
      (total ≤ n ∧ n ≤ total + curLen) ∧ (∀ i < total, bytes i = dst i) ∧
      ∀ i, total ≤ i → i < n → st.inserted fid (curOff + (i - total)) = some (bytes i) := by
  have same : Inv bsize (st.put fid file st.toData) := inv.putSelf found
  induction turns generalizing curLen curOff total dst st with
  | zero =>
    cases curLen with
    | zero => exact getLoop_right_zero _ curOff total dst inv found
    | succ curLen =>
      rw [getLoop]
      exact ⟨same,rfl,fun n bytes eq => by cases eq⟩
  | succ turns ih =>
    cases curLen with
    | zero => exact getLoop_right_zero _ curOff total dst inv found
    | succ curLen =>
      rw [getLoop]
      dsimp only
      cases known : findSlot (file (curOff / bufferBsize bsize % mbcacheMxPool))
          (curOff / bufferBsize bsize * bufferBsize bsize) with
      | none => exact ⟨same,rfl,fun n bytes eq => by cases eq⟩
      | some i =>
        dsimp only
        split
        · exact ⟨same,rfl,fun n bytes eq => by cases eq⟩
        · cases at' : st.gcache (poolIdx bsize fid curOff) (file (curOff / bufferBsize bsize % mbcacheMxPool) i).bufIdx with
          | none => exact ⟨inv.invalidate found known at',rfl,fun n bytes eq => by cases eq⟩
          | some buf =>
            dsimp only
            generalize turn : (if curOff % bufferBsize bsize + (curLen + 1) > mbcacheBufSize then
              mbcacheBufSize - curOff % bufferBsize bsize else curLen + 1) = len
            have skip : curOff % bufferBsize bsize % bsize.bytes = 0 := by rw [relative_mod,aligned]
            have blocks : (len % bsize.bytes = 0 ∨ len < bsize.bytes) ∧ len ≤ curLen + 1 ∧
                ((curLen + 1 - len) % bsize.bytes = 0 ∨ curLen + 1 - len < bsize.bytes) := by
              have full : (mbcacheBufSize - curOff % bufferBsize bsize) % bsize.bytes = 0 :=
                Nat.mod_eq_zero_of_dvd (Nat.dvd_sub (bytes_dvd bsize) (Nat.dvd_of_mod_eq_zero skip))
              rw [← turn]
              split
              · refine ⟨.inl full,by omega,?_⟩
                rcases whole with all | less
                · exact .inl (Nat.mod_eq_zero_of_dvd (Nat.dvd_sub (Nat.dvd_of_mod_eq_zero all) (Nat.dvd_of_mod_eq_zero full)))
                · exact .inr (by omega)
              · exact ⟨whole,Nat.le_refl _,.inl (by rw [Nat.sub_self,Nat.zero_mod])⟩
            have used := (cacheRead_spec (fun n => (inv.headers _ _ buf n at').2) blocks.1 curOff
              (file (curOff / bufferBsize bsize % mbcacheMxPool) i).ownerKey).1
            have right := fun n => @read_right _ _ _ _ _ _ _ len n inv _ found known at' aligned blocks.1
            generalize cacheRead bsize buf curOff len (file (curOff / bufferBsize bsize % mbcacheMxPool) i).ownerKey = result
              at used right
            obtain ⟨read,looked⟩ := result
            have after := inv.look used
            have kept : Inv bsize (st.put fid file { st.toData with used := st.used ++ looked }) := after.putSelf found
            cases read with
            | none => exact ⟨kept,rfl,fun n bytes eq => by cases eq⟩
            | some n =>
              obtain ⟨less,right⟩ := right n rfl
              dsimp only
              -- the bytes of this turn
              have copied : ∀ i, total ≤ i → i < total + n → st.inserted fid (curOff + (i - total)) =
                  some (overlay dst total n (fun i => buf.payload (curOff % bufferBsize bsize + i)) i) := by
                intro i low high
                rw [overlay_inside low high]
                exact right (i - total) (by omega)
              have before : ∀ i < total, overlay dst total n (fun i => buf.payload (curOff % bufferBsize bsize + i)) i = dst i :=
                fun i low => overlay_outside (.inl low)
              split
              · refine ⟨kept,rfl,fun m bytes eq => ?_⟩
                cases eq
                exact ⟨by omega,before,copied⟩
              · rename_i same
                have same : n = len := not_not.mp same
                subst same
                by_cases done : n = curLen + 1
                · subst done
                  rw [Nat.sub_self]
                  have stop : ∀ total' dst' data, getLoop bsize fid turns 0 (curOff + (curLen + 1)) total' dst' file data =
                      ((file,data,some (total',dst')) : File × Data β × Option (Nat × (Nat → β))) := by
                    intro total' dst' data
                    cases turns <;> rw [getLoop]
                  rw [stop]
                  refine ⟨kept,rfl,fun m bytes eq => ?_⟩
                  cases eq
                  exact ⟨by omega,before,copied⟩
                · have next : (curOff + n) % bsize.bytes = 0 := by
                    have multiple : n = mbcacheBufSize - curOff % bufferBsize bsize := by
                      rw [← turn] at done ⊢
                      split at done
                      · rename_i long
                        rw [if_pos long]
                      · exact absurd rfl done
                    apply Nat.mod_eq_zero_of_dvd
                    rw [multiple]
                    exact Nat.dvd_add (Nat.dvd_of_mod_eq_zero aligned)
                      (Nat.dvd_sub (bytes_dvd bsize) (Nat.dvd_of_mod_eq_zero skip))
                  obtain ⟨inv',same,rest⟩ := ih (curLen + 1 - n) (curOff + n) (total + n) _
                    { st with used := st.used ++ looked } after found next blocks.2.2 kept
                  refine ⟨inv',same,fun m bytes eq => ?_⟩
                  obtain ⟨bounds,low,high⟩ := rest m bytes eq
                  refine ⟨by omega,fun i below => (low i (by omega)).trans (before i below),fun i above below => ?_⟩
                  by_cases here : i < total + n
                  · rw [low i here]
                    exact copied i above here
                  · have place : curOff + (i - total) = curOff + n + (i - (total + n)) := by omega
                    rw [place]
                    exact high i (by omega) below

/-- A first block that is not the file's ends the get. -/
theorem getLoop_none (inv : Inv bsize st) {file : File} (found : st.table fid = some file)
    (none : ownedLen bsize st fid off = none) (turns curLen total : Nat) (dst : Nat → β) :
    Inv bsize (st.put fid (getLoop bsize fid (turns + 1) (curLen + 1) off total dst file st.toData).1
      (getLoop bsize fid (turns + 1) (curLen + 1) off total dst file st.toData).2.1) ∧
    (getLoop bsize fid (turns + 1) (curLen + 1) off total dst file st.toData).2.2 = Option.none := by
  have same : Inv bsize (st.put fid file st.toData) := inv.putSelf found
  unfold ownedLen at none
  rw [found] at none
  dsimp only [Option.bind_some] at none
  rw [getLoop]
  dsimp only
  cases known : findSlot (file (off / bufferBsize bsize % mbcacheMxPool)) (off / bufferBsize bsize * bufferBsize bsize) with
  | none => exact ⟨same,rfl⟩
  | some i =>
    rw [known] at none
    dsimp only [Option.bind_some] at none ⊢
    by_cases valid : (file (off / bufferBsize bsize % mbcacheMxPool) i).bufIdxValid = true
    · rw [if_pos valid] at none
      rw [valid,if_neg (by decide)]
      cases at' : st.gcache (poolIdx bsize fid off) (file (off / bufferBsize bsize % mbcacheMxPool) i).bufIdx with
      | none => exact ⟨inv.invalidate found known at',rfl⟩
      | some buf =>
        rw [at'] at none
        dsimp only [Option.bind_some] at none ⊢
        have foreign : (buf.header (off % bufferBsize bsize / bsize.bytes)).ownerKey ≠
            (file (off / bufferBsize bsize % mbcacheMxPool) i).ownerKey := by
          intro own
          rw [if_pos own] at none
          cases none
        generalize (if off % bufferBsize bsize + (curLen + 1) > mbcacheBufSize then
          mbcacheBufSize - off % bufferBsize bsize else curLen + 1) = len
        obtain ⟨nothing,used⟩ := cacheRead_foreign foreign len
        generalize cacheRead bsize buf off len (file (off / bufferBsize bsize % mbcacheMxPool) i).ownerKey = result at nothing used
        obtain ⟨read,looked⟩ := result
        cases nothing
        have kept : Inv bsize (st.put fid file { st.toData with used := st.used ++ looked }) := (inv.look used).putSelf found
        exact ⟨kept,rfl⟩
    · rw [Bool.eq_false_iff.mpr valid,if_pos (by decide)]
      exact ⟨same,rfl⟩

theorem Inv.record (inv : Inv bsize st) {g : Got β} (less : g.len ≤ g.size)
    (right : ∀ i < g.len, g.cached (g.off + i) = some (g.bytes i)) : Inv bsize { st with gets := st.gets ++ [g] } := by
  refine ⟨inv.keys,inv.headers,inv.home,inv.unique,inv.apart,inv.owned,inv.content,fun g' member => ?_,inv.used⟩
  rcases List.mem_append.mp member with before | now
  · exact inv.gets g' before
  · cases List.mem_singleton.mp now
    exact ⟨less,right⟩

/-- A result is noted when its bytes are those that were inserted. -/
theorem Inv.noteGet {data : Data β} {table : Fid → Option File} {read : Option (Nat × (Nat → β))} (inv : Inv bsize ⟨data,table⟩)
    (right : ∀ n bytes, read = some (n,bytes) → n ≤ size ∧ ∀ i < n, data.inserted fid (off + i) = some (bytes i)) :
    Inv bsize ⟨BlockCache.noteGet fid off size read data,table⟩ := by
  cases read with
  | none => exact inv
  | some read =>
    obtain ⟨less,bytes⟩ := right read.1 read.2 rfl
    exact inv.record less bytes

/-- A get of a file that is in the table. -/
theorem get_view (inv : Inv bsize st) (found : st.table fid = some file) (positive : size ≠ 0)
    (allowed : ownedLen bsize st fid off = none ∨
      off % bsize.bytes = 0 ∧ (size % bsize.bytes = 0 ∨ size < bsize.bytes) ∧ size + bufferBsize bsize ≤ 2 ^ 31) (dst : Nat → β) :
    let read := getLoop bsize fid size (intLen size) off 0 dst file st.toData
    Inv bsize (st.put fid read.1 (noteGet fid off size read.2.2 read.2.1)) := by
  dsimp only
  rcases allowed with none | ⟨aligned,whole,int⟩
  · obtain ⟨turns,rfl⟩ := Nat.exists_eq_succ_of_ne_zero positive
    cases len : intLen (turns + 1) with
    | zero =>
      have same : Inv bsize (st.put fid file st.toData) := inv.putSelf found
      rw [getLoop]
      refine same.noteGet fun n bytes eq => ?_
      cases eq
      exact ⟨Nat.zero_le _,fun i inside => absurd inside (Nat.not_lt_zero i)⟩
    | succ curLen =>
      obtain ⟨inv',nothing⟩ := getLoop_none inv found none turns curLen 0 dst
      refine inv'.noteGet fun n bytes eq => ?_
      rw [nothing] at eq
      cases eq
  · have len : intLen size = size := if_pos (by have := bufferBsize_pos bsize; omega)
    rw [len]
    obtain ⟨inv',same,right⟩ := getLoop_right size size off 0 dst file st inv found aligned whole
    refine inv'.noteGet fun n bytes eq => ?_
    obtain ⟨bounds,-,right⟩ := right n bytes eq
    refine ⟨by omega,fun i inside => ?_⟩
    rw [same]
    exact right i (Nat.zero_le i) inside

/-- The slots of a file are dropped. -/
theorem live_dropped {st' : View β} (eq : st'.table = update st.table fid none) (live : Live st' fid' pool i slot) :
    Live st fid' pool i slot ∧ fid' ≠ fid := by
  obtain ⟨file,found,rest⟩ := live
  rw [eq] at found
  by_cases same : fid' = fid
  · subst same
    rw [update_self] at found
    cases found
  · rw [update_of_ne same] at found
    exact ⟨⟨file,found,rest⟩,same⟩

theorem Inv.drop (inv : Inv bsize st) (fid : Fid) {inserted : Fid → Nat → Option β}
    (others : ∀ fid', fid' ≠ fid → inserted fid' = st.inserted fid') :
    Inv bsize { st with table := update st.table fid none, inserted := inserted } := by
  have old : ∀ fid' pool i slot, Live { st with table := update st.table fid none, inserted := inserted } fid' pool i slot →
      Live st fid' pool i slot ∧ fid' ≠ fid := fun _ _ _ _ live => live_dropped rfl live
  refine ⟨?_,inv.headers,?_,?_,?_,?_,?_,inv.gets,inv.used⟩
  · intro fid' pool i slot live
    exact inv.keys fid' pool i slot (old _ _ _ _ live).1
  · intro fid' pool i slot live
    exact inv.home fid' pool i slot (old _ _ _ _ live).1
  · intro fid' pool i j slot other live live'
    exact inv.unique fid' pool i j slot other (old _ _ _ _ live).1 (old _ _ _ _ live').1
  · intro fid' pool i slot fid'' pool' j other live live'
    exact inv.apart fid' pool i slot fid'' pool' j other (old _ _ _ _ live).1 (old _ _ _ _ live').1
  · intro fid' pool i slot j buf n live
    exact inv.owned fid' pool i slot j buf n (old _ _ _ _ live).1
  · intro fid' pool i slot j buf n live at' same inside x below
    obtain ⟨live,other⟩ := old _ _ _ _ live
    dsimp only
    rw [others fid' other]
    exact inv.content fid' pool i slot j buf n live at' same inside x below

/-- Without buffers no block is left. -/
theorem Inv.flush (inv : Inv bsize st) (enable : Bool) :
    Inv bsize { st with enable := enable, gcache := fun _ _ => none, inserted := fun _ _ => none } where
  keys := inv.keys
  headers _ _ _ _ found := by cases found
  home := inv.home
  unique := inv.unique
  apart := inv.apart
  owned _ _ _ _ _ _ _ _ found := by cases found
  content _ _ _ _ _ _ _ _ found := by cases found
  gets := inv.gets
  used := inv.used

end Gets

/-- The cache of files is a map, whose view has the invariant. -/
def Good {β : Type} (bsize : BSize) (st : State β) : Prop := (∃ live, Held comCacheHash st.cache live) ∧ Inv bsize (view st)

section Steps
variable {β : Type} {bsize : BSize} {st : State β}

/-- The entry of a file is found, or is a new one. -/
theorem openEntry_spec (spare : spares st fid = true) (held : Held comCacheHash st.cache live) (new : entry ∉ st.cache.lru) :
    ∃ e cache files live', openEntry fid entry st = some (some e,{ st with cache := cache, files := files }) ∧
      Held comCacheHash cache live' ∧ (fid,e) ∈ live' ∧ Opened (view st).table (contents comCacheHash cache files) fid := by
  rw [openEntry]
  rcases held.search_cases fid with ⟨e,cache,member,search,held'⟩ | ⟨absent,search⟩
  · rw [search]
    refine ⟨e,cache,st.files,live,rfl,held',member,?_,fun other _ => .inl ?_⟩
    · have before : (view st).table fid = some (st.files e) := held.contents_of_mem member st.files
      rw [held'.contents_of_mem member,before,Option.getD_some]
    · rw [held.contents_congr held']
      rfl
  · have missing : (view st).table fid = none := held.contents_absent absent st.files
    have unused : ∀ p ∈ live, p.2 ≠ entry := fun p member same => new ((held.lru entry).mpr ⟨p,member,same⟩)
    have kept : keepsArrays comCacheHash mbcacheMaxEntries ⟨st.cache,live⟩ (.insert fid entry true) = true := by
      unfold spares at spare
      rwa [show contents comCacheHash st.cache st.files fid = none from missing] at spare
    obtain ⟨released,cache,insert,held'⟩ := held.insertNew (fun p member => ⟨absent p member,unused p member⟩) (by decide) kept
    obtain ⟨here,others⟩ := held.contents_insert unused held' st.files allocEntry
    simp only [search,insert]
    refine ⟨entry,cache,update st.files entry allocEntry,_,rfl,held',List.mem_cons_self,?_,others⟩
    rw [here,missing,Option.getD_none]

/-- The loop over the slots of a file changes the view there. -/
theorem view_put (held : Held comCacheHash cache live) (member : (fid,entry) ∈ live) (data : Data β) (files : Nat → File)
    (file : File) (data' : Data β) : view ⟨data',cache,update files entry file⟩ =
      View.put ⟨data,contents comCacheHash cache files⟩ fid file data' := by
  rw [view,held.contents_update member,View.put]

theorem insert_good (good : Good bsize st) (allowed : safeInsert bsize st fid off size = true) (new : entry ∉ st.cache.lru)
    (src memory : Nat → β) : ∃ st', mbcacheInsert bsize fid off size src memory entry st = some st' ∧ Good bsize st' := by
  obtain ⟨⟨live,held⟩,inv⟩ := good
  unfold mbcacheInsert
  by_cases skipped : (!st.enable || size = 0) = true
  · rw [if_pos skipped]
    exact ⟨st,rfl,⟨live,held⟩,inv⟩
  · rw [if_neg skipped]
    unfold safeInsert at allowed
    rw [Bool.or_eq_true] at allowed
    have allowed := allowed.resolve_left skipped
    simp only [Bool.and_eq_true,Bool.or_eq_true,decide_eq_true_eq] at allowed
    obtain ⟨⟨⟨⟨⟨⟨spare,fresh⟩,inside⟩,int⟩,sizes⟩,distinct⟩,begins⟩ := allowed
    have key : allocKeyBuf st.key = st.key + 1 := by
      unfold allocKeyBuf
      rw [Nat.mod_eq_of_lt fresh,if_neg (Nat.succ_ne_zero _)]
    have len : intLen size = size := if_pos (by have := bufferBsize_pos bsize; omega)
    dsimp only
    rw [key,len]
    have spare : spares { st with key := st.key + 1 } fid = true := spare
    obtain ⟨e,cache,files,live',eq,held',member,opened⟩ := openEntry_spec spare held new
    have opened : Opened (view st).table (contents comCacheHash cache files) fid := opened
    simp only [eq]
    have here : contents comCacheHash cache files fid = some (files e) := held'.contents_of_mem member files
    obtain ⟨file,data,loop,after⟩ := insertLoop_inv memory size size off src (files e) _ (inv.opened opened (off / bufferBsize bsize))
      (Nat.succ_pos _) (Nat.le_refl _) (distinct_of_distinctPools distinct) inside here sizes (by
        unfold Begins
        rw [ownedLen_opened (view st) opened]
        rcases begins with aligned | begins
        · exact .inl aligned
        · right
          cases owner : ownedLen bsize (view st) fid off with
          | none =>
            rw [owner] at begins
            simpa using begins
          | some n =>
            rw [owner] at begins
            simpa using begins) (Nat.le_refl _)
    have loop : insertLoop bsize fid (st.key + 1) memory size size off src (files e) { st.toData with key := st.key + 1 } =
        some (file,data) := loop
    refine ⟨⟨data,cache,update files e file⟩,by rw [loop,Option.map_some],⟨live',held'⟩,?_⟩
    rw [view_put held' member]
    exact after

theorem get_good (good : Good bsize st) (allowed : safeGet bsize st fid off size = true) (dst : Nat → β) :
    ∃ st', mbcacheGet bsize fid off size dst st = some st' ∧ Good bsize st' := by
  obtain ⟨⟨live,held⟩,inv⟩ := good
  unfold mbcacheGet
  by_cases skipped : (!st.enable || size = 0) = true
  · rw [if_pos skipped]
    exact ⟨st,rfl,⟨live,held⟩,inv⟩
  · rw [if_neg skipped]
    unfold safeGet at allowed
    rw [Bool.or_eq_true,Bool.or_eq_true] at allowed
    simp only [Bool.and_eq_true,Bool.or_eq_true,decide_eq_true_eq] at allowed skipped
    rcases held.search_cases fid with ⟨e,cache,member,search,held'⟩ | ⟨absent,search⟩
    · rw [search]
      refine ⟨_,rfl,⟨live,held'⟩,?_⟩
      rw [view_put held' member st.toData,held.contents_congr held']
      refine get_view inv (held.contents_of_mem member st.files) (fun zero => skipped (.inr zero)) ?_ dst
      rcases allowed with (skip | none) | ⟨⟨aligned,whole⟩,int⟩
      · exact absurd skip skipped
      · exact .inl none
      · exact .inr ⟨aligned,whole,int⟩
    · rw [search]
      exact ⟨st,rfl,⟨live,held⟩,inv⟩

theorem remove_good (good : Good bsize st) (allowed : (!st.enable || keepsKey comCacheHash fid st.cache) = true) :
    ∃ st', mbcacheRemove fid st = some st' ∧ Good bsize st' := by
  obtain ⟨⟨live,held⟩,inv⟩ := good
  unfold mbcacheRemove
  split
  · rename_i enabled
    rw [enabled,Bool.not_true,Bool.false_or] at allowed
    obtain ⟨done,cache,eq,held',gone⟩ := held.remove_contents allowed st.files
    rw [eq]
    refine ⟨_,rfl,⟨_,held'⟩,?_⟩
    rw [view,gone]
    exact inv.drop fid fun fid' other => update_of_ne other _ _
  · exact ⟨st,rfl,⟨live,held⟩,inv⟩

theorem step_good (good : Good bsize st) (a : Act β) (allowed : safe bsize st a = true) (new : fresh st a = true) :
    ∃ st', step bsize a st = some st' ∧ Good bsize st' := by
  unfold step
  rw [if_pos new]
  cases a with
  | insert fid off size src memory entry => exact insert_good good allowed (of_decide_eq_true new) src memory
  | get fid off size dst => exact get_good good allowed dst
  | remove fid => exact remove_good good allowed
  | flush => exact ⟨_,rfl,good.1,good.2.flush st.enable⟩
  | set enable =>
    refine ⟨_,rfl,?_⟩
    unfold mbcacheSet
    split
    · exact good
    · exact ⟨good.1,good.2.flush enable⟩

theorem fresh_of_step {a : Act β} (next : step bsize a st = some st') : fresh st a = true := by
  unfold step at next
  split at next
  · rename_i new
    exact new
  · cases next

theorem init_held (enable : Bool) : Held comCacheHash (cacheInit enable : State β).cache [] := RootCache.held_initial _

theorem init_empty (enable : Bool) : ¬ Live (view (cacheInit enable : State β)) fid pool i slot := by
  rintro ⟨file,found,-⟩
  have held : Held comCacheHash (cacheInit enable : State β).cache [] := init_held enable
  have none : (view (cacheInit enable : State β)).table fid = none := held.contents_absent (fun p member => by cases member) _
  rw [none] at found
  cases found

theorem init_inv (bsize : BSize) (enable : Bool) : Inv bsize (view (cacheInit enable : State β)) where
  keys _ _ _ _ live := absurd live (init_empty enable)
  headers _ _ _ _ found := by cases found
  home _ _ _ _ live := absurd live (init_empty enable)
  unique _ _ _ _ _ _ live := absurd live (init_empty enable)
  apart _ _ _ _ _ _ _ _ live := absurd live (init_empty enable)
  owned _ _ _ _ _ _ _ live := absurd live (init_empty enable)
  content _ _ _ _ _ _ _ live := absurd live (init_empty enable)
  gets _ member := by cases member
  used _ member := by cases member

/-- In every run of safe requests the bytes that a get returns are those inserted last, and the
headers used are inside the buffers. -/
theorem gets_inserted (bsize : BSize) (enable : Bool)
    (run : Machine.Run (step bsize) (fun st a => safe bsize st a = true) (cacheInit enable) st) :
    (∀ g ∈ st.gets, g.len ≤ g.size ∧ ∀ i < g.len, g.cached (g.off + i) = some (g.bytes i)) ∧
    (∀ i ∈ st.used, i < cacheBcount) ∧ ∀ a, safe bsize st a = true → fresh st a = true → ∃ st', step bsize a st = some st' := by
  have good : Good bsize st := by
    refine run.invariant _ ⟨⟨[],init_held enable⟩,init_inv bsize enable⟩ fun st a st' good allowed next => ?_
    obtain ⟨st'',eq,good'⟩ := step_good good a allowed (fresh_of_step next)
    rw [next] at eq
    cases eq
    exact good'
  refine ⟨good.2.gets,good.2.used,fun a allowed new => ?_⟩
  obtain ⟨st',eq,-⟩ := step_good good a allowed new
  exact ⟨st',eq⟩

/-- A file of the examples. -/
def someFile : Fid := Vector.replicate 16 0

/-- Another file, in the same bucket of the cache of files. -/
def otherFile : Fid := Vector.ofFn fun i => if i = 15 then 64 else 0

/-- Two windows are inserted, a byte is written over, and a get crosses the windows; then the file
is removed, and the other one stays. -/
theorem gets_inserted_windows : ∃ st : State Nat,
    (st.gets.map fun g => (g.len,g.bytes 0,g.bytes 5,g.bytes 8192)) = [(16384,7,7,7),(8192,7,8,0),(8192,9,9,0)] ∧
    ∀ g ∈ st.gets, g.len ≤ g.size ∧ ∀ i < g.len, g.cached (g.off + i) = some (g.bytes i) := by
  have done : (Machine.exec (step .bsize8K) (fun st a => safe .bsize8K st a = true)
      [.insert someFile 253952 16384 (fun _ => 7) (fun _ => 0) 1,.get someFile 253952 16384 fun _ => 0,
        .insert otherFile 0 8192 (fun _ => 9) (fun _ => 0) 2,.insert someFile 0 8192 (fun _ => 7) (fun _ => 0) 3,
        .insert someFile 5 1 (fun _ => 8) (fun _ => 0) 4,.get someFile 0 16384 fun _ => 0,
        .remove someFile,.get someFile 0 8192 fun _ => 0,.get otherFile 0 8192 fun _ => 0] (cacheInit true)).map
      (fun st => st.gets.map fun g => (g.len,g.bytes 0,g.bytes 5,g.bytes 8192)) =
      some [(16384,7,7,7),(8192,7,8,0),(8192,9,9,0)] := by decide +kernel
  obtain ⟨st,done,seen⟩ := Option.map_eq_some_iff.mp done
  exact ⟨st,seen,(gets_inserted .bsize8K true (Machine.Run.refl.exec done)).1⟩

/-- A length that is not a multiple of a block adds its rest without a look at the block. -/
theorem rest_unchecked : ∃ st : State Nat, Machine.Run (step .bsize8K) (fun _ _ => True) (cacheInit true) st ∧
    ∃ g ∈ st.gets, ¬ ∀ i < g.len, g.cached (g.off + i) = some (g.bytes i) := by
  have done : (Machine.exec (step .bsize8K) (fun _ _ => True)
      [.insert someFile 0 8192 (fun _ => 7) (fun _ => 0) 1,.get someFile 0 8193 fun _ => 0] (cacheInit true)).map
      (fun st => st.gets.map fun g => (g.off,g.len,(g.cached 8192).isNone)) = some [(0,8193,true)] := by decide +kernel
  obtain ⟨st,done,seen⟩ := Option.map_eq_some_iff.mp done
  obtain ⟨g,rest,eq,first,-⟩ := List.map_eq_cons_iff.mp seen
  simp only [Prod.mk.injEq] at first
  refine ⟨st,Machine.Run.refl.exec done,g,by simp [eq],fun right => ?_⟩
  have wrong := right 8192 (by omega)
  rw [first.1,Nat.zero_add] at wrong
  simp [wrong] at first

end Steps

end Rozofs.CacheContents
