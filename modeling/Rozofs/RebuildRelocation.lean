import Rozofs.ChunkTable

/-! A rebuild that relocates a chunk: the relocation, the writes on the device that is chosen, and the stop
of the rebuild, which restores the chunk or removes the old data file. -/
namespace Rozofs.Storage
open Function (update)

section Model
variable {β : Type} [Zero β]

/-- A write of a rebuild in its chunk, with the device that is chosen when the chunk has none. -/
inductive RebuildWrite (β : Type) where
  | write (device bid : Nat) (bins : List (Projection β))
  | writeEmpty (device bid nbProj : Nat)

def RebuildWrite.device : RebuildWrite β → Nat
  | .write device _ _ => device
  | .writeEmpty device _ _ => device

/-- What a write puts in the data file. -/
def RebuildWrite.edit (cfg : Config β) : RebuildWrite β → SparseFile (Projection β) → Except Errno (SparseFile (Projection β))
  | .write _ bid bins, file =>
    if cfg.vect ∧ 2 * maxBlockPerMsg < bins.length then .error .espipe
    else .ok (file.pwrite bid (genCrc32 cfg cfg.vect bid bins))
  | .writeEmpty _ bid nbProj, file =>
    if file.size ≤ bid then .ok (file.ftruncate (bid + nbProj))
    else if 2 * maxBlockPerMsg < nbProj then .error .espipe
    else .ok (file.pwrite bid (List.replicate nbProj 0))

/-- `storio_disk_write` and `storio_disk_write_empty` in one chunk. -/
def RebuildWrite.perform (cfg : Config β) (recycle : BitVec 2) (chunk : Nat) (st : State β) : RebuildWrite β → State β
  | .write device bid bins => (writeChunk cfg recycle chunk device bid bins st).2
  | .writeEmpty device bid nbProj => (writeChunkEmpty cfg recycle chunk device bid nbProj st).2

/-- `sp_rebuild_stop_1_svc_disk_thread` for a chunk that was relocated, with `storio_disk_rebuild_stop`. -/
def rebuildStop (cfg : Config β) (recycle : BitVec 2) (chunk : Nat) (oldDevice : Dev) (success : Bool) (st : State β) : State β :=
  -- nothing to do on the same device
  if oldDevice = getDev st.ctx chunk then st
  else if st.ctx.recycleCpt ≠ recycle then st
  else if success then rmDataChunk oldDevice chunk st
  else restoreChunk cfg recycle chunk oldDevice st

/-- The writes of a rebuild with relocation, as `storio_disk_rebuild_start` does the first one, and its stop. -/
def relocatingRebuild (cfg : Config β) (recycle : BitVec 2) (chunk : Nat) (writes : List (RebuildWrite β)) (success : Bool)
    (st : State β) : State β :=
  match relocateChunk cfg recycle chunk st with
  | (none,st) => st
  | (some oldDevice,st) => rebuildStop cfg recycle chunk oldDevice success (writes.foldl (RebuildWrite.perform cfg recycle chunk) st)

end Model

section Tables
variable {hdr hdr' hdr'' : Header} {chunk n m i d : Nat} {oldDevice : Dev}

/-- Tables with a device at their ends are the same when they have the same devices. -/
theorem Header.Good.ext (good : hdr.Good) (good' : hdr'.Good)
    (devices : ∀ i d, hdr.getChunk i = .device d ↔ hdr'.getChunk i = .device d) (i : Nat) : hdr.getChunk i = hdr'.getChunk i := by
  obtain ⟨n,loose,ended⟩ := good
  obtain ⟨m,loose',ended'⟩ := good'
  have size : n = m := by
    apply Nat.le_antisymm
    · rcases ended with none | ⟨d,last⟩
      · omega
      · have low := loose'.shaped.lt_iff.mpr (show hdr'.getChunk (n - 1) ≠ .eof by rw [(devices _ _).mp last]; exact Dev.noConfusion)
        omega
    · rcases ended' with none | ⟨d,last⟩
      · omega
      · have low := loose.shaped.lt_iff.mpr (show hdr.getChunk (m - 1) ≠ .eof by rw [(devices _ _).mpr last]; exact Dev.noConfusion)
        omega
  subst size
  by_cases low : i < n
  · rcases loose.shaped.device_or_empty low with empty | ⟨d,device⟩
    · rcases loose'.shaped.device_or_empty low with empty' | ⟨d,device⟩
      · rw [empty,empty']
      · rw [device,(devices i d).mpr device]
    · rw [device,(devices i d).mp device]
  · rw [loose.shaped.beyond i (Nat.le_of_not_lt low),loose'.shaped.beyond i (Nat.le_of_not_lt low)]

theorem setChunk_device (hdr : Header) (low : chunk < maxChunkPerFile) (dev : Dev) (i d : Nat) :
    (hdr.setChunk chunk dev).getChunk i = .device d ↔ if i = chunk then dev = .device d else hdr.getChunk i = .device d := by
  by_cases eof : dev = .eof
  · rw [eof,getChunk_setChunk_eof]
    split
    · rfl
    · rfl
  · rw [getChunk_setChunk hdr low eof]
    split
    · rfl
    · split
      · rename_i before
        simp [before.2]
      · rfl

/-- The entries that are trimmed are no devices. -/
theorem trimEmpty_device (chunk : Nat) (hdr : Header) (i d : Nat) : (trimEmpty chunk hdr).getChunk i = .device d ↔ hdr.getChunk i = .device d := by
  induction chunk generalizing hdr with
  | zero => rfl
  | succ chunk ih =>
    rw [trimEmpty]
    split
    · rfl
    · rename_i empty
      rw [ih,getChunk_setChunk_eof]
      split
      · rename_i same
        have none : hdr.getChunk i = .empty := same ▸ Decidable.not_not.mp empty
        simp [none]
      · rfl

/-- A relocation takes the device of its chunk out of the table. -/
theorem relocated_device (low : chunk < maxChunkPerFile) (hdr : Header) (i d : Nat) :
    (relocated chunk hdr).getChunk i = .device d ↔ i ≠ chunk ∧ hdr.getChunk i = .device d := by
  have cut : ∀ dev, dev ≠ .device d → ((hdr.setChunk chunk dev).getChunk i = .device d ↔ i ≠ chunk ∧ hdr.getChunk i = .device d) := by
    intro dev other
    rw [setChunk_device hdr low]
    split
    · rename_i same
      simp [same,other]
    · rename_i differ
      simp [differ]
  rw [relocated]
  split
  · exact cut _ Dev.noConfusion
  · split
    · rw [trimEmpty_device]
      exact cut _ Dev.noConfusion
    · exact cut _ Dev.noConfusion

/-- A restoration puts the old device of its chunk into the table. -/
theorem restored_device (low : chunk < maxChunkPerFile) (oldDevice : Dev) (hdr : Header) (i d : Nat) :
    (restored chunk oldDevice hdr).getChunk i = .device d ↔ if i = chunk then oldDevice = .device d else hdr.getChunk i = .device d := by
  have renumber : ∀ (hdr : Header) nbChunks, Header.getChunk { hdr with nbChunks := nbChunks } i = hdr.getChunk i := fun _ _ => rfl
  have trim : ∀ hdr : Header, ((if hdr.getChunk chunk = .eof then trimEmpty chunk hdr else hdr).getChunk i = .device d ↔ hdr.getChunk i = .device d) := by
    intro hdr
    split
    · exact trimEmpty_device ..
    · rfl
  have again : ∀ dev dev' : Dev, dev ≠ .device d → dev' ≠ .device d →
      (((hdr.setChunk chunk dev).setChunk chunk dev').getChunk i = .device d ↔ if i = chunk then dev = .device d else hdr.getChunk i = .device d) := by
    intro dev dev' other other'
    rw [setChunk_device _ low,setChunk_device _ low]
    split
    · simp [other,other']
    · rfl
  rw [restored]
  rw [renumber,trim]
  split
  · rename_i eof
    rw [eof.1]
    exact again _ _ Dev.noConfusion Dev.noConfusion
  · split
    · rename_i empty
      rw [empty.1]
      exact again _ _ Dev.noConfusion Dev.noConfusion
    · exact setChunk_device hdr low ..

/-- A table that a rebuild of a chunk can restore: its last entry is a device, or comes after the next chunk. -/
def Restorable (chunk : Nat) (hdr : Header) : Prop := ∃ n, hdr.Loose n ∧ (Ended hdr.getChunk n ∨ chunk + 1 < n)

/-- A table during a rebuild of a chunk, and the table before it. -/
structure Beside (chunk : Nat) (hdr hdr' : Header) : Prop where
  devices : ∀ i d, i ≠ chunk → (hdr'.getChunk i = .device d ↔ hdr.getChunk i = .device d)
  inside : ∀ n, hdr.Loose n → chunk + 1 < n → hdr'.Loose n ∧ ∀ i ≠ chunk, hdr'.getChunk i = hdr.getChunk i
  outside : hdr.Good → ∃ m, hdr'.Loose m ∧ (Ended hdr'.getChunk m ∨ m ≤ chunk + 1)

theorem Beside.loose (beside : Beside chunk hdr hdr') (restorable : Restorable chunk hdr) : ∃ m, hdr'.Loose m := by
  obtain ⟨n,loose,ended | inside⟩ := restorable
  · obtain ⟨m,loose',_⟩ := beside.outside ⟨n,loose,ended⟩
    exact ⟨m,loose'⟩
  · exact ⟨n,(beside.inside n loose inside).1⟩

/-- A table that is written and read again. -/
theorem Beside.reread (beside : Beside chunk hdr hdr') (restorable : Restorable chunk hdr) : ∃ hdr'', headerRead (headerWrite hdr') = some hdr'' ∧
    hdr''.recycle = hdr'.recycle ∧ (∀ i, hdr''.getChunk i = hdr'.getChunk i) ∧ Beside chunk hdr hdr'' := by
  obtain ⟨m,loose⟩ := beside.loose restorable
  obtain ⟨hdr'',read,number,recycle,same⟩ := loose.reread
  have still : ∀ m, hdr'.Loose m → hdr''.Loose m :=
    fun m loose => ⟨loose.shaped.congr same,number ▸ loose.fits,number ▸ loose.rounded⟩
  refine ⟨hdr'',read,recycle,same,?_,?_,?_⟩
  · intro i d other
    rw [same]
    exact beside.devices i d other
  · intro n loose inner
    obtain ⟨loose',table⟩ := beside.inside n loose inner
    refine ⟨still n loose',fun i other => ?_⟩
    rw [same]
    exact table i other
  · intro good
    obtain ⟨m,loose',ended⟩ := beside.outside good
    refine ⟨m,still m loose',?_⟩
    rw [Ended,same]
    exact ended

/-- A chunk inside the file gets an entry. -/
theorem inside_setChunk (loose : hdr.Loose n) (inside : chunk + 1 < n) (some : oldDevice ≠ .eof) (known : oldDevice ≠ .unknown) :
    (hdr.setChunk chunk oldDevice).Loose n ∧ ∀ i ≠ chunk, (hdr.setChunk chunk oldDevice).getChunk i = hdr.getChunk i := by
  have small := loose.shaped.small
  have low : chunk < maxChunkPerFile := by omega
  have after := loose.setChunk low some known
  rw [Nat.max_eq_left (by omega)] at after
  refine ⟨after,?_⟩
  intro i other
  rw [getChunk_setChunk hdr low some,if_neg other,if_neg]
  rintro ⟨before,eof⟩
  exact loose.shaped.inside i (by omega) eof

theorem relocated_beside (low : chunk < maxChunkPerFile) (hdr : Header) : Beside chunk hdr (relocated chunk hdr) := by
  constructor
  case devices =>
    intro i d other
    rw [relocated_device low]
    exact and_iff_right other
  case inside =>
    intro n loose inner
    have small := loose.shaped.small
    have next := loose.shaped.inside (chunk + 1) inner
    rw [relocated,if_neg (by omega),if_neg next]
    exact inside_setChunk loose inner Dev.noConfusion Dev.noConfusion
  case outside =>
    intro good
    by_cases fair : chunk = maxChunkPerFile - 1 ∧ hdr.getChunk (chunk - 1) = .empty
    · obtain ⟨n,loose,_⟩ := good
      have bound : n ≤ chunk + 1 := by
        have small := loose.shaped.small
        omega
      rw [relocated,if_pos fair.1]
      rcases Nat.lt_or_eq_of_le bound with beyond | last
      · exact ⟨n,(setChunk_eof_beyond loose (by omega)).1,.inr bound⟩
      · subst last
        exact ⟨chunk,loose.dropLast,.inr (Nat.le_succ _)⟩
    · obtain ⟨m,loose,ended⟩ := relocated_good good chunk fair
      exact ⟨m,loose,.inl ended⟩

theorem Beside.refl (good : hdr.Good) (chunk : Nat) : Beside chunk hdr hdr := by
  refine ⟨fun _ _ _ => Iff.rfl,fun n loose _ => ⟨loose,fun _ _ => rfl⟩,fun _ => ?_⟩
  obtain ⟨n,loose,ended⟩ := good
  exact ⟨n,loose,.inl ended⟩

/-- The chunk gets a device. -/
theorem Beside.setDevice (beside : Beside chunk hdr hdr') (low : chunk < maxChunkPerFile) (d : Nat) :
    Beside chunk hdr (hdr'.setChunk chunk (.device d)) := by
  constructor
  case devices =>
    intro i d' other
    rw [setChunk_device hdr' low,if_neg other]
    exact beside.devices i d' other
  case inside =>
    intro n loose inner
    obtain ⟨loose',same⟩ := beside.inside n loose inner
    have some : Dev.device d ≠ .eof := Dev.noConfusion
    have known : Dev.device d ≠ .unknown := Dev.noConfusion
    obtain ⟨after,table⟩ := inside_setChunk loose' inner some known
    exact ⟨after,fun i other => (table i other).trans (same i other)⟩
  case outside =>
    intro good
    obtain ⟨m,loose,ended⟩ := beside.outside good
    obtain ⟨m',loose',ended'⟩ := loose.setDevice low ended d
    exact ⟨m',loose',.inl ended'⟩

/-- The old device of a chunk, as a relocation gives it: EMPTY for a file that does not exist. -/
def Old (chunk : Nat) (hdr : Header) (oldDevice : Dev) : Prop := oldDevice = hdr.getChunk chunk ∨ oldDevice = .empty ∧ hdr.Loose 0

theorem Old.device (old : Old chunk hdr oldDevice) (d : Nat) : oldDevice = .device d ↔ hdr.getChunk chunk = .device d := by
  rcases old with rfl | ⟨rfl,none⟩
  · rfl
  · rw [none.shaped.beyond chunk (Nat.zero_le _)]
    exact ⟨Dev.noConfusion,Dev.noConfusion⟩

theorem Old.known (old : Old chunk hdr oldDevice) (restorable : Restorable chunk hdr) : oldDevice ≠ .unknown := by
  rcases old with rfl | ⟨rfl,_⟩
  · obtain ⟨n,loose,_⟩ := restorable
    exact loose.shaped.known chunk
  · exact Dev.noConfusion

/-- A table whose chunk has a device has a device at its end. -/
theorem good_of_written (loose : hdr.Loose m) (ended : Ended hdr.getChunk m ∨ m ≤ chunk + 1) (written : hdr.getChunk chunk = .device d) : hdr.Good := by
  rcases ended with ended | bound
  · exact ⟨m,loose,ended⟩
  · have low := loose.shaped.lt_iff.mpr (show hdr.getChunk chunk ≠ .eof by rw [written]; exact Dev.noConfusion)
    have last : m - 1 = chunk := by omega
    exact ⟨m,loose,.inr ⟨d,last ▸ written⟩⟩

theorem restored_written (loose : hdr.Loose m) (ended : Ended hdr.getChunk m ∨ m ≤ chunk + 1) (low : chunk < maxChunkPerFile)
    (known : oldDevice ≠ .unknown) (written : (∃ d, hdr.getChunk chunk = .device d) ∨ ∃ d, oldDevice = .device d) :
    (restored chunk oldDevice hdr).Good := by
  rcases written with ⟨d,device⟩ | ⟨d,rfl⟩
  · exact restored_good (good_of_written loose ended device) chunk known
  · have here : (hdr.setChunk chunk (.device d)).getChunk chunk = .device d := by
      rw [setChunk_device hdr low,if_pos rfl]
    rw [restored]
    apply Header.Good.renumber
    simp only [reduceCtorEq,false_and,if_false,here]
    exact loose.setDevice low ended d

/-- The chunk has its old device again: the table is the one before the rebuild. -/
theorem Beside.restored (beside : Beside chunk hdr hdr') (restorable : Restorable chunk hdr) (low : chunk < maxChunkPerFile)
    (old : Old chunk hdr oldDevice) (written : (∃ d, hdr'.getChunk chunk = .device d) ∨ ∃ d, oldDevice = .device d) (i : Nat) :
    (restored chunk oldDevice hdr').getChunk i = hdr.getChunk i := by
  have known := old.known restorable
  obtain ⟨n,loose,ended | inside⟩ := restorable
  · have good : hdr.Good := ⟨n,loose,ended⟩
    obtain ⟨m,loose',ended'⟩ := beside.outside good
    apply (restored_written loose' ended' low known written).ext good
    intro i d
    rw [restored_device low]
    split
    · rename_i same
      rw [same]
      exact old.device d
    · rename_i other
      exact beside.devices i d other
  · obtain ⟨loose',same⟩ := beside.inside n loose inside
    have own : oldDevice = hdr.getChunk chunk := by
      rcases old with own | ⟨_,none⟩
      · exact own
      · have zero := none.shaped.unique loose.shaped
        omega
    have some : oldDevice ≠ .eof := by
      rw [own]
      exact loose.shaped.inside chunk (by omega)
    obtain ⟨_,table⟩ := inside_setChunk loose' inside some known
    have here : (hdr'.setChunk chunk oldDevice).getChunk chunk = oldDevice := by
      rw [getChunk_setChunk hdr' low some,if_pos rfl]
    have notLast : ¬(chunk = maxChunkPerFile - 1 ∨ (hdr'.setChunk chunk oldDevice).getChunk (chunk + 1) = .eof) := by
      have small := loose.shaped.small
      rintro (top | next)
      · omega
      · rw [table _ (Nat.succ_ne_self chunk),same _ (Nat.succ_ne_self chunk)] at next
        exact loose.shaped.inside _ inside next
    have kept : ∀ i, (Storage.restored chunk oldDevice hdr').getChunk i = (hdr'.setChunk chunk oldDevice).getChunk i := by
      intro i
      simp only [Storage.restored,some,notLast,here,false_and,and_false,if_false]
      rfl
    rw [kept]
    by_cases other : i = chunk
    · rw [other,here,own]
    · rw [table i other,same i other]

/-- A chunk that had no device is relocated: the table is the same. -/
theorem relocated_same (restorable : Restorable chunk hdr) (low : chunk < maxChunkPerFile) (none : ∀ d, hdr.getChunk chunk ≠ .device d) (i : Nat) :
    (relocated chunk hdr).getChunk i = hdr.getChunk i := by
  obtain ⟨n,loose,ended | inside⟩ := restorable
  · by_cases fair : chunk = maxChunkPerFile - 1 ∧ hdr.getChunk (chunk - 1) = .empty
    · rw [relocated,if_pos fair.1]
      apply (setChunk_eof_beyond loose _).2
      by_contra beyond
      have small := loose.shaped.small
      have last : n - 1 = chunk := by omega
      rcases ended with zero | ⟨d,device⟩
      · omega
      · exact none d (last ▸ device)
    · apply (relocated_good ⟨n,loose,ended⟩ chunk fair).ext ⟨n,loose,ended⟩
      intro i d
      rw [relocated_device low]
      constructor
      · exact And.right
      · intro device
        exact ⟨fun same => none d (same ▸ device),device⟩
  · have small := loose.shaped.small
    have next := loose.shaped.inside (chunk + 1) inside
    have unmapped : ¬∃ d, hdr.getChunk chunk = .device d := not_exists.mpr none
    have empty := (loose.shaped.device_or_empty (i := chunk) (by omega)).resolve_right unmapped
    rw [relocated,if_neg (by omega),if_neg next]
    by_cases here : i = chunk
    · rw [here,getChunk_setChunk hdr low Dev.noConfusion,if_pos rfl,empty]
    · exact (inside_setChunk loose inside Dev.noConfusion Dev.noConfusion).2 i here

/-- A rebuild that came back to the old device: the table is the one before. -/
theorem Beside.same (beside : Beside chunk hdr hdr') (restorable : Restorable chunk hdr) (written : hdr'.getChunk chunk = .device d)
    (before : hdr.getChunk chunk = .device d) (i : Nat) : hdr'.getChunk i = hdr.getChunk i := by
  obtain ⟨n,loose,ended | inside⟩ := restorable
  · obtain ⟨m,loose',ended'⟩ := beside.outside ⟨n,loose,ended⟩
    apply (good_of_written loose' ended' written).ext ⟨n,loose,ended⟩
    intro i d'
    by_cases here : i = chunk
    · rw [here,written,before]
    · exact beside.devices i d' here
  · by_cases here : i = chunk
    · rw [here,written,before]
    · exact (beside.inside n loose inside).2 i here

theorem restored_loose (same : ∀ i, (restored chunk oldDevice hdr').getChunk i = hdr.getChunk i) (loose : hdr.Loose n) :
    (restored chunk oldDevice hdr').Loose n := by
  have shaped := loose.shaped.congr same
  have number : (restored chunk oldDevice hdr').nbChunks = roundupChunkNumber (firstEof (restored chunk oldDevice hdr').getChunk) := rfl
  obtain ⟨fits,rounded⟩ := roundup_spec shaped.small
  rw [shaped.firstEof] at number
  exact ⟨shaped,number ▸ fits,number ▸ rounded⟩

theorem recycle_trimEmpty (chunk : Nat) (hdr : Header) : (trimEmpty chunk hdr).recycle = hdr.recycle := by
  induction chunk generalizing hdr with
  | zero => rfl
  | succ chunk ih =>
    rw [trimEmpty]
    split
    · rfl
    · rw [ih,recycle_setChunk]

theorem recycle_relocated (chunk : Nat) (hdr : Header) : (relocated chunk hdr).recycle = hdr.recycle := by
  rw [relocated]
  split
  · exact recycle_setChunk ..
  · split
    · rw [recycle_trimEmpty,recycle_setChunk]
    · exact recycle_setChunk ..

end Tables

section Rebuilds
variable {β : Type} [Zero β] {cfg : Config β} {recycle : BitVec 2} {chunk n d : Nat} {hdr hdr' : Header} {oldDevice : Dev}
  {st base : State β} {file : SparseFile (Projection β)}

/-- The table of the header file; a file without it has only EOF entries. -/
def diskTable (st : State β) (i : Nat) : Dev :=
  match st.header with
  | none => .eof
  | some file => ((headerRead file).map fun hdr => hdr.getChunk i).getD .unknown

/-- A data file after a write. -/
def applied (edit : SparseFile (Projection β) → Except Errno (SparseFile (Projection β))) (file : SparseFile (Projection β)) :
    SparseFile (Projection β) :=
  match edit file with
  | .ok file => file
  | .error _ => file

/-- The state after a relocation. -/
structure Moved (recycle : BitVec 2) (chunk : Nat) (hdr : Header) (base : State β) (oldDevice : Dev) (st : State β) : Prop where
  header : (st.header = some (headerWrite (relocated chunk hdr)) ∧ hdr.recycle = recycle ∧
      (∀ i, getDev st.ctx i = (relocated chunk hdr).getChunk i) ∧ oldDevice = hdr.getChunk chunk) ∨
    st.header = none ∧ hdr = .init recycle ∧ st.ctx.devices = .unknown ∧ oldDevice = .empty
  owner : st.ctx.recycleCpt = recycle
  data : st.data = base.data

/-- The state after writes on a new device. -/
structure Rewritten (recycle : BitVec 2) (chunk : Nat) (hdr : Header) (base : State β) (new : Nat) (file : SparseFile (Projection β))
    (st : State β) : Prop where
  header : ∃ header hdr', st.header = some header ∧ headerRead header = some hdr' ∧ hdr'.recycle = recycle ∧ Beside chunk hdr hdr' ∧
    hdr'.getChunk chunk = .device new
  ctx : getDev st.ctx chunk = .device new
  owner : st.ctx.recycleCpt = recycle
  data : st.data = update base.data new (update (base.data new) chunk (some file))

theorem perform_eq (write : RebuildWrite β) (st : State β) : write.perform cfg recycle chunk st =
    (writeChunkWith cfg recycle chunk write.device (write.edit cfg) st).2 := by
  cases write <;> rfl

/-- A write in the data file that the context tells. -/
theorem writeChunkWith_known {device : Nat} {edit : SparseFile (Projection β) → Except Errno (SparseFile (Projection β))}
    (known : getDev st.ctx chunk = .device d) (there : st.data d chunk = some file) :
    (writeChunkWith cfg recycle chunk device edit st).2 = setData d chunk (some (applied edit file)) st := by
  unfold writeChunkWith applied
  simp only [known,there]
  cases edit file with
  | ok file => rfl
  | error e => rfl

/-- A write that allocates a device. -/
theorem writeChunkWith_allocate {device : Nat} {edit : SparseFile (Projection β) → Except Errno (SparseFile (Projection β))}
    (unknown : ∀ d, getDev st.ctx chunk ≠ .device d) (none : ∀ d, hdr.getChunk chunk ≠ .device d)
    (read : readHeaderFile cfg recycle true st = (.ok hdr,st) ∨ readHeaderFile cfg recycle true st = (.notFound,st) ∧ hdr = .init recycle) :
    (writeChunkWith cfg recycle chunk device edit st).2 =
      storeCtx (hdr.setChunk chunk (.device device)) (setData device chunk (some (applied edit (openFile device chunk st)))
        (writeAllHeaderFiles (hdr.setChunk chunk (.device device)) st)) := by
  have mapped : devMapDistributionWrite cfg recycle chunk device st =
      (some (device,some (hdr.setChunk chunk (.device device))),writeAllHeaderFiles (hdr.setChunk chunk (.device device)) st) := by
    unfold devMapDistributionWrite
    rcases read with ok | ⟨notFound,init⟩
    · simp only [ok]
    · simp only [notFound,init]
  have opened : openFile device chunk (writeAllHeaderFiles (hdr.setChunk chunk (.device device)) st) = openFile device chunk st := rfl
  unfold writeChunkWith
  split
  · rename_i device
    exact absurd device (unknown _)
  · simp only [mapped,opened,applied]
    cases edit (openFile device chunk st) with
    | ok file => rfl
    | error e => rfl

/-- The first write takes the device that is chosen. -/
theorem Moved.write (moved : Moved recycle chunk hdr base oldDevice st) (restorable : Restorable chunk hdr) (low : chunk < maxChunkPerFile)
    (write : RebuildWrite β) : Rewritten recycle chunk hdr base write.device
      (applied (write.edit cfg) (openFile write.device chunk base)) (write.perform cfg recycle chunk st) := by
  -- the header that the write finds
  have found : ∃ hdr', (readHeaderFile cfg recycle true st = (.ok hdr',st) ∨ readHeaderFile cfg recycle true st = (.notFound,st) ∧ hdr' = .init recycle) ∧
      hdr'.recycle = recycle ∧ Beside chunk hdr hdr' ∧ (∀ d, hdr'.getChunk chunk ≠ .device d) ∧ ∀ d, getDev st.ctx chunk ≠ .device d := by
    rcases moved.header with ⟨header,own,ctx,_⟩ | ⟨header,init,unknown,_⟩
    · have beside := relocated_beside low hdr
      obtain ⟨hdr',read,recycle',same,beside'⟩ := beside.reread restorable
      have none : ∀ d, (relocated chunk hdr).getChunk chunk ≠ .device d := fun d device => ((relocated_device low hdr chunk d).mp device).1 rfl
      have own' : hdr'.recycle = recycle := by rw [recycle',recycle_relocated,own]
      refine ⟨hdr',.inl ?_,own',beside',fun d => same chunk ▸ none d,fun d => ctx chunk ▸ none d⟩
      simp only [readHeaderFile,header,read,own',if_true]
    · refine ⟨.init recycle,.inr ⟨by simp only [readHeaderFile,header],rfl⟩,rfl,?_,?_,?_⟩
      · rw [init]
        exact Beside.refl ⟨0,init_loose recycle,.inl rfl⟩ chunk
      · intro d
        rw [(init_loose recycle).shaped.beyond chunk (Nat.zero_le _)]
        exact Dev.noConfusion
      · intro d
        rw [getDev,unknown]
        exact Dev.noConfusion
  obtain ⟨hdr',read,own,beside,none,unknown⟩ := found
  rw [perform_eq,writeChunkWith_allocate unknown none read]
  have written := beside.setDevice low write.device
  obtain ⟨m,loose⟩ := written.loose restorable
  obtain ⟨hdr'',reread,recycle',same,beside''⟩ := written.reread restorable
  have here : (hdr'.setChunk chunk (.device write.device)).getChunk chunk = .device write.device := by
    rw [setChunk_device hdr' low,if_pos rfl]
  have opened : openFile write.device chunk st = openFile write.device chunk base := by rw [openFile,openFile,moved.data]
  refine ⟨⟨_,hdr'',rfl,reread,?_,beside'',(same chunk).trans here⟩,(loose.getDev_store st.ctx chunk).trans here,moved.owner,?_⟩
  · rw [recycle',recycle_setChunk,own]
  · rw [opened,← moved.data]
    rfl

/-- A later write goes to the same data file. -/
theorem Rewritten.write (rewritten : Rewritten recycle chunk hdr base d file st) (write : RebuildWrite β) :
    Rewritten recycle chunk hdr base d (applied (write.edit cfg) file) (write.perform cfg recycle chunk st) := by
  have there : st.data d chunk = some file := by
    rw [rewritten.data,Function.update_self,Function.update_self]
  rw [perform_eq,writeChunkWith_known rewritten.ctx there]
  refine ⟨rewritten.header,rewritten.ctx,rewritten.owner,?_⟩
  rw [setData,rewritten.data,Function.update_self,Function.update_idem,Function.update_idem]

/-- What the writes of a rebuild put in a data file. -/
def rebuiltFile (cfg : Config β) (writes : List (RebuildWrite β)) (file : SparseFile (Projection β)) : SparseFile (Projection β) :=
  writes.foldl (fun file write => applied (write.edit cfg) file) file

theorem Rewritten.writes (writes : List (RebuildWrite β)) {file : SparseFile (Projection β)} {st : State β}
    (rewritten : Rewritten recycle chunk hdr base d file st) :
    Rewritten recycle chunk hdr base d (rebuiltFile cfg writes file) (writes.foldl (RebuildWrite.perform cfg recycle chunk) st) := by
  induction writes generalizing file st with
  | nil => exact rewritten
  | cons write rest ih => exact ih (rewritten.write write)

theorem Moved.writes (moved : Moved recycle chunk hdr base oldDevice st) (restorable : Restorable chunk hdr) (low : chunk < maxChunkPerFile)
    (first : RebuildWrite β) (rest : List (RebuildWrite β)) :
    Rewritten recycle chunk hdr base first.device (rebuiltFile cfg (first :: rest) (openFile first.device chunk base))
      ((first :: rest).foldl (RebuildWrite.perform cfg recycle chunk) st) :=
  (moved.write restorable low first).writes rest

/-- The table on disk once a restored header is written. -/
theorem diskTable_restored (same : ∀ i, (restored chunk oldDevice hdr').getChunk i = hdr.getChunk i) (restorable : Restorable chunk hdr)
    (header : st.header = some (headerWrite (restored chunk oldDevice hdr'))) (i : Nat) : diskTable st i = hdr.getChunk i := by
  obtain ⟨n,loose,_⟩ := restorable
  obtain ⟨hdr'',read,_,_,table⟩ := (restored_loose same loose).reread
  rw [diskTable,header]
  simp only [read,Option.map_some,Option.getD_some]
  rw [table,same]

theorem rmDataChunk_header (dev : Dev) (st : State β) : (rmDataChunk dev chunk st).header = st.header ∧ (rmDataChunk dev chunk st).ctx = st.ctx := by
  cases dev <;> exact ⟨rfl,rfl⟩

/-- The data files after a chunk is removed on a device. -/
theorem rmDataChunk_data (dev : Dev) (st : State β) (d c : Nat) :
    (rmDataChunk dev chunk st).data d c = if c = chunk ∧ dev = .device d then none else st.data d c := by
  cases dev with
  | device d' =>
    rw [rmDataChunk,setData]
    dsimp only
    by_cases same : d = d'
    · subst same
      rw [Function.update_self]
      by_cases here : c = chunk
      · rw [here,Function.update_self,if_pos ⟨rfl,rfl⟩]
      · rw [Function.update_of_ne here,if_neg fun both => here both.1]
    · rw [Function.update_of_ne same,if_neg]
      rintro ⟨_,eq⟩
      cases eq
      exact same rfl
  | eof => simp [rmDataChunk]
  | empty => simp [rmDataChunk]
  | unknown => simp [rmDataChunk]

theorem Rewritten.data_eq (rewritten : Rewritten recycle chunk hdr base d file st) (d' c : Nat) :
    st.data d' c = if c = chunk ∧ d' = d then some file else base.data d' c := by
  rw [rewritten.data]
  by_cases same : d' = d
  · subst same
    rw [Function.update_self]
    by_cases here : c = chunk
    · rw [here,Function.update_self,if_pos ⟨rfl,rfl⟩]
    · rw [Function.update_of_ne here,if_neg fun both => here both.1]
  · rw [Function.update_of_ne same,if_neg fun both => same both.2]

theorem Rewritten.table (rewritten : Rewritten recycle chunk hdr base d file st) (cfg : Config β) : ∃ hdr', (∀ i, diskTable st i = hdr'.getChunk i) ∧
    hdr'.getChunk chunk = .device d ∧ Beside chunk hdr hdr' ∧ readHeaderFile cfg recycle false st = (.ok hdr',st) := by
  obtain ⟨header,hdr',disk,read,own,beside,written⟩ := rewritten.header
  refine ⟨hdr',fun i => ?_,written,beside,?_⟩
  · rw [diskTable,disk]
    simp only [read,Option.map_some,Option.getD_some]
  · simp only [readHeaderFile,disk,read,own,if_true]

theorem Moved.old (moved : Moved recycle chunk hdr base oldDevice st) : Old chunk hdr oldDevice := by
  rcases moved.header with ⟨_,_,_,old⟩ | ⟨_,init,_,empty⟩
  · exact .inl old
  · exact .inr ⟨empty,init ▸ init_loose recycle⟩

/-- The header that a relocation finds; a file without one gets a new header. -/
def ReadHdrResult.header (recycle : BitVec 2) : ReadHdrResult → Option Header
  | .ok hdr => some hdr
  | .notFound => some (.init recycle)
  | _ => none

/-- The header that is found has the recycle counter of the file. -/
theorem readHeaderFile_ok (read : readHeaderFile cfg recycle true st = (.ok hdr,base)) : hdr.recycle = recycle ∧ base.ctx = st.ctx := by
  unfold readHeaderFile at read
  split at read
  · cases read
  · split at read
    · cases read
    · split at read
      · rename_i same
        cases read
        exact ⟨same,rfl⟩
      · rename_i found _ _
        rw [if_pos rfl] at read
        cases read
        obtain ⟨own,ctx⟩ := recycle_recycleChunks { found with recycle := recycle } (recycleFirst cfg (found.getChunk 0) st)
          (List.range' 1 (found.nbChunks - 1))
        exact ⟨own,ctx.trans (recycleFirst_ctx ..)⟩

/-- A relocation keeps the data files. -/
theorem relocate_moved (low : chunk < maxChunkPerFile) (owner : st.ctx.recycleCpt = recycle)
    (read : (readHeaderFile cfg recycle true st).1.header recycle = some hdr) (restorable : Restorable chunk hdr) :
    ∃ oldDevice st', relocateChunk cfg recycle chunk st = (some oldDevice,st') ∧
      Moved recycle chunk hdr (readHeaderFile cfg recycle true st).2 oldDevice st' := by
  unfold relocateChunk
  cases found : readHeaderFile cfg recycle true st with
  | mk result base =>
    rw [found] at read
    cases result with
    | errors => cases read
    | otherRecyclingCounter => cases read
    | notFound =>
      cases read
      have none : st.header = none ∧ base = st := by
        unfold readHeaderFile at found
        split at found
        · rename_i none
          cases found
          exact ⟨none,rfl⟩
        · split at found
          · cases found
          · split at found
            · cases found
            · rw [if_pos rfl] at found
              cases found
      obtain ⟨none,rfl⟩ := none
      exact ⟨_,_,rfl,.inr ⟨none,rfl,rfl,rfl⟩,owner,rfl⟩
    | ok hdr' =>
      cases read
      obtain ⟨own,ctx⟩ := readHeaderFile_ok found
      obtain ⟨m,loose⟩ := (relocated_beside low hdr).loose restorable
      refine ⟨_,_,rfl,.inl ⟨rfl,own,loose.getDev_store base.ctx,rfl⟩,?_,rfl⟩
      have kept : (writeAllHeaderFiles (relocated chunk hdr) (storeCtx (relocated chunk hdr) base)).ctx.recycleCpt = base.ctx.recycleCpt := rfl
      rw [kept,ctx,owner]

/-- A rebuild that failed: the table is the one before, and the data file of the first device is removed,
unless it is the old one. -/
structure Undone (cfg : Config β) (chunk : Nat) (hdr : Header) (base : State β) (writes : List (RebuildWrite β)) (st : State β) : Prop where
  table : ∀ i, diskTable st i = hdr.getChunk i
  data : ∀ d c, st.data d c =
    if c = chunk ∧ writes.head?.map RebuildWrite.device = some d then
      if hdr.getChunk chunk = .device d then some (rebuiltFile cfg writes (openFile d chunk base)) else none
    else base.data d c

/-- A rebuild that succeeded: the chunk is on the device of the first write, with what the writes put there, and
an old data file on another device is removed. -/
structure Done (cfg : Config β) (chunk : Nat) (hdr : Header) (base : State β) (writes : List (RebuildWrite β)) (device : Nat) (st : State β) : Prop where
  moved : diskTable st chunk = .device device
  others : ∀ i ≠ chunk, ∀ d, diskTable st i = .device d ↔ hdr.getChunk i = .device d
  data : ∀ d c, st.data d c =
    if c = chunk then
      if d = device then some (rebuiltFile cfg writes (openFile device chunk base))
      else if hdr.getChunk chunk = .device d then none
      else base.data d c
    else base.data d c

/-- A rebuild that fails before its first write. -/
theorem Moved.undone (moved : Moved recycle chunk hdr base oldDevice st) (restorable : Restorable chunk hdr) (low : chunk < maxChunkPerFile) :
    Undone cfg chunk hdr base [] (rebuildStop cfg recycle chunk oldDevice false st) := by
  have owner := moved.owner
  have data : ∀ st' : State β, st'.data = st.data → ∀ d c, st'.data d c =
      if c = chunk ∧ ([] : List (RebuildWrite β)).head?.map RebuildWrite.device = some d then
        if hdr.getChunk chunk = .device d then some (rebuiltFile cfg [] (openFile d chunk base)) else none
      else base.data d c := by
    intro st' same d c
    rw [same,moved.data,if_neg]
    rintro ⟨_,head⟩
    cases head
  unfold rebuildStop
  rcases moved.header with ⟨header,own,ctx,old⟩ | ⟨header,init,unknown,empty⟩
  · have beside := relocated_beside low hdr
    obtain ⟨hdr',read,recycle',same,beside'⟩ := beside.reread restorable
    have table : ∀ i, diskTable st i = (relocated chunk hdr).getChunk i := by
      intro i
      rw [diskTable,header]
      simp only [read,Option.map_some,Option.getD_some]
      exact same i
    have gone : ∀ d, (relocated chunk hdr).getChunk chunk ≠ .device d := fun d device => ((relocated_device low hdr chunk d).mp device).1 rfl
    rw [ctx]
    split
    · rename_i stays
      have none : ∀ d, hdr.getChunk chunk ≠ .device d := fun d device => gone d (stays.symm.trans (old.trans device))
      exact ⟨fun i => (table i).trans (relocated_same restorable low none i),data st rfl⟩
    · rename_i moves
      have device : ∃ d, oldDevice = .device d := by
        by_contra none
        have none' : ∀ d, hdr.getChunk chunk ≠ .device d := fun d device => none ⟨d,old.trans device⟩
        exact moves (old.trans (relocated_same restorable low none' chunk).symm)
      have own' : hdr'.recycle = recycle := by rw [recycle',recycle_relocated,own]
      have found : readHeaderFile cfg recycle false st = (.ok hdr',st) := by simp only [readHeaderFile,header,read,own',if_true]
      rw [if_neg (not_not_intro owner),if_neg Bool.false_ne_true]
      unfold restoreChunk
      rw [found]
      dsimp only
      constructor
      · exact diskTable_restored (beside'.restored restorable low moved.old (.inr device)) restorable rfl
      · apply data
        funext d c
        have kept : ∀ (hdr : Header) (st : State β), (writeAllHeaderFiles hdr (storeCtx hdr st)).data = st.data := fun _ _ => rfl
        rw [kept,rmDataChunk_data,if_neg]
        rintro ⟨_,at_⟩
        exact gone d (same chunk ▸ at_)
  · rw [if_neg,if_neg (not_not_intro owner),if_neg Bool.false_ne_true]
    · have found : readHeaderFile cfg recycle false st = (.notFound,st) := by simp only [readHeaderFile,header]
      unfold restoreChunk
      rw [found]
      dsimp only
      refine ⟨fun i => ?_,data _ rfl⟩
      rw [diskTable,init,(init_loose recycle).shaped.beyond i (Nat.zero_le _)]
      dsimp only
      rw [header]
    · rw [empty,getDev,unknown]
      exact Dev.noConfusion

/-- A rebuild that fails after writes. -/
theorem Rewritten.undone {writes : List (RebuildWrite β)} (rewritten : Rewritten recycle chunk hdr base d (rebuiltFile cfg writes (openFile d chunk base)) st)
    (head : writes.head?.map RebuildWrite.device = some d) (old : Old chunk hdr oldDevice) (restorable : Restorable chunk hdr)
    (low : chunk < maxChunkPerFile) : Undone cfg chunk hdr base writes (rebuildStop cfg recycle chunk oldDevice false st) := by
  obtain ⟨hdr',table,written,beside,found⟩ := rewritten.table cfg
  unfold rebuildStop
  rw [rewritten.ctx]
  split
  · rename_i same
    have before := (old.device d).mp same
    refine ⟨fun i => (table i).trans (beside.same restorable written before i),?_⟩
    intro d' c
    rw [rewritten.data_eq,head]
    by_cases here : c = chunk ∧ d' = d
    · obtain ⟨rfl,rfl⟩ := here
      rw [if_pos ⟨rfl,rfl⟩,if_pos ⟨rfl,rfl⟩,if_pos before]
    · rw [if_neg here,if_neg]
      rintro ⟨rfl,eq⟩
      cases eq
      exact here ⟨rfl,rfl⟩
  · rename_i differ
    rw [if_neg (not_not_intro rewritten.owner),if_neg Bool.false_ne_true]
    unfold restoreChunk
    rw [found]
    dsimp only
    constructor
    · exact diskTable_restored (beside.restored restorable low old (.inl ⟨d,written⟩)) restorable rfl
    · intro d' c
      have kept : ∀ (hdr : Header) (st : State β), (writeAllHeaderFiles hdr (storeCtx hdr st)).data = st.data := fun _ _ => rfl
      rw [kept,rmDataChunk_data,rewritten.data_eq,written,head]
      by_cases here : c = chunk ∧ d' = d
      · obtain ⟨rfl,rfl⟩ := here
        rw [if_pos ⟨rfl,rfl⟩,if_pos ⟨rfl,rfl⟩,if_neg fun device => differ ((old.device _).mpr device)]
      · have other : ¬(c = chunk ∧ Dev.device d = .device d') := by
          rintro ⟨rfl,eq⟩
          cases eq
          exact here ⟨rfl,rfl⟩
        have other' : ¬(c = chunk ∧ some d = some d') := by
          rintro ⟨rfl,eq⟩
          cases eq
          exact here ⟨rfl,rfl⟩
        rw [if_neg other,if_neg here,if_neg other']

theorem Rewritten.done {writes : List (RebuildWrite β)} (rewritten : Rewritten recycle chunk hdr base d (rebuiltFile cfg writes (openFile d chunk base)) st)
    (old : Old chunk hdr oldDevice) : Done cfg chunk hdr base writes d (rebuildStop cfg recycle chunk oldDevice true st) := by
  obtain ⟨hdr',table,written,beside,_⟩ := rewritten.table cfg
  have others : ∀ i ≠ chunk, ∀ d, diskTable st i = .device d ↔ hdr.getChunk i = .device d := by
    intro i other d'
    rw [table]
    exact beside.devices i d' other
  unfold rebuildStop
  rw [rewritten.ctx]
  split
  · rename_i same
    refine ⟨(table chunk).trans written,others,?_⟩
    intro d' c
    rw [rewritten.data_eq]
    by_cases here : c = chunk
    · subst here
      by_cases own : d' = d
      · subst own
        simp
      · have none : hdr.getChunk c ≠ .device d' := by
          rw [(old.device d).mp same]
          rintro ⟨⟩
          exact own rfl
        simp [own,none]
    · simp [here]
  · rename_i differ
    rw [if_neg (not_not_intro rewritten.owner),if_pos rfl]
    have kept : (rmDataChunk oldDevice chunk st).header = st.header := (rmDataChunk_header oldDevice st).1
    have sameTable : ∀ i, diskTable (rmDataChunk oldDevice chunk st) i = diskTable st i := by
      intro i
      rw [diskTable,diskTable,kept]
    refine ⟨(sameTable chunk).trans ((table chunk).trans written),fun i other d => by rw [sameTable]; exact others i other d,?_⟩
    intro d' c
    rw [rmDataChunk_data,rewritten.data_eq]
    by_cases here : c = chunk
    · subst here
      by_cases own : d' = d
      · subst own
        simp [differ]
      · simp [own,old.device]
    · simp [here]

end Rebuilds

/-- A file with a block on device 5, and a rebuild that writes this block. -/
def stored : State Nat := (storageWrite plain 0 (fun _ => 5) 0 [⟨1,0,0,0,0,7,1⟩] absent).2

def rewrite (device : Nat) : RebuildWrite Nat := .write device 0 [⟨2,0,0,0,0,9,2⟩]

def blockAt (device : Nat) (st : State Nat) : Option Nat := (st.data device 0).map fun file => (file.get 0).bins

end Rozofs.Storage
