import Rozofs.ChunkTable

/-! A stored file behaves as one array of blocks, for requests of one recycle counter: writes,
truncates and reads of any blocks, whatever the chunks and devices they are kept in. -/
namespace Rozofs.Storage
open Function (update)

section Layout
variable {β : Type} [Zero β] {st st' : State β} {table : Nat → Dev} {files : Nat → SparseFile (Projection β)}

/-- The header file and the context have the table of a file of `n` chunks, or there is no file,
and the data files are those of the chunks that have a device. -/
structure Laid (recycle : BitVec 2) (st : State β) (table : Nat → Dev) (n : Nat) (files : Nat → SparseFile (Projection β)) : Prop where
  disk : n = 0 ∧ st.header = none ∨ 0 < n ∧ ∃ file hdr, st.header = some file ∧ headerRead file = some hdr ∧
    hdr.recycle = recycle ∧ hdr.Loose n ∧ ∀ i, hdr.getChunk i = table i
  shaped : Shaped table n
  ended : Ended table n
  counter : st.ctx.recycleCpt = recycle
  ctx : st.ctx.devices = .unknown ∨ 0 < n ∧ ∀ i, getDev st.ctx i = table i
  data : ∀ d c, table c = .device d → st.data d c = some (files c)
  vacant : ∀ d c, table c ≠ .device d → st.data d c = none
  rest : ∀ c, (∀ d, table c ≠ .device d) → files c = .empty

theorem laid_absent (recycle : BitVec 2) :
    Laid recycle (⟨none,fun _ _ => none,⟨recycle,.unknown⟩⟩ : State β) (fun _ => .eof) 0 fun _ => .empty where
  disk := .inl ⟨rfl,rfl⟩
  shaped := ⟨Nat.zero_le _,fun i low => absurd low (Nat.not_lt_zero i),fun _ _ => rfl,fun _ => Dev.noConfusion⟩
  ended := .inl rfl
  counter := rfl
  ctx := .inl rfl
  data := fun _ _ entry => Dev.noConfusion entry
  vacant := fun _ _ _ => rfl
  rest := fun _ _ => rfl

theorem Laid.forget (laid : Laid recycle st table n files) : Laid recycle { st with ctx := ⟨recycle,.unknown⟩ } table n files :=
  { laid with counter := rfl, ctx := .inl rfl }

/-- What the header file gives. -/
theorem Laid.readHeader (laid : Laid recycle st table n files) (cfg : Config β) (update : Bool) :
    n = 0 ∧ readHeaderFile cfg recycle update st = (.notFound,st) ∨
    0 < n ∧ ∃ hdr, hdr.Loose n ∧ (∀ i, hdr.getChunk i = table i) ∧ hdr.recycle = recycle ∧
      readHeaderFile cfg recycle update st = (.ok hdr,st) := by
  rcases laid.disk with ⟨none,header⟩ | ⟨some,file,hdr,header,read,counter,loose,same⟩
  · exact .inl ⟨none,by rw [readHeaderFile,header]⟩
  · exact .inr ⟨some,hdr,loose,same,counter,by simp only [readHeaderFile,header,read,if_pos counter]⟩

/-- The context after the table is stored there. -/
theorem Laid.store (laid : Laid recycle st table n files) {hdr : Header} (loose : hdr.Loose n) (same : ∀ i, hdr.getChunk i = table i)
    (some : 0 < n) : Laid recycle (storeCtx hdr st) table n files ∧ ∀ i, getDev (storeCtx hdr st).ctx i = table i := by
  have get : ∀ i, getDev (storeCtx hdr st).ctx i = table i := fun i => (loose.getDev_store st.ctx i).trans (same i)
  exact ⟨{ laid with ctx := .inr ⟨some,get⟩ },get⟩

/-- The table after a chunk got a device. -/
def placed (table : Nat → Dev) (chunk d : Nat) (i : Nat) : Dev :=
  if i = chunk then .device d else if i < chunk ∧ table i = .eof then .empty else table i

theorem placed_self (shaped : Shaped table n) (entry : table chunk = .device d) (i : Nat) : placed table chunk d i = table i := by
  have low : chunk < n := shaped.lt_iff.mpr (by rw [entry]; exact Dev.noConfusion)
  rw [placed]
  split
  · rename_i same
    rw [same,entry]
  · split
    · rename_i before
      exact absurd before.2 (shaped.inside i (by omega))
    · rfl

theorem placed_device (away : i ≠ chunk) : placed table chunk d i = .device e ↔ table i = .device e := by
  rw [placed,if_neg away]
  split
  · rename_i before
    rw [before.2]
    exact ⟨Dev.noConfusion,Dev.noConfusion⟩
  · rfl

/-- The data file of a chunk is written, on the device that it has or gets. -/
theorem Laid.place (laid : Laid recycle st table n files) (fresh : table chunk = .device d ∨ ∀ e, table chunk ≠ .device e)
    (data : st'.data = update st.data d (update (st.data d) chunk (some file')))
    (disk : ∃ file hdr, st'.header = some file ∧ headerRead file = some hdr ∧ hdr.recycle = recycle ∧
      hdr.Loose (max n (chunk + 1)) ∧ ∀ i, hdr.getChunk i = placed table chunk d i)
    (counter : st'.ctx.recycleCpt = recycle) (ctx : st'.ctx.devices = .unknown ∨ ∀ i, getDev st'.ctx i = placed table chunk d i) :
    Laid recycle st' (placed table chunk d) (max n (chunk + 1)) (update files chunk file') := by
  have some : 0 < max n (chunk + 1) := by omega
  have here : placed table chunk d chunk = .device d := if_pos rfl
  have cell : ∀ e c, ¬ (e = d ∧ c = chunk) → st'.data e c = st.data e c := by
    intro e c away
    rw [data]
    by_cases same : e = d
    · subst same
      have other : c ≠ chunk := fun eq => away ⟨rfl,eq⟩
      simp [other]
    · simp [same]
  refine ⟨.inr ⟨some,disk⟩,?_,?_,counter,ctx.imp_right fun same => ⟨some,same⟩,?_,?_,?_⟩
  · obtain ⟨_,hdr,-,-,-,loose,same⟩ := disk
    exact loose.shaped.congr fun i => (same i).symm
  · refine .inr ?_
    by_cases last : n ≤ chunk + 1
    · exact ⟨d,by rw [Nat.max_eq_right last]; exact here⟩
    · rcases laid.ended with none | ⟨e,device⟩
      · omega
      · exact ⟨e,by rw [Nat.max_eq_left (by omega)]; exact (placed_device (by omega)).mpr device⟩
  · intro e c entry
    by_cases same : c = chunk
    · subst same
      cases here.symm.trans entry
      simp [data]
    · rw [cell e c fun both => same both.2,Function.update_of_ne same]
      exact laid.data e c ((placed_device same).mp entry)
  · intro e c entry
    by_cases same : c = chunk
    · subst same
      have other : e ≠ d := fun eq => entry (eq ▸ here)
      rw [cell e c fun both => other both.1]
      refine laid.vacant e c fun device => ?_
      rcases fresh with own | free
      · cases own.symm.trans device
        exact other rfl
      · exact free e device
    · rw [cell e c fun both => same both.2]
      exact laid.vacant e c fun device => entry ((placed_device same).mpr device)
  · intro c free
    have away : c ≠ chunk := by
      rintro rfl
      exact free d here
    rw [Function.update_of_ne away]
    exact laid.rest c fun e device => free e ((placed_device away).mpr device)

/-- The data file of a chunk that has a device is written. -/
theorem Laid.overwrite (laid : Laid recycle st table n files) (entry : table chunk = .device d) (file' : SparseFile (Projection β)) :
    Laid recycle (setData d chunk (some file') st) table (max n (chunk + 1)) (update files chunk file') := by
  have low : chunk < n := laid.shaped.lt_iff.mpr (by rw [entry]; exact Dev.noConfusion)
  have same := placed_self laid.shaped entry
  have eq : placed table chunk d = table := funext same
  rw [← eq]
  refine laid.place (.inl entry) rfl ?_ laid.counter ?_
  · rcases laid.disk with ⟨none,_⟩ | ⟨_,file,hdr,header,read,counter,loose,get⟩
    · omega
    · rw [Nat.max_eq_left (by omega)]
      exact ⟨file,hdr,header,read,counter,loose,fun i => (get i).trans (same i).symm⟩
  · exact laid.ctx.imp_right fun known i => (known.2 i).trans (same i).symm

/-- A chunk gets a device, and its data file is written there. -/
theorem Laid.allocate (laid : Laid recycle st table n files) (free : ∀ e, table chunk ≠ .device e) {hdr : Header} (loose : hdr.Loose n)
    (get : ∀ i, hdr.getChunk i = table i) (counter : hdr.recycle = recycle) (low : chunk < maxChunkPerFile) (device : Nat)
    (file' : SparseFile (Projection β)) :
    Laid recycle (storeCtx (hdr.setChunk chunk (.device device))
      (setData device chunk (some file') (writeAllHeaderFiles (hdr.setChunk chunk (.device device)) st)))
      (placed table chunk device) (max n (chunk + 1)) (update files chunk file') := by
  have loose' : (hdr.setChunk chunk (.device device)).Loose (max n (chunk + 1)) :=
    loose.setChunk low Dev.noConfusion Dev.noConfusion
  have table' : ∀ i, (hdr.setChunk chunk (.device device)).getChunk i = placed table chunk device i := by
    intro i
    rw [getChunk_setChunk hdr low Dev.noConfusion,get,placed]
  refine laid.place (.inr free) rfl ?_ laid.counter (.inr fun i => (loose'.getDev_store _ i).trans (table' i))
  obtain ⟨hdr',read,number,same,again⟩ := loose'.reread
  refine ⟨_,hdr',rfl,read,same.trans ((recycle_setChunk _ _ _).trans counter),?_,fun i => (again i).trans (table' i)⟩
  exact ⟨loose'.shaped.congr again,number ▸ loose'.fits,number ▸ loose'.rounded⟩

theorem Laid.openFile (laid : Laid recycle st table n files) (entry : table chunk = .device d ∨ ∀ e, table chunk ≠ .device e) :
    openFile d chunk st = files chunk := by
  rw [Storage.openFile]
  rcases entry with own | free
  · rw [laid.data d chunk own]
    rfl
  · rw [laid.vacant d chunk (free d),laid.rest chunk free]
    rfl

theorem Dev.device_or_not (dev : Dev) : (∃ d, dev = .device d) ∨ ∀ e, dev ≠ .device e := by
  cases dev with
  | device d => exact .inl ⟨d,rfl⟩
  | _ => exact .inr fun _ => Dev.noConfusion

/-- A chunk is written, with what the edit makes of its data file. -/
theorem Laid.writeChunkWith (laid : Laid recycle st table n files) (cfg : Config β) (low : chunk < maxChunkPerFile) (device : Nat)
    {edit : SparseFile (Projection β) → Except Errno (SparseFile (Projection β))} (done : edit (files chunk) = .ok file') :
    ∃ st' table', writeChunkWith cfg recycle chunk device edit st = (.ok (),st') ∧
      Laid recycle st' table' (max n (chunk + 1)) (update files chunk file') := by
  have fresh : ∀ hdr : Header, (∀ e, table chunk ≠ .device e) → hdr.Loose n → (∀ i, hdr.getChunk i = table i) → hdr.recycle = recycle →
      edit (Storage.openFile device chunk (writeAllHeaderFiles (hdr.setChunk chunk (.device device)) st)) = .ok file' ∧
      Laid recycle (storeCtx (hdr.setChunk chunk (.device device))
        (setData device chunk (some file') (writeAllHeaderFiles (hdr.setChunk chunk (.device device)) st)))
        (placed table chunk device) (max n (chunk + 1)) (update files chunk file') := by
    intro hdr free loose get counter
    refine ⟨?_,laid.allocate free loose get counter low device file'⟩
    rw [← done,← laid.openFile (.inr free)]
    rfl
  have known : ∀ d, getDev st.ctx chunk = .device d → table chunk = .device d := by
    intro d entry
    rcases laid.ctx with unknown | ⟨_,same⟩
    · rw [getDev,unknown] at entry
      cases entry
    · exact (same chunk).symm.trans entry
  rw [Storage.writeChunkWith]
  split
  · -- the context has the device
    rename_i d entry
    have own := known d entry
    simp only [laid.data d chunk own,done]
    exact ⟨_,table,rfl,laid.overwrite own file'⟩
  · simp only [devMapDistributionWrite]
    rcases laid.readHeader cfg true with ⟨none,read⟩ | ⟨some,hdr,loose,get,counter,read⟩
    · have absent : ∀ i, table i = .eof := fun i => laid.shaped.beyond i (by omega)
      obtain ⟨edited,after⟩ := fresh (.init recycle) (fun e => by rw [absent]; exact Dev.noConfusion) (none ▸ init_loose recycle)
        (fun i => (init_loose recycle).shaped.beyond i (Nat.zero_le i) |>.trans (absent i).symm) rfl
      simp only [read,edited]
      exact ⟨_,_,rfl,after⟩
    · simp only [read]
      rcases Dev.device_or_not (table chunk) with ⟨d,own⟩ | free
      · obtain ⟨stored,-⟩ := laid.store loose get some
        have opened := stored.openFile (.inl own)
        simp only [get,own,opened,done]
        exact ⟨_,table,rfl,stored.overwrite own file'⟩
      · obtain ⟨edited,after⟩ := fresh hdr free loose get counter
        have other : ∀ e, hdr.getChunk chunk ≠ .device e := fun e => by rw [get]; exact free e
        cases entry : hdr.getChunk chunk with
        | device d => exact absurd entry (other d)
        | _ =>
          simp only [edited]
          exact ⟨_,_,rfl,after⟩

theorem setData_self : (setData d chunk file st).data d chunk = file := by
  simp [setData]

theorem setData_other (away : ¬ (e = d ∧ c = chunk)) : (setData d chunk file st).data e c = st.data e c := by
  by_cases same : e = d
  · subst same
    have other : c ≠ chunk := fun eq => away ⟨rfl,eq⟩
    simp [setData,other]
  · simp [setData,same]

/-- The data files of the chunks after the one that is cut are removed. -/
theorem data_truncateChunks (count start : Nat) (hdr : Header) (st : State β) (rewrite : Bool) (e c : Nat) :
    (truncateChunks (List.range' start count) hdr st rewrite).1.2.data e c =
      if (start ≤ c ∧ c < start + count) ∧ hdr.getChunk c = .device e then none else st.data e c := by
  induction count generalizing start hdr st rewrite with
  | zero => rw [List.range'_zero,truncateChunks,if_neg (by omega)]
  | succ count ih =>
    rw [List.range'_succ,truncateChunks]
    split
    · rename_i eof
      rw [ih]
      by_cases same : c = start
      · rw [if_neg (by omega),if_neg (by rw [same,eof]; exact fun both => Dev.noConfusion both.2)]
      · have range : (start + 1 ≤ c ∧ c < start + 1 + count) ↔ (start ≤ c ∧ c < start + (count + 1)) := by omega
        simp only [range]
    · have removed : (rmDataChunk (hdr.getChunk start) start st).data e c =
          if c = start ∧ hdr.getChunk start = .device e then none else st.data e c := by
        cases entry : hdr.getChunk start with
        | device d =>
          simp only [rmDataChunk,Dev.device.injEq]
          by_cases both : c = start ∧ d = e
          · rw [if_pos both,both.1,both.2]
            exact setData_self
          · rw [if_neg both]
            exact setData_other fun same => both ⟨same.2,same.1.symm⟩
        | _ => simp [rmDataChunk]
      rw [ih,removed,getChunk_setChunk_eof]
      by_cases same : c = start
      · subst same
        rw [if_neg (by omega)]
        have range : c ≤ c ∧ c < c + (count + 1) := by omega
        simp only [range,true_and]
      · have range : (start + 1 ≤ c ∧ c < start + 1 + count) ↔ (start ≤ c ∧ c < start + (count + 1)) := by omega
        simp only [range,same,if_false,false_and]

/-- The header is not to be written when there was no chunk after the one that is cut. -/
theorem flag_truncateChunks (count start : Nat) (hdr : Header) (st : State β) (rewrite : Bool)
    (flag : (truncateChunks (List.range' start count) hdr st rewrite).2 = false) (i : Nat) (low : start ≤ i) (high : i < start + count) :
    hdr.getChunk i = .eof := by
  induction count generalizing start hdr st rewrite with
  | zero => omega
  | succ count ih =>
    rw [List.range'_succ,truncateChunks] at flag
    split at flag
    · rename_i eof
      by_cases same : i = start
      · rw [same,eof]
      · exact ih (start + 1) hdr st rewrite flag (by omega) (by omega)
    · have set := (truncateChunks_frame (List.range' (start + 1) count) (hdr.setChunk start .eof)
        (rmDataChunk (hdr.getChunk start) start st) true).2.2.2.2 rfl
      rw [set] at flag
      cases flag

theorem Laid.truncateHeader (laid : Laid recycle st table n files) (cfg : Config β) :
    ∃ hdr rewrite st', truncateHeader cfg recycle st = (some (hdr,rewrite),st') ∧ Laid recycle st' table n files ∧ hdr.Loose n ∧
      (∀ i, hdr.getChunk i = table i) ∧ hdr.recycle = recycle ∧ (n = 0 → rewrite = true) := by
  have reset : st.ctx.devices = .unknown → Laid recycle { st with ctx := { st.ctx with recycleCpt := recycle } } table n files :=
    fun unknown => { laid with counter := rfl, ctx := .inl unknown }
  rw [Storage.truncateHeader]
  split
  · rename_i unknown
    rcases laid.readHeader cfg true with ⟨none,read⟩ | ⟨some,hdr,loose,get,counter,read⟩
    · have absent : ∀ i, table i = .eof := fun i => laid.shaped.beyond i (by omega)
      simp only [read]
      refine ⟨_,_,_,rfl,reset unknown,none ▸ init_loose recycle,fun i => ?_,rfl,fun _ => rfl⟩
      rw [absent]
      exact (init_loose recycle).shaped.beyond i (Nat.zero_le i)
    · simp only [read]
      exact ⟨_,_,_,rfl,reset unknown,loose,get,counter,fun none => by omega⟩
  · rename_i known
    obtain ⟨some,same⟩ := laid.ctx.resolve_left known
    have ended : Ended (getDev st.ctx) n := by
      rw [Ended,same]
      exact laid.ended
    obtain ⟨⟨m,loose,-⟩,get⟩ := readFromCtx_good known (laid.shaped.congr same) ended recycle
    have number : m = n := loose.shaped.unique ((laid.shaped.congr same).congr get)
    subst number
    rw [if_neg (fun differ => differ laid.counter)]
    exact ⟨_,_,_,rfl,laid,loose,fun i => (get i).trans (same i),rfl,fun none => by omega⟩

/-- The device of the chunk that is cut, and the header with it. -/
theorem Laid.truncateDevice (laid : Laid recycle st table n files) {hdr : Header} (loose : hdr.Loose n) (get : ∀ i, hdr.getChunk i = table i)
    (low : chunk < maxChunkPerFile) (device : Nat) (rewrite : Bool) :
    ∃ d hdr' rewrite', truncateDevice chunk device hdr rewrite = (d,hdr',rewrite') ∧
      (table chunk = .device d ∨ ∀ e, table chunk ≠ .device e) ∧ hdr'.Loose (max n (chunk + 1)) ∧
      (∀ i, hdr'.getChunk i = placed table chunk d i) ∧ hdr'.recycle = hdr.recycle ∧
      (rewrite' = false → rewrite = false ∧ table chunk = .device d) := by
  rw [Storage.truncateDevice]
  rcases Dev.device_or_not (table chunk) with ⟨d,own⟩ | free
  · have inside : chunk < n := laid.shaped.lt_iff.mpr (by rw [own]; exact Dev.noConfusion)
    simp only [get,own]
    refine ⟨d,hdr,rewrite,rfl,.inl rfl,?_,fun i => ?_,rfl,fun flag => ⟨flag,rfl⟩⟩
    · rw [Nat.max_eq_left (by omega)]
      exact loose
    · exact (get i).trans (placed_self laid.shaped own i).symm
  · have other : ∀ e, hdr.getChunk chunk ≠ .device e := fun e => by rw [get]; exact free e
    have table' : ∀ i, (hdr.setChunk chunk (.device device)).getChunk i = placed table chunk device i := by
      intro i
      rw [getChunk_setChunk hdr low Dev.noConfusion,get,placed]
    refine ⟨device,hdr.setChunk chunk (.device device),true,?_,.inr free,
      loose.setChunk low Dev.noConfusion Dev.noConfusion,table',recycle_setChunk _ _ _,fun flag => by cases flag⟩
    cases entry : hdr.getChunk chunk with
    | device d => exact absurd entry (other d)
    | _ => rfl

/-- The data file of a chunk is written and the file ends there. -/
theorem Laid.cut (laid : Laid recycle st table n files) (fresh : table chunk = .device d ∨ ∀ e, table chunk ≠ .device e)
    (data : ∀ e c, st'.data e c = if chunk < c then none else if e = d ∧ c = chunk then some file' else st.data e c)
    (disk : ∃ file hdr, st'.header = some file ∧ headerRead file = some hdr ∧ hdr.recycle = recycle ∧
      hdr.Loose (chunk + 1) ∧ ∀ i, hdr.getChunk i = if chunk < i then .eof else placed table chunk d i)
    (counter : st'.ctx.recycleCpt = recycle)
    (ctx : ∀ i, getDev st'.ctx i = if chunk < i then .eof else placed table chunk d i) :
    Laid recycle st' (fun i => if chunk < i then .eof else placed table chunk d i) (chunk + 1)
      fun i => if i < chunk then files i else if i = chunk then file' else .empty := by
  have here : placed table chunk d chunk = .device d := if_pos rfl
  refine ⟨.inr ⟨Nat.succ_pos chunk,disk⟩,?_,.inr ⟨d,?_⟩,counter,.inr ⟨Nat.succ_pos chunk,ctx⟩,?_,?_,?_⟩
  · obtain ⟨_,hdr,-,-,-,loose,same⟩ := disk
    exact loose.shaped.congr fun i => (same i).symm
  · simp only [Nat.add_sub_cancel,Nat.lt_irrefl,if_false]
    exact here
  · intro e c entry
    split at entry
    · cases entry
    · rename_i inside
      rw [data,if_neg inside]
      by_cases same : c = chunk
      · subst same
        cases here.symm.trans entry
        rw [if_pos ⟨rfl,rfl⟩,if_neg (Nat.lt_irrefl c),if_pos rfl]
      · rw [if_neg (fun both => same both.2),if_pos (by omega)]
        exact laid.data e c ((placed_device same).mp entry)
  · intro e c entry
    rw [data]
    split
    · rfl
    · rename_i inside
      rw [if_neg inside] at entry
      by_cases same : c = chunk
      · subst same
        have other : e ≠ d := fun eq => entry (eq ▸ here)
        rw [if_neg (fun both => other both.1)]
        refine laid.vacant e c fun device => ?_
        rcases fresh with own | free
        · cases own.symm.trans device
          exact other rfl
        · exact free e device
      · rw [if_neg (fun both => same both.2)]
        exact laid.vacant e c fun device => entry ((placed_device same).mpr device)
  · intro c free
    by_cases before : c < chunk
    · rw [if_pos before]
      refine laid.rest c fun e device => free e ?_
      rw [if_neg (by omega)]
      exact (placed_device (by omega)).mpr device
    · have away : c ≠ chunk := by
        rintro rfl
        exact free d (by rw [if_neg (Nat.lt_irrefl c)]; exact here)
      rw [if_neg before,if_neg away]

/-- The chunk is cut and those after it are removed. -/
theorem Laid.truncateKnown (laid : Laid recycle st table n files) (cfg : Config β) {hdr : Header} (loose : hdr.Loose n)
    (get : ∀ i, hdr.getChunk i = table i) (counter : hdr.recycle = recycle) (low : chunk < maxChunkPerFile) (bid device : Nat)
    (last : LastBlock β) (create : n = 0 → rewrite = true) :
    ∃ table', Laid recycle (truncateKnown cfg chunk bid device last hdr rewrite st) table' (chunk + 1)
      fun i => if i < chunk then files i else if i = chunk then truncateFile cfg bid last (files chunk) else .empty := by
  obtain ⟨d,hdr',rewrite',eq,fresh,loose',get',counter',kept⟩ := laid.truncateDevice loose get low device rewrite
  have here : placed table chunk d chunk = .device d := if_pos rfl
  rw [Storage.truncateKnown,eq]
  simp only [laid.openFile fresh]
  have table' := getChunk_cut chunk
    { hdr' with nbChunks := roundupChunkNumber (chunk + 1) }
    (setData d chunk (some (truncateFile cfg bid last (files chunk))) st) rewrite'
  have frame := truncateChunks_frame (List.range' (chunk + 1) (maxChunkPerFile - (chunk + 1)))
    { hdr' with nbChunks := roundupChunkNumber (chunk + 1) }
    (setData d chunk (some (truncateFile cfg bid last (files chunk))) st) rewrite'
  have data := data_truncateChunks (maxChunkPerFile - (chunk + 1)) (chunk + 1)
    { hdr' with nbChunks := roundupChunkNumber (chunk + 1) }
    (setData d chunk (some (truncateFile cfg bid last (files chunk))) st) rewrite'
  have flag := flag_truncateChunks (maxChunkPerFile - (chunk + 1)) (chunk + 1)
    { hdr' with nbChunks := roundupChunkNumber (chunk + 1) }
    (setData d chunk (some (truncateFile cfg bid last (files chunk))) st) rewrite'
  generalize truncateChunks (List.range' (chunk + 1) (maxChunkPerFile - (chunk + 1)))
    { hdr' with nbChunks := roundupChunkNumber (chunk + 1) }
    (setData d chunk (some (truncateFile cfg bid last (files chunk))) st) rewrite' = cut at table' frame data flag
  obtain ⟨⟨hdr'',next⟩,rewrite''⟩ := cut
  obtain ⟨number,recycled,header,ctx,mono⟩ := frame
  simp only at table' data flag number recycled header ctx mono ⊢
  have table'' : ∀ i, hdr''.getChunk i = if chunk < i then .eof else placed table chunk d i := by
    intro i
    rw [table']
    exact if_congr Iff.rfl rfl (get' i)
  have good : hdr''.Good := by
    refine loose'.cutAfter ((get' chunk).trans here) (fun i => ?_) number
    rw [table'']
    by_cases later : chunk < i
    · rw [if_pos later,if_pos (Nat.succ_le_of_lt later)]
    · rw [if_neg later,if_neg (by omega),get']
  obtain ⟨m,loose'',-⟩ := good
  have size : m = chunk + 1 := by
    have inside : chunk < m := loose''.shaped.lt_iff.mpr (by rw [table'',if_neg (Nat.lt_irrefl chunk),here]; exact Dev.noConfusion)
    have outside : ¬ chunk + 1 < m := fun more => loose''.shaped.inside _ more (by rw [table'',if_pos (Nat.lt_succ_self chunk)])
    omega
  subst size
  have files' : ∀ e c, next.data e c =
      if chunk < c then none else if e = d ∧ c = chunk then some (truncateFile cfg bid last (files chunk)) else st.data e c := by
    intro e c
    rw [data]
    by_cases later : chunk < c
    · rw [if_pos later]
      split
      · rfl
      · rename_i kept
        have away : ¬ (e = d ∧ c = chunk) := by omega
        have same : (setData d chunk (some (truncateFile cfg bid last (files chunk))) st).data e c = st.data e c := setData_other away
        rw [same]
        refine laid.vacant e c fun device => kept ⟨?_,?_⟩
        · have bound : c < n := laid.shaped.lt_iff.mpr (by rw [device]; exact Dev.noConfusion)
          have small := laid.shaped.small
          omega
        · exact (get' c).trans ((placed_device (by omega)).mpr device)
    · rw [if_neg later,if_neg (by omega)]
      by_cases same : e = d ∧ c = chunk
      · rw [if_pos same,same.1,same.2]
        exact setData_self
      · rw [if_neg same]
        exact setData_other same
  have stored : ∀ i, getDev (storeToCtx hdr''.nbChunks hdr''.devFromChunk next.ctx) i =
      if chunk < i then .eof else placed table chunk d i := fun i => (loose''.getDev_store next.ctx i).trans (table'' i)
  have counter'' : hdr''.recycle = recycle := recycled.trans (counter'.trans counter)
  have kept' : next.ctx.recycleCpt = recycle := ctx ▸ laid.counter
  refine ⟨_,laid.cut fresh ?_ ?_ ?_ ?_⟩
  · cases rewrite'' <;> exact files'
  · cases rewrite'' with
    | true =>
      obtain ⟨hdr₃,read,number₃,same,again⟩ := loose''.reread
      refine ⟨_,hdr₃,rfl,read,same.trans counter'',?_,fun i => (again i).trans (table'' i)⟩
      exact ⟨loose''.shaped.congr again,number₃ ▸ loose''.fits,number₃ ▸ loose''.rounded⟩
    | false =>
      -- the header file has this table already
      have quiet : rewrite' = false := by
        cases rewrite' with
        | false => rfl
        | true => cases mono rfl
      obtain ⟨unchanged,own⟩ := kept quiet
      have some : 0 < n := by
        rcases Nat.eq_zero_or_pos n with none | some
        · rw [create none] at unchanged
          cases unchanged
        · exact some
      have same : ∀ i, table i = if chunk < i then .eof else placed table chunk d i := by
        intro i
        by_cases later : chunk < i
        · rw [if_pos later]
          by_cases inside : i < maxChunkPerFile
          · rw [← placed_self laid.shaped own,← get']
            exact flag rfl i later (by omega)
          · exact laid.shaped.beyond i (by have small := laid.shaped.small; omega)
        · rw [if_neg later,placed_self laid.shaped own]
      have number : n = chunk + 1 := laid.shaped.unique (loose''.shaped.congr fun i => (same i).trans (table'' i).symm)
      rcases laid.disk with ⟨none,_⟩ | ⟨_,file,old,disk,read,counter₃,loose₃,get₃⟩
      · omega
      · exact ⟨file,old,header.trans disk,read,counter₃,number ▸ loose₃,fun i => (get₃ i).trans (same i)⟩
  · cases rewrite'' <;> exact kept'
  · cases rewrite'' <;> exact stored

theorem Laid.truncate (laid : Laid recycle st table n files) (cfg : Config β) (device bid : Nat) (last : LastBlock β)
    (low : bid / blockPerChunk cfg.bsize < maxChunkPerFile) :
    ∃ st' table', storageTruncate cfg recycle device bid last st = (.ok (),st') ∧
      Laid recycle st' table' (bid / blockPerChunk cfg.bsize + 1) fun i =>
        if i < bid / blockPerChunk cfg.bsize then files i
        else if i = bid / blockPerChunk cfg.bsize then
          truncateFile cfg (bid - bid / blockPerChunk cfg.bsize * blockPerChunk cfg.bsize) last (files (bid / blockPerChunk cfg.bsize))
        else .empty := by
  obtain ⟨hdr,rewrite,next,start,laid',loose,get,counter,create⟩ := laid.truncateHeader cfg
  obtain ⟨table',after⟩ := laid'.truncateKnown cfg loose get counter low
    (bid - bid / blockPerChunk cfg.bsize * blockPerChunk cfg.bsize) device last create
  rw [storageTruncate]
  simp only [if_neg (Nat.not_le.mpr low),start]
  exact ⟨_,table',rfl,after⟩

/-- The blocks that a chunk is read as. -/
def chunkBlocks (cfg : Config β) (dev : Dev) (file : SparseFile (Projection β)) (bid nbProj : Nat) : List (Projection β) :=
  match dev with
  | .device _ => checkCrc32 cfg bid (file.pread bid nbProj)
  | .empty => List.replicate nbProj 0
  | _ => []

theorem Laid.readDev (laid : Laid recycle st table n files) (cfg : Config β) (few : cfg.vect = true → nbProj ≤ 2 * maxBlockPerMsg) (chunk bid : Nat) :
    readDev cfg (table chunk) chunk bid nbProj st = some (.ok (chunkBlocks cfg (table chunk) (files chunk) bid nbProj)) := by
  cases entry : table chunk with
  | unknown => exact absurd entry (laid.shaped.known chunk)
  | device d =>
    have fits : ¬ (cfg.vect = true ∧ 2 * maxBlockPerMsg < nbProj) := fun both => absurd (few both.1) (Nat.not_le.mpr both.2)
    simp only [Storage.readDev,laid.data d chunk entry,Option.map_some,if_neg fits,chunkBlocks]
  | _ => rfl

/-- A chunk is read, and the context has the table then. -/
theorem Laid.readChunk (laid : Laid recycle st table n files) (cfg : Config β) (few : cfg.vect = true → nbProj ≤ 2 * maxBlockPerMsg)
    (some : 0 < n) (chunk bid : Nat) : ∃ st', readChunk cfg recycle chunk bid nbProj st =
        (.ok (chunkBlocks cfg (table chunk) (files chunk) bid nbProj),st') ∧
      Laid recycle st' table n files ∧ ∀ i, getDev st'.ctx i = table i := by
  rw [Storage.readChunk]
  rcases laid.ctx with unknown | ⟨_,same⟩
  · have missing : Storage.readDev cfg (getDev st.ctx chunk) chunk bid nbProj st = none := by
      rw [getDev,unknown]
      rfl
    simp only [missing,readChunkFromHeader]
    rcases laid.readHeader cfg false with ⟨none,_⟩ | ⟨_,hdr,loose,get,counter,read⟩
    · omega
    · have reset : Laid recycle { st with ctx := { st.ctx with recycleCpt := hdr.recycle } } table n files :=
        { laid with counter := counter, ctx := .inl unknown }
      obtain ⟨stored,table'⟩ := reset.store loose get some
      simp only [read,table',stored.readDev cfg few,Option.getD_some]
      exact ⟨_,rfl,stored,table'⟩
  · simp only [same,laid.readDev cfg few]
    exact ⟨st,rfl,laid,same⟩

theorem Laid.readChunk_absent (laid : Laid recycle st table 0 files) (cfg : Config β) (chunk bid nbProj : Nat) :
    Storage.readChunk cfg recycle chunk bid nbProj st = (.error .enoent,st) := by
  have unknown : st.ctx.devices = .unknown := laid.ctx.resolve_right fun known => absurd known.1 (Nat.lt_irrefl 0)
  have missing : Storage.readDev cfg (getDev st.ctx chunk) chunk bid nbProj st = none := by
    rw [getDev,unknown]
    rfl
  rw [Storage.readChunk]
  simp only [missing,readChunkFromHeader]
  rcases laid.readHeader cfg false with ⟨_,read⟩ | ⟨some,_⟩
  · simp only [read]
  · omega

end Layout

section Crc
variable {β : Type} {cfg : Config β}

/-- A projection without CRC32, or with the one of its block. -/
def Seal (cfg : Config β) (bid : Nat) (p : Projection β) : Prop := p.filler = 0 ∨ p.filler = cfg.crcOf bid p

/-- The CRC32 of a message is generated, or there is none. -/
def sealable (cfg : Config β) (vect : Bool) (p : Projection β) : Bool := cfg.generate || vect || p.filler = 0

theorem seal_stamp (good : sealable cfg vect p = true) (bid : Nat) : Seal cfg bid (stamp cfg vect bid p) := by
  rw [stamp]
  split
  · exact .inr rfl
  · rename_i off
    split
    · exact .inl rfl
    · rename_i same
      simp only [sealable,off,same,Bool.false_or,decide_eq_true_eq] at good
      exact .inl good

theorem checkProjection_seal (sealed : Seal cfg bid p) (some : p.filler ≠ 0) : checkProjection cfg bid p = p :=
  if_neg (not_not_intro (sealed.resolve_left some))

/-- Projections with their CRC32 are read as they are. -/
theorem checkCrc32_seal {bins : List (Projection β)} (sealed : ∀ i (low : i < bins.length), Seal cfg (bid + i) bins[i]) :
    checkCrc32 cfg bid bins = bins := by
  induction bins generalizing bid with
  | nil => rfl
  | cons p rest ih =>
    have here : Seal cfg bid p := sealed 0 (Nat.succ_pos _)
    have later : checkCrc32 cfg (bid + 1) rest = rest := by
      refine ih fun i low => ?_
      have next := sealed (i + 1) (Nat.succ_lt_succ low)
      rw [Nat.add_assoc,Nat.add_comm 1 i]
      exact next
    rw [checkCrc32,later]
    split
    · rfl
    · split
      · rw [ite_self]
      · rename_i some
        rw [checkProjection_seal here some]

/-- The blocks of a write request, with their CRC32. -/
def stamped (cfg : Config β) (bid : Nat) : List (Projection β) → List (Projection β)
  | [] => []
  | p :: rest => stamp cfg cfg.vect (bid % blockPerChunk cfg.bsize) p :: stamped cfg (bid + 1) rest

@[simp] theorem stamped_length (bid : Nat) (bins : List (Projection β)) : (stamped cfg bid bins).length = bins.length := by
  induction bins generalizing bid with
  | nil => rfl
  | cons p rest ih => simp [stamped,ih]

theorem stamped_drop (bid start : Nat) (bins : List (Projection β)) :
    (stamped cfg bid bins).drop start = stamped cfg (bid + start) (bins.drop start) := by
  induction bins generalizing bid start with
  | nil => simp [stamped]
  | cons p rest ih =>
    cases start with
    | zero => rfl
    | succ start =>
      simp only [stamped,List.drop_succ_cons]
      rw [ih,Nat.add_assoc,Nat.add_comm 1 start]

theorem stamped_take (bid count : Nat) (bins : List (Projection β)) :
    (stamped cfg bid bins).take count = stamped cfg bid (bins.take count) := by
  induction bins generalizing bid count with
  | nil => simp [stamped]
  | cons p rest ih =>
    cases count with
    | zero => rfl
    | succ count => simp [stamped,ih]

/-- The CRC32 that a chunk is written with. -/
theorem genCrc32_eq_stamped {bins : List (Projection β)} (fits : bid + bins.length ≤ blockPerChunk cfg.bsize) (chunk : Nat) :
    genCrc32 cfg cfg.vect bid bins = stamped cfg (chunk * blockPerChunk cfg.bsize + bid) bins := by
  induction bins generalizing bid with
  | nil => rfl
  | cons p rest ih =>
    rw [List.length_cons] at fits
    have place : (chunk * blockPerChunk cfg.bsize + bid) % blockPerChunk cfg.bsize = bid := by
      rw [Nat.mul_comm,Nat.mul_add_mod]
      exact Nat.mod_eq_of_lt (by omega)
    rw [genCrc32,stamped,place,ih (by omega),Nat.add_assoc]

theorem seal_genCrc32 {bins : List (Projection β)} (good : ∀ p ∈ bins, sealable cfg vect p = true) (bid i : Nat)
    (low : i < (genCrc32 cfg vect bid bins).length) : Seal cfg (bid + i) (genCrc32 cfg vect bid bins)[i] := by
  induction bins generalizing bid i with
  | nil => exact absurd low (Nat.not_lt_zero i)
  | cons p rest ih =>
    cases i with
    | zero => exact seal_stamp (good p List.mem_cons_self) bid
    | succ i =>
      have later := ih (fun q member => good q (List.mem_cons_of_mem p member)) (bid + 1) i (Nat.lt_of_succ_lt_succ low)
      rw [Nat.add_assoc,Nat.add_comm 1 i] at later
      exact later

end Crc

section Array
variable {β : Type} [Zero β] {cfg : Config β} {st : State β} {whole : Option (SparseFile (Projection β))}

/-- The state of a storage holds a file, which is an array of blocks, or holds none. -/
def Stored (cfg : Config β) (recycle : BitVec 2) (st : State β) (whole : Option (SparseFile (Projection β))) : Prop :=
  ∃ table n files, Laid recycle st table n files ∧ Chunked (blockPerChunk cfg.bsize) n files (whole.getD .empty) ∧
    (∀ c i, Seal cfg i ((files c).get i)) ∧ (whole = none ↔ n = 0)

theorem stored_absent (recycle : BitVec 2) : Stored cfg recycle (⟨none,fun _ _ => none,⟨recycle,.unknown⟩⟩ : State β) none :=
  ⟨_,0,_,laid_absent recycle,Chunked.empty _,fun _ _ => .inl rfl,by simp⟩

theorem blockPerChunk_ge (bsize : BSize) : 2 * maxBlockPerMsg ≤ blockPerChunk bsize := by
  cases bsize <;> decide

/-- Blocks of one chunk are written. -/
theorem Stored.writeChunk (stored : Stored cfg recycle st whole) (low : chunk < maxChunkPerFile) (device : Nat)
    {data : List (Projection β)} (some : data ≠ []) (fits : bid + data.length ≤ blockPerChunk cfg.bsize)
    (sealed : ∀ i (low : i < data.length), Seal cfg (bid + i) data[i])
    {edit : SparseFile (Projection β) → Except Errno (SparseFile (Projection β))} (done : ∀ file, edit file = .ok (file.pwrite bid data)) :
    ∃ st', writeChunkWith cfg recycle chunk device edit st = (.ok (),st') ∧
      Stored cfg recycle st' (.some ((whole.getD .empty).pwrite (chunk * blockPerChunk cfg.bsize + bid) data)) := by
  obtain ⟨table,n,files,laid,chunked,seals,_⟩ := stored
  obtain ⟨st',table',eq,after⟩ := laid.writeChunkWith cfg low device (done (files chunk))
  refine ⟨st',eq,table',_,_,after,chunked.pwrite chunk some fits,fun c i => ?_,by simp⟩
  by_cases same : c = chunk
  · subst same
    rw [Function.update_self]
    simp only [SparseFile.pwrite]
    split
    · rename_i inside
      have low : i - bid < data.length := by omega
      have good := sealed (i - bid) low
      rw [Nat.add_sub_cancel' inside.1] at good
      simpa [List.getD,low] using good
    · exact seals c i
  · rw [Function.update_of_ne same]
    exact seals c i

/-- Blocks are written in one chunk or two. -/
theorem Stored.writeWith (stored : Stored cfg recycle st whole) {blocks : List (Projection β)} (some : blocks ≠ [])
    (small : blocks.length ≤ blockPerChunk cfg.bsize)
    {part : (chunk bid start nbProj : Nat) → State β → Except Errno Unit × State β}
    (write : ∀ st whole chunk rel start count, Stored cfg recycle st whole → chunk < maxChunkPerFile → 0 < count →
      rel + count ≤ blockPerChunk cfg.bsize → start + count ≤ blocks.length →
      bid + start = chunk * blockPerChunk cfg.bsize + rel → ∃ st', part chunk rel start count st = (.ok (),st') ∧
        Stored cfg recycle st' (.some ((whole.getD .empty).pwrite (bid + start) ((blocks.drop start).take count)))) :
    if maxChunkPerFile * blockPerChunk cfg.bsize < bid + blocks.length then
      writeWith cfg bid blocks.length part st = (.error .efbig,st)
    else ∃ st', writeWith cfg bid blocks.length part st = (.ok (),st') ∧
      Stored cfg recycle st' (.some ((whole.getD .empty).pwrite bid blocks)) := by
  have pos := List.length_pos_iff.mpr some
  have size : 0 < blockPerChunk cfg.bsize := by omega
  have place : bid = bid / blockPerChunk cfg.bsize * blockPerChunk cfg.bsize +
      (bid - bid / blockPerChunk cfg.bsize * blockPerChunk cfg.bsize) := by
    have below := Nat.div_mul_le_self bid (blockPerChunk cfg.bsize)
    omega
  have inside : bid - bid / blockPerChunk cfg.bsize * blockPerChunk cfg.bsize < blockPerChunk cfg.bsize := by
    rw [Nat.mul_comm,← Nat.mod_eq_sub_mul_div]
    exact Nat.mod_lt bid size
  rw [Storage.writeWith]
  generalize bid / blockPerChunk cfg.bsize = chunk at place inside
  generalize bid - chunk * blockPerChunk cfg.bsize = rel at place inside
  simp only
  by_cases high : maxChunkPerFile ≤ chunk
  · have bound : maxChunkPerFile * blockPerChunk cfg.bsize ≤ chunk * blockPerChunk cfg.bsize := Nat.mul_le_mul_right _ high
    rw [if_pos (by omega),if_pos high]
  · rw [if_neg high]
    by_cases one : rel + blocks.length ≤ blockPerChunk cfg.bsize
    · have bound : chunk * blockPerChunk cfg.bsize + blockPerChunk cfg.bsize ≤ maxChunkPerFile * blockPerChunk cfg.bsize :=
        Chunked.le_mul (Nat.lt_of_not_le high)
      obtain ⟨st',eq,after⟩ := write st whole chunk rel 0 blocks.length stored (Nat.lt_of_not_le high) pos one (by omega) (by omega)
      rw [if_neg (by omega),if_pos one]
      rw [List.drop_zero,List.take_length,Nat.add_zero] at after
      exact ⟨st',eq,after⟩
    · rw [if_neg one]
      by_cases last : maxChunkPerFile ≤ chunk + 1
      · have bound : maxChunkPerFile * blockPerChunk cfg.bsize ≤ (chunk + 1) * blockPerChunk cfg.bsize := Nat.mul_le_mul_right _ last
        rw [Nat.succ_mul] at bound
        rw [if_pos (by omega),if_pos last]
      · have bound : (chunk + 1) * blockPerChunk cfg.bsize + blockPerChunk cfg.bsize ≤ maxChunkPerFile * blockPerChunk cfg.bsize :=
          Chunked.le_mul (Nat.lt_of_not_le last)
        have next : (chunk + 1) * blockPerChunk cfg.bsize = chunk * blockPerChunk cfg.bsize + blockPerChunk cfg.bsize := Nat.succ_mul _ _
        rw [if_neg (by omega),if_neg last]
        obtain ⟨st₁,eq₁,first⟩ := write st whole chunk rel 0 (blockPerChunk cfg.bsize - rel) stored (Nat.lt_of_not_le high)
          (by omega) (by omega) (by omega) (by omega)
        obtain ⟨st₂,eq₂,second⟩ := write st₁ _ (chunk + 1) 0 (blockPerChunk cfg.bsize - rel)
          (blocks.length - (blockPerChunk cfg.bsize - rel)) first (Nat.lt_of_not_le last) (by omega) (by omega) (by omega) (by omega)
        simp only [eq₁]
        refine ⟨st₂,eq₂,?_⟩
        have cut := List.take_append_drop (blockPerChunk cfg.bsize - rel) blocks
        have length : (blocks.take (blockPerChunk cfg.bsize - rel)).length = blockPerChunk cfg.bsize - rel := by
          rw [List.length_take]
          omega
        have all : (blocks.drop (blockPerChunk cfg.bsize - rel)).take (blocks.length - (blockPerChunk cfg.bsize - rel)) =
            blocks.drop (blockPerChunk cfg.bsize - rel) := List.take_of_length_le (by simp)
        rw [List.drop_zero,Nat.add_zero,Option.getD_some,all] at second
        rw [← cut,SparseFile.pwrite_append]
        · rw [length]
          exact second
        · exact List.ne_nil_of_length_pos (by omega)
        · exact List.ne_nil_of_length_pos (by rw [List.length_drop]; omega)

/-- `storage_write` writes the blocks in the array. -/
theorem Stored.write (stored : Stored cfg recycle st whole) (device : Nat → Nat) {bins : List (Projection β)} (some : bins ≠ [])
    (small : bins.length ≤ blockPerChunk cfg.bsize) (few : cfg.vect = true → bins.length ≤ 2 * maxBlockPerMsg)
    (good : ∀ p ∈ bins, sealable cfg cfg.vect p = true) (bid : Nat) :
    if maxChunkPerFile * blockPerChunk cfg.bsize < bid + bins.length then
      storageWrite cfg recycle device bid bins st = (.error .efbig,st)
    else ∃ st', storageWrite cfg recycle device bid bins st = (.ok (),st') ∧
      Stored cfg recycle st' (.some ((whole.getD .empty).pwrite bid (stamped cfg bid bins))) := by
  have length : (stamped cfg bid bins).length = bins.length := stamped_length bid bins
  have part : ∀ (st : State β) whole chunk rel start count, Stored cfg recycle st whole → chunk < maxChunkPerFile → 0 < count →
      rel + count ≤ blockPerChunk cfg.bsize → start + count ≤ (stamped cfg bid bins).length →
      bid + start = chunk * blockPerChunk cfg.bsize + rel →
      ∃ st', Storage.writeChunk cfg recycle chunk (device chunk) rel ((bins.drop start).take count) st = (.ok (),st') ∧
        Stored cfg recycle st' (.some ((whole.getD .empty).pwrite (bid + start) (((stamped cfg bid bins).drop start).take count))) := by
    intro st whole chunk rel start count stored low pos fits inside place
    rw [length] at inside
    have size : ((bins.drop start).take count).length = count := by
      rw [List.length_take,List.length_drop]
      omega
    have data : genCrc32 cfg cfg.vect rel ((bins.drop start).take count) = ((stamped cfg bid bins).drop start).take count := by
      rw [genCrc32_eq_stamped (by omega) chunk,stamped_drop,stamped_take,place]
    have total : (genCrc32 cfg cfg.vect rel ((bins.drop start).take count)).length = count := by
      rw [data,List.length_take,List.length_drop,length]
      omega
    rw [place,← data]
    apply stored.writeChunk low (device chunk) (List.ne_nil_of_length_pos (by omega)) (by omega)
    · exact seal_genCrc32 (fun p member => good p (List.mem_of_mem_drop (List.mem_of_mem_take member))) rel
    · intro file
      have fits : ¬ (cfg.vect = true ∧ 2 * maxBlockPerMsg < ((bins.drop start).take count).length) := by
        rintro ⟨vect,many⟩
        have bound := few vect
        omega
      rw [if_neg fits]
  have result := stored.writeWith (List.ne_nil_of_length_pos (length.symm ▸ List.length_pos_iff.mpr some)) (length.symm ▸ small) part
  rw [length] at result
  exact result

/-- `storage_write_empty` writes zeros in the array. -/
theorem Stored.writeEmpty (stored : Stored cfg recycle st whole) (device : Nat → Nat) (some : 0 < nbProj)
    (few : nbProj ≤ 2 * maxBlockPerMsg) (bid : Nat) :
    if maxChunkPerFile * blockPerChunk cfg.bsize < bid + nbProj then
      storageWriteEmpty cfg recycle device bid nbProj st = (.error .efbig,st)
    else ∃ st', storageWriteEmpty cfg recycle device bid nbProj st = (.ok (),st') ∧
      Stored cfg recycle st' (.some ((whole.getD .empty).pwrite bid (List.replicate nbProj 0))) := by
  have length : (List.replicate nbProj (0 : Projection β)).length = nbProj := List.length_replicate
  have part : ∀ (st : State β) whole chunk rel start count, Stored cfg recycle st whole → chunk < maxChunkPerFile → 0 < count →
      rel + count ≤ blockPerChunk cfg.bsize → start + count ≤ (List.replicate nbProj (0 : Projection β)).length →
      bid + start = chunk * blockPerChunk cfg.bsize + rel →
      ∃ st', writeChunkEmpty cfg recycle chunk (device chunk) rel count st = (.ok (),st') ∧
        Stored cfg recycle st'
          (.some ((whole.getD .empty).pwrite (bid + start) (((List.replicate nbProj (0 : Projection β)).drop start).take count))) := by
    intro st whole chunk rel start count stored low pos fits inside place
    rw [length] at inside
    have data : ((List.replicate nbProj (0 : Projection β)).drop start).take count = List.replicate count 0 := by
      rw [List.drop_replicate,List.take_replicate]
      congr 1
      omega
    rw [data,place]
    apply stored.writeChunk low (device chunk) (List.ne_nil_of_length_pos (by simpa using pos)) (by simpa using fits)
    · intro i low
      rw [List.getElem_replicate]
      exact .inl rfl
    · intro file
      by_cases high : file.size ≤ rel
      · rw [if_pos high,file.ftruncate_eq_pwrite high pos]
      · rw [if_neg high,if_neg (by omega)]
  have big := Nat.le_trans few (blockPerChunk_ge cfg.bsize)
  have result := stored.writeWith (List.ne_nil_of_length_pos (by omega)) (length.symm ▸ big) part
  rw [length] at result
  exact result

/-- What `storage_truncate` makes of the array. -/
def truncated (cfg : Config β) (bid : Nat) (last : LastBlock β) (whole : SparseFile (Projection β)) : SparseFile (Projection β) :=
  if last.lastSeg = 0 then whole.ftruncate bid
  else
    let whole := whole.ftruncate (bid + 1)
    whole.pwrite bid [lastBlock cfg (bid % blockPerChunk cfg.bsize) last (whole.get bid)]

/-- The data of a truncate request has a CRC32 that is generated, or has none. -/
def LastBlock.sealable (cfg : Config β) (last : LastBlock β) : Bool :=
  match last.data with
  | some data => Storage.sealable cfg false data
  | none => true

omit [Zero β] in
theorem seal_lastBlock {last : LastBlock β} (good : last.sealable cfg = true) (bid : Nat) (old : Projection β) :
    Seal cfg bid (lastBlock cfg bid last old) := by
  rw [LastBlock.sealable] at good
  rw [lastBlock]
  split
  · rename_i data given
    rw [given] at good
    exact seal_stamp good bid
  · exact .inl rfl

theorem seal_ftruncate {file : SparseFile (Projection β)} (seals : ∀ i, Seal cfg i (file.get i)) (size i : Nat) :
    Seal cfg i ((file.ftruncate size).get i) := by
  simp only [SparseFile.ftruncate]
  split
  · exact seals i
  · exact .inl rfl

theorem seal_truncateFile {file : SparseFile (Projection β)} (seals : ∀ i, Seal cfg i (file.get i)) {last : LastBlock β}
    (good : last.sealable cfg = true) (bid i : Nat) : Seal cfg i ((truncateFile cfg bid last file).get i) := by
  rw [truncateFile]
  split
  · exact seal_ftruncate seals bid i
  · simp only [SparseFile.pwrite,List.length_cons,List.length_nil]
    split
    · have here : i = bid := by omega
      subst here
      rw [Nat.sub_self]
      exact seal_lastBlock good i _
    · exact seal_ftruncate seals (bid + 1) i

/-- The chunks of the array that is truncated. -/
theorem chunked_truncated {files : Nat → SparseFile (Projection β)} {whole : SparseFile (Projection β)}
    (chunked : Chunked (blockPerChunk cfg.bsize) n files whole) (chunk : Nat) (inside : rel < blockPerChunk cfg.bsize) (last : LastBlock β) :
    Chunked (blockPerChunk cfg.bsize) (chunk + 1)
      (fun i => if i < chunk then files i else if i = chunk then truncateFile cfg rel last (files chunk) else .empty)
      (truncated cfg (chunk * blockPerChunk cfg.bsize + rel) last whole) := by
  rw [truncated]
  simp only [truncateFile]
  split
  · exact chunked.ftruncate chunk (Nat.le_of_lt inside)
  · have cut := chunked.ftruncate chunk (Nat.succ_le_of_lt inside)
    have old := cut.get chunk rel inside
    have place : (chunk * blockPerChunk cfg.bsize + rel) % blockPerChunk cfg.bsize = rel := by
      rw [Nat.mul_comm,Nat.mul_add_mod]
      exact Nat.mod_eq_of_lt inside
    simp only [Nat.lt_irrefl,if_false,if_true] at old
    have written := cut.pwrite chunk (List.cons_ne_nil (lastBlock cfg rel last (((files chunk).ftruncate (rel + 1)).get rel)) [])
      (Nat.succ_le_of_lt inside)
    rw [Nat.max_self] at written
    rw [place,Nat.add_assoc,old]
    refine cast (congrArg (fun files => Chunked (blockPerChunk cfg.bsize) (chunk + 1) files _) (funext fun i => ?_)) written
    by_cases same : i = chunk
    · subst same
      simp
    · simp only [Function.update_of_ne same,if_neg same]

/-- `storage_truncate` cuts or extends the array. -/
theorem Stored.truncate (stored : Stored cfg recycle st whole) (device bid : Nat) {last : LastBlock β} (good : last.sealable cfg = true) :
    if maxChunkPerFile * blockPerChunk cfg.bsize ≤ bid then
      storageTruncate cfg recycle device bid last st = (.error .efbig,st)
    else ∃ st', storageTruncate cfg recycle device bid last st = (.ok (),st') ∧
      Stored cfg recycle st' (.some (truncated cfg bid last (whole.getD .empty))) := by
  obtain ⟨table,n,files,laid,chunked,seals,_⟩ := stored
  have size : 0 < blockPerChunk cfg.bsize := Nat.lt_of_lt_of_le (by decide) (blockPerChunk_ge cfg.bsize)
  have below := Nat.div_mul_le_self bid (blockPerChunk cfg.bsize)
  by_cases high : maxChunkPerFile * blockPerChunk cfg.bsize ≤ bid
  · rw [if_pos high,storageTruncate]
    exact if_pos ((Nat.le_div_iff_mul_le size).mpr high)
  · have low : bid / blockPerChunk cfg.bsize < maxChunkPerFile := (Nat.div_lt_iff_lt_mul size).mpr (Nat.lt_of_not_le high)
    have inside : bid - bid / blockPerChunk cfg.bsize * blockPerChunk cfg.bsize < blockPerChunk cfg.bsize := by
      rw [Nat.mul_comm,← Nat.mod_eq_sub_mul_div]
      exact Nat.mod_lt bid size
    obtain ⟨st',table',eq,after⟩ := laid.truncate cfg device bid last low
    have cut := chunked_truncated chunked (bid / blockPerChunk cfg.bsize) inside last
    rw [Nat.add_sub_cancel' below] at cut
    rw [if_neg high]
    refine ⟨st',eq,table',_,_,after,cut,fun c i => ?_,by simp⟩
    split
    · exact seals c i
    · split
      · exact seal_truncateFile (seals _) good _ i
      · exact .inl rfl

/-- The blocks that are read in one chunk. -/
theorem Laid.padChunk (laid : Laid recycle st table n files) (ctx : ∀ i, getDev st.ctx i = table i) {whole : SparseFile (Projection β)}
    (chunked : Chunked (blockPerChunk cfg.bsize) n files whole) (seals : ∀ c i, Seal cfg i ((files c).get i))
    (fits : rel + count ≤ blockPerChunk cfg.bsize) (chunk : Nat) :
    padChunk chunk count (chunkBlocks cfg (table chunk) (files chunk) rel count) st =
      whole.pread (chunk * blockPerChunk cfg.bsize + rel) count := by
  have inner : (chunk + 1 < maxChunkPerFile ∧ getDev st.ctx (chunk + 1) ≠ .eof) ↔ chunk + 1 < n := by
    rw [ctx,← laid.shaped.lt_iff]
    have small := laid.shaped.small
    omega
  simp only [Storage.padChunk,inner]
  by_cases low : chunk < n
  · rw [chunked.pread low fits]
    rcases laid.shaped.device_or_empty low with hole | ⟨d,device⟩
    · have none : files chunk = .empty := laid.rest chunk fun d => by rw [hole]; exact Dev.noConfusion
      have more : chunk + 1 < n := by
        rcases laid.ended with zero | ⟨d,device⟩
        · omega
        · have other : chunk ≠ n - 1 := fun eq => by rw [eq,device] at hole; cases hole
          omega
      rw [if_pos more,if_pos more,hole,none,SparseFile.pread_empty]
      simp [chunkBlocks]
    · have read : chunkBlocks cfg (table chunk) (files chunk) rel count = (files chunk).pread rel count := by
        rw [device,chunkBlocks]
        apply checkCrc32_seal
        intro i low
        simp only [SparseFile.pread,List.getElem_map,List.getElem_range]
        exact seals chunk (rel + i)
      rw [read]
  · have eof : table chunk = .eof := laid.shaped.beyond chunk (Nat.le_of_not_lt low)
    rw [chunked.pread_beyond (Nat.le_of_not_lt low),if_neg (by omega),eof]
    rfl

/-- What a read returns of the array. -/
def arrayRead (cfg : Config β) (whole : Option (SparseFile (Projection β))) (bid nbProj : Nat) : Except Errno (List (Projection β)) :=
  if maxChunkPerFile * blockPerChunk cfg.bsize ≤ bid then .ok []
  else
    match whole with
    | none => .error .enoent
    | some whole => .ok (whole.pread bid nbProj)

/-- `storage_read` reads the array. -/
theorem Stored.read (stored : Stored cfg recycle st whole) (small : nbProj ≤ blockPerChunk cfg.bsize)
    (few : cfg.vect = true → nbProj ≤ 2 * maxBlockPerMsg) (bid : Nat) :
    (storageRead cfg recycle bid nbProj st).1 = arrayRead cfg whole bid nbProj ∧
      Stored cfg recycle (storageRead cfg recycle bid nbProj st).2 whole := by
  have size : 0 < blockPerChunk cfg.bsize := Nat.lt_of_lt_of_le (by decide) (blockPerChunk_ge cfg.bsize)
  have below := Nat.div_mul_le_self bid (blockPerChunk cfg.bsize)
  have inside : bid - bid / blockPerChunk cfg.bsize * blockPerChunk cfg.bsize < blockPerChunk cfg.bsize := by
    rw [Nat.mul_comm,← Nat.mod_eq_sub_mul_div]
    exact Nat.mod_lt bid size
  have bound : maxChunkPerFile * blockPerChunk cfg.bsize ≤ bid ↔ maxChunkPerFile ≤ bid / blockPerChunk cfg.bsize :=
    (Nat.le_div_iff_mul_le size).symm
  simp only [arrayRead,storageRead,bound]
  generalize bid / blockPerChunk cfg.bsize = chunk at below inside
  obtain ⟨rel,rfl⟩ := Nat.exists_eq_add_of_le below
  rw [Nat.add_sub_cancel_left] at inside ⊢
  by_cases high : maxChunkPerFile ≤ chunk
  · rw [if_pos high,if_pos high]
    exact ⟨rfl,stored⟩
  rw [if_neg high,if_neg high]
  obtain ⟨table,n,files,laid,chunked,seals,absent⟩ := stored
  cases whole with
  | none =>
    cases absent.mp rfl
    simp only [laid.readChunk_absent cfg]
    split <;> exact ⟨rfl,table,0,files,laid,chunked,seals,absent⟩
  | some whole =>
    have pos : 0 < n := Nat.pos_of_ne_zero fun zero => by cases absent.mpr zero
    have kept : ∀ st', Laid recycle st' table n files → Stored cfg recycle st' (some whole) :=
      fun st' laid' => ⟨table,n,files,laid',chunked,seals,absent⟩
    simp only [Option.getD_some] at chunked
    by_cases one : rel + nbProj ≤ blockPerChunk cfg.bsize
    · obtain ⟨st',read,laid',ctx⟩ := laid.readChunk cfg few pos chunk rel
      rw [if_pos one]
      simp only [read,laid'.padChunk ctx chunked seals one]
      exact ⟨trivial,kept st' laid'⟩
    · -- the request goes on in the next chunk
      have first : rel + (blockPerChunk cfg.bsize - rel) ≤ blockPerChunk cfg.bsize := by omega
      have few₁ : cfg.vect = true → blockPerChunk cfg.bsize - rel ≤ 2 * maxBlockPerMsg := fun vect => by
        have bound := few vect
        omega
      have few₂ : cfg.vect = true → nbProj - (blockPerChunk cfg.bsize - rel) ≤ 2 * maxBlockPerMsg := fun vect => by
        have bound := few vect
        omega
      obtain ⟨st',read,laid',ctx⟩ := laid.readChunk cfg few₁ pos chunk rel
      have parts : nbProj = blockPerChunk cfg.bsize - rel + (nbProj - (blockPerChunk cfg.bsize - rel)) := by omega
      have next : chunk * blockPerChunk cfg.bsize + rel + (blockPerChunk cfg.bsize - rel) = (chunk + 1) * blockPerChunk cfg.bsize + 0 := by
        rw [Nat.succ_mul]
        omega
      have whole_eq := whole.pread_add (chunk * blockPerChunk cfg.bsize + rel) (blockPerChunk cfg.bsize - rel)
        (nbProj - (blockPerChunk cfg.bsize - rel))
      rw [← parts,← laid'.padChunk ctx chunked seals first,next] at whole_eq
      rw [if_neg one]
      simp only [read,whole_eq]
      by_cases last : maxChunkPerFile ≤ chunk + 1 ∨ getDev st'.ctx (chunk + 1) = .eof
      · have end' : n ≤ chunk + 1 := by
          rcases last with top | eof
          · exact Nat.le_trans laid.shaped.small top
          · exact Nat.le_of_not_lt fun low => laid.shaped.inside _ low ((ctx _).symm.trans eof)
        have unpadded : ¬ (chunk + 1 < maxChunkPerFile ∧ getDev st'.ctx (chunk + 1) ≠ .eof) := by
          rintro ⟨low,some⟩
          exact last.elim (Nat.not_le.mpr low) some
        rw [if_pos last,chunked.pread_beyond end',List.append_nil,Storage.padChunk,if_neg unpadded]
        exact ⟨rfl,kept st' laid'⟩
      · obtain ⟨st'',read',laid'',ctx'⟩ := laid'.readChunk cfg few₂ pos (chunk + 1) 0
        rw [if_neg last]
        simp only [read',laid''.padChunk ctx' chunked seals (show 0 + (nbProj - (blockPerChunk cfg.bsize - rel)) ≤ _ by omega)]
        exact ⟨trivial,kept st'' laid''⟩

theorem Stored.forget (stored : Stored cfg recycle st whole) : Stored cfg recycle { st with ctx := ⟨recycle,.unknown⟩ } whole := by
  obtain ⟨table,n,files,laid,rest⟩ := stored
  exact ⟨table,n,files,laid.forget,rest⟩

/-- The numbers of blocks that a message may have. -/
def fitsMessage (cfg : Config β) (nbProj : Nat) : Bool :=
  nbProj ≤ blockPerChunk cfg.bsize && (!cfg.vect || nbProj ≤ 2 * maxBlockPerMsg)

/-- The requests of the storage clients: they have blocks, and no CRC32 that is not the one of the storage. -/
def asked (cfg : Config β) : Request β → Bool
  | .write _ _ bins => !bins.isEmpty && fitsMessage cfg bins.length && bins.all (sealable cfg cfg.vect)
  | .writeEmpty _ _ nbProj => 0 < nbProj && nbProj ≤ 2 * maxBlockPerMsg
  | .truncate _ _ last => last.sealable cfg
  | .read _ nbProj => fitsMessage cfg nbProj
  | .forget => true
  | _ => false

/-- What a request does to the array of blocks, `none` when there is no file. -/
def arrayPerform (cfg : Config β) (whole : Option (SparseFile (Projection β))) : Request β → Option (SparseFile (Projection β))
  | .write _ bid bins =>
    if maxChunkPerFile * blockPerChunk cfg.bsize < bid + bins.length then whole
    else some ((whole.getD .empty).pwrite bid (stamped cfg bid bins))
  | .writeEmpty _ bid nbProj =>
    if maxChunkPerFile * blockPerChunk cfg.bsize < bid + nbProj then whole
    else some ((whole.getD .empty).pwrite bid (List.replicate nbProj 0))
  | .truncate _ bid last =>
    if maxChunkPerFile * blockPerChunk cfg.bsize ≤ bid then whole
    else some (truncated cfg bid last (whole.getD .empty))
  | _ => whole

/-- A storage and an array of blocks that get the same requests. -/
def bothStep (cfg : Config β) (recycle : BitVec 2) (request : Request β) (both : State β × Option (SparseFile (Projection β))) :
    Option (State β × Option (SparseFile (Projection β))) :=
  some (perform cfg recycle both.1 request,arrayPerform cfg both.2 request)

omit [Zero β] in
theorem fitsMessage_iff {nbProj : Nat} : fitsMessage cfg nbProj = true ↔
    nbProj ≤ blockPerChunk cfg.bsize ∧ (cfg.vect = true → nbProj ≤ 2 * maxBlockPerMsg) := by
  simp only [fitsMessage,Bool.and_eq_true,decide_eq_true_eq,Bool.or_eq_true,Bool.not_eq_true']
  cases cfg.vect <;> simp

/-- A request that is out of the bounds of the file does nothing. -/
theorem Stored.bounded (stored : Stored cfg recycle st whole) {high : Prop} [Decidable high] {done : Except Errno Unit × State β}
    {next : SparseFile (Projection β)}
    (result : if high then done = (.error .efbig,st) else ∃ st', done = (.ok (),st') ∧ Stored cfg recycle st' (some next)) :
    Stored cfg recycle done.2 (if high then whole else some next) := by
  split at result
  · rename_i outside
    rw [if_pos outside,result]
    exact stored
  · rename_i inside
    obtain ⟨st',eq,after⟩ := result
    rw [if_neg inside,eq]
    exact after

theorem Stored.perform (stored : Stored cfg recycle st whole) {request : Request β} (fair : asked cfg request = true) :
    Stored cfg recycle (perform cfg recycle st request) (arrayPerform cfg whole request) := by
  cases request with
  | write device bid bins =>
    simp only [asked,Bool.and_eq_true,fitsMessage_iff,List.all_eq_true,Bool.not_eq_true',List.isEmpty_eq_false_iff] at fair
    exact stored.bounded (stored.write device fair.1.1 fair.1.2.1 fair.1.2.2 fair.2 bid)
  | writeEmpty device bid nbProj =>
    simp only [asked,Bool.and_eq_true,decide_eq_true_eq] at fair
    exact stored.bounded (stored.writeEmpty device fair.1 fair.2 bid)
  | truncate device bid last =>
    exact stored.bounded (stored.truncate device bid fair)
  | read bid nbProj =>
    obtain ⟨small,few⟩ := fitsMessage_iff.mp fair
    exact (stored.read small few bid).2
  | forget => exact stored.forget
  | rmChunk chunk => cases fair
  | relocate chunk => cases fair
  | restore chunk oldDevice => cases fair

/-- In every run of writes, empty writes, truncates and reads of one file that does not exist at
first, a read returns what the array of blocks has: the blocks as they were last written, or cut,
zeros in the holes, and no more than there is up to the end of the array. -/
theorem file_is_block_array
    (run : Machine.Run (bothStep cfg recycle) (fun _ request => asked cfg request = true) (⟨none,fun _ _ => none,⟨recycle,.unknown⟩⟩,none)
      (st,whole)) (bid : Nat) {nbProj : Nat} (fits : fitsMessage cfg nbProj = true) :
    (storageRead cfg recycle bid nbProj st).1 = arrayRead cfg whole bid nbProj := by
  have stored : Stored cfg recycle st whole :=
    run.invariant (fun both => Stored cfg recycle both.1 both.2) (stored_absent recycle) fun both request both' stored fair next => by
      cases next
      exact stored.perform fair
  obtain ⟨small,few⟩ := fitsMessage_iff.mp fits
  exact (stored.read small few bid).1

end Array

/-- Two blocks are written in two chunks, and the context is dropped. A block is written in another
chunk, which is then cut off together with a part of the third one. -/
theorem file_is_block_array_straddling : ∃ st whole,
    Machine.Run (bothStep plain 0) (fun _ request => asked plain request = true) (⟨none,fun _ _ => none,⟨0,.unknown⟩⟩,none) (st,whole) ∧
    (storageRead plain 0 (2 ^ 24 - 1) 4 st).1 = .ok [⟨1,2,3,4,1,5,6⟩,⟨7,8,9,10,1,11,12⟩,0,0] ∧
    (storageRead plain 0 (2 * 2 ^ 24 + 3) 4 st).1 = .ok [0,0] := by
  have done : (Machine.exec (bothStep plain 0) (fun _ request => asked plain request = true)
      [.write id (2 ^ 24 - 1) [⟨1,2,3,4,0,5,6⟩,⟨7,8,9,10,0,11,12⟩],.forget,.write id (3 * 2 ^ 24) [0],
        .truncate 2 (2 * 2 ^ 24 + 5) ⟨0,0,0,0,none⟩] (⟨none,fun _ _ => none,⟨0,.unknown⟩⟩,none)).map
      (fun both => (arrayRead plain both.2 (2 ^ 24 - 1) 4,arrayRead plain both.2 (2 * 2 ^ 24 + 3) 4)) =
      some (.ok [⟨1,2,3,4,1,5,6⟩,⟨7,8,9,10,1,11,12⟩,0,0],.ok [0,0]) := by decide +kernel
  obtain ⟨⟨st,whole⟩,done,seen⟩ := Option.map_eq_some_iff.mp done
  obtain ⟨first,second⟩ := Prod.mk.inj seen
  have run := Machine.Run.refl.exec done
  refine ⟨st,whole,run,?_,?_⟩
  · rw [file_is_block_array run _ (by decide)]
    exact first
  · rw [file_is_block_array run _ (by decide)]
    exact second

end Rozofs.Storage
