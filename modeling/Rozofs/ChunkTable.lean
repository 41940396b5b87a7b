import Rozofs.Machine
import Rozofs.StorageFile

/-! The chunk to device table of a stored file keeps its shape through all requests, and the forms
it is kept in hold the same table. -/
namespace Rozofs.Storage
open Function (update)

/-- The first `n` entries of a table are those that are not EOF. -/
structure Shaped (table : Nat → Dev) (n : Nat) : Prop where
  small : n ≤ maxChunkPerFile
  inside : ∀ i < n, table i ≠ .eof
  beyond : ∀ i, n ≤ i → table i = .eof
  known : ∀ i, table i ≠ .unknown

/-- The last entry is a real device. -/
def Ended (table : Nat → Dev) (n : Nat) : Prop := n = 0 ∨ ∃ d, table (n - 1) = .device d

/-- A number of chunks that header files have. -/
def Rounded (nbChunks : Nat) : Prop := 4 ∣ nbChunks ∧ 8 ≤ nbChunks ∧ nbChunks ≤ maxChunkPerFile

/-- A header with `n` chunks, of which the last one may be EMPTY. -/
structure Header.Loose (hdr : Header) (n : Nat) : Prop where
  shaped : Shaped hdr.getChunk n
  fits : n ≤ hdr.nbChunks
  rounded : Rounded hdr.nbChunks

/-- A header as files have them. -/
def Header.Good (hdr : Header) : Prop := ∃ n, hdr.Loose n ∧ Ended hdr.getChunk n

section Shape
variable {table : Nat → Dev} {hdr : Header}

theorem roundup_spec (small : n ≤ maxChunkPerFile) :
    n ≤ roundupChunkNumber n ∧ Rounded (roundupChunkNumber n) := by
  have bound : maxChunkPerFile = 128 := rfl
  simp only [roundupChunkNumber,Rounded]
  split
  · omega
  · split <;> omega

theorem Shaped.lt_iff (shaped : Shaped table n) : i < n ↔ table i ≠ .eof := by
  constructor
  · exact shaped.inside i
  · intro some
    by_cases low : i < n
    · exact low
    · exact absurd (shaped.beyond i (by omega)) some

theorem Shaped.unique (first : Shaped table n) (second : Shaped table m) : n = m := by
  have same : ∀ i, i < n ↔ i < m := fun i => first.lt_iff.trans second.lt_iff.symm
  have low := same n
  have high := same m
  omega

theorem Shaped.congr (shaped : Shaped table n) (same : ∀ i, table' i = table i) : Shaped table' n := by
  cases funext same
  exact shaped

theorem firstEof_spec (devices : Nat → Dev) :
    firstEof devices ≤ maxChunkPerFile ∧ (∀ i < firstEof devices, devices i ≠ .eof) ∧
    (firstEof devices < maxChunkPerFile → devices (firstEof devices) = .eof) := by
  cases found : (List.range maxChunkPerFile).find? (fun i => devices i = .eof) with
  | none =>
    have all := List.find?_range_eq_none.mp found
    have last : firstEof devices = maxChunkPerFile := by rw [firstEof,found,Option.getD_none]
    rw [last]
    exact ⟨Nat.le_refl _,fun i low => by simpa using all i low,fun low => absurd low (Nat.lt_irrefl _)⟩
  | some first =>
    obtain ⟨here,bound,before⟩ := List.find?_range_eq_some.mp found
    have eq : firstEof devices = first := by rw [firstEof,found,Option.getD_some]
    rw [eq]
    exact ⟨Nat.le_of_lt (List.mem_range.mp bound),fun i low => by simpa using before i low,fun _ => of_decide_eq_true here⟩

theorem Shaped.firstEof (shaped : Shaped table n) : firstEof table = n := by
  obtain ⟨small,inside,stop⟩ := firstEof_spec table
  have low : ¬ Storage.firstEof table < n := by
    intro low
    exact shaped.inside _ low (stop (Nat.lt_of_lt_of_le low shaped.small))
  have high : ¬ n < Storage.firstEof table := fun high => inside n high (shaped.beyond n (Nat.le_refl n))
  omega

/-- The table that is copied up to the first end of file mark. -/
theorem shaped_firstEof {devices : Nat → Dev} (known : ∀ i < firstEof devices, devices i ≠ .unknown) :
    Shaped (fun i => if i < firstEof devices then devices i else .eof) (firstEof devices) := by
  obtain ⟨small,inside,_⟩ := firstEof_spec devices
  refine ⟨small,fun i low => ?_,fun i high => if_neg (Nat.not_lt.mpr high),fun i => ?_⟩
  · simp only [if_pos low]
    exact inside i low
  · by_cases low : i < firstEof devices
    · simp only [if_pos low]
      exact known i low
    · simp [low]

theorem getChunk_of_lt (low : i < maxChunkPerFile) : hdr.getChunk i = hdr.devFromChunk i :=
  if_neg (Nat.not_le.mpr low)

theorem getChunk_setChunk_eof (hdr : Header) (chunk i : Nat) :
    (hdr.setChunk chunk .eof).getChunk i = if i = chunk then .eof else hdr.getChunk i := by
  by_cases high : maxChunkPerFile ≤ chunk
  · rw [Header.setChunk,if_pos high]
    split
    · rename_i same
      exact if_pos (same ▸ high)
    · rfl
  · by_cases same : i = chunk
    · simp [Header.setChunk,high,Header.getChunk,same]
    · simp [Header.setChunk,high,Header.getChunk,same]

@[simp] theorem nbChunks_setChunk_eof (hdr : Header) (chunk : Nat) : (hdr.setChunk chunk .eof).nbChunks = hdr.nbChunks := by
  rw [Header.setChunk]
  split
  · rfl
  · rfl

theorem getChunk_setChunk (hdr : Header) (low : chunk < maxChunkPerFile) (some : dev ≠ .eof) (i : Nat) :
    (hdr.setChunk chunk dev).getChunk i =
      if i = chunk then dev else if i < chunk ∧ hdr.getChunk i = .eof then .empty else hdr.getChunk i := by
  rw [Header.setChunk,if_neg (Nat.not_le.mpr low),if_neg some]
  by_cases same : i = chunk
  · subst same
    simp [Header.getChunk,Nat.not_le.mpr low]
  · by_cases before : i < chunk
    · have below : ¬ maxChunkPerFile ≤ i := by omega
      simp [Header.getChunk,same,before,below]
    · simp [Header.getChunk,same,before]

theorem nbChunks_setChunk (hdr : Header) (low : chunk < maxChunkPerFile) (some : dev ≠ .eof) :
    (hdr.setChunk chunk dev).nbChunks = if hdr.nbChunks < chunk + 1 then roundupChunkNumber (chunk + 1) else hdr.nbChunks := by
  rw [Header.setChunk,if_neg (Nat.not_le.mpr low),if_neg some]

/-- A chunk gets an entry that is not EOF: the chunks before it that were EOF are EMPTY. -/
theorem Header.Loose.setChunk (loose : hdr.Loose n) (low : chunk < maxChunkPerFile) (some : dev ≠ .eof) (known : dev ≠ .unknown) :
    (hdr.setChunk chunk dev).Loose (max n (chunk + 1)) := by
  have get := getChunk_setChunk hdr low some
  have shaped := loose.shaped
  refine ⟨⟨?_,?_,?_,?_⟩,?_,?_⟩
  · have small := shaped.small
    omega
  · intro i inside
    rw [get]
    split
    · exact some
    · split
      · exact Dev.noConfusion
      · rename_i apart same
        by_cases before : i < chunk
        · exact fun eof => same ⟨before,eof⟩
        · exact shaped.inside i (by omega)
  · intro i high
    rw [get,if_neg (by omega),if_neg (by omega)]
    exact shaped.beyond i (by omega)
  · intro i
    rw [get]
    split
    · exact known
    · split
      · exact Dev.noConfusion
      · exact shaped.known i
  · have round : chunk + 1 ≤ roundupChunkNumber (chunk + 1) := (roundup_spec (Nat.succ_le_of_lt low)).1
    have fits := loose.fits
    rw [nbChunks_setChunk hdr low some]
    split <;> omega
  · rw [nbChunks_setChunk hdr low some]
    split
    · exact (roundup_spec (Nat.succ_le_of_lt low)).2
    · exact loose.rounded

/-- A chunk gets a device. The chunk after which the file ended was a device, or is this one. -/
theorem Header.Loose.setDevice (loose : hdr.Loose n) (low : chunk < maxChunkPerFile) (ended : Ended hdr.getChunk n ∨ n ≤ chunk + 1)
    (d : Nat) : (hdr.setChunk chunk (.device d)).Good := by
  refine ⟨_,loose.setChunk low Dev.noConfusion Dev.noConfusion,.inr ?_⟩
  by_cases last : n ≤ chunk + 1
  · exact ⟨d,by rw [Nat.max_eq_right last,getChunk_setChunk hdr low Dev.noConfusion,if_pos (by omega)]⟩
  · rcases ended.resolve_right last with none | ⟨other,device⟩
    · omega
    · refine ⟨other,?_⟩
      rw [Nat.max_eq_left (by omega),getChunk_setChunk hdr low Dev.noConfusion,if_neg (by omega),if_neg (by omega)]
      exact device

/-- The last chunk becomes EOF. -/
theorem Header.Loose.dropLast (loose : hdr.Loose (n + 1)) : (hdr.setChunk n .eof).Loose n := by
  have shaped := loose.shaped
  refine ⟨⟨Nat.le_of_succ_le shaped.small,?_,?_,?_⟩,?_,by rw [nbChunks_setChunk_eof]; exact loose.rounded⟩
  · intro i low
    rw [getChunk_setChunk_eof,if_neg (by omega)]
    exact shaped.inside i (by omega)
  · intro i high
    rw [getChunk_setChunk_eof]
    split
    · rfl
    · exact shaped.beyond i (by omega)
  · intro i
    rw [getChunk_setChunk_eof]
    split
    · exact Dev.noConfusion
    · exact shaped.known i
  · have fits := loose.fits
    rw [nbChunks_setChunk_eof]
    omega

theorem Shaped.device_or_empty (shaped : Shaped table n) (low : i < n) : table i = .empty ∨ ∃ d, table i = .device d := by
  cases entry : table i with
  | eof => exact absurd entry (shaped.inside i low)
  | empty => exact .inl rfl
  | unknown => exact absurd entry (shaped.known i)
  | device d => exact .inr ⟨d,rfl⟩

/-- The chunks that are EMPTY at the end become EOF. -/
theorem trimEmpty_good (loose : hdr.Loose n) : (trimEmpty n hdr).Good := by
  induction n generalizing hdr with
  | zero => exact ⟨0,loose,.inl rfl⟩
  | succ n ih =>
    rw [trimEmpty]
    split
    · rename_i other
      have device := (loose.shaped.device_or_empty (Nat.lt_succ_self n)).resolve_left other
      exact ⟨n + 1,loose,.inr device⟩
    · exact ih loose.dropLast

/-- Nothing is trimmed after the end. -/
theorem trimEmpty_beyond (loose : hdr.Loose n) (ended : Ended hdr.getChunk n) (high : n ≤ chunk) : trimEmpty chunk hdr = hdr := by
  cases chunk with
  | zero => rfl
  | succ chunk =>
    rw [trimEmpty,if_pos]
    intro empty
    rcases Nat.lt_or_eq_of_le high with later | same
    · rw [loose.shaped.beyond chunk (by omega)] at empty
      cases empty
    · subst same
      rcases ended with none | ⟨d,device⟩
      · cases none
      · rw [Nat.add_sub_cancel,empty] at device
        cases device

theorem setChunk_eof_beyond (loose : hdr.Loose n) (high : n ≤ chunk) : (hdr.setChunk chunk .eof).Loose n ∧
    ∀ i, (hdr.setChunk chunk .eof).getChunk i = hdr.getChunk i := by
  have same : ∀ i, (hdr.setChunk chunk .eof).getChunk i = hdr.getChunk i := by
    intro i
    rw [getChunk_setChunk_eof]
    split
    · rename_i eq
      rw [eq,loose.shaped.beyond chunk high]
    · rfl
  refine ⟨⟨loose.shaped.congr same,?_,?_⟩,same⟩
  · rw [nbChunks_setChunk_eof]
    exact loose.fits
  · rw [nbChunks_setChunk_eof]
    exact loose.rounded

/-- A header that is loose, with a device or nothing at its end. -/
theorem Header.Good.congr (good : hdr.Good) {hdr' : Header} (same : ∀ i, hdr'.getChunk i = hdr.getChunk i)
    (fits : ∀ n, Shaped hdr.getChunk n → n ≤ hdr'.nbChunks) (rounded : Rounded hdr'.nbChunks) : hdr'.Good := by
  obtain ⟨n,loose,ended⟩ := good
  refine ⟨n,⟨loose.shaped.congr same,fits n loose.shaped,rounded⟩,?_⟩
  rw [Ended,same]
  exact ended

/-- A chunk that is the last one or after it becomes EOF, and the EMPTY ones before it too. -/
theorem Header.Loose.cutLast (loose : hdr.Loose n) (ended : Ended hdr.getChunk n) (bound : n ≤ chunk + 1) :
    (trimEmpty chunk (hdr.setChunk chunk .eof)).Good := by
  rcases Nat.lt_or_eq_of_le bound with beyond | last
  · obtain ⟨after,same⟩ := setChunk_eof_beyond loose (Nat.le_of_lt_succ beyond)
    have still : Ended (hdr.setChunk chunk .eof).getChunk n := by
      rw [Ended,same]
      exact ended
    rw [trimEmpty_beyond after still (Nat.le_of_lt_succ beyond)]
    exact ⟨n,after,still⟩
  · subst last
    exact trimEmpty_good loose.dropLast

/-- A chunk inside the file becomes EMPTY. -/
theorem Header.Loose.emptyInner (loose : hdr.Loose n) (ended : Ended hdr.getChunk n) (low : chunk + 1 < n) :
    (hdr.setChunk chunk .empty).Good := by
  have small := loose.shaped.small
  have after : (hdr.setChunk chunk .empty).Loose (max n (chunk + 1)) :=
    loose.setChunk (by omega) Dev.noConfusion Dev.noConfusion
  rw [Nat.max_eq_left (by omega)] at after
  refine ⟨n,after,.inr ?_⟩
  rcases ended with none | ⟨d,device⟩
  · omega
  · refine ⟨d,?_⟩
    rw [getChunk_setChunk hdr (by omega) Dev.noConfusion,if_neg (by omega),if_neg (by omega)]
    exact device

/-- A relocation, unless it is of the last chunk of all with an EMPTY one before it. -/
theorem relocated_good (good : hdr.Good) (chunk : Nat)
    (fair : ¬ (chunk = maxChunkPerFile - 1 ∧ hdr.getChunk (chunk - 1) = .empty)) : (relocated chunk hdr).Good := by
  obtain ⟨n,loose,ended⟩ := good
  have small := loose.shaped.small
  rw [relocated]
  split
  · rename_i final
    have trimmed := loose.cutLast ended (show n ≤ chunk + 1 by omega)
    have same : trimEmpty chunk (hdr.setChunk chunk .eof) = hdr.setChunk chunk .eof := by
      cases chunk with
      | zero => rfl
      | succ chunk =>
        rw [trimEmpty,if_pos]
        rw [getChunk_setChunk_eof,if_neg (by omega)]
        exact fun empty => fair ⟨final,empty⟩
    rw [same] at trimmed
    exact trimmed
  · split
    · rename_i next
      have bound : ¬ chunk + 1 < n := fun low => loose.shaped.inside _ low next
      exact loose.cutLast ended (Nat.le_of_not_lt bound)
    · rename_i inner
      exact loose.emptyInner ended (loose.shaped.lt_iff.mpr inner)

/-- The number of chunks is computed again. -/
theorem Header.Good.renumber (good : hdr.Good) :
    Header.Good { hdr with nbChunks := roundupChunkNumber (firstEof hdr.getChunk) } := by
  obtain ⟨n,loose,ended⟩ := good
  obtain ⟨fits,rounded⟩ := roundup_spec loose.shaped.small
  rw [loose.shaped.firstEof]
  exact ⟨n,⟨loose.shaped,fits,rounded⟩,ended⟩

theorem restored_good (good : hdr.Good) (chunk : Nat) (known : oldDevice ≠ .unknown) : (restored chunk oldDevice hdr).Good := by
  obtain ⟨n,loose,ended⟩ := good
  have small := loose.shaped.small
  rw [restored]
  refine Header.Good.renumber ?_
  by_cases high : maxChunkPerFile ≤ chunk
  · -- nothing is set, and there is nothing to trim
    have same : ∀ dev, hdr.setChunk chunk dev = hdr := fun dev => if_pos high
    have eof : hdr.getChunk chunk = .eof := if_pos high
    simp only [same,ite_self,eof,if_true]
    rw [trimEmpty_beyond loose ended (by omega)]
    exact ⟨n,loose,ended⟩
  · have low : chunk < maxChunkPerFile := by omega
    cases oldDevice with
    | unknown => exact absurd rfl known
    | device d =>
      have here : (hdr.setChunk chunk (.device d)).getChunk chunk = .device d := by
        rw [getChunk_setChunk hdr low Dev.noConfusion,if_pos rfl]
      simp only [reduceCtorEq,false_and,if_false,here]
      exact loose.setDevice low (.inl ended) d
    | eof =>
      have next : (hdr.setChunk chunk .eof).getChunk (chunk + 1) = hdr.getChunk (chunk + 1) := by
        rw [getChunk_setChunk_eof,if_neg (by omega)]
      have here : (hdr.setChunk chunk .eof).getChunk chunk = .eof := by rw [getChunk_setChunk_eof,if_pos rfl]
      simp only [next,true_and,reduceCtorEq,false_and,if_false]
      by_cases last : chunk = maxChunkPerFile - 1 ∨ hdr.getChunk (chunk + 1) = .eof
      · have bound : n ≤ chunk + 1 := by
          rcases last with final | eof
          · omega
          · exact Nat.le_of_not_lt fun inner => loose.shaped.inside _ inner eof
        simp only [last,not_true_eq_false,if_false,here,if_true]
        exact loose.cutLast ended bound
      · have inner : chunk + 1 < n := loose.shaped.lt_iff.mpr fun eof => last (.inr eof)
        have same : ∀ i, ((hdr.setChunk chunk .eof).setChunk chunk .empty).getChunk i = (hdr.setChunk chunk .empty).getChunk i := by
          intro i
          rw [getChunk_setChunk _ low Dev.noConfusion,getChunk_setChunk_eof,getChunk_setChunk _ low Dev.noConfusion]
          by_cases eq : i = chunk
          · rw [if_pos eq,if_pos eq]
          · rw [if_neg eq,if_neg eq,if_neg eq]
        have size : ((hdr.setChunk chunk .eof).setChunk chunk .empty).nbChunks = (hdr.setChunk chunk .empty).nbChunks := by
          rw [nbChunks_setChunk _ low Dev.noConfusion,nbChunks_setChunk_eof,nbChunks_setChunk _ low Dev.noConfusion]
        have some : (hdr.setChunk chunk .empty).getChunk chunk = .empty := by
          rw [getChunk_setChunk _ low Dev.noConfusion,if_pos rfl]
        simp only [last,not_false_eq_true,if_true,same,some,reduceCtorEq,if_false]
        have good := loose.emptyInner ended inner
        refine good.congr same (fun m shaped => ?_) ?_
        · obtain ⟨m',loose',_⟩ := good
          rw [size,shaped.unique loose'.shaped]
          exact loose'.fits
        · obtain ⟨_,loose',_⟩ := good
          rw [size]
          exact loose'.rounded
    | empty =>
      have after : (hdr.setChunk chunk .empty).Loose (max n (chunk + 1)) :=
        loose.setChunk low Dev.noConfusion Dev.noConfusion
      have next : (hdr.setChunk chunk .empty).getChunk (chunk + 1) = hdr.getChunk (chunk + 1) := by
        rw [getChunk_setChunk _ low Dev.noConfusion,if_neg (by omega),if_neg (by omega)]
      simp only [next,reduceCtorEq,false_and,if_false,true_and]
      by_cases last : chunk = maxChunkPerFile - 1 ∨ hdr.getChunk (chunk + 1) = .eof
      · have bound : n ≤ chunk + 1 := by
          rcases last with final | eof
          · omega
          · exact Nat.le_of_not_lt fun inner => loose.shaped.inside _ inner eof
        have here : ((hdr.setChunk chunk .empty).setChunk chunk .eof).getChunk chunk = .eof := by
          rw [getChunk_setChunk_eof,if_pos rfl]
        rw [Nat.max_eq_right bound] at after
        simp only [last,if_true,here]
        exact trimEmpty_good after.dropLast
      · have inner : chunk + 1 < n := loose.shaped.lt_iff.mpr fun eof => last (.inr eof)
        have here : (hdr.setChunk chunk .empty).getChunk chunk = .empty := by
          rw [getChunk_setChunk _ low Dev.noConfusion,if_pos rfl]
        simp only [last,if_false,here,reduceCtorEq]
        exact loose.emptyInner ended inner

/-- The loop of a removal goes up to a chunk that is a device, or the file is empty. -/
theorem rmTrim_good (loose : hdr.Loose chunk) (found : rmTrim chunk hdr = some hdr') : hdr'.Good := by
  induction chunk generalizing hdr with
  | zero =>
    rw [rmTrim,if_pos (loose.shaped.beyond 0 (Nat.le_refl 0))] at found
    cases found
  | succ chunk ih =>
    rw [rmTrim,if_pos (loose.shaped.beyond _ (Nat.le_refl _))] at found
    rcases loose.shaped.device_or_empty (Nat.lt_succ_self chunk) with empty | ⟨d,device⟩
    · rw [if_pos empty] at found
      exact ih loose.dropLast found
    · rw [device,if_neg Dev.noConfusion] at found
      have stop : rmTrim chunk hdr = some hdr := by
        cases chunk with
        | zero => rw [rmTrim,device,if_neg Dev.noConfusion]
        | succ chunk => rw [rmTrim,device,if_neg Dev.noConfusion]
      cases stop.symm.trans found
      exact ⟨chunk + 1,loose,.inr ⟨d,device⟩⟩

/-- What is read from a header file after it is written. -/
theorem headerRead_headerWrite (rounded : Rounded hdr.nbChunks) :
    headerRead (headerWrite hdr) = some ⟨hdr.recycle,hdr.nbChunks,fun i => if i < hdr.nbChunks then hdr.devFromChunk i else .eof⟩ := by
  obtain ⟨_,low,high⟩ := rounded
  have sizes : ¬ (hdr.nbChunks < 8 ∨ maxChunkPerFile < hdr.nbChunks ∨
      ((List.range hdr.nbChunks).map hdr.devFromChunk).length < hdr.nbChunks) := by
    rw [List.length_map,List.length_range]
    omega
  rw [headerWrite,headerRead,if_neg sizes]
  congr 2
  funext i
  by_cases inside : i < hdr.nbChunks
  · simp [inside,List.getD]
  · simp [inside]

/-- The table that is read from a header file is the one that was written. -/
theorem Header.Loose.reread (loose : hdr.Loose n) : ∃ hdr', headerRead (headerWrite hdr) = some hdr' ∧
    hdr'.nbChunks = hdr.nbChunks ∧ hdr'.recycle = hdr.recycle ∧ ∀ i, hdr'.getChunk i = hdr.getChunk i := by
  refine ⟨_,headerRead_headerWrite loose.rounded,rfl,rfl,fun i => ?_⟩
  by_cases inside : i < hdr.nbChunks
  · simp only [Header.getChunk,inside,if_true]
  · have fits := loose.fits
    rw [loose.shaped.beyond i (by omega)]
    simp only [Header.getChunk,inside,if_false,ite_self]

/-- The table of the FID context is the one that was stored there. -/
theorem Header.Loose.getDev_store (loose : hdr.Loose n) (ctx : FidCtx) (i : Nat) :
    getDev (storeToCtx hdr.nbChunks hdr.devFromChunk ctx) i = hdr.getChunk i := by
  have fits := loose.fits
  have small := loose.shaped.small
  rw [storeToCtx,getDev]
  split
  · rename_i unknown
    split at unknown <;> cases unknown
  · rename_i devices same
    split at same
    · rename_i few
      cases same
      split
      · exact (loose.shaped.beyond i (by omega)).symm
      · rename_i low
        exact (getChunk_of_lt (by simp only [maxChunkPerFile,maxSmallArrayChunk] at low ⊢; omega)).symm
    · cases same
  · rename_i devices same
    split at same
    · cases same
    · cases same
      rfl

/-- The header made from the FID context has the table of the context. -/
theorem readFromCtx_good {ctx : FidCtx} (known : ctx.devices ≠ .unknown) (shaped : Shaped (getDev ctx) n)
    (ended : Ended (getDev ctx) n) (recycle : BitVec 2) :
    Header.Good ⟨recycle,(readFromCtx ctx).1,(readFromCtx ctx).2⟩ ∧
    ∀ i, Header.getChunk ⟨recycle,(readFromCtx ctx).1,(readFromCtx ctx).2⟩ i = getDev ctx i := by
  have small := shaped.small
  have same : n ≤ (readFromCtx ctx).1 ∧ Rounded (readFromCtx ctx).1 ∧
      ∀ i, Header.getChunk ⟨recycle,(readFromCtx ctx).1,(readFromCtx ctx).2⟩ i = getDev ctx i := by
    cases form : ctx.devices with
    | unknown => exact absurd form known
    | small devices =>
      have few : n ≤ maxSmallArrayChunk + 1 := by
        by_cases more : maxSmallArrayChunk + 1 < n
        · refine absurd ?_ (shaped.inside (maxSmallArrayChunk + 1) more)
          rw [getDev,form]
          exact if_pos (Nat.lt_succ_self _)
        · omega
      have wide : maxSmallArrayChunk + 1 ≤ maxChunkPerFile := by decide
      have numbers := roundup_spec wide
      simp only [readFromCtx,form]
      refine ⟨Nat.le_trans few numbers.1,numbers.2,fun i => ?_⟩
      simp only [Header.getChunk,getDev,form]
      by_cases low : i < maxSmallArrayChunk + 1
      · rw [if_neg (by omega),if_pos low,if_neg (by omega)]
      · rw [if_neg low,ite_self,if_pos (by omega)]
    | big devices =>
      have within : ∀ i, i < maxChunkPerFile → getDev ctx i = devices i := by
        intro i low
        rw [getDev,form]
        exact if_neg (Nat.not_le.mpr low)
      have stop : firstEof devices = n := by
        obtain ⟨bound,inside,last⟩ := firstEof_spec devices
        have low : ¬ firstEof devices < n := by
          intro low
          have here := last (by omega)
          rw [← within _ (by omega)] at here
          exact shaped.inside _ low here
        have high : ¬ n < firstEof devices := by
          intro high
          refine inside n high ?_
          rw [← within n (by omega)]
          exact shaped.beyond n (Nat.le_refl n)
        omega
      have numbers := roundup_spec small
      simp only [readFromCtx,form,stop]
      refine ⟨numbers.1,numbers.2,fun i => ?_⟩
      by_cases low : i < n
      · simp only [Header.getChunk,low,if_true]
        rw [if_neg (by omega),within i (by omega)]
      · simp only [Header.getChunk,low,if_false,ite_self]
        exact (shaped.beyond i (by omega)).symm
  obtain ⟨fits,rounded,table⟩ := same
  refine ⟨⟨n,⟨shaped.congr table,fits,rounded⟩,?_⟩,table⟩
  rw [Ended,table]
  exact ended

/-- The chunks after the first are EOF after a recycling. -/
theorem getChunk_recycleChunks [Zero β] (st : State β) (count start : Nat) (inside : ∀ i, start ≤ i → i < n → hdr.getChunk i ≠ .eof)
    (beyond : ∀ i, n ≤ i → hdr.getChunk i = .eof) (all : n ≤ start + count) (i : Nat) :
    (recycleChunks (List.range' start count) hdr st).1.getChunk i = if start ≤ i then .eof else hdr.getChunk i := by
  induction count generalizing start hdr st with
  | zero =>
    simp only [List.range'_zero,recycleChunks]
    split
    · exact beyond i (by omega)
    · rfl
  | succ count ih =>
    rw [List.range'_succ,recycleChunks]
    split
    · rename_i eof
      have last : n ≤ start := Nat.le_of_not_lt fun low => inside start (Nat.le_refl _) low eof
      split
      · exact beyond i (by omega)
      · rfl
    · rw [ih]
      · rw [getChunk_setChunk_eof]
        by_cases later : start + 1 ≤ i
        · rw [if_pos later,if_pos (by omega)]
        · rw [if_neg later]
          by_cases same : i = start
          · rw [if_pos same,if_pos (by omega)]
          · rw [if_neg same,if_neg (by omega)]
      · intro j high low
        rw [getChunk_setChunk_eof,if_neg (by omega)]
        exact inside j (by omega) low
      · intro j high
        rw [getChunk_setChunk_eof]
        split
        · rfl
        · exact beyond j high
      · omega

@[simp] theorem recycle_setChunk (hdr : Header) (chunk : Nat) (dev : Dev) : (hdr.setChunk chunk dev).recycle = hdr.recycle := by
  rw [Header.setChunk]
  split
  · rfl
  · split
    · rfl
    · rfl

theorem init_loose (recycle : BitVec 2) : (Header.init recycle).Loose 0 := by
  refine ⟨⟨Nat.zero_le _,fun i low => absurd low (Nat.not_lt_zero i),fun i _ => ite_self _,fun i => ?_⟩,Nat.zero_le _,?_⟩
  · simp [Header.init,Header.getChunk]
  · exact ⟨⟨2,rfl⟩,Nat.le_refl 8,show 8 ≤ maxChunkPerFile by decide⟩

theorem Header.Loose.relabel (loose : hdr.Loose n) (recycle : BitVec 2) : Header.Loose { hdr with recycle := recycle } n :=
  ⟨loose.shaped,loose.fits,loose.rounded⟩

theorem recycle_recycleChunks [Zero β] (hdr : Header) (st : State β) (chunks : List Nat) :
    (recycleChunks chunks hdr st).1.recycle = hdr.recycle ∧ (recycleChunks chunks hdr st).2.ctx = st.ctx := by
  induction chunks generalizing hdr st with
  | nil => exact ⟨rfl,rfl⟩
  | cons chunk rest ih =>
    have same := recycle_setChunk hdr chunk .eof
    have ctx : ∀ dev, (rmDataChunk dev chunk st).ctx = st.ctx := by
      intro dev
      cases dev <;> rfl
    rw [recycleChunks]
    split
    · exact ⟨rfl,rfl⟩
    · rw [← same,← ctx]
      exact ih _ _

end Shape

section Requests
variable {β : Type} [Zero β] {st st' : State β} {hdr : Header}

theorem recycleFirst_ctx (cfg : Config β) (dev : Dev) (st : State β) : (recycleFirst cfg dev st).ctx = st.ctx := by
  cases dev with
  | device d =>
    simp only [recycleFirst]
    split
    · rfl
    · split
      · rfl
      · rfl
  | _ => rfl

/-- A file is recycled: it has one chunk, or none. -/
theorem truncateRecycle_spec (cfg : Config β) (loose : hdr.Loose n) (st : State β) :
    (∃ m ≤ 1, (truncateRecycle cfg hdr st).1.Loose m) ∧ (truncateRecycle cfg hdr st).1.getChunk 0 = hdr.getChunk 0 ∧
    (truncateRecycle cfg hdr st).1.recycle = hdr.recycle ∧
    (truncateRecycle cfg hdr st).2.header = some (headerWrite (truncateRecycle cfg hdr st).1) ∧
    (truncateRecycle cfg hdr st).2.ctx = st.ctx := by
  have fits := loose.fits
  have numbers := roundup_spec (show 1 ≤ maxChunkPerFile by decide)
  obtain ⟨recycle,ctx⟩ := recycle_recycleChunks hdr (recycleFirst cfg (hdr.getChunk 0) st) (List.range' 1 (hdr.nbChunks - 1))
  have get : ∀ i, (truncateRecycle cfg hdr st).1.getChunk i = if 1 ≤ i then .eof else hdr.getChunk i :=
    getChunk_recycleChunks (recycleFirst cfg (hdr.getChunk 0) st) (hdr.nbChunks - 1) 1
      (fun i _ low => loose.shaped.inside i low) loose.shaped.beyond (by omega)
  refine ⟨⟨min n 1,Nat.min_le_right n 1,⟨⟨?_,?_,?_,?_⟩,?_,numbers.2⟩⟩,?_,recycle,rfl,ctx.trans (recycleFirst_ctx _ _ _)⟩
  · exact Nat.le_trans (Nat.min_le_right n 1) (by decide)
  · intro i low
    rw [get,if_neg (by omega)]
    exact loose.shaped.inside i (by omega)
  · intro i high
    rw [get]
    split
    · rfl
    · exact loose.shaped.beyond i (by omega)
  · intro i
    rw [get]
    split
    · exact Dev.noConfusion
    · exact loose.shaped.known i
  · exact Nat.le_trans (Nat.min_le_right n 1) numbers.1
  · rw [get,if_neg (by omega)]

/-- The tables on disk and in the context. -/
structure Tabled (st : State β) : Prop where
  disk : ∀ file, st.header = some file → ∃ hdr, headerRead file = some hdr ∧ hdr.Good
  ctx : st.ctx.devices ≠ .unknown → ∃ n, Shaped (getDev st.ctx) n ∧ Ended (getDev st.ctx) n

/-- What reading the header file gives. -/
theorem readHeaderFile_cases (tabled : Tabled st) (cfg : Config β) (recycle : BitVec 2) (update : Bool) :
    st.header = none ∧ readHeaderFile cfg recycle update st = (.notFound,st) ∨
    ∃ file hdr, st.header = some file ∧ headerRead file = some hdr ∧ hdr.Good ∧
      (hdr.recycle = recycle ∧ readHeaderFile cfg recycle update st = (.ok hdr,st) ∨
      hdr.recycle ≠ recycle ∧ update = false ∧ readHeaderFile cfg recycle update st = (.otherRecyclingCounter hdr,st) ∨
      hdr.recycle ≠ recycle ∧ update = true ∧ readHeaderFile cfg recycle update st =
        (.ok (truncateRecycle cfg { hdr with recycle := recycle } st).1,(truncateRecycle cfg { hdr with recycle := recycle } st).2)) := by
  cases disk : st.header with
  | none => exact .inl ⟨rfl,by rw [readHeaderFile,disk]⟩
  | some file =>
    obtain ⟨hdr,read,good⟩ := tabled.disk file disk
    refine .inr ⟨file,hdr,rfl,read,good,?_⟩
    by_cases same : hdr.recycle = recycle
    · exact .inl ⟨same,by simp only [readHeaderFile,disk,read,if_pos same]⟩
    · refine .inr ?_
      cases update with
      | false => exact .inl ⟨same,rfl,by simp only [readHeaderFile,disk,read,if_neg same]; rfl⟩
      | true => exact .inr ⟨same,rfl,by simp only [readHeaderFile,disk,read,if_neg same]; rfl⟩

theorem Header.Good.loose (good : hdr.Good) : ∃ n, hdr.Loose n := by
  obtain ⟨n,loose,_⟩ := good
  exact ⟨n,loose⟩

/-- A good header is written. -/
theorem Header.Good.written (good : hdr.Good) (file : HeaderFile) (same : some (headerWrite hdr) = some file) :
    ∃ hdr', headerRead file = some hdr' ∧ hdr'.Good := by
  cases same
  obtain ⟨n,loose,ended⟩ := good
  obtain ⟨hdr',read,number,-,table⟩ := loose.reread
  refine ⟨hdr',read,n,⟨loose.shaped.congr table,number ▸ loose.fits,number ▸ loose.rounded⟩,?_⟩
  rw [Ended,table]
  exact ended

/-- A good header is stored in the context. -/
theorem Header.Good.stored (good : hdr.Good) : ∃ n, Shaped (getDev (storeCtx hdr st).ctx) n ∧ Ended (getDev (storeCtx hdr st).ctx) n := by
  obtain ⟨n,loose,ended⟩ := good
  have same := loose.getDev_store st.ctx
  refine ⟨n,loose.shaped.congr same,?_⟩
  rw [Ended,storeCtx,same]
  exact ended

theorem Header.Loose.good_of_device (loose : hdr.Loose n) (one : n ≤ 1) (device : hdr.getChunk chunk = .device d) : hdr.Good := by
  have low : chunk < n := loose.shaped.lt_iff.mpr (by rw [device]; exact Dev.noConfusion)
  have first : chunk = 0 := by omega
  subst first
  refine ⟨n,loose,.inr ⟨d,?_⟩⟩
  rw [show n - 1 = 0 by omega]
  exact device

/-- A device is found or allocated for a chunk that is written. -/
theorem Tabled.devMap (tabled : Tabled st) (cfg : Config β) (recycle : BitVec 2) (low : chunk < maxChunkPerFile) (device : Nat) :
    Tabled (devMapDistributionWrite cfg recycle chunk device st).2 ∧
    ∀ d hdr, (devMapDistributionWrite cfg recycle chunk device st).1 = some (d,some hdr) → hdr.Good := by
  have allocate : ∀ (hdr : Header) (st' : State β), st'.ctx = st.ctx → (∃ n, hdr.Loose n ∧ (Ended hdr.getChunk n ∨ n ≤ chunk + 1)) →
      Tabled (writeAllHeaderFiles (hdr.setChunk chunk (.device device)) st') ∧ (hdr.setChunk chunk (.device device)).Good := by
    rintro hdr st' ctx ⟨n,loose,ended⟩
    have good := loose.setDevice low ended device
    exact ⟨⟨good.written,fun known => ctx ▸ tabled.ctx (ctx ▸ known)⟩,good⟩
  have found : ∀ (hdr : Header) (st' : State β), st'.ctx = st.ctx → hdr.Good →
      (∀ file, st'.header = some file → ∃ hdr, headerRead file = some hdr ∧ hdr.Good) → Tabled (storeCtx hdr st') :=
    fun hdr st' ctx good disk => ⟨disk,fun _ => good.stored⟩
  rw [devMapDistributionWrite]
  rcases readHeaderFile_cases tabled cfg recycle true with ⟨none,eq⟩ | ⟨file,hdr,disk,read,good,same | other | recycled⟩
  · simp only [eq]
    obtain ⟨kept,good⟩ := allocate (.init recycle) st rfl ⟨0,init_loose recycle,.inl (.inl rfl)⟩
    refine ⟨kept,fun d hdr eq => ?_⟩
    cases eq
    exact good
  · simp only [same.2]
    obtain ⟨n,loose,ended⟩ := good
    cases entry : hdr.getChunk chunk with
    | device d => exact ⟨found hdr st rfl ⟨n,loose,ended⟩ tabled.disk,fun d hdr eq => by cases eq⟩
    | _ =>
      obtain ⟨kept,good⟩ := allocate hdr st rfl ⟨n,loose,.inl ended⟩
      refine ⟨kept,fun d hdr eq => ?_⟩
      cases eq
      exact good
  · cases other.2.1
  · simp only [recycled.2.2]
    obtain ⟨n,loose,-⟩ := good
    obtain ⟨⟨m,one,loose⟩,-,-,disk,ctx⟩ := truncateRecycle_spec cfg (loose.relabel recycle) st
    generalize truncateRecycle cfg { hdr with recycle := recycle } st = next at loose disk ctx
    cases entry : next.1.getChunk chunk with
    | device d =>
      have good := loose.good_of_device one entry
      refine ⟨found next.1 next.2 ctx good fun file same => ?_,fun d hdr eq => by cases eq⟩
      exact good.written file (disk.symm.trans same)
    | _ =>
      obtain ⟨kept,good⟩ := allocate next.1 next.2 ctx ⟨m,loose,.inr (by omega)⟩
      refine ⟨kept,fun d hdr eq => ?_⟩
      cases eq
      exact good

/-- The outcome of an edit is stored, whether the edit fails or not. -/
theorem Tabled.edited (tabled : Tabled st) (edit : SparseFile (Projection β) → Except Errno (SparseFile (Projection β)))
    (chunk d : Nat) (file : SparseFile (Projection β)) :
    Tabled (match edit file with
      | .ok file => ((.ok (),setData d chunk (some file) st) : Except Errno Unit × State β)
      | .error e => (.error e,setData d chunk (some file) st)).2 := by
  split
  · exact ⟨tabled.disk,tabled.ctx⟩
  · exact ⟨tabled.disk,tabled.ctx⟩

/-- A chunk whose device is searched is written. -/
theorem Tabled.searched (tabled : Tabled st) (cfg : Config β) (recycle : BitVec 2) (low : chunk < maxChunkPerFile) (device : Nat)
    (edit : SparseFile (Projection β) → Except Errno (SparseFile (Projection β))) :
    Tabled (match devMapDistributionWrite cfg recycle chunk device st with
      | (none,st) => ((.error .eio,st) : Except Errno Unit × State β)
      | (some (d,copy),st) =>
        let (result,st) := match edit (openFile d chunk st) with
          | .ok file => ((.ok (),setData d chunk (some file) st) : Except Errno Unit × State β)
          | .error e => (.error e,setData d chunk (some (openFile d chunk st)) st)
        match copy with
        | none => (result,st)
        | some hdr => (result,storeCtx hdr st)).2 := by
  obtain ⟨mapped,copied⟩ := tabled.devMap cfg recycle low device
  generalize devMapDistributionWrite cfg recycle chunk device st = outcome at mapped copied
  obtain ⟨_ | ⟨d,copy⟩,next⟩ := outcome
  · exact mapped
  · have after := mapped.edited edit chunk d (openFile d chunk next)
    cases copy with
    | none => exact after
    | some hdr => exact ⟨after.disk,fun _ => (copied d hdr rfl).stored⟩

/-- A chunk is written. -/
theorem Tabled.writeChunkWith (tabled : Tabled st) (cfg : Config β) (recycle : BitVec 2) (low : chunk < maxChunkPerFile) (device : Nat)
    (edit : SparseFile (Projection β) → Except Errno (SparseFile (Projection β))) :
    Tabled (writeChunkWith cfg recycle chunk device edit st).2 := by
  rw [Storage.writeChunkWith]
  split
  · split
    · exact tabled.edited edit chunk _ _
    · exact tabled.searched cfg recycle low device edit
  · exact tabled.searched cfg recycle low device edit

/-- A request is written chunk by chunk. -/
theorem Tabled.writeWith (tabled : Tabled st) (cfg : Config β) (bid nbProj : Nat)
    {part : (chunk bid start nbProj : Nat) → State β → Except Errno Unit × State β}
    (keep : ∀ st chunk bid start nbProj, Tabled st → chunk < maxChunkPerFile → Tabled (part chunk bid start nbProj st).2) :
    Tabled (writeWith cfg bid nbProj part st).2 := by
  rw [Storage.writeWith]
  simp only
  split
  · exact tabled
  · rename_i high
    split
    · exact keep st _ _ _ _ tabled (by omega)
    · split
      · exact tabled
      · rename_i next
        have first := keep st (bid / blockPerChunk cfg.bsize) (bid - bid / blockPerChunk cfg.bsize * blockPerChunk cfg.bsize) 0
          (blockPerChunk cfg.bsize - (bid - bid / blockPerChunk cfg.bsize * blockPerChunk cfg.bsize)) tabled (by omega)
        split
        · rename_i done
          rw [done] at first
          exact first
        · rename_i done
          rw [done] at first
          exact keep _ _ _ _ _ first (by omega)

theorem Tabled.readChunk (tabled : Tabled st) (cfg : Config β) (recycle : BitVec 2) (chunk bid nbProj : Nat) :
    Tabled (readChunk cfg recycle chunk bid nbProj st).2 := by
  rw [Storage.readChunk]
  split
  · exact tabled
  · rw [readChunkFromHeader]
    rcases readHeaderFile_cases tabled cfg recycle false with ⟨none,eq⟩ | ⟨file,hdr,disk,read,good,same | other | recycled⟩
    · simp only [eq]
      exact tabled
    · simp only [same.2]
      exact ⟨tabled.disk,fun _ => good.stored⟩
    · simp only [other.2.2]
      exact ⟨tabled.disk,fun _ => good.stored⟩
    · cases recycled.2.1

theorem Tabled.read (tabled : Tabled st) (cfg : Config β) (recycle : BitVec 2) (bid nbProj : Nat) :
    Tabled (storageRead cfg recycle bid nbProj st).2 := by
  rw [storageRead]
  simp only
  split
  · exact tabled
  · split
    · have first := tabled.readChunk cfg recycle (bid / blockPerChunk cfg.bsize)
        (bid - bid / blockPerChunk cfg.bsize * blockPerChunk cfg.bsize) nbProj
      split
      · rename_i done
        rw [done] at first
        exact first
      · rename_i done
        rw [done] at first
        exact first
    · have first := tabled.readChunk cfg recycle (bid / blockPerChunk cfg.bsize)
        (bid - bid / blockPerChunk cfg.bsize * blockPerChunk cfg.bsize)
        (blockPerChunk cfg.bsize - (bid - bid / blockPerChunk cfg.bsize * blockPerChunk cfg.bsize))
      split
      · rename_i done
        rw [done] at first
        exact first
      · rename_i bins next done
        rw [done] at first
        split
        · exact first
        · have second := first.readChunk cfg recycle (bid / blockPerChunk cfg.bsize + 1) 0
            (nbProj - (blockPerChunk cfg.bsize - (bid - bid / blockPerChunk cfg.bsize * blockPerChunk cfg.bsize)))
          split
          · rename_i done
            rw [done] at second
            exact second
          · rename_i done
            rw [done] at second
            exact second

/-- The chunks after the one that is cut are EOF. -/
theorem getChunk_truncateChunks (count start : Nat) (hdr : Header) (st : State β) (rewrite : Bool) (i : Nat) :
    (truncateChunks (List.range' start count) hdr st rewrite).1.1.getChunk i =
      if start ≤ i ∧ i < start + count then .eof else hdr.getChunk i := by
  induction count generalizing start hdr st rewrite with
  | zero => rw [List.range'_zero,truncateChunks,if_neg (by omega)]
  | succ count ih =>
    rw [List.range'_succ,truncateChunks]
    split
    · rename_i eof
      rw [ih]
      by_cases same : i = start
      · rw [if_neg (by omega),if_pos (by omega),same,eof]
      · by_cases later : start + 1 ≤ i ∧ i < start + 1 + count
        · rw [if_pos later,if_pos (by omega)]
        · rw [if_neg later,if_neg (by omega)]
    · rw [ih,getChunk_setChunk_eof]
      by_cases same : i = start
      · rw [if_neg (by omega),if_pos same,if_pos (by omega)]
      · by_cases later : start + 1 ≤ i ∧ i < start + 1 + count
        · rw [if_pos later,if_pos (by omega)]
        · rw [if_neg later,if_neg same,if_neg (by omega)]

/-- After the chunks behind `chunk` are cut, the table ends there. -/
theorem getChunk_cut (chunk : Nat) (hdr : Header) (st : State β) (rewrite : Bool) (i : Nat) :
    (truncateChunks (List.range' (chunk + 1) (maxChunkPerFile - (chunk + 1))) hdr st rewrite).1.1.getChunk i =
      if chunk < i then .eof else hdr.getChunk i := by
  rw [getChunk_truncateChunks]
  by_cases later : chunk < i
  · rw [if_pos later]
    by_cases inside : i < maxChunkPerFile
    · rw [if_pos (by omega)]
    · rw [if_neg (by omega)]
      exact if_pos (Nat.le_of_not_lt inside)
  · rw [if_neg later,if_neg (by omega)]

theorem truncateChunks_frame (chunks : List Nat) (hdr : Header) (st : State β) (rewrite : Bool) :
    (truncateChunks chunks hdr st rewrite).1.1.nbChunks = hdr.nbChunks ∧
    (truncateChunks chunks hdr st rewrite).1.1.recycle = hdr.recycle ∧
    (truncateChunks chunks hdr st rewrite).1.2.header = st.header ∧
    (truncateChunks chunks hdr st rewrite).1.2.ctx = st.ctx ∧
    (rewrite = true → (truncateChunks chunks hdr st rewrite).2 = true) := by
  induction chunks generalizing hdr st rewrite with
  | nil => exact ⟨rfl,rfl,rfl,rfl,id⟩
  | cons chunk rest ih =>
    rw [truncateChunks]
    split
    · exact ih hdr st rewrite
    · rename_i dev _
      obtain ⟨number,recycle,header,ctx,flag⟩ := ih (hdr.setChunk chunk .eof) (rmDataChunk (hdr.getChunk chunk) chunk st) true
      refine ⟨number.trans (nbChunks_setChunk_eof hdr chunk),recycle.trans (recycle_setChunk hdr chunk .eof),?_,?_,fun _ => flag rfl⟩
      · rw [header]
        cases hdr.getChunk chunk <;> rfl
      · rw [ctx]
        cases hdr.getChunk chunk <;> rfl

/-- The header that a truncate request starts from. -/
theorem Tabled.truncateHeader (tabled : Tabled st) (cfg : Config β) (recycle : BitVec 2)
    (eq : truncateHeader cfg recycle st = (some (hdr,rewrite),st')) :
    ∃ n, hdr.Loose n ∧ (Ended hdr.getChunk n ∧ (∀ file, st'.header = some file → ∃ hdr, headerRead file = some hdr ∧ hdr.Good) ∨
      n ≤ 1 ∧ st'.header = some (headerWrite hdr)) := by
  rw [Storage.truncateHeader] at eq
  split at eq
  · rcases readHeaderFile_cases tabled cfg recycle true with ⟨none,read⟩ | ⟨file,old,disk,decode,good,same | other | recycled⟩
    · simp only [read] at eq
      cases eq
      exact ⟨0,init_loose recycle,.inl ⟨.inl rfl,tabled.disk⟩⟩
    · simp only [same.2] at eq
      cases eq
      obtain ⟨n,loose,ended⟩ := good
      exact ⟨n,loose,.inl ⟨ended,tabled.disk⟩⟩
    · cases other.2.1
    · simp only [recycled.2.2] at eq
      cases eq
      obtain ⟨n,loose,-⟩ := good
      obtain ⟨⟨m,one,loose⟩,-,-,disk,-⟩ := truncateRecycle_spec cfg (loose.relabel recycle) st
      exact ⟨m,loose,.inr ⟨one,disk⟩⟩
  · rename_i known
    obtain ⟨n,shaped,ended⟩ := tabled.ctx known
    obtain ⟨⟨m,loose,ended⟩,-⟩ := readFromCtx_good known shaped ended recycle
    split at eq
    · obtain ⟨⟨m,one,loose⟩,-,-,disk,-⟩ := truncateRecycle_spec cfg loose { st with ctx := { st.ctx with recycleCpt := recycle } }
      cases eq
      exact ⟨m,loose,.inr ⟨one,disk⟩⟩
    · cases eq
      exact ⟨m,loose,.inl ⟨ended,tabled.disk⟩⟩

/-- The table ends with the chunk that is cut, which is a device. -/
theorem Header.Loose.cutAfter (loose : hdr.Loose n) (device : hdr.getChunk chunk = .device d) {hdr' : Header}
    (table : ∀ i, hdr'.getChunk i = if chunk + 1 ≤ i then .eof else hdr.getChunk i)
    (number : hdr'.nbChunks = roundupChunkNumber (chunk + 1)) : hdr'.Good := by
  have low : chunk < n := loose.shaped.lt_iff.mpr (by rw [device]; exact Dev.noConfusion)
  have small := loose.shaped.small
  obtain ⟨fits,rounded⟩ := roundup_spec (show chunk + 1 ≤ maxChunkPerFile by omega)
  refine ⟨chunk + 1,⟨⟨by omega,?_,?_,?_⟩,number ▸ fits,number ▸ rounded⟩,.inr ⟨d,?_⟩⟩
  · intro i inside
    rw [table,if_neg (by omega)]
    exact loose.shaped.inside i (by omega)
  · intro i high
    rw [table,if_pos high]
  · intro i
    rw [table]
    split
    · exact Dev.noConfusion
    · exact loose.shaped.known i
  · rw [table,if_neg (by omega)]
    exact device

theorem truncateDevice_spec (loose : hdr.Loose n) (low : chunk < maxChunkPerFile) (device : Nat) (rewrite : Bool) :
    (∃ m, (truncateDevice chunk device hdr rewrite).2.1.Loose m ∧
      (truncateDevice chunk device hdr rewrite).2.1.getChunk chunk = .device (truncateDevice chunk device hdr rewrite).1) ∧
    ((truncateDevice chunk device hdr rewrite).2.2 = false → (truncateDevice chunk device hdr rewrite).2.1 = hdr ∧ rewrite = false) := by
  have set : ∃ m, (hdr.setChunk chunk (.device device)).Loose m ∧ (hdr.setChunk chunk (.device device)).getChunk chunk = .device device :=
    ⟨_,loose.setChunk low Dev.noConfusion Dev.noConfusion,by rw [getChunk_setChunk hdr low Dev.noConfusion,if_pos rfl]⟩
  rw [truncateDevice]
  cases entry : hdr.getChunk chunk with
  | device d => exact ⟨⟨n,loose,entry⟩,fun same => ⟨rfl,same⟩⟩
  | _ => exact ⟨set,fun flag => by cases flag⟩

theorem Tabled.truncateHeader_none (tabled : Tabled st) (eq : Storage.truncateHeader cfg recycle st = (none,st')) : Tabled st' := by
  rw [Storage.truncateHeader] at eq
  split at eq
  · rcases readHeaderFile_cases tabled cfg recycle true with ⟨none,read⟩ | ⟨file,old,disk,decode,good,same | other | recycled⟩
    · simp only [read] at eq
      cases eq
    · simp only [same.2] at eq
      cases eq
    · cases other.2.1
    · simp only [recycled.2.2] at eq
      cases eq
  · split at eq <;> cases eq

/-- The header after the truncate request. It is written, or it is the one it started from. -/
theorem truncateKnown_spec (cfg : Config β) (loose : hdr.Loose n) (low : chunk < maxChunkPerFile) (bid device : Nat) (last : LastBlock β)
    (rewrite : Bool) (st : State β) :
    ∃ hdr' : Header, hdr'.Good ∧
      (truncateKnown cfg chunk bid device last hdr rewrite st).ctx = storeToCtx hdr'.nbChunks hdr'.devFromChunk st.ctx ∧
      ((truncateKnown cfg chunk bid device last hdr rewrite st).header = some (headerWrite hdr') ∨
        (truncateKnown cfg chunk bid device last hdr rewrite st).header = st.header ∧ ∃ d, hdr.getChunk chunk = .device d) := by
  obtain ⟨⟨m,loose',entry⟩,kept⟩ := truncateDevice_spec loose low device rewrite
  rw [truncateKnown]
  generalize truncateDevice chunk device hdr rewrite = target at loose' entry kept
  obtain ⟨d,hdr',rewrite'⟩ := target
  simp only at loose' entry kept ⊢
  have table := getChunk_cut chunk
    { hdr' with nbChunks := roundupChunkNumber (chunk + 1) }
    (setData d chunk (some (truncateFile cfg bid last (openFile d chunk st))) st) rewrite'
  have frame := truncateChunks_frame (List.range' (chunk + 1) (maxChunkPerFile - (chunk + 1)))
    { hdr' with nbChunks := roundupChunkNumber (chunk + 1) }
    (setData d chunk (some (truncateFile cfg bid last (openFile d chunk st))) st) rewrite'
  generalize truncateChunks (List.range' (chunk + 1) (maxChunkPerFile - (chunk + 1)))
    { hdr' with nbChunks := roundupChunkNumber (chunk + 1) }
    (setData d chunk (some (truncateFile cfg bid last (openFile d chunk st))) st) rewrite' = cut at table frame
  obtain ⟨⟨hdr'',next⟩,rewrite''⟩ := cut
  obtain ⟨number,-,header,ctx,flag⟩ := frame
  simp only at table number header ctx flag ⊢
  have good : hdr''.Good := by
    refine loose'.cutAfter entry (fun i => ?_) number
    rw [table]
    rfl
  refine ⟨hdr'',good,?_,?_⟩
  · have kept : next.ctx = st.ctx := ctx
    rw [← kept]
    cases rewrite'' <;> rfl
  · cases rewrite'' with
    | true => exact .inl rfl
    | false =>
      have same : rewrite' = false := by
        cases rewrite' with
        | false => rfl
        | true => cases flag rfl
      obtain ⟨rfl,-⟩ := kept same
      exact .inr ⟨header,d,entry⟩

theorem Tabled.truncate (tabled : Tabled st) (cfg : Config β) (recycle : BitVec 2) (device bid : Nat) (last : LastBlock β) :
    Tabled (storageTruncate cfg recycle device bid last st).2 := by
  rw [storageTruncate]
  split
  · exact tabled
  · rename_i high
    rcases start : Storage.truncateHeader cfg recycle st with ⟨_ | ⟨hdr,rewrite⟩,next⟩
    · exact tabled.truncateHeader_none start
    · obtain ⟨n,loose,origin⟩ := tabled.truncateHeader cfg recycle start
      obtain ⟨hdr',good,ctx,header⟩ := truncateKnown_spec cfg loose (Nat.lt_of_not_le high)
        (bid - bid / blockPerChunk cfg.bsize * blockPerChunk cfg.bsize) device last rewrite next
      refine ⟨fun file disk => ?_,fun _ => ?_⟩
      · rcases header with written | ⟨same,d,entry⟩
        · exact good.written file (written.symm.trans disk)
        · rcases origin with ⟨-,kept⟩ | ⟨one,recycled⟩
          · exact kept file (same.symm.trans disk)
          · exact (loose.good_of_device one entry).written file (recycled.symm.trans (same.symm.trans disk))
      · simp only [ctx]
        exact good.stored

theorem Tabled.rmKnownChunk (tabled : Tabled st) (good : hdr.Good) (same : ∀ i, getDev st.ctx i = hdr.getChunk i) (chunk : Nat) :
    Tabled (rmKnownChunk chunk hdr st) := by
  obtain ⟨n,loose,ended⟩ := good
  rw [Storage.rmKnownChunk]
  split
  · rename_i d entry
    rw [same] at entry
    have low : chunk < n := loose.shaped.lt_iff.mpr (by rw [entry]; exact Dev.noConfusion)
    have small := loose.shaped.small
    have trimmed : ∀ hdr', rmTrim chunk (hdr.setChunk chunk
        (if maxChunkPerFile ≤ chunk + 1 ∨ getDev st.ctx (chunk + 1) = .eof then .eof else .empty)) = some hdr' → hdr'.Good := by
      intro hdr' found
      split at found
      · rename_i final
        have bound : n = chunk + 1 := by
          rcases final with top | next
          · omega
          · rw [same] at next
            have stop : ¬ chunk + 1 < n := fun inner => loose.shaped.inside _ inner next
            omega
        subst bound
        exact rmTrim_good loose.dropLast found
      · rename_i inner
        have inside : chunk + 1 < n := by
          rw [not_or,same] at inner
          exact loose.shaped.lt_iff.mpr inner.2
        have here : (hdr.setChunk chunk .empty).getChunk chunk ≠ .eof := by
          rw [getChunk_setChunk hdr (by omega) Dev.noConfusion,if_pos rfl]
          exact Dev.noConfusion
        have stop : rmTrim chunk (hdr.setChunk chunk .empty) = some (hdr.setChunk chunk .empty) := by
          cases chunk with
          | zero => rw [rmTrim,if_neg here]
          | succ chunk => rw [rmTrim,if_neg here]
        cases stop.symm.trans found
        exact loose.emptyInner ended inside
    simp only
    split
    · exact ⟨fun file disk => (by cases disk),tabled.ctx⟩
    · rename_i found
      have good := trimmed _ found
      exact ⟨good.written,fun _ => good.stored⟩
  · exact tabled

theorem Tabled.rmChunk (tabled : Tabled st) (cfg : Config β) (recycle : BitVec 2) (chunk : Nat) :
    Tabled (rmChunk cfg recycle chunk st).2 := by
  have loaded : ∀ hdr : Header, hdr.Good → Tabled (Storage.rmKnownChunk chunk hdr (storeCtx hdr st)) := by
    intro hdr good
    have stored : Tabled (storeCtx hdr st) := ⟨tabled.disk,fun _ => good.stored⟩
    obtain ⟨n,loose,ended⟩ := good
    exact stored.rmKnownChunk ⟨n,loose,ended⟩ (loose.getDev_store st.ctx) chunk
  rw [Storage.rmChunk]
  split
  · rcases readHeaderFile_cases tabled cfg recycle false with ⟨none,eq⟩ | ⟨file,hdr,disk,read,good,same | other | recycled⟩
    · simp only [eq]
      exact tabled
    · simp only [same.2]
      exact loaded hdr good
    · simp only [other.2.2]
      exact loaded hdr good
    · cases recycled.2.1
  · rename_i known
    obtain ⟨n,shaped,ended⟩ := tabled.ctx known
    obtain ⟨good,table⟩ := readFromCtx_good known shaped ended recycle
    exact tabled.rmKnownChunk good (fun i => (table i).symm) chunk

/-- The requests that find the header file and rewrite it. -/
theorem Header.Good.rewritten (good : hdr.Good) (st : State β) : Tabled (writeAllHeaderFiles hdr (storeCtx hdr st)) :=
  ⟨good.written,fun _ => good.stored⟩

theorem Tabled.freeMapping (tabled : Tabled st) : Tabled { st with ctx := freeDevMapping st.ctx } :=
  ⟨tabled.disk,fun known => absurd rfl known⟩

end Requests

section Runs
variable {β : Type} [Zero β] {st st' : State β} {cfg : Config β}

/-- Requests for one file of a storage. Its context may be dropped or its devices forgotten. -/
inductive Request (β : Type) where
  | write (device : Nat → Nat) (bid : Nat) (bins : List (Projection β))
  | writeEmpty (device : Nat → Nat) (bid nbProj : Nat)
  | truncate (device bid : Nat) (last : LastBlock β)
  | read (bid nbProj : Nat)
  | rmChunk (chunk : Nat)
  | relocate (chunk : Nat)
  | restore (chunk : Nat) (oldDevice : Dev)
  | forget

/-- A request, with the recycle counter of its FID. -/
def perform (cfg : Config β) (recycle : BitVec 2) (st : State β) : Request β → State β
  | .write device bid bins => (storageWrite cfg recycle device bid bins st).2
  | .writeEmpty device bid nbProj => (storageWriteEmpty cfg recycle device bid nbProj st).2
  | .truncate device bid last => (storageTruncate cfg recycle device bid last st).2
  | .read bid nbProj => (storageRead cfg recycle bid nbProj st).2
  | .rmChunk chunk => (rmChunk cfg recycle chunk st).2
  | .relocate chunk => (relocateChunk cfg recycle chunk st).2
  | .restore chunk oldDevice => restoreChunk cfg recycle chunk oldDevice st
  | .forget => { st with ctx := ⟨recycle,.unknown⟩ }

def step (cfg : Config β) (request : BitVec 2 × Request β) (st : State β) : Option (State β) :=
  some (perform cfg request.1 st request.2)

/-- The relocation of the last chunk of all when the one before is EMPTY, and one that finds a
header of another recycle counter whose first chunk is EMPTY, leave an EMPTY chunk at the end. -/
def trims (recycle : BitVec 2) (chunk : Nat) (hdr : Header) : Bool :=
  if hdr.recycle = recycle then !(chunk = maxChunkPerFile - 1 && hdr.getChunk (chunk - 1) = .empty)
  else chunk = 0 || hdr.getChunk 0 ≠ .empty

def trimmed (st : State β) (request : BitVec 2 × Request β) : Bool :=
  match request.2 with
  | .relocate chunk => ((st.header.bind headerRead).map (trims request.1 chunk)).getD true
  | .restore _ oldDevice => oldDevice ≠ .unknown
  | _ => true

/-- The file does not exist, or it has the header file of an older version. -/
def Origin (st : State β) : Prop :=
  st.ctx.devices = .unknown ∧ ∀ file, st.header = some file → ∃ recycle devices,
    (file = .v0 recycle devices ∨ file = .v1 recycle devices) ∧
    (∀ i < firstEof devices, devices i ≠ .unknown) ∧ Ended devices (firstEof devices)

theorem tabled_origin (origin : Origin st) : Tabled st := by
  obtain ⟨unknown,disk⟩ := origin
  refine ⟨fun file header => ?_,fun known => absurd unknown known⟩
  obtain ⟨recycle,devices,version,known,ended⟩ := disk file header
  have bound := (firstEof_spec devices).1
  have table : ∀ i, (fromV1ToV2 recycle devices).getChunk i = if i < firstEof devices then devices i else .eof := by
    intro i
    rw [Header.getChunk]
    split
    · rw [if_neg (by omega)]
    · rfl
  obtain ⟨fits,rounded⟩ := roundup_spec bound
  refine ⟨fromV1ToV2 recycle devices,by rcases version with rfl | rfl <;> rfl,firstEof devices,?_,?_⟩
  · exact ⟨(shaped_firstEof known).congr table,fits,rounded⟩
  · rcases ended with none | ⟨d,device⟩
    · exact .inl none
    · by_cases some : firstEof devices = 0
      · exact .inl some
      · refine .inr ⟨d,?_⟩
        rw [table,if_pos (by omega)]
        exact device

/-- A header that was recycled is relocated. -/
theorem relocated_recycled (loose : hdr.Loose n) (one : n ≤ 1) (fair : chunk = 0 ∨ hdr.getChunk 0 ≠ .empty) :
    (relocated chunk hdr).Good := by
  have next : hdr.getChunk (chunk + 1) = .eof := loose.shaped.beyond _ (by omega)
  by_cases first : chunk = 0
  · subst first
    rw [relocated,if_neg (by decide),if_pos next]
    by_cases some : n = 1
    · subst some
      exact trimEmpty_good loose.dropLast
    · have none : n = 0 := by omega
      subst none
      exact ⟨0,(setChunk_eof_beyond loose (Nat.le_refl 0)).1,.inl rfl⟩
  · have good : hdr.Good := by
      by_cases some : n = 1
      · subst some
        obtain ⟨d,device⟩ := (loose.shaped.device_or_empty Nat.one_pos).resolve_left (fair.resolve_left first)
        exact loose.good_of_device (Nat.le_refl 1) device
      · exact ⟨n,loose,.inl (by omega)⟩
    refine relocated_good good chunk fun last => ?_
    have top : chunk = 127 := last.1
    rw [loose.shaped.beyond (chunk - 1) (by omega)] at last
    cases last.2

theorem Tabled.relocate (tabled : Tabled st) (fair : trimmed st (recycle,.relocate chunk) = true) :
    Tabled (relocateChunk cfg recycle chunk st).2 := by
  rw [relocateChunk]
  rcases readHeaderFile_cases tabled cfg recycle true with ⟨none,eq⟩ | ⟨file,hdr,disk,read,good,same | other | recycled⟩
  · simp only [eq]
    exact tabled.freeMapping
  · simp only [same.2]
    have fair : trims recycle chunk hdr = true := by simpa [trimmed,disk,read] using fair
    refine (relocated_good good chunk fun last => ?_).rewritten _
    simp [trims,same.1,last.1,last.1 ▸ last.2] at fair
  · cases other.2.1
  · simp only [recycled.2.2]
    have fair : trims recycle chunk hdr = true := by simpa [trimmed,disk,read] using fair
    obtain ⟨n,loose,-⟩ := good
    obtain ⟨⟨m,one,loose⟩,first,-⟩ := truncateRecycle_spec cfg (loose.relabel recycle) st
    refine (relocated_recycled loose one ?_).rewritten _
    have same : Header.getChunk { hdr with recycle := recycle } 0 = hdr.getChunk 0 := rfl
    rw [first,same]
    simpa [trims,recycled.1] using fair

theorem Tabled.restore (tabled : Tabled st) (known : oldDevice ≠ .unknown) :
    Tabled (restoreChunk cfg recycle chunk oldDevice st) := by
  rw [restoreChunk]
  rcases readHeaderFile_cases tabled cfg recycle false with ⟨none,eq⟩ | ⟨file,hdr,disk,read,good,same | other | recycled⟩
  · simp only [eq]
    exact tabled.freeMapping
  · simp only [same.2]
    exact (restored_good good chunk known).rewritten _
  · simp only [other.2.2]
    exact tabled
  · cases recycled.2.1

theorem tabled_step (tabled : Tabled st) (request : BitVec 2 × Request β) (fair : trimmed st request = true)
    (next : step cfg request st = some st') : Tabled st' := by
  cases next
  obtain ⟨recycle,request⟩ := request
  cases request with
  | write device bid bins =>
    exact tabled.writeWith cfg bid bins.length fun st chunk bid start nbProj tabled low => tabled.writeChunkWith cfg recycle low _ _
  | writeEmpty device bid nbProj =>
    exact tabled.writeWith cfg bid nbProj fun st chunk bid start nbProj tabled low => tabled.writeChunkWith cfg recycle low _ _
  | truncate device bid last => exact tabled.truncate cfg recycle device bid last
  | read bid nbProj => exact tabled.read cfg recycle bid nbProj
  | rmChunk chunk => exact tabled.rmChunk cfg recycle chunk
  | relocate chunk => exact tabled.relocate fair
  | restore chunk oldDevice => exact tabled.restore (of_decide_eq_true fair)
  | forget => exact ⟨tabled.disk,fun known => absurd rfl known⟩

/-- In every run, the header file, if there is one, can be read. The entries that are not EOF come
first and the last of them is a device; entries from `nbChunks` on are EOF, and `nbChunks` is a
multiple of 4 from 8 to 128. The table is the same when it is written to disk and read again, and
when it is stored in the FID context and looked up or read there. -/
theorem chunk_table_sound (origin : Origin start)
    (run : Machine.Run (step cfg) (fun st request => trimmed st request = true) start st) (header : st.header = some file) :
    ∃ hdr, headerRead file = some hdr ∧
    (∃ n ≤ maxChunkPerFile, (∀ i < n, hdr.getChunk i ≠ .eof) ∧ (∀ i, n ≤ i → hdr.getChunk i = .eof) ∧
      (n = 0 ∨ ∃ d, hdr.getChunk (n - 1) = .device d)) ∧
    (∀ i, hdr.nbChunks ≤ i → hdr.getChunk i = .eof) ∧
    4 ∣ hdr.nbChunks ∧ 8 ≤ hdr.nbChunks ∧ hdr.nbChunks ≤ maxChunkPerFile ∧
    (∃ hdr', headerRead (headerWrite hdr) = some hdr' ∧ hdr'.nbChunks = hdr.nbChunks ∧ ∀ i, hdr'.getChunk i = hdr.getChunk i) ∧
    ∀ ctx recycle i, getDev (storeToCtx hdr.nbChunks hdr.devFromChunk ctx) i = hdr.getChunk i ∧
      Header.getChunk ⟨recycle,(readFromCtx (storeToCtx hdr.nbChunks hdr.devFromChunk ctx)).1,
        (readFromCtx (storeToCtx hdr.nbChunks hdr.devFromChunk ctx)).2⟩ i = hdr.getChunk i := by
  have tabled : Tabled st :=
    run.invariant Tabled (tabled_origin origin) fun st request st' tabled fair next => tabled_step tabled request fair next
  obtain ⟨hdr,read,n,loose,ended⟩ := tabled.disk file header
  obtain ⟨four,low,high⟩ := loose.rounded
  refine ⟨hdr,read,⟨n,loose.shaped.small,loose.shaped.inside,loose.shaped.beyond,ended⟩,?_,four,low,high,?_,?_⟩
  · intro i beyond
    exact loose.shaped.beyond i (Nat.le_trans loose.fits beyond)
  · obtain ⟨hdr',again,number,-,table⟩ := loose.reread
    exact ⟨hdr',again,number,table⟩
  · intro ctx recycle i
    have same := loose.getDev_store ctx
    have known : (storeToCtx hdr.nbChunks hdr.devFromChunk ctx).devices ≠ .unknown := by
      rw [storeToCtx]
      simp only
      split <;> exact Mapping.noConfusion
    have ended : Ended (getDev (storeToCtx hdr.nbChunks hdr.devFromChunk ctx)) n := by
      rw [Ended,same]
      exact ended
    obtain ⟨-,table⟩ := readFromCtx_good known (loose.shaped.congr same) ended recycle
    exact ⟨same i,(table i).trans (same i)⟩

end Runs

/-- A file that does not exist. -/
def absent : State Nat := ⟨none,fun _ _ => none,⟨0,.unknown⟩⟩

def plain : Config Nat := ⟨.bsize4K,false,false,0,true,true,0,fun _ _ => 0⟩

/-- Block 1 of chunk 9 and block 0 of chunk 2 are written; chunk 9 is then relocated. -/
theorem chunk_table_sound_holes : ∃ st file hdr, Machine.Run (step plain) (fun st request => trimmed st request = true) absent st ∧
    st.header = some file ∧ headerRead file = some hdr ∧ hdr.nbChunks = 12 ∧
    (List.range 12).map hdr.getChunk = [.empty,.empty,.device 6] ++ List.replicate 9 .eof ∧
    ∀ ctx i, getDev (storeToCtx hdr.nbChunks hdr.devFromChunk ctx) i = hdr.getChunk i := by
  have done : (Machine.exec (step plain) (fun st request => trimmed st request = true)
      [(0,.write (fun _ => 5) (9 * 2 ^ 24 + 1) [0]),(0,.forget),(0,.write (fun _ => 6) (2 * 2 ^ 24) [0]),(0,.relocate 9)] absent).map
      (fun st => (st.header.bind headerRead).map fun hdr => (hdr.nbChunks,(List.range 12).map hdr.getChunk)) =
      some (some (12,[.empty,.empty,.device 6] ++ List.replicate 9 .eof)) := by decide +kernel
  obtain ⟨st,done,seen⟩ := Option.map_eq_some_iff.mp done
  obtain ⟨hdr,read,seen⟩ := Option.map_eq_some_iff.mp seen
  obtain ⟨file,header,read⟩ := Option.bind_eq_some_iff.mp read
  obtain ⟨number,table⟩ := Prod.mk.inj seen
  have origin : Origin absent := ⟨rfl,fun file none => (by cases none)⟩
  have run : Machine.Run (step plain) (fun st request => trimmed st request = true) absent st := Machine.Run.refl.exec done
  obtain ⟨hdr',again,-,-,-,-,-,-,stored⟩ := chunk_table_sound origin run header
  cases read.symm.trans again
  exact ⟨st,file,hdr,run,header,read,number,table,fun ctx i => (stored ctx 0 i).1⟩

/-- The last chunk of all is written, then relocated: EMPTY chunks are left at the end. -/
theorem last_chunk_not_trimmed : ∃ st file hdr, Origin absent ∧ Machine.Run (step plain) (fun _ _ => True) absent st ∧
    st.header = some file ∧ headerRead file = some hdr ∧ hdr.getChunk 126 = .empty ∧ ∀ i, 127 ≤ i → hdr.getChunk i = .eof := by
  have done : (Machine.exec (step plain) (fun _ _ => True)
      [(0,.write (fun _ => 5) (127 * 2 ^ 24) [0]),(0,.relocate 127)] absent).map
      (fun st => (st.header.bind headerRead).map fun hdr => (hdr.getChunk 126,hdr.getChunk 127)) =
      some (some (.empty,.eof)) := by decide +kernel
  obtain ⟨st,done,seen⟩ := Option.map_eq_some_iff.mp done
  obtain ⟨hdr,read,seen⟩ := Option.map_eq_some_iff.mp seen
  obtain ⟨file,header,read⟩ := Option.bind_eq_some_iff.mp read
  obtain ⟨before,last⟩ := Prod.mk.inj seen
  refine ⟨st,file,hdr,⟨rfl,fun file none => (by cases none)⟩,Machine.Run.refl.exec done,header,read,before,fun i high => ?_⟩
  by_cases top : i = 127
  · rw [top,last]
  · exact if_pos (show 128 ≤ i by omega)

end Rozofs.Storage
