import Rozofs.StorageHeader
import Mathlib.Data.List.Sort
import Mathlib.Order.Defs.LinearOrder

/-! Which copy of a header file `storage_read_header_file` takes, when the mapper devices of a storage
do not all have the same one. -/
namespace Rozofs.HeaderSelection
open Storage (Dev maxChunkPerFile roundupChunkNumber firstEof)
variable {φ : Type} [DecidableEq φ]

/-- `rozofs_stor_bins_file_hdr_t`: a header of version 2. -/
structure Header (φ : Type) where
  layout : Nat
  bsize : Nat
  fid : φ
  distrib : List Nat
  cid : Nat
  sid : Nat
  nbChunks : Nat
  crc32 : BitVec 32
  devFromChunk : Nat → Dev

/-- The fields of `rozofs_stor_bins_file_hdr_v0_t`, which version 1 has at the same places. -/
structure HeaderV0 (φ : Type) where
  layout : Nat
  bsize : Nat
  fid : φ
  distSetCurrent : List Nat
  devFromChunk : Nat → Dev
  crc32 : BitVec 32

/-- `rozofs_stor_bins_file_hdr_vall_t`, read by its version. -/
inductive Vall (φ : Type) where
  | v0 (header : HeaderV0 φ)
  | v1 (header : HeaderV0 φ) (cid sid : Nat)
  | v2 (header : Header φ)
  | other (version : Nat)

namespace Vall

/-- `rozofs_st_get_header_file_size`. -/
def fileSize : Vall φ → Option Nat
  | .v0 _ => some 188
  | .v1 .. => some 192
  | .v2 header => some (44 + header.nbChunks)
  | .other _ => none

def crc32 : Vall φ → BitVec 32
  | .v0 header => header.crc32
  | .v1 header _ _ => header.crc32
  | .v2 header => header.crc32
  | .other _ => 0

def clearCrc : Vall φ → Vall φ
  | .v0 header => .v0 { header with crc32 := 0 }
  | .v1 header cid sid => .v1 { header with crc32 := 0 } cid sid
  | .v2 header => .v2 { header with crc32 := 0 }
  | .other version => .other version

/-- The entries that are not on disk are filled with end of file marks. -/
def fillEof : Vall φ → Vall φ
  | .v2 header => .v2 { header with devFromChunk := fun i => if i < header.nbChunks then header.devFromChunk i else .eof }
  | vall => vall

end Vall

/-- `rozofs_st_header_from_v1_to_v2`. -/
def fromV1ToV2 (v1 : HeaderV0 φ) (cid sid : Nat) : Header φ where
  layout := v1.layout
  bsize := v1.bsize
  fid := v1.fid
  distrib := v1.distSetCurrent.take 16
  cid := cid
  sid := sid
  nbChunks := roundupChunkNumber (firstEof v1.devFromChunk)
  crc32 := 0
  devFromChunk i := if i < firstEof v1.devFromChunk then v1.devFromChunk i else .eof

/-- The storage and the FID of a request, with the checksum of the machine. -/
structure Request (φ : Type) where
  cid : Nat
  sid : Nat
  fid : φ
  updateRecycle : Bool
  crc32cCheckEnable : Bool
  fid2crc32 : φ → BitVec 32
  crc32c : BitVec 32 → Vall φ → BitVec 32
  storageTruncateRecycle : Header φ → Header φ

/-- A header file on a mapper device: what `stat` tells, and what `open` and `pread` do. -/
structure File (φ : Type) where
  size : Nat
  mtime : BitVec 64
  opens : Bool
  reads : Bool
  vall : Vall φ

inductive Errno where
  | enoent
  | enodata
  | other (n : Nat)
  deriving DecidableEq

/-- What a mapper device has for the FID. -/
inductive Copy (φ : Type) where
  | noDirectory
  | noStat (errno : Errno)
  | file (file : File φ)

/-- What `rozofs_st_header_read` returns: an error text, or nothing. -/
inductive Reading (φ : Type) where
  | error (text : String)
  | recycle (hdr : Header φ)
  | done (hdr : Header φ)

namespace Request
variable (req : Request φ)

/-- `storio_check_header_crc32`. -/
def checkHeaderCrc32 (vall : Vall φ) : Bool :=
  if !req.crc32cCheckEnable then true
  else if vall.crc32 = 0 then true
  else
    let crc := req.crc32c (req.fid2crc32 req.fid) vall.clearCrc
    vall.crc32 = if crc = 0 then 1 else crc

/-- The header in version 2; version 0 has no storage of its own. -/
def toV2 : Vall φ → Option (Header φ)
  | .v0 header => some (fromV1ToV2 header req.cid req.sid)
  | .v1 header cid sid => some (fromV1ToV2 header cid sid)
  | .v2 header => some header
  | .other _ => none

/-- The texts of the checks on the size. -/
def sizeError (nbRead : Nat) : Vall φ → Option String
  | .v0 _ => if nbRead < 188 then some "hdr0 size" else none
  | .v1 .. => if nbRead < 192 then some "hdr1 size" else none
  | .v2 header =>
    if header.nbChunks < 8 ∨ maxChunkPerFile < header.nbChunks ∨ nbRead < 44 + header.nbChunks then some "hdr2 size" else none
  | .other _ => some "hdr vers"

/-- `rozofs_st_header_read`. -/
def headerRead (file : File φ) : Reading φ :=
  let nbRead := min file.size 192
  if !file.opens then .error "open hdr read"
  else if !file.reads ∨ nbRead ≤ 1 then .error "read hdr"
  else
    match sizeError nbRead file.vall with
    | some text => .error text
    | none =>
      let vall := file.vall.fillEof
      if !req.checkHeaderCrc32 vall then .error "crc32 hdr"
      else
        match req.toV2 vall with
        | none => .error "hdr vers"
        | some hdr => if hdr.fid = req.fid then .done hdr else .recycle hdr

end Request

/-- A header file that can be used: it can be read, has the size of its version and a right checksum,
or none. -/
structure Sound (req : Request φ) (file : File φ) : Prop where
  opens : file.opens = true
  reads : file.reads = true
  size : ∃ size, file.vall.fileSize = some size ∧ size ≤ file.size
  chunks : ∀ header, file.vall = .v2 header → 8 ≤ header.nbChunks ∧ header.nbChunks ≤ maxChunkPerFile
  crc : req.checkHeaderCrc32 file.vall.fillEof = true

/-- A sound header file of the FID of the request, with its header in version 2. -/
structure Valid (req : Request φ) (file : File φ) (hdr : Header φ) : Prop where
  sound : Sound req file
  content : req.toV2 file.vall.fillEof = some hdr
  fid : hdr.fid = req.fid

/-- A sound header file of the FID with an other recycling counter. -/
structure Recycled (req : Request φ) (file : File φ) (hdr : Header φ) : Prop where
  sound : Sound req file
  content : req.toV2 file.vall.fillEof = some hdr
  fid : hdr.fid ≠ req.fid

section Reading
variable {req : Request φ} {file : File φ}

omit [DecidableEq φ] in
theorem sizeError_eq_none : Request.sizeError (min file.size 192) file.vall = none ↔
    (∃ size, file.vall.fileSize = some size ∧ size ≤ file.size) ∧
      ∀ header, file.vall = .v2 header → 8 ≤ header.nbChunks ∧ header.nbChunks ≤ maxChunkPerFile := by
  cases file.vall with
  | v0 header => simp [Request.sizeError,Vall.fileSize]
  | v1 header cid sid => simp [Request.sizeError,Vall.fileSize]
  | v2 header =>
    simp [Request.sizeError,Vall.fileSize,maxChunkPerFile]
    omega
  | other version => simp [Request.sizeError,Vall.fileSize]

omit [DecidableEq φ] in
/-- What `stat` asks for is less than any version needs. -/
theorem Sound.stat (sound : Sound req file) : 44 ≤ file.size := by
  obtain ⟨size,known,fits⟩ := sound.size
  cases h : file.vall with
  | v0 header => simp [h,Vall.fileSize] at known; omega
  | v1 header cid sid => simp [h,Vall.fileSize] at known; omega
  | v2 header => simp [h,Vall.fileSize] at known; omega
  | other version => simp [h,Vall.fileSize] at known

/-- A sound header file is read, and what is read is its header in version 2. -/
theorem Sound.headerRead (sound : Sound req file) : ∃ hdr, req.toV2 file.vall.fillEof = some hdr ∧
    req.headerRead file = if hdr.fid = req.fid then .done hdr else .recycle hdr := by
  have sized := sizeError_eq_none.mpr ⟨sound.size,sound.chunks⟩
  obtain ⟨size,known,_⟩ := sound.size
  have stat := sound.stat
  have long : ¬min file.size 192 ≤ 1 := by omega
  have some_hdr : ∃ hdr, req.toV2 file.vall.fillEof = some hdr := by
    cases h : file.vall with
    | v0 header => exact ⟨_,rfl⟩
    | v1 header cid sid => exact ⟨_,rfl⟩
    | v2 header => exact ⟨_,rfl⟩
    | other version => simp [h,Vall.fileSize] at known
  obtain ⟨hdr,converted⟩ := some_hdr
  refine ⟨hdr,converted,?_⟩
  simp only [Request.headerRead,sound.opens,sound.reads,long,sized,sound.crc,converted,Bool.not_true,Bool.false_eq_true,if_false,
    or_false]

theorem headerRead_unsound (unsound : ¬Sound req file) : ∃ text, req.headerRead file = .error text := by
  rw [Request.headerRead]
  split
  · exact ⟨_,rfl⟩
  split
  · exact ⟨_,rfl⟩
  next opens reads =>
    split
    · exact ⟨_,rfl⟩
    next sized =>
      obtain ⟨size,chunks⟩ := sizeError_eq_none.mp sized
      simp only [Bool.not_eq_true',not_or,Bool.not_eq_false] at opens reads
      have wrong : req.checkHeaderCrc32 file.vall.fillEof = false := by
        cases crc : req.checkHeaderCrc32 file.vall.fillEof with
        | false => rfl
        | true => exact absurd ⟨opens,reads.1,size,chunks,crc⟩ unsound
      simp only [wrong,Bool.not_false,if_true]
      exact ⟨_,rfl⟩

theorem headerRead_done {hdr : Header φ} : req.headerRead file = .done hdr ↔ Valid req file hdr := by
  constructor
  · intro reading
    by_cases sound : Sound req file
    · obtain ⟨own,content,outcome⟩ := sound.headerRead
      rw [reading] at outcome
      split at outcome
      · next same => cases outcome; exact ⟨sound,content,same⟩
      · cases outcome
    · obtain ⟨text,failed⟩ := headerRead_unsound sound
      cases reading.symm.trans failed
  · intro valid
    obtain ⟨own,content,outcome⟩ := valid.sound.headerRead
    cases content.symm.trans valid.content
    rw [outcome,if_pos valid.fid]

theorem headerRead_recycle {hdr : Header φ} (reading : req.headerRead file = .recycle hdr) : Recycled req file hdr := by
  by_cases sound : Sound req file
  · obtain ⟨own,content,outcome⟩ := sound.headerRead
    rw [reading] at outcome
    split at outcome
    · cases outcome
    · next other => cases outcome; exact ⟨sound,content,other⟩
  · obtain ⟨text,failed⟩ := headerRead_unsound sound
    cases reading.symm.trans failed

end Reading

/-- `rozofs_storage_dev_info_t`, with the bit of `to_repair`. -/
structure DevInfo where
  time : Nat
  result : Option Errno
  toRepair : Bool
  /-- Counted in `nb_devices`. -/
  correct : Bool
  /-- `storage_error_on_device` was called. -/
  fault : Bool

/-- The first loop, on a device. -/
def probe : Copy φ → DevInfo
  | .noDirectory => ⟨0,none,false,false,true⟩
  | .noStat errno => ⟨0,some errno,errno = .enoent,false,false⟩
  | .file file => if file.size < 44 then ⟨0,some .enodata,true,false,false⟩ else ⟨file.mtime.toNat,none,false,true,false⟩

def timeOf (devinfo : List DevInfo) (rank : Nat) : Nat := (devinfo[rank]?.map DevInfo.time).getD 0

/-- The test of the sort: `old` is not after `new`. -/
def NotAfter (devinfo : List DevInfo) (new old : Nat) : Prop := timeOf devinfo old ≤ timeOf devinfo new

instance (devinfo : List DevInfo) : DecidableRel (NotAfter devinfo) :=
  fun new old => inferInstanceAs (Decidable (timeOf devinfo old ≤ timeOf devinfo new))

/-- The ranks in the order of their times, the last first: each is put before the first one that is
not after it, and those without a time are left out. -/
def orderedIdx (devinfo : List DevInfo) : List Nat :=
  ((List.range devinfo.length).filter fun rank => timeOf devinfo rank ≠ 0).foldl
    (fun ordered new => ordered.orderedInsert (NotAfter devinfo) new) []

inductive Result where
  | ok
  | notFound
  | errors
  | otherRecyclingCounter
  deriving DecidableEq

/-- What the function leaves: its result, the header, the ranks where `storage_error_on_device` and
`storage_write_header_file` were called, and what was added to `crc_error`. -/
structure Outcome (φ : Type) where
  result : Result
  hdr : Option (Header φ)
  faults : List Nat
  repaired : List Nat
  crcErrors : Nat

/-- The ranks that the read loop could not read, the last first, and those with a wrong checksum. -/
structure Failed where
  ranks : List Nat
  crcErrors : Nat

/-- The loop on the copies, and the reading that ended it. -/
def readLoop (read : Nat → Reading φ) : List Nat → Failed → Option (Reading φ) × Failed
  | [], failed => (none,failed)
  | rank :: rest, failed =>
    match read rank with
    | .error text => readLoop read rest ⟨rank :: failed.ranks,failed.crcErrors + if text = "crc32 hdr" then 1 else 0⟩
    | reading => (some reading,failed)

/-- `rozofs_st_header_read` on the copy of a rank. -/
def readRank (req : Request φ) (copies : List (Copy φ)) (rank : Nat) : Reading φ :=
  match copies[rank]? with
  | some (.file file) => req.headerRead file
  | _ => .error "open hdr read"

/-- `storage_read_header_file`. -/
def storageReadHeaderFile (req : Request φ) (copies : List (Copy φ)) : Outcome φ :=
  let devinfo := copies.map probe
  let ranksOf := fun p : DevInfo → Bool => (List.range devinfo.length).filter fun rank => (devinfo[rank]?.map p).getD false
  let noDirectory := ranksOf DevInfo.fault
  if ∀ info ∈ devinfo, info.correct = false then
    ⟨if ∃ info ∈ devinfo, info.result = some .enoent ∨ info.result = some .enodata then .notFound else .errors,
      none,noDirectory,[],0⟩
  else
    let inFault := ranksOf fun info => info.result.isSome && info.result ≠ some .enodata && info.result ≠ some .enoent
    let tried := readLoop (readRank req copies) (orderedIdx devinfo) ⟨[],0⟩
    let faults := noDirectory ++ inFault ++ tried.2.ranks.reverse
    match tried.1 with
    | none => ⟨.errors,none,faults,[],tried.2.crcErrors⟩
    | some (.error _) => ⟨.errors,none,faults,[],tried.2.crcErrors⟩
    | some (.recycle hdr) =>
      if req.updateRecycle then
        ⟨.ok,some (req.storageTruncateRecycle { hdr with fid := req.fid }),faults,[],tried.2.crcErrors⟩
      else ⟨.otherRecyclingCounter,some hdr,faults,[],tried.2.crcErrors⟩
    | some (.done hdr) =>
      ⟨.ok,some hdr,faults,(List.range devinfo.length).filter fun rank =>
        (devinfo[rank]?.map DevInfo.toRepair).getD false || rank ∈ tried.2.ranks,tried.2.crcErrors⟩

section Order
variable {devinfo : List DevInfo}

instance : Std.Total (NotAfter devinfo) := ⟨fun new old => Nat.le_total (timeOf devinfo old) (timeOf devinfo new)⟩

instance : IsTrans Nat (NotAfter devinfo) := ⟨fun _ _ _ first second => Nat.le_trans second first⟩

/-- The loop is the insertion sort of the ranks taken from the last one on. -/
theorem orderedIdx_eq : orderedIdx devinfo =
    ((List.range devinfo.length).filter fun rank => timeOf devinfo rank ≠ 0).reverse.insertionSort (NotAfter devinfo) := by
  rw [orderedIdx,List.insertionSort,List.foldr_reverse]

theorem orderedIdx_sorted : (orderedIdx devinfo).Pairwise (NotAfter devinfo) := by
  rw [orderedIdx_eq]
  exact List.pairwise_insertionSort _ _

theorem mem_orderedIdx {rank : Nat} : rank ∈ orderedIdx devinfo ↔ timeOf devinfo rank ≠ 0 := by
  simp only [orderedIdx_eq,List.mem_insertionSort,List.mem_reverse,List.mem_filter,List.mem_range,decide_eq_true_eq,
    and_iff_right_iff_imp]
  intro timed
  by_contra outside
  apply timed
  rw [timeOf,List.getElem?_eq_none (Nat.not_lt.mp outside),Option.map_none,Option.getD_none]

end Order

section Loop
variable {read : Nat → Reading φ} {ranks : List Nat}

omit [DecidableEq φ] in
/-- The loop ends on a copy that is read, after copies that are not. -/
theorem readLoop_cases (ranks : List Nat) (failed : Failed) :
    (readLoop read ranks failed).1 = none ∧ (∀ rank ∈ ranks, ∃ text, read rank = .error text) ∨
    ∃ before rank after, ranks = before ++ rank :: after ∧ (∀ earlier ∈ before, ∃ text, read earlier = .error text) ∧
      (readLoop read ranks failed).1 = some (read rank) ∧ ∀ text, read rank ≠ .error text := by
  induction ranks generalizing failed with
  | nil => exact .inl ⟨rfl,fun _ member => absurd member List.not_mem_nil⟩
  | cons rank rest ih =>
    cases reading : read rank with
    | error text =>
      simp only [readLoop,reading]
      obtain ⟨ended,errors⟩ | ⟨before,next,after,split,errors,ended,right⟩ :=
        ih ⟨rank :: failed.ranks,failed.crcErrors + if text = "crc32 hdr" then 1 else 0⟩
      · exact .inl ⟨ended,List.forall_mem_cons.mpr ⟨⟨text,reading⟩,errors⟩⟩
      · exact .inr ⟨rank :: before,next,after,congrArg (rank :: ·) split,List.forall_mem_cons.mpr ⟨⟨text,reading⟩,errors⟩,ended,right⟩
    | recycle hdr =>
      exact .inr ⟨[],rank,rest,rfl,fun _ member => absurd member List.not_mem_nil,by simp only [readLoop,reading],by simp [reading]⟩
    | done hdr =>
      exact .inr ⟨[],rank,rest,rfl,fun _ member => absurd member List.not_mem_nil,by simp only [readLoop,reading],by simp [reading]⟩

end Loop

section Selection
variable {req : Request φ} {copies : List (Copy φ)}

/-- What the selection promises, for copies that are valid in some sense: the contents of the last
one modified, and no failure as long as there is one. -/
structure Selects (valid : File φ → Header φ → Prop) (copies : List (Copy φ)) (outcome : Outcome φ) : Prop where
  newest : ∀ file hdr, .file file ∈ copies → valid file hdr → ∃ best contents, .file best ∈ copies ∧ valid best contents ∧
    outcome.result = .ok ∧ outcome.hdr = some contents ∧
    ∀ other h, .file other ∈ copies → valid other h → other.mtime.toInt ≤ best.mtime.toInt
  absent : (outcome.result = .notFound ∨ outcome.result = .errors) ↔ ∀ file hdr, .file file ∈ copies → ¬valid file hdr

theorem readRank_done {rank : Nat} {hdr : Header φ} : readRank req copies rank = .done hdr ↔
    ∃ file, copies[rank]? = some (.file file) ∧ Valid req file hdr := by
  rw [readRank]
  split
  · next file found => simp only [found,headerRead_done,Option.some.injEq,Copy.file.injEq,exists_eq_left']
  · next missing =>
    constructor
    · intro reading
      cases reading
    · intro ⟨file,found,_⟩
      exact absurd found (missing file)

theorem readRank_recycle {rank : Nat} {hdr : Header φ} (reading : readRank req copies rank = .recycle hdr) :
    ∃ file, .file file ∈ copies ∧ Recycled req file hdr := by
  rw [readRank] at reading
  split at reading
  · next file found => exact ⟨file,List.mem_of_getElem? found,headerRead_recycle reading⟩
  · cases reading

omit [DecidableEq φ] in
/-- The time of a header file that is long enough. -/
theorem timeOf_file {rank : Nat} {file : File φ} (found : copies[rank]? = some (.file file)) (long : 44 ≤ file.size) :
    timeOf (copies.map probe) rank = file.mtime.toNat := by
  simp only [timeOf,List.getElem?_map,found,Option.map_some,Option.getD_some,probe,if_neg (Nat.not_lt.mpr long)]

omit [DecidableEq φ] in
theorem timeOf_incorrect (none : ∀ info ∈ copies.map probe, info.correct = false) (rank : Nat) :
    timeOf (copies.map probe) rank = 0 := by
  rw [timeOf,List.getElem?_map]
  cases found : copies[rank]? with
  | none => rfl
  | some copy =>
    have incorrect := none (probe copy) (List.mem_map_of_mem (List.mem_of_getElem? found))
    cases copy with
    | noDirectory => rfl
    | noStat errno => rfl
    | file file =>
      simp only [Option.map_some,Option.getD_some]
      rw [probe] at incorrect ⊢
      split at incorrect
      · next short => rw [if_pos short]
      · cases incorrect

/-- The three ends of the function: no copy is read, or the first that can be read is returned, or it has
an other recycling counter. -/
theorem storageReadHeaderFile_cases (req : Request φ) (copies : List (Copy φ)) :
    ((storageReadHeaderFile req copies).result = .notFound ∨ (storageReadHeaderFile req copies).result = .errors) ∧
      (∀ rank ∈ orderedIdx (copies.map probe), ∃ text, readRank req copies rank = .error text) ∨
    (∃ before rank after hdr, orderedIdx (copies.map probe) = before ++ rank :: after ∧
      (∀ earlier ∈ before, ∃ text, readRank req copies earlier = .error text) ∧ readRank req copies rank = .done hdr ∧
      (storageReadHeaderFile req copies).result = .ok ∧ (storageReadHeaderFile req copies).hdr = some hdr) ∨
    ∃ rank hdr, readRank req copies rank = .recycle hdr := by
  rw [storageReadHeaderFile]
  split
  · next none =>
    refine .inl ⟨?_,?_⟩
    · exact ite_eq_or_eq _ _ _
    · intro rank member
      exact absurd (timeOf_incorrect none rank) (mem_orderedIdx.mp member)
  · obtain ⟨ended,errors⟩ | ⟨before,rank,after,split,errors,ended,right⟩ :=
      @readLoop_cases φ (readRank req copies) (orderedIdx (copies.map probe)) ⟨[],0⟩
    · simp only [ended]
      exact .inl ⟨.inr trivial,errors⟩
    · simp only [ended]
      cases reading : readRank req copies rank with
      | error text => exact absurd reading (right text)
      | recycle hdr => exact .inr (.inr ⟨rank,hdr,reading⟩)
      | done hdr => exact .inr (.inl ⟨before,rank,after,hdr,split,errors,reading,rfl,rfl⟩)

theorem toInt_eq_toNat {time : BitVec 64} (positive : 0 < time.toInt) : (time.toNat : Int) = time.toInt := by
  rw [BitVec.toInt_eq_toNat_cond] at positive ⊢
  split
  · rfl
  · have := time.isLt
    omega

/-- Without a copy of an other recycling counter, and with valid copies of a time after the origin, the
contents of the newest valid copy are returned, whatever storage they name. -/
theorem newest_selected (req : Request φ) (copies : List (Copy φ))
    (dated : ∀ file hdr, .file file ∈ copies → Valid req file hdr → 0 < file.mtime.toInt)
    (same : ∀ file hdr, .file file ∈ copies → ¬Recycled req file hdr) :
    Selects (Valid req) copies (storageReadHeaderFile req copies) := by
  -- a valid copy is on the list of the loop, and is read
  have listed : ∀ file hdr, .file file ∈ copies → Valid req file hdr → ∃ rank, readRank req copies rank = .done hdr ∧
      rank ∈ orderedIdx (copies.map probe) ∧ (timeOf (copies.map probe) rank : Int) = file.mtime.toInt := by
    intro file hdr member valid
    obtain ⟨rank,found⟩ := List.mem_iff_getElem?.mp member
    have positive := dated file hdr member valid
    have time := timeOf_file found valid.sound.stat
    refine ⟨rank,readRank_done.mpr ⟨file,found,valid⟩,mem_orderedIdx.mpr ?_,?_⟩
    · have := toInt_eq_toNat positive
      omega
    · rw [time,toInt_eq_toNat positive]
  obtain ⟨failed,errors⟩ | ⟨before,rank,after,contents,order,errors,reading,ok,returned⟩ | ⟨rank,hdr,reading⟩ :=
    storageReadHeaderFile_cases req copies
  · have invalid : ∀ file hdr, .file file ∈ copies → ¬Valid req file hdr := by
      intro file hdr member valid
      obtain ⟨rank,reading,onList,_⟩ := listed file hdr member valid
      obtain ⟨text,error⟩ := errors rank onList
      cases reading.symm.trans error
    exact ⟨fun file hdr member valid => absurd valid (invalid file hdr member),fun _ => invalid,fun _ => failed⟩
  · obtain ⟨best,found,valid⟩ := readRank_done.mp reading
    have member := List.mem_of_getElem? found
    have time : (timeOf (copies.map probe) rank : Int) = best.mtime.toInt := by
      rw [timeOf_file found valid.sound.stat,toInt_eq_toNat (dated best contents member valid)]
    refine ⟨fun _ _ _ _ => ⟨best,contents,member,valid,ok,returned,?_⟩,?_⟩
    · intro other h otherMember otherValid
      obtain ⟨otherRank,otherReading,onList,otherTime⟩ := listed other h otherMember otherValid
      have sorted : (orderedIdx (copies.map probe)).Pairwise (NotAfter (copies.map probe)) := orderedIdx_sorted
      rw [order] at onList sorted
      obtain early | rfl | late : otherRank ∈ before ∨ otherRank = rank ∨ otherRank ∈ after := by
        simpa only [List.mem_append,List.mem_cons] using onList
      · obtain ⟨text,error⟩ := errors otherRank early
        cases otherReading.symm.trans error
      · omega
      · have notAfter := List.rel_of_pairwise_cons (List.pairwise_append.mp sorted).2.1 late
        rw [NotAfter] at notAfter
        omega
    · rw [ok]
      simp only [reduceCtorEq,or_self,false_iff]
      exact fun invalid => invalid best contents member valid
  · obtain ⟨file,member,recycled⟩ := readRank_recycle reading
    exact absurd recycled (same file hdr member)

/-- A request on storage 1 of cluster 1, whose two mapper devices have the header file of FID 7. The
newest names an other cluster. -/
def request : Request Nat := ⟨1,1,7,false,true,fun _ => 0,fun _ _ => 0,id⟩

def fileOf (cid : Nat) (mtime : BitVec 64) : File Nat :=
  ⟨52,mtime,true,true,.v2 ⟨0,0,7,[],cid,1,8,0,fun _ => .eof⟩⟩

def twoCopies : List (Copy Nat) := [.file (fileOf 2 20),.file (fileOf 1 10)]

theorem newest_of_two : Selects (Valid request) twoCopies (storageReadHeaderFile request twoCopies) := by
  apply newest_selected request twoCopies
  · intro file hdr member _
    obtain rfl | rfl : file = fileOf 2 20 ∨ file = fileOf 1 10 := by simpa [twoCopies] using member
    · decide
    · decide
  · intro file hdr member recycled
    have content := recycled.content
    obtain rfl | rfl : file = fileOf 2 20 ∨ file = fileOf 1 10 := by simpa [twoCopies] using member
    · cases content
      exact recycled.fid rfl
    · cases content
      exact recycled.fid rfl

/-- The header that names an other cluster is returned, though there is one of this storage. -/
theorem foreign_selected : ¬Selects (fun file hdr => Valid request file hdr ∧ hdr.cid = request.cid ∧ hdr.sid = request.sid)
    twoCopies (storageReadHeaderFile request twoCopies) := by
  intro selects
  have own : Valid request (fileOf 1 10) ⟨0,0,7,[],1,1,8,0,fun i => if i < 8 then .eof else .eof⟩ := headerRead_done.mp rfl
  obtain ⟨best,contents,_,valid,_,returned,_⟩ :=
    selects.newest (fileOf 1 10) _ (List.mem_cons_of_mem _ List.mem_cons_self) ⟨own,rfl,rfl⟩
  have other : (storageReadHeaderFile request twoCopies).hdr.map Header.cid = some 2 := by decide
  rw [returned,Option.map_some,valid.2.1] at other
  cases other

end Selection

end Rozofs.HeaderSelection
