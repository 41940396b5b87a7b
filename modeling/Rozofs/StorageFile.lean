import Rozofs.Layout
import Rozofs.SparseFile
import Rozofs.StorageHeader
import Mathlib.Algebra.Order.Ring.Int

/-! A stored file, as `storage.c` and `storage.h` keep it on one storage: a header file and one
data file for each chunk, on the device that the table has for it. There is no I/O error, so that
the header file, which is on several devices, is one. A device that is chosen for a new chunk is
an argument. Data files are in projections, as on disk. -/
namespace Rozofs.Storage
open Function (update)

inductive Errno where
  | enoent
  | efbig
  | eio
  | espipe
  deriving DecidableEq

/-- A projection on disk: `rozofs_stor_bins_hdr_t`, the bins and the foot. The CRC32 is in `filler`. -/
structure Projection (β : Type) where
  timestamp : BitVec 64
  effectiveLength : BitVec 16
  projectionId : BitVec 8
  version : BitVec 8
  filler : BitVec 32
  bins : β
  foot : BitVec 64
  deriving DecidableEq

instance [Zero β] : Zero (Projection β) := ⟨0,0,0,0,0,0,0⟩

/-- The configuration of a storage and the file. `vect` tells that projections are smaller on disk
than in messages. `fidCrc` is `fid2crc32` of the FID, without its recycle counter. -/
structure Config (β : Type) where
  bsize : BSize
  spare : Bool
  vect : Bool
  recycleTruncateBlocks : Nat
  generate : Bool
  check : Bool
  fidCrc : BitVec 32
  crc32c : BitVec 32 → Projection β → BitVec 32

/-- `ROZOFS_MAX_BLOCK_PER_MSG`. -/
def maxBlockPerMsg : Nat := 129

/-- `ROZOFS_STORAGE_NB_BLOCK_PER_CHUNK`. -/
def blockPerChunk (bsize : BSize) : Nat := 2 ^ 43 / maxChunkPerFile / bsize.bytes

section Crc
variable {β : Type}

/-- The CRC32 of a projection at a block of its chunk. -/
def Config.crcOf (cfg : Config β) (bid : Nat) (p : Projection β) : BitVec 32 :=
  let crc := cfg.crc32c (cfg.fidCrc + BitVec.ofNat 32 bid) { p with filler := 0 }
  if crc = 0 then 1 else crc

/-- A projection with its CRC32. -/
def stamp (cfg : Config β) (vect : Bool) (bid : Nat) (p : Projection β) : Projection β :=
  if cfg.generate then { p with filler := cfg.crcOf bid p } else if vect then { p with filler := 0 } else p

/-- `storio_gen_crc32` and `storio_gen_crc32_vect`. -/
def genCrc32 (cfg : Config β) (vect : Bool) (bid : Nat) : List (Projection β) → List (Projection β)
  | [] => []
  | p :: rest => stamp cfg vect bid p :: genCrc32 cfg vect (bid + 1) rest

/-- The projection identifier of a projection whose CRC32 is wrong is 0xFF. -/
def checkProjection (cfg : Config β) (bid : Nat) (p : Projection β) : Projection β :=
  if p.filler ≠ cfg.crcOf bid p then { p with projectionId := 0xFF } else p

/-- `storio_check_crc32`, which does not go on to the next projection after one without CRC32, and
`storio_check_crc32_vect`. -/
def checkCrc32 (cfg : Config β) (bid : Nat) : List (Projection β) → List (Projection β)
  | [] => []
  | p :: rest =>
    if !cfg.check then p :: rest
    else if p.filler = 0 then p :: if cfg.vect then checkCrc32 cfg (bid + 1) rest else rest
    else checkProjection cfg bid p :: checkCrc32 cfg (bid + 1) rest

end Crc

structure State (β : Type) [Zero β] where
  header : Option HeaderFile
  /-- The data file of a chunk on a device. -/
  data : Nat → Nat → Option (SparseFile (Projection β))
  ctx : FidCtx

section File
variable {β : Type} [Zero β]

def setData (device chunk : Nat) (file : Option (SparseFile (Projection β))) (st : State β) : State β :=
  { st with data := update st.data device (update (st.data device) chunk file) }

/-- `storage_rm_data_chunk`. -/
def rmDataChunk (dev : Dev) (chunk : Nat) (st : State β) : State β :=
  match dev with
  | .device d => setData d chunk none st
  | _ => st

/-- `open` with `O_CREAT`. -/
def openFile (device chunk : Nat) (st : State β) : SparseFile (Projection β) :=
  (st.data device chunk).getD .empty

/-- `storage_write_all_header_files`. -/
def writeAllHeaderFiles (hdr : Header) (st : State β) : State β := { st with header := some (headerWrite hdr) }

def storeCtx (hdr : Header) (st : State β) : State β :=
  { st with ctx := storeToCtx hdr.nbChunks hdr.devFromChunk st.ctx }

/-- The chunks after the first are removed up to the end of file mark. -/
def recycleChunks : List Nat → Header → State β → Header × State β
  | [], hdr, st => (hdr,st)
  | chunk :: rest, hdr, st =>
    match hdr.getChunk chunk with
    | .eof => (hdr,st)
    | dev => recycleChunks rest (hdr.setChunk chunk .eof) (rmDataChunk dev chunk st)

/-- The first chunk is truncated, to some blocks when the configuration tells so. -/
def recycleFirst (cfg : Config β) (dev : Dev) (st : State β) : State β :=
  match dev with
  | .device d =>
    let file := openFile d 0 st
    if cfg.spare ∨ cfg.recycleTruncateBlocks = 0 then setData d 0 (some (file.ftruncate 0)) st
    else if cfg.recycleTruncateBlocks < file.size then setData d 0 (some (file.ftruncate cfg.recycleTruncateBlocks)) st
    else setData d 0 (some file) st
  | _ => st

/-- `storage_truncate_recycle`. -/
def truncateRecycle (cfg : Config β) (hdr : Header) (st : State β) : Header × State β :=
  let next := recycleChunks (List.range' 1 (hdr.nbChunks - 1)) hdr (recycleFirst cfg (hdr.getChunk 0) st)
  let hdr := { next.1 with nbChunks := roundupChunkNumber 1 }
  (hdr,writeAllHeaderFiles hdr next.2)

/-- `STORAGE_READ_HDR_RESULT_E`. -/
inductive ReadHdrResult where
  | errors
  | notFound
  | ok (hdr : Header)
  | otherRecyclingCounter (hdr : Header)

/-- `storage_read_header_file`. -/
def readHeaderFile (cfg : Config β) (recycle : BitVec 2) (updateRecycle : Bool) (st : State β) : ReadHdrResult × State β :=
  match st.header with
  | none => (.notFound,st)
  | some file =>
    match headerRead file with
    | none => (.errors,st)
    | some hdr =>
      if hdr.recycle = recycle then (.ok hdr,st)
      else if updateRecycle then
        let (hdr,st) := truncateRecycle cfg { hdr with recycle := recycle } st
        (.ok hdr,st)
      else (.otherRecyclingCounter hdr,st)

/-- `storage_dev_map_distribution_write` for a chunk whose device is not known: the device, and
the header to copy to the FID context after the write. -/
def devMapDistributionWrite (cfg : Config β) (recycle : BitVec 2) (chunk device : Nat) (st : State β) :
    Option (Nat × Option Header) × State β :=
  let allocate := fun (hdr : Header) (st : State β) =>
    let hdr := hdr.setChunk chunk (.device device)
    (some (device,some hdr),writeAllHeaderFiles hdr st)
  match readHeaderFile cfg recycle true st with
  | (.ok hdr,st) =>
    match hdr.getChunk chunk with
    | .device d => (some (d,none),storeCtx hdr st)
    | _ => allocate hdr st
  | (.notFound,st) => allocate (.init recycle) st
  | (_,st) => (none,st)

/-- `storage_write_chunk` and `storage_write_chunk_empty`, with what they write in the data file. -/
def writeChunkWith (cfg : Config β) (recycle : BitVec 2) (chunk device : Nat)
    (edit : SparseFile (Projection β) → Except Errno (SparseFile (Projection β))) (st : State β) : Except Errno Unit × State β :=
  let store := fun (d : Nat) (file : SparseFile (Projection β)) (st : State β) =>
    match edit file with
    | .ok file => (.ok (),setData d chunk (some file) st)
    | .error e => (.error e,setData d chunk (some file) st)
  -- the location of the file is not known, or the file is not there
  let search := fun (st : State β) =>
    match devMapDistributionWrite cfg recycle chunk device st with
    | (none,st) => (.error .eio,st)
    | (some (d,copy),st) =>
      let (result,st) := store d (openFile d chunk st) st
      match copy with
      | none => (result,st)
      | some hdr => (result,storeCtx hdr st)
  match getDev st.ctx chunk with
  | .device d =>
    match st.data d chunk with
    | some file => store d file st
    | none => search st
  | _ => search st

/-- `storage_write_chunk`. -/
def writeChunk (cfg : Config β) (recycle : BitVec 2) (chunk device bid : Nat) (bins : List (Projection β)) (st : State β) :
    Except Errno Unit × State β :=
  writeChunkWith cfg recycle chunk device (fun file =>
    if cfg.vect ∧ 2 * maxBlockPerMsg < bins.length then .error .espipe
    else .ok (file.pwrite bid (genCrc32 cfg cfg.vect bid bins))) st

/-- `storage_write_chunk_empty`. -/
def writeChunkEmpty (cfg : Config β) (recycle : BitVec 2) (chunk device bid nbProj : Nat) (st : State β) :
    Except Errno Unit × State β :=
  writeChunkWith cfg recycle chunk device (fun file =>
    if file.size ≤ bid then .ok (file.ftruncate (bid + nbProj))
    else if 2 * maxBlockPerMsg < nbProj then .error .espipe
    else .ok (file.pwrite bid (List.replicate nbProj 0))) st

/-- `storage_write` and `storage_write_empty`: a request is in one chunk or in two. `part` writes a
number of blocks from one on of the request, at a block of a chunk. -/
def writeWith (cfg : Config β) (inputBid inputNbProj : Nat)
    (part : (chunk bid start nbProj : Nat) → State β → Except Errno Unit × State β) (st : State β) : Except Errno Unit × State β :=
  let chunk := inputBid / blockPerChunk cfg.bsize
  if maxChunkPerFile ≤ chunk then (.error .efbig,st)
  else
    let bid := inputBid - chunk * blockPerChunk cfg.bsize
    if bid + inputNbProj ≤ blockPerChunk cfg.bsize then part chunk bid 0 inputNbProj st
    else if maxChunkPerFile ≤ chunk + 1 then (.error .efbig,st)
    else
      let nbProj := blockPerChunk cfg.bsize - bid
      match part chunk bid 0 nbProj st with
      | (.error e,st) => (.error e,st)
      | (.ok (),st) => part (chunk + 1) 0 nbProj (inputNbProj - nbProj) st

/-- `storage_write`. `device` has the device that a chunk gets when it is new. -/
def storageWrite (cfg : Config β) (recycle : BitVec 2) (device : Nat → Nat) (inputBid : Nat) (bins : List (Projection β))
    (st : State β) : Except Errno Unit × State β :=
  writeWith cfg inputBid bins.length (fun chunk bid start nbProj =>
    writeChunk cfg recycle chunk (device chunk) bid ((bins.drop start).take nbProj)) st

/-- `storage_write_empty`. -/
def storageWriteEmpty (cfg : Config β) (recycle : BitVec 2) (device : Nat → Nat) (inputBid inputNbProj : Nat) (st : State β) :
    Except Errno Unit × State β :=
  writeWith cfg inputBid inputNbProj (fun chunk bid _ nbProj =>
    writeChunkEmpty cfg recycle chunk (device chunk) bid nbProj) st

/-- What `storage_read_chunk` reads at the device of the chunk, `none` when there is no data file. -/
def readDev (cfg : Config β) (dev : Dev) (chunk bid nbProj : Nat) (st : State β) : Option (Except Errno (List (Projection β))) :=
  match dev with
  | .eof => some (.ok [])
  | .empty => some (.ok (List.replicate nbProj 0))
  | .unknown => none
  | .device d => (st.data d chunk).map fun file =>
    if cfg.vect ∧ 2 * maxBlockPerMsg < nbProj then .error .espipe
    else .ok (checkCrc32 cfg bid (file.pread bid nbProj))

/-- `storage_read_chunk` when it reads the header file. -/
def readChunkFromHeader (cfg : Config β) (recycle : BitVec 2) (chunk bid nbProj : Nat) (st : State β) :
    Except Errno (List (Projection β)) × State β :=
  match readHeaderFile cfg recycle false st with
  | (.errors,st) => (.error .eio,st)
  | (.notFound,st) => (.error .enoent,st)
  | (.otherRecyclingCounter hdr,st) =>
    -- the context is made to fit the content of the disk
    let st := storeCtx hdr { st with ctx := { st.ctx with recycleCpt := hdr.recycle } }
    (.error .enoent,st)
  | (.ok hdr,st) =>
    let st := storeCtx hdr { st with ctx := { st.ctx with recycleCpt := hdr.recycle } }
    ((readDev cfg (getDev st.ctx chunk) chunk bid nbProj st).getD (.error .eio),st)

/-- `storage_read_chunk`. -/
def readChunk (cfg : Config β) (recycle : BitVec 2) (chunk bid nbProj : Nat) (st : State β) :
    Except Errno (List (Projection β)) × State β :=
  match readDev cfg (getDev st.ctx chunk) chunk bid nbProj st with
  | some result => (result,st)
  | none => readChunkFromHeader cfg recycle chunk bid nbProj st

/-- The blocks that miss in a chunk that is not the last one are zero. -/
def padChunk (chunk nbProj : Nat) (bins : List (Projection β)) (st : State β) : List (Projection β) :=
  if chunk + 1 < maxChunkPerFile ∧ getDev st.ctx (chunk + 1) ≠ .eof then bins ++ List.replicate (nbProj - bins.length) 0
  else bins

/-- `storage_read`. -/
def storageRead (cfg : Config β) (recycle : BitVec 2) (inputBid inputNbProj : Nat) (st : State β) :
    Except Errno (List (Projection β)) × State β :=
  let chunk := inputBid / blockPerChunk cfg.bsize
  if maxChunkPerFile ≤ chunk then (.ok [],st)
  else
    let bid := inputBid - chunk * blockPerChunk cfg.bsize
    if bid + inputNbProj ≤ blockPerChunk cfg.bsize then
      match readChunk cfg recycle chunk bid inputNbProj st with
      | (.error e,st) => (.error e,st)
      | (.ok bins,st) => (.ok (padChunk chunk inputNbProj bins st),st)
    else
      let nbProj := blockPerChunk cfg.bsize - bid
      match readChunk cfg recycle chunk bid nbProj st with
      | (.error e,st) => (.error e,st)
      | (.ok first,st) =>
        if maxChunkPerFile ≤ chunk + 1 ∨ getDev st.ctx (chunk + 1) = .eof then (.ok first,st)
        else
          let first := padChunk chunk nbProj first st
          match readChunk cfg recycle (chunk + 1) 0 (inputNbProj - nbProj) st with
          | (.error e,st) => (.error e,st)
          | (.ok second,st) => (.ok (first ++ padChunk (chunk + 1) (inputNbProj - nbProj) second st),st)

/-- The last block of a truncate inside a block: the given data, or the block that is there with
another header and foot. -/
structure LastBlock (β : Type) where
  projId : BitVec 8
  version : BitVec 8
  lastSeg : BitVec 16
  lastTimestamp : BitVec 64
  data : Option (Projection β)

/-- What the truncate request leaves in the block. -/
def lastBlock (cfg : Config β) (bid : Nat) (last : LastBlock β) (old : Projection β) : Projection β :=
  match last.data with
  | some data => stamp cfg false bid data
  | none =>
    { old with
      timestamp := last.lastTimestamp, effectiveLength := last.lastSeg, projectionId := last.projId,
      version := last.version, filler := 0, foot := last.lastTimestamp }

/-- The data file of the chunk that the truncate request cuts. -/
def truncateFile (cfg : Config β) (bid : Nat) (last : LastBlock β) (file : SparseFile (Projection β)) : SparseFile (Projection β) :=
  if last.lastSeg = 0 then file.ftruncate bid
  else
    let file := file.ftruncate (bid + 1)
    file.pwrite bid [lastBlock cfg bid last (file.get bid)]

/-- The chunks after the one that is cut are removed. The table tells whether it changed. -/
def truncateChunks : List Nat → Header → State β → Bool → (Header × State β) × Bool
  | [], hdr, st, rewrite => ((hdr,st),rewrite)
  | chunk :: rest, hdr, st, rewrite =>
    match hdr.getChunk chunk with
    | .eof => truncateChunks rest hdr st rewrite
    | dev => truncateChunks rest (hdr.setChunk chunk .eof) (rmDataChunk dev chunk st) true

/-- The header that a truncate request starts from: the one of the context, or the one on disk.
The last value tells whether it has to be written. -/
def truncateHeader (cfg : Config β) (recycle : BitVec 2) (st : State β) : Option (Header × Bool) × State β :=
  match st.ctx.devices with
  | .unknown =>
    match readHeaderFile cfg recycle true st with
    | (.ok hdr,st) => (some (hdr,false),{ st with ctx := { st.ctx with recycleCpt := recycle } })
    | (.notFound,st) => (some (.init recycle,true),{ st with ctx := { st.ctx with recycleCpt := recycle } })
    | (_,st) => (none,st)
  | _ =>
    let hdr := ⟨recycle,(readFromCtx st.ctx).1,(readFromCtx st.ctx).2⟩
    if st.ctx.recycleCpt ≠ recycle then
      let (hdr,st) := truncateRecycle cfg hdr { st with ctx := { st.ctx with recycleCpt := recycle } }
      (some (hdr,false),st)
    else (some (hdr,false),st)

/-- A device may be allocated for the chunk that is cut. -/
def truncateDevice (chunk device : Nat) (hdr : Header) (rewrite : Bool) : Nat × Header × Bool :=
  match hdr.getChunk chunk with
  | .device d => (d,hdr,rewrite)
  | _ => (device,hdr.setChunk chunk (.device device),true)

/-- `storage_truncate` once it has the header. -/
def truncateKnown (cfg : Config β) (chunk bid device : Nat) (last : LastBlock β) (hdr : Header) (rewrite : Bool) (st : State β) :
    State β :=
  let (d,hdr,rewrite) := truncateDevice chunk device hdr rewrite
  let st := setData d chunk (some (truncateFile cfg bid last (openFile d chunk st))) st
  let hdr := { hdr with nbChunks := roundupChunkNumber (chunk + 1) }
  let cut := truncateChunks (List.range' (chunk + 1) (maxChunkPerFile - (chunk + 1))) hdr st rewrite
  storeCtx cut.1.1 (if cut.2 then writeAllHeaderFiles cut.1.1 cut.1.2 else cut.1.2)

/-- `storage_truncate`. -/
def storageTruncate (cfg : Config β) (recycle : BitVec 2) (device inputBid : Nat) (last : LastBlock β) (st : State β) :
    Except Errno Unit × State β :=
  let chunk := inputBid / blockPerChunk cfg.bsize
  let bid := inputBid - chunk * blockPerChunk cfg.bsize
  if maxChunkPerFile ≤ chunk then (.error .efbig,st)
  else
    match truncateHeader cfg recycle st with
    | (none,st) => (.error .eio,st)
    | (some (hdr,rewrite),st) => (.ok (),truncateKnown cfg chunk bid device last hdr rewrite st)

/-- The loop of `storage_rm_chunk` over the chunks before one that is EOF, `none` when the file is
totally empty. -/
def rmTrim : Nat → Header → Option Header
  | 0, hdr => if hdr.getChunk 0 = .eof then none else some hdr
  | chunk + 1, hdr =>
    if hdr.getChunk (chunk + 1) = .eof then
      rmTrim chunk (if hdr.getChunk chunk = .empty then hdr.setChunk chunk .eof else hdr)
    else some hdr

/-- `storage_rm_chunk` when the context has the table of the header. -/
def rmKnownChunk (chunk : Nat) (hdr : Header) (st : State β) : State β :=
  match getDev st.ctx chunk with
  | .device d =>
    let next := if maxChunkPerFile ≤ chunk + 1 ∨ getDev st.ctx (chunk + 1) = .eof then .eof else .empty
    let st := rmDataChunk (.device d) chunk st
    match rmTrim chunk (hdr.setChunk chunk next) with
    -- storage_dev_map_distribution_remove
    | none => { st with header := none }
    | some hdr => writeAllHeaderFiles hdr (storeCtx hdr st)
  | _ => st

/-- `storage_rm_chunk`. -/
def rmChunk (cfg : Config β) (recycle : BitVec 2) (chunk : Nat) (st : State β) : Except Errno Unit × State β :=
  match st.ctx.devices with
  | .unknown =>
    match readHeaderFile cfg recycle false st with
    | (.errors,st) => (.error .eio,st)
    | (.notFound,st) => (.ok (),st)
    | (.ok hdr,st) => (.ok (),rmKnownChunk chunk hdr (storeCtx hdr st))
    | (.otherRecyclingCounter hdr,st) => (.ok (),rmKnownChunk chunk hdr (storeCtx hdr st))
  | _ => (.ok (),rmKnownChunk chunk ⟨recycle,(readFromCtx st.ctx).1,(readFromCtx st.ctx).2⟩ st)

/-- The chunks before `chunk` that are EMPTY become EOF. -/
def trimEmpty : Nat → Header → Header
  | 0, hdr => hdr
  | chunk + 1, hdr => if hdr.getChunk chunk ≠ .empty then hdr else trimEmpty chunk (hdr.setChunk chunk .eof)

/-- The header after a relocation. The chunks before the last chunk of a file are not looked at. -/
def relocated (chunk : Nat) (hdr : Header) : Header :=
  if chunk = maxChunkPerFile - 1 then hdr.setChunk chunk .eof
  else if hdr.getChunk (chunk + 1) = .eof then trimEmpty chunk (hdr.setChunk chunk .eof)
  else hdr.setChunk chunk .empty

/-- `storage_relocate_chunk`, with the old device that it returns. -/
def relocateChunk (cfg : Config β) (recycle : BitVec 2) (chunk : Nat) (st : State β) : Option Dev × State β :=
  match readHeaderFile cfg recycle true st with
  | (.ok hdr,st) => (some (hdr.getChunk chunk),writeAllHeaderFiles (relocated chunk hdr) (storeCtx (relocated chunk hdr) st))
  | (.notFound,st) => (some .empty,{ st with ctx := freeDevMapping st.ctx })
  | (_,st) => (none,st)

/-- The header after a chunk is restored. -/
def restored (chunk : Nat) (oldDevice : Dev) (hdr : Header) : Header :=
  let hdr := hdr.setChunk chunk oldDevice
  let last := chunk = maxChunkPerFile - 1 ∨ hdr.getChunk (chunk + 1) = .eof
  let hdr :=
    if oldDevice = .eof ∧ ¬ last then hdr.setChunk chunk .empty
    else if oldDevice = .empty ∧ last then hdr.setChunk chunk .eof
    else hdr
  let hdr := if hdr.getChunk chunk = .eof then trimEmpty chunk hdr else hdr
  { hdr with nbChunks := roundupChunkNumber (firstEof hdr.getChunk) }

/-- `storage_restore_chunk`. -/
def restoreChunk (cfg : Config β) (recycle : BitVec 2) (chunk : Nat) (oldDevice : Dev) (st : State β) : State β :=
  match readHeaderFile cfg recycle false st with
  | (.ok hdr,st) =>
    let st := rmDataChunk (hdr.getChunk chunk) chunk st
    writeAllHeaderFiles (restored chunk oldDevice hdr) (storeCtx (restored chunk oldDevice hdr) st)
  | (.notFound,st) => { st with ctx := freeDevMapping st.ctx }
  | (_,st) => st

end File

end Rozofs.Storage
