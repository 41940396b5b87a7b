import Mathlib.Logic.Function.Basic
import Mathlib.Data.List.Basic

/-! The chunk to device table of a stored file, in its three forms: the header of
`storage_header.h`, the header file of version 0, 1 or 2 on disk, and the array in the FID context
of `storio_device_mapping.h`. Of the header, the fields that no other request reads are left out. -/
namespace Rozofs.Storage
open Function (update)

/-- An entry of the table: `ROZOFS_EOF_CHUNK`, `ROZOFS_EMPTY_CHUNK`, `ROZOFS_UNKNOWN_CHUNK` or a device. -/
inductive Dev where
  | eof
  | empty
  | unknown
  | device (n : Nat)
  deriving DecidableEq

def maxChunkPerFile : Nat := 128

/-- `ROZOFS_MAX_SMALL_ARRAY_CHUNK`. -/
def maxSmallArrayChunk : Nat := 7

/-- `rozofs_stor_bins_file_hdr_t`, with the recycle counter of its FID. -/
structure Header where
  recycle : BitVec 2
  nbChunks : Nat
  devFromChunk : Nat → Dev

/-- `rozofs_st_header_roundup_chunk_number`. -/
def roundupChunkNumber (nbChunks : Nat) : Nat :=
  if nbChunks ≤ 8 then 8
  else if maxChunkPerFile < nbChunks then maxChunkPerFile
  else ((nbChunks - 1) / 4 + 1) * 4

namespace Header

/-- `rozofs_st_header_init`. -/
def init (recycle : BitVec 2) : Header := ⟨recycle,8,fun _ => .eof⟩

/-- `rozofs_st_header_get_chunk`. -/
def getChunk (hdr : Header) (chunk : Nat) : Dev :=
  if maxChunkPerFile ≤ chunk then .eof else hdr.devFromChunk chunk

/-- `rozofs_st_header_set_chunk`. -/
def setChunk (hdr : Header) (chunk : Nat) (dev : Dev) : Header :=
  if maxChunkPerFile ≤ chunk then hdr
  else if dev = .eof then { hdr with devFromChunk := update hdr.devFromChunk chunk dev }
  else
    -- previous chunks that were EOF are now EMPTY
    let previous := fun i => if i < chunk ∧ hdr.devFromChunk i = .eof then .empty else hdr.devFromChunk i
    { hdr with
      devFromChunk := update previous chunk dev
      nbChunks := if hdr.nbChunks < chunk + 1 then roundupChunkNumber (chunk + 1) else hdr.nbChunks }

end Header

/-- The loops that go on until an end of file mark. -/
def firstEof (devices : Nat → Dev) : Nat :=
  ((List.range maxChunkPerFile).find? fun i => devices i = .eof).getD maxChunkPerFile

/-- `rozofs_st_header_from_v1_to_v2`. -/
def fromV1ToV2 (recycle : BitVec 2) (devices : Nat → Dev) : Header :=
  ⟨recycle,roundupChunkNumber (firstEof devices),fun i => if i < firstEof devices then devices i else .eof⟩

/-- A header file on disk. Versions 0 and 1 have an array of 128 devices. -/
inductive HeaderFile where
  | v0 (recycle : BitVec 2) (devices : Nat → Dev)
  | v1 (recycle : BitVec 2) (devices : Nat → Dev)
  | v2 (recycle : BitVec 2) (nbChunks : Nat) (devices : List Dev)

/-- `storage_write_header_file`. -/
def headerWrite (hdr : Header) : HeaderFile :=
  .v2 hdr.recycle hdr.nbChunks ((List.range hdr.nbChunks).map hdr.devFromChunk)

/-- `rozofs_st_header_read`, `none` when the size is wrong. -/
def headerRead : HeaderFile → Option Header
  | .v0 recycle devices => some (fromV1ToV2 recycle devices)
  | .v1 recycle devices => some (fromV1ToV2 recycle devices)
  | .v2 recycle nbChunks devices =>
    if nbChunks < 8 ∨ maxChunkPerFile < nbChunks ∨ devices.length < nbChunks then none
    else some ⟨recycle,nbChunks,fun i => if i < nbChunks then devices.getD i .eof else .eof⟩

/-- The device array of a FID context: unknown, of 8 entries or of 128. -/
inductive Mapping where
  | unknown
  | small (devices : Nat → Dev)
  | big (devices : Nat → Dev)

/-- What `storio_device_mapping_t` tells about the file. -/
structure FidCtx where
  recycleCpt : BitVec 2
  devices : Mapping

/-- `storio_free_dev_mapping`. -/
def freeDevMapping (ctx : FidCtx) : FidCtx := { ctx with devices := .unknown }

/-- `storio_get_dev`. -/
def getDev (ctx : FidCtx) (chunk : Nat) : Dev :=
  match ctx.devices with
  | .unknown => .unknown
  | .small devices => if maxSmallArrayChunk < chunk then .eof else devices chunk
  | .big devices => if maxChunkPerFile ≤ chunk then .eof else devices chunk

/-- `storio_store_to_ctx`. -/
def storeToCtx (nbChunks : Nat) (devices : Nat → Dev) (ctx : FidCtx) : FidCtx :=
  { ctx with devices := if nbChunks ≤ maxSmallArrayChunk + 1 then .small devices else .big devices }

/-- `storio_read_from_ctx`. -/
def readFromCtx (ctx : FidCtx) : Nat × (Nat → Dev) :=
  match ctx.devices with
  | .unknown => (maxChunkPerFile,fun _ => .eof)
  | .small devices =>
    (roundupChunkNumber (maxSmallArrayChunk + 1),fun i => if i < maxSmallArrayChunk + 1 then devices i else .eof)
  | .big devices =>
    (roundupChunkNumber (firstEof devices),fun i => if i < firstEof devices then devices i else .eof)

end Rozofs.Storage
