import TrustedFirmware.Boot.ImageValidate
import TrustedFirmware.Boot.Trailer

/-!
# The boot loader

`loader.c`, as it is built here (`MCUBOOT_VALIDATE_SLOT0`, no `MCUBOOT_OVERWRITE_ONLY`): the images
of the two slots are exchanged through the scratch area, from the last sector to the first. Status
bytes record every step, so that a swap that was interrupted is completed at the next boot.

A range of sectors that fits into the scratch area is exchanged in three steps, each of which ends
with a status byte:

* slot 1 is copied to scratch (`swapState0`);
* slot 0 is copied to slot 1 (`swapState1`);
* scratch is copied to slot 0 (`swapState2`).

The status is kept in the trailer of slot 0. Where the swap reaches the sector of that trailer, the
status of the first range is kept in scratch and moved to slot 0 at its end.
-/

namespace Tfm.Boot

open Device Word32

/-! ## Boot status

The step of a swap that is under way, from the trailer that has it: slot 0, or scratch for the first
range of a swap that reaches the last sector. `boot_status_source` decides by a table. -/

/-- `struct boot_status`. -/
structure BootStatus where
  idx : Nat
  state : Nat
  useScratch : Bool
  swapSize : Nat
  deriving DecidableEq, Repr

/-- `memset(bs, 0, sizeof(*bs))`. -/
def BootStatus.zero : BootStatus := ⟨0, 0, false, 0⟩

/-- `BOOT_STATUS_SOURCE_*`. -/
inductive BootStatusSource where
  | none
  | scratch
  | slot0
  deriving DecidableEq, Repr

/-- `struct boot_status_table`; a field that matches any value is absent. -/
structure BootStatusTable where
  magicSlot0 : Option BootMagic
  magicScratch : Option BootMagic
  copyDoneSlot0 : Option UInt8
  statusSource : BootStatusSource

/-- `boot_status_tables`; the first row that fits counts. -/
def bootStatusTables : List BootStatusTable :=
  [⟨some .good, none, some 0x01, .none⟩,
    ⟨some .good, none, some 0xff, .slot0⟩,
    ⟨none, some .good, none, .scratch⟩,
    ⟨some .unset, none, some 0xff, .slot0⟩]

/-- A row fits if all of its fields match. -/
def BootStatusTable.fits (table : BootStatusTable) (slot0 scratch : BootSwapState) : Bool :=
  fieldMatches table.magicSlot0 slot0.magic && fieldMatches table.magicScratch scratch.magic
    && fieldMatches table.copyDoneSlot0 slot0.copyDone

/-- The search of `boot_status_source` in its tables. -/
def statusSourceOf (slot0 scratch : BootSwapState) : BootStatusSource :=
  match bootStatusTables.find? fun table => table.fits slot0 scratch with
  | some table => table.statusSource
  | none => .none

variable (fm : FlashMap)

/-- `boot_status_source`. -/
def bootStatusSource : BootM BootStatusSource := do
  let slot0 ← assertOk (bootReadSwapState fm .image0)
  let scratch ← assertOk (bootReadSwapState fm .imageScratch)
  pure (statusSourceOf slot0 scratch)

/-- The bigger of the write sizes of slot 0 and scratch. -/
def bootWriteSz : Nat := max (flashAreaAlign fm .image0) (flashAreaAlign fm .imageScratch)

/-- `boot_status_internal_off`: the offset of an entry from the first. -/
def bootStatusInternalOff (idx state elemSz : Nat) : Nat :=
  idx * (elemSz * bootStatusStateCount) + state * elemSz

/-- The loop of `boot_read_status_bytes`, with `left` entries to go. The result is `found` and the value
of `i` at its end. -/
def scanStatus (area : FlashArea) (off : Nat) : (left i : Nat) → (found : Bool) → BootM (Bool × Nat)
  | 0, i, found => pure (found, i)
  | left + 1, i, found => do
    let status ← flashAreaRead fm area (off + i * bootWriteSz fm) 1
    if status.getD 0 0 = 0xff then
      -- erased entries in front of the first written one are passed over, as entry 0 is never
      -- written
      if found then pure (found, i) else scanStatus area off left (i + 1) found
    else scanStatus area off left (i + 1) true

/-- `boot_read_status_bytes`: the last written entry gives index and state. -/
def bootReadStatusBytes (area : FlashArea) (bs : BootStatus) : BootM BootStatus := do
  let off ← bootStatusOff fm area
  let o ← scanStatus fm area off (bootStatusEntries area) 0 false
  if o.1 then
    pure { bs with
      idx := (o.2 - 1) / bootStatusStateCount
      state := (o.2 - 1) % bootStatusStateCount }
  else pure bs

/-- `boot_read_status`. -/
def bootReadStatus : BootM BootStatus := do
  match ← bootStatusSource fm with
  | .none => pure BootStatus.zero
  | .scratch => bootReadStatusBytes fm .imageScratch BootStatus.zero
  | .slot0 => bootReadStatusBytes fm .image0 BootStatus.zero

/-- The area that the next status byte goes to. -/
def BootStatus.area (bs : BootStatus) : FlashArea := if bs.useScratch then .imageScratch else .image0

/-- `boot_write_status`. -/
def bootWriteStatus (bs : BootStatus) : BootM Unit := do
  let off ← bootStatusOff fm bs.area
  flashAreaWrite fm bs.area (off + bootStatusInternalOff bs.idx bs.state (bootWriteSz fm))
    (alignedBuf [UInt8.ofNat bs.state] (flashAreaAlign fm bs.area))

/-! ## Sectors and images

What `boot_data` is filled with at the start of a boot, and the validation of a slot. -/

/-- `boot_read_sectors`, for both slots. -/
def bootReadSectors : BootM Unit := do
  match flashAreaGetSectors fm .image0, flashAreaGetSectors fm .image1 with
  | some sectors0, some sectors1 =>
    M.modifyMem fun s => ⟨{ s.img0 with sectors := sectors0 }, { s.img1 with sectors := sectors1 }⟩
  | _, _ => M.fail .eflash

/-- `boot_read_image_header`. -/
def bootReadImageHeader (area : FlashArea) : BootM ImageHeader := flashAreaRead fm area 0 imageHeaderSize

/-- A header of slot 1 that cannot be read is no error. -/
def bootReadImageHeaders : BootM Unit := do
  let hdr0 ← bootReadImageHeader fm .image0
  M.modifyMem fun s => { s with img0 := { s.img0 with hdr := hdr0 } }
  match ← M.attempt (bootReadImageHeader fm .image1) with
  | .ok hdr1 => M.modifyMem fun s => { s with img1 := { s.img1 with hdr := hdr1 } }
  | .error _ => pure ()

/-- The size of an image with its records. -/
def bootReadImageSize (area : FlashArea) (hdr : ImageHeader) : BootM Nat := do
  let info ← flashAreaRead fm area (add32 hdr.ihHdrSize hdr.ihImgSize) sizeofTlvInfo
  if ofLe16 info 0 ≠ imageTlvInfoMagic then M.fail .ebadimage
  else pure (add32 (add32 hdr.ihHdrSize hdr.ihImgSize) (ofLe16 info 2))

/-- `boot_slots_compatible`: both slots have the same sectors. -/
def bootSlotsCompatible (s : BootLoaderState) : Bool :=
  s.img0.sectors.length = s.img1.sectors.length
    && (List.zip s.img0.sectors s.img1.sectors).all fun p => p.1.fsSize = p.2.fsSize

/-- `boot_img_sector_size`. -/
def bootImgSectorSize (slot : ImageSlot) (sector : Nat) : BootM Nat :=
  match slot.sectors[sector]? with
  | some s => pure s.fsSize
  | none => M.fail .outOfBounds

/-- `boot_img_sector_off`. -/
def bootImgSectorOff (slot : ImageSlot) (sector : Nat) : BootM Nat :=
  match slot.sectors[sector]?, slot.sectors[0]? with
  | some s, some s0 => pure (sub32 s.fsOff s0.fsOff)
  | _, _ => M.fail .outOfBounds

variable (crypto : BootCrypto)

/-- `boot_image_check`. -/
def bootImageCheck (hdr : ImageHeader) (area : FlashArea) : BootM Unit :=
  M.orElse (bootutilImgValidate crypto fm hdr area) .ebadimage

/-- An image in slot 1 that is not valid is erased; the result of that is dropped. -/
def bootValidateSlot (area : FlashArea) (hdr : ImageHeader) : BootM Unit := do
  -- an erased slot, or an image that is not to be booted, is left as it is
  if hdr.ihMagic = imageMagicNone ∨ hdr.ihFlags &&& imageFNonBootable ≠ 0 then M.fail .notBootable
  else do
    let check ←
      if hdr.ihMagic = imageMagic then M.attempt (bootImageCheck fm crypto hdr area)
      else pure (.error .ebadimage)
    match check with
    | .ok () => pure ()
    | .error _ =>
      if area ≠ .image0 then
        let _ ← M.attempt (flashAreaErase fm area 0 (fm.faSize area))
      M.fail .notBootable

/-- `boot_validated_swap_type`: a swap is made only to an image that is valid. -/
def bootValidatedSwapType : BootM BootSwapType := do
  let swapType ← bootSwapType fm
  match swapType with
  | .test | .perm | .revert =>
    let s ← M.getMem
    match ← M.attempt (bootValidateSlot fm crypto .image1 s.img1.hdr) with
    | .ok () => pure swapType
    | .error _ => pure .fail
  | swapType => pure swapType

/-! ## Copying

Ranges of sectors are chosen from the end, as many sectors as fit into scratch. A copy goes through
a buffer, one chunk after the other. -/

/-- The loop of `boot_copy_sz`, at sector `i - 1`: the size so far and the first sector that fits. -/
def copySzLoop (slot : ImageSlot) (scratchSz : Nat) : (i sz : Nat) → BootM (Nat × Nat)
  | 0, sz => pure (sz, 0)
  | i + 1, sz => do
    let size ← bootImgSectorSize slot i
    if scratchSz < sz + size then pure (sz, i + 1) else copySzLoop slot scratchSz i (sz + size)

/-- The number of bytes, and the first sector. -/
def bootCopySz (lastSectorIdx : Nat) : BootM (Nat × Nat) := do
  let s ← M.getMem
  copySzLoop s.img0 (fm.faSize .imageScratch) (lastSectorIdx + 1) 0

/-- `boot_erase_sector`. -/
def bootEraseSector (area : FlashArea) (off sz : Nat) : BootM Unit := flashAreaErase fm area off sz

/-- The size of the buffer of `boot_copy_sector`. -/
def copyBufSz : Nat := 1024

/-- The loop of `boot_copy_sector`. -/
def copyChunks (src dst : FlashArea) (offSrc offDst sz : Nat) : (fuel copied : Nat) → BootM Unit
  | 0, _ => pure ()
  | fuel + 1, copied =>
    if copied < sz then do
      let buf ← flashAreaRead fm src (offSrc + copied) (min (sz - copied) copyBufSz)
      flashAreaWrite fm dst (offDst + copied) buf
      copyChunks src dst offSrc offDst sz fuel (copied + min (sz - copied) copyBufSz)
    else pure ()

/-- `boot_copy_sector`. -/
def bootCopySector (src dst : FlashArea) (offSrc offDst sz : Nat) : BootM Unit :=
  copyChunks fm src dst offSrc offDst sz sz 0

/-- A flag of slot 1 is carried over. The magic is written last. -/
def bootStatusInitById (area : FlashArea) (bs : BootStatus) : BootM Unit := do
  let swapState ← assertOk (bootReadSwapState fm .image1)
  if swapState.imageOk = bootFlagSet then assertOk (bootWriteImageOk fm area)
  assertOk (bootWriteSwapSize fm area bs.swapSize)
  assertOk (bootWriteMagic fm area)

/-- Erase the last sector of a slot. -/
def bootEraseLastSectorById (area : FlashArea) (slot : ImageSlot) : BootM Unit := do
  let off ← bootImgSectorOff slot (slot.sectors.length - 1)
  let size ← bootImgSectorSize slot (slot.sectors.length - 1)
  assertOk (bootEraseSector fm area off size)

/-! ## Swapping

One range in three steps. A step can be repeated from its beginning: it reads what the step before
it left and erases what it writes. -/

/-- A range of sectors that is being swapped: `img_off`, `sz` and `copy_sz`. -/
structure SwapRange where
  imgOff : Nat
  sz : Nat
  copySz : Nat

/-- State 0: the range of slot 1 is saved in scratch, and the first range prepares the status area. -/
def swapState0 (range : SwapRange) (bs : BootStatus) : BootM BootStatus := do
  assertOk (bootEraseSector fm .imageScratch 0 range.sz)
  assertOk (bootCopySector fm .image1 .imageScratch range.imgOff 0 range.copySz)
  -- no trailer exists before the first range: it goes to scratch if slot 0 has no room for it
  if bs.idx = 0 then
    if bs.useScratch then bootStatusInitById fm .imageScratch bs
    else do
      let s ← M.getMem
      assertOk (bootEraseLastSectorById fm .image0 s.img0)
      bootStatusInitById fm .image0 bs
  let bs := { bs with state := 1 }
  assertOk (bootWriteStatus fm bs)
  pure bs

/-- State 1: the range of slot 0 is copied to slot 1. -/
def swapState1 (range : SwapRange) (bs : BootStatus) : BootM BootStatus := do
  assertOk (bootEraseSector fm .image1 range.imgOff range.sz)
  assertOk (bootCopySector fm .image0 .image1 range.imgOff range.imgOff range.copySz)
  -- the request in slot 1 is dropped with its trailer, once the swap is recorded in slot 0
  if bs.idx = 0 ∧ bs.useScratch = false then
    let s ← M.getMem
    assertOk (bootEraseLastSectorById fm .image1 s.img1)
  let bs := { bs with state := 2 }
  assertOk (bootWriteStatus fm bs)
  pure bs

/-- The trailer that is being kept in scratch is copied to slot 0. -/
def restoreTrailer (range : SwapRange) (bs : BootStatus) : BootM Unit := do
  let scratchTrailerOff ← bootStatusOff fm .imageScratch
  assertOk (bootCopySector fm .imageScratch .image0 scratchTrailerOff (range.imgOff + range.copySz)
    (bootStatusStateCount * bootWriteSz fm))
  let swapState ← assertOk (bootReadSwapState fm .imageScratch)
  if swapState.imageOk = bootFlagSet then assertOk (bootWriteImageOk fm .image0)
  assertOk (bootWriteSwapSize fm .image0 bs.swapSize)
  assertOk (bootWriteMagic fm .image0)

/-- State 2: the saved range is copied to slot 0. -/
def swapState2 (range : SwapRange) (bs : BootStatus) : BootM BootStatus := do
  assertOk (bootEraseSector fm .image0 range.imgOff range.sz)
  assertOk (bootCopySector fm .imageScratch .image0 0 range.imgOff range.copySz)
  if bs.useScratch then restoreTrailer fm range bs
  let bs := { bs with idx := bs.idx + 1, state := 0, useScratch := false }
  assertOk (bootWriteStatus fm bs)
  pure bs

/-- The last sector of a slot holds its trailer, which is not swapped. -/
def bootSwapSectors (idx sz : Nat) (bs : BootStatus) : BootM BootStatus := do
  let s ← M.getMem
  let imgOff ← bootImgSectorOff s.img0 idx
  let lastOff ← bootImgSectorOff s.img0 (s.img0.sectors.length - 1)
  -- the trailer keeps its place at the end of the slot
  let copySz := if lastOff < imgOff + sz then sub32 sz (bootSlotsTrailerSz (bootWriteSz fm)) else sz
  let range : SwapRange := ⟨imgOff, sz, copySz⟩
  let bs := { bs with useScratch := decide (bs.idx = 0 ∧ copySz ≠ sz) }
  -- a boot that resumes enters at the step that the status names
  let bs ← if bs.state = 0 then swapState0 fm range bs else pure bs
  let bs ← if bs.state = 1 then swapState1 fm range bs else pure bs
  if bs.state = 2 then swapState2 fm range bs else pure bs

/-- The size of the largest image. -/
def largestImageSize : BootM Nat := do
  let s ← M.getMem
  let size0 ← if s.img0.hdr.ihMagic = imageMagic then assertOk (bootReadImageSize fm .image0 s.img0.hdr)
    else pure 0
  let size1 ← if s.img1.hdr.ihMagic = imageMagic then assertOk (bootReadImageSize fm .image1 s.img1.hdr)
    else pure 0
  pure (max size0 size1)

/-- The first loop of `boot_copy_image`: the last sector to be swapped. -/
def lastSector (copySize : Nat) : (sectors : List FlashSector) → (size idx : Nat) → BootM Nat
  | [], _, _ => M.fail .outOfBounds
  | sector :: sectors, size, idx =>
    if copySize ≤ size + sector.fsSize then pure idx
    else lastSector copySize sectors (size + sector.fsSize) (idx + 1)

/-- The second loop, with `left` sectors to go. Ranges that were swapped before are skipped. -/
def swapLoop : (fuel left swapIdx : Nat) → BootStatus → BootM BootStatus
  | _, 0, _, bs => pure bs
  | 0, _ + 1, _, _ => M.fail .diverges
  | fuel + 1, left + 1, swapIdx, bs => do
    let o ← bootCopySz fm left
    let bs ← if bs.idx ≤ swapIdx then bootSwapSectors fm o.2 o.1 bs else pure bs
    swapLoop fuel o.2 (swapIdx + 1) bs

/-- `boot_copy_image`: the size of a swap that is resumed comes from the trailer. -/
def bootCopyImage (bs : BootStatus) : BootM Unit := do
  let swapSize ← if bs.idx = 0 ∧ bs.state = 0 then largestImageSize fm else assertOk (bootReadSwapSize fm)
  let s ← M.getMem
  let last ← lastSector swapSize s.img0.sectors 0 0
  let _ ← swapLoop fm (last + 1) (last + 1) 0 { bs with swapSize := swapSize }
  pure ()

/-! ## Booting

`boot_go` and what it does around the swap. -/

/-- `boot_set_copy_done`. -/
def bootSetCopyDone : BootM Unit := bootWriteCopyDone fm .image0

/-- A flag that is there already stays. -/
def bootSetImageOk : BootM Unit := do
  let state ← bootReadSwapState fm .image0
  if state.imageOk = bootFlagUnset then bootWriteImageOk fm .image0

/-- The type of the swap that just completed. -/
def bootPreviousSwapType : BootM BootSwapType := do
  match ← bootSwapType fm with
  | .none => pure .perm
  | .revert => pure .test
  | .panic => pure .panic
  | _ => pure .fail

/-- `boot_swap_if_needed`: a swap under way is completed first, whatever slot 1 asks for. -/
def bootSwapIfNeeded : BootM BootSwapType := do
  let bs ← assertOk (bootReadStatus fm)
  -- the trailers were rewritten by the swap, and tell its type only indirectly
  if bs.idx ≠ 0 ∨ bs.state ≠ 0 then
    assertOk (bootCopyImage fm bs)
    bootPreviousSwapType fm
  else
    let swapType ← bootValidatedSwapType fm crypto
    match swapType with
    | .test | .perm | .revert =>
      assertOk (bootCopyImage fm bs)
      pure swapType
    | swapType => pure swapType

/-- `struct boot_rsp`: the header and the position of the image to boot. -/
structure BootRsp where
  brHdr : ImageHeader
  brImageOff : Nat
  deriving DecidableEq

/-- The flags that a swap leaves: a flag that cannot be written is a panic. -/
def markSwap (swapType : BootSwapType) : BootM BootSwapType := do
  let swapType ← match swapType with
    | .revert | .fail =>
      match ← M.attempt (bootSetImageOk fm) with
      | .ok () => pure swapType
      | .error _ => pure .panic
    | swapType => pure swapType
  match swapType with
  | .test | .perm | .revert =>
    match ← M.attempt (bootSetCopyDone fm) with
    | .ok () => pure swapType
    | .error _ => pure .panic
  | swapType => pure swapType

/-- `boot_go`: the image in slot 0 is validated in the end, with or without a swap. -/
def bootGo : BootM BootRsp := do
  bootReadSectors fm
  bootReadImageHeaders fm
  let s ← M.getMem
  let swapType ←
    if bootSlotsCompatible s then do
      let swapType ← assertOk (bootSwapIfNeeded fm crypto)
      markSwap fm swapType
    else pure .none
  -- the header in memory is that of the old image once the slots are exchanged
  match swapType with
  | .panic => M.fail .assertFailed
  | .none => pure ()
  | _ => bootReadImageHeaders fm
  let s ← M.getMem
  assertOk (bootValidateSlot fm crypto .image0 s.img0.hdr)
  pure ⟨s.img0.hdr, fm.faOff .image0⟩

end Tfm.Boot
