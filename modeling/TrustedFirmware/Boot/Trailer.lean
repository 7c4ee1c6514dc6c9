import TrustedFirmware.Boot.FlashMap

/-!
# Image trailers

`bootutil_misc.c`: the end of a slot holds the status bytes of a swap, its size, the flags
`copy_done` and `image_ok`, and a magic. What the trailers of the two slots hold decides which swap
is made at the next boot.

All offsets are counted from the end of the area. The trailer of the scratch area is shorter: it has
the status bytes of one range only, and no `copy_done`.
-/

namespace Tfm.Boot

open Device Word32

/-- The bytes of `boot_img_magic`. -/
def bootImgMagic : List UInt8 :=
  [0x77, 0xc2, 0x95, 0xf3, 0x60, 0xd2, 0xef, 0x7f, 0x35, 0x52, 0x50, 0x0f, 0x2c, 0xb6, 0x79, 0x80]

def bootMagicSz : Nat := 16
def bootMaxAlign : Nat := 8
def bootStatusStateCount : Nat := 3
def bootStatusMaxEntries : Nat := 256
def bootFlagSet : UInt8 := 0x01
def bootFlagUnset : UInt8 := 0xff

/-- `BOOT_MAGIC_GOOD`, `BOOT_MAGIC_BAD` and `BOOT_MAGIC_UNSET`. -/
inductive BootMagic where
  | good
  | bad
  | unset
  deriving DecidableEq, Repr

/-- `boot_magic_code`: a magic is complete, erased or neither. -/
def bootMagicCode (magic : List UInt8) : BootMagic :=
  if magic = bootImgMagic then .good
  else if magic.all (· = 0xff) then .unset
  else .bad

/-- `struct boot_swap_state`. -/
structure BootSwapState where
  magic : BootMagic
  copyDone : UInt8
  imageOk : UInt8
  deriving DecidableEq, Repr

/-- `BOOT_SWAP_TYPE_*`. -/
inductive BootSwapType where
  | none
  | test
  | perm
  | revert
  | fail
  | panic
  deriving DecidableEq, Repr

/-! ## Offsets

`boot_slots_trailer_sz`, `boot_scratch_trailer_sz` and the offsets of the fields. Each field is
padded to `BOOT_MAX_ALIGN` bytes. -/

/-- `boot_slots_trailer_sz`. -/
def bootSlotsTrailerSz (minWriteSz : Nat) : Nat :=
  bootStatusMaxEntries * bootStatusStateCount * minWriteSz + bootMaxAlign * 3 + bootMagicSz

/-- `boot_scratch_trailer_sz`. -/
def bootScratchTrailerSz (minWriteSz : Nat) : Nat :=
  bootStatusStateCount * minWriteSz + bootMaxAlign * 2 + bootMagicSz

variable (fm : FlashMap)

/-- `boot_magic_off`. -/
def bootMagicOff (area : FlashArea) : Nat := fm.faSize area - bootMagicSz

/-- `boot_status_entries`: scratch holds the status of the first range only. -/
def bootStatusEntries : FlashArea → Nat
  | .image0 | .image1 => bootStatusStateCount * bootStatusMaxEntries
  | .imageScratch => bootStatusStateCount

/-- The size that `boot_status_off` goes back from the end of the area. -/
def trailerSz (area : FlashArea) : Nat :=
  match area with
  | .imageScratch => bootScratchTrailerSz (flashAreaAlign fm area)
  | _ => bootSlotsTrailerSz (flashAreaAlign fm area)

/-- `boot_status_off`; that the trailer fits is asserted. -/
def bootStatusOff (area : FlashArea) : BootM Nat :=
  if trailerSz fm area ≤ fm.faSize area then pure (fm.faSize area - trailerSz fm area)
  else M.fail .assertFailed

/-- `boot_copy_done_off`. -/
def bootCopyDoneOff (area : FlashArea) : Nat := fm.faSize area - bootMagicSz - bootMaxAlign * 2

/-- `boot_image_ok_off`. -/
def bootImageOkOff (area : FlashArea) : Nat := fm.faSize area - bootMagicSz - bootMaxAlign

/-- The scratch area does not store `copy_done`. -/
def bootSwapSizeOff (area : FlashArea) : Nat :=
  match area with
  | .imageScratch => fm.faSize area - bootMagicSz - bootMaxAlign * 2
  | _ => fm.faSize area - bootMagicSz - bootMaxAlign * 3

/-! ## Reading

`boot_read_swap_state` and `boot_read_swap_size`. -/

/-- `copy_done` of the scratch area is not read, and nothing looks at it. -/
def bootReadSwapState (area : FlashArea) : BootM BootSwapState := do
  let magic ← flashAreaRead fm area (bootMagicOff fm area) bootMagicSz
  let copyDone ←
    if area = .imageScratch then pure [0] else flashAreaRead fm area (bootCopyDoneOff fm area) 1
  let imageOk ← flashAreaRead fm area (bootImageOkOff fm area) 1
  pure ⟨bootMagicCode magic, copyDone.getD 0 0, imageOk.getD 0 0⟩

/-- The size of the swap that is under way, from slot 0 if its magic is valid, else from scratch. -/
def bootReadSwapSize : BootM Nat := do
  let magic ← flashAreaRead fm .image0 (bootMagicOff fm .image0) bootMagicSz
  let area ←
    if magic = bootImgMagic then pure FlashArea.image0
    else do
      let magic ← flashAreaRead fm .imageScratch (bootMagicOff fm .imageScratch) bootMagicSz
      -- the caller asserts that one of the magics is found
      if magic = bootImgMagic then pure FlashArea.imageScratch else M.fail .assertFailed
  let swapSize ← flashAreaRead fm area (bootSwapSizeOff fm area) 4
  pure (ofLe32 swapSize 0)

/-! ## Writing

Every field is written by one aligned program call; what follows the field in its program unit is
written as `0xff`, which leaves erased bytes as they are. -/

/-- `boot_write_magic`. -/
def bootWriteMagic (area : FlashArea) : BootM Unit :=
  flashAreaWrite fm area (bootMagicOff fm area) bootImgMagic

/-- A buffer of `BOOT_MAX_ALIGN` bytes that starts with some bytes, cut to the write size. -/
def alignedBuf (bytes : List UInt8) (align : Nat) : List UInt8 :=
  (bytes ++ List.replicate (bootMaxAlign - bytes.length) 0xff).take align

/-- `boot_write_flag`, at the offset of the flag. -/
def bootWriteFlag (area : FlashArea) (off : Nat) : BootM Unit :=
  if flashAreaAlign fm area ≤ bootMaxAlign then
    flashAreaWrite fm area off (alignedBuf [bootFlagSet] (flashAreaAlign fm area))
  else M.fail .assertFailed

/-- `boot_write_copy_done`. -/
def bootWriteCopyDone (area : FlashArea) : BootM Unit := bootWriteFlag fm area (bootCopyDoneOff fm area)

/-- `boot_write_image_ok`. -/
def bootWriteImageOk (area : FlashArea) : BootM Unit := bootWriteFlag fm area (bootImageOkOff fm area)

/-- `boot_write_swap_size`. -/
def bootWriteSwapSize (area : FlashArea) (swapSize : Nat) : BootM Unit :=
  if flashAreaAlign fm area ≤ bootMaxAlign then
    flashAreaWrite fm area (bootSwapSizeOff fm area)
      (alignedBuf (le32 swapSize) (max 4 (flashAreaAlign fm area)))
  else M.fail .assertFailed

/-! ## Swap types

`boot_swap_type` compares the trailers of both slots with a table, and takes the first row that
fits. -/

/-- `struct boot_swap_table`; a field that matches any value is absent. -/
structure BootSwapTable where
  magicSlot0 : Option BootMagic
  magicSlot1 : Option BootMagic
  imageOkSlot0 : Option UInt8
  imageOkSlot1 : Option UInt8
  copyDoneSlot0 : Option UInt8
  swapType : BootSwapType

/-- `boot_swap_tables`. -/
def bootSwapTables : List BootSwapTable :=
  [⟨none, some .good, none, some 0xff, none, .test⟩,
    ⟨none, some .good, none, some 0x01, none, .perm⟩,
    ⟨some .good, some .unset, some 0xff, none, some 0x01, .revert⟩]

/-- A table field matches. -/
def fieldMatches {α : Type} [DecidableEq α] (field : Option α) (value : α) : Bool :=
  field = none || field = some value

/-- A row fits if all of its fields match. -/
def BootSwapTable.fits (table : BootSwapTable) (slot0 slot1 : BootSwapState) : Bool :=
  fieldMatches table.magicSlot0 slot0.magic && fieldMatches table.magicSlot1 slot1.magic
    && fieldMatches table.imageOkSlot0 slot0.imageOk && fieldMatches table.imageOkSlot1 slot1.imageOk
    && fieldMatches table.copyDoneSlot0 slot0.copyDone

/-- The search of `boot_swap_type` in its tables. -/
def swapTypeOf (slot0 slot1 : BootSwapState) : BootSwapType :=
  match bootSwapTables.find? fun table => table.fits slot0 slot1 with
  | some table => table.swapType
  | none => .none

/-- `boot_swap_type`; a trailer that cannot be read is a panic. -/
def bootSwapType : BootM BootSwapType := do
  match ← M.attempt (bootReadSwapState fm .image0) with
  | .error _ => pure .panic
  | .ok slot0 =>
    match ← M.attempt (bootReadSwapState fm .image1) with
    | .error _ => pure .panic
    | .ok slot1 => pure (swapTypeOf slot0 slot1)

end Tfm.Boot
