import TrustedFirmware.Lib.LinearFlash
import TrustedFirmware.Lib.Word32

/-!
# Flash areas of the bootloader

`flash_map.c` over the flash driver `Driver_Flash.c`: the areas of the two image slots and of the
scratch area are ranges of one flash with sectors of one size. The bootloader is a driver of this
flash, with the static `boot_data` as its memory. An `assert` that fails ends the run.

Addresses are 32-bit words, so that sums of an area's offset and what the caller passes wrap
(`add32`). None of the functions compares an offset with the size of the area: only the driver
refuses an address, and only one behind the whole flash.
-/

namespace Tfm.Boot

open Device LinearFlash Word32

/-- `FLASH_AREA_IMAGE_0`, `FLASH_AREA_IMAGE_1` and `FLASH_AREA_IMAGE_SCRATCH`. -/
inductive FlashArea where
  | image0
  | image1
  | imageScratch
  deriving DecidableEq, Repr

/-- The layout of the flash and `ARM_FLASH_INFO`. -/
structure FlashMap where
  faOff : FlashArea → Nat
  faSize : FlashArea → Nat
  sectorSize : Nat
  sectorCount : Nat
  programUnit : Nat

/-- The `BOOT_E*` codes, and the other ways in which a run ends early. -/
inductive BootErr where
  | eflash
  | ebadimage
  | ebadvect
  | ebadargs
  | notBootable
  | assertFailed
  | outOfBounds
  | diverges
  deriving DecidableEq, Repr

/-- `struct flash_sector`. -/
structure FlashSector where
  fsOff : Nat
  fsSize : Nat
  deriving DecidableEq, Repr

/-- `struct image_header`, in memory order. -/
abbrev ImageHeader : Type := List UInt8

/-- An image slot in `struct boot_loader_state`. -/
structure ImageSlot where
  hdr : ImageHeader
  sectors : List FlashSector

/-- `boot_data`, without the areas. -/
structure BootLoaderState where
  img0 : ImageSlot
  img1 : ImageSlot

/-- A function of the bootloader. -/
abbrev BootM (α : Type) : Type := M Call (List UInt8) BootErr BootLoaderState α

/-- `assert(rc == 0)`. -/
def assertOk {α : Type} (m : BootM α) : BootM α := M.orElse m .assertFailed

variable (fm : FlashMap)

/-! ## `Driver_Flash.c`

The driver checks the end of a range against the last byte of the flash, and the start and length of
a write against the program unit. Both checks look at the sum of address and length, which can wrap. -/

/-- `is_range_valid`. -/
def isRangeValid (offset : Nat) : Bool := decide (offset ≤ fm.sectorCount * fm.sectorSize - 1)

/-- `is_write_aligned`. -/
def isWriteAligned (param : Nat) : Bool := param % fm.programUnit = 0

/-- `is_sector_aligned`. -/
def isSectorAligned (offset : Nat) : Bool := offset % fm.sectorSize = 0

/-- `ARM_Flash_ReadData`. -/
def readData (addr cnt : Nat) : BootM (List UInt8) :=
  if isRangeValid fm (add32 addr cnt) then M.call (.read addr cnt) .eflash else M.fail .eflash

/-- `ARM_Flash_ProgramData`. -/
def programData (addr : Nat) (data : List UInt8) : BootM Unit :=
  if isRangeValid fm (add32 addr data.length) && isWriteAligned fm addr
      && isWriteAligned fm data.length then do
    let _ ← M.call (.program addr data) .eflash
    pure ()
  else M.fail .eflash

/-- `ARM_Flash_EraseSector`. -/
def eraseSector (addr : Nat) : BootM Unit :=
  if isRangeValid fm addr && isSectorAligned fm addr then do
    let _ ← M.call (.eraseSector addr) .eflash
    pure ()
  else M.fail .eflash

/-! ## `flash_map.c`

An area is an offset and a size. Offsets in the area are turned into addresses; an erase walks over
the sectors that it touches. -/

/-- `flash_area_read`. -/
def flashAreaRead (area : FlashArea) (off len : Nat) : BootM (List UInt8) :=
  readData fm (add32 (fm.faOff area) off) len

/-- `flash_area_write`. -/
def flashAreaWrite (area : FlashArea) (off : Nat) (src : List UInt8) : BootM Unit :=
  programData fm (add32 (fm.faOff area) off) src

/-- The loop of `flash_area_erase`, with the number of bytes that are left. -/
def eraseSectors (area : FlashArea) (off : Nat) : (fuel left : Nat) → BootM Unit
  | _, 0 => pure ()
  | 0, _ + 1 => M.fail .diverges
  -- a last sector that is only partly in the range is erased as well
  | fuel + 1, left + 1 => do
    eraseSector fm (add32 (fm.faOff area) off)
    eraseSectors area (add32 off fm.sectorSize) fuel (left + 1 - fm.sectorSize)

/-- Every turn of the loop deletes at least one byte. -/
def flashAreaErase (area : FlashArea) (off len : Nat) : BootM Unit := eraseSectors fm area off len len

/-- `flash_area_align`: all areas have the program unit of the flash. -/
def flashAreaAlign (_ : FlashArea) : Nat := fm.programUnit

/-- `BOOT_MAX_IMG_SECTORS`. -/
def bootMaxImgSectors : Nat := 256

/-- The loop of `flash_area_get_sectors`: `room` sectors can still be stored. -/
def getSectors (sectorSize : Nat) : (room cnt remLen : Nat) → Option (List FlashSector)
  | 0, _, _ => some []
  | _ + 1, _, 0 => some []
  | room + 1, cnt, remLen + 1 =>
    if remLen + 1 < sectorSize then none
    else
      (getSectors sectorSize room (cnt + 1) (remLen + 1 - sectorSize)).map
        (⟨sectorSize * cnt, sectorSize⟩ :: ·)

/-- `flash_area_get_sectors`. -/
def flashAreaGetSectors (area : FlashArea) : Option (List FlashSector) :=
  getSectors fm.sectorSize bootMaxImgSectors 0 (fm.faSize area)

end Tfm.Boot
