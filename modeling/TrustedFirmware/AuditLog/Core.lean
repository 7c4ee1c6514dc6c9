import TrustedFirmware.Lib.Ring
import TrustedFirmware.Lib.Word32
import Mathlib.Logic.Function.Iterate

/-!
# Audit log — the core of the service

`log_core.c` keeps a log of variable-size entries in a ring of `LOG_SIZE` bytes. An entry is a
header (time stamp, IV counter, partition id, size), the line handed in by the caller and a
MAC; where the next entry starts is computed from the size stored inside the ring. When there
is no room for a new entry the oldest ones are dropped, and the free room is judged by the
counter `stored_size`, not by the entries.

The statics of the service are passed as `LogState`. The scratch buffer is not part of it:
every call that reads it formats it first.
-/

namespace Tfm.AuditLog

open Word32 Ring

def logSize : Nat := 1024
def logMacSize : Nat := 4

/-- `LOG_FIXED_FIELD_SIZE`: time stamp, IV counter, partition id and size. -/
def logFixedFieldSize : Nat := 8 + 4 + 4 + 4

/-- `offsetof(struct log_hdr, size)`. -/
def sizeOffset : Nat := 16

def dummyPartitionId : Nat := 1234

/-- `TFM_LOG_READ_RECENT`. -/
def tfmLogReadRecent : Int32 := -1

/-- `enum tfm_log_err`, success excluded. -/
inductive TfmLogErr where
  | failure
  deriving DecidableEq, Repr

/-- `struct tfm_log_line`: the size, and as many bytes behind it (function id, arguments and
payload). -/
structure TfmLogLine where
  size : UInt32
  info : Vector UInt8 size.toNat

/-- `struct log_vars`. -/
structure LogVars where
  firstElIdx : Nat
  lastElIdx : Nat
  numItems : Nat
  storedSize : Nat
  deriving DecidableEq, Repr

/-- The statics `log_buffer`, `log_state` and `global_timestamp`. -/
structure LogState where
  logBuffer : Nat → UInt8
  logState : LogVars
  globalTimestamp : Nat

/-- `struct tfm_log_info`. -/
structure TfmLogInfo where
  size : Nat
  numItems : Nat
  deriving DecidableEq, Repr

/-! ## Entries in the ring

The size of an entry is the only link to the next one, and it is part of the bytes in the ring. -/

/-- The word that `GET_SIZE_FIELD_POINTER(idx)` points to. -/
def getSizeField (buf : Nat → UInt8) (idx : Nat) : Nat :=
  let p := (idx + sizeOffset) % logSize
  ofLe32 ((List.range 4).map fun i => buf (p + i)) 0

/-- The size of an entry with a line of `size` bytes. -/
def computeLogEntrySize (size : Nat) : Nat :=
  u32 (logFixedFieldSize + size + logMacSize)

/-- The size of the entry at `idx`. -/
def logEntrySize (buf : Nat → UInt8) (idx : Nat) : Nat :=
  computeLogEntrySize (getSizeField buf idx)

/-- The position behind the entry at `idx`. -/
def getNextLogIndex (buf : Nat → UInt8) (idx : Nat) : Nat :=
  u32 (idx + logEntrySize buf idx) % logSize

/-- The loop of `log_replace_item`: drop the oldest entries until `size` bytes are free. The
loops of this file take the two accesses they make to the ring as parameters. -/
def logReplaceLoop (entrySize next : Nat → Nat) (size lastElIdx : Nat) : Nat → Nat → Nat → LogVars
  | numItems, firstElIdx, storedSize =>
    if size > sub32 logSize storedSize then
      match numItems with
      -- a full loop without finding room: reset
      | 0 => ⟨0, 0, 0, 0⟩
      | numItems + 1 =>
        logReplaceLoop entrySize next size lastElIdx numItems (next firstElIdx)
          (sub32 storedSize (entrySize firstElIdx))
    else ⟨firstElIdx, lastElIdx, numItems, storedSize⟩

/-- The position for a new entry of `size` bytes, and the state with the oldest entries
removed. (The end position is computed as well, but nothing reads it.) -/
def logReplaceItem (st : LogState) (size : Nat) : Nat × LogState :=
  let vars := logReplaceLoop (logEntrySize st.logBuffer) (getNextLogIndex st.logBuffer) size
    st.logState.lastElIdx st.logState.numItems st.logState.firstElIdx st.logState.storedSize
  let startPos := if vars.numItems = 0 then vars.firstElIdx
    else getNextLogIndex st.logBuffer vars.lastElIdx
  (startPos, { st with logState := vars })

/-- A copy that wraps around the end of the ring. Nothing is copied when the position is not in the
ring or the entry is larger than it. -/
def logBufferCopy (buf : Nat → UInt8) (destIdx : Nat) (src : List UInt8) :
    Except TfmLogErr Unit × (Nat → UInt8) :=
  if destIdx ≥ logSize ∨ src.length > logSize then (.error .failure, buf)
  else (.ok (), store logSize buf destIdx src)

/-- The bytes of an entry: header, line and MAC. -/
def logFormatBuffer (timestamp : Nat) (line : TfmLogLine) : List UInt8 :=
  le32 (timestamp % 2 ^ 32) ++ (le32 (timestamp / 2 ^ 32) ++ (le32 0 ++ (le32 dummyPartitionId
    ++ (le32 line.size.toNat ++ (line.info.toList ++ [0, 1, 2, 3])))))

/-! ## Public functions

Each call gets the statics and returns them. A call that is refused returns them unchanged. -/

/-- The ring keeps its bytes. -/
def logCoreInit (st : LogState) : LogState :=
  { st with logState := ⟨0, 0, 0, 0⟩ }

/-- Delete the `numItems` oldest entries. The number of removed items is stored through the
pointer `rem_items`, which may be null. -/
def logCoreDeleteItems (st : LogState) (numItems : Nat) (remItemsNull : Bool) :
    Except TfmLogErr Nat × LogState :=
  if remItemsNull then
    (.error .failure, st)
  else if numItems ≥ st.logState.numItems then
    (.ok st.logState.numItems, { st with logState := ⟨0, 0, 0, 0⟩ })
  else
    -- the head moves on; `stored_size` is not updated
    let firstElIdx := Nat.iterate (getNextLogIndex st.logBuffer) numItems
      st.logState.firstElIdx
    (.ok numItems, { st with logState := { st.logState with
      firstElIdx := firstElIdx, numItems := sub32 st.logState.numItems numItems } })

/-- What the counters say. -/
def logCoreGetInfo (st : LogState) : TfmLogInfo :=
  ⟨st.logState.storedSize, st.logState.numItems⟩

/-- The position for a line of `size` bytes. An empty log is started at the beginning of the
ring. -/
def logCoreAddLine.position (st : LogState) (size : Nat) : Nat × LogState :=
  if (logCoreGetInfo st).numItems = 0 then (0, st)
  else logReplaceItem st (computeLogEntrySize size)

/-- Write the line at `startPos` and update the state. The result of the copy is dropped. -/
def logCoreAddLine.append (st : LogState) (startPos : Nat) (line : TfmLogLine) : LogState where
  logBuffer := (logBufferCopy st.logBuffer startPos (logFormatBuffer st.globalTimestamp line)).2
  logState := {
    firstElIdx := st.logState.firstElIdx
    lastElIdx := startPos
    numItems := add32 st.logState.numItems 1
    storedSize := add32 st.logState.storedSize (computeLogEntrySize line.size.toNat) }
  globalTimestamp := (st.globalTimestamp + 1) % 2 ^ 64

/-- Add a line. `secureCaller` is the answer of `tfm_core_validate_secure_caller`. -/
def logCoreAddLine (st : LogState) (secureCaller : Bool) (line : TfmLogLine) :
    Except TfmLogErr Unit × LogState :=
  if ¬ secureCaller then (.error .failure, st)
  else if line.size.toNat % 4 ≠ 0 then (.error .failure, st)
  else if line.size.toNat > logSize - (logFixedFieldSize + logMacSize) then (.error .failure, st)
  else
    let place := logCoreAddLine.position st line.size.toNat
    (.ok (), logCoreAddLine.append place.2 place.1 line)

/-- The loop of `log_core_retrieve` that leaves out the oldest entries while the rest does not
fit; `none` when `fuel` iterations are not enough. -/
def logRetrieveRecent (next : Nat → Nat) (indexFirstEmptyEl : Nat) :
    Nat → Nat → Nat → Nat → Nat → Option (Nat × Nat × Nat × Nat)
  | 0, _, _, _, _ => none
  | fuel + 1, startIdx, numItems, storedSize, retrieved =>
    if retrieved < storedSize then
      let startIdx := next startIdx
      let storedSize := if indexFirstEmptyEl ≥ startIdx then indexFirstEmptyEl - startIdx
        else (logSize - startIdx) + indexFirstEmptyEl
      logRetrieveRecent next indexFirstEmptyEl fuel startIdx (sub32 numItems 1) storedSize
        (if storedSize < retrieved then storedSize else retrieved)
    else some (startIdx, numItems, storedSize, retrieved)

/-- The loop of `log_core_retrieve` that collects entries from a given one on. -/
def logRetrieveFrom (entrySize next : Nat → Nat) (retrieved : Nat) :
    Nat → Nat → Nat → Nat → Option (Nat × Nat)
  | 0, _, _, _ => none
  | fuel + 1, idx, numItems, storedSize =>
    let total := add32 storedSize (entrySize idx)
    if total ≤ retrieved then
      logRetrieveFrom entrySize next retrieved fuel (next idx) (add32 numItems 1) total
    else some (numItems, storedSize)

/-- Read entries into a buffer of `size` bytes: result code, the bytes written and what is
reported about them; `none` when a loop needs more than `fuel` iterations. -/
def logCoreRetrieve (fuel : Nat) (st : LogState) (size : UInt32) (start : Int32) :
    Option (Except TfmLogErr (List UInt8) × TfmLogInfo) :=
  let info := logCoreGetInfo st
  let next := getNextLogIndex st.logBuffer
  if size = 0 then some (.error .failure, ⟨0, 0⟩)
  else if info.numItems = 0 then some (.ok [], ⟨0, 0⟩)
  else
    let retrieved := min size.toNat info.size
    let firstIdx := st.logState.firstElIdx
    if start = tfmLogReadRecent then do
      let (startIdx, numItems, storedSize, retrieved) ← logRetrieveRecent next
        (next st.logState.lastElIdx) fuel firstIdx info.numItems info.size retrieved
      if storedSize = 0 then some (.ok [], ⟨0, 0⟩)
      else some (.ok (window logSize st.logBuffer startIdx retrieved), ⟨retrieved, numItems⟩)
    -- a comparison of unsigned numbers
    else if start.toUInt32.toNat < info.numItems then
      let startIdx := Nat.iterate next start.toUInt32.toNat firstIdx
      let storedSize := logEntrySize st.logBuffer startIdx
      if storedSize > retrieved then some (.ok [], ⟨0, 0⟩)
      else do
        let (numItems, storedSize) ← logRetrieveFrom (logEntrySize st.logBuffer) next retrieved fuel
          (next startIdx) 1 storedSize
        some (.ok (window logSize st.logBuffer startIdx storedSize), ⟨storedSize, numItems⟩)
    else some (.error .failure, ⟨0, 0⟩)

end Tfm.AuditLog
