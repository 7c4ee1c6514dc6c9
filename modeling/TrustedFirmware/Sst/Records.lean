import TrustedFirmware.Sst.Config

/-!
# Secure storage — records kept in flash

The three structures of `sst_core.h` and their byte layout. Every record is read and programmed as
the memory image of the structure, so decoding an encoded record gives it back as long as its
members fit their C types.

Words are little-endian. The header ends with two bytes of padding, which are programmed and read
back with it.
-/

namespace Tfm.Sst

open Word32

/-! ## Block descriptors

Which physical block a logical block lives in, where its data starts, and how much of it is free. -/

/-- `struct sst_block_metadata`. -/
structure BlockMetadata where
  physId : Nat
  dataStart : Nat
  freeSize : Nat
  deriving DecidableEq, Repr

/-- The memory image of a block descriptor. -/
def BlockMetadata.encode (b : BlockMetadata) : List UInt8 :=
  le32 b.physId ++ (le32 b.dataStart ++ (le32 b.freeSize ++ []))

/-- Read the image of a block descriptor. -/
def BlockMetadata.decode (bs : List UInt8) : BlockMetadata :=
  ⟨ofLe32 bs 0, ofLe32 bs 4, ofLe32 bs 8⟩

/-- The members fit in 32 bits. -/
def BlockMetadata.Fits (b : BlockMetadata) : Prop :=
  b.physId < 2 ^ 32 ∧ b.dataStart < 2 ^ 32 ∧ b.freeSize < 2 ^ 32

@[simp] theorem BlockMetadata.length_encode (b : BlockMetadata) :
    b.encode.length = sizeofBlockMetadata := rfl

/-- **A block descriptor is read back.** -/
theorem BlockMetadata.decode_encode {b : BlockMetadata} (h : b.Fits) :
    BlockMetadata.decode b.encode = b := by
  obtain ⟨h1, h2, h3⟩ := h
  have e1 := ofLe32_append [] (le32 b.dataStart ++ (le32 b.freeSize ++ [])) h1
  have e2 := ofLe32_append (le32 b.physId) (le32 b.freeSize ++ []) h2
  have e3 := ofLe32_append (le32 b.physId ++ le32 b.dataStart) [] h3
  rw [List.append_assoc] at e3
  simp only [BlockMetadata.decode, BlockMetadata.encode]
  exact congr (congr (congrArg BlockMetadata.mk e1) e2) e3

theorem BlockMetadata.decode_fits (bs : List UInt8) : (BlockMetadata.decode bs).Fits :=
  ⟨ofLe32_lt _ _, ofLe32_lt _ _, ofLe32_lt _ _⟩

/-! ## Object table entries

Where an object lies and how large it is. An entry with the invalid id is free. -/

/-- `struct sst_assetmeta`. -/
structure Assetmeta where
  lblock : Nat
  dataIndex : Nat
  curSize : Nat
  maxSize : Nat
  uniqueId : UInt32
  deriving DecidableEq, Repr

/-- The memory image of an object table entry. -/
def Assetmeta.encode (m : Assetmeta) : List UInt8 :=
  le32 m.lblock ++ (le32 m.dataIndex ++ (le32 m.curSize ++ (le32 m.maxSize
    ++ (le32 m.uniqueId.toNat ++ []))))

/-- Read the image of a table entry. -/
def Assetmeta.decode (bs : List UInt8) : Assetmeta :=
  ⟨ofLe32 bs 0, ofLe32 bs 4, ofLe32 bs 8, ofLe32 bs 12, UInt32.ofNat (ofLe32 bs 16)⟩

/-- The members fit in 32 bits. -/
def Assetmeta.Fits (m : Assetmeta) : Prop :=
  m.lblock < 2 ^ 32 ∧ m.dataIndex < 2 ^ 32 ∧ m.curSize < 2 ^ 32 ∧ m.maxSize < 2 ^ 32

@[simp] theorem Assetmeta.length_encode (m : Assetmeta) : m.encode.length = sizeofAssetmeta := rfl

/-- **A table entry is read back.** -/
theorem Assetmeta.decode_encode {m : Assetmeta} (h : m.Fits) :
    Assetmeta.decode m.encode = m := by
  obtain ⟨h1, h2, h3, h4⟩ := h
  have h5 := UInt32.toNat_lt m.uniqueId
  have e1 := ofLe32_append [] (le32 m.dataIndex ++ (le32 m.curSize ++ (le32 m.maxSize
    ++ (le32 m.uniqueId.toNat ++ [])))) h1
  have e2 := ofLe32_append (le32 m.lblock) (le32 m.curSize ++ (le32 m.maxSize
    ++ (le32 m.uniqueId.toNat ++ []))) h2
  have e3 := ofLe32_append (le32 m.lblock ++ le32 m.dataIndex) (le32 m.maxSize
    ++ (le32 m.uniqueId.toNat ++ [])) h3
  have e4 := ofLe32_append (le32 m.lblock ++ (le32 m.dataIndex ++ le32 m.curSize))
    (le32 m.uniqueId.toNat ++ []) h4
  have e5 := ofLe32_append (le32 m.lblock ++ (le32 m.dataIndex ++ (le32 m.curSize
    ++ le32 m.maxSize))) [] h5
  -- the fields in front of the one that is read, bracketed to the right as `encode` has them
  simp only [List.append_assoc] at e3 e4 e5
  have e5' : UInt32.ofNat (ofLe32 m.encode 16) = m.uniqueId := by
    rw [show ofLe32 m.encode 16 = m.uniqueId.toNat from e5]
    exact UInt32.ofNat_toNat
  simp only [Assetmeta.decode]
  exact congr (congr (congr (congr (congrArg Assetmeta.mk e1) e2) e3) e4) e5'

theorem Assetmeta.decode_fits (bs : List UInt8) : (Assetmeta.decode bs).Fits :=
  ⟨ofLe32_lt _ _, ofLe32_lt _ _, ofLe32_lt _ _, ofLe32_lt _ _⟩

/-! ## The metadata block header

What decides which metadata block is in force. The encrypted build uses tag and IV, the plain build
leaves them alone. -/

/-- `union sst_crypto_t`. -/
structure SstCrypto where
  tag : Vector UInt8 16
  iv : Vector UInt8 12
  deriving DecidableEq, Repr

/-- `struct sst_metadata_block_header`, with its two bytes of trailing padding. -/
@[ext]
structure MetadataBlockHeader where
  crypto : SstCrypto
  scratchIdx : Nat
  fsVersion : UInt8
  activeSwapCount : UInt8
  padding : Vector UInt8 2
  deriving DecidableEq, Repr

/-- The memory image of a header. -/
def MetadataBlockHeader.encode (h : MetadataBlockHeader) : List UInt8 :=
  h.crypto.tag.toList ++ (h.crypto.iv.toList ++ (le32 h.scratchIdx
    ++ ([h.fsVersion, h.activeSwapCount] ++ h.padding.toList)))

/-- Read the image of a header. -/
def MetadataBlockHeader.decode (bs : List UInt8) : MetadataBlockHeader where
  crypto := ⟨Vector.ofFn fun i => bs.getD i 0, Vector.ofFn fun i => bs.getD (16 + i) 0⟩
  scratchIdx := ofLe32 bs 28
  fsVersion := bs.getD 32 0
  activeSwapCount := bs.getD 33 0
  padding := Vector.ofFn fun i => bs.getD (34 + i) 0

@[simp] theorem MetadataBlockHeader.length_encode (h : MetadataBlockHeader) :
    h.encode.length = sizeofMetadataBlockHeader := by
  simp [MetadataBlockHeader.encode, sizeofMetadataBlockHeader]

theorem getD_append_length_add (pre l : List UInt8) (i : Nat) :
    (pre ++ l).getD (pre.length + i) 0 = l.getD i 0 := by
  simp [List.getD_eq_getElem?_getD, List.getElem?_append_right]

/-- A byte array read back after it was stored between `pre` and `post`. -/
theorem ofFn_getD_append {n : Nat} (pre post : List UInt8) (v : Vector UInt8 n) :
    (Vector.ofFn fun i : Fin n => (pre ++ (v.toList ++ post)).getD (pre.length + i) 0) = v := by
  ext i hi
  simp [List.getD_eq_getElem?_getD, List.getElem?_append_right, List.getElem?_append_left]

/-- **A header is read back.** -/
theorem MetadataBlockHeader.decode_encode {h : MetadataBlockHeader} (hs : h.scratchIdx < 2 ^ 32) :
    MetadataBlockHeader.decode h.encode = h := by
  obtain ⟨⟨tag, iv⟩, scratchIdx, fsVersion, activeSwapCount, padding⟩ := h
  have hlen1 : tag.toList.length = 16 := by simp
  have hlen2 : (tag.toList ++ iv.toList).length = 28 := by simp
  have hlen3 : (tag.toList ++ (iv.toList ++ le32 scratchIdx)).length = 32 := by simp
  have e1 := ofFn_getD_append [] (iv.toList ++ (le32 scratchIdx
    ++ ([fsVersion, activeSwapCount] ++ padding.toList))) tag
  have e2 := ofFn_getD_append tag.toList (le32 scratchIdx
    ++ ([fsVersion, activeSwapCount] ++ padding.toList)) iv
  have e3 := ofLe32_append (tag.toList ++ iv.toList)
    ([fsVersion, activeSwapCount] ++ padding.toList) hs
  have e4 := getD_append_length_add (tag.toList ++ (iv.toList ++ le32 scratchIdx))
    ([fsVersion, activeSwapCount] ++ padding.toList)
  have e5 := ofFn_getD_append [fsVersion, activeSwapCount] [] padding
  simp only [List.nil_append, List.length_nil, Nat.zero_add] at e1
  simp only [List.append_assoc, hlen1, hlen2, hlen3] at e2 e3 e4
  simp only [List.append_nil] at e5
  simp only [MetadataBlockHeader.decode, MetadataBlockHeader.encode, e1, e2, e3,
    MetadataBlockHeader.mk.injEq, true_and]
  -- version and swap count are single bytes at 32 and 33, the padding follows them
  refine ⟨e4 0, e4 1, Eq.trans ?_ e5⟩
  congr 1
  funext i
  rw [show 34 + (i : Nat) = 32 + (2 + i) by omega, e4]
  rfl

end Tfm.Sst
