import TrustedFirmware.Sst.Proofs.ObjectLayer

/-!
# Secure storage — assets in memory and in the core

An asset is in `g_sst_object` (`Holds`) or in the core (`Stored`). Loading takes it from the core to
the buffer, whatever the buffer held before (`performs_load`), and storing takes it back
(`performs_storeObject`); between these two steps the plain and the encrypted build do the same.

The encrypted build stores IV, tag and ciphertext in place of the plain bytes. `Stored` says for
both builds what can be recovered from the bytes of the core, so that the lemmas about calls need
not tell the builds apart.
-/

namespace Tfm.Sst

open Word32

/-! ## Bytes

Encodings of words and ranges, as far as the images need them. -/

theorem bufBytes_drop (l : List UInt8) (p n : Nat) : (bufBytes l (p + n)).drop p = bufBytes (l.drop p) n := by
  apply List.ext_getElem
  · simp
  · intro k hk hk'
    rw [length_bufBytes] at hk'
    simp [bufBytes, List.getD_eq_getElem?_getD]

/-- A word that is read and encoded again. -/
theorem le32_ofLe32 (l : List UInt8) (p : Nat) : le32 (ofLe32 l p) = bufBytes (l.drop p) 4 := by
  have hbytes : bufBytes (l.drop p) 4
      = [l.getD p 0, l.getD (p + 1) 0, l.getD (p + 2) 0, l.getD (p + 3) 0] := by
    simp only [bufBytes, List.range_succ, List.range_zero, List.nil_append, List.cons_append, List.map_cons,
      List.map_nil, getD_drop_add, Nat.add_zero]
  have h0 := (l.getD p 0).toNat_lt
  have h1 := (l.getD (p + 1) 0).toNat_lt
  have h2 := (l.getD (p + 2) 0).toNat_lt
  have h3 := (l.getD (p + 3) 0).toNat_lt
  rw [hbytes]
  simp only [le32, ofLe32, ← UInt8.toNat_inj, List.cons.injEq, and_true, UInt8.toNat_ofNat']
  omega

theorem bufBytes_append (l : List UInt8) (p n : Nat) :
    bufBytes l p ++ bufBytes (l.drop p) n = bufBytes l (p + n) := by
  simp only [bufBytes, List.range_add, List.map_append, List.map_map, getD_drop_add]
  rfl

/-! ## Images

A buffer holds an asset when its header and its data do; the rest of the buffer is of no account. -/

/-- The asset can be stored in the build: its data is within its maximum size and within the buffer. The
maximum size may be larger than the buffer, as it is for some assets of the policy database. -/
structure Asset.Fits (cfg : Config) (a : Asset) : Prop where
  type_lt : a.type < 2 ^ 32
  data_le : a.data.length ≤ a.sizeMax
  data_le_buf : a.data.length ≤ cfg.maxAssetSize
  size_lt : cfg.objectHeaderSize + a.sizeMax < 2 ^ 32

/-- The buffer holds the header of the asset. -/
structure HoldsHeader (cfg : Config) (a : Asset) (object : List UInt8) : Prop where
  length : object.length = cfg.objectBufSize
  info : objectInfo cfg.toBuildOptions object = a.info
  attrs : objectAttrs cfg.toBuildOptions object = a.attrs

/-- The buffer holds the asset. -/
structure Holds (cfg : Config) (a : Asset) (object : List UInt8) : Prop extends HoldsHeader cfg a object where
  data : bufBytes (object.drop cfg.objectHeaderSize) a.data.length = a.data

/-- The bytes of the core are those of the asset. -/
structure Stored (cfg : Config) (a : Asset) (content : List UInt8) : Prop where
  length : content.length = cfg.objectHeaderSize + a.data.length
  info : objectInfo cfg.toBuildOptions content = a.info
  attrs : objectAttrs cfg.toBuildOptions content = a.attrs
  plain : cfg.encryption = false → content.drop cfg.objectHeaderSize = a.data
  encrypted : cfg.encryption = true →
    cfg.crypto.gcmAuthDecrypt (bufBytes (content.drop ivOffset) 12)
      (associatedData cfg.toBuildOptions content) (content.drop cfg.objectHeaderSize)
      (bufBytes content sstTagLenBytes) = .ok a.data

/-- What was encrypted and tagged is decrypted to the plaintext. -/
structure CryptoLib.Inverse (crypto : CryptoLib) : Prop where
  setkey : crypto.gcmSetkey = .ok ()
  inverse : ∀ iv add input, ∃ tag cipher, crypto.gcmCryptAndTag iv add input = .ok (tag, cipher)
    ∧ cipher.length = input.length ∧ crypto.gcmAuthDecrypt iv add cipher tag.toList = .ok input

/-- The buffers have their sizes. -/
structure StaticsFit (cfg : Config) (st : ObjectStatics) : Prop where
  ready : st.systemReady = true
  object : st.object.length = cfg.objectBufSize
  plaintextBuf : st.plaintextBuf.length = cfg.maxAssetSize

section Layout

variable (cfg : Config)

/-- The size of the largest object fits 32 bits. -/
theorem headerSize_add_maxAssetSize_lt : cfg.objectHeaderSize + cfg.maxAssetSize < 2 ^ 32 := by
  have h1 := cfg.maxObjectSize_lt
  have h2 := cfg.blockSize_le
  have h3 := cfg.flashProgramUnit_pos
  have h4 : cfg.objectHeaderSize + cfg.maxAssetSize ≤ cfg.maxObjectSize := by
    rw [BuildOptions.maxObjectSize]
    omega
  omega

theorem objectBufSize_eq : cfg.objectBufSize = cfg.objectHeaderSize + cfg.maxAssetSize := rfl

/-- The size of an object that fits the buffer does not wrap. -/
theorem sstObjectSize_eq {n : Nat} (h : n ≤ cfg.maxAssetSize) :
    sstObjectSize cfg.toBuildOptions n = cfg.objectHeaderSize + n := by
  have := headerSize_add_maxAssetSize_lt cfg
  exact add32_eq (by omega)

/-- In the encrypted build the header starts with the crypto data. -/
theorem crypto_layout (h : cfg.encryption = true) :
    sstCryptoSize ≤ cfg.infoOffset ∧ sstCryptoSize ≤ cfg.attrOffset
      ∧ sstCryptoSize ≤ cfg.objectHeaderSize := by
  unfold BuildOptions.infoOffset BuildOptions.attrOffset BuildOptions.objectHeaderSize
    BuildOptions.uuidOffset
  rw [if_pos h, if_pos h, if_pos h]
  decide

end Layout

section Images

variable {cfg : Config} {a : Asset} {object object' content : List UInt8}

/-- A header is held by every buffer with the same bytes there. -/
theorem HoldsHeader.of_agree (h : HoldsHeader cfg a object) {p : Nat} (hp : p ≤ cfg.infoOffset)
    (hagree : AgreeOn p cfg.objectHeaderSize object' object) (hlen : object'.length = object.length) :
    HoldsHeader cfg a object' := by
  have hlay := header_layout cfg.toBuildOptions
  refine ⟨hlen.trans h.length, ?_, ?_⟩
  · rw [← h.info]
    exact objectInfo_congr (hagree.mono hp (by omega))
  · rw [← h.attrs]
    exact objectAttrs_congr (hagree.mono (by omega) (by omega))

theorem HoldsHeader.sizeCurrent (h : HoldsHeader cfg a object) :
    (objectInfo cfg.toBuildOptions object).sizeCurrent = a.data.length :=
  congrArg AssetInfo.sizeCurrent h.info

/-- The number of bytes that are stored for the asset in the buffer. -/
theorem HoldsHeader.objectSize (h : HoldsHeader cfg a object) (hle : a.data.length ≤ cfg.maxAssetSize) :
    sstObjectSize cfg.toBuildOptions (objectInfo cfg.toBuildOptions object).sizeCurrent
      = cfg.objectHeaderSize + a.data.length := by
  rw [h.sizeCurrent]
  exact sstObjectSize_eq cfg hle

/-- The bytes of the information that are returned to a caller. -/
theorem bufBytes_info (h : objectInfo cfg.toBuildOptions object = a.info) :
    bufBytes (object.drop cfg.infoOffset) psaSstAssetInfoSize = a.info.encode := by
  rw [← h, objectInfo_eq, AssetInfo.encode, List.append_nil]
  dsimp only
  rw [le32_ofLe32, le32_ofLe32, le32_ofLe32]
  -- three words next to each other are one range
  have h4 : bufBytes (object.drop (cfg.infoOffset + 4)) 4 ++ bufBytes (object.drop (cfg.infoOffset + 8)) 4
      = bufBytes (object.drop (cfg.infoOffset + 4)) 8 := by
    rw [← bufBytes_append _ 4 4, List.drop_drop]
  have h12 : bufBytes (object.drop cfg.infoOffset) 4 ++ bufBytes (object.drop (cfg.infoOffset + 4)) 8
      = bufBytes (object.drop cfg.infoOffset) 12 := by
    rw [← bufBytes_append _ 4 8, List.drop_drop]
  rw [h4, h12]
  rfl

/-- The bytes of the attributes that are returned to a caller. -/
theorem bufBytes_attrs (h : objectAttrs cfg.toBuildOptions object = a.attrs) :
    bufBytes (object.drop cfg.attrOffset) psaSstAssetAttrSize = a.attrs.toList := by
  rw [← h, objectAttrs, bufBytes]
  apply List.ext_getElem
  · simp [psaSstAssetAttrSize]
  · intro k hk hk'
    simp

end Images

/-! ## Loading

`hcore` is all that is known about the core: it acts as a map. -/

section Load

variable {cfg : Config} {a : Asset} {u : UInt32} {st : ObjectStatics} {ob : StoredObject} {σ φ : Type}
  {core : CoreInterface (StateM σ)} {space : Space φ} {objects : σ → ObjectMap UInt32} {free : σ → φ}
  {c : σ} (hcore : core.ActsAsMap space objects free)

theorem agreeOn_take (l : List UInt8) (n : Nat) : AgreeOn 0 n (l.take n) l := by
  intro k _ hk
  rw [List.getD_eq_getElem?_getD, List.getD_eq_getElem?_getD, List.getElem?_take_of_lt hk]

/-- The header of what is in the core, read into the buffer. -/
theorem holdsHeader_memcpy (hst : StaticsFit cfg st) (hstored : Stored cfg a ob.content) {n : Nat}
    (hn : cfg.objectHeaderSize ≤ n) (hlen : n ≤ ob.content.length) (hbuf : n ≤ cfg.objectBufSize) :
    AgreeOn 0 n (sstUtilsMemcpy st.object 0 (ob.content.take n)) ob.content
      ∧ HoldsHeader cfg a (sstUtilsMemcpy st.object 0 (ob.content.take n)) := by
  have hlay := header_layout cfg.toBuildOptions
  have htake : (ob.content.take n).length = n := List.length_take_of_le hlen
  have hagree : AgreeOn 0 n (sstUtilsMemcpy st.object 0 (ob.content.take n)) ob.content := by
    have hcopy : AgreeOn 0 (ob.content.take n).length (sstUtilsMemcpy st.object 0 (ob.content.take n))
        (ob.content.take n) := agreeOn_memcpy_zero
    rw [htake] at hcopy
    exact hcopy.trans (agreeOn_take _ _)
  refine ⟨hagree, ?_, ?_, ?_⟩
  · rw [length_sstUtilsMemcpy (by rw [htake, hst.object]; omega), hst.object]
  · rw [objectInfo_congr (hagree.mono (Nat.zero_le _) (by omega)), hstored.info]
  · rw [objectAttrs_congr (hagree.mono (Nat.zero_le _) (by omega)), hstored.attrs]

theorem header_fits (hst : StaticsFit cfg st) (hstored : Stored cfg a ob.content) :
    0 + ((ob.content.drop 0).take cfg.objectHeaderSize).length ≤ st.object.length := by
  have hlen := hstored.length
  rw [List.drop_zero, List.length_take_of_le (by omega), hst.object, objectBufSize_eq]
  omega

include hcore in
/-- The plain build loads the header; what stands behind it in the buffer is left as it was. -/
theorem performs_readHeader {α : Type} (hst : StaticsFit cfg st) (hob : objects c u = some ob)
    (hstored : Stored cfg a ob.content) {k : Unit → ObjM (StateM σ) α} {res : Except SstErr α}
    {st' : ObjectStatics} {c' : σ}
    (hk : Performs (k ())
      { st with object := sstUtilsMemcpy st.object 0 (ob.content.take cfg.objectHeaderSize) } c res st' c') :
    Performs (do
      let header ← ObjM.core (core.read u 0 cfg.objectHeaderSize)
      let x ← ObjM.copyToObject 0 header
      k x) st c res st' c' := by
  have hlen := hstored.length
  exact .bind (.core (hcore.read_some hob (by omega)))
    (.bind (.copyToObject (header_fits hst hstored)) hk)

/-- The data is copied behind the header. -/
theorem HoldsHeader.memcpy_data {object : List UInt8} (h : HoldsHeader cfg a object) (hfits : a.Fits cfg) :
    Holds cfg a (sstUtilsMemcpy object cfg.objectHeaderSize a.data) := by
  have hle := hfits.data_le_buf
  have hlen := h.length
  rw [objectBufSize_eq] at hlen
  have hlay := header_layout cfg.toBuildOptions
  refine ⟨h.of_agree (Nat.zero_le _) (agreeOn_memcpy_of_disjoint (by omega) (.inl (Nat.le_refl _)))
    (length_sstUtilsMemcpy (by omega)), bufBytes_memcpy (by omega)⟩

/-! ### The plain build

Header and data are read one after the other, the data only as far as the header says. -/

include hcore in
/-- The plain build reads the header, and then as many bytes of data as the header names. -/
theorem performs_load_plain (henc : cfg.encryption = false) (hst : StaticsFit cfg st)
    (hob : objects c u = some ob) (hfits : a.Fits cfg) (hstored : Stored cfg a ob.content) :
    ∃ st', Performs (sstObjectLoad cfg.toBuildOptions core u) st c (.ok ()) st' c
      ∧ StaticsFit cfg st' ∧ Holds cfg a st'.object := by
  have hlen := hstored.length
  obtain ⟨-, hheader⟩ := holdsHeader_memcpy hst hstored (Nat.le_refl _) (by omega)
    (by rw [objectBufSize_eq]; omega)
  have hsize : (objectInfo cfg.toBuildOptions (sstUtilsMemcpy st.object 0
      (ob.content.take cfg.objectHeaderSize))).sizeCurrent = a.data.length :=
    congrArg AssetInfo.sizeCurrent hheader.info
  rw [sstObjectLoad, if_neg (by rw [henc]; exact Bool.false_ne_true)]
  -- an empty asset has no data to be read, so the second read is left out
  rcases Nat.eq_zero_or_pos a.data.length with hempty | hpos
  · refine ⟨{ st with object := sstUtilsMemcpy st.object 0 (ob.content.take cfg.objectHeaderSize) },
      performs_readHeader hcore hst hob hstored (.bind .getStatics ?_),
      ⟨hst.ready, hheader.length, hst.plaintextBuf⟩, hheader, ?_⟩
    · dsimp only
      rw [hsize, if_neg (by omega)]
      exact .pure ()
    · rw [hempty, List.eq_nil_of_length_eq_zero hempty]
      rfl
  · have hholds := hheader.memcpy_data hfits
    have hdata : (ob.content.drop cfg.objectHeaderSize).take a.data.length = a.data := by
      rw [hstored.plain henc, List.take_length]
    refine ⟨{ st with object := sstUtilsMemcpy (sstUtilsMemcpy st.object 0
      (ob.content.take cfg.objectHeaderSize)) cfg.objectHeaderSize a.data },
      performs_readHeader hcore hst hob hstored (.bind .getStatics ?_),
      ⟨hst.ready, hholds.length, hst.plaintextBuf⟩, hholds⟩
    dsimp only
    rw [hsize, if_pos hpos]
    have hread : core.read u cfg.objectHeaderSize a.data.length c = _ :=
      hcore.read_some hob (by omega)
    rw [hdata] at hread
    refine .bind (.core hread) (.copyToObject ?_)
    rw [hheader.length, objectBufSize_eq]
    exact Nat.add_le_add_left (hfits.data_le_buf) _

/-! ### The encrypted build

The object is read as a whole, and decrypted in the buffer. Whatever the encryption has to do with
the image is in these lemmas. -/

/-- The data is decrypted in place. -/
theorem performs_authDecrypt (hkey : cfg.crypto.gcmSetkey = .ok ()) (hst : StaticsFit cfg st)
    (hfits : a.Fits cfg) (hheader : HoldsHeader cfg a st.object)
    (hdecrypt : cfg.crypto.gcmAuthDecrypt (bufBytes (st.object.drop ivOffset) 12)
      (associatedData cfg.toBuildOptions st.object)
      (bufBytes (st.object.drop cfg.objectHeaderSize) a.data.length)
      (bufBytes st.object sstTagLenBytes) = .ok a.data) :
    ∃ st', Performs (sstObjectAuthDecrypt cfg.toBuildOptions a.data.length) st c (.ok ()) st' c
      ∧ StaticsFit cfg st' ∧ Holds cfg a st'.object := by
  have hle := hfits.data_le_buf
  have hholds := hheader.memcpy_data hfits
  have hplain : bufBytes (sstUtilsMemcpy (List.replicate cfg.maxAssetSize 0) 0 a.data) a.data.length
      = a.data := by
    have hcopy : bufBytes ((sstUtilsMemcpy (List.replicate cfg.maxAssetSize 0) 0 a.data).drop 0)
        a.data.length = a.data := bufBytes_memcpy (Nat.zero_le _)
    rwa [List.drop_zero] at hcopy
  have hsize : (objectInfo cfg.toBuildOptions st.object).sizeCurrent = a.data.length :=
    congrArg AssetInfo.sizeCurrent hheader.info
  refine ⟨⟨st.systemReady, sstUtilsMemcpy st.object cfg.objectHeaderSize a.data,
    sstUtilsMemcpy (List.replicate cfg.maxAssetSize 0) 0 a.data⟩, ?_,
    ⟨hst.ready, hholds.length, ?_⟩, hholds⟩
  · -- the plaintext goes through a buffer of its own and is then copied over the ciphertext
    refine .bind (.ofExcept hkey) (.bind (.setPlaintextBuf _) (.bind .getStatics ?_))
    rw [if_neg (by omega)]
    refine .bind (.ofExcept hdecrypt) (.bind (.setPlaintextBuf _) (.bind .getStatics ?_))
    dsimp only
    rw [hsize, hplain]
    refine .copyToObject ?_
    rw [hst.object, objectBufSize_eq]
    exact Nat.add_le_add_left hle _
  · rw [length_sstUtilsMemcpy (by rw [List.length_replicate]; omega), List.length_replicate]

include hcore in
/-- The encrypted build reads all of the object into a cleared buffer and decrypts it. -/
theorem performs_load_encrypted (henc : cfg.encryption = true) (hkey : cfg.crypto.gcmSetkey = .ok ())
    (hst : StaticsFit cfg st) (hob : objects c u = some ob) (hfits : a.Fits cfg)
    (hstored : Stored cfg a ob.content) :
    ∃ st', Performs (sstReadEncryptedObject cfg.toBuildOptions core u) st c (.ok ()) st' c
      ∧ StaticsFit cfg st' ∧ Holds cfg a st'.object := by
  have hlen := hstored.length
  have hle := hfits.data_le_buf
  have hlt := headerSize_add_maxAssetSize_lt cfg
  obtain ⟨-, -, hhdr⟩ := crypto_layout cfg henc
  have hclear : StaticsFit cfg { st with object := List.replicate cfg.objectBufSize 0 } :=
    ⟨hst.ready, List.length_replicate, hst.plaintextBuf⟩
  obtain ⟨hagree, hheader⟩ := holdsHeader_memcpy hclear hstored (by omega) (Nat.le_refl _)
    (by rw [objectBufSize_eq]; omega)
  rw [List.take_length] at hagree hheader
  dsimp only at hagree hheader
  have hst₁ : StaticsFit cfg
      { st with object := sstUtilsMemcpy (List.replicate cfg.objectBufSize 0) 0 ob.content } :=
    ⟨hst.ready, hheader.length, hst.plaintextBuf⟩
  -- what is decrypted is what was stored
  have hsize : sstCryptoSize = 28 := rfl
  have htag : bufBytes (sstUtilsMemcpy (List.replicate cfg.objectBufSize 0) 0 ob.content) sstTagLenBytes
      = bufBytes ob.content sstTagLenBytes :=
    bufBytes_congr (p := 0) (hagree.mono (Nat.le_refl _) (by rw [sstTagLenBytes]; omega))
  have hiv := bufBytes_congr (p := ivOffset) (n := 12)
    (hagree.mono (Nat.zero_le _) (by rw [ivOffset]; omega))
  have hadd := associatedData_congr (hagree.mono (Nat.zero_le _) (by omega)) hhdr
  have hinput := bufBytes_congr (p := cfg.objectHeaderSize) (n := a.data.length)
    (hagree.mono (Nat.zero_le _) (by omega))
  have hcontent : bufBytes (ob.content.drop cfg.objectHeaderSize) a.data.length
      = ob.content.drop cfg.objectHeaderSize := by
    have hrest : a.data.length = (ob.content.drop cfg.objectHeaderSize).length := by
      rw [List.length_drop]
      omega
    rw [hrest, bufBytes_self]
  have hdecrypt := hstored.encrypted henc
  rw [← htag, ← hiv, ← hadd, ← hcontent, ← hinput] at hdecrypt
  obtain ⟨st', hperf, hst', hholds⟩ := performs_authDecrypt (c := c) hkey hst₁ hfits hheader hdecrypt
  have hplain : sub32 ob.content.length cfg.objectHeaderSize = a.data.length := by
    rw [sub32_eq (by omega) (by omega)]
    omega
  have hread : core.read u 0 ob.content.length c = (.ok ob.content, c) := by
    rw [hcore.read_some hob (by omega), List.drop_zero, List.take_length]
  refine ⟨st', .bind (.core (hcore.getInfo_some hob)) (.bind (.setObject _)
    (.bind (.core hread) (.bind (.copyToObject ?_) ?_))), hst', hholds⟩
  · rw [List.length_replicate, objectBufSize_eq]
    omega
  · rw [hplain]
    exact hperf

/-! ### Both builds -/

include hcore in
/-- Loading an object brings its asset into the buffer. -/
theorem performs_load (hkey : cfg.encryption = true → cfg.crypto.gcmSetkey = .ok ())
    (hst : StaticsFit cfg st) (hob : objects c u = some ob) (hfits : a.Fits cfg)
    (hstored : Stored cfg a ob.content) :
    ∃ st', Performs (sstObjectLoad cfg.toBuildOptions core u) st c (.ok ()) st' c
      ∧ StaticsFit cfg st' ∧ Holds cfg a st'.object := by
  cases henc : cfg.encryption with
  | false => exact performs_load_plain hcore henc hst hob hfits hstored
  | true =>
    rw [sstObjectLoad, if_pos henc]
    exact performs_load_encrypted hcore henc (hkey henc) hst hob hfits hstored

include hcore in
/-- Loading the header of an object brings it into the buffer. -/
theorem performs_loadHeader (hkey : cfg.encryption = true → cfg.crypto.gcmSetkey = .ok ())
    (hst : StaticsFit cfg st) (hob : objects c u = some ob) (hfits : a.Fits cfg)
    (hstored : Stored cfg a ob.content) :
    ∃ st', Performs (sstObjectLoadHeader cfg.toBuildOptions core u) st c (.ok ()) st' c
      ∧ StaticsFit cfg st' ∧ HoldsHeader cfg a st'.object
      ∧ (cfg.encryption = true → Holds cfg a st'.object) := by
  cases henc : cfg.encryption with
  | false =>
    have hlen := hstored.length
    obtain ⟨-, hheader⟩ := holdsHeader_memcpy hst hstored (Nat.le_refl _) (by omega)
      (by rw [objectBufSize_eq]; omega)
    rw [sstObjectLoadHeader, if_neg (by rw [henc]; exact Bool.false_ne_true)]
    refine ⟨{ st with object := sstUtilsMemcpy st.object 0 (ob.content.take cfg.objectHeaderSize) },
      ?_, ⟨hst.ready, hheader.length, hst.plaintextBuf⟩, hheader, fun h => nomatch h⟩
    exact .bind (.core (hcore.read_some hob (by omega))) (.copyToObject (header_fits hst hstored))
  -- the encrypted build has to decrypt all of the object to check its header
  | true =>
    rw [sstObjectLoadHeader, if_pos henc]
    obtain ⟨st', hperf, hst', hholds⟩ := performs_load_encrypted hcore henc (hkey henc) hst hob hfits hstored
    exact ⟨st', hperf, hst', hholds.toHoldsHeader, fun _ => hholds⟩

include hcore in
/-- An object that does not exist is not loaded. -/
theorem performs_load_none (hob : objects c u = none) :
    Performs (sstObjectLoad cfg.toBuildOptions core u) st c (.error .assetNotFound) st c := by
  rw [sstObjectLoad]
  split
  · exact .bind_error (.core (hcore.getInfo_none hob))
  · exact .bind_error (.core (hcore.read_none hob _ _))

include hcore in
theorem performs_loadHeader_none (hob : objects c u = none) :
    Performs (sstObjectLoadHeader cfg.toBuildOptions core u) st c (.error .assetNotFound) st c := by
  rw [sstObjectLoadHeader]
  split
  · exact .bind_error (.core (hcore.getInfo_none hob))
  · exact .bind_error (.core (hcore.read_none hob _ _))

end Load

/-! ## Storing

The object is written from its start, as long as its header says. What was stored before must not be
longer, or old bytes would remain behind it. -/

section Store

variable {cfg : Config} {a : Asset} {u : UInt32} {st : ObjectStatics} {ob : StoredObject}
  {object : List UInt8} {σ φ : Type} {core : CoreInterface (StateM σ)} {space : Space φ}
  {objects : σ → ObjectMap UInt32} {free : σ → φ} {c : σ} (hcore : core.ActsAsMap space objects free)

/-! ### The plain build: stored images

The bytes of the buffer are the bytes of the core. -/

/-- The bytes of the buffer that are written are those of the asset. -/
theorem stored_bufBytes (hheader : HoldsHeader cfg a object)
    (hplain : cfg.encryption = false →
      bufBytes (object.drop cfg.objectHeaderSize) a.data.length = a.data)
    (hencrypted : cfg.encryption = true →
      cfg.crypto.gcmAuthDecrypt (bufBytes (object.drop ivOffset) 12)
        (associatedData cfg.toBuildOptions object)
        (bufBytes (object.drop cfg.objectHeaderSize) a.data.length)
        (bufBytes object sstTagLenBytes) = .ok a.data) :
    Stored cfg a (bufBytes object (cfg.objectHeaderSize + a.data.length)) := by
  have hlay := header_layout cfg.toBuildOptions
  have hagree := agreeOn_bufBytes object (cfg.objectHeaderSize + a.data.length)
  constructor
  case length => rw [length_bufBytes]
  case info => rw [objectInfo_congr (hagree.mono (Nat.zero_le _) (by omega)), hheader.info]
  case attrs => rw [objectAttrs_congr (hagree.mono (Nat.zero_le _) (by omega)), hheader.attrs]
  case plain =>
    intro henc
    rw [bufBytes_drop, hplain henc]
  -- tag, IV, associated data and ciphertext are all within what is written
  case encrypted =>
    intro henc
    obtain ⟨-, -, hhdr⟩ := crypto_layout cfg henc
    have hsize : sstCryptoSize = 28 := rfl
    have htag : bufBytes (bufBytes object (cfg.objectHeaderSize + a.data.length)) sstTagLenBytes
        = bufBytes object sstTagLenBytes :=
      bufBytes_congr (p := 0) (hagree.mono (Nat.le_refl _) (by rw [sstTagLenBytes]; omega))
    have hiv := bufBytes_congr (p := ivOffset) (n := 12)
      (hagree.mono (Nat.zero_le _) (by rw [ivOffset]; omega))
    rw [htag, hiv, associatedData_congr (hagree.mono (Nat.zero_le _) (by omega)) hhdr, bufBytes_drop]
    exact hencrypted henc

/-- Bytes that cover the old content replace it. -/
theorem overlay_zero_of_le {content bytes : List UInt8} (h : content.length ≤ bytes.length) :
    ObjectMap.overlay content 0 bytes = bytes := by
  rw [ObjectMap.overlay, List.take_zero, List.nil_append, Nat.zero_add, List.drop_of_length_le h,
    List.append_nil]

/-- An object that is written from its start, and not longer than what is written. -/
theorem write_zero {m : ObjectMap UInt32} (hob : m u = some ob) {bytes : List UInt8}
    (h : ob.content.length ≤ bytes.length) :
    m.write u 0 bytes = m.put u ⟨ob.maxSize, bytes⟩ := by
  rw [ObjectMap.write_eq_put hob, overlay_zero_of_le h]

/-- The plain build rewrites the header alone. -/
theorem stored_overlay_header {a' : Asset} {content : List UInt8} (henc : cfg.encryption = false)
    (hstored : Stored cfg a content) (hheader : HoldsHeader cfg a' object) (hdata : a'.data = a.data) :
    Stored cfg a' (ObjectMap.overlay content 0 (bufBytes object cfg.objectHeaderSize)) := by
  have hlay := header_layout cfg.toBuildOptions
  have hagree : AgreeOn 0 cfg.objectHeaderSize
      (ObjectMap.overlay content 0 (bufBytes object cfg.objectHeaderSize)) object := by
    intro k _ hk
    rw [ObjectMap.getD_overlay (Nat.zero_le _), length_bufBytes, if_pos (by omega), Nat.sub_zero,
      getD_bufBytes _ hk]
  constructor
  case length =>
    rw [ObjectMap.length_overlay (Nat.zero_le _), length_bufBytes, hstored.length, hdata]
    omega
  case info => rw [objectInfo_congr (hagree.mono (Nat.zero_le _) (by omega)), hheader.info]
  case attrs => rw [objectAttrs_congr (hagree.mono (Nat.zero_le _) (by omega)), hheader.attrs]
  case plain =>
    intro _
    rw [ObjectMap.overlay, List.take_zero, List.nil_append, length_bufBytes, Nat.zero_add,
      List.drop_left' (length_bufBytes _ _), hstored.plain henc, hdata]
  case encrypted =>
    intro h
    rw [henc] at h
    cases h

/-- The bytes that were copied, by their number. -/
theorem bufBytes_memcpy_of_length {dest src : List UInt8} {pos n : Nat} (h : pos ≤ dest.length)
    (hn : src.length = n) : bufBytes ((sstUtilsMemcpy dest pos src).drop pos) n = src := by
  subst hn
  exact bufBytes_memcpy h

/-! ### The encrypted build: stored images

A fresh IV, the tag and the ciphertext take the places of the plain bytes, and the decryption gives
these back. -/

/-- IV, tag and ciphertext are put into the buffer. -/
def encryptedImage (cfg : Config) (object iv tag cipher : List UInt8) : List UInt8 :=
  sstUtilsMemcpy (sstUtilsMemcpy (sstUtilsMemcpy object ivOffset iv) 0 tag) cfg.objectHeaderSize cipher

theorem stored_encrypted {iv tag cipher : List UInt8} (henc : cfg.encryption = true)
    (hle : a.data.length ≤ cfg.maxAssetSize) (hholds : Holds cfg a object) (hiv : iv.length = 12) (htag : tag.length = 16)
    (hcipher : cipher.length = a.data.length)
    (hdecrypt : cfg.crypto.gcmAuthDecrypt iv
      (associatedData cfg.toBuildOptions (sstUtilsMemcpy object ivOffset iv)) cipher tag = .ok a.data) :
    HoldsHeader cfg a (encryptedImage cfg object iv tag cipher)
      ∧ Stored cfg a (bufBytes (encryptedImage cfg object iv tag cipher)
        (cfg.objectHeaderSize + a.data.length)) := by
  generalize hwritten : encryptedImage cfg object iv tag cipher = written
  obtain ⟨hinfoOff, -, hhdr⟩ := crypto_layout cfg henc
  have hsize : sstCryptoSize = 28 := rfl
  have hivOff : ivOffset = 16 := rfl
  have hlen := hholds.length
  rw [objectBufSize_eq] at hlen
  have hlen₁ : (sstUtilsMemcpy object ivOffset iv).length = object.length :=
    length_sstUtilsMemcpy (by omega)
  have hlen₂ : (sstUtilsMemcpy (sstUtilsMemcpy object ivOffset iv) 0 tag).length = object.length := by
    rw [← hlen₁]
    exact length_sstUtilsMemcpy (by omega)
  have hlen₃ : written.length = object.length := by
    rw [← hwritten, ← hlen₂]
    exact length_sstUtilsMemcpy (by omega)
  -- the ciphertext leaves the header, the tag what is behind it, the IV what is behind the crypto data
  have hagree₃ : AgreeOn 0 cfg.objectHeaderSize written
      (sstUtilsMemcpy (sstUtilsMemcpy object ivOffset iv) 0 tag) := by
    rw [← hwritten]
    exact agreeOn_memcpy_of_disjoint (by omega) (.inl (Nat.le_refl _))
  have hagree₂ : AgreeOn ivOffset cfg.objectHeaderSize written (sstUtilsMemcpy object ivOffset iv) :=
    (hagree₃.mono (Nat.zero_le _) (Nat.le_refl _)).trans
      (agreeOn_memcpy_of_disjoint (Nat.zero_le _) (.inr (by omega)))
  have hagree₁ : AgreeOn sstCryptoSize cfg.objectHeaderSize written object :=
    (hagree₂.mono (by omega) (Nat.le_refl _)).trans
      (agreeOn_memcpy_of_disjoint (by omega) (.inr (by omega)))
  have hheader : HoldsHeader cfg a written := hholds.toHoldsHeader.of_agree hinfoOff hagree₁ hlen₃
  refine ⟨hheader, stored_bufBytes hheader (fun h => by rw [henc] at h; cases h) fun _ => ?_⟩
  have htagLen : sstTagLenBytes = 16 := rfl
  have htag' : bufBytes written sstTagLenBytes = tag := by
    rw [← bufBytes_memcpy_of_length (Nat.zero_le _) htag]
    exact bufBytes_congr (p := 0) (hagree₃.mono (Nat.le_refl _) (by omega))
  have hiv' : bufBytes (written.drop ivOffset) 12 = iv := by
    rw [bufBytes_congr (hagree₂.mono (Nat.le_refl _) (by omega))]
    exact bufBytes_memcpy_of_length (by omega) hiv
  have hcipher' : bufBytes (written.drop cfg.objectHeaderSize) a.data.length = cipher := by
    rw [← hwritten]
    exact bufBytes_memcpy_of_length (by omega) hcipher
  rw [htag', hiv', hcipher', associatedData_congr (hagree₂.mono (by omega) (Nat.le_refl _)) hhdr]
  exact hdecrypt

include hcore in
/-- The data is encrypted in place, under a new IV. -/
theorem performs_authEncrypt (henc : cfg.encryption = true) (hcrypto : cfg.crypto.Inverse)
    (hst : StaticsFit cfg st) (hle : a.data.length ≤ cfg.maxAssetSize) (hholds : Holds cfg a st.object) :
    ∃ st' c', Performs (sstObjectAuthEncrypt cfg.toBuildOptions core a.data.length) st c (.ok ()) st' c'
      ∧ objects c' = objects c ∧ free c' = free c ∧ StaticsFit cfg st' ∧ HoldsHeader cfg a st'.object
      ∧ Stored cfg a (bufBytes st'.object (cfg.objectHeaderSize + a.data.length)) := by
  obtain ⟨-, -, hhdr⟩ := crypto_layout cfg henc
  have hsize : sstCryptoSize = 28 := rfl
  have hivOff : ivOffset = 16 := rfl
  have hlen := hst.object
  rw [objectBufSize_eq] at hlen
  obtain ⟨nextIv, c', hnext, hobjects, hfree⟩ := hcore.cryptoGetIv c
  have hiv : nextIv.toList.length = 12 := Vector.length_toList
  have hlen₁ : (sstUtilsMemcpy st.object ivOffset nextIv.toList).length
      = st.object.length := length_sstUtilsMemcpy (by omega)
  have hdata : bufBytes ((sstUtilsMemcpy st.object ivOffset nextIv.toList).drop
      cfg.objectHeaderSize) a.data.length = a.data := by
    rw [bufBytes_congr (agreeOn_memcpy_of_disjoint (by omega) (.inr (by omega))), hholds.data]
  obtain ⟨tag, cipher, hcrypt, hcipher, hdecrypt⟩ := hcrypto.inverse nextIv.toList
    (associatedData cfg.toBuildOptions
      (sstUtilsMemcpy st.object ivOffset nextIv.toList)) a.data
  have htag : tag.toList.length = 16 := Vector.length_toList
  have hlen₂ : (sstUtilsMemcpy (sstUtilsMemcpy st.object ivOffset nextIv.toList) 0
      tag.toList).length = st.object.length := by
    rw [← hlen₁]
    exact length_sstUtilsMemcpy (by omega)
  -- the tag is computed over the header with the new IV, before it is put there itself
  obtain ⟨hheader, hstored⟩ := stored_encrypted henc hle hholds hiv htag hcipher hdecrypt
  have hplain : bufBytes (sstUtilsMemcpy st.plaintextBuf 0 cipher) a.data.length = cipher :=
    bufBytes_memcpy_of_length (Nat.zero_le _) hcipher
  have hget : (Except.ok <$> core.cryptoGetIv : StateM σ (Except SstErr _)) c = (.ok nextIv, c') := by
    show (fun r : Vector UInt8 12 × σ => (Except.ok r.1, r.2)) (core.cryptoGetIv c) = _
    rw [hnext]
  refine ⟨⟨st.systemReady, encryptedImage cfg st.object nextIv.toList tag.toList cipher,
    sstUtilsMemcpy st.plaintextBuf 0 cipher⟩,
    c', ?_, hobjects, hfree, ⟨hst.ready, hheader.length, ?_⟩, hheader, hstored⟩
  · refine .bind (.ofExcept hcrypto.setkey) (.bind (.core hget) (.bind (.copyToObject (by omega))
      (.bind .getStatics ?_)))
    rw [if_neg (by omega)]
    dsimp only
    rw [hdata]
    refine .bind (.ofExcept hcrypt) (.bind (.copyToObject ?_) (.bind (.setPlaintextBuf _)
      (.bind .getStatics ?_)))
    · dsimp only
      omega
    · dsimp only
      rw [hplain]
      refine .copyToObject ?_
      dsimp only
      omega
  · rw [length_sstUtilsMemcpy (by rw [hst.plaintextBuf]; omega), hst.plaintextBuf]

/-! ### Storing the object -/

/-- What `sst_object_write` does with the object in the buffer. -/
def storeObject (cfg : Config) (core : CoreInterface (StateM σ)) (u : UInt32) : ObjM (StateM σ) Unit :=
  if cfg.encryption then sstEncryptedObjectWrite cfg.toBuildOptions core u
  else do
    let st ← ObjM.getStatics
    ObjM.core (core.write u st.object 0
      (sstObjectSize cfg.toBuildOptions (objectInfo cfg.toBuildOptions st.object).sizeCurrent))

include hcore in
/-- The object is stored, as long as it does not get shorter. -/
theorem performs_storeObject (hcrypto : cfg.encryption = true → cfg.crypto.Inverse)
    (hst : StaticsFit cfg st) (hob : objects c u = some ob)
    (hmax : ob.maxSize = cfg.objectHeaderSize + a.sizeMax)
    (hlen : ob.content.length ≤ cfg.objectHeaderSize + a.data.length) (hfits : a.Fits cfg)
    (hholds : Holds cfg a st.object) :
    ∃ st' c' content, Performs (storeObject cfg core u) st c (.ok ()) st' c' ∧ StaticsFit cfg st'
      ∧ objects c' = (objects c).put u ⟨ob.maxSize, content⟩ ∧ free c' = free c ∧ Stored cfg a content := by
  have hroom : cfg.objectHeaderSize + a.data.length ≤ ob.maxSize := by
    rw [hmax]
    exact Nat.add_le_add_left hfits.data_le _
  cases henc : cfg.encryption with
  | false =>
    have hstored := stored_bufBytes hholds.toHoldsHeader (fun _ => hholds.data)
      (fun h => by rw [henc] at h; cases h)
    obtain ⟨c', hwrite, hobjects, hfree⟩ := hcore.write_ok hob hroom st.object
    refine ⟨st, c', _, ?_, hst, hobjects.trans (write_zero hob ?_), hfree, hstored⟩
    · rw [storeObject, if_neg (by rw [henc]; exact Bool.false_ne_true)]
      refine .bind .getStatics ?_
      rw [hholds.objectSize hfits.data_le_buf]
      exact .core hwrite
    · rw [length_bufBytes]
      exact hlen
  | true =>
    obtain ⟨st', c₁, hperf, hobjects₁, hfree₁, hst', hheader, hstored⟩ :=
      performs_authEncrypt hcore (c := c) henc (hcrypto henc) hst hfits.data_le_buf hholds
    have hob₁ : objects c₁ u = some ob := by
      rw [hobjects₁]
      exact hob
    obtain ⟨c', hwrite, hobjects, hfree⟩ := hcore.write_ok hob₁ hroom st'.object
    refine ⟨st', c', _, ?_, hst', ?_, hfree.trans hfree₁, hstored⟩
    · rw [storeObject, if_pos henc]
      refine .bind .getStatics ?_
      rw [hholds.sizeCurrent]
      refine .bind hperf (.bind .getStatics ?_)
      rw [hheader.objectSize hfits.data_le_buf]
      exact .core hwrite
    · rw [hobjects, write_zero hob₁ (by rw [length_bufBytes]; exact hlen), hobjects₁]

include hcore in
/-- An object that would become longer than its maximum size is not stored: the core refuses it. -/
theorem performs_storeObject_refused (hcrypto : cfg.encryption = true → cfg.crypto.Inverse)
    (hst : StaticsFit cfg st) (hob : objects c u = some ob)
    (hmax : ob.maxSize < cfg.objectHeaderSize + a.data.length) (hle : a.data.length ≤ cfg.maxAssetSize)
    (hholds : Holds cfg a st.object) :
    ∃ st' c', Performs (storeObject cfg core u) st c (.error .paramError) st' c' ∧ StaticsFit cfg st'
      ∧ objects c' = objects c ∧ free c' = free c := by
  cases henc : cfg.encryption with
  | false =>
    obtain ⟨c', hwrite, hobjects, hfree⟩ := hcore.write_refused hob hmax st.object
    refine ⟨st, c', ?_, hst, hobjects, hfree⟩
    rw [storeObject, if_neg (by rw [henc]; exact Bool.false_ne_true)]
    refine .bind .getStatics ?_
    rw [hholds.objectSize hle]
    exact .core hwrite
  | true =>
    -- the IV is used up all the same
    obtain ⟨st', c₁, hperf, hobjects₁, hfree₁, hst', hheader, -⟩ :=
      performs_authEncrypt hcore (c := c) henc (hcrypto henc) hst hle hholds
    have hob₁ : objects c₁ u = some ob := by
      rw [hobjects₁]
      exact hob
    obtain ⟨c', hwrite, hobjects, hfree⟩ := hcore.write_refused hob₁ hmax st'.object
    refine ⟨st', c', ?_, hst', hobjects.trans hobjects₁, hfree.trans hfree₁⟩
    rw [storeObject, if_pos henc]
    refine .bind .getStatics ?_
    rw [hholds.sizeCurrent]
    refine .bind hperf (.bind .getStatics ?_)
    rw [hheader.objectSize hle]
    exact .core hwrite

end Store

/-! ## The buffer between loading and storing

What a function does to the buffer, it does to the asset. -/

section Buffer

variable {cfg : Config} {a : Asset} {object : List UInt8}

/-- A range is known when its bytes are. -/
theorem bufBytes_eq_of_getD {l d : List UInt8} {n : Nat} (hlen : d.length = n)
    (h : ∀ k < n, l.getD k 0 = d.getD k 0) : bufBytes l n = d := by
  rw [← bufBytes_self d, hlen]
  exact List.map_congr_left fun k hk => h k (List.mem_range.mp hk)

theorem Holds.getD_data (h : Holds cfg a object) {k : Nat} (hk : k < a.data.length) :
    object.getD (cfg.objectHeaderSize + k) 0 = a.data.getD k 0 := by
  rw [← getD_drop_add, ← getD_bufBytes _ hk, h.data]

/-- The bytes that are copied to the caller. -/
theorem Holds.read (h : Holds cfg a object) {offset size : Nat} (hsize : offset + size ≤ a.data.length) :
    bufBytes (object.drop (cfg.objectHeaderSize + offset)) size = (a.data.drop offset).take size := by
  refine bufBytes_eq_of_getD ?_ fun k hk => ?_
  · rw [List.length_take, List.length_drop]
    omega
  · rw [getD_drop_add, Nat.add_assoc, h.getD_data (by omega), List.getD_eq_getElem?_getD,
      List.getD_eq_getElem?_getD, List.getElem?_take_of_lt hk, List.getElem?_drop]

/-- The bytes of the caller are copied into the data. -/
theorem HoldsHeader.memcpy {data : List UInt8} {offset : Nat} (h : HoldsHeader cfg a object)
    (hoffset : offset + data.length ≤ cfg.maxAssetSize) :
    HoldsHeader cfg a (sstUtilsMemcpy object (cfg.objectHeaderSize + offset) data) := by
  have hlen := h.length
  rw [objectBufSize_eq] at hlen
  exact h.of_agree (Nat.zero_le _) (agreeOn_memcpy_of_disjoint (by omega) (.inl (by omega)))
    (length_sstUtilsMemcpy (by omega))

/-- The bytes of the data after the copy. -/
theorem Holds.getD_memcpy {data : List UInt8} {offset : Nat} (h : Holds cfg a object)
    (hoffset : offset ≤ a.data.length) (hle : a.data.length ≤ cfg.maxAssetSize) {k : Nat}
    (hk : k < max a.data.length (offset + data.length)) :
    (sstUtilsMemcpy object (cfg.objectHeaderSize + offset) data).getD (cfg.objectHeaderSize + k) 0
      = (ObjectMap.overlay a.data offset data).getD k 0 := by
  have hlen := h.length
  rw [objectBufSize_eq] at hlen
  rw [getD_sstUtilsMemcpy (by omega), ObjectMap.getD_overlay hoffset]
  by_cases hin : offset ≤ k ∧ k < offset + data.length
  · rw [if_pos hin, if_pos (by omega)]
    congr 1
    omega
  · rw [if_neg hin, if_neg (by omega), h.getD_data (by omega)]

/-- The buffer with the caller's bytes, and with the new size if the asset gets longer. -/
def writtenImage (cfg : Config) (a : Asset) (object data : List UInt8) (offset : Nat) : List UInt8 :=
  if offset + data.length > a.data.length then
    setSizeCurrent cfg.toBuildOptions (sstUtilsMemcpy object (cfg.objectHeaderSize + offset) data)
      (offset + data.length)
  else sstUtilsMemcpy object (cfg.objectHeaderSize + offset) data

/-- A buffer into which the caller's bytes were copied holds the asset with these bytes. -/
theorem Holds.write {data : List UInt8} {offset : Nat} (h : Holds cfg a object)
    (hle : a.data.length ≤ cfg.maxAssetSize) (hoffset : offset ≤ a.data.length)
    (hsize : offset + data.length ≤ cfg.maxAssetSize) :
    Holds cfg { a with data := ObjectMap.overlay a.data offset data }
      (writtenImage cfg a object data offset) := by
  have hlay := header_layout cfg.toBuildOptions
  have hlt := headerSize_add_maxAssetSize_lt cfg
  have hcopied : HoldsHeader cfg a (sstUtilsMemcpy object (cfg.objectHeaderSize + offset) data) :=
    h.memcpy hsize
  have hlen := hcopied.length
  rw [objectBufSize_eq] at hlen
  have hover : (ObjectMap.overlay a.data offset data).length = max a.data.length (offset + data.length) :=
    ObjectMap.length_overlay hoffset
  rw [writtenImage]
  split
  · -- the asset gets longer
    have hset : cfg.infoOffset + 4
        ≤ (sstUtilsMemcpy object (cfg.objectHeaderSize + offset) data).length := by omega
    refine ⟨⟨?_, ?_, ?_⟩, bufBytes_eq_of_getD rfl fun k hk => ?_⟩
    · rw [setSizeCurrent, length_sstUtilsMemcpy (by rw [length_le32]; omega), hcopied.length]
    · rw [objectInfo_setSizeCurrent (by omega) (by omega), hcopied.info]
      simp only [Asset.info, hover, AssetInfo.mk.injEq, true_and, and_true]
      omega
    · rw [← hcopied.attrs]
      exact objectAttrs_congr (agreeOn_memcpy_of_disjoint hset (.inr (by rw [length_le32]; omega)))
    · rw [getD_drop_add, setSizeCurrent, getD_sstUtilsMemcpy hset,
        if_neg (by rw [length_le32]; omega)]
      exact h.getD_memcpy hoffset hle (by rw [← hover]; exact hk)
  · refine ⟨⟨hcopied.length, ?_, hcopied.attrs⟩, bufBytes_eq_of_getD rfl fun k hk => ?_⟩
    · rw [hcopied.info]
      simp only [Asset.info, hover, AssetInfo.mk.injEq, true_and, and_true]
      omega
    · rw [getD_drop_add]
      exact h.getD_memcpy hoffset hle (by rw [← hover]; exact hk)

/-- New attributes are copied into the header. -/
theorem HoldsHeader.setAttrs (h : HoldsHeader cfg a object) (attrs : AssetAttrs) :
    HoldsHeader cfg { a with attrs := attrs } (sstUtilsMemcpy object cfg.attrOffset attrs.toList) := by
  have hlay := header_layout cfg.toBuildOptions
  have hlen := h.length
  rw [objectBufSize_eq] at hlen
  have hattrs : attrs.toList.length = 24 := Vector.length_toList
  refine ⟨?_, ?_, ?_⟩
  · rw [length_sstUtilsMemcpy (by omega), h.length]
  · have hinfo : AgreeOn cfg.infoOffset (cfg.infoOffset + 12)
        (sstUtilsMemcpy object cfg.attrOffset attrs.toList) object :=
      agreeOn_memcpy_of_disjoint (by omega) (.inl (by omega))
    rw [objectInfo_congr hinfo, h.info]
    rfl
  · apply Vector.ext
    intro i hi
    rw [objectAttrs, Vector.getElem_ofFn, getD_sstUtilsMemcpy (by omega), if_pos (by omega),
      Nat.add_sub_cancel_left]
    simp [List.getD_eq_getElem?_getD, hi]

/-- The same for a buffer that holds the data as well. -/
theorem Holds.setAttrs (h : Holds cfg a object) (attrs : AssetAttrs) :
    Holds cfg { a with attrs := attrs } (sstUtilsMemcpy object cfg.attrOffset attrs.toList) := by
  have hlay := header_layout cfg.toBuildOptions
  have hlen := h.length
  rw [objectBufSize_eq] at hlen
  have hattrs : attrs.toList.length = 24 := Vector.length_toList
  refine ⟨h.toHoldsHeader.setAttrs attrs, ?_⟩
  rw [bufBytes_congr (agreeOn_memcpy_of_disjoint (by omega) (.inr (by omega)))]
  exact h.data

/-- A new object is an empty asset. -/
theorem holds_initObject (u : UInt32) {type size : Nat} (htype : type < 2 ^ 32) (hsize : size < 2 ^ 32) :
    Holds cfg ⟨type, size, [], noAttrs⟩ (sstObjectInitObject cfg.toBuildOptions u type size) := by
  obtain ⟨hlen, hinfo, hattrs⟩ := initObject_spec cfg.toBuildOptions u type size
  rw [Nat.mod_eq_of_lt htype, Nat.mod_eq_of_lt hsize] at hinfo
  exact ⟨⟨hlen, hinfo, hattrs⟩, rfl⟩

end Buffer

end Tfm.Sst
