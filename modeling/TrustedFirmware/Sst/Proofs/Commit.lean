import TrustedFirmware.Sst.Proofs.Assembly

/-!
# What a commit leaves behind

An operation first assembles the scratch blocks (`Assembles`), then programs the header and erases
the blocks that are scratch afterwards. The flash that results is described block by block
(`replay_commitCalls`), and the tables of the new metadata block are computed from the calls.

`Commits` is the statement that the outcome lemmas of create, write and delete have in common: run
without faults, the function returns success and makes the calls of an assembly, a header and an
erasure.
-/

namespace Tfm.Sst

open Word32 BlockFlash Device

variable {cfg : Config} {f : Flash} {a s : Nat}

/-! ## Tables of the assembled block

What the lists of calls of `TrustedFirmware.Sst.Proofs.Assembly` do to the tables of a row. -/

/-- The copies leave entry `i` as it was programmed and take the others from block `a`. -/
theorem tablesOf_rowAfter_copyObjects {i : Nat} (row : Row) :
    tablesOf cfg (rowAfter s f (copyObjectsCalls cfg a s i) row)
      = ⟨(tablesOf cfg row).blk,
          fun j => if j = i then (tablesOf cfg row).obj j else (tablesOf cfg (f a)).obj j⟩ := by
  -- a copy of zero bytes is no copy, so both cases of the source are one
  have hcopy : rowAfter s f (copyObjectsCalls cfg a s i) row
      = (row.put (objOff cfg 0) ((f a).get (objOff cfg 0) (20 * i))).put (objOff cfg (i + 1))
          ((f a).get (objOff cfg (i + 1)) (20 * (cfg.numAssets - (i + 1)))) := by
    simp only [copyObjectsCalls]
    split
    · simp [Call.onRow]
    · rw [show 20 * (cfg.numAssets - (i + 1)) = 0 by omega]
      simp [Call.onRow]
  rw [hcopy, tablesOf_put_get_obj, tablesOf_put_get_obj]
  ext1
  · rfl
  · funext j
    by_cases hj : j < cfg.numAssets
    · dsimp only
      by_cases h1 : j = i
      · rw [if_neg (by omega), if_neg (by omega), if_pos h1]
      · by_cases h2 : j < i
        · rw [if_neg (by omega), if_pos (by omega), if_neg h1]
        · rw [if_pos (by omega), if_neg h1]
    · simp [tablesOf, hj]

/-- The copies leave descriptor `l` as it was programmed, give block 0 its new home and take the
others from block `a`. -/
theorem tablesOf_rowAfter_copyBlocks {l : Nat} {b0 : BlockMetadata} (row : Row)
    (hl : l < cfg.numActiveDblocks) (hb0 : b0.Fits) (hs : s < 2 ^ 32) :
    tablesOf cfg (rowAfter s f (copyBlocksCalls cfg a s l b0) row)
      = ⟨fun k => if k = l then (tablesOf cfg row).blk k
          else if k = 0 then { b0 with physId := s } else (tablesOf cfg (f a)).blk k,
        (tablesOf cfg row).obj⟩ := by
  have hout (k : Nat) (hk : ¬ k < cfg.numActiveDblocks) (row : Row) :
      (tablesOf cfg row).blk k = ⟨0, 0, 0⟩ := if_neg hk
  have hpos := cfg.numActiveDblocks_pos
  by_cases hl0 : l = 0
  · subst hl0
    have hcopy : rowAfter s f (copyBlocksCalls cfg a s 0 b0) row
        = row.put (blkOff 1) ((f a).get (blkOff 1) (12 * (cfg.numActiveDblocks - 1))) := by
      simp [copyBlocksCalls, Call.onRow]
    rw [hcopy, tablesOf_put_get_blk _ _ (by omega)]
    ext1
    · funext k
      dsimp only
      by_cases hk : k = 0
      · rw [if_neg (by omega), if_pos hk]
      · by_cases hk' : k < cfg.numActiveDblocks
        · rw [if_pos (by omega), if_neg hk, if_neg hk]
        · rw [if_neg (by omega), if_neg hk, if_neg hk, hout k hk', hout k hk']
    · rfl
  · have hcopy : rowAfter s f (copyBlocksCalls cfg a s l b0) row
        = ((row.put (blkOff 0) { b0 with physId := s }.encode).put (blkOff 1)
            ((f a).get (blkOff 1) (12 * (l - 1)))).put (blkOff (l + 1))
              ((f a).get (blkOff (l + 1)) (12 * (cfg.numActiveDblocks - (l + 1)))) := by
      simp only [copyBlocksCalls, ne_eq, hl0, not_false_eq_true, if_true]
      split
      · simp [Call.onRow]
      · rw [show l - 1 = 0 by omega]
        simp [Call.onRow]
    have hfits : ({ b0 with physId := s } : BlockMetadata).Fits := ⟨hs, hb0.2⟩
    rw [hcopy, tablesOf_put_get_blk _ _ (by omega), tablesOf_put_get_blk _ _ (by omega),
      tablesOf_put_blk _ hpos hfits]
    ext1
    · funext k
      dsimp only
      rw [Tables.setBlk_blk]
      by_cases hkl : k = l
      · rw [if_neg (by omega), if_neg (by omega), if_neg (by omega), if_pos hkl]
      · by_cases hk0 : k = 0
        · rw [if_neg (by omega), if_neg (by omega), if_pos hk0, if_neg hkl, if_pos hk0]
        · rw [if_neg hk0, if_neg hkl, if_neg hk0]
          -- the first copy covers the descriptors before `l`, the second those behind
          by_cases h1 : k < l
          · rw [if_neg (by omega), if_pos (by omega)]
          · by_cases hk' : k < cfg.numActiveDblocks
            · rw [if_pos (by omega)]
            · rw [if_neg (by omega), if_neg (by omega), hout k hk', hout k hk']
    · rfl

/-- The calls that program the entries `is`, one by one. -/
def objectWrites (cfg : Config) (s : Nat) (e : Nat → Assetmeta) (is : List Nat) : List Call :=
  is.map fun j => .write s (objOff cfg j) (e j).encode

/-- The calls that program the descriptors `is`, one by one. -/
def blockWrites (s : Nat) (b : Nat → BlockMetadata) (is : List Nat) : List Call :=
  is.map fun l => .write s (blkOff l) (b l).encode

theorem tablesOf_rowAfter_objectWrites {e : Nat → Assetmeta} (row : Row) (is : List Nat)
    (his : ∀ j ∈ is, j < cfg.numAssets) (he : ∀ j, (e j).Fits) :
    tablesOf cfg (rowAfter s f (objectWrites cfg s e is) row)
      = ⟨(tablesOf cfg row).blk, fun j => if j ∈ is then e j else (tablesOf cfg row).obj j⟩ := by
  -- over the entries, with the row as they leave it
  induction is generalizing row with
  | nil => simp [objectWrites]
  | cons k is ih =>
    show tablesOf cfg (rowAfter s f (objectWrites cfg s e is) (Call.onRow s f row _)) = _
    rw [ih _ fun j hj => his j (List.mem_cons_of_mem _ hj), Call.onRow, if_pos rfl,
      tablesOf_put_obj _ (his k List.mem_cons_self) (he k)]
    congr 1
    funext j
    rw [Tables.setObj_obj]
    by_cases hjk : j = k
    · subst hjk
      simp
    · simp [hjk]

theorem tablesOf_rowAfter_blockWrites {b : Nat → BlockMetadata} (row : Row) (is : List Nat)
    (his : ∀ l ∈ is, l < cfg.numActiveDblocks) (hb : ∀ l ∈ is, (b l).Fits) :
    tablesOf cfg (rowAfter s f (blockWrites s b is) row)
      = ⟨fun l => if l ∈ is then b l else (tablesOf cfg row).blk l, (tablesOf cfg row).obj⟩ := by
  induction is generalizing row with
  | nil => simp [blockWrites]
  | cons k is ih =>
    show tablesOf cfg (rowAfter s f (blockWrites s b is) (Call.onRow s f row _)) = _
    rw [ih _ (fun j hj => his j (List.mem_cons_of_mem _ hj))
      (fun j hj => hb j (List.mem_cons_of_mem _ hj)), Call.onRow, if_pos rfl,
      tablesOf_put_blk _ (his k List.mem_cons_self) (hb k List.mem_cons_self)]
    congr 1
    funext j
    rw [Tables.setBlk_blk]
    by_cases hjk : j = k
    · subst hjk
      simp
    · simp [hjk]

/-! ## The header

What the header calls leave, and what is decoded from it at the next start. The plain build never
programs the last two bytes of the header. -/

/-- The effect of the header calls on the assembled block. -/
def headerRow (cfg : Config) (h : MetadataBlockHeader) (row : Row) : Row :=
  if cfg.encryption then
    (row.put sstTagLenBytes (h.encode.drop sstTagLenBytes)).put 0 h.crypto.tag.toList
  else
    (row.put 0 (h.encode.take swapCountOffset)).put swapCountOffset [h.activeSwapCount]

theorem rowAfter_headerCalls (h : MetadataBlockHeader) (row : Row) :
    rowAfter s f (headerCalls cfg s h) row = headerRow cfg h row := by
  simp only [headerCalls, headerRow]
  split <;> simp [Call.onRow]

/-- The header lies before the tables. -/
theorem tablesOf_headerRow (h : MetadataBlockHeader) (row : Row) :
    tablesOf cfg (headerRow cfg h row) = tablesOf cfg row := by
  have hlen := h.length_encode
  rw [sizeofMetadataBlockHeader] at hlen
  simp only [headerRow]
  split
  · rw [tablesOf_put_outside _ (Or.inl (by simp [sizeofMetadataBlockHeader])),
      tablesOf_put_outside _ (Or.inl (by simp [sizeofMetadataBlockHeader, sstTagLenBytes, hlen]))]
  · rw [tablesOf_put_outside _ (Or.inl (by simp [sizeofMetadataBlockHeader, swapCountOffset])),
      tablesOf_put_outside _ (Or.inl (by simp [sizeofMetadataBlockHeader, swapCountOffset, hlen]))]

/-- The header calls program nothing behind the header. -/
theorem headerRow_of_ge {h : MetadataBlockHeader} {row : Row} {o : Nat}
    (ho : sizeofMetadataBlockHeader ≤ o) : headerRow cfg h row o = row o := by
  have hlen := h.length_encode
  rw [sizeofMetadataBlockHeader] at hlen ho
  simp only [headerRow]
  split
  · rw [Row.put_of_ge (by simp; omega), Row.put_of_ge (by simp [sstTagLenBytes, hlen]; omega)]
  · rw [Row.put_of_ge (by simp [swapCountOffset]; omega),
      Row.put_of_ge (by simp [swapCountOffset, hlen]; omega)]

/-- The header of a metadata block. -/
def headerOf (row : Row) : MetadataBlockHeader := .decode (row.get 0 sizeofMetadataBlockHeader)

/-- The encrypted build programs the whole header. -/
theorem headerOf_headerRow_encrypted {h : MetadataBlockHeader} (row : Row)
    (henc : cfg.encryption = true) (hs : h.scratchIdx < 2 ^ 32) :
    headerOf (headerRow cfg h row) = h := by
  have htag : h.encode = h.crypto.tag.toList ++ h.encode.drop sstTagLenBytes := by
    simp [MetadataBlockHeader.encode, sstTagLenBytes]
  have hget : (headerRow cfg h row).get 0 sizeofMetadataBlockHeader = h.encode := by
    rw [headerRow, if_pos henc, show sizeofMetadataBlockHeader = 16 + 20 from rfl, Row.get_add,
      Row.get_put_self (by simp), Row.get_put_disjoint (Or.inr (by simp)), Nat.zero_add]
    exact (congrArg _ (Row.get_put_self (by simp [sstTagLenBytes, sizeofMetadataBlockHeader]))).trans
      htag.symm
  rw [headerOf, hget, MetadataBlockHeader.decode_encode hs]

/-- The plain build leaves the padding as it is in flash. -/
theorem headerOf_headerRow_plain {h : MetadataBlockHeader} (row : Row)
    (henc : cfg.encryption = false) (hs : h.scratchIdx < 2 ^ 32) :
    headerOf (headerRow cfg h row)
      = { h with padding := Vector.ofFn fun i => row (34 + i) } := by
  let h' : MetadataBlockHeader := { h with padding := Vector.ofFn fun i => row (34 + i) }
  -- the header in flash: what is programmed up to the swap count, the count, and two bytes that
  -- stay
  have hsplit : h'.encode = h.encode.take swapCountOffset ++ ([h.activeSwapCount]
      ++ row.get 34 2) := by
    have htag : h.crypto.tag.toList.take 33 = h.crypto.tag.toList :=
      List.take_of_length_le (by simp)
    have hiv : h.crypto.iv.toList.take 17 = h.crypto.iv.toList :=
      List.take_of_length_le (by simp)
    simp [MetadataBlockHeader.encode, h', swapCountOffset, List.take_append, le32, Row.get,
      List.range_succ, Vector.toList_ofFn, htag, hiv]
  have hlen : (h.encode.take swapCountOffset).length = 33 := by
    simp [swapCountOffset, sizeofMetadataBlockHeader]
  have hget : (headerRow cfg h row).get 0 sizeofMetadataBlockHeader = h'.encode := by
    rw [hsplit, headerRow, henc, if_neg (by decide),
      show sizeofMetadataBlockHeader = 33 + (1 + 2) from rfl, Row.get_add, Row.get_add,
      Row.get_put_disjoint (Or.inl (by simp [swapCountOffset])), Row.get_put_self hlen, Nat.zero_add]
    have hcount : ((row.put 0 (h.encode.take swapCountOffset)).put swapCountOffset
        [h.activeSwapCount]).get 33 1 = [h.activeSwapCount] := Row.get_put_self rfl
    rw [hcount, Row.get_put_disjoint (Or.inr (by simp [swapCountOffset])),
      Row.get_put_disjoint (Or.inr (by omega))]
  rw [headerOf, hget]
  exact MetadataBlockHeader.decode_encode hs

/-! ## The flash after a commit

A copy that reads from a block which the same operation has programmed would see new bytes.
`Assembles` excludes this, so that every row can be computed from the flash before the operation
(`rowAfter`). -/

/-- Calls that program the scratch blocks only, the scratch metadata block `s` behind the
header, and copy from other blocks only. -/
def Assembles (cfg : Config) (s d : Nat) (cs : List Call) : Prop :=
  ∀ c ∈ cs,
    (∃ b off n, c.programs = some (b, off, n)
      ∧ (b = s ∧ sizeofMetadataBlockHeader ≤ off ∨ b = d ∧ 2 < cfg.totalNumOfBlocks))
    ∧ ∀ src, c.source = some src → src ≠ s ∧ (2 < cfg.totalNumOfBlocks → src ≠ d)

variable {d d' : Nat} {cs : List Call}

theorem Assembles.append {ds : List Call} (h : Assembles cfg s d cs) (h' : Assembles cfg s d ds) :
    Assembles cfg s d (cs ++ ds) := by
  intro c hc
  rcases List.mem_append.mp hc with hc | hc
  · exact h c hc
  · exact h' c hc

theorem Assembles.nil : Assembles cfg s d [] := by
  intro c hc
  cases hc

theorem Assembles.ite {p : Prop} [Decidable p] (h : p → Assembles cfg s d cs) :
    Assembles cfg s d (if p then cs else []) := by
  split
  · exact h ‹_›
  · exact .nil

/-- Only the scratch blocks are programmed. -/
theorem Assembles.target (h : Assembles cfg s d cs) {c : Call} (hc : c ∈ cs) {b : Nat}
    (ht : c.target = some b) : b = s ∨ b = d ∧ 2 < cfg.totalNumOfBlocks := by
  obtain ⟨⟨b', off, n, hp, hb⟩, -⟩ := h c hc
  have hbb : b' = b := by
    cases c with
    | read | erase => simp [Call.programs] at hp
    | write | move =>
      simp only [Call.programs, Option.some.injEq, Prod.mk.injEq] at hp
      simp only [Call.target, Option.some.injEq] at ht
      rw [← hp.1, ht]
  subst hbb
  rcases hb with ⟨rfl, -⟩ | hb
  · exact Or.inl rfl
  · exact Or.inr hb

/-- The flash after an assembly, row by row. -/
theorem Assembles.rowAfter_eq (h : Assembles cfg s d cs) (f : Flash) (b : Nat) :
    device.replay cs f b = rowAfter b f cs (f b) := by
  refine replay_eq_rowAfter
    (S := fun b => b ≠ s ∧ (2 < cfg.totalNumOfBlocks → b ≠ d)) (fun c hc => ?_) b
  refine ⟨(h c hc).2, fun b ht hb => ?_⟩
  rcases h.target hc ht with rfl | ⟨rfl, hN⟩
  · exact hb.1 rfl
  · exact hb.2 hN rfl

/-- Calls that program the scratch blocks only. -/
def OnScratch (cfg : Config) (s d : Nat) (cs : List Call) : Prop :=
  ∀ c ∈ cs, ∀ b, c.target = some b → b = s ∨ b = d ∧ 2 < cfg.totalNumOfBlocks

theorem Assembles.onScratch (h : Assembles cfg s d cs) : OnScratch cfg s d cs :=
  fun _ hc _ ht => h.target hc ht

theorem OnScratch.append {ds : List Call} (h : OnScratch cfg s d cs) (h' : OnScratch cfg s d ds) :
    OnScratch cfg s d (cs ++ ds) := by
  intro c hc
  rcases List.mem_append.mp hc with hc | hc
  · exact h c hc
  · exact h' c hc

/-- Blocks other than the scratch blocks are left alone. -/
theorem OnScratch.row_eq (h : OnScratch cfg s d cs) (f : Flash) {b : Nat} (hs : b ≠ s)
    (hd : 2 < cfg.totalNumOfBlocks → b ≠ d) : device.replay cs f b = f b := by
  refine replay_of_target_ne fun c hc ht => ?_
  rcases h c hc b ht with rfl | ⟨rfl, hN⟩
  · exact hs rfl
  · exact hd hN rfl

theorem Assembles.row_eq (h : Assembles cfg s d cs) (f : Flash) {b : Nat} (hs : b ≠ s)
    (hd : 2 < cfg.totalNumOfBlocks → b ≠ d) : device.replay cs f b = f b :=
  h.onScratch.row_eq f hs hd

/-- Calls that program the scratch blocks only, and copy to the scratch metadata block `s` from
other blocks only. -/
structure FillsScratch (cfg : Config) (s d : Nat) (cs : List Call) : Prop where
  onScratch : OnScratch cfg s d cs
  sources : ∀ c ∈ cs, c.target = some s → ∀ src, c.source = some src →
    src ≠ s ∧ (2 < cfg.totalNumOfBlocks → src ≠ d)

theorem Assembles.fills (h : Assembles cfg s d cs) : FillsScratch cfg s d cs :=
  ⟨h.onScratch, fun c hc _ => (h c hc).2⟩

theorem FillsScratch.append {ds : List Call} (h : FillsScratch cfg s d cs)
    (h' : FillsScratch cfg s d ds) : FillsScratch cfg s d (cs ++ ds) := by
  refine ⟨h.onScratch.append h'.onScratch, fun c hc => ?_⟩
  rcases List.mem_append.mp hc with hc | hc
  · exact h.sources c hc
  · exact h'.sources c hc

/-- Copies to the data scratch block may come from anywhere. -/
theorem FillsScratch.of_target (hN : 2 < cfg.totalNumOfBlocks) (hsd : d ≠ s)
    (h : ∀ c ∈ cs, c.target = some d) : FillsScratch cfg s d cs := by
  refine ⟨fun c hc b hb => ?_, fun c hc hs => ?_⟩
  · rw [h c hc] at hb
    exact Or.inr ⟨(Option.some.inj hb).symm, hN⟩
  · rw [h c hc] at hs
    exact absurd (Option.some.inj hs) hsd

/-- The scratch metadata block is computed from the calls. -/
theorem FillsScratch.rowAfter_eq (h : FillsScratch cfg s d cs) (f : Flash) :
    device.replay cs f s = rowAfter s f cs (f s) := by
  refine replay_eq_rowAfter_of_sources
    (S := fun b => b ≠ s ∧ (2 < cfg.totalNumOfBlocks → b ≠ d)) fun c hc => ?_
  refine ⟨h.sources c hc, fun b ht hb => ?_⟩
  rcases h.onScratch c hc b ht with rfl | ⟨rfl, hN⟩
  · exact hb.1 rfl
  · exact hb.2 hN rfl

/-- All calls of an operation: the assembly, the header, the erasure of the blocks `a` and
`d'` that are scratch afterwards. -/
def commitCalls (cfg : Config) (a s d' : Nat) (h : MetadataBlockHeader) (cs : List Call) :
    List Call :=
  cs ++ (headerCalls cfg s h ++ eraseCalls cfg a d')

/-- The header is programmed in the scratch metadata block. -/
theorem target_headerCalls {h : MetadataBlockHeader} {c : Call} (hc : c ∈ headerCalls cfg s h) :
    c.target = some s := by
  simp only [headerCalls] at hc
  split at hc <;> simp only [List.mem_cons, List.not_mem_nil, or_false] at hc <;>
    rcases hc with rfl | rfl <;> rfl

theorem sourcesIn_headerCalls {h : MetadataBlockHeader} :
    SourcesIn (fun _ => False) (headerCalls cfg s h) := by
  intro c hc
  refine ⟨fun src hsrc => ?_, fun _ _ h => h⟩
  simp only [headerCalls] at hc
  split at hc <;> simp only [List.mem_cons, List.not_mem_nil, or_false] at hc <;>
    rcases hc with rfl | rfl <;> cases hsrc

theorem mem_eraseCalls {c : Call} :
    c ∈ eraseCalls cfg a d' ↔ c = .erase a ∨ c = .erase d' ∧ 2 < cfg.totalNumOfBlocks := by
  simp only [eraseCalls, List.mem_append, List.mem_singleton]
  split <;> simp [*]

/-- The erasure at the end of a commit. -/
theorem replay_eraseCalls (f : Flash) (b : Nat) :
    device.replay (eraseCalls cfg a d') f b
      = if b = a ∨ b = d' ∧ 2 < cfg.totalNumOfBlocks then Row.erased else f b := by
  simp only [eraseCalls]
  by_cases hN : 2 < cfg.totalNumOfBlocks
  · by_cases hd : b = d' <;> by_cases ha : b = a <;>
      simp [hN, hd, ha, Call.apply, Function.update_apply]
  · by_cases ha : b = a <;> simp [hN, ha, Call.apply]

/-- The flash after an operation, block by block. -/
theorem replay_commitCalls (h : Assembles cfg s d cs) (a d' : Nat) (hdr : MetadataBlockHeader)
    (f : Flash) (b : Nat) :
    device.replay (commitCalls cfg a s d' hdr cs) f b
      = if b = a ∨ b = d' ∧ 2 < cfg.totalNumOfBlocks then Row.erased
        else if b = s then headerRow cfg hdr (rowAfter s f cs (f s))
        else rowAfter b f cs (f b) := by
  rw [commitCalls, Model.replay_append, Model.replay_append, replay_eraseCalls]
  congr 1
  -- the header changes the new metadata block only
  by_cases hb : b = s
  · subst hb
    rw [if_pos rfl, replay_eq_rowAfter sourcesIn_headerCalls, rowAfter_headerCalls, h.rowAfter_eq]
  · rw [if_neg hb, replay_of_target_ne fun c hc => ?_, h.rowAfter_eq]
    rw [target_headerCalls hc]
    exact fun he => hb (Option.some.inj he).symm

/-- Without faults `m` commits: it assembles the scratch blocks by the calls `cs`, and the
data scratch block is `d'` afterwards. -/
def Commits (cfg : Config) (m : SstM Unit) (r : Ram) (f : Flash) (d' : Nat) (cs : List Call) :
    Prop :=
  ∃ h' iv, HeaderNext cfg { r.ctx.metaBlockHeader with scratchIdx := d' } h'
    ∧ Authentic cfg h' (device.replay (cs ++ headerCalls cfg r.ctx.scratchMetablock h') f
        r.ctx.scratchMetablock)
    ∧ Does m r f (.ok ()) (r.committed h' iv)
        (commitCalls cfg r.ctx.activeMetablock r.ctx.scratchMetablock d' h' cs)

/-- Without faults `m` returns an error and has no effect. -/
def Refuses (m : SstM Unit) (r : Ram) (f : Flash) : Prop := ∃ e, Does m r f (.error e) r []

/-- The memory with another data scratch block. -/
def Ram.withScratch (r : Ram) (d : Nat) : Ram :=
  r.withHeader { r.ctx.metaBlockHeader with scratchIdx := d }

/-- An operation commits when it runs the finalisation after its assembly. -/
theorem Commits.of_finalize {m : SstM Unit} {r : Ram} {f : Flash} {cs : List Call}
    (hc : cfg.CryptoWorks)
    (hm : ∀ r'' w, Does (sstMetaUpdateFinalize cfg) (r.withScratch d') (device.replay cs f)
      (.ok ()) r'' w → Does m r f (.ok ()) r'' (cs ++ w)) :
    Commits cfg m r f d' cs := by
  obtain ⟨h', iv, hnext, hauth, hdoes⟩ :=
    does_updateFinalize (r := r.withScratch d') (f := device.replay cs f) hc
  refine ⟨h', iv, hnext, ?_, hm _ _ hdoes⟩
  rw [Model.replay_append]
  exact hauth

end Tfm.Sst
