import TrustedFirmware.Jwt.TokenText

/-!
# Whole tokens

A token is written segment by segment: the header when the builder is initialised, and then any
number of segments, each behind a separator and with its bytes brought in by any number of calls
(`addSegment`; the payload and the signature are two of them). `token_written` says what is in the
buffer after each of these, and in the middle of one.
-/

namespace Tfm.Jwt

/-! ## Segments

Payload and signature are segments like any other. -/

/-- A separator, the bytes of a segment in some calls, and a flush. -/
def addSegment (st : JwtBuilder) (chunks : List (List UInt8)) : JwtBuilder :=
  base64Flush (appendAll base64AppendBytes chunks (base64Outch st separator))

/-- What the builder relies on in `json_obj_encode`: all it does is to pass the bytes of the text of an
object on to the callback, in their order, and the text of the header has at least three of them. -/
structure PassesBytes (json : JsonObjEncode) (text : List JsonField → List UInt8) : Prop where
  bytes : ∀ fields st, ∃ chunks : List (List UInt8), chunks.flatten = text fields
    ∧ (json base64AppendBytes fields st).2 = appendAll base64AppendBytes chunks st
  header_ok : ∀ st, (json base64AppendBytes headerFields st).1 = 0
  header_length : 3 ≤ (text headerFields).length

/-- The text that `json_obj_encode` passes on. -/
def jsonText (fields : List JsonField) : List UInt8 := (objPieces fields).flatten

/-- The encoder of the source does what the builder relies on. -/
theorem passesBytes_jsonObjEncode : PassesBytes jsonObjEncode jsonText where
  bytes fields st := ⟨objPieces fields, rfl, by rw [jsonObjEncode_eq fun _ _ => rfl]⟩
  header_ok st := by rw [jsonObjEncode_eq fun _ _ => rfl]
  header_length := by decide

/-- The payload is a segment. -/
theorem jwtAddPayload_eq {json : JsonObjEncode} {text : List JsonField → List UInt8}
    (hjson : PassesBytes json text) (st : JwtBuilder) (exp iat : Int32) (aud : List UInt8) :
    ∃ chunks : List (List UInt8), chunks.flatten = text (payloadFields exp iat aud)
      ∧ (jwtAddPayload json st exp iat aud).2 = addSegment st chunks := by
  obtain ⟨chunks, hflat, heq⟩ := hjson.bytes (payloadFields exp iat aud) (base64Outch st separator)
  refine ⟨chunks, hflat, ?_⟩
  simp only [jwtAddPayload, addSegment, heq]

/-- The signature is a segment. -/
theorem jwtAddSignature_eq (st : JwtBuilder) (sig : List UInt8) :
    jwtAddSignature st sig = addSegment st [sig] := rfl

/-- The text of a token: header and later segments in base64, with separators between them. -/
def tokenText (header : List UInt8) (later : List (List UInt8)) : List UInt8 :=
  Base64Url.encode header ++ later.flatMap fun bytes => separator :: Base64Url.encode bytes

theorem tokenText_concat (header bytes : List UInt8) (later : List (List UInt8)) :
    tokenText header (later ++ [bytes])
      = tokenText header later ++ [separator] ++ Base64Url.encode bytes := by
  simp [tokenText]

theorem length_tokenText_pos {header : List UInt8} (h : 3 ≤ header.length)
    (later : List (List UInt8)) : 0 < (tokenText header later).length := by
  rw [tokenText, List.length_append, Base64Url.length_encode]
  omega

/-! ## Runs of the builder

The header first, then segment after segment: each step keeps `Emits`, with the text grown by a
segment. -/

section Runs

variable {buffer size : Nat} {mem : Nat → UInt8} {text : List UInt8} {st : JwtBuilder}

/-- A builder that was just initialised has written nothing. -/
theorem emits_nil (st : JwtBuilder) (buffer size : Nat) :
    Emits buffer size st.mem []
      { st with base := buffer, buf := buffer, len := size, overflowed := false, pending := 0 } := by
  refine ⟨rfl, by simp, by simp, by simp, ?_, fun h => absurd rfl h, fun _ _ => rfl⟩
  simp [JwtBuilder.written]

/-- The header starts at the beginning of the buffer, with work bytes that hold anything. -/
theorem inSegment_header {header : List UInt8} (h : Emits buffer size mem [] st)
    (hp : st.pending = 0) (hlen : 3 ≤ header.length) :
    InSegment buffer size mem [] header (header.foldl base64Addbyte st) := by
  match header, hlen with
  | a :: b :: c :: rest, _ => exact (inSegment_first_group h hp a b c).foldl rest

/-- The header is written. -/
theorem emits_init {json : JsonObjEncode} {jtext : List JsonField → List UInt8}
    (hjson : PassesBytes json jtext) (builder : JwtBuilder) (buffer size : Nat) :
    Emits buffer size builder.mem (tokenText (jtext headerFields) [])
        (jwtInitBuilder json builder buffer size).2
      ∧ Holds [] (jwtInitBuilder json builder buffer size).2 := by
  unfold jwtInitBuilder jwtAddHeader
  dsimp only
  rw [if_neg (not_not.mpr (hjson.header_ok _))]
  obtain ⟨chunks, hflat, heq⟩ := hjson.bytes headerFields
    { builder with base := buffer, buf := buffer, len := size, overflowed := false, pending := 0 }
  rw [heq, appendAll_eq_foldl, hflat, tokenText, List.flatMap_nil, List.append_nil]
  exact (inSegment_header (emits_nil builder buffer size) rfl hjson.header_length).flush

/-- In the middle of a segment. -/
theorem inSegment_chunks (h : Emits buffer size mem text st) (hst : Holds [] st)
    (chunks : List (List UInt8)) :
    InSegment buffer size mem (text ++ [separator]) chunks.flatten
      (appendAll base64AppendBytes chunks (base64Outch st separator)) := by
  rw [appendAll_eq_foldl]
  exact (inSegment_nil (h.outch separator) (hst.outch separator)).foldl chunks.flatten

theorem emits_addSegment (h : Emits buffer size mem text st) (hst : Holds [] st)
    (chunks : List (List UInt8)) :
    Emits buffer size mem (text ++ [separator] ++ Base64Url.encode chunks.flatten)
        (addSegment st chunks)
      ∧ Holds [] (addSegment st chunks) :=
  (inSegment_chunks h hst chunks).flush

/-- Any number of segments behind the header. -/
theorem emits_segments {header : List UInt8} {later : List (List UInt8)}
    (h : Emits buffer size mem (tokenText header later) st) (hst : Holds [] st)
    (segments : List (List (List UInt8))) :
    Emits buffer size mem (tokenText header (later ++ segments.map List.flatten))
        (segments.foldl addSegment st)
      ∧ Holds [] (segments.foldl addSegment st) := by
  -- on the segments, with the text written so far
  induction segments generalizing later st with
  | nil => simpa using ⟨h, hst⟩
  | cons chunks segments ih =>
    obtain ⟨h', hst'⟩ := emits_addSegment h hst chunks
    rw [← tokenText_concat] at h'
    rw [List.map_cons, List.append_cons, List.foldl_cons]
    exact ih h' hst'

end Runs

/-! ## What is in the buffer

The invariant in terms of the memory and the overflow flag. -/

/-- The buffer of `size` bytes at `buffer` holds a part of `text`, with a terminator behind it, and
nothing else was written. -/
structure HoldsPartOf (buffer size : Nat) (mem : Nat → UInt8) (text : List UInt8) (st : JwtBuilder) :
    Prop where
  base : st.base = buffer
  buf : st.buf = buffer + st.written.length
  isPart : st.written <+: text
  terminated : st.written ≠ [] → st.buf < buffer + size ∧ st.mem st.buf = 0
  inside : ∀ a, a < buffer ∨ buffer + size ≤ a → st.mem a = mem a

/-- The buffer holds as much of the token as fits, and the overflow flag says whether that is all. -/
structure HoldsToken (buffer size : Nat) (mem : Nat → UInt8) (token : List UInt8) (st : JwtBuilder) :
    Prop extends HoldsPartOf buffer size mem token st where
  complete_iff : st.written = token ↔ st.overflowed = false
  fits_iff : st.overflowed = false ↔ token.length < size

/-- What a builder has written is a part of its text. -/
theorem Emits.holdsPartOf {buffer size : Nat} {mem : Nat → UInt8} {text : List UInt8}
    {st : JwtBuilder} (h : Emits buffer size mem text st) :
    HoldsPartOf buffer size mem text st := by
  have hbuf := h.buf
  have hlen : st.written.length = min text.length (size - 1) := by
    rw [h.written, List.length_take, Nat.min_comm]
  refine ⟨h.base, by omega, h.written ▸ List.take_prefix _ _, fun hne => ?_, h.outside⟩
  have hpos : 0 < st.written.length := List.length_pos_iff.mpr hne
  exact ⟨by omega, h.terminated (by omega)⟩

/-- The part is all of it unless the flag is set. -/
theorem Emits.holdsToken {buffer size : Nat} {mem : Nat → UInt8} {text : List UInt8}
    {st : JwtBuilder} (h : Emits buffer size mem text st) (hpos : 0 < text.length) :
    HoldsToken buffer size mem text st := by
  have hfits : st.overflowed = false ↔ text.length < size := by
    rw [← Bool.not_eq_true, h.overflowed]
    omega
  refine ⟨h.holdsPartOf, ?_, hfits⟩
  rw [hfits, h.written]
  constructor
  · intro htake
    have := congrArg List.length htake
    rw [List.length_take] at this
    omega
  · intro hlt
    exact List.take_of_length_le (by omega)

/-- A part of a text is a part of what the text grows into. -/
theorem HoldsPartOf.mono {buffer size : Nat} {mem : Nat → UInt8} {text text' : List UInt8}
    {st : JwtBuilder} (h : HoldsPartOf buffer size mem text st) (hpre : text <+: text') :
    HoldsPartOf buffer size mem text' st :=
  ⟨h.base, h.buf, h.isPart.trans hpre, h.terminated, h.inside⟩

/-- After any number of segments the buffer holds the token of their bytes, however these were split
into calls, and in the middle of a segment a part of what the token can become. -/
theorem token_written (json : JsonObjEncode) (text : List JsonField → List UInt8)
    (hjson : PassesBytes json text) (builder : JwtBuilder) (buffer size : Nat)
    (segments : List (List (List UInt8))) :
    HoldsToken buffer size builder.mem
        (tokenText (text headerFields) (segments.map List.flatten))
        (segments.foldl addSegment (jwtInitBuilder json builder buffer size).2)
      ∧ ∀ chunks : List (List UInt8), HoldsPartOf buffer size builder.mem
        (tokenText (text headerFields) ((segments ++ [chunks]).map List.flatten))
        (appendAll base64AppendBytes chunks
          (base64Outch (segments.foldl addSegment (jwtInitBuilder json builder buffer size).2)
            separator)) := by
  obtain ⟨hinit, hidle⟩ := emits_init hjson builder buffer size
  obtain ⟨hemits, hst⟩ := emits_segments hinit hidle segments
  rw [List.nil_append] at hemits
  refine ⟨hemits.holdsToken (length_tokenText_pos hjson.header_length _), fun chunks => ?_⟩
  obtain ⟨full, rest, hbytes, hfull, -, hpart, -⟩ := inSegment_chunks hemits hst chunks
  refine hpart.holdsPartOf.mono ?_
  -- the groups that are written are the first ones of the segment
  rw [List.map_append, List.map_singleton, tokenText_concat, hbytes, Base64Url.encode_append hfull,
    ← List.append_assoc]
  exact List.prefix_append _ _

/-- The header of the source, and a segment of four bytes that come in three calls, in a buffer that is
too small for all of it. -/
theorem token_written_in_small_buffer :
    PassesBytes jsonObjEncode jsonText
      ∧ HoldsToken 100 40 (fun _ => 0xFF) (tokenText (jsonText headerFields) [[1, 2, 3, 4]])
        ([[[1], [], [2, 3, 4]]].foldl addSegment
          (jwtInitBuilder jsonObjEncode ⟨0, 0, 0, true, #v[7, 7, 7], 2, fun _ => 0xFF⟩ 100 40).2) :=
  ⟨passesBytes_jsonObjEncode,
    (token_written jsonObjEncode jsonText passesBytes_jsonObjEncode
      ⟨0, 0, 0, true, #v[7, 7, 7], 2, fun _ => 0xFF⟩ 100 40 [[[1], [], [2, 3, 4]]]).1⟩

end Tfm.Jwt
