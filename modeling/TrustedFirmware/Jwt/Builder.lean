import TrustedFirmware.Jwt.Json
import Mathlib.Logic.Function.Basic

/-!
# The token builder

The builder of `jwt.c`: segments are encoded in base64 while their bytes come in, and written to a
buffer whose end is watched. Pointers are addresses; the builder carries the memory that they point
into. The JSON encoder is an argument of the functions that call it.
-/

namespace Tfm.Jwt

/-- `struct jwt_builder`, and the memory. -/
structure JwtBuilder where
  base : Nat
  buf : Nat
  len : Nat
  overflowed : Bool
  wip : Vector UInt8 3
  pending : Nat
  mem : Nat → UInt8

/-- `json_obj_encode`, as it is called with the callback of the builder. -/
abbrev JsonObjEncode : Type :=
  JsonAppendBytes JwtBuilder → List JsonField → JwtBuilder → Int × JwtBuilder

/-! ## Base64

Three bytes make four characters. The bytes of an incomplete group wait in `wip` until a flush. -/

/-- The character of a value below 64. -/
def base64Char (value : Nat) : UInt8 :=
  if value < 26 then (value + 'A'.toNat).toUInt8
  else if value < 52 then (value + 'a'.toNat - 26).toUInt8
  else if value < 62 then (value + '0'.toNat - 52).toUInt8
  else if value = 62 then '-'.toNat.toUInt8
  else '_'.toNat.toUInt8

/-- The character and a terminator behind it are written, unless less than two bytes are left. -/
def base64Outch (st : JwtBuilder) (ch : UInt8) : JwtBuilder :=
  if st.overflowed then st
  else if st.len < 2 then { st with overflowed := true }
  else
    { st with
      mem := Function.update (Function.update st.mem st.buf ch) (st.buf + 1) 0
      buf := st.buf + 1
      len := st.len - 1 }

/-- The characters of the pending bytes are written, one more than there are bytes. No padding is
written. -/
def base64Flush (st : JwtBuilder) : JwtBuilder :=
  if st.pending < 1 then st
  else
    let w0 := st.wip[0].toNat
    let w1 := st.wip[1].toNat
    let w2 := st.wip[2].toNat
    let out := base64Outch st (base64Char (w0 >>> 2))
    let out := base64Outch out (base64Char ((w0 &&& 0x03) <<< 4 ||| w1 >>> 4))
    let out := if st.pending ≥ 2 then
      base64Outch out (base64Char ((w1 &&& 0x0f) <<< 2 ||| w2 >>> 6)) else out
    let out := if st.pending ≥ 3 then base64Outch out (base64Char (w2 &&& 0x3f)) else out
    { out with pending := 0, wip := .replicate 3 0 }

/-- A byte comes in, and a group that is complete is written. -/
def base64Addbyte (st : JwtBuilder) (byte : UInt8) : JwtBuilder :=
  let st := { st with wip := st.wip.setIfInBounds st.pending byte, pending := st.pending + 1 }
  if st.pending = 3 then base64Flush st else st

/-- The callback of the builder. It reports no error: the overflow is in the flag. -/
def base64AppendBytes (bytes : List UInt8) (st : JwtBuilder) : Int × JwtBuilder :=
  (0, bytes.foldl base64Addbyte st)

/-! ## Segments

A token is a header, a payload and a signature, with separators between them. -/

/-- `jwt_header_desc` and the header of an ECDSA token. -/
def headerFields : List JsonField :=
  [(ascii ['a', 'l', 'g'], .string (ascii ['E', 'S', '2', '5', '6'])),
    (ascii ['t', 'y', 'p'], .string (ascii ['J', 'W', 'T']))]

/-- `jwt_payload_desc` and the payload. -/
def payloadFields (exp iat : Int32) (aud : List UInt8) : List JsonField :=
  [(ascii ['a', 'u', 'd'], .string aud), (ascii ['e', 'x', 'p'], .number exp),
    (ascii ['i', 'a', 't'], .number iat)]

/-- The dot between segments. -/
def separator : UInt8 := '.'.toNat.toUInt8

variable (json : JsonObjEncode)

/-- An error of the encoder leaves the last group pending. -/
def jwtAddHeader (builder : JwtBuilder) : JwtBuilder :=
  let o := json base64AppendBytes headerFields builder
  if o.1 ≠ 0 then o.2 else base64Flush o.2

/-- The payload is flushed whatever the encoder reports. -/
def jwtAddPayload (builder : JwtBuilder) (exp iat : Int32) (aud : List UInt8) : Int × JwtBuilder :=
  let o := json base64AppendBytes (payloadFields exp iat aud) (base64Outch builder separator)
  (o.1, base64Flush o.2)

/-- The work bytes keep what the builder had in them. -/
def jwtInitBuilder (builder : JwtBuilder) (buffer bufferSize : Nat) : Int × JwtBuilder :=
  (0, jwtAddHeader json
    { builder with base := buffer, buf := buffer, len := bufferSize, overflowed := false, pending := 0 })

/-- The end of `jwt_sign`. -/
def jwtAddSignature (builder : JwtBuilder) (sig : List UInt8) : JwtBuilder :=
  base64Flush (base64AppendBytes sig (base64Outch builder separator)).2

end Tfm.Jwt
