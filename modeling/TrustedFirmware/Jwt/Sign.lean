import TrustedFirmware.Jwt.Token
import TrustedFirmware.Sst.Config

/-!
# Signing

`jwt_sign` of `jwt.c` and `sst_jwt_sign` of `sst_asset_management.c`. The generator for random numbers
and the signature come from the crypto library, which is a parameter of every call: either may fail at
any time. The state records the calls of the library.
-/

namespace Tfm.Jwt

open Sst (SstErr)

/-! ## The crypto library

Its results are not modelled, only that they are there or not. -/

/-- A call of the crypto library and its result. -/
inductive CryptoEvent where
  | prngInit (success : Bool)
  | sign (hash : Vector UInt8 32) (sig : Option (Vector UInt8 64))
  deriving DecidableEq

/-- `tc_ctr_prng_init` and `uECC_sign`, over the state of the generator. -/
structure Tinycrypt (π : Type) where
  ctrPrngInit : (entropy personalize : List UInt8) → π → Bool × π
  ueccSign : (key : List UInt8) → (hash : Vector UInt8 32) → π → Option (Vector UInt8 64) × π

/-- The statics of `jwt.c`, the memory, and the calls of the crypto library so far. -/
structure SignState (π : Type) where
  prngState : π
  prngInit : Bool
  next : UInt32
  mem : Nat → UInt8
  events : List CryptoEvent

variable {π : Type}

/-- `EINVAL`. -/
def einval : Int := 22

/-! ## `jwt.c`

The seed of the generator comes from a linear congruential generator that starts at a constant. -/

/-- `_rand`: the next random integer, and the new value of `next`. -/
def rand (next : UInt32) : UInt32 × UInt32 :=
  let next := next * 1103515245 + 12345
  (next / 65536 % 32768, next)

/-- A word in memory order. -/
def le32Bytes (value : UInt32) : List UInt8 :=
  [value.toUInt8, (value >>> 8).toUInt8, (value >>> 16).toUInt8, (value >>> 24).toUInt8]

/-- `n` random integers in memory order. -/
def randomWords : Nat → UInt32 → List UInt8 × UInt32
  | 0, next => ([], next)
  | n + 1, next =>
    let rv := rand next
    let rest := randomWords n rv.2
    (le32Bytes rv.1 ++ rest.1, rest.2)

/-- `personalize`, with the terminator of the string. -/
def personalize : List UInt8 :=
  ascii ['z', 'e', 'p', 'h', 'y', 'r', ':', 'd', 'r', 'i', 'v', 'e', 'r', 's', '/', 'j', 'w', 't', '/',
    'j', 'w', 't', '.', 'c'] ++ [0]

/-- The flag is set before the generator is initialised. -/
def setupPrng (tc : Tinycrypt π) (s : SignState π) : Int × SignState π :=
  if s.prngInit then (0, s)
  else
    -- TC_AES_KEY_SIZE + TC_AES_BLOCK_SIZE bytes
    let entropy := randomWords 8 s.next
    let o := tc.ctrPrngInit entropy.1 personalize s.prngState
    (if o.1 then 0 else -einval,
      { s with
        prngInit := true
        next := entropy.2
        prngState := o.2
        events := s.events ++ [.prngInit o.1] })

variable (sha256 : List UInt8 → Vector UInt8 32)

/-- The builder's memory is the one of the state. -/
def jwtSign (tc : Tinycrypt π) (builder : JwtBuilder) (derKey : List UInt8) (s : SignState π) :
    Int × JwtBuilder × SignState π :=
  let hash := sha256 builder.written
  let o := setupPrng tc s
  if o.1 ≠ 0 then (o.1, builder, o.2)
  else
    let res := tc.ueccSign derKey hash o.2.prngState
    let s := { o.2 with prngState := res.2, events := o.2.events ++ [.sign hash res.1] }
    match res.1 with
    | none => (-einval, builder, s)
    | some sig => (0, jwtAddSignature builder sig.toList, s)

/-! ## `sst_jwt_sign`

The calls of the builder in their order, and the result that is made of theirs. -/

/-- `simple_private_der`. -/
def simplePrivateDer : List UInt8 :=
  [0x8f, 0xe2, 0x47, 0x03, 0x9b, 0x35, 0xec, 0x6b, 0xe0, 0x8c, 0x8b, 0xcb, 0x53, 0xb6, 0x70, 0xf6,
    0xf6, 0x04, 0x14, 0xf2, 0xcd, 0xe5, 0x68, 0x59, 0x29, 0x45, 0xe8, 0x0d, 0x01, 0x61, 0xfb, 0x26]

/-- The members of `struct tfm_sst_jwt_t` that are read; `aud` is the string behind the pointer. -/
structure JwtRequest where
  buffer : Nat
  bufferSize : UInt32
  exp : Int32
  iat : Int32
  aud : List UInt8

/-- A call: what the library does in it, what `build` holds on the stack, and the request. -/
structure SignCall (π : Type) where
  tc : Tinycrypt π
  build : JwtBuilder
  data : JwtRequest

/-- The result of `jwt_sign` is printed and nothing else. -/
def sstJwtSign (call : SignCall π) (s : SignState π) : Except SstErr Unit × SignState π :=
  let data := call.data
  let init := jwtInitBuilder jsonObjEncode { call.build with mem := s.mem } data.buffer
    data.bufferSize.toNat
  let payload := if init.1 = 0 then jwtAddPayload jsonObjEncode init.2 data.exp data.iat data.aud
    else init
  let err := if init.1 = 0 then .ok () else .error .paramError
  let sign := if payload.1 = 0 then jwtSign sha256 call.tc payload.2 simplePrivateDer s
    else (payload.1, payload.2, s)
  let err := if payload.1 = 0 then err else .error .paramError
  let err := if sign.2.1.overflowed then .error .systemError else err
  (err, { sign.2.2 with mem := sign.2.1.mem })

end Tfm.Jwt
