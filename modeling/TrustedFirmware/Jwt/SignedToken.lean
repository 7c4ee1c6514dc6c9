import TrustedFirmware.Jwt.Sign

/-!
# What a successful call of `sst_jwt_sign` leaves in the buffer

A call is genuine if it reports success only for a complete token with a signature of its first two
segments, made with a generator that was initialised. **`genuine_run_iff`** says which calls are:
those whose buffer is too small for the first two segments, and those in which nothing goes wrong in
the crypto library. Everything else is reported as a success.

Header and payload cannot fail, so the result of a call is that of the overflow flag alone
(`sstJwtSign_eq`); the result of the signature is dropped.
-/

namespace Tfm.Jwt

open Sst (SstErr)

variable {π : Type} {sha256 : List UInt8 → Vector UInt8 32}

/-! ## The texts of a request

What is signed, and what is delivered. -/

/-- Header and payload, the part of the token that is signed. -/
def JwtRequest.signedText (data : JwtRequest) : List UInt8 :=
  tokenText (jsonText headerFields) [jsonText (payloadFields data.exp data.iat data.aud)]

/-- The whole token. -/
def JwtRequest.fullText (data : JwtRequest) (sig : Vector UInt8 64) : List UInt8 :=
  tokenText (jsonText headerFields)
    [jsonText (payloadFields data.exp data.iat data.aud), sig.toList]

/-- The token is the signed text and the signature. -/
theorem JwtRequest.fullText_eq (data : JwtRequest) (sig : Vector UInt8 64) :
    data.fullText sig = data.signedText ++ [separator] ++ Base64Url.encode sig.toList :=
  tokenText_concat _ _ [_]

/-- A signature takes 86 characters. -/
theorem JwtRequest.length_fullText (data : JwtRequest) (sig : Vector UInt8 64) :
    (data.fullText sig).length = data.signedText.length + 87 := by
  rw [data.fullText_eq, List.length_append, List.length_append, Base64Url.length_encode]
  simp

/-! ## Genuine calls

A call against the calls of the library that it has recorded. -/

/-- After the call the buffer holds a token whose signature was made in the call, from the hash of the
first two segments and with a generator that had been initialised before. -/
def HoldsSignedToken (sha256 : List UInt8 → Vector UInt8 32) (data : JwtRequest)
    (s s' : SignState π) : Prop :=
  ∃ sig events, s'.events = events ++ [.sign (sha256 data.signedText) (some sig)]
    ∧ s.events <+: events ∧ .prngInit true ∈ events
    ∧ (data.fullText sig).length < data.bufferSize.toNat
    ∧ (∀ i (h : i < (data.fullText sig).length), s'.mem (data.buffer + i) = (data.fullText sig)[i])
    ∧ s'.mem (data.buffer + (data.fullText sig).length) = 0

/-- The call reports success only for a complete signed token. -/
def Genuine (sha256 : List UInt8 → Vector UInt8 32) (call : SignCall π) (s : SignState π) : Prop :=
  (sstJwtSign sha256 call s).1 = .ok () → HoldsSignedToken sha256 call.data s (sstJwtSign sha256 call s).2

/-- The initialisation of the generator succeeds, if it is made now. -/
def InitSucceeds (call : SignCall π) (s : SignState π) : Prop :=
  (call.tc.ctrPrngInit (randomWords 8 s.next).1 personalize s.prngState).1 = true

/-- The first two segments do not fit, or the signature is made, and it was made with an initialised
generator or does not fit. -/
def FailsOpenly (sha256 : List UInt8 → Vector UInt8 32) (call : SignCall π) (s : SignState π) : Prop :=
  call.data.bufferSize.toNat ≤ call.data.signedText.length
    ∨ (s.prngInit = true ∨ InitSucceeds call s)
      ∧ (call.tc.ueccSign simplePrivateDer (sha256 call.data.signedText)
          (setupPrng call.tc s).2.prngState).1.isSome = true
      ∧ (.prngInit true ∈ (setupPrng call.tc s).2.events
        ∨ call.data.bufferSize.toNat ≤ call.data.signedText.length + 87)

/-- Every call of a run, in the state in which it is made. -/
def EachCall (sha256 : List UInt8 → Vector UInt8 32) (P : SignCall π → SignState π → Prop) :
    List (SignCall π) → SignState π → Prop
  | [], _ => True
  | call :: calls, s => P call s ∧ EachCall sha256 P calls (sstJwtSign sha256 call s).2

/-! ## The stages of a call

Header and payload, the generator, the signature. -/

section Stages

variable (call : SignCall π) (s : SignState π)

/-- The builder with header and payload. -/
def SignCall.payloadBuilder : JwtBuilder :=
  (jwtAddPayload jsonObjEncode
    (jwtInitBuilder jsonObjEncode { call.build with mem := s.mem } call.data.buffer
      call.data.bufferSize.toNat).2
    call.data.exp call.data.iat call.data.aud).2

theorem emits_payload :
    Emits call.data.buffer call.data.bufferSize.toNat s.mem call.data.signedText
        (call.payloadBuilder s)
      ∧ Holds [] (call.payloadBuilder s) := by
  obtain ⟨hinit, hidle⟩ := emits_init passesBytes_jsonObjEncode { call.build with mem := s.mem }
    call.data.buffer call.data.bufferSize.toNat
  obtain ⟨chunks, hflat, heq⟩ := jwtAddPayload_eq passesBytes_jsonObjEncode
    (jwtInitBuilder jsonObjEncode { call.build with mem := s.mem } call.data.buffer
      call.data.bufferSize.toNat).2 call.data.exp call.data.iat call.data.aud
  obtain ⟨hpay, hst⟩ := emits_addSegment hinit hidle chunks
  rw [← tokenText_concat, List.nil_append, hflat, ← heq] at hpay
  rw [← heq] at hst
  exact ⟨hpay, hst⟩

/-- The two stages before the signature cannot fail, so the result is left to the overflow flag. -/
theorem sstJwtSign_eq :
    sstJwtSign sha256 call s
      = (if (jwtSign sha256 call.tc (call.payloadBuilder s) simplePrivateDer s).2.1.overflowed then
          .error .systemError else .ok (),
        { (jwtSign sha256 call.tc (call.payloadBuilder s) simplePrivateDer s).2.2 with
          mem := (jwtSign sha256 call.tc (call.payloadBuilder s) simplePrivateDer s).2.1.mem }) := by
  have hpayload (st : JwtBuilder) :
      (jwtAddPayload jsonObjEncode st call.data.exp call.data.iat call.data.aud).1 = 0 := by
    unfold jwtAddPayload
    rw [jsonObjEncode_eq fun _ _ => rfl]
  have hinit (st : JwtBuilder) : (jwtInitBuilder jsonObjEncode st call.data.buffer
      call.data.bufferSize.toNat).1 = 0 := rfl
  unfold sstJwtSign SignCall.payloadBuilder
  dsimp only
  rw [if_pos (hinit _), if_pos (hinit _), if_pos (hpayload _), if_pos (hpayload _)]

/-- What setting the generator up does to the calls of the library. -/
theorem setupPrng_events :
    (setupPrng call.tc s).2.events = s.events
      ++ if s.prngInit then [] else
        [.prngInit (call.tc.ctrPrngInit (randomWords 8 s.next).1 personalize s.prngState).1] := by
  unfold setupPrng
  split
  · simp
  · rfl

/-- The generator is set up if it was before or is now. -/
theorem setupPrng_ok_iff :
    (setupPrng call.tc s).1 = 0 ↔ s.prngInit = true ∨ InitSucceeds call s := by
  unfold setupPrng InitSucceeds
  cases s.prngInit with
  | true => simp
  | false =>
    simp only [Bool.false_eq_true, if_false, false_or]
    cases (call.tc.ctrPrngInit (randomWords 8 s.next).1 personalize s.prngState).1 <;>
      simp [einval]

/-- A call with its result, if the library makes a signature. -/
theorem sstJwtSign_of_signature {sig : Vector UInt8 64} (hsetup : (setupPrng call.tc s).1 = 0)
    (hsig : (call.tc.ueccSign simplePrivateDer (sha256 (call.payloadBuilder s).written)
      (setupPrng call.tc s).2.prngState).1 = some sig) :
    (sstJwtSign sha256 call s).1
        = (if (jwtAddSignature (call.payloadBuilder s) sig.toList).overflowed then
          .error .systemError else .ok ())
      ∧ (sstJwtSign sha256 call s).2.mem = (jwtAddSignature (call.payloadBuilder s) sig.toList).mem
      ∧ (sstJwtSign sha256 call s).2.events = (setupPrng call.tc s).2.events
        ++ [.sign (sha256 (call.payloadBuilder s).written) (some sig)] := by
  have hsign : (jwtSign sha256 call.tc (call.payloadBuilder s) simplePrivateDer s).2.1
        = jwtAddSignature (call.payloadBuilder s) sig.toList
      ∧ (jwtSign sha256 call.tc (call.payloadBuilder s) simplePrivateDer s).2.2.events
        = (setupPrng call.tc s).2.events
          ++ [.sign (sha256 (call.payloadBuilder s).written) (some sig)] := by
    unfold jwtSign
    dsimp only
    rw [if_neg (not_not.mpr hsetup), hsig]
    exact ⟨rfl, rfl⟩
  rw [sstJwtSign_eq]
  dsimp only
  rw [hsign.1, hsign.2]
  exact ⟨rfl, rfl, rfl⟩

/-- Without a signature the token ends behind the payload, and the last call of the library made no
signature. -/
theorem sstJwtSign_of_none
    (h : (setupPrng call.tc s).1 ≠ 0
      ∨ (call.tc.ueccSign simplePrivateDer (sha256 (call.payloadBuilder s).written)
        (setupPrng call.tc s).2.prngState).1 = none) :
    (sstJwtSign sha256 call s).1
        = (if (call.payloadBuilder s).overflowed then .error .systemError else .ok ())
      ∧ ∃ event, (∀ hash sig, event ≠ .sign hash (some sig))
        ∧ ∃ events, (sstJwtSign sha256 call s).2.events = events ++ [event] := by
  rw [sstJwtSign_eq]
  unfold jwtSign
  dsimp only
  by_cases hsetup : (setupPrng call.tc s).1 = 0
  · have hnone := h.resolve_left (not_not.mpr hsetup)
    rw [if_neg (not_not.mpr hsetup), hnone]
    exact ⟨rfl, .sign _ none, by simp, _, rfl⟩
  · -- the initialisation was made in this call
    have hinit : s.prngInit = false := by
      have := mt (setupPrng_ok_iff call s).mpr hsetup
      simpa using fun h => this (.inl h)
    rw [if_pos hsetup]
    refine ⟨rfl, .prngInit (call.tc.ctrPrngInit (randomWords 8 s.next).1 personalize
      s.prngState).1, by simp, s.events, ?_⟩
    rw [setupPrng_events, hinit]
    rfl

end Stages

/-! ## The result of a call

The cases of a call, each decided. -/

section Calls

variable (call : SignCall π) (s : SignState π)

/-- The first two segments do not fit: that is noticed whatever the library does. -/
theorem sstJwtSign_of_overflow
    (hsmall : call.data.bufferSize.toNat ≤ call.data.signedText.length) :
    (sstJwtSign sha256 call s).1 = .error .systemError := by
  obtain ⟨hemits, hst⟩ := emits_payload call s
  have hpos : 0 < call.data.signedText.length :=
    length_tokenText_pos passesBytes_jsonObjEncode.header_length _
  have hov : (call.payloadBuilder s).overflowed = true := hemits.overflowed.mpr (by omega)
  -- the flag stays set whether a signature is added or not
  cases hsig : (call.tc.ueccSign simplePrivateDer (sha256 (call.payloadBuilder s).written)
      (setupPrng call.tc s).2.prngState).1 with
  | none => rw [(sstJwtSign_of_none call s (.inr hsig)).1, hov, if_pos rfl]
  | some sig =>
    by_cases hsetup : (setupPrng call.tc s).1 = 0
    · have hfull := (emits_addSegment hemits hst [sig.toList]).1
      rw [(sstJwtSign_of_signature call s hsetup hsig).1, if_pos]
      exact hfull.overflowed.mpr (by simp only [List.length_append]; omega)
    · rw [(sstJwtSign_of_none call s (.inl hsetup)).1, hov, if_pos rfl]

/-- Without a signature a call whose first two segments fit is not genuine. -/
theorem not_genuine_of_none (hfits : call.data.signedText.length < call.data.bufferSize.toNat)
    (h : (setupPrng call.tc s).1 ≠ 0
      ∨ (call.tc.ueccSign simplePrivateDer (sha256 (call.payloadBuilder s).written)
        (setupPrng call.tc s).2.prngState).1 = none) : ¬ Genuine sha256 call s := by
  intro hgen
  obtain ⟨hres, event, hevent, events, hevents⟩ := sstJwtSign_of_none call s h
  have hov : (call.payloadBuilder s).overflowed = false := by
    rw [← Bool.not_eq_true, (emits_payload call s).1.overflowed]
    omega
  rw [hov, if_neg Bool.false_ne_true] at hres
  -- success is reported, but the last call of the library made no signature
  obtain ⟨sig, events', hevents', -⟩ := hgen hres
  have hlast := congrArg List.getLast? (hevents.symm.trans hevents')
  simp only [List.getLast?_append, List.getLast?_singleton, Option.some_or, Option.some.injEq] at hlast
  exact hevent _ _ hlast

/-- With a signature of the first two segments, a call is genuine if the generator was initialised or
the signature does not fit. -/
theorem genuine_iff_of_signature {sig : Vector UInt8 64}
    (hfits : call.data.signedText.length < call.data.bufferSize.toNat)
    (hsetup : (setupPrng call.tc s).1 = 0)
    (hsig : (call.tc.ueccSign simplePrivateDer (sha256 call.data.signedText)
      (setupPrng call.tc s).2.prngState).1 = some sig) :
    Genuine sha256 call s ↔ .prngInit true ∈ (setupPrng call.tc s).2.events
      ∨ call.data.bufferSize.toNat ≤ call.data.signedText.length + 87 := by
  obtain ⟨hemits, hst⟩ := emits_payload call s
  have hwritten : (call.payloadBuilder s).written = call.data.signedText := by
    rw [hemits.written, List.take_of_length_le (by omega)]
  rw [← hwritten] at hsig
  obtain ⟨hres, hmem, hevents⟩ := sstJwtSign_of_signature call s hsetup hsig
  have hfull := (emits_addSegment hemits hst [sig.toList]).1
  rw [List.flatten_singleton, ← call.data.fullText_eq] at hfull
  have hlen := call.data.length_fullText sig
  have hov := hfull.overflowed
  unfold Genuine
  rw [hres, jwtAddSignature_eq]
  -- a signature that does not fit sets the flag
  by_cases hsmall : call.data.bufferSize.toNat ≤ call.data.signedText.length + 87
  · rw [if_pos (hov.mpr (by omega))]
    simp [hsmall]
  · rw [if_neg (fun h => by have := hov.mp h; omega)]
    simp only [hsmall, or_false, true_imp_iff]
    constructor
    · rintro ⟨sig', events', heq, -, hinit, -⟩
      rw [hevents] at heq
      rwa [(List.append_inj_left' heq rfl)]
    · intro hinit
      have hpart := hfull.holdsPartOf
      have hall : (addSegment (call.payloadBuilder s) [sig.toList]).written
          = call.data.fullText sig := by
        rw [hfull.written, List.take_of_length_le (by omega)]
      refine ⟨sig, _, by rw [hevents, hwritten], ?_, hinit, by omega, ?_, ?_⟩
      · rw [setupPrng_events]
        exact List.prefix_append _ _
      · intro i hi
        rw [hmem, jwtAddSignature_eq, ← hpart.base, ← JwtBuilder.getElem_written (by rwa [hall])]
        simp only [hall]
      · have hne : (addSegment (call.payloadBuilder s) [sig.toList]).written ≠ [] := by
          rw [hall]
          exact List.ne_nil_of_length_pos (by omega)
        rw [hmem, jwtAddSignature_eq, ← hall, ← hpart.buf]
        exact (hpart.terminated hne).2

/-- A call is genuine exactly if its failures are seen. -/
theorem genuine_iff : Genuine sha256 call s ↔ FailsOpenly sha256 call s := by
  unfold FailsOpenly
  by_cases hsmall : call.data.bufferSize.toNat ≤ call.data.signedText.length
  · have herr : (sstJwtSign sha256 call s).1 = .error .systemError :=
      sstJwtSign_of_overflow call s hsmall
    refine ⟨fun _ => .inl hsmall, fun _ hok => ?_⟩
    rw [herr] at hok
    cases hok
  · have hwritten : (call.payloadBuilder s).written = call.data.signedText := by
      rw [(emits_payload call s).1.written, List.take_of_length_le (by omega)]
    simp only [hsmall, false_or]
    rw [← setupPrng_ok_iff]
    -- the buffer is large enough: now the library decides
    by_cases hsetup : (setupPrng call.tc s).1 = 0
    · cases hsig : (call.tc.ueccSign simplePrivateDer (sha256 call.data.signedText)
          (setupPrng call.tc s).2.prngState).1 with
      | none =>
        have hnot : ¬ Genuine sha256 call s :=
          not_genuine_of_none call s (by omega) (.inr (by rw [hwritten, hsig]))
        simp [hnot]
      | some sig =>
        rw [genuine_iff_of_signature call s (by omega) hsetup hsig]
        simp [hsetup]
    · have hnot : ¬ Genuine sha256 call s :=
        not_genuine_of_none call s (by omega) (.inl hsetup)
      simp [hnot, hsetup]

end Calls

/-! ## Runs

Every call is judged in the state it finds, so a run is a matter of its calls. -/

/-- Over any run, from any state and whatever the library does, success is reported only for complete
signed tokens if and only if every failure is seen. -/
theorem genuine_run_iff (sha256 : List UInt8 → Vector UInt8 32) (calls : List (SignCall π))
    (s : SignState π) :
    EachCall sha256 (Genuine sha256) calls s ↔ EachCall sha256 (FailsOpenly sha256) calls s := by
  induction calls generalizing s with
  | nil => exact Iff.rfl
  | cons call calls ih => exact and_congr (genuine_iff call s) (ih _)

/-- The statics of `jwt.c` after reset. -/
def SignState.boot : SignState Unit := ⟨(), false, 1, fun _ => 0, []⟩

/-- A request for a buffer of 400 bytes, in a call in which the generator cannot be initialised. -/
def callWithoutPrng : SignCall Unit where
  tc := ⟨fun _ _ _ => (false, ()), fun _ _ _ => (some (.replicate 64 1), ())⟩
  build := ⟨0, 0, 0, false, .replicate 3 0, 0, fun _ => 0⟩
  data := ⟨0x1000, 400, 1, 0, []⟩

/-- The first call fails to initialise the generator and reports success for a token without a
signature. The next one reports success for a signature made with the generator that is still not
initialised. -/
theorem success_without_prng :
    let s := (sstJwtSign (fun _ => .replicate 32 0) callWithoutPrng .boot).2
    (sstJwtSign (fun _ => .replicate 32 0) callWithoutPrng .boot).1 = .ok ()
      ∧ (sstJwtSign (fun _ => .replicate 32 0) callWithoutPrng s).1 = .ok ()
      ∧ ¬ Genuine (fun _ => .replicate 32 0) callWithoutPrng .boot
      ∧ ¬ Genuine (fun _ => .replicate 32 0) callWithoutPrng s
      ∧ ¬ EachCall (fun _ => .replicate 32 0) (Genuine fun _ => .replicate 32 0)
        [callWithoutPrng, callWithoutPrng] .boot := by
  have hlen : callWithoutPrng.data.signedText.length = 72 := by
    have hheader : (jsonText headerFields).length = 27 := by decide
    have hpayload : (jsonText (payloadFields 1 0 [])).length = 26 := by decide
    simp only [JwtRequest.signedText, callWithoutPrng, tokenText, List.flatMap_cons,
      List.flatMap_nil, List.append_nil, List.length_append, List.length_cons,
      Base64Url.length_encode, hheader, hpayload]
  have hsize : callWithoutPrng.data.bufferSize.toNat = 400 := rfl
  -- the first call
  have hsetup : (setupPrng callWithoutPrng.tc .boot).1 ≠ 0 := by decide
  have hok : (sstJwtSign (fun _ => .replicate 32 0) callWithoutPrng .boot).1 = .ok () := by
    rw [(sstJwtSign_of_none _ _ (.inl hsetup)).1, if_neg]
    rw [(emits_payload _ _).1.overflowed]
    omega
  have hnot : ¬ Genuine (fun _ => .replicate 32 0) callWithoutPrng .boot :=
    not_genuine_of_none _ _ (by omega) (.inl hsetup)
  have hstate : (sstJwtSign (fun _ => .replicate 32 0) callWithoutPrng .boot).2.prngInit = true
      ∧ (sstJwtSign (fun _ => .replicate 32 0) callWithoutPrng .boot).2.events
        = [.prngInit false] := by
    rw [sstJwtSign_eq, jwtSign]
    dsimp only
    rw [if_pos hsetup]
    exact ⟨rfl, rfl⟩
  -- the second call
  generalize (sstJwtSign (fun _ => .replicate 32 0) callWithoutPrng .boot).2 = s at hstate ⊢
  have hsetup' : (setupPrng callWithoutPrng.tc s).1 = 0 :=
    (setupPrng_ok_iff callWithoutPrng s).mpr (.inl hstate.1)
  obtain ⟨hemits, hst⟩ := emits_payload callWithoutPrng s
  have hok' : (sstJwtSign (fun _ => .replicate 32 0) callWithoutPrng s).1 = .ok () := by
    rw [(sstJwtSign_of_signature callWithoutPrng s hsetup' rfl).1, jwtAddSignature_eq, if_neg]
    rw [(emits_addSegment hemits hst _).1.overflowed]
    simp only [List.length_append, Base64Url.length_encode, hlen, hsize]
    decide
  have hnot' : ¬ Genuine (fun _ => .replicate 32 0) callWithoutPrng s := by
    rw [genuine_iff_of_signature callWithoutPrng s (by omega) hsetup' rfl, setupPrng_events,
      hstate.1, hstate.2, hlen, hsize]
    simp
  exact ⟨hok, hok', hnot, hnot', fun h => hnot h.1⟩

end Tfm.Jwt
