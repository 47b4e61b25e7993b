/-
# WarmLogic.Net.NoiseHandshake — the handshake of a Noise session in `net/noise.rs`, function by function.

A method on `&mut self` is a function from the session to the new session and its result; a `?` in the middle of a
method leaves the session as it is at that point. What the random generator gives is an argument. SHA3-256 is the
parameter `sha3`.

`respond` and `process_response` store the peer's key, and the latter a first secret, before the steps that can still
fail. `Handles` lists what a call can do, case by case.

The inversion is one lemma for each method, put together in `call_handles`: what a call does is either one of the four
good transitions, or a refusal that leaves the session as it was, or one of the three ways to store something and then
fail (`Handles`). The results on runs of two sessions go through these cases and never open a method again. `Keyed` is
the part of the state that no call changes, `Ready` the secret that `process_final` expects.
-/
import WarmLogic.Crypto.MlKem
import WarmLogic.Ledger.SovereignStore
import WarmLogic.Net.Noise

namespace WarmLogic.Net.Noise

open WarmLogic.Federation (hexEncode)
open WarmLogic.Crypto
open WarmLogic.Ledger (utf8)

/-- `HandshakeMessage`. -/
inductive HandshakeMessage where
  | init (ephemeralEk : List UInt8)
  | response (ephemeralEk ciphertext : List UInt8)
  | final (ciphertext : List UInt8)
  deriving DecidableEq

/-! ## Transport keys -/

section Keys

variable (sha3 : List UInt8 → Key)

/-- All shared secrets, mixed. -/
def masterKey (secrets : List Key) : Key := sha3 (utf8 "WarmLogic_Noise_v1" ++ secrets.flatMap (·.toList))

/-- The key of one direction. -/
def initiatorToResponderKey (secrets : List Key) : Key :=
  sha3 ((masterKey sha3 secrets).toList ++ utf8 "initiator_to_responder")

/-- The key of the other. -/
def responderToInitiatorKey (secrets : List Key) : Key :=
  sha3 ((masterKey sha3 secrets).toList ++ utf8 "responder_to_initiator")

end Keys

/-- `ss_arr.copy_from_slice`; the slice is a secret of ML-KEM and has 32 bytes. -/
def copyFromSlice (bytes : List UInt8) : Key := Vector.ofFn fun i => bytes.getD i 0

/-- The array has the bytes of the slice. -/
@[simp] theorem copyFromSlice_toList (key : Key) : copyFromSlice key.toList = key := by
  ext i hi
  simp [copyFromSlice]

namespace NoiseSession

variable {ρ : Type} (kem : MlKem ρ) (sha3 : List UInt8 → Key)

/-- A new session of a role. -/
def ofKeypair (role : NoiseRole) (ek dk : String) : NoiseSession where
  role := role
  state := .initial
  ephemeral := some ⟨ek, dk⟩
  peerEk := none
  sharedSecrets := []
  sendKey := none
  recvKey := none
  sendNonce := 0
  recvNonce := 0

/-- `new_initiator` and `new_responder`, which differ in the role. -/
def newSession (role : NoiseRole) (rng : ρ) : Except NoiseError NoiseSession :=
  match kem.keygenRaw rng with
  | .error e => .error (.keyGenFailed e)
  | .ok (ek, dk) => .ok (ofKeypair role ek dk)

/-- `new_initiator`. -/
def newInitiator (rng : ρ) : Except NoiseError NoiseSession := newSession kem .initiator rng

/-- `new_responder`. -/
def newResponder (rng : ρ) : Except NoiseError NoiseSession := newSession kem .responder rng

/-- A text that should be hex, with the name the error gives it. -/
def decodeField (name text : String) : Except NoiseError (List UInt8) :=
  match hexDecode text with
  | none => .error (.invalidHandshakeMessage ("Failed to decode " ++ name ++ ": " ++ kem.hexError text))
  | some bytes => .ok bytes

/-- `initiate`. -/
def initiate (s : NoiseSession) : NoiseSession × Except NoiseError HandshakeMessage :=
  if s.role ≠ .initiator ∨ s.state ≠ .initial then (s, .error .invalidState)
  else match s.ephemeral with
    | none => (s, .error .invalidState)
    | some ephemeral =>
        match decodeField kem "EK" ephemeral.encapsulationKey with
        | .error e => (s, .error e)
        | .ok ekBytes => ({ s with state := .waitingForResponse }, .ok (.init ekBytes))

/-- `derive_transport_keys`; the secrets are cleared. -/
def deriveTransportKeys (s : NoiseSession) : NoiseSession × Except NoiseError Unit :=
  if s.sharedSecrets.length < 2 then (s, .error .invalidState)
  else
    let i2r := initiatorToResponderKey sha3 s.sharedSecrets
    let r2i := responderToInitiatorKey sha3 s.sharedSecrets
    match s.role with
    | .initiator => ({ s with sendKey := some i2r, recvKey := some r2i, sharedSecrets := [] }, .ok ())
    | .responder => ({ s with sendKey := some r2i, recvKey := some i2r, sharedSecrets := [] }, .ok ())

/-- `respond`. -/
def respond (s : NoiseSession) (initMsg : HandshakeMessage) (rng : ρ) :
    NoiseSession × Except NoiseError HandshakeMessage :=
  if s.role ≠ .responder ∨ s.state ≠ .initial then (s, .error .invalidState)
  else match initMsg with
    | .init ephemeralEk =>
        let initiatorEk := hexEncode ephemeralEk
        -- stored before the key is tried
        let s := { s with peerEk := some initiatorEk }
        match kem.encapsulateRaw initiatorEk rng with
        | .error e => (s, .error (.encapsFailed e))
        | .ok encapsResult =>
            match decodeField kem "SS" encapsResult.sharedSecret with
            | .error e => (s, .error e)
            | .ok ssBytes =>
                let s := { s with sharedSecrets := s.sharedSecrets ++ [copyFromSlice ssBytes] }
                match s.ephemeral with
                | none => (s, .error .invalidState)
                | some ephemeral =>
                    match decodeField kem "our EK" ephemeral.encapsulationKey with
                    | .error e => (s, .error e)
                    | .ok ekBytes =>
                        match decodeField kem "CT" encapsResult.ciphertext with
                        | .error e => (s, .error e)
                        | .ok ctBytes => ({ s with state := .receivedInitiation }, .ok (.response ekBytes ctBytes))
    | _ => (s, .error (.invalidHandshakeMessage "Expected Init message"))

/-- `process_response`. -/
def processResponse (s : NoiseSession) (response : HandshakeMessage) (rng : ρ) :
    NoiseSession × Except NoiseError HandshakeMessage :=
  if s.role ≠ .initiator ∨ s.state ≠ .waitingForResponse then (s, .error .invalidState)
  else match response with
    | .response ephemeralEk ciphertext =>
        let responderEk := hexEncode ephemeralEk
        -- stored before the ciphertext is opened
        let s := { s with peerEk := some responderEk }
        match s.ephemeral with
        | none => (s, .error .invalidState)
        | some ephemeral =>
            match kem.decapsulateRaw ephemeral.decapsulationKey (hexEncode ciphertext) with
            | .error e => (s, .error (.decapsFailed e))
            | .ok ss1 =>
                match decodeField kem "SS1" ss1 with
                | .error e => (s, .error e)
                | .ok ss1Bytes =>
                    -- pushed before the key is tried
                    let s := { s with sharedSecrets := s.sharedSecrets ++ [copyFromSlice ss1Bytes] }
                    match kem.encapsulateRaw responderEk rng with
                    | .error e => (s, .error (.encapsFailed e))
                    | .ok encapsResult =>
                        match decodeField kem "SS2" encapsResult.sharedSecret with
                        | .error e => (s, .error e)
                        | .ok ss2Bytes =>
                            let s := { s with sharedSecrets := s.sharedSecrets ++ [copyFromSlice ss2Bytes] }
                            match s.deriveTransportKeys sha3 with
                            | (s, .error e) => (s, .error e)
                            | (s, .ok ()) =>
                                let s := { s with state := .complete }
                                match decodeField kem "final CT" encapsResult.ciphertext with
                                | .error e => (s, .error e)
                                | .ok ctBytes => (s, .ok (.final ctBytes))
    | _ => (s, .error (.invalidHandshakeMessage "Expected Response message"))

/-- `process_final`. -/
def processFinal (s : NoiseSession) (finalMsg : HandshakeMessage) : NoiseSession × Except NoiseError Unit :=
  if s.role ≠ .responder ∨ s.state ≠ .receivedInitiation then (s, .error .invalidState)
  else match finalMsg with
    | .final ciphertext =>
        match s.ephemeral with
        | none => (s, .error .invalidState)
        | some ephemeral =>
            match kem.decapsulateRaw ephemeral.decapsulationKey (hexEncode ciphertext) with
            | .error e => (s, .error (.decapsFailed e))
            | .ok ss2 =>
                match decodeField kem "SS2" ss2 with
                | .error e => (s, .error e)
                | .ok ss2Bytes =>
                    let s := { s with sharedSecrets := s.sharedSecrets ++ [copyFromSlice ss2Bytes] }
                    match s.deriveTransportKeys sha3 with
                    | (s, .error e) => (s, .error e)
                    | (s, .ok ()) => ({ s with state := .complete }, .ok ())
    | _ => (s, .error (.invalidHandshakeMessage "Expected Final message"))

/-! ## What a call can do -/

variable {kem sha3} {s : NoiseSession} {ek dk : List UInt8}

/-- A field that was written as hex is decoded to its bytes. -/
@[simp] theorem decodeField_hexEncode (name : String) (bytes : List UInt8) :
    decodeField kem name (hexEncode bytes) = .ok bytes := by
  rw [decodeField, hexDecode_hexEncode]

/-- The session's own keypair, as bytes. -/
def Keyed (s : NoiseSession) (ek dk : List UInt8) : Prop := s.ephemeral = some ⟨hexEncode ek, hexEncode dk⟩

/-- The session with the directional keys of its role. -/
def keysDerived (sha3 : List UInt8 → Key) (s : NoiseSession) (secrets : List Key) : NoiseSession :=
  match s.role with
  | .initiator => { s with
      sendKey := some (initiatorToResponderKey sha3 secrets)
      recvKey := some (responderToInitiatorKey sha3 secrets)
      sharedSecrets := [] }
  | .responder => { s with
      sendKey := some (responderToInitiatorKey sha3 secrets)
      recvKey := some (initiatorToResponderKey sha3 secrets)
      sharedSecrets := [] }

/-- `derive_transport_keys`, for the role of the session. -/
theorem deriveTransportKeys_eq (h : 2 ≤ s.sharedSecrets.length) :
    s.deriveTransportKeys sha3 = (keysDerived sha3 s s.sharedSecrets, .ok ()) := by
  rw [deriveTransportKeys, if_neg (Nat.not_lt.mpr h), keysDerived]
  cases s.role <;> rfl

/-- `initiate` in the right state. -/
theorem initiate_eq (hkey : s.Keyed ek dk) (hrole : s.role = .initiator) (hstate : s.state = .initial) :
    s.initiate kem = ({ s with state := .waitingForResponse }, .ok (.init ek)) := by
  have hcheck : ¬ (s.role ≠ .initiator ∨ s.state ≠ .initial) := by simp [hrole, hstate]
  unfold Keyed at hkey
  rw [initiate, if_neg hcheck, hkey]
  dsimp only
  rw [decodeField_hexEncode]

/-- `respond` to an `Init` in the right state: the key is stored whether or not it encapsulates. -/
theorem respond_eq (hkey : s.Keyed ek dk) (hrole : s.role = .responder) (hstate : s.state = .initial)
    (e : List UInt8) (rng : ρ) :
    s.respond kem (.init e) rng =
      match kem.encapsBytes e rng with
      | .error msg => ({ s with peerEk := some (hexEncode e) }, .error (.encapsFailed msg))
      | .ok (ss, ct) =>
          ({ s with
              peerEk := some (hexEncode e)
              sharedSecrets := s.sharedSecrets ++ [ss]
              state := .receivedInitiation }, .ok (.response ek ct.toList)) := by
  have hcheck : ¬ (s.role ≠ .responder ∨ s.state ≠ .initial) := by simp [hrole, hstate]
  unfold Keyed at hkey
  rw [respond, if_neg hcheck]
  dsimp only
  rw [MlKem.encapsulateRaw_hexEncode]
  cases kem.encapsBytes e rng with
  | error msg => rfl
  | ok p => simp only [Except.map, decodeField_hexEncode, hkey, copyFromSlice_toList]

/-- `process_response` of a `Response` in the right state: the key is stored whether or not the ciphertext opens, and
the first secret whether or not the key encapsulates. -/
theorem processResponse_eq (hkey : s.Keyed ek dk) (hrole : s.role = .initiator)
    (hstate : s.state = .waitingForResponse) (e c : List UInt8) (rng : ρ) :
    s.processResponse kem sha3 (.response e c) rng =
      match kem.decapsBytes dk (hexEncode c) with
      | .error msg => ({ s with peerEk := some (hexEncode e) }, .error (.decapsFailed msg))
      | .ok ss1 =>
          match kem.encapsBytes e rng with
          | .error msg =>
              ({ s with peerEk := some (hexEncode e), sharedSecrets := s.sharedSecrets ++ [ss1] },
                .error (.encapsFailed msg))
          | .ok (ss2, ct) =>
              ({ keysDerived sha3 { s with peerEk := some (hexEncode e) } (s.sharedSecrets ++ [ss1] ++ [ss2]) with
                  state := .complete }, .ok (.final ct.toList)) := by
  have hcheck : ¬ (s.role ≠ .initiator ∨ s.state ≠ .waitingForResponse) := by simp [hrole, hstate]
  unfold Keyed at hkey
  rw [processResponse, if_neg hcheck]
  dsimp only
  rw [hkey]
  dsimp only
  rw [MlKem.decapsulateRaw_hexEncode]
  cases kem.decapsBytes dk (hexEncode c) with
  | error msg => rfl
  | ok ss1 =>
      simp only [Except.map, decodeField_hexEncode, copyFromSlice_toList, MlKem.encapsulateRaw_hexEncode]
      cases kem.encapsBytes e rng with
      | error msg => rfl
      | ok p =>
          simp only [decodeField_hexEncode, copyFromSlice_toList]
          rw [deriveTransportKeys_eq (by simp)]
          simp only [keysDerived, hrole]

/-- `process_final` of a `Final` in the right state, with a first secret in place. -/
theorem processFinal_eq (hkey : s.Keyed ek dk) (hrole : s.role = .responder)
    (hstate : s.state = .receivedInitiation) (hsecret : s.sharedSecrets ≠ []) (c : List UInt8) :
    s.processFinal kem sha3 (.final c) =
      match kem.decapsBytes dk (hexEncode c) with
      | .error msg => (s, .error (.decapsFailed msg))
      | .ok ss2 => ({ keysDerived sha3 s (s.sharedSecrets ++ [ss2]) with state := .complete }, .ok ()) := by
  have hcheck : ¬ (s.role ≠ .responder ∨ s.state ≠ .receivedInitiation) := by simp [hrole, hstate]
  have hlen : 0 < s.sharedSecrets.length := List.length_pos_iff.mpr hsecret
  unfold Keyed at hkey
  rw [processFinal, if_neg hcheck]
  dsimp only
  rw [hkey]
  dsimp only
  rw [MlKem.decapsulateRaw_hexEncode]
  cases kem.decapsBytes dk (hexEncode c) with
  | error msg => rfl
  | ok ss2 =>
      simp only [Except.map, decodeField_hexEncode, copyFromSlice_toList]
      rw [deriveTransportKeys_eq (by simp; omega)]
      simp only [keysDerived, hrole, hkey]

end NoiseSession

/-- A call of the handshake; a message comes from the network. -/
inductive HandshakeCall (ρ : Type) where
  | initiate
  | respond (msg : HandshakeMessage) (rng : ρ)
  | processResponse (msg : HandshakeMessage) (rng : ρ)
  | processFinal (msg : HandshakeMessage)

namespace HandshakeCall

variable {ρ : Type}

/-- The message a call is given. -/
def given : HandshakeCall ρ → Option HandshakeMessage
  | .initiate => none
  | .respond msg _ => some msg
  | .processResponse msg _ => some msg
  | .processFinal msg => some msg

end HandshakeCall

namespace NoiseSession

variable {ρ : Type} (kem : MlKem ρ) (sha3 : List UInt8 → Key)

/-- A call, with the message it returns. -/
def call (s : NoiseSession) : HandshakeCall ρ → NoiseSession × Except NoiseError (Option HandshakeMessage)
  | .initiate => ((s.initiate kem).1, (s.initiate kem).2.map some)
  | .respond msg rng => ((s.respond kem msg rng).1, (s.respond kem msg rng).2.map some)
  | .processResponse msg rng =>
      ((s.processResponse kem sha3 msg rng).1, (s.processResponse kem sha3 msg rng).2.map some)
  | .processFinal msg => ((s.processFinal kem sha3 msg).1, (s.processFinal kem sha3 msg).2.map fun _ => none)

/-- The peer's key does not encapsulate. -/
def refusesKey (e : List UInt8) (rng : ρ) : Bool := !(kem.encapsulateRaw (hexEncode e) rng).isOk

/-- The ciphertext opens under the session's own key. -/
def opensCiphertext (s : NoiseSession) (c : List UInt8) : Bool :=
  match s.ephemeral with
  | none => false
  | some ephemeral => (kem.decapsulateRaw ephemeral.decapsulationKey (hexEncode c)).isOk

/-- The call mixes a secret in and then fails: a `Response` to a waiting initiator whose ciphertext opens and whose key
does not encapsulate. -/
def mixes (s : NoiseSession) : HandshakeCall ρ → Bool
  | .processResponse (.response e c) rng =>
      s.role == .initiator && s.state == .waitingForResponse && s.opensCiphertext kem c && refusesKey kem e rng
  | _ => false

/-- The call stores something new and then fails: it mixes a secret in, or it stores a new peer key, from an `Init` to
a fresh responder whose key does not encapsulate or from a `Response` to a waiting initiator that does not open. -/
def spoils (s : NoiseSession) : HandshakeCall ρ → Bool
  | .respond (.init e) rng =>
      s.role == .responder && s.state == .initial && refusesKey kem e rng && s.peerEk != some (hexEncode e)
  | .processResponse (.response e c) rng =>
      s.role == .initiator && s.state == .waitingForResponse &&
        if s.opensCiphertext kem c then refusesKey kem e rng else s.peerEk != some (hexEncode e)
  | _ => false

variable {kem sha3} {s : NoiseSession} {ek dk : List UInt8}

/-- What a call on a session with the keypair `(ek, dk)` can do. -/
inductive Handles (kem : MlKem ρ) (sha3 : List UInt8 → Key) (ek dk : List UInt8) (s : NoiseSession) :
    HandshakeCall ρ → NoiseSession → Except NoiseError (Option HandshakeMessage) → Prop
  /-- Refused before anything is stored. -/
  | refused {c : HandshakeCall ρ} {e : NoiseError} : s.spoils kem c = false → s.mixes kem c = false →
      Handles kem sha3 ek dk s c s (.error e)
  | initiate : s.role = .initiator → s.state = .initial →
      Handles kem sha3 ek dk s .initiate { s with state := .waitingForResponse } (.ok (some (.init ek)))
  | respondFails {e : List UInt8} {rng : ρ} {msg : String} : s.role = .responder → s.state = .initial →
      kem.encapsBytes e rng = .error msg →
      Handles kem sha3 ek dk s (.respond (.init e) rng) { s with peerEk := some (hexEncode e) }
        (.error (.encapsFailed msg))
  | respond {e : List UInt8} {rng : ρ} {ss : Key} {ct : Vector UInt8 kem.ctLen} :
      s.role = .responder → s.state = .initial → kem.encapsBytes e rng = .ok (ss, ct) →
      Handles kem sha3 ek dk s (.respond (.init e) rng)
        { s with
          peerEk := some (hexEncode e)
          sharedSecrets := s.sharedSecrets ++ [ss]
          state := .receivedInitiation } (.ok (some (.response ek ct.toList)))
  | decapsFails {e c : List UInt8} {rng : ρ} {msg : String} : s.role = .initiator → s.state = .waitingForResponse →
      kem.decapsBytes dk (hexEncode c) = .error msg →
      Handles kem sha3 ek dk s (.processResponse (.response e c) rng) { s with peerEk := some (hexEncode e) }
        (.error (.decapsFailed msg))
  | encapsFails {e c : List UInt8} {rng : ρ} {ss : Key} {msg : String} :
      s.role = .initiator → s.state = .waitingForResponse →
      kem.decapsBytes dk (hexEncode c) = .ok ss → kem.encapsBytes e rng = .error msg →
      Handles kem sha3 ek dk s (.processResponse (.response e c) rng)
        { s with peerEk := some (hexEncode e), sharedSecrets := s.sharedSecrets ++ [ss] }
        (.error (.encapsFailed msg))
  | processResponse {e c : List UInt8} {rng : ρ} {ss1 ss2 : Key} {ct : Vector UInt8 kem.ctLen} :
      s.role = .initiator → s.state = .waitingForResponse →
      kem.decapsBytes dk (hexEncode c) = .ok ss1 → kem.encapsBytes e rng = .ok (ss2, ct) →
      Handles kem sha3 ek dk s (.processResponse (.response e c) rng)
        { keysDerived sha3 { s with peerEk := some (hexEncode e) } (s.sharedSecrets ++ [ss1] ++ [ss2]) with
          state := .complete } (.ok (some (.final ct.toList)))
  | processFinal {c : List UInt8} {ss2 : Key} : s.role = .responder → s.state = .receivedInitiation →
      kem.decapsBytes dk (hexEncode c) = .ok ss2 →
      Handles kem sha3 ek dk s (.processFinal (.final c))
        { keysDerived sha3 s (s.sharedSecrets ++ [ss2]) with state := .complete } (.ok none)

/-- Between `respond` and `process_final` a session holds a secret. -/
structure Ready (s : NoiseSession) (ek dk : List UInt8) : Prop where
  keyed : s.Keyed ek dk
  secret : s.state = .receivedInitiation → s.sharedSecrets ≠ []

/-- `initiate` is one of the cases. -/
theorem initiate_handles (h : s.Ready ek dk) :
    Handles kem sha3 ek dk s .initiate (s.call kem sha3 .initiate).1 (s.call kem sha3 .initiate).2 := by
  by_cases hcheck : s.role ≠ .initiator ∨ s.state ≠ .initial
  · rw [call, initiate, if_pos hcheck]
    exact .refused rfl rfl
  · obtain ⟨hrole, hstate⟩ := not_or.mp hcheck
    rw [not_not] at hrole hstate
    rw [call, initiate_eq h.keyed hrole hstate]
    exact .initiate hrole hstate

/-- `respond` refuses in a wrong state and any message but an `Init`. -/
theorem respond_refused (kem : MlKem ρ) {msg : HandshakeMessage} (rng : ρ)
    (h : (s.role ≠ .responder ∨ s.state ≠ .initial) ∨ ∀ e, msg ≠ .init e) :
    ∃ err, s.respond kem msg rng = (s, .error err) := by
  unfold respond
  by_cases hcheck : s.role ≠ .responder ∨ s.state ≠ .initial
  · exact ⟨_, if_pos hcheck⟩
  · rw [if_neg hcheck]
    cases msg with
    | init e => exact absurd rfl (h.resolve_left hcheck e)
    | response e c => exact ⟨_, rfl⟩
    | final c => exact ⟨_, rfl⟩

/-- `respond` is one of the cases. -/
theorem respond_handles (h : s.Ready ek dk) (msg : HandshakeMessage) (rng : ρ) :
    Handles kem sha3 ek dk s (.respond msg rng) (s.call kem sha3 (.respond msg rng)).1
      (s.call kem sha3 (.respond msg rng)).2 := by
  have hrefused (hs : s.spoils kem (.respond msg rng) = false)
      (hr : (s.role ≠ .responder ∨ s.state ≠ .initial) ∨ ∀ e, msg ≠ .init e) :
      Handles kem sha3 ek dk s (.respond msg rng) (s.call kem sha3 (.respond msg rng)).1
        (s.call kem sha3 (.respond msg rng)).2 := by
    obtain ⟨err, heq⟩ := respond_refused kem rng hr
    rw [call, heq]
    exact .refused hs rfl
  cases msg with
  | init e =>
      by_cases hcheck : s.role ≠ .responder ∨ s.state ≠ .initial
      · refine hrefused ?_ (.inl hcheck)
        rcases hcheck with h | h <;> simp [spoils, h]
      · obtain ⟨hrole, hstate⟩ := not_or.mp hcheck
        rw [not_not] at hrole hstate
        rw [call, respond_eq h.keyed hrole hstate]
        cases henc : kem.encapsBytes e rng with
        | error msg => exact .respondFails hrole hstate henc
        | ok p => exact .respond hrole hstate henc
  | response e c => exact hrefused rfl (.inr fun _ h => nomatch h)
  | final c => exact hrefused rfl (.inr fun _ h => nomatch h)

/-- `process_response` refuses in a wrong state and any message but a `Response`. -/
theorem processResponse_refused (kem : MlKem ρ) (sha3 : List UInt8 → Key) {msg : HandshakeMessage} (rng : ρ)
    (h : (s.role ≠ .initiator ∨ s.state ≠ .waitingForResponse) ∨ ∀ e c, msg ≠ .response e c) :
    ∃ err, s.processResponse kem sha3 msg rng = (s, .error err) := by
  unfold processResponse
  by_cases hcheck : s.role ≠ .initiator ∨ s.state ≠ .waitingForResponse
  · exact ⟨_, if_pos hcheck⟩
  · rw [if_neg hcheck]
    cases msg with
    | init e => exact ⟨_, rfl⟩
    | response e c => exact absurd rfl (h.resolve_left hcheck e c)
    | final c => exact ⟨_, rfl⟩

/-- `process_response` is one of the cases. -/
theorem processResponse_handles (h : s.Ready ek dk) (msg : HandshakeMessage) (rng : ρ) :
    Handles kem sha3 ek dk s (.processResponse msg rng) (s.call kem sha3 (.processResponse msg rng)).1
      (s.call kem sha3 (.processResponse msg rng)).2 := by
  have hrefused (hs : s.spoils kem (.processResponse msg rng) = false)
      (hm : s.mixes kem (.processResponse msg rng) = false)
      (hr : (s.role ≠ .initiator ∨ s.state ≠ .waitingForResponse) ∨ ∀ e c, msg ≠ .response e c) :
      Handles kem sha3 ek dk s (.processResponse msg rng) (s.call kem sha3 (.processResponse msg rng)).1
        (s.call kem sha3 (.processResponse msg rng)).2 := by
    obtain ⟨err, heq⟩ := processResponse_refused kem sha3 rng hr
    rw [call, heq]
    exact .refused hs hm
  cases msg with
  | init e => exact hrefused rfl rfl (.inr fun _ _ h => nomatch h)
  | response e c =>
      by_cases hcheck : s.role ≠ .initiator ∨ s.state ≠ .waitingForResponse
      · refine hrefused ?_ ?_ (.inl hcheck)
        · rcases hcheck with h | h <;> simp [spoils, h]
        · rcases hcheck with h | h <;> simp [mixes, h]
      · obtain ⟨hrole, hstate⟩ := not_or.mp hcheck
        rw [not_not] at hrole hstate
        rw [call, processResponse_eq h.keyed hrole hstate]
        cases hdec : kem.decapsBytes dk (hexEncode c) with
        | error msg => exact .decapsFails hrole hstate hdec
        | ok ss1 =>
            cases henc : kem.encapsBytes e rng with
            | error msg => exact .encapsFails hrole hstate hdec henc
            | ok p => exact .processResponse hrole hstate hdec henc
  | final c => exact hrefused rfl rfl (.inr fun _ _ h => nomatch h)

/-- `process_final` refuses in a wrong state and any message but a `Final`. -/
theorem processFinal_refused (kem : MlKem ρ) (sha3 : List UInt8 → Key) {msg : HandshakeMessage}
    (h : (s.role ≠ .responder ∨ s.state ≠ .receivedInitiation) ∨ ∀ c, msg ≠ .final c) :
    ∃ err, s.processFinal kem sha3 msg = (s, .error err) := by
  unfold processFinal
  by_cases hcheck : s.role ≠ .responder ∨ s.state ≠ .receivedInitiation
  · exact ⟨_, if_pos hcheck⟩
  · rw [if_neg hcheck]
    cases msg with
    | init e => exact ⟨_, rfl⟩
    | response e c => exact ⟨_, rfl⟩
    | final c => exact absurd rfl (h.resolve_left hcheck c)

/-- `process_final` is one of the cases. -/
theorem processFinal_handles (h : s.Ready ek dk) (msg : HandshakeMessage) :
    Handles kem sha3 ek dk s (.processFinal msg) (s.call kem sha3 (.processFinal msg)).1
      (s.call kem sha3 (.processFinal msg)).2 := by
  have hrefused (hr : (s.role ≠ .responder ∨ s.state ≠ .receivedInitiation) ∨ ∀ c, msg ≠ .final c) :
      Handles kem sha3 ek dk s (.processFinal msg) (s.call kem sha3 (.processFinal msg)).1
        (s.call kem sha3 (.processFinal msg)).2 := by
    obtain ⟨err, heq⟩ := processFinal_refused kem sha3 hr
    rw [call, heq]
    exact .refused rfl rfl
  cases msg with
  | init e => exact hrefused (.inr fun _ h => nomatch h)
  | response e c => exact hrefused (.inr fun _ h => nomatch h)
  | final c =>
      by_cases hcheck : s.role ≠ .responder ∨ s.state ≠ .receivedInitiation
      · exact hrefused (.inl hcheck)
      · obtain ⟨hrole, hstate⟩ := not_or.mp hcheck
        rw [not_not] at hrole hstate
        rw [call, processFinal_eq h.keyed hrole hstate (h.secret hstate)]
        cases hdec : kem.decapsBytes dk (hexEncode c) with
        | error msg => exact .refused rfl rfl
        | ok ss2 => exact .processFinal hrole hstate hdec

/-- **The inversion of the handshake.** -/
theorem call_handles (kem : MlKem ρ) (sha3 : List UInt8 → Key) (h : s.Ready ek dk) (c : HandshakeCall ρ) :
    Handles kem sha3 ek dk s c (s.call kem sha3 c).1 (s.call kem sha3 c).2 := by
  cases c with
  | initiate => exact initiate_handles h
  | respond msg rng => exact respond_handles h msg rng
  | processResponse msg rng => exact processResponse_handles h msg rng
  | processFinal msg => exact processFinal_handles h msg

end NoiseSession

end WarmLogic.Net.Noise
