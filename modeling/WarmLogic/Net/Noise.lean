/-
# WarmLogic.Net.Noise — the transport of a Noise session in `net/noise.rs`, function by function.

A method on `&mut self` is a function from the session to the new session and its result. The nonce counters are
`UInt64` and wrap, as in the release profile. AES-256-GCM is a parameter with the two laws the transport rests on: what
was sealed opens to its plaintext, and a ciphertext is its plaintext and sixteen bytes of tag. The cipher's own length
limit lies far above the one `encrypt` checks first, so sealing does not fail.

`encrypt` has one outcome in a session that is through, `packetOf`, or its counter is used up; `decrypt` has the three
of `decrypt_cases`. Results on streams of packets are inductions over these, and the two laws of the cipher come in
where a packet of the other side is opened.
-/
import Mathlib.Data.UInt
import WarmLogic.Lib.Bytes

namespace WarmLogic.Net.Noise

open WarmLogic.Lib

/-! ## Constants, errors and the cipher -/

/-- `MAX_ENCRYPTED_MSG_SIZE`, 64 KB. -/
def maxEncryptedMsgSize : Nat := 65536

/-- `NONCE_SIZE`, 96 bits. -/
def nonceSize : Nat := 12

/-- A transport key or a shared secret, `[u8; 32]`. -/
abbrev Key := Vector UInt8 32

/-- `NoiseError`, with the parts of its texts. -/
inductive NoiseError where
  | handshakeIncomplete
  | invalidHandshakeMessage (text : String)
  | keyGenFailed (text : String)
  | encapsFailed (text : String)
  | decapsFailed (text : String)
  | encryptionFailed (text : String)
  | decryptionFailed (text : String)
  | messageTooLarge
  | invalidState
  deriving DecidableEq

/-- AES-256-GCM under a key and a nonce. -/
structure Aead where
  encrypt : Key → List UInt8 → List UInt8 → List UInt8
  decrypt : Key → List UInt8 → List UInt8 → Option (List UInt8)
  decrypt_encrypt : ∀ key nonce plaintext, decrypt key nonce (encrypt key nonce plaintext) = some plaintext
  length_encrypt : ∀ key nonce plaintext, (encrypt key nonce plaintext).length = plaintext.length + 16

/-! ## The session -/

/-- `HandshakeState`. -/
inductive HandshakeState where
  | initial
  | waitingForResponse
  | receivedInitiation
  | complete
  deriving DecidableEq

/-- `NoiseRole`. -/
inductive NoiseRole where
  | initiator
  | responder
  deriving DecidableEq

/-- `EphemeralKeypair`, as hex. -/
structure EphemeralKeypair where
  encapsulationKey : String
  decapsulationKey : String
  deriving DecidableEq

/-- `NoiseSession`. -/
structure NoiseSession where
  role : NoiseRole
  state : HandshakeState
  ephemeral : Option EphemeralKeypair
  peerEk : Option String
  sharedSecrets : List Key
  sendKey : Option Key
  recvKey : Option Key
  sendNonce : UInt64
  recvNonce : UInt64
  deriving DecidableEq

/-- The nonce of a counter: four zero bytes and the counter, big-endian. -/
def nonceOf (counter : UInt64) : List UInt8 := List.replicate 4 0 ++ (leBytes 8 counter.toNat).reverse

/-- The counter in a nonce; its first four bytes are not looked at. -/
def counterOf (bytes : List UInt8) : UInt64 := UInt64.ofNat (ofLeBytes ((bytes.drop 4).take 8).reverse)

namespace NoiseSession

/-- `is_handshake_complete`. -/
def isHandshakeComplete (s : NoiseSession) : Bool := decide (s.state = .complete)

/-- `encrypt`: the nonce in front of the sealed message. -/
def encrypt (aead : Aead) (s : NoiseSession) (plaintext : List UInt8) :
    NoiseSession × Except NoiseError (List UInt8) :=
  if !s.isHandshakeComplete then
    (s, .error .handshakeIncomplete)
  else if maxEncryptedMsgSize - 16 - nonceSize < plaintext.length then
    (s, .error .messageTooLarge)
  else
    match s.sendKey with
    | none => (s, .error .invalidState)
    | some sendKey =>
        let nonceBytes := nonceOf s.sendNonce
        ({ s with sendNonce := s.sendNonce + 1 }, .ok (nonceBytes ++ aead.encrypt sendKey nonceBytes plaintext))

/-- `decrypt`; the counter moves before the cipher is asked. -/
def decrypt (aead : Aead) (s : NoiseSession) (ciphertext : List UInt8) :
    NoiseSession × Except NoiseError (List UInt8) :=
  if !s.isHandshakeComplete then
    (s, .error .handshakeIncomplete)
  else if ciphertext.length < nonceSize + 16 then
    (s, .error (.decryptionFailed "Message too short"))
  else
    match s.recvKey with
    | none => (s, .error .invalidState)
    | some recvKey =>
        let nonceBytes := ciphertext.take nonceSize
        let encrypted := ciphertext.drop nonceSize
        let incomingNonce := counterOf nonceBytes
        if incomingNonce < s.recvNonce then
          (s, .error (.decryptionFailed "Replay detected: nonce too low"))
        else
          let s := { s with recvNonce := incomingNonce + 1 }
          match aead.decrypt recvKey nonceBytes encrypted with
          | none => (s, .error (.decryptionFailed "Authentication failed"))
          | some plaintext => (s, .ok plaintext)

/-- `get_nonce_counters`. -/
def getNonceCounters (s : NoiseSession) : UInt64 × UInt64 := (s.sendNonce, s.recvNonce)

end NoiseSession

/-! ## What the two do -/

/-- A nonce has its size. -/
@[simp] theorem length_nonceOf (counter : UInt64) : (nonceOf counter).length = nonceSize := by
  simp [nonceOf, nonceSize]

/-- The counter of a packet is read back. -/
theorem counterOf_nonceOf (counter : UInt64) : counterOf (nonceOf counter) = counter := by
  have hdrop : (nonceOf counter).drop 4 = (leBytes 8 counter.toNat).reverse := by
    unfold nonceOf
    rw [List.drop_append_of_le_length (by simp), List.drop_of_length_le (by simp), List.nil_append]
  have hlt : counter.toNat < 256 ^ 8 := counter.toNat_lt
  unfold counterOf
  rw [hdrop, List.take_of_length_le (by simp), List.reverse_reverse, ofLeBytes_leBytes_of_lt hlt, UInt64.ofNat_toNat]

/-- The counter a packet carries. -/
def packetCounter (packet : List UInt8) : UInt64 := counterOf (packet.take nonceSize)

/-- What the cipher says of a packet. -/
def opened (aead : Aead) (key : Key) (packet : List UInt8) : Option (List UInt8) :=
  aead.decrypt key (packet.take nonceSize) (packet.drop nonceSize)

namespace NoiseSession

variable {aead : Aead} {s : NoiseSession} {packet : List UInt8}

/-- The key under which a packet is opened: the handshake is complete, and the packet is long enough and not behind. -/
def admits (s : NoiseSession) (packet : List UInt8) : Option Key :=
  if s.isHandshakeComplete ∧ nonceSize + 16 ≤ packet.length ∧ s.recvNonce ≤ packetCounter packet then s.recvKey else none

/-- **The inversion of `decrypt`.** A packet is refused and changes nothing; or the counter moves behind it, and the
result is the cipher's. -/
theorem decrypt_cases (aead : Aead) (s : NoiseSession) (packet : List UInt8) :
    (s.admits packet = none ∧ ∃ e, s.decrypt aead packet = (s, .error e)) ∨
    ∃ key, s.admits packet = some key ∧
      ((opened aead key packet = none ∧ s.decrypt aead packet =
          ({ s with recvNonce := packetCounter packet + 1 }, .error (.decryptionFailed "Authentication failed"))) ∨
        ∃ plaintext, opened aead key packet = some plaintext ∧ s.decrypt aead packet =
          ({ s with recvNonce := packetCounter packet + 1 }, .ok plaintext)) := by
  unfold NoiseSession.decrypt admits
  by_cases hdone : s.isHandshakeComplete = true
  swap
  · simp only [hdone, Bool.not_false, if_true, Bool.false_eq_true, false_and, if_false]
    exact .inl ⟨trivial, _, rfl⟩
  by_cases hlen : packet.length < nonceSize + 16
  · have hlen' : ¬ nonceSize + 16 ≤ packet.length := Nat.not_le.mpr hlen
    simp only [hdone, hlen, hlen', Bool.not_true, Bool.false_eq_true, if_false, if_true, false_and, and_false]
    exact .inl ⟨trivial, _, rfl⟩
  have hlen' : nonceSize + 16 ≤ packet.length := Nat.le_of_not_lt hlen
  simp only [hdone, hlen, hlen', Bool.not_true, Bool.false_eq_true, if_false, true_and]
  cases hkey : s.recvKey with
  | none =>
      left
      refine ⟨?_, _, rfl⟩
      split
      · rfl
      · rfl
  | some key =>
      by_cases hold : counterOf (packet.take nonceSize) < s.recvNonce
      · have hold' : ¬ s.recvNonce ≤ packetCounter packet := UInt64.not_le.mpr hold
        simp only [hold, hold', if_true, if_false]
        exact .inl ⟨trivial, _, rfl⟩
      · have hold' : s.recvNonce ≤ packetCounter packet := UInt64.not_lt.mp hold
        simp only [hold, hold', if_true, if_false]
        refine .inr ⟨key, rfl, ?_⟩
        unfold opened
        cases aead.decrypt key (packet.take nonceSize) (packet.drop nonceSize) with
        | none => exact .inl ⟨rfl, rfl⟩
        | some plaintext => exact .inr ⟨plaintext, rfl, rfl⟩

/-- When a packet is opened, and under which key. -/
theorem admits_eq_some {key : Key} :
    s.admits packet = some key ↔
      s.state = .complete ∧ nonceSize + 16 ≤ packet.length ∧ s.recvNonce ≤ packetCounter packet ∧
        s.recvKey = some key := by
  unfold admits isHandshakeComplete
  split
  · rename_i h
    exact ⟨fun hkey => ⟨of_decide_eq_true h.1, h.2.1, h.2.2, hkey⟩, fun hall => hall.2.2.2⟩
  · rename_i h
    refine ⟨fun hkey => absurd hkey (Option.some_ne_none key).symm, fun hall => absurd ?_ h⟩
    exact ⟨decide_eq_true hall.1, hall.2.1, hall.2.2.1⟩

/-- The packet of a message, sealed under the key and the counter of the session. -/
def packetOf (aead : Aead) (key : Key) (counter : UInt64) (plaintext : List UInt8) : List UInt8 :=
  nonceOf counter ++ aead.encrypt key (nonceOf counter) plaintext

/-- What `encrypt` returns in a session that is through. -/
theorem encrypt_ok {key : Key} {plaintext : List UInt8} (hdone : s.state = .complete) (hkey : s.sendKey = some key)
    (hlen : plaintext.length ≤ maxEncryptedMsgSize - 16 - nonceSize) :
    s.encrypt aead plaintext =
      ({ s with sendNonce := s.sendNonce + 1 }, .ok (packetOf aead key s.sendNonce plaintext)) := by
  unfold NoiseSession.encrypt isHandshakeComplete
  simp only [hdone, decide_true, Bool.not_true, Bool.false_eq_true, if_false, Nat.not_lt.mpr hlen, hkey]
  rfl

/-- A packet begins with its nonce. -/
theorem packetOf_take (key : Key) (counter : UInt64) (plaintext : List UInt8) :
    (packetOf aead key counter plaintext).take nonceSize = nonceOf counter :=
  List.take_left' (length_nonceOf counter)

/-- And goes on with what was sealed. -/
theorem packetOf_drop (key : Key) (counter : UInt64) (plaintext : List UInt8) :
    (packetOf aead key counter plaintext).drop nonceSize = aead.encrypt key (nonceOf counter) plaintext :=
  List.drop_left' (length_nonceOf counter)

/-- It carries the counter of its session. -/
@[simp] theorem packetCounter_packetOf (key : Key) (counter : UInt64) (plaintext : List UInt8) :
    packetCounter (packetOf aead key counter plaintext) = counter := by
  rw [packetCounter, packetOf_take, counterOf_nonceOf]

/-- It opens to its message. -/
@[simp] theorem opened_packetOf (key : Key) (counter : UInt64) (plaintext : List UInt8) :
    opened aead key (packetOf aead key counter plaintext) = some plaintext := by
  rw [opened, packetOf_take, packetOf_drop, aead.decrypt_encrypt]

/-- It is a nonce and a tag longer than its message. -/
theorem length_packetOf (key : Key) (counter : UInt64) (plaintext : List UInt8) :
    nonceSize + 16 ≤ (packetOf aead key counter plaintext).length := by
  rw [packetOf, List.length_append, length_nonceOf, aead.length_encrypt]
  omega

end NoiseSession

end WarmLogic.Net.Noise
