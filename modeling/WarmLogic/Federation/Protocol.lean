/-
# WarmLogic.Federation.Protocol — The messages of `federation/protocol.py` and their bytes.

A message is a header of 24 bytes, the sender's id, a payload and a signature. The builder signs where it is asked to, has
a key and the Rust core is there; a signature is then cut or filled to 64 bytes, and else it is empty.

The clock is in microseconds since the epoch, and the readings are taken to lie after the epoch and to fit into 64 bits.
`sha3_256` and the signature scheme of the Rust core are parameters.
-/
import WarmLogic.Ledger.SovereignStore
import WarmLogic.Lib.Bytes

namespace WarmLogic.Federation

open WarmLogic.Ledger (Bytes utf8)
open WarmLogic.Lib

/-! ## Headers -/

/-- `MessageType`. -/
inductive MessageType where
  | hello
  | helloAck
  | keyExchange
  | keyExchangeAck
  | ping
  | pong
  | attestationRequest
  | attestationResponse
  | proposal
  | vote
  | voteAck
  | commit
  | finalize
  | stateRequest
  | stateResponse
  | stateDelta
  | error
  deriving DecidableEq

namespace MessageType

/-- The number of a type. -/
def value : MessageType → UInt8
  | hello => 0x01
  | helloAck => 0x02
  | keyExchange => 0x03
  | keyExchangeAck => 0x04
  | ping => 0x10
  | pong => 0x11
  | attestationRequest => 0x20
  | attestationResponse => 0x21
  | proposal => 0x30
  | vote => 0x31
  | voteAck => 0x32
  | commit => 0x33
  | finalize => 0x34
  | stateRequest => 0x40
  | stateResponse => 0x41
  | stateDelta => 0x42
  | error => 0xFF

/-- The members, in the order of their declaration. -/
def members : List MessageType :=
  [hello, helloAck, keyExchange, keyExchangeAck, ping, pong, attestationRequest, attestationResponse, proposal, vote,
    voteAck, commit, finalize, stateRequest, stateResponse, stateDelta, error]

/-- `MessageType(value)`; `none` is its `ValueError`. -/
def ofValue (v : UInt8) : Option MessageType := members.find? fun t => t.value == v

/-- A member is found by its value. -/
theorem ofValue_value (t : MessageType) : ofValue t.value = some t := by
  cases t <;> decide

end MessageType

/-- What `hashlib.sha3_256` returns. -/
abbrev Digest := Vector UInt8 32

/-- A reading of `int(time.time() * 1_000_000)`. -/
abbrev Micros := { t : Nat // 0 < t ∧ t < 2 ^ 64 }

/-- `ProtocolHeader`. -/
structure ProtocolHeader where
  version : Nat
  msgType : MessageType
  flags : Nat
  payloadLen : Nat
  timestamp : Nat
  deriving DecidableEq

/-- `PROTOCOL_VERSION`. -/
def protocolVersion : Nat := 0x0100

/-- `b"WLFED"`. -/
def magicBytes : Bytes := [0x57, 0x4C, 0x46, 0x45, 0x44]

namespace ProtocolHeader

/-- `HEADER_SIZE`. -/
def headerSize : Nat := 24

/-- `__post_init__`: a header without a timestamp gets one. -/
def postInit (h : ProtocolHeader) (now : Micros) : ProtocolHeader :=
  if h.timestamp = 0 then { h with timestamp := now } else h

/-- `struct.pack(">5sHBBxxxIQ", …)`; `none` is its `struct.error`, where a number does not fit. -/
def pack (h : ProtocolHeader) : Option Bytes :=
  if h.version < 256 ^ 2 ∧ h.flags < 256 ^ 1 ∧ h.payloadLen < 256 ^ 4 ∧ h.timestamp < 256 ^ 8 then
    some (magicBytes ++ (beBytes 2 h.version ++ ([h.msgType.value] ++ (beBytes 1 h.flags ++ ([0, 0, 0] ++
      (beBytes 4 h.payloadLen ++ beBytes 8 h.timestamp))))))
  else none

/-- The header at the front of some bytes; `none` where a `ValueError` is raised. -/
def unpack (data : Bytes) (now : Micros) : Option ProtocolHeader :=
  if data.length < headerSize then none
  else
    let data := data.take headerSize
    if data.take 5 ≠ magicBytes then none
    else do
      let msgType ← (data[7]?).bind MessageType.ofValue
      return postInit
        { version := ofBeBytes ((data.drop 5).take 2)
          msgType
          flags := ofBeBytes ((data.drop 8).take 1)
          payloadLen := ofBeBytes ((data.drop 12).take 4)
          timestamp := ofBeBytes ((data.drop 16).take 8) } now

end ProtocolHeader

/-! ## Messages -/

/-- `FederationMessage`. -/
@[ext] structure FederationMessage where
  header : ProtocolHeader
  senderId : Bytes
  payload : Bytes
  signature : Bytes
  deriving DecidableEq

namespace FederationMessage

def senderIdSize : Nat := 32

def signatureSize : Nat := 64

/-- `none` where the header cannot be packed. -/
def pack (m : FederationMessage) : Option Bytes :=
  m.header.pack.map fun header => header ++ m.senderId ++ m.payload ++ m.signature

/-- The slices of the source, which end where the data ends. -/
def unpack (data : Bytes) (now : Micros) : Option FederationMessage := do
  let header ← ProtocolHeader.unpack data now
  let data := data.drop ProtocolHeader.headerSize
  let senderId := data.take senderIdSize
  let data := data.drop senderIdSize
  let payload := data.take header.payloadLen
  let data := data.drop header.payloadLen
  return { header, senderId, payload, signature := data.take signatureSize }

end FederationMessage

/-! ## The builder -/

/-- `ErrorCode`. -/
inductive ErrorCode where
  | none
  | invalidMagic
  | invalidVersion
  | invalidSignature
  | invalidNodeId
  | attestationFailed
  | timeout
  | consensusFailed
  | keyExchangeFailed
  | channelExpired
  | unknown
  deriving DecidableEq

def ErrorCode.value : ErrorCode → UInt8
  | .none => 0x00
  | .invalidMagic => 0x01
  | .invalidVersion => 0x02
  | .invalidSignature => 0x03
  | .invalidNodeId => 0x04
  | .attestationFailed => 0x05
  | .timeout => 0x06
  | .consensusFailed => 0x07
  | .keyExchangeFailed => 0x08
  | .channelExpired => 0x09
  | .unknown => 0xFF

/-- `ErrorPayload.pack`: `struct.pack(">BH…s", …)`; `none` where the message is too long. -/
def errorPayload (code : ErrorCode) (message : String) : Option Bytes :=
  let bytes := utf8 message
  if bytes.length < 256 ^ 2 then some (code.value :: (beBytes 2 bytes.length ++ bytes)) else none

/-- `MessageBuilder`. -/
structure MessageBuilder where
  nodeId : String
  signingKey : String

section

variable (sha3 : Bytes → Digest) (rsSign : String → Digest → Option Bytes) (hasRustCore : Bool)

/-- `compute_hash`. -/
def FederationMessage.computeHash (m : FederationMessage) : Option Digest :=
  m.header.pack.map fun header => sha3 (header ++ m.senderId ++ m.payload)

/-- `sig_bytes.ljust(64, b"\x00")`. -/
def ljust64 (bs : Bytes) : Bytes := bs ++ List.replicate (64 - bs.length) 0

namespace MessageBuilder

/-- Whether a message of this builder gets a signature. -/
def signs (b : MessageBuilder) (sign : Bool) : Bool := sign && b.signingKey != "" && hasRustCore

/-- `none` where packing the header or signing raises. `rsSign key hash` is `bytes.fromhex(rs.sign(key, hash.hex()))`. -/
def build (b : MessageBuilder) (now : Micros) (msgType : MessageType) (payload : Bytes) (sign : Bool) :
    Option FederationMessage :=
  let header : ProtocolHeader :=
    { version := protocolVersion, msgType, flags := 0, payloadLen := payload.length, timestamp := 0 }
  let msg : FederationMessage :=
    { header := header.postInit now, senderId := (sha3 (utf8 b.nodeId)).toList, payload, signature := [] }
  if b.signs hasRustCore sign then do
    let msgHash ← msg.computeHash sha3
    let signature ← rsSign b.signingKey msgHash
    return { msg with signature := ljust64 (signature.take 64) }
  else some msg

/-- `build_ping`. -/
def buildPing (b : MessageBuilder) (now : Micros) : Option FederationMessage :=
  b.build sha3 rsSign hasRustCore now .ping [] false

/-- The payload is `struct.pack(">Q", ping_timestamp)`. -/
def buildPong (b : MessageBuilder) (now : Micros) (pingTimestamp : Nat) : Option FederationMessage :=
  if pingTimestamp < 256 ^ 8 then b.build sha3 rsSign hasRustCore now .pong (beBytes 8 pingTimestamp) false else none

/-- `build_error`. -/
def buildError (b : MessageBuilder) (now : Micros) (code : ErrorCode) (message : String) : Option FederationMessage :=
  (errorPayload code message).bind fun payload => b.build sha3 rsSign hasRustCore now .error payload false

end MessageBuilder

end

/-! ## Round trips -/

/-- A packed header has its size. -/
theorem ProtocolHeader.length_pack {h : ProtocolHeader} {bs : Bytes} (hp : h.pack = some bs) :
    bs.length = ProtocolHeader.headerSize := by
  unfold ProtocolHeader.pack at hp
  split at hp
  · cases hp
    simp [magicBytes, ProtocolHeader.headerSize]
  · cases hp

/-- What follows the header does not matter. -/
theorem ProtocolHeader.unpack_append {data : Bytes} (h : data.length = headerSize) (rest : Bytes) (now : Micros) :
    ProtocolHeader.unpack (data ++ rest) now = ProtocolHeader.unpack data now := by
  have hlong : ¬ (data ++ rest).length < headerSize := by
    rw [List.length_append]
    omega
  have hdata : ¬ data.length < headerSize := by omega
  unfold ProtocolHeader.unpack
  rw [if_neg hlong, if_neg hdata, List.take_left' h, List.take_of_length_le h.le]

/-- A header with a timestamp is unpacked as it was packed. -/
theorem ProtocolHeader.unpack_pack {h : ProtocolHeader} {data : Bytes} (hp : h.pack = some data) (ht : h.timestamp ≠ 0)
    (now : Micros) : ProtocolHeader.unpack data now = some h := by
  have hlength := ProtocolHeader.length_pack hp
  unfold ProtocolHeader.unpack
  rw [if_neg (by omega), List.take_of_length_le hlength.le]
  unfold ProtocolHeader.pack at hp
  split at hp
  · next hfit =>
    cases hp
    obtain ⟨hversion, hflags, hpayload, htimestamp⟩ := hfit
    have hmsg := MessageType.ofValue_value h.msgType
    have hlast : (beBytes 8 h.timestamp).take 8 = beBytes 8 h.timestamp := List.take_of_length_le (by simp)
    simp [magicBytes, postInit, List.take_append, List.drop_append, drop_beBytes, hmsg, hlast,
      ofBeBytes_beBytes_of_lt hversion, ofBeBytes_beBytes_of_lt hflags, ofBeBytes_beBytes_of_lt hpayload,
      ofBeBytes_beBytes_of_lt htimestamp, ht]
  · cases hp

/-! ## What the builder makes -/

section

variable {sha3 : Bytes → Digest} {rsSign : String → Digest → Option Bytes} {hasRustCore : Bool} {b : MessageBuilder}
  {now : Micros} {msgType : MessageType} {payload : Bytes} {sign : Bool} {m : FederationMessage}

/-- 64 bytes, of no more. -/
theorem length_ljust64 {bs : Bytes} (h : bs.length ≤ 64) : (ljust64 bs).length = 64 := by
  rw [ljust64, List.length_append, List.length_replicate]
  omega

/-- What every message of a builder has; a signature of 64 bytes if it is signed, and then a header that can be packed, and
else no signature. -/
structure Built (signed : Bool) (m : FederationMessage) : Prop where
  senderId : m.senderId.length = 32
  payloadLen : m.header.payloadLen = m.payload.length
  timestamp : m.header.timestamp ≠ 0
  signature : if signed then m.signature.length = 64 ∧ ∃ data, m.header.pack = some data else m.signature = []

/-- **Every message that is built is as it should be.** -/
theorem built_build (h : b.build sha3 rsSign hasRustCore now msgType payload sign = some m) :
    Built (b.signs hasRustCore sign) m := by
  have hnow : (now : Nat) ≠ 0 := Nat.ne_of_gt now.2.1
  unfold MessageBuilder.build at h
  dsimp only at h
  split at h
  · next hsigns =>
    obtain ⟨msgHash, hhash, h⟩ := Option.bind_eq_some_iff.1 h
    obtain ⟨signature, -, h⟩ := Option.bind_eq_some_iff.1 h
    obtain ⟨data, hdata, -⟩ := Option.map_eq_some_iff.1 hhash
    cases h
    refine ⟨by simp, by simp [ProtocolHeader.postInit], by simpa [ProtocolHeader.postInit] using hnow, ?_⟩
    rw [if_pos hsigns]
    exact ⟨length_ljust64 (by simp), data, hdata⟩
  · next hsigns =>
    cases h
    refine ⟨by simp, by simp [ProtocolHeader.postInit], by simpa [ProtocolHeader.postInit] using hnow, ?_⟩
    rw [if_neg hsigns]

end

end WarmLogic.Federation
