/-
# WarmLogic.Federation.Handshake — Two nodes connect, as in `network_transport.py`.

The client sends HELLO, the server answers HELLO_ACK, the client encapsulates a session key to the key it was told and
sends KEY_EXCHANGE, the server decapsulates it and answers KEY_EXCHANGE_ACK. Each waits for the answer before it goes on.

No signature is checked on the way, but a message without one is never read (`MessageFraming`). So two nodes connect
exactly if both sign, and then they agree on the session and on who the other is (`handshake_eq`).

The theorem is put together from one lemma for each message: what a node that signs builds (`buildHello_spec`,
`buildKeyExchange_spec`), what the other side makes of it (`handleClient_signed`, `connectToPeer_signed`,
`serverKeyExchange_signed`), and that a message without a signature ends the reading (`expect_unsigned`). Packing and
unpacking come from the payloads and the framing. Of the Rust core one law is used, that decapsulation finds the key
that was encapsulated (`Session`), and none of signatures, as none is checked.
-/
import WarmLogic.Federation.MessageFraming
import WarmLogic.Federation.Payloads

namespace WarmLogic.Federation

open WarmLogic.Ledger (Bytes utf8)
open WarmLogic.Lib
open WarmLogic.Crypto (fromHex fromHex_hexEncode)

/-! ## The parties -/

/-- `ConnectionState`. -/
inductive ConnectionState where
  | disconnected
  | connecting
  | handshaking
  | keyExchange
  | established
  | closing
  deriving DecidableEq

/-- `PeerConnection`: what a node knows of the other end. -/
structure PeerConnection where
  nodeId : String
  state : ConnectionState
  sessionKey : Bytes
  sessionId : Bytes
  encapsulationKey : String
  signingKey : String
  deriving DecidableEq

/-- What `FederationTransport` is made from. -/
structure FederationTransport where
  nodeId : String
  signingKey : String
  encapsulationKey : String
  decapsulationKey : String
  signingPublicKey : String
  hasRustCore : Bool
  maxMessageSize : Nat

/-- The functions of the Rust core. `kemEncapsulate` draws from a seed; keys and ciphertexts are hex. -/
structure RustCore (Seed : Type) where
  sha3 : Bytes → Digest
  sign : String → Digest → Option Bytes
  kemEncapsulate : Seed → String → Option (String × String)
  kemDecapsulate : String → String → Option String

section Parties

variable {Seed : Type} (rs : RustCore Seed)

namespace FederationTransport

/-- The builder of the node's messages. -/
def messageBuilder (t : FederationTransport) : MessageBuilder where
  nodeId := t.nodeId
  signingKey := t.signingKey

/-- `MessageBuilder.build` of the node. -/
def build (t : FederationTransport) (now : Micros) (msgType : MessageType) (payload : Bytes) : Option FederationMessage :=
  t.messageBuilder.build rs.sha3 rs.sign t.hasRustCore now msgType payload true

/-- A HELLO, or the answer to one, with the node's keys. -/
def buildHello (t : FederationTransport) (now : Micros) : Option FederationMessage :=
  (HelloPayload.pack ⟨t.nodeId, t.encapsulationKey, t.signingPublicKey, 0xFFFF⟩).bind fun payload =>
    t.build rs now .hello payload

/-- A KEY_EXCHANGE, or the answer to one. -/
def buildKeyExchange (t : FederationTransport) (now : Micros) (ciphertext : String) (sessionId : Bytes) :
    Option FederationMessage :=
  (KeyExchangePayload.pack ⟨ciphertext, sessionId⟩).bind fun payload => t.build rs now .keyExchange payload

/-- The next message of the stream, if it is of this type, and what is left of the stream. -/
def expect (t : FederationTransport) (now : Micros) (msgType : MessageType) (stream : Bytes) :
    Option (FederationMessage × Bytes) :=
  match readMessage t.maxMessageSize now stream with
  | (some msg, rest) => if msg.header.msgType = msgType then some (msg, rest) else none
  | (none, _) => none

/-- `_handle_client` up to the key exchange: the peer, what is written, and what is left of the stream. -/
def handleClient (t : FederationTransport) (readAt buildAt : Micros) (stream : Bytes) :
    Option (PeerConnection × Bytes × Bytes) := do
  let (msg, rest) ← t.expect readAt .hello stream
  let (hello, _) ← HelloPayload.unpack.run msg.payload
  let peer : PeerConnection :=
    { nodeId := hello.nodeId, state := .handshaking, sessionKey := [], sessionId := [],
      encapsulationKey := hello.encapsulationKey, signingKey := hello.signingKey }
  let ack ← t.buildHello rs buildAt
  let ack := { ack with header := { ack.header with msgType := .helloAck } }
  return (peer, (sendMessage [] ack).2, rest)

/-- `_server_key_exchange`: the peer and what is written. -/
def serverKeyExchange (t : FederationTransport) (readAt buildAt : Micros) (peer : PeerConnection) (stream : Bytes) :
    Option (PeerConnection × Bytes) :=
  if t.hasRustCore then do
    let (msg, _) ← t.expect readAt .keyExchange stream
    let (kePayload, _) ← KeyExchangePayload.unpack.run msg.payload
    let derivedKey ← rs.kemDecapsulate t.decapsulationKey kePayload.ciphertext
    let sessionKey ← fromHex derivedKey.toList
    let ack ← t.build rs buildAt .keyExchangeAck (utf8 "OK")
    return ({ peer with sessionId := kePayload.sessionId, sessionKey, state := .established }, (sendMessage [] ack).2)
  else none

/-- `connect_to_peer` behind the HELLO, up to the message of `_client_key_exchange`: the peer, what is written, and what
is left of the stream. -/
def connectToPeer (t : FederationTransport) (readAt buildAt : Micros) (seed : Seed) (sessionId stream : Bytes) :
    Option (PeerConnection × Bytes × Bytes) := do
  let (ack, rest) ← t.expect readAt .helloAck stream
  let (remoteHello, _) ← HelloPayload.unpack.run ack.payload
  if t.hasRustCore then do
    let (derivedKey, ciphertext) ← rs.kemEncapsulate seed remoteHello.encapsulationKey
    let sessionKey ← fromHex derivedKey.toList
    let keMsg ← t.buildKeyExchange rs buildAt ciphertext sessionId
    let peer : PeerConnection :=
      { nodeId := remoteHello.nodeId, state := .keyExchange, sessionKey, sessionId,
        encapsulationKey := remoteHello.encapsulationKey, signingKey := remoteHello.signingKey }
    return (peer, (sendMessage [] keMsg).2, rest)
  else none

/-- The rest of `_client_key_exchange` and of `connect_to_peer`. -/
def finishConnect (t : FederationTransport) (readAt : Micros) (peer : PeerConnection) (stream : Bytes) :
    Option PeerConnection := do
  let _ ← t.expect readAt .keyExchangeAck stream
  return { peer with state := .established }

end FederationTransport

/-- A client and a server connect: the peers that they keep, the client's first. `clock` is read for every message that is
built or read. -/
def handshake (client server : FederationTransport) (clock : Nat → Micros) (seed : Seed) (sessionId : Bytes) :
    Option (PeerConnection × PeerConnection) := do
  let hello ← client.buildHello rs (clock 0)
  let (serverPeer, fromServer, toServer) ← server.handleClient rs (clock 1) (clock 2) (sendMessage [] hello).2
  let (clientPeer, fromClient, toClient) ← client.connectToPeer rs (clock 3) (clock 4) seed sessionId fromServer
  let (serverPeer, fromServer) ← server.serverKeyExchange rs (clock 5) (clock 6) serverPeer (toServer ++ fromClient)
  let clientPeer ← client.finishConnect (clock 7) clientPeer (toClient ++ fromServer)
  return (clientPeer, serverPeer)

end Parties

/-! ## One message -/

section Message

variable {size : Nat} {now : Micros} {m : FederationMessage} {signed : Bool}

/-- A signed message arrives. -/
theorem readMessage_signed (hm : Built true m) (hsize : 32 + m.payload.length + 64 ≤ size) (now : Micros) :
    readMessage size now (sendMessage [] m).2 = (some m, []) := by
  obtain ⟨hsignature, data, hdata⟩ := hm.signature
  have hstream : (sendMessage [] m).2 = data ++ (m.senderId ++ (m.payload ++ (m.signature ++ []))) := by
    unfold sendMessage FederationMessage.pack
    rw [hdata]
    simp
  rw [hstream, readMessage_frame hm hdata hsize now hsignature]

/-- A message without a signature is waited for in vain. -/
theorem readMessage_unsigned (size : Nat) (hm : Built false m) (now : Micros) :
    (readMessage size now (sendMessage [] m).2).1 = none := by
  have hnosig : m.signature = [] := hm.signature
  unfold sendMessage FederationMessage.pack
  cases hdata : m.header.pack with
  | none => rfl
  | some data =>
      have hlength := ProtocolHeader.length_pack hdata
      have hheader := ProtocolHeader.unpack_pack hdata hm.timestamp now
      have hstream : [] ++ (data ++ m.senderId ++ m.payload ++ m.signature) = data ++ (m.senderId ++ m.payload) := by
        rw [hnosig]
        simp
      show (readMessage size now ([] ++ (data ++ m.senderId ++ m.payload ++ m.signature))).1 = none
      rw [hstream]
      have hlong : ¬(data ++ (m.senderId ++ m.payload)).length < ProtocolHeader.headerSize := by
        rw [List.length_append]
        omega
      unfold readMessage
      rw [if_neg hlong]
      simp only [List.take_left' hlength, List.drop_left' hlength, hheader]
      split
      · rfl
      · -- sixty-four bytes are missing
        have hshort : (m.senderId ++ m.payload).length < FederationMessage.senderIdSize + m.header.payloadLen +
            FederationMessage.signatureSize := by
          rw [List.length_append, hm.senderId, hm.payloadLen]
          show 32 + m.payload.length < 32 + m.payload.length + 64
          omega
        rw [if_pos hshort]

/-- A header can be packed whatever the type of its message is. -/
theorem Built.withType (hm : Built signed m) (msgType : MessageType) :
    Built signed { m with header := { m.header with msgType := msgType } } := by
  refine ⟨hm.senderId, hm.payloadLen, hm.timestamp, ?_⟩
  have hsignature := hm.signature
  cases signed with
  | false => exact hsignature
  | true =>
      obtain ⟨hlength, data, hdata⟩ := hsignature
      refine ⟨hlength, ?_⟩
      unfold ProtocolHeader.pack at hdata ⊢
      split at hdata
      · next hfit =>
          rw [if_pos hfit]
          exact ⟨_, rfl⟩
      · cases hdata

end Message

/-! ## A node's messages -/

section Node

variable {Seed : Type} {rs : RustCore Seed} {t : FederationTransport} {now : Micros} {msgType : MessageType}
  {payload : Bytes} {m : FederationMessage}

/-- The node signs what it sends. -/
def FederationTransport.Signs (t : FederationTransport) : Prop := t.signingKey ≠ "" ∧ t.hasRustCore = true

/-- A node as it is set up: keys in hex that fit their fields, a key that the core can sign with if the node signs at all,
and the message size of the default configuration or more. -/
structure FederationTransport.SetUp (rs : RustCore Seed) (t : FederationTransport) : Prop where
  nodeId : t.nodeId.utf8ByteSize ≤ 65535
  encapsulationKey : ∃ bytes : Bytes, bytes.length ≤ 65535 ∧ t.encapsulationKey = hexEncode bytes
  signingPublicKey : ∃ bytes : Bytes, bytes.length ≤ 65535 ∧ t.signingPublicKey = hexEncode bytes
  sign : t.Signs → ∀ digest, ∃ signature, rs.sign t.signingKey digest = some signature
  size : 1024 * 1024 ≤ t.maxMessageSize

instance (t : FederationTransport) : Decidable t.Signs := inferInstanceAs (Decidable (_ ∧ _))

/-- The builder signs exactly if the node does. -/
theorem signs_eq (t : FederationTransport) : t.messageBuilder.signs t.hasRustCore true = decide t.Signs := by
  unfold MessageBuilder.signs FederationTransport.Signs FederationTransport.messageBuilder
  by_cases hkey : t.signingKey = "" <;> by_cases hcore : t.hasRustCore = true <;> simp [hkey, hcore]

/-- A built message: what it carries, and whether it has a signature. -/
theorem build_spec (hsetup : t.SetUp rs) (now : Micros) (msgType : MessageType) (payload : Bytes)
    (hpayload : payload.length < 256 ^ 4) :
    ∃ m, t.build rs now msgType payload = some m ∧ m.header.msgType = msgType ∧ m.payload = payload ∧
      Built (decide t.Signs) m := by
  have hfields : ∀ m, t.build rs now msgType payload = some m → m.header.msgType = msgType ∧ m.payload = payload := by
    intro m hm
    unfold FederationTransport.build MessageBuilder.build at hm
    dsimp only at hm
    split at hm
    · obtain ⟨msgHash, -, hm⟩ := Option.bind_eq_some_iff.mp hm
      obtain ⟨signature, -, hm⟩ := Option.bind_eq_some_iff.mp hm
      obtain rfl := Option.some.inj hm
      exact ⟨by unfold ProtocolHeader.postInit; split <;> rfl, rfl⟩
    · obtain rfl := Option.some.inj hm
      exact ⟨by unfold ProtocolHeader.postInit; split <;> rfl, rfl⟩
  have hsome : ∃ m, t.build rs now msgType payload = some m := by
    unfold FederationTransport.build MessageBuilder.build
    dsimp only
    split
    · next hon =>
      have hsigns : t.Signs := of_decide_eq_true ((signs_eq t).symm.trans hon)
      have hpack : ∃ data, (ProtocolHeader.postInit
          { version := protocolVersion, msgType, flags := 0, payloadLen := payload.length, timestamp := 0 } now).pack
            = some data := by
        have hnow := now.2.2
        unfold ProtocolHeader.postInit ProtocolHeader.pack
        rw [if_pos rfl, if_pos ⟨(by decide : protocolVersion < 256 ^ 2), (by decide : 0 < 256 ^ 1), hpayload,
          (by omega : (now : Nat) < 256 ^ 8)⟩]
        exact ⟨_, rfl⟩
      obtain ⟨data, hdata⟩ := hpack
      obtain ⟨signature, hsignature⟩ := hsetup.sign hsigns
        (rs.sha3 (data ++ (rs.sha3 (utf8 t.messageBuilder.nodeId)).toList ++ payload))
      rw [← Option.isSome_iff_exists]
      unfold FederationMessage.computeHash
      rw [hdata]
      show ((rs.sign t.signingKey _).bind _).isSome = true
      rw [hsignature]
      rfl
    · exact ⟨_, rfl⟩
  obtain ⟨m, hm⟩ := hsome
  exact ⟨m, hm, (hfields m hm).1, (hfields m hm).2, signs_eq t ▸ built_build hm⟩

/-- What the other side unpacks of a HELLO. -/
def FederationTransport.hello (t : FederationTransport) : HelloPayload :=
  ⟨t.nodeId, t.encapsulationKey, t.signingPublicKey, 0xFFFF⟩

/-- What `.hex()` wrote is in normal form. -/
theorem normalHex_hexEncode (bytes : Bytes) : normalHex (hexEncode bytes) = hexEncode bytes :=
  normalHex_of (fromHex_hexEncode bytes)

/-- A HELLO, or the answer to one: what it is read as introduces the node that sent it. -/
structure Introduces (t : FederationTransport) (m : FederationMessage) : Prop where
  built : Built (decide t.Signs) m
  unpacks : ∃ rest, HelloPayload.unpack.run m.payload = some (t.hello, rest)
  size : 32 + m.payload.length + 64 ≤ 1024 * 1024

/-- **The HELLO of a node**: it can be packed, and introduces the node. -/
theorem buildHello_spec (hsetup : t.SetUp rs) (now : Micros) :
    ∃ m, t.buildHello rs now = some m ∧ m.header.msgType = .hello ∧ Introduces t m := by
  obtain ⟨ek, hekLen, hek⟩ := hsetup.encapsulationKey
  obtain ⟨pk, hpkLen, hpk⟩ := hsetup.signingPublicKey
  have hid := hsetup.nodeId
  have hidLen := length_utf8 t.nodeId
  have hpack : HelloPayload.pack t.hello = some (lengthField 2 (utf8 t.nodeId) ++ (lengthField 2 ek ++
      (lengthField 2 pk ++ beBytes 2 0xFFFF))) := by
    have hidField : Region.packBytes 2 (utf8 t.nodeId) = some (lengthField 2 (utf8 t.nodeId)) :=
      Region.packBytes_utf8 hid
    have hekField : Region.packBytes 2 ek = some (lengthField 2 ek) :=
      Region.packBytes_eq_some_iff.mpr ⟨by omega, rfl⟩
    have hpkField : Region.packBytes 2 pk = some (lengthField 2 pk) :=
      Region.packBytes_eq_some_iff.mpr ⟨by omega, rfl⟩
    unfold HelloPayload.pack FederationTransport.hello
    simp only [hek, hpk, fromHex_hexEncode, Option.bind_eq_bind, Option.bind_some, hidField, hekField, hpkField]
    rfl
  have hreads := HelloPayload.reads hpack
  have hnormal : { t.hello with
      encapsulationKey := normalHex t.hello.encapsulationKey
      signingKey := normalHex t.hello.signingKey } = t.hello := by
    show HelloPayload.mk t.nodeId (normalHex t.encapsulationKey) (normalHex t.signingPublicKey) _ = _
    rw [hek, hpk, normalHex_hexEncode, normalHex_hexEncode, ← hek, ← hpk]
    rfl
  rw [hnormal] at hreads
  obtain ⟨m, hm, htype, hpayload, hbuilt⟩ := build_spec hsetup now .hello
    (lengthField 2 (utf8 t.nodeId) ++ (lengthField 2 ek ++ (lengthField 2 pk ++ beBytes 2 0xFFFF)))
    (by simp only [List.length_append, length_lengthField, length_beBytes]; omega)
  refine ⟨m, ?_, htype, hbuilt, ⟨[], ?_⟩, ?_⟩
  · show (HelloPayload.pack t.hello).bind _ = _
    rw [hpack]
    exact hm
  · rw [hpayload]
    exact hreads.run_eq
  · rw [hpayload]
    simp only [List.length_append, length_lengthField, length_beBytes]
    omega

/-- A signed message of the expected type. -/
theorem expect_signed (hm : Built true m) (hsize : 32 + m.payload.length + 64 ≤ 1024 * 1024)
    (ht : 1024 * 1024 ≤ t.maxMessageSize) (htype : m.header.msgType = msgType) (now : Micros) :
    t.expect now msgType (sendMessage [] m).2 = some (m, []) := by
  unfold FederationTransport.expect
  rw [readMessage_signed hm (hsize.trans ht) now]
  exact if_pos htype

/-- A message without a signature: nothing is read. -/
theorem expect_unsigned (hm : Built false m) (now : Micros) (msgType : MessageType) :
    t.expect now msgType (sendMessage [] m).2 = none := by
  have hnone := readMessage_unsigned t.maxMessageSize hm now
  unfold FederationTransport.expect
  split
  · next msg rest hread =>
      rw [hread] at hnone
      cases hnone
  · rfl

/-- The server has read the HELLO of a node that signs: it answers with its own. -/
theorem handleClient_signed {client : FederationTransport} {hello : FederationMessage} (hsetup : t.SetUp rs)
    (hsigns : client.Signs) (hhello : Introduces client hello) (htype : hello.header.msgType = .hello)
    (readAt buildAt : Micros) :
    ∃ ack, t.handleClient rs readAt buildAt (sendMessage [] hello).2 =
        some (⟨client.nodeId, .handshaking, [], [], client.encapsulationKey, client.signingPublicKey⟩,
          (sendMessage [] ack).2, []) ∧
      Introduces t ack ∧ ack.header.msgType = .helloAck := by
  have hbuilt := hhello.built
  rw [decide_eq_true hsigns] at hbuilt
  obtain ⟨rest, hunpack⟩ := hhello.unpacks
  obtain ⟨ack, hack, -, hintroduces⟩ := buildHello_spec hsetup buildAt
  refine ⟨{ ack with header := { ack.header with msgType := .helloAck } }, ?_, ?_, rfl⟩
  · unfold FederationTransport.handleClient
    rw [expect_signed hbuilt hhello.size hsetup.size htype readAt]
    simp only [Option.bind_eq_bind, Option.bind_some, hunpack, hack]
    rfl
  · exact ⟨hintroduces.built.withType .helloAck, hintroduces.unpacks, hintroduces.size⟩

/-- The session that the two ends agree on. -/
structure Session (rs : RustCore Seed) (server : FederationTransport) (seed : Seed) (key ct sessionId : Bytes) : Prop where
  encapsulate : rs.kemEncapsulate seed server.encapsulationKey = some (hexEncode key, hexEncode ct)
  decapsulate : rs.kemDecapsulate server.decapsulationKey (hexEncode ct) = some (hexEncode key)
  length : ct.length ≤ 65535
  sessionId : sessionId.length = 16

variable {server : FederationTransport} {seed : Seed} {key ct sessionId : Bytes}

/-- **The KEY_EXCHANGE of a node**: it can be packed, and carries the ciphertext. -/
theorem buildKeyExchange_spec (hsetup : t.SetUp rs) (hsession : Session rs server seed key ct sessionId) (now : Micros) :
    ∃ m, t.buildKeyExchange rs now (hexEncode ct) sessionId = some m ∧ m.header.msgType = .keyExchange ∧
      Built (decide t.Signs) m ∧ 32 + m.payload.length + 64 ≤ 1024 * 1024 ∧
      KeyExchangePayload.unpack.run m.payload = some (⟨hexEncode ct, sessionId⟩, []) := by
  have hlen := hsession.length
  have hid := hsession.sessionId
  have hpack : KeyExchangePayload.pack ⟨hexEncode ct, sessionId⟩ = some (packFixed 16 sessionId ++ lengthField 2 ct) := by
    have hctField : Region.packBytes 2 ct = some (lengthField 2 ct) :=
      Region.packBytes_eq_some_iff.mpr ⟨by omega, rfl⟩
    unfold KeyExchangePayload.pack
    simp only [fromHex_hexEncode, Option.bind_eq_bind, Option.bind_some, hctField]
    rfl
  have hreads := (KeyExchangePayload.reads hpack).run_eq
  rw [show KeyExchangePayload.mk (normalHex (hexEncode ct)) (packFixed 16 sessionId) = ⟨hexEncode ct, sessionId⟩ by
    rw [normalHex_hexEncode, packFixed_eq_iff.mpr hid]] at hreads
  obtain ⟨m, hm, htype, hpayload, hbuilt⟩ := build_spec hsetup now .keyExchange
    (packFixed 16 sessionId ++ lengthField 2 ct)
    (by simp only [List.length_append, length_lengthField, length_packFixed]; omega)
  refine ⟨m, ?_, htype, hbuilt, ?_, ?_⟩
  · unfold FederationTransport.buildKeyExchange
    rw [hpack]
    exact hm
  · rw [hpayload]
    simp only [List.length_append, length_lengthField, length_packFixed]
    omega
  · rw [hpayload]
    exact hreads

/-- The client has read the answer of a node that signs: it has the session key and sends it encapsulated. -/
theorem connectToPeer_signed {ack : FederationMessage} (hsetup : t.SetUp rs) (hcore : t.hasRustCore = true)
    (hsigns : server.Signs) (hack : Introduces server ack) (htype : ack.header.msgType = .helloAck)
    (hsession : Session rs server seed key ct sessionId) (readAt buildAt : Micros) :
    ∃ keMsg, t.connectToPeer rs readAt buildAt seed sessionId (sendMessage [] ack).2 =
        some (⟨server.nodeId, .keyExchange, key, sessionId, server.encapsulationKey, server.signingPublicKey⟩,
          (sendMessage [] keMsg).2, []) ∧
      keMsg.header.msgType = .keyExchange ∧ Built (decide t.Signs) keMsg ∧
      32 + keMsg.payload.length + 64 ≤ 1024 * 1024 ∧
      KeyExchangePayload.unpack.run keMsg.payload = some (⟨hexEncode ct, sessionId⟩, []) := by
  have hbuilt := hack.built
  rw [decide_eq_true hsigns] at hbuilt
  obtain ⟨rest, hunpack⟩ := hack.unpacks
  obtain ⟨keMsg, hke, hkeType, hkeBuilt, hkeSize, hkeUnpack⟩ := buildKeyExchange_spec hsetup hsession buildAt
  refine ⟨keMsg, ?_, hkeType, hkeBuilt, hkeSize, hkeUnpack⟩
  have hencapsulate : rs.kemEncapsulate seed server.hello.encapsulationKey = some (hexEncode key, hexEncode ct) :=
    hsession.encapsulate
  unfold FederationTransport.connectToPeer
  rw [expect_signed hbuilt hack.size hsetup.size htype readAt]
  simp only [Option.bind_eq_bind, Option.bind_some, hunpack, if_pos hcore, hencapsulate, fromHex_hexEncode, hke]
  rfl

/-- The server has read the encapsulated key: it has the session key too. -/
theorem serverKeyExchange_signed {keMsg : FederationMessage} (hsetup : t.SetUp rs) (hsigns : t.Signs)
    (hbuilt : Built true keMsg) (htype : keMsg.header.msgType = .keyExchange)
    (hsize : 32 + keMsg.payload.length + 64 ≤ 1024 * 1024)
    (hunpack : KeyExchangePayload.unpack.run keMsg.payload = some (⟨hexEncode ct, sessionId⟩, []))
    (hsession : Session rs t seed key ct sessionId) (peer : PeerConnection) (readAt buildAt : Micros) :
    ∃ ack, t.serverKeyExchange rs readAt buildAt peer (sendMessage [] keMsg).2 =
        some ({ peer with sessionId := sessionId, sessionKey := key, state := .established },
          (sendMessage [] ack).2) ∧
      ack.header.msgType = .keyExchangeAck ∧ Built true ack ∧ 32 + ack.payload.length + 64 ≤ 1024 * 1024 := by
  obtain ⟨ack, hack, hackType, hpayload, hackBuilt⟩ := build_spec hsetup buildAt .keyExchangeAck (utf8 "OK") (by decide)
  rw [decide_eq_true hsigns] at hackBuilt
  refine ⟨ack, ?_, hackType, hackBuilt, by rw [hpayload]; decide⟩
  unfold FederationTransport.serverKeyExchange
  rw [if_pos hsigns.2, expect_signed hbuilt hsize hsetup.size htype readAt]
  simp only [Option.bind_eq_bind, Option.bind_some, hunpack, hsession.decapsulate, fromHex_hexEncode, hack]
  rfl

/-- **Two nodes connect exactly if both sign**, and then both have established the connection, with the same session key
and id, each with the name and the public keys of the other. -/
theorem handshake_eq {client : FederationTransport} (hclient : client.SetUp rs) (hserver : server.SetUp rs)
    (hsession : Session rs server seed key ct sessionId) (clock : Nat → Micros) :
    handshake rs client server clock seed sessionId =
      if client.Signs ∧ server.Signs then
        some (⟨server.nodeId, .established, key, sessionId, server.encapsulationKey, server.signingPublicKey⟩,
          ⟨client.nodeId, .established, key, sessionId, client.encapsulationKey, client.signingPublicKey⟩)
      else none := by
  obtain ⟨hello, hhello, htype, hintroduces⟩ := buildHello_spec hclient (clock 0)
  unfold handshake
  rw [hhello]
  by_cases hc : client.Signs
  · obtain ⟨ack, hhandle, hack, hackType⟩ := handleClient_signed hserver hc hintroduces htype (clock 1) (clock 2)
    simp only [Option.bind_eq_bind, Option.bind_some, hhandle]
    by_cases hs : server.Signs
    · obtain ⟨keMsg, hconnect, hkeType, hkeBuilt, hkeSize, hkeUnpack⟩ :=
        connectToPeer_signed hclient hc.2 hs hack hackType hsession (clock 3) (clock 4)
      rw [decide_eq_true hc] at hkeBuilt
      obtain ⟨last, hexchange, hlastType, hlastBuilt, hlastSize⟩ := serverKeyExchange_signed hserver hs hkeBuilt hkeType
        hkeSize hkeUnpack hsession
        ⟨client.nodeId, .handshaking, [], [], client.encapsulationKey, client.signingPublicKey⟩ (clock 5) (clock 6)
      simp only [hconnect, Option.bind_some, List.nil_append, hexchange, if_pos (And.intro hc hs)]
      unfold FederationTransport.finishConnect
      rw [expect_signed hlastBuilt hlastSize hclient.size hlastType (clock 7)]
      rfl
    · -- the answer has no signature, and the client waits for it in vain
      have hbuilt := hack.built
      rw [decide_eq_false hs] at hbuilt
      rw [if_neg fun h => hs h.2]
      unfold FederationTransport.connectToPeer
      rw [expect_unsigned hbuilt (clock 3) .helloAck]
      rfl
  · have hbuilt := hintroduces.built
    rw [decide_eq_false hc] at hbuilt
    rw [if_neg fun h => hc h.1]
    simp only [Option.bind_eq_bind, Option.bind_some]
    unfold FederationTransport.handleClient
    rw [expect_unsigned hbuilt (clock 1) .hello]
    rfl

end Node

/-- The digests of what is hashed below, by their lengths: the two names and the four messages. -/
def greetingSha3 (bs : Bytes) : Digest :=
  if bs.length = 4 then
    #v[240, 39, 125, 146, 6, 43, 217, 164, 29, 210, 108, 221, 186, 242, 196, 29, 87, 108, 247, 176, 23, 60, 190,
      150, 194, 61, 95, 90, 79, 146, 204, 143]
  else if bs.length = 3205 then
    #v[65, 39, 147, 150, 70, 176, 232, 206, 187, 4, 23, 34, 216, 80, 63, 20, 186, 103, 104, 14, 156, 166, 147, 163,
      145, 131, 46, 72, 191, 179, 220, 38]
  else if bs.length = 3204 then
    #v[177, 213, 80, 126, 188, 71, 217, 92, 145, 142, 76, 186, 151, 112, 143, 217, 180, 191, 0, 180, 123, 132, 97,
      223, 110, 118, 218, 242, 77, 91, 161, 228]
  else if bs.length = 1162 then
    #v[57, 117, 220, 165, 79, 27, 66, 17, 188, 117, 163, 106, 90, 158, 195, 39, 238, 113, 116, 216, 66, 189, 191,
      163, 134, 225, 143, 77, 122, 123, 31, 116]
  else if bs.length = 58 then
    #v[104, 236, 49, 91, 197, 138, 25, 91, 150, 110, 58, 96, 239, 207, 153, 166, 67, 246, 233, 112, 119, 96, 105,
      108, 161, 121, 104, 84, 16, 149, 51, 0]
  else
    #v[39, 24, 120, 248, 169, 39, 180, 86, 106, 201, 81, 252, 129, 91, 24, 223, 173, 141, 3, 2, 214, 29, 17, 216,
      12, 190, 21, 183, 163, 160, 86, 175]

/-- The core that the two nodes below have. -/
def greetingCore : RustCore Unit where
  sha3 := greetingSha3
  sign _ _ := some (List.replicate 3309 7)
  kemEncapsulate _ _ := some (hexEncode (List.replicate 32 8), hexEncode (List.replicate 1088 5))
  kemDecapsulate _ _ := some (hexEncode (List.replicate 32 8))

/-- A node of this name whose keys are of these bytes. -/
def greeter (nodeId : String) (ek pk : UInt8) : FederationTransport where
  nodeId := nodeId
  signingKey := "key of " ++ nodeId
  encapsulationKey := hexEncode (List.replicate 1184 ek)
  decapsulationKey := "decapsulation key of " ++ nodeId
  signingPublicKey := hexEncode (List.replicate 1952 pk)
  hasRustCore := true
  maxMessageSize := 1024 * 1024

/-- Such a node is set up as it has to be. -/
theorem setUp_greeter {nodeId : String} (hid : nodeId.utf8ByteSize ≤ 65535) (ek pk : UInt8) :
    (greeter nodeId ek pk).SetUp greetingCore where
  nodeId := hid
  encapsulationKey := ⟨List.replicate 1184 ek, by rw [List.length_replicate]; omega, rfl⟩
  signingPublicKey := ⟨List.replicate 1952 pk, by rw [List.length_replicate]; omega, rfl⟩
  sign _ _ := ⟨_, rfl⟩
  size := Nat.le_refl _

/-- Two nodes that sign. -/
theorem handshake_eq_greeters :
    handshake greetingCore (greeter "alpha" 1 2) (greeter "beta" 3 4)
        (fun i => ⟨1767225600000000 + i % 8, by omega⟩) () (List.replicate 16 6) =
      some (⟨"beta", .established, List.replicate 32 8, List.replicate 16 6, hexEncode (List.replicate 1184 3),
          hexEncode (List.replicate 1952 4)⟩,
        ⟨"alpha", .established, List.replicate 32 8, List.replicate 16 6, hexEncode (List.replicate 1184 1),
          hexEncode (List.replicate 1952 2)⟩) := by
  have hsession : Session greetingCore (greeter "beta" 3 4) () (List.replicate 32 8) (List.replicate 1088 5)
      (List.replicate 16 6) := ⟨rfl, rfl, by rw [List.length_replicate]; omega, List.length_replicate⟩
  have hequal := handshake_eq (setUp_greeter (by decide) 1 2 : (greeter "alpha" 1 2).SetUp greetingCore)
    (setUp_greeter (by decide) 3 4) hsession (fun i => ⟨1767225600000000 + i % 8, by omega⟩)
  have hsigns : (greeter "alpha" 1 2).Signs ∧ (greeter "beta" 3 4).Signs := ⟨⟨by decide, rfl⟩, by decide, rfl⟩
  rw [if_pos hsigns] at hequal
  exact hequal

end WarmLogic.Federation
