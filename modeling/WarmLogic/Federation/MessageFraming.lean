/-
# WarmLogic.Federation.MessageFraming — Messages on a stream, as `network_transport.py` sends and reads them.

`_send_message` writes the bytes of a message; `_read_message` reads a header, computes from it how many bytes follow, and
reads these. It always counts 64 bytes of signature, and a message that was not signed has none. So what it returns always
has a signature of 64 bytes (`readMessage_signature`): an unsigned message is never returned, and where one was sent, the
first 64 bytes behind it are taken for its signature (`readMessage_frame`). A sequence is read as it was sent exactly when
all of it was signed (`framing_iff`).

The stream is the bytes that were written to it, after which it ends.
-/
import WarmLogic.Federation.Protocol

namespace WarmLogic.Federation

open WarmLogic.Ledger (Bytes utf8)
open WarmLogic.Lib

/-! ## Sending and reading -/

/-- `_send_message`: whether it succeeded, and the stream after it. -/
def sendMessage (stream : Bytes) (m : FederationMessage) : Bool × Bytes :=
  match m.pack with
  | some data => (true, stream ++ data)
  | none => (false, stream)

/-- One message after another, on a fresh stream. -/
def sendMessages (msgs : List FederationMessage) : Bytes := msgs.foldl (fun stream m => (sendMessage stream m).2) []

/-- `_read_message`: what it returns, and the stream after it. Where the stream ends too early, what was left of it is
gone. -/
def readMessage (maxMessageSize : Nat) (now : Micros) (stream : Bytes) : Option FederationMessage × Bytes :=
  if stream.length < ProtocolHeader.headerSize then (none, [])
  else
    let headerData := stream.take ProtocolHeader.headerSize
    let stream := stream.drop ProtocolHeader.headerSize
    match ProtocolHeader.unpack headerData now with
    | none => (none, stream)
    | some header =>
        let remaining := FederationMessage.senderIdSize + header.payloadLen + FederationMessage.signatureSize
        if maxMessageSize < remaining then (none, stream)
        else if stream.length < remaining then (none, [])
        else (FederationMessage.unpack (headerData ++ stream.take remaining) now, stream.drop remaining)

/-- Repeated calls of `_read_message`, one for each reading of the clock. -/
def readMessages (maxMessageSize : Nat) : List Micros → Bytes → List (Option FederationMessage)
  | [], _ => []
  | now :: clock, stream =>
      (readMessage maxMessageSize now stream).1 :: readMessages maxMessageSize clock (readMessage maxMessageSize now stream).2

/-! ## One frame -/

variable {size : Nat} {now : Micros} {header : ProtocolHeader} {data rest : Bytes}

theorem FederationMessage.unpack_append (hlength : data.length = ProtocolHeader.headerSize)
    (hheader : ProtocolHeader.unpack data now = some header) (rest : Bytes) :
    FederationMessage.unpack (data ++ rest) now = some
      { header
        senderId := rest.take 32
        payload := (rest.drop 32).take header.payloadLen
        signature := ((rest.drop 32).drop header.payloadLen).take 64 } := by
  unfold FederationMessage.unpack
  rw [ProtocolHeader.unpack_append hlength, hheader]
  simp only [List.drop_left' hlength]
  rfl

/-- What `_read_message` returns from a stream that is long enough, behind a header that unpacks. -/
theorem readMessage_eq (hlength : data.length = ProtocolHeader.headerSize)
    (hheader : ProtocolHeader.unpack data now = some header) (hsize : 32 + header.payloadLen + 64 ≤ size)
    (hrest : 32 + header.payloadLen + 64 ≤ rest.length) :
    readMessage size now (data ++ rest) =
      (some
        { header
          senderId := rest.take 32
          payload := (rest.drop 32).take header.payloadLen
          signature := ((rest.drop 32).drop header.payloadLen).take 64 },
        rest.drop (32 + header.payloadLen + 64)) := by
  have hlong : ¬ (data ++ rest).length < ProtocolHeader.headerSize := by
    rw [List.length_append]
    omega
  have hremaining : FederationMessage.senderIdSize + header.payloadLen + FederationMessage.signatureSize =
      32 + header.payloadLen + 64 := rfl
  unfold readMessage
  rw [if_neg hlong]
  simp only [List.take_left' hlength, List.drop_left' hlength, hheader, hremaining, if_neg (Nat.not_lt.2 hsize),
    if_neg (Nat.not_lt.2 hrest), FederationMessage.unpack_append hlength hheader]
  -- the slices lie within what was read
  have hslice : ∀ i k, i + k ≤ 32 + header.payloadLen + 64 →
      ((rest.take (32 + header.payloadLen + 64)).drop i).take k = (rest.drop i).take k := by
    intro i k hik
    rw [List.drop_take, List.take_take, Nat.min_eq_left (by omega)]
  rw [List.drop_drop, List.drop_drop, hslice 32 _ (by omega), hslice (32 + header.payloadLen) 64 (by omega)]
  have hsender := hslice 0 32 (by omega)
  rw [List.drop_zero, List.drop_zero] at hsender
  rw [hsender]

/-- **A frame.** Behind a header that was packed, the sender, the payload and 64 more bytes are read as a message; these
are its signature, whether or not they were sent as one. -/
theorem readMessage_frame {m : FederationMessage} {signed : Bool} (hm : Built signed m)
    (hdata : m.header.pack = some data) (hsize : 32 + m.payload.length + 64 ≤ size) (now : Micros) {signature : Bytes}
    (hsignature : signature.length = 64) (rest : Bytes) :
    readMessage size now (data ++ (m.senderId ++ (m.payload ++ (signature ++ rest)))) =
      (some { m with signature }, rest) := by
  have hheader := ProtocolHeader.unpack_pack hdata hm.timestamp now
  have hlength := ProtocolHeader.length_pack hdata
  rw [readMessage_eq hlength hheader (by rw [hm.payloadLen]; exact hsize)
    (by simp only [List.length_append, hm.senderId, hm.payloadLen, hsignature]; omega)]
  have hsender := hm.senderId
  simp only [← List.drop_drop, List.take_left' hsender, List.drop_left' hsender, hm.payloadLen, List.take_left',
    List.drop_left', hsignature]

/-- **What is read has a signature of 64 bytes**, whatever was on the stream. -/
theorem readMessage_signature {stream : Bytes} {m : FederationMessage} (h : (readMessage size now stream).1 = some m) :
    m.signature.length = 64 := by
  unfold readMessage at h
  split at h
  · cases h
  · next hlong =>
    have hlength : (stream.take ProtocolHeader.headerSize).length = ProtocolHeader.headerSize := by
      rw [List.length_take]
      omega
    simp only at h
    split at h
    · cases h
    · next header hheader =>
      split at h
      · cases h
      · split at h
        · cases h
        · next hrest =>
          rw [FederationMessage.unpack_append hlength hheader] at h
          cases h
          simp only [FederationMessage.senderIdSize, FederationMessage.signatureSize, List.length_drop, List.length_take]
            at hrest ⊢
          omega

/-! ## Sequences -/

theorem sendMessages_cons {m : FederationMessage} (hm : m.pack = some data) (msgs : List FederationMessage) :
    sendMessages (m :: msgs) = data ++ sendMessages msgs := by
  have onto : ∀ (msgs : List FederationMessage) (stream : Bytes),
      msgs.foldl (fun stream m => (sendMessage stream m).2) stream = stream ++ sendMessages msgs := by
    intro msgs
    unfold sendMessages
    induction msgs with
    | nil => simp
    | cons m msgs ih =>
      intro stream
      rw [List.foldl_cons, List.foldl_cons, ih, ih (sendMessage [] m).2, ← List.append_assoc]
      unfold sendMessage
      cases m.pack <;> simp
  have hfirst : (sendMessage [] m).2 = data := by
    unfold sendMessage
    rw [hm]
    rfl
  rw [sendMessages, List.foldl_cons, onto, hfirst]

/-- Signed messages are read as they were sent. -/
theorem readMessages_signed {msgs : List FederationMessage} (hbuilt : ∀ m ∈ msgs, Built true m)
    (hsize : ∀ m ∈ msgs, 32 + m.payload.length + 64 ≤ size) {clock : List Micros} (hclock : clock.length = msgs.length) :
    readMessages size clock (sendMessages msgs) = msgs.map some := by
  induction msgs generalizing clock with
  | nil =>
    obtain rfl := List.eq_nil_of_length_eq_zero hclock
    rfl
  | cons m msgs ih =>
    obtain ⟨now, clock, rfl⟩ := List.exists_cons_of_length_eq_add_one hclock
    have hm := hbuilt m List.mem_cons_self
    obtain ⟨hsignature, data, hdata⟩ := hm.signature
    have hpack : m.pack = some (data ++ (m.senderId ++ (m.payload ++ m.signature))) := by
      unfold FederationMessage.pack
      rw [hdata]
      simp
    have hread := readMessage_frame hm hdata (hsize m List.mem_cons_self) now hsignature (sendMessages msgs)
    have hstream : sendMessages (m :: msgs) =
        data ++ (m.senderId ++ (m.payload ++ (m.signature ++ sendMessages msgs))) := by
      rw [sendMessages_cons hpack]
      simp only [List.append_assoc]
    rw [hstream, readMessages, hread, List.map_cons]
    congr 1
    exact ih (fun m hm => hbuilt m (List.mem_cons_of_mem _ hm)) (fun m hm => hsize m (List.mem_cons_of_mem _ hm))
      (Nat.succ.inj hclock)

/-- Whatever the stream, what repeated reads return has signatures of 64 bytes. -/
theorem readMessages_signature {clock : List Micros} {stream : Bytes} {m : FederationMessage}
    (h : some m ∈ readMessages size clock stream) : m.signature.length = 64 := by
  induction clock generalizing stream with
  | nil => cases h
  | cons now clock ih =>
    rw [readMessages, List.mem_cons] at h
    rcases h with h | h
    · exact readMessage_signature h.symm
    · exact ih h

/-! ## When a sequence is read as it was sent -/

/-- A call of `build`, with the builder and the time. -/
structure BuildCall where
  builder : MessageBuilder
  now : Micros
  msgType : MessageType
  payload : Bytes
  sign : Bool

section

variable (sha3 : Bytes → Digest) (rsSign : String → Digest → Option Bytes) (hasRustCore : Bool)

def BuildCall.build (c : BuildCall) : Option FederationMessage :=
  c.builder.build sha3 rsSign hasRustCore c.now c.msgType c.payload c.sign

/-- Signing was asked for, with a key, on a node that has the Rust core. -/
def BuildCall.Signed (c : BuildCall) : Prop := c.sign = true ∧ c.builder.signingKey ≠ "" ∧ hasRustCore = true

end

variable {sha3 : Bytes → Digest} {rsSign : String → Digest → Option Bytes} {hasRustCore : Bool}

theorem signs_iff (c : BuildCall) : c.builder.signs hasRustCore c.sign = true ↔ c.Signed hasRustCore := by
  simp [MessageBuilder.signs, BuildCall.Signed, and_assoc]

/-- A message that was built without a signature is never returned, whatever is on the stream. -/
theorem unsigned_never_read {b : MessageBuilder} {now : Micros} {msgType : MessageType} {payload : Bytes} {sign : Bool}
    {m : FederationMessage} (hbuild : b.build sha3 rsSign hasRustCore now msgType payload sign = some m)
    (hsigns : ¬ b.signs hasRustCore sign = true) (clock : List Micros) (stream : Bytes) :
    some m ∉ readMessages size clock stream := by
  intro hread
  have hsignature := readMessages_signature hread
  have hnone := (built_build hbuild).signature
  rw [if_neg hsigns] at hnone
  rw [hnone] at hsignature
  cases hsignature

/-- Pings, pongs and errors are built without a signature, so no peer reads one. -/
theorem heartbeat_never_read {b : MessageBuilder} {now : Micros} {m : FederationMessage}
    (h : b.buildPing sha3 rsSign hasRustCore now = some m ∨
      (∃ t, b.buildPong sha3 rsSign hasRustCore now t = some m) ∨
      ∃ code message, b.buildError sha3 rsSign hasRustCore now code message = some m)
    (clock : List Micros) (stream : Bytes) : some m ∉ readMessages size clock stream := by
  have hsigns : ¬ b.signs hasRustCore false = true := by simp [MessageBuilder.signs]
  rcases h with h | ⟨t, h⟩ | ⟨code, message, h⟩
  · exact unsigned_never_read h hsigns clock stream
  · unfold MessageBuilder.buildPong at h
    split at h
    · exact unsigned_never_read h hsigns clock stream
    · cases h
  · obtain ⟨payload, -, h⟩ := Option.bind_eq_some_iff.1 h
    exact unsigned_never_read h hsigns clock stream

/-- **A sequence of messages is read as it was sent exactly when every one of them was signed.** The reader counts a
signature for every message, so behind the first unsigned one it is out of step. -/
theorem framing_iff {calls : List BuildCall} {msgs : List FederationMessage}
    (hbuilt : calls.map (BuildCall.build sha3 rsSign hasRustCore) = msgs.map some)
    (hsize : ∀ m ∈ msgs, 32 + m.payload.length + 64 ≤ size) {clock : List Micros} (hclock : clock.length = msgs.length) :
    readMessages size clock (sendMessages msgs) = msgs.map some ↔ ∀ c ∈ calls, c.Signed hasRustCore := by
  constructor
  · intro hread c hc
    have hmem : c.build sha3 rsSign hasRustCore ∈ msgs.map some := by
      rw [← hbuilt]
      exact List.mem_map_of_mem hc
    obtain ⟨m, hm, hbuild⟩ := List.mem_map.1 hmem
    rw [← signs_iff]
    by_contra hsigns
    have hmem : some m ∈ readMessages size clock (sendMessages msgs) := by
      rw [hread]
      exact List.mem_map_of_mem hm
    exact unsigned_never_read hbuild.symm hsigns clock _ hmem
  · intro hsigned
    refine readMessages_signed (fun m hm => ?_) hsize hclock
    have hmem : some m ∈ calls.map (BuildCall.build sha3 rsSign hasRustCore) := by
      rw [hbuilt]
      exact List.mem_map_of_mem hm
    obtain ⟨c, hc, hbuild⟩ := List.mem_map.1 hmem
    have := built_build hbuild
    rwa [(signs_iff c).2 (hsigned c hc)] at this

/-- The digests of what is hashed below, by their lengths: the node id, and the messages with and without a payload. -/
def sampleSha3 (bs : Bytes) : Digest :=
  if bs.length = 4 then
    #v[131, 3, 109, 214, 121, 255, 25, 78, 219, 63, 106, 164, 244, 46, 245, 61, 65, 76, 192, 55, 156, 54, 4, 128, 36, 79,
      7, 114, 150, 28, 59, 15]
  else if bs.length = 59 then
    #v[230, 108, 21, 98, 221, 47, 244, 117, 197, 129, 28, 87, 40, 1, 194, 67, 41, 59, 26, 77, 74, 149, 94, 152, 123, 82,
      174, 218, 228, 253, 231, 155]
  else
    #v[189, 66, 217, 103, 166, 175, 233, 60, 112, 142, 82, 133, 141, 78, 54, 212, 145, 161, 213, 169, 140, 168, 137, 227,
      216, 203, 109, 0, 125, 112, 215, 172]

/-- Two signed messages, one with a payload and one without. -/
theorem framing_iff_two_signed :
    ∃ msgs : List FederationMessage,
      [(⟨⟨"node", "key"⟩, ⟨1767225600000000, by decide⟩, .vote, [1, 2, 3], true⟩ : BuildCall),
        ⟨⟨"node", "key"⟩, ⟨1767225600000001, by decide⟩, .stateDelta, [], true⟩].map
          (BuildCall.build sampleSha3 (fun _ _ => some (List.replicate 3309 7)) true) = msgs.map some ∧
      readMessages (1024 * 1024) [⟨1767225600000002, by decide⟩, ⟨1767225600000003, by decide⟩] (sendMessages msgs) =
        msgs.map some := by
  have hbuilt : [(⟨⟨"node", "key"⟩, ⟨1767225600000000, by decide⟩, .vote, [1, 2, 3], true⟩ : BuildCall),
      ⟨⟨"node", "key"⟩, ⟨1767225600000001, by decide⟩, .stateDelta, [], true⟩].map
        (BuildCall.build sampleSha3 (fun _ _ => some (List.replicate 3309 7)) true) =
      ([_, _] : List FederationMessage).map some := rfl
  refine ⟨_, hbuilt, (framing_iff hbuilt ?_ rfl).2 ?_⟩
  · simp only [List.forall_mem_cons]
    exact ⟨by decide, by decide, by simp⟩
  · simp only [List.forall_mem_cons]
    exact ⟨⟨rfl, by decide, rfl⟩, ⟨rfl, by decide, rfl⟩, by simp⟩

/-- A ping is not signed, and is not read. -/
theorem ping_not_read :
    ¬ ∀ (sha3 : Bytes → Digest) (rsSign : String → Digest → Option Bytes) (hasRustCore : Bool) (size : Nat)
        (calls : List BuildCall) (msgs : List FederationMessage) (clock : List Micros),
        calls.map (BuildCall.build sha3 rsSign hasRustCore) = msgs.map some →
        (∀ m ∈ msgs, 32 + m.payload.length + 64 ≤ size) → clock.length = msgs.length →
        readMessages size clock (sendMessages msgs) = msgs.map some := by
  intro hall
  have hread := hall sampleSha3 (fun _ _ => none) true (1024 * 1024)
    [⟨⟨"node", "key"⟩, ⟨1767225600000000, by decide⟩, .ping, [], false⟩] [_] [⟨1767225600000001, by decide⟩] rfl
    (by simp only [List.forall_mem_cons]; exact ⟨by decide, by simp⟩) rfl
  have hsignature := readMessages_signature (by rw [hread]; exact List.mem_singleton_self _)
  exact absurd hsignature (by decide)

end WarmLogic.Federation
