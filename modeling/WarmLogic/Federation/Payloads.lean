/-
# WarmLogic.Federation.Payloads — The payloads of `protocol.py`, and which of them come back as they were packed.

Keys, ciphertexts, hashes and signatures are texts of hex digits that travel as bytes. `bytes.fromhex` reads digits of
either case and skips blanks, `.hex()` writes small digits, and `struct` pads or cuts a field of fixed size. So what is
unpacked is the payload in normal form (`Payload.reads`), and a payload comes back exactly if it had that form
(`payload_round_trip_iff`).

For every payload there are three statements: what `unpack` makes of what `pack` wrote, with any bytes behind it (the
`reads` lemmas, composed of one for each field), that this is the payload in normal form, and so that it is the
payload itself exactly if it was in normal form. Where `pack` raises, nothing is stated; the errors of `struct` are
`none`.
-/
import WarmLogic.Federation.BatchCodec
import WarmLogic.Federation.Protocol

namespace WarmLogic.Federation

open WarmLogic.Ledger (Bytes utf8)
open WarmLogic.Lib
open WarmLogic.Crypto (fromHex fromHex_hexEncode)
open WarmLogic.Federation.Region (packInt packBytes packBytes_eq_some_iff pack32 unpackText reads_unpackText)

/-! ## Fields -/

/-- A field of a fixed number of bytes: padded with zeros, or cut. -/
def packFixed (n : Nat) (bytes : Bytes) : Bytes := (bytes ++ List.replicate n 0).take n

/-- The field has its size, whatever was packed. -/
theorem length_packFixed (n : Nat) (bytes : Bytes) : (packFixed n bytes).length = n := by
  rw [packFixed, List.length_take, List.length_append, List.length_replicate]
  omega

/-- Nothing is cut or added exactly if the bytes had the size. -/
theorem packFixed_eq_iff {n : Nat} {bytes : Bytes} : packFixed n bytes = bytes ↔ bytes.length = n := by
  constructor
  · exact fun h => h ▸ length_packFixed n bytes
  · exact fun h => List.take_left' h

/-- A `?` field, of which every byte but zero is true. -/
def unpackBool : Reader UInt8 Bool := fun data =>
  match data with
  | [] => none
  | b :: rest => some (decide (b ≠ 0), rest)

/-- A `?` field comes back. -/
theorem reads_unpackBool (b : Bool) : Reads unpackBool [if b then 1 else 0] b := by
  intro rest
  cases b <;> rfl

/-- Some bytes behind their number, written in hex. -/
def unpackHex (k : Nat) : Reader UInt8 String := do
  let bytes ← unpackInt k >>= slice
  return hexEncode bytes

/-- Bytes behind their number come back as their hex text. -/
theorem reads_unpackHex {k : Nat} {field : Bytes} (h : field.length < 256 ^ k) :
    Reads (unpackHex k) (lengthField k field) (hexEncode field) :=
  (reads_lengthField h).bind_pure hexEncode

/-- The hex text that a hex text is read and written again as. -/
def normalHex (text : String) : String := ((fromHex text.toList).map hexEncode).getD text

/-- The normal form is written with small digits and without blanks. -/
theorem normalHex_of {text : String} {bytes : Bytes} (h : fromHex text.toList = some bytes) :
    normalHex text = hexEncode bytes := by
  unfold normalHex
  rw [h]
  rfl

/-- **A hex text is in normal form** if it is what `.hex()` writes for some bytes. -/
theorem normalHex_eq_iff {text : String} {bytes : Bytes} (h : fromHex text.toList = some bytes) :
    normalHex text = text ↔ ∃ bs : Bytes, text = hexEncode bs := by
  constructor
  · exact fun heq => ⟨bytes, heq.symm.trans (normalHex_of h)⟩
  · rintro ⟨bs, rfl⟩
    rw [normalHex_of h]
    rw [fromHex_hexEncode] at h
    rw [Option.some.inj h]

/-! ## The payloads -/

/-- `HelloPayload`. -/
structure HelloPayload where
  nodeId : String
  encapsulationKey : String
  signingKey : String
  capabilities : Nat
  deriving DecidableEq

namespace HelloPayload

/-- `pack`. The keys are hex text and travel as bytes behind their lengths. -/
def pack (p : HelloPayload) : Option Bytes := do
  let ekBytes ← fromHex p.encapsulationKey.toList
  let skBytes ← fromHex p.signingKey.toList
  let idField ← packBytes 2 (utf8 p.nodeId)
  let ekField ← packBytes 2 ekBytes
  let skField ← packBytes 2 skBytes
  let capabilities ← packInt 2 p.capabilities
  return idField ++ (ekField ++ (skField ++ capabilities))

/-- `unpack`, whatever follows. -/
def unpack : Reader UInt8 HelloPayload := do
  let nodeId ← unpackText 2
  let encapsulationKey ← unpackHex 2
  let signingKey ← unpackHex 2
  let capabilities ← unpackInt 2
  return { nodeId, encapsulationKey, signingKey, capabilities }

end HelloPayload

/-- `KeyExchangePayload`. -/
structure KeyExchangePayload where
  ciphertext : String
  sessionId : Bytes
  deriving DecidableEq

namespace KeyExchangePayload

def pack (p : KeyExchangePayload) : Option Bytes := do
  let ctBytes ← fromHex p.ciphertext.toList
  let ctField ← packBytes 2 ctBytes
  return packFixed 16 p.sessionId ++ ctField

def unpack : Reader UInt8 KeyExchangePayload := do
  let sessionId ← slice 16
  let ciphertext ← unpackHex 2
  return { ciphertext, sessionId }

end KeyExchangePayload

/-- `ProposalPayload`. -/
structure ProposalPayload where
  decisionId : String
  decisionHash : String
  epoch : Nat
  proposalData : Bytes
  deriving DecidableEq

namespace ProposalPayload

def pack (p : ProposalPayload) : Option Bytes := do
  let hashBytes ← fromHex p.decisionHash.toList
  let idField ← packBytes 2 (utf8 p.decisionId)
  let epoch ← packInt 8 p.epoch
  let dataField ← packBytes 4 p.proposalData
  return idField ++ (packFixed 32 hashBytes ++ (epoch ++ dataField))

def unpack : Reader UInt8 ProposalPayload := do
  let decisionId ← unpackText 2
  let hash ← slice 32
  let epoch ← unpackInt 8
  let proposalData ← unpackInt 4 >>= slice
  return { decisionId, decisionHash := hexEncode hash, epoch, proposalData }

end ProposalPayload

/-- `VotePayload`. -/
structure VotePayload where
  decisionId : String
  approve : Bool
  signature : String
  deriving DecidableEq

namespace VotePayload

def pack (p : VotePayload) : Option Bytes := do
  let sigBytes ← fromHex p.signature.toList
  let idField ← packBytes 2 (utf8 p.decisionId)
  let sigField ← packBytes 2 sigBytes
  return idField ++ ([if p.approve then 1 else 0] ++ sigField)

def unpack : Reader UInt8 VotePayload := do
  let decisionId ← unpackText 2
  let approve ← unpackBool
  let signature ← unpackHex 2
  return { decisionId, approve, signature }

end VotePayload

namespace ErrorCode

/-- The members, in the order of their declaration. -/
def members : List ErrorCode :=
  [none, invalidMagic, invalidVersion, invalidSignature, invalidNodeId, attestationFailed, timeout, consensusFailed,
    keyExchangeFailed, channelExpired, unknown]

/-- `ErrorCode(value)`, which raises a `ValueError` for every other value. -/
def ofValue (v : UInt8) : Option ErrorCode := members.find? fun c => c.value == v

/-- A member is found by its value. -/
theorem ofValue_value (c : ErrorCode) : ofValue c.value = some c := by
  cases c <;> decide

/-- `ErrorCode(data[0])`, which raises an `IndexError` if there is no byte. -/
def unpack : Reader UInt8 ErrorCode := fun data =>
  match data with
  | [] => Option.none
  | b :: rest => (ofValue b).map fun code => (code, rest)

/-- The byte of an error code comes back as the code. -/
theorem reads_unpack (c : ErrorCode) : Reads unpack [c.value] c := by
  intro rest
  show (ofValue c.value).map _ = _
  rw [ofValue_value]
  rfl

end ErrorCode

/-- `ErrorPayload`. -/
structure ErrorPayload where
  code : ErrorCode
  message : String
  deriving DecidableEq

namespace ErrorPayload

def pack (p : ErrorPayload) : Option Bytes := errorPayload p.code p.message

def unpack : Reader UInt8 ErrorPayload := do
  let code ← ErrorCode.unpack
  let message ← unpackText 2
  return { code, message }

end ErrorPayload

/-! ## What comes back -/

/-- An integer is packed if it fits its field. -/
theorem packInt_eq_some_iff {k n : Nat} {bytes : Bytes} :
    packInt k n = some bytes ↔ n < 256 ^ k ∧ bytes = beBytes k n := by
  unfold packInt
  split_ifs with h
  · rw [Option.some.injEq, eq_comm]
    exact (and_iff_right h).symm
  · exact iff_of_false id fun hboth => h hboth.1

/-- What a HELLO is read as. -/
theorem HelloPayload.reads {p : HelloPayload} {bytes : Bytes} (h : p.pack = some bytes) :
    Reads unpack bytes
      { p with encapsulationKey := normalHex p.encapsulationKey, signingKey := normalHex p.signingKey } := by
  unfold pack at h
  simp only [Option.bind_eq_bind, Option.bind_eq_some_iff, packBytes_eq_some_iff, packInt_eq_some_iff, Option.pure_def,
    Option.some.injEq] at h
  obtain ⟨ek, hek, sk, hsk, _, ⟨hid, rfl⟩, _, ⟨hekLen, rfl⟩, _, ⟨hskLen, rfl⟩, _, ⟨hcap, rfl⟩, rfl⟩ := h
  rw [normalHex_of hek, normalHex_of hsk]
  exact (reads_unpackText hid).bind <| (reads_unpackHex hekLen).bind <| (reads_unpackHex hskLen).bind <|
    (reads_unpackInt hcap).bind_pure _

/-- What a KEY_EXCHANGE is read as. -/
theorem KeyExchangePayload.reads {p : KeyExchangePayload} {bytes : Bytes} (h : p.pack = some bytes) :
    Reads unpack bytes { p with ciphertext := normalHex p.ciphertext, sessionId := packFixed 16 p.sessionId } := by
  unfold pack at h
  simp only [Option.bind_eq_bind, Option.bind_eq_some_iff, packBytes_eq_some_iff, Option.pure_def,
    Option.some.injEq] at h
  obtain ⟨ct, hct, _, ⟨hctLen, rfl⟩, rfl⟩ := h
  rw [normalHex_of hct]
  exact (reads_slice (length_packFixed 16 p.sessionId)).bind <| (reads_unpackHex hctLen).bind_pure _

/-- The hash is read as the text of 32 bytes, whatever it was. -/
def normalHash (text : String) : String := ((fromHex text.toList).map fun bytes => hexEncode (packFixed 32 bytes)).getD text

/-- What a proposal is read as; its hash is cut or padded to 32 bytes. -/
theorem ProposalPayload.reads {p : ProposalPayload} {bytes : Bytes} (h : p.pack = some bytes) :
    Reads unpack bytes { p with decisionHash := normalHash p.decisionHash } := by
  unfold pack at h
  simp only [Option.bind_eq_bind, Option.bind_eq_some_iff, packBytes_eq_some_iff, packInt_eq_some_iff, Option.pure_def,
    Option.some.injEq] at h
  obtain ⟨hash, hhash, _, ⟨hid, rfl⟩, _, ⟨hepoch, rfl⟩, _, ⟨hdata, rfl⟩, rfl⟩ := h
  have hnormal : normalHash p.decisionHash = hexEncode (packFixed 32 hash) := by
    unfold normalHash
    rw [hhash]
    rfl
  rw [hnormal]
  exact (reads_unpackText hid).bind <| (reads_slice (length_packFixed 32 hash)).bind <| (reads_unpackInt hepoch).bind <|
    (reads_lengthField hdata).bind_pure _

/-- What a vote is read as. -/
theorem VotePayload.reads {p : VotePayload} {bytes : Bytes} (h : p.pack = some bytes) :
    Reads unpack bytes { p with signature := normalHex p.signature } := by
  unfold pack at h
  simp only [Option.bind_eq_bind, Option.bind_eq_some_iff, packBytes_eq_some_iff, Option.pure_def,
    Option.some.injEq] at h
  obtain ⟨sig, hsig, _, ⟨hid, rfl⟩, _, ⟨hsigLen, rfl⟩, rfl⟩ := h
  rw [normalHex_of hsig]
  exact (reads_unpackText hid).bind <| (reads_unpackBool p.approve).bind <| (reads_unpackHex hsigLen).bind_pure _

/-- An error has no hex text in it, and comes back as it was. -/
theorem ErrorPayload.reads {p : ErrorPayload} {bytes : Bytes} (h : p.pack = some bytes) : Reads unpack bytes p := by
  unfold pack errorPayload at h
  dsimp only at h
  split at h
  · next hmessage =>
      obtain rfl := Option.some.inj h
      exact (ErrorCode.reads_unpack p.code).bind <| (reads_unpackText hmessage).bind_pure _
  · cases h

/-! ## Every payload -/

/-- A payload of one of the five kinds. -/
inductive Payload where
  | hello (p : HelloPayload)
  | keyExchange (p : KeyExchangePayload)
  | proposal (p : ProposalPayload)
  | vote (p : VotePayload)
  | error (p : ErrorPayload)

namespace Payload

def pack : Payload → Option Bytes
  | .hello p => p.pack
  | .keyExchange p => p.pack
  | .proposal p => p.pack
  | .vote p => p.pack
  | .error p => p.pack

/-- `unpack` of the class that the payload is of. -/
def unpackLike (bytes : Bytes) : Payload → Option Payload
  | .hello _ => (HelloPayload.unpack.run bytes).map fun r => .hello r.1
  | .keyExchange _ => (KeyExchangePayload.unpack.run bytes).map fun r => .keyExchange r.1
  | .proposal _ => (ProposalPayload.unpack.run bytes).map fun r => .proposal r.1
  | .vote _ => (VotePayload.unpack.run bytes).map fun r => .vote r.1
  | .error _ => (ErrorPayload.unpack.run bytes).map fun r => .error r.1

/-- The text is what `.hex()` writes. -/
def IsHex (text : String) : Prop := ∃ bytes : Bytes, text = hexEncode bytes

/-- What a payload has to be like to come back. -/
def Normal : Payload → Prop
  | .hello p => IsHex p.encapsulationKey ∧ IsHex p.signingKey
  | .keyExchange p => IsHex p.ciphertext ∧ p.sessionId.length = 16
  | .proposal p => ∃ bytes : Bytes, bytes.length = 32 ∧ p.decisionHash = hexEncode bytes
  | .vote p => IsHex p.signature
  | .error _ => True

/-- A hash comes back if it is the hex text of 32 bytes. -/
theorem normalHash_eq_iff {text : String} {bytes : Bytes} (h : fromHex text.toList = some bytes) :
    normalHash text = text ↔ ∃ bs : Bytes, bs.length = 32 ∧ text = hexEncode bs := by
  have hnormal : normalHash text = hexEncode (packFixed 32 bytes) := by
    unfold normalHash
    rw [h]
    rfl
  constructor
  · exact fun heq => ⟨packFixed 32 bytes, length_packFixed 32 bytes, heq.symm.trans hnormal⟩
  · rintro ⟨bs, hlen, rfl⟩
    rw [hnormal]
    rw [fromHex_hexEncode] at h
    rw [← Option.some.inj h, packFixed_eq_iff.mpr hlen]

/-- **Which payloads come back.** Of what was packed, exactly the payloads in normal form are unpacked as they were,
also if more bytes follow. Each field comes back in normal form, whatever form it had. -/
theorem payload_round_trip_iff {p : Payload} {bytes : Bytes} (h : p.pack = some bytes) (rest : Bytes) :
    p.unpackLike (bytes ++ rest) = some p ↔ p.Normal := by
  cases p with
  | hello p =>
      have hread := HelloPayload.reads h rest
      obtain ⟨ek, hek, hpack⟩ := Option.bind_eq_some_iff.mp h
      obtain ⟨sk, hsk, -⟩ := Option.bind_eq_some_iff.mp hpack
      show (HelloPayload.unpack.run (bytes ++ rest)).map _ = _ ↔ IsHex p.encapsulationKey ∧ IsHex p.signingKey
      rw [hread, Option.map_some, Option.some.injEq, Payload.hello.injEq]
      unfold IsHex
      rw [← normalHex_eq_iff hek, ← normalHex_eq_iff hsk]
      constructor
      · exact fun heq => ⟨congrArg HelloPayload.encapsulationKey heq, congrArg HelloPayload.signingKey heq⟩
      · rintro ⟨hek', hsk'⟩
        rw [hek', hsk']
  | keyExchange p =>
      have hread := KeyExchangePayload.reads h rest
      obtain ⟨ct, hct, -⟩ := Option.bind_eq_some_iff.mp h
      show (KeyExchangePayload.unpack.run (bytes ++ rest)).map _ = _ ↔ IsHex p.ciphertext ∧ p.sessionId.length = 16
      rw [hread, Option.map_some, Option.some.injEq, Payload.keyExchange.injEq]
      unfold IsHex
      rw [← normalHex_eq_iff hct, ← packFixed_eq_iff]
      constructor
      · exact fun heq => ⟨congrArg KeyExchangePayload.ciphertext heq, congrArg KeyExchangePayload.sessionId heq⟩
      · rintro ⟨hct', hid⟩
        rw [hct', hid]
  | proposal p =>
      have hread := ProposalPayload.reads h rest
      obtain ⟨hash, hhash, -⟩ := Option.bind_eq_some_iff.mp h
      show (ProposalPayload.unpack.run (bytes ++ rest)).map _ = _ ↔ ∃ bs : Bytes, bs.length = 32 ∧ _
      rw [hread, Option.map_some, Option.some.injEq, Payload.proposal.injEq, ← normalHash_eq_iff hhash]
      constructor
      · exact fun heq => congrArg ProposalPayload.decisionHash heq
      · intro hhash'
        rw [hhash']
  | vote p =>
      have hread := VotePayload.reads h rest
      obtain ⟨sig, hsig, -⟩ := Option.bind_eq_some_iff.mp h
      show (VotePayload.unpack.run (bytes ++ rest)).map _ = _ ↔ IsHex p.signature
      rw [hread, Option.map_some, Option.some.injEq, Payload.vote.injEq]
      unfold IsHex
      rw [← normalHex_eq_iff hsig]
      constructor
      · exact fun heq => congrArg VotePayload.signature heq
      · intro hsig'
        rw [hsig']
  | error p =>
      have hread := ErrorPayload.reads h rest
      show (ErrorPayload.unpack.run (bytes ++ rest)).map _ = _ ↔ True
      rw [hread]
      exact iff_true_intro rfl

/-- A vote whose signature has a capital digit, with a byte behind it. -/
theorem payload_round_trip_iff_vote :
    (Payload.vote ⟨"d", true, "aB"⟩).unpackLike ([0, 1, 100, 1, 0, 1, 171] ++ [9]) = some (.vote ⟨"d", true, "aB"⟩) ↔
      (Payload.vote ⟨"d", true, "aB"⟩).Normal :=
  payload_round_trip_iff (by rfl) [9]

end Payload

end WarmLogic.Federation
