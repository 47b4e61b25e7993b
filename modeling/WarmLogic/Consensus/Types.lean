/-
# WarmLogic.Consensus.Types — the data of `consensus/types.rs`, and the borsh encoding of a log entry.

`RaftRPC.payload` is a JSON text in the source; here it is the object that text denotes, one constructor per
`rpc_type`, holding what the handlers read out of it. `AppendEntries.entries` is `none` when one of the
transmitted entries does not deserialize, and `malformed` stands for a text that is no JSON at all or for an
unknown `rpc_type`. The messages `create_rpc` makes are never of these two kinds.

How an entry is serialized lies outside: `EntryCodec` is what the write-ahead log needs of it, that an encoding reads
back, that nothing else is accepted, that no encoding goes on behind another one, and that none is empty. All that is
proved about logs and snapshots holds for any such codec. `Borsh.entryCodec` is the one of the derived implementations, in
borsh's documented format: integers little-endian, strings and byte vectors with a `u32` length in front, fields in
declaration order, and a decoder that must consume its whole input.
-/
import WarmLogic.Lib.Bytes

namespace WarmLogic.Consensus

open WarmLogic.Lib

/-- `LogEntry`. -/
structure LogEntry where
  term : UInt64
  data : String
  signature : String
  voterId : String
  cumulativeHash : String
  poseidonHash : String
  zkProof : List UInt8
  index : UInt64
  deriving DecidableEq

/-- The object inside `RaftRPC.payload`, by `rpc_type`. -/
inductive RpcPayload where
  | requestVote (lastLogIndex : Int) (lastLogTerm : UInt64)
  | voteResponse (voteGranted : Bool)
  | appendEntries (prevLogIndex : Int) (prevLogTerm : UInt64) (prevLogHash prevPoseidonHash : String)
      (entries : Option (List LogEntry)) (leaderCommit : Int)
  | appendResponse (success : Bool) (lastLogIndex : Int)
  | malformed
  deriving DecidableEq

/-- `rpc_type`. -/
def RpcPayload.rpcType : RpcPayload → String
  | .requestVote .. => "REQUEST_VOTE"
  | .voteResponse .. => "VOTE_RESPONSE"
  | .appendEntries .. => "APPEND_ENTRIES"
  | .appendResponse .. => "APPEND_RESPONSE"
  | .malformed => ""

/-- `RaftRPC`, with the object that its payload denotes. -/
structure RaftRPC where
  term : UInt64
  senderId : String
  /-- `some id` for unicast, `none` for broadcast. -/
  targetId : Option String
  payload : RpcPayload
  signature : String
  poseidonHash : String
  deriving DecidableEq

/-- `RaftSnapshot`. -/
structure RaftSnapshot where
  data : String
  lastIncludedIndex : Nat
  lastIncludedTerm : UInt64
  cumulativeHash : String
  poseidonHash : String
  deriving DecidableEq

/-- `RaftState`. -/
inductive RaftState where
  | follower
  | candidate
  | leader
  deriving DecidableEq

/-- `RaftMetadata`: what a node has to remember of its votes. -/
structure RaftMetadata where
  currentTerm : UInt64
  votedFor : Option String
  peers : List String
  deriving DecidableEq

/-- `"0".repeat(64)`, the hash before the first entry. -/
def zeroHash : String := String.ofList (List.replicate 64 '0')

/-! ## What lies outside the consensus sources -/

/-- How a log entry is written and read, with what the storage relies on. -/
structure EntryCodec where
  /-- `borsh::to_vec`; `none` where it fails. -/
  encode : LogEntry → Option (List UInt8)
  /-- `try_from_slice`. -/
  decode : List UInt8 → Option LogEntry
  /-- An encoding reads back, and nothing else is accepted. -/
  decode_eq_some : ∀ {bs e}, decode bs = some e ↔ encode e = some bs
  /-- No encoding is the front part of a longer one. -/
  eq_nil_of_append : ∀ {x y bs rest}, encode x = some bs → encode y = some (bs ++ rest) → rest = []
  /-- The term alone takes eight bytes. -/
  eight_le : ∀ {e bs}, encode e = some bs → 8 ≤ bs.length

/-- The functions the engine calls and this development does not open: hashes, signatures, the codec of an entry, the JSON
text of a payload, and the attached state machine, seen as the reply it gives after a history of `apply` calls. -/
structure Env where
  /-- Hex SHA-256 of a text. -/
  sha256 : String → String
  /-- CRC-32 of a byte string. -/
  crc32 : List UInt8 → UInt32
  /-- The build has the `zk` feature. -/
  zk : Bool
  /-- The chained Poseidon hash of term, index, data and previous hash (`zk` builds only). -/
  poseidon : UInt64 → Nat → String → String → String
  /-- The Poseidon hash a `zk` build stamps on a stored snapshot (data, last included index). -/
  snapshotPoseidon : String → Nat → String
  codec : EntryCodec
  signRaw : String → String → Option String
  verifyRaw : String → String → String → Bool
  payloadText : RpcPayload → String
  machineReply : List (Nat × String) → String

/-! ## Borsh -/

namespace Borsh

/-- A decoder consumes a front part of its input. -/
abbrev Decoder (α : Type) := List UInt8 → Option (α × List UInt8)

/-- `d` undoes `e`, and accepts nothing but encodings. -/
structure Codec {α : Type} (e : α → Option (List UInt8)) (d : Decoder α) : Prop where
  decode_encode : ∀ {x bs}, e x = some bs → ∀ rest, d (bs ++ rest) = some (x, rest)
  encode_decode : ∀ {x bs rest}, d bs = some (x, rest) → ∃ bs', e x = some bs' ∧ bs = bs' ++ rest

/-- So many bytes of the input, and what is behind them. -/
def takeBytes (n : Nat) : Decoder (List UInt8) := fun bs =>
  if n ≤ bs.length then some (bs.take n, bs.drop n) else none

/-- They are those in front. -/
theorem takeBytes_append {n : Nat} {as : List UInt8} (h : as.length = n) (rest : List UInt8) :
    takeBytes n (as ++ rest) = some (as, rest) := by
  subst h
  simp [takeBytes]

/-- Where there are as many. -/
theorem takeBytes_eq_some {n : Nat} {bs as rest : List UInt8} (h : takeBytes n bs = some (as, rest)) :
    as.length = n ∧ bs = as ++ rest := by
  unfold takeBytes at h
  split at h
  · cases h
    exact ⟨List.length_take_of_le (by assumption), (List.take_append_drop n bs).symm⟩
  · cases h

/-- Eight bytes, the low one first. -/
def encodeU64 (x : UInt64) : Option (List UInt8) := some (leBytes 8 x.toNat)

/-- A number and the bytes behind it. -/
def decodeU64 : Decoder UInt64 := fun bs =>
  (takeBytes 8 bs).map fun p => (UInt64.ofNat (ofLeBytes p.1), p.2)

/-- Numbers are read back, and every eight bytes are one. -/
theorem codec_u64 : Codec encodeU64 decodeU64 where
  decode_encode := by
    rintro x bs ⟨⟩ rest
    have hx : x.toNat < 256 ^ 8 := x.toNat_lt
    rw [decodeU64, takeBytes_append (length_leBytes _ _), Option.map_some,
      ofLeBytes_leBytes_of_lt hx, UInt64.ofNat_toNat]
  encode_decode := by
    intro x bs rest h
    obtain ⟨⟨as, rest'⟩, ht, hp⟩ := Option.map_eq_some_iff.mp h
    obtain ⟨hlen, rfl⟩ := takeBytes_eq_some ht
    obtain ⟨rfl, rfl⟩ := Prod.mk.inj hp
    refine ⟨as, ?_, rfl⟩
    have hlt : ofLeBytes as < 2 ^ 64 := by
      have := ofLeBytes_lt as
      rw [hlen] at this
      exact this
    rw [encodeU64, UInt64.toNat_ofNat_of_lt' hlt, ← hlen, leBytes_ofLeBytes]

/-- `Vec<u8>`; an error at 2^32 bytes and more. -/
def encodeVec (x : List UInt8) : Option (List UInt8) :=
  if x.length < 2 ^ 32 then some (leBytes 4 x.length ++ x) else none

/-- A length, and as many bytes. -/
def decodeVec : Decoder (List UInt8) := fun bs =>
  (takeBytes 4 bs).bind fun p => takeBytes (ofLeBytes p.1) p.2

/-- Byte vectors are read back. -/
theorem codec_vec : Codec encodeVec decodeVec where
  decode_encode := by
    intro x bs h rest
    unfold encodeVec at h
    split at h
    · rename_i hlt
      cases h
      rw [decodeVec, List.append_assoc, takeBytes_append (length_leBytes _ _), Option.bind_some,
        ofLeBytes_leBytes_of_lt (by simpa using hlt)]
      exact takeBytes_append rfl rest
    · cases h
  encode_decode := by
    intro x bs rest h
    obtain ⟨⟨hdr, tail⟩, h1, h2⟩ := Option.bind_eq_some_iff.mp h
    obtain ⟨hlen, rfl⟩ := takeBytes_eq_some h1
    obtain ⟨hx, htail⟩ := takeBytes_eq_some h2
    dsimp only at hx htail
    have hlt := ofLeBytes_lt hdr
    rw [hlen] at hlt
    refine ⟨hdr ++ x, ?_, by rw [htail, List.append_assoc]⟩
    rw [encodeVec, if_pos (by rw [hx]; simpa using hlt), hx, ← hlen, leBytes_ofLeBytes]

/-- `String`: its UTF-8 bytes as a `Vec<u8>`. -/
def encodeString (s : String) : Option (List UInt8) := encodeVec s.toByteArray.data.toList

/-- A byte vector that is valid UTF-8. -/
def decodeString : Decoder String := fun bs =>
  (decodeVec bs).bind fun p => (String.fromUTF8? ⟨p.1.toArray⟩).map fun s => (s, p.2)

/-- Valid UTF-8 is the bytes of a text. -/
theorem fromUTF8?_eq_some {b : ByteArray} {s : String} :
    String.fromUTF8? b = some s ↔ s.toByteArray = b := by
  unfold String.fromUTF8?
  constructor
  · intro h
    split at h
    · cases h; rfl
    · cases h
  · rintro rfl
    rw [dif_pos s.isValidUTF8]
    rfl

/-- Texts are read back. -/
theorem codec_string : Codec encodeString decodeString where
  decode_encode := by
    intro s bs h rest
    have hs : String.fromUTF8? ⟨s.toByteArray.data.toList.toArray⟩ = some s :=
      fromUTF8?_eq_some.mpr rfl
    rw [decodeString, codec_vec.decode_encode h rest, Option.bind_some, hs]
    rfl
  encode_decode := by
    intro s bs rest h
    obtain ⟨⟨x, rest'⟩, h1, h2⟩ := Option.bind_eq_some_iff.mp h
    obtain ⟨s', hs, hp⟩ := Option.map_eq_some_iff.mp h2
    obtain ⟨rfl, rfl⟩ := Prod.mk.inj hp
    obtain ⟨bs', he, rfl⟩ := codec_vec.encode_decode h1
    refine ⟨bs', ?_, rfl⟩
    rw [encodeString, fromUTF8?_eq_some.mp hs]
    exact he

/-- `borsh::to_vec` of a log entry. -/
def encodeEntry (e : LogEntry) : Option (List UInt8) := do
  let term ← encodeU64 e.term
  let data ← encodeString e.data
  let signature ← encodeString e.signature
  let voterId ← encodeString e.voterId
  let cumulativeHash ← encodeString e.cumulativeHash
  let poseidonHash ← encodeString e.poseidonHash
  let zkProof ← encodeVec e.zkProof
  let index ← encodeU64 e.index
  some (term ++ (data ++ (signature ++ (voterId ++ (cumulativeHash ++ (poseidonHash
    ++ (zkProof ++ index)))))))

/-- The fields in the order they were written. -/
def decodeEntry : Decoder LogEntry := fun bs => do
  let (term, bs) ← decodeU64 bs
  let (data, bs) ← decodeString bs
  let (signature, bs) ← decodeString bs
  let (voterId, bs) ← decodeString bs
  let (cumulativeHash, bs) ← decodeString bs
  let (poseidonHash, bs) ← decodeString bs
  let (zkProof, bs) ← decodeVec bs
  let (index, bs) ← decodeU64 bs
  some ({ term, data, signature, voterId, cumulativeHash, poseidonHash, zkProof, index }, bs)

/-- **Log entries are read back**, and nothing else is accepted. -/
theorem codec_entry : Codec encodeEntry decodeEntry where
  decode_encode := by
    intro e bs h rest
    simp only [encodeEntry, Option.bind_eq_bind, Option.bind_eq_some_iff, Option.some.injEq] at h
    obtain ⟨b1, h1, b2, h2, b3, h3, b4, h4, b5, h5, b6, h6, b7, h7, b8, h8, rfl⟩ := h
    simp only [decodeEntry, List.append_assoc, codec_u64.decode_encode h1, Option.bind_eq_bind,
      Option.bind_some, codec_string.decode_encode h2, codec_string.decode_encode h3,
      codec_string.decode_encode h4, codec_string.decode_encode h5, codec_string.decode_encode h6,
      codec_vec.decode_encode h7, codec_u64.decode_encode h8]
  encode_decode := by
    intro e bs rest h
    simp only [decodeEntry, Option.bind_eq_bind, Option.bind_eq_some_iff, Option.some.injEq,
      Prod.mk.injEq] at h
    obtain ⟨⟨x1, r1⟩, h1, ⟨x2, r2⟩, h2, ⟨x3, r3⟩, h3, ⟨x4, r4⟩, h4, ⟨x5, r5⟩, h5, ⟨x6, r6⟩, h6,
      ⟨x7, r7⟩, h7, ⟨x8, r8⟩, h8, rfl, rfl⟩ := h
    obtain ⟨b1, e1, rfl⟩ := codec_u64.encode_decode h1
    obtain ⟨b2, e2, rfl⟩ := codec_string.encode_decode h2
    obtain ⟨b3, e3, rfl⟩ := codec_string.encode_decode h3
    obtain ⟨b4, e4, rfl⟩ := codec_string.encode_decode h4
    obtain ⟨b5, e5, rfl⟩ := codec_string.encode_decode h5
    obtain ⟨b6, e6, rfl⟩ := codec_string.encode_decode h6
    obtain ⟨b7, e7, rfl⟩ := codec_vec.encode_decode h7
    obtain ⟨b8, e8, rfl⟩ := codec_u64.encode_decode h8
    refine ⟨b1 ++ (b2 ++ (b3 ++ (b4 ++ (b5 ++ (b6 ++ (b7 ++ b8)))))), ?_, ?_⟩
    · simp only [encodeEntry, e1, e2, e3, e4, e5, e6, e7, e8, Option.bind_eq_bind, Option.bind_some]
    · simp only [List.append_assoc]

/-- `try_from_slice`: decode, and leave nothing over. -/
def tryFromSlice (bs : List UInt8) : Option LogEntry :=
  match decodeEntry bs with
  | some (e, []) => some e
  | _ => none

/-- What `try_from_slice` accepts is an encoding. -/
theorem tryFromSlice_eq_some {bs : List UInt8} {e : LogEntry} :
    tryFromSlice bs = some e ↔ encodeEntry e = some bs := by
  unfold tryFromSlice
  constructor
  · intro h
    split at h
    · rename_i e' hd
      cases h
      obtain ⟨bs', he, rfl⟩ := codec_entry.encode_decode hd
      rw [he, List.append_nil]
    · cases h
  · intro h
    have hd := codec_entry.decode_encode h []
    rw [List.append_nil] at hd
    rw [hd]

/-- An encoded entry is never empty: the term alone takes eight bytes. -/
theorem encodeEntry_length_pos {e : LogEntry} {bs : List UInt8} (h : encodeEntry e = some bs) :
    8 ≤ bs.length := by
  simp only [encodeEntry, Option.bind_eq_bind, Option.bind_eq_some_iff, Option.some.injEq] at h
  obtain ⟨b1, h1, b2, -, b3, -, b4, -, b5, -, b6, -, b7, -, b8, -, rfl⟩ := h
  cases h1
  rw [List.length_append, length_leBytes]
  omega

/-- The derived codec of an entry. -/
def entryCodec : EntryCodec where
  encode := encodeEntry
  decode := tryFromSlice
  decode_eq_some := tryFromSlice_eq_some
  eq_nil_of_append := by
    intro x y bs rest hx hy
    have hdx := codec_entry.decode_encode hx rest
    have hdy := codec_entry.decode_encode hy []
    rw [List.append_nil, hdx] at hdy
    exact (Prod.mk.inj (Option.some.inj hdy)).2
  eight_le := encodeEntry_length_pos

end Borsh

end WarmLogic.Consensus
