/-
# WarmLogic.Federation.BatchCodec — `pack` and `unpack` of clocks, decisions and batches, and which batches survive them.

`pack` fails where `struct` or `bytes.fromhex` or the printing of an int does. A hash is written in 32 bytes whatever it
has: `struct` pads it with zeros or cuts it. So a hash comes back if it is the text of 32 bytes, and as another text if not;
the root of an empty tree, which is the empty text, comes back as that of 32 zero bytes. `sync_batch_round_trip_iff` says of
every batch that a node creates, in any state it can be in, whether `unpack` returns it.

The clock of a decision that was read is whatever JSON value was there. The dict of a clock yields its items in an order
that is left open (`DictOrder`).

For each of the four kinds (clock, decision, the decisions of a batch, batch) there is one statement of what `pack`
returns and when, and one of what `unpack` reads of it: field by field what was written, but for hashes, which come
back as the text of their 32 bytes (`ReadBack`). So a batch round trips exactly if its root is a digest and every
decision survives (`roundTrips_iff`); and what a node can create is known from the invariant of the node.
-/
import WarmLogic.Federation.RegionNode
import WarmLogic.Federation.ClockEncoding
import WarmLogic.Lib.FieldCodec
import WarmLogic.Lib.JsonRoundTrip

namespace WarmLogic.Federation.Region

open WarmLogic.Lib
open WarmLogic.Federation (hexEncode length_utf8)
open WarmLogic.Ledger (utf8)
open WarmLogic.Crypto (fromHex fromHex_hexEncode)

/-! ## JSON with a limit on ints -/

mutual

/-- The ints in a value. -/
def ints : Json → List Int
  | .int n => [n]
  | .arr items => intsOfItems items
  | .obj pairs => intsOfPairs pairs
  | _ => []

/-- The ints in the values of a list. -/
def intsOfItems : List Json → List Int
  | [] => []
  | item :: items => ints item ++ intsOfItems items

/-- And in those of a dict. -/
def intsOfPairs : List (List Char × Json) → List Int
  | [] => []
  | (_, value) :: pairs => ints value ++ intsOfPairs pairs

end

/-- An int has more digits than `sys.get_int_max_str_digits()`, where there is such a limit. -/
def tooLong (maxStrDigits : Option Nat) (n : Int) : Bool :=
  maxStrDigits.any fun limit => decide (limit < (Json.decimal n.natAbs).length)

/-- `json.dumps`, which raises on an int that is too long. -/
def jsonDumps (maxStrDigits : Option Nat) (value : Json) : Option (List Char) :=
  if (ints value).any (tooLong maxStrDigits) then none else some (Json.dumpsLine value)

/-- `json.loads`, which does as well. -/
def jsonLoads (maxStrDigits : Option Nat) (text : List Char) : Option Json :=
  (Json.loads text).filter fun value => !(ints value).any (tooLong maxStrDigits)

/-- What was dumped is loaded as it was. -/
theorem jsonLoads_jsonDumps {maxStrDigits : Option Nat} {value : Json} {text : List Char} (hwf : Json.Wf value)
    (h : jsonDumps maxStrDigits value = some text) : jsonLoads maxStrDigits text = some value := by
  unfold jsonDumps at h
  split_ifs at h with hlong
  rw [← Option.some.inj h, jsonLoads, Json.loads_dumpsLine hwf]
  simp only [Option.filter, Bool.eq_false_of_not_eq_true hlong, Bool.not_false, if_true]

/-! ## `struct.pack` -/

/-- An integer in so many bytes, the high one first; `struct.error` if it does not fit. -/
def packInt (k n : Nat) : Option (List UInt8) := if n < 256 ^ k then some (beBytes k n) else none

/-- Some bytes behind their number. -/
def packBytes (k : Nat) (field : List UInt8) : Option (List UInt8) := (packInt k field.length).map (· ++ field)

/-- `32s`: padded with zeros, or cut. -/
def pack32 (bytes : List UInt8) : List UInt8 := (bytes ++ List.replicate 32 0).take 32

/-- Bytes are packed if their number fits. -/
theorem packBytes_eq_some_iff {k : Nat} {field bytes : List UInt8} :
    packBytes k field = some bytes ↔ field.length < 256 ^ k ∧ bytes = lengthField k field := by
  unfold packBytes packInt lengthField
  split_ifs with h
  · rw [Option.map_some, Option.some.injEq, eq_comm]
    exact (and_iff_right h).symm
  · exact iff_of_false (Option.some_ne_none _).symm fun hboth => h hboth.1

/-- A text that fits a length of 16 bits. -/
theorem length_utf8_lt {s : String} (h : s.utf8ByteSize ≤ 65535) : (utf8 s).length < 256 ^ 2 := by
  rw [length_utf8]
  exact Nat.lt_succ_of_le h

/-- Such a text is packed. -/
theorem packBytes_utf8 {s : String} (h : s.utf8ByteSize ≤ 65535) :
    packBytes 2 (utf8 s) = some (lengthField 2 (utf8 s)) :=
  packBytes_eq_some_iff.mpr ⟨length_utf8_lt h, rfl⟩

/-- Always 32 bytes. -/
theorem length_pack32 (bytes : List UInt8) : (pack32 bytes).length = 32 := by
  rw [pack32, List.length_take, List.length_append, List.length_replicate]
  omega

/-- What has 32 bytes is packed as it is. -/
theorem pack32_of_length {bytes : List UInt8} (h : bytes.length = 32) : pack32 bytes = bytes :=
  List.take_left' h

/-- **A hash survives 32 bytes exactly if it is a digest.** -/
theorem hexEncode_pack32_iff {hash : String} {bytes : List UInt8} (h : fromHex hash.toList = some bytes) :
    hexEncode (pack32 bytes) = hash ↔ IsDigest hash := by
  constructor
  · exact fun heq => ⟨pack32 bytes, length_pack32 bytes, heq.symm⟩
  · rintro ⟨digest, hlen, rfl⟩
    rw [fromHex_hexEncode] at h
    rw [← Option.some.inj h, pack32_of_length hlen]

/-- A digest reads as its bytes. -/
theorem IsDigest.fromHex {hash : String} (h : IsDigest hash) : ∃ bytes, Crypto.fromHex hash.toList = some bytes := by
  obtain ⟨digest, -, rfl⟩ := h
  exact ⟨digest, fromHex_hexEncode digest⟩

/-! ## Clocks -/

/-- A clock as `json.dumps` gets it. -/
def clockJson (items : List (String × Int)) : Json := .obj (items.map fun e => (e.1.toList, .int e.2))

/-- The items of a clock. -/
def clockItems (c : VectorClock) : List (String × Int) := c.clocks.entries.map fun e => (e.1, e.2)

/-- `VectorClock.pack`, of the items in the order of the dict. -/
def VectorClock.pack (maxStrDigits : Option Nat) (items : List (String × Int)) : Option (List UInt8) :=
  (jsonDumps maxStrDigits (clockJson items)).bind fun text => packBytes 4 (utf8 (String.ofList text))

/-- `bytes.decode("utf-8")`. -/
def decodeUtf8 (bytes : List UInt8) : Option String := String.fromUTF8? ⟨bytes.toArray⟩

/-- A text behind its length. -/
def unpackText (k : Nat) : Reader UInt8 String := do
  let bytes ← unpackInt k >>= slice
  decodeUtf8 bytes

/-- `VectorClock.unpack`: the value of `clocks`. -/
def VectorClock.unpack (maxStrDigits : Option Nat) : Reader UInt8 Json := do
  let text ← unpackText 4
  jsonLoads maxStrDigits text.toList

/-- A text behind its length is read back. -/
theorem reads_unpackText {k : Nat} {s : String} (h : (utf8 s).length < 256 ^ k) :
    Reads (unpackText k) (lengthField k (utf8 s)) s :=
  (reads_lengthField h).bind_lift (WarmLogic.Consensus.Borsh.fromUTF8?_eq_some.mpr rfl)

/-- The ints of a clock are its counters. -/
theorem intsOfPairs_items (items : List (String × Int)) :
    intsOfPairs (items.map fun e => (e.1.toList, Json.int e.2)) = items.map Prod.snd := by
  induction items with
  | nil => rfl
  | cons e items ih =>
      rw [List.map_cons, intsOfPairs, ih]
      rfl

/-- So a clock is too long to print if a counter is. -/
theorem any_tooLong_clockJson (maxStrDigits : Option Nat) (items : List (String × Int)) :
    (ints (clockJson items)).any (tooLong maxStrDigits) = items.any fun e => tooLong maxStrDigits e.2 := by
  rw [clockJson, ints, intsOfPairs_items, List.any_map]
  rfl

/-- A clock is a JSON value that can be written. -/
theorem wf_clockJson {items : List (String × Int)} (h : (items.map Prod.fst).Nodup) : Json.Wf (clockJson items) := by
  refine .obj ?_ ?_
  · rw [List.map_map]
    have hkeys : (Prod.fst ∘ fun e : String × Int => (e.1.toList, Json.int e.2)) = String.toList ∘ Prod.fst := rfl
    rw [hkeys, ← List.map_map]
    exact h.map fun _ _ => String.toList_injective
  · intro pair hpair
    obtain ⟨e, -, rfl⟩ := List.mem_map.mp hpair
    exact .int e.2

/-- The bytes of the text of a clock. -/
def clockBytes (items : List (String × Int)) : List UInt8 := utf8 (String.ofList (Json.dumpsLine (clockJson items)))

/-- When a clock is packed: its text fits, and no counter is too long. -/
theorem VectorClock.pack_eq_some_iff {maxStrDigits : Option Nat} {items : List (String × Int)} {bytes : List UInt8} :
    VectorClock.pack maxStrDigits items = some bytes ↔
      (∀ e ∈ items, tooLong maxStrDigits e.2 = false) ∧ (clockBytes items).length < 2 ^ 32 ∧
        bytes = lengthField 4 (clockBytes items) := by
  have hlong : (items.any fun e => tooLong maxStrDigits e.2) = true ↔ ¬ ∀ e ∈ items, tooLong maxStrDigits e.2 = false := by
    simp
  unfold VectorClock.pack jsonDumps
  rw [any_tooLong_clockJson]
  split_ifs with h
  · exact iff_of_false (Option.some_ne_none _).symm fun hall => hlong.mp h hall.1
  · rw [Option.bind_some, packBytes_eq_some_iff]
    exact (and_iff_right (not_not.mp fun hno => h (hlong.mpr hno))).symm

/-- And what is read of it: the dict of its counters. -/
theorem VectorClock.reads_unpack {maxStrDigits : Option Nat} {items : List (String × Int)} {bytes : List UInt8}
    (hkeys : (items.map Prod.fst).Nodup) (h : VectorClock.pack maxStrDigits items = some bytes) :
    Reads (VectorClock.unpack maxStrDigits) bytes (clockJson items) := by
  unfold VectorClock.pack at h
  obtain ⟨text, htext, hbytes⟩ := Option.bind_eq_some_iff.mp h
  obtain ⟨hlen, rfl⟩ := packBytes_eq_some_iff.mp hbytes
  refine (reads_unpackText hlen).bind_lift ?_
  rw [String.toList_ofList]
  exact jsonLoads_jsonDumps (wf_clockJson hkeys) htext

/-! ## Decisions -/

/-- In which order the dict of a decision's clock yields its items. -/
structure DictOrder where
  items : SyncableDecision UInt64 → List (String × Int)
  perm : ∀ d, (items d).Perm (clockItems d.vectorClock)

/-- A decision as `unpack` returns it. -/
structure UnpackedDecision where
  decisionId : String
  region : String
  timestamp : UInt64
  clocks : Json
  decisionHash : String
  payload : List UInt8
  signature : String

namespace SyncableDecision

/-- The bytes of a signature, of which there are none if it is empty. -/
def signatureBytes (signature : String) : Option (List UInt8) :=
  if signature = "" then some [] else fromHex signature.toList

/-- `SyncableDecision.pack`; the timestamp is packed as its 64 bits. -/
def pack (maxStrDigits : Option Nat) (items : List (String × Int)) (d : SyncableDecision UInt64) : Option (List UInt8) := do
  let hashBytes ← fromHex d.decisionHash.toList
  let sigBytes ← signatureBytes d.signature
  let vcBytes ← VectorClock.pack maxStrDigits items
  let idField ← packBytes 2 (utf8 d.decisionId)
  let regionField ← packBytes 2 (utf8 d.region)
  let payloadField ← packBytes 4 d.payload
  let sigField ← packBytes 2 sigBytes
  return idField ++ (regionField ++ (beBytes 8 d.timestamp.toNat ++ (vcBytes ++ (pack32 hashBytes ++
    (payloadField ++ sigField)))))

/-- `SyncableDecision.unpack`; `none` is any of its exceptions. -/
def unpack (maxStrDigits : Option Nat) : Reader UInt8 UnpackedDecision := do
  let decisionId ← unpackText 2
  let region ← unpackText 2
  let timestamp ← unpackInt 8
  let clocks ← VectorClock.unpack maxStrDigits
  let hash ← slice 32
  let payload ← unpackInt 4 >>= slice
  let sigLen ← unpackInt 2
  let sig ← slice sigLen
  return { decisionId, region, timestamp := UInt64.ofNat timestamp, clocks, decisionHash := hexEncode hash, payload,
           signature := if 0 < sigLen then hexEncode sig else "" }

/-- The decision that was read is the one that was written, in every field; of the clocks, the dicts are. -/
structure Same (d : SyncableDecision UInt64) (u : UnpackedDecision) : Prop where
  decisionId : u.decisionId = d.decisionId
  region : u.region = d.region
  timestamp : u.timestamp = d.timestamp
  clocks : ∃ items, items.Perm (clockItems d.vectorClock) ∧ u.clocks = clockJson items
  decisionHash : u.decisionHash = d.decisionHash
  payload : u.payload = d.payload
  signature : u.signature = d.signature

/-- The number of bytes of a packed decision. -/
def packedLength (items : List (String × Int)) (d : SyncableDecision UInt64) : Nat :=
  (2 + d.decisionId.utf8ByteSize) + (2 + d.region.utf8ByteSize) + 8 + (4 + (clockBytes items).length) + 32 +
    (4 + d.payload.length) + (2 + d.signature.length / 2)

/-- A decision that a batch carries: its hash is a digest, the ints of its clock are not too long, and neither is it. -/
structure Survives (maxStrDigits : Option Nat) (items : List (String × Int)) (d : SyncableDecision UInt64) : Prop where
  hash : IsDigest d.decisionHash
  digits : ∀ e ∈ items, tooLong maxStrDigits e.2 = false
  length : d.packedLength items < 2 ^ 32

/-- What comes back of a decision in any case. -/
structure ReadBack (maxStrDigits : Option Nat) (items : List (String × Int)) (d : SyncableDecision UInt64)
    (u : UnpackedDecision) : Prop where
  digits : ∀ e ∈ items, tooLong maxStrDigits e.2 = false
  length : d.packedLength items < 2 ^ 32
  decisionId : u.decisionId = d.decisionId
  region : u.region = d.region
  timestamp : u.timestamp = d.timestamp
  clocks : u.clocks = clockJson items
  decisionHash : ∃ bytes, fromHex d.decisionHash.toList = some bytes ∧ u.decisionHash = hexEncode (pack32 bytes)
  payload : u.payload = d.payload
  signature : u.signature = d.signature

variable {maxStrDigits : Option Nat} {items : List (String × Int)} {d : SyncableDecision UInt64} {u : UnpackedDecision}

/-- What comes back is the decision exactly if its hash is a digest. -/
theorem ReadBack.same_iff (h : ReadBack maxStrDigits items d u) (hperm : items.Perm (clockItems d.vectorClock)) :
    Same d u ↔ IsDigest d.decisionHash := by
  obtain ⟨bytes, hbytes, hhash⟩ := h.decisionHash
  rw [← hexEncode_pack32_iff hbytes, ← hhash]
  constructor
  · exact Same.decisionHash
  · intro hsame
    exact ⟨h.decisionId, h.region, h.timestamp, ⟨items, hperm, h.clocks⟩, hsame, h.payload, h.signature⟩

/-- A signature of some bytes is packed as these bytes. -/
theorem signatureBytes_hexEncode (sig : List UInt8) : signatureBytes (hexEncode sig) = some sig := by
  unfold signatureBytes
  split_ifs with h
  · have hback := fromHex_hexEncode sig
    rw [h] at hback
    exact hback
  · exact fromHex_hexEncode sig

/-- And read as their hex text. -/
theorem signature_hexEncode (sig : List UInt8) : (if 0 < sig.length then hexEncode sig else "") = hexEncode sig := by
  split_ifs with h
  · rfl
  · rw [List.length_eq_zero_iff.mp (Nat.eq_zero_of_not_pos h)]
    rfl

/-- **When a decision is packed**, and into what. -/
theorem pack_eq_some_iff (hd : d.InDomain) {bytes : List UInt8} :
    d.pack maxStrDigits items = some bytes ↔ ∃ hashBytes sig vcBytes, fromHex d.decisionHash.toList = some hashBytes ∧
      d.signature = hexEncode sig ∧ sig.length ≤ 65535 ∧ VectorClock.pack maxStrDigits items = some vcBytes ∧
      d.payload.length < 2 ^ 32 ∧
      bytes = lengthField 2 (utf8 d.decisionId) ++ (lengthField 2 (utf8 d.region) ++ (beBytes 8 d.timestamp.toNat ++
        (vcBytes ++ (pack32 hashBytes ++ (lengthField 4 d.payload ++ lengthField 2 sig))))) := by
  obtain ⟨sig, hsig, htext⟩ := hd.signature
  have hsigField : packBytes 2 sig = some (lengthField 2 sig) :=
    packBytes_eq_some_iff.mpr ⟨Nat.lt_succ_of_le hsig, rfl⟩
  unfold pack
  rw [htext, signatureBytes_hexEncode, packBytes_utf8 hd.decisionId, packBytes_utf8 hd.region]
  simp only [Option.bind_eq_bind, Option.bind_some, Option.bind_eq_some_iff, packBytes_eq_some_iff (k := 4), hsigField,
    Option.pure_def, Option.some.injEq]
  constructor
  · rintro ⟨hashBytes, hhash, vcBytes, hclock, _, ⟨hpayload, rfl⟩, rfl⟩
    exact ⟨hashBytes, sig, vcBytes, hhash, rfl, hsig, hclock, hpayload, rfl⟩
  · rintro ⟨hashBytes, sig', vcBytes, hhash, hsame, -, hclock, hpayload, rfl⟩
    rw [Crypto.hexEncode_injective hsame]
    exact ⟨hashBytes, hhash, vcBytes, hclock, _, ⟨hpayload, rfl⟩, rfl⟩

/-- The packed decision has its length. -/
theorem length_of_pack (hd : d.InDomain) {bytes : List UInt8} (h : d.pack maxStrDigits items = some bytes) :
    bytes.length = d.packedLength items := by
  obtain ⟨hashBytes, sig, vcBytes, -, hsig, -, hclock, -, rfl⟩ := (pack_eq_some_iff hd).mp h
  obtain ⟨-, -, rfl⟩ := VectorClock.pack_eq_some_iff.mp hclock
  simp only [List.length_append, length_lengthField, length_beBytes, length_pack32, length_utf8, packedLength, hsig,
    Crypto.length_hexEncode]
  omega

/-- **What is read of a packed decision**, if it is short enough for a batch. -/
theorem readBack_of_pack (hd : d.InDomain) (hkeys : (items.map Prod.fst).Nodup) {bytes : List UInt8}
    (h : d.pack maxStrDigits items = some bytes) (hlen : bytes.length < 2 ^ 32) :
    ∃ u, Reads (unpack maxStrDigits) bytes u ∧ ReadBack maxStrDigits items d u := by
  have hlength := length_of_pack hd h
  obtain ⟨hashBytes, sig, vcBytes, hhash, hsig, hsigLen, hclock, hpayload, rfl⟩ := (pack_eq_some_iff hd).mp h
  have hreads : Reads (unpack maxStrDigits) _
      { decisionId := d.decisionId, region := d.region, timestamp := UInt64.ofNat d.timestamp.toNat,
        clocks := clockJson items, decisionHash := hexEncode (pack32 hashBytes), payload := d.payload,
        signature := if 0 < sig.length then hexEncode sig else "" } :=
    (reads_unpackText (length_utf8_lt hd.decisionId)).bind <| (reads_unpackText (length_utf8_lt hd.region)).bind <|
      (reads_unpackInt (k := 8) d.timestamp.toNat_lt).bind <| (VectorClock.reads_unpack hkeys hclock).bind <|
        (reads_slice (length_pack32 hashBytes)).bind <| (reads_lengthField hpayload).bind <|
          (reads_unpackInt (k := 2) (Nat.lt_succ_of_le hsigLen)).bind <| (reads_slice rfl).bind_pure _
  refine ⟨_, hreads, ?_⟩
  exact {
    digits := (VectorClock.pack_eq_some_iff.mp hclock).1
    length := hlength ▸ hlen
    decisionId := rfl
    region := rfl
    timestamp := UInt64.ofNat_toNat
    clocks := rfl
    decisionHash := ⟨hashBytes, hhash, rfl⟩
    payload := rfl
    signature := (signature_hexEncode sig).trans hsig.symm }

/-- A decision that survives is packed. -/
theorem Survives.pack (hd : d.InDomain) (h : d.Survives maxStrDigits items) :
    ∃ bytes, d.pack maxStrDigits items = some bytes ∧ bytes.length < 2 ^ 32 := by
  obtain ⟨hashBytes, hhash⟩ := h.hash.fromHex
  obtain ⟨sig, hsigLen, hsig⟩ := hd.signature
  have hlength := h.length
  unfold packedLength at hlength
  have hclock := VectorClock.pack_eq_some_iff.mpr ⟨h.digits, by omega, rfl⟩
  have hpack : d.pack maxStrDigits items = some _ := (pack_eq_some_iff hd).mpr
    ⟨hashBytes, sig, _, hhash, hsig, hsigLen, hclock, by omega, rfl⟩
  exact ⟨_, hpack, length_of_pack hd hpack ▸ h.length⟩

end SyncableDecision

/-! ## Batches -/

/-- The decisions of a batch, each behind its length. -/
def packDecisions (maxStrDigits : Option Nat) (order : DictOrder) : List (SyncableDecision UInt64) → Option (List UInt8)
  | [] => some []
  | d :: decisions => do
      let packed ← d.pack maxStrDigits (order.items d)
      let field ← packBytes 4 packed
      let rest ← packDecisions maxStrDigits order decisions
      return field ++ rest

/-- `SyncBatch.pack`. -/
def SyncBatch.pack (maxStrDigits : Option Nat) (order : DictOrder) (b : SyncBatch (SyncableDecision UInt64)) :
    Option (List UInt8) := do
  let merkleBytes ← fromHex b.merkleRoot.toList
  let decisionBytes ← packDecisions maxStrDigits order b.decisions
  let idField ← packBytes 2 (utf8 b.batchId)
  let sourceField ← packBytes 2 (utf8 b.sourceRegion)
  let targetField ← packBytes 2 (utf8 b.targetRegion)
  let count ← packInt 4 b.decisions.length
  return idField ++ (sourceField ++ (targetField ++ (pack32 merkleBytes ++ (beBytes 8 b.createdAt.toNat ++
    (count ++ decisionBytes)))))

/-- The loop over the decisions of a batch; each is read from the bytes of its own. -/
def unpackDecisions (maxStrDigits : Option Nat) : Nat → Reader UInt8 (List UnpackedDecision)
  | 0 => pure []
  | count + 1 => do
      let packed ← unpackInt 4 >>= slice
      let decision ← ((SyncableDecision.unpack maxStrDigits).run packed).map Prod.fst
      let decisions ← unpackDecisions maxStrDigits count
      return decision :: decisions

/-- `SyncBatch.unpack`. -/
def SyncBatch.unpack (maxStrDigits : Option Nat) : Reader UInt8 (SyncBatch UnpackedDecision) := do
  let batchId ← unpackText 2
  let sourceRegion ← unpackText 2
  let targetRegion ← unpackText 2
  let merkleRoot ← slice 32
  let createdAt ← unpackInt 8
  let decisionCount ← unpackInt 4
  let decisions ← unpackDecisions maxStrDigits decisionCount
  return { batchId, sourceRegion, targetRegion, decisions, merkleRoot := hexEncode merkleRoot,
           createdAt := UInt64.ofNat createdAt, status := .pending }

/-- The batch that was read is the one that was written. -/
structure SyncBatch.Same (b : SyncBatch (SyncableDecision UInt64)) (u : SyncBatch UnpackedDecision) : Prop where
  batchId : u.batchId = b.batchId
  sourceRegion : u.sourceRegion = b.sourceRegion
  targetRegion : u.targetRegion = b.targetRegion
  decisions : List.Forall₂ SyncableDecision.Same b.decisions u.decisions
  merkleRoot : u.merkleRoot = b.merkleRoot
  createdAt : u.createdAt = b.createdAt
  status : u.status = b.status

/-- `SyncBatch.unpack(b.pack())` returns and equals `b`. -/
def SyncBatch.RoundTrips (maxStrDigits : Option Nat) (order : DictOrder) (b : SyncBatch (SyncableDecision UInt64)) : Prop :=
  ∃ bytes u rest, b.pack maxStrDigits order = some bytes ∧ (SyncBatch.unpack maxStrDigits).run bytes = some (u, rest) ∧
    b.Same u

variable {maxStrDigits : Option Nat} {order : DictOrder}

/-- A dict lists each key once. -/
theorem DictOrder.keys_nodup (order : DictOrder) (d : SyncableDecision UInt64) :
    ((order.items d).map Prod.fst).Nodup := by
  have hkeys : (clockItems d.vectorClock).map Prod.fst = d.vectorClock.clocks.keys := by
    rw [clockItems, List.map_map]
    rfl
  rw [((order.perm d).map Prod.fst).nodup_iff, hkeys]
  exact d.vectorClock.clocks.keys_nodup

/-- **What is read of packed decisions**: one by one, what is read of each. -/
theorem readBack_of_packDecisions {decisions : List (SyncableDecision UInt64)} (hdomain : ∀ d ∈ decisions, d.InDomain)
    {bytes : List UInt8} (h : packDecisions maxStrDigits order decisions = some bytes) :
    ∃ us, Reads (unpackDecisions maxStrDigits decisions.length) bytes us ∧
      List.Forall₂ (fun d u => SyncableDecision.ReadBack maxStrDigits (order.items d) d u) decisions us := by
  induction decisions generalizing bytes with
  | nil =>
      cases h
      exact ⟨[], fun _ => rfl, .nil⟩
  | cons d decisions ih =>
      obtain ⟨hd, hrest⟩ := List.forall_mem_cons.mp hdomain
      simp only [packDecisions, Option.bind_eq_bind, Option.bind_eq_some_iff, packBytes_eq_some_iff, Option.pure_def,
        Option.some.injEq] at h
      obtain ⟨packed, hpacked, _, ⟨hlen, rfl⟩, rest, hdecisions, rfl⟩ := h
      obtain ⟨u, hread, hback⟩ := SyncableDecision.readBack_of_pack hd (order.keys_nodup d) hpacked hlen
      obtain ⟨us, hreads, hbacks⟩ := ih hrest hdecisions
      refine ⟨u :: us, ?_, .cons hback hbacks⟩
      have hone : ((SyncableDecision.unpack maxStrDigits).run packed).map Prod.fst = some u := by
        rw [hread.run_eq]
        rfl
      exact (reads_lengthField hlen).bind <| (Reads.lift hone).bind <| hreads.bind_pure fun decisions => u :: decisions

/-- Decisions that survive are packed. -/
theorem survives_packDecisions {decisions : List (SyncableDecision UInt64)} (hdomain : ∀ d ∈ decisions, d.InDomain)
    (h : ∀ d ∈ decisions, d.Survives maxStrDigits (order.items d)) :
    ∃ bytes, packDecisions maxStrDigits order decisions = some bytes := by
  induction decisions with
  | nil => exact ⟨[], rfl⟩
  | cons d decisions ih =>
      obtain ⟨hd, hdomain⟩ := List.forall_mem_cons.mp hdomain
      obtain ⟨hone, hall⟩ := List.forall_mem_cons.mp h
      obtain ⟨packed, hpacked, hlen⟩ := hone.pack hd
      obtain ⟨rest, hrest⟩ := ih hdomain hall
      refine ⟨lengthField 4 packed ++ rest, ?_⟩
      rw [packDecisions, hpacked, hrest]
      have hfield : packBytes 4 packed = some (lengthField 4 packed) := packBytes_eq_some_iff.mpr ⟨hlen, rfl⟩
      simp only [Option.bind_eq_bind, Option.bind_some, hfield, Option.pure_def]

/-- The decisions that were read are those that were written if the hashes of those are digests. -/
theorem forall_same_iff {decisions : List (SyncableDecision UInt64)} {us : List UnpackedDecision}
    (h : List.Forall₂ (fun d u => SyncableDecision.ReadBack maxStrDigits (order.items d) d u) decisions us) :
    List.Forall₂ SyncableDecision.Same decisions us ↔ ∀ d ∈ decisions, d.Survives maxStrDigits (order.items d) := by
  induction h with
  | nil => exact iff_of_true .nil (List.forall_mem_nil _)
  | @cons d u decisions us hback _ ih =>
      rw [List.forall₂_cons, List.forall_mem_cons, ih, hback.same_iff (order.perm d)]
      exact and_congr_left fun _ => ⟨fun hhash => ⟨hhash, hback.digits, hback.length⟩, fun hsurvives => hsurvives.hash⟩

/-- A batch whose names fit, before it is received. -/
structure SyncBatch.InDomain (b : SyncBatch (SyncableDecision UInt64)) : Prop where
  batchId : b.batchId.utf8ByteSize ≤ 65535
  sourceRegion : b.sourceRegion.utf8ByteSize ≤ 65535
  targetRegion : b.targetRegion.utf8ByteSize ≤ 65535
  decisions : ∀ d ∈ b.decisions, d.InDomain
  status : b.status = .pending

namespace SyncBatch

variable {b : SyncBatch (SyncableDecision UInt64)}

/-- When a batch is packed, and into what. -/
theorem pack_eq_some_iff (hb : b.InDomain) {bytes : List UInt8} :
    b.pack maxStrDigits order = some bytes ↔ ∃ merkleBytes decisionBytes, fromHex b.merkleRoot.toList = some merkleBytes ∧
      packDecisions maxStrDigits order b.decisions = some decisionBytes ∧ b.decisions.length < 2 ^ 32 ∧
      bytes = lengthField 2 (utf8 b.batchId) ++ (lengthField 2 (utf8 b.sourceRegion) ++ (lengthField 2 (utf8 b.targetRegion) ++
        (pack32 merkleBytes ++ (beBytes 8 b.createdAt.toNat ++ (beBytes 4 b.decisions.length ++ decisionBytes))))) := by
  unfold pack
  rw [packBytes_utf8 hb.batchId, packBytes_utf8 hb.sourceRegion, packBytes_utf8 hb.targetRegion]
  simp only [Option.bind_eq_bind, Option.bind_some, Option.bind_eq_some_iff, Option.pure_def, Option.some.injEq,
    packInt, Option.ite_none_right_eq_some]
  constructor
  · rintro ⟨merkleBytes, hroot, decisionBytes, hdecisions, _, ⟨hcount, rfl⟩, rfl⟩
    exact ⟨merkleBytes, decisionBytes, hroot, hdecisions, hcount, rfl⟩
  · rintro ⟨merkleBytes, decisionBytes, hroot, hdecisions, hcount, rfl⟩
    exact ⟨merkleBytes, hroot, decisionBytes, hdecisions, _, ⟨hcount, rfl⟩, rfl⟩

/-- **What is read of a packed batch.** -/
theorem unpack_of_pack (hb : b.InDomain) {bytes : List UInt8} (h : b.pack maxStrDigits order = some bytes) :
    ∃ merkleBytes us, fromHex b.merkleRoot.toList = some merkleBytes ∧
      List.Forall₂ (fun d u => SyncableDecision.ReadBack maxStrDigits (order.items d) d u) b.decisions us ∧
      (unpack maxStrDigits).run bytes = some
        ({ batchId := b.batchId, sourceRegion := b.sourceRegion, targetRegion := b.targetRegion, decisions := us,
           merkleRoot := hexEncode (pack32 merkleBytes), createdAt := b.createdAt, status := .pending }, []) := by
  obtain ⟨merkleBytes, decisionBytes, hroot, hdecisions, hcount, rfl⟩ := (pack_eq_some_iff hb).mp h
  obtain ⟨us, hreads, hbacks⟩ := readBack_of_packDecisions hb.decisions hdecisions
  refine ⟨merkleBytes, us, hroot, hbacks, ?_⟩
  have hall : Reads (unpack maxStrDigits) _
      { batchId := b.batchId, sourceRegion := b.sourceRegion, targetRegion := b.targetRegion, decisions := us,
        merkleRoot := hexEncode (pack32 merkleBytes), createdAt := UInt64.ofNat b.createdAt.toNat, status := .pending } :=
    (reads_unpackText (length_utf8_lt hb.batchId)).bind <| (reads_unpackText (length_utf8_lt hb.sourceRegion)).bind <|
      (reads_unpackText (length_utf8_lt hb.targetRegion)).bind <| (reads_slice (length_pack32 merkleBytes)).bind <|
        (reads_unpackInt (k := 8) b.createdAt.toNat_lt).bind <| (reads_unpackInt (k := 4) hcount).bind <|
          hreads.bind_pure _
  rw [UInt64.ofNat_toNat] at hall
  exact hall.run_eq

/-- **Which batches round trip**: those whose root is a digest, with fewer than 2^32 decisions, each of which survives. -/
theorem roundTrips_iff (hb : b.InDomain) :
    b.RoundTrips maxStrDigits order ↔ IsDigest b.merkleRoot ∧ b.decisions.length < 2 ^ 32 ∧
      ∀ d ∈ b.decisions, d.Survives maxStrDigits (order.items d) := by
  constructor
  · rintro ⟨bytes, u, rest, hbytes, hread, hsame⟩
    obtain ⟨-, -, -, -, hcount, -⟩ := (pack_eq_some_iff hb).mp hbytes
    obtain ⟨merkleBytes, us, hroot, hbacks, hunpack⟩ := unpack_of_pack hb hbytes
    obtain ⟨rfl, -⟩ := Prod.mk.inj (Option.some.inj (hread.symm.trans hunpack))
    exact ⟨(hexEncode_pack32_iff hroot).mp hsame.merkleRoot, hcount, (forall_same_iff hbacks).mp hsame.decisions⟩
  · rintro ⟨hdigest, hcount, hsurvive⟩
    obtain ⟨root, hroot⟩ := hdigest.fromHex
    obtain ⟨decisionBytes, hdecisions⟩ := survives_packDecisions hb.decisions hsurvive
    have hbytes : b.pack maxStrDigits order = some _ := (pack_eq_some_iff hb).mpr
      ⟨root, decisionBytes, hroot, hdecisions, hcount, rfl⟩
    obtain ⟨merkleBytes, us, hroot', hbacks, hunpack⟩ := unpack_of_pack hb hbytes
    refine ⟨_, _, _, hbytes, hunpack, ?_⟩
    exact {
      batchId := rfl
      sourceRegion := rfl
      targetRegion := rfl
      decisions := (forall_same_iff hbacks).mpr hsurvive
      merkleRoot := (hexEncode_pack32_iff hroot').mpr hdigest
      createdAt := rfl
      status := hb.status.symm }

end SyncBatch

/-! ## The batches of a node -/

namespace RegionNode

variable {sha3 : List UInt8 → Vector UInt8 32} {time : FloatOrder UInt64} {n : RegionNode}

/-- A batch takes up stored decisions only. -/
theorem mem_decisionsToSync {decisionIds : Option (List String)} {d : SyncableDecision UInt64}
    (h : d ∈ n.decisionsToSync decisionIds) : ∃ decisionId, n.decisions.lookup decisionId = some d := by
  unfold decisionsToSync at h
  split at h <;>
    (obtain ⟨decisionId, -, hlookup⟩ := List.mem_filterMap.mp h
     exact ⟨decisionId, hlookup⟩)

/-- What a node creates is in the domain. -/
theorem inDomain_createSyncBatch (h : n.Inv sha3) {targetRegion : String} (htarget : targetRegion.utf8ByteSize ≤ 65535)
    (decisionIds : Option (List String)) (urandom : Vector UInt8 8) (now : UInt64) :
    (n.createSyncBatch sha3 targetRegion decisionIds urandom now).2.InDomain where
  batchId := by
    show ("sync-" ++ hexEncode urandom.toList).utf8ByteSize ≤ 65535
    have hle := utf8ByteSize_ofList_le (hexEncode urandom.toList).toList
    rw [String.ofList_toList, String.length_toList, Crypto.length_hexEncode, Vector.length_toList] at hle
    rw [String.utf8ByteSize_append]
    have hsync : "sync-".utf8ByteSize = 5 := by decide
    omega
  sourceRegion := h.localRegion
  targetRegion := htarget
  decisions d hd := by
    obtain ⟨decisionId, hlookup⟩ := mem_decisionsToSync hd
    exact h.inDomain decisionId d hlookup
  status := rfl

/-- What a node has stored, and what it takes up of it, make a batch that survives: something is stored; if that is a
single decision, then its hash is a digest; and there are fewer than 2^32 decisions in the batch, each of which survives. -/
structure BatchSurvives (maxStrDigits : Option Nat) (order : DictOrder) (n : RegionNode) (decisionIds : Option (List String)) :
    Prop where
  stored : n.decisions.entries ≠ []
  single : ∀ decisionId d, n.decisions.entries = [⟨decisionId, d⟩] → IsDigest d.decisionHash
  count : (n.decisionsToSync decisionIds).length < 2 ^ 32
  each : ∀ d ∈ n.decisionsToSync decisionIds, d.Survives maxStrDigits (order.items d)

end RegionNode

/-- **Which sync batches survive `pack` and `unpack`.** In every state that a node reaches, a batch that it creates is
returned by `unpack` of its packed bytes, equal in every field and in every field of every decision, if and only if
something is stored, where a single stored decision has a digest for its hash, and the batch has fewer than 2^32
decisions, each with a digest for its hash, with no int in its clock that is too long, and of less than 2^32 bytes. -/
theorem sync_batch_round_trip_iff (sha3 : List UInt8 → Vector UInt8 32) (time : FloatOrder UInt64)
    (maxStrDigits : Option Nat) (order : DictOrder) (n : RegionNode)
    (h : (nodeRuns sha3 time).Reachable (fun op _ => op.InDomain) n) (targetRegion : String)
    (htarget : targetRegion.utf8ByteSize ≤ 65535) (decisionIds : Option (List String)) (urandom : Vector UInt8 8)
    (now : UInt64) :
    (n.createSyncBatch sha3 targetRegion decisionIds urandom now).2.RoundTrips maxStrDigits order ↔
      n.BatchSurvives maxStrDigits order decisionIds := by
  have hinv := inv_of_reachable h
  rw [SyncBatch.roundTrips_iff (RegionNode.inDomain_createSyncBatch hinv htarget decisionIds urandom now)]
  show IsDigest (n.merkleTree.rootHash sha3).2 ∧ (n.decisionsToSync decisionIds).length < 2 ^ 32 ∧
    (∀ d ∈ n.decisionsToSync decisionIds, d.Survives maxStrDigits (order.items d)) ↔ _
  rw [RegionNode.isDigest_rootHash_iff hinv]
  constructor
  · rintro ⟨⟨hstored, hsingle⟩, hcount, heach⟩
    exact ⟨hstored, hsingle, hcount, heach⟩
  · rintro ⟨hstored, hsingle, hcount, heach⟩
    exact ⟨⟨hstored, hsingle⟩, hcount, heach⟩

/-- The digest of the payload `a`. -/
def digestA : Vector UInt8 32 :=
  #v[0x80, 0x08, 0x4b, 0xf2, 0xfb, 0xa0, 0x24, 0x75, 0x72, 0x6f, 0xeb, 0x2c, 0xab, 0x2d, 0x82, 0x15, 0xea, 0xb1,
    0x4b, 0xc6, 0xbd, 0xd8, 0xbf, 0xb2, 0xc8, 0x15, 0x12, 0x57, 0x03, 0x2e, 0xcd, 0x8b]

/-- The digest of the payload `b`. -/
def digestB : Vector UInt8 32 :=
  #v[0xb0, 0x39, 0x17, 0x9a, 0x8a, 0x4c, 0xe2, 0xc2, 0x52, 0xaa, 0x6f, 0x2f, 0x25, 0x79, 0x82, 0x51, 0xc1, 0x9b,
    0x75, 0xfc, 0x15, 0x08, 0xd9, 0xd5, 0x11, 0xa1, 0x91, 0xe0, 0x48, 0x7d, 0x64, 0xa7]

/-- The digest of the two texts above in one, the node of a tree over them. -/
def digestAB : Vector UInt8 32 :=
  #v[0x34, 0x56, 0xf3, 0x8f, 0xe8, 0x65, 0xf1, 0x3e, 0x1f, 0x37, 0xa7, 0x1e, 0xdf, 0xa3, 0x29, 0x31, 0x04, 0xc1,
    0xdc, 0xae, 0x92, 0x10, 0x89, 0x87, 0x1f, 0xe2, 0xf0, 0x38, 0xf4, 0xd5, 0x66, 0x55]

/-- SHA3-256, as it is on the payloads `a` and `b` and on the node over their hashes. -/
def sampleDigest (payload : List UInt8) : Vector UInt8 32 :=
  if payload = [97] then digestA
  else if payload = [98] then digestB
  else if payload = utf8 (hexEncode digestA.toList ++ hexEncode digestB.toList) then digestAB
  else Vector.replicate 32 0

/-- The bits of positive floats order as they do. -/
def bitsTime : FloatOrder UInt64 := ⟨fun a b => decide (a < b), fun a b => decide (a = b)⟩

/-- Dicts that yield their items as they are listed. -/
def listedOrder : DictOrder := ⟨fun d => clockItems d.vectorClock, fun _ => .refl _⟩

/-- A node that has made one decision, and the decision. -/
def oneDecision : RegionNode × SyncableDecision UInt64 :=
  (RegionNode.new "eu" "n1" .lastWriterWins).addLocalDecision sampleDigest "e" [97] "" 0x41d954fc40000000

/-- The same node behind its second decision, whose id sorts before that of the first, and that decision. -/
def twoDecisions : RegionNode × SyncableDecision UInt64 :=
  oneDecision.1.addLocalDecision sampleDigest "d" [98] "" 0x41d954fc40400000

/-- A number below 10 is one digit. -/
theorem decimal_of_lt {n : Nat} (h : n < 10) : Json.decimal n = [Json.digit n] := by
  rw [Json.decimal, if_pos h]

/-- The text of a clock with one such counter. -/
theorem dumpsLine_digit {n : Nat} (h : n < 10) : Json.dumpsLine (clockJson [("n1", n)]) =
    "\x7b\"n1\": ".toList ++ [Json.digit n, '}'] := by
  have htext : Json.dumpsLine (clockJson [("n1", n)]) =
      '{' :: (Json.Layout.quote (Json.oneLine Json.escape) "n1".toList ++ [':', ' '] ++ Json.decimal n ++ ['}']) := rfl
  have hquote : Json.Layout.quote (Json.oneLine Json.escape) "n1".toList = "\"n1\"".toList := by decide
  rw [htext, decimal_of_lt h, hquote]
  rfl

/-- And its length. -/
theorem length_clockBytes_digit {n : Nat} (h : n < 10) : (clockBytes [("n1", (n : Int))]).length = 9 := by
  have htext : clockBytes [("n1", (n : Int))] = utf8 (String.ofList (Json.dumpsLine (clockJson [("n1", n)]))) := rfl
  have hlen : ∀ n < 10, (utf8 (String.ofList ("\x7b\"n1\": ".toList ++ [Json.digit n, '}']))).length = 9 := by decide
  rw [htext, dumpsLine_digit h, hlen n h]

/-- A short decision whose clock counts below 10 on one node survives. -/
theorem survives_of_digit {d : SyncableDecision UInt64} {n : Nat} (hn : n < 10) (hhash : IsDigest d.decisionHash)
    (hitems : listedOrder.items d = [("n1", (n : Int))])
    (hlen : d.decisionId.utf8ByteSize + d.region.utf8ByteSize + d.payload.length + d.signature.length < 1000) :
    d.Survives (some 4300) (listedOrder.items d) := by
  rw [hitems]
  refine ⟨hhash, ?_, ?_⟩
  · intro e he
    rw [List.mem_singleton.mp he]
    show decide (4300 < (Json.decimal n).length) = false
    rw [decimal_of_lt hn]
    rfl
  · rw [SyncableDecision.packedLength, length_clockBytes_digit hn]
    omega

/-- The batch of a node with two decisions of its own. -/
theorem sync_batch_round_trip_iff_two_decisions :
    (twoDecisions.1.createSyncBatch sampleDigest "us" none (Vector.replicate 8 7) 0x41d954fc40400000).2.RoundTrips
      (some 4300) listedOrder ∧
    (twoDecisions.1.createSyncBatch sampleDigest "us" none (Vector.replicate 8 7) 0x41d954fc40400000).2.decisions =
      [oneDecision.2, twoDecisions.2] := by
  have hdomain (decisionId : String) (payload : List UInt8) (now : UInt64) (hid : decisionId.utf8ByteSize ≤ 65535) :
      (NodeOp.addLocalDecision decisionId payload "" now).InDomain := by
    refine ⟨?_, ?_⟩
    · rintro _ _ _ _ heq
      cases heq
      exact ⟨hid, [], by decide, rfl⟩
    · rintro decisions heq
      cases heq
  have hrun : (nodeRuns sampleDigest bitsTime).Reachable (fun op _ => op.InDomain) twoDecisions.1 :=
    ⟨_, .step (a := .addLocalDecision "d" [98] "" 0x41d954fc40400000)
      (.step (a := .addLocalDecision "e" [97] "" 0x41d954fc40000000)
        (.init ⟨"eu", "n1", .lastWriterWins, by decide, rfl⟩) (hdomain "e" _ _ (by decide)) rfl)
      (hdomain "d" _ _ (by decide)) rfl⟩
  have hbatch : twoDecisions.1.decisionsToSync none = [oneDecision.2, twoDecisions.2] := rfl
  refine ⟨(sync_batch_round_trip_iff sampleDigest bitsTime (some 4300) listedOrder twoDecisions.1 hrun "us" (by decide)
    none (Vector.replicate 8 7) 0x41d954fc40400000).mpr ?_, hbatch⟩
  refine ⟨List.cons_ne_nil _ _, fun decisionId d hd => ?_, by rw [hbatch]; decide, fun d hd => ?_⟩
  · have hlen : twoDecisions.1.decisions.entries.length = 1 := congrArg List.length hd
    exact absurd hlen (by decide)
  · rw [hbatch] at hd
    rcases List.mem_cons.mp hd with rfl | hd
    · exact survives_of_digit (n := 1) (by decide) (isDigest_hexdigest sampleDigest [97]) rfl (by decide)
    · rw [List.mem_singleton] at hd
      subst hd
      exact survives_of_digit (n := 2) (by decide) (isDigest_hexdigest sampleDigest [98]) rfl (by decide)

/-- **The batch of a new node.** Its root is the empty text, and what is read has that of 32 zero bytes. -/
theorem empty_root_not_read_back :
    ¬ ∀ (sha3 : List UInt8 → Vector UInt8 32) (time : FloatOrder UInt64) (maxStrDigits : Option Nat) (order : DictOrder)
      (n : RegionNode), (nodeRuns sha3 time).Reachable (fun op _ => op.InDomain) n → ∀ targetRegion : String,
        targetRegion.utf8ByteSize ≤ 65535 → ∀ (decisionIds : Option (List String)) (urandom : Vector UInt8 8) (now : UInt64),
          (n.createSyncBatch sha3 targetRegion decisionIds urandom now).2.RoundTrips maxStrDigits order := by
  intro h
  have hround := h sampleDigest bitsTime (some 4300) listedOrder (.new "eu" "n1" .lastWriterWins)
    ⟨[], .init ⟨"eu", "n1", .lastWriterWins, by decide, rfl⟩⟩ "us" (by decide) none (Vector.replicate 8 7) 0
  have hinv : (RegionNode.new "eu" "n1" .lastWriterWins).Inv sampleDigest := RegionNode.inv_new (by decide) _ _
  have htarget : "us".utf8ByteSize ≤ 65535 := by decide
  have hdomain := RegionNode.inDomain_createSyncBatch hinv htarget none (Vector.replicate 8 7) 0
  exact not_isDigest_empty ((SyncBatch.roundTrips_iff hdomain).mp hround).1

end WarmLogic.Federation.Region
