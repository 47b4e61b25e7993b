/-
# WarmLogic.Ledger.BlockCodec — the Borsh format of a block and of a verdict.

The derived implementations, in the published layout of Borsh: little-endian integers, a length of four bytes in front of
a text or a sequence, one byte in front of an option or a variant, the fields in the order of the source. A value is
refused when a length does not fit its four bytes, and an `f64` when it is a NaN.

`ReadsBack` is stated of an encoder and a decoder, with any bytes behind the value, so that the parts of a block compose.
`ledgerCodec` gathers what the ledger needs; nothing else of this module is used by the proofs about it.
-/
import WarmLogic.Ledger.ReplicatedLedger

namespace WarmLogic.Ledger.Borsh

open WarmLogic.Lib
open WarmLogic.Consensus.Borsh

/-! ## The format -/

/-- Four bytes, the low one first. -/
def encodeU32 (x : UInt32) : Option Bytes := some (leBytes 4 x.toNat)

/-- A number and the bytes behind it. -/
def decodeU32 : Decoder UInt32 := fun bs =>
  (takeBytes 4 bs).map fun p => (UInt32.ofNat (ofLeBytes p.1), p.2)

/-- The bits are those of a NaN: all of the exponent, and some of the fraction. -/
def isNaN (bits : UInt64) : Bool := decide (0x7FF0000000000000 < bits &&& 0x7FFFFFFFFFFFFFFF)

/-- An `f64`; a NaN is refused, on both ways. -/
def encodeF64 (bits : UInt64) : Option Bytes := if isNaN bits then none else encodeU64 bits

/-- The bits of an `f64` and the bytes behind it. -/
def decodeF64 : Decoder UInt64 := fun bs =>
  (decodeU64 bs).bind fun p => if isNaN p.1 then none else some p

/-- A zero byte, or a one and the value. -/
def encodeOption {α : Type} (e : α → Option Bytes) : Option α → Option Bytes
  | none => some [0]
  | some x => (e x).map (1 :: ·)

/-- Any other first byte is an error. -/
def decodeOption {α : Type} (d : Decoder α) : Decoder (Option α)
  | 0 :: bs => some (none, bs)
  | 1 :: bs => (d bs).map fun p => (some p.1, p.2)
  | _ => none

/-- `Vec<String>`. -/
def encodeStrings (xs : List String) : Option Bytes :=
  if xs.length < 2 ^ 32 then (xs.mapM encodeString).map fun bss => leBytes 4 xs.length ++ bss.flatten else none

/-- So many texts, one after the other. -/
def decodeStringsLoop : Nat → Decoder (List String)
  | 0, bs => some ([], bs)
  | n + 1, bs => do
      let (x, bs) ← decodeString bs
      let (xs, bs) ← decodeStringsLoop n bs
      some (x :: xs, bs)

/-- A count, then the texts. -/
def decodeStrings : Decoder (List String) := fun bs =>
  (takeBytes 4 bs).bind fun p => decodeStringsLoop (ofLeBytes p.1) p.2

/-- A `Block`, field by field in the order of the source. -/
def encodeBlock (b : Block) : Option Bytes := do
  let index ← encodeU32 b.index
  let timestamp ← encodeF64 b.timestamp
  let txIds ← encodeStrings b.txIds
  let prevHash ← encodeString b.prevHash
  let hash ← encodeString b.hash
  let miner ← encodeString b.miner
  let zkProof ← encodeOption encodeString b.zkProof
  let stateRoot ← encodeOption encodeString b.stateRoot
  let baseFeePerGas ← encodeU64 b.baseFeePerGas
  some (index ++ timestamp ++ txIds ++ prevHash ++ hash ++ miner ++ zkProof ++ stateRoot ++ baseFeePerGas)

/-- The reverse; the first field that does not read ends it. -/
def decodeBlock : Decoder Block := fun bs => do
  let (index, bs) ← decodeU32 bs
  let (timestamp, bs) ← decodeF64 bs
  let (txIds, bs) ← decodeStrings bs
  let (prevHash, bs) ← decodeString bs
  let (hash, bs) ← decodeString bs
  let (miner, bs) ← decodeString bs
  let (zkProof, bs) ← decodeOption decodeString bs
  let (stateRoot, bs) ← decodeOption decodeString bs
  let (baseFeePerGas, bs) ← decodeU64 bs
  some ({ index, timestamp, txIds, prevHash, hash, miner, zkProof, stateRoot, baseFeePerGas }, bs)

/-- An enum is its variant number in one byte, then the variant's fields. -/
def encodeViolationType : ViolationType → Option Bytes
  | .policyViolation => some [0]
  | .doubleVoting => some [1]
  | .invalidSignature => some [2]
  | .invalidZkProof => some [3]
  | .conflictingViewChange => some [4]
  | .taskCompletionFraud => some [5]
  | .attestationForgery => some [6]
  | .livenessFailure => some [7]

/-- A penalty: its variant, then its amount where it has one. -/
def encodePenalty : Penalty → Option Bytes
  | .stateLock => some [0]
  | .economicBurn amount => some (1 :: leBytes 8 amount.toNat)
  | .identityIsolation => some [2]
  | .reputationSlash points => some (3 :: leBytes 4 points.toNat)
  | .temporarySuspension epochs => some (4 :: leBytes 4 epochs.toNat)
  | .totalIsolation amount => some (5 :: leBytes 8 amount.toNat)

/-- A verdict; the zero byte before the timestamp is the absent witness. -/
def encodeVerdict (v : SlashingVerdict) : Option Bytes := do
  let reason ← encodeString v.reason
  let penalty ← encodePenalty v.penalty
  let actor ← encodeString v.actor
  let violationType ← encodeOption encodeViolationType v.violationType
  let evidenceHash ← encodeOption encodeString v.evidenceHash
  let timestamp ← encodeU64 v.timestamp
  some (reason ++ penalty ++ actor ++ violationType ++ evidenceHash ++ [0] ++ timestamp)

/-! ## Reading back -/

/-- `d` reads back what `e` wrote, whatever follows. -/
def ReadsBack {α : Type} (e : α → Option Bytes) (d : Decoder α) : Prop :=
  ∀ {x bs}, e x = some bs → ∀ rest, d (bs ++ rest) = some (x, rest)

/-- A `u32` reads back. -/
theorem readsBack_u32 : ReadsBack encodeU32 decodeU32 := by
  rintro x bs ⟨⟩ rest
  have hx : x.toNat < 256 ^ 4 := x.toNat_lt
  rw [decodeU32, takeBytes_append (length_leBytes _ _), Option.map_some, ofLeBytes_leBytes_of_lt hx, UInt32.ofNat_toNat]

/-- An `f64` that is not a NaN reads back; a NaN is never written. -/
theorem readsBack_f64 : ReadsBack encodeF64 decodeF64 := by
  intro x bs h rest
  unfold encodeF64 at h
  split at h
  · cases h
  · next hnan =>
      rw [decodeF64, codec_u64.decode_encode h, Option.bind_some, if_neg hnan]

/-- An option does if its value does. -/
theorem readsBack_option {α : Type} {e : α → Option Bytes} {d : Decoder α} (h : ReadsBack e d) :
    ReadsBack (encodeOption e) (decodeOption d) := by
  intro x bs hx rest
  cases x with
  | none =>
      cases hx
      rfl
  | some x =>
      obtain ⟨bs', hbs, rfl⟩ := Option.map_eq_some_iff.mp hx
      rw [List.cons_append, decodeOption, h hbs rest, Option.map_some]

/-- The texts of a list, one after the other. -/
theorem decodeStringsLoop_append {xs : List String} {bss : List Bytes} (h : xs.mapM encodeString = some bss)
    (rest : Bytes) : decodeStringsLoop xs.length (bss.flatten ++ rest) = some (xs, rest) := by
  induction xs generalizing bss with
  | nil =>
      cases h
      rfl
  | cons x xs ih =>
      rw [List.mapM_cons] at h
      obtain ⟨b, hb, h⟩ := Option.bind_eq_some_iff.mp h
      obtain ⟨bs, hbs, h⟩ := Option.bind_eq_some_iff.mp h
      cases h
      simp only [List.length_cons, decodeStringsLoop, List.flatten_cons, List.append_assoc,
        codec_string.decode_encode hb, Option.bind_eq_bind, Option.bind_some, ih hbs]

/-- A list of texts reads back, as long as the count and each length fit four bytes. -/
theorem readsBack_strings : ReadsBack encodeStrings decodeStrings := by
  intro xs bs h rest
  unfold encodeStrings at h
  split at h
  · rename_i hlt
    obtain ⟨bss, hbss, rfl⟩ := Option.map_eq_some_iff.mp h
    rw [decodeStrings, List.append_assoc, takeBytes_append (length_leBytes _ _), Option.bind_some,
      ofLeBytes_leBytes_of_lt (by simpa using hlt)]
    exact decodeStringsLoop_append hbss rest
  · cases h

/-- A block reads back, field by field. -/
theorem readsBack_block : ReadsBack encodeBlock decodeBlock := by
  intro b bs h rest
  simp only [encodeBlock, Option.bind_eq_bind, Option.bind_eq_some_iff, Option.some.injEq] at h
  obtain ⟨b1, h1, b2, h2, b3, h3, b4, h4, b5, h5, b6, h6, b7, h7, b8, h8, b9, h9, rfl⟩ := h
  simp only [decodeBlock, List.append_assoc, readsBack_u32 h1, readsBack_f64 h2, readsBack_strings h3,
    codec_string.decode_encode h4, codec_string.decode_encode h5, codec_string.decode_encode h6,
    readsBack_option codec_string.decode_encode h7, readsBack_option codec_string.decode_encode h8,
    codec_u64.decode_encode h9, Option.bind_eq_bind, Option.bind_some]

/-- **A stored block reads back.** -/
theorem fromSlice_encodeBlock {b : Block} {bs : Bytes} (h : encodeBlock b = some bs) :
    fromSlice decodeBlock bs = some b := by
  have hd := readsBack_block h []
  rw [List.append_nil] at hd
  rw [fromSlice, hd]

/-- A stored text reads back. -/
theorem fromSlice_encodeString {s : String} {bs : Bytes} (h : encodeString s = some bs) :
    fromSlice decodeString bs = some s := by
  have hd := codec_string.decode_encode h []
  rw [List.append_nil] at hd
  rw [fromSlice, hd]

/-- A block is written with its hash. -/
theorem encodeString_of_encodeBlock {b : Block} (h : encodeBlock b ≠ none) : encodeString b.hash ≠ none := by
  intro hnone
  apply h
  simp [encodeBlock, hnone]

/-- A block whose miner Borsh refuses is refused. -/
theorem encodeBlock_of_miner {b : Block} (h : encodeString b.miner = none) : encodeBlock b = none := by
  simp [encodeBlock, h]

/-! ## The codec -/

/-- **The derived implementations**, as the ledger uses them. -/
def ledgerCodec : LedgerCodec where
  encodeBlock := encodeBlock
  decodeBlock := fromSlice decodeBlock
  encodeText := encodeString
  decodeText := fromSlice decodeString
  encodeVerdict := encodeVerdict
  decode_encodeBlock := fromSlice_encodeBlock
  decode_encodeText := fromSlice_encodeString
  decodeBlock_nil := rfl
  decodeText_nil := rfl
  encodeText_of_block := encodeString_of_encodeBlock

end WarmLogic.Ledger.Borsh
