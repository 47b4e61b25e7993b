/-
# WarmLogic.Consensus.ByzantineSlices — which pending violations `process_violations` gets through.

A verdict quotes the first eight bytes of a hash, `&hash[..8.min(hash.len())]`. The bound keeps the slice inside the
text and not on a character: a text with a character across its eighth byte aborts the call, behind
`mem::take`, so the whole queue is lost. `processViolations_returns_iff` is exact. Block and vote hashes are strings
of the network; the hex of a nullifier has no character of two bytes.

The texts that reach the detector come from the network, so a vote may carry any text as its block hash. Nothing
before the detector asks that it be hexadecimal, or that its first eight bytes end at a character.
-/
import WarmLogic.Consensus.Byzantine

namespace WarmLogic.Consensus.Byzantine

open WarmLogic.Ledger RecordingEngine
open WarmLogic.Federation (hexEncode)

/-! ## Slices of a text -/

/-- The slice `[..8.min(len)]` ends between two characters: the text has at most eight bytes, or some of its
characters make up the first eight. -/
def SlicesAtEight (hash : String) : Prop :=
  hash.utf8ByteSize ≤ 8 ∨ ∃ front back : String, hash = front ++ back ∧ front.utf8ByteSize = 8

theorem utf8ByteSize_ofList_cons (c : Char) (cs : List Char) :
    (String.ofList (c :: cs)).utf8ByteSize = c.utf8Size + (String.ofList cs).utf8ByteSize := by
  rw [String.ofList_cons, String.utf8ByteSize_append, String.utf8ByteSize_singleton]

/-- There is a prefix of `n` bytes exactly when some of the first characters have `n` bytes together. -/
theorem isSome_bytePrefix_iff (n : Nat) (cs : List Char) :
    (bytePrefix n cs).isSome = true ↔ ∃ front back, cs = front ++ back ∧ (String.ofList front).utf8ByteSize = n := by
  induction n, cs using bytePrefix.induct with
  | case1 cs =>
      rw [bytePrefix]
      exact ⟨fun _ => ⟨[], cs, rfl, rfl⟩, fun _ => rfl⟩
  | case2 n =>
      rw [bytePrefix]
      refine ⟨fun h => absurd h Bool.false_ne_true, ?_⟩
      rintro ⟨front, back, hcs, hsize⟩
      obtain ⟨rfl, -⟩ := List.append_eq_nil_iff.mp hcs.symm
      cases hsize
  | case3 n c cs hle ih =>
      rw [bytePrefix, if_pos hle, Option.isSome_map, ih]
      constructor
      · rintro ⟨front, back, rfl, hsize⟩
        refine ⟨c :: front, back, rfl, ?_⟩
        rw [utf8ByteSize_ofList_cons, hsize, Nat.add_sub_cancel' hle]
      · rintro ⟨front, back, hcs, hsize⟩
        cases front with
        | nil => cases hsize
        | cons d front =>
            obtain ⟨rfl, rfl⟩ := List.cons.inj hcs
            rw [utf8ByteSize_ofList_cons] at hsize
            exact ⟨front, back, rfl, by omega⟩
  | case4 n c cs hlt =>
      rw [bytePrefix, if_neg hlt]
      refine ⟨fun h => absurd h Bool.false_ne_true, ?_⟩
      rintro ⟨front, back, hcs, hsize⟩
      -- the first character alone is too long
      cases front with
      | nil => cases hsize
      | cons d front =>
          obtain ⟨rfl, rfl⟩ := List.cons.inj hcs
          rw [utf8ByteSize_ofList_cons] at hsize
          omega

/-- **When `&hash[..8.min(hash.len())]` does not panic.** -/
theorem isSome_shortHash_iff (hash : String) : (shortHash hash).isSome = true ↔ SlicesAtEight hash := by
  rw [shortHash, Option.isSome_map, isSome_bytePrefix_iff]
  constructor
  · rintro ⟨front, back, hlist, hsize⟩
    by_cases hshort : hash.utf8ByteSize ≤ 8
    · exact .inl hshort
    · refine .inr ⟨String.ofList front, String.ofList back, ?_, by omega⟩
      rw [← String.ofList_append, ← hlist, String.ofList_toList]
  · rintro (hshort | ⟨front, back, rfl, hsize⟩)
    · refine ⟨hash.toList, [], (List.append_nil _).symm, ?_⟩
      rw [String.ofList_toList, Nat.min_eq_right hshort]
    · refine ⟨front.toList, back.toList, String.toList_append, ?_⟩
      rw [String.ofList_toList, String.utf8ByteSize_append]
      omega

theorem utf8Size_digitChar {n : Nat} (h : n < 16) : (Nat.digitChar n).utf8Size = 1 := by
  have key : ∀ n < 16, (Nat.digitChar n).utf8Size = 1 := by decide
  exact key n h

theorem hexEncode_append (bytes bytes' : List UInt8) :
    hexEncode (bytes ++ bytes') = hexEncode bytes ++ hexEncode bytes' := by
  unfold hexEncode
  rw [List.flatMap_append, String.ofList_append]

/-- Two bytes of hex for a byte. -/
theorem utf8ByteSize_hexEncode (bytes : List UInt8) : (hexEncode bytes).utf8ByteSize = 2 * bytes.length := by
  induction bytes with
  | nil => rfl
  | cons b bytes ih =>
      have hlt := b.toNat_lt
      unfold hexEncode at ih ⊢
      rw [List.flatMap_cons, List.cons_append, List.singleton_append, utf8ByteSize_ofList_cons,
        utf8ByteSize_ofList_cons, ih, utf8Size_digitChar (by omega), utf8Size_digitChar (by omega), List.length_cons]
      omega

/-- The hex of anything can be cut at every even byte, so at the eighth. -/
theorem slicesAtEight_hexEncode (bytes : List UInt8) : SlicesAtEight (hexEncode bytes) := by
  by_cases hshort : bytes.length ≤ 4
  · refine .inl ?_
    rw [utf8ByteSize_hexEncode]
    omega
  · refine .inr ⟨hexEncode (bytes.take 4), hexEncode (bytes.drop 4), ?_, ?_⟩
    · rw [← hexEncode_append, List.take_append_drop]
    · rw [utf8ByteSize_hexEncode, List.length_take]
      omega

/-! ## The queue -/

/-- The texts the branch of a violation slices. -/
def ByzantineViolation.sliced : ByzantineViolation → List String
  | .equivocationDetected _ _ blockHash1 blockHash2 => [blockHash1, blockHash2]
  | .doubleAnonymousVote _ _ => []
  | .conflictingViewChange _ _ _ => []
  | .invalidSignature _ voteHash => [voteHash]
  | .invalidZkProof _ => []

theorem isSome_evaluateDoubleVote_iff (sha3 : List UInt8 → String) (e : RecordingEngine) (now : UInt64)
    (actor hash1 hash2 : String) :
    (e.evaluateDoubleVote sha3 now actor hash1 hash2).isSome = true ↔ SlicesAtEight hash1 ∧ SlicesAtEight hash2 := by
  rw [← isSome_shortHash_iff, ← isSome_shortHash_iff]
  unfold evaluateDoubleVote
  cases shortHash hash1 with
  | none => simp
  | some short1 =>
      cases shortHash hash2 with
      | none => simp
      | some short2 => simp

/-- **One violation**: the loop gets through it exactly when its texts can be sliced, whatever was recorded. -/
theorem isSome_processViolation_iff (sha3 : List UInt8 → String) (e : RecordingEngine) (now : UInt64)
    (violation : ByzantineViolation) :
    (ByzantineDetector.processViolation sha3 e now violation).isSome = true ↔
      ∀ hash ∈ violation.sliced, SlicesAtEight hash := by
  have hquiet : ∀ hash ∈ ([] : List String), SlicesAtEight hash := fun _ h => absurd h List.not_mem_nil
  cases violation with
  | equivocationDetected voterId round hash1 hash2 =>
      have h := isSome_evaluateDoubleVote_iff sha3 e now voterId hash1 hash2
      unfold ByzantineDetector.processViolation ByzantineViolation.sliced
      rw [List.forall_mem_cons, List.forall_mem_singleton, ← h]
      cases hv : e.evaluateDoubleVote sha3 now voterId hash1 hash2 with
      | none => simp [hv]
      | some v => simp [hv]
  | doubleAnonymousVote nullifier round =>
      have hhex := slicesAtEight_hexEncode nullifier.toList
      have h := (isSome_evaluateDoubleVote_iff sha3 e now "anonymous" _ _).mpr ⟨hhex, hhex⟩
      refine ⟨fun _ => hquiet, fun _ => ?_⟩
      unfold ByzantineDetector.processViolation
      obtain ⟨v, hv⟩ := Option.isSome_iff_exists.mp h
      simp [hv]
  | conflictingViewChange senderId view1 view2 => exact ⟨fun _ => hquiet, fun _ => rfl⟩
  | invalidSignature voterId hash =>
      have h := isSome_shortHash_iff hash
      unfold ByzantineDetector.processViolation ByzantineViolation.sliced
      rw [List.forall_mem_singleton, ← h]
      cases hs : shortHash hash with
      | none => simp [hs]
      | some short => simp [hs]
  | invalidZkProof proofHash => exact ⟨fun _ => hquiet, fun _ => rfl⟩

/-- The loop stops at the first violation it does not get through. -/
theorem isSome_processAll_iff (sha3 : List UInt8 → String) (clock : Nat → UInt64) (e : RecordingEngine)
    (violations : List ByzantineViolation) :
    (ByzantineDetector.processAll sha3 clock e violations).isSome = true ↔
      ∀ violation ∈ violations, ∀ hash ∈ violation.sliced, SlicesAtEight hash := by
  induction violations generalizing clock e with
  | nil => exact ⟨fun _ _ h => absurd h List.not_mem_nil, fun _ => rfl⟩
  | cons violation violations ih =>
      have hone := isSome_processViolation_iff sha3 e (clock 0) violation
      rw [List.forall_mem_cons, ← hone]
      unfold ByzantineDetector.processAll
      cases ByzantineDetector.processViolation sha3 e (clock 0) violation with
      | none => simp
      | some r =>
          have hrest := ih (fun i => clock (i + 1)) r.1
          rw [← hrest]
          cases hall : ByzantineDetector.processAll sha3 (fun i => clock (i + 1)) r.1 violations with
          | none => simp [hall]
          | some r' => simp [hall]

/-- **When `process_violations` returns**: exactly when no pending block or vote hash has a character across its
eighth byte. -/
theorem processViolations_returns_iff (sha3 : List UInt8 → String) (d : ByzantineDetector) (clock : Nat → UInt64) :
    (d.processViolations sha3 clock).isSome = true ↔
      ∀ violation ∈ d.pendingViolations, ∀ hash ∈ violation.sliced, SlicesAtEight hash := by
  rw [ByzantineDetector.processViolations, Option.isSome_map, isSome_processAll_iff]

/-- A text of nine bytes with a character of two bytes across the eighth. -/
def cutHash : String := "1234567é"

/-- A detector that has seen two votes of one voter, the second for a block named `cutHash`, behind a reported
invalid signature of another. -/
def detectorWithCutHash : ByzantineDetector :=
  let vote (blockHash : String) : Bft.Vote := { voterId := "v", blockHash := blockHash, round := 0, signature := "sig" }
  (((ByzantineDetector.new.recordInvalidSignature "w" "vote_of_w").checkVote (vote "block_a")).1.checkVote
    (vote cutHash)).1

/-- The call aborts on the second violation, with the first in its hands. -/
theorem cut_hash_aborts_processing : ¬ ∀ (sha3 : List UInt8 → String) (d : ByzantineDetector) (clock : Nat → UInt64),
    (d.processViolations sha3 clock).isSome = true := by
  intro hall
  have habort : (detectorWithCutHash.processViolations (fun _ => "") fun _ => 0).isSome = false := by decide +kernel
  rw [hall] at habort
  cases habort

end WarmLogic.Consensus.Byzantine
