/-
# WarmLogic.Zk.Transition — the circuit of kernel state transitions, and what a proof of it shows.

The circuit takes four private quantities and, for each of the three bounds on them, a private slack that must equal the
difference. The slack is nowhere shown to be small, so every difference in the field has one. `transition_circuit` has both
sides: a prover that follows the program succeeds exactly on the transitions that `validate` passes, and a prover that does
not can use any quantities whatever, for all public inputs whose hashes and epoch are not zero and whose flags are 15.
-/
import WarmLogic.Zk.Types
import WarmLogic.Lib.R1cs

namespace WarmLogic.Zk

open WarmLogic.Lib
open WarmLogic.Lib.Synthesis
open WarmLogic.Lib.Synthesis.Gadgets

/-- `MAX_WEIGHT_DELTA`. -/
def maxWeightDelta : ℕ := 200

/-- `MIN_CONFIDENCE`. -/
def minConfidence : ℕ := 85

/-! ## Public inputs -/

/-- `TransitionPublicInputs`. -/
structure TransitionPublicInputs where
  preStateHash : Hash
  postStateHash : Hash
  actionHash : Hash
  epoch : UInt64
  nodeId : Hash
  invariantFlags : UInt8

/-- `to_field_elements`: nine elements, of the node the first 8 bytes only. -/
def TransitionPublicInputs.toFieldElements (p : TransitionPublicInputs) : List Fr :=
  [(splitHash p.preStateHash).1, (splitHash p.preStateHash).2, (splitHash p.postStateHash).1,
    (splitHash p.postStateHash).2, (splitHash p.actionHash).1, (splitHash p.actionHash).2, (p.epoch.toNat : Fr),
    (ofLeBytes (p.nodeId.toList.take 8) : ℕ), (p.invariantFlags.toNat : Fr)]

/-! ## The circuit -/

/-- `KernelStateTransitionCircuit`: the public values and the four private quantities. -/
structure KernelStateTransitionCircuit where
  publicInputs : TransitionPublicInputs
  entropyBefore : UInt64
  entropyAfter : UInt64
  weightDelta : UInt64
  confidenceScore : UInt64
  wasConstitutional : Bool

namespace KernelStateTransitionCircuit

/-- `validate`: the first bound that is broken. -/
def validate (c : KernelStateTransitionCircuit) : Except ZKError Unit :=
  if c.entropyAfter < c.entropyBefore then
    .error (.stateTransitionViolation "Entropy decreased: thermodynamic consistency violated")
  else if c.weightDelta.toNat > maxWeightDelta then
    .error (.stateTransitionViolation
      ("Weight delta " ++ toString c.weightDelta ++ " exceeds maximum " ++ toString maxWeightDelta))
  else if c.confidenceScore.toNat < minConfidence then
    .error (.stateTransitionViolation
      ("Confidence " ++ toString c.confidenceScore ++ " below minimum " ++ toString minConfidence))
  else if c.wasConstitutional = false then
    .error (.stateTransitionViolation "Transition is not constitutionally valid")
  else .ok ()

/-- `get_public_inputs`. -/
def getPublicInputs (c : KernelStateTransitionCircuit) : List Fr := c.publicInputs.toFieldElements

/-- The mask of the invariants that hold. -/
def computeInvariantFlags (c : KernelStateTransitionCircuit) : UInt8 :=
  (if c.entropyAfter ≥ c.entropyBefore then 1 else 0) ||| (if c.weightDelta.toNat ≤ maxWeightDelta then 2 else 0) |||
    (if c.confidenceScore.toNat ≥ minConfidence then 4 else 0) ||| (if c.wasConstitutional then 8 else 0)

/-- `generate_constraints`. The slacks are saturating differences. -/
def generateConstraints [Gadgets Fr] (c : KernelStateTransitionCircuit) : Synthesis Fr Unit := do
  let p := c.publicInputs
  let preHashLow ← newInput (some (splitHash p.preStateHash).1)
  let _preHashHigh ← newInput (some (splitHash p.preStateHash).2)
  let postHashLow ← newInput (some (splitHash p.postStateHash).1)
  let _postHashHigh ← newInput (some (splitHash p.postStateHash).2)
  let actionHashLow ← newInput (some (splitHash p.actionHash).1)
  let _actionHashHigh ← newInput (some (splitHash p.actionHash).2)
  let epoch ← newInput (some (p.epoch.toNat : Fr))
  let _nodeIdPrefix ← newInput (some (ofLeBytes (p.nodeId.toList.take 8) : ℕ))
  let invariantFlagsVar ← newInput (some (p.invariantFlags.toNat : Fr))
  let entropyBefore ← newWitness (some (c.entropyBefore.toNat : Fr))
  let entropyAfter ← newWitness (some (c.entropyAfter.toNat : Fr))
  let weightDelta ← newWitness (some (c.weightDelta.toNat : Fr))
  let confidenceScore ← newWitness (some (c.confidenceScore.toNat : Fr))
  let wasConstitutional ← newBoolean c.wasConstitutional
  -- entropy must not decrease
  let entropySlack ← newWitness (some ((c.entropyAfter.toNat - c.entropyBefore.toNat : ℕ) : Fr))
  enforceEqual (entropyAfter - entropyBefore) entropySlack
  -- the weight delta must be bounded
  let deltaSlack ← newWitness (some ((maxWeightDelta - c.weightDelta.toNat : ℕ) : Fr))
  enforceEqual ((maxWeightDelta : Fr) - weightDelta) deltaSlack
  -- the confidence must exceed the minimum
  let confSlack ← newWitness (some ((c.confidenceScore.toNat - minConfidence : ℕ) : Fr))
  enforceEqual (confidenceScore - (minConfidence : Fr)) confSlack
  enforceTrue wasConstitutional
  enforceNotEqual preHashLow 0
  enforceNotEqual postHashLow 0
  enforceNotEqual actionHashLow 0
  enforceNotEqual epoch 0
  enforceEqual invariantFlagsVar 15
  pure ()

end KernelStateTransitionCircuit

/-! ## What a proof shows -/

/-- The conditions on the public inputs alone. -/
def TransitionPublicInputs.Acceptable (p : TransitionPublicInputs) : Prop :=
  p.preStateHash.toList.take 16 ≠ List.replicate 16 0 ∧ p.postStateHash.toList.take 16 ≠ List.replicate 16 0 ∧
    p.actionHash.toList.take 16 ≠ List.replicate 16 0 ∧ p.epoch ≠ 0 ∧ p.invariantFlags = 15

/-- The conditions on the elements are those on the inputs. -/
theorem TransitionPublicInputs.acceptable_iff {p : TransitionPublicInputs} :
    p.Acceptable ↔ (splitHash p.preStateHash).1 ≠ 0 ∧ (splitHash p.postStateHash).1 ≠ 0 ∧
      (splitHash p.actionHash).1 ≠ 0 ∧ (p.epoch.toNat : Fr) ≠ 0 ∧ (p.invariantFlags.toNat : Fr) = 15 := by
  have hepoch : (p.epoch.toNat : Fr) = 0 ↔ p.epoch = 0 := by
    rw [← natCast_u64_eq_iff]
    exact iff_of_eq (congrArg _ Nat.cast_zero.symm)
  have hflags : (p.invariantFlags.toNat : Fr) = 15 ↔ p.invariantFlags = 15 := by
    rw [← natCast_u8_eq_iff]
    exact iff_of_eq (congrArg _ (Nat.cast_ofNat (n := 15)).symm)
  unfold Acceptable
  simp only [ne_eq, splitHash_fst_eq_zero, hepoch, hflags]

namespace KernelStateTransitionCircuit

/-- A slack is the difference as a field element just when nothing was saturated. -/
theorem natCast_sub_eq_iff {m n : ℕ} (hm : m < 2 ^ 64) (hn : n < 2 ^ 64) :
    (m : Fr) - n = ((m - n : ℕ) : Fr) ↔ n ≤ m := by
  have hbound : 2 ^ 64 < frModulus := lt_trans (by norm_num) two_pow_lt_frModulus
  constructor
  · intro h
    by_contra hlt
    rw [Nat.sub_eq_zero_of_le (by omega), Nat.cast_zero, sub_eq_zero, natCast_eq_iff (by omega) (by omega)] at h
    omega
  · exact fun h => (Nat.cast_sub h).symm

/-- Every bound is kept. -/
theorem validate_eq_ok (c : KernelStateTransitionCircuit) :
    c.validate = .ok () ↔ c.entropyBefore.toNat ≤ c.entropyAfter.toNat ∧ c.weightDelta.toNat ≤ maxWeightDelta ∧
      minConfidence ≤ c.confidenceScore.toNat ∧ c.wasConstitutional = true := by
  have hentropy : c.entropyAfter < c.entropyBefore ↔ c.entropyAfter.toNat < c.entropyBefore.toNat :=
    UInt64.lt_iff_toNat_lt
  unfold validate
  simp only [hentropy]
  split
  · exact iff_of_false (fun h => by cases h) (by omega)
  · split
    · exact iff_of_false (fun h => by cases h) (by omega)
    · split
      · exact iff_of_false (fun h => by cases h) (by omega)
      · split
        · next h => exact iff_of_false (fun h => by cases h) (fun hall => by rw [hall.2.2.2] at h; cases h)
        · next h => exact iff_of_true rfl ⟨by omega, by omega, by omega, by simpa using h⟩

variable [Gadgets Fr]

/-- The prover that follows the program. -/
theorem proves_iff (c : KernelStateTransitionCircuit) (x : List Fr) :
    c.generateConstraints.Proves () x ↔
      x = c.getPublicInputs ∧ c.validate = .ok () ∧ c.publicInputs.Acceptable := by
  have hentropy := natCast_sub_eq_iff c.entropyAfter.toNat_lt c.entropyBefore.toNat_lt
  have hdelta := natCast_sub_eq_iff (m := maxWeightDelta) (by decide) c.weightDelta.toNat_lt
  have hconf := natCast_sub_eq_iff (n := minConfidence) c.confidenceScore.toNat_lt (by decide)
  unfold generateConstraints
  simp only [proves_newInput, proves_newWitness, proves_newBoolean, proves_enforceEqual, proves_enforceTrue,
    proves_enforceNotEqual, proves_pure, hentropy, hdelta, hconf, validate_eq_ok,
    TransitionPublicInputs.acceptable_iff]
  constructor
  · rintro ⟨_, rfl, _, rfl, _, rfl, _, rfl, _, rfl, _, rfl, _, rfl, _, rfl, _, rfl, h⟩
    obtain ⟨he, hd, hc, ht, h1, h2, h3, h4, h5, -, rfl⟩ := h
    exact ⟨rfl, ⟨he, hd, hc, ht⟩, h1, h2, h3, h4, h5⟩
  · rintro ⟨rfl, ⟨he, hd, hc, ht⟩, h1, h2, h3, h4, h5⟩
    exact ⟨_, rfl, _, rfl, _, rfl, _, rfl, _, rfl, _, rfl, _, rfl, _, rfl, _, rfl, he, hd, hc, ht, h1, h2, h3, h4, h5,
      trivial, rfl⟩

/-- A prover that chooses the private quantities: any of them do, since each difference is a slack of its own. -/
theorem satisfies_of_acceptable (c : KernelStateTransitionCircuit) {p : TransitionPublicInputs} (h : p.Acceptable)
    (before after delta confidence : Fr) :
    ∃ w, c.generateConstraints.satisfies p.toFieldElements (before :: after :: delta :: confidence :: w) = true := by
  obtain ⟨h1, h2, h3, h4, h5⟩ := TransitionPublicInputs.acceptable_iff.mp h
  unfold generateConstraints TransitionPublicInputs.toFieldElements
  simp only [satisfies_newInput, satisfies_newWitness]
  refine accepts_iff.mpr ⟨(), yields_newBoolean.mpr ⟨true, ?_⟩⟩
  simp only [yields_newWitness, yields_enforceEqual, yields_enforceTrue, yields_enforceNotEqual, yields_pure]
  exact ⟨after - before, rfl, (maxWeightDelta : Fr) - delta, rfl, confidence - (minConfidence : Fr), rfl, trivial, h1, h2, h3,
    h4, h5, trivial, trivial⟩

/-- **What a proof shows**: that the public inputs are acceptable, and nothing about the quantities. -/
theorem accepts_iff_acceptable (c : KernelStateTransitionCircuit) (p : TransitionPublicInputs) :
    c.generateConstraints.Accepts p.toFieldElements ↔ p.Acceptable := by
  constructor
  · intro h
    obtain ⟨u, hy⟩ := accepts_iff.mp h
    unfold generateConstraints TransitionPublicInputs.toFieldElements at hy
    simp only [yields_newInput, yields_newWitness, yields_newBoolean, yields_enforceEqual, yields_enforceTrue,
      yields_enforceNotEqual, List.cons.injEq] at hy
    obtain ⟨_, _, ⟨rfl, rfl⟩, _, _, ⟨rfl, rfl⟩, _, _, ⟨rfl, rfl⟩, _, _, ⟨rfl, rfl⟩, _, _, ⟨rfl, rfl⟩, _, _, ⟨rfl, rfl⟩,
      _, _, ⟨rfl, rfl⟩, _, _, ⟨rfl, rfl⟩, _, _, ⟨rfl, rfl⟩, hy⟩ := hy
    obtain ⟨_, _, _, _, _, _, -, _, -, _, -, -, h1, h2, h3, h4, h5, -⟩ := hy
    exact TransitionPublicInputs.acceptable_iff.mpr ⟨h1, h2, h3, h4, h5⟩
  · intro h
    obtain ⟨w, hw⟩ := c.satisfies_of_acceptable h 0 0 0 0
    exact ⟨_, hw⟩

/-- **The transition circuit, from both sides.** A prover that follows the program has a proof exactly when the transition
is valid and its public inputs are acceptable. The circuit itself has one for all acceptable public inputs, of whatever
transition: with any entropies, any weight delta and any confidence. -/
theorem transition_circuit (c : KernelStateTransitionCircuit) :
    (∀ x, c.generateConstraints.Proves () x ↔
      x = c.getPublicInputs ∧ c.validate = .ok () ∧ c.publicInputs.Acceptable) ∧
    ∀ p : TransitionPublicInputs,
      (c.generateConstraints.Accepts p.toFieldElements ↔ p.Acceptable) ∧
      (p.Acceptable → ∀ before after delta confidence : Fr, ∃ w,
        c.generateConstraints.satisfies p.toFieldElements (before :: after :: delta :: confidence :: w) = true) :=
  ⟨c.proves_iff, fun p => ⟨c.accepts_iff_acceptable p, fun h => c.satisfies_of_acceptable h⟩⟩

end KernelStateTransitionCircuit

/-- **What the public inputs leave open**: the node, after its first 8 bytes, and nothing else. Every other field is
in an element that gives it back. -/
theorem transition_inputs_eq_iff (p q : TransitionPublicInputs) :
    p.toFieldElements = q.toFieldElements ↔
      p.preStateHash = q.preStateHash ∧ p.postStateHash = q.postStateHash ∧ p.actionHash = q.actionHash ∧
        p.epoch = q.epoch ∧ p.nodeId.toList.take 8 = q.nodeId.toList.take 8 ∧ p.invariantFlags = q.invariantFlags := by
  have hlen : ∀ r : TransitionPublicInputs, (r.nodeId.toList.take 8).length = 8 := fun r => by
    rw [List.length_take, Vector.length_toList]
    rfl
  have hnode : ((ofLeBytes (p.nodeId.toList.take 8) : ℕ) : Fr) = (ofLeBytes (q.nodeId.toList.take 8) : ℕ) ↔
      p.nodeId.toList.take 8 = q.nodeId.toList.take 8 :=
    fromLeBytes_eq_iff ((hlen p).trans (hlen q).symm) (by rw [hlen]; omega)
  unfold TransitionPublicInputs.toFieldElements
  simp only [List.cons.injEq, natCast_u64_eq_iff, natCast_u8_eq_iff, hnode, ← splitHash_inj, Prod.ext_iff, and_assoc,
    and_true]

end WarmLogic.Zk
