/-
# WarmLogic.Zk.Governance — the circuits of governance decisions, quorums, capabilities, vetoes, attestations and snapshots.

Each circuit comes with what its own prover needs and with the public inputs that it accepts from any prover. The governance
circuit reads the first nine of ten field elements by index: where it names the model hash it reads the second half of the
node id, and the public inputs handed out beside a proof are one more than the circuit has (`governance_circuit`). In the
others the private part is not tied to the public one: what they accept is a matter of which public inputs are zero
(`quorum_circuits`).

For each circuit there are two readings. A prover that follows the program assigns the private values that the struct
holds; it gets a proof exactly if every constraint it generates holds of them (`Proves`). A prover that does not may
assign anything to the private variables; what it can have accepted is a set of public inputs (`Accepts`). The second
is what a verifier can rely on, and it is much weaker: a value that the program computes outside the circuit and
allocates as a private Boolean binds nobody.

So the quorum circuit multiplies approvals, denominators and totals, but compares nothing with the products; the
capability circuit never looks at a bit of its bitmap; and the approvals of the governance circuit are tied to the
threshold only by the condition that their difference plus 256 is not zero, which holds of all bytes (`valid_diff`).
What remains are the conditions that some public inputs are not zero.

The hash is a parameter: nothing is asked of it, since no circuit computes it.
-/
import WarmLogic.Zk.Types
import WarmLogic.Lib.R1cs

namespace WarmLogic.Zk

open WarmLogic.Lib
open WarmLogic.Lib.Synthesis
open WarmLogic.Lib.Synthesis.Gadgets

/-- The two elements of a hash that the circuits read directly. -/
def hashLow (hash : Hash) : Fr := fromLeBytes (hash.toList.take 16)

/-- The second half of a hash, as a number of 128 bits. -/
def hashHigh (hash : Hash) : Fr := fromLeBytes (hash.toList.drop 16)

/-! ## The governance circuit -/

/-- The circuit with the public inputs and what the prover keeps private. A count of approvals and a threshold are
bytes. -/
structure GovernanceCircuit where
  publicInputs : GovernancePublicInputs
  authorityLevel : UInt8
  threshold : UInt8
  approvalCount : UInt8
  hasVeto : Bool

namespace GovernanceCircuit

/-- The number that the program gives for its public inputs; the list it hands out has ten. -/
def numPublicInputs : ℕ := 9

def validate (c : GovernanceCircuit) : Except ZKError Unit :=
  if c.authorityLevel = 0 then .error (.constraintViolation "Authority level cannot be zero")
  else if c.approvalCount < c.threshold ∧ c.hasVeto = false then
    .error (.constraintViolation "Approval count below threshold without veto authority")
  else .ok ()

def getPublicInputs (c : GovernanceCircuit) : List Fr := c.publicInputs.toFieldElements

/-- The public inputs in the order of their allocation, then the private ones, then the constraints. The indices into
the field elements are those of the source: at 7 it reads the second half of the node id. -/
def generateConstraints [Gadgets Fr] (c : GovernanceCircuit) : Synthesis Fr Unit := do
  let publicElements := c.publicInputs.toFieldElements
  let decisionHashLow ← newInput (some (publicElements.getD 0 0))
  let _decisionHashHigh ← newInput (some (publicElements.getD 1 0))
  let policyHashLow ← newInput (some (publicElements.getD 2 0))
  let _policyHashHigh ← newInput (some (publicElements.getD 3 0))
  let _decisionType ← newInput (some (publicElements.getD 4 0))
  let epoch ← newInput (some (publicElements.getD 5 0))
  let _nodeIdPrefix ← newInput (some (publicElements.getD 6 0))
  let modelHashLow ← newInput (some (publicElements.getD 7 0))
  let _modelHashHigh ← newInput (some (publicElements.getD 8 0))
  let authorityLevel ← newWitness (some (c.authorityLevel.toNat : Fr))
  let threshold ← newWitness (some (c.threshold.toNat : Fr))
  let approvalCount ← newWitness (some (c.approvalCount.toNat : Fr))
  let hasVeto ← newBoolean c.hasVeto
  enforceNotEqual authorityLevel 0
  let approvalMet ← newBoolean (decide (c.approvalCount ≥ c.threshold))
  let orResult ← orBoolean approvalMet hasVeto
  enforceTrue orResult
  enforceNotEqual (approvalCount + 256 - threshold) 0
  -- the decision type is not constrained
  enforceNotEqual epoch 0
  enforceNotEqual decisionHashLow 0
  enforceNotEqual policyHashLow 0
  enforceNotEqual modelHashLow 0
  pure ()

end GovernanceCircuit

/-! ## Quorums and capabilities -/

/-- A quorum over a number of nodes, as a fraction. -/
structure QuorumCircuit where
  totalNodes : UInt32
  requiredQuorumNumerator : UInt32
  requiredQuorumDenominator : UInt32
  approvals : UInt32
  decisionHash : Hash

namespace QuorumCircuit

/-- The comparison of cross products, in 64 bits: two numbers of 32 bits do not overflow there. -/
def isQuorumMet (c : QuorumCircuit) : Bool :=
  decide (c.approvals.toNat * c.requiredQuorumDenominator.toNat ≥ c.requiredQuorumNumerator.toNat * c.totalNodes.toNat)

/-- Both products are computed and then dropped; what is enforced is the Boolean that the prover computed itself. -/
def generateConstraints [Gadgets Fr] (c : QuorumCircuit) : Synthesis Fr Unit := do
  let decisionHashLow ← newInput (some (hashLow c.decisionHash))
  let _decisionHashHigh ← newInput (some (hashHigh c.decisionHash))
  let totalNodes ← newInput (some (c.totalNodes.toNat : Fr))
  let approvals ← newInput (some (c.approvals.toNat : Fr))
  let numerator ← newWitness (some (c.requiredQuorumNumerator.toNat : Fr))
  let denominator ← newWitness (some (c.requiredQuorumDenominator.toNat : Fr))
  let _lhs ← mulVar approvals denominator
  let _rhs ← mulVar numerator totalNodes
  let quorumMet ← newBoolean c.isQuorumMet
  enforceTrue quorumMet
  enforceNotEqual decisionHashLow 0
  pure ()

end QuorumCircuit

/-- An agent with a bitmap of capabilities, of which it claims one. -/
structure CapabilityProofCircuit where
  agentIdHash : Hash
  claimedCapability : UInt8
  capabilityBitmap : UInt64

namespace CapabilityProofCircuit

/-- `has_capability`. The shift is by the capability modulo 64. -/
def hasCapability (c : CapabilityProofCircuit) : Bool :=
  (c.capabilityBitmap >>> c.claimedCapability.toUInt64) &&& 1 == 1

/-- The bitmap is allocated and not read again. -/
def generateConstraints [Gadgets Fr] (c : CapabilityProofCircuit) : Synthesis Fr Unit := do
  let agentIdLow ← newInput (some (hashLow c.agentIdHash))
  let _agentIdHigh ← newInput (some (hashHigh c.agentIdHash))
  let _claimedCapability ← newInput (some (c.claimedCapability.toNat : Fr))
  let _capabilityBitmap ← newWitness (some (c.capabilityBitmap.toNat : Fr))
  let hasCap ← newBoolean c.hasCapability
  enforceTrue hasCap
  enforceNotEqual agentIdLow 0
  pure ()

end CapabilityProofCircuit

/-! ## Vetoes, attestations and snapshots -/

/-- A veto over a decision by the one who knows a secret. -/
structure VetoCircuit where
  decisionHash : Hash
  authorityHash : Hash
  authoritySecret : Hash
  epoch : UInt64

namespace VetoCircuit

/-- The secret goes through a fifth power and two products; of the result it is shown only that it is not zero. -/
def generateConstraints [Gadgets Fr] (c : VetoCircuit) : Synthesis Fr Unit := do
  let decisionHashLow ← newInput (some (hashLow c.decisionHash))
  let _decisionHashHigh ← newInput (some (hashHigh c.decisionHash))
  let authorityHashLow ← newInput (some (hashLow c.authorityHash))
  let _authorityHashHigh ← newInput (some (hashHigh c.authorityHash))
  let epoch ← newInput (some (c.epoch.toNat : Fr))
  let authoritySecret ← newWitness (some (fromLeBytes c.authoritySecret.toList))
  let x2 ← mulVar authoritySecret authoritySecret
  let x4 ← mulVar x2 x2
  let x5 ← mulVar x4 authoritySecret
  let product ← mulVar (x5 + 7) (x5 + 13)
  enforceNotEqual (product + 42) 0
  enforceNotEqual decisionHashLow 0
  enforceNotEqual authorityHashLow 0
  enforceNotEqual epoch 0
  pure ()

end VetoCircuit

/-- An agent with three platform registers and the secret its id was computed from. -/
structure AttestationCircuit where
  agentIdHash : Hash
  attestationRoot : Hash
  timestamp : UInt64
  capabilityBitmap : UInt64
  pcr0 : Hash
  pcr1 : Hash
  pcr7 : Hash
  agentSecret : Hash
  nonce : Hash

namespace AttestationCircuit

variable (sha3 : List UInt8 → Hash)

/-- The id is the hash of secret and nonce, computed outside the circuit. -/
def computeAgentId (c : AttestationCircuit) : Hash := sha3 (c.agentSecret.toList ++ c.nonce.toList)

/-- The root of the tree over the three registers and a zero leaf. -/
def computeAttestationRoot (c : AttestationCircuit) : Hash :=
  let left := sha3 (c.pcr0.toList ++ c.pcr1.toList)
  let right := sha3 (c.pcr7.toList ++ List.replicate 32 0)
  sha3 (left.toList ++ right.toList)

def validate (c : AttestationCircuit) : Except ZKError Unit :=
  if c.computeAgentId sha3 ≠ c.agentIdHash then .error (.invalidWitness "Agent ID doesn't match secret")
  else if c.computeAttestationRoot sha3 ≠ c.attestationRoot then
    .error (.invalidWitness "Attestation root doesn't match PCRs")
  else if c.timestamp = 0 then .error (.invalidWitness "Invalid timestamp")
  else .ok ()

/-- None of the private values stands in a constraint. -/
def generateConstraints [Gadgets Fr] (c : AttestationCircuit) : Synthesis Fr Unit := do
  let agentIdLow ← newInput (some (hashLow c.agentIdHash))
  let _agentIdHigh ← newInput (some (hashHigh c.agentIdHash))
  let attestationRootLow ← newInput (some (hashLow c.attestationRoot))
  let _attestationRootHigh ← newInput (some (hashHigh c.attestationRoot))
  let timestamp ← newInput (some (c.timestamp.toNat : Fr))
  let capability ← newInput (some (c.capabilityBitmap.toNat : Fr))
  let _pcr0 ← newWitness (some (fromLeBytes c.pcr0.toList))
  let _pcr1 ← newWitness (some (fromLeBytes c.pcr1.toList))
  let _pcr7 ← newWitness (some (fromLeBytes c.pcr7.toList))
  let _agentSecret ← newWitness (some (fromLeBytes c.agentSecret.toList))
  let _nonce ← newWitness (some (fromLeBytes c.nonce.toList))
  enforceNotEqual agentIdLow 0
  enforceNotEqual attestationRootLow 0
  enforceNotEqual timestamp 0
  enforceNotEqual capability 0
  pure ()

end AttestationCircuit

/-- A snapshot of the state at an epoch, with the fingerprint of the hardware. -/
structure StateSnapshotCircuit where
  epoch : UInt64
  stateRoot : Hash
  hardwareFingerprint : Hash
  hsmSecret : Hash

namespace StateSnapshotCircuit

def getPublicInputs (c : StateSnapshotCircuit) : List Fr :=
  [(c.epoch.toNat : Fr), (splitHash c.stateRoot).1, (splitHash c.stateRoot).2, (splitHash c.hardwareFingerprint).1,
    (splitHash c.hardwareFingerprint).2]

/-- The epoch and the secret must not be zero; the two hashes are unconstrained. -/
def generateConstraints [Gadgets Fr] (c : StateSnapshotCircuit) : Synthesis Fr Unit := do
  let epoch ← newInput (some (c.epoch.toNat : Fr))
  let _stateRootLow ← newInput (some (splitHash c.stateRoot).1)
  let _stateRootHigh ← newInput (some (splitHash c.stateRoot).2)
  let _hwFingerprintLow ← newInput (some (splitHash c.hardwareFingerprint).1)
  let _hwFingerprintHigh ← newInput (some (splitHash c.hardwareFingerprint).2)
  let hsmSecret ← newWitness (some (fromLeBytes c.hsmSecret.toList))
  enforceNotEqual epoch 0
  enforceNotEqual hsmSecret 0
  pure ()

end StateSnapshotCircuit

/-! ## Conditions on public inputs -/

theorem natCast_u64_eq_zero {a : UInt64} : (a.toNat : Fr) = 0 ↔ a = 0 := by
  rw [← natCast_u64_eq_iff]
  exact iff_of_eq (congrArg _ Nat.cast_zero.symm)

/-! ## What a governance proof shows -/

/-- The conditions on the public inputs. The fourth is on the node, not on the model. -/
def GovernancePublicInputs.Acceptable (p : GovernancePublicInputs) : Prop :=
  p.epoch ≠ 0 ∧ p.decisionHash.toList.take 16 ≠ List.replicate 16 0 ∧
    p.policyHash.toList.take 16 ≠ List.replicate 16 0 ∧ p.nodeId.toList.drop 16 ≠ List.replicate 16 0

theorem GovernancePublicInputs.acceptable_iff {p : GovernancePublicInputs} :
    p.Acceptable ↔ (p.epoch.toNat : Fr) ≠ 0 ∧ (splitHash p.decisionHash).1 ≠ 0 ∧ (splitHash p.policyHash).1 ≠ 0 ∧
      (splitHash p.nodeId).2 ≠ 0 := by
  have hzero : (0 : Fr) = fromLeBytes (List.replicate 16 0) :=
    Nat.cast_zero.symm.trans (fromLeBytes_append_zeros [] 16).symm
  have hlen : (p.nodeId.toList.drop 16).length = 16 := by
    rw [List.length_drop, Vector.length_toList]
  have hnode : (splitHash p.nodeId).2 = 0 ↔ p.nodeId.toList.drop 16 = List.replicate 16 0 := by
    rw [splitHash_snd, hzero]
    exact fromLeBytes_eq_iff (hlen.trans List.length_replicate.symm) (by rw [hlen]; omega)
  unfold Acceptable
  simp only [ne_eq, splitHash_fst_eq_zero, natCast_u64_eq_zero, hnode]

namespace GovernanceCircuit

theorem validate_eq_ok (c : GovernanceCircuit) :
    c.validate = .ok () ↔ c.authorityLevel ≠ 0 ∧ (c.approvalCount ≥ c.threshold ∨ c.hasVeto = true) := by
  have hless : c.approvalCount < c.threshold ↔ ¬ c.approvalCount ≥ c.threshold := UInt8.not_le.symm
  unfold validate
  split
  · next h => exact iff_of_false (fun h' => by cases h') (fun h' => h'.1 h)
  · next hauth =>
      split
      · next h =>
          refine iff_of_false (fun h' => by cases h') (fun h' => ?_)
          rcases h'.2 with hmet | hveto
          · exact hless.mp h.1 hmet
          · rw [h.2] at hveto
            cases hveto
      · next h =>
          refine iff_of_true rfl ⟨hauth, ?_⟩
          by_cases hmet : c.approvalCount ≥ c.threshold
          · exact .inl hmet
          · exact .inr (Bool.eq_true_of_not_eq_false fun hveto => h ⟨hless.mpr hmet, hveto⟩)

/-- The condition that was to bind the approvals holds of all of them. -/
theorem valid_diff (c : GovernanceCircuit) : (c.approvalCount.toNat : Fr) + 256 - c.threshold.toNat ≠ 0 := by
  have ht := c.threshold.toNat_lt
  have ha := c.approvalCount.toNat_lt
  have hbound : 2 ^ 10 < frModulus := lt_trans (by norm_num) two_pow_lt_frModulus
  rw [Ne, sub_eq_zero]
  intro h
  have hcast : ((c.approvalCount.toNat + 256 : ℕ) : Fr) = c.threshold.toNat := by
    push_cast
    exact h
  rw [natCast_eq_iff (by omega) (by omega)] at hcast
  omega

variable [Gadgets Fr]

theorem proves_iff (c : GovernanceCircuit) (x : List Fr) :
    c.generateConstraints.Proves () x ↔
      x = c.getPublicInputs.take numPublicInputs ∧ c.validate = .ok () ∧ c.publicInputs.Acceptable := by
  have hauth : (c.authorityLevel.toNat : Fr) ≠ 0 ↔ c.authorityLevel ≠ 0 := by
    rw [Ne, Ne, ← natCast_u8_eq_iff]
    exact not_congr (iff_of_eq (congrArg _ Nat.cast_zero.symm))
  unfold generateConstraints getPublicInputs
  simp only [proves_newInput, proves_newWitness, proves_newBoolean, proves_orBoolean, proves_enforceTrue,
    proves_enforceNotEqual, proves_pure, hauth, Bool.or_eq_true, decide_eq_true_iff, c.valid_diff, validate_eq_ok,
    GovernancePublicInputs.acceptable_iff, true_and, ne_eq, not_false_eq_true]
  constructor
  · rintro ⟨_, rfl, _, rfl, _, rfl, _, rfl, _, rfl, _, rfl, _, rfl, _, rfl, _, rfl, ha, hor, h1, h2, h3, h4, rfl⟩
    exact ⟨rfl, ⟨ha, hor⟩, h1, h2, h3, h4⟩
  · rintro ⟨rfl, ⟨ha, hor⟩, h1, h2, h3, h4⟩
    exact ⟨_, rfl, _, rfl, _, rfl, _, rfl, _, rfl, _, rfl, _, rfl, _, rfl, _, rfl, ha, hor, h1, h2, h3, h4, rfl⟩

/-- Whatever its private values, the circuit reads nine public inputs. -/
theorem accepts_length {c : GovernanceCircuit} {x : List Fr} (h : c.generateConstraints.Accepts x) :
    x.length = numPublicInputs := by
  obtain ⟨u, hy⟩ := accepts_iff.mp h
  unfold generateConstraints at hy
  simp only [yields_newInput, yields_newWitness, yields_newBoolean, yields_orBoolean, yields_enforceTrue,
    yields_enforceNotEqual, yields_pure] at hy
  obtain ⟨_, _, rfl, _, _, rfl, _, _, rfl, _, _, rfl, _, _, rfl, _, _, rfl, _, _, rfl, _, _, rfl, _, _, rfl, hy⟩ := hy
  obtain ⟨_, _, _, _, -, _, -, -, -, -, -, -, -, rfl⟩ := hy
  rfl

/-- A prover that chooses the private values: any authority, and any approvals that are not 256 below the threshold. -/
theorem satisfies_of_acceptable (c : GovernanceCircuit) {p : GovernancePublicInputs} (h : p.Acceptable)
    {authority threshold approvals : Fr} (hauth : authority ≠ 0) (hdiff : approvals + 256 - threshold ≠ 0) :
    ∃ w, c.generateConstraints.satisfies (p.toFieldElements.take numPublicInputs)
      (authority :: threshold :: approvals :: w) = true := by
  obtain ⟨h1, h2, h3, h4⟩ := GovernancePublicInputs.acceptable_iff.mp h
  have htake : p.toFieldElements.take numPublicInputs =
      [(splitHash p.decisionHash).1, (splitHash p.decisionHash).2, (splitHash p.policyHash).1,
        (splitHash p.policyHash).2, (p.decisionType.toU64.toNat : Fr), (p.epoch.toNat : Fr), (splitHash p.nodeId).1,
        (splitHash p.nodeId).2, (splitHash p.modelHash).1] := rfl
  rw [htake]
  unfold generateConstraints
  simp only [satisfies_newInput, satisfies_newWitness]
  refine accepts_iff.mpr ⟨(), yields_newBoolean.mpr ⟨true, ?_⟩⟩
  rw [yields_enforceNotEqual, yields_newBoolean]
  refine ⟨hauth, true, ?_⟩
  simp only [yields_orBoolean, yields_enforceTrue, yields_enforceNotEqual, yields_pure]
  exact ⟨rfl, hdiff, h1, h2, h3, h4, trivial, trivial⟩

theorem accepts_iff_acceptable (c : GovernanceCircuit) (p : GovernancePublicInputs) :
    c.generateConstraints.Accepts (p.toFieldElements.take numPublicInputs) ↔ p.Acceptable := by
  constructor
  · intro h
    obtain ⟨u, hy⟩ := accepts_iff.mp h
    unfold generateConstraints GovernancePublicInputs.toFieldElements numPublicInputs at hy
    simp only [List.take_succ_cons, List.take_zero, yields_newInput, yields_newWitness, yields_newBoolean,
      yields_orBoolean, yields_enforceTrue, yields_enforceNotEqual, List.cons.injEq] at hy
    obtain ⟨_, _, ⟨rfl, rfl⟩, _, _, ⟨rfl, rfl⟩, _, _, ⟨rfl, rfl⟩, _, _, ⟨rfl, rfl⟩, _, _, ⟨rfl, rfl⟩, _, _, ⟨rfl, rfl⟩,
      _, _, ⟨rfl, rfl⟩, _, _, ⟨rfl, rfl⟩, _, _, ⟨rfl, rfl⟩, hy⟩ := hy
    obtain ⟨_, _, _, _, -, _, -, -, h1, h2, h3, h4, -⟩ := hy
    exact GovernancePublicInputs.acceptable_iff.mpr ⟨h1, h2, h3, h4⟩
  · intro h
    have hdiff : (1 : Fr) + 256 - 0 ≠ 0 := by
      rw [sub_zero]
      exact_mod_cast mt (natCast_eq_iff (m := 257) (n := 0) (lt_trans (by norm_num) two_pow_lt_frModulus)
        prime_frModulus.pos).mp (by norm_num)
    obtain ⟨w, hw⟩ := c.satisfies_of_acceptable h one_ne_zero hdiff
    exact ⟨_, hw⟩

/-- **The governance circuit, from both sides.** A prover that follows the program has a proof exactly when `validate`
passes and the public inputs are acceptable, and the circuit has one for all acceptable public inputs, with next to any
authority, threshold and approvals. For the public inputs that `prove_governance` hands out with a proof, ten of them, there
is no proof at all. -/
theorem governance_circuit (c : GovernanceCircuit) :
    (∀ x, c.generateConstraints.Proves () x ↔
      x = c.getPublicInputs.take numPublicInputs ∧ c.validate = .ok () ∧ c.publicInputs.Acceptable) ∧
    ∀ d : GovernanceCircuit,
      (c.generateConstraints.Accepts (d.getPublicInputs.take numPublicInputs) ↔ d.publicInputs.Acceptable) ∧
      (d.publicInputs.Acceptable → ∀ authority threshold approvals : Fr, authority ≠ 0 →
        approvals + 256 - threshold ≠ 0 → ∃ w, c.generateConstraints.satisfies
          (d.getPublicInputs.take numPublicInputs) (authority :: threshold :: approvals :: w) = true) ∧
      ¬ c.generateConstraints.Accepts d.getPublicInputs := by
  refine ⟨c.proves_iff, fun d => ⟨c.accepts_iff_acceptable _, ?_, ?_⟩⟩
  · exact fun h _ _ _ hauth hdiff => c.satisfies_of_acceptable h hauth hdiff
  · intro h
    have hten : d.getPublicInputs.length = 10 := rfl
    rw [accepts_length h] at hten
    cases hten

end GovernanceCircuit

/-! ## What a proof of one of the other circuits shows -/

/-- What the veto circuit computes from its secret. -/
def vetoDigest (secret : Fr) : Fr := (secret ^ 5 + 7) * (secret ^ 5 + 13) + 42

theorem vetoDigest_eq (s : Fr) : (s * s * (s * s) * s + 7) * (s * s * (s * s) * s + 13) + 42 = vetoDigest s := by
  unfold vetoDigest
  ring

/-- The digest of no secret is not zero. -/
theorem vetoDigest_zero : vetoDigest 0 ≠ 0 := by
  have h : vetoDigest 0 = ((133 : ℕ) : Fr) := by
    unfold vetoDigest
    norm_num
  rw [h, ← Nat.cast_zero, Ne, natCast_eq_iff (lt_trans (by norm_num) two_pow_lt_frModulus) prime_frModulus.pos]
  norm_num

variable [Gadgets Fr]

theorem QuorumCircuit.proves_iff (c : QuorumCircuit) (x : List Fr) :
    c.generateConstraints.Proves () x ↔
      x = [hashLow c.decisionHash, hashHigh c.decisionHash, (c.totalNodes.toNat : Fr), (c.approvals.toNat : Fr)] ∧
        c.isQuorumMet = true ∧ hashLow c.decisionHash ≠ 0 := by
  unfold QuorumCircuit.generateConstraints
  simp only [proves_newInput, proves_newWitness, proves_mulVar, proves_newBoolean, proves_enforceTrue,
    proves_enforceNotEqual, proves_pure, true_and]
  constructor
  · rintro ⟨_, rfl, _, rfl, _, rfl, _, rfl, hmet, hlow, rfl⟩
    exact ⟨rfl, hmet, hlow⟩
  · rintro ⟨rfl, hmet, hlow⟩
    exact ⟨_, rfl, _, rfl, _, rfl, _, rfl, hmet, hlow, rfl⟩

theorem QuorumCircuit.accepts_iff (c : QuorumCircuit) (x : List Fr) :
    c.generateConstraints.Accepts x ↔ ∃ low high total approvals, x = [low, high, total, approvals] ∧ low ≠ 0 := by
  rw [Synthesis.accepts_iff]
  unfold QuorumCircuit.generateConstraints
  simp only [yields_newInput, yields_newWitness, yields_mulVar, yields_newBoolean, yields_enforceTrue,
    yields_enforceNotEqual, yields_pure]
  constructor
  · rintro ⟨_, low, _, rfl, high, _, rfl, total, _, rfl, approvals, _, rfl, -, -, -, -, hlow, -, rfl⟩
    exact ⟨low, high, total, approvals, rfl, hlow⟩
  · rintro ⟨low, high, total, approvals, rfl, hlow⟩
    exact ⟨(), low, _, rfl, high, _, rfl, total, _, rfl, approvals, _, rfl, 0, 0, true, rfl, hlow, trivial, rfl⟩

theorem CapabilityProofCircuit.proves_iff (c : CapabilityProofCircuit) (x : List Fr) :
    c.generateConstraints.Proves () x ↔
      x = [hashLow c.agentIdHash, hashHigh c.agentIdHash, (c.claimedCapability.toNat : Fr)] ∧
        c.hasCapability = true ∧ hashLow c.agentIdHash ≠ 0 := by
  unfold CapabilityProofCircuit.generateConstraints
  simp only [proves_newInput, proves_newWitness, proves_newBoolean, proves_enforceTrue, proves_enforceNotEqual,
    proves_pure, true_and]
  constructor
  · rintro ⟨_, rfl, _, rfl, _, rfl, hcap, hlow, rfl⟩
    exact ⟨rfl, hcap, hlow⟩
  · rintro ⟨rfl, hcap, hlow⟩
    exact ⟨_, rfl, _, rfl, _, rfl, hcap, hlow, rfl⟩

theorem CapabilityProofCircuit.accepts_iff (c : CapabilityProofCircuit) (x : List Fr) :
    c.generateConstraints.Accepts x ↔ ∃ low high claimed, x = [low, high, claimed] ∧ low ≠ 0 := by
  rw [Synthesis.accepts_iff]
  unfold CapabilityProofCircuit.generateConstraints
  simp only [yields_newInput, yields_newWitness, yields_newBoolean, yields_enforceTrue, yields_enforceNotEqual,
    yields_pure]
  constructor
  · rintro ⟨_, low, _, rfl, high, _, rfl, claimed, _, rfl, -, -, -, hlow, -, rfl⟩
    exact ⟨low, high, claimed, rfl, hlow⟩
  · rintro ⟨low, high, claimed, rfl, hlow⟩
    exact ⟨(), low, _, rfl, high, _, rfl, claimed, _, rfl, 0, true, rfl, hlow, trivial, rfl⟩

theorem VetoCircuit.proves_iff (c : VetoCircuit) (x : List Fr) :
    c.generateConstraints.Proves () x ↔
      x = [hashLow c.decisionHash, hashHigh c.decisionHash, hashLow c.authorityHash, hashHigh c.authorityHash,
        (c.epoch.toNat : Fr)] ∧ vetoDigest (fromLeBytes c.authoritySecret.toList) ≠ 0 ∧
        hashLow c.decisionHash ≠ 0 ∧ hashLow c.authorityHash ≠ 0 ∧ c.epoch ≠ 0 := by
  unfold VetoCircuit.generateConstraints
  simp only [proves_newInput, proves_newWitness, proves_mulVar, proves_enforceNotEqual, proves_pure, vetoDigest_eq,
    true_and, ne_eq, natCast_u64_eq_zero]
  constructor
  · rintro ⟨_, rfl, _, rfl, _, rfl, _, rfl, _, rfl, hdigest, hlow, hauth, hepoch, rfl⟩
    exact ⟨rfl, hdigest, hlow, hauth, hepoch⟩
  · rintro ⟨rfl, hdigest, hlow, hauth, hepoch⟩
    exact ⟨_, rfl, _, rfl, _, rfl, _, rfl, _, rfl, hdigest, hlow, hauth, hepoch, rfl⟩

theorem VetoCircuit.accepts_iff (c : VetoCircuit) (x : List Fr) :
    c.generateConstraints.Accepts x ↔ ∃ low high authorityLow authorityHigh epoch,
      x = [low, high, authorityLow, authorityHigh, epoch] ∧ low ≠ 0 ∧ authorityLow ≠ 0 ∧ epoch ≠ 0 := by
  rw [Synthesis.accepts_iff]
  unfold VetoCircuit.generateConstraints
  simp only [yields_newInput, yields_newWitness, yields_mulVar, yields_enforceNotEqual, yields_pure, vetoDigest_eq]
  constructor
  · rintro ⟨_, low, _, rfl, high, _, rfl, alow, _, rfl, ahigh, _, rfl, epoch, _, rfl, -, -, hlow, halow, hepoch, -, rfl⟩
    exact ⟨low, high, alow, ahigh, epoch, rfl, hlow, halow, hepoch⟩
  · rintro ⟨low, high, alow, ahigh, epoch, rfl, hlow, halow, hepoch⟩
    exact ⟨(), low, _, rfl, high, _, rfl, alow, _, rfl, ahigh, _, rfl, epoch, _, rfl, 0, vetoDigest_zero, hlow, halow,
      hepoch, trivial, rfl⟩

theorem AttestationCircuit.proves_iff (c : AttestationCircuit) (x : List Fr) :
    c.generateConstraints.Proves () x ↔
      x = [hashLow c.agentIdHash, hashHigh c.agentIdHash, hashLow c.attestationRoot, hashHigh c.attestationRoot,
        (c.timestamp.toNat : Fr), (c.capabilityBitmap.toNat : Fr)] ∧ hashLow c.agentIdHash ≠ 0 ∧
        hashLow c.attestationRoot ≠ 0 ∧ c.timestamp ≠ 0 ∧ c.capabilityBitmap ≠ 0 := by
  unfold AttestationCircuit.generateConstraints
  simp only [proves_newInput, proves_newWitness, proves_enforceNotEqual, proves_pure, true_and, ne_eq,
    natCast_u64_eq_zero]
  constructor
  · rintro ⟨_, rfl, _, rfl, _, rfl, _, rfl, _, rfl, _, rfl, hlow, hroot, htime, hcap, rfl⟩
    exact ⟨rfl, hlow, hroot, htime, hcap⟩
  · rintro ⟨rfl, hlow, hroot, htime, hcap⟩
    exact ⟨_, rfl, _, rfl, _, rfl, _, rfl, _, rfl, _, rfl, hlow, hroot, htime, hcap, rfl⟩

theorem AttestationCircuit.accepts_iff (c : AttestationCircuit) (x : List Fr) :
    c.generateConstraints.Accepts x ↔ ∃ low high rootLow rootHigh timestamp capability,
      x = [low, high, rootLow, rootHigh, timestamp, capability] ∧ low ≠ 0 ∧ rootLow ≠ 0 ∧ timestamp ≠ 0 ∧
        capability ≠ 0 := by
  rw [Synthesis.accepts_iff]
  unfold AttestationCircuit.generateConstraints
  simp only [yields_newInput, yields_newWitness, yields_enforceNotEqual, yields_pure]
  constructor
  · rintro ⟨_, low, _, rfl, high, _, rfl, rlow, _, rfl, rhigh, _, rfl, time, _, rfl, cap, _, rfl, -, -, -, -, -, hlow,
      hroot, htime, hcap, -, rfl⟩
    exact ⟨low, high, rlow, rhigh, time, cap, rfl, hlow, hroot, htime, hcap⟩
  · rintro ⟨low, high, rlow, rhigh, time, cap, rfl, hlow, hroot, htime, hcap⟩
    exact ⟨(), low, _, rfl, high, _, rfl, rlow, _, rfl, rhigh, _, rfl, time, _, rfl, cap, _, rfl, 0, 0, 0, 0, 0, hlow,
      hroot, htime, hcap, trivial, rfl⟩

theorem StateSnapshotCircuit.proves_iff (c : StateSnapshotCircuit) (x : List Fr) :
    c.generateConstraints.Proves () x ↔
      x = c.getPublicInputs ∧ c.epoch ≠ 0 ∧ fromLeBytes c.hsmSecret.toList ≠ 0 := by
  unfold StateSnapshotCircuit.generateConstraints
  simp only [proves_newInput, proves_newWitness, proves_enforceNotEqual, proves_pure, true_and, ne_eq,
    natCast_u64_eq_zero]
  constructor
  · rintro ⟨_, rfl, _, rfl, _, rfl, _, rfl, _, rfl, hepoch, hsecret, rfl⟩
    exact ⟨rfl, hepoch, hsecret⟩
  · rintro ⟨rfl, hepoch, hsecret⟩
    exact ⟨_, rfl, _, rfl, _, rfl, _, rfl, _, rfl, hepoch, hsecret, rfl⟩

theorem StateSnapshotCircuit.accepts_iff (c : StateSnapshotCircuit) (x : List Fr) :
    c.generateConstraints.Accepts x ↔ ∃ epoch rootLow rootHigh hwLow hwHigh,
      x = [epoch, rootLow, rootHigh, hwLow, hwHigh] ∧ epoch ≠ 0 := by
  rw [Synthesis.accepts_iff]
  unfold StateSnapshotCircuit.generateConstraints
  simp only [yields_newInput, yields_newWitness, yields_enforceNotEqual, yields_pure]
  constructor
  · rintro ⟨_, epoch, _, rfl, rlow, _, rfl, rhigh, _, rfl, hlow, _, rfl, hhigh, _, rfl, -, hepoch, -, -, rfl⟩
    exact ⟨epoch, rlow, rhigh, hlow, hhigh, rfl, hepoch⟩
  · rintro ⟨epoch, rlow, rhigh, hlow, hhigh, rfl, hepoch⟩
    exact ⟨(), epoch, _, rfl, rlow, _, rfl, rhigh, _, rfl, hlow, _, rfl, hhigh, _, rfl, 1, hepoch, one_ne_zero, trivial, rfl⟩

/-- **What the other circuits show.** A prover that follows the quorum or the capability circuit needs the quorum, or the
capability; one of the veto, attestation or snapshot circuit little more than a secret whose digest, or which itself, is
not zero. The constraint systems need none of it: each has a proof for any public inputs of which some are not zero, as no
secret, register or nonce is tied to them. -/
theorem quorum_circuits :
    (∀ (c : QuorumCircuit) (x : List Fr),
      (c.generateConstraints.Proves () x ↔
        x = [hashLow c.decisionHash, hashHigh c.decisionHash, (c.totalNodes.toNat : Fr), (c.approvals.toNat : Fr)] ∧
          c.isQuorumMet = true ∧ hashLow c.decisionHash ≠ 0) ∧
      (c.generateConstraints.Accepts x ↔ ∃ low high total approvals, x = [low, high, total, approvals] ∧ low ≠ 0)) ∧
    (∀ (c : CapabilityProofCircuit) (x : List Fr),
      (c.generateConstraints.Proves () x ↔
        x = [hashLow c.agentIdHash, hashHigh c.agentIdHash, (c.claimedCapability.toNat : Fr)] ∧
          c.hasCapability = true ∧ hashLow c.agentIdHash ≠ 0) ∧
      (c.generateConstraints.Accepts x ↔ ∃ low high claimed, x = [low, high, claimed] ∧ low ≠ 0)) ∧
    (∀ (c : VetoCircuit) (x : List Fr),
      (c.generateConstraints.Proves () x ↔
        x = [hashLow c.decisionHash, hashHigh c.decisionHash, hashLow c.authorityHash, hashHigh c.authorityHash,
          (c.epoch.toNat : Fr)] ∧ vetoDigest (fromLeBytes c.authoritySecret.toList) ≠ 0 ∧
          hashLow c.decisionHash ≠ 0 ∧ hashLow c.authorityHash ≠ 0 ∧ c.epoch ≠ 0) ∧
      (c.generateConstraints.Accepts x ↔ ∃ low high authorityLow authorityHigh epoch,
        x = [low, high, authorityLow, authorityHigh, epoch] ∧ low ≠ 0 ∧ authorityLow ≠ 0 ∧ epoch ≠ 0)) ∧
    (∀ (c : AttestationCircuit) (x : List Fr),
      (c.generateConstraints.Proves () x ↔
        x = [hashLow c.agentIdHash, hashHigh c.agentIdHash, hashLow c.attestationRoot, hashHigh c.attestationRoot,
          (c.timestamp.toNat : Fr), (c.capabilityBitmap.toNat : Fr)] ∧ hashLow c.agentIdHash ≠ 0 ∧
          hashLow c.attestationRoot ≠ 0 ∧ c.timestamp ≠ 0 ∧ c.capabilityBitmap ≠ 0) ∧
      (c.generateConstraints.Accepts x ↔ ∃ low high rootLow rootHigh timestamp capability,
        x = [low, high, rootLow, rootHigh, timestamp, capability] ∧ low ≠ 0 ∧ rootLow ≠ 0 ∧ timestamp ≠ 0 ∧
          capability ≠ 0)) ∧
    ∀ (c : StateSnapshotCircuit) (x : List Fr),
      (c.generateConstraints.Proves () x ↔
        x = c.getPublicInputs ∧ c.epoch ≠ 0 ∧ fromLeBytes c.hsmSecret.toList ≠ 0) ∧
      (c.generateConstraints.Accepts x ↔ ∃ epoch rootLow rootHigh hwLow hwHigh,
        x = [epoch, rootLow, rootHigh, hwLow, hwHigh] ∧ epoch ≠ 0) :=
  ⟨fun c x => ⟨c.proves_iff x, c.accepts_iff x⟩, fun c x => ⟨c.proves_iff x, c.accepts_iff x⟩,
    fun c x => ⟨c.proves_iff x, c.accepts_iff x⟩, fun c x => ⟨c.proves_iff x, c.accepts_iff x⟩,
    fun c x => ⟨c.proves_iff x, c.accepts_iff x⟩⟩

end WarmLogic.Zk
