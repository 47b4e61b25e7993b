/-
# WarmLogic.Consensus.Slashing — proofs of violations and the record of the slashed, the rest of `slashing.rs`.

The engine records texts, the actor and the kind of violation with a colon between them. No name of a kind has a colon, so
the texts stand for pairs, and the engine answers every sequence of calls as a set of pairs would (`record_refines`).

A violation is judged on two paths: directly, by the engine's own rules, or by a signed proof, whose kind is given a
severity and then the penalty of a band. The two agree for three kinds only (`proof_penalty_eq_iff`): the severity of a
conflicting view change lies on the bound of the upper band, not above it.

SHA3-256 and ML-DSA-65 are parameters. A severity that the evidence gives is an `f64`, here its bits.

A severity is compared with two bounds by `>` on `f64`. For positive numbers the order of the bits is the order of the
numbers, and a `NaN` is above nothing; so the comparison needs the bits only (`f64Above`), and a severity from the
evidence may be any bit pattern.

`record_slash` is the one thing that keeps a verdict from being made twice, and not every path asks it
(`ByzantineVerdicts`). The refinement says what it is worth where it is asked: the answer is that of a set, for every
name an actor may have, colons included.
-/
import WarmLogic.Consensus.Byzantine
import WarmLogic.Lib.Service

namespace WarmLogic.Consensus.Byzantine

open WarmLogic.Lib
open WarmLogic.Ledger (ViolationType SlashingVerdict SlashingConfig SlashingEngine Penalty)
open WarmLogic.Federation (hexEncode)

/-! ## The record -/

namespace RecordingEngine

/-- A call on the record. -/
inductive RecordCall where
  | recordSlash (verdict : SlashingVerdict)
  | wasSlashed (actor : String) (violationType : ViolationType)
  | slashedCount

/-- What a call on the record answers. -/
inductive RecordAnswer where
  | flag (b : Bool)
  | count (n : Nat)
  deriving DecidableEq

/-- One call on the engine. -/
def call (e : RecordingEngine) : RecordCall → RecordingEngine × RecordAnswer
  | .recordSlash verdict => ((e.recordSlash verdict).1, .flag (e.recordSlash verdict).2)
  | .wasSlashed actor violationType => (e, .flag (e.wasSlashed actor violationType))
  | .slashedCount => (e, .count e.slashedCount)

/-- The set of pairs that the record stands for. -/
def callPairs (pairs : Finset (String × Option ViolationType)) :
    RecordCall → Finset (String × Option ViolationType) × RecordAnswer
  | .recordSlash verdict =>
      (insert (verdict.actor, verdict.violationType) pairs,
        .flag (decide ((verdict.actor, verdict.violationType) ∉ pairs)))
  | .wasSlashed actor violationType => (pairs, .flag (decide ((actor, some violationType) ∈ pairs)))
  | .slashedCount => (pairs, .count pairs.card)

theorem split_last {α : Type} {sep : α} {a b x y : List α} (hx : sep ∉ x) (hy : sep ∉ y)
    (h : a ++ sep :: x = b ++ sep :: y) : a = b ∧ x = y := by
  rcases List.append_eq_append_iff.mp h with ⟨c, rfl, hc⟩ | ⟨c, rfl, hc⟩
  · cases c with
    | nil => exact ⟨(List.append_nil a).symm, (List.cons.inj hc).2⟩
    | cons d c => exact absurd (by rw [(List.cons.inj hc).2]; simp) hx
  · cases c with
    | nil => exact ⟨List.append_nil b, (List.cons.inj hc).2.symm⟩
    | cons d c => exact absurd (by rw [(List.cons.inj hc).2]; simp) hy

/-- The name of a kind, or nothing. -/
def kindText (violationType : Option ViolationType) : List Char := ((violationType.map debugName).getD "").toList

theorem colon_notMem_kindText (violationType : Option ViolationType) : ':' ∉ kindText violationType := by
  rcases violationType with _ | violationType
  · decide
  · cases violationType <;> decide

theorem kindText_injective : Function.Injective kindText := by
  intro t u h
  rcases t with _ | t <;> rcases u with _ | u
  · rfl
  · cases u <;> exact absurd h (by decide)
  · cases t <;> exact absurd h (by decide)
  · cases t <;> cases u <;> first | rfl | exact absurd h (by decide)

/-- **A key stands for one pair**, whatever colons the actor's name has. -/
theorem slashKey_injective : Function.Injective fun p : String × Option ViolationType => slashKey p.1 p.2 := by
  rintro ⟨a, t⟩ ⟨b, u⟩ h
  have hlist : a.toList ++ ':' :: kindText t = b.toList ++ ':' :: kindText u := by
    have hkeys := congrArg String.toList h
    unfold slashKey at hkeys
    simp only [String.toList_append, List.append_assoc] at hkeys
    exact hkeys
  obtain ⟨hactor, hkind⟩ := split_last (colon_notMem_kindText t) (colon_notMem_kindText u) hlist
  rw [String.toList_inj.mp hactor, kindText_injective hkind]

/-- The record holds the keys of the pairs. -/
def Records (e : RecordingEngine) (pairs : Finset (String × Option ViolationType)) : Prop :=
  e.slashedActors = pairs.map ⟨_, slashKey_injective⟩

theorem Records.mem_iff {e : RecordingEngine} {pairs : Finset (String × Option ViolationType)} (h : e.Records pairs)
    (actor : String) (violationType : Option ViolationType) :
    slashKey actor violationType ∈ e.slashedActors ↔ (actor, violationType) ∈ pairs := by
  rw [h]
  exact Finset.mem_map' ⟨_, slashKey_injective⟩ (a := (actor, violationType))

theorem Records.call {e : RecordingEngine} {pairs : Finset (String × Option ViolationType)} (h : e.Records pairs)
    (c : RecordCall) : (e.call c).1.Records (callPairs pairs c).1 ∧ (e.call c).2 = (callPairs pairs c).2 := by
  cases c with
  | recordSlash verdict =>
      have hmem := h.mem_iff verdict.actor verdict.violationType
      show (e.recordSlash verdict).1.Records _ ∧ RecordAnswer.flag (e.recordSlash verdict).2 = .flag (decide (_ ∉ pairs))
      unfold recordSlash
      by_cases hseen : (verdict.actor, verdict.violationType) ∈ pairs
      · rw [if_pos (hmem.mpr hseen)]
        refine ⟨?_, ?_⟩
        · show e.Records (insert _ pairs)
          rwa [Finset.insert_eq_of_mem hseen]
        · rw [decide_eq_false (not_not_intro hseen)]
      · rw [if_neg fun hkey => hseen (hmem.mp hkey)]
        refine ⟨?_, ?_⟩
        · show insert _ e.slashedActors = (insert _ pairs).map _
          rw [Finset.map_insert, h]
          rfl
        · rw [decide_eq_true hseen]
  | wasSlashed actor violationType =>
      refine ⟨h, congrArg RecordAnswer.flag ?_⟩
      unfold wasSlashed
      exact decide_eq_decide.mpr (h.mem_iff actor (some violationType))
  | slashedCount =>
      refine ⟨h, congrArg RecordAnswer.count ?_⟩
      unfold slashedCount
      rw [h, Finset.card_map]

/-- **The record is a set of pairs**: every sequence of calls on a new engine is answered as on a set of actors and kinds of
violations that starts empty. -/
theorem record_refines (config : SlashingConfig) (calls : List RecordCall) :
    (serve RecordingEngine.call { config } calls).2 = (serve callPairs ∅ calls).2 := by
  have hrun : ((serve RecordingEngine.call { config } calls).1.Records (serve callPairs ∅ calls).1) ∧
      (serve RecordingEngine.call { config } calls).2 = (serve callPairs ∅ calls).2 :=
    serve_eq (fun _ _ c h _ => h.call c) (fun _ _ => trivial) rfl
  exact hrun.2

end RecordingEngine

/-! ## The direct evaluations -/

namespace RecordingEngine

/-- `evaluate_task_fraud`. -/
def evaluateTaskFraud (e : RecordingEngine) (now : UInt64) (actor taskId : String) : SlashingVerdict where
  reason := "Task completion fraud for task " ++ taskId
  penalty := .reputationSlash e.config.taskFraudReputationSlash
  actor := actor
  violationType := some .taskCompletionFraud
  evidenceHash := some taskId
  timestamp := now

/-- `evaluate_liveness_failure`. -/
def evaluateLivenessFailure (e : RecordingEngine) (now : UInt64) (actor context : String) : SlashingVerdict where
  reason := "Liveness failure: " ++ context
  penalty := .temporarySuspension e.config.livenessSuspensionEpochs
  actor := actor
  violationType := some .livenessFailure
  evidenceHash := none
  timestamp := now

end RecordingEngine

/-! ## Proofs of violations -/

/-- A violation with its evidence, signed by who reports it. -/
structure ViolationProof where
  violationType : ViolationType
  evidenceHash : Vector UInt8 32
  reporterSignature : List UInt8
  timestamp : UInt64
  reporterPubkey : String
  rawEvidence : List UInt8

/-- Why a proof is refused. -/
inductive SlashingError where
  | invalidEvidenceHash
  | invalidReporterSignature
  | invalidTimestamp
  | malformedEvidence
  deriving DecidableEq

/-- The bits of an `f64` that is more than the positive `f64` with these bits, and no `NaN`. -/
def f64Above (bound bits : Nat) : Bool := decide (bound < bits ∧ bits ≤ 0x7FF0000000000000)

/-- The bits of `0.95` and of `0.80`. -/
def upperBound : Nat := 0x3FEE666666666666
def lowerBound : Nat := 0x3FE999999999999A

section Proofs

variable (sha3 : List UInt8 → Vector UInt8 32) (verifyRaw : String → String → String → Bool)

namespace RecordingEngine

/-- `verify_proof`: the evidence against its hash, the timestamp against the clock, then the signature. -/
def verifyProof (now : UInt64) (proof : ViolationProof) : Except SlashingError Unit :=
  if sha3 proof.rawEvidence ≠ proof.evidenceHash then .error .invalidEvidenceHash
  else
    let timeDiff := if now < proof.timestamp then proof.timestamp - now else now - proof.timestamp
    if 3600 < timeDiff then .error .invalidTimestamp
    else
      let message := debugName proof.violationType ++ "||" ++ hexEncode proof.evidenceHash.toList ++ "||" ++
        toString proof.timestamp.toNat
      if verifyRaw proof.reporterPubkey message (hexEncode proof.reporterSignature) then .ok ()
      else .error .invalidReporterSignature

/-- The severity of a proven violation, in the bits of an `f64`: `1.0`, `0.9`, `0.95`, `0.85`, `0.70`, or what the evidence
says. -/
def provenSeverity (proof : ViolationProof) : Except SlashingError Nat :=
  match proof.violationType with
  | .policyViolation =>
      if proof.rawEvidence.length < 8 then .error .malformedEvidence
      else .ok (ofLeBytes (proof.rawEvidence.take 8))
  | .doubleVoting => .ok 0x3FF0000000000000
  | .invalidSignature => .ok 0x3FF0000000000000
  | .invalidZkProof => .ok 0x3FECCCCCCCCCCCCD
  | .attestationForgery => .ok 0x3FF0000000000000
  | .conflictingViewChange => .ok 0x3FEE666666666666
  | .taskCompletionFraud => .ok 0x3FEB333333333333
  | .livenessFailure => .ok 0x3FE6666666666666

/-- How a kind is named in the reason of a critical verdict. -/
def criticalName : ViolationType → String
  | .policyViolation => "policy"
  | .doubleVoting => "double voting"
  | .invalidSignature => "signature"
  | .invalidZkProof => "ZK proof"
  | .attestationForgery => "attestation"
  | .conflictingViewChange => "view change"
  | .taskCompletionFraud => "task fraud"
  | .livenessFailure => "liveness"

/-- How a kind is named in the reason of a verdict of the lower band. -/
def suspiciousName : ViolationType → String
  | .policyViolation => "policy"
  | .doubleVoting => "voting"
  | .invalidSignature => "signature"
  | .invalidZkProof => "ZK proof"
  | .attestationForgery => "attestation"
  | .conflictingViewChange => "view change"
  | .taskCompletionFraud => "task fraud"
  | .livenessFailure => "liveness"

/-- `evaluate_violation_with_proof`: the severity decides on the band, and band and kind on the penalty. -/
def evaluateViolationWithProof (e : RecordingEngine) (now : UInt64) (actor : String) (proof : ViolationProof) :
    Except SlashingError (Option SlashingVerdict) := do
  verifyProof sha3 verifyRaw now proof
  let severity ← provenSeverity proof
  if f64Above upperBound severity then
    return some
      { reason := "Critical " ++ criticalName proof.violationType ++ " violation with cryptographic proof"
        penalty := match proof.violationType with
          | .invalidSignature | .attestationForgery => .totalIsolation e.config.invalidSignatureBurn
          | _ => .stateLock
        actor := actor
        violationType := some proof.violationType
        evidenceHash := some (hexEncode proof.evidenceHash.toList)
        timestamp := proof.timestamp }
  else if f64Above lowerBound severity then
    return some
      { reason := "Suspicious " ++ suspiciousName proof.violationType ++ " pattern with cryptographic proof"
        penalty := match proof.violationType with
          | .doubleVoting => .economicBurn e.config.doubleVoteBurn
          | .invalidZkProof => .economicBurn e.config.invalidZkBurn
          | .taskCompletionFraud => .reputationSlash e.config.taskFraudReputationSlash
          | _ => .economicBurn 100
        actor := actor
        violationType := some proof.violationType
        evidenceHash := some (hexEncode proof.evidenceHash.toList)
        timestamp := proof.timestamp }
  else return none

/-- The penalty of a verdict that the engine comes to by itself, for the kinds that it judges. -/
inductive DirectPenalty (e : RecordingEngine) : ViolationType → Penalty → Prop
  | doubleVote {now : UInt64} {actor hash hash' : String} {v : SlashingVerdict} (sha3Hex : List UInt8 → String) :
      e.evaluateDoubleVote sha3Hex now actor hash hash' = some v → DirectPenalty e .doubleVoting v.penalty
  | invalidZkProof (now : UInt64) (actor proofHash : String) :
      DirectPenalty e .invalidZkProof (e.evaluateInvalidZkProof now actor proofHash).penalty
  | conflictingViewChange (now : UInt64) (actor : String) (view view' : UInt64) :
      DirectPenalty e .conflictingViewChange (evaluateConflictingViewChange now actor view view').penalty
  | invalidSignature (now : UInt64) (actor txId : String) :
      DirectPenalty e .invalidSignature (e.evaluateInvalidSignature now actor txId).penalty
  | taskFraud (now : UInt64) (actor taskId : String) :
      DirectPenalty e .taskCompletionFraud (e.evaluateTaskFraud now actor taskId).penalty
  | livenessFailure (now : UInt64) (actor context : String) :
      DirectPenalty e .livenessFailure (e.evaluateLivenessFailure now actor context).penalty

variable {sha3 verifyRaw} {e : RecordingEngine} {now : UInt64} {proof : ViolationProof} {penalty : Penalty}

/-- **A valid proof and the engine's own judgement** give one penalty for invalid signatures, invalid ZK proofs and task
fraud only. Double voting and conflicting view changes are punished differently, and a liveness failure not at all. -/
theorem proof_penalty_eq_iff (h : verifyProof sha3 verifyRaw now proof = .ok ())
    (hdirect : DirectPenalty e proof.violationType penalty) (actor : String) :
    (∃ v, e.evaluateViolationWithProof sha3 verifyRaw now actor proof = .ok (some v) ∧ v.penalty = penalty) ↔
      proof.violationType ∈ [.invalidSignature, .invalidZkProof, .taskCompletionFraud] := by
  unfold evaluateViolationWithProof provenSeverity
  rw [h]
  generalize proof.violationType = kind at hdirect
  cases hdirect with
  | doubleVote sha3Hex hv =>
      refine iff_of_false ?_ (by decide)
      rintro ⟨v', hv', hpenalty⟩
      obtain rfl := Option.some.inj (Except.ok.inj hv')
      unfold evaluateDoubleVote at hv
      obtain ⟨short1, -, hv⟩ := Option.bind_eq_some_iff.mp hv
      obtain ⟨short2, -, hv⟩ := Option.bind_eq_some_iff.mp hv
      obtain rfl := Option.some.inj hv
      cases hpenalty
  | invalidZkProof now actor proofHash => exact iff_of_true ⟨_, rfl, rfl⟩ (by decide)
  | conflictingViewChange now actor view view' =>
      -- its severity is the upper bound itself
      refine iff_of_false ?_ (by decide)
      rintro ⟨v', hv', hpenalty⟩
      obtain rfl := Option.some.inj (Except.ok.inj hv')
      cases hpenalty
  | invalidSignature now actor txId => exact iff_of_true ⟨_, rfl, rfl⟩ (by decide)
  | taskFraud now actor taskId => exact iff_of_true ⟨_, rfl, rfl⟩ (by decide)
  | livenessFailure now actor context =>
      refine iff_of_false ?_ (by decide)
      rintro ⟨v', hv', -⟩
      cases Except.ok.inj hv'

end RecordingEngine

end Proofs

end WarmLogic.Consensus.Byzantine
