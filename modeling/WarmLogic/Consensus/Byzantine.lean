/-
# WarmLogic.Consensus.Byzantine — the Byzantine detector of `consensus/byzantine.rs`, with the part of `slashing.rs` it calls.

The detector is one record; a method on `&mut self` is a function from the detector to the new one and its result.
A `HashMap` is an association list without repeated keys, a `HashSet` a finite set. `sha3` is SHA3-256 in hex, and
the clock a verdict reads is an argument. A slice `&s[..n]` that ends inside a character panics: `none`.

`witness` is `None` in every verdict made here, as in those of the ledger, and stays out of the record. Of the
evaluations of `slashing.rs` only those the detector calls are modelled.

The two histories are read before they are written: a vote that agrees with its entry overwrites it with another
signature, one that disagrees leaves it alone and adds a violation. Violations wait until `process_violations` turns
each into a verdict; for two kinds the verdict is dropped where the actor was recorded before.
-/
import WarmLogic.Consensus.Bft
import WarmLogic.Federation.StateSync
import WarmLogic.Ledger.ReplicatedLedger
import Mathlib.Data.List.AList

namespace WarmLogic.Consensus.Byzantine

open WarmLogic.Consensus.Bft WarmLogic.Ledger
open WarmLogic.Federation (hexEncode)

/-! ## Slashing -/

/-- `SlashingEngine` with the set `slashed_actors`. -/
structure RecordingEngine extends SlashingEngine where
  slashedActors : Finset String := ∅

/-- `{:?}` of a violation type: the name of its variant. -/
def debugName : ViolationType → String
  | .policyViolation => "PolicyViolation"
  | .doubleVoting => "DoubleVoting"
  | .invalidSignature => "InvalidSignature"
  | .invalidZkProof => "InvalidZKProof"
  | .conflictingViewChange => "ConflictingViewChange"
  | .taskCompletionFraud => "TaskCompletionFraud"
  | .attestationForgery => "AttestationForgery"
  | .livenessFailure => "LivenessFailure"

/-- The first characters of a text, up to `n` bytes; `none` if the cut falls inside a character. -/
def bytePrefix : Nat → List Char → Option (List Char)
  | 0, _ => some []
  | _ + 1, [] => none
  | n + 1, c :: cs => if c.utf8Size ≤ n + 1 then (bytePrefix (n + 1 - c.utf8Size) cs).map (c :: ·) else none

/-- `&hash[..8.min(hash.len())]`. -/
def shortHash (hash : String) : Option String :=
  (bytePrefix (min 8 hash.utf8ByteSize) hash.toList).map String.ofList

namespace RecordingEngine

/-- `evaluate_double_vote`: the reason cuts both hashes to eight bytes, and the cut can fall inside a character. -/
def evaluateDoubleVote (sha3 : List UInt8 → String) (e : RecordingEngine) (now : UInt64)
    (actor voteHash1 voteHash2 : String) : Option SlashingVerdict := do
  let short1 ← shortHash voteHash1
  let short2 ← shortHash voteHash2
  some
    { reason := "Double voting detected: conflicting votes " ++ short1 ++ " and " ++ short2
      penalty := .economicBurn e.config.doubleVoteBurn
      actor := actor
      violationType := some .doubleVoting
      evidenceHash := some (sha3 (voteHash1.toUTF8.toList ++ voteHash2.toUTF8.toList))
      timestamp := now }

/-- `evaluate_invalid_zk_proof`. -/
def evaluateInvalidZkProof (e : RecordingEngine) (now : UInt64) (actor proofHash : String) : SlashingVerdict where
  reason := "Invalid ZK proof submitted"
  penalty := .economicBurn e.config.invalidZkBurn
  actor := actor
  violationType := some .invalidZkProof
  evidenceHash := some proofHash
  timestamp := now

/-- `evaluate_conflicting_view_change`. -/
def evaluateConflictingViewChange (now : UInt64) (actor : String) (view1 view2 : UInt64) : SlashingVerdict where
  reason := "Conflicting view change: views " ++ toString view1 ++ " and " ++ toString view2
  penalty := .stateLock
  actor := actor
  violationType := some .conflictingViewChange
  evidenceHash := some (toString view1 ++ ":" ++ toString view2)
  timestamp := now

/-- The key under which an actor is recorded for a kind of violation. -/
def slashKey (actor : String) (violationType : Option ViolationType) : String :=
  actor ++ ":" ++ (violationType.map debugName).getD ""

/-- `record_slash`; the flag says that the actor was not recorded for this kind before. -/
def recordSlash (e : RecordingEngine) (verdict : SlashingVerdict) : RecordingEngine × Bool :=
  let key := slashKey verdict.actor verdict.violationType
  if key ∈ e.slashedActors then (e, false)
  else ({ e with slashedActors := insert key e.slashedActors }, true)

/-- `was_slashed`, by the same key. -/
def wasSlashed (e : RecordingEngine) (actor : String) (violationType : ViolationType) : Bool :=
  decide (slashKey actor (some violationType) ∈ e.slashedActors)

/-- `slashed_count`. -/
def slashedCount (e : RecordingEngine) : Nat := e.slashedActors.card

end RecordingEngine

/-! ## The detector -/

/-- The kinds of violations that the detector finds or is told of. -/
inductive ByzantineViolation where
  | equivocationDetected (voterId : String) (round : UInt64) (blockHash1 blockHash2 : String)
  | doubleAnonymousVote (nullifier : Bytes32) (round : UInt64)
  | conflictingViewChange (senderId : String) (view1 view2 : UInt64)
  | invalidSignature (voterId voteHash : String)
  | invalidZkProof (proofHash : String)
  deriving DecidableEq

/-- The detector: what each voter voted for in each round, the last view each sender asked for, and what is to be
processed. -/
structure ByzantineDetector where
  voteHistory : AList (fun _ : String × UInt64 => String × String)
  viewChangeHistory : AList (fun _ : String => UInt64 × String)
  pendingViolations : List ByzantineViolation
  slashingEngine : RecordingEngine

namespace ByzantineDetector

def new : ByzantineDetector where
  voteHistory := ∅
  viewChangeHistory := ∅
  pendingViolations := []
  slashingEngine := {}

/-- `check_vote`. -/
def checkVote (d : ByzantineDetector) (vote : Vote) : ByzantineDetector × Option ByzantineViolation :=
  let key := (vote.voterId, vote.round)
  let recorded := { d with voteHistory := d.voteHistory.insert key (vote.blockHash, vote.signature) }
  match d.voteHistory.lookup key with
  | some (prevBlock, _) =>
      if prevBlock ≠ vote.blockHash then
        let violation := .equivocationDetected vote.voterId vote.round prevBlock vote.blockHash
        ({ d with pendingViolations := d.pendingViolations ++ [violation] }, some violation)
      else (recorded, none)
  | none => (recorded, none)

/-- `check_anonymous_vote`: the nullifiers are the caller's. -/
def checkAnonymousVote (d : ByzantineDetector) (vote : AnonymousVote) (existingNullifiers : Finset Bytes32) :
    ByzantineDetector × Option ByzantineViolation :=
  if vote.nullifier ∈ existingNullifiers then
    let violation := .doubleAnonymousVote vote.nullifier vote.round
    ({ d with pendingViolations := d.pendingViolations ++ [violation] }, some violation)
  else (d, none)

/-- `check_view_change`: any other view than the recorded one is a conflict, a later one included. -/
def checkViewChange (d : ByzantineDetector) (msg : ViewChangeMessage) :
    ByzantineDetector × Option ByzantineViolation :=
  let recorded := { d with viewChangeHistory := d.viewChangeHistory.insert msg.senderId (msg.newView, msg.signature) }
  match d.viewChangeHistory.lookup msg.senderId with
  | some (prevView, _) =>
      if prevView ≠ msg.newView then
        let violation := .conflictingViewChange msg.senderId prevView msg.newView
        ({ d with pendingViolations := d.pendingViolations ++ [violation] }, some violation)
      else (recorded, none)
  | none => (recorded, none)

/-- `record_invalid_signature`: the caller's word is taken. -/
def recordInvalidSignature (d : ByzantineDetector) (voterId voteHash : String) : ByzantineDetector :=
  { d with pendingViolations := d.pendingViolations ++ [.invalidSignature voterId voteHash] }

/-- `record_invalid_zk_proof`: a proof names nobody. -/
def recordInvalidZkProof (d : ByzantineDetector) (proofHash : String) : ByzantineDetector :=
  { d with pendingViolations := d.pendingViolations ++ [.invalidZkProof proofHash] }

/-- Keep a verdict only if its actor was not recorded for its kind before. -/
def recorded (e : RecordingEngine) (verdict : SlashingVerdict) : RecordingEngine × Option SlashingVerdict :=
  let (e', fresh) := e.recordSlash verdict
  (e', if fresh then some verdict else none)

/-- One turn of the loop of `process_violations`. Two kinds are recorded, three are not. -/
def processViolation (sha3 : List UInt8 → String) (e : RecordingEngine) (now : UInt64) :
    ByzantineViolation → Option (RecordingEngine × Option SlashingVerdict)
  | .equivocationDetected voterId _ blockHash1 blockHash2 => do
      let v ← e.evaluateDoubleVote sha3 now voterId blockHash1 blockHash2
      some (recorded e v)
  | .doubleAnonymousVote nullifier _ => do
      let nullifierHex := hexEncode nullifier.toList
      let v ← e.evaluateDoubleVote sha3 now "anonymous" nullifierHex nullifierHex
      some (e, some v)
  | .conflictingViewChange senderId view1 view2 =>
      some (recorded e (RecordingEngine.evaluateConflictingViewChange now senderId view1 view2))
  | .invalidSignature voterId voteHash => do
      let short ← shortHash voteHash
      some (e, some
        { reason := "Invalid signature on vote " ++ short
          penalty := .economicBurn 200
          actor := voterId
          violationType := some .invalidSignature
          evidenceHash := some voteHash
          timestamp := now })
  | .invalidZkProof proofHash => some (e, some (e.evaluateInvalidZkProof now "anonymous_prover" proofHash))

/-- The loop; the clock reads `clock 0` for the first violation, `clock 1` for the second, and so on. -/
def processAll (sha3 : List UInt8 → String) (clock : Nat → UInt64) (e : RecordingEngine) :
    List ByzantineViolation → Option (RecordingEngine × List SlashingVerdict)
  | [] => some (e, [])
  | violation :: violations => do
      let (e', verdict) ← processViolation sha3 e (clock 0) violation
      let (e'', verdicts) ← processAll sha3 (fun i => clock (i + 1)) e' violations
      some (e'', verdict.toList ++ verdicts)

/-- `process_violations`: on a panic the verdicts found so far are lost with the call. -/
def processViolations (sha3 : List UInt8 → String) (d : ByzantineDetector) (clock : Nat → UInt64) :
    Option (ByzantineDetector × List SlashingVerdict) :=
  (processAll sha3 clock d.slashingEngine d.pendingViolations).map fun r =>
    ({ d with pendingViolations := [], slashingEngine := r.1 }, r.2)

def pendingViolationCount (d : ByzantineDetector) : Nat := d.pendingViolations.length

/-- `clear_round_history`: all rounds are forgotten. -/
def clearRoundHistory (d : ByzantineDetector) : ByzantineDetector := { d with voteHistory := ∅ }

def clearViewChangeHistory (d : ByzantineDetector) : ByzantineDetector := { d with viewChangeHistory := ∅ }

def slashedCount (d : ByzantineDetector) : Nat := d.slashingEngine.slashedCount

def wasSlashed (d : ByzantineDetector) (actor : String) (violationType : ViolationType) : Bool :=
  d.slashingEngine.wasSlashed actor violationType

end ByzantineDetector

end WarmLogic.Consensus.Byzantine
