/-
# WarmLogic.Consensus.Bft — the BFT engine of `consensus/bft.rs`, function by function.

The engine is one record; every method that takes `&mut self` is a function from the engine to the new
engine (with its result where it has one). `u64` and `u32` are `UInt64` and `UInt32`, so arithmetic wraps as
in the release profile. ML-DSA verification is the parameter `verifyRaw` (public key, message, signature).
The governance verdict a proposal carries is stored and never read; its type is the parameter `δ`.

Where the source returns early with an error, the function returns the engine it had built up to there beside the
error: what a failed call leaves behind is part of what several results are about. The wall clock is an argument
wherever the source reads it. A `HashSet` of nullifiers is a finite set; votes and messages stay in vectors, whose
order matters to `complete_view_change`.
-/
import Mathlib.Data.Finset.Basic
import Mathlib.Algebra.Group.Nat.Defs

namespace WarmLogic.Consensus.Bft

/-! ## Constants and messages -/

/-- `MAX_VOTES_PER_ROUND`. -/
def maxVotesPerRound : Nat := 100

/-- `DEFAULT_VIEW_CHANGE_TIMEOUT_MS`. -/
def defaultViewChangeTimeoutMs : UInt64 := 5000

/-- `MAX_CONSECUTIVE_VIEW_CHANGES`. -/
def maxConsecutiveViewChanges : UInt32 := 10

/-- A 32-byte array, `[u8; 32]`. -/
abbrev Bytes32 := Vector UInt8 32

/-- A vote of a named voter. -/
structure Vote where
  voterId : String
  blockHash : String
  round : UInt64
  signature : String
  decisionHash : Option Bytes32 := none
  deriving DecidableEq

/-- A vote with a proof and a nullifier in the place of a name. -/
structure AnonymousVote where
  blockHash : String
  round : UInt64
  zkProof : List UInt8
  nullifier : Bytes32
  deriving DecidableEq

inductive ViewChangeStatus where
  | normal
  | pending
  | inProgress
  | completed
  | failed
  deriving DecidableEq

/-- A request for another view, with what its sender had prepared. -/
structure ViewChangeMessage where
  newView : UInt64
  senderId : String
  lastPreparedRound : Option UInt64
  lastPreparedBlock : Option String
  signature : String
  timestampMs : UInt64
  deriving DecidableEq

/-- The announcement of a view by its leader, with the requests it rests on. -/
structure NewViewMessage where
  view : UInt64
  leaderId : String
  viewChangeProofs : List ViewChangeMessage
  preparedBlock : Option String
  startingRound : UInt64
  signature : String
  deriving DecidableEq

/-- The errors the engine returns. The source builds a text; a constructor carries exactly the values that
text interpolates. -/
inductive BftError where
  /-- "Stale view change: current={}, received={}" -/
  | staleViewChange (current received : UInt64)
  /-- "Stale view change message (replay detected): timestamp={}, last_processed={}" -/
  | replayedViewChange (timestamp lastProcessed : UInt64)
  /-- "Too many view change messages" -/
  | tooManyViewChangeMessages
  /-- "Invalid view change signature" -/
  | invalidViewChangeSignature
  /-- "Invalid leader: expected {:?}, got {}" -/
  | invalidLeader (expected : Option String) (got : String)
  /-- "Insufficient view change quorum" -/
  | insufficientViewChangeQuorum
  /-- "Stale new view: current={}, received={}" -/
  | staleNewView (current received : UInt64)
  /-- "Invalid leader in NEW_VIEW: expected {:?}, got {}" -/
  | invalidNewViewLeader (expected : Option String) (got : String)
  /-- "Insufficient proofs: need {}, got {}" -/
  | insufficientProofs (need got : Nat)
  /-- "Too many consecutive view changes" -/
  | tooManyConsecutiveViewChanges
  /-- "Invalid vote signature" -/
  | invalidVoteSignature
  /-- "Vote round mismatch: expected {}, got {}" -/
  | voteRoundMismatch (expected got : UInt64)
  /-- "Vote round mismatch" (the anonymous path names no rounds) -/
  | anonymousRoundMismatch
  /-- "Vote for wrong block" -/
  | voteForWrongBlock
  /-- "MAX_VOTES_PER_ROUND exceeded" -/
  | maxVotesExceeded
  /-- "Double membership vote detected" -/
  | doubleMembershipVote
  /-- "Invalid or missing ZK membership proof" -/
  | missingZkProof
  deriving DecidableEq

/-! ## The engine -/

structure BFTEngine (δ : Type) where
  round : UInt64
  votes : List Vote
  quorumSize : Nat
  currentProposal : Option String
  currentDecision : Option δ
  anonymousVotes : List AnonymousVote
  nullifiers : Finset Bytes32
  view : UInt64
  validators : List String
  leaderId : Option String
  viewChangeStatus : ViewChangeStatus
  viewChangeMessages : List ViewChangeMessage
  consecutiveViewChanges : UInt32
  lastCommittedRound : UInt64
  lastCommittedBlock : Option String
  viewChangeTimeoutMs : UInt64
  lastActivityMs : UInt64
  viewChangeStartedMs : Option UInt64
  lastViewChangeTimestamp : UInt64

namespace BFTEngine

variable {δ : Type}

/-- `with_validators`; the first validator leads view 0. -/
def withValidators (quorumSize : Nat) (validators : List String) : BFTEngine δ where
  round := 0
  votes := []
  quorumSize := quorumSize
  currentProposal := none
  currentDecision := none
  anonymousVotes := []
  nullifiers := ∅
  view := 0
  validators := validators
  leaderId := validators.head?
  viewChangeStatus := .normal
  viewChangeMessages := []
  consecutiveViewChanges := 0
  lastCommittedRound := 0
  lastCommittedBlock := none
  viewChangeTimeoutMs := defaultViewChangeTimeoutMs
  lastActivityMs := 0
  viewChangeStartedMs := none
  lastViewChangeTimestamp := 0

/-- `new`: the same record with no validators (and so no leader). -/
def new (quorumSize : Nat) : BFTEngine δ := withValidators quorumSize []

/-- `start_round`: the votes of the old round go, and so does the proposal. -/
def startRound (e : BFTEngine δ) (round : UInt64) : BFTEngine δ :=
  { e with
    round := round
    votes := []
    anonymousVotes := []
    nullifiers := ∅
    currentProposal := none }

/-! ## View change -/

/-- `get_leader_for_view`: the validators take turns. -/
def getLeaderForView (e : BFTEngine δ) (view : UInt64) : Option String :=
  if e.validators.isEmpty then none else e.validators[view.toNat % e.validators.length]?

/-- The leader of the current view. -/
def currentLeader (e : BFTEngine δ) : Option String := e.getLeaderForView e.view

/-- `is_leader`; without validators nobody is. -/
def isLeader (e : BFTEngine δ) (nodeId : String) : Bool :=
  (e.currentLeader.map (· == nodeId)).getD false

/-- `trigger_view_change`; `nowMs` is the wall clock the source reads. -/
def triggerViewChange (e : BFTEngine δ) (senderId signature : String) (nowMs : UInt64) :
    BFTEngine δ × ViewChangeMessage :=
  let msg : ViewChangeMessage :=
    { newView := e.view + 1
      senderId := senderId
      lastPreparedRound := if e.lastCommittedRound > 0 then some e.lastCommittedRound else none
      lastPreparedBlock := e.lastCommittedBlock
      signature := signature
      timestampMs := nowMs }
  ({ e with
      viewChangeStatus := .pending
      viewChangeMessages := e.viewChangeMessages ++ [msg] }, msg)

/-- `has_view_change_quorum`: it counts the messages for the next view, whoever sent them. -/
def hasViewChangeQuorum (e : BFTEngine δ) : Bool :=
  decide (e.quorumSize ≤ (e.viewChangeMessages.filter (fun m => m.newView == e.view + 1)).length)

/-- `process_view_change`: the checks in the order of the source. A second message of a sender for a view is answered
with the state of the quorum and not stored; the signature covers view and sender only. -/
def processViewChange (verifyRaw : String → String → String → Bool) (e : BFTEngine δ)
    (msg : ViewChangeMessage) (publicKeyHex : String) : BFTEngine δ × Except BftError Bool :=
  if msg.newView ≤ e.view then
    (e, .error (.staleViewChange e.view msg.newView))
  else if msg.timestampMs < e.lastViewChangeTimestamp then
    (e, .error (.replayedViewChange msg.timestampMs e.lastViewChangeTimestamp))
  else if e.viewChangeMessages.any (fun m => m.senderId == msg.senderId && m.newView == msg.newView) then
    (e, .ok e.hasViewChangeQuorum)
  else if maxVotesPerRound ≤ e.viewChangeMessages.length then
    (e, .error .tooManyViewChangeMessages)
  else if !verifyRaw publicKeyHex (toString msg.newView ++ ":" ++ msg.senderId) msg.signature then
    (e, .error .invalidViewChangeSignature)
  else
    let e' := { e with
      lastViewChangeTimestamp := msg.timestampMs
      viewChangeMessages := e.viewChangeMessages ++ [msg]
      viewChangeStatus := .pending }
    (e', .ok e'.hasViewChangeQuorum)

/-- `apply_new_view`. The last check comes after the view was installed: its error leaves the change in
place. -/
def applyNewView (e : BFTEngine δ) (msg : NewViewMessage) : BFTEngine δ × Except BftError Unit :=
  if msg.view ≤ e.view then
    (e, .error (.staleNewView e.view msg.view))
  else if e.getLeaderForView msg.view ≠ some msg.leaderId then
    (e, .error (.invalidNewViewLeader (e.getLeaderForView msg.view) msg.leaderId))
  else if msg.viewChangeProofs.length < e.quorumSize then
    (e, .error (.insufficientProofs e.quorumSize msg.viewChangeProofs.length))
  else
    let e' := { e with
      view := msg.view
      leaderId := some msg.leaderId
      round := msg.startingRound
      currentProposal := msg.preparedBlock
      viewChangeStatus := .completed
      viewChangeMessages := []
      consecutiveViewChanges := e.consecutiveViewChanges + 1
      votes := []
      anonymousVotes := []
      nullifiers := ∅ }
    if e'.consecutiveViewChanges > maxConsecutiveViewChanges then
      ({ e' with viewChangeStatus := .failed }, .error .tooManyConsecutiveViewChanges)
    else (e', .ok ())

/-- `Iterator::max_by_key` on the prepared rounds: the LAST of several equal maxima wins. -/
def maxByRound : List (Option String × UInt64) → Option (Option String × UInt64)
  | [] => none
  | p :: ps => some (ps.foldl (fun best q => if best.2 ≤ q.2 then q else best) p)

/-- `complete_view_change`: the best report of all collected messages, and the first `quorum_size` of them as proofs.
-/
def completeViewChange (e : BFTEngine δ) (leaderId signature : String) :
    BFTEngine δ × Except BftError NewViewMessage :=
  let newView := e.view + 1
  if e.getLeaderForView newView ≠ some leaderId then
    (e, .error (.invalidLeader (e.getLeaderForView newView) leaderId))
  else if !e.hasViewChangeQuorum then
    (e, .error .insufficientViewChangeQuorum)
  else
    let collected := e.viewChangeMessages.filter (fun m => m.newView == newView)
    let prepared := (maxByRound (collected.filterMap fun m =>
      m.lastPreparedRound.map fun r => (m.lastPreparedBlock, r))).getD (none, e.round)
    let msg : NewViewMessage :=
      { view := newView
        leaderId := leaderId
        viewChangeProofs := collected.take e.quorumSize
        preparedBlock := prepared.1
        startingRound := prepared.2
        signature := signature }
    match e.applyNewView msg with
    | (e', .ok ()) => (e', .ok msg)
    | (e', .error err) => (e', .error err)

/-- `reset_view_change_counter`, which also takes back the status `Failed`. -/
def resetViewChangeCounter (e : BFTEngine δ) : BFTEngine δ :=
  { e with consecutiveViewChanges := 0, viewChangeStatus := .normal }

/-! ## Timeouts -/

/-- `reset_timeout`. -/
def resetTimeout (e : BFTEngine δ) : BFTEngine δ :=
  { e with viewChangeTimeoutMs := defaultViewChangeTimeoutMs, viewChangeStartedMs := none }

/-- `record_commit`: one pair is remembered, whatever round it had before. -/
def recordCommit (e : BFTEngine δ) (round : UInt64) (blockHash : String) : BFTEngine δ :=
  resetTimeout (resetViewChangeCounter
    { e with lastCommittedRound := round, lastCommittedBlock := some blockHash })

/-- `update_activity`. -/
def updateActivity (e : BFTEngine δ) (currentTimeMs : UInt64) : BFTEngine δ :=
  { e with lastActivityMs := currentTimeMs }

/-- `check_timeout`: never while the status is `Failed`, and never before the first activity. -/
def checkTimeout (e : BFTEngine δ) (currentTimeMs : UInt64) : Bool :=
  if e.viewChangeStatus = .failed then false
  else if e.lastActivityMs = 0 then false
  else
    -- `saturating_sub`: a clock that went backwards counts as no time elapsed
    let elapsed := if e.lastActivityMs ≤ currentTimeMs then currentTimeMs - e.lastActivityMs else 0
    decide (e.viewChangeTimeoutMs ≤ elapsed)

/-- `get_current_timeout`: doubling with each failed view, at most 64-fold, capped at five minutes (the
saturation of the source's product is never reached). -/
def getCurrentTimeout (e : BFTEngine δ) : UInt64 :=
  let multiplier : UInt64 := UInt64.ofNat (2 ^ min e.consecutiveViewChanges.toNat 6)
  min (defaultViewChangeTimeoutMs * multiplier) 300000

/-- `apply_exponential_backoff`; the counter saturates here. -/
def applyExponentialBackoff (e : BFTEngine δ) : BFTEngine δ :=
  let bumped := { e with
    consecutiveViewChanges :=
      if e.consecutiveViewChanges = 4294967295 then e.consecutiveViewChanges
      else e.consecutiveViewChanges + 1 }
  { bumped with viewChangeTimeoutMs := bumped.getCurrentTimeout }

/-- `check_and_trigger_timeout`: the timeout fires, and is longer the next time. -/
def checkAndTriggerTimeout (e : BFTEngine δ) (currentTimeMs : UInt64) (senderId signature : String)
    (nowMs : UInt64) : BFTEngine δ × Option ViewChangeMessage :=
  if e.checkTimeout currentTimeMs then
    let r := triggerViewChange { e with viewChangeStartedMs := some currentTimeMs } senderId signature
      nowMs
    (r.1.applyExponentialBackoff, some r.2)
  else (e, none)

/-! ## Proposals and votes -/

/-- `propose` replaces whatever was proposed before. -/
def propose (e : BFTEngine δ) (blockHash : String) (decision : Option δ) : BFTEngine δ :=
  { e with currentProposal := some blockHash, currentDecision := decision }

/-- `has_quorum`: named and anonymous votes together, whatever they are for. -/
def hasQuorum (e : BFTEngine δ) : Bool :=
  decide (e.quorumSize ≤ e.votes.length + e.anonymousVotes.length)

/-- The text a vote is signed over: block and round. -/
def verifyVoteSignature (verifyRaw : String → String → String → Bool) (vote : Vote)
    (publicKeyHex : String) : Bool :=
  verifyRaw publicKeyHex (vote.blockHash ++ ":" ++ toString vote.round) vote.signature

/-- The block-hash check every vote path makes: only against a proposal that is already there. -/
def wrongBlock (e : BFTEngine δ) (blockHash : String) : Bool :=
  match e.currentProposal with
  | some proposal => blockHash != proposal
  | none => false

/-- The tail three vote paths share: replace this voter's earlier vote in place, else append unless the
round is full (`none`). -/
def recordVote (votes : List Vote) (vote : Vote) : Option (List Vote) :=
  match votes.findIdx? (fun v => v.voterId == vote.voterId) with
  | some pos => some (votes.set pos vote)
  | none => if maxVotesPerRound ≤ votes.length then none else some (votes ++ [vote])

/-- `cast_vote`, the deprecated path without a signature check. -/
def castVote (e : BFTEngine δ) (vote : Vote) : BFTEngine δ × Bool :=
  if vote.round ≠ e.round then (e, false)
  else if e.wrongBlock vote.blockHash then (e, false)
  else match recordVote e.votes vote with
    | none => (e, false)
    | some votes =>
        let e' := { e with votes := votes }
        (e', e'.hasQuorum)

/-- `cast_vote_verified`: the signature before round, block and limit. -/
def castVoteVerified (verifyRaw : String → String → String → Bool) (e : BFTEngine δ) (vote : Vote)
    (publicKeyHex : String) : BFTEngine δ × Except BftError Bool :=
  if !verifyVoteSignature verifyRaw vote publicKeyHex then (e, .error .invalidVoteSignature)
  else if vote.round ≠ e.round then (e, .error (.voteRoundMismatch e.round vote.round))
  else if e.wrongBlock vote.blockHash then (e, .error .voteForWrongBlock)
  else match recordVote e.votes vote with
    | none => (e, .error .maxVotesExceeded)
    | some votes =>
        let e' := { e with votes := votes }
        (e', .ok e'.hasQuorum)

/-- `verify_votes_parallel`: one verdict per vote, `false` for a voter without a key. -/
def verifyVotesParallel (verifyRaw : String → String → String → Bool) (votes : List Vote)
    (publicKeys : String → Option String) : List Bool :=
  votes.map fun vote =>
    match publicKeys vote.voterId with
    | some pk => verifyVoteSignature verifyRaw vote pk
    | none => false

/-- One turn of the sequential acceptance loop of `cast_votes_batch`: the engine, the accepted and the
rejected count. -/
def acceptVerified (acc : BFTEngine δ × Nat × Nat) (vote : Vote × Bool) : BFTEngine δ × Nat × Nat :=
  let (e, accepted, rejected) := acc
  if !vote.2 then (e, accepted, rejected + 1)
  else if vote.1.round ≠ e.round then (e, accepted, rejected + 1)
  else if e.wrongBlock vote.1.blockHash then (e, accepted, rejected + 1)
  else match recordVote e.votes vote.1 with
    | none => (e, accepted, rejected + 1)
    | some votes => ({ e with votes := votes }, accepted + 1, rejected)

/-- `cast_votes_batch`: all signatures first, and then the votes in order. -/
def castVotesBatch (verifyRaw : String → String → String → Bool) (e : BFTEngine δ) (votes : List Vote)
    (publicKeys : String → Option String) : BFTEngine δ × Nat × Nat :=
  (votes.zip (verifyVotesParallel verifyRaw votes publicKeys)).foldl acceptVerified (e, 0, 0)

/-- `cast_anonymous_vote_verified`; the proof is only checked to be present. -/
def castAnonymousVoteVerified (e : BFTEngine δ) (vote : AnonymousVote) :
    BFTEngine δ × Except BftError Bool :=
  if vote.round ≠ e.round then (e, .error .anonymousRoundMismatch)
  else if e.wrongBlock vote.blockHash then (e, .error .voteForWrongBlock)
  else if vote.nullifier ∈ e.nullifiers then (e, .error .doubleMembershipVote)
  else if vote.zkProof.isEmpty then (e, .error .missingZkProof)
  else
    let e' := { e with
      nullifiers := insert vote.nullifier e.nullifiers
      anonymousVotes := e.anonymousVotes ++ [vote] }
    (e', .ok e'.hasQuorum)

end BFTEngine

end WarmLogic.Consensus.Bft
