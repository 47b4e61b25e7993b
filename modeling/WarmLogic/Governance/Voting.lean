/-
# WarmLogic.Governance.Voting — the conviction voting engine of `voting.rs`, function by function.

A method on `&mut self` is a function from the engine to the new engine and its result; an `Err` carries the text of
the source and leaves the engine as it was. `u64` is `UInt64`, so sums of epochs and of locked stakes wrap, as in the
release profile.

`f64` is `Float`, whose operations are those of IEEE binary64, bit by bit: a power is rounded after every product and a
tally after every sum, in the order of the source, so that a verdict near a threshold is the one the source reaches.
What is proved of a verdict (`VotingClose`) holds whatever these numbers are; of the turnout only that it is at most 1
if the exact ratio is (`Lib.Binary64`).

The accounts of the locked stakes without an entry and those with an empty one are not told apart. `get_proposal_mut`,
which hands a proposal out for any change, is left out.

A result that reads only which proposals are stored and under which ids, or what the engine holds locked, does not
depend on the rounding at all: locks, stakes and epochs are integers, and `tally` writes to no proposal but through
`finalize`.
-/
import WarmLogic.Lib.Run
import WarmLogic.Lib.Bytes
import WarmLogic.Lib.Chain
import WarmLogic.Ledger.SovereignStore
import Mathlib.Data.Finmap
import Mathlib.Data.UInt

namespace WarmLogic.Governance.Voting

open WarmLogic.Lib
open WarmLogic.Ledger (Bytes utf8)

/-- `[u8; 32]`: the hash of a public key, of an action or of a proposal. -/
abbrev Id := Vector UInt8 32

/-! ## Votes -/

/-- `Conviction`. -/
inductive Conviction where
  | none
  | locked1x
  | locked2x
  | locked3x
  | locked4x
  | locked5x
  | locked6x
  deriving DecidableEq

namespace Conviction

/-- `multiplier`. -/
def multiplier : Conviction → Float
  | .none => 0.1
  | .locked1x => 1.0
  | .locked2x => 2.0
  | .locked3x => 3.0
  | .locked4x => 4.0
  | .locked5x => 5.0
  | .locked6x => 6.0

/-- `lock_period`, in epochs. -/
def lockPeriod : Conviction → UInt64
  | .none => 0
  | .locked1x => 1
  | .locked2x => 2
  | .locked3x => 4
  | .locked4x => 8
  | .locked5x => 16
  | .locked6x => 32

end Conviction

/-- `VoteDirection`. -/
inductive VoteDirection where
  | aye
  | nay
  | abstain
  deriving DecidableEq

/-- `Vote`; the stake is what the voter states. -/
structure Vote where
  voterId : Id
  direction : VoteDirection
  stake : UInt64
  conviction : Conviction
  castEpoch : UInt64
  delegatedFrom : List Id
  deriving DecidableEq

/-- `saturating_sub`. -/
def saturatingSub (a b : UInt64) : UInt64 := if b ≤ a then a - b else 0

/-- `saturating_add`. -/
def saturatingAdd (a b : UInt64) : UInt64 := if a.toNat + b.toNat < 2 ^ 64 then a + b else UInt64.ofNat (2 ^ 64 - 1)

namespace Vote

/-- `stake * conviction_multiplier * early_voting_bonus`. -/
def votingPower (v : Vote) (currentEpoch votingEndEpoch : UInt64) : Float :=
  let basePower := v.stake.toFloat * v.conviction.multiplier
  let votingDuration := saturatingSub votingEndEpoch v.castEpoch
  let timeRemaining := saturatingSub votingEndEpoch currentEpoch
  let earlyBonus : Float :=
    if 0 < votingDuration then 1.0 + 0.2 * (timeRemaining.toFloat / votingDuration.toFloat) else 1.0
  basePower * earlyBonus

/-- When the stake of a vote is free again; the sum wraps. -/
def unlockEpoch (v : Vote) (votingEndEpoch : UInt64) : UInt64 := votingEndEpoch + v.conviction.lockPeriod

end Vote

/-! ## Proposals -/

/-- `ProposalStatus`. -/
inductive ProposalStatus where
  | draft
  | pending
  | voting
  | passed
  | rejected
  | vetoed
  | executed
  | executionFailed
  deriving DecidableEq

/-- `ProposalType`. -/
inductive ProposalType where
  | parameterChange
  | policyUpdate
  | emergency
  | constitutional
  | spending
  deriving DecidableEq

namespace ProposalType

/-- The share of Ayes that carries. -/
def approvalThreshold : ProposalType → Float
  | .parameterChange => 0.5
  | .policyUpdate => 0.6
  | .emergency => 0.67
  | .constitutional => 0.75
  | .spending => 0.5

/-- The turnout that is asked for. -/
def quorumThreshold : ProposalType → Float
  | .parameterChange => 0.1
  | .policyUpdate => 0.15
  | .emergency => 0.2
  | .constitutional => 0.25
  | .spending => 0.1

/-- How long the voting takes, in epochs. -/
def votingPeriod : ProposalType → UInt64
  | .emergency => 3
  | .parameterChange => 7
  | .policyUpdate => 14
  | .spending => 7
  | .constitutional => 28

/-- How many seconds it takes to open the voting. -/
def secondsRequired : ProposalType → UInt32
  | .emergency => 1
  | .constitutional => 5
  | .parameterChange | .policyUpdate | .spending => 2

end ProposalType

/-- `Proposal`. -/
structure Proposal where
  id : Id
  proposalType : ProposalType
  proposer : Id
  title : String
  description : String
  actionHash : Id
  status : ProposalStatus
  createdEpoch : UInt64
  votingStartEpoch : UInt64
  secondsRequired : UInt32
  seconds : List Id
  votes : List Vote
  totalEligibleStake : UInt64
  deriving DecidableEq

/-- `VotingResult`. -/
structure VotingResult where
  ayePower : Float
  nayPower : Float
  abstainPower : Float
  totalPower : Float
  approvalRatio : Float
  turnout : Float
  quorumMet : Bool
  thresholdMet : Bool

/-- The string that is hashed for the id of a proposal. -/
def idString (proposer : Id) (title : String) (epoch : UInt64) : Bytes :=
  proposer.toList ++ utf8 title ++ leBytes 8 epoch.toNat

namespace Proposal

def new (sha3 : Bytes → Id) (proposalType : ProposalType) (proposer : Id) (title description : String)
    (actionHash : Id) (currentEpoch totalEligibleStake : UInt64) : Proposal where
  id := sha3 (idString proposer title currentEpoch)
  proposalType := proposalType
  proposer := proposer
  title := title
  description := description
  actionHash := actionHash
  status := .pending
  createdEpoch := currentEpoch
  votingStartEpoch := 0
  secondsRequired := proposalType.secondsRequired
  seconds := []
  votes := []
  totalEligibleStake := totalEligibleStake

/-- `add_second`: the last of the seconds that are asked for opens the voting. -/
def addSecond (p : Proposal) (seconder : Id) : Except String Proposal :=
  if p.status ≠ .pending then .error "Proposal not in pending status"
  else if seconder = p.proposer then .error "Proposer cannot second their own proposal"
  else if p.seconds.contains seconder then .error "Already seconded by this account"
  else
    let p := { p with seconds := p.seconds ++ [seconder] }
    .ok (if p.secondsRequired.toNat ≤ p.seconds.length then { p with status := .voting } else p)

/-- `start_voting`. -/
def startVoting (p : Proposal) (currentEpoch : UInt64) : Except String Proposal :=
  if p.status ≠ .pending then .error "Proposal must be in pending status"
  else if p.seconds.length < p.secondsRequired.toNat then .error "Not enough seconds to start voting"
  else .ok { p with votingStartEpoch := currentEpoch, status := .voting }

/-- `voting_end`. -/
def votingEnd (p : Proposal) : UInt64 := p.votingStartEpoch + p.proposalType.votingPeriod

/-- `cast_vote`: one vote of each voter, while the voting lasts. -/
def castVote (p : Proposal) (vote : Vote) (currentEpoch : UInt64) : Except String Proposal :=
  if p.status ≠ .voting then .error "Proposal not in voting period"
  else if p.votingEnd < currentEpoch then .error "Voting period has ended"
  else if p.votes.any fun v => v.voterId == vote.voterId then .error "Already voted on this proposal"
  else .ok { p with votes := p.votes ++ [vote] }

/-- The power of the votes in one direction, added up in the order of the votes. -/
def power (p : Proposal) (currentEpoch : UInt64) (direction : VoteDirection) : Float :=
  (p.votes.filter fun v => v.direction = direction).foldl
    (fun total v => total + v.votingPower currentEpoch p.votingEnd) 0.0

/-- `total_stake_voted`. -/
def totalStakeVoted (p : Proposal) : UInt64 := p.votes.foldl (fun total v => saturatingAdd total v.stake) 0

/-- `tally`. With abstentions only, the ratio is `0.0 / 0.0`, which is not at least any threshold. -/
def tally (p : Proposal) (currentEpoch : UInt64) : VotingResult :=
  let ayePower := p.power currentEpoch .aye
  let nayPower := p.power currentEpoch .nay
  let abstainPower := p.power currentEpoch .abstain
  let totalPower := ayePower + nayPower + abstainPower
  let approvalRatio := if 0.0 < totalPower then ayePower / (ayePower + nayPower) else 0.0
  let turnout := if 0 < p.totalEligibleStake then p.totalStakeVoted.toFloat / p.totalEligibleStake.toFloat else 0.0
  { ayePower, nayPower, abstainPower, totalPower, approvalRatio, turnout
    quorumMet := decide (p.proposalType.quorumThreshold ≤ turnout)
    thresholdMet := decide (p.proposalType.approvalThreshold ≤ approvalRatio) }

/-- `finalize`: after its end, the voting is decided by its tally. -/
def finalize (p : Proposal) (currentEpoch : UInt64) : Except String Proposal :=
  if p.status ≠ .voting then .error "Proposal not in voting status"
  else if currentEpoch < p.votingEnd then .error "Voting period has not ended"
  else
    let result := p.tally currentEpoch
    .ok { p with status := if result.quorumMet && result.thresholdMet then .passed else .rejected }

end Proposal

/-! ## The engine -/

/-- `Delegation`. -/
structure Delegation where
  delegator : Id
  delegate : Id
  stake : UInt64
  conviction : Conviction
  createdEpoch : UInt64
  expiresEpoch : UInt64
  deriving DecidableEq

/-- `ConvictionVotingEngine`. -/
structure ConvictionVotingEngine where
  proposals : Finmap (fun _ : Id => Proposal)
  delegations : Finmap (fun _ : Id => Delegation)
  /-- per voter, the epochs of unlocking and the stakes -/
  lockedStakes : Id → List (UInt64 × UInt64)
  currentEpoch : UInt64
  totalStake : UInt64

/-- `retain`: the entries whose value passes the test. -/
def retain {β : Type} (keep : β → Bool) (m : Finmap (fun _ : Id => β)) : Finmap (fun _ : Id => β) where
  entries := m.entries.filter fun x => keep x.2
  nodupKeys := Multiset.nodup_keys.mp
    (Multiset.nodup_of_le (Multiset.map_le_map (Multiset.filter_le _ _)) m.nodupKeys.nodup_keys)

namespace ConvictionVotingEngine

def new : ConvictionVotingEngine := ⟨∅, ∅, fun _ => [], 0, 0⟩

/-- `set_total_stake`. -/
def setTotalStake (e : ConvictionVotingEngine) (stake : UInt64) : ConvictionVotingEngine := { e with totalStake := stake }

/-- `advance_epoch`: what unlocks or expires at the new epoch is dropped. -/
def advanceEpoch (e : ConvictionVotingEngine) : ConvictionVotingEngine :=
  let epoch := e.currentEpoch + 1
  { e with
    currentEpoch := epoch
    lockedStakes := fun voter => (e.lockedStakes voter).filter fun lock => decide (epoch < lock.1)
    delegations := retain (fun d => d.expiresEpoch == 0 || decide (epoch < d.expiresEpoch)) e.delegations }

/-- `submit_proposal`: the id is a hash of proposer, title and epoch. -/
def submitProposal (sha3 : Bytes → Id) (e : ConvictionVotingEngine) (proposalType : ProposalType) (proposer : Id)
    (title description : String) (actionHash : Id) : ConvictionVotingEngine × Except String Id :=
  let proposal := Proposal.new sha3 proposalType proposer title description actionHash e.currentEpoch e.totalStake
  ({ e with proposals := e.proposals.insert proposal.id proposal }, .ok proposal.id)

/-- `second_proposal`. -/
def secondProposal (e : ConvictionVotingEngine) (proposalId seconder : Id) :
    ConvictionVotingEngine × Except String Unit :=
  match e.proposals.lookup proposalId with
  | none => (e, .error "Proposal not found")
  | some proposal =>
      match proposal.addSecond seconder with
      | .error err => (e, .error err)
      | .ok proposal =>
          -- enough seconds: voting starts now
          let proposal :=
            if proposal.secondsRequired.toNat ≤ proposal.seconds.length ∧ proposal.status = .voting ∧
                proposal.votingStartEpoch = 0 then
              { proposal with votingStartEpoch := e.currentEpoch }
            else proposal
          ({ e with proposals := e.proposals.insert proposalId proposal }, .ok ())

/-- `get_locked_stake`; the `sum` wraps. -/
def getLockedStake (e : ConvictionVotingEngine) (voterId : Id) : UInt64 :=
  (((e.lockedStakes voterId).filter fun lock => decide (e.currentEpoch < lock.1)).map (·.2)).sum

/-- `vote`: the stake is checked against the total of the system less what this voter has locked. -/
def vote (e : ConvictionVotingEngine) (proposalId voterId : Id) (direction : VoteDirection) (stake : UInt64)
    (conviction : Conviction) : ConvictionVotingEngine × Except String Unit :=
  if saturatingSub e.totalStake (e.getLockedStake voterId) < stake then (e, .error "Insufficient unlocked stake")
  else
    match e.proposals.lookup proposalId with
    | none => (e, .error "Proposal not found")
    | some proposal =>
        let vote : Vote := ⟨voterId, direction, stake, conviction, e.currentEpoch, []⟩
        match proposal.castVote vote e.currentEpoch with
        | .error err => (e, .error err)
        | .ok proposal =>
            let unlockEpoch := proposal.votingEnd + conviction.lockPeriod
            ({ e with
                proposals := e.proposals.insert proposalId proposal
                lockedStakes := Function.update e.lockedStakes voterId
                  (e.lockedStakes voterId ++ [(unlockEpoch, stake)]) }, .ok ())

/-- To whom an account delegates. -/
def delegateOf (e : ConvictionVotingEngine) (account : Id) : Option Id :=
  (e.delegations.lookup account).map (·.delegate)

/-- `would_create_cycle`: the loop from `to`, with one round more than there are delegations; `none` if it is still
running then. -/
def wouldCreateCycle (e : ConvictionVotingEngine) (origin target : Id) : Option Bool :=
  chase e.delegateOf origin (e.delegations.keys.card + 1) target []

/-- `delegate`; `none` where the loop of `would_create_cycle` does not come to an end. -/
def delegate (e : ConvictionVotingEngine) (delegator delegate : Id) (stake : UInt64) (conviction : Conviction)
    (expiresEpoch : UInt64) : Option (ConvictionVotingEngine × Except String Unit) :=
  if delegator = delegate then some (e, .error "Cannot delegate to self")
  else
    (e.wouldCreateCycle delegator delegate).map fun cycle =>
      if cycle then (e, .error "Delegation would create cycle")
      else
        let delegation : Delegation := ⟨delegator, delegate, stake, conviction, e.currentEpoch, expiresEpoch⟩
        ({ e with delegations := e.delegations.insert delegator delegation }, .ok ())

/-- `undelegate`. -/
def undelegate (e : ConvictionVotingEngine) (delegator : Id) : ConvictionVotingEngine × Except String Unit :=
  match e.delegations.lookup delegator with
  | none => (e, .error "No delegation found")
  | some _ => ({ e with delegations := e.delegations.erase delegator }, .ok ())

/-- `finalize_proposal`, with the status it returns. -/
def finalizeProposal (e : ConvictionVotingEngine) (proposalId : Id) :
    ConvictionVotingEngine × Except String ProposalStatus :=
  match e.proposals.lookup proposalId with
  | none => (e, .error "Proposal not found")
  | some proposal =>
      match proposal.finalize e.currentEpoch with
      | .error err => (e, .error err)
      | .ok proposal => ({ e with proposals := e.proposals.insert proposalId proposal }, .ok proposal.status)

def tally (e : ConvictionVotingEngine) (proposalId : Id) : Option VotingResult :=
  (e.proposals.lookup proposalId).map fun p => p.tally e.currentEpoch

end ConvictionVotingEngine

/-! ## Runs -/

/-- A call on the engine. -/
inductive VotingOp where
  | setTotalStake (stake : UInt64)
  | advanceEpoch
  | submitProposal (proposalType : ProposalType) (proposer : Id) (title description : String) (actionHash : Id)
  | secondProposal (proposalId seconder : Id)
  | vote (proposalId voterId : Id) (direction : VoteDirection) (stake : UInt64) (conviction : Conviction)
  | delegate (delegator delegate : Id) (stake : UInt64) (conviction : Conviction) (expiresEpoch : UInt64)
  | undelegate (delegator : Id)
  | finalizeProposal (proposalId : Id)

/-- The engine after a call; `none` where it does not return. -/
def VotingOp.call (sha3 : Bytes → Id) (e : ConvictionVotingEngine) : VotingOp → Option ConvictionVotingEngine
  | .setTotalStake stake => some (e.setTotalStake stake)
  | .advanceEpoch => some e.advanceEpoch
  | .submitProposal proposalType proposer title description actionHash =>
      some (e.submitProposal sha3 proposalType proposer title description actionHash).1
  | .secondProposal proposalId seconder => some (e.secondProposal proposalId seconder).1
  | .vote proposalId voterId direction stake conviction => some (e.vote proposalId voterId direction stake conviction).1
  | .delegate delegator target stake conviction expiresEpoch =>
      (e.delegate delegator target stake conviction expiresEpoch).map (·.1)
  | .undelegate delegator => some (e.undelegate delegator).1
  | .finalizeProposal proposalId => some (e.finalizeProposal proposalId).1

/-- An engine from `new`, under any calls. -/
def votingRuns (sha3 : Bytes → Id) : System ConvictionVotingEngine VotingOp where
  init e := e = .new
  step op e := op.call sha3 e

end WarmLogic.Governance.Voting
