/-
# WarmLogic.Net.BlockPropagator — the block propagation engine of `net/block_propagator.rs`, function by function.

The engine is one record; a method on `&mut self` is a function from the engine to the new engine and its
result. `u64` is `UInt64`, so the round counter wraps as in the release profile; a `usize` count is a `Nat`.
A `HashMap` is an association list without repeated keys, a `HashSet` a finite set. Two things stay
parameters: `sha3` is SHA3-256, and `verifyFn` / `signFn` are the closures the caller hands to each method.

Every method that fails returns the engine as it was at that point; most checks come before the first write, so mostly
that is the engine before the call. Messages to be sent go to `outbound_messages`, and a call adds to them at the end.
The methods take the clock as an argument in the source too.
-/
import WarmLogic.Lib.Bytes
import Mathlib.Data.Finset.Basic
import Mathlib.Data.List.AList

namespace WarmLogic.Net

open WarmLogic.Lib

/-! ## Constants and messages -/

/-- `quorum_threshold`: `2f + 1` where `f = (n - 1) / 3`, the subtraction saturating. -/
def quorumThreshold (totalValidators : Nat) : Nat :=
  let f := (totalValidators - 1) / 3
  2 * f + 1

/-- `MAX_BLOCK_SIZE`, 4 MB. -/
def maxBlockSize : Nat := 4194304

/-- `NodeId` of `net/kademlia.rs`. -/
abbrev NodeId := Vector UInt8 32

/-- A block hash or a state root, `[u8; 32]`. -/
abbrev BlockHash := Vector UInt8 32

/-- The key of `pending_blocks` and `committed_blocks`: view and round. -/
abbrev Slot := UInt64 × UInt64

/-- A block on its way, with the slot it is for. -/
structure BlockProposal where
  view : UInt64
  round : UInt64
  leaderId : NodeId
  blockHash : BlockHash
  blockData : List UInt8
  prevHash : BlockHash
  timestampMs : UInt64
  signature : List UInt8
  temporalProof : Option (List UInt8)
  deriving DecidableEq

/-- View and round of a proposal. -/
def BlockProposal.slot (proposal : BlockProposal) : Slot := (proposal.view, proposal.round)

/-- The vote of a validator for a block. -/
structure BlockVote where
  view : UInt64
  round : UInt64
  voterId : NodeId
  blockHash : BlockHash
  signature : List UInt8
  deriving DecidableEq

/-- View and round of a vote. -/
def BlockVote.slot (vote : BlockVote) : Slot := (vote.view, vote.round)

/-- A certificate: the votes for a block, and the root after it. -/
structure BlockCommit where
  view : UInt64
  round : UInt64
  blockHash : BlockHash
  voteSignatures : List BlockVote
  stateRoot : BlockHash
  deriving DecidableEq

/-- View and round of a commit. -/
def BlockCommit.slot (commit : BlockCommit) : Slot := (commit.view, commit.round)

/-- A validator's request for another view, with what it has prepared. -/
structure P2PViewChange where
  newView : UInt64
  senderId : NodeId
  lastPreparedRound : Option UInt64
  lastPreparedBlock : Option BlockHash
  timestampMs : UInt64
  signature : List UInt8
  temporalProof : Option (List UInt8)
  deriving DecidableEq

/-- The announcement of a view, with the requests it rests on. -/
structure P2PNewView where
  view : UInt64
  leaderId : NodeId
  viewChangeProofs : List P2PViewChange
  startingRound : UInt64
  preparedBlock : Option BlockHash
  signature : List UInt8
  deriving DecidableEq

/-- The messages the engine routes; `other` stands for the kinds "handled elsewhere". -/
inductive GossipMessage where
  | blockProposal (proposal : BlockProposal)
  | blockVote (vote : BlockVote)
  | blockCommit (commit : BlockCommit)
  | viewChange (msg : P2PViewChange)
  | newView (msg : P2PNewView)
  | other
  deriving DecidableEq

/-- The errors of the engine's methods; the constructor stands for the text. -/
inductive PropagatorError where
  /-- "Not the leader for current view" -/
  | notTheLeader
  /-- "Block size {} exceeds maximum {}" -/
  | blockSizeExceeds (size maximum : Nat)
  /-- "No leader for view" -/
  | noLeaderForView
  /-- "Proposal not from expected leader" -/
  | proposalNotFromExpectedLeader
  /-- "Proposal from old view" -/
  | proposalFromOldView
  /-- "Proposal from old round" -/
  | proposalFromOldRound
  /-- "Block hash mismatch" -/
  | blockHashMismatch
  /-- "Invalid proposal signature" -/
  | invalidProposalSignature
  /-- "Block exceeds maximum size" -/
  | blockExceedsMaximumSize
  /-- "Vote from non-validator" -/
  | voteFromNonValidator
  /-- "Duplicate vote from validator" -/
  | duplicateVote
  /-- "Invalid vote signature" -/
  | invalidVoteSignature
  /-- "No pending block for vote" -/
  | noPendingBlockForVote
  /-- "Vote for different block hash" -/
  | voteForDifferentBlockHash
  /-- "No pending block" -/
  | noPendingBlock
  /-- "Block not prepared" -/
  | blockNotPrepared
  /-- "Insufficient votes in commit" -/
  | insufficientVotesInCommit
  /-- "Vote hash mismatch in commit" -/
  | voteHashMismatchInCommit
  /-- "Invalid vote signature in commit" -/
  | invalidVoteSignatureInCommit
  /-- "View change from non-validator" -/
  | viewChangeFromNonValidator
  /-- "Invalid view change signature" -/
  | invalidViewChangeSignature
  /-- "No active view change" -/
  | noActiveViewChange
  /-- "View change not ready to complete" -/
  | viewChangeNotReady
  /-- "No leader for new view" -/
  | noLeaderForNewView
  /-- "We are not the new leader" -/
  | notTheNewLeader
  /-- "New view not from expected leader" -/
  | newViewNotFromExpectedLeader
  /-- "Invalid new view signature" -/
  | invalidNewViewSignature
  /-- "Insufficient view change proofs" -/
  | insufficientViewChangeProofs
  /-- "Invalid view change proof signature" -/
  | invalidViewChangeProofSignature
  deriving DecidableEq

/-! ## Hashed and signed bytes -/

/-- `b"PROPOSAL:"` and the like. -/
def tag (text : String) : List UInt8 := text.toList.map fun c => UInt8.ofNat c.toNat

/-- `to_le_bytes` of a `u64`. -/
def leU64 (x : UInt64) : List UInt8 := leBytes 8 x.toNat

/-- The header fields and the data of a block, as hashed by `propose_block` and `compute_block_hash`. -/
def hasherInput (view round : UInt64) (prevHash : BlockHash) (blockData : List UInt8) (timestampMs : UInt64) :
    List UInt8 :=
  leU64 view ++ leU64 round ++ prevHash.toList ++ blockData ++ leU64 timestampMs

/-- `compute_block_hash`. -/
def computeBlockHash (sha3 : List UInt8 → BlockHash) (proposal : BlockProposal) : BlockHash :=
  sha3 (hasherInput proposal.view proposal.round proposal.prevHash proposal.blockData proposal.timestampMs)

/-- `compute_state_root`: the root before, the hash of the block, and its data. -/
def computeStateRoot (sha3 : List UInt8 → BlockHash) (proposal : BlockProposal) (prevStateRoot : BlockHash) :
    BlockHash :=
  sha3 (prevStateRoot.toList ++ proposal.blockHash.toList ++ proposal.blockData)

/-- The bytes a leader signs. The data is in them through the hash only. -/
def proposalSignData (proposal : BlockProposal) : List UInt8 :=
  tag "PROPOSAL:" ++ leU64 proposal.view ++ leU64 proposal.round ++ proposal.blockHash.toList ++
    proposal.prevHash.toList ++ leU64 proposal.timestampMs

/-- The bytes a validator signs for a block. -/
def voteSignData (vote : BlockVote) : List UInt8 :=
  tag "VOTE:" ++ leU64 vote.view ++ leU64 vote.round ++ vote.blockHash.toList

/-- The bytes of a view change; what is absent leaves no mark. -/
def viewChangeSignData (msg : P2PViewChange) : List UInt8 :=
  tag "VIEWCHANGE:" ++ leU64 msg.newView ++ (msg.lastPreparedRound.map leU64).getD [] ++
    (msg.lastPreparedBlock.map (·.toList)).getD [] ++ leU64 msg.timestampMs

/-- The proofs enter the signed bytes by their number only, as a `u32`. -/
def newViewSignData (msg : P2PNewView) : List UInt8 :=
  tag "NEWVIEW:" ++ leU64 msg.view ++ leU64 msg.startingRound ++ (msg.preparedBlock.map (·.toList)).getD [] ++
    leBytes 4 msg.viewChangeProofs.length

/-! ## Pending blocks and view change trackers -/

/-- How far a block has come. -/
inductive BlockState where
  | proposed
  | prepared
  | committed
  | rejected
  deriving DecidableEq

/-- A proposal with the votes for it so far. -/
structure PendingBlock where
  proposal : BlockProposal
  votes : List BlockVote
  state : BlockState
  receivedAtMs : UInt64
  deriving DecidableEq

namespace PendingBlock

/-- A block as it comes in. -/
def new (proposal : BlockProposal) (receivedAtMs : UInt64) : PendingBlock where
  proposal := proposal
  votes := []
  state := .proposed
  receivedAtMs := receivedAtMs

/-- `add_vote`; the flag says that this vote completed the quorum. -/
def addVote (pending : PendingBlock) (vote : BlockVote) (quorum : Nat) : PendingBlock × Bool :=
  if vote.view ≠ pending.proposal.view ∨ vote.round ≠ pending.proposal.round ∨
      vote.blockHash ≠ pending.proposal.blockHash then
    (pending, false)
  else if pending.votes.any (fun v => v.voterId == vote.voterId) then
    (pending, false)
  else
    let votes := pending.votes ++ [vote]
    if quorum ≤ votes.length ∧ pending.state = .proposed then
      ({ pending with votes := votes, state := .prepared }, true)
    else
      ({ pending with votes := votes }, false)

end PendingBlock

/-- How far a view change has come. -/
inductive ViewChangeState where
  | normal
  | collecting
  | waitingNewView
  deriving DecidableEq

/-- The messages for one view. -/
structure ViewChangeTracker where
  targetView : UInt64
  messages : List P2PViewChange
  state : ViewChangeState
  startedAtMs : UInt64
  deriving DecidableEq

namespace ViewChangeTracker

/-- A tracker as the first message opens it. -/
def new (targetView startedAtMs : UInt64) : ViewChangeTracker where
  targetView := targetView
  messages := []
  state := .collecting
  startedAtMs := startedAtMs

/-- `add_message`; the flag says that this message completed the quorum. -/
def addMessage (tracker : ViewChangeTracker) (msg : P2PViewChange) (quorum : Nat) : ViewChangeTracker × Bool :=
  if msg.newView ≠ tracker.targetView then
    (tracker, false)
  else if tracker.messages.any (fun m => m.senderId == msg.senderId) then
    (tracker, false)
  else
    let messages := tracker.messages ++ [msg]
    if quorum ≤ messages.length ∧ tracker.state = .collecting then
      ({ tracker with messages := messages, state := .waitingNewView }, true)
    else
      ({ tracker with messages := messages }, false)

end ViewChangeTracker

/-- `max_by_key`: the LAST of the elements with the greatest key. -/
def maxByKey {α : Type} (key : α → UInt64) (l : List α) : Option α :=
  l.foldl (fun best x =>
    match best with
    | none => some x
    | some b => if key b ≤ key x then some x else some b) none

/-! ## The engine -/

/-- The engine of one node. -/
structure BlockPropagator where
  nodeId : NodeId
  view : UInt64
  round : UInt64
  validators : List NodeId
  pendingBlocks : AList (fun _ : Slot => PendingBlock)
  committedBlocks : AList (fun _ : Slot => BlockHash)
  viewChange : Option ViewChangeTracker
  stateRoot : BlockHash
  outboundMessages : List GossipMessage
  votersSeen : Finset NodeId

namespace BlockPropagator

/-- `new`: view 0, round 0, and a root of zeros. -/
def new (nodeId : NodeId) (validators : List NodeId) : BlockPropagator where
  nodeId := nodeId
  view := 0
  round := 0
  validators := validators
  pendingBlocks := ∅
  committedBlocks := ∅
  viewChange := none
  stateRoot := Vector.replicate 32 0
  outboundMessages := []
  votersSeen := ∅

/-- `get_leader`: the validators take turns. -/
def getLeader (p : BlockPropagator) (view : UInt64) : Option NodeId :=
  if p.validators.isEmpty then none else p.validators[view.toNat % p.validators.length]?

/-- `is_leader`, for the current view. -/
def isLeader (p : BlockPropagator) : Bool :=
  ((p.getLeader p.view).map (· == p.nodeId)).getD false

/-- The quorum of the engine's own validators. -/
def quorum (p : BlockPropagator) : Nat := quorumThreshold p.validators.length

/-! ### Proposals and votes -/

/-- The signed proposal `propose_block` builds for the current view and round. -/
def ownProposal (sha3 : List UInt8 → BlockHash) (p : BlockPropagator) (blockData : List UInt8)
    (prevHash : BlockHash) (timestampMs : UInt64) (signFn : List UInt8 → List UInt8) : BlockProposal :=
  let proposal : BlockProposal :=
    { view := p.view
      round := p.round
      leaderId := p.nodeId
      blockHash := sha3 (hasherInput p.view p.round prevHash blockData timestampMs)
      blockData := blockData
      prevHash := prevHash
      timestampMs := timestampMs
      signature := []
      temporalProof := none }
  { proposal with signature := signFn (proposalSignData proposal) }

/-- `propose_block`: the leader files its block as pending and sends it. -/
def proposeBlock (sha3 : List UInt8 → BlockHash) (p : BlockPropagator) (blockData : List UInt8)
    (prevHash : BlockHash) (timestampMs : UInt64) (signFn : List UInt8 → List UInt8) :
    BlockPropagator × Except PropagatorError BlockProposal :=
  if !p.isLeader then
    (p, .error .notTheLeader)
  else if maxBlockSize < blockData.length then
    (p, .error (.blockSizeExceeds blockData.length maxBlockSize))
  else
    let proposal := p.ownProposal sha3 blockData prevHash timestampMs signFn
    ({ p with
        pendingBlocks := p.pendingBlocks.insert (p.view, p.round) (.new proposal timestampMs)
        outboundMessages := p.outboundMessages ++ [.blockProposal proposal] }, .ok proposal)

/-- The checks `process_proposal` makes before it touches the state; `none` when all of them pass. -/
def proposalError? (sha3 : List UInt8 → BlockHash) (p : BlockPropagator) (proposal : BlockProposal)
    (verifyFn : List UInt8 → List UInt8 → NodeId → Bool) : Option PropagatorError :=
  match p.getLeader proposal.view with
  | none => some .noLeaderForView
  | some expectedLeader =>
      if proposal.leaderId ≠ expectedLeader then some .proposalNotFromExpectedLeader
      else if proposal.view < p.view then some .proposalFromOldView
      else if proposal.view = p.view ∧ proposal.round < p.round then some .proposalFromOldRound
      else if computeBlockHash sha3 proposal ≠ proposal.blockHash then some .blockHashMismatch
      else if !verifyFn (proposalSignData proposal) proposal.signature proposal.leaderId then
        some .invalidProposalSignature
      else if maxBlockSize < proposal.blockData.length then some .blockExceedsMaximumSize
      else none

/-- The signed vote of this node for a proposal. -/
def voteFor (p : BlockPropagator) (proposal : BlockProposal) (signFn : List UInt8 → List UInt8) : BlockVote :=
  let vote : BlockVote :=
    { view := proposal.view
      round := proposal.round
      voterId := p.nodeId
      blockHash := proposal.blockHash
      signature := [] }
  { vote with signature := signFn (voteSignData vote) }

/-- Move to a later slot; at or behind the current one nothing changes. -/
def catchUp (p : BlockPropagator) (proposal : BlockProposal) : BlockPropagator :=
  if p.view < proposal.view ∨ (proposal.view = p.view ∧ p.round < proposal.round) then
    { p with view := proposal.view, round := proposal.round, votersSeen := ∅ }
  else p

/-- `process_proposal`: the block is filed under its slot, over whatever was there, and a validator votes for it. -/
def processProposal (sha3 : List UInt8 → BlockHash) (p : BlockPropagator) (proposal : BlockProposal)
    (timestampMs : UInt64) (verifyFn : List UInt8 → List UInt8 → NodeId → Bool)
    (signFn : List UInt8 → List UInt8) : BlockPropagator × Except PropagatorError (Option BlockVote) :=
  match p.proposalError? sha3 proposal verifyFn with
  | some e => (p, .error e)
  | none =>
      let p := p.catchUp proposal
      let p := { p with pendingBlocks := p.pendingBlocks.insert proposal.slot (.new proposal timestampMs) }
      if !p.validators.contains p.nodeId then
        (p, .ok none)
      else
        let vote := p.voteFor proposal signFn
        ({ p with outboundMessages := p.outboundMessages ++ [.blockVote vote] }, .ok (some vote))

/-- `commit_block`, private in the source and called by `process_vote` only. -/
def commitBlock (sha3 : List UInt8 → BlockHash) (p : BlockPropagator) (key : Slot) :
    BlockPropagator × Except PropagatorError BlockCommit :=
  match p.pendingBlocks.lookup key with
  | none => (p, .error .noPendingBlock)
  | some pending =>
      if pending.state ≠ .prepared then
        (p, .error .blockNotPrepared)
      else
        let newStateRoot := computeStateRoot sha3 pending.proposal p.stateRoot
        let commit : BlockCommit :=
          { view := pending.proposal.view
            round := pending.proposal.round
            blockHash := pending.proposal.blockHash
            voteSignatures := pending.votes
            stateRoot := newStateRoot }
        ({ p with
            pendingBlocks := p.pendingBlocks.insert key { pending with state := .committed }
            stateRoot := newStateRoot
            committedBlocks := p.committedBlocks.insert key pending.proposal.blockHash
            outboundMessages := p.outboundMessages ++ [.blockCommit commit]
            round := p.round + 1
            votersSeen := ∅ }, .ok commit)

/-- `process_vote`: the checks in the order of the source. A voter is noted as seen when its vote is handed to a
block, of whatever slot. -/
def processVote (sha3 : List UInt8 → BlockHash) (p : BlockPropagator) (vote : BlockVote)
    (verifyFn : List UInt8 → List UInt8 → NodeId → Bool) : BlockPropagator × Except PropagatorError Bool :=
  if !p.validators.contains vote.voterId then
    (p, .error .voteFromNonValidator)
  else if vote.voterId ∈ p.votersSeen then
    (p, .error .duplicateVote)
  else if !verifyFn (voteSignData vote) vote.signature vote.voterId then
    (p, .error .invalidVoteSignature)
  else
    match p.pendingBlocks.lookup vote.slot with
    | none => (p, .error .noPendingBlockForVote)
    | some pending =>
        if vote.blockHash ≠ pending.proposal.blockHash then
          (p, .error .voteForDifferentBlockHash)
        else
          let (pending', quorumReached) := pending.addVote vote p.quorum
          let p := { p with
            votersSeen := insert vote.voterId p.votersSeen
            pendingBlocks := p.pendingBlocks.insert vote.slot pending' }
          if quorumReached then
            match p.commitBlock sha3 vote.slot with
            | (p, .error e) => (p, .error e)
            | (p, .ok _) => (p, .ok true)
          else
            (p, .ok false)

/-! ### Commits -/

/-- The loop over `vote_signatures`: the error of the first vote that fails. -/
def voteError? (blockHash : BlockHash) (verifyFn : List UInt8 → List UInt8 → NodeId → Bool) :
    List BlockVote → Option PropagatorError
  | [] => none
  | vote :: votes =>
      if vote.blockHash ≠ blockHash then some .voteHashMismatchInCommit
      else if !verifyFn (voteSignData vote) vote.signature vote.voterId then some .invalidVoteSignatureInCommit
      else voteError? blockHash verifyFn votes

/-- `process_commit`: enough entries, each with the hash and a signature; then the commit is written. -/
def processCommit (p : BlockPropagator) (commit : BlockCommit)
    (verifyFn : List UInt8 → List UInt8 → NodeId → Bool) : BlockPropagator × Except PropagatorError Unit :=
  if commit.voteSignatures.length < p.quorum then
    (p, .error .insufficientVotesInCommit)
  else
    match voteError? commit.blockHash verifyFn commit.voteSignatures with
    | some e => (p, .error e)
    | none =>
        let p := { p with
          committedBlocks := p.committedBlocks.insert commit.slot commit.blockHash
          stateRoot := commit.stateRoot }
        let p :=
          if p.view < commit.view ∨ (commit.view = p.view ∧ p.round ≤ commit.round) then
            { p with view := commit.view, round := commit.round + 1, votersSeen := ∅ }
          else p
        ({ p with pendingBlocks := p.pendingBlocks.erase commit.slot }, .ok ())

/-! ### View changes -/

/-- The prepared block of the current view with the highest round. -/
def lastPrepared (p : BlockPropagator) : Option PendingBlock :=
  maxByKey (fun b => b.proposal.round)
    ((p.pendingBlocks.entries.map (·.2)).filter fun b => b.proposal.view = p.view ∧ b.state = .prepared)

/-- `initiate_view_change`: the tracker of the next view starts with the own message alone. -/
def initiateViewChange (p : BlockPropagator) (timestampMs : UInt64) (signFn : List UInt8 → List UInt8) :
    BlockPropagator × P2PViewChange :=
  let newView := p.view + 1
  let unsigned : P2PViewChange :=
    { newView := newView
      senderId := p.nodeId
      lastPreparedRound := p.lastPrepared.map (·.proposal.round)
      lastPreparedBlock := p.lastPrepared.map (·.proposal.blockHash)
      timestampMs := timestampMs
      signature := []
      temporalProof := none }
  let msg := { unsigned with signature := signFn (viewChangeSignData unsigned) }
  let tracker := ViewChangeTracker.new newView timestampMs
  ({ p with
      viewChange := some { tracker with messages := tracker.messages ++ [msg] }
      outboundMessages := p.outboundMessages ++ [.viewChange msg] }, msg)

/-- `process_view_change`: the first message decides on the view that is collected for. -/
def processViewChange (p : BlockPropagator) (msg : P2PViewChange)
    (verifyFn : List UInt8 → List UInt8 → NodeId → Bool) : BlockPropagator × Except PropagatorError Bool :=
  if !p.validators.contains msg.senderId then
    (p, .error .viewChangeFromNonValidator)
  else if !verifyFn (viewChangeSignData msg) msg.signature msg.senderId then
    (p, .error .invalidViewChangeSignature)
  else
    let tracker := p.viewChange.getD (.new msg.newView msg.timestampMs)
    let (tracker, quorumReached) := tracker.addMessage msg p.quorum
    ({ p with viewChange := some tracker }, .ok quorumReached)

/-- `complete_view_change`: the messages of the tracker become the proofs, the best report the start. -/
def completeViewChange (p : BlockPropagator) (signFn : List UInt8 → List UInt8) :
    BlockPropagator × Except PropagatorError P2PNewView :=
  match p.viewChange with
  | none => (p, .error .noActiveViewChange)
  | some tracker =>
      if tracker.state ≠ .waitingNewView then
        (p, .error .viewChangeNotReady)
      else
        match p.getLeader tracker.targetView with
        | none => (p, .error .noLeaderForNewView)
        | some newLeader =>
            if newLeader ≠ p.nodeId then
              (p, .error .notTheNewLeader)
            else
              let prepared := maxByKey (·.1)
                (tracker.messages.filterMap fun m => m.lastPreparedRound.map fun r => (r, m.lastPreparedBlock))
              let startingRound := (prepared.map (·.1 + 1)).getD 0
              let unsigned : P2PNewView :=
                { view := tracker.targetView
                  leaderId := p.nodeId
                  viewChangeProofs := tracker.messages
                  startingRound := startingRound
                  preparedBlock := prepared.bind (·.2)
                  signature := [] }
              let msg := { unsigned with signature := signFn (newViewSignData unsigned) }
              ({ p with
                  view := tracker.targetView
                  round := startingRound
                  viewChange := none
                  votersSeen := ∅
                  outboundMessages := p.outboundMessages ++ [.newView msg] }, .ok msg)

/-- `process_new_view`: leader, signature, number of proofs, and the signature of each proof. -/
def processNewView (p : BlockPropagator) (msg : P2PNewView)
    (verifyFn : List UInt8 → List UInt8 → NodeId → Bool) : BlockPropagator × Except PropagatorError Unit :=
  match p.getLeader msg.view with
  | none => (p, .error .noLeaderForNewView)
  | some expectedLeader =>
      if msg.leaderId ≠ expectedLeader then
        (p, .error .newViewNotFromExpectedLeader)
      else if !verifyFn (newViewSignData msg) msg.signature msg.leaderId then
        (p, .error .invalidNewViewSignature)
      else if msg.viewChangeProofs.length < p.quorum then
        (p, .error .insufficientViewChangeProofs)
      else if !msg.viewChangeProofs.all (fun vc => verifyFn (viewChangeSignData vc) vc.signature vc.senderId) then
        (p, .error .invalidViewChangeProofSignature)
      else
        ({ p with
            view := msg.view
            round := msg.startingRound
            viewChange := none
            votersSeen := ∅ }, .ok ())

/-! ### Routing -/

/-- `process_message`: dispatch on the kind, dropping the handler's result but not its error. -/
def processMessage (sha3 : List UInt8 → BlockHash) (p : BlockPropagator) (msg : GossipMessage)
    (timestampMs : UInt64) (verifyFn : List UInt8 → List UInt8 → NodeId → Bool)
    (signFn : List UInt8 → List UInt8) : BlockPropagator × Except PropagatorError Unit :=
  match msg with
  | .blockProposal proposal =>
      (p.processProposal sha3 proposal timestampMs verifyFn signFn).map id (·.map fun _ => ())
  | .blockVote vote => (p.processVote sha3 vote verifyFn).map id (·.map fun _ => ())
  | .blockCommit commit => p.processCommit commit verifyFn
  | .viewChange vc => (p.processViewChange vc verifyFn).map id (·.map fun _ => ())
  | .newView nv => p.processNewView nv verifyFn
  | .other => (p, .ok ())

/-- `drain_outbound`. -/
def drainOutbound (p : BlockPropagator) : BlockPropagator × List GossipMessage :=
  ({ p with outboundMessages := [] }, p.outboundMessages)

end BlockPropagator

end WarmLogic.Net
