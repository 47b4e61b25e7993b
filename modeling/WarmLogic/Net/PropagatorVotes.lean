/-
# WarmLogic.Net.PropagatorVotes — one vote per view and round, over every run of the block propagation engine.

No field of the engine records what was voted: `process_proposal` votes for every proposal that passes its
checks, also for a second one with the same view and round. What does survive is the slot's entry in
`pending_blocks`, until `process_commit` removes it and leaves one in `committed_blocks`. So the engine keeps
to one vote per slot as long as every block it records as pending, its own or an accepted one, meets a slot
that is untouched or already holds that very block. The runs are taken under this guard; every method may
occur in them, in any order, with any messages and closures.

The bookkeeping is by slots. A call changes what is known about a slot in one of three ways (`Change`), read off its
inversion once: nothing a vote depends on, a block recorded in a slot with at most one vote for it, or a block removed
from a slot that is committed. The invariant then needs three short lemmas and no look at a handler.

Votes are taken from `outbound_messages` at every state of the run, so a vote that was sent and drained still counts
against later ones.
-/
import WarmLogic.Net.PropagatorQuorum
import WarmLogic.Lib.Run

namespace WarmLogic.Net

open WarmLogic.Lib

/-! ## The machine -/

/-- A call on the engine, with everything its caller chooses. -/
inductive PropagatorOp where
  | proposeBlock (blockData : List UInt8) (prevHash : BlockHash) (timestampMs : UInt64)
      (signFn : List UInt8 → List UInt8)
  | processProposal (proposal : BlockProposal) (timestampMs : UInt64)
      (verifyFn : List UInt8 → List UInt8 → NodeId → Bool) (signFn : List UInt8 → List UInt8)
  | processVote (vote : BlockVote) (verifyFn : List UInt8 → List UInt8 → NodeId → Bool)
  | processCommit (commit : BlockCommit) (verifyFn : List UInt8 → List UInt8 → NodeId → Bool)
  | initiateViewChange (timestampMs : UInt64) (signFn : List UInt8 → List UInt8)
  | processViewChange (msg : P2PViewChange) (verifyFn : List UInt8 → List UInt8 → NodeId → Bool)
  | completeViewChange (signFn : List UInt8 → List UInt8)
  | processNewView (msg : P2PNewView) (verifyFn : List UInt8 → List UInt8 → NodeId → Bool)
  | drainOutbound

variable (sha3 : List UInt8 → BlockHash)

/-- The engine after a call. -/
def PropagatorOp.call (p : BlockPropagator) : PropagatorOp → BlockPropagator
  | .proposeBlock blockData prevHash timestampMs signFn =>
      (p.proposeBlock sha3 blockData prevHash timestampMs signFn).1
  | .processProposal proposal timestampMs verifyFn signFn =>
      (p.processProposal sha3 proposal timestampMs verifyFn signFn).1
  | .processVote vote verifyFn => (p.processVote sha3 vote verifyFn).1
  | .processCommit commit verifyFn => (p.processCommit commit verifyFn).1
  | .initiateViewChange timestampMs signFn => (p.initiateViewChange timestampMs signFn).1
  | .processViewChange msg verifyFn => (p.processViewChange msg verifyFn).1
  | .completeViewChange signFn => (p.completeViewChange signFn).1
  | .processNewView msg verifyFn => (p.processNewView msg verifyFn).1
  | .drainOutbound => p.drainOutbound.1

/-- One engine, from `new`, under any calls. `process_message` is not among them: what it routes a message to is
(`processMessage_eq`). -/
def propagator : System BlockPropagator PropagatorOp where
  init p := ∃ nodeId validators, p = .new nodeId validators
  step op p := some (op.call sha3 p)

/-- A routed message is one of the calls above, or none at all. -/
theorem processMessage_eq (p : BlockPropagator) (msg : GossipMessage) (timestampMs : UInt64)
    (verifyFn : List UInt8 → List UInt8 → NodeId → Bool) (signFn : List UInt8 → List UInt8) :
    (p.processMessage sha3 msg timestampMs verifyFn signFn).1 = p ∨
      ∃ op : PropagatorOp, (p.processMessage sha3 msg timestampMs verifyFn signFn).1 = op.call sha3 p := by
  cases msg with
  | blockProposal proposal => exact .inr ⟨.processProposal proposal timestampMs verifyFn signFn, rfl⟩
  | blockVote vote => exact .inr ⟨.processVote vote verifyFn, rfl⟩
  | blockCommit commit => exact .inr ⟨.processCommit commit verifyFn, rfl⟩
  | viewChange vc => exact .inr ⟨.processViewChange vc verifyFn, rfl⟩
  | newView nv => exact .inr ⟨.processNewView nv verifyFn, rfl⟩
  | other => exact .inl rfl

namespace BlockPropagator

/-- The votes among a list of messages. -/
def votesOf (msgs : List GossipMessage) : List BlockVote :=
  msgs.filterMap fun
    | .blockVote vote => some vote
    | _ => none

/-- The votes waiting in `outbound_messages`. -/
def queuedVotes (p : BlockPropagator) : List BlockVote := votesOf p.outboundMessages

/-- The hash of the block pending in a slot. -/
def pendingHash (p : BlockPropagator) (k : Slot) : Option BlockHash :=
  (p.pendingBlocks.lookup k).map (·.proposal.blockHash)

/-- Nothing is known about the slot, or exactly this block is pending there. -/
def SlotFree (p : BlockPropagator) (k : Slot) (h : BlockHash) : Prop :=
  p.pendingHash k = some h ∨ (p.pendingHash k = none ∧ p.committedBlocks.lookup k = none)

instance (p : BlockPropagator) (k : Slot) (h : BlockHash) : Decidable (p.SlotFree k h) :=
  inferInstanceAs (Decidable (_ ∨ _))

end BlockPropagator

/-- The block a call would record as pending: an own proposal, or one that passes the checks. -/
def PropagatorOp.recorded (p : BlockPropagator) : PropagatorOp → Option (Slot × BlockHash)
  | .proposeBlock blockData prevHash timestampMs signFn =>
      if p.isLeader ∧ blockData.length ≤ maxBlockSize then
        some ((p.view, p.round), (p.ownProposal sha3 blockData prevHash timestampMs signFn).blockHash)
      else none
  | .processProposal proposal _ verifyFn _ =>
      if p.proposalError? sha3 proposal verifyFn = none then some (proposal.slot, proposal.blockHash) else none
  | _ => none

/-- A validator records a block only in a free slot. -/
def RecordsInFreeSlot (op : PropagatorOp) (p : BlockPropagator) : Prop :=
  p.nodeId ∈ p.validators → ∀ x ∈ op.recorded sha3 p, p.SlotFree x.1 x.2

instance (op : PropagatorOp) (p : BlockPropagator) : Decidable (RecordsInFreeSlot sha3 op p) :=
  inferInstanceAs (Decidable (_ → _))

/-- No two votes queued at any time of the run name one view and round and different hashes. -/
def NeverEquivocates (h : List BlockPropagator) : Prop :=
  ∀ s₁ ∈ h, ∀ s₂ ∈ h, ∀ v₁ ∈ s₁.queuedVotes, ∀ v₂ ∈ s₂.queuedVotes,
    v₁.slot = v₂.slot → v₁.blockHash = v₂.blockHash

instance (h : List BlockPropagator) : Decidable (NeverEquivocates h) :=
  inferInstanceAs (Decidable (∀ s₁ ∈ h, ∀ s₂ ∈ h, ∀ v₁ ∈ s₁.queuedVotes, ∀ v₂ ∈ s₂.queuedVotes, _ → _))

/-! ## What a call can do to the slots and to the queued votes -/

/-- The node and the validator set, which no call changes. -/
def SameNode (p p' : BlockPropagator) : Prop := p'.nodeId = p.nodeId ∧ p'.validators = p.validators

/-- Nothing a vote depends on changes: the pending hashes stay, commits are only added, no vote is queued. -/
structure Quiet (p p' : BlockPropagator) : Prop where
  node : SameNode p p'
  pend : ∀ k, p'.pendingHash k = p.pendingHash k
  com : ∀ k ∈ p.committedBlocks, k ∈ p'.committedBlocks
  votes : p'.queuedVotes ⊆ p.queuedVotes

/-- Nothing happens. -/
theorem Quiet.refl (p : BlockPropagator) : Quiet p p :=
  ⟨⟨rfl, rfl⟩, fun _ => rfl, fun _ h => h, fun _ h => h⟩

/-- Twice nothing a vote depends on. -/
theorem Quiet.trans {p q r : BlockPropagator} (h : Quiet p q) (h' : Quiet q r) : Quiet p r where
  node := ⟨h'.node.1.trans h.node.1, h'.node.2.trans h.node.2⟩
  pend k := (h'.pend k).trans (h.pend k)
  com k hk := h'.com k (h.com k hk)
  votes _ hv := h.votes (h'.votes hv)

/-- The three kinds of change a call makes, with the block it records. `record`: a block becomes pending in
a slot, and at most a vote for it is queued; `remove`: a slot's pending block goes, its commit stays. -/
inductive Change (p p' : BlockPropagator) : Option (Slot × BlockHash) → Prop
  | quiet (h : Quiet p p') : Change p p' none
  | record (k : Slot) (h : BlockHash) (hnode : SameNode p p')
      (hpend : ∀ l, p'.pendingHash l = if l = k then some h else p.pendingHash l)
      (hcom : p'.committedBlocks = p.committedBlocks)
      (hvotes : ∀ v ∈ p'.queuedVotes,
        v ∈ p.queuedVotes ∨ (p.nodeId ∈ p.validators ∧ v.slot = k ∧ v.blockHash = h)) :
      Change p p' (some (k, h))
  | remove (k : Slot) (hnode : SameNode p p')
      (hpend : ∀ l, p'.pendingHash l = if l = k then none else p.pendingHash l)
      (hk : k ∈ p'.committedBlocks) (hcom : ∀ l ∈ p.committedBlocks, l ∈ p'.committedBlocks)
      (hvotes : p'.queuedVotes ⊆ p.queuedVotes) : Change p p' none

namespace BlockPropagator

variable {sha3} {p : BlockPropagator}

/-- A block that is filed is pending in its slot. -/
theorem pendingHash_insert (m : AList (fun _ : Slot => PendingBlock)) (k l : Slot) (b : PendingBlock) :
    ((m.insert k b).lookup l).map (·.proposal.blockHash) =
      if l = k then some b.proposal.blockHash else (m.lookup l).map (·.proposal.blockHash) := by
  by_cases hl : l = k
  · rw [if_pos hl, hl, AList.lookup_insert, Option.map_some]
  · rw [if_neg hl, AList.lookup_insert_ne hl]

/-- A block that is taken out is not. -/
theorem pendingHash_erase (m : AList (fun _ : Slot => PendingBlock)) (k l : Slot) :
    ((m.erase k).lookup l).map (·.proposal.blockHash) =
      if l = k then none else (m.lookup l).map (·.proposal.blockHash) := by
  by_cases hl : l = k
  · rw [if_pos hl, hl, AList.lookup_erase, Option.map_none]
  · rw [if_neg hl, AList.lookup_erase_ne hl]

/-- A block replaced by another with the same proposal hash leaves the pending hashes as they were. -/
theorem pendingHash_replace {m : AList (fun _ : Slot => PendingBlock)} {k : Slot} {b b' : PendingBlock}
    (hb : m.lookup k = some b) (hh : b'.proposal.blockHash = b.proposal.blockHash) (l : Slot) :
    ((m.insert k b').lookup l).map (·.proposal.blockHash) = (m.lookup l).map (·.proposal.blockHash) := by
  rw [pendingHash_insert]
  split
  · rename_i hl
    rw [hl, hb, hh, Option.map_some]
  · rfl

/-- The votes among two batches of messages. -/
theorem votesOf_append (msgs msgs' : List GossipMessage) :
    votesOf (msgs ++ msgs') = votesOf msgs ++ votesOf msgs' := List.filterMap_append

/-- A message that is no vote queues none. -/
theorem votesOf_append_other (msgs : List GossipMessage) {msg : GossipMessage} (h : votesOf [msg] = []) :
    votesOf (msgs ++ [msg]) ⊆ votesOf msgs := by
  rw [votesOf_append, h, List.append_nil]
  exact fun _ hv => hv

/-- Counting a vote leaves the proposal. -/
theorem addVote_proposal (b : PendingBlock) (vote : BlockVote) (quorum : Nat) :
    (b.addVote vote quorum).1.proposal = b.proposal := by
  unfold PendingBlock.addVote
  split
  · rfl
  · split
    · rfl
    · dsimp only
      split <;> rfl

@[simp] theorem catchUp_pendingBlocks (proposal : BlockProposal) :
    (p.catchUp proposal).pendingBlocks = p.pendingBlocks := by
  unfold catchUp
  split <;> rfl

@[simp] theorem catchUp_committedBlocks (proposal : BlockProposal) :
    (p.catchUp proposal).committedBlocks = p.committedBlocks := by
  unfold catchUp
  split <;> rfl

@[simp] theorem catchUp_outboundMessages (proposal : BlockProposal) :
    (p.catchUp proposal).outboundMessages = p.outboundMessages := by
  unfold catchUp
  split <;> rfl

@[simp] theorem catchUp_nodeId (proposal : BlockProposal) : (p.catchUp proposal).nodeId = p.nodeId := by
  unfold catchUp
  split <;> rfl

@[simp] theorem catchUp_validators (proposal : BlockProposal) :
    (p.catchUp proposal).validators = p.validators := by
  unfold catchUp
  split <;> rfl

/-- **Proposing** files a block, or changes nothing. -/
theorem proposeBlock_change (blockData : List UInt8) (prevHash : BlockHash) (timestampMs : UInt64)
    (signFn : List UInt8 → List UInt8) :
    Change p (p.proposeBlock sha3 blockData prevHash timestampMs signFn).1
      (PropagatorOp.recorded sha3 p (.proposeBlock blockData prevHash timestampMs signFn)) := by
  unfold proposeBlock PropagatorOp.recorded
  by_cases hlead : p.isLeader = true
  · by_cases hsize : maxBlockSize < blockData.length
    · have hsize' : ¬ blockData.length ≤ maxBlockSize := by omega
      simp only [hlead, hsize, hsize', Bool.not_true, Bool.false_eq_true, if_false, if_true, and_false]
      exact .quiet (.refl p)
    · have hsize' : blockData.length ≤ maxBlockSize := by omega
      simp only [hlead, hsize, hsize', Bool.not_true, Bool.false_eq_true, if_false, if_true, and_true]
      refine .record _ _ ⟨rfl, rfl⟩ (fun l => pendingHash_insert _ _ l _) rfl ?_
      intro v hv
      exact .inl (votesOf_append_other _ rfl hv)
  · simp only [hlead, Bool.not_false, if_true, Bool.false_eq_true, false_and, if_false]
    exact .quiet (.refl p)

/-- **A proposal** files its block, with a vote for it, or changes nothing. -/
theorem processProposal_change (proposal : BlockProposal) (timestampMs : UInt64)
    (verifyFn : List UInt8 → List UInt8 → NodeId → Bool) (signFn : List UInt8 → List UInt8) :
    Change p (p.processProposal sha3 proposal timestampMs verifyFn signFn).1
      (PropagatorOp.recorded sha3 p (.processProposal proposal timestampMs verifyFn signFn)) := by
  show Change p _ (if p.proposalError? sha3 proposal verifyFn = none then
    some (proposal.slot, proposal.blockHash) else none)
  unfold processProposal
  cases p.proposalError? sha3 proposal verifyFn with
  | some e => exact .quiet (.refl p)
  | none =>
      rw [if_pos rfl]
      have hpend : ∀ l, (((p.catchUp proposal).pendingBlocks.insert proposal.slot
          (.new proposal timestampMs)).lookup l).map (·.proposal.blockHash) =
          if l = proposal.slot then some proposal.blockHash else p.pendingHash l := by
        intro l
        rw [catchUp_pendingBlocks]
        exact pendingHash_insert _ _ l _
      by_cases hval : p.nodeId ∈ p.validators
      · -- a validator queues its vote for the recorded block
        simp only [catchUp_validators, catchUp_nodeId, List.contains_eq_mem, hval, decide_true, Bool.not_true,
          Bool.false_eq_true, if_false]
        refine .record _ _ ⟨rfl, rfl⟩ hpend (catchUp_committedBlocks proposal) ?_
        intro v hv
        simp only [queuedVotes, catchUp_outboundMessages, votesOf_append, List.mem_append] at hv
        rcases hv with hv | hv
        · exact .inl hv
        · have heq : v = _ := List.mem_singleton.mp hv
          exact .inr ⟨hval, by rw [heq]; rfl, by rw [heq]; rfl⟩
      · simp only [catchUp_validators, catchUp_nodeId, List.contains_eq_mem, hval, decide_false, Bool.not_false,
          if_true]
        refine .record _ _ ⟨rfl, rfl⟩ hpend (catchUp_committedBlocks proposal) ?_
        intro v hv
        simp only [queuedVotes, catchUp_outboundMessages] at hv
        exact .inl hv

/-! ### What a vote can do -/

/-- The pending block `process_vote` hands a vote to: the voter is a validator that was not heard yet, the signature
verifies, and the block pending in the vote's slot has the vote's hash. -/
def admitted (p : BlockPropagator) (vote : BlockVote) (verifyFn : List UInt8 → List UInt8 → NodeId → Bool) :
    Option PendingBlock :=
  if p.validators.contains vote.voterId ∧ vote.voterId ∉ p.votersSeen ∧
      verifyFn (voteSignData vote) vote.signature vote.voterId then
    (p.pendingBlocks.lookup vote.slot).filter fun b => b.proposal.blockHash = vote.blockHash
  else none

/-- The engine after it handed the vote to the block `b`. -/
def counting (p : BlockPropagator) (vote : BlockVote) (b : PendingBlock) : BlockPropagator :=
  { p with
    votersSeen := insert vote.voterId p.votersSeen
    pendingBlocks := p.pendingBlocks.insert vote.slot (b.addVote vote p.quorum).1 }

/-- The certificate `commit_block` sends for a block. -/
def certificateOf (sha3 : List UInt8 → BlockHash) (p : BlockPropagator) (b : PendingBlock) : BlockCommit where
  view := b.proposal.view
  round := b.proposal.round
  blockHash := b.proposal.blockHash
  voteSignatures := b.votes
  stateRoot := computeStateRoot sha3 b.proposal p.stateRoot

/-- The engine after it committed the block `b` of a slot. -/
def committing (sha3 : List UInt8 → BlockHash) (p : BlockPropagator) (key : Slot) (b : PendingBlock) :
    BlockPropagator :=
  { p with
    pendingBlocks := p.pendingBlocks.insert key { b with state := .committed }
    stateRoot := computeStateRoot sha3 b.proposal p.stateRoot
    committedBlocks := p.committedBlocks.insert key b.proposal.blockHash
    outboundMessages := p.outboundMessages ++ [.blockCommit (p.certificateOf sha3 b)]
    round := p.round + 1
    votersSeen := ∅ }

/-- When a vote is counted: it comes from a validator that has not voted, verifies, and its block is pending. -/
theorem admitted_eq_some {vote : BlockVote} {verifyFn : List UInt8 → List UInt8 → NodeId → Bool} {b : PendingBlock} :
    p.admitted vote verifyFn = some b ↔
      (vote.voterId ∈ p.validators ∧ vote.voterId ∉ p.votersSeen ∧
        verifyFn (voteSignData vote) vote.signature vote.voterId = true) ∧
      p.pendingBlocks.lookup vote.slot = some b ∧ b.proposal.blockHash = vote.blockHash := by
  unfold admitted
  split
  · rename_i hvoter
    rw [Option.filter_eq_some_iff, decide_eq_true_eq]
    exact ⟨fun h => ⟨by simpa using hvoter, h⟩, fun h => h.2⟩
  · rename_i hvoter
    refine ⟨fun h => absurd h (Option.some_ne_none b).symm, fun h => absurd ?_ hvoter⟩
    simpa using h.1

/-- A vote of the block's own slot and hash, from a voter without one, is appended; any other leaves the block. -/
theorem addVote_cases (b : PendingBlock) (vote : BlockVote) (quorum : Nat) :
    ((vote.slot ≠ b.proposal.slot ∨ vote.blockHash ≠ b.proposal.blockHash ∨ ∃ v ∈ b.votes, v.voterId = vote.voterId) ∧
      b.addVote vote quorum = (b, false)) ∨
    ((vote.slot = b.proposal.slot ∧ vote.blockHash = b.proposal.blockHash ∧ ∀ v ∈ b.votes, v.voterId ≠ vote.voterId) ∧
      ((quorum ≤ b.votes.length + 1 ∧ b.state = .proposed ∧
          b.addVote vote quorum = ({ b with votes := b.votes ++ [vote], state := .prepared }, true)) ∨
        (¬ (quorum ≤ b.votes.length + 1 ∧ b.state = .proposed) ∧
          b.addVote vote quorum = ({ b with votes := b.votes ++ [vote] }, false)))) := by
  unfold PendingBlock.addVote
  by_cases hslot : vote.slot = b.proposal.slot
  · obtain ⟨hview, hround⟩ := Prod.mk.inj hslot
    by_cases hhash : vote.blockHash = b.proposal.blockHash
    · rw [if_neg (by simp [hview, hround, hhash])]
      by_cases hdup : ∃ v ∈ b.votes, v.voterId = vote.voterId
      · rw [if_pos (by simpa using hdup)]
        exact .inl ⟨.inr (.inr hdup), rfl⟩
      · rw [if_neg (by simpa using hdup)]
        refine .inr ⟨⟨hslot, hhash, by simpa using hdup⟩, ?_⟩
        simp only [List.length_append, List.length_singleton]
        by_cases hquorum : quorum ≤ b.votes.length + 1 ∧ b.state = .proposed
        · rw [if_pos hquorum]
          exact .inl ⟨hquorum.1, hquorum.2, rfl⟩
        · rw [if_neg hquorum]
          exact .inr ⟨hquorum, rfl⟩
    · rw [if_pos (.inr (.inr hhash))]
      exact .inl ⟨.inr (.inl hhash), rfl⟩
  · rw [if_pos]
    · exact .inl ⟨.inl hslot, rfl⟩
    · by_contra hsame
      rw [not_or, not_or, not_not, not_not] at hsame
      exact hslot (Prod.ext hsame.1 hsame.2.1)

/-- A vote that completes the quorum leaves its block prepared. -/
theorem addVote_completed {b : PendingBlock} {vote : BlockVote} {quorum : Nat}
    (h : (b.addVote vote quorum).2 = true) : (b.addVote vote quorum).1.state = .prepared := by
  rcases addVote_cases b vote quorum with ⟨-, heq⟩ | ⟨-, ⟨-, -, heq⟩ | ⟨-, heq⟩⟩
  · rw [heq] at h
    cases h
  · rw [heq]
  · rw [heq] at h
    cases h

/-- **The inversion of `process_vote`.** A vote is refused and changes nothing; or it is handed to a pending block;
or it completes that block's quorum, and the block is committed in the same call. -/
theorem processVote_cases (sha3 : List UInt8 → BlockHash) (p : BlockPropagator) (vote : BlockVote)
    (verifyFn : List UInt8 → List UInt8 → NodeId → Bool) :
    (p.admitted vote verifyFn = none ∧ ∃ e, p.processVote sha3 vote verifyFn = (p, .error e)) ∨
    ∃ b, p.admitted vote verifyFn = some b ∧
      (((b.addVote vote p.quorum).2 = false ∧ p.processVote sha3 vote verifyFn = (p.counting vote b, .ok false)) ∨
        ((b.addVote vote p.quorum).2 = true ∧ p.processVote sha3 vote verifyFn =
          ((p.counting vote b).committing sha3 vote.slot (b.addVote vote p.quorum).1, .ok true))) := by
  unfold processVote admitted
  by_cases hvalidator : p.validators.contains vote.voterId = true
  swap
  · simp only [hvalidator, Bool.not_false, if_true, Bool.false_eq_true, false_and, if_false]
    exact .inl ⟨trivial, _, rfl⟩
  by_cases hseen : vote.voterId ∈ p.votersSeen
  · simp only [hvalidator, hseen, Bool.not_true, Bool.false_eq_true, if_false, if_true, not_true_eq_false, false_and,
      and_false]
    exact .inl ⟨trivial, _, rfl⟩
  by_cases hsig : verifyFn (voteSignData vote) vote.signature vote.voterId = true
  swap
  · simp only [hvalidator, hseen, hsig, Bool.not_true, Bool.not_false, Bool.false_eq_true, if_false, if_true, and_false]
    exact .inl ⟨trivial, _, rfl⟩
  simp only [hvalidator, hseen, hsig, Bool.not_true, Bool.false_eq_true, if_false, if_true, not_false_eq_true, and_self]
  cases hb : p.pendingBlocks.lookup vote.slot with
  | none => exact .inl ⟨rfl, _, rfl⟩
  | some b =>
      by_cases hhash : b.proposal.blockHash = vote.blockHash
      · refine .inr ⟨b, by simp [Option.filter, hhash], ?_⟩
        cases hquorum : (b.addVote vote p.quorum).2 with
        | false =>
            left
            simp only [hhash, hquorum, ne_eq, not_true_eq_false, if_false, Bool.false_eq_true]
            exact ⟨trivial, rfl⟩
        | true =>
            -- `commit_block` finds the block that `add_vote` just prepared
            right
            have hstate := addVote_completed hquorum
            simp only [hhash, hquorum, ne_eq, not_true_eq_false, if_false, if_true, commitBlock, AList.lookup_insert,
              hstate]
            exact ⟨trivial, rfl⟩
      · left
        simp only [Option.filter, hhash, Ne.symm hhash, ne_eq, not_false_eq_true, if_true, decide_false,
          Bool.false_eq_true, if_false]
        exact ⟨trivial, _, rfl⟩

/-- **A vote** queues none. -/
theorem processVote_quiet (vote : BlockVote) (verifyFn : List UInt8 → List UInt8 → NodeId → Bool) :
    Quiet p (p.processVote sha3 vote verifyFn).1 := by
  rcases processVote_cases sha3 p vote verifyFn with ⟨-, e, heq⟩ | ⟨b, hadm, hcase⟩
  · rw [heq]
    exact .refl p
  have hb := (admitted_eq_some.mp hadm).2.1
  -- the pending block gets the vote, and its proposal stays
  have hcount : Quiet p (p.counting vote b) := by
    refine ⟨⟨rfl, rfl⟩, fun l => pendingHash_replace hb ?_ l, fun _ hk => hk, fun _ hv => hv⟩
    rw [addVote_proposal]
  rcases hcase with ⟨-, heq⟩ | ⟨-, heq⟩
  · rw [heq]
    exact hcount
  · rw [heq]
    refine hcount.trans ⟨⟨rfl, rfl⟩, fun l => pendingHash_replace (AList.lookup_insert _) (by rfl) l, ?_, ?_⟩
    · exact fun k hk => (AList.mem_insert _).mpr (.inr hk)
    · exact votesOf_append_other _ rfl

/-- **A certificate** takes its block out and commits the slot, or changes nothing. -/
theorem processCommit_change (commit : BlockCommit) (verifyFn : List UInt8 → List UInt8 → NodeId → Bool) :
    Change p (p.processCommit commit verifyFn).1 none := by
  unfold processCommit
  split
  · exact .quiet (.refl p)
  split
  · exact .quiet (.refl p)
  dsimp only
  have hk : commit.slot ∈ p.committedBlocks.insert commit.slot commit.blockHash :=
    (AList.mem_insert _).mpr (.inl rfl)
  have hcom : ∀ l ∈ p.committedBlocks, l ∈ p.committedBlocks.insert commit.slot commit.blockHash :=
    fun l hl => (AList.mem_insert _).mpr (.inr hl)
  split
  · exact .remove commit.slot ⟨rfl, rfl⟩ (pendingHash_erase _ _) hk hcom fun _ hv => hv
  · exact .remove commit.slot ⟨rfl, rfl⟩ (pendingHash_erase _ _) hk hcom fun _ hv => hv

/-- Asking for another view queues no vote. -/
theorem initiateViewChange_quiet (timestampMs : UInt64) (signFn : List UInt8 → List UInt8) :
    Quiet p (p.initiateViewChange timestampMs signFn).1 :=
  ⟨⟨rfl, rfl⟩, fun _ => rfl, fun _ h => h, votesOf_append_other _ rfl⟩

/-- Nor does another's request. -/
theorem processViewChange_quiet (msg : P2PViewChange) (verifyFn : List UInt8 → List UInt8 → NodeId → Bool) :
    Quiet p (p.processViewChange msg verifyFn).1 := by
  unfold processViewChange
  split
  · exact .refl p
  split
  · exact .refl p
  exact ⟨⟨rfl, rfl⟩, fun _ => rfl, fun _ h => h, fun _ h => h⟩

/-- Nor the end of a view change. -/
theorem completeViewChange_quiet (signFn : List UInt8 → List UInt8) :
    Quiet p (p.completeViewChange signFn).1 := by
  unfold completeViewChange
  split
  · exact .refl p
  split
  · exact .refl p
  split
  · exact .refl p
  split
  · exact .refl p
  exact ⟨⟨rfl, rfl⟩, fun _ => rfl, fun _ h => h, votesOf_append_other _ rfl⟩

/-- Nor its announcement. -/
theorem processNewView_quiet (msg : P2PNewView) (verifyFn : List UInt8 → List UInt8 → NodeId → Bool) :
    Quiet p (p.processNewView msg verifyFn).1 := by
  unfold processNewView
  split
  · exact .refl p
  split
  · exact .refl p
  split
  · exact .refl p
  split
  · exact .refl p
  split
  · exact .refl p
  exact ⟨⟨rfl, rfl⟩, fun _ => rfl, fun _ h => h, fun _ h => h⟩

end BlockPropagator

variable {sha3} {p : BlockPropagator}

/-- **The inversion of a call.** -/
theorem PropagatorOp.call_change (sha3 : List UInt8 → BlockHash) (p : BlockPropagator) (op : PropagatorOp) :
    Change p (op.call sha3 p) (op.recorded sha3 p) := by
  cases op with
  | proposeBlock => exact BlockPropagator.proposeBlock_change ..
  | processProposal => exact BlockPropagator.processProposal_change ..
  | processVote => exact .quiet (BlockPropagator.processVote_quiet ..)
  | processCommit => exact BlockPropagator.processCommit_change ..
  | initiateViewChange => exact .quiet (BlockPropagator.initiateViewChange_quiet ..)
  | processViewChange => exact .quiet (BlockPropagator.processViewChange_quiet ..)
  | completeViewChange => exact .quiet (BlockPropagator.completeViewChange_quiet ..)
  | processNewView => exact .quiet (BlockPropagator.processNewView_quiet ..)
  | drainOutbound => exact .quiet ⟨⟨rfl, rfl⟩, fun _ => rfl, fun _ h => h, fun _ h => absurd h List.not_mem_nil⟩

/-! ## The invariant and the run -/

/-- The slot of an old vote is still marked: its block is pending, or it is gone and the slot is committed. -/
def Marked (p : BlockPropagator) (v : BlockVote) : Prop :=
  p.pendingHash v.slot = some v.blockHash ∨ (p.pendingHash v.slot = none ∧ v.slot ∈ p.committedBlocks)

/-- Votes come from validators only, their slots stay marked, and they agree. A slot in which the node voted has the
block pending, and when the block goes the slot is committed; so it is not free for another block, and a vote for
another block would need that. No call changes the node or its validators. -/
structure VotesInv (p : BlockPropagator) (h : List BlockPropagator) : Prop where
  validator : ∀ s ∈ h, ∀ v ∈ s.queuedVotes, p.nodeId ∈ p.validators
  marked : ∀ s ∈ h, ∀ v ∈ s.queuedVotes, Marked p v
  agree : NeverEquivocates h

/-- A block recorded in a free slot agrees with every vote whose slot is still marked. -/
theorem Marked.eq_of_slotFree {v : BlockVote} {k : Slot} {h : BlockHash} (hm : Marked p v)
    (hfree : p.SlotFree k h) (hk : v.slot = k) : v.blockHash = h := by
  subst hk
  rcases hm with hm | ⟨hnone, hcom⟩
  · rcases hfree with hf | ⟨hf, -⟩
    · exact Option.some.inj (hm.symm.trans hf)
    · rw [hm] at hf
      cases hf
  · rcases hfree with hf | ⟨-, hf⟩
    · rw [hnone] at hf
      cases hf
    · exact absurd hcom (AList.lookup_eq_none.mp hf)

/-- A marked slot stays marked when nothing happens to it. -/
theorem Marked.quiet {v : BlockVote} {p' : BlockPropagator} (hm : Marked p v) (hq : Quiet p p') : Marked p' v := by
  unfold Marked
  rw [hq.pend]
  exact hm.imp id (And.imp id (hq.com _))

/-- And when a block is taken out, as its slot is then committed. -/
theorem Marked.remove {v : BlockVote} {p' : BlockPropagator} {k : Slot} (hm : Marked p v)
    (hpend : ∀ l, p'.pendingHash l = if l = k then none else p.pendingHash l) (hk : k ∈ p'.committedBlocks)
    (hcom : ∀ l ∈ p.committedBlocks, l ∈ p'.committedBlocks) : Marked p' v := by
  unfold Marked
  rw [hpend]
  split
  · rename_i hv
    exact .inr ⟨rfl, hv ▸ hk⟩
  · exact hm.imp id (And.imp id (hcom _))

/-- And when a block is filed in a free slot. -/
theorem Marked.record {v : BlockVote} {p' : BlockPropagator} {k : Slot} {h : BlockHash} (hm : Marked p v)
    (hfree : p.SlotFree k h) (hpend : ∀ l, p'.pendingHash l = if l = k then some h else p.pendingHash l)
    (hcom : p'.committedBlocks = p.committedBlocks) : Marked p' v := by
  unfold Marked
  rw [hpend, hcom]
  split
  · rename_i hv
    exact .inl (congrArg some (hm.eq_of_slotFree hfree hv).symm)
  · exact hm

/-- A call that queues no new vote and keeps every old one marked keeps the invariant. -/
theorem VotesInv.cons {p' : BlockPropagator} {h : List BlockPropagator} (hi : VotesInv p h) (hp : p ∈ h)
    (hnode : SameNode p p') (hvotes : p'.queuedVotes ⊆ p.queuedVotes)
    (hmark : ∀ v, Marked p v → Marked p' v) : VotesInv p' (p' :: h) := by
  have hold : ∀ s ∈ p' :: h, ∀ v ∈ s.queuedVotes, ∃ t ∈ h, v ∈ t.queuedVotes := by
    intro s hs v hv
    rcases List.mem_cons.mp hs with rfl | hs
    · exact ⟨p, hp, hvotes hv⟩
    · exact ⟨s, hs, hv⟩
  refine ⟨?_, ?_, ?_⟩
  · intro s hs v hv
    obtain ⟨t, ht, hvt⟩ := hold s hs v hv
    rw [hnode.1, hnode.2]
    exact hi.validator t ht v hvt
  · intro s hs v hv
    obtain ⟨t, ht, hvt⟩ := hold s hs v hv
    exact hmark v (hi.marked t ht v hvt)
  · intro s₁ hs₁ s₂ hs₂ v₁ hv₁ v₂ hv₂
    obtain ⟨t₁, ht₁, hvt₁⟩ := hold s₁ hs₁ v₁ hv₁
    obtain ⟨t₂, ht₂, hvt₂⟩ := hold s₂ hs₂ v₂ hv₂
    exact hi.agree t₁ ht₁ t₂ ht₂ v₁ hvt₁ v₂ hvt₂

/-- A block recorded in a free slot, with at most a vote for it, keeps the invariant. -/
theorem VotesInv.record {p' : BlockPropagator} {h : List BlockPropagator} {k : Slot} {b : BlockHash}
    (hi : VotesInv p h) (hp : p ∈ h) (hnode : SameNode p p')
    (hfree : p.nodeId ∈ p.validators → p.SlotFree k b)
    (hpend : ∀ l, p'.pendingHash l = if l = k then some b else p.pendingHash l)
    (hcom : p'.committedBlocks = p.committedBlocks)
    (hvotes : ∀ v ∈ p'.queuedVotes,
      v ∈ p.queuedVotes ∨ (p.nodeId ∈ p.validators ∧ v.slot = k ∧ v.blockHash = b)) :
    VotesInv p' (p' :: h) := by
  -- every vote of the longer history is an old one, or the new one for the recorded block
  have hold : ∀ s ∈ p' :: h, ∀ v ∈ s.queuedVotes,
      (∃ t ∈ h, v ∈ t.queuedVotes) ∨ (p.nodeId ∈ p.validators ∧ v.slot = k ∧ v.blockHash = b) := by
    intro s hs v hv
    rcases List.mem_cons.mp hs with rfl | hs
    · exact (hvotes v hv).imp (fun hv => ⟨p, hp, hv⟩) id
    · exact .inl ⟨s, hs, hv⟩
  -- an old vote for the recorded slot was for the recorded block
  have hsame : ∀ t ∈ h, ∀ v ∈ t.queuedVotes, v.slot = k → v.blockHash = b := fun t ht v hv hk =>
    (hi.marked t ht v hv).eq_of_slotFree (hfree (hi.validator t ht v hv)) hk
  refine ⟨?_, ?_, ?_⟩
  · intro s hs v hv
    rw [hnode.1, hnode.2]
    rcases hold s hs v hv with ⟨t, ht, hvt⟩ | ⟨hval, -, -⟩
    · exact hi.validator t ht v hvt
    · exact hval
  · intro s hs v hv
    rcases hold s hs v hv with ⟨t, ht, hvt⟩ | ⟨-, hk, hb⟩
    · exact (hi.marked t ht v hvt).record (hfree (hi.validator t ht v hvt)) hpend hcom
    · left
      rw [hpend, if_pos hk, hb]
  · intro s₁ hs₁ s₂ hs₂ v₁ hv₁ v₂ hv₂ heq
    rcases hold s₁ hs₁ v₁ hv₁ with ⟨t₁, ht₁, hvt₁⟩ | ⟨-, hk₁, hb₁⟩
    · rcases hold s₂ hs₂ v₂ hv₂ with ⟨t₂, ht₂, hvt₂⟩ | ⟨-, hk₂, hb₂⟩
      · exact hi.agree t₁ ht₁ t₂ ht₂ v₁ hvt₁ v₂ hvt₂ heq
      · rw [hb₂]
        exact hsame t₁ ht₁ v₁ hvt₁ (heq.trans hk₂)
    · rcases hold s₂ hs₂ v₂ hv₂ with ⟨t₂, ht₂, hvt₂⟩ | ⟨-, hk₂, hb₂⟩
      · rw [hb₁]
        exact (hsame t₂ ht₂ v₂ hvt₂ (heq.symm.trans hk₁)).symm
      · rw [hb₁, hb₂]

/-- **The step lemma**: a call that files blocks in free slots only keeps the invariant. -/
theorem VotesInv.step {op : PropagatorOp} {past : List BlockPropagator} (hi : VotesInv p (p :: past))
    (hok : RecordsInFreeSlot sha3 op p) : VotesInv (op.call sha3 p) (op.call sha3 p :: p :: past) := by
  have hp : p ∈ p :: past := List.mem_cons_self
  have hc := op.call_change sha3 p
  unfold RecordsInFreeSlot at hok
  revert hok hc
  generalize op.recorded sha3 p = x
  intro hok hc
  cases hc with
  | quiet hq => exact hi.cons hp hq.node hq.votes fun v hm => hm.quiet hq
  | record k b hnode hpend hcom hvotes =>
      exact hi.record hp hnode (fun hval => hok hval (k, b) rfl) hpend hcom hvotes
  | remove k hnode hpend hk hcom hvotes =>
      exact hi.cons hp hnode hvotes fun v hm => hm.remove hpend hk hcom

/-- **One vote per slot.** In every run in which a validator records blocks only in free slots, no two votes it ever
queued for one view and round differ in their block. The slot of a vote has its block pending or is committed, so it
is free for no other block. -/
theorem never_equivocates (sha3 : List UInt8 → BlockHash) (h : List BlockPropagator)
    (hr : (propagator sha3).Run (RecordsInFreeSlot sha3) h) : NeverEquivocates h := by
  cases h with
  | nil =>
      intro s hs
      exact absurd hs List.not_mem_nil
  | cons s past =>
      refine (System.Run.invariant_head (P := VotesInv) ?_ ?_ hr).agree
      · rintro s ⟨nodeId, validators, rfl⟩
        have hnone : ∀ t ∈ [BlockPropagator.new nodeId validators], t.queuedVotes = [] := by
          intro t ht
          rw [List.mem_singleton.mp ht]
          rfl
        refine ⟨?_, ?_, ?_⟩
        · intro t ht v hv
          rw [hnone t ht] at hv
          exact absurd hv List.not_mem_nil
        · intro t ht v hv
          rw [hnone t ht] at hv
          exact absurd hv List.not_mem_nil
        · intro t ht _ _ v hv
          rw [hnone t ht] at hv
          exact absurd hv List.not_mem_nil
      · rintro s past op s' - hi hok ⟨⟩
        exact hi.step hok

/-! ## Two runs of a validator -/

/-- A stand-in for SHA3-256 to run scripts with: the sum of the bytes in the first place. -/
def scriptSha3 (data : List UInt8) : BlockHash := BlockPropagator.makeNodeId data.sum

/-- The proposal of the first of four validators in view 0 for the given round and data. -/
def scriptProposal (round : UInt64) (blockData : List UInt8) : BlockProposal :=
  ({ BlockPropagator.quartet with round := round }).ownProposal scriptSha3 blockData (Vector.replicate 32 0) 1000
    (BlockPropagator.scriptSign (BlockPropagator.makeNodeId 1))

/-- The call that delivers it to the second validator. -/
def deliver (round : UInt64) (blockData : List UInt8) : PropagatorOp :=
  .processProposal (scriptProposal round blockData) 1001 BlockPropagator.scriptVerify
    (BlockPropagator.scriptSign (BlockPropagator.makeNodeId 2))

/-- The second of four validators. -/
def secondOfFour : BlockPropagator :=
  .new (BlockPropagator.makeNodeId 2)
    [BlockPropagator.makeNodeId 1, BlockPropagator.makeNodeId 2, BlockPropagator.makeNodeId 3,
      BlockPropagator.makeNodeId 4]

/-- A proposal, the same again, and the one of the next round: three votes, all within the guard. -/
theorem never_equivocates_three_votes : ∃ s past,
    (propagator scriptSha3).Run (RecordsInFreeSlot scriptSha3) (s :: past) ∧ s.queuedVotes.length = 3 ∧
      NeverEquivocates (s :: past) := by
  obtain ⟨s, past, hr, hlen⟩ := System.exists_run_of_play (M := propagator scriptSha3)
    (RecordsInFreeSlot scriptSha3) (P := fun s _ => s.queuedVotes.length = 3) (s := secondOfFour) ⟨_, _, rfl⟩
    [fun _ => deliver 0 [1], fun _ => deliver 0 [1], fun _ => deliver 1 [2]] (by decide +kernel)
  exact ⟨s, past, hr, hlen, never_equivocates scriptSha3 (s :: past) hr⟩

/-- A leader that signs two blocks for one view and round gets a vote for each. -/
theorem votes_for_both_proposals : ¬ ∀ (sha3 : List UInt8 → BlockHash) (h : List BlockPropagator),
    (propagator sha3).Run (fun _ _ => True) h → NeverEquivocates h := by
  intro hall
  obtain ⟨s, past, hr, hne⟩ := System.exists_run_of_play (M := propagator scriptSha3)
    (fun _ _ => True) (P := fun _ h => ¬ NeverEquivocates h) (s := secondOfFour) ⟨_, _, rfl⟩
    [fun _ => deliver 0 [1], fun _ => deliver 0 [2]] (by decide +kernel)
  exact hne (hall _ _ hr)

end WarmLogic.Net
