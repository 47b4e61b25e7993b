/-
# WarmLogic.Net.PropagatorPending — what the pending blocks of the block propagation engine hold, over every run.

Two filters stand before the votes of a pending block: `voters_seen`, one set for the whole engine, and the voter
ids of the votes the block has already. The second one is enough: whatever the calls, the votes of a pending block
come from distinct validators, verify, and name the block's own slot and hash. So the certificate that
`commit_block` sends is one that `process_commit` accepts.

The first filter costs votes. It holds the voters of ALL slots and is emptied whenever the engine moves, so a vote
for one slot makes the same validator's vote for another slot a "duplicate". `delivered_commits_iff` says which
votes for a slot survive a delivery, and so when the slot's block is committed.

The rule for pending blocks (`AllPending.call`) has two premises, about a fresh block and about a vote handed to a
block, and no premise about the other calls: they remove blocks, or change nothing but states. Everything this module
says about votes in a block is an instance of it.

A delivery is a list of votes with nothing in between. For each of them it is decided by the votes before it whether
it is heard: its voter must not have been seen since the engine last moved. Hearing is for all slots and counting is
for one, so the votes for other slots matter only through the set of those seen (`heardFor`, `newVoters`).
-/
import WarmLogic.Net.PropagatorProgress

namespace WarmLogic.Net

open WarmLogic.Lib BlockPropagator

variable {sha3 : List UInt8 → BlockHash}

/-! ## A rule for pending blocks -/

/-- Every pending block satisfies `P` for the slot it is filed under. -/
def AllPending (P : Slot → PendingBlock → Prop) (p : BlockPropagator) : Prop :=
  ∀ k b, p.pendingBlocks.lookup k = some b → P k b

section Rule

variable {P : Slot → PendingBlock → Prop} {p : BlockPropagator}

/-- A block is put in. -/
theorem lookup_insert_allPending {m : AList (fun _ : Slot => PendingBlock)} {k : Slot} {b : PendingBlock}
    (hm : ∀ l c, m.lookup l = some c → P l c) (hb : P k b) : ∀ l c, (m.insert k b).lookup l = some c → P l c := by
  intro l c hc
  by_cases hl : l = k
  · rw [hl, AList.lookup_insert] at hc
    cases hc
    rw [hl]
    exact hb
  · rw [AList.lookup_insert_ne hl] at hc
    exact hm l c hc

/-- A block is taken out. -/
theorem lookup_erase_allPending {m : AList (fun _ : Slot => PendingBlock)} (hm : ∀ l c, m.lookup l = some c → P l c)
    (k : Slot) : ∀ l c, (m.erase k).lookup l = some c → P l c := by
  intro l c hc
  by_cases hl : l = k
  · rw [hl, AList.lookup_erase] at hc
    cases hc
  · rw [AList.lookup_erase_ne hl] at hc
    exact hm l c hc

/-- A vote keeps a property of all pending blocks, if counting does. -/
theorem AllPending.processVote (hp : AllPending P p) {vote : BlockVote}
    {verifyFn : List UInt8 → List UInt8 → NodeId → Bool}
    (hcount : ∀ b, p.admitted vote verifyFn = some b → P vote.slot b → (b.addVote vote p.quorum).2 = false →
      P vote.slot (b.addVote vote p.quorum).1)
    (hcommit : ∀ b, p.admitted vote verifyFn = some b → P vote.slot b → (b.addVote vote p.quorum).2 = true →
      P vote.slot { (b.addVote vote p.quorum).1 with state := .committed }) :
    AllPending P (p.processVote sha3 vote verifyFn).1 := by
  rcases processVote_cases sha3 p vote verifyFn with ⟨-, e, heq⟩ | ⟨b, hadm, ⟨hno, heq⟩ | ⟨hyes, heq⟩⟩
  · rw [heq]
    exact hp
  · rw [heq]
    have hb := hp _ _ (admitted_eq_some.mp hadm).2.1
    exact lookup_insert_allPending hp (hcount b hadm hb hno)
  · rw [heq]
    have hb := hp _ _ (admitted_eq_some.mp hadm).2.1
    -- the committed block replaces the one that just got its vote
    have hpend : (p.counting vote b |>.committing sha3 vote.slot (b.addVote vote p.quorum).1).pendingBlocks =
        p.pendingBlocks.insert vote.slot { (b.addVote vote p.quorum).1 with state := .committed } :=
      AList.insert_insert _
    unfold AllPending
    rw [hpend]
    exact lookup_insert_allPending hp (hcommit b hadm hb hyes)

/-- **The rule.** What a fresh block satisfies, and what a vote handed to a block keeps, holds of every pending
block after every call. -/
theorem AllPending.call (hp : AllPending P p) (op : PropagatorOp)
    (hnew : ∀ proposal timestampMs, P proposal.slot (.new proposal timestampMs))
    (hcount : ∀ vote verifyFn b, op = .processVote vote verifyFn → p.admitted vote verifyFn = some b →
      P vote.slot b → (b.addVote vote p.quorum).2 = false → P vote.slot (b.addVote vote p.quorum).1)
    (hcommit : ∀ vote verifyFn b, op = .processVote vote verifyFn → p.admitted vote verifyFn = some b →
      P vote.slot b → (b.addVote vote p.quorum).2 = true →
        P vote.slot { (b.addVote vote p.quorum).1 with state := .committed }) :
    AllPending P (op.call sha3 p) := by
  cases op with
  | proposeBlock blockData prevHash timestampMs signFn =>
      show AllPending P (p.proposeBlock sha3 blockData prevHash timestampMs signFn).1
      unfold BlockPropagator.proposeBlock
      split
      · exact hp
      split
      · exact hp
      exact lookup_insert_allPending hp (hnew (p.ownProposal sha3 blockData prevHash timestampMs signFn) timestampMs)
  | processProposal proposal timestampMs verifyFn signFn =>
      show AllPending P (p.processProposal sha3 proposal timestampMs verifyFn signFn).1
      have hins : ∀ l c, ((p.catchUp proposal).pendingBlocks.insert proposal.slot
          (.new proposal timestampMs)).lookup l = some c → P l c := by
        rw [catchUp_pendingBlocks]
        exact lookup_insert_allPending hp (hnew proposal timestampMs)
      unfold BlockPropagator.processProposal
      split
      · exact hp
      · dsimp only
        split
        · exact hins
        · exact hins
  | processVote vote verifyFn =>
      exact hp.processVote (fun b => hcount vote verifyFn b rfl) (fun b => hcommit vote verifyFn b rfl)
  | processCommit commit verifyFn =>
      show AllPending P (p.processCommit commit verifyFn).1
      have herase := lookup_erase_allPending hp commit.slot
      unfold BlockPropagator.processCommit
      split
      · exact hp
      split
      · exact hp
      dsimp only
      split
      · exact herase
      · exact herase
  | initiateViewChange => exact hp
  | processViewChange msg verifyFn =>
      show AllPending P (p.processViewChange msg verifyFn).1
      unfold BlockPropagator.processViewChange
      repeat' split
      all_goals exact hp
  | completeViewChange signFn =>
      show AllPending P (p.completeViewChange signFn).1
      unfold BlockPropagator.completeViewChange
      repeat' split
      all_goals exact hp
  | processNewView msg verifyFn =>
      show AllPending P (p.processNewView msg verifyFn).1
      unfold BlockPropagator.processNewView
      repeat' split
      all_goals exact hp
  | drainOutbound => exact hp

/-- Nothing is pending in a new engine. -/
theorem allPending_new (nodeId : NodeId) (validators : List NodeId) : AllPending P (.new nodeId validators) := by
  intro k b hb
  rw [show (BlockPropagator.new nodeId validators).pendingBlocks = ∅ from rfl, AList.lookup_empty] at hb
  cases hb

end Rule

/-! ## Local commits are backed by a quorum -/

/-- **What a pending block's votes are.** The block is filed under its own slot; its votes come from distinct
validators, verify, and name its slot and hash. `add_vote` compares slot, hash and voter before it appends, and
`process_vote` has verified the signature and the voter's place among the validators by then. -/
structure Vouched (validators : List NodeId) (verifyFn : List UInt8 → List UInt8 → NodeId → Bool) (k : Slot)
    (b : PendingBlock) : Prop where
  filed : b.proposal.slot = k
  distinct : (b.votes.map (·.voterId)).Nodup
  validator : ∀ v ∈ b.votes, v.voterId ∈ validators
  verified : ∀ v ∈ b.votes, verifyFn (voteSignData v) v.signature v.voterId = true
  matching : ∀ v ∈ b.votes,
    v.view = b.proposal.view ∧ v.round = b.proposal.round ∧ v.blockHash = b.proposal.blockHash

/-- The closures handed to `process_vote` accept only what `verifyFn` accepts. -/
def VerifiesBy (verifyFn : List UInt8 → List UInt8 → NodeId → Bool) (op : PropagatorOp) (_ : BlockPropagator) : Prop :=
  ∀ vote fn, op = .processVote vote fn → ∀ data sig id, fn data sig id = true → verifyFn data sig id = true

section Backed

variable {validators : List NodeId} {verifyFn : List UInt8 → List UInt8 → NodeId → Bool} {k : Slot} {b : PendingBlock}

/-- A block without votes is vouched for. -/
theorem vouched_new (proposal : BlockProposal) (timestampMs : UInt64) :
    Vouched validators verifyFn proposal.slot (.new proposal timestampMs) :=
  ⟨rfl, List.nodup_nil, fun _ hv => absurd hv List.not_mem_nil, fun _ hv => absurd hv List.not_mem_nil,
    fun _ hv => absurd hv List.not_mem_nil⟩

/-- The state of a block says nothing about its votes. -/
theorem Vouched.withState (hb : Vouched validators verifyFn k b) (state : BlockState) :
    Vouched validators verifyFn k { b with state := state } :=
  ⟨hb.filed, hb.distinct, hb.validator, hb.verified, hb.matching⟩

/-- A verified vote of a validator keeps the block vouched for, counted or not. -/
theorem Vouched.addVote (hb : Vouched validators verifyFn k b) {vote : BlockVote} (hval : vote.voterId ∈ validators)
    (hsig : verifyFn (voteSignData vote) vote.signature vote.voterId = true) (quorum : Nat) :
    Vouched validators verifyFn k (b.addVote vote quorum).1 := by
  rcases addVote_cases b vote quorum with ⟨-, heq⟩ | ⟨⟨hslot, hhash, hnew⟩, hcase⟩
  · rw [heq]
    exact hb
  have happ : Vouched validators verifyFn k { b with votes := b.votes ++ [vote] } := by
    refine ⟨hb.filed, ?_, ?_, ?_, ?_⟩
    · show ((b.votes ++ [vote]).map (·.voterId)).Nodup
      rw [List.map_append, List.nodup_append]
      refine ⟨hb.distinct, List.nodup_singleton _, ?_⟩
      intro id hid id' hid' heq
      obtain ⟨v, hv, rfl⟩ := List.mem_map.mp hid
      exact hnew v hv (heq.trans (List.mem_singleton.mp hid'))
    · exact List.forall_mem_append.mpr ⟨hb.validator, List.forall_mem_singleton.mpr hval⟩
    · exact List.forall_mem_append.mpr ⟨hb.verified, List.forall_mem_singleton.mpr hsig⟩
    · obtain ⟨hview, hround⟩ := Prod.mk.inj hslot
      exact List.forall_mem_append.mpr ⟨hb.matching, List.forall_mem_singleton.mpr ⟨hview, hround, hhash⟩⟩
  rcases hcase with ⟨-, -, heq⟩ | ⟨-, heq⟩
  · rw [heq]
    exact happ.withState .prepared
  · rw [heq]
    exact happ

/-- A vote that completes the quorum leaves that many votes in the block. -/
theorem quorum_le_of_completed {vote : BlockVote} {quorum : Nat} (h : (b.addVote vote quorum).2 = true) :
    quorum ≤ (b.addVote vote quorum).1.votes.length := by
  rcases addVote_cases b vote quorum with ⟨-, heq⟩ | ⟨-, ⟨hquorum, -, heq⟩ | ⟨-, heq⟩⟩
  · rw [heq] at h
    cases h
  · rw [heq]
    show quorum ≤ (b.votes ++ [vote]).length
    rw [List.length_append, List.length_singleton]
    exact hquorum
  · rw [heq] at h
    cases h

/-- The certificate of a vouched block with a quorum of votes is accepted wherever the quorum is the same. -/
theorem Vouched.accepted (hb : Vouched validators verifyFn k b) (p : BlockPropagator) {q : BlockPropagator}
    (hquorum : q.quorum ≤ b.votes.length) :
    (q.processCommit (p.certificateOf sha3 b) verifyFn).2 = .ok () :=
  processCommit_ok_iff.mpr ⟨hquorum, fun v hv => ⟨(hb.matching v hv).2.2, hb.verified v hv⟩⟩

/-- No call changes the validators. -/
theorem call_validators (sha3 : List UInt8 → BlockHash) (op : PropagatorOp) (p : BlockPropagator) :
    (op.call sha3 p).validators = p.validators := by
  have hc := op.call_change sha3 p
  generalize op.recorded sha3 p = x at hc
  cases hc with
  | quiet hq => exact hq.node.2
  | record _ _ hnode _ _ _ => exact hnode.2
  | remove _ hnode _ _ _ _ => exact hnode.2

/-- **The run lemma.** -/
theorem reachable_vouched {p : BlockPropagator} (hr : (propagator sha3).Reachable (VerifiesBy verifyFn) p) :
    AllPending (Vouched p.validators verifyFn) p := by
  refine System.Reachable.invariant (P := fun p => AllPending (Vouched p.validators verifyFn) p) ?_ ?_ hr
  · rintro p ⟨nodeId, validators, rfl⟩
    exact allPending_new nodeId validators
  · rintro p op p' hp hok ⟨⟩
    rw [call_validators]
    refine hp.call op vouched_new ?_ ?_
    · intro vote fn b hop hadm hb _
      obtain ⟨⟨hval, -, hsig⟩, -, -⟩ := admitted_eq_some.mp hadm
      exact hb.addVote hval (hok vote fn hop _ _ _ hsig) _
    · intro vote fn b hop hadm hb _
      obtain ⟨⟨hval, -, hsig⟩, -, -⟩ := admitted_eq_some.mp hadm
      exact (hb.addVote hval (hok vote fn hop _ _ _ hsig) _).withState .committed

end Backed

/-- **Local commits are quorum-backed.** In every reachable engine the votes of every pending block are vouched for;
and when `process_vote` returns `Ok(true)`, the committed block has a quorum of such votes, and the certificate it
sends carries them and is accepted by every node with the same validators. -/
theorem local_commits_quorum_backed (sha3 : List UInt8 → BlockHash)
    (verifyFn : List UInt8 → List UInt8 → NodeId → Bool) (p : BlockPropagator)
    (hr : (propagator sha3).Reachable (VerifiesBy verifyFn) p) :
    AllPending (Vouched p.validators verifyFn) p ∧
    ∀ vote fn, (∀ data sig id, fn data sig id = true → verifyFn data sig id = true) →
      ∀ p', p.processVote sha3 vote fn = (p', .ok true) →
      ∃ b commit,
        p'.pendingBlocks.lookup vote.slot = some b ∧
        p'.committedBlocks.lookup vote.slot = some b.proposal.blockHash ∧
        Vouched p.validators verifyFn vote.slot b ∧ p.quorum ≤ b.votes.length ∧
        p'.outboundMessages = p.outboundMessages ++ [.blockCommit commit] ∧
        commit.slot = vote.slot ∧ commit.blockHash = b.proposal.blockHash ∧ commit.voteSignatures = b.votes ∧
        ∀ q : BlockPropagator, q.validators.Perm p.validators → (q.processCommit commit verifyFn).2 = .ok () := by
  have hall := reachable_vouched hr
  refine ⟨hall, ?_⟩
  intro vote fn hfn p' hvote
  rcases processVote_cases sha3 p vote fn with ⟨-, e, heq⟩ | ⟨b, hadm, ⟨-, heq⟩ | ⟨hyes, heq⟩⟩
  · rw [heq] at hvote
    cases hvote
  · rw [heq] at hvote
    cases hvote
  · rw [heq] at hvote
    cases hvote
    obtain ⟨⟨hval, -, hsig⟩, hb, -⟩ := admitted_eq_some.mp hadm
    have hvouched := (hall _ _ hb).addVote hval (hfn _ _ _ hsig) p.quorum
    have hquorum := quorum_le_of_completed hyes
    refine ⟨{ (b.addVote vote p.quorum).1 with state := .committed }, certificateOf sha3 p (b.addVote vote p.quorum).1,
      AList.lookup_insert _, AList.lookup_insert _, hvouched.withState _, hquorum, rfl, hvouched.filed, rfl, rfl, ?_⟩
    intro q hperm
    refine hvouched.accepted p ?_
    show quorumThreshold q.validators.length ≤ _
    rw [hperm.length_eq]
    exact hquorum

/-- The vote of node `n` for a proposal. -/
def ballot (n : UInt8) (proposal : BlockProposal) : BlockVote :=
  voteFor (.new (makeNodeId n) []) proposal (scriptSign (makeNodeId n))

/-- The first of four validators proposes a block and gets the votes of nodes 2 and 3. -/
def twoVotes : BlockPropagator :=
  let p := (quartet.proposeBlock scriptSha3 [1] (Vector.replicate 32 0) 1000 (scriptSign (makeNodeId 1))).1
  let p := (p.processVote scriptSha3 (ballot 2 (scriptProposal 0 [1])) scriptVerify).1
  (p.processVote scriptSha3 (ballot 3 (scriptProposal 0 [1])) scriptVerify).1

/-- It is the state of a run. -/
theorem twoVotes_reachable : (propagator scriptSha3).Reachable (VerifiesBy scriptVerify) twoVotes := by
  refine ⟨_, .step (a := .processVote (ballot 3 (scriptProposal 0 [1])) scriptVerify)
    (.step (a := .processVote (ballot 2 (scriptProposal 0 [1])) scriptVerify)
      (.step (a := .proposeBlock [1] (Vector.replicate 32 0) 1000 (scriptSign (makeNodeId 1)))
        (.init ⟨_, _, rfl⟩) ?_ rfl) ?_ rfl) ?_ rfl⟩
  · rintro vote fn ⟨⟩
  · rintro vote fn ⟨⟩ data sig id h
    exact h
  · rintro vote fn ⟨⟩ data sig id h
    exact h

/-- The vote of node 4 completes the quorum, and the first validator sends a certificate any of the four accepts. -/
theorem local_commits_quorum_backed_third_vote :
    (propagator scriptSha3).Reachable (VerifiesBy scriptVerify) twoVotes ∧
    ∃ p' b, twoVotes.processVote scriptSha3 (ballot 4 (scriptProposal 0 [1])) scriptVerify = (p', .ok true) ∧
      Vouched twoVotes.validators scriptVerify (0, 0) b ∧ twoVotes.quorum ≤ b.votes.length := by
  have hok : (twoVotes.processVote scriptSha3 (ballot 4 (scriptProposal 0 [1])) scriptVerify).2.toOption = some true := by
    decide +kernel
  refine ⟨twoVotes_reachable, ?_⟩
  obtain ⟨p', hp'⟩ : ∃ p', twoVotes.processVote scriptSha3 (ballot 4 (scriptProposal 0 [1])) scriptVerify =
      (p', .ok true) := by
    generalize twoVotes.processVote scriptSha3 (ballot 4 (scriptProposal 0 [1])) scriptVerify = x at hok
    obtain ⟨p', _ | flag⟩ := x
    · cases hok
    · cases hok
      exact ⟨p', rfl⟩
  obtain ⟨b, -, -, -, hvouched, hquorum, -⟩ :=
    (local_commits_quorum_backed scriptSha3 scriptVerify twoVotes twoVotes_reachable).2 _ scriptVerify
      (fun _ _ _ h => h) p' hp'
  exact ⟨p', b, hp', hvouched, hquorum⟩

/-! ## Votes that are delivered, and votes that count -/

/-- Votes handed to `process_vote` one after another. -/
def deliverVotes (sha3 : List UInt8 → BlockHash) (verifyFn : List UInt8 → List UInt8 → NodeId → Bool)
    (p : BlockPropagator) (votes : List BlockVote) : BlockPropagator :=
  votes.foldl (fun p vote => (p.processVote sha3 vote verifyFn).1) p

/-- The voters whose vote for the slot `k` comes in while they are not in `voters_seen`. -/
def heardFor (sha3 : List UInt8 → BlockHash) (verifyFn : List UInt8 → List UInt8 → NodeId → Bool) (k : Slot) :
    BlockPropagator → List BlockVote → List NodeId
  | _, [] => []
  | p, vote :: votes =>
      (if vote.slot = k ∧ vote.voterId ∉ p.votersSeen then [vote.voterId] else []) ++
        heardFor sha3 verifyFn k (p.processVote sha3 vote verifyFn).1 votes

/-- Those of them the block has no vote of yet. -/
def newVoters (sha3 : List UInt8 → BlockHash) (verifyFn : List UInt8 → List UInt8 → NodeId → Bool) (k : Slot)
    (b : PendingBlock) (p : BlockPropagator) (votes : List BlockVote) : List NodeId :=
  (heardFor sha3 verifyFn k p votes).filter fun id => ∀ v ∈ b.votes, v.voterId ≠ id

/-- The votes that count bring the block to its quorum. -/
def ReachesQuorum (sha3 : List UInt8 → BlockHash) (verifyFn : List UInt8 → List UInt8 → NodeId → Bool) (k : Slot)
    (b : PendingBlock) (p : BlockPropagator) (votes : List BlockVote) : Prop :=
  b.state = .proposed ∧ newVoters sha3 verifyFn k b p votes ≠ [] ∧
    p.quorum ≤ b.votes.length + (newVoters sha3 verifyFn k b p votes).length

/-- **A delivery of votes.** The votes of the validators `S`, at least a quorum, for the block `b` pending in slot `k`,
one vote each, among valid votes of the same validators for other pending slots, in any order. -/
structure Delivery (verifyFn : List UInt8 → List UInt8 → NodeId → Bool) (p : BlockPropagator) (k : Slot)
    (b : PendingBlock) (S : Finset NodeId) (votes : List BlockVote) : Prop where
  pending : p.pendingBlocks.lookup k = some b
  filed : b.proposal.slot = k
  quorum : p.quorum ≤ S.card
  validators : ∀ m ∈ S, m ∈ p.validators
  once : ∀ m ∈ S, votes.countP (fun v => v.slot = k ∧ v.voterId = m) = 1
  cast : ∀ v ∈ votes, v.voterId ∈ S ∧ verifyFn (voteSignData v) v.signature v.voterId = true ∧
    p.pendingHash v.slot = some v.blockHash

section Delivered

variable {verifyFn : List UInt8 → List UInt8 → NodeId → Bool} {p : BlockPropagator} {k : Slot} {b : PendingBlock}
  {vote : BlockVote}

/-- No vote changes the quorum. -/
theorem processVote_quorum (vote : BlockVote) : (p.processVote sha3 vote verifyFn).1.quorum = p.quorum := by
  show quorumThreshold (PropagatorOp.call sha3 p (.processVote vote verifyFn)).validators.length = _
  rw [call_validators]
  rfl

/-- A vote for another slot leaves the block and the commit of this one. -/
theorem processVote_elsewhere (sha3 : List UInt8 → BlockHash) (p : BlockPropagator)
    (verifyFn : List UInt8 → List UInt8 → NodeId → Bool) (hk : vote.slot ≠ k) :
    (p.processVote sha3 vote verifyFn).1.pendingBlocks.lookup k = p.pendingBlocks.lookup k ∧
      (p.processVote sha3 vote verifyFn).1.committedBlocks.lookup k = p.committedBlocks.lookup k := by
  rcases processVote_cases sha3 p vote verifyFn with ⟨-, e, heq⟩ | ⟨b, -, ⟨-, heq⟩ | ⟨-, heq⟩⟩
  · rw [heq]
    exact ⟨rfl, rfl⟩
  · rw [heq]
    exact ⟨AList.lookup_insert_ne hk.symm, rfl⟩
  · rw [heq]
    refine ⟨?_, AList.lookup_insert_ne hk.symm⟩
    show ((p.pendingBlocks.insert vote.slot _).insert vote.slot _).lookup k = _
    rw [AList.lookup_insert_ne hk.symm, AList.lookup_insert_ne hk.symm]

/-- A vote of a voter in `voters_seen` is lost. -/
theorem processVote_seen (hseen : vote.voterId ∈ p.votersSeen) : (p.processVote sha3 vote verifyFn).1 = p := by
  rcases processVote_cases sha3 p vote verifyFn with ⟨-, e, heq⟩ | ⟨b, hadm, -⟩
  · rw [heq]
  · exact absurd hseen (admitted_eq_some.mp hadm).1.2.1

/-- What a vote that was heard leaves of the block in its slot: the block had the vote, gets it, or gets it and is
committed. -/
theorem processVote_heard (sha3 : List UInt8 → BlockHash) (hadm : p.admitted vote verifyFn = some b)
    (hfiled : b.proposal.slot = vote.slot) :
    ((∃ v ∈ b.votes, v.voterId = vote.voterId) ∧
      (p.processVote sha3 vote verifyFn).1.pendingBlocks.lookup vote.slot = some b ∧
      (p.processVote sha3 vote verifyFn).1.committedBlocks = p.committedBlocks) ∨
    ((∀ v ∈ b.votes, v.voterId ≠ vote.voterId) ∧ ¬ (p.quorum ≤ b.votes.length + 1 ∧ b.state = .proposed) ∧
      (p.processVote sha3 vote verifyFn).1.pendingBlocks.lookup vote.slot =
        some { b with votes := b.votes ++ [vote] } ∧
      (p.processVote sha3 vote verifyFn).1.committedBlocks = p.committedBlocks) ∨
    ((∀ v ∈ b.votes, v.voterId ≠ vote.voterId) ∧ (p.quorum ≤ b.votes.length + 1 ∧ b.state = .proposed) ∧
      (p.processVote sha3 vote verifyFn).1.pendingBlocks.lookup vote.slot =
        some { b with votes := b.votes ++ [vote], state := .committed } ∧
      (p.processVote sha3 vote verifyFn).1.committedBlocks.lookup vote.slot = some b.proposal.blockHash) := by
  have hhash := (admitted_eq_some.mp hadm).2.2
  rcases processVote_cases sha3 p vote verifyFn with ⟨hnone, -⟩ | ⟨c, hc, hcase⟩
  · rw [hadm] at hnone
    cases hnone
  cases hadm.symm.trans hc
  rcases addVote_cases b vote p.quorum with ⟨hno, hadd⟩ | ⟨⟨-, -, hnew⟩, ⟨hquorum, hstate, hadd⟩ | ⟨hquorum, hadd⟩⟩
  · -- the slot and the hash are the block's own, so the voter has a vote in it
    have hdup : ∃ v ∈ b.votes, v.voterId = vote.voterId := by
      rcases hno with hslot | hno
      · exact absurd hfiled.symm hslot
      rcases hno with hne | hdup
      · exact absurd hhash.symm hne
      · exact hdup
    rcases hcase with ⟨-, heq⟩ | ⟨hyes, -⟩
    · rw [heq]
      refine .inl ⟨hdup, ?_, rfl⟩
      show (p.pendingBlocks.insert vote.slot (b.addVote vote p.quorum).1).lookup vote.slot = some b
      rw [AList.lookup_insert, hadd]
    · rw [hadd] at hyes
      cases hyes
  · rcases hcase with ⟨hno, -⟩ | ⟨-, heq⟩
    · rw [hadd] at hno
      cases hno
    · rw [heq, hadd]
      exact .inr (.inr ⟨hnew, ⟨hquorum, hstate⟩, AList.lookup_insert _, AList.lookup_insert _⟩)
  · rcases hcase with ⟨-, heq⟩ | ⟨hyes, -⟩
    · rw [heq]
      refine .inr (.inl ⟨hnew, hquorum, ?_, rfl⟩)
      show (p.pendingBlocks.insert vote.slot (b.addVote vote p.quorum).1).lookup vote.slot = _
      rw [AList.lookup_insert, hadd]
    · rw [hadd] at hyes
      cases hyes

/-- The first vote, and then the others. -/
theorem heardFor_cons (votes : List BlockVote) :
    heardFor sha3 verifyFn k p (vote :: votes) =
      (if vote.slot = k ∧ vote.voterId ∉ p.votersSeen then [vote.voterId] else []) ++
        heardFor sha3 verifyFn k (p.processVote sha3 vote verifyFn).1 votes := rfl

/-- Only voters with a vote for the slot in the delivery are heard for it. -/
theorem mem_of_heardFor {votes : List BlockVote} {id : NodeId} (h : id ∈ heardFor sha3 verifyFn k p votes) :
    id ∈ (votes.filter fun v => v.slot = k).map (·.voterId) := by
  induction votes generalizing p with
  | nil => exact absurd h List.not_mem_nil
  | cons vote votes ih =>
      rw [heardFor_cons, List.mem_append] at h
      rcases h with h | h
      · split at h
        · rename_i hk
          rw [List.filter_cons_of_pos (by simp [hk.1]), List.map_cons, List.mem_singleton.mp h]
          exact List.mem_cons_self
        · exact absurd h List.not_mem_nil
      · obtain ⟨v, hv, rfl⟩ := List.mem_map.mp (ih h)
        obtain ⟨hv, hslot⟩ := List.mem_filter.mp hv
        exact List.mem_map_of_mem (List.mem_filter.mpr ⟨List.mem_cons_of_mem _ hv, hslot⟩)

/-- A voter that is not heard, or is heard and has a vote in the block, adds nothing. -/
theorem newVoters_cons_old {votes : List BlockVote}
    (h : vote.slot = k ∧ vote.voterId ∉ p.votersSeen → ∃ v ∈ b.votes, v.voterId = vote.voterId) :
    newVoters sha3 verifyFn k b p (vote :: votes) =
      newVoters sha3 verifyFn k b (p.processVote sha3 vote verifyFn).1 votes := by
  unfold newVoters
  rw [heardFor_cons, List.filter_append]
  split
  · rename_i hheard
    rw [List.filter_cons_of_neg (by simpa using h hheard), List.filter_nil, List.nil_append]
  · rw [List.filter_nil, List.nil_append]

/-- A voter that is heard and has no vote in the block is new; once its vote is in, it is new no more. -/
theorem newVoters_cons_new {votes : List BlockVote} (hheard : vote.slot = k ∧ vote.voterId ∉ p.votersSeen)
    (hnew : ∀ v ∈ b.votes, v.voterId ≠ vote.voterId)
    (honce : vote.voterId ∉ (votes.filter fun v => v.slot = k).map (·.voterId)) (state : BlockState) :
    newVoters sha3 verifyFn k b p (vote :: votes) = vote.voterId ::
      newVoters sha3 verifyFn k { b with votes := b.votes ++ [vote], state := state }
        (p.processVote sha3 vote verifyFn).1 votes := by
  unfold newVoters
  rw [heardFor_cons, if_pos hheard, List.filter_append, List.filter_cons_of_pos (by simpa using hnew),
    List.filter_nil, List.singleton_append]
  congr 1
  refine List.filter_congr fun id hid => ?_
  have hne : vote.voterId ≠ id := fun heq => honce (heq ▸ mem_of_heardFor hid)
  simp only [List.forall_mem_append, List.forall_mem_singleton, hne, ne_eq, not_false_eq_true, and_true]

/-- A vote that adds nothing leaves the rest to reach the quorum. -/
theorem reachesQuorum_cons_old {votes : List BlockVote}
    (h : vote.slot = k ∧ vote.voterId ∉ p.votersSeen → ∃ v ∈ b.votes, v.voterId = vote.voterId) :
    ReachesQuorum sha3 verifyFn k b p (vote :: votes) ↔
      ReachesQuorum sha3 verifyFn k b (p.processVote sha3 vote verifyFn).1 votes := by
  unfold ReachesQuorum
  rw [newVoters_cons_old h, processVote_quorum]

/-- So does a new vote that is not the one that completes it. -/
theorem reachesQuorum_cons_new {votes : List BlockVote} (hheard : vote.slot = k ∧ vote.voterId ∉ p.votersSeen)
    (hnew : ∀ v ∈ b.votes, v.voterId ≠ vote.voterId)
    (honce : vote.voterId ∉ (votes.filter fun v => v.slot = k).map (·.voterId))
    (hno : ¬ (p.quorum ≤ b.votes.length + 1 ∧ b.state = .proposed)) :
    ReachesQuorum sha3 verifyFn k b p (vote :: votes) ↔
      ReachesQuorum sha3 verifyFn k { b with votes := b.votes ++ [vote] } (p.processVote sha3 vote verifyFn).1 votes := by
  unfold ReachesQuorum
  rw [newVoters_cons_new hheard hnew honce b.state, processVote_quorum]
  refine and_congr_right fun hstate => ?_
  have hlt : ¬ p.quorum ≤ b.votes.length + 1 := fun hle => hno ⟨hle, hstate⟩
  rw [List.length_cons, List.length_append, List.length_singleton]
  constructor
  · rintro ⟨-, hle⟩
    refine ⟨fun hnil => hlt ?_, by omega⟩
    rw [hnil] at hle
    exact hle
  · rintro ⟨-, hle⟩
    exact ⟨List.cons_ne_nil _ _, by omega⟩

/-- **What a delivery commits.** The block of the slot, exactly if it was committed before or the votes that are
heard bring it to its quorum. -/
theorem deliverVotes_committed_iff {votes : List BlockVote} (hb : p.pendingBlocks.lookup k = some b)
    (hfiled : b.proposal.slot = k)
    (hvalid : ∀ v ∈ votes, v.slot = k → v.voterId ∈ p.validators ∧
      verifyFn (voteSignData v) v.signature v.voterId = true ∧ b.proposal.blockHash = v.blockHash)
    (hnodup : ((votes.filter fun v => v.slot = k).map (·.voterId)).Nodup) :
    (deliverVotes sha3 verifyFn p votes).committedBlocks.lookup k = some b.proposal.blockHash ↔
      p.committedBlocks.lookup k = some b.proposal.blockHash ∨ ReachesQuorum sha3 verifyFn k b p votes := by
  induction votes generalizing p b with
  | nil =>
      refine ⟨fun h => .inl h, ?_⟩
      rintro (h | ⟨-, hne, -⟩)
      · exact h
      · exact absurd rfl hne
  | cons vote votes ih =>
      obtain ⟨hvote, hvotes⟩ := List.forall_mem_cons.mp hvalid
      show (deliverVotes sha3 verifyFn (p.processVote sha3 vote verifyFn).1 votes).committedBlocks.lookup k = _ ↔ _
      have hvotes' : ∀ v ∈ votes, v.slot = k → v.voterId ∈ (p.processVote sha3 vote verifyFn).1.validators ∧
          verifyFn (voteSignData v) v.signature v.voterId = true ∧ b.proposal.blockHash = v.blockHash := by
        rw [show (p.processVote sha3 vote verifyFn).1.validators = p.validators from
          call_validators sha3 (.processVote vote verifyFn) p]
        exact hvotes
      by_cases hk : vote.slot = k
      swap
      · -- a vote for another slot
        obtain ⟨hpend, hcom⟩ := processVote_elsewhere sha3 p verifyFn hk
        rw [List.filter_cons_of_neg (by simpa using hk)] at hnodup
        rw [ih (hpend.trans hb) hfiled hvotes' hnodup, hcom, reachesQuorum_cons_old fun h => absurd h.1 hk]
      subst hk
      rw [List.filter_cons_of_pos (by simp), List.map_cons, List.nodup_cons] at hnodup
      obtain ⟨honce, hnodup⟩ := hnodup
      obtain ⟨hval, hsig, hhash⟩ := hvote rfl
      by_cases hseen : vote.voterId ∈ p.votersSeen
      · -- a vote that is taken for a duplicate
        have hsame : (p.processVote sha3 vote verifyFn).1 = p := processVote_seen hseen
        rw [reachesQuorum_cons_old fun h => absurd hseen h.2]
        rw [hsame] at hvotes' ⊢
        exact ih hb hfiled hvotes' hnodup
      have hadm : p.admitted vote verifyFn = some b := admitted_eq_some.mpr ⟨⟨hval, hseen, hsig⟩, hb, hhash⟩
      rcases processVote_heard sha3 hadm hfiled with
        ⟨hdup, hpend, hcom⟩ | ⟨hnew, hno, hpend, hcom⟩ | ⟨hnew, hyes, hpend, hcom⟩
      · rw [ih hpend hfiled hvotes' hnodup, hcom, reachesQuorum_cons_old fun _ => hdup]
      · rw [ih hpend hfiled hvotes' hnodup, hcom, reachesQuorum_cons_new ⟨rfl, hseen⟩ hnew honce hno]
      · rw [ih hpend hfiled hvotes' hnodup]
        refine iff_of_true (.inl hcom) (.inr ?_)
        unfold ReachesQuorum
        rw [newVoters_cons_new ⟨rfl, hseen⟩ hnew honce .committed]
        refine ⟨hyes.2, List.cons_ne_nil _ _, hyes.1.trans ?_⟩
        rw [List.length_cons]
        omega

end Delivered

/-- **When a delivered quorum of votes commits its block.** Exactly if the block was committed before, or is still
proposed and has, with the voters whose vote comes in while they are not in `voters_seen`, a quorum of votes. The
votes that are counted are those of voters not seen before, and the last one of a quorum commits. -/
theorem delivered_commits_iff (sha3 : List UInt8 → BlockHash) (verifyFn : List UInt8 → List UInt8 → NodeId → Bool)
    (p : BlockPropagator) (k : Slot) (b : PendingBlock) (S : Finset NodeId) (votes : List BlockVote)
    (hd : Delivery verifyFn p k b S votes) :
    (deliverVotes sha3 verifyFn p votes).committedBlocks.lookup k = some b.proposal.blockHash ↔
      p.committedBlocks.lookup k = some b.proposal.blockHash ∨ ReachesQuorum sha3 verifyFn k b p votes := by
  refine deliverVotes_committed_iff hd.pending hd.filed ?_ ?_
  · intro v hv hk
    obtain ⟨hS, hsig, hhash⟩ := hd.cast v hv
    rw [pendingHash, hk, hd.pending] at hhash
    exact ⟨hd.validators _ hS, hsig, Option.some.inj hhash⟩
  · rw [List.nodup_iff_count_le_one]
    intro m
    by_cases hm : m ∈ S
    · -- `once`, read off the filtered list
      have hcount : ((votes.filter fun v => v.slot = k).map (·.voterId)).count m =
          votes.countP (fun v => v.slot = k ∧ v.voterId = m) := by
        rw [List.count, List.countP_map, List.countP_filter]
        refine List.countP_congr fun v _ => ?_
        simp [and_comm]
      rw [hcount, hd.once m hm]
    · rw [List.count_eq_zero_of_not_mem]
      · exact Nat.zero_le 1
      · intro hmem
        obtain ⟨v, hv, rfl⟩ := List.mem_map.mp hmem
        exact hm (hd.cast v (List.mem_filter.mp hv).1).1

/-! ### One vote too early -/

/-- The second of four validators with the blocks of rounds 0 and 1 pending. -/
def twoPending : BlockPropagator :=
  (deliver 1 [2]).call scriptSha3 ((deliver 0 [1]).call scriptSha3 secondOfFour)

/-- It is the state of a run. -/
theorem twoPending_reachable : (propagator scriptSha3).Reachable (fun _ _ => True) twoPending :=
  ⟨_, .step (a := deliver 1 [2]) (.step (a := deliver 0 [1]) (.init ⟨_, _, rfl⟩) trivial rfl) trivial rfl⟩

/-- Three of four. -/
theorem twoPending_quorum : twoPending.quorum = 3 := by
  show quorumThreshold twoPending.validators.length = 3
  rw [twoPending, call_validators, call_validators]
  rfl

/-- The votes of nodes 1, 3 and 4 for round 0, with the vote of node 1 for round 1 after its vote for round 0. -/
def inOrder : List BlockVote :=
  [ballot 1 (scriptProposal 0 [1]), ballot 1 (scriptProposal 1 [2]), ballot 3 (scriptProposal 0 [1]),
    ballot 4 (scriptProposal 0 [1])]

/-- The same votes, with the vote of node 1 for round 1 before its vote for round 0. -/
def outOfOrder : List BlockVote :=
  [ballot 1 (scriptProposal 1 [2]), ballot 1 (scriptProposal 0 [1]), ballot 3 (scriptProposal 0 [1]),
    ballot 4 (scriptProposal 0 [1])]

/-- Different numbers are different nodes. -/
theorem makeNodeId_inj {m n : UInt8} : makeNodeId m = makeNodeId n ↔ m = n := by
  constructor
  · intro h
    have h0 := congrArg (fun id : NodeId => id[0]) h
    simpa [makeNodeId] using h0
  · rintro rfl
    rfl

/-- The votes of the script verify. -/
theorem ballot_verifies (n : UInt8) (proposal : BlockProposal) :
    scriptVerify (voteSignData (ballot n proposal)) (ballot n proposal).signature (ballot n proposal).voterId = true :=
  beq_self_eq_true _

/-- The two blocks that are pending. -/
theorem twoPending_lookup : twoPending.pendingBlocks.lookup (0, 0) = some (.new (scriptProposal 0 [1]) 1001) ∧
    twoPending.pendingBlocks.lookup (0, 1) = some (.new (scriptProposal 1 [2]) 1001) := by
  decide +kernel

/-- The three votes for the first of them, in any order. -/
theorem delivery_of_perm {votes : List BlockVote} (hp : votes.Perm inOrder) :
    Delivery scriptVerify twoPending (0, 0) (.new (scriptProposal 0 [1]) 1001)
      {makeNodeId 1, makeNodeId 3, makeNodeId 4} votes where
  pending := twoPending_lookup.1
  filed := rfl
  quorum := by
    rw [twoPending_quorum, Finset.card_insert_of_notMem, Finset.card_insert_of_notMem, Finset.card_singleton]
    · simp [makeNodeId_inj]
    · simp [makeNodeId_inj]
  validators m hm := by
    rw [twoPending, call_validators, call_validators]
    show m ∈ [makeNodeId 1, makeNodeId 2, makeNodeId 3, makeNodeId 4]
    simp only [Finset.mem_insert, Finset.mem_singleton] at hm
    rcases hm with rfl | rfl | rfl
    · simp
    · simp
    · simp
  once m hm := by
    rw [hp.countP_eq]
    revert m
    decide +kernel
  cast v hv := by
    have hzero : twoPending.pendingHash (0, 0) = some (scriptProposal 0 [1]).blockHash := by
      rw [pendingHash, twoPending_lookup.1]
      rfl
    have hone : twoPending.pendingHash (0, 1) = some (scriptProposal 1 [2]).blockHash := by
      rw [pendingHash, twoPending_lookup.2]
      rfl
    have hvoter : ∀ n ∈ [1, 3, 4], makeNodeId n ∈ ({makeNodeId 1, makeNodeId 3, makeNodeId 4} : Finset NodeId) := by
      simp
    have hv := hp.mem_iff.mp hv
    simp only [inOrder, List.mem_cons, List.not_mem_nil, or_false] at hv
    rcases hv with rfl | rfl | rfl | rfl
    · exact ⟨hvoter 1 (by simp), ballot_verifies _ _, hzero⟩
    · exact ⟨hvoter 1 (by simp), ballot_verifies _ _, hone⟩
    · exact ⟨hvoter 3 (by simp), ballot_verifies _ _, hzero⟩
    · exact ⟨hvoter 4 (by simp), ballot_verifies _ _, hzero⟩

/-- In their order they commit it. -/
theorem delivered_commits_iff_in_order :
    Delivery scriptVerify twoPending (0, 0) (.new (scriptProposal 0 [1]) 1001)
      {makeNodeId 1, makeNodeId 3, makeNodeId 4} inOrder ∧
    (deliverVotes scriptSha3 scriptVerify twoPending inOrder).committedBlocks.lookup (0, 0) =
      some (scriptProposal 0 [1]).blockHash := by
  have hd := delivery_of_perm (.refl inOrder)
  have hnew : newVoters scriptSha3 scriptVerify (0, 0) (.new (scriptProposal 0 [1]) 1001) twoPending inOrder =
      [makeNodeId 1, makeNodeId 3, makeNodeId 4] := by decide +kernel
  refine ⟨hd, (delivered_commits_iff scriptSha3 scriptVerify twoPending (0, 0) (.new (scriptProposal 0 [1]) 1001) _
    inOrder hd).mpr (.inr ⟨rfl, ?_, ?_⟩)⟩
  · rw [hnew]
    exact List.cons_ne_nil _ _
  · rw [hnew, twoPending_quorum]
    exact Nat.le_refl 3

/-- A vote for round 1 makes the vote of the same validator for round 0 a duplicate, and round 0 is not committed. -/
theorem early_vote_for_other_slot : ¬ ∀ (sha3 : List UInt8 → BlockHash)
    (verifyFn : List UInt8 → List UInt8 → NodeId → Bool) (p : BlockPropagator) (k : Slot) (b : PendingBlock)
    (S : Finset NodeId) (votes : List BlockVote), (propagator sha3).Reachable (fun _ _ => True) p →
    Delivery verifyFn p k b S votes →
    (deliverVotes sha3 verifyFn p votes).committedBlocks.lookup k = some b.proposal.blockHash := by
  intro hall
  have hcom := hall scriptSha3 scriptVerify twoPending (0, 0) _ _ outOfOrder twoPending_reachable
    (delivery_of_perm (.swap _ _ _))
  exact absurd hcom (by decide +kernel)

end WarmLogic.Net
