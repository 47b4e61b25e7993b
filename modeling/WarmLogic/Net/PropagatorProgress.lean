/-
# WarmLogic.Net.PropagatorProgress — what moves the block propagation engine, and when it moves back.

Six handlers assign `view` and `round`. `process_proposal` and `process_commit` compare first, `commit_block` adds
one to the round, `initiate_view_change` and `process_view_change` leave both alone; `complete_view_change` and
`process_new_view` assign what the tracker or the message says, with no comparison. So the position of the engine
can fall: by a stale or replayed NEW_VIEW, by a tracker that was opened by a message for an old view, and where the
round counter wraps. `position_mono_iff` lists exactly these cases, handler by handler.

The first part says once what a vote and a commit do to an engine; the finality results use it too.

`processVote_spec`, `processCommit_spec`, `processNewView_spec` and `completeViewChange_spec` are the inversions of
the four handlers that move the engine, in terms of what is committed, of the root and of the position; later modules
use these and never unfold the handlers. The order of positions is lexicographic, and a round of 64 bits wraps in the
release profile.
-/
import WarmLogic.Lib.Counter
import WarmLogic.Net.PropagatorVotes

namespace WarmLogic.Net

open WarmLogic.Lib

/-- The round after the highest one a message reports as prepared; round 0 if none does. -/
def ViewChangeTracker.startingRound (t : ViewChangeTracker) : UInt64 :=
  ((maxByKey (·.1) (t.messages.filterMap fun m => m.lastPreparedRound.map fun r => (r, m.lastPreparedBlock))).map
    (·.1 + 1)).getD 0

namespace BlockPropagator

variable {sha3 : List UInt8 → BlockHash} {p : BlockPropagator} {verifyFn : List UInt8 → List UInt8 → NodeId → Bool}

/-! ## What a vote and a commit do -/

/-- The pending block that a vote, if the engine counts it, brings to its quorum. -/
def completed (p : BlockPropagator) (vote : BlockVote) (verifyFn : List UInt8 → List UInt8 → NodeId → Bool) :
    Option PendingBlock :=
  if p.validators.contains vote.voterId ∧ vote.voterId ∉ p.votersSeen ∧
      verifyFn (voteSignData vote) vote.signature vote.voterId then
    (p.pendingBlocks.lookup vote.slot).filter fun b =>
      b.proposal.blockHash = vote.blockHash ∧ (b.addVote vote p.quorum).2
  else none

/-- The check of `process_commit`. -/
def acceptsCommit (p : BlockPropagator) (commit : BlockCommit)
    (verifyFn : List UInt8 → List UInt8 → NodeId → Bool) : Prop :=
  p.quorum ≤ commit.voteSignatures.length ∧ voteError? commit.blockHash verifyFn commit.voteSignatures = none

instance (commit : BlockCommit) : Decidable (p.acceptsCommit commit verifyFn) :=
  inferInstanceAs (Decidable (_ ∧ _))

/-- View and round. -/
def position (p : BlockPropagator) : Slot := (p.view, p.round)

/-- Nothing is committed, and the engine stays where it is. -/
structure Idle (p p' : BlockPropagator) : Prop where
  committed : p'.committedBlocks = p.committedBlocks
  root : p'.stateRoot = p.stateRoot
  position : p'.position = p.position

theorem Idle.refl (p : BlockPropagator) : Idle p p := ⟨rfl, rfl, rfl⟩

/-- A local commit of the block `b` in slot `k`. -/
structure Commits (sha3 : List UInt8 → BlockHash) (k : Slot) (b : PendingBlock) (p p' : BlockPropagator) : Prop where
  committed : p'.committedBlocks = p.committedBlocks.insert k b.proposal.blockHash
  root : p'.stateRoot = computeStateRoot sha3 b.proposal p.stateRoot
  position : p'.position = (p.view, p.round + 1)

theorem completed_eq (p : BlockPropagator) (vote : BlockVote) (verifyFn : List UInt8 → List UInt8 → NodeId → Bool) :
    p.completed vote verifyFn = (p.admitted vote verifyFn).filter fun b => (b.addVote vote p.quorum).2 := by
  unfold completed admitted
  split
  · rw [Option.filter_filter]
    congr 1
    funext b
    rw [Bool.decide_and, Bool.decide_eq_true, Bool.and_comm]
  · rfl

/-- **`process_vote`.** It commits the block its vote completes, and else only counts. -/
theorem processVote_spec (sha3 : List UInt8 → BlockHash) (p : BlockPropagator) (vote : BlockVote)
    (verifyFn : List UInt8 → List UInt8 → NodeId → Bool) :
    (p.completed vote verifyFn = none ∧ Idle p (p.processVote sha3 vote verifyFn).1) ∨
      ∃ b, p.completed vote verifyFn = some b ∧ p.pendingBlocks.lookup vote.slot = some b ∧
        Commits sha3 vote.slot b p (p.processVote sha3 vote verifyFn).1 := by
  rw [completed_eq]
  rcases processVote_cases sha3 p vote verifyFn with ⟨hnone, e, heq⟩ | ⟨b, hadm, ⟨hno, heq⟩ | ⟨hyes, heq⟩⟩
  · rw [hnone, heq]
    exact .inl ⟨rfl, .refl p⟩
  · rw [hadm, heq]
    exact .inl ⟨by simp [Option.filter, hno], rfl, rfl, rfl⟩
  · rw [hadm, heq]
    have hprop := addVote_proposal b vote p.quorum
    refine .inr ⟨b, by simp [Option.filter, hyes], (admitted_eq_some.mp hadm).2.1, ?_, ?_, rfl⟩
    · show (p.committedBlocks.insert vote.slot (b.addVote vote p.quorum).1.proposal.blockHash) = _
      rw [hprop]
    · show computeStateRoot sha3 (b.addVote vote p.quorum).1.proposal p.stateRoot = _
      rw [hprop]

/-- The engine after an accepted commit. -/
structure Certified (commit : BlockCommit) (p p' : BlockPropagator) : Prop where
  committed : p'.committedBlocks = p.committedBlocks.insert commit.slot commit.blockHash
  root : p'.stateRoot = commit.stateRoot
  position : p'.position =
    if p.view < commit.view ∨ (commit.view = p.view ∧ p.round ≤ commit.round) then (commit.view, commit.round + 1)
    else p.position

/-- **`process_commit`.** An accepted commit is written over whatever stood in its slot, state root included. -/
theorem processCommit_spec (p : BlockPropagator) (commit : BlockCommit)
    (verifyFn : List UInt8 → List UInt8 → NodeId → Bool) :
    (¬ p.acceptsCommit commit verifyFn ∧ (p.processCommit commit verifyFn).1 = p) ∨
      (p.acceptsCommit commit verifyFn ∧ Certified commit p (p.processCommit commit verifyFn).1) := by
  unfold processCommit acceptsCommit
  split
  · rename_i hlen
    exact .inl ⟨fun h => Nat.not_le.mpr hlen h.1, rfl⟩
  rename_i hlen
  split
  · rename_i e he
    left
    refine ⟨fun h => ?_, rfl⟩
    rw [he] at h
    cases h.2
  rename_i hnone
  refine .inr ⟨⟨Nat.not_lt.mp hlen, hnone⟩, ?_, ?_, ?_⟩
  · dsimp only
    split <;> rfl
  · dsimp only
    split <;> rfl
  · dsimp only
    split <;> rfl

/-! ## What a view change does -/

/-- The checks of `process_new_view`. -/
def acceptsNewView (p : BlockPropagator) (msg : P2PNewView)
    (verifyFn : List UInt8 → List UInt8 → NodeId → Bool) : Prop :=
  p.getLeader msg.view = some msg.leaderId ∧ verifyFn (newViewSignData msg) msg.signature msg.leaderId = true ∧
    p.quorum ≤ msg.viewChangeProofs.length ∧
    msg.viewChangeProofs.all (fun vc => verifyFn (viewChangeSignData vc) vc.signature vc.senderId) = true

/-- The engine after it accepted a NEW_VIEW message. -/
def enterView (p : BlockPropagator) (msg : P2PNewView) : BlockPropagator :=
  { p with view := msg.view, round := msg.startingRound, viewChange := none, votersSeen := ∅ }

/-- **The inversion of `process_new_view`.** -/
theorem processNewView_spec (p : BlockPropagator) (msg : P2PNewView)
    (verifyFn : List UInt8 → List UInt8 → NodeId → Bool) :
    (¬ p.acceptsNewView msg verifyFn ∧ ∃ e, p.processNewView msg verifyFn = (p, .error e)) ∨
      (p.acceptsNewView msg verifyFn ∧ p.processNewView msg verifyFn = (p.enterView msg, .ok ())) := by
  unfold processNewView acceptsNewView
  split
  · rename_i hleader
    left
    refine ⟨fun h => ?_, _, rfl⟩
    rw [hleader] at h
    cases h.1
  rename_i leader hleader
  split
  · rename_i hne
    left
    refine ⟨fun h => ?_, _, rfl⟩
    rw [hleader] at h
    exact hne (Option.some.inj h.1).symm
  rename_i heq
  split
  · rename_i hsig
    left
    refine ⟨fun h => ?_, _, rfl⟩
    rw [h.2.1] at hsig
    cases hsig
  rename_i hsig
  split
  · rename_i hlen
    exact .inl ⟨fun h => Nat.not_le.mpr hlen h.2.2.1, _, rfl⟩
  rename_i hlen
  split
  · rename_i hproofs
    left
    refine ⟨fun h => ?_, _, rfl⟩
    rw [h.2.2.2] at hproofs
    cases hproofs
  rename_i hproofs
  refine .inr ⟨⟨?_, by simpa using hsig, Nat.not_lt.mp hlen, ?_⟩, rfl⟩
  · rw [hleader, not_not.mp heq]
  · rw [Bool.not_eq_true', Bool.not_eq_false] at hproofs
    exact hproofs

/-- The tracker of a view change that this node can complete: a quorum came in, and the node leads its view. -/
def readyTracker (p : BlockPropagator) : Option ViewChangeTracker :=
  p.viewChange.filter fun t => t.state = .waitingNewView ∧ p.getLeader t.targetView = some p.nodeId

theorem completeViewChange_spec (p : BlockPropagator) (signFn : List UInt8 → List UInt8) :
    (p.readyTracker = none ∧ (p.completeViewChange signFn).1 = p) ∨
      ∃ t, p.readyTracker = some t ∧ (p.completeViewChange signFn).1.position = (t.targetView, t.startingRound) := by
  unfold completeViewChange readyTracker
  split
  · rename_i hnone
    rw [hnone]
    exact .inl ⟨rfl, rfl⟩
  rename_i t ht
  rw [ht]
  split
  · rename_i hstate
    exact .inl ⟨by simp [Option.filter, hstate], rfl⟩
  rename_i hstate
  split
  · rename_i hleader
    exact .inl ⟨by simp [Option.filter, hleader], rfl⟩
  rename_i leader hleader
  split
  · rename_i hne
    exact .inl ⟨by simp [Option.filter, hleader, hne], rfl⟩
  rename_i heq
  right
  refine ⟨t, ?_, rfl⟩
  simp [Option.filter, not_not.mp hstate, hleader, not_not.mp heq]

end BlockPropagator

/-! ## The position never falls, except -/

/-- The lexicographic order of views and rounds. -/
def SlotLe (a b : Slot) : Prop := a.1 < b.1 ∨ (a.1 = b.1 ∧ a.2 ≤ b.2)

instance (a b : Slot) : Decidable (SlotLe a b) := inferInstanceAs (Decidable (_ ∨ _))

theorem SlotLe.refl (a : Slot) : SlotLe a a := .inr ⟨rfl, UInt64.le_refl _⟩

namespace BlockPropagator

variable {sha3 : List UInt8 → BlockHash} {p : BlockPropagator} {verifyFn : List UInt8 → List UInt8 → NodeId → Bool}

/-- What keeps a message from moving the engine back. -/
def KeepsPace (p : BlockPropagator) (verifyFn : List UInt8 → List UInt8 → NodeId → Bool) : GossipMessage → Prop
  | .blockVote vote => p.completed vote verifyFn ≠ none → p.round + 1 ≠ 0
  | .blockCommit commit =>
      p.acceptsCommit commit verifyFn → ¬ (commit.view = p.view ∧ p.round ≠ 0 ∧ commit.round + 1 = 0)
  | .newView msg => p.acceptsNewView msg verifyFn → SlotLe p.position (msg.view, msg.startingRound)
  | .blockProposal _ => True
  | .viewChange _ => True
  | .other => True

/-- `process_proposal` moves forward only. -/
theorem processProposal_position (proposal : BlockProposal) (timestampMs : UInt64)
    (signFn : List UInt8 → List UInt8) :
    SlotLe p.position (p.processProposal sha3 proposal timestampMs verifyFn signFn).1.position := by
  have hcatch : SlotLe p.position (p.catchUp proposal).position := by
    unfold catchUp
    split
    · rename_i h
      rcases h with hview | ⟨hview, hround⟩
      · exact .inl hview
      · exact .inr ⟨hview.symm, UInt64.le_of_lt hround⟩
    · exact .refl _
  unfold processProposal
  split
  · exact .refl _
  · dsimp only
    split
    · exact hcatch
    · exact hcatch

theorem processVote_position (vote : BlockVote) :
    SlotLe p.position (p.processVote sha3 vote verifyFn).1.position ↔
      (p.completed vote verifyFn ≠ none → p.round + 1 ≠ 0) := by
  rcases processVote_spec sha3 p vote verifyFn with ⟨hnone, hidle⟩ | ⟨b, hsome, -, hcommits⟩
  · rw [hidle.position, hnone]
    exact iff_of_true (.refl _) fun h => absurd rfl h
  · rw [hcommits.position, hsome]
    constructor
    · rintro (hview | ⟨-, hround⟩) -
      · exact absurd hview (UInt64.lt_irrefl _)
      · exact (le_add_one_iff p.round).mp hround
    · intro h
      exact .inr ⟨rfl, (le_add_one_iff p.round).mpr (h (Option.some_ne_none b))⟩

theorem processCommit_position (commit : BlockCommit) :
    SlotLe p.position (p.processCommit commit verifyFn).1.position ↔
      (p.acceptsCommit commit verifyFn → ¬ (commit.view = p.view ∧ p.round ≠ 0 ∧ commit.round + 1 = 0)) := by
  rcases processCommit_spec p commit verifyFn with ⟨hno, heq⟩ | ⟨hyes, hcert⟩
  · rw [heq]
    exact iff_of_true (.refl _) fun h => absurd h hno
  · rw [hcert.position]
    split
    · rename_i hahead
      constructor
      · rintro (hview | ⟨-, hround⟩) - ⟨hsame, hne, hwrap⟩
        · have hview : p.view < commit.view := hview
          rw [hsame] at hview
          exact UInt64.lt_irrefl _ hview
        · have hround : p.round ≤ commit.round + 1 := hround
          rw [hwrap, UInt64.le_zero_iff] at hround
          exact hne hround
      · intro h
        rcases hahead with hview | ⟨hview, hround⟩
        · exact .inl hview
        · refine .inr ⟨hview.symm, ?_⟩
          by_cases hwrap : commit.round + 1 = 0
          · have hzero : p.round = 0 := by
              by_contra hne
              exact h hyes ⟨hview, hne, hwrap⟩
            show p.round ≤ commit.round + 1
            rw [hwrap, hzero]
            exact UInt64.le_refl _
          · exact UInt64.le_of_lt (UInt64.lt_of_le_of_lt hround ((lt_add_one_iff _).mpr hwrap))
    · rename_i hbehind
      refine iff_of_true (.refl _) ?_
      rintro - ⟨hsame, -, hwrap⟩
      -- the last round there is would have been ahead
      exact hbehind (.inr ⟨hsame, le_of_add_one_eq_zero hwrap _⟩)

theorem processNewView_position (msg : P2PNewView) :
    SlotLe p.position (p.processNewView msg verifyFn).1.position ↔
      (p.acceptsNewView msg verifyFn → SlotLe p.position (msg.view, msg.startingRound)) := by
  rcases processNewView_spec p msg verifyFn with ⟨hno, e, heq⟩ | ⟨hyes, heq⟩
  · rw [heq]
    exact iff_of_true (.refl _) fun h => absurd h hno
  · rw [heq]
    exact ⟨fun h _ => h, fun h => h hyes⟩

theorem processViewChange_position (msg : P2PViewChange) :
    (p.processViewChange msg verifyFn).1.position = p.position := by
  unfold processViewChange
  split
  · rfl
  split
  · rfl
  rfl

/-- **When the position never falls.** A message moves the engine back exactly where `KeepsPace` fails; completing a
view change does exactly where the tracker's view and round are behind; starting one never does. Proposals and
certificates are compared with the position before they move it; what a tracker or a NEW_VIEW says is not. -/
theorem position_mono_iff (sha3 : List UInt8 → BlockHash) (p : BlockPropagator) :
    (∀ msg timestampMs verifyFn signFn,
      SlotLe p.position (p.processMessage sha3 msg timestampMs verifyFn signFn).1.position ↔
        p.KeepsPace verifyFn msg) ∧
    (∀ signFn, SlotLe p.position (p.completeViewChange signFn).1.position ↔
      ∀ t ∈ p.readyTracker, SlotLe p.position (t.targetView, t.startingRound)) ∧
    (∀ timestampMs signFn, SlotLe p.position (p.initiateViewChange timestampMs signFn).1.position) := by
  refine ⟨?_, ?_, ?_⟩
  · intro msg timestampMs verifyFn signFn
    cases msg with
    | blockProposal proposal => exact iff_of_true (processProposal_position proposal timestampMs signFn) trivial
    | blockVote vote => exact processVote_position vote
    | blockCommit commit => exact processCommit_position commit
    | viewChange vc =>
        refine iff_of_true ?_ trivial
        show SlotLe p.position (p.processViewChange vc verifyFn).1.position
        rw [processViewChange_position]
        exact .refl _
    | newView nv => exact processNewView_position nv
    | other => exact iff_of_true (.refl _) trivial
  · intro signFn
    rcases completeViewChange_spec p signFn with ⟨hnone, heq⟩ | ⟨t, hsome, hpos⟩
    · rw [heq, hnone]
      exact iff_of_true (.refl _) fun t ht => absurd ht (Option.not_mem_none t)
    · rw [hpos, hsome]
      constructor
      · rintro h t ⟨⟩
        exact h
      · intro h
        exact h t rfl
  · intro timestampMs signFn
    exact .refl _

/-! ### A replayed NEW_VIEW -/

/-- The view change message of node `n` for a view, signed. -/
def scriptViewChange (view : UInt64) (n : UInt8) : P2PViewChange :=
  let msg : P2PViewChange :=
    { newView := view, senderId := makeNodeId n, lastPreparedRound := none, lastPreparedBlock := none,
      timestampMs := 1000, signature := [], temporalProof := none }
  { msg with signature := scriptSign (makeNodeId n) (viewChangeSignData msg) }

/-- The NEW_VIEW message of node `n` for a view, with the proofs of nodes 1, 2 and 3. -/
def scriptNewView (view : UInt64) (n : UInt8) : P2PNewView :=
  let msg : P2PNewView :=
    { view := view, leaderId := makeNodeId n, viewChangeProofs := [1, 2, 3].map (scriptViewChange view),
      startingRound := 0, preparedBlock := none, signature := [] }
  { msg with signature := scriptSign (makeNodeId n) (newViewSignData msg) }

/-- A node in view 2 that gets the NEW_VIEW message of view 1 once more returns to view 1. -/
theorem replayed_new_view_moves_back : ¬ ∀ (sha3 : List UInt8 → BlockHash) (p : BlockPropagator),
    (∀ msg timestampMs verifyFn signFn,
      SlotLe p.position (p.processMessage sha3 msg timestampMs verifyFn signFn).1.position) ∧
    (∀ signFn, SlotLe p.position (p.completeViewChange signFn).1.position) ∧
    (∀ timestampMs signFn, SlotLe p.position (p.initiateViewChange timestampMs signFn).1.position) := by
  intro hall
  let p₁ := (quartet.processNewView (scriptNewView 1 2) scriptVerify).1
  let p₂ := (p₁.processNewView (scriptNewView 2 3) scriptVerify).1
  have hle := (hall scriptSha3 p₂).1 (.newView (scriptNewView 1 2)) 1000 scriptVerify id
  exact absurd hle (by decide +kernel)

end BlockPropagator

end WarmLogic.Net
