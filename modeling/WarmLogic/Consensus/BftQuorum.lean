/-
# WarmLogic.Consensus.BftQuorum — when a BFT quorum is a quorum FOR the current proposal.

`has_quorum` counts stored votes; it never looks at what they are for. Every vote path compares a vote's
round with the engine's round, so stored votes always carry the current round. The block hash is compared
only against a proposal that is ALREADY there: a vote that arrives first is stored whatever it names ("it
counts only if matches proposal later", says the source, and nothing does that later check), and a second
`propose` in a round replaces the proposal under votes for the first one.

So the certificate property fails in general (`early_votes_certify_other_block`) and holds in every run in
which `propose` only ever names the block all stored votes are for (`quorum_certificate_of_fitting_proposals`).

The invariant ties stored votes to the round and to the proposal (`VotesMatch`), and every vote path keeps it, since
each compares both before it stores. What breaks it is a proposal: it changes the block under votes that are there
already. The guard on runs is therefore about `propose` alone.

The machine of this module has the calls that drive a round; `BftVoteSet` has all calls of the engine.
-/
import WarmLogic.Lib.Run
import WarmLogic.Consensus.Bft

namespace WarmLogic.Consensus.Bft

open WarmLogic.Lib

variable {δ : Type}

/-! ## The engine as a machine -/

/-- The operations a round is driven by. -/
inductive Op (δ : Type) where
  | startRound (round : UInt64)
  | propose (blockHash : String) (decision : Option δ)
  | castVote (vote : Vote)
  | castVoteVerified (vote : Vote) (publicKeyHex : String)
  | castVotesBatch (votes : List Vote) (publicKeys : String → Option String)
  | castAnonymousVoteVerified (vote : AnonymousVote)
  | applyNewView (msg : NewViewMessage)
  | recordCommit (round : UInt64) (blockHash : String)

/-- The engine after an operation; results are dropped. -/
def Op.run (verifyRaw : String → String → String → Bool) (e : BFTEngine δ) : Op δ → BFTEngine δ
  | .startRound r => e.startRound r
  | .propose h d => e.propose h d
  | .castVote v => (e.castVote v).1
  | .castVoteVerified v pk => (e.castVoteVerified verifyRaw v pk).1
  | .castVotesBatch vs keys => (e.castVotesBatch verifyRaw vs keys).1
  | .castAnonymousVoteVerified v => (e.castAnonymousVoteVerified v).1
  | .applyNewView m => (e.applyNewView m).1
  | .recordCommit r h => e.recordCommit r h

/-- A BFT engine from either constructor, driven by any operations. -/
def bftSystem (verifyRaw : String → String → String → Bool) : System (BFTEngine δ) (Op δ) where
  init e := (∃ q, e = BFTEngine.new q) ∨ ∃ q vs, e = BFTEngine.withValidators q vs
  step op e := some (op.run verifyRaw e)

/-- **The certificate.** A quorum under a proposal `h` contains `quorum_size` stored votes that name `h` and
the current round. -/
def QuorumCertificate (e : BFTEngine δ) : Prop :=
  e.hasQuorum = true → ∀ h, e.currentProposal = some h →
    e.quorumSize ≤ (e.votes.filter fun v => v.blockHash == h && v.round == e.round).length
      + (e.anonymousVotes.filter fun v => v.blockHash == h && v.round == e.round).length

/-- The guard: a proposal names the block of every vote already stored. -/
def FittingProposal : Op δ → BFTEngine δ → Prop
  | .propose h _, e => (∀ v ∈ e.votes, v.blockHash = h) ∧ ∀ v ∈ e.anonymousVotes, v.blockHash = h
  | _, _ => True

/-! ## The invariant -/

/-- Every stored vote is for the current round, and for the proposal where there is one. A vote is stored only after
both comparisons; a new round and a new view start without votes; a proposal that fits names the block they are all
for. -/
structure VotesMatch (e : BFTEngine δ) : Prop where
  votes : ∀ v ∈ e.votes, v.round = e.round ∧ ∀ h, e.currentProposal = some h → v.blockHash = h
  anonymous : ∀ v ∈ e.anonymousVotes,
    v.round = e.round ∧ ∀ h, e.currentProposal = some h → v.blockHash = h

theorem votesMatch_certificate {e : BFTEngine δ} (hm : VotesMatch e) : QuorumCertificate e := by
  intro hq h hp
  have hv : (e.votes.filter fun v => v.blockHash == h && v.round == e.round) = e.votes := by
    refine List.filter_eq_self.mpr fun v hv => ?_
    simp [(hm.votes v hv).1, (hm.votes v hv).2 h hp]
  have ha : (e.anonymousVotes.filter fun v => v.blockHash == h && v.round == e.round)
      = e.anonymousVotes := by
    refine List.filter_eq_self.mpr fun v hv => ?_
    simp [(hm.anonymous v hv).1, (hm.anonymous v hv).2 h hp]
  rw [hv, ha]
  simpa [BFTEngine.hasQuorum] using hq

/-- A check that a vote is not for the wrong block is a check against the proposal, if there is one. -/
theorem eq_of_not_wrongBlock {e : BFTEngine δ} {b : String} (h : ¬ e.wrongBlock b = true) :
    ∀ p, e.currentProposal = some p → b = p := by
  intro p hp
  simpa [BFTEngine.wrongBlock, hp] using h

/-- Recording a vote brings in that vote and nothing else. -/
theorem mem_recordVote {votes votes' : List Vote} {vote : Vote}
    (h : BFTEngine.recordVote votes vote = some votes') : ∀ w ∈ votes', w = vote ∨ w ∈ votes := by
  unfold BFTEngine.recordVote at h
  intro w hw
  split at h
  · cases h
    exact (List.mem_or_eq_of_mem_set hw).symm
  · split at h
    · cases h
    · cases h
      rcases List.mem_append.mp hw with hw | hw
      · exact Or.inr hw
      · exact Or.inl (List.mem_singleton.mp hw)

/-- The step every named vote path shares: a vote of this round that is not for the wrong block. -/
theorem VotesMatch.record {e : BFTEngine δ} (hm : VotesMatch e) {vote : Vote} {votes : List Vote}
    (hround : ¬ vote.round ≠ e.round) (hblock : ¬ e.wrongBlock vote.blockHash = true)
    (hrec : BFTEngine.recordVote e.votes vote = some votes) :
    VotesMatch { e with votes := votes } where
  votes := by
    intro w hw
    rcases mem_recordVote hrec w hw with rfl | hw
    · exact ⟨not_not.mp hround, eq_of_not_wrongBlock hblock⟩
    · exact hm.votes w hw
  anonymous := hm.anonymous

/-- What a vote path can do to the engine: nothing, or record one vote of this round that is not for the wrong block;
an anonymous one with its nullifier, which is new. -/
inductive Recorded (e : BFTEngine δ) : BFTEngine δ → Prop
  | same : Recorded e e
  | vote {vote : Vote} {votes : List Vote} (hround : ¬ vote.round ≠ e.round)
      (hblock : ¬ e.wrongBlock vote.blockHash = true) (hrec : BFTEngine.recordVote e.votes vote = some votes) :
      Recorded e { e with votes := votes }
  | anonymous {vote : AnonymousVote} (hround : ¬ vote.round ≠ e.round)
      (hblock : ¬ e.wrongBlock vote.blockHash = true) (hnew : vote.nullifier ∉ e.nullifiers) :
      Recorded e
        { e with
          nullifiers := insert vote.nullifier e.nullifiers
          anonymousVotes := e.anonymousVotes ++ [vote] }

theorem castVote_recorded (e : BFTEngine δ) (vote : Vote) : Recorded e (e.castVote vote).1 := by
  unfold BFTEngine.castVote
  split
  · exact .same
  · rename_i hround
    split
    · exact .same
    · rename_i hblock
      split
      · exact .same
      · rename_i votes hrec
        exact .vote hround hblock hrec

theorem castVoteVerified_recorded (verifyRaw : String → String → String → Bool) (e : BFTEngine δ) (vote : Vote)
    (pk : String) : Recorded e (e.castVoteVerified verifyRaw vote pk).1 := by
  unfold BFTEngine.castVoteVerified
  split
  · exact .same
  · split
    · exact .same
    · rename_i hround
      split
      · exact .same
      · rename_i hblock
        split
        · exact .same
        · rename_i votes hrec
          exact .vote hround hblock hrec

theorem castAnonymousVoteVerified_recorded (e : BFTEngine δ) (vote : AnonymousVote) :
    Recorded e (e.castAnonymousVoteVerified vote).1 := by
  unfold BFTEngine.castAnonymousVoteVerified
  split
  · exact .same
  · rename_i hround
    split
    · exact .same
    · rename_i hblock
      split
      · exact .same
      · rename_i hnew
        split
        · exact .same
        · exact .anonymous hround hblock hnew

theorem acceptVerified_recorded (acc : BFTEngine δ × Nat × Nat) (vote : Vote × Bool) :
    Recorded acc.1 (BFTEngine.acceptVerified acc vote).1 := by
  unfold BFTEngine.acceptVerified
  dsimp only
  split
  · exact .same
  · split
    · exact .same
    · rename_i hround
      split
      · exact .same
      · rename_i hblock
        split
        · exact .same
        · rename_i votes hrec
          exact .vote hround hblock hrec

/-- The batch loop: what a recorded vote keeps rides along the fold. -/
theorem castVotesBatch_induct {P : BFTEngine δ → Prop} (hstep : ∀ e e', P e → Recorded e e' → P e')
    (verifyRaw : String → String → String → Bool) {e : BFTEngine δ} (he : P e) (votes : List Vote)
    (keys : String → Option String) : P (e.castVotesBatch verifyRaw votes keys).1 := by
  unfold BFTEngine.castVotesBatch
  generalize votes.zip (BFTEngine.verifyVotesParallel verifyRaw votes keys) = batch
  suffices h : ∀ acc : BFTEngine δ × Nat × Nat, P acc.1 →
      P (batch.foldl BFTEngine.acceptVerified acc).1 from h _ he
  induction batch with
  | nil => intro acc hacc; exact hacc
  | cons vote batch ih => intro acc hacc; exact ih _ (hstep _ _ hacc (acceptVerified_recorded acc vote))

theorem VotesMatch.recorded {e e' : BFTEngine δ} (hm : VotesMatch e) (h : Recorded e e') : VotesMatch e' := by
  cases h with
  | same => exact hm
  | vote hround hblock hrec => exact hm.record hround hblock hrec
  | anonymous hround hblock _ =>
      refine ⟨hm.votes, ?_⟩
      intro w hw
      rcases List.mem_append.mp hw with hw | hw
      · exact hm.anonymous w hw
      · rw [List.mem_singleton.mp hw]
        exact ⟨not_not.mp hround, eq_of_not_wrongBlock hblock⟩

/-- The engine after a NEW_VIEW message that passed the checks of `apply_new_view`. -/
def BFTEngine.installed (e : BFTEngine δ) (msg : NewViewMessage) (status : ViewChangeStatus) : BFTEngine δ :=
  { e with
    view := msg.view
    leaderId := some msg.leaderId
    round := msg.startingRound
    currentProposal := msg.preparedBlock
    viewChangeStatus := status
    viewChangeMessages := []
    consecutiveViewChanges := e.consecutiveViewChanges + 1
    votes := []
    anonymousVotes := []
    nullifiers := ∅ }

/-- `apply_new_view` refuses and changes nothing, or installs; the count of view changes only decides the status. -/
theorem applyNewView_cases (e : BFTEngine δ) (msg : NewViewMessage) :
    (e.applyNewView msg).1 = e ∨
      (e.view < msg.view ∧ e.getLeaderForView msg.view = some msg.leaderId ∧
        e.quorumSize ≤ msg.viewChangeProofs.length ∧ ∃ status, (e.applyNewView msg).1 = e.installed msg status) := by
  unfold BFTEngine.applyNewView
  split
  · exact .inl rfl
  · rename_i hview
    split
    · exact .inl rfl
    · rename_i hleader
      split
      · exact .inl rfl
      · rename_i hproofs
        refine .inr ⟨UInt64.not_le.mp hview, not_not.mp hleader, Nat.le_of_not_lt hproofs, ?_⟩
        dsimp only
        split
        · exact ⟨.failed, rfl⟩
        · exact ⟨.completed, rfl⟩

/-- Installing a view clears every vote, so the prepared block it proposes faces none. -/
theorem VotesMatch.applyNewView {e : BFTEngine δ} (hm : VotesMatch e) (msg : NewViewMessage) :
    VotesMatch (e.applyNewView msg).1 := by
  rcases applyNewView_cases e msg with h | ⟨-, -, -, status, h⟩
  · rw [h]
    exact hm
  · rw [h]
    exact ⟨fun _ hv => absurd hv List.not_mem_nil, fun _ hv => absurd hv List.not_mem_nil⟩

/-- One guarded operation keeps the stored votes matching. -/
theorem votesMatch_step {verifyRaw : String → String → String → Bool} {e : BFTEngine δ} {op : Op δ}
    (hm : VotesMatch e) (hok : FittingProposal op e) : VotesMatch (op.run verifyRaw e) := by
  cases op with
  | startRound r => exact ⟨by simp [Op.run, BFTEngine.startRound], by simp [Op.run, BFTEngine.startRound]⟩
  | propose h d =>
      refine ⟨fun v hv => ⟨(hm.votes v hv).1, ?_⟩, fun v hv => ⟨(hm.anonymous v hv).1, ?_⟩⟩
      · rintro p ⟨⟩
        exact hok.1 v hv
      · rintro p ⟨⟩
        exact hok.2 v hv
  | castVote v => exact hm.recorded (castVote_recorded e v)
  | castVoteVerified v pk => exact hm.recorded (castVoteVerified_recorded verifyRaw e v pk)
  | castVotesBatch vs keys => exact castVotesBatch_induct (fun _ _ hm h => hm.recorded h) verifyRaw hm vs keys
  | castAnonymousVoteVerified v => exact hm.recorded (castAnonymousVoteVerified_recorded e v)
  | applyNewView m => exact hm.applyNewView m
  | recordCommit r h => exact ⟨hm.votes, hm.anonymous⟩

/-- **A quorum is a certificate in every run whose proposals fit the stored votes.** Every vote path stores only votes
for the round and for the proposal that is there, so only a proposal could change what the stored votes are for. -/
theorem quorum_certificate_of_fitting_proposals (verifyRaw : String → String → String → Bool)
    (e : BFTEngine δ) (h : (bftSystem verifyRaw).Reachable FittingProposal e) : QuorumCertificate e := by
  refine votesMatch_certificate (System.Reachable.invariant ?_ ?_ h)
  · rintro s (⟨q, rfl⟩ | ⟨q, vs, rfl⟩)
    · exact ⟨by simp [BFTEngine.new, BFTEngine.withValidators],
        by simp [BFTEngine.new, BFTEngine.withValidators]⟩
    · exact ⟨by simp [BFTEngine.withValidators], by simp [BFTEngine.withValidators]⟩
  · rintro s op s' hm hok ⟨⟩
    exact votesMatch_step hm hok

/-! ## A run with a certificate, and the run that breaks it -/

/-- A vote of round 0 for block `b`. -/
def voteFor (voter b : String) : Vote :=
  { voterId := voter, blockHash := b, round := 0, signature := "sig_" ++ voter }

/-- Proposal first, then its quorum: the guarded run really reaches a quorum, and it is a certificate. -/
theorem quorum_certificate_of_proposal_then_votes :
    ∃ e : BFTEngine Unit, (bftSystem fun _ _ _ => true).Reachable FittingProposal e ∧
      e.hasQuorum = true ∧ e.currentProposal = some "block_a" ∧ QuorumCertificate e := by
  have hreach : (bftSystem fun _ _ _ => true).Reachable FittingProposal
      (((BFTEngine.new 1 : BFTEngine Unit).propose "block_a" none).castVote (voteFor "v1" "block_a")).1 := by
    refine ⟨_, .step (a := .castVote (voteFor "v1" "block_a"))
      (.step (a := .propose "block_a" none) (.init (Or.inl ⟨1, rfl⟩)) ?_ rfl) trivial rfl⟩
    exact ⟨by decide, by decide⟩
  exact ⟨_, hreach, by decide, by decide, quorum_certificate_of_fitting_proposals _ _ hreach⟩

/-- **Early votes certify another block.** Quorum size 1: a vote for `block_a` arrives before any proposal
and is stored; then `block_b` is proposed. `has_quorum` holds with no vote for `block_b`. -/
theorem early_votes_certify_other_block :
    ¬ ∀ e : BFTEngine Unit, (bftSystem fun _ _ _ => true).Reachable (fun _ _ => True) e →
      QuorumCertificate e := by
  intro hall
  have hreach : (bftSystem fun _ _ _ => true).Reachable (fun _ _ => True)
      (((BFTEngine.new 1 : BFTEngine Unit).castVote (voteFor "v1" "block_a")).1.propose "block_b" none) :=
    ⟨_, .step (a := .propose "block_b" none)
      (.step (a := .castVote (voteFor "v1" "block_a")) (.init (Or.inl ⟨1, rfl⟩)) trivial rfl) trivial rfl⟩
  exact absurd (hall _ hreach (by decide) "block_b" rfl) (by decide)

end WarmLogic.Consensus.Bft
