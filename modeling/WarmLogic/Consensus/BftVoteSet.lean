/-
# WarmLogic.Consensus.BftVoteSet — every operation of the BFT engine, and what the stored votes always are.

Four vote paths write `votes` and `anonymous_votes`, each with its own copy of the checks, and two operations
move the round. The copies agree: a named vote replaces the earlier vote of its voter or is appended below the
limit, an anonymous one brings a nullifier not seen before, and whatever moves the round clears all three
collections. So the conjunction holds in every reachable state, with no condition on the run.

`recordVote_cases` is what the four paths have in common: the vote takes the place of an earlier one of its voter, or
it is new and fits below the limit. A vote set that is distinct by voter stays so in both cases. The view change
messages are read here only as far as other modules need them (`collected`, `newViewMessage`, `Collects`).
-/
import WarmLogic.Consensus.BftQuorum
import Mathlib.Data.Finset.Lattice.Lemmas

namespace WarmLogic.Consensus.Bft

open WarmLogic.Lib

variable {δ : Type}

/-! ## The whole engine as a machine -/

/-- The operations of a round, and those of the view change protocol. -/
inductive BftOp (δ : Type) where
  | round (op : Op δ)
  | triggerViewChange (senderId signature : String) (nowMs : UInt64)
  | checkAndTriggerTimeout (currentTimeMs : UInt64) (senderId signature : String) (nowMs : UInt64)
  | updateActivity (currentTimeMs : UInt64)
  | processViewChange (msg : ViewChangeMessage) (publicKeyHex : String)
  | completeViewChange (leaderId signature : String)

/-- The engine after a call; what the call returns is dropped. -/
def BftOp.run (verifyRaw : String → String → String → Bool) (e : BFTEngine δ) : BftOp δ → BFTEngine δ
  | .round op => op.run verifyRaw e
  | .triggerViewChange id sig now => (e.triggerViewChange id sig now).1
  | .checkAndTriggerTimeout t id sig now => (e.checkAndTriggerTimeout t id sig now).1
  | .updateActivity t => e.updateActivity t
  | .processViewChange msg pk => (e.processViewChange verifyRaw msg pk).1
  | .completeViewChange id sig => (e.completeViewChange id sig).1

/-- A BFT engine from either constructor, driven by any calls. -/
def bftEngine (verifyRaw : String → String → String → Bool) : System (BFTEngine δ) (BftOp δ) where
  init e := (∃ q, e = BFTEngine.new q) ∨ ∃ q vs, e = BFTEngine.withValidators q vs
  step op e := some (op.run verifyRaw e)

/-- The stored VIEW_CHANGE messages for the next view: those `has_view_change_quorum` counts. -/
def BFTEngine.collected (e : BFTEngine δ) : List ViewChangeMessage :=
  e.viewChangeMessages.filter (fun m => m.newView == e.view + 1)

/-- The prepared block and round a VIEW_CHANGE message reports, if it reports a round. -/
def ViewChangeMessage.report (m : ViewChangeMessage) : Option (Option String × UInt64) :=
  m.lastPreparedRound.map fun r => (m.lastPreparedBlock, r)

/-- The NEW_VIEW message `complete_view_change` builds from what the engine has collected. -/
def BFTEngine.newViewMessage (e : BFTEngine δ) (leaderId signature : String) : NewViewMessage :=
  let prepared := (BFTEngine.maxByRound (e.collected.filterMap (·.report))).getD (none, e.round)
  { view := e.view + 1
    leaderId := leaderId
    viewChangeProofs := e.collected.take e.quorumSize
    preparedBlock := prepared.1
    startingRound := prepared.2
    signature := signature }

/-- `complete_view_change` refuses and changes nothing, or applies its own message. -/
theorem completeViewChange_cases (e : BFTEngine δ) (leaderId signature : String) :
    (e.completeViewChange leaderId signature).1 = e ∨
      (e.getLeaderForView (e.view + 1) = some leaderId ∧ e.hasViewChangeQuorum = true ∧
        (e.completeViewChange leaderId signature).1 = (e.applyNewView (e.newViewMessage leaderId signature)).1) := by
  unfold BFTEngine.completeViewChange
  dsimp only
  split
  · exact .inl rfl
  · rename_i hleader
    split
    · exact .inl rfl
    · rename_i hquorum
      refine .inr ⟨not_not.mp hleader, by simpa using hquorum, ?_⟩
      split
      · rename_i e' happ
        exact (congrArg Prod.fst happ).symm
      · rename_i e' err happ
        exact (congrArg Prod.fst happ).symm

/-- The engine after a VIEW_CHANGE message that passed the checks of `process_view_change`. -/
def BFTEngine.stored (e : BFTEngine δ) (msg : ViewChangeMessage) : BFTEngine δ :=
  { e with
    lastViewChangeTimestamp := msg.timestampMs
    viewChangeMessages := e.viewChangeMessages ++ [msg]
    viewChangeStatus := .pending }

/-- The text `process_view_change` verifies a signature over: view and sender, and not the report. -/
def ViewChangeMessage.signedBy (verifyRaw : String → String → String → Bool) (msg : ViewChangeMessage)
    (publicKeyHex : String) : Prop :=
  verifyRaw publicKeyHex (toString msg.newView ++ ":" ++ msg.senderId) msg.signature = true

/-- What `process_view_change` asks of a message it stores. -/
structure Collects (verifyRaw : String → String → String → Bool) (e : BFTEngine δ) (msg : ViewChangeMessage)
    (publicKeyHex : String) : Prop where
  ahead : e.view < msg.newView
  recent : e.lastViewChangeTimestamp ≤ msg.timestampMs
  first : ∀ m ∈ e.viewChangeMessages, ¬ (m.senderId = msg.senderId ∧ m.newView = msg.newView)
  room : e.viewChangeMessages.length < maxVotesPerRound
  signed : msg.signedBy verifyRaw publicKeyHex

/-- `process_view_change` stores the message, or leaves the engine as it is. -/
theorem processViewChange_cases (verifyRaw : String → String → String → Bool) (e : BFTEngine δ) (msg : ViewChangeMessage)
    (pk : String) :
    (Collects verifyRaw e msg pk ∧ (e.processViewChange verifyRaw msg pk).1 = e.stored msg) ∨
      (¬ Collects verifyRaw e msg pk ∧ (e.processViewChange verifyRaw msg pk).1 = e) := by
  unfold BFTEngine.processViewChange
  split
  · rename_i h
    exact .inr ⟨fun hc => UInt64.not_le.mpr hc.ahead h, rfl⟩
  rename_i hview
  split
  · rename_i h
    exact .inr ⟨fun hc => UInt64.not_lt.mpr hc.recent h, rfl⟩
  rename_i htime
  split
  · rename_i h
    refine .inr ⟨fun hc => ?_, rfl⟩
    obtain ⟨m, hm, hsame⟩ := List.any_eq_true.mp h
    exact hc.first m hm (by simpa using hsame)
  rename_i hfirst
  split
  · rename_i h
    exact .inr ⟨fun hc => Nat.not_le.mpr hc.room h, rfl⟩
  rename_i hroom
  split
  · rename_i h
    refine .inr ⟨fun hc => ?_, rfl⟩
    rw [show verifyRaw pk (toString msg.newView ++ ":" ++ msg.senderId) msg.signature = true from hc.signed] at h
    cases h
  rename_i hsig
  refine .inl ⟨⟨UInt64.not_le.mp hview, UInt64.not_lt.mp htime, ?_, Nat.not_le.mp hroom, ?_⟩, rfl⟩
  · intro m hm hsame
    refine hfirst (List.any_eq_true.mpr ⟨m, hm, ?_⟩)
    rw [hsame.1, hsame.2, beq_self_eq_true, beq_self_eq_true]
    rfl
  · simpa [ViewChangeMessage.signedBy] using hsig

/-! ## The invariant -/

/-- **The vote set.** One vote a voter, at most `MAX_VOTES_PER_ROUND` of them, all of the engine's round; and the
nullifiers are exactly those of the anonymous votes, each used once. Every path checks the round first; a named vote
replaces the one its voter has; an anonymous one is refused if its nullifier is in the set, and adds it if not.
Whatever changes the round clears votes, anonymous votes and nullifiers together. -/
structure VoteSet (e : BFTEngine δ) : Prop where
  distinct : (e.votes.map (·.voterId)).Nodup
  bounded : e.votes.length ≤ maxVotesPerRound
  rounds : ∀ v ∈ e.votes, v.round = e.round
  anonymousRounds : ∀ v ∈ e.anonymousVotes, v.round = e.round
  nullifiers : e.nullifiers = (e.anonymousVotes.map (·.nullifier)).toFinset
  once : (e.anonymousVotes.map (·.nullifier)).Nodup

/-- An engine without votes. -/
theorem voteSet_of_empty {e : BFTEngine δ} (hv : e.votes = []) (ha : e.anonymousVotes = [])
    (hn : e.nullifiers = ∅) : VoteSet e := by
  refine ⟨?_, ?_, ?_, ?_, ?_, ?_⟩
  · rw [hv]
    exact List.nodup_nil
  · rw [hv]
    exact Nat.zero_le _
  · rw [hv]
    exact fun _ h => absurd h List.not_mem_nil
  · rw [ha]
    exact fun _ h => absurd h List.not_mem_nil
  · rw [hn, ha]
    rfl
  · rw [ha]
    exact List.nodup_nil

/-- The invariant reads the vote collections and the round, and nothing else. -/
theorem VoteSet.congr {e e' : BFTEngine δ} (hs : VoteSet e) (hv : e'.votes = e.votes)
    (ha : e'.anonymousVotes = e.anonymousVotes) (hn : e'.nullifiers = e.nullifiers) (hr : e'.round = e.round) :
    VoteSet e' := by
  refine ⟨?_, ?_, ?_, ?_, ?_, ?_⟩
  · rw [hv]
    exact hs.distinct
  · rw [hv]
    exact hs.bounded
  · rw [hv, hr]
    exact hs.rounds
  · rw [ha, hr]
    exact hs.anonymousRounds
  · rw [hn, ha]
    exact hs.nullifiers
  · rw [ha]
    exact hs.once

/-- A recorded vote takes the place of its voter's earlier one, or is new and fits below the limit. -/
theorem recordVote_cases {votes votes' : List Vote} {vote : Vote}
    (h : BFTEngine.recordVote votes vote = some votes') :
    (votes'.map (·.voterId) = votes.map (·.voterId)) ∨
      (vote.voterId ∉ votes.map (·.voterId) ∧ votes.length < maxVotesPerRound ∧ votes' = votes ++ [vote]) := by
  unfold BFTEngine.recordVote at h
  split at h
  · rename_i pos hpos
    obtain ⟨hlt, hvoter, -⟩ := List.findIdx?_eq_some_iff_getElem.mp hpos
    have hlt' : pos < (votes.map (·.voterId)).length := by
      rw [List.length_map]
      exact hlt
    have hid : (votes.map (·.voterId))[pos] = vote.voterId := by
      rw [List.getElem_map]
      exact beq_iff_eq.mp hvoter
    left
    cases h
    rw [List.map_set, ← hid, List.set_getElem_self]
  · rename_i hpos
    split at h
    · cases h
    · rename_i hlen
      cases h
      refine .inr ⟨?_, Nat.lt_of_not_le hlen, rfl⟩
      intro hmem
      obtain ⟨v, hv, hid⟩ := List.mem_map.mp hmem
      have hne := List.findIdx?_eq_none_iff.mp hpos v hv
      rw [hid, beq_self_eq_true] at hne
      cases hne

/-- One more element, of a name not taken. -/
theorem nodup_map_snoc {α β : Type} {f : α → β} {l : List α} {a : α} (h : (l.map f).Nodup) (hnew : f a ∉ l.map f) :
    ((l ++ [a]).map f).Nodup := by
  rw [List.map_append, List.map_singleton, ← List.concat_eq_append]
  exact h.concat hnew

theorem VoteSet.vote {e : BFTEngine δ} (hs : VoteSet e) {vote : Vote} {votes : List Vote}
    (hround : vote.round = e.round) (hrec : BFTEngine.recordVote e.votes vote = some votes) :
    VoteSet { e with votes := votes } := by
  have hrounds : ∀ v ∈ votes, v.round = e.round := by
    intro v hv
    rcases mem_recordVote hrec v hv with rfl | hv
    · exact hround
    · exact hs.rounds v hv
  suffices hvotes : (votes.map (·.voterId)).Nodup ∧ votes.length ≤ maxVotesPerRound from
    ⟨hvotes.1, hvotes.2, hrounds, hs.anonymousRounds, hs.nullifiers, hs.once⟩
  rcases recordVote_cases hrec with hids | ⟨hnew, hlt, rfl⟩
  · have hlen := congrArg List.length hids
    rw [List.length_map, List.length_map] at hlen
    rw [hids, hlen]
    exact ⟨hs.distinct, hs.bounded⟩
  · refine ⟨nodup_map_snoc hs.distinct hnew, ?_⟩
    rw [List.length_append, List.length_singleton]
    exact hlt

theorem VoteSet.anonymous {e : BFTEngine δ} (hs : VoteSet e) {vote : AnonymousVote} (hround : vote.round = e.round)
    (hnew : vote.nullifier ∉ e.nullifiers) :
    VoteSet
      { e with
        nullifiers := insert vote.nullifier e.nullifiers
        anonymousVotes := e.anonymousVotes ++ [vote] } := by
  rw [hs.nullifiers, List.mem_toFinset] at hnew
  refine ⟨hs.distinct, hs.bounded, hs.rounds, ?_, ?_, nodup_map_snoc hs.once hnew⟩
  · intro v hv
    rcases List.mem_append.mp hv with hv | hv
    · exact hs.anonymousRounds v hv
    · rw [List.mem_singleton.mp hv]
      exact hround
  · ext n
    dsimp only
    rw [hs.nullifiers, List.map_append, List.toFinset_append, Finset.mem_insert, Finset.mem_union, or_comm]
    simp

theorem VoteSet.recorded {e e' : BFTEngine δ} (hs : VoteSet e) (h : Recorded e e') : VoteSet e' := by
  cases h with
  | same => exact hs
  | vote hround _ hrec => exact hs.vote (not_not.mp hround) hrec
  | anonymous hround _ hnew => exact hs.anonymous (not_not.mp hround) hnew

theorem VoteSet.applyNewView {e : BFTEngine δ} (hs : VoteSet e) (msg : NewViewMessage) :
    VoteSet (e.applyNewView msg).1 := by
  rcases applyNewView_cases e msg with h | ⟨-, -, -, status, h⟩
  · rw [h]
    exact hs
  · rw [h]
    exact voteSet_of_empty rfl rfl rfl

/-- No operation of a round breaks the vote set. -/
theorem VoteSet.round {verifyRaw : String → String → String → Bool} {e : BFTEngine δ} (hs : VoteSet e) (op : Op δ) :
    VoteSet (op.run verifyRaw e) := by
  cases op with
  | startRound r => exact voteSet_of_empty rfl rfl rfl
  | propose h d => exact hs.congr rfl rfl rfl rfl
  | castVote v => exact hs.recorded (castVote_recorded e v)
  | castVoteVerified v pk => exact hs.recorded (castVoteVerified_recorded verifyRaw e v pk)
  | castVotesBatch vs keys => exact castVotesBatch_induct (fun _ _ hs h => hs.recorded h) verifyRaw hs vs keys
  | castAnonymousVoteVerified v => exact hs.recorded (castAnonymousVoteVerified_recorded e v)
  | applyNewView m => exact hs.applyNewView m
  | recordCommit r h => exact hs.congr rfl rfl rfl rfl

/-- Nor does one of the view change protocol. -/
theorem VoteSet.step {verifyRaw : String → String → String → Bool} {e : BFTEngine δ} (hs : VoteSet e)
    (op : BftOp δ) : VoteSet (op.run verifyRaw e) := by
  cases op with
  | round op => exact hs.round op
  | triggerViewChange id sig now => exact hs.congr rfl rfl rfl rfl
  | checkAndTriggerTimeout t id sig now =>
      show VoteSet (e.checkAndTriggerTimeout t id sig now).1
      unfold BFTEngine.checkAndTriggerTimeout
      split
      · exact hs.congr rfl rfl rfl rfl
      · exact hs
  | updateActivity t => exact hs.congr rfl rfl rfl rfl
  | processViewChange msg pk =>
      show VoteSet (e.processViewChange verifyRaw msg pk).1
      rcases processViewChange_cases verifyRaw e msg pk with ⟨-, h⟩ | ⟨-, h⟩
      · rw [h]
        exact hs.congr rfl rfl rfl rfl
      · rw [h]
        exact hs
  | completeViewChange id sig =>
      show VoteSet (e.completeViewChange id sig).1
      rcases completeViewChange_cases e id sig with h | ⟨-, -, h⟩
      · rw [h]
        exact hs
      · rw [h]
        exact hs.applyNewView _

/-- **The vote set, in every reachable state.** By induction on the run: a vote is stored only if its sender has none
in the slot, and nothing else touches the votes. -/
theorem voteSet_reachable (verifyRaw : String → String → String → Bool) (e : BFTEngine δ)
    (h : (bftEngine verifyRaw).Reachable (fun _ _ => True) e) : VoteSet e := by
  refine System.Reachable.invariant ?_ ?_ h
  · rintro s (⟨q, rfl⟩ | ⟨q, vs, rfl⟩)
    · exact voteSet_of_empty rfl rfl rfl
    · exact voteSet_of_empty rfl rfl rfl
  · rintro s op s' hs - ⟨⟩
    exact hs.step op

/-- A run with a replaced vote, an anonymous one and a refused second use of its nullifier. -/
theorem voteSet_reachable_replaced_vote : ∃ e : BFTEngine Unit,
    (bftEngine fun _ _ _ => true).Reachable (fun _ _ => True) e ∧
      (e.votes.length = 1 ∧ e.anonymousVotes.length = 1) ∧ VoteSet e := by
  obtain ⟨e, past, hr, hlen⟩ := System.exists_run_of_play (M := bftEngine (δ := Unit) fun _ _ _ => true)
    (fun _ _ => True) (P := fun e _ => e.votes.length = 1 ∧ e.anonymousVotes.length = 1) (s := BFTEngine.new 2)
    (.inl ⟨2, rfl⟩)
    [fun _ => .round (.castVote (voteFor "v1" "block_a")), fun _ => .round (.castVote (voteFor "v1" "block_b")),
      fun _ => .round (.castAnonymousVoteVerified ⟨"block_a", 0, [1], Vector.replicate 32 7⟩),
      fun _ => .round (.castAnonymousVoteVerified ⟨"block_a", 0, [2], Vector.replicate 32 7⟩)] (by decide +kernel)
  exact ⟨e, ⟨past, hr⟩, hlen, voteSet_reachable _ e ⟨past, hr⟩⟩

end WarmLogic.Consensus.Bft
