/-
# WarmLogic.Net.PropagatorOrder — the order in which the block propagation engine commits by votes.

`process_commit` compares the slot of a certificate with the engine's own before it moves; `commit_block` does not.
A pending block is kept when the engine moves on, so late votes can still bring a block of an old round or view to
its quorum: it is committed then, behind later ones, and the engine's round is counted up as if its own round had
been committed.

In a run in which only blocks of the engine's own view and round come to their quorum, no counter wraps, and no
message sends the engine back to a slot it is done with, the commits are in order, each at the engine's position, and
the next round follows.

Only commits by votes are in the history: a certificate moves the engine to behind its slot, wherever that is, and
says nothing about the order in which this node reached quorums.
-/
import WarmLogic.Net.PropagatorPending

namespace WarmLogic.Net

open WarmLogic.Lib BlockPropagator

variable {sha3 : List UInt8 → BlockHash}

/-! ## Slots -/

/-- The strict lexicographic order of views and rounds. -/
def SlotLt (a b : Slot) : Prop := a.1 < b.1 ∨ (a.1 = b.1 ∧ a.2 < b.2)

instance (a b : Slot) : Decidable (SlotLt a b) := inferInstanceAs (Decidable (_ ∨ _))

theorem SlotLt.trans_le {a b c : Slot} (hab : SlotLt a b) (hbc : SlotLe b c) : SlotLt a c := by
  rcases hab with hab | ⟨hab, hab'⟩
  · rcases hbc with hbc | ⟨hbc, -⟩
    · exact .inl (UInt64.lt_trans hab hbc)
    · exact .inl (hbc ▸ hab)
  · rcases hbc with hbc | ⟨hbc, hbc'⟩
    · exact .inl (hab ▸ hbc)
    · exact .inr ⟨hab.trans hbc, UInt64.lt_of_lt_of_le hab' hbc'⟩

/-! ## The engine with its commits by votes -/

/-- A commit by votes: the slot, and the engine's position before and after. -/
structure VoteCommit where
  slot : Slot
  before : Slot
  after : Slot

/-- The commit of a call, if it is a vote for which `process_vote` returns `Ok(true)`. -/
def PropagatorOp.voteCommit (sha3 : List UInt8 → BlockHash) (p : BlockPropagator) : PropagatorOp → Option VoteCommit
  | .processVote vote verifyFn =>
      match p.processVote sha3 vote verifyFn with
      | (p', .ok true) => some ⟨vote.slot, p.position, p'.position⟩
      | _ => none
  | _ => none

/-- A node and its commits by votes, newest first. -/
structure OrderLog where
  node : BlockPropagator
  commits : List VoteCommit

/-- The engine under any calls, with its commits by votes. -/
def orderedPropagator (sha3 : List UInt8 → BlockHash) : System OrderLog PropagatorOp where
  init s := (∃ nodeId validators, s.node = .new nodeId validators) ∧ s.commits = []
  step op s := some
    { node := op.call sha3 s.node
      commits := (op.voteCommit sha3 s.node).toList ++ s.commits }

/-- **Commits in order.** The slots rise, each is the engine's position at its commit, and the position after it is
the next round. -/
structure CommitsInOrder (commits : List VoteCommit) : Prop where
  rising : commits.Pairwise fun newer older => SlotLt older.slot newer.slot
  atPosition : ∀ c ∈ commits, c.slot = c.before
  next : ∀ c ∈ commits, c.after.1 = c.slot.1 ∧ c.after.2.toNat = c.slot.2.toNat + 1

instance (p : BlockPropagator) (msg : P2PNewView) (verifyFn : List UInt8 → List UInt8 → NodeId → Bool) :
    Decidable (p.acceptsNewView msg verifyFn) :=
  inferInstanceAs (Decidable (_ ∧ _))

/-- The slot of the block whose quorum a call completes. -/
def PropagatorOp.completes (p : BlockPropagator) : PropagatorOp → Option Slot
  | .processVote vote verifyFn => (p.completed vote verifyFn).map fun _ => vote.slot
  | _ => none

/-- Where a certificate, a NEW_VIEW message or a completed view change sends the engine. -/
def PropagatorOp.target (p : BlockPropagator) : PropagatorOp → Option Slot
  | .processCommit commit verifyFn =>
      if p.acceptsCommit commit verifyFn ∧
          (p.view < commit.view ∨ (commit.view = p.view ∧ p.round ≤ commit.round)) then
        some (commit.view, commit.round + 1)
      else none
  | .processNewView msg verifyFn =>
      if p.acceptsNewView msg verifyFn then some (msg.view, msg.startingRound) else none
  | .completeViewChange _ => p.readyTracker.map fun t => (t.targetView, t.startingRound)
  | _ => none

/-- **The guard.** A vote completes the quorum of no block but one of the engine's own view and round, and not of the
last round there is; and no other call sends the engine to a slot that is not above all it committed by votes. -/
structure StaysInOrder (op : PropagatorOp) (s : OrderLog) : Prop where
  current : ∀ k ∈ op.completes s.node, k = s.node.position ∧ s.node.round + 1 ≠ 0
  ahead : ∀ x ∈ op.target s.node, ∀ c ∈ s.commits, SlotLt c.slot x

/-! ## One call -/

/-- A vote commits at most once, and counts up the engine's own round whatever the slot. -/
theorem processVote_voteCommit (sha3 : List UInt8 → BlockHash) (p : BlockPropagator) (vote : BlockVote)
    (verifyFn : List UInt8 → List UInt8 → NodeId → Bool) :
    (PropagatorOp.voteCommit sha3 p (.processVote vote verifyFn) = none ∧
      (p.processVote sha3 vote verifyFn).1.position = p.position) ∨
    (PropagatorOp.completes p (.processVote vote verifyFn) = some vote.slot ∧
      PropagatorOp.voteCommit sha3 p (.processVote vote verifyFn) =
        some ⟨vote.slot, p.position, (p.view, p.round + 1)⟩ ∧
      (p.processVote sha3 vote verifyFn).1.position = (p.view, p.round + 1)) := by
  dsimp only [PropagatorOp.voteCommit, PropagatorOp.completes]
  rw [completed_eq]
  rcases processVote_cases sha3 p vote verifyFn with ⟨-, e, heq⟩ | ⟨b, hadm, ⟨-, heq⟩ | ⟨hyes, heq⟩⟩
  · rw [heq]
    exact .inl ⟨rfl, rfl⟩
  · rw [heq]
    exact .inl ⟨rfl, rfl⟩
  · rw [heq]
    exact .inr ⟨by simp [hadm, Option.filter, hyes], rfl, rfl⟩

/-- A call that is no vote leaves the engine at or above its position, or sends it to its target. -/
theorem call_position (sha3 : List UInt8 → BlockHash) (op : PropagatorOp) (p : BlockPropagator)
    (hop : ∀ vote verifyFn, op ≠ .processVote vote verifyFn) :
    op.voteCommit sha3 p = none ∧
      (SlotLe p.position (op.call sha3 p).position ∨ op.target p = some (op.call sha3 p).position) := by
  cases op with
  | processVote vote verifyFn => exact absurd rfl (hop vote verifyFn)
  | processCommit commit verifyFn =>
      refine ⟨rfl, ?_⟩
      show SlotLe _ (p.processCommit commit verifyFn).1.position ∨ _ = some (p.processCommit commit verifyFn).1.position
      rcases processCommit_spec p commit verifyFn with ⟨-, heq⟩ | ⟨hyes, hcert⟩
      · rw [heq]
        exact .inl (.refl _)
      · rw [hcert.position]
        split
        · rename_i hahead
          exact .inr (if_pos ⟨hyes, hahead⟩)
        · exact .inl (.refl _)
  | processNewView msg verifyFn =>
      refine ⟨rfl, ?_⟩
      show SlotLe _ (p.processNewView msg verifyFn).1.position ∨ _ = some (p.processNewView msg verifyFn).1.position
      rcases processNewView_spec p msg verifyFn with ⟨-, e, heq⟩ | ⟨hyes, heq⟩
      · rw [heq]
        exact .inl (.refl _)
      · rw [heq]
        exact .inr (if_pos hyes)
  | completeViewChange signFn =>
      refine ⟨rfl, ?_⟩
      show SlotLe _ (p.completeViewChange signFn).1.position ∨ p.readyTracker.map _ = some (p.completeViewChange signFn).1.position
      rcases completeViewChange_spec p signFn with ⟨-, heq⟩ | ⟨t, ht, hpos⟩
      · rw [heq]
        exact .inl (.refl _)
      · rw [hpos, ht]
        exact .inr rfl
  | processProposal proposal timestampMs verifyFn signFn =>
      exact ⟨rfl, .inl (processProposal_position proposal timestampMs signFn)⟩
  | processViewChange msg verifyFn =>
      refine ⟨rfl, .inl ?_⟩
      show SlotLe _ (p.processViewChange msg verifyFn).1.position
      rw [processViewChange_position]
      exact .refl _
  | proposeBlock blockData prevHash timestampMs signFn =>
      refine ⟨rfl, .inl ?_⟩
      show SlotLe _ (p.proposeBlock sha3 blockData prevHash timestampMs signFn).1.position
      unfold BlockPropagator.proposeBlock
      repeat' split
      all_goals exact .refl _
  | initiateViewChange => exact ⟨rfl, .inl (.refl _)⟩
  | drainOutbound => exact ⟨rfl, .inl (.refl _)⟩

/-! ## Every run -/

/-- The commits are in order, and the engine stands above all of them. A commit under the guard is at the engine's
position, which is above all earlier ones, and moves the engine to the next round; every other call leaves the
position or raises it, or sends it to a slot that the guard puts above the commits. -/
structure OrderInv (s : OrderLog) : Prop where
  inOrder : CommitsInOrder s.commits
  above : ∀ c ∈ s.commits, SlotLt c.slot s.node.position

/-- A log without a new commit stays in order, if the engine is above its commits. -/
theorem OrderInv.idle {op : PropagatorOp} {s : OrderLog} (hi : OrderInv s) (hnone : op.voteCommit sha3 s.node = none)
    (habove : ∀ c ∈ s.commits, SlotLt c.slot (op.call sha3 s.node).position) :
    OrderInv { node := op.call sha3 s.node, commits := (op.voteCommit sha3 s.node).toList ++ s.commits } := by
  rw [hnone]
  exact ⟨hi.inOrder, habove⟩

/-- A commit at the engine's position, before the last round, stays in order. -/
theorem OrderInv.commit {op : PropagatorOp} {s : OrderLog} (hi : OrderInv s)
    (hsome : op.voteCommit sha3 s.node = some ⟨s.node.position, s.node.position, (s.node.view, s.node.round + 1)⟩)
    (hpos : (op.call sha3 s.node).position = (s.node.view, s.node.round + 1)) (hwrap : s.node.round + 1 ≠ 0) :
    OrderInv { node := op.call sha3 s.node, commits := (op.voteCommit sha3 s.node).toList ++ s.commits } := by
  have hlt := (lt_add_one_iff s.node.round).mpr hwrap
  rw [hsome]
  refine ⟨⟨?_, ?_, ?_⟩, ?_⟩
  · exact List.pairwise_cons.mpr ⟨hi.above, hi.inOrder.rising⟩
  · exact List.forall_mem_cons.mpr ⟨rfl, hi.inOrder.atPosition⟩
  · exact List.forall_mem_cons.mpr ⟨⟨rfl, toNat_add_one hwrap⟩, hi.inOrder.next⟩
  · show ∀ c ∈ _ :: s.commits, SlotLt c.slot (op.call sha3 s.node).position
    rw [hpos]
    refine List.forall_mem_cons.mpr ⟨.inr ⟨rfl, hlt⟩, fun c hc => (hi.above c hc).trans_le ?_⟩
    exact .inr ⟨rfl, UInt64.le_of_lt hlt⟩

theorem OrderInv.step {op : PropagatorOp} {s : OrderLog} (hi : OrderInv s) (hok : StaysInOrder op s) :
    OrderInv { node := op.call sha3 s.node, commits := (op.voteCommit sha3 s.node).toList ++ s.commits } := by
  by_cases hop : ∃ vote verifyFn, op = .processVote vote verifyFn
  · obtain ⟨vote, verifyFn, rfl⟩ := hop
    rcases processVote_voteCommit sha3 s.node vote verifyFn with ⟨hnone, hpos⟩ | ⟨hcomp, hsome, hpos⟩
    · refine hi.idle hnone fun c hc => ?_
      show SlotLt c.slot (s.node.processVote sha3 vote verifyFn).1.position
      rw [hpos]
      exact hi.above c hc
    · obtain ⟨hslot, hwrap⟩ := hok.current vote.slot hcomp
      rw [hslot] at hsome
      exact hi.commit hsome hpos hwrap
  · obtain ⟨hnone, hle | htarget⟩ := call_position sha3 op s.node fun vote verifyFn heq =>
      hop ⟨vote, verifyFn, heq⟩
    · exact hi.idle hnone fun c hc => (hi.above c hc).trans_le hle
    · exact hi.idle hnone (hok.ahead _ htarget)

/-- **Commit order.** In every run in which the guard is met, the commits by votes are in order in every state. A
commit by votes moves the position on, and the guard keeps its slot from lying behind it. -/
theorem commits_in_order (sha3 : List UInt8 → BlockHash) (h : List OrderLog)
    (hr : (orderedPropagator sha3).Run StaysInOrder h) : ∀ s ∈ h, CommitsInOrder s.commits := by
  intro s hs
  obtain ⟨past, -, hrun⟩ := hr.exists_suffix hs
  refine (System.Reachable.invariant (P := OrderInv) ?_ ?_ ⟨past, hrun⟩).inOrder
  · rintro s ⟨-, hnil⟩
    refine ⟨⟨?_, ?_, ?_⟩, ?_⟩
    · rw [hnil]
      exact .nil
    all_goals
      intro c hc
      rw [hnil] at hc
      exact absurd hc List.not_mem_nil
  · rintro s op s' hi hok ⟨⟩
    exact hi.step hok

/-! ### A late quorum -/

instance (op : PropagatorOp) (s : OrderLog) : Decidable (StaysInOrder op s) :=
  haveI : Decidable (∀ k ∈ op.completes s.node, k = s.node.position ∧ s.node.round + 1 ≠ 0) :=
    Option.decidableForallMem _
  haveI : Decidable (∀ x ∈ op.target s.node, ∀ c ∈ s.commits, SlotLt c.slot x) := Option.decidableForallMem _
  decidable_of_iff ((∀ k ∈ op.completes s.node, k = s.node.position ∧ s.node.round + 1 ≠ 0) ∧
    ∀ x ∈ op.target s.node, ∀ c ∈ s.commits, SlotLt c.slot x) ⟨fun h => ⟨h.1, h.2⟩, fun h => ⟨h.current, h.ahead⟩⟩

/-- The votes of nodes 1, 3 and 4 for a proposal, as calls. -/
def threeVotes (proposal : BlockProposal) : List (OrderLog → PropagatorOp) :=
  [1, 3, 4].map fun n _ => .processVote (ballot n proposal) scriptVerify

theorem secondOfFour_init : (orderedPropagator scriptSha3).init ⟨secondOfFour, []⟩ := ⟨⟨_, _, rfl⟩, rfl⟩

/-- Round 0 is proposed and gets its votes, then round 1: two commits, in order. -/
theorem commits_in_order_two_rounds : ∃ s past, (orderedPropagator scriptSha3).Run StaysInOrder (s :: past) ∧
    s.commits.length = 2 ∧ ∀ t ∈ s :: past, CommitsInOrder t.commits := by
  obtain ⟨s, past, hr, hlen⟩ := System.exists_run_of_play (M := orderedPropagator scriptSha3) StaysInOrder
    (P := fun s _ => s.commits.length = 2) secondOfFour_init
    ((fun _ => deliver 0 [1]) :: threeVotes (scriptProposal 0 [1]) ++
      (fun _ => deliver 1 [2]) :: threeVotes (scriptProposal 1 [2])) (by decide +kernel)
  exact ⟨s, past, hr, hlen, commits_in_order scriptSha3 (s :: past) hr⟩

/-- Rounds 0 and 1 are proposed, then round 0 gets its votes: it is committed while the node is in round 1. -/
theorem late_quorum_out_of_order : ¬ ∀ (sha3 : List UInt8 → BlockHash) (h : List OrderLog),
    (orderedPropagator sha3).Run (fun _ _ => True) h → ∀ s ∈ h, CommitsInOrder s.commits := by
  intro hall
  obtain ⟨s, past, hr, c, hc, hne⟩ := System.exists_run_of_play (M := orderedPropagator scriptSha3) (fun _ _ => True)
    (P := fun s _ => ∃ c ∈ s.commits, c.slot ≠ c.before) secondOfFour_init
    ((fun _ => deliver 0 [1]) :: (fun _ => deliver 1 [2]) :: threeVotes (scriptProposal 0 [1])) (by decide +kernel)
  exact hne ((hall scriptSha3 _ hr s List.mem_cons_self).atPosition c hc)

end WarmLogic.Net
