/-
# WarmLogic.Net.PropagatorFinality — which commits of the block propagation engine are final.

Two paths write `committed_blocks` and `state_root`: a vote that completes a quorum, and an accepted BlockCommit.
Neither looks at what the slot holds, and the second takes the root from the message whatever was committed since.
So a certificate that comes in again can take the state root back to an old one, and two certificates for one slot
replace each other.

`commits_are_final` is the exact rule: a commit stays, and a certificate that comes in again changes nothing, in
every run in which a slot is written with one hash only and an old certificate is accepted again only while its
root is still the root and its slot is behind the engine.

A run records which certificates were accepted, and the engine before and after each that came in again, so that
finality can be stated of a whole run: no commit disappears between any two states of it, and no repeated certificate
moved the engine. The guard looks at the call and the state it meets; it does not ask where a certificate came from.
-/
import WarmLogic.Net.PropagatorProgress

namespace WarmLogic.Net

open WarmLogic.Lib BlockPropagator

variable {sha3 : List UInt8 → BlockHash}

/-! ## What a call writes -/

/-- The slot and the hash a call writes to `committed_blocks`. -/
def PropagatorOp.written (p : BlockPropagator) : PropagatorOp → Option (Slot × BlockHash)
  | .processVote vote verifyFn => (p.completed vote verifyFn).map fun b => (vote.slot, b.proposal.blockHash)
  | .processCommit commit verifyFn =>
      if p.acceptsCommit commit verifyFn then some (commit.slot, commit.blockHash) else none
  | _ => none

namespace BlockPropagator

variable {p : BlockPropagator}

/-- The commits and the root stay as they are. -/
def Untouched (p p' : BlockPropagator) : Prop :=
  p'.committedBlocks = p.committedBlocks ∧ p'.stateRoot = p.stateRoot

theorem proposeBlock_untouched (blockData : List UInt8) (prevHash : BlockHash) (timestampMs : UInt64)
    (signFn : List UInt8 → List UInt8) :
    Untouched p (p.proposeBlock sha3 blockData prevHash timestampMs signFn).1 := by
  unfold proposeBlock
  repeat' split
  all_goals exact ⟨rfl, rfl⟩

theorem processProposal_untouched (proposal : BlockProposal) (timestampMs : UInt64)
    (verifyFn : List UInt8 → List UInt8 → NodeId → Bool) (signFn : List UInt8 → List UInt8) :
    Untouched p (p.processProposal sha3 proposal timestampMs verifyFn signFn).1 := by
  have hcatch : Untouched p (p.catchUp proposal) := by
    unfold catchUp
    split
    · exact ⟨rfl, rfl⟩
    · exact ⟨rfl, rfl⟩
  unfold processProposal
  split
  · exact ⟨rfl, rfl⟩
  · dsimp only
    split
    · exact hcatch
    · exact hcatch

theorem processViewChange_untouched (msg : P2PViewChange) (verifyFn : List UInt8 → List UInt8 → NodeId → Bool) :
    Untouched p (p.processViewChange msg verifyFn).1 := by
  unfold processViewChange
  repeat' split
  all_goals exact ⟨rfl, rfl⟩

theorem completeViewChange_untouched (signFn : List UInt8 → List UInt8) :
    Untouched p (p.completeViewChange signFn).1 := by
  unfold completeViewChange
  repeat' split
  all_goals exact ⟨rfl, rfl⟩

theorem processNewView_untouched (msg : P2PNewView) (verifyFn : List UInt8 → List UInt8 → NodeId → Bool) :
    Untouched p (p.processNewView msg verifyFn).1 := by
  unfold processNewView
  repeat' split
  all_goals exact ⟨rfl, rfl⟩

end BlockPropagator

/-- **The inversion of a call, for commits.** Nothing is written; or a vote completed a pending block; or a
certificate was accepted. -/
inductive Writes (sha3 : List UInt8 → BlockHash) (p p' : BlockPropagator) : PropagatorOp → Prop
  | nothing {op : PropagatorOp} (hnone : op.written p = none) (h : Untouched p p') : Writes sha3 p p' op
  | vote {vote : BlockVote} {verifyFn : List UInt8 → List UInt8 → NodeId → Bool} (b : PendingBlock)
      (hb : p.completed vote verifyFn = some b) (hpend : p.pendingBlocks.lookup vote.slot = some b)
      (h : Commits sha3 vote.slot b p p') : Writes sha3 p p' (.processVote vote verifyFn)
  | certificate {commit : BlockCommit} {verifyFn : List UInt8 → List UInt8 → NodeId → Bool}
      (hyes : p.acceptsCommit commit verifyFn) (h : Certified commit p p') :
      Writes sha3 p p' (.processCommit commit verifyFn)

theorem PropagatorOp.call_writes (sha3 : List UInt8 → BlockHash) (p : BlockPropagator) (op : PropagatorOp) :
    Writes sha3 p (op.call sha3 p) op := by
  cases op with
  | processVote vote verifyFn =>
      rcases processVote_spec sha3 p vote verifyFn with ⟨hnone, hidle⟩ | ⟨b, hb, hpend, hcommits⟩
      · refine .nothing ?_ ⟨hidle.committed, hidle.root⟩
        show (p.completed vote verifyFn).map _ = none
        rw [hnone]
        rfl
      · exact .vote b hb hpend hcommits
  | processCommit commit verifyFn =>
      rcases processCommit_spec p commit verifyFn with ⟨hno, heq⟩ | ⟨hyes, hcert⟩
      · exact .nothing (if_neg hno) ⟨congrArg committedBlocks heq, congrArg stateRoot heq⟩
      · exact .certificate hyes hcert
  | proposeBlock => exact .nothing rfl (proposeBlock_untouched ..)
  | processProposal => exact .nothing rfl (processProposal_untouched ..)
  | initiateViewChange => exact .nothing rfl ⟨rfl, rfl⟩
  | processViewChange => exact .nothing rfl (processViewChange_untouched ..)
  | completeViewChange => exact .nothing rfl (completeViewChange_untouched ..)
  | processNewView => exact .nothing rfl (processNewView_untouched ..)
  | drainOutbound => exact .nothing rfl ⟨rfl, rfl⟩

/-! ## Commits are final -/

/-- A node, the certificates it accepted so far, and the engine before and after each one that came in again. -/
structure CommitLog where
  node : BlockPropagator
  accepted : List BlockCommit
  redelivered : List (BlockPropagator × BlockPropagator)

/-- The certificate a call delivers. -/
def PropagatorOp.certificate : PropagatorOp → Option BlockCommit
  | .processCommit commit _ => some commit
  | _ => none

/-- The certificate a call delivers, if the engine accepts it. -/
def PropagatorOp.acceptedCommit (p : BlockPropagator) : PropagatorOp → Option BlockCommit
  | .processCommit commit verifyFn => if p.acceptsCommit commit verifyFn then some commit else none
  | _ => none

/-- The engine under any calls, with its log. -/
def loggedPropagator (sha3 : List UInt8 → BlockHash) : System CommitLog PropagatorOp where
  init s := (∃ nodeId validators, s.node = .new nodeId validators) ∧ s.accepted = [] ∧ s.redelivered = []
  step op s := some
    { node := op.call sha3 s.node
      accepted := (op.acceptedCommit s.node).toList ++ s.accepted
      redelivered :=
        if op.certificate.any (s.accepted.contains ·) then (s.node, op.call sha3 s.node) :: s.redelivered
        else s.redelivered }

/-- Every commit of the earlier engine is one of the later. -/
def KeepsCommits (later earlier : CommitLog) : Prop :=
  ∀ k h, earlier.node.committedBlocks.lookup k = some h → later.node.committedBlocks.lookup k = some h

/-- Commits, root, view and round are the same. -/
structure Unmoved (p p' : BlockPropagator) : Prop where
  committed : ∀ k, p'.committedBlocks.lookup k = p.committedBlocks.lookup k
  root : p'.stateRoot = p.stateRoot
  position : p'.position = p.position

/-- **Finality of a run.** No commit is ever taken back, and no certificate that came in again moved the engine. -/
structure Final (h : List CommitLog) : Prop where
  forever : h.Pairwise KeepsCommits
  unmoved : ∀ s ∈ h, ∀ x ∈ s.redelivered, Unmoved x.1 x.2

/-- The engine stands behind the slot of a certificate, or right behind it where the round wrapped. -/
def Past (p : BlockPropagator) (commit : BlockCommit) : Prop :=
  p.position = (commit.view, commit.round + 1) ∨
    ¬ (p.view < commit.view ∨ (commit.view = p.view ∧ p.round ≤ commit.round))

/-- The guard: a slot is written with one hash only, and an old certificate is accepted again only while its root
is still the root and its slot is past. -/
structure Finalizes (op : PropagatorOp) (s : CommitLog) : Prop where
  slot : ∀ x ∈ op.written s.node, ∀ h ∈ s.node.committedBlocks.lookup x.1, h = x.2
  again : ∀ commit ∈ op.acceptedCommit s.node, commit ∈ s.accepted →
    commit.stateRoot = s.node.stateRoot ∧ Past s.node commit

/-- A slot written with the hash it holds, or empty before, loses nothing. -/
theorem lookup_insert_of_fits {m : AList (fun _ : Slot => BlockHash)} {k : Slot} {b : BlockHash}
    (hfits : ∀ h ∈ m.lookup k, h = b) {l : Slot} {h : BlockHash} (hl : m.lookup l = some h) :
    (m.insert k b).lookup l = some h := by
  by_cases hkl : l = k
  · rw [hkl] at hl ⊢
    rw [AList.lookup_insert, hfits h hl]
  · rw [AList.lookup_insert_ne hkl]
    exact hl

/-- A guarded call takes no commit back. -/
theorem Finalizes.keeps {op : PropagatorOp} {s : CommitLog} (hok : Finalizes op s) {k : Slot} {h : BlockHash}
    (hk : s.node.committedBlocks.lookup k = some h) :
    (op.call sha3 s.node).committedBlocks.lookup k = some h := by
  have hw := op.call_writes sha3 s.node
  have hslot := hok.slot
  cases hw with
  | nothing _ hsame =>
      rw [hsame.1]
      exact hk
  | vote b hb _ hcommits =>
      rw [hcommits.committed]
      refine lookup_insert_of_fits (hslot (_, _) ?_) hk
      show _ ∈ (s.node.completed _ _).map _
      rw [hb]
      rfl
  | certificate hyes hcert =>
      rw [hcert.committed]
      exact lookup_insert_of_fits (hslot (_, _) (if_pos hyes)) hk

/-- What was accepted is committed. -/
theorem acceptedCommit_committed {op : PropagatorOp} {p : BlockPropagator} {commit : BlockCommit}
    (h : op.acceptedCommit p = some commit) :
    (op.call sha3 p).committedBlocks.lookup commit.slot = some commit.blockHash := by
  cases op with
  | processCommit c verifyFn =>
      have h : (if p.acceptsCommit c verifyFn then some c else none) = some commit := h
      split at h
      · rename_i hyes
        cases h
        rcases processCommit_spec p commit verifyFn with ⟨hno, -⟩ | ⟨-, hcert⟩
        · exact absurd hyes hno
        · show (p.processCommit commit verifyFn).1.committedBlocks.lookup commit.slot = _
          rw [hcert.committed, AList.lookup_insert]
      · cases h
  | _ => cases h

/-- A guarded certificate that was accepted before does not move the engine. -/
theorem Finalizes.unmoved {s : CommitLog} {commit : BlockCommit}
    {verifyFn : List UInt8 → List UInt8 → NodeId → Bool} (hok : Finalizes (.processCommit commit verifyFn) s)
    (hmem : commit ∈ s.accepted) (hcom : s.node.committedBlocks.lookup commit.slot = some commit.blockHash) :
    Unmoved s.node (s.node.processCommit commit verifyFn).1 := by
  rcases processCommit_spec s.node commit verifyFn with ⟨-, heq⟩ | ⟨hyes, hcert⟩
  · rw [heq]
    exact ⟨fun _ => rfl, rfl, rfl⟩
  · obtain ⟨hroot, hpast⟩ := hok.again commit (if_pos hyes) hmem
    refine ⟨fun k => ?_, hcert.root.trans hroot, ?_⟩
    · rw [hcert.committed]
      by_cases hk : k = commit.slot
      · rw [hk, AList.lookup_insert, hcom]
      · rw [AList.lookup_insert_ne hk]
    · rw [hcert.position]
      rcases hpast with hright | hbehind
      · rw [hright, ite_self]
      · rw [if_neg hbehind]

/-- Finality so far; and what was accepted is still committed. A write goes to a slot that is empty or holds the hash
already, so nothing is replaced; and a certificate that was accepted before finds its slot committed, and under the
guard the root and the position as it would leave them. -/
structure FinalInv (s : CommitLog) (h : List CommitLog) : Prop where
  final : Final h
  mem : ∀ t ∈ h, t = s ∨ KeepsCommits s t
  accepted : ∀ commit ∈ s.accepted, s.node.committedBlocks.lookup commit.slot = some commit.blockHash

theorem FinalInv.step {s : CommitLog} {past : List CommitLog} {op : PropagatorOp} {s' : CommitLog}
    (hi : FinalInv s (s :: past)) (hok : Finalizes op s) (hstep : (loggedPropagator sha3).step op s = some s') :
    FinalInv s' (s' :: s :: past) := by
  cases hstep
  have hkeeps : ∀ t ∈ s :: past, ∀ k h, t.node.committedBlocks.lookup k = some h →
      (op.call sha3 s.node).committedBlocks.lookup k = some h := by
    intro t ht k h hk
    rcases hi.mem t ht with rfl | hsub
    · exact hok.keeps hk
    · exact hok.keeps (hsub k h hk)
  refine ⟨⟨List.pairwise_cons.mpr ⟨fun t ht => hkeeps t ht, hi.final.forever⟩, ?_⟩, ?_, ?_⟩
  · intro t ht x hx
    rcases List.mem_cons.mp ht with rfl | ht
    · dsimp only at hx
      split at hx
      · rename_i hagain
        rcases List.mem_cons.mp hx with rfl | hx
        · -- the certificate came in before, so its slot holds its hash
          cases op with
          | processCommit commit verifyFn =>
              have hmem : commit ∈ s.accepted := List.contains_iff_mem.mp hagain
              exact hok.unmoved hmem (hi.accepted commit hmem)
          | _ => cases hagain
        · exact hi.final.unmoved s List.mem_cons_self x hx
      · exact hi.final.unmoved s List.mem_cons_self x hx
    · exact hi.final.unmoved t ht x hx
  · intro t ht
    rcases List.mem_cons.mp ht with rfl | ht
    · exact .inl rfl
    · exact .inr (hkeeps t ht)
  · intro commit hc
    rcases List.mem_append.mp hc with hc | hc
    · exact acceptedCommit_committed (Option.mem_toList.mp hc)
    · exact hok.keeps (hi.accepted commit hc)

/-- **Commits are final** in every run in which a slot is written with one hash only and an old certificate is
accepted again only while its root is the root and its slot is past. A commit writes the hash of its slot and the root
together; the guard excludes the two ways to write them again. -/
theorem commits_are_final (sha3 : List UInt8 → BlockHash) (h : List CommitLog)
    (hr : (loggedPropagator sha3).Run Finalizes h) : Final h := by
  cases h with
  | nil => exact ⟨.nil, fun _ hs => absurd hs List.not_mem_nil⟩
  | cons s past =>
      refine (System.Run.invariant_head (P := FinalInv) ?_ ?_ hr).final
      · rintro s ⟨-, haccepted, hredelivered⟩
        refine ⟨⟨List.pairwise_singleton _ _, ?_⟩, ?_, ?_⟩
        · intro t ht x hx
          rw [List.mem_singleton.mp ht, hredelivered] at hx
          cases hx
        · intro t ht
          exact .inl (List.mem_singleton.mp ht)
        · intro commit hc
          rw [haccepted] at hc
          cases hc
      · intro s past op s' _ hi hok hstep
        exact hi.step hok hstep

/-! ### A certificate that comes in again -/

instance (p : BlockPropagator) (commit : BlockCommit) : Decidable (Past p commit) :=
  inferInstanceAs (Decidable (_ ∨ ¬ _))

instance (op : PropagatorOp) (s : CommitLog) : Decidable (Finalizes op s) :=
  decidable_of_iff ((∀ x ∈ op.written s.node, ∀ h ∈ s.node.committedBlocks.lookup x.1, h = x.2) ∧
      ∀ commit ∈ op.acceptedCommit s.node, commit ∈ s.accepted →
        commit.stateRoot = s.node.stateRoot ∧ Past s.node commit)
    ⟨fun h => ⟨h.1, h.2⟩, fun h => ⟨h.slot, h.again⟩⟩

/-- The vote of node `n` for the block with hash `hash` in view 0 and the given round. -/
def scriptVoteIn (round : UInt64) (hash : BlockHash) (n : UInt8) : BlockVote :=
  let vote : BlockVote := { view := 0, round := round, voterId := makeNodeId n, blockHash := hash, signature := [] }
  { vote with signature := scriptSign (makeNodeId n) (voteSignData vote) }

/-- A commit of that block with the votes of nodes 1, 2 and 3 and the given root. -/
def scriptCommitIn (round : UInt64) (hash root : BlockHash) : BlockCommit where
  view := 0
  round := round
  blockHash := hash
  voteSignatures := [1, 2, 3].map (scriptVoteIn round hash)
  stateRoot := root

/-- The first of four validators with an empty log. -/
def quartetLog : CommitLog := ⟨quartet, [], []⟩

theorem quartetLog_init : (loggedPropagator scriptSha3).init quartetLog := ⟨⟨_, _, rfl⟩, rfl, rfl⟩

/-- The certificate of round 0, again at once: nothing moves. -/
theorem commits_are_final_again : ∃ s past, (loggedPropagator scriptSha3).Run Finalizes (s :: past) ∧
    s.redelivered.length = 1 ∧ Final (s :: past) := by
  obtain ⟨s, past, hr, hlen⟩ := System.exists_run_of_play (M := loggedPropagator scriptSha3) Finalizes
    (P := fun s _ => s.redelivered.length = 1) quartetLog_init
    [fun _ => .processCommit (scriptCommitIn 0 (makeNodeId 5) (makeNodeId 7)) scriptVerify,
      fun _ => .processCommit (scriptCommitIn 0 (makeNodeId 5) (makeNodeId 7)) scriptVerify] (by decide +kernel)
  exact ⟨s, past, hr, hlen, commits_are_final scriptSha3 (s :: past) hr⟩

/-- The certificate of round 0, again after that of round 1, takes the root back to the one of round 0. -/
theorem old_certificate_restores_root : ¬ ∀ (sha3 : List UInt8 → BlockHash) (h : List CommitLog),
    (loggedPropagator sha3).Run (fun _ _ => True) h → Final h := by
  intro hall
  obtain ⟨s, past, hr, x, hx, hroot⟩ := System.exists_run_of_play (M := loggedPropagator scriptSha3)
    (fun _ _ => True) (P := fun s _ => ∃ x ∈ s.redelivered, x.2.stateRoot ≠ x.1.stateRoot) quartetLog_init
    [fun _ => .processCommit (scriptCommitIn 0 (makeNodeId 5) (makeNodeId 7)) scriptVerify,
      fun _ => .processCommit (scriptCommitIn 1 (makeNodeId 6) (makeNodeId 8)) scriptVerify,
      fun _ => .processCommit (scriptCommitIn 0 (makeNodeId 5) (makeNodeId 7)) scriptVerify] (by decide +kernel)
  exact hroot ((hall scriptSha3 _ hr).unmoved s List.mem_cons_self x hx).root

end WarmLogic.Net
