/-
# WarmLogic.Net.PropagatorStateRoot — the state root as a fold over the committed blocks.

`commit_block` computes the new root from the block it commits; `process_commit` copies it from the certificate,
whose votes sign view, round and hash and nothing else. Whoever forwards a certificate chooses the root
(`forwarded_certificate_sets_root`, with every validator honest). A run in which each certificate carries the root
its block gives, and no block is committed locally in a slot that is committed already, has the root
`compute_state_root` folds out of the committed blocks in the order of their commits (`stateRoot_eq_fold`).

A certificate names its block by hash only, so a run carries with each call the block a certificate is for.

The chain of a run is the list of blocks that `committed_blocks` records, in the order of their commits, each slot
once (`ChainOf`). A block that is committed again in its slot keeps its place, so a certificate that arrives twice is
no second block. What the fold reads of a block is its hash and its data; views, rounds and signatures do not matter
to it.
-/
import WarmLogic.Net.PropagatorFinality
import WarmLogic.Net.PropagatorPending

namespace WarmLogic.Net

open WarmLogic.Lib BlockPropagator

variable {sha3 : List UInt8 → BlockHash}

/-! ## The machine, with its chain -/

/-- The fold of `compute_state_root` over blocks, the oldest first, from 32 zero bytes. -/
def rootOf (sha3 : List UInt8 → BlockHash) (chain : List BlockProposal) : BlockHash :=
  chain.foldl (fun root block => computeStateRoot sha3 block root) (Vector.replicate 32 0)

/-- A node and the blocks its `committed_blocks` records, in the order of their commits. -/
structure RootLog where
  node : BlockPropagator
  chain : List BlockProposal

/-- A call, with the block its certificate is for (read for `process_commit` only). -/
structure BackedOp where
  op : PropagatorOp
  block : BlockProposal

/-- Record a commit: the same block in the same slot keeps its place, another one replaces what the slot held. -/
def recordBlock (chain : List BlockProposal) (block : BlockProposal) : List BlockProposal :=
  if chain.any (fun b => b.slot == block.slot && b.blockHash == block.blockHash) then chain
  else chain.filter (fun b => b.slot != block.slot) ++ [block]

/-- The block a call commits. -/
def BackedOp.committed (p : BlockPropagator) (x : BackedOp) : Option BlockProposal :=
  match x.op with
  | .processVote vote verifyFn => (p.completed vote verifyFn).map (·.proposal)
  | .processCommit commit verifyFn => if p.acceptsCommit commit verifyFn then some x.block else none
  | _ => none

/-- The engine under any calls, with the blocks it committed. -/
def rootedPropagator (sha3 : List UInt8 → BlockHash) : System RootLog BackedOp where
  init s := (∃ nodeId validators, s.node = .new nodeId validators) ∧ s.chain = []
  step x s := some
    { node := x.op.call sha3 s.node
      chain := ((x.committed s.node).map (recordBlock s.chain)).getD s.chain }

/-- The slot of the block a vote commits. -/
def PropagatorOp.localSlot (p : BlockPropagator) : PropagatorOp → Option Slot
  | .processVote vote verifyFn => (p.completed vote verifyFn).map fun _ => vote.slot
  | _ => none

/-- An accepted certificate comes with the block it is for. -/
def Backed (sha3 : List UInt8 → BlockHash) (x : BackedOp) (s : RootLog) : Prop :=
  ∀ commit ∈ x.op.acceptedCommit s.node,
    x.block.slot = commit.slot ∧ x.block.blockHash = commit.blockHash ∧
      computeBlockHash sha3 x.block = commit.blockHash

/-- The guard: a local commit meets an empty slot; a certificate for an empty slot carries the root its block
gives, one for the block already there the root there is. -/
def RootFits (sha3 : List UInt8 → BlockHash) (x : BackedOp) (s : RootLog) : Prop :=
  (∀ k ∈ x.op.localSlot s.node, s.node.committedBlocks.lookup k = none) ∧
    ∀ commit ∈ x.op.acceptedCommit s.node,
      (s.node.committedBlocks.lookup commit.slot = none ∧
        commit.stateRoot = computeStateRoot sha3 x.block s.node.stateRoot) ∨
      (s.node.committedBlocks.lookup commit.slot = some commit.blockHash ∧ commit.stateRoot = s.node.stateRoot)

/-! ## Pending blocks stand in their own slot -/

/-- Every pending block is filed under its own view and round. -/
def PendingAt (p : BlockPropagator) : Prop :=
  ∀ k b, p.pendingBlocks.lookup k = some b → b.proposal.slot = k

/-- No call files a block elsewhere. -/
theorem PendingAt.call {p : BlockPropagator} (hp : PendingAt p) (op : PropagatorOp) : PendingAt (op.call sha3 p) := by
  have hkeep : ∀ (vote : BlockVote) (b : PendingBlock), b.proposal.slot = vote.slot →
      (b.addVote vote p.quorum).1.proposal.slot = vote.slot := by
    intro vote b hb
    rw [addVote_proposal]
    exact hb
  apply AllPending.call (P := fun k b => b.proposal.slot = k) hp op
  · intro proposal timestampMs
    rfl
  · intro vote verifyFn b _ _ hb _
    exact hkeep vote b hb
  · intro vote verifyFn b _ _ hb _
    exact hkeep vote b hb

/-! ## The chain is what the engine committed -/

/-- The chain holds exactly the blocks of `committed_blocks`, each slot once. -/
structure ChainOf (m : AList (fun _ : Slot => BlockHash)) (chain : List BlockProposal) : Prop where
  recorded : ∀ k h, m.lookup k = some h ↔ ∃ b ∈ chain, b.slot = k ∧ b.blockHash = h
  once : (chain.map (·.slot)).Nodup

/-- Where the slot is empty a commit goes to the end of the chain. -/
theorem ChainOf.recordBlock_fresh {m : AList (fun _ : Slot => BlockHash)} {chain : List BlockProposal}
    (hc : ChainOf m chain) {block : BlockProposal} (hfresh : m.lookup block.slot = none) :
    recordBlock chain block = chain ++ [block] := by
  have hnone : ∀ b ∈ chain, b.slot ≠ block.slot := by
    intro b hb hslot
    have hlook := (hc.recorded b.slot b.blockHash).mpr ⟨b, hb, rfl, rfl⟩
    rw [hslot, hfresh] at hlook
    cases hlook
  unfold recordBlock
  rw [if_neg, List.filter_eq_self.mpr]
  · intro b hb
    exact bne_iff_ne.mpr (hnone b hb)
  · intro hany
    obtain ⟨b, hb, hsame⟩ := List.any_eq_true.mp hany
    exact hnone b hb (beq_iff_eq.mp (Bool.and_eq_true_iff.mp hsame).1)

/-- Where the slot holds the very block a commit changes nothing. -/
theorem ChainOf.recordBlock_again {m : AList (fun _ : Slot => BlockHash)} {chain : List BlockProposal}
    (hc : ChainOf m chain) {block : BlockProposal} (hagain : m.lookup block.slot = some block.blockHash) :
    recordBlock chain block = chain := by
  obtain ⟨b, hb, hslot, hhash⟩ := (hc.recorded _ _).mp hagain
  unfold recordBlock
  rw [if_pos]
  refine List.any_eq_true.mpr ⟨b, hb, ?_⟩
  rw [hslot, hhash, beq_self_eq_true, beq_self_eq_true]
  rfl

/-- Whatever the slot held, the chain follows the map. -/
theorem ChainOf.insert {m : AList (fun _ : Slot => BlockHash)} {chain : List BlockProposal} (hc : ChainOf m chain)
    (block : BlockProposal) : ChainOf (m.insert block.slot block.blockHash) (recordBlock chain block) := by
  by_cases hagain : m.lookup block.slot = some block.blockHash
  · rw [hc.recordBlock_again hagain]
    refine ⟨fun k h => ?_, hc.once⟩
    rw [← hc.recorded]
    by_cases hk : k = block.slot
    · rw [hk, AList.lookup_insert, hagain]
    · rw [AList.lookup_insert_ne hk]
  · have hnew : recordBlock chain block = chain.filter (fun b => b.slot != block.slot) ++ [block] := by
      refine if_neg fun hany => hagain ?_
      obtain ⟨b, hb, hsame⟩ := List.any_eq_true.mp hany
      obtain ⟨hslot, hhash⟩ := Bool.and_eq_true_iff.mp hsame
      exact (hc.recorded _ _).mpr ⟨b, hb, beq_iff_eq.mp hslot, beq_iff_eq.mp hhash⟩
    rw [hnew]
    refine ⟨fun k h => ?_, ?_⟩
    · by_cases hk : k = block.slot
      · rw [hk, AList.lookup_insert]
        constructor
        · rintro ⟨⟩
          exact ⟨block, List.mem_append_right _ (List.mem_singleton_self _), rfl, rfl⟩
        · rintro ⟨b, hb, hslot, rfl⟩
          rcases List.mem_append.mp hb with hb | hb
          · exact absurd hslot (bne_iff_ne.mp (List.mem_filter.mp hb).2)
          · rw [List.mem_singleton.mp hb]
      · rw [AList.lookup_insert_ne hk, hc.recorded]
        constructor
        · rintro ⟨b, hb, rfl, hhash⟩
          exact ⟨b, List.mem_append_left _ (List.mem_filter.mpr ⟨hb, bne_iff_ne.mpr hk⟩), rfl, hhash⟩
        · rintro ⟨b, hb, hslot, hhash⟩
          rcases List.mem_append.mp hb with hb | hb
          · exact ⟨b, (List.mem_filter.mp hb).1, hslot, hhash⟩
          · rw [List.mem_singleton.mp hb] at hslot
            exact absurd hslot.symm hk
    · rw [List.map_append]
      refine (hc.once.sublist (List.filter_sublist.map _)).append (List.nodup_singleton _) ?_
      intro k hk hk'
      obtain ⟨b, hb, rfl⟩ := List.mem_map.mp hk
      exact bne_iff_ne.mp (List.mem_filter.mp hb).2 (List.mem_singleton.mp hk')

/-! ## The invariant and the run -/

/-- The chain follows `committed_blocks`, and the root is its fold. A local commit computes the root from the block
and the root before it, which is one more step of the fold; an accepted certificate writes the root it carries, which
under the guard is the same number. Pending blocks stand in their own slots, so what is committed is filed where its
block says. -/
structure RootInv (sha3 : List UInt8 → BlockHash) (s : RootLog) : Prop where
  pending : PendingAt s.node
  chain : ChainOf s.node.committedBlocks s.chain
  root : s.node.stateRoot = rootOf sha3 s.chain

theorem rootOf_append (chain : List BlockProposal) (block : BlockProposal) :
    rootOf sha3 (chain ++ [block]) = computeStateRoot sha3 block (rootOf sha3 chain) := by
  unfold rootOf
  rw [List.foldl_append]
  rfl

/-- A call that writes nothing commits no block. -/
theorem BackedOp.committed_eq_none {p : BlockPropagator} {x : BackedOp} (h : x.op.written p = none) :
    x.committed p = none := by
  obtain ⟨op, block⟩ := x
  cases op with
  | processVote vote verifyFn =>
      show (p.completed vote verifyFn).map _ = none
      rw [Option.map_eq_none_iff.mp h]
      rfl
  | processCommit commit verifyFn =>
      show (if p.acceptsCommit commit verifyFn then some block else none) = none
      refine if_neg fun hyes => ?_
      have h : (if p.acceptsCommit commit verifyFn then some (commit.slot, commit.blockHash) else none) = none := h
      rw [if_pos hyes] at h
      cases h
  | _ => rfl

/-- One guarded call keeps chain and root together. -/
theorem RootInv.step {s s' : RootLog} {x : BackedOp} (hi : RootInv sha3 s) (hbacked : Backed sha3 x s)
    (hfits : RootFits sha3 x s) (hstep : (rootedPropagator sha3).step x s = some s') : RootInv sha3 s' := by
  cases hstep
  suffices h : ChainOf (x.op.call sha3 s.node).committedBlocks
        (((x.committed s.node).map (recordBlock s.chain)).getD s.chain) ∧
      (x.op.call sha3 s.node).stateRoot =
        rootOf sha3 (((x.committed s.node).map (recordBlock s.chain)).getD s.chain) from
    ⟨hi.pending.call x.op, h.1, h.2⟩
  have hw := x.op.call_writes sha3 s.node
  have hnone := BackedOp.committed_eq_none (p := s.node) (x := x)
  obtain ⟨op, block⟩ := x
  cases hw with
  | nothing hwritten hsame =>
      rw [hnone hwritten, hsame.1, hsame.2]
      exact ⟨hi.chain, hi.root⟩
  | @vote vote verifyFn b hb hpend hcommits =>
      have hblock : BackedOp.committed s.node ⟨.processVote vote verifyFn, block⟩ = some b.proposal := by
        show (s.node.completed vote verifyFn).map _ = _
        rw [hb]
        rfl
      have hslot : b.proposal.slot = vote.slot := hi.pending vote.slot b hpend
      have hempty : s.node.committedBlocks.lookup b.proposal.slot = none := by
        rw [hslot]
        refine hfits.1 vote.slot ?_
        show vote.slot ∈ (s.node.completed vote verifyFn).map _
        rw [hb]
        rfl
      rw [hblock, hcommits.committed, hcommits.root, ← hslot]
      refine ⟨hi.chain.insert b.proposal, ?_⟩
      show _ = rootOf sha3 (recordBlock s.chain b.proposal)
      rw [hi.chain.recordBlock_fresh hempty, rootOf_append, hi.root]
  | @certificate commit verifyFn hyes hcert =>
      have hblock : BackedOp.committed s.node ⟨.processCommit commit verifyFn, block⟩ = some block := if_pos hyes
      obtain ⟨hslot, hhash, -⟩ := hbacked commit (if_pos hyes)
      rw [hblock, hcert.committed, hcert.root, ← hslot, ← hhash]
      refine ⟨hi.chain.insert block, ?_⟩
      show commit.stateRoot = rootOf sha3 (recordBlock s.chain block)
      rcases hfits.2 commit (if_pos hyes) with ⟨hempty, hroot⟩ | ⟨hagain, hroot⟩
      · rw [← hslot] at hempty
        rw [hi.chain.recordBlock_fresh hempty, rootOf_append, hroot, hi.root]
      · rw [← hslot, ← hhash] at hagain
        rw [hi.chain.recordBlock_again hagain, hroot, hi.root]

/-- The guard of a run: certificates come with their block, and with the root it gives. -/
def RootKept (sha3 : List UInt8 → BlockHash) (x : BackedOp) (s : RootLog) : Prop :=
  Backed sha3 x s ∧ RootFits sha3 x s

theorem rootInv_reachable {s : RootLog} (h : (rootedPropagator sha3).Reachable (RootKept sha3) s) :
    RootInv sha3 s := by
  refine System.Reachable.invariant ?_ ?_ h
  · rintro ⟨node, chain⟩ ⟨⟨nodeId, validators, rfl⟩, rfl⟩
    refine ⟨?_, ⟨?_, List.nodup_nil⟩, rfl⟩
    · intro k b hb
      cases hb
    · intro k b
      constructor
      · intro hb
        cases hb
      · rintro ⟨b, hb, -⟩
        cases hb
  · rintro s x s' hi ⟨hbacked, hfits⟩ hstep
    exact hi.step hbacked hfits hstep

/-- What `compute_state_root` reads of a block. -/
def BlockProposal.content (block : BlockProposal) : BlockHash × List UInt8 := (block.blockHash, block.blockData)

/-- The root of a chain depends on the contents of its blocks only. -/
theorem rootOf_eq_of_content {chain chain' : List BlockProposal}
    (h : chain.map (·.content) = chain'.map (·.content)) : rootOf sha3 chain = rootOf sha3 chain' := by
  have hfold : ∀ chain : List BlockProposal, rootOf sha3 chain = (chain.map (·.content)).foldl
      (fun root c => sha3 (root.toList ++ c.1.toList ++ c.2)) (Vector.replicate 32 0) := by
    intro chain
    rw [List.foldl_map]
    rfl
  rw [hfold, hfold, h]

/-- **The state root is the fold over the committed blocks** in every run whose certificates carry the root of their
block; so two nodes that committed the same contents in the same order hold the same root. A quorum of votes computes
the next root from the block, and a certificate brings the one that its block gives. -/
theorem stateRoot_eq_fold (sha3 : List UInt8 → BlockHash) (s : RootLog)
    (h : (rootedPropagator sha3).Reachable (RootKept sha3) s) :
    s.node.stateRoot = rootOf sha3 s.chain ∧ ChainOf s.node.committedBlocks s.chain ∧
      ∀ s' : RootLog, (rootedPropagator sha3).Reachable (RootKept sha3) s' →
        s.chain.map (·.content) = s'.chain.map (·.content) → s.node.stateRoot = s'.node.stateRoot := by
  have hi := rootInv_reachable h
  refine ⟨hi.root, hi.chain, fun s' h' hsame => ?_⟩
  rw [hi.root, (rootInv_reachable h').root, rootOf_eq_of_content hsame]

/-! ### Two runs of the second validator -/

instance (x : BackedOp) (s : RootLog) : Decidable (Backed sha3 x s) :=
  inferInstanceAs (Decidable (∀ commit ∈ x.op.acceptedCommit s.node, _ ∧ _ ∧ _))

-- both checks look at the one slot or certificate there is; a search over all slots would never end
instance (x : BackedOp) (s : RootLog) : Decidable (RootFits sha3 x s) :=
  @instDecidableAnd _ _ (Option.decidableForallMem _) (Option.decidableForallMem _)

instance (x : BackedOp) (s : RootLog) : Decidable (RootKept sha3 x s) := inferInstanceAs (Decidable (_ ∧ _))

/-- The second of four validators, before any call. -/
def secondLog : RootLog := ⟨secondOfFour, []⟩

theorem secondLog_init : (rootedPropagator scriptSha3).init secondLog := ⟨⟨_, _, rfl⟩, rfl⟩

/-- The certificate for the first validator's block of a round, with the given root. -/
def scriptCertificate (round : UInt64) (blockData : List UInt8) (root : BlockHash) : BackedOp where
  op := .processCommit (scriptCommitIn round (scriptProposal round blockData).blockHash root) scriptVerify
  block := scriptProposal round blockData

/-- Round 0 by three votes, round 1 by a certificate: two blocks, and the root of both. -/
theorem stateRoot_eq_fold_two_blocks : ∃ s, (rootedPropagator scriptSha3).Reachable (RootKept scriptSha3) s ∧
    s.chain.length = 2 ∧ s.node.stateRoot = rootOf scriptSha3 s.chain := by
  obtain ⟨s, past, hr, hlen⟩ := System.exists_run_of_play (M := rootedPropagator scriptSha3) (RootKept scriptSha3)
    (P := fun s _ => s.chain.length = 2) secondLog_init
    [fun _ => ⟨deliver 0 [1], scriptProposal 0 [1]⟩,
      fun _ => ⟨.processVote (scriptVoteIn 0 (scriptProposal 0 [1]).blockHash 1) scriptVerify, scriptProposal 0 [1]⟩,
      fun _ => ⟨.processVote (scriptVoteIn 0 (scriptProposal 0 [1]).blockHash 3) scriptVerify, scriptProposal 0 [1]⟩,
      fun _ => ⟨.processVote (scriptVoteIn 0 (scriptProposal 0 [1]).blockHash 4) scriptVerify, scriptProposal 0 [1]⟩,
      fun s => scriptCertificate 1 [2] (computeStateRoot scriptSha3 (scriptProposal 1 [2]) s.node.stateRoot)]
    (by decide +kernel)
  exact ⟨s, ⟨past, hr⟩, hlen, (stateRoot_eq_fold scriptSha3 s ⟨past, hr⟩).1⟩

/-- The votes a call delivers. -/
def PropagatorOp.votes : PropagatorOp → List BlockVote
  | .processVote vote _ => [vote]
  | .processCommit commit _ => commit.voteSignatures
  | _ => []

/-- The signature check a call is given. -/
def PropagatorOp.verifies : PropagatorOp → List UInt8 → List UInt8 → NodeId → Bool
  | .processVote _ verifyFn => verifyFn
  | .processCommit _ verifyFn => verifyFn
  | _ => fun _ _ _ => false

/-- Outside `D` a validator signs at most one vote a slot, the one for the hash `signs` gives. -/
def HonestOutside (D : Finset NodeId) (signs : NodeId → Slot → Option BlockHash) (op : PropagatorOp) : Prop :=
  ∀ vote ∈ op.votes, vote.voterId ∉ D → op.verifies (voteSignData vote) vote.signature vote.voterId = true →
    signs vote.voterId vote.slot = some vote.blockHash

instance (D : Finset NodeId) (signs : NodeId → Slot → Option BlockHash) (op : PropagatorOp) :
    Decidable (HonestOutside D signs op) :=
  inferInstanceAs (Decidable (∀ vote ∈ op.votes, _ → _ → _))

/-- Three honest votes for an honest block, forwarded with another root: the node takes over the root. -/
theorem forwarded_certificate_sets_root : ¬ ∀ (sha3 : List UInt8 → BlockHash) (D : Finset NodeId)
    (signs : NodeId → Slot → Option BlockHash) (s : RootLog),
    (rootedPropagator sha3).Reachable (fun x s => Backed sha3 x s ∧ D.card ≤ (s.node.validators.length - 1) / 3 ∧
      HonestOutside D signs x.op) s → s.node.stateRoot = rootOf sha3 s.chain := by
  intro hall
  obtain ⟨s, past, hr, hroot⟩ := System.exists_run_of_play (M := rootedPropagator scriptSha3)
    (fun x s => Backed scriptSha3 x s ∧ (∅ : Finset NodeId).card ≤ (s.node.validators.length - 1) / 3 ∧
      HonestOutside ∅ (fun _ k => some (scriptProposal k.2 [1]).blockHash) x.op)
    (P := fun s _ => s.node.stateRoot ≠ rootOf scriptSha3 s.chain) secondLog_init
    [fun _ => scriptCertificate 0 [1] (makeNodeId 99)] (by decide +kernel)
  exact hroot (hall scriptSha3 ∅ _ s ⟨past, hr⟩)

end WarmLogic.Net
