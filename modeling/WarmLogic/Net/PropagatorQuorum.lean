/-
# WarmLogic.Net.PropagatorQuorum — what the quorum of the block propagation engine is worth.

Two results. The threshold `2f + 1` with `f = (n - 1) / 3` makes two quorums share `f + 1` validators for
`n = 3f + 1` and for no other `n`: the guaranteed overlap is `2(2f + 1) - n`, and it is attained. And a
commit certificate that `process_commit` accepts is genuine exactly when the entries cast for the commit's
own view and round come from a quorum of distinct validators: acceptance itself looks at the hash and the
signature of each entry, but at neither the slot nor the identity of its voter.

The first result is about finite sets: nothing in it depends on the engine but the threshold. That the overlap is
attained shows that no argument from counting alone can do better. The second result is what a receiver knows of a
certificate that came over the network; certificates that an engine made itself are in `PropagatorPending`.
-/
import Mathlib.Data.UInt
import WarmLogic.Net.BlockPropagator
import WarmLogic.Lib.Majority

namespace WarmLogic.Net

open WarmLogic.Lib

/-! ## Quorum intersection -/

theorem quorumThreshold_eq (n : Nat) : quorumThreshold n = 2 * ((n - 1) / 3) + 1 := rfl

theorem quorumThreshold_le {n : Nat} (hn : 1 ≤ n) : quorumThreshold n ≤ n := by
  rw [quorumThreshold_eq]
  omega

/-- Any two quorums out of the validators `V` have `f + 1` members in common, `f = (n - 1) / 3`. -/
def QuorumsShare {α : Type*} [DecidableEq α] (V : Finset α) : Prop :=
  ∀ A B : Finset α, A ⊆ V → B ⊆ V → A.card = quorumThreshold V.card → B.card = quorumThreshold V.card →
    (V.card - 1) / 3 + 1 ≤ (A ∩ B).card

/-- **Quorum intersection.** Two quorums share at least `2(2f + 1) - n` validators, some two share no more,
and this reaches `f + 1` exactly for `n = 3f + 1`. -/
theorem quorum_intersection {α : Type*} [DecidableEq α] (V : Finset α) (hV : 1 ≤ V.card) :
    (∀ A B : Finset α, A ⊆ V → B ⊆ V → A.card = quorumThreshold V.card → B.card = quorumThreshold V.card →
      2 * quorumThreshold V.card - V.card ≤ (A ∩ B).card) ∧
    (∃ A B : Finset α, A ⊆ V ∧ B ⊆ V ∧ A.card = quorumThreshold V.card ∧ B.card = quorumThreshold V.card ∧
      (A ∩ B).card = 2 * quorumThreshold V.card - V.card) ∧
    (QuorumsShare V ↔ V.card = 3 * ((V.card - 1) / 3) + 1) := by
  have hlow : ∀ A B : Finset α, A ⊆ V → B ⊆ V → A.card = quorumThreshold V.card →
      B.card = quorumThreshold V.card → 2 * quorumThreshold V.card - V.card ≤ (A ∩ B).card := by
    intro A B hA hB hAq hBq
    have := card_add_card_le hA hB
    omega
  obtain ⟨A, hA, B, hB, hAq, hBq, hAB⟩ := exists_card_inter_eq (V := V) (quorumThreshold_le hV)
  refine ⟨hlow, ⟨A, B, hA, hB, hAq, hBq, hAB⟩, ?_, ?_⟩
  · intro hshare
    have h := hshare A B hA hB hAq hBq
    rw [hAB, quorumThreshold_eq] at h
    omega
  · intro hn A B hA hB hAq hBq
    have h := hlow A B hA hB hAq hBq
    rw [quorumThreshold_eq] at h
    omega

/-- Four validators: quorums of three share two. -/
theorem quorum_intersection_four : 1 ≤ (Finset.range 4).card ∧ QuorumsShare (Finset.range 4) :=
  ⟨by decide, (quorum_intersection (Finset.range 4) (by decide)).2.2.mpr (by decide)⟩

/-- Five validators: the quorums `{0, 1, 2}` and `{2, 3, 4}` share one, not two. -/
theorem quorum_intersection_five : ¬ ∀ V : Finset Nat, 1 ≤ V.card → QuorumsShare V := by
  intro h
  have hshare := h (Finset.range 5) (by decide) {0, 1, 2} {2, 3, 4} (by decide) (by decide) (by decide) (by decide)
  exact absurd hshare (by decide)

/-! ## Commit certificates -/

namespace BlockPropagator

variable {p : BlockPropagator} {commit : BlockCommit} {verifyFn : List UInt8 → List UInt8 → NodeId → Bool}

theorem voteError?_eq_none {h : BlockHash} {votes : List BlockVote} :
    voteError? h verifyFn votes = none ↔
      ∀ vote ∈ votes, vote.blockHash = h ∧ verifyFn (voteSignData vote) vote.signature vote.voterId = true := by
  induction votes with
  | nil => simp [voteError?]
  | cons vote votes ih =>
      rw [voteError?, List.forall_mem_cons, ← ih]
      by_cases hh : vote.blockHash = h
      · by_cases hv : verifyFn (voteSignData vote) vote.signature vote.voterId = true
        · simp [hh, hv]
        · simp [hh, hv]
      · simp [hh]

/-- What `process_commit` asks of a commit it accepts: enough ENTRIES, each with the hash and a signature. -/
theorem processCommit_ok_iff :
    (p.processCommit commit verifyFn).2 = .ok () ↔
      p.quorum ≤ commit.voteSignatures.length ∧
      ∀ vote ∈ commit.voteSignatures,
        vote.blockHash = commit.blockHash ∧
          verifyFn (voteSignData vote) vote.signature vote.voterId = true := by
  rw [← voteError?_eq_none]
  unfold processCommit
  by_cases hlen : commit.voteSignatures.length < p.quorum
  · have : ¬ p.quorum ≤ commit.voteSignatures.length := by omega
    simp [hlen, this]
  · have : p.quorum ≤ commit.voteSignatures.length := by omega
    rw [if_neg hlen]
    cases voteError? commit.blockHash verifyFn commit.voteSignatures with
    | none => simp [this]
    | some e => simp

/-- `m` has an entry in the certificate: its vote for exactly this view, round and hash, with a signature
that verifies over it. -/
def Certifies (verifyFn : List UInt8 → List UInt8 → NodeId → Bool) (commit : BlockCommit) (m : NodeId) : Prop :=
  ∃ vote ∈ commit.voteSignatures, vote.voterId = m ∧ vote.view = commit.view ∧ vote.round = commit.round ∧
    vote.blockHash = commit.blockHash ∧ verifyFn (voteSignData vote) vote.signature m = true

/-- At least a quorum of pairwise distinct validators certify the commit. -/
def Genuine (p : BlockPropagator) (verifyFn : List UInt8 → List UInt8 → NodeId → Bool)
    (commit : BlockCommit) : Prop :=
  ∃ S : Finset NodeId, p.quorum ≤ S.card ∧ ∀ m ∈ S, m ∈ p.validators ∧ Certifies verifyFn commit m

/-- The validators among the voters of the entries that carry the commit's own view and round. -/
def slotVoters (p : BlockPropagator) (commit : BlockCommit) : Finset NodeId :=
  ((commit.voteSignatures.filter fun vote => vote.slot = commit.slot ∧ vote.voterId ∈ p.validators).map
    (·.voterId)).toFinset

theorem mem_slotVoters {m : NodeId} :
    m ∈ p.slotVoters commit ↔
      m ∈ p.validators ∧ ∃ vote ∈ commit.voteSignatures, vote.voterId = m ∧ vote.slot = commit.slot := by
  simp only [slotVoters, List.mem_toFinset, List.mem_map, List.mem_filter, decide_eq_true_eq]
  constructor
  · rintro ⟨vote, ⟨hmem, hslot, hval⟩, rfl⟩
    exact ⟨hval, vote, hmem, rfl, hslot⟩
  · rintro ⟨hval, vote, hmem, rfl, hslot⟩
    exact ⟨vote, ⟨hmem, hslot, hval⟩, rfl⟩

/-- In an accepted commit the entries of the commit's own slot are votes for exactly what it commits. -/
theorem certifies_iff (hok : (p.processCommit commit verifyFn).2 = .ok ()) {m : NodeId} :
    m ∈ p.validators ∧ Certifies verifyFn commit m ↔ m ∈ p.slotVoters commit := by
  have hall := (processCommit_ok_iff.mp hok).2
  rw [mem_slotVoters]
  refine and_congr_right fun _ => ⟨?_, ?_⟩
  · rintro ⟨vote, hmem, hm, hview, hround, -, -⟩
    exact ⟨vote, hmem, hm, Prod.ext hview hround⟩
  · rintro ⟨vote, hmem, rfl, hslot⟩
    obtain ⟨hhash, hver⟩ := hall vote hmem
    obtain ⟨hview, hround⟩ := Prod.mk.inj hslot
    exact ⟨vote, hmem, rfl, hview, hround, hhash, hver⟩

/-- **When an accepted certificate is genuine.** Exactly when the entries for its own view and round name a quorum of
distinct validators. The check counts entries that verify, and asks of none that it is for the slot of the certificate
or from another voter. -/
theorem accepted_genuine_iff (p : BlockPropagator) (commit : BlockCommit)
    (verifyFn : List UInt8 → List UInt8 → NodeId → Bool)
    (hok : (p.processCommit commit verifyFn).2 = .ok ()) :
    p.Genuine verifyFn commit ↔ p.quorum ≤ (p.slotVoters commit).card := by
  constructor
  · rintro ⟨S, hcard, hS⟩
    have hsub : S ⊆ p.slotVoters commit := fun m hm => (certifies_iff hok).mp (hS m hm)
    exact hcard.trans (Finset.card_le_card hsub)
  · intro hcard
    exact ⟨p.slotVoters commit, hcard, fun m hm => (certifies_iff hok).mpr hm⟩

/-! ### Two certificates for four validators -/

/-- The node id with first byte `n`. -/
def makeNodeId (n : UInt8) : NodeId := (Vector.replicate 32 0).set 0 n

/-- A signature scheme to run scripts with: a signature is the signer's id in front of the signed bytes. -/
def scriptSign (id : NodeId) (data : List UInt8) : List UInt8 := id.toList ++ data

/-- The check that belongs to it. -/
def scriptVerify (data sig : List UInt8) (id : NodeId) : Bool := sig == scriptSign id data

/-- The first of four validators. -/
def quartet : BlockPropagator :=
  .new (makeNodeId 1) [makeNodeId 1, makeNodeId 2, makeNodeId 3, makeNodeId 4]

/-- The vote of node `n` for the block with hash `0…0` in view 0, round 0. -/
def scriptVote (n : UInt8) : BlockVote :=
  let vote : BlockVote :=
    { view := 0, round := 0, voterId := makeNodeId n, blockHash := Vector.replicate 32 0, signature := [] }
  { vote with signature := scriptSign (makeNodeId n) (voteSignData vote) }

/-- A commit of that block with the votes of the nodes `ns`. -/
def scriptCommit (ns : List UInt8) : BlockCommit where
  view := 0
  round := 0
  blockHash := Vector.replicate 32 0
  voteSignatures := ns.map scriptVote
  stateRoot := Vector.replicate 32 0

theorem accepted_genuine_iff_three_voters :
    (quartet.processCommit (scriptCommit [1, 2, 3]) scriptVerify).2 = .ok () ∧
      quartet.Genuine scriptVerify (scriptCommit [1, 2, 3]) :=
  ⟨by decide +kernel, (accepted_genuine_iff quartet (scriptCommit [1, 2, 3]) scriptVerify (by decide +kernel)).mpr
    (by decide +kernel)⟩

/-- One vote of one validator, three times over, is accepted as a quorum of three. -/
theorem accepted_commit_of_one_voter : ¬ ∀ (p : BlockPropagator) (commit : BlockCommit)
    (verifyFn : List UInt8 → List UInt8 → NodeId → Bool),
    (p.processCommit commit verifyFn).2 = .ok () → p.Genuine verifyFn commit := by
  intro h
  have hok : (quartet.processCommit (scriptCommit [2, 2, 2]) scriptVerify).2 = .ok () := by decide +kernel
  obtain ⟨S, hcard, hS⟩ := h _ _ _ hok
  have hsub : S ⊆ quartet.slotVoters (scriptCommit [2, 2, 2]) := fun m hm => (certifies_iff hok).mp (hS m hm)
  have hone : (quartet.slotVoters (scriptCommit [2, 2, 2])).card < quartet.quorum := by decide +kernel
  have := Finset.card_le_card hsub
  omega

end BlockPropagator

end WarmLogic.Net
