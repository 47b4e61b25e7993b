/-
# WarmLogic.Consensus.RaftElection — at most one leader per term.

The durable fact is `EverVoted h v T c`: at some state of the history `h`, node `v` was in term `T` and had
voted for `c`. A node changes its vote only by moving to a higher term, so a node has voted for one candidate
per term in the WHOLE history. Every granted answer on the wire and every name in a ballot is backed by such
a vote, and the ballot of a leader is a majority of the members: two leaders of one term share a voter. The
ballot stays one while a reconfiguration is pending, since the list in force has to agree then too.

What carries the proof over a run is that histories only grow. A vote that was ever cast is a fact about the history
(`EverVoted`), so an answer that is delivered late, or twice, or after its sender has moved on, is backed by the same
fact as on the day it was sent. The network may therefore do anything with messages except invent them.

A node persists its vote before it answers, and the model's restart gives back what was persisted; that part is
`RaftVoteDurability`. Here a node is a sequence of calls, snapshots included, in a cluster whose members do not
change.
-/
import WarmLogic.Lib.Majority
import WarmLogic.Consensus.Cluster

namespace WarmLogic.Consensus

open WarmLogic.Lib

/-- The current term as a number. -/
def RaftEngine.term (e : RaftEngine) : Nat := e.currentTerm.toNat

theorem toNat_succ {t : UInt64} (h : t.toNat + 1 < 2 ^ 64) : (t + 1).toNat = t.toNat + 1 := by
  rw [UInt64.toNat_add]
  exact Nat.mod_eq_of_lt h

/-! ## What a call does to the vote -/

namespace RaftEngine

/-- The election side of a call. Terms do not fall, and within a term a vote that was cast is kept; a grant goes to
the candidate that the node votes for; and a ballot holds the candidate's own vote, the names it had, and the sender
of the one grant that the call received. -/
structure VoteStep (e : RaftEngine) (m : Option RaftRPC) (e' : RaftEngine) (outs : List RaftRPC) :
    Prop where
  term_le : e.term ≤ e'.term
  keep : e'.term = e.term → ∀ c, e.votedFor = some c → e'.votedFor = some c
  grants : ∀ o ∈ outs, o.payload = .voteResponse true →
    o.senderId = e.nodeId ∧ o.term.toNat = e'.term ∧ ∃ c, o.targetId = some c ∧ e'.votedFor = some c
  ballot : e'.state ≠ .follower → ∀ v ∈ e'.votesReceived,
    (e'.term = e.term ∧ e.state ≠ .follower ∧ v ∈ e.votesReceived) ∨
    (v = e.nodeId ∧ e'.votedFor = some e.nodeId) ∨
    ∃ rpc ∈ m, rpc.payload = .voteResponse true ∧ rpc.term.toNat = e'.term ∧ rpc.senderId = v
  quorum : e'.state = .leader →
    (e.state = .leader ∧ e'.votesReceived = e.votesReceived) ∨
      listQuorum e.nodeId e.peers e'.votesReceived

variable {env : Env} {e e' : RaftEngine} {m : Option RaftRPC} {outs : List RaftRPC}

theorem Observed.le_toNat {t T : UInt64} {S : RaftState} {V : Option String} (h : Observed e t T S V) :
    e.term ≤ T.toNat := by
  cases h with
  | same _ => exact le_refl _
  | raised hlt => exact Nat.le_of_lt (UInt64.lt_iff_toNat_lt.mp hlt)

/-- A node that did not move to another term did not move at all. -/
theorem Observed.eq_of_toNat_eq {t T : UInt64} {S : RaftState} {V : Option String}
    (h : Observed e t T S V) (hT : T.toNat = e.term) : S = e.state ∧ V = e.votedFor := by
  cases h with
  | same _ => exact ⟨rfl, rfl⟩
  | raised hlt =>
      have := UInt64.lt_iff_toNat_lt.mp hlt
      rw [hT] at this
      exact absurd this (lt_irrefl _)

theorem Observed.state_cases {t T : UInt64} {S : RaftState} {V : Option String}
    (h : Observed e t T S V) : S = .follower ∨ (T = e.currentTerm ∧ S = e.state) := by
  cases h with
  | same _ => exact .inr ⟨rfl, rfl⟩
  | raised _ => exact .inl rfl

theorem not_grant_of_negative {o : RaftRPC} (h : Negative o) : o.payload ≠ .voteResponse true := by
  intro hp
  rcases h with h | ⟨i, h⟩ <;> rw [h] at hp <;> cases hp

/-- A call that leaves the ballot, and the state up to stepping down, as they are. -/
theorem VoteStep.of_observed {t T : UInt64} {S S' : RaftState} {V : Option String}
    (ho : Observed e t T S V) (hS : S' = S ∨ S' = .follower) (hterm : e'.currentTerm = T)
    (hstate : e'.state = S') (hvote : e'.votedFor = V ∨ ∃ c, e'.votedFor = some c ∧
      (V = none ∨ V = some c)) (hballot : e'.votesReceived = e.votesReceived)
    (hgrants : ∀ o ∈ outs, o.payload = .voteResponse true → o.senderId = e.nodeId ∧
      o.term.toNat = e'.term ∧ ∃ c, o.targetId = some c ∧ e'.votedFor = some c) :
    VoteStep e m e' outs := by
  have hT : e'.term = T.toNat := by rw [term, hterm]
  -- not a follower afterwards: then the state and the term are the old ones
  have hold : e'.state ≠ .follower → e'.term = e.term ∧ e'.state = e.state := by
    intro hne
    rw [hstate] at hne
    rcases hS with rfl | rfl
    · rcases ho.state_cases with h | ⟨h1, h2⟩
      · exact absurd h hne
      · exact ⟨by rw [hT, h1]; rfl, by rw [hstate, h2]⟩
    · exact absurd rfl hne
  constructor
  · rw [hT]
    exact ho.le_toNat
  · intro hsame c hc
    rw [hT] at hsame
    obtain ⟨-, hV⟩ := ho.eq_of_toNat_eq hsame
    rcases hvote with h | ⟨c', h, h' | h'⟩
    · rw [h, hV, hc]
    · rw [hV, hc] at h'
      cases h'
    · rw [h, ← h', hV, hc]
  · exact hgrants
  · intro hne v hv
    rw [hballot] at hv
    obtain ⟨h1, h2⟩ := hold hne
    exact .inl ⟨h1, h2 ▸ hne, hv⟩
  · intro hl
    obtain ⟨-, h2⟩ := hold (by rw [hl]; decide)
    exact .inl ⟨h2 ▸ hl, hballot⟩

/-- A call within the term that leaves the vote and the state alone. -/
theorem VoteStep.of_same (hterm : e'.currentTerm = e.currentTerm) (hvote : e'.votedFor = e.votedFor)
    (hstate : e'.state = e.state) (hballot : e'.votesReceived = e.votesReceived)
    (hgrants : ∀ o ∈ outs, o.payload ≠ .voteResponse true) : VoteStep e m e' outs :=
  .of_observed (.same (UInt64.le_refl _)) (.inl rfl) hterm hstate (.inl hvote) hballot
    (fun o ho hp => absurd hp (hgrants o ho))

/-- A counted vote, whether it makes a leader or not. -/
theorem VoteStep.of_counted {rpc : RaftRPC} (hp : rpc.payload = .voteResponse true) (hs : e.state = .candidate)
    (ht : rpc.term = e.currentTerm) (hterm : e'.currentTerm = e.currentTerm) (hvote : e'.votedFor = e.votedFor)
    (hballot : e'.votesReceived = insert rpc.senderId e.votesReceived)
    (hquorum : e'.state = .leader → listQuorum e.nodeId e.peers e'.votesReceived) : VoteStep e (some rpc) e' [] := by
  have hsame : e'.term = e.term := congrArg UInt64.toNat hterm
  constructor
  · exact Nat.le_of_eq hsame.symm
  · intro _ c hc
    rw [hvote]
    exact hc
  · intro o ho
    cases ho
  · intro _ v hv
    rw [hballot] at hv
    rcases Finset.mem_insert.mp hv with rfl | hv
    · exact .inr (.inr ⟨rpc, rfl, hp, by rw [hsame, ht]; rfl, rfl⟩)
    · exact .inl ⟨hsame, by rw [hs]; decide, hv⟩
  · intro hl
    exact .inr (hquorum hl)

theorem listQuorum_solo (hpeers : e.peers = []) : listQuorum e.nodeId e.peers {e.nodeId} := by
  simp [hpeers, listQuorum]

/-- A quorum is one of the list in force, also while another list is pending. -/
theorem listQuorum_of_hasQuorum {votes : Finset String} (h : e.hasQuorum votes) :
    listQuorum e.nodeId e.peers votes := by
  unfold hasQuorum at h
  split at h
  · exact (Bool.and_eq_true_iff.mp h).1
  · exact h

theorem Event.voteStep (h : Event env e m e' outs) : VoteStep e m e' outs := by
  cases h with
  | idle => exact .of_same rfl rfl rfl rfl (by simp)
  | campaign _ hmax houts =>
      have hterm : (e.currentTerm + 1).toNat = e.term + 1 := toNat_succ hmax
      constructor
      · show e.term ≤ (e.currentTerm + 1).toNat
        omega
      · intro hsame
        have : (e.currentTerm + 1).toNat = e.term := hsame
        omega
      · intro o ho hp
        rw [(houts o ho).2.2] at hp
        cases hp
      · intro _ v hv
        exact .inr (.inl ⟨Finset.mem_singleton.mp hv, rfl⟩)
      · intro hl
        cases hl
  | solo _ hmax hpeers =>
      have hterm : (e.currentTerm + 1).toNat = e.term + 1 := toNat_succ hmax
      constructor
      · show e.term ≤ (e.currentTerm + 1).toNat
        omega
      · intro hsame
        have : (e.currentTerm + 1).toNat = e.term := hsame
        omega
      · intro o ho
        cases ho
      · intro _ v hv
        exact .inr (.inl ⟨Finset.mem_singleton.mp hv, rfl⟩)
      · intro _
        exact .inr (listQuorum_solo hpeers)
  | heartbeat _ houts =>
      apply VoteStep.of_same rfl rfl rfl rfl
      intro o ho
      obtain ⟨p, ⟨next, -, ph, pp, rfl⟩, rfl⟩ := houts o ho
      simp [createRpc]
  | propose _ _ => exact .of_same rfl rfl rfl rfl (by simp)
  | snapshot => exact .of_same rfl rfl rfl rfl (by simp)
  | observe ho houts =>
      exact .of_observed ho (.inl rfl) rfl rfl (.inl rfl) rfl
        (fun o hmem hp => absurd hp (not_grant_of_negative (houts o hmem)))
  | grant _ ho hT hV _ ht hs htgt _ =>
      refine .of_observed ho (.inl rfl) rfl rfl (.inr ⟨_, rfl, hV⟩) rfl ?_
      intro o hmem _
      rw [List.mem_singleton] at hmem
      subst hmem
      exact ⟨hs, by rw [ht]; rfl, _, htgt, rfl⟩
  | follow ho _ houts =>
      exact .of_observed ho (.inr rfl) rfl rfl (.inl rfl) rfl
        (fun o hmem hp => absurd hp (not_grant_of_negative (houts o hmem)))
  | accept _ ho _ _ hf _ _ _ _ hp =>
      subst hf
      refine .of_observed ho (.inr rfl) rfl rfl (.inl rfl) rfl ?_
      intro o hmem hpo
      rw [List.mem_singleton] at hmem
      rw [hmem, hp] at hpo
      cases hpo
  | count hp hs ht =>
      exact .of_counted hp hs ht rfl rfl rfl (fun hl => absurd (hs.symm.trans hl) (by decide))
  | win hp hs ht hq => exact .of_counted hp hs ht rfl rfl rfl (fun _ => listQuorum_of_hasQuorum hq)
  | ack _ _ _ hf hg _ =>
      subst hg
      subst hf
      exact .of_same rfl rfl rfl rfl (by simp)

/-- A snapshot is no election matter. -/
theorem voteStep_snapshot (e : RaftEngine) (data : String) :
    VoteStep e m (e.saveCurrentSnapshot data) [] := by
  unfold saveCurrentSnapshot
  split
  · exact .of_same rfl rfl rfl rfl (by simp)
  · dsimp only
    split
    · exact .of_same rfl rfl rfl rfl (by simp)
    · exact .of_same rfl rfl rfl rfl (by simp)

end RaftEngine

/-! ## The quorum of a configured node is a majority of the members -/

theorem Configured.majority {members : Finset String} {n : String} {e : RaftEngine}
    (hc : Configured members n e) (hn : n ∈ members) {votes : Finset String}
    (hq : RaftEngine.listQuorum e.nodeId e.peers votes) : MajorityOf members votes := by
  have hlen : e.peers.length + 1 = members.card := by
    rw [← List.toFinset_card_of_nodup hc.nodup, hc.peers, Finset.card_erase_add_one hn]
  have hcount : e.peers.countP (· ∈ votes) = ((members.erase n).filter (· ∈ votes)).card := by
    rw [List.countP_eq_length_filter, ← List.toFinset_card_of_nodup (hc.nodup.filter _), ← hc.peers]
    congr 1
    ext x
    simp
  -- the node itself is counted once, next to its peers
  have hself : (members.filter (· ∈ votes)).card
      = (if n ∈ votes then 1 else 0) + ((members.erase n).filter (· ∈ votes)).card := by
    rw [← Finset.insert_erase hn, Finset.filter_insert]
    split
    · rw [Finset.card_insert_of_notMem (by simp), Finset.erase_insert (by simp), Nat.add_comm]
    · rw [Finset.erase_insert (by simp), Nat.zero_add]
  simp only [RaftEngine.listQuorum, decide_eq_true_eq, hc.nodeId] at hq
  unfold MajorityOf
  omega

/-! ## The invariant -/

/-- At some state of the history `v` was in term `T` and had voted for `c`. -/
def EverVoted (h : List Cluster) (v : String) (T : Nat) (c : String) : Prop :=
  ∃ s ∈ h, (s.node v).term = T ∧ (s.node v).votedFor = some c

theorem EverVoted.mono {h h' : List Cluster} (hsub : h ⊆ h') {v : String} {T : Nat} {c : String}
    (hv : EverVoted h v T c) : EverVoted h' v T c := by
  obtain ⟨s, hs, hrest⟩ := hv
  exact ⟨s, hsub hs, hrest⟩

/-- **The election invariant** of a state `s` and the history `h` it ends.

* `latest`: a vote is kept within its term, so every vote of the history is the one a node still has, or of a term
  that the node has left.
* `unique`: two votes of one node in one term are the same, because the later was cast when the node still had the
  earlier.
* `grants`, `ballots`: an answer is sent with the vote already cast, and a ballot is made of answers to the candidate
  in its own term.
* `quorum`: a node becomes a leader only with a quorum of the list in force, and a leader's ballot is not touched. -/
structure ElectionInv (members : Finset String) (s : Cluster) (h : List Cluster) : Prop where
  latest : ∀ v T c, EverVoted h v T c →
    T < (s.node v).term ∨ (T = (s.node v).term ∧ (s.node v).votedFor = some c)
  unique : ∀ v T c c', EverVoted h v T c → EverVoted h v T c' → c = c'
  grants : ∀ m ∈ s.net, m.payload = .voteResponse true →
    ∃ c, m.targetId = some c ∧ EverVoted h m.senderId m.term.toNat c
  ballots : ∀ n ∈ members, (s.node n).state ≠ .follower → ∀ v ∈ (s.node n).votesReceived,
    EverVoted h v (s.node n).term n
  quorum : ∀ n ∈ members, (s.node n).state = .leader → MajorityOf members (s.node n).votesReceived

theorem electionInv_init {env : Env} {members : Finset String} {s : Cluster}
    (h : (cluster env members).init s) : ElectionInv members s [s] := by
  obtain ⟨hnet, hfresh⟩ := h
  have hvoted : ∀ v T c, EverVoted [s] v T c → T = (s.node v).term ∧ (s.node v).votedFor = some c := by
    rintro v T c ⟨t, ht, h1, h2⟩
    rw [List.mem_singleton] at ht
    subst ht
    exact ⟨h1.symm, h2⟩
  have hfollower : ∀ n ∈ members, (s.node n).state = .follower := fun n hn =>
    (hfresh n hn).justStarted.state
  constructor
  · intro v T c hv
    exact .inr (hvoted v T c hv)
  · intro v T c c' hv hv'
    have h1 := (hvoted v T c hv).2
    rw [(hvoted v T c' hv').2] at h1
    exact (Option.some.inj h1).symm
  · intro m hm
    rw [hnet] at hm
    cases hm
  · intro n hn hne
    exact absurd (hfollower n hn) hne
  · intro n hn hl
    rw [hfollower n hn] at hl
    cases hl

section Step

variable {members : Finset String} {s : Cluster} {past : List Cluster} {n : String}
  {m : Option RaftRPC} {e' : RaftEngine} {outs : List RaftRPC}

/-- A vote of the longer history is an old one, or the vote the acting node holds now. -/
theorem everVoted_put {v : String} {T : Nat} {c : String}
    (hv : EverVoted (s.put n e' outs :: s :: past) v T c) :
    EverVoted (s :: past) v T c ∨ (v = n ∧ e'.term = T ∧ e'.votedFor = some c) := by
  obtain ⟨t, ht, h1, h2⟩ := hv
  rcases List.mem_cons.mp ht with rfl | ht
  · by_cases hvn : v = n
    · subst hvn
      rw [Cluster.put_node_self] at h1 h2
      exact .inr ⟨rfl, h1, h2⟩
    · rw [Cluster.put_node_of_ne _ _ _ hvn] at h1 h2
      exact .inl ⟨s, List.mem_cons_self, h1, h2⟩
  · exact .inl ⟨t, ht, h1, h2⟩

/-- The acting node holds its vote at the end of the longer history. -/
theorem everVoted_self {c : String} (hc : e'.votedFor = some c) :
    EverVoted (s.put n e' outs :: s :: past) n e'.term c :=
  ⟨_, List.mem_cons_self, by rw [Cluster.put_node_self], by rw [Cluster.put_node_self]; exact hc⟩

theorem EverVoted.put {v : String} {T : Nat} {c : String} (h : EverVoted (s :: past) v T c) :
    EverVoted (s.put n e' outs :: s :: past) v T c :=
  h.mono (List.subset_cons_self _ _)

/-- What was voted before is behind the acting node, or still its vote. -/
theorem ElectionInv.latest_self (hi : ElectionInv members s (s :: past))
    (hv : RaftEngine.VoteStep (s.node n) m e' outs) {T : Nat} {c : String}
    (h : EverVoted (s :: past) n T c) : T < e'.term ∨ (T = e'.term ∧ e'.votedFor = some c) := by
  have hle := hv.term_le
  rcases hi.latest n T c h with hlt | ⟨heq, hvote⟩
  · exact .inl (by omega)
  · -- a vote is forgotten only together with its term
    by_cases hsame : e'.term = (s.node n).term
    · exact .inr ⟨by omega, hv.keep hsame c hvote⟩
    · exact .inl (by omega)

/-- Two votes of one term are for the same candidate: both old, both current, or one of each. -/
theorem ElectionInv.unique_put (hi : ElectionInv members s (s :: past))
    (hv : RaftEngine.VoteStep (s.node n) m e' outs) (v : String) (T : Nat) (c c' : String)
    (h : EverVoted (s.put n e' outs :: s :: past) v T c)
    (h' : EverVoted (s.put n e' outs :: s :: past) v T c') : c = c' := by
  have hmix : ∀ T c c', EverVoted (s :: past) n T c → e'.term = T → e'.votedFor = some c' → c = c' := by
    intro T c c' h hT hvote
    rcases hi.latest_self hv h with hlt | ⟨-, hvote'⟩
    · omega
    · rw [hvote'] at hvote
      exact Option.some.inj hvote
  rcases everVoted_put h with hpast | ⟨rfl, hT, hvote⟩
  · rcases everVoted_put h' with hpast' | ⟨rfl, hT', hvote'⟩
    · exact hi.unique v T c c' hpast hpast'
    · exact hmix T c c' hpast hT' hvote'
  · rcases everVoted_put h' with hpast' | ⟨-, -, hvote'⟩
    · exact (hmix T c' c hpast' hT hvote).symm
    · rw [hvote] at hvote'
      exact Option.some.inj hvote'

/-- The ballots of the acting node are votes for it. -/
theorem ElectionInv.ballots_self (hi : ElectionInv members s (s :: past))
    (hc : Configured members n (s.node n)) (hn : n ∈ members) (hm : ∀ rpc ∈ m, s.Addressed n rpc)
    (hv : RaftEngine.VoteStep (s.node n) m e' outs) (hne : e'.state ≠ .follower) (v : String)
    (hvm : v ∈ e'.votesReceived) : EverVoted (s.put n e' outs :: s :: past) v e'.term n := by
  rcases hv.ballot hne v hvm with ⟨hT, hst, hmem⟩ | ⟨rfl, hvote⟩ | ⟨rpc, hrpc, hp, hT, rfl⟩
  · rw [hT]
    exact (hi.ballots n hn hst v hmem).put
  · rw [hc.nodeId] at hvote ⊢
    exact everVoted_self hvote
  · -- an answer that reached `n` was addressed to `n`
    obtain ⟨hnet, htgt⟩ := hm rpc hrpc
    obtain ⟨c, hc', h⟩ := hi.grants rpc hnet hp
    rw [hc'] at htgt
    rcases htgt with htgt | htgt
    · cases htgt
    · cases htgt
      rw [← hT]
      exact h.put

/-- **One call keeps the election invariant.** -/
theorem ElectionInv.put (hi : ElectionInv members s (s :: past)) (hc : Configured members n (s.node n))
    (hn : n ∈ members) (hm : ∀ rpc ∈ m, s.Addressed n rpc)
    (hv : RaftEngine.VoteStep (s.node n) m e' outs) :
    ElectionInv members (s.put n e' outs) (s.put n e' outs :: s :: past) := by
  refine ⟨?_, hi.unique_put hv, ?_, ?_, ?_⟩
  · intro v T c h
    rcases everVoted_put h with hpast | ⟨rfl, hT, hvote⟩
    · by_cases hvn : v = n
      · subst hvn
        rw [Cluster.put_node_self]
        exact hi.latest_self hv hpast
      · rw [Cluster.put_node_of_ne _ _ _ hvn]
        exact hi.latest v T c hpast
    · rw [Cluster.put_node_self]
      exact .inr ⟨hT.symm, hvote⟩
  · intro o ho hp
    rcases List.mem_append.mp ho with ho | ho
    · obtain ⟨hs, hT, c, htgt, hvote⟩ := hv.grants o ho hp
      refine ⟨c, htgt, ?_⟩
      rw [hs, hT, hc.nodeId]
      exact everVoted_self hvote
    · obtain ⟨c, htgt, h⟩ := hi.grants o ho hp
      exact ⟨c, htgt, h.put⟩
  · apply Cluster.forall_put (P := fun k e => e.state ≠ .follower → ∀ v ∈ e.votesReceived,
      EverVoted (s.put n e' outs :: s :: past) v e.term k)
    · exact hi.ballots_self hc hn hm hv
    · intro k hk hne v hvm
      exact (hi.ballots k hk hne v hvm).put
  · apply Cluster.forall_put (P := fun _ e => e.state = .leader → MajorityOf members e.votesReceived)
    · intro hl
      rcases hv.quorum hl with ⟨hl', heq⟩ | hq
      · rw [heq]
        exact hi.quorum n hn hl'
      · exact hc.majority hn hq
    · exact hi.quorum

end Step

/-! ## Election safety -/

section Runs

variable {env : Env} {members : Finset String} {ok : ClusterOp → Cluster → Prop}
  (hkeep : ∀ op s, ok op s → KeepsPeers env op s)

include hkeep

theorem electionInv_run {s : Cluster} {past : List Cluster}
    (hr : (cluster env members).Run ok (s :: past)) : ElectionInv members s (s :: past) := by
  refine System.Run.invariant_head (P := ElectionInv members) (fun _ h => electionInv_init h) ?_ hr
  intro s past op s' hr hi hok hstep
  have hcfg := configured_reachable hkeep ⟨past, hr⟩
  rcases step_cases (hkeep op s hok) hstep with ⟨n, m, e', outs, hmv, rfl⟩ | ⟨n, hn, data, -, rfl⟩
  · exact hi.put (hcfg n hmv.mem) hmv.mem hmv.addressed hmv.event.voteStep
  · exact hi.put (m := none) (hcfg n hn) hn (by simp) (RaftEngine.voteStep_snapshot _ data)

/-- **One leader per term, ever.** Two members that led one term at any two states of a run are the same
member. -/
theorem leader_unique {h : List Cluster} (hr : (cluster env members).Run ok h) {s t : Cluster}
    (hs : s ∈ h) (ht : t ∈ h) {a b : String} (ha : a ∈ members) (hb : b ∈ members)
    (hla : (s.node a).state = .leader) (hlb : (t.node b).state = .leader)
    (hterm : (s.node a).term = (t.node b).term) : a = b := by
  obtain ⟨ps, hsufs, hrs⟩ := hr.exists_suffix hs
  obtain ⟨pt, hsuft, hrt⟩ := hr.exists_suffix ht
  have his := electionInv_run hkeep hrs
  have hit := electionInv_run hkeep hrt
  -- the two ballots share a voter, who voted once in that term
  obtain ⟨v, -, hva, hvb⟩ := (his.quorum a ha hla).inter (hit.quorum b hb hlb)
  have h1 := (his.ballots a ha (by rw [hla]; decide) v hva).mono hsufs.subset
  have h2 := (hit.ballots b hb (by rw [hlb]; decide) v hvb).mono hsuft.subset
  rw [← hterm] at h2
  obtain ⟨head, past, rfl⟩ : ∃ x xs, h = x :: xs := List.exists_cons_of_ne_nil (List.ne_nil_of_mem hs)
  exact (electionInv_run hkeep hr).unique v _ a b h1 h2

/-- The same for the node that has just moved: whoever led its term is that node. -/
theorem leader_unique_put {s : Cluster} {n : String} {e' : RaftEngine} {outs : List RaftRPC}
    {h : List Cluster} (hr : (cluster env members).Run ok (s.put n e' outs :: h)) (hn : n ∈ members)
    (hl : e'.state = .leader) {t : Cluster} (ht : t ∈ h) {c : String} (hc : c ∈ members)
    (hlc : (t.node c).state = .leader) (hterm : (t.node c).term = e'.term) : c = n := by
  refine leader_unique hkeep hr (List.mem_cons_of_mem _ ht) List.mem_cons_self hc hn hlc ?_ ?_
  · rw [Cluster.put_node_self]
    exact hl
  · rw [Cluster.put_node_self]
    exact hterm

end Runs

/-- **Election safety.** In every reachable state of a cluster of fixed membership at most one member leads a given
term, whatever is lost, repeated, delayed or reordered. Two quorums share a member, and a member grants one vote in a
term. -/
theorem election_safety {env : Env} {members : Finset String} {s : Cluster}
    (h : (cluster env members).Reachable FixedMembership s) {a b : String} (ha : a ∈ members)
    (hb : b ∈ members) (hla : (s.node a).state = .leader) (hlb : (s.node b).state = .leader)
    (hterm : (s.node a).currentTerm = (s.node b).currentTerm) : a = b := by
  obtain ⟨past, hr⟩ := h
  exact leader_unique (fun _ _ h => h.2) (run_keepsPeers (fun _ _ h => h) hr) List.mem_cons_self List.mem_cons_self ha hb hla hlb
    (congrArg UInt64.toNat hterm)

/-- Node `a` is elected by `b`; then `b`, in the same term, is not a leader. -/
theorem election_safety_trio : ∃ s, (cluster scriptEnv trio).Reachable FixedMembership s ∧
    (s.node "a").state = .leader ∧ (s.node "b").currentTerm = (s.node "a").currentTerm ∧
    (s.node "b").state ≠ .leader := by
  obtain ⟨s, past, hr, hl, hterm⟩ := System.exists_run_of_play FixedMembership
    (P := fun s _ => (s.node "a").state = .leader ∧
      (s.node "b").currentTerm = (s.node "a").currentTerm)
    trioStart_init [timeout "a", deliverNth "b" 0, deliverNth "a" 2] (by decide +kernel)
  refine ⟨s, ⟨past, hr⟩, hl, hterm, fun hlb => ?_⟩
  exact absurd (election_safety ⟨past, hr⟩ (by decide) (by decide) hl hlb hterm.symm) (by decide)

end WarmLogic.Consensus
