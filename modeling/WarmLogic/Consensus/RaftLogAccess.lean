/-
# WarmLogic.Consensus.RaftLogAccess — the positions a node reads in its log, over whole runs.

Positions come from the wire and stay: an acknowledgement sets `next_index`, and the next heartbeat reads and slices
there. Three calls leave the log behind:

  * an AppendEntries of a current term with a previous index below -1, at once;
  * an acknowledgement of an index past the end, or one whose commit makes a peer of a node with a stale record, at the
    next heartbeat;
  * a snapshot of a leader that drops entries a peer's record still counts, at the next heartbeat.

`raft_log_access_of_run` is about the runs without them.

A panic in the source is an index or a slice past the end of the log, or an overflow of the term. `AccessInLog` says
that the next tick fails at nothing but the overflow; the guard of a run is stated for each call on the engine before
it, and for the three calls of the list it is exact: after a call that violates it, there is a state in which the next
heartbeat, or the call itself, fails.

The records of the peers are the delicate part. They are set from messages without a look at the log, and they survive
an election only in that a new leader overwrites the records of the peers it has at that moment; a node that becomes a
peer later, through a commit, keeps whatever record an earlier acknowledgement left. So the condition on an
acknowledgement is about the peers behind the commit it causes (`peersBehindCommit`).
-/
import WarmLogic.Consensus.StoredNode
import WarmLogic.Consensus.RaftAck
import WarmLogic.Consensus.RaftMembership

namespace WarmLogic.Consensus

open WarmLogic.Lib

namespace RaftEngine

variable {env : Env} {e e' f : RaftEngine}

/-! ## Heartbeats -/

/-- No record about one of the nodes is past the end of the log. -/
def NextWithin (e : RaftEngine) (nodes : List String) : Prop :=
  ∀ p ∈ nodes, ∀ next ∈ e.nextIndex.lookup p, next ≤ e.log.length

instance (e : RaftEngine) (nodes : List String) : Decidable (e.NextWithin nodes) :=
  inferInstanceAs (Decidable (∀ p ∈ nodes, ∀ next ∈ e.nextIndex.lookup p, next ≤ e.log.length))

/-- A heartbeat for a peer can be made if its next entry is not behind the end. -/
theorem heartbeatFor_isSome_iff (e : RaftEngine) (peer : String) :
    (e.heartbeatFor peer).isSome ↔ ∀ next ∈ e.nextIndex.lookup peer, next ≤ e.log.length := by
  unfold heartbeatFor
  dsimp only
  cases hrecord : e.nextIndex.lookup peer with
  | none =>
      rw [Option.getD_none, if_neg (Nat.lt_irrefl _)]
      exact ⟨fun _ next h => (by cases h), fun _ => rfl⟩
  | some next =>
      rw [Option.getD_some]
      by_cases hlt : e.log.length < next
      · rw [if_pos hlt]
        exact ⟨fun h => (by cases h), fun h => absurd (h next rfl) (by omega)⟩
      · rw [if_neg hlt]
        refine ⟨fun _ n h => ?_, fun _ => rfl⟩
        cases h
        omega

/-- A `mapM` succeeds if its function does, everywhere. -/
theorem mapM_isSome_iff {α β : Type} {f : α → Option β} (l : List α) :
    (l.mapM f).isSome ↔ ∀ x ∈ l, (f x).isSome := by
  induction l with
  | nil =>
      rw [List.mapM_nil]
      exact ⟨fun _ x h => (by cases h), fun _ => rfl⟩
  | cons x l ih =>
      rw [List.mapM_cons, List.forall_mem_cons, ← ih]
      cases f x with
      | none => exact ⟨fun h => (by cases h), fun h => h.1⟩
      | some y =>
          cases l.mapM f with
          | none => exact ⟨fun h => (by cases h), fun h => h.2⟩
          | some ys => exact ⟨fun _ => ⟨rfl, rfl⟩, fun _ => rfl⟩

/-- **Heartbeats go out exactly when no peer's record is past the end.** -/
theorem sendHeartbeats_isSome_iff (env : Env) (e : RaftEngine) :
    (e.sendHeartbeats env).isSome ↔ e.NextWithin e.peers := by
  unfold sendHeartbeats
  rw [Option.isSome_map, mapM_isSome_iff]
  exact forall₂_congr fun p _ => e.heartbeatFor_isSome_iff p

/-! ## What may be asked of a state -/

/-- **What a node does next stays in its log**: a tick fails at the overflow of the term alone, a leader's heartbeats
never do, and the commit scan ends at a position. -/
structure AccessInLog (env : Env) (e : RaftEngine) : Prop where
  tick : ∀ elapsed, e.handleTick env elapsed = none → e.state ≠ .leader ∧ e.currentTerm.toNat + 1 = 2 ^ 64
  heartbeats : e.state = .leader → (e.sendHeartbeats env).isSome
  commit : -1 ≤ e.commitIndex

/-- What the accesses of the next tick need. -/
theorem accessInLog_iff (env : Env) (e : RaftEngine) :
    AccessInLog env e ↔ (e.state = .leader → e.NextWithin e.peers) ∧ -1 ≤ e.commitIndex := by
  constructor
  · intro h
    exact ⟨fun hl => (sendHeartbeats_isSome_iff env e).mp (h.heartbeats hl), h.commit⟩
  · rintro ⟨hnext, hcommit⟩
    have hsend : e.state = .leader → (e.sendHeartbeats env).isSome := fun hl =>
      (sendHeartbeats_isSome_iff env e).mpr (hnext hl)
    refine ⟨fun elapsed hnone => ?_, hsend, hcommit⟩
    unfold handleTick at hnone
    split at hnone
    · cases hnone
    · split at hnone
      · rename_i hl
        have := hsend hl
        rw [hnone] at this
        cases this
      · rename_i hl
        unfold startElection at hnone
        split at hnone
        · rename_i hlast
          exact ⟨hl, hlast⟩
        · dsimp only at hnone
          split at hnone <;> cases hnone

/-- The invariant: of a leader, no peer's record is past the end; and commit index and snapshot index are positions,
or -1. Only a leader's records matter, since they are set anew when a node becomes one. Entries are never taken out of
a leader's log except by a snapshot, which has its own condition, so a record that is within the log stays within it.
-/
structure PositionsInLog (e : RaftEngine) : Prop where
  next : e.state = .leader → e.NextWithin e.peers
  commit : -1 ≤ e.commitIndex
  snapshot : -1 ≤ e.lastSnapshotIndex

/-- The invariant gives it. -/
theorem PositionsInLog.access (h : PositionsInLog e) (env : Env) : AccessInLog env e :=
  (accessInLog_iff env e).mpr ⟨h.next, h.commit⟩

/-- The two engines read the same positions, and the second leads only if the first does. Most handlers are of this
kind. -/
structure SamePositions (e e' : RaftEngine) : Prop where
  log : e'.log = e.log
  peers : e'.peers = e.peers
  nextIndex : e'.nextIndex = e.nextIndex
  commitIndex : e'.commitIndex = e.commitIndex
  lastSnapshotIndex : e'.lastSnapshotIndex = e.lastSnapshotIndex
  state : e'.state = .leader → e.state = .leader

/-- A node has its own positions. -/
theorem SamePositions.refl (e : RaftEngine) : SamePositions e e := ⟨rfl, rfl, rfl, rfl, rfl, id⟩

/-- The same positions in a log that is as long are within it. -/
theorem PositionsInLog.of_same (hi : PositionsInLog e) (h : SamePositions e e') : PositionsInLog e' where
  next hl := by
    unfold NextWithin
    rw [h.peers, h.nextIndex, h.log]
    exact hi.next (h.state hl)
  commit := by
    rw [h.commitIndex]
    exact hi.commit
  snapshot := by
    rw [h.lastSnapshotIndex]
    exact hi.snapshot

/-! ## Calls without a condition -/

/-- A term that is seen leaves them. -/
theorem SamePositions.observeTerm (e : RaftEngine) (t : UInt64) : SamePositions e (e.observeTerm t) := by
  unfold RaftEngine.observeTerm
  split
  · exact ⟨rfl, rfl, rfl, rfl, rfl, fun h => (by cases h)⟩
  · exact .refl e

/-- Applying entries does. -/
theorem SamePositions.advanceAppliedIndex (env : Env) (e : RaftEngine) :
    SamePositions e (e.advanceAppliedIndex env) := by
  obtain ⟨m, d, heq, -⟩ := advanceAppliedIndex_eq env e
  rw [heq]
  exact ⟨rfl, rfl, rfl, rfl, rfl, id⟩

/-- A request for a vote does. -/
theorem SamePositions.handleRequestVote (env : Env) (e : RaftEngine) (term : UInt64) (c : String) (i : Int)
    (t : UInt64) : SamePositions e (e.handleRequestVote env term c i t).1 := by
  unfold RaftEngine.handleRequestVote
  dsimp only
  split
  · exact ⟨rfl, rfl, rfl, rfl, rfl, id⟩
  · exact .refl e

/-- A new leader has every peer at the end of its log. -/
theorem PositionsInLog.becomeLeader (hi : PositionsInLog e) : PositionsInLog e.becomeLeader where
  next _ p hp next hnext := by
    have hrecord : e.becomeLeader.nextIndex.lookup p = some e.log.length :=
      lookup_foldl_insert e.log.length hp e.nextIndex
    rw [hrecord] at hnext
    cases hnext
    exact Nat.le_refl _
  commit := hi.commit
  snapshot := hi.snapshot

/-- A new leader sets the next entries to the end of its log. -/
theorem PositionsInLog.handleVoteResponse (hi : PositionsInLog e) (term : UInt64) (c : String) (granted : Bool) :
    PositionsInLog (e.handleVoteResponse term c granted) := by
  unfold RaftEngine.handleVoteResponse
  split
  · exact hi
  · split
    · have hvoted : PositionsInLog { e with votesReceived := insert c e.votesReceived } :=
        hi.of_same ⟨rfl, rfl, rfl, rfl, rfl, id⟩
      unfold countVote
      dsimp only
      split
      · exact hvoted.becomeLeader
      · exact hvoted
    · exact hi

/-- An election keeps them within. -/
theorem PositionsInLog.startElection (hi : PositionsInLog e) {outs : List RaftRPC}
    (h : e.startElection env = some (e', outs)) : PositionsInLog e' := by
  have hcandidate : PositionsInLog e.candidacy := hi.of_same ⟨rfl, rfl, rfl, rfl, rfl, fun h => (by cases h)⟩
  unfold RaftEngine.startElection at h
  split at h
  · cases h
  · dsimp only at h
    split at h
    · cases h
      exact hcandidate.becomeLeader
    · cases h
      exact hcandidate

/-- So does a tick. -/
theorem PositionsInLog.handleTick (hi : PositionsInLog e) {elapsed : Bool} {outs : List RaftRPC}
    (h : e.handleTick env elapsed = some (e', outs)) : PositionsInLog e' := by
  unfold RaftEngine.handleTick at h
  split at h
  · cases h
    exact hi
  · split at h
    · obtain ⟨rfl, -⟩ := wrote_sendHeartbeats h
      exact hi
    · exact hi.startElection h

/-- A proposal makes the log longer. -/
theorem PositionsInLog.propose (hi : PositionsInLog e) (env : Env) (data : String) (zkProof : List UInt8) :
    PositionsInLog (e.propose env data zkProof).1 := by
  unfold RaftEngine.propose
  split
  · exact hi
  · split
    · exact hi
    · refine ⟨fun hl p hp next hnext => ?_, hi.commit, hi.snapshot⟩
      have hle := hi.next hl p hp next hnext
      dsimp only
      rw [List.length_append]
      omega

/-! ## AppendEntries -/

/-- Finalising touches the peers, the slot and the storage. -/
theorem finalizeAt_eq (e : RaftEngine) (i : Nat) :
    ∃ ps pending st, e.finalizeAt i = { e with peers := ps, pendingPeers := pending, storage := st } := by
  unfold finalizeAt
  split
  · exact ⟨_, _, _, rfl⟩
  · split
    · split
      · exact ⟨_, _, _, rfl⟩
      · exact ⟨_, _, _, rfl⟩
    · exact ⟨_, _, _, rfl⟩

/-- Installing peers touches no position. -/
theorem finalizeLoop_eq (f : Nat → Nat) (is : List Nat) (e : RaftEngine) :
    ∃ ps pending st, is.foldl (fun acc i => acc.finalizeAt (f i)) e
      = { e with peers := ps, pendingPeers := pending, storage := st } := by
  induction is generalizing e with
  | nil => exact ⟨_, _, _, rfl⟩
  | cons i is ih =>
      obtain ⟨ps, pending, st, heq⟩ := finalizeAt_eq e (f i)
      obtain ⟨ps', pending', st', heq'⟩ := ih (e.finalizeAt (f i))
      rw [heq] at heq'
      rw [List.foldl_cons, heq]
      exact ⟨ps', pending', st', heq'⟩

/-- A follower that follows a commit index comes to a position, whatever is in its log. -/
theorem PositionsInLog.followCommit (hstate : e.state = .follower) (hcommit : -1 ≤ e.commitIndex)
    (hsnap : -1 ≤ e.lastSnapshotIndex) (lc : Int) : PositionsInLog (e.followCommit lc) := by
  unfold RaftEngine.followCommit
  split
  · obtain ⟨ps, pending, st, heq⟩ := finalizeLoop_eq (fun i => (e.commitIndex + 1 + i).toNat)
      (List.range (min lc ((e.log.length : Int) - 1 + e.lastSnapshotIndex + 1) - e.commitIndex).toNat)
      { e with commitIndex := min lc ((e.log.length : Int) - 1 + e.lastSnapshotIndex + 1) }
    dsimp only at heq ⊢
    rw [heq]
    refine ⟨fun hl => ?_, ?_, hsnap⟩
    · rw [show e.state = .leader from hl] at hstate
      cases hstate
    · dsimp only
      omega
  · refine ⟨fun hl => ?_, hcommit, hsnap⟩
    rw [hl] at hstate
    cases hstate

/-- **An AppendEntries stays in the log exactly when it is old or its previous index is -1 at least.** -/
theorem PositionsInLog.handleAppendEntries_iff (hi : PositionsInLog e) {term : UInt64} {leaderId : String} {prev : Int}
    {pt : UInt64} {entries : Option (List LogEntry)} {lc : Int} :
    (∃ e' out, e.handleAppendEntries env term leaderId prev pt entries lc = some (e', out) ∧ PositionsInLog e') ↔
      (¬ term < e.currentTerm → -1 ≤ prev) := by
  unfold RaftEngine.handleAppendEntries
  by_cases hold : term < e.currentTerm
  · rw [if_pos hold]
    exact ⟨fun _ h => absurd hold h, fun _ => ⟨e, _, rfl, hi⟩⟩
  · rw [if_neg hold]
    unfold appendAsFollower
    have hfollower : PositionsInLog { e with state := .follower, leaderId := some leaderId } :=
      ⟨fun h => (by cases h), hi.commit, hi.snapshot⟩
    have hprev : prevMatches e.log prev pt ≠ none ↔ -1 ≤ prev := by
      rw [ne_eq, prevMatches_eq_none]
      omega
    cases hmatch : prevMatches e.log prev pt with
    | none =>
        refine ⟨fun ⟨_, _, h, _⟩ => (by cases h), fun h => ?_⟩
        exact absurd hmatch (hprev.mpr (h hold))
    | some ok =>
        have hprev : -1 ≤ prev := hprev.mp (by rw [hmatch]; exact Option.some_ne_none _)
        refine ⟨fun _ _ => hprev, fun _ => ?_⟩
        cases ok with
        | false => exact ⟨_, _, rfl, hfollower⟩
        | true =>
            cases entries with
            | none => exact ⟨_, _, rfl, hfollower⟩
            | some es =>
                dsimp only
                split
                · exact ⟨_, _, rfl, hfollower⟩
                · refine ⟨_, _, rfl, PositionsInLog.of_same ?_ (.advanceAppliedIndex env _)⟩
                  split
                  · exact .followCommit (e := { e with state := .follower, leaderId := some leaderId })
                      rfl hi.commit hi.snapshot lc
                  · exact .followCommit
                      (e := storeEntries env { e with state := .follower, leaderId := some leaderId } prev es)
                      rfl hi.commit hi.snapshot lc

/-! ## Acknowledgements -/

/-- The peers behind a commit at the highest position a quorum holds: the slot, if a `CONF:` entry is read there. -/
def peersBehindCommit (e : RaftEngine) : List String :=
  match e.pendingPeers with
  | none => e.peers
  | some pending =>
      if ∃ n < e.log.length, e.Committable n ∧ (∀ k < e.log.length, n < k → ¬ e.Committable k) ∧
          (e.getEntry n).any (fun entry => isConf entry.data) = true then pending
      else e.peers

/-- Where the scan finds nothing there is nothing. -/
theorem not_committable_of_commitScan_eq_none {k : Nat} (h : e.commitScan k = none) : ∀ n < k, ¬ e.Committable n := by
  induction k with
  | zero =>
      intro n hn
      omega
  | succ k ih =>
      intro n hn hcom
      unfold commitScan at h
      split at h
      · have hlt := hcom.1
        omega
      · split at h
        · cases h
        · rename_i hrefused
          rcases Nat.lt_succ_iff_lt_or_eq.mp hn with hn | rfl
          · exact ih h n hn hcom
          · exact hrefused hcom.2

/-- The scan finds the highest position there is. -/
theorem commitScan_eq_some_iff {n : Nat} : e.commitScan e.log.length = some n ↔
    n < e.log.length ∧ e.Committable n ∧ ∀ k < e.log.length, n < k → ¬ e.Committable k := by
  constructor
  · intro h
    obtain ⟨hlt, hlen, hterm, hquorum⟩ := commitScan_eq_some h
    exact ⟨hlen, ⟨hlt, hterm, hquorum⟩, not_committable_of_commitScan h⟩
  · rintro ⟨hlen, hcom, hmax⟩
    cases hscan : e.commitScan e.log.length with
    | none => exact absurd hcom (not_committable_of_commitScan_eq_none hscan n hlen)
    | some m =>
        obtain ⟨hlt, hm, hterm, hquorum⟩ := commitScan_eq_some hscan
        have hle : m ≤ n := Nat.le_of_not_lt fun h => hmax m hm h ⟨hlt, hterm, hquorum⟩
        have hge : n ≤ m := Nat.le_of_not_lt fun h => not_committable_of_commitScan hscan n hlen h hcom
        rw [Nat.le_antisymm hle hge]

/-- What a finalising turn leaves as peers. -/
theorem finalizeAt_peers (e : RaftEngine) (i : Nat) :
    (e.finalizeAt i).peers =
      if (e.getEntry i).any (fun entry => isConf entry.data) = true then e.pendingPeers.getD e.peers else e.peers := by
  unfold finalizeAt
  cases e.getEntry i with
  | none => rfl
  | some entry =>
      dsimp only [Option.any_some]
      split
      · cases e.pendingPeers with
        | none => rfl
        | some pending => rfl
      · rfl

/-- **What the commit update leaves alone**, and which peers it leaves. -/
theorem updateCommitIndex_keeps (e : RaftEngine) : e.updateCommitIndex.peers = e.peersBehindCommit ∧
    ∃ c ps pending st, e.commitIndex ≤ c ∧ e.updateCommitIndex
      = { e with commitIndex := c, peers := ps, pendingPeers := pending, storage := st } := by
  unfold updateCommitIndex peersBehindCommit
  cases hscan : e.commitScan e.log.length with
  | none =>
      refine ⟨?_, e.commitIndex, _, _, _, Int.le_refl _, rfl⟩
      cases e.pendingPeers with
      | none => rfl
      | some pending =>
          dsimp only
          rw [if_neg]
          rintro ⟨n, hn, hcom, -⟩
          exact not_committable_of_commitScan_eq_none hscan n hn hcom
  | some n =>
      obtain ⟨hlen, hcom, hmax⟩ := commitScan_eq_some_iff.mp hscan
      dsimp only
      obtain ⟨ps, pending, st, heq⟩ := finalizeAt_eq { e with commitIndex := (n : Int) } n
      refine ⟨?_, n, ps, pending, st, Int.le_of_lt hcom.1, heq⟩
      have hentry : getEntry { e with commitIndex := (n : Int) } n = e.getEntry n := rfl
      rw [finalizeAt_peers, hentry]
      dsimp only
      cases hpending : e.pendingPeers with
      | none => exact ite_self _
      | some pending =>
          dsimp only [Option.getD_some]
          refine ite_congr (propext ⟨fun h => ⟨n, hlen, hcom, hmax, h⟩, ?_⟩) (fun _ => rfl) (fun _ => rfl)
          rintro ⟨m, hm, hcom', hmax', h⟩
          have hsame := commitScan_eq_some_iff.mpr ⟨hm, hcom', hmax'⟩
          rw [hscan] at hsame
          cases hsame
          exact h

/-- **An acknowledgement stays in the log exactly when every peer's record does**, of the peers the commit leaves. -/
theorem PositionsInLog.handleAppendResponse_iff (hi : PositionsInLog e) {term : UInt64} {c : String} {success : Bool}
    {last : Int} : PositionsInLog (e.handleAppendResponse env term c success last) ↔
      (success = true → e.state = .leader → term = e.currentTerm →
        (e.acknowledged c last).NextWithin (e.acknowledged c last).peersBehindCommit) := by
  unfold RaftEngine.handleAppendResponse
  by_cases hguard : e.state ≠ .leader ∨ term ≠ e.currentTerm
  · rw [if_pos hguard]
    refine ⟨fun _ _ hl ht => ?_, fun _ => hi⟩
    rcases hguard with h | h
    · exact absurd hl h
    · exact absurd ht h
  · rw [if_neg hguard]
    obtain ⟨hl, ht⟩ : e.state = .leader ∧ term = e.currentTerm := by
      rw [not_or, not_not, not_not] at hguard
      exact hguard
    cases success with
    | true =>
        rw [if_pos rfl]
        -- the commit and what follows it change nothing else that is a position
        obtain ⟨hpeers, n, ps, pending, st, hle, heq⟩ := updateCommitIndex_keeps (e.acknowledged c last)
        obtain ⟨m, d, hadv, -⟩ := advanceAppliedIndex_eq env (e.acknowledged c last).updateCommitIndex
        show PositionsInLog (advanceAppliedIndex env (e.acknowledged c last).updateCommitIndex) ↔ _
        rw [hadv, heq]
        rw [heq] at hpeers
        have hpeers : ps = (e.acknowledged c last).peersBehindCommit := hpeers
        rw [← hpeers]
        refine ⟨fun hdone _ _ _ => hdone.next hl, fun h => ⟨fun _ => h rfl hl ht, ?_, hi.snapshot⟩⟩
        exact Int.le_trans hi.commit hle
    | false =>
        rw [if_neg (by decide)]
        -- a refusal takes the record of the sender one back, and never below 0
        refine ⟨fun _ h => (by cases h), fun _ => ⟨fun _ p hp next hnext => ?_, hi.commit, hi.snapshot⟩⟩
        by_cases hpc : p = c
        · subst hpc
          rw [AList.lookup_insert] at hnext
          cases hnext
          cases hrecord : e.nextIndex.lookup p with
          | none => exact Nat.zero_le _
          | some next =>
              have := hi.next hl p hp next hrecord
              rw [Option.getD_some]
              dsimp only
              omega
        · rw [AList.lookup_insert_ne hpc] at hnext
          exact hi.next hl p hp next hnext

/-! ## One message -/

/-- The condition on a message that is read: an AppendEntries that is not old has a previous index of -1 at least; an
acknowledgement the leader counts leaves no peer's record past the end. -/
def PayloadStaysInLog (e : RaftEngine) (term : UInt64) (senderId : String) : RpcPayload → Prop
  | .appendEntries prevLogIndex _ _ _ _ _ => ¬ term < e.currentTerm → -1 ≤ prevLogIndex
  | .appendResponse true lastLogIndex => e.state = .leader → term = e.currentTerm →
      (e.acknowledged senderId lastLogIndex).NextWithin (e.acknowledged senderId lastLogIndex).peersBehindCommit
  | _ => True

instance (e : RaftEngine) (term : UInt64) (senderId : String) : ∀ p, Decidable (e.PayloadStaysInLog term senderId p)
  | .appendEntries .. => inferInstanceAs (Decidable (_ → _))
  | .appendResponse true _ => inferInstanceAs (Decidable (_ → _ → _))
  | .appendResponse false _ => inferInstanceAs (Decidable True)
  | .requestVote .. => inferInstanceAs (Decidable True)
  | .voteResponse _ => inferInstanceAs (Decidable True)
  | .malformed => inferInstanceAs (Decidable True)

/-- **The messages that stay in the log.** -/
def RpcStaysInLog (env : Env) (e : RaftEngine) (m : RaftRPC) : Prop :=
  e.badSignature env m = false → e.PayloadStaysInLog m.term m.senderId m.payload

instance (env : Env) (e : RaftEngine) (m : RaftRPC) : Decidable (e.RpcStaysInLog env m) :=
  inferInstanceAs (Decidable (_ → _))

/-- A message of an earlier term stays one. -/
theorem lt_observeTerm (e : RaftEngine) (t : UInt64) : t < (e.observeTerm t).currentTerm ↔ t < e.currentTerm := by
  unfold observeTerm
  split
  · rename_i hgt
    exact ⟨fun h => absurd h (UInt64.lt_irrefl _), fun h => absurd (UInt64.lt_trans h hgt) (UInt64.lt_irrefl _)⟩
  · exact Iff.rfl

/-- A leader that observed a term and still counts messages of it was of that term before. -/
theorem observeTerm_eq_self_of_leader {t : UInt64} (hl : (e.observeTerm t).state = .leader) : e.observeTerm t = e := by
  unfold observeTerm at hl ⊢
  split
  · rename_i hgt
    rw [if_pos hgt] at hl
    cases hl
  · rfl

/-- **Exactly these messages are handled inside the log**, now and at the next heartbeat. -/
theorem PositionsInLog.handleRpc_iff (hi : PositionsInLog e) (env : Env) (m : RaftRPC) :
    (∃ e' out, e.handleRpc env m = some (e', out) ∧ PositionsInLog e') ↔ e.RpcStaysInLog env m := by
  unfold RaftEngine.handleRpc RpcStaysInLog
  cases hbad : e.badSignature env m with
  | true =>
      rw [if_pos rfl]
      exact ⟨fun _ h => (by cases h), fun _ => ⟨e, none, rfl, hi⟩⟩
  | false =>
      rw [if_neg (by decide)]
      have hobs : PositionsInLog (e.observeTerm m.term) := hi.of_same (.observeTerm e m.term)
      unfold dispatch
      cases hp : m.payload with
      | requestVote i t =>
          dsimp only
          exact ⟨fun _ _ => trivial, fun _ => ⟨_, _, rfl, hobs.of_same (.handleRequestVote env _ _ _ _ _)⟩⟩
      | appendEntries prev pt ph pp es lc =>
          dsimp only
          rw [hobs.handleAppendEntries_iff, lt_observeTerm]
          exact ⟨fun h _ => h, fun h => h rfl⟩
      | voteResponse granted =>
          dsimp only
          exact ⟨fun _ _ => trivial, fun _ => ⟨_, _, rfl, hobs.handleVoteResponse _ _ _⟩⟩
      | malformed =>
          dsimp only
          exact ⟨fun _ _ => trivial, fun _ => ⟨_, _, rfl, hobs⟩⟩
      | appendResponse success last =>
          have hstep : (∃ e' out, (some ((e.observeTerm m.term).handleAppendResponse env m.term m.senderId success last,
              (none : Option RaftRPC)) = some (e', out)) ∧ PositionsInLog e') ↔
              PositionsInLog ((e.observeTerm m.term).handleAppendResponse env m.term m.senderId success last) := by
            refine ⟨fun ⟨e', out, h, hin⟩ => ?_, fun h => ⟨_, _, rfl, h⟩⟩
            cases h
            exact hin
          dsimp only
          rw [hstep, hobs.handleAppendResponse_iff]
          cases success with
          | false => exact ⟨fun _ _ => trivial, fun _ h => (by cases h)⟩
          | true =>
              -- who counts the response led its term before, so observing the term changed nothing
              constructor
              · intro h _ hl ht
                have hself : e.observeTerm m.term = e := observeTerm_of_le (UInt64.le_of_eq ht)
                rw [hself] at h
                exact h rfl hl ht
              · intro h _ hl ht
                have hself := observeTerm_eq_self_of_leader hl
                rw [hself] at hl ht ⊢
                exact h rfl hl ht

/-- No message moves the snapshot. -/
theorem lastSnapshotIndex_handleRpc {m : RaftRPC} {out : Option RaftRPC} (h : e.handleRpc env m = some (e', out)) :
    e'.lastSnapshotIndex = e.lastSnapshotIndex := by
  obtain ⟨cmds, hw, -⟩ := wrote_handleRpc h
  rw [hw.lastSnapshotIndex]
  show (NodeOp.cut env e (.call (.rpc m))).lastSnapshotIndex = e.lastSnapshotIndex
  rcases NodeOp.cut_cases env e (.call (.rpc m)) with hcut | ⟨keep, hcut⟩
  · rw [hcut]
  · rw [hcut]
    rfl

/-- The same for what the next calls do. -/
theorem PositionsInLog.rpc_access_iff (hi : PositionsInLog e) (env : Env) (m : RaftRPC) :
    (∃ e' out, e.handleRpc env m = some (e', out) ∧ AccessInLog env e') ↔ e.RpcStaysInLog env m := by
  rw [← hi.handleRpc_iff env m]
  constructor
  · rintro ⟨e', out, h, haccess⟩
    obtain ⟨hnext, hcommit⟩ := (accessInLog_iff env e').mp haccess
    refine ⟨e', out, h, hnext, hcommit, ?_⟩
    rw [lastSnapshotIndex_handleRpc h]
    exact hi.snapshot
  · rintro ⟨e', out, h, hin⟩
    exact ⟨e', out, h, hin.access env⟩

/-! ## Snapshots and restarts -/

/-- The entries `save_current_snapshot` drops, with a storage: those up to the last applied one. -/
def droppedBySnapshot (e : RaftEngine) : Nat :=
  if e.storage.isSome ∧ 0 ≤ e.lastApplied ∧ (e.getEntry e.lastApplied.toNat).isSome then
    (e.lastApplied - e.lastSnapshotIndex).toNat
  else 0

/-- What a leader keeps of its log is at least what its peers' records count. -/
def SnapshotStaysInLog (e : RaftEngine) : Prop :=
  e.state = .leader → ∀ p ∈ e.peers, ∀ next ∈ e.nextIndex.lookup p, next ≤ e.log.length - e.droppedBySnapshot

instance (e : RaftEngine) : Decidable e.SnapshotStaysInLog :=
  inferInstanceAs (Decidable (_ → ∀ p ∈ e.peers, ∀ next ∈ e.nextIndex.lookup p, _))

/-- Where nothing is read behind the last snapshot, nothing is dropped. -/
theorem droppedBySnapshot_of_getEntry (h : e.getEntry e.lastApplied.toNat = none) : e.droppedBySnapshot = 0 := by
  unfold droppedBySnapshot
  rw [if_neg]
  rintro ⟨-, -, hsome⟩
  rw [h] at hsome
  cases hsome

/-- **What a snapshot changes** of the positions: the log is cut, and the snapshot index is a position. -/
theorem saveCurrentSnapshot_keeps (e : RaftEngine) (data : String) (hsnap : -1 ≤ e.lastSnapshotIndex) :
    (e.saveCurrentSnapshot data).log = e.log.drop e.droppedBySnapshot ∧
      (e.saveCurrentSnapshot data).peers = e.peers ∧ (e.saveCurrentSnapshot data).nextIndex = e.nextIndex ∧
      (e.saveCurrentSnapshot data).commitIndex = e.commitIndex ∧ (e.saveCurrentSnapshot data).state = e.state ∧
      -1 ≤ (e.saveCurrentSnapshot data).lastSnapshotIndex := by
  have hsame : e.droppedBySnapshot = 0 → e.log = e.log.drop e.droppedBySnapshot ∧ e.peers = e.peers ∧
      e.nextIndex = e.nextIndex ∧ e.commitIndex = e.commitIndex ∧ e.state = e.state ∧ -1 ≤ e.lastSnapshotIndex :=
    fun h => ⟨by rw [h, List.drop_zero], rfl, rfl, rfl, rfl, hsnap⟩
  unfold saveCurrentSnapshot
  split
  · rename_i hlow
    refine hsame (if_neg ?_)
    rintro ⟨-, h, -⟩
    omega
  · rename_i hlow
    dsimp only
    split
    · rename_i term cum pos s hincl hst
      refine ⟨?_, rfl, rfl, rfl, rfl, by dsimp only; omega⟩
      split at hincl
      · -- the index of the last snapshot again: nothing to drop
        rename_i hidx
        have hnone : e.getEntry e.lastApplied.toNat = none := if_pos (Int.le_of_eq hidx)
        rw [droppedBySnapshot_of_getEntry hnone, List.drop_zero]
        exact if_neg (by omega)
      · obtain ⟨x, hx, -⟩ := Option.map_eq_some_iff.mp hincl
        have hdropped : e.droppedBySnapshot = (e.lastApplied - e.lastSnapshotIndex).toNat :=
          if_pos ⟨by rw [hst]; rfl, by omega, by rw [hx]; rfl⟩
        unfold getEntry at hx
        split at hx
        · cases hx
        · obtain ⟨hlt, -⟩ := List.getElem?_eq_some_iff.mp hx
          rw [hdropped]
          dsimp only
          rw [if_pos (by omega)]
          congr 1
          omega
    · -- nothing is written: there is no storage, or no entry to take the snapshot at
      rename_i hnot
      refine hsame ?_
      cases hst : e.storage with
      | none =>
          refine if_neg ?_
          rintro ⟨h, -⟩
          rw [hst] at h
          cases h
      | some s =>
          cases hentry : e.getEntry e.lastApplied.toNat with
          | none => exact droppedBySnapshot_of_getEntry hentry
          | some x =>
              by_cases hidx : (e.lastApplied.toNat : Int) = e.lastSnapshotIndex
              · exact absurd hst (hnot _ _ _ s (if_pos hidx))
              · refine absurd hst (hnot x.term x.cumulativeHash x.poseidonHash s ?_)
                rw [if_neg hidx, hentry]
                rfl

/-- **A snapshot stays in the log exactly when it keeps what the peers' records count.** -/
theorem PositionsInLog.saveCurrentSnapshot_iff (hi : PositionsInLog e) (data : String) :
    PositionsInLog (e.saveCurrentSnapshot data) ↔ e.SnapshotStaysInLog := by
  obtain ⟨hlog, hpeers, hnext, hcommit, hstate, hsnap⟩ := saveCurrentSnapshot_keeps e data hi.snapshot
  have hwithin : (e.saveCurrentSnapshot data).NextWithin (e.saveCurrentSnapshot data).peers ↔
      ∀ p ∈ e.peers, ∀ next ∈ e.nextIndex.lookup p, next ≤ e.log.length - e.droppedBySnapshot := by
    unfold NextWithin
    rw [hlog, hpeers, hnext, List.length_drop]
  constructor
  · intro h hl
    exact hwithin.mp (h.next (hstate.trans hl))
  · intro h
    refine ⟨fun hl => hwithin.mpr (h (hstate.symm.trans hl)), ?_, hsnap⟩
    rw [hcommit]
    exact hi.commit

/-- A new engine, on whatever its directory holds. -/
theorem positionsInLog_new (env : Env) (nodeId : String) (peers : List String) (key : String)
    (storage : Option RaftStorage) (machine : Option (List (Nat × String))) :
    PositionsInLog (new env nodeId peers key storage machine) := by
  unfold new
  cases storage with
  | none => exact ⟨fun h => (by cases h), Int.le_refl _, Int.le_refl _⟩
  | some s =>
      unfold boot
      dsimp only
      split
      · exact ⟨fun h => (by cases h), Int.le_refl _, Int.le_refl _⟩
      · exact ⟨fun h => (by cases h), (by dsimp only; omega), (by dsimp only; omega)⟩

end RaftEngine

/-! ## Runs -/

open RaftEngine

/-- An engine as `new` makes it, on no directory or on one whose snapshot index is an `i64`. -/
def BuiltByNew (env : Env) (e : RaftEngine) : Prop :=
  ∃ nodeId peers key storage machine,
    (∀ s ∈ storage, ∀ snap ∈ RaftStorage.snapshotFile s, snap.lastIncludedIndex < 2 ^ 63) ∧
      e = RaftEngine.new env nodeId peers key storage machine

/-- The guard: the message stays in the log, or the snapshot does; every other call is free. Proposals only lengthen
the log, and a tick of a candidate starts from records that it sets itself. -/
def StaysInLog (env : Env) (op : NodeOp) (s : StoredNode) : Prop :=
  match op with
  | .call (.rpc m) => s.engine.RpcStaysInLog env m
  | .saveSnapshot _ => s.engine.SnapshotStaysInLog
  | _ => True

instance (env : Env) : ∀ op s, Decidable (StaysInLog env op s)
  | .call (.rpc m), s => inferInstanceAs (Decidable (s.engine.RpcStaysInLog env m))
  | .saveSnapshot _, s => inferInstanceAs (Decidable s.engine.SnapshotStaysInLog)
  | .call (.tick _), _ => inferInstanceAs (Decidable True)
  | .call (.propose _ _), _ => inferInstanceAs (Decidable True)
  | .startElection, _ => inferInstanceAs (Decidable True)
  | .sendHeartbeats, _ => inferInstanceAs (Decidable True)
  | .advanceAppliedIndex, _ => inferInstanceAs (Decidable True)
  | .registerPeerKey _ _, _ => inferInstanceAs (Decidable True)
  | .work, _ => inferInstanceAs (Decidable True)
  | .restart _ _ _, _ => inferInstanceAs (Decidable True)

/-- **The step lemma.** -/
theorem positionsInLog_step {env : Env} {s s' : StoredNode} {op : NodeOp} (hi : PositionsInLog s.engine)
    (hok : StaysInLog env op s) (h : s.stepBy env op = some s') : PositionsInLog s'.engine := by
  cases op with
  | call op =>
      obtain ⟨⟨e', outs⟩, hcall, rfl⟩ := Option.map_eq_some_iff.mp h
      show PositionsInLog e'
      cases op with
      | tick elapsed => exact hi.handleTick hcall
      | propose data zkProof =>
          cases hcall
          exact hi.propose env data zkProof
      | rpc m =>
          obtain ⟨⟨f, out⟩, hrpc, heq⟩ := Option.map_eq_some_iff.mp hcall
          cases heq
          obtain ⟨f', out', hrpc', hin⟩ := (hi.handleRpc_iff env m).mpr hok
          rw [hrpc] at hrpc'
          cases hrpc'
          exact hin
  | startElection =>
      obtain ⟨⟨e', outs⟩, hcall, rfl⟩ := Option.map_eq_some_iff.mp h
      exact hi.startElection hcall
  | sendHeartbeats =>
      obtain ⟨⟨e', outs⟩, hcall, rfl⟩ := Option.map_eq_some_iff.mp h
      obtain ⟨rfl, -⟩ := wrote_sendHeartbeats hcall
      exact hi
  | advanceAppliedIndex =>
      cases h
      exact hi.of_same (.advanceAppliedIndex env _)
  | registerPeerKey nodeId publicKey =>
      cases h
      exact hi.of_same ⟨rfl, rfl, rfl, rfl, rfl, id⟩
  | saveSnapshot data =>
      cases h
      exact (hi.saveCurrentSnapshot_iff data).mpr hok
  | work =>
      obtain ⟨st, -, rfl⟩ := Option.map_eq_some_iff.mp h
      exact hi.of_same ⟨rfl, rfl, rfl, rfl, rfl, id⟩
  | restart peers privateKey machine =>
      cases h
      exact positionsInLog_new env _ peers privateKey _ machine

/-- **The run lemma.** -/
theorem positionsInLog_of_run {env : Env} {h : List StoredNode}
    (hr : (storedNode env (BuiltByNew env)).Run (StaysInLog env) h) : ∀ s ∈ h, PositionsInLog s.engine := by
  refine hr.forall_mem ?_ fun s op s' hs hok hstep => positionsInLog_step hs hok hstep
  rintro s ⟨⟨nodeId, peers, key, storage, machine, -, heq⟩, -⟩
  rw [heq]
  exact positionsInLog_new env nodeId peers key storage machine

/-- **Log access.** In every run of calls that stay in the log, restarts and snapshots included, every state ticks,
sends its heartbeats as a leader and scans for a commit inside its log, and another role sends heartbeats where no
peer's record is past the end; and from it exactly the messages of `RpcStaysInLog` are handled inside the log and leave
a state that does so. -/
theorem raft_log_access_of_run (env : Env) (h : List StoredNode)
    (hr : (storedNode env (BuiltByNew env)).Run (StaysInLog env) h) : ∀ s ∈ h, AccessInLog env s.engine ∧
      ((s.engine.sendHeartbeats env).isSome ↔ s.engine.NextWithin s.engine.peers) ∧
      ∀ m, (∃ e' out, s.engine.handleRpc env m = some (e', out) ∧ AccessInLog env e') ↔
        s.engine.RpcStaysInLog env m := by
  intro s hs
  have hi := positionsInLog_of_run hr s hs
  exact ⟨hi.access env, sendHeartbeats_isSome_iff env s.engine, fun m => hi.rpc_access_iff env m⟩

/-- `a` with the one peer `b`, whose key it knows, before anything has happened. -/
def pairNode : StoredNode := { engine := pairStart, sent := [], pruned := [] }

/-- It is a start of the runs. -/
theorem pairNode_init : (storedNode scriptEnv (BuiltByNew scriptEnv)).init pairNode :=
  ⟨⟨"a", ["b"], "", none, none, (by intro s hs; cases hs), rfl⟩, rfl, rfl⟩

/-- A message of `b` in term 1, to a node. -/
def sentByB (payload : RpcPayload) (s : StoredNode) : NodeOp := .call (fromB payload s.engine)

/-- `a` is elected by `b`, appends an entry, and `b` acknowledges it. -/
theorem raft_log_access_of_run_acknowledged : ∃ h, (storedNode scriptEnv (BuiltByNew scriptEnv)).Run
    (StaysInLog scriptEnv) h ∧
    (∃ s ∈ h, s.engine.state = .leader ∧ s.engine.commitIndex = 0 ∧ s.engine.nextIndex.lookup "b" = some 1) ∧
    ∀ s ∈ h, AccessInLog scriptEnv s.engine := by
  obtain ⟨s, past, hr, hend⟩ := System.exists_run_of_play (StaysInLog scriptEnv)
    (M := storedNode scriptEnv (BuiltByNew scriptEnv)) (P := fun s _ => s.engine.state = .leader ∧
      s.engine.commitIndex = 0 ∧ s.engine.nextIndex.lookup "b" = some 1)
    pairNode_init [fun _ => .registerPeerKey "b" "key", fun _ => .call (.tick true), sentByB (.voteResponse true),
      fun _ => .call (.propose "TARGET:1" []), sentByB (.appendResponse true 0), fun _ => .call (.tick true)]
    (by decide +kernel)
  exact ⟨_, hr, ⟨s, List.mem_cons_self, hend⟩, fun t ht => (raft_log_access_of_run scriptEnv _ hr t ht).1⟩

/-- **An acknowledgement past the end stops the leader.** `a` has just been elected on an empty log; `b` acknowledges
index 5, and the heartbeat slices from 6. -/
theorem acknowledged_past_log : ¬ ∀ (env : Env) (h : List StoredNode),
    (storedNode env (BuiltByNew env)).Run (fun _ _ => True) h → ∀ s ∈ h, AccessInLog env s.engine ∧
      ∀ m, m.payload ≠ .malformed → s.engine.badSignature env m = false →
        ∃ e' out, s.engine.handleRpc env m = some (e', out) ∧ AccessInLog env e' := by
  intro hall
  obtain ⟨s, past, hr, hl, hsend⟩ := System.exists_run_of_play (fun _ _ => True)
    (M := storedNode scriptEnv (BuiltByNew scriptEnv)) (P := fun s _ => s.engine.state = .leader ∧
      (s.engine.sendHeartbeats scriptEnv).isSome = false)
    pairNode_init [fun _ => .registerPeerKey "b" "key", fun _ => .call (.tick true), sentByB (.voteResponse true),
      sentByB (.appendResponse true 5)]
    (by decide +kernel)
  have haccess := (hall scriptEnv _ hr s List.mem_cons_self).1
  rw [haccess.heartbeats hl] at hsend
  cases hsend

end WarmLogic.Consensus
