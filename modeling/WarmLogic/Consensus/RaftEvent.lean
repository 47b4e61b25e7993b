/-
# WarmLogic.Consensus.RaftEvent — everything one call can do to a node that keeps its peers.

The safety proofs never open the handlers. They case on `Event`, which lists the outcomes of `handle_tick`,
`handle_rpc`, `propose` and of a snapshot that prunes nothing: the new engine as an update of the old one, the
guards passed on the way, and the messages sent. A reconfiguration may be proposed, stored, sent and pending in
all of them; what no outcome covers is the moment its list is installed (`InstallsNothing` names the messages
without that moment). While a list is pending a quorum needs BOTH lists, so a quorum is always one of the list in
force, and that is all the safety arguments ask of it. The fields no protocol argument reads (leader hint, next
indices, storage, texts) are left open in each outcome.

How to read the outcomes: each constructor of `Event` gives the engine afterwards as an update of the engine before,
so that a fact about a field is read off by `rfl` wherever the update does not name it. Guards are stated on the
engine as it was when they were tested, and terms as numbers where an overflow has to be excluded: `campaign` needs
the next term to exist, or the call would have panicked.

A message is first observed (`Observed`): a higher term makes a voteless follower of any node, and only then does the
handler of the payload run. The outcomes of a message therefore speak of the term, the state and the vote after that
observation, which are the old ones or those of the new follower.

`InstallsNothing` asks of an AppendEntries and of an acknowledgement that the commit index does not pass a `CONF:`
entry with a list pending. It is computed from the message and the engine before it, and it is what the theorems about
a fixed membership ask of every delivered message; a message that is refused passes without a condition.
-/
import WarmLogic.Consensus.Raft

namespace WarmLogic.Consensus

/-! ## Reconfiguration-free lists -/

/-- No entry is a `CONF:` entry. -/
def NoConf (es : List LogEntry) : Prop := ∀ x ∈ es, isConf x.data = false

/-- The message transports no `CONF:` entry. -/
def RaftRPC.ConfFree (m : RaftRPC) : Prop :=
  ∀ prev pt ph pp es lc, m.payload = .appendEntries prev pt ph pp (some es) lc → NoConf es

/-- What is no CONF: entry has no peers. -/
theorem confPeers_eq_none {data : String} (h : isConf data = false) : confPeers data = none := by
  unfold isConf at h
  unfold confPeers
  cases hs : stripPrefix "CONF:" data with
  | none => rfl
  | some s =>
      rw [hs] at h
      cases h

namespace RaftEngine

variable {env : Env} {e : RaftEngine}

/-- Entries without one leave what is pending. -/
theorem pendingAfter_of_noConf (pending : Option (List String)) {es : List LogEntry} (h : NoConf es) :
    pendingAfter pending es = pending := by
  unfold pendingAfter
  induction es with
  | nil => rfl
  | cons x es ih =>
      rw [List.foldl_cons, confPeers_eq_none (h x List.mem_cons_self)]
      exact ih fun y hy => h y (List.mem_cons_of_mem _ hy)

/-! ## Installing the pending list -/

/-- Passing the index installs the pending list: there is one, and the entry there is a `CONF:` entry. Whether it is
the entry that the pending list came from is not asked. -/
def Finalizes (e : RaftEngine) (index : Nat) : Prop :=
  e.pendingPeers.isSome ∧ ∃ x ∈ e.getEntry index, isConf x.data = true

instance (e : RaftEngine) (index : Nat) : Decidable (e.Finalizes index) :=
  inferInstanceAs (Decidable (_ ∧ _))

/-- Committing them installs nothing. -/
theorem finalizeAt_of_not_finalizes {i : Nat} (h : ¬ e.Finalizes i) : e.finalizeAt i = e := by
  unfold finalizeAt
  split
  · rfl
  · rename_i x hx
    split
    · rename_i hconf
      split
      · rfl
      · rename_i pending hpend
        exact absurd ⟨by rw [hpend]; rfl, x, hx, hconf⟩ h
    · rfl

/-- Nothing pending, nothing to install. -/
theorem not_finalizes_of_pending_none (h : e.pendingPeers = none) (i : Nat) : ¬ e.Finalizes i := by
  rintro ⟨hsome, -⟩
  rw [h] at hsome
  cases hsome

/-- So the node stays as it is. -/
theorem finalizeAt_of_pending_none (h : e.pendingPeers = none) (i : Nat) : e.finalizeAt i = e :=
  finalizeAt_of_not_finalizes (not_finalizes_of_pending_none h i)

/-- The log after entries were accepted behind `prev`. -/
def storedLog (log : List LogEntry) (prev : Int) (entries : List LogEntry) : List LogEntry :=
  if entries.isEmpty then log
  else (if (log.length : Int) > prev + 1 then log.take (prev + 1).toNat else log) ++ entries

/-- The node once it has stored the entries, its storage aside. -/
def stored (e : RaftEngine) (prev : Int) (entries : List LogEntry) : RaftEngine :=
  { e with log := storedLog e.log prev entries, pendingPeers := pendingAfter e.pendingPeers entries }

/-- No index up to the leader's commit index installs a list. -/
def FollowsQuietly (e : RaftEngine) (leaderCommit : Int) : Prop :=
  ∀ i < (leaderCommit - e.commitIndex).toNat, ¬ e.Finalizes (e.commitIndex + 1 + i).toNat

instance (e : RaftEngine) (leaderCommit : Int) : Decidable (e.FollowsQuietly leaderCommit) :=
  inferInstanceAs (Decidable (∀ i < _, _))

/-- The leader after it recorded an acknowledgement. -/
def acknowledged (e : RaftEngine) (senderId : String) (lastLogIndex : Int) : RaftEngine :=
  { e with
    nextIndex := e.nextIndex.insert senderId (toUsize (lastLogIndex + 1))
    matchIndex := e.matchIndex.insert senderId lastLogIndex }

/-- An uncommitted position of the current term that a quorum holds. -/
def Committable (e : RaftEngine) (n : Nat) : Prop :=
  e.commitIndex < n ∧ e.log[n]?.map (·.term) = some e.currentTerm ∧ e.hasCommittedAt n

instance (e : RaftEngine) (n : Nat) : Decidable (e.Committable n) :=
  inferInstanceAs (Decidable (_ ∧ _ ∧ _))

/-- The highest position a quorum holds installs no list. -/
def CommitsQuietly (e : RaftEngine) : Prop :=
  ∀ n < e.log.length, e.Committable n → (∀ k < e.log.length, n < k → ¬ e.Committable k) → ¬ e.Finalizes n

instance (e : RaftEngine) : Decidable e.CommitsQuietly :=
  inferInstanceAs (Decidable (∀ n < e.log.length, _ → (∀ k < e.log.length, _ → _) → _))

/-- **The messages that install no list**, by their payload; one that is refused installs none. -/
def InstallsNothing (env : Env) (e : RaftEngine) (term : UInt64) (senderId : String) : RpcPayload → Prop
  | .appendEntries prevLogIndex prevLogTerm _ _ (some entries) leaderCommit =>
      e.currentTerm ≤ term → prevMatches e.log prevLogIndex prevLogTerm = some true →
      (entries = [] ∨ verifyChain env (prevLogIndex + 1).toNat (e.chainStart prevLogIndex).1
        (e.chainStart prevLogIndex).2 entries = true) →
      (e.stored prevLogIndex entries).FollowsQuietly leaderCommit
  | .appendResponse true lastLogIndex =>
      e.state = .leader → term = e.currentTerm → (e.acknowledged senderId lastLogIndex).CommitsQuietly
  | _ => True

instance (env : Env) (e : RaftEngine) (term : UInt64) (senderId : String) :
    ∀ p, Decidable (InstallsNothing env e term senderId p)
  | .appendEntries _ _ _ _ (some _) _ => inferInstanceAs (Decidable (_ → _ → (_ ∨ _) → _))
  | .appendResponse true _ => inferInstanceAs (Decidable (_ → _ → _))
  | .appendEntries _ _ _ _ none _ => inferInstanceAs (Decidable True)
  | .appendResponse false _ => inferInstanceAs (Decidable True)
  | .requestVote .. => inferInstanceAs (Decidable True)
  | .voteResponse _ => inferInstanceAs (Decidable True)
  | .malformed => inferInstanceAs (Decidable True)

/-- Without a pending list, and without a `CONF:` entry in the message, nothing can be installed. -/
theorem installsNothing_of_confFree {rpc : RaftRPC} (hpend : e.pendingPeers = none) (hconf : rpc.ConfFree) :
    e.InstallsNothing env rpc.term rpc.senderId rpc.payload := by
  cases hp : rpc.payload with
  | appendEntries prev pt ph pp entries lc =>
      cases entries with
      | none => trivial
      | some es =>
          intro _ _ _ i _
          apply not_finalizes_of_pending_none
          rw [stored, pendingAfter_of_noConf _ (hconf prev pt ph pp es lc hp)]
          exact hpend
  | appendResponse success i =>
      cases success with
      | false => trivial
      | true => exact fun _ _ n _ _ _ => not_finalizes_of_pending_none hpend n
  | requestVote i t => trivial
  | voteResponse granted => trivial
  | malformed => trivial

/-- The last applied entry is still in the log, so that a snapshot prunes it. -/
def Prunes (e : RaftEngine) : Prop :=
  0 ≤ e.lastApplied ∧ (e.getEntry e.lastApplied.toNat).isSome

instance (e : RaftEngine) : Decidable e.Prunes :=
  inferInstanceAs (Decidable (0 ≤ e.lastApplied ∧ (e.getEntry e.lastApplied.toNat).isSome))

/-- A snapshot that prunes nothing, or has nowhere to go, changes texts on disk and in memory only. -/
theorem saveCurrentSnapshot_eq (h : ¬ e.Prunes ∨ e.storage = none) (data : String) :
    ∃ d st, e.saveCurrentSnapshot data = { e with stateMachineData := d, storage := st } := by
  unfold saveCurrentSnapshot
  split
  · exact ⟨_, _, rfl⟩
  · rename_i hneg
    dsimp only
    split
    · rename_i term cumHash posHash s hincl hst
      split at hincl
      · -- the entry is the last one of the present snapshot: nothing is cut, nothing renamed
        rename_i hidx
        cases hincl
        rw [hidx, Int.sub_self, if_neg (by omega)]
        exact ⟨_, _, rfl⟩
      · rcases h with hno | hnone
        · have hsome : (e.getEntry e.lastApplied.toNat).isSome := by
            obtain ⟨x, hx, -⟩ := Option.map_eq_some_iff.mp hincl
            rw [hx]
            rfl
          exact absurd ⟨by omega, hsome⟩ hno
        · rw [hnone] at hst
          cases hst
    · exact ⟨_, _, rfl⟩

/-! ## Commit and apply, where no list is installed -/

/-- The commit index `follow_commit` arrives at. -/
def followIndex (commit leaderCommit : Int) (log : List LogEntry) (snapshotIndex : Int) : Int :=
  if leaderCommit > commit then min leaderCommit ((log.length : Int) - 1 + snapshotIndex + 1) else commit

/-- A finalising loop over indices that install nothing is the identity. -/
theorem finalizeLoop_of_not_finalizes (f : Nat → Nat) (is : List Nat) (h : ∀ i ∈ is, ¬ e.Finalizes (f i)) :
    is.foldl (fun acc (i : Nat) => acc.finalizeAt (f i)) e = e := by
  induction is with
  | nil => rfl
  | cons i is ih =>
      rw [List.foldl_cons, finalizeAt_of_not_finalizes (h i List.mem_cons_self)]
      exact ih fun j hj => h j (List.mem_cons_of_mem _ hj)

/-- Following a commit that installs nothing moves the commit index alone. -/
theorem followCommit_eq {lc : Int} (h : e.FollowsQuietly lc) :
    e.followCommit lc
      = { e with commitIndex := followIndex e.commitIndex lc e.log e.lastSnapshotIndex } := by
  unfold followCommit followIndex
  split
  · refine finalizeLoop_of_not_finalizes (fun i => (e.commitIndex + 1 + i).toNat) _ ?_
    intro i hi
    -- the own log bounds the loop further than the leader's commit index does
    have hlt : i < (lc - e.commitIndex).toNat := by
      have := List.mem_range.mp hi
      omega
    exact h i hlt
  · rfl

/-- **What the commit scan finds**: a position past the commit index, inside the log, of the current term,
that a quorum is known to hold. -/
theorem commitScan_eq_some {k n : Nat} (h : e.commitScan k = some n) :
    e.commitIndex < n ∧ n < k ∧ e.log[n]?.map (·.term) = some e.currentTerm ∧ e.hasCommittedAt n := by
  induction k with
  | zero => cases h
  | succ k ih =>
      unfold commitScan at h
      split at h
      · cases h
      · rename_i hc
        split at h
        · rename_i hfound
          cases h
          exact ⟨by omega, by omega, hfound.1, hfound.2⟩
        · obtain ⟨h1, h2, h3⟩ := ih h
          exact ⟨h1, by omega, h3⟩

/-- The scan stops at the highest position it accepts. -/
theorem not_committable_of_commitScan {k n : Nat} (h : e.commitScan k = some n) :
    ∀ j < k, n < j → ¬ e.Committable j := by
  induction k with
  | zero => cases h
  | succ k ih =>
      intro j hj hnj hcom
      unfold commitScan at h
      split at h
      · cases h
      · split at h
        · cases h
          omega
        · rename_i hrefused
          rcases Nat.lt_succ_iff_lt_or_eq.mp hj with hj | rfl
          · exact ih h j hj hnj hcom
          · exact hrefused hcom.2

/-- So does committing as leader. -/
theorem updateCommitIndex_eq (h : e.CommitsQuietly) :
    e.updateCommitIndex
      = { e with commitIndex := ((e.commitScan e.log.length).map Int.ofNat).getD e.commitIndex } := by
  unfold updateCommitIndex
  cases hs : e.commitScan e.log.length with
  | none => rfl
  | some n =>
      obtain ⟨hlt, hlen, hterm, hquorum⟩ := commitScan_eq_some hs
      have hquiet := h n hlen ⟨hlt, hterm, hquorum⟩ (not_committable_of_commitScan hs)
      exact finalizeAt_of_not_finalizes (e := { e with commitIndex := n }) hquiet

/-- The calls made so far. -/
def calls (e : RaftEngine) : List (Nat × String) := e.stateMachine.getD []

/-- What the apply loop reaches from `e`: the applied index, and calls that are old or for an entry of the log behind
the old applied index and up to the new one. An index whose entry is not there is counted as applied all the same. -/
structure Applied (e : RaftEngine) (applied : Int) (machine : Option (List (Nat × String))) : Prop where
  le : e.lastApplied ≤ applied
  old : ∀ c ∈ e.calls, c ∈ machine.getD []
  new : ∀ c ∈ machine.getD [], c ∈ e.calls ∨
    ∃ i : Int, e.lastApplied < i ∧ i ≤ applied ∧ c.1 = i.toNat ∧
      ∃ x, e.getEntry c.1 = some x ∧ x.data = c.2

/-- Applying an entry changes the state machine alone. -/
theorem applyNext_eq (env : Env) (e : RaftEngine) :
    ∃ m d, applyNext env e
      = { e with lastApplied := e.lastApplied + 1, stateMachine := m, stateMachineData := d } ∧
        Applied e (e.lastApplied + 1) m := by
  unfold applyNext
  dsimp only
  split
  · exact ⟨_, _, rfl, by omega, fun c hc => hc, fun c hc => .inl hc⟩
  · rename_i entry hentry
    split
    · rename_i cs hcs
      refine ⟨_, _, rfl, by omega, ?_, ?_⟩
      · intro c hc
        rw [calls, hcs] at hc
        exact List.mem_append_left _ hc
      · intro c hc
        rcases List.mem_append.mp hc with hc | hc
        · left
          rw [calls, hcs]
          exact hc
        · right
          rw [List.mem_singleton] at hc
          subst hc
          exact ⟨e.lastApplied + 1, by omega, le_refl _, rfl, entry, hentry, rfl⟩
    · rename_i hnone
      exact ⟨none, entry.data, by rw [hnone], by omega, fun c hc => by rw [calls, hnone] at hc; exact hc,
        fun c hc => by cases hc⟩

/-- So does applying several. -/
theorem applyLoop_eq (env : Env) (n : Nat) (e : RaftEngine) :
    ∃ m d, applyLoop env n e
      = { e with lastApplied := e.lastApplied + n, stateMachine := m, stateMachineData := d } ∧
        Applied e (e.lastApplied + n) m := by
  induction n generalizing e with
  | zero =>
      refine ⟨e.stateMachine, e.stateMachineData, ?_, by simp, fun c hc => hc, fun c hc => .inl hc⟩
      simp [applyLoop]
  | succ n ih =>
      obtain ⟨m, d, h1, hle, hold, hnew⟩ := applyNext_eq env e
      obtain ⟨m', d', h2, hle', hold', hnew'⟩ := ih (applyNext env e)
      rw [h1] at h2 hle' hold' hnew'
      dsimp only at h2 hle' hold' hnew'
      have hn : e.lastApplied + 1 + (n : Int) = e.lastApplied + ((n + 1 : Nat) : Int) := by
        push_cast; ring
      rw [hn] at h2 hle' hnew'
      refine ⟨m', d', ?_, by omega, fun c hc => hold' c (hold c hc), ?_⟩
      · rw [applyLoop, h1]
        exact h2
      · intro c hc
        rcases hnew' c hc with hc | ⟨i, hi, hi', hrest⟩
        · rcases hnew c hc with hc | ⟨i, hi, hi', hrest⟩
          · exact .inl hc
          · exact .inr ⟨i, hi, by push_cast; omega, hrest⟩
        · exact .inr ⟨i, by omega, hi', hrest⟩

/-- And applying up to the commit index. -/
theorem advanceAppliedIndex_eq (env : Env) (e : RaftEngine) :
    ∃ m d, advanceAppliedIndex env e
      = { e with
          lastApplied := max e.lastApplied e.commitIndex, stateMachine := m, stateMachineData := d } ∧
        Applied e (max e.lastApplied e.commitIndex) m := by
  have h := applyLoop_eq env (e.commitIndex - e.lastApplied).toNat e
  have hn : e.lastApplied + ((e.commitIndex - e.lastApplied).toNat : Int)
      = max e.lastApplied e.commitIndex := by omega
  rwa [hn] at h

/-! ## The outcomes of a call -/

/-- The consistency check panics below -1 and nowhere else. -/
theorem prevMatches_eq_none {log : List LogEntry} {prev : Int} {term : UInt64} :
    prevMatches log prev term = none ↔ prev < -1 := by
  unfold prevMatches
  split
  · rename_i h
    exact ⟨fun h => absurd h (by simp), fun hlt => by omega⟩
  · split
    · split
      · exact ⟨fun _ => by omega, fun _ => rfl⟩
      · exact ⟨fun h => absurd h (by simp), fun hlt => by omega⟩
    · exact ⟨fun h => absurd h (by simp), fun hlt => by omega⟩

/-- What a node is after it observed the term `t` of a message: the same, or a voteless follower of the higher term. A
leader that sees a higher term steps down before it looks at the message. -/
inductive Observed (e : RaftEngine) (t : UInt64) : UInt64 → RaftState → Option String → Prop
  | same : t ≤ e.currentTerm → Observed e t e.currentTerm e.state e.votedFor
  | raised : e.currentTerm < t → Observed e t t .follower none

/-- Answers that grant and confirm nothing. -/
def Negative (m : RaftRPC) : Prop :=
  m.payload = .voteResponse false ∨ ∃ i, m.payload = .appendResponse false i

/-- An AppendEntries payload of the leader `e`: everything from `next` on, with the position in front. -/
def Heartbeat (e : RaftEngine) (p : RpcPayload) : Prop :=
  ∃ next ≤ e.log.length, ∃ ph pp, p = .appendEntries ((next : Int) - 1)
    (((if next = 0 then none else e.log[next - 1]?).map (·.term)).getD 0) ph pp
    (some (e.log.drop next)) e.commitIndex

/-- **Everything a call can do.** The second argument is the message received, if any; then come the new
engine and the messages sent. -/
inductive Event (env : Env) (e : RaftEngine) : Option RaftRPC → RaftEngine → List RaftRPC → Prop
  /-- Nothing: an early tick, a refused proposal, a bad signature. -/
  | idle (m : Option RaftRPC) : Event env e m e []
  | campaign {st : Option RaftStorage} {outs : List RaftRPC} :
      e.state ≠ .leader → e.currentTerm.toNat + 1 < 2 ^ 64 →
      (∀ m ∈ outs, m.term = e.currentTerm + 1 ∧ m.senderId = e.nodeId ∧
        m.payload = .requestVote e.lastLogIndex e.lastLogTerm) →
      Event env e none { e with
        state := .candidate, currentTerm := e.currentTerm + 1, votedFor := some e.nodeId,
        votesReceived := {e.nodeId}, storage := st } outs
  /-- A node without peers elects itself at once. -/
  | solo {st : Option RaftStorage} {l : Option String} :
      e.state ≠ .leader → e.currentTerm.toNat + 1 < 2 ^ 64 → e.peers = [] →
      Event env e none { e with
        state := .leader, currentTerm := e.currentTerm + 1, votedFor := some e.nodeId,
        votesReceived := {e.nodeId}, storage := st, leaderId := l } []
  | heartbeat {outs : List RaftRPC} :
      e.state = .leader → (∀ m ∈ outs, ∃ p, Heartbeat e p ∧ m = e.createRpc env p none) →
      Event env e none e outs
  | propose {x : LogEntry} {st : Option RaftStorage} :
      e.state = .leader → x.term = e.currentTerm →
      Event env e none { e with
        log := e.log ++ [x], pendingPeers := pendingAfter e.pendingPeers [x], storage := st } []
  /-- A snapshot that prunes nothing. -/
  | snapshot {d : String} {st : Option RaftStorage} :
      Event env e none { e with stateMachineData := d, storage := st } []
  /-- A message that only moves the term, answered by a refusal or not at all. -/
  | observe {rpc : RaftRPC} {T : UInt64} {S : RaftState} {V : Option String} {outs : List RaftRPC}
      {l : Option String} {st : Option RaftStorage} {ni : StringMap Nat} :
      Observed e rpc.term T S V → (∀ m ∈ outs, Negative m) →
      Event env e (some rpc) { e with
        currentTerm := T, state := S, votedFor := V, leaderId := l, storage := st, nextIndex := ni } outs
  | grant {rpc : RaftRPC} {i : Int} {t : UInt64} {T : UInt64} {S : RaftState} {V : Option String}
      {l : Option String} {st : Option RaftStorage} {m : RaftRPC} :
      rpc.payload = .requestVote i t → Observed e rpc.term T S V → T = rpc.term →
      (V = none ∨ V = some rpc.senderId) →
      (e.lastLogTerm < t ∨ t = e.lastLogTerm ∧ e.lastLogIndex ≤ i) →
      m.term = T → m.senderId = e.nodeId → m.targetId = some rpc.senderId →
      m.payload = .voteResponse true →
      Event env e (some rpc) { e with
        currentTerm := T, state := S, votedFor := some rpc.senderId, leaderId := l, storage := st } [m]
  /-- An AppendEntries of the current term whose entries were not taken. -/
  | follow {rpc : RaftRPC} {T : UInt64} {S : RaftState} {V : Option String} {outs : List RaftRPC}
      {l : Option String} {st : Option RaftStorage} :
      Observed e rpc.term T S V → T = rpc.term → (∀ m ∈ outs, Negative m) →
      Event env e (some rpc) { e with
        currentTerm := T, state := .follower, votedFor := V, leaderId := l, storage := st } outs
  | accept {rpc : RaftRPC} {prev : Int} {pt : UInt64} {ph pp : String} {es : List LogEntry} {lc : Int}
      {T : UInt64} {S : RaftState} {V : Option String} {l : Option String} {st : Option RaftStorage}
      {mach : Option (List (Nat × String))} {d : String} {m : RaftRPC} {f : RaftEngine} :
      rpc.payload = .appendEntries prev pt ph pp (some es) lc →
      Observed e rpc.term T S V → T = rpc.term →
      prevMatches e.log prev pt = some true →
      f = { e with
        currentTerm := T, state := .follower, votedFor := V, leaderId := l, storage := st,
        log := storedLog e.log prev es, pendingPeers := pendingAfter e.pendingPeers es,
        commitIndex := followIndex e.commitIndex lc (storedLog e.log prev es) e.lastSnapshotIndex } →
      Applied f (max f.lastApplied f.commitIndex) mach →
      m.term = T → m.senderId = e.nodeId → m.targetId = some rpc.senderId →
      m.payload = .appendResponse true (((storedLog e.log prev es).length : Int) - 1) →
      Event env e (some rpc) { f with
        lastApplied := max f.lastApplied f.commitIndex, stateMachine := mach, stateMachineData := d } [m]
  /-- A vote that does not decide the election. -/
  | count {rpc : RaftRPC} :
      rpc.payload = .voteResponse true → e.state = .candidate → rpc.term = e.currentTerm →
      Event env e (some rpc) { e with votesReceived := insert rpc.senderId e.votesReceived } []
  | win {rpc : RaftRPC} :
      rpc.payload = .voteResponse true → e.state = .candidate → rpc.term = e.currentTerm →
      e.hasQuorum (insert rpc.senderId e.votesReceived) →
      Event env e (some rpc)
        (becomeLeader { e with votesReceived := insert rpc.senderId e.votesReceived }) []
  | ack {rpc : RaftRPC} {i : Int} {ni : StringMap Nat} {d : String}
      {mach : Option (List (Nat × String))} {f g : RaftEngine} :
      rpc.payload = .appendResponse true i → e.state = .leader → rpc.term = e.currentTerm →
      f = { e with nextIndex := ni, matchIndex := e.matchIndex.insert rpc.senderId i } →
      g = { f with
        commitIndex := ((f.commitScan f.log.length).map Int.ofNat).getD f.commitIndex } →
      Applied g (max g.lastApplied g.commitIndex) mach →
      Event env e (some rpc) { g with
        lastApplied := max g.lastApplied g.commitIndex, stateMachine := mach, stateMachineData := d } []

/-- No call but a finalised reconfiguration changes the peers. -/
theorem Event.peers_eq {e' : RaftEngine} {m : Option RaftRPC} {outs : List RaftRPC}
    (h : Event env e m e' outs) : e'.peers = e.peers := by
  cases h with
  | accept _ _ _ _ hf =>
      subst hf
      rfl
  | ack _ _ _ hf hg =>
      subst hg
      subst hf
      rfl
  | _ => rfl

/-- No event changes the id of a node. -/
theorem Event.nodeId_eq {e' : RaftEngine} {m : Option RaftRPC} {outs : List RaftRPC}
    (h : Event env e m e' outs) : e'.nodeId = e.nodeId := by
  cases h with
  | accept _ _ _ _ hf =>
      subst hf
      rfl
  | ack _ _ _ hf hg =>
      subst hg
      subst hf
      rfl
  | _ => rfl

/-! ## Every call is one of these outcomes -/

/-- A term that is seen changes term, role, vote and leader, as `Observed` says. -/
theorem observeTerm_eq (e : RaftEngine) (t : UInt64) :
    ∃ T S V l st, Observed e t T S V ∧ e.observeTerm t
      = { e with currentTerm := T, state := S, votedFor := V, leaderId := l, storage := st } := by
  unfold observeTerm
  split
  · rename_i h
    exact ⟨_, _, _, _, _, .raised h, rfl⟩
  · rename_i h
    exact ⟨_, _, _, _, _, .same (UInt64.not_lt.mp h), rfl⟩

/-- A message that is not older than the node is, once observed, of the node's own term. -/
theorem Observed.term_eq {t T : UInt64} {S : RaftState} {V : Option String} (h : Observed e t T S V)
    (hn : ¬ t < T) : T = t := by
  cases h with
  | same hle => exact UInt64.le_antisymm (UInt64.not_lt.mp hn) hle
  | raised _ => rfl

/-- It is never lowered. -/
theorem Observed.le {t T : UInt64} {S : RaftState} {V : Option String}
    (h : Observed e t T S V) : e.currentTerm ≤ T := by
  cases h with
  | same _ => exact UInt64.le_refl _
  | raised hlt => exact UInt64.le_of_lt hlt

/-- What a heartbeat carries. -/
theorem heartbeatFor_eq_some {peer : String} {p : RpcPayload} (h : e.heartbeatFor peer = some p) :
    Heartbeat e p := by
  unfold heartbeatFor at h
  dsimp only at h
  split at h
  · cases h
  · rename_i hle
    cases h
    exact ⟨_, Nat.le_of_not_lt hle, _, _, rfl⟩

/-- A result of a `mapM` is one of its function. -/
theorem exists_of_mem_mapM {α β : Type} {f : α → Option β} {l : List α} {ys : List β}
    (h : l.mapM f = some ys) {y : β} (hy : y ∈ ys) : ∃ x, f x = some y := by
  induction l generalizing ys with
  | nil =>
      rw [List.mapM_nil] at h
      cases h
      cases hy
  | cons x l ih =>
      rw [List.mapM_cons] at h
      obtain ⟨y', hy', h⟩ := Option.bind_eq_some_iff.mp h
      obtain ⟨ys', hys', h⟩ := Option.bind_eq_some_iff.mp h
      cases h
      rcases List.mem_cons.mp hy with rfl | hy
      · exact ⟨x, hy'⟩
      · exact ih hys' hy

/-- A leader's heartbeats are an event. -/
theorem sendHeartbeats_event {e' : RaftEngine} {outs : List RaftRPC} (hl : e.state = .leader)
    (h : e.sendHeartbeats env = some (e', outs)) : Event env e none e' outs := by
  obtain ⟨ps, hps, hout⟩ := Option.map_eq_some_iff.mp h
  cases hout
  apply Event.heartbeat hl
  intro m hm
  obtain ⟨p, hp, rfl⟩ := List.mem_map.mp hm
  obtain ⟨peer, hpeer⟩ := exists_of_mem_mapM hps hp
  exact ⟨p, heartbeatFor_eq_some hpeer, rfl⟩

/-- So is the election of one that is no leader. -/
theorem startElection_event {e' : RaftEngine} {outs : List RaftRPC} (hl : e.state ≠ .leader)
    (h : e.startElection env = some (e', outs)) : Event env e none e' outs := by
  unfold startElection at h
  split at h
  · cases h
  · rename_i hmax
    have hlt : e.currentTerm.toNat + 1 < 2 ^ 64 := by
      have := e.currentTerm.toNat_lt
      omega
    dsimp only at h
    split at h
    · rename_i hpeers
      have hnil : e.peers = [] := List.isEmpty_iff.mp hpeers
      cases h
      have hleader : e.candidacy.becomeLeader = { e with
          state := .leader, currentTerm := e.currentTerm + 1, votedFor := some e.nodeId,
          votesReceived := {e.nodeId}, storage := e.candidacy.storage,
          leaderId := some e.nodeId } := by
        simp [becomeLeader, candidacy, persistMetadata, hnil]
      rw [hleader]
      exact .solo hl hlt hnil
    · cases h
      apply Event.campaign hl hlt
      intro m hm
      obtain ⟨peer, -, rfl⟩ := List.mem_map.mp hm
      exact ⟨rfl, rfl, rfl⟩

/-- **A tick is an event.** -/
theorem handleTick_event {elapsed : Bool} {e' : RaftEngine} {outs : List RaftRPC}
    (h : e.handleTick env elapsed = some (e', outs)) : Event env e none e' outs := by
  unfold handleTick at h
  split at h
  · cases h
    exact .idle none
  · split at h
    · rename_i hl
      exact sendHeartbeats_event hl h
    · rename_i hl
      exact startElection_event hl h

/-- A tick adds nothing to the log. -/
theorem handleTick_log {elapsed : Bool} {e' : RaftEngine} {outs : List RaftRPC}
    (h : e.handleTick env elapsed = some (e', outs)) : e'.log = e.log := by
  unfold handleTick at h
  split at h
  · cases h
    rfl
  · split at h
    · obtain ⟨ps, -, hout⟩ := Option.map_eq_some_iff.mp h
      cases hout
      rfl
    · unfold startElection at h
      split at h
      · cases h
      · dsimp only at h
        split at h
        · cases h
          rfl
        · cases h
          rfl

/-- **A proposal is an event.** -/
theorem propose_event (e : RaftEngine) (data : String) (zkProof : List UInt8) :
    Event env e none (e.propose env data zkProof).1 [] := by
  unfold propose
  split
  · exact .idle none
  · rename_i hl
    split
    · exact .idle none
    · exact .propose (x := e.proposedEntry env data zkProof) (not_not.mp hl) rfl

/-- What a proposal adds to the log carries the proposed data. -/
theorem data_of_mem_propose (e : RaftEngine) (data : String) (zkProof : List UInt8) :
    ∀ x ∈ (e.propose env data zkProof).1.log.drop e.log.length, x.data = data := by
  unfold propose
  split
  · simp
  · split
    · simp
    · intro x hx
      have hx : x ∈ (e.log ++ [e.proposedEntry env data zkProof]).drop e.log.length := hx
      rw [List.drop_left, List.mem_singleton] at hx
      rw [hx]
      rfl

/-- **So is a snapshot that prunes nothing.** -/
theorem saveCurrentSnapshot_event (h : ¬ e.Prunes ∨ e.storage = none) (data : String) :
    Event env e none (e.saveCurrentSnapshot data) [] := by
  obtain ⟨d, st, heq⟩ := saveCurrentSnapshot_eq h data
  rw [heq]
  exact .snapshot

/-- A request for a vote, granted or refused. -/
theorem handleRequestVote_event {rpc : RaftRPC} {i : Int} {t : UInt64} {e' : RaftEngine}
    {out : Option RaftRPC} (hp : rpc.payload = .requestVote i t)
    (h : (e.observeTerm rpc.term).handleRequestVote env rpc.term rpc.senderId i t = (e', out)) :
    Event env e (some rpc) e' out.toList := by
  obtain ⟨T, S, V, l, st, ho, heq⟩ := observeTerm_eq e rpc.term
  rw [heq] at h
  unfold handleRequestVote at h
  dsimp only at h
  split at h
  · rename_i hg
    have hpayload := congrArg RpcPayload.voteResponse hg
    simp only [Bool.and_eq_true, Bool.not_eq_true', decide_eq_false_iff_not, Bool.or_eq_true,
      beq_iff_eq, decide_eq_true_eq] at hg
    obtain ⟨⟨hterm, hvote⟩, hlog⟩ := hg
    cases h
    exact .grant hp ho (ho.term_eq hterm) hvote hlog rfl rfl rfl hpayload
  · rename_i hg
    cases h
    apply Event.observe ho
    intro m hm
    left
    simp only [Option.toList_some, List.mem_singleton] at hm
    subst hm
    simp only [createRpc]
    exact congrArg RpcPayload.voteResponse (Bool.eq_false_iff.mpr hg)

/-- A refusal is negative. -/
theorem negative_appendReply (env : Env) (e : RaftEngine) (leaderId : String) :
    ∀ m ∈ (some (e.appendReply env false leaderId)).toList, Negative m := by
  intro m hm
  rw [Option.toList_some, List.mem_singleton] at hm
  subst hm
  exact .inr ⟨_, rfl⟩

/-- Storing entries changes the log, the WAL and the pending list. -/
theorem storeEntries_eq (env : Env) (e : RaftEngine) (prev : Int) (es : List LogEntry) :
    ∃ st, (if es.isEmpty then e else e.storeEntries env prev es) = { e.stored prev es with storage := st } := by
  by_cases hnil : es.isEmpty
  · rw [if_pos hnil, stored, storedLog, if_pos hnil, List.isEmpty_iff.mp hnil]
    exact ⟨e.storage, rfl⟩
  · rw [if_neg hnil, stored, storedLog, if_neg hnil, storeEntries]
    exact ⟨_, rfl⟩

/-- **The tail of an accepted AppendEntries**: store, follow the commit index, apply. -/
theorem acceptEntries_eq (env : Env) (f : RaftEngine) (prev : Int) (es : List LogEntry) {lc : Int}
    (hquiet : (f.stored prev es).FollowsQuietly lc) :
    ∃ st mach d g, g = { f with
        storage := st, log := storedLog f.log prev es, pendingPeers := pendingAfter f.pendingPeers es,
        commitIndex := followIndex f.commitIndex lc (storedLog f.log prev es) f.lastSnapshotIndex } ∧
      Applied g (max g.lastApplied g.commitIndex) mach ∧
      ((if es.isEmpty then f else f.storeEntries env prev es).followCommit lc).advanceAppliedIndex env
        = { g with
            lastApplied := max g.lastApplied g.commitIndex, stateMachine := mach,
            stateMachineData := d } := by
  obtain ⟨st, hst⟩ := storeEntries_eq env f prev es
  have hfollow := followCommit_eq (e := { f.stored prev es with storage := st }) hquiet
  obtain ⟨mach, d, hadv, happ⟩ := advanceAppliedIndex_eq env { f with
    storage := st, log := storedLog f.log prev es, pendingPeers := pendingAfter f.pendingPeers es,
    commitIndex := followIndex f.commitIndex lc (storedLog f.log prev es) f.lastSnapshotIndex }
  refine ⟨st, mach, d, _, rfl, happ, ?_⟩
  rw [hst, hfollow]
  exact hadv

/-- An append, accepted or refused. -/
theorem handleAppendEntries_event {rpc : RaftRPC} {prev : Int} {pt : UInt64} {ph pp : String}
    {entries : Option (List LogEntry)} {lc : Int} {e' : RaftEngine} {out : Option RaftRPC}
    (hquiet : e.InstallsNothing env rpc.term rpc.senderId (.appendEntries prev pt ph pp entries lc))
    (hp : rpc.payload = .appendEntries prev pt ph pp entries lc)
    (h : (e.observeTerm rpc.term).handleAppendEntries env rpc.term rpc.senderId prev pt entries lc
      = some (e', out)) : Event env e (some rpc) e' out.toList := by
  obtain ⟨T, S, V, l, st, ho, heq⟩ := observeTerm_eq e rpc.term
  rw [heq] at h
  unfold handleAppendEntries at h
  dsimp only at h
  split at h
  · -- an old term: refused, and nothing moved
    cases h
    exact .observe ho (negative_appendReply env _ _)
  · rename_i hterm
    have hT := ho.term_eq hterm
    unfold appendAsFollower at h
    dsimp only at h
    split at h
    · cases h
    · cases h
      exact .follow ho hT (negative_appendReply env _ _)
    · rename_i hmatch
      split at h
      · cases h
        exact .follow ho hT (by intro m hm; cases hm)
      · rename_i es
        split at h
        · cases h
          exact .follow ho hT (negative_appendReply env _ _)
        · -- accepted: store, follow the commit index, apply
          rename_i hchain
          have hverified : es = [] ∨ verifyChain env (prev + 1).toNat (e.chainStart prev).1
              (e.chainStart prev).2 es = true := by
            simp only [Bool.and_eq_true, Bool.not_eq_true', not_and, Bool.not_eq_false] at hchain
            by_cases hnil : es = []
            · exact .inl hnil
            · exact .inr (hchain (List.isEmpty_eq_false_iff.mpr hnil))
          obtain ⟨st', mach, d, g, hg, happ, hdone⟩ := acceptEntries_eq env { e with
            currentTerm := T, state := .follower, votedFor := V, leaderId := some rpc.senderId,
            storage := st } prev es (hquiet (hT ▸ ho.le) hmatch hverified)
          rw [hdone] at h
          cases h
          subst hg
          exact .accept hp ho hT hmatch rfl happ rfl rfl rfl rfl

/-- A term that was seen already changes nothing. -/
theorem observeTerm_of_le {t : UInt64} (h : t ≤ e.currentTerm) : e.observeTerm t = e := by
  unfold observeTerm
  exact if_neg (UInt64.not_lt.mpr h)

/-- A later one makes a follower. -/
theorem observeTerm_state_of_lt {t : UInt64} (h : e.currentTerm < t) :
    (e.observeTerm t).state = .follower := by
  unfold observeTerm
  rw [if_pos h]
  rfl

/-- A message that only moves the term. -/
theorem observeTerm_event (env : Env) (e : RaftEngine) (rpc : RaftRPC) :
    Event env e (some rpc) (e.observeTerm rpc.term) [] := by
  obtain ⟨T, S, V, l, st, ho, heq⟩ := observeTerm_eq e rpc.term
  rw [heq]
  exact .observe ho (by intro m hm; cases hm)

/-- An answer to a request for a vote. -/
theorem handleVoteResponse_event {rpc : RaftRPC} {granted : Bool}
    (hp : rpc.payload = .voteResponse granted) :
    Event env e (some rpc) ((e.observeTerm rpc.term).handleVoteResponse rpc.term rpc.senderId granted)
      [] := by
  by_cases hle : rpc.term ≤ e.currentTerm
  · have ho := observeTerm_event env e rpc
    rw [observeTerm_of_le hle] at ho ⊢
    unfold handleVoteResponse
    split
    · exact ho
    · rename_i hguard
      push Not at hguard
      cases granted with
      | false => exact ho
      | true =>
          rw [if_pos rfl]
          unfold countVote
          dsimp only
          split
          · rename_i hq
            exact .win hp hguard.1 hguard.2 hq
          · exact .count hp hguard.1 hguard.2
  · -- the term was raised, so the node is no candidate any more
    have hstate := observeTerm_state_of_lt (UInt64.not_le.mp hle)
    have hsame : (e.observeTerm rpc.term).handleVoteResponse rpc.term rpc.senderId granted
        = e.observeTerm rpc.term := by
      unfold handleVoteResponse
      rw [if_pos (.inl (by rw [hstate]; decide))]
    rw [hsame]
    exact observeTerm_event env e rpc

/-- An answer to an append. -/
theorem handleAppendResponse_event {rpc : RaftRPC} {success : Bool} {i : Int}
    (hquiet : e.InstallsNothing env rpc.term rpc.senderId (.appendResponse success i))
    (hp : rpc.payload = .appendResponse success i) :
    Event env e (some rpc)
      ((e.observeTerm rpc.term).handleAppendResponse env rpc.term rpc.senderId success i) [] := by
  by_cases hle : rpc.term ≤ e.currentTerm
  · have ho := observeTerm_event env e rpc
    rw [observeTerm_of_le hle] at ho ⊢
    unfold handleAppendResponse
    split
    · exact ho
    · rename_i hguard
      push Not at hguard
      cases success with
      | false => exact .observe (.same hle) (by intro m hm; cases hm)
      | true =>
          rw [if_pos rfl, updateCommitIndex_eq (by exact hquiet hguard.1 hguard.2)]
          obtain ⟨mach, d, hadv, happ⟩ := advanceAppliedIndex_eq env { e with
            nextIndex := e.nextIndex.insert rpc.senderId (toUsize (i + 1))
            matchIndex := e.matchIndex.insert rpc.senderId i
            commitIndex := ((commitScan { e with
              nextIndex := e.nextIndex.insert rpc.senderId (toUsize (i + 1))
              matchIndex := e.matchIndex.insert rpc.senderId i } e.log.length).map Int.ofNat).getD
                e.commitIndex }
          rw [hadv]
          exact .ack hp hguard.1 hguard.2 rfl rfl happ
  · have hstate := observeTerm_state_of_lt (UInt64.not_le.mp hle)
    have hsame : (e.observeTerm rpc.term).handleAppendResponse env rpc.term rpc.senderId success i
        = e.observeTerm rpc.term := by
      unfold handleAppendResponse
      rw [if_pos (.inl (by rw [hstate]; decide))]
    rw [hsame]
    exact observeTerm_event env e rpc

/-- **`handle_rpc`, inverted.** -/
theorem handleRpc_event {rpc : RaftRPC} {e' : RaftEngine} {out : Option RaftRPC}
    (hquiet : e.badSignature env rpc = false → e.InstallsNothing env rpc.term rpc.senderId rpc.payload)
    (h : e.handleRpc env rpc = some (e', out)) :
    Event env e (some rpc) e' out.toList := by
  unfold handleRpc at h
  split at h
  · cases h
    exact .idle _
  · rename_i hsig
    have hquiet := hquiet (Bool.eq_false_iff.mpr hsig)
    unfold dispatch at h
    split at h
    · rename_i hp
      exact handleRequestVote_event hp (Option.some.inj h)
    · rename_i hp
      rw [hp] at hquiet
      exact handleAppendEntries_event hquiet hp h
    · rename_i hp
      cases h
      exact handleVoteResponse_event hp
    · rename_i hp
      cases h
      rw [hp] at hquiet
      exact handleAppendResponse_event hquiet hp
    · cases h
      exact observeTerm_event env e rpc

end RaftEngine

end WarmLogic.Consensus
