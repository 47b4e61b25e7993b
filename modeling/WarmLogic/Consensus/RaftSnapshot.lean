/-
# WarmLogic.Consensus.RaftSnapshot — when is `save_current_snapshot` invisible?

Pruning shifts the log: `get_entry` and `propose` count from the snapshot on, but elections, votes, the
consistency check of AppendEntries, heartbeats and the commit scan keep using positions. An engine that pruned
even one entry therefore rejects the heartbeat of a leader whose log equals the log it had. A snapshot that
prunes nothing touches only the snapshot text and the storage, which no later call looks at; that is the
simulation `SameView` below.

What a caller can observe is fixed first (`Observation`): the messages of a call as far as they tell something about
the log, the commit index, and the data that the state machine was given. Transparency then is equality of
observations over every later sequence of calls, in which the messages received have to be ones that some engine would
make; arbitrary messages could tell two engines apart by hashes that no engine computes.

One direction is the simulation: redressing an engine with another snapshot text and another storage commutes with
every handler, one lemma each. The other needs a sequence of calls that shows the difference, for every engine that
prunes: a leader of the same term with the log as it was (`mirrorLeader`) sends a heartbeat without entries. Before
the snapshot the consistency check passes, after it the position is past the end of the log.
-/
import Mathlib.Data.Fintype.EquivFin
import WarmLogic.Consensus.Cluster

namespace WarmLogic.Consensus

namespace RaftEngine

/-! ## What is observable -/

/-- What a message shows: the log position of a candidate, a vote, the acceptance of an AppendEntries. -/
inductive Seen where
  | election (lastLogIndex : Int) (lastLogTerm : UInt64)
  | vote (granted : Bool)
  | append (accepted : Bool)
  deriving DecidableEq

/-- What a message shows. The content of an AppendEntries is what the sender's log holds, and no answer to anything.
-/
def seen (m : RaftRPC) : Option Seen :=
  match m.payload with
  | .requestVote i t => some (.election i t)
  | .voteResponse granted => some (.vote granted)
  | .appendResponse success _ => some (.append success)
  | _ => none

/-- What a call shows: its messages, the commit index, and the data applied so far; `none` is a panic. -/
structure Observation where
  sent : List Seen
  commitIndex : Int
  applied : List (Nat × String)
  deriving DecidableEq

/-- The observations of a sequence of calls, up to a panic. -/
def observe (env : Env) : RaftEngine → List EngineOp → List (Option Observation)
  | _, [] => []
  | e, op :: ops => match op.call env e with
    | none => [none]
    | some (e', outs) => some ⟨outs.filterMap seen, e'.commitIndex, e'.calls⟩ :: observe env e' ops

/-- The message was made by some engine, in a tick or as an answer. -/
def Honest (env : Env) (m : RaftRPC) : Prop :=
  ∃ c : RaftEngine, (∃ elapsed c' outs, c.handleTick env elapsed = some (c', outs) ∧ m ∈ outs) ∨
    ∃ r c', c.handleRpc env r = some (c', some m)

/-- Only a received message has to be honest; ticks and proposals come from the node itself. -/
def EngineOp.Honest (env : Env) : EngineOp → Prop
  | .rpc m => RaftEngine.Honest env m
  | _ => True

/-- **Transparency of a snapshot**: no later sequence of ticks, proposals and honest messages shows whether it
was taken. -/
def Transparent (env : Env) (e : RaftEngine) (data : String) : Prop :=
  ∀ ops : List EngineOp, (∀ op ∈ ops, op.Honest env) →
    observe env (e.saveCurrentSnapshot data) ops = observe env e ops

/-! ## Engines that differ in snapshot text and storage only -/

/-- The engine with another snapshot text and storage. -/
def redressed (e : RaftEngine) (d : String) (st : Option RaftStorage) : RaftEngine :=
  { e with stateMachineData := d, storage := st }

/-- The engines differ in snapshot text and storage only; no handler reads either. -/
def SameView (a b : RaftEngine) : Prop := ∃ d st, b = a.redressed d st

variable {env : Env} {a b : RaftEngine}

/-- What a snapshot writes is out of view. -/
theorem sameView_redressed (a : RaftEngine) (d : String) (st : Option RaftStorage) :
    SameView a (a.redressed d st) := ⟨d, st, rfl⟩

/-- A node looks like itself. -/
theorem SameView.refl (a : RaftEngine) : SameView a a := ⟨a.stateMachineData, a.storage, rfl⟩

/-- The same message on both sides. -/
theorem SameView.createRpc (h : SameView a b) (p : RpcPayload) (target : Option String) :
    b.createRpc env p target = a.createRpc env p target := by
  obtain ⟨d, st, rfl⟩ := h
  rfl

/-- Installing peers is in view, and alike on both. -/
theorem SameView.finalizeAt (h : SameView a b) (i : Nat) :
    SameView (a.finalizeAt i) (b.finalizeAt i) := by
  obtain ⟨d, st, rfl⟩ := h
  have hget : (a.redressed d st).getEntry i = a.getEntry i := rfl
  have hpend : (a.redressed d st).pendingPeers = a.pendingPeers := rfl
  unfold RaftEngine.finalizeAt
  rw [hget, hpend]
  cases a.getEntry i with
  | none => exact sameView_redressed a d st
  | some entry =>
      dsimp only
      split
      · cases a.pendingPeers with
        | none => exact sameView_redressed a d st
        | some pending => exact ⟨_, _, rfl⟩
      · exact sameView_redressed a d st

/-- The commit index reads nothing that is out of view. -/
theorem commitScan_redressed (a : RaftEngine) (d : String) (st : Option RaftStorage) (n : Nat) :
    (a.redressed d st).commitScan n = a.commitScan n := by
  induction n with
  | zero => rfl
  | succ n ih =>
      unfold RaftEngine.commitScan
      rw [ih]
      rfl

/-- So committing as leader is alike. -/
theorem SameView.updateCommitIndex (h : SameView a b) :
    SameView a.updateCommitIndex b.updateCommitIndex := by
  obtain ⟨d, st, rfl⟩ := h
  have hscan : (a.redressed d st).commitScan (a.redressed d st).log.length
      = a.commitScan a.log.length := commitScan_redressed a d st _
  unfold RaftEngine.updateCommitIndex
  rw [hscan]
  cases a.commitScan a.log.length with
  | none => exact sameView_redressed a d st
  | some n => exact SameView.finalizeAt (a := { a with commitIndex := n }) ⟨d, st, rfl⟩ n

/-- Applying an entry is. -/
theorem SameView.applyNext (h : SameView a b) : SameView (applyNext env a) (applyNext env b) := by
  obtain ⟨d, st, rfl⟩ := h
  unfold RaftEngine.applyNext
  have hget : ∀ i, (a.redressed d st).getEntry i = a.getEntry i := fun _ => rfl
  have hlast : (a.redressed d st).lastApplied = a.lastApplied := rfl
  have hmach : (a.redressed d st).stateMachine = a.stateMachine := rfl
  dsimp only
  rw [hget, hlast, hmach]
  cases a.getEntry (a.lastApplied + 1).toNat with
  | none => exact ⟨d, st, rfl⟩
  | some entry =>
      -- the reply may overwrite the snapshot text, which is no part of the view
      cases hm : a.stateMachine with
      | none => exact ⟨entry.data, st, rfl⟩
      | some cs => exact ⟨env.machineReply (cs ++ [((a.lastApplied + 1).toNat, entry.data)]), st, rfl⟩

/-- And applying several. -/
theorem SameView.applyLoop (n : Nat) (h : SameView a b) :
    SameView (applyLoop env n a) (applyLoop env n b) := by
  induction n generalizing a b with
  | zero => exact h
  | succ n ih => exact ih h.applyNext

/-- And applying up to the commit index. -/
theorem SameView.advanceAppliedIndex (h : SameView a b) :
    SameView (a.advanceAppliedIndex env) (b.advanceAppliedIndex env) := by
  have hlast : b.commitIndex - b.lastApplied = a.commitIndex - a.lastApplied := by
    obtain ⟨d, st, rfl⟩ := h
    rfl
  unfold RaftEngine.advanceAppliedIndex
  rw [hlast]
  exact h.applyLoop _

/-- A term that is seen. -/
theorem SameView.observeTerm (h : SameView a b) (t : UInt64) :
    SameView (a.observeTerm t) (b.observeTerm t) := by
  obtain ⟨d, st, rfl⟩ := h
  have hterm : (a.redressed d st).currentTerm = a.currentTerm := rfl
  unfold RaftEngine.observeTerm
  rw [hterm]
  split
  · exact ⟨_, _, rfl⟩
  · exact sameView_redressed a d st

/-- Entries that are stored. -/
theorem SameView.storeEntries (h : SameView a b) (prev : Int) (es : List LogEntry) :
    SameView (a.storeEntries env prev es) (b.storeEntries env prev es) := by
  obtain ⟨d, st, rfl⟩ := h
  exact ⟨_, _, rfl⟩

/-- A commit that is followed. -/
theorem SameView.followCommit (h : SameView a b) (lc : Int) :
    SameView (a.followCommit lc) (b.followCommit lc) := by
  have hloop : ∀ (f : Nat → Nat) (is : List Nat) (a b : RaftEngine), SameView a b →
      SameView (is.foldl (fun acc i => acc.finalizeAt (f i)) a)
        (is.foldl (fun acc i => acc.finalizeAt (f i)) b) := by
    intro f is
    induction is with
    | nil => intro a b h; exact h
    | cons i is ih => intro a b h; exact ih _ _ (h.finalizeAt (f i))
  obtain ⟨d, st, rfl⟩ := h
  have hcommit : (a.redressed d st).commitIndex = a.commitIndex := rfl
  have hlog : (a.redressed d st).log = a.log := rfl
  have hsnap : (a.redressed d st).lastSnapshotIndex = a.lastSnapshotIndex := rfl
  unfold RaftEngine.followCommit
  rw [hcommit, hlog, hsnap]
  split
  · -- both sides finalise the same indices
    exact hloop (fun i => (a.commitIndex + 1 + i).toNat) _ _ _ ⟨d, st, rfl⟩
  · exact sameView_redressed a d st

/-- Two calls panic together, or reach engines of the same view with the same answer. -/
inductive SameResult {α : Type} : Option (RaftEngine × α) → Option (RaftEngine × α) → Prop
  | none : SameResult none none
  | some {a b : RaftEngine} {o : α} : SameView a b → SameResult (some (a, o)) (some (b, o))

/-- A vote, with the same answer. -/
theorem SameView.handleRequestVote (h : SameView a b) (term : UInt64) (c : String) (i : Int)
    (t : UInt64) : SameResult (some (a.handleRequestVote env term c i t))
      (some (b.handleRequestVote env term c i t)) := by
  obtain ⟨d, st, rfl⟩ := h
  unfold RaftEngine.handleRequestVote
  dsimp only
  have hterm : (a.redressed d st).currentTerm = a.currentTerm := rfl
  have hvote : (a.redressed d st).votedFor = a.votedFor := rfl
  have hlast : (a.redressed d st).lastLogTerm = a.lastLogTerm := rfl
  have hidx : (a.redressed d st).lastLogIndex = a.lastLogIndex := rfl
  rw [hterm, hvote, hlast, hidx]
  split
  · exact .some ⟨_, _, rfl⟩
  · exact .some (sameView_redressed a d st)

/-- The answer to an append. -/
theorem SameView.appendReply (h : SameView a b) (ok : Bool) (l : String) :
    b.appendReply env ok l = a.appendReply env ok l := by
  obtain ⟨d, st, rfl⟩ := h
  rfl

/-- An append to a follower, with the same answer. -/
theorem SameView.appendAsFollower (h : SameView a b) (l : String) (prev : Int) (pt : UInt64)
    (es : Option (List LogEntry)) (lc : Int) :
    SameResult (a.appendAsFollower env l prev pt es lc) (b.appendAsFollower env l prev pt es lc) := by
  have hlog : b.log = a.log := by
    obtain ⟨d, st, rfl⟩ := h
    rfl
  have hstart : b.chainStart prev = a.chainStart prev := by
    obtain ⟨d, st, rfl⟩ := h
    rfl
  unfold RaftEngine.appendAsFollower
  rw [hlog]
  split
  · exact .none
  · rw [h.appendReply]
    exact .some h
  · cases es with
    | none => exact .some h
    | some es =>
        dsimp only
        rw [hstart]
        split
        · rw [h.appendReply]
          exact .some h
        · have hstored : SameView (if es.isEmpty then a else a.storeEntries env prev es)
              (if es.isEmpty then b else b.storeEntries env prev es) := by
            split
            · exact h
            · exact h.storeEntries prev es
          have hdone := @SameView.advanceAppliedIndex env _ _ (hstored.followCommit lc)
          rw [hdone.appendReply]
          exact .some hdone

/-- And to a node of any role. -/
theorem SameView.handleAppendEntries (h : SameView a b) (term : UInt64) (l : String) (prev : Int)
    (pt : UInt64) (es : Option (List LogEntry)) (lc : Int) :
    SameResult (a.handleAppendEntries env term l prev pt es lc)
      (b.handleAppendEntries env term l prev pt es lc) := by
  obtain ⟨d, st, rfl⟩ := h
  have hterm : (a.redressed d st).currentTerm = a.currentTerm := rfl
  unfold RaftEngine.handleAppendEntries
  rw [hterm]
  split
  · rw [(sameView_redressed a d st).appendReply]
    exact .some (sameView_redressed a d st)
  · exact SameView.appendAsFollower ⟨d, st, rfl⟩ l prev pt es lc

/-- A node that becomes leader. -/
theorem SameView.becomeLeader (h : SameView a b) : SameView a.becomeLeader b.becomeLeader := by
  obtain ⟨d, st, rfl⟩ := h
  exact ⟨d, st, rfl⟩

/-- A vote that is counted. -/
theorem SameView.countVote (h : SameView a b) (c : String) :
    SameView (a.countVote c) (b.countVote c) := by
  obtain ⟨d, st, rfl⟩ := h
  have hquorum : ∀ V, (a.redressed d st).hasQuorum V = a.hasQuorum V := fun _ => rfl
  have hleft : ∀ x : RaftEngine, x.countVote c = if x.hasQuorum (insert c x.votesReceived) then
      RaftEngine.becomeLeader { x with votesReceived := insert c x.votesReceived }
      else { x with votesReceived := insert c x.votesReceived } := fun _ => rfl
  have hvotes : (a.redressed d st).votesReceived = a.votesReceived := rfl
  rw [hleft, hleft, hquorum, hvotes]
  split
  · exact ⟨d, st, rfl⟩
  · exact ⟨d, st, rfl⟩

/-- The answer to a request for a vote. -/
theorem SameView.handleVoteResponse (h : SameView a b) (term : UInt64) (c : String) (granted : Bool) :
    SameView (a.handleVoteResponse term c granted) (b.handleVoteResponse term c granted) := by
  have hstate : b.state = a.state ∧ b.currentTerm = a.currentTerm := by
    obtain ⟨d, st, rfl⟩ := h
    exact ⟨rfl, rfl⟩
  unfold RaftEngine.handleVoteResponse
  rw [hstate.1, hstate.2]
  split
  · exact h
  · split
    · exact h.countVote c
    · exact h

/-- The answer to an append, at the leader. -/
theorem SameView.handleAppendResponse (h : SameView a b) (term : UInt64) (c : String) (success : Bool)
    (i : Int) : SameView (a.handleAppendResponse env term c success i)
      (b.handleAppendResponse env term c success i) := by
  obtain ⟨d, st, rfl⟩ := h
  have hstate : (a.redressed d st).state = a.state := rfl
  have hterm : (a.redressed d st).currentTerm = a.currentTerm := rfl
  unfold RaftEngine.handleAppendResponse
  rw [hstate, hterm]
  split
  · exact sameView_redressed a d st
  · split
    · exact SameView.advanceAppliedIndex (SameView.updateCommitIndex ⟨d, st, rfl⟩)
    · exact ⟨d, st, rfl⟩

/-- **Any message**, with the same answer. -/
theorem SameView.handleRpc (h : SameView a b) (m : RaftRPC) :
    SameResult (a.handleRpc env m) (b.handleRpc env m) := by
  have hsig : b.badSignature env m = a.badSignature env m := by
    obtain ⟨d, st, rfl⟩ := h
    rfl
  have ho := h.observeTerm m.term
  unfold RaftEngine.handleRpc
  rw [hsig]
  split
  · exact .some h
  · unfold RaftEngine.dispatch
    cases m.payload with
    | requestVote i t => exact ho.handleRequestVote _ _ _ _
    | appendEntries prev pt ph pp es lc => exact ho.handleAppendEntries _ _ _ _ _ _
    | voteResponse granted => exact .some (ho.handleVoteResponse _ _ _)
    | appendResponse success i => exact .some (ho.handleAppendResponse _ _ _ _)
    | malformed => exact .some ho

/-- **A tick**, with the same messages. -/
theorem SameView.handleTick (h : SameView a b) (elapsed : Bool) :
    SameResult (a.handleTick env elapsed) (b.handleTick env elapsed) := by
  obtain ⟨d, st, rfl⟩ := h
  have hstate : (a.redressed d st).state = a.state := rfl
  have hterm : (a.redressed d st).currentTerm = a.currentTerm := rfl
  have hbeat : (a.redressed d st).peers.mapM (a.redressed d st).heartbeatFor
      = a.peers.mapM a.heartbeatFor := rfl
  have hpeers : (a.redressed d st).candidacy.peers = a.candidacy.peers := rfl
  have hcand : SameView a.candidacy (a.redressed d st).candidacy := ⟨_, _, rfl⟩
  unfold RaftEngine.handleTick
  rw [hstate]
  split
  · exact .some (sameView_redressed a d st)
  · split
    · unfold RaftEngine.sendHeartbeats
      rw [hbeat]
      cases a.peers.mapM a.heartbeatFor with
      | none => exact .none
      | some ps => exact .some (sameView_redressed a d st)
    · unfold RaftEngine.startElection
      rw [hterm]
      split
      · exact .none
      · dsimp only
        rw [hpeers]
        split
        · exact .some hcand.becomeLeader
        · exact .some hcand

/-- **A proposal.** -/
theorem SameView.propose (h : SameView a b) (data : String) (zkProof : List UInt8) :
    SameView (a.propose env data zkProof).1 (b.propose env data zkProof).1 := by
  obtain ⟨d, st, rfl⟩ := h
  have hstate : (a.redressed d st).state = a.state := rfl
  unfold RaftEngine.propose
  rw [hstate]
  split
  · exact sameView_redressed a d st
  · split
    · exact sameView_redressed a d st
    · exact ⟨_, _, rfl⟩

/-- What is made of equal answers is equal. -/
theorem SameResult.map {α β : Type} {x y : Option (RaftEngine × α)} (h : SameResult x y) (f : α → β) :
    SameResult (x.map fun r => (r.1, f r.2)) (y.map fun r => (r.1, f r.2)) := by
  cases h with
  | none => exact .none
  | some h => exact .some h

/-- **Any call**, with the same result. -/
theorem SameView.call (h : SameView a b) (op : EngineOp) :
    SameResult (op.call env a) (op.call env b) := by
  cases op with
  | tick elapsed => exact h.handleTick elapsed
  | propose data zkProof => exact .some (h.propose data zkProof)
  | rpc m => exact (h.handleRpc m).map Option.toList

/-- **Engines of one view are indistinguishable**, whatever follows. -/
theorem SameView.observe (h : SameView a b) (ops : List EngineOp) :
    RaftEngine.observe env b ops = RaftEngine.observe env a ops := by
  induction ops generalizing a b with
  | nil => rfl
  | cons op ops ih =>
      unfold RaftEngine.observe
      have hr : SameResult (op.call env a) (op.call env b) := h.call op
      generalize op.call env a = x at hr
      generalize op.call env b = y at hr
      cases hr with
      | none => rfl
      | some h =>
          dsimp only
          rw [ih h]
          obtain ⟨d, st, rfl⟩ := h
          rfl

/-! ## A snapshot that prunes nothing -/

/-- A snapshot that prunes nothing is out of view. -/
theorem sameView_saveCurrentSnapshot {e : RaftEngine} (hno : ¬ e.Prunes) (data : String) :
    SameView e (e.saveCurrentSnapshot data) :=
  saveCurrentSnapshot_eq (.inl hno) data

/-! ## A snapshot that prunes is seen by the next heartbeat -/

/-- What a pruning snapshot leaves of the log, and what it does not touch. -/
theorem saveCurrentSnapshot_of_prunes {e : RaftEngine} (h : e.Prunes) (hst : e.storage.isSome)
    (data : String) : (e.saveCurrentSnapshot data).log.length < e.log.length ∧
      (e.saveCurrentSnapshot data).currentTerm = e.currentTerm ∧
      (e.saveCurrentSnapshot data).peerKeys = e.peerKeys := by
  obtain ⟨hpos, hget⟩ := h
  obtain ⟨st, hst⟩ := Option.isSome_iff_exists.mp hst
  obtain ⟨entry, hentry⟩ := Option.isSome_iff_exists.mp hget
  -- `get_entry` found the entry, so the cut lies inside the log and behind the snapshot
  have hrange : e.lastSnapshotIndex < (e.lastApplied.toNat : Int) ∧
      ((e.lastApplied.toNat : Int) - e.lastSnapshotIndex - 1).toNat < e.log.length := by
    have hentry' := hentry
    unfold getEntry at hentry'
    split at hentry'
    · cases hentry'
    · exact ⟨by omega, (List.getElem?_eq_some_iff.mp hentry').1⟩
  unfold saveCurrentSnapshot
  rw [if_neg (by omega)]
  dsimp only
  rw [if_neg (by omega), hentry, hst]
  dsimp only [Option.map_some]
  rw [if_pos (by omega)]
  refine ⟨?_, rfl, rfl⟩
  rw [List.length_drop]
  omega

/-- A follower's answer to a heartbeat says whether the consistency check passed. -/
theorem appendAsFollower_heartbeat (env : Env) {f : RaftEngine} (l : String) {prev : Int} {pt : UInt64}
    (lc : Int) {passed : Bool} (hmatch : prevMatches f.log prev pt = some passed) :
    ∃ f' i, f.appendAsFollower env l prev pt (some []) lc
      = some (f', some (f'.createRpc env (.appendResponse passed i) (some l))) := by
  unfold appendAsFollower
  rw [hmatch]
  cases passed with
  | false => exact ⟨_, _, rfl⟩
  | true => exact ⟨_, _, rfl⟩

/-- What a heartbeat tells of a node: whether its log has the leader's last entry. -/
theorem observe_heartbeat (env : Env) {x : RaftEngine} {m : RaftRPC} {prev : Int} {pt : UInt64} {ph pp : String}
    {lc : Int} {passed : Bool} (hkey : x.peerKeys.lookup m.senderId = none)
    (hterm : m.term = x.currentTerm) (hp : m.payload = .appendEntries prev pt ph pp (some []) lc)
    (hmatch : prevMatches x.log prev pt = some passed) :
    ∃ c calls, observe env x [.rpc m] = [some ⟨[.append passed], c, calls⟩] := by
  have hsig : x.badSignature env m = false := by
    unfold badSignature
    rw [hkey]
  have hobs : x.observeTerm m.term = x := observeTerm_of_le (hterm ▸ UInt64.le_refl _)
  have hrpc : x.handleRpc env m = appendAsFollower env
      { x with state := .follower, leaderId := some m.senderId } m.senderId prev pt (some []) lc := by
    unfold handleRpc dispatch
    rw [hsig, if_neg Bool.false_ne_true, hobs, hp]
    dsimp only
    unfold handleAppendEntries
    rw [hterm, if_neg (UInt64.lt_irrefl _)]
  obtain ⟨x', i, hfollow⟩ := appendAsFollower_heartbeat env m.senderId lc
    (f := { x with state := .follower, leaderId := some m.senderId }) hmatch
  have hcall : EngineOp.call env x (.rpc m)
      = some (x', [x'.createRpc env (.appendResponse passed i) (some m.senderId)]) := by
    show (x.handleRpc env m).map _ = _
    rw [hrpc, hfollow]
    rfl
  refine ⟨x'.commitIndex, x'.calls, ?_⟩
  unfold observe
  rw [hcall]
  rfl

/-- A leader of the node's term, with the node's log, and a name whose key nobody registered. -/
def mirrorLeader (e : RaftEngine) (name : String) : RaftEngine :=
  { blank name [""] "" none with log := e.log, currentTerm := e.currentTerm, state := .leader }

/-- Its heartbeat: no entries behind the last position. -/
theorem honest_heartbeat (env : Env) (e : RaftEngine) (name : String) (hne : e.log ≠ []) :
    ∃ m, Honest env m ∧ m.senderId = name ∧ m.term = e.currentTerm ∧ ∃ ph pp,
      m.payload = .appendEntries ((e.log.length : Int) - 1) e.lastLogTerm ph pp (some []) (-1) := by
  have hpos : e.log.length ≠ 0 := by
    intro h0
    exact hne (List.length_eq_zero_iff.mp h0)
  obtain ⟨ph, pp, hbeat⟩ : ∃ ph pp, (mirrorLeader e name).heartbeatFor ""
      = some (.appendEntries ((e.log.length : Int) - 1) e.lastLogTerm ph pp (some []) (-1)) := by
    refine ⟨(e.log.getLast?.map (·.cumulativeHash)).getD zeroHash,
      (e.log.getLast?.map (·.poseidonHash)).getD zeroHash, ?_⟩
    have hnext : ((mirrorLeader e name).nextIndex.lookup "").getD (mirrorLeader e name).log.length
        = e.log.length := rfl
    have hlog : (mirrorLeader e name).log = e.log := rfl
    have hcommit : (mirrorLeader e name).commitIndex = -1 := rfl
    unfold heartbeatFor
    dsimp only
    rw [hnext, hlog, if_neg (by omega), if_neg hpos, hcommit, List.drop_length, lastLogTerm,
      List.getLast?_eq_getElem?]
  let m := (mirrorLeader e name).createRpc env
    (.appendEntries ((e.log.length : Int) - 1) e.lastLogTerm ph pp (some []) (-1)) none
  have htick : (mirrorLeader e name).handleTick env true = some (mirrorLeader e name, [m]) := by
    have hpeers : (mirrorLeader e name).peers = [""] := rfl
    have hstate : (mirrorLeader e name).state = .leader := rfl
    unfold handleTick sendHeartbeats
    rw [hstate, hpeers]
    simp [hbeat, m]
  exact ⟨m, ⟨mirrorLeader e name, .inl ⟨true, _, _, htick, List.mem_singleton_self m⟩⟩, rfl, rfl, ph, pp,
    rfl⟩

/-- A name without a registered key. -/
theorem exists_unregistered (keys : StringMap String) : ∃ name : String, keys.lookup name = none := by
  have hinf : Infinite String := Infinite.of_injective (fun n : Nat => String.ofList (List.replicate n 'a'))
    (by
      intro n k h
      have := congrArg (fun s : String => s.toList.length) h
      simpa using this)
  obtain ⟨name, hname⟩ := Infinite.exists_notMem_finset keys.keys.toFinset
  refine ⟨name, AList.lookup_eq_none.mpr fun hmem => hname ?_⟩
  exact List.mem_toFinset.mpr (AList.mem_keys.mp hmem)

/-- **A snapshot that prunes shows**, in the answer to the next heartbeat. -/
theorem not_transparent_of_prunes {e : RaftEngine} (h : e.Prunes) (hst : e.storage.isSome)
    (data : String) : ¬ Transparent env e data := by
  intro htrans
  obtain ⟨hshort, hterm, hkeys⟩ := saveCurrentSnapshot_of_prunes h hst data
  have hne : e.log ≠ [] := List.ne_nil_of_length_pos (by omega)
  obtain ⟨name, hname⟩ := exists_unregistered e.peerKeys
  obtain ⟨m, hhonest, hsender, hmterm, ph, pp, hp⟩ := honest_heartbeat env e name hne
  -- the full log has the leader's last entry at its position, the pruned one ends before it
  have hfull : prevMatches e.log ((e.log.length : Int) - 1) e.lastLogTerm = some true := by
    obtain ⟨y, hy⟩ := Option.isSome_iff_exists.mp (List.getLast?_isSome.mpr hne)
    have hget : e.log[e.log.length - 1]? = some y := by rw [← List.getLast?_eq_getElem?, hy]
    unfold prevMatches
    rw [if_neg (by omega), if_pos (by omega), if_neg (by omega),
      show ((e.log.length : Int) - 1).toNat = e.log.length - 1 by omega, hget, lastLogTerm, hy]
    simp
  have hpruned : prevMatches (e.saveCurrentSnapshot data).log ((e.log.length : Int) - 1) e.lastLogTerm
      = some false := by
    unfold prevMatches
    rw [if_neg (by omega), if_neg (by omega)]
  obtain ⟨c, calls, h1⟩ := observe_heartbeat env (x := e) (by rw [hsender, hname]) hmterm hp hfull
  obtain ⟨c', calls', h2⟩ := observe_heartbeat env (x := e.saveCurrentSnapshot data)
    (by rw [hsender, hkeys, hname]) (hmterm.trans hterm.symm) hp hpruned
  have hsame := htrans [.rpc m] (by simpa [EngineOp.Honest] using hhonest)
  rw [h1, h2] at hsame
  simp at hsame

/-- **Snapshot transparency, exactly.** A snapshot of an engine with storage is invisible to every later sequence of
ticks, proposals and honest messages if and only if it prunes nothing. Without pruning only the file on disk differs,
which no call reads. A pruned log refuses the next heartbeat that the full one accepts. -/
theorem snapshot_transparent_iff (env : Env) (e : RaftEngine) (data : String)
    (hst : e.storage.isSome) : Transparent env e data ↔ ¬ e.Prunes := by
  constructor
  · intro htrans hprunes
    exact not_transparent_of_prunes hprunes hst data htrans
  · intro hno ops _
    exact (sameView_saveCurrentSnapshot hno data).observe ops

/-! ## A leader and its follower, after one committed entry -/

/-- `a` is elected by `b`, replicates one entry to it and tells it that the entry is committed; `b` has a
directory. The two engines, and the next heartbeat of `a`. -/
def replicatedPair : Option (RaftEngine × RaftEngine × RaftRPC) := do
  let (a, outs) ← (new scriptEnv "a" ["b"] "" none none).handleTick scriptEnv true
  let (b, vote) ← (new scriptEnv "b" ["a"] "" (some freshStorage) none).handleRpc scriptEnv (← outs.head?)
  let (a, _) ← a.handleRpc scriptEnv (← vote)
  let (a, outs) ← (a.propose scriptEnv "TARGET:1" []).1.handleTick scriptEnv true
  let (b, ack) ← b.handleRpc scriptEnv (← outs.head?)
  let (a, _) ← a.handleRpc scriptEnv (← ack)
  let (a, outs) ← a.handleTick scriptEnv true
  let (b, ack) ← b.handleRpc scriptEnv (← outs.head?)
  let (a, _) ← a.handleRpc scriptEnv (← ack)
  let (_, outs) ← a.handleTick scriptEnv true
  return (a, b, ← outs.head?)

/-- The follower takes a snapshot and then refuses its leader's heartbeat, which it would have accepted. -/
theorem snapshot_refuses_heartbeat : ¬ ∀ (env : Env) (e : RaftEngine) (data : String), e.storage.isSome →
    Transparent env e data := by
  intro h
  obtain ⟨⟨a, b, m⟩, hpair⟩ := Option.isSome_iff_exists.mp
    (show replicatedPair.isSome = true by decide +kernel)
  have hfacts : (replicatedPair.any fun r => r.2.1.storage.isSome &&
      ((r.1.handleTick scriptEnv true).any fun t => decide (t.2 = [r.2.2])) &&
      decide (observe scriptEnv (r.2.1.saveCurrentSnapshot "") [.rpc r.2.2]
        ≠ observe scriptEnv r.2.1 [.rpc r.2.2])) = true := by decide +kernel
  rw [hpair, Option.any_some] at hfacts
  simp only [Bool.and_eq_true, decide_eq_true_eq] at hfacts
  obtain ⟨⟨hst, hbeat⟩, hdiff⟩ := hfacts
  have hhonest : Honest scriptEnv m := by
    cases htick : a.handleTick scriptEnv true with
    | none =>
        rw [htick] at hbeat
        cases hbeat
    | some t =>
        rw [htick] at hbeat
        simp only [Option.any_some, decide_eq_true_eq] at hbeat
        exact ⟨a, .inl ⟨true, t.1, t.2, htick, by rw [hbeat]; exact List.mem_singleton_self m⟩⟩
  exact hdiff (h scriptEnv b "" hst [.rpc m] (by simpa [EngineOp.Honest] using hhonest))

/-- The follower once more, with a state machine and one entry further: it has applied the first entry, has logged a
second one that is not committed yet, and has taken a snapshot, which left it only the second. -/
def prunedFollower : Option RaftEngine := do
  let (a, outs) ← (new scriptEnv "a" ["b"] "" none none).handleTick scriptEnv true
  let (b, vote) ← (new scriptEnv "b" ["a"] "" (some freshStorage) (some [])).handleRpc scriptEnv (← outs.head?)
  let (a, _) ← a.handleRpc scriptEnv (← vote)
  let (a, outs) ← (a.propose scriptEnv "TARGET:1" []).1.handleTick scriptEnv true
  let (b, ack) ← b.handleRpc scriptEnv (← outs.head?)
  let (a, _) ← a.handleRpc scriptEnv (← ack)
  let (_, outs) ← (a.propose scriptEnv "TARGET:2" []).1.handleTick scriptEnv true
  let (b, _) ← b.handleRpc scriptEnv (← outs.head?)
  return b.saveCurrentSnapshot ""

/-- That follower has applied an entry and holds another, and a further snapshot of it is invisible: the entry it has
applied last is the last one of the snapshot there is. -/
theorem snapshot_transparent_after_snapshot :
    ∃ b, prunedFollower = some b ∧ b.lastApplied = 0 ∧ b.lastSnapshotIndex = 0 ∧
      b.stateMachine = some [(0, "TARGET:1")] ∧ b.log.map (·.data) = ["TARGET:2"] ∧
      ¬ b.Prunes ∧ Transparent scriptEnv b "" := by
  obtain ⟨b, hb⟩ := Option.isSome_iff_exists.mp (show prunedFollower.isSome = true by decide +kernel)
  have hfacts : (prunedFollower.any fun b => decide (b.lastApplied = 0 ∧ b.lastSnapshotIndex = 0 ∧
      b.stateMachine = some [(0, "TARGET:1")] ∧ b.log.map (·.data) = ["TARGET:2"]) && b.storage.isSome &&
      !decide b.Prunes) = true := by
    decide +kernel
  rw [hb, Option.any_some] at hfacts
  simp only [Bool.and_eq_true, decide_eq_true_eq, Bool.not_eq_true', decide_eq_false_iff_not] at hfacts
  obtain ⟨⟨⟨happlied, hsnapshot, hmachine, hlog⟩, hstorage⟩, hno⟩ := hfacts
  exact ⟨b, hb, happlied, hsnapshot, hmachine, hlog, hno, (snapshot_transparent_iff scriptEnv b "" hstorage).mpr hno⟩

end RaftEngine

end WarmLogic.Consensus
