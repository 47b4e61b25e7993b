/-
# WarmLogic.Consensus.RaftPersistence — what a call hands to the storage worker.

The engine never waits for its storage: a call changes the engine at once and puts commands in the worker's queue.
`Wrote e cmds e'` says how the two belong together. Every change of term, vote or peers is followed by a `Meta`
command that holds all three, the log grows by exactly the entries of the `Append` commands, and along the `Meta`
commands no vote is forgotten before the term has moved on. Only one thing goes past the queue: an accepted
AppendEntries that cuts the log rewrites the WAL at once (`cutLog`). A snapshot drops the entries before it from the
log in memory, and from nothing else.

The relation composes: two steps one after the other queue the commands of both, one list behind the other
(`Wrote.trans`). So each handler has one lemma that says what it queues, in the words of the functions that it calls,
and the lemma about a whole call is put together from these. A cut may be moved in front of everything a call queues,
since the worker's queue and the rewrite of the WAL do not look at each other (`truncateLogSuffix_enqueue`).

Member lists are kept apart from that. No call invents one: the peers of an engine are what they were, or the pending
list that a `CONF:` entry left there (`TakesPending`). Which call installs a list, and which list, is said by
`EngineOp.installed`; a list that was appended and never committed is never installed, whatever it holds.

The last section reads the directory back: what the three files hold after a flush determines what a new engine on
them is, entry by entry. `RaftRestart` and `RaftVoteDurability` draw on this module only.
-/
import WarmLogic.Consensus.RaftEvent

namespace WarmLogic.Consensus

open WarmLogic.Lib

/-! ## Commands -/

/-- The metadata of the `Meta` commands. -/
def metasOf (cmds : List StorageCommand) : List RaftMetadata :=
  cmds.filterMap fun
    | .saveMeta term votedFor peers => some ⟨term, votedFor, peers⟩
    | _ => none

/-- The entries of the `Append` commands. -/
def appendsOf (cmds : List StorageCommand) : List LogEntry :=
  cmds.filterMap fun
    | .append entry => some entry
    | _ => none

/-- The snapshots of the `Snapshot` commands. -/
def snapshotsOf (cmds : List StorageCommand) : List RaftSnapshot :=
  cmds.filterMap fun
    | .snapshot snap => some snap
    | _ => none

@[simp] theorem metasOf_append (cmds cmds' : List StorageCommand) :
    metasOf (cmds ++ cmds') = metasOf cmds ++ metasOf cmds' := List.filterMap_append

@[simp] theorem appendsOf_append (cmds cmds' : List StorageCommand) :
    appendsOf (cmds ++ cmds') = appendsOf cmds ++ appendsOf cmds' := List.filterMap_append

@[simp] theorem snapshotsOf_append (cmds cmds' : List StorageCommand) :
    snapshotsOf (cmds ++ cmds') = snapshotsOf cmds ++ snapshotsOf cmds' := List.filterMap_append

/-- Appends bring no metadata. -/
theorem metasOf_map_append (es : List LogEntry) : metasOf (es.map .append) = [] := by
  simp [metasOf, List.filterMap_map]

/-- But their entries. -/
theorem appendsOf_map_append (es : List LogEntry) : appendsOf (es.map .append) = es := by
  simp [appendsOf, List.filterMap_map]

/-- And no snapshot. -/
theorem snapshotsOf_map_append (es : List LogEntry) : snapshotsOf (es.map .append) = [] := by
  simp [snapshotsOf, List.filterMap_map]

namespace RaftStorage

/-- The storage with further commands in its queue. -/
def enqueue (s : RaftStorage) (cmds : List StorageCommand) : RaftStorage :=
  { s with queue := s.queue ++ cmds }

@[simp] theorem enqueue_nil (s : RaftStorage) : s.enqueue [] = s := by
  simp [enqueue]

/-- Two queues in a row are one. -/
theorem enqueue_enqueue (s : RaftStorage) (cmds cmds' : List StorageCommand) :
    (s.enqueue cmds).enqueue cmds' = s.enqueue (cmds ++ cmds') := by
  simp [enqueue]

/-- Appending entry after entry enqueues them all. -/
theorem foldl_appendLog (es : List LogEntry) (s : RaftStorage) :
    es.foldl (fun s entry => s.appendLog entry) s = s.enqueue (es.map .append) := by
  induction es generalizing s with
  | nil => simp
  | cons x es ih =>
      have hone : s.appendLog x = s.enqueue [.append x] := rfl
      rw [List.foldl_cons, ih, hone, enqueue_enqueue, List.map_cons, List.singleton_append]

/-- A rewrite of the WAL looks at the file and not at the queue. -/
theorem truncateLogSuffix_enqueue (env : Env) (s : RaftStorage) (cmds : List StorageCommand) (keep : Nat) :
    (s.enqueue cmds).truncateLogSuffix env keep = (s.truncateLogSuffix env keep).enqueue cmds := by
  unfold truncateLogSuffix
  have hload : (s.enqueue cmds).loadLog env = s.loadLog env := rfl
  rw [hload]
  dsimp only
  split <;> rfl

end RaftStorage

/-- The later metadata remembers the vote of the earlier, or is of a later term. That is what a restart in between
must not break: a node that forgot a vote within its term could vote twice. -/
def RaftMetadata.Keeps (m m' : RaftMetadata) : Prop :=
  m.currentTerm < m'.currentTerm ∨
    m.currentTerm = m'.currentTerm ∧ (m.votedFor = none ∨ m'.votedFor = m.votedFor)

/-- Metadata keep themselves. -/
theorem RaftMetadata.Keeps.refl (m : RaftMetadata) : m.Keeps m := .inr ⟨rfl, .inr rfl⟩

/-- Keeping is transitive: a term with its vote is given up for a later term only. -/
theorem RaftMetadata.Keeps.trans {m m' m'' : RaftMetadata} (h : m.Keeps m') (h' : m'.Keeps m'') :
    m.Keeps m'' := by
  rcases h with h | ⟨ht, hv⟩
  · rcases h' with h' | ⟨ht', -⟩
    · exact .inl (UInt64.lt_trans h h')
    · exact .inl (ht' ▸ h)
  · rcases h' with h' | ⟨ht', hv'⟩
    · exact .inl (ht ▸ h')
    · refine .inr ⟨ht.trans ht', ?_⟩
      rcases hv with hv | hv
      · exact .inl hv
      · rcases hv' with hv' | hv'
        · exact .inl (hv ▸ hv')
        · exact .inr (hv'.trans hv)

namespace RaftEngine

variable {env : Env} {e e' f : RaftEngine} {cmds cmds' : List StorageCommand}

/-- What `persist_metadata` saves. -/
def metadata (e : RaftEngine) : RaftMetadata := ⟨e.currentTerm, e.votedFor, e.peers⟩

/-! ## The relation -/

/-- **`Wrote e cmds e'`** — from `e` the engine came to `e'`, and put `cmds` in the worker's queue. The chain says
that no vote is forgotten from one `Meta` command to the next, so that a crash may keep any number of them; `last`
says that nothing of the metadata is kept back. -/
structure Wrote (e : RaftEngine) (cmds : List StorageCommand) (e' : RaftEngine) : Prop where
  nodeId : e'.nodeId = e.nodeId
  storage : e'.storage = e.storage.map (·.enqueue cmds)
  log : e'.log = e.log ++ appendsOf cmds
  /-- No vote is forgotten on the way … -/
  chain : (e.metadata :: metasOf cmds).Pairwise RaftMetadata.Keeps
  /-- … and the last metadata handed over is that of the engine. -/
  last : (e.metadata :: metasOf cmds).getLast? = some e'.metadata
  lastSnapshotIndex : e'.lastSnapshotIndex = e.lastSnapshotIndex
  lastSnapshotCumHash : e'.lastSnapshotCumHash = e.lastSnapshotCumHash
  lastSnapshotPosHash : e'.lastSnapshotPosHash = e.lastSnapshotPosHash
  noSnapshot : snapshotsOf cmds = []

/-- Nothing was written. -/
theorem Wrote.refl (e : RaftEngine) : Wrote e [] e where
  nodeId := rfl
  storage := by simp
  log := (List.append_nil _).symm
  chain := List.pairwise_singleton _ _
  last := rfl
  lastSnapshotIndex := rfl
  lastSnapshotCumHash := rfl
  lastSnapshotPosHash := rfl
  noSnapshot := rfl

/-- What no vote is forgotten on the way to is kept by the last metadata. -/
theorem keeps_last {m m' : RaftMetadata} {ms : List RaftMetadata} (h : (m :: ms).Pairwise RaftMetadata.Keeps)
    (hlast : (m :: ms).getLast? = some m') : ∀ a ∈ m :: ms, a.Keeps m' := by
  obtain ⟨init, hinit⟩ := List.getLast?_eq_some_iff.mp hlast
  rw [hinit] at h ⊢
  intro a ha
  rcases List.mem_append.mp ha with ha | ha
  · exact (List.pairwise_append.mp h).2.2 a ha m' (List.mem_singleton_self m')
  · rw [List.mem_singleton.mp ha]
    exact .refl m'

/-- The chains of two steps join at the metadata in the middle. -/
theorem chain_append {m m' : RaftMetadata} {ms ms' : List RaftMetadata}
    (h : (m :: ms).Pairwise RaftMetadata.Keeps) (hlast : (m :: ms).getLast? = some m')
    (h' : (m' :: ms').Pairwise RaftMetadata.Keeps) : (m :: (ms ++ ms')).Pairwise RaftMetadata.Keeps := by
  rw [← List.cons_append, List.pairwise_append]
  refine ⟨h, h'.of_cons, ?_⟩
  intro a ha b hb
  exact (keeps_last h hlast a ha).trans ((List.pairwise_cons.mp h').1 b hb)

/-- The last of two lists in a row, where the first ends with what the second begins with. -/
theorem getLast?_append_of_last {m m' m'' : RaftMetadata} {ms ms' : List RaftMetadata}
    (h : (m :: ms).getLast? = some m') (h' : (m' :: ms').getLast? = some m'') :
    (m :: (ms ++ ms')).getLast? = some m'' := by
  rw [← List.cons_append, List.getLast?_append, h]
  cases ms' with
  | nil =>
      rw [List.getLast?_singleton] at h'
      exact h'
  | cons a ms' =>
      rw [List.getLast?_cons_cons] at h'
      rw [h', Option.some_or]

/-- **Two parts of a call in a row** wrote what each of them did. -/
theorem Wrote.trans (h : Wrote e cmds e') (h' : Wrote e' cmds' f) : Wrote e (cmds ++ cmds') f where
  nodeId := h'.nodeId.trans h.nodeId
  storage := by
    rw [h'.storage, h.storage, Option.map_map]
    congr 1
    funext s
    exact s.enqueue_enqueue cmds cmds'
  log := by rw [h'.log, h.log, appendsOf_append, List.append_assoc]
  chain := by
    rw [metasOf_append]
    exact chain_append h.chain h.last h'.chain
  last := by
    rw [metasOf_append]
    exact getLast?_append_of_last h.last h'.last
  lastSnapshotIndex := h'.lastSnapshotIndex.trans h.lastSnapshotIndex
  lastSnapshotCumHash := h'.lastSnapshotCumHash.trans h.lastSnapshotCumHash
  lastSnapshotPosHash := h'.lastSnapshotPosHash.trans h.lastSnapshotPosHash
  noSnapshot := by rw [snapshotsOf_append, h.noSnapshot, h'.noSnapshot, List.append_nil]

/-- The fields a restart reads back, and those that lead to them, are as before. -/
structure SameStored (e e' : RaftEngine) : Prop where
  nodeId : e'.nodeId = e.nodeId
  storage : e'.storage = e.storage
  log : e'.log = e.log
  metadata : e'.metadata = e.metadata
  lastSnapshotIndex : e'.lastSnapshotIndex = e.lastSnapshotIndex
  lastSnapshotCumHash : e'.lastSnapshotCumHash = e.lastSnapshotCumHash
  lastSnapshotPosHash : e'.lastSnapshotPosHash = e.lastSnapshotPosHash
  pendingPeers : e'.pendingPeers = e.pendingPeers

/-- A part that leaves what is stored wrote nothing. -/
theorem SameStored.wrote (h : SameStored e e') : Wrote e [] e' where
  nodeId := h.nodeId
  storage := by simp [h.storage]
  log := h.log.trans (List.append_nil _).symm
  chain := List.pairwise_singleton _ _
  last := by rw [h.metadata]; rfl
  lastSnapshotIndex := h.lastSnapshotIndex
  lastSnapshotCumHash := h.lastSnapshotCumHash
  lastSnapshotPosHash := h.lastSnapshotPosHash
  noSnapshot := rfl

/-- Saving the metadata of an engine that has moved in them alone. -/
theorem wrote_persistMetadata (hid : f.nodeId = e.nodeId) (hst : f.storage = e.storage) (hlog : f.log = e.log)
    (hkeeps : e.metadata.Keeps f.metadata) (hi : f.lastSnapshotIndex = e.lastSnapshotIndex)
    (hc : f.lastSnapshotCumHash = e.lastSnapshotCumHash) (hp : f.lastSnapshotPosHash = e.lastSnapshotPosHash) :
    Wrote e [.saveMeta f.currentTerm f.votedFor f.peers] f.persistMetadata where
  nodeId := hid
  storage := by
    unfold persistMetadata
    dsimp only
    rw [hst]
    rfl
  log := hlog.trans (List.append_nil _).symm
  chain := List.pairwise_pair.mpr hkeeps
  last := rfl
  lastSnapshotIndex := hi
  lastSnapshotCumHash := hc
  lastSnapshotPosHash := hp
  noSnapshot := rfl

/-! ## One lemma per handler -/

/-- Applying entries stores nothing. -/
theorem SameStored.advanceAppliedIndex (env : Env) (e : RaftEngine) :
    SameStored e (e.advanceAppliedIndex env) := by
  obtain ⟨m, d, heq, -⟩ := advanceAppliedIndex_eq env e
  rw [heq]
  exact ⟨rfl, rfl, rfl, rfl, rfl, rfl, rfl, rfl⟩

/-- Nor does committing. -/
theorem SameStored.commitIndex (e : RaftEngine) (c : Int) : SameStored e { e with commitIndex := c } :=
  ⟨rfl, rfl, rfl, rfl, rfl, rfl, rfl, rfl⟩

/-- Nor becoming leader. -/
theorem SameStored.becomeLeader (e : RaftEngine) : SameStored e e.becomeLeader :=
  ⟨rfl, rfl, rfl, rfl, rfl, rfl, rfl, rfl⟩

/-- Nor counting a vote. -/
theorem SameStored.handleVoteResponse (e : RaftEngine) (term : UInt64) (c : String) (granted : Bool) :
    SameStored e (e.handleVoteResponse term c granted) := by
  have hrefl : SameStored e e := ⟨rfl, rfl, rfl, rfl, rfl, rfl, rfl, rfl⟩
  unfold RaftEngine.handleVoteResponse
  split
  · exact hrefl
  · split
    · unfold countVote
      dsimp only
      split
      · exact ⟨rfl, rfl, rfl, rfl, rfl, rfl, rfl, rfl⟩
      · exact ⟨rfl, rfl, rfl, rfl, rfl, rfl, rfl, rfl⟩
    · exact hrefl

/-- A higher term forgets the vote, and only a higher term. -/
theorem wrote_observeTerm (e : RaftEngine) (t : UInt64) :
    ∃ cmds, Wrote e cmds (e.observeTerm t) ∧ appendsOf cmds = [] := by
  unfold observeTerm
  split
  · rename_i hlt
    exact ⟨_, wrote_persistMetadata rfl rfl rfl (.inl hlt) rfl rfl rfl, rfl⟩
  · exact ⟨[], .refl e, rfl⟩

/-- A candidate writes its new term and its vote for itself. -/
theorem wrote_candidacy (h : e.currentTerm.toNat + 1 ≠ 2 ^ 64) :
    ∃ cmds, Wrote e cmds e.candidacy ∧ appendsOf cmds = [] := by
  have hlt : e.currentTerm < e.currentTerm + 1 := by
    rw [UInt64.lt_iff_toNat_lt, UInt64.toNat_add]
    have := e.currentTerm.toNat_lt
    have hone : (1 : UInt64).toNat = 1 := rfl
    omega
  have hsave := wrote_persistMetadata (e := e) (f := { e with
    state := .candidate, currentTerm := e.currentTerm + 1, votedFor := some e.nodeId, votesReceived := ∅ })
    rfl rfl rfl (.inl hlt) rfl rfl rfl
  have hvotes : SameStored (persistMetadata { e with
      state := .candidate, currentTerm := e.currentTerm + 1, votedFor := some e.nodeId, votesReceived := ∅ })
      e.candidacy := ⟨rfl, rfl, rfl, rfl, rfl, rfl, rfl, rfl⟩
  exact ⟨_, hsave.trans hvotes.wrote, rfl⟩

/-- What an election sends are vote requests. -/
theorem wrote_startElection {outs : List RaftRPC} (h : e.startElection env = some (e', outs)) :
    ∃ cmds, Wrote e cmds e' ∧ appendsOf cmds = [] ∧ ∀ m ∈ outs, m.payload ≠ .voteResponse true := by
  unfold startElection at h
  split at h
  · cases h
  · rename_i hmax
    obtain ⟨cmds, hw, happ⟩ := wrote_candidacy (e := e) hmax
    dsimp only at h
    split at h
    · cases h
      refine ⟨_, hw.trans (SameStored.becomeLeader _).wrote, by rw [appendsOf_append, happ]; rfl, ?_⟩
      intro m hm
      cases hm
    · cases h
      refine ⟨cmds, hw, happ, ?_⟩
      intro m hm
      obtain ⟨peer, -, rfl⟩ := List.mem_map.mp hm
      exact fun hp => by cases hp

/-- Heartbeats write nothing and grant nothing. -/
theorem wrote_sendHeartbeats {outs : List RaftRPC} (h : e.sendHeartbeats env = some (e', outs)) :
    e' = e ∧ ∀ m ∈ outs, m.payload ≠ .voteResponse true := by
  obtain ⟨ps, hps, hout⟩ := Option.map_eq_some_iff.mp h
  cases hout
  refine ⟨rfl, ?_⟩
  intro m hm
  obtain ⟨p, hp, rfl⟩ := List.mem_map.mp hm
  obtain ⟨peer, hpeer⟩ := exists_of_mem_mapM hps hp
  obtain ⟨next, -, ph, pp, heq⟩ := heartbeatFor_eq_some hpeer
  rw [heq]
  exact fun hv => by cases hv

/-- **A grant is handed to the worker**, and the answer goes out with it. -/
theorem wrote_handleRequestVote {term : UInt64} {c : String} {i : Int} {t : UInt64} {out : Option RaftRPC}
    (h : e.handleRequestVote env term c i t = (e', out)) :
    ∃ cmds, Wrote e cmds e' ∧ appendsOf cmds = [] ∧
      ∀ m ∈ out, m.payload = .voteResponse true →
        m.targetId = some c ∧ m.term = e'.currentTerm ∧ e'.votedFor = some c ∧ e'.metadata ∈ metasOf cmds := by
  unfold RaftEngine.handleRequestVote at h
  dsimp only at h
  split at h
  · rename_i hg
    simp only [Bool.and_eq_true, Bool.or_eq_true, beq_iff_eq] at hg
    have hkeeps : e.metadata.Keeps { e with votedFor := some c }.metadata := by
      refine .inr ⟨rfl, ?_⟩
      rcases hg.1.2 with hv | hv
      · exact .inl hv
      · exact .inr hv.symm
    cases h
    refine ⟨_, wrote_persistMetadata rfl rfl rfl hkeeps rfl rfl rfl, rfl, ?_⟩
    intro m hm _
    cases hm
    exact ⟨rfl, rfl, rfl, List.mem_singleton_self _⟩
  · rename_i hg
    cases h
    refine ⟨[], .refl e, rfl, ?_⟩
    intro m hm hv
    cases hm
    exact absurd (RpcPayload.voteResponse.inj hv) hg

/-- Leaving joint consensus installs the pending list and saves it. -/
theorem wrote_finalizeAt (e : RaftEngine) (i : Nat) :
    ∃ cmds, Wrote e cmds (e.finalizeAt i) ∧ appendsOf cmds = [] := by
  unfold finalizeAt
  split
  · exact ⟨[], .refl e, rfl⟩
  · split
    · split
      · exact ⟨[], .refl e, rfl⟩
      · exact ⟨_, wrote_persistMetadata rfl rfl rfl (.inr ⟨rfl, .inr rfl⟩) rfl rfl rfl, rfl⟩
    · exact ⟨[], .refl e, rfl⟩

/-- Following a commit writes the peers it installs, if any. -/
theorem wrote_followCommit (e : RaftEngine) (leaderCommit : Int) :
    ∃ cmds, Wrote e cmds (e.followCommit leaderCommit) ∧ appendsOf cmds = [] := by
  have hloop : ∀ (is : List Nat) (a : RaftEngine), ∃ cmds, Wrote a cmds
      (is.foldl (fun acc (i : Nat) => acc.finalizeAt (e.commitIndex + 1 + i).toNat) a) ∧ appendsOf cmds = [] := by
    intro is
    induction is with
    | nil => intro a; exact ⟨[], .refl a, rfl⟩
    | cons i is ih =>
        intro a
        obtain ⟨cmds, hw, happ⟩ := wrote_finalizeAt a (e.commitIndex + 1 + i).toNat
        obtain ⟨cmds', hw', happ'⟩ := ih (a.finalizeAt (e.commitIndex + 1 + i).toNat)
        exact ⟨_, hw.trans hw', by rw [appendsOf_append, happ, happ', List.append_nil]⟩
  unfold followCommit
  split
  · dsimp only
    obtain ⟨cmds, hw, happ⟩ := hloop (List.range (min leaderCommit
      ((e.log.length : Int) - 1 + e.lastSnapshotIndex + 1) - e.commitIndex).toNat) { e with
        commitIndex := min leaderCommit ((e.log.length : Int) - 1 + e.lastSnapshotIndex + 1) }
    exact ⟨cmds, (SameStored.commitIndex e _).wrote.trans hw, happ⟩
  · exact ⟨[], .refl e, rfl⟩

/-- So does committing as leader. -/
theorem wrote_updateCommitIndex (e : RaftEngine) :
    ∃ cmds, Wrote e cmds e.updateCommitIndex ∧ appendsOf cmds = [] := by
  unfold updateCommitIndex
  split
  · exact ⟨[], .refl e, rfl⟩
  · rename_i n _
    obtain ⟨cmds, hw, happ⟩ := wrote_finalizeAt { e with commitIndex := n } n
    exact ⟨cmds, (SameStored.commitIndex e n).wrote.trans hw, happ⟩

/-- The answer to an append writes no entries. -/
theorem wrote_handleAppendResponse (env : Env) (e : RaftEngine) (term : UInt64) (senderId : String)
    (success : Bool) (lastLogIndex : Int) :
    ∃ cmds, Wrote e cmds (e.handleAppendResponse env term senderId success lastLogIndex) ∧
      appendsOf cmds = [] := by
  unfold RaftEngine.handleAppendResponse
  split
  · exact ⟨[], .refl e, rfl⟩
  · split
    · obtain ⟨cmds, hw, happ⟩ := wrote_updateCommitIndex { e with
        nextIndex := e.nextIndex.insert senderId (toUsize (lastLogIndex + 1))
        matchIndex := e.matchIndex.insert senderId lastLogIndex }
      have hsame : SameStored e { e with
          nextIndex := e.nextIndex.insert senderId (toUsize (lastLogIndex + 1))
          matchIndex := e.matchIndex.insert senderId lastLogIndex } := ⟨rfl, rfl, rfl, rfl, rfl, rfl, rfl, rfl⟩
      refine ⟨_, (hsame.wrote.trans hw).trans (SameStored.advanceAppliedIndex env _).wrote, ?_⟩
      simp only [appendsOf_append, happ]
      rfl
    · have hsame : SameStored e { e with
          nextIndex := e.nextIndex.insert senderId ((e.nextIndex.lookup senderId).getD 0 - 1) } :=
        ⟨rfl, rfl, rfl, rfl, rfl, rfl, rfl, rfl⟩
      exact ⟨[], hsame.wrote, rfl⟩

/-! ## Entries -/

/-- The engine with log and WAL cut to `keep` entries. -/
def cutLog (env : Env) (e : RaftEngine) (keep : Nat) : RaftEngine :=
  { e with
    log := e.log.take keep
    storage := e.storage.map fun s => s.truncateLogSuffix env keep }

/-- A cut changes nothing in the queue, so it may as well have come first. -/
theorem Wrote.cutLog (h : Wrote e cmds e') (happ : appendsOf cmds = []) (env : Env) (keep : Nat) :
    Wrote (e.cutLog env keep) cmds (e'.cutLog env keep) where
  nodeId := h.nodeId
  storage := by
    unfold RaftEngine.cutLog
    dsimp only
    rw [h.storage, Option.map_map, Option.map_map]
    congr 1
    funext s
    exact s.truncateLogSuffix_enqueue env cmds keep
  log := by
    unfold RaftEngine.cutLog
    dsimp only
    rw [h.log, happ, List.append_nil, List.append_nil]
  chain := h.chain
  last := h.last
  lastSnapshotIndex := h.lastSnapshotIndex
  lastSnapshotCumHash := h.lastSnapshotCumHash
  lastSnapshotPosHash := h.lastSnapshotPosHash
  noSnapshot := h.noSnapshot

/-- The entries an AppendEntries gets into the log: all of them if term, position and hash chain fit, else none. A
message without a readable list brings nothing. -/
def taken (env : Env) (e : RaftEngine) (term : UInt64) (prevLogIndex : Int) (prevLogTerm : UInt64) :
    Option (List LogEntry) → List LogEntry
  | none => []
  | some es =>
      if ¬ term < e.currentTerm ∧ prevMatches e.log prevLogIndex prevLogTerm = some true ∧
        verifyChain env (prevLogIndex + 1).toNat (e.chainStart prevLogIndex).1 (e.chainStart prevLogIndex).2 es
          = true then es
      else []

/-- The engine after the cut that storing `es` behind `prevLogIndex` makes. The cut does not ask whether the entries
are already there. -/
def cutFor (env : Env) (e : RaftEngine) (prevLogIndex : Int) (es : List LogEntry) : RaftEngine :=
  if es ≠ [] ∧ (e.log.length : Int) > prevLogIndex + 1 then e.cutLog env (prevLogIndex + 1).toNat else e

/-- What was written before a log is cut was written after it too. -/
theorem Wrote.cutFor (h : Wrote e cmds e') (happ : appendsOf cmds = []) (env : Env) (prev : Int)
    (es : List LogEntry) : Wrote (e.cutFor env prev es) cmds (e'.cutFor env prev es) := by
  have hlog : e'.log = e.log := by rw [h.log, happ, List.append_nil]
  unfold RaftEngine.cutFor
  rw [hlog]
  split
  · exact h.cutLog happ env _
  · exact h

/-- Storing entries: the log is cut, and they are appended and written. -/
theorem storeEntries_eq_cutFor (env : Env) (e : RaftEngine) (prev : Int) {es : List LogEntry} (hne : es ≠ []) :
    e.storeEntries env prev es = { e.cutFor env prev es with
      log := (e.cutFor env prev es).log ++ es
      pendingPeers := pendingAfter e.pendingPeers es
      storage := (e.cutFor env prev es).storage.map (·.enqueue (es.map .append)) } := by
  have hfold : ∀ s : RaftStorage, es.foldl (fun s entry => s.appendLog entry) s = s.enqueue (es.map .append) :=
    fun s => s.foldl_appendLog es
  unfold storeEntries cutFor
  by_cases hcut : (e.log.length : Int) > prev + 1
  · simp only [hcut, hne, ne_eq, not_false_eq_true, and_self, if_true, hfold, RaftEngine.cutLog, Option.map_map,
      Function.comp_def]
  · simp only [hcut, and_false, if_false, hfold]

/-- Storing entries: the cut, the pending list of the last `CONF:` entry, one `Append` command an entry. -/
theorem wrote_storeEntries (env : Env) (e : RaftEngine) (prev : Int) (es : List LogEntry) :
    Wrote (e.cutFor env prev es) (es.map .append) (if es.isEmpty then e else e.storeEntries env prev es) := by
  by_cases hnil : es = []
  · have hcut : e.cutFor env prev es = e := if_neg (by simp [hnil])
    rw [hcut, hnil]
    exact .refl e
  · rw [if_neg (by simpa using hnil), storeEntries_eq_cutFor env e prev hnil]
    refine ⟨rfl, rfl, ?_, ?_, ?_, rfl, rfl, rfl, snapshotsOf_map_append es⟩
    · rw [appendsOf_map_append]
    · rw [metasOf_map_append]
      exact List.pairwise_singleton _ _
    · rw [metasOf_map_append]
      rfl

/-- **An accepted AppendEntries**: its entries go to the log and to the worker, behind the cut; committing and applying
append nothing more. -/
theorem SameStored.wrote_accepted {f : RaftEngine} (hf : SameStored e f) (env : Env) (prev : Int) (es : List LogEntry)
    (lc : Int) :
    ∃ cmds, Wrote (e.cutFor env prev es) cmds
        (((if es.isEmpty then f else f.storeEntries env prev es).followCommit lc).advanceAppliedIndex env) ∧
      appendsOf cmds = es := by
  have hfirst := hf.wrote.cutFor rfl env prev es
  have hstore := wrote_storeEntries env f prev es
  obtain ⟨cmds, hw, happ⟩ := wrote_followCommit (if es.isEmpty then f else f.storeEntries env prev es) lc
  refine ⟨_, ((hfirst.trans hstore).trans hw).trans (SameStored.advanceAppliedIndex env _).wrote, ?_⟩
  simp only [appendsOf_append, appendsOf_map_append, happ]
  simp [appendsOf]

/-- Nothing is taken of entries that do not deserialize or that a check refuses. -/
theorem taken_eq_nil {term : UInt64} {prev : Int} {pt : UInt64} {entries : Option (List LogEntry)}
    (h : ∀ es ∈ entries, ¬ (¬ term < e.currentTerm ∧ prevMatches e.log prev pt = some true ∧
      verifyChain env (prev + 1).toNat (e.chainStart prev).1 (e.chainStart prev).2 es = true)) :
    e.taken env term prev pt entries = [] := by
  cases entries with
  | none => rfl
  | some es => exact if_neg (h es rfl)

/-- Everything is taken of entries behind the checks, which skip the hash chain of an empty list. -/
theorem taken_eq_self {term : UInt64} {prev : Int} {pt : UInt64} {es : List LogEntry} (hterm : ¬ term < e.currentTerm)
    (hmatch : prevMatches e.log prev pt = some true)
    (hchain : ¬ (!es.isEmpty &&
      !verifyChain env (prev + 1).toNat (e.chainStart prev).1 (e.chainStart prev).2 es) = true) :
    e.taken env term prev pt (some es) = es := by
  refine if_pos ⟨hterm, hmatch, ?_⟩
  cases es with
  | nil => rfl
  | cons x xs =>
      simp only [List.isEmpty_cons, Bool.not_false, Bool.true_and, Bool.not_eq_true', Bool.not_eq_false] at hchain
      exact hchain

/-- A refusal writes nothing. -/
theorem SameStored.wrote_refused {d : RaftEngine} (hd : SameStored e d) {es : List LogEntry} (hnil : es = [])
    (prev : Int) : ∃ cmds, Wrote (e.cutFor env prev es) cmds d ∧ appendsOf cmds = es := by
  have hcut : e.cutFor env prev [] = e := if_neg (by simp)
  rw [hnil, hcut]
  exact ⟨[], hd.wrote, rfl⟩

/-- The answer to an AppendEntries grants no vote. -/
theorem appendReply_ne_grant (d : RaftEngine) (success : Bool) (leaderId : String) :
    ∀ m ∈ some (d.appendReply env success leaderId), m.payload ≠ .voteResponse true := by
  intro m hm hv
  cases hm
  cases hv

/-- **An AppendEntries call**: what it takes goes to the log and to the worker, behind the cut. -/
theorem wrote_handleAppendEntries {term : UInt64} {leaderId : String} {prev : Int} {pt : UInt64}
    {entries : Option (List LogEntry)} {lc : Int} {out : Option RaftRPC}
    (h : e.handleAppendEntries env term leaderId prev pt entries lc = some (e', out)) :
    ∃ cmds, Wrote (e.cutFor env prev (e.taken env term prev pt entries)) cmds e' ∧
      appendsOf cmds = e.taken env term prev pt entries ∧ ∀ m ∈ out, m.payload ≠ .voteResponse true := by
  have hfollower : SameStored e { e with state := .follower, leaderId := some leaderId } :=
    ⟨rfl, rfl, rfl, rfl, rfl, rfl, rfl, rfl⟩
  unfold handleAppendEntries at h
  split at h
  · rename_i hterm
    cases h
    have hnil : e.taken env term prev pt entries = [] := taken_eq_nil fun es _ hc => hc.1 hterm
    obtain ⟨cmds, hw, happ⟩ := SameStored.wrote_refused ⟨rfl, rfl, rfl, rfl, rfl, rfl, rfl, rfl⟩ hnil prev
    exact ⟨cmds, hw, happ, appendReply_ne_grant _ _ _⟩
  · rename_i hterm
    unfold appendAsFollower at h
    dsimp only at h
    split at h
    · cases h
    · rename_i hmatch
      cases h
      have hnil : e.taken env term prev pt entries = [] := taken_eq_nil fun es _ hc => by
        rw [hc.2.1] at hmatch
        cases hmatch
      obtain ⟨cmds, hw, happ⟩ := hfollower.wrote_refused hnil prev
      exact ⟨cmds, hw, happ, appendReply_ne_grant _ _ _⟩
    · rename_i hmatch
      split at h
      · cases h
        have hnil : e.taken env term prev pt none = [] := rfl
        obtain ⟨cmds, hw, happ⟩ := hfollower.wrote_refused hnil prev
        exact ⟨cmds, hw, happ, by intro m hm; cases hm⟩
      · rename_i es
        split at h
        · rename_i hchain
          cases h
          simp only [Bool.and_eq_true, Bool.not_eq_true'] at hchain
          have hverify : verifyChain env (prev + 1).toNat (e.chainStart prev).1 (e.chainStart prev).2 es = false :=
            hchain.2
          have hnil : e.taken env term prev pt (some es) = [] := if_neg fun hc => by
            rw [hc.2.2] at hverify
            cases hverify
          obtain ⟨cmds, hw, happ⟩ := hfollower.wrote_refused hnil prev
          exact ⟨cmds, hw, happ, appendReply_ne_grant _ _ _⟩
        · rename_i hchain
          cases h
          rw [taken_eq_self hterm hmatch hchain]
          obtain ⟨cmds, hw, happ⟩ := hfollower.wrote_accepted env prev es lc
          exact ⟨cmds, hw, happ, appendReply_ne_grant _ _ _⟩

/-- What observing the sender's term leaves alone of a received AppendEntries. -/
theorem taken_observeTerm (env : Env) (e : RaftEngine) (term : UInt64) (prev : Int) (pt : UInt64)
    (entries : Option (List LogEntry)) :
    (e.observeTerm term).taken env term prev pt entries = e.taken env term prev pt entries := by
  cases entries with
  | none => rfl
  | some es =>
      unfold observeTerm
      split
      · rename_i hlt
        have hnew : ¬ term < term := UInt64.lt_irrefl term
        have hold : ¬ term < e.currentTerm := UInt64.not_lt.mpr (UInt64.le_of_lt hlt)
        have hchain : (persistMetadata { e with
            currentTerm := term, state := .follower, votedFor := none, leaderId := none }).chainStart prev
              = e.chainStart prev := rfl
        unfold taken
        rw [hchain]
        simp only [hold, persistMetadata, hnew]
      · rfl

/-! ## Calls -/

/-- The data starts with one of the prefixes `propose` admits. -/
def hasValidPrefix (data : String) : Bool := validPrefixes.any fun p => p.toList.isPrefixOf data.toList

/-- The entries a message adds to the log. -/
def rpcOffered (env : Env) (e : RaftEngine) (m : RaftRPC) : RpcPayload → List LogEntry
  | .appendEntries prevLogIndex prevLogTerm _ _ entries _ =>
      if e.badSignature env m then [] else e.taken env m.term prevLogIndex prevLogTerm entries
  | _ => []

/-- The engine after the cut a message makes, if it makes one. -/
def rpcCut (env : Env) (e : RaftEngine) (m : RaftRPC) : RpcPayload → RaftEngine
  | .appendEntries prevLogIndex prevLogTerm prevLogHash prevPoseidonHash entries leaderCommit =>
      e.cutFor env prevLogIndex (e.rpcOffered env m
        (.appendEntries prevLogIndex prevLogTerm prevLogHash prevPoseidonHash entries leaderCommit))
  | _ => e

/-- The entries a call adds to the log. -/
def EngineOp.offered (env : Env) (e : RaftEngine) : EngineOp → List LogEntry
  | .tick _ => []
  | .propose data zkProof =>
      if e.state = .leader ∧ hasValidPrefix data then [e.proposedEntry env data zkProof] else []
  | .rpc m => e.rpcOffered env m m.payload

/-- The engine after the cut a call makes. -/
def EngineOp.cut (env : Env) (e : RaftEngine) : EngineOp → RaftEngine
  | .rpc m => e.rpcCut env m m.payload
  | _ => e

/-- A vote this message grants is the vote of `e'`, and among the metadata handed over. -/
def GrantIn (e' : RaftEngine) (cmds : List StorageCommand) (m : RaftRPC) : Prop :=
  m.payload = .voteResponse true →
    ∃ c, m.targetId = some c ∧ m.term = e'.currentTerm ∧ e'.votedFor = some c ∧ e'.metadata ∈ metasOf cmds

/-- **A proposal** writes the entry that it offers. -/
theorem wrote_propose (env : Env) (e : RaftEngine) (data : String) (zkProof : List UInt8) :
    ∃ cmds, Wrote e cmds (e.propose env data zkProof).1 ∧
      appendsOf cmds = (EngineOp.propose data zkProof).offered env e := by
  unfold RaftEngine.propose EngineOp.offered hasValidPrefix
  dsimp only
  by_cases hl : e.state = .leader
  · by_cases hv : validPrefixes.any (fun p => p.toList.isPrefixOf data.toList) = true
    · rw [if_neg (not_not.mpr hl), if_neg (by simp [hv]), if_pos ⟨hl, hv⟩]
      exact ⟨[.append (e.proposedEntry env data zkProof)], ⟨rfl, rfl, rfl, List.pairwise_singleton _ _, rfl, rfl,
        rfl, rfl, rfl⟩, rfl⟩
    · rw [if_neg (not_not.mpr hl), if_pos (by simp [hv]), if_neg fun h => hv h.2]
      exact ⟨[], .refl e, rfl⟩
  · rw [if_pos hl, if_neg fun h => hl h.1]
    exact ⟨[], .refl e, rfl⟩

/-- **A tick** writes metadata only, and grants nothing. -/
theorem wrote_handleTick {elapsed : Bool} {outs : List RaftRPC}
    (h : e.handleTick env elapsed = some (e', outs)) :
    ∃ cmds, Wrote e cmds e' ∧ appendsOf cmds = [] ∧ ∀ m ∈ outs, m.payload ≠ .voteResponse true := by
  unfold RaftEngine.handleTick at h
  split at h
  · cases h
    exact ⟨[], .refl e, rfl, by intro m hm; cases hm⟩
  · split at h
    · obtain ⟨rfl, houts⟩ := wrote_sendHeartbeats h
      exact ⟨[], .refl e', rfl, houts⟩
    · exact wrote_startElection h

/-- **A message** writes the entries it offers behind the cut, and what it grants is in the metadata it wrote. -/
theorem wrote_handleRpc {m : RaftRPC} {out : Option RaftRPC} (h : e.handleRpc env m = some (e', out)) :
    ∃ cmds, Wrote (e.rpcCut env m m.payload) cmds e' ∧ appendsOf cmds = e.rpcOffered env m m.payload ∧
      ∀ r ∈ out, GrantIn e' cmds r := by
  unfold RaftEngine.handleRpc at h
  obtain ⟨cmds, hobs, happ⟩ := wrote_observeTerm e m.term
  split at h
  · rename_i hbad
    cases h
    have hoff : ∀ p, e.rpcOffered env m p = [] := by
      intro p
      unfold rpcOffered
      split
      · exact if_pos hbad
      · rfl
    have hcut : ∀ p, e.rpcCut env m p = e := by
      intro p
      unfold rpcCut
      split
      · rw [hoff]
        exact if_neg (by simp)
      · rfl
    rw [hcut, hoff]
    exact ⟨[], .refl e, rfl, by intro r hr; cases hr⟩
  · rename_i hbad
    unfold dispatch at h
    cases hp : m.payload with
    | requestVote i t =>
        rw [hp] at h
        obtain ⟨cmds', hw, happ', hgrant⟩ := wrote_handleRequestVote (Option.some.inj h)
        refine ⟨_, hobs.trans hw, by rw [appendsOf_append, happ, happ']; rfl, ?_⟩
        intro r hr hv
        obtain ⟨htarget, hterm, hvote, hmem⟩ := hgrant r hr hv
        refine ⟨m.senderId, htarget, hterm, hvote, ?_⟩
        rw [metasOf_append]
        exact List.mem_append_right _ hmem
    | appendEntries prev pt ph pp entries lc =>
        rw [hp] at h
        unfold rpcCut rpcOffered
        dsimp only at h ⊢
        rw [if_neg hbad]
        obtain ⟨cmds', hw, happ', hno⟩ := wrote_handleAppendEntries h
        rw [taken_observeTerm] at hw happ'
        refine ⟨_, (hobs.cutFor happ env prev _).trans hw, by rw [appendsOf_append, happ, happ']; rfl, ?_⟩
        exact fun r hr hv => absurd hv (hno r hr)
    | voteResponse granted =>
        rw [hp] at h
        cases h
        exact ⟨_, hobs.trans (SameStored.handleVoteResponse _ _ _ _).wrote, by rw [appendsOf_append, happ]; rfl,
          by intro r hr; cases hr⟩
    | appendResponse success i =>
        rw [hp] at h
        cases h
        obtain ⟨cmds', hw, happ'⟩ :=
          wrote_handleAppendResponse env (e.observeTerm m.term) m.term m.senderId success i
        exact ⟨_, hobs.trans hw, by rw [appendsOf_append, happ, happ']; rfl, by intro r hr; cases hr⟩
    | malformed =>
        rw [hp] at h
        cases h
        exact ⟨_, hobs, happ, by intro r hr; cases hr⟩

/-- **What a call hands over.** Behind the cut it makes, the commands it queues are exactly its change of log and
metadata, and every vote it grants is among them. -/
theorem wrote_call {op : EngineOp} {outs : List RaftRPC} (h : op.call env e = some (e', outs)) :
    ∃ cmds, Wrote (op.cut env e) cmds e' ∧ appendsOf cmds = op.offered env e ∧
      ∀ m ∈ outs, GrantIn e' cmds m := by
  cases op with
  | tick elapsed =>
      obtain ⟨cmds, hw, happ, hno⟩ := wrote_handleTick h
      exact ⟨cmds, hw, happ, fun m hm hv => absurd hv (hno m hm)⟩
  | propose data zkProof =>
      cases h
      obtain ⟨cmds, hw, happ⟩ := wrote_propose env e data zkProof
      exact ⟨cmds, hw, happ, by intro m hm; cases hm⟩
  | rpc m =>
      obtain ⟨⟨f, out⟩, hcall, heq⟩ := Option.map_eq_some_iff.mp h
      cases heq
      obtain ⟨cmds, hw, happ, hgrant⟩ := wrote_handleRpc hcall
      exact ⟨cmds, hw, happ, fun r hr => hgrant r (Option.mem_toList.mp hr)⟩

/-! ## Member lists -/

/-- **The member lists behind the appends of a call**: they are as before, or the waiting one was installed. -/
def TakesPending (e e' : RaftEngine) : Prop :=
  e'.peers = e.peers ∧ e'.pendingPeers = e.pendingPeers ∨ e.pendingPeers = some e'.peers ∧ e'.pendingPeers = none

/-- Peers that stay. -/
theorem TakesPending.refl (e : RaftEngine) : TakesPending e e := .inl ⟨rfl, rfl⟩

/-- Once the waiting list is installed, nothing waits any more. -/
theorem TakesPending.trans (h : TakesPending e e') (h' : TakesPending e' f) : TakesPending e f := by
  rcases h with ⟨hpeers, hpend⟩ | ⟨hpeers, hpend⟩
  · unfold TakesPending at h' ⊢
    rwa [hpeers, hpend] at h'
  · rcases h' with ⟨hpeers', hpend'⟩ | ⟨hpeers', -⟩
    · exact .inr ⟨hpeers.trans (congrArg some hpeers'.symm), hpend'.trans hpend⟩
    · rw [hpend] at hpeers'
      cases hpeers'

/-- A part that leaves what is stored leaves the peers. -/
theorem SameStored.takesPending (h : SameStored e e') : TakesPending e e' :=
  .inl ⟨congrArg RaftMetadata.peers h.metadata, h.pendingPeers⟩

/-- An entry that is committed may install the pending peers. -/
theorem takesPending_finalizeAt (e : RaftEngine) (i : Nat) : TakesPending e (e.finalizeAt i) := by
  unfold finalizeAt
  split
  · exact .refl e
  · split
    · split
      · exact .refl e
      · rename_i pending hpend
        exact .inr ⟨hpend, rfl⟩
    · exact .refl e

/-- So may following a commit. -/
theorem takesPending_followCommit (e : RaftEngine) (leaderCommit : Int) :
    TakesPending e (e.followCommit leaderCommit) := by
  have hloop : ∀ (is : List Nat) (a : RaftEngine), TakesPending a
      (is.foldl (fun acc (i : Nat) => acc.finalizeAt (e.commitIndex + 1 + i).toNat) a) := by
    intro is
    induction is with
    | nil => exact .refl
    | cons i is ih => exact fun a => (takesPending_finalizeAt a _).trans (ih _)
  unfold followCommit
  split
  · exact (SameStored.commitIndex e _).takesPending.trans (hloop _ _)
  · exact .refl e

/-- And committing as leader. -/
theorem takesPending_updateCommitIndex (e : RaftEngine) : TakesPending e e.updateCommitIndex := by
  unfold updateCommitIndex
  split
  · exact .refl e
  · rename_i n _
    exact (SameStored.commitIndex e n).takesPending.trans (takesPending_finalizeAt _ n)

/-- An election leaves the peers. -/
theorem peers_startElection {outs : List RaftRPC} (h : e.startElection env = some (e', outs)) :
    e'.peers = e.peers := by
  unfold startElection at h
  split at h
  · cases h
  · dsimp only at h
    split at h
    · cases h
      rfl
    · cases h
      rfl

/-- The list that waits when a message comes to its commits. -/
def pendingFor (e : RaftEngine) : RpcPayload → Option (List String)
  | .appendEntries _ _ _ _ (some entries) _ => pendingAfter e.pendingPeers entries
  | _ => e.pendingPeers

/-- The list a call installs, if it installs one. -/
def EngineOp.installed (env : Env) (e : RaftEngine) : EngineOp → Option (List String)
  | .rpc m =>
      if e.badSignature env m ∨ e.InstallsNothing env m.term m.senderId m.payload then none
      else e.pendingFor m.payload
  | _ => none

/-- A follower's peers stay, or are those of a list that was appended and committed. -/
theorem peers_appendAsFollower {leaderId : String} {prev : Int} {pt : UInt64} {entries : Option (List LogEntry)}
    {lc : Int} {out : Option RaftRPC} (h : e.appendAsFollower env leaderId prev pt entries lc = some (e', out)) :
    e'.peers = e.peers ∨ ∃ es, entries = some es ∧ pendingAfter e.pendingPeers es = some e'.peers := by
  unfold appendAsFollower at h
  split at h
  · cases h
  · cases h
    exact .inl rfl
  · split at h
    · cases h
      exact .inl rfl
    · rename_i es
      dsimp only at h
      split at h
      · cases h
        exact .inl rfl
      · cases h
        have hstored : (if es.isEmpty then e else e.storeEntries env prev es).peers = e.peers ∧
            (if es.isEmpty then e else e.storeEntries env prev es).pendingPeers = pendingAfter e.pendingPeers es := by
          cases es <;> exact ⟨rfl, rfl⟩
        have htakes := (takesPending_followCommit (if es.isEmpty then e else e.storeEntries env prev es) lc).trans
          (SameStored.advanceAppliedIndex env _).takesPending
        unfold TakesPending at htakes
        rw [hstored.1, hstored.2] at htakes
        exact htakes.imp And.left fun hpend => ⟨es, rfl, hpend.1⟩

/-- **A message leaves the members, or installs the list that waits.** -/
theorem peers_handleRpc {m : RaftRPC} {out : Option RaftRPC} (h : e.handleRpc env m = some (e', out)) :
    e'.peers = e.peers ∨ e.pendingFor m.payload = some e'.peers := by
  obtain ⟨T, S, V, l, st, -, heq⟩ := observeTerm_eq e m.term
  have hquiet : e.InstallsNothing env m.term m.senderId m.payload → e'.peers = e.peers :=
    fun hno => (handleRpc_event (fun _ => hno) h).peers_eq
  cases hp : m.payload with
  | appendEntries prev pt ph pp entries lc =>
      unfold RaftEngine.handleRpc dispatch handleAppendEntries at h
      rw [heq, hp] at h
      split at h
      · cases h
        exact .inl rfl
      · dsimp only at h
        split at h
        · cases h
          exact .inl rfl
        · rcases peers_appendAsFollower h with hsame | ⟨es, rfl, hpend⟩
          · exact .inl hsame
          · exact .inr hpend
  | appendResponse success i =>
      unfold RaftEngine.handleRpc dispatch at h
      rw [heq, hp] at h
      split at h
      · cases h
        exact .inl rfl
      · cases h
        unfold RaftEngine.handleAppendResponse
        split
        · exact .inl rfl
        · split
          · have htakes := (takesPending_updateCommitIndex { e with
              currentTerm := T, state := S, votedFor := V, leaderId := l, storage := st
              nextIndex := e.nextIndex.insert m.senderId (toUsize (i + 1))
              matchIndex := e.matchIndex.insert m.senderId i }).trans (SameStored.advanceAppliedIndex env _).takesPending
            exact htakes.imp And.left And.left
          · exact .inl rfl
  | requestVote i t =>
      rw [hp] at hquiet
      exact .inl (hquiet trivial)
  | voteResponse granted =>
      rw [hp] at hquiet
      exact .inl (hquiet trivial)
  | malformed =>
      rw [hp] at hquiet
      exact .inl (hquiet trivial)

/-- **The members after a call** are those before it, or the list it installs. -/
theorem peers_call {op : EngineOp} {outs : List RaftRPC} (h : op.call env e = some (e', outs)) :
    e'.peers = e.peers ∨ op.installed env e = some e'.peers := by
  cases op with
  | tick elapsed => exact .inl (handleTick_event h).peers_eq
  | propose data zkProof =>
      cases h
      exact .inl (propose_event e data zkProof).peers_eq
  | rpc m =>
      obtain ⟨⟨f, out⟩, hcall, heq⟩ := Option.map_eq_some_iff.mp h
      cases heq
      by_cases hquiet : e.badSignature env m = true ∨ e.InstallsNothing env m.term m.senderId m.payload
      · refine .inl (handleRpc_event (fun hsig => hquiet.resolve_left ?_) hcall).peers_eq
        rw [hsig]
        exact Bool.false_ne_true
      · have hinstalled : (EngineOp.rpc m).installed env e = e.pendingFor m.payload := if_neg hquiet
        rw [hinstalled]
        exact peers_handleRpc hcall

/-! ## Snapshots -/

/-- `snap` records the state behind the first `n` entries of the log; `n = 0` is the last snapshot again. -/
structure SnapshotAt (e : RaftEngine) (snap : RaftSnapshot) (n : Nat) : Prop where
  index : (snap.lastIncludedIndex : Int) = e.lastSnapshotIndex + n
  le : n ≤ e.log.length
  same : n = 0 → snap.cumulativeHash = e.lastSnapshotCumHash ∧ snap.poseidonHash = e.lastSnapshotPosHash
  tip : ∀ k, n = k + 1 →
    ∃ x, e.log[k]? = some x ∧ snap.cumulativeHash = x.cumulativeHash ∧ snap.poseidonHash = x.poseidonHash

/-- The engine after it recorded `snap` and dropped the `n` entries before it. -/
def snapshotted (e : RaftEngine) (snap : RaftSnapshot) (n : Nat) (s : RaftStorage) : RaftEngine :=
  { e with
    log := e.log.drop n
    lastSnapshotIndex := snap.lastIncludedIndex
    lastSnapshotTerm := snap.lastIncludedTerm
    lastSnapshotCumHash := snap.cumulativeHash
    lastSnapshotPosHash := snap.poseidonHash
    stateMachineData := snap.data
    storage := some (s.enqueue [.snapshot snap]) }

/-- **A snapshot does nothing, or is handed to the worker while the log in memory is cut.** The WAL keeps what the
log drops. -/
theorem saveCurrentSnapshot_cases (e : RaftEngine) (data : String) :
    e.saveCurrentSnapshot data = e ∨
      ∃ s snap n, e.storage = some s ∧ SnapshotAt e snap n ∧ e.saveCurrentSnapshot data = e.snapshotted snap n s := by
  unfold saveCurrentSnapshot
  split
  · exact .inl rfl
  · rename_i hlow
    dsimp only
    split
    · rename_i term cum pos s hincl hst
      right
      split at hincl
      · -- the index of the last snapshot again: nothing to drop
        rename_i hidx
        cases hincl
        refine ⟨s, ⟨data, e.lastApplied.toNat, e.lastSnapshotTerm, e.lastSnapshotCumHash, e.lastSnapshotPosHash⟩, 0,
          hst, ⟨by simpa using hidx, Nat.zero_le _, fun _ => ⟨rfl, rfl⟩, fun k hk => absurd hk (by omega)⟩, ?_⟩
        rw [if_neg (by omega)]
        rfl
      · rename_i hidx
        obtain ⟨x, hx, heq⟩ := Option.map_eq_some_iff.mp hincl
        cases heq
        unfold getEntry at hx
        split at hx
        · cases hx
        · rename_i hgt
          obtain ⟨hlt, -⟩ := List.getElem?_eq_some_iff.mp hx
          have hn : ((e.lastApplied.toNat : Int) - e.lastSnapshotIndex).toNat
              = ((e.lastApplied.toNat : Int) - e.lastSnapshotIndex - 1).toNat + 1 := by omega
          refine ⟨s, ⟨data, e.lastApplied.toNat, x.term, x.cumulativeHash, x.poseidonHash⟩,
            ((e.lastApplied.toNat : Int) - e.lastSnapshotIndex).toNat, hst, ⟨?_, by omega, ?_, ?_⟩, ?_⟩
          · dsimp only
            omega
          · intro h0
            omega
          · intro k hk
            refine ⟨x, ?_, rfl, rfl⟩
            rw [← hx]
            congr 1
            omega
          · rw [if_pos (by omega)]
            rfl
    · exact .inl rfl

/-! ## What a restart reads back -/

/-- The engine on the snapshot of the directory, if there is one. -/
def onSnapshot (e : RaftEngine) : Option RaftSnapshot → RaftEngine
  | none => e
  | some snap => { e with
      lastSnapshotIndex := snap.lastIncludedIndex
      lastSnapshotTerm := snap.lastIncludedTerm
      stateMachineData := snap.data
      lastSnapshotCumHash := snap.cumulativeHash
      lastSnapshotPosHash := snap.poseidonHash
      commitIndex := snap.lastIncludedIndex
      lastApplied := snap.lastIncludedIndex }

/-- The engine with what the files hold, on the log `log` and the storage `s`. -/
def loaded (e : RaftEngine) (s : RaftStorage) (log : List LogEntry) : RaftEngine :=
  { e with
    currentTerm := s.loadMetadata.1
    votedFor := s.loadMetadata.2.1
    peers := if s.loadMetadata.2.2.isEmpty then e.peers else s.loadMetadata.2.2
    log := log
    storage := some s }

/-- A verified log is loaded, and then the snapshot. -/
theorem boot_of_verified {env : Env} {s : RaftStorage} (h : s.verifyWalIntegrity env = none) (e : RaftEngine) :
    boot env e s = (e.loaded s (s.loadLog env)).onSnapshot s.snapshotFile := by
  unfold boot
  simp only [h]
  unfold onSnapshot loaded
  cases s.snapshotFile <;> rfl

/-- On a WAL that does not verify, the recovery entry comes behind the cut and is queued. -/
theorem boot_of_breach {env : Env} {s : RaftStorage} {offset : Nat} (h : s.verifyWalIntegrity env = some offset)
    (e : RaftEngine) :
    ∃ x, boot env e s = (e.loaded ((s.recoverFromCorruption offset).appendLog x)
      ((s.recoverFromCorruption offset).loadLog env ++ [x])).onSnapshot s.snapshotFile := by
  refine ⟨recoveryEntry env e.nodeId s.loadMetadata.1 ((s.recoverFromCorruption offset).loadLog env) offset, ?_⟩
  have hsnap : ∀ x, ((s.recoverFromCorruption offset).appendLog x).snapshotFile = s.snapshotFile := fun _ => rfl
  unfold boot
  simp only [h, hsnap]
  unfold onSnapshot loaded
  cases s.snapshotFile <;> rfl

/-- The snapshot leaves the storage. -/
theorem onSnapshot_storage (e : RaftEngine) (o : Option RaftSnapshot) : (e.onSnapshot o).storage = e.storage := by
  cases o <;> rfl

/-- And the metadata. -/
theorem onSnapshot_metadata (e : RaftEngine) (o : Option RaftSnapshot) :
    (e.onSnapshot o).metadata = e.metadata := by
  cases o <;> rfl

/-- And the log. -/
theorem onSnapshot_log (e : RaftEngine) (o : Option RaftSnapshot) : (e.onSnapshot o).log = e.log := by
  cases o <;> rfl

end RaftEngine

end WarmLogic.Consensus
