/-
# WarmLogic.Consensus.Raft — the Raft engine of `consensus/raft.rs`, function by function.

Conventions of the embedding.
* `Option` results: `none` is a panic (an index or slice outside the log, or the overflow of the `u64` term in
  a build with overflow checks). A node that panicked takes no further step.
* Time is not modelled: `handleTick` receives whether its deadline has elapsed.
* `commit_index`, `last_applied` and the payload's indices are `i64` and become `Int`; lengths and
  `next_index` are `usize` and become `Nat`.
* The attached `StateMachine` is the list of `apply` calls made so far; what it answers is
  `Env.machineReply` of that list.
* `public_key`, `broadcast_tx`, the two timing fields and the tracing output are read by no function below
  and are left out.
-/
import Mathlib.Data.List.AList
import Mathlib.Data.Finset.Dedup
import Mathlib.Data.Finset.Insert
import WarmLogic.Consensus.Storage

namespace WarmLogic.Consensus

/-! ## Texts -/

/-- `str::strip_prefix`. -/
def stripPrefix (p s : String) : Option String :=
  if p.toList.isPrefixOf s.toList then some (String.ofList (s.toList.drop p.toList.length)) else none

/-- `char::is_whitespace`, the Unicode property White_Space. -/
def isWhitespace (c : Char) : Bool :=
  let n := c.toNat
  (9 ≤ n && n ≤ 13) || n == 0x20 || n == 0x85 || n == 0xA0 || n == 0x1680
    || (0x2000 ≤ n && n ≤ 0x200A) || n == 0x2028 || n == 0x2029 || n == 0x202F || n == 0x205F
    || n == 0x3000

/-- `str::trim` on the characters. -/
def trim (cs : List Char) : List Char :=
  ((cs.dropWhile isWhitespace).reverse.dropWhile isWhitespace).reverse

/-- The member list of a `CONF:` entry: split at commas, trim, drop the empty names; `none` for any other
data. -/
def confPeers (data : String) : Option (List String) :=
  (stripPrefix "CONF:" data).map fun stripped =>
    ((stripped.toList.splitOn ',').map fun s => String.ofList (trim s)).filter (· ≠ "")

/-- `CONF:` data. -/
def isConf (data : String) : Bool := (stripPrefix "CONF:" data).isSome

/-- `valid_prefixes` of `propose`. -/
def validPrefixes : List String := ["TARGET:", "PHALANX:", "LAND:", "CONF:", "REC-RECOVERY:"]

/-- `x as usize` for an `i64` on a 64-bit machine. -/
def toUsize (x : Int) : Nat := (x % 2 ^ 64).toNat

/-! ## The engine -/

/-- `HashMap<String, α>`. -/
abbrev StringMap (α : Type) := AList fun _ : String => α

structure RaftEngine where
  nodeId : String
  peers : List String
  privateKey : String
  currentTerm : UInt64
  votedFor : Option String
  log : List LogEntry
  commitIndex : Int
  lastApplied : Int
  state : RaftState
  leaderId : Option String
  lastSnapshotIndex : Int
  lastSnapshotTerm : UInt64
  stateMachineData : String
  lastSnapshotCumHash : String
  lastSnapshotPosHash : String
  nextIndex : StringMap Nat
  matchIndex : StringMap Int
  votesReceived : Finset String
  storage : Option RaftStorage
  pendingPeers : Option (List String)
  missionPoseidonHash : String
  peerKeys : StringMap String
  stateMachine : Option (List (Nat × String))

/-- `calculate_entry_hashes`: the SHA-256 link, and the Poseidon link of a `zk` build. -/
def calculateEntryHashes (env : Env) (term : UInt64) (index : Nat) (data prevSha prevPos : String) :
    String × String :=
  (env.sha256 (toString term ++ ":" ++ toString index ++ ":" ++ data ++ ":" ++ prevSha),
    if env.zk then env.poseidon term index data prevPos else zeroHash)

namespace RaftEngine

/-- The term of the last log entry, 0 for the empty log. -/
def lastLogTerm (e : RaftEngine) : UInt64 := (e.log.getLast?.map (·.term)).getD 0

/-- The position of the last log entry, -1 for the empty log. -/
def lastLogIndex (e : RaftEngine) : Int := (e.log.length : Int) - 1

def persistMetadata (e : RaftEngine) : RaftEngine :=
  { e with storage := e.storage.map fun s => s.saveMetadata e.currentTerm e.votedFor e.peers }

/-- `get_entry`: by ABSOLUTE index, counted past the snapshot. -/
def getEntry (e : RaftEngine) (index : Nat) : Option LogEntry :=
  if (index : Int) ≤ e.lastSnapshotIndex then none
  else e.log[((index : Int) - e.lastSnapshotIndex - 1).toNat]?

/-! ### Construction and recovery -/

/-- The entry `new` writes after it cut a corrupted WAL at `offset`. -/
def recoveryEntry (env : Env) (nodeId : String) (term : UInt64) (log : List LogEntry) (offset : Nat) :
    LogEntry :=
  let prevSha := (log.getLast?.map (·.cumulativeHash)).getD zeroHash
  let data := "REC-RECOVERY:\x7b \"off\": " ++ toString offset ++ ", \"sig\": \"AEGIS-AUTO\" \x7d"
  { term := term
    data := data
    signature := "🛡️ AEGIS"
    voterId := nodeId
    cumulativeHash := env.sha256 (toString term ++ ":" ++ toString log.length ++ ":" ++ data ++ ":"
      ++ prevSha)
    poseidonHash := zeroHash
    zkProof := []
    index := UInt64.ofNat log.length }

/-- A node without storage, or the common part of `new`. -/
def blank (nodeId : String) (peers : List String) (privateKey : String)
    (stateMachine : Option (List (Nat × String))) : RaftEngine where
  nodeId := nodeId
  peers := peers
  privateKey := privateKey
  currentTerm := 0
  votedFor := none
  log := []
  commitIndex := -1
  lastApplied := -1
  state := .follower
  leaderId := none
  lastSnapshotIndex := -1
  lastSnapshotTerm := 0
  stateMachineData := ""
  lastSnapshotCumHash := zeroHash
  lastSnapshotPosHash := zeroHash
  nextIndex := ∅
  matchIndex := ∅
  votesReceived := ∅
  storage := none
  pendingPeers := none
  missionPoseidonHash := zeroHash
  peerKeys := ∅
  stateMachine := stateMachine

/-- `new` on an opened storage: verify, cut a corrupted WAL, load metadata, log and snapshot. -/
def boot (env : Env) (e : RaftEngine) (s : RaftStorage) : RaftEngine :=
  let breach := s.verifyWalIntegrity env
  let s := match breach with
    | none => s
    | some offset => s.recoverFromCorruption offset
  let (term, vote, storedPeers) := s.loadMetadata
  let baseLog := s.loadLog env
  let (log, s) := match breach with
    | none => (baseLog, s)
    | some offset =>
        -- the cut is recorded as an entry of its own, in memory and in the WAL
        let entry := recoveryEntry env e.nodeId term baseLog offset
        (baseLog ++ [entry], s.appendLog entry)
  let e := { e with
    currentTerm := term
    votedFor := vote
    -- a stored member list wins over the one given to `new`
    peers := if storedPeers.isEmpty then e.peers else storedPeers
    log := log
    storage := some s }
  match s.snapshotFile with
  | none => e
  | some snap => { e with
      lastSnapshotIndex := snap.lastIncludedIndex
      lastSnapshotTerm := snap.lastIncludedTerm
      stateMachineData := snap.data
      lastSnapshotCumHash := snap.cumulativeHash
      lastSnapshotPosHash := snap.poseidonHash
      commitIndex := snap.lastIncludedIndex
      lastApplied := snap.lastIncludedIndex }

/-- `new`; the storage argument is what `RaftStorage::new` opened, if a directory was given. -/
def new (env : Env) (nodeId : String) (peers : List String) (privateKey : String)
    (storage : Option RaftStorage) (stateMachine : Option (List (Nat × String))) : RaftEngine :=
  match storage with
  | none => blank nodeId peers privateKey stateMachine
  | some s => boot env (blank nodeId peers privateKey stateMachine) s

/-! ### Messages and quorums -/

def createRpc (env : Env) (e : RaftEngine) (payload : RpcPayload) (targetId : Option String) : RaftRPC where
  term := e.currentTerm
  senderId := e.nodeId
  targetId := targetId
  payload := payload
  signature := (env.signRaw e.privateKey (payload.rpcType ++ ":" ++ toString e.currentTerm ++ ":"
    ++ e.nodeId ++ ":" ++ env.payloadText payload)).getD "INVALID_SIG"
  poseidonHash := e.missionPoseidonHash

/-- One side of `has_quorum`: this node plus the listed peers among the votes, against half the list
rounded up. -/
def listQuorum (nodeId : String) (peers : List String) (votes : Finset String) : Bool :=
  decide ((peers.length + 1) / 2 < (if nodeId ∈ votes then 1 else 0) + peers.countP (· ∈ votes))

/-- `has_quorum`; while a reconfiguration is pending, both lists must agree. -/
def hasQuorum (e : RaftEngine) (votes : Finset String) : Bool :=
  match e.pendingPeers with
  | some pending => listQuorum e.nodeId e.peers votes && listQuorum e.nodeId pending votes
  | none => listQuorum e.nodeId e.peers votes

/-- The nodes known to hold position `n`: this one, and every peer whose match index reaches it. -/
def matchVotes (e : RaftEngine) (n : Int) : Finset String :=
  insert e.nodeId ((e.matchIndex.entries.filter fun m => n ≤ m.2).map (·.1)).toFinset

def hasCommittedAt (e : RaftEngine) (n : Int) : Bool := e.hasQuorum (e.matchVotes n)

/-! ### Commit and apply -/

/-- Leaving joint consensus at a committed index: a `CONF:` entry there installs the pending list. -/
def finalizeAt (e : RaftEngine) (index : Nat) : RaftEngine :=
  match e.getEntry index with
  | none => e
  | some entry =>
      if isConf entry.data then
        match e.pendingPeers with
        | none => e
        | some pending => persistMetadata { e with peers := pending, pendingPeers := none }
      else e

/-- The downward scan of `update_commit_index`; the argument is one more than the position looked at. -/
def commitScan (e : RaftEngine) : Nat → Option Nat
  | 0 => none
  | n + 1 =>
      if (n : Int) ≤ e.commitIndex then none
      -- an entry of an earlier term is never committed by counting
      else if e.log[n]?.map (·.term) = some e.currentTerm ∧ e.hasCommittedAt n then some n
      else e.commitScan n

def updateCommitIndex (e : RaftEngine) : RaftEngine :=
  match e.commitScan e.log.length with
  | none => e
  | some n => finalizeAt { e with commitIndex := n } n

/-- One turn of `advance_applied_index`. -/
def applyNext (env : Env) (e : RaftEngine) : RaftEngine :=
  let idx := (e.lastApplied + 1).toNat
  let e' := { e with lastApplied := e.lastApplied + 1 }
  match e.getEntry idx with
  -- nothing there: the index is counted as applied all the same
  | none => e'
  | some entry => match e.stateMachine with
    | some calls => { e' with
        stateMachine := some (calls ++ [(idx, entry.data)])
        stateMachineData := env.machineReply (calls ++ [(idx, entry.data)]) }
    | none => { e' with stateMachineData := entry.data }

def applyLoop (env : Env) : Nat → RaftEngine → RaftEngine
  | 0, e => e
  | n + 1, e => applyLoop env n (applyNext env e)

/-- `advance_applied_index`: the loop runs once for each index up to the commit index. -/
def advanceAppliedIndex (env : Env) (e : RaftEngine) : RaftEngine :=
  applyLoop env (e.commitIndex - e.lastApplied).toNat e

/-! ### Elections and heartbeats -/

def becomeLeader (e : RaftEngine) : RaftEngine :=
  { e with
    state := .leader
    leaderId := some e.nodeId
    -- what the maps say about nodes that are no peers any more stays
    nextIndex := e.peers.foldl (fun m p => m.insert p e.log.length) e.nextIndex
    matchIndex := e.peers.foldl (fun m p => m.insert p (-1)) e.matchIndex }

/-- The state changes of `start_election` before it looks at its peers. -/
def candidacy (e : RaftEngine) : RaftEngine :=
  { persistMetadata { e with
      state := .candidate
      currentTerm := e.currentTerm + 1
      votedFor := some e.nodeId
      votesReceived := ∅ } with
    votesReceived := {e.nodeId} }

/-- `start_election`; `none` when the term overflows. -/
def startElection (env : Env) (e : RaftEngine) : Option (RaftEngine × List RaftRPC) :=
  if e.currentTerm.toNat + 1 = 2 ^ 64 then none
  else
    let c := e.candidacy
    if c.peers.isEmpty then some (c.becomeLeader, [])
    else some (c, c.peers.map fun _ =>
      c.createRpc env (.requestVote c.lastLogIndex c.lastLogTerm) none)

/-- The AppendEntries payload for one peer; `none` when `next_index` points past the log. -/
def heartbeatFor (e : RaftEngine) (peer : String) : Option RpcPayload :=
  let next := (e.nextIndex.lookup peer).getD e.log.length
  -- both the read at `next - 1` and the slice from `next` on are out of range
  if e.log.length < next then none
  else
    let prev := if next = 0 then none else e.log[next - 1]?
    some (.appendEntries ((next : Int) - 1) ((prev.map (·.term)).getD 0)
      ((prev.map (·.cumulativeHash)).getD zeroHash) ((prev.map (·.poseidonHash)).getD zeroHash)
      (some (e.log.drop next)) e.commitIndex)

def sendHeartbeats (env : Env) (e : RaftEngine) : Option (RaftEngine × List RaftRPC) :=
  (e.peers.mapM e.heartbeatFor).map fun payloads =>
    (e, payloads.map fun p => e.createRpc env p none)

/-- `handle_tick`, with the elapsed deadline as an input. -/
def handleTick (env : Env) (e : RaftEngine) (elapsed : Bool) : Option (RaftEngine × List RaftRPC) :=
  if !elapsed then some (e, [])
  else if e.state = .leader then e.sendHeartbeats env
  else e.startElection env

/-! ### Handlers -/

/-- Step 2 of `handle_rpc`: a higher term makes a follower with no vote and no leader. -/
def observeTerm (e : RaftEngine) (term : UInt64) : RaftEngine :=
  if term > e.currentTerm then
    persistMetadata { e with
      currentTerm := term, state := .follower, votedFor := none, leaderId := none }
  else e

def handleRequestVote (env : Env) (e : RaftEngine) (term : UInt64) (candidateId : String)
    (candLastLogIndex : Int) (candLastLogTerm : UInt64) : RaftEngine × Option RaftRPC :=
  let granted := !(term < e.currentTerm : Bool)
    && (e.votedFor == none || e.votedFor == some candidateId)
    && ((candLastLogTerm > e.lastLogTerm : Bool)
      || (candLastLogTerm == e.lastLogTerm && decide (e.lastLogIndex ≤ candLastLogIndex)))
  let e' := if granted then persistMetadata { e with votedFor := some candidateId } else e
  (e', some (e'.createRpc env (.voteResponse granted) (some candidateId)))

/-- The consistency check; `none` is the out-of-range access of a `prev_log_index` below -1. -/
def prevMatches (log : List LogEntry) (prevLogIndex : Int) (prevLogTerm : UInt64) : Option Bool :=
  if prevLogIndex = -1 then some true
  else if prevLogIndex < log.length then
    if prevLogIndex < 0 then none
    else some (log[prevLogIndex.toNat]?.map (·.term) == some prevLogTerm)
  else some false

/-- The hash-chain loop over the received entries. -/
def verifyChain (env : Env) : Nat → String → String → List LogEntry → Bool
  | _, _, _, [] => true
  | index, sha, pos, entry :: entries =>
      let expected := calculateEntryHashes env entry.term index entry.data sha pos
      if env.zk ∧ entry.poseidonHash ≠ "" ∧ entry.poseidonHash ≠ expected.2 then false
      else if entry.cumulativeHash ≠ expected.1 then false
      else verifyChain env (index + 1) expected.1 expected.2 entries

/-- The hashes the received chain must extend: those of the previous entry, else of the snapshot. -/
def chainStart (e : RaftEngine) (prevLogIndex : Int) : String × String :=
  let prev := if 0 ≤ prevLogIndex then e.log[prevLogIndex.toNat]? else none
  let sha := (prev.map (·.cumulativeHash)).getD e.lastSnapshotCumHash
  let pos := (prev.map (·.poseidonHash)).getD e.lastSnapshotPosHash
  (if sha = "" then zeroHash else sha, if pos = "" then zeroHash else pos)

/-- The pending list after a follower stored `entries`: the last `CONF:` among them, else what it was. -/
def pendingAfter (pending : Option (List String)) (entries : List LogEntry) : Option (List String) :=
  entries.foldl (fun acc entry => match confPeers entry.data with
    | some newPeers => some newPeers
    | none => acc) pending

/-- Truncate behind the consistency point, in memory and in the WAL, and append the entries. -/
def storeEntries (env : Env) (e : RaftEngine) (prevLogIndex : Int) (entries : List LogEntry) :
    RaftEngine :=
  let keep := (prevLogIndex + 1).toNat
  let cut := (e.log.length : Int) > prevLogIndex + 1
  { e with
    -- the cut does not ask whether the old entries conflict with the new ones
    log := (if cut then e.log.take keep else e.log) ++ entries
    pendingPeers := pendingAfter e.pendingPeers entries
    storage := e.storage.map fun s =>
      entries.foldl (fun s entry => s.appendLog entry)
        (if cut then s.truncateLogSuffix env keep else s) }

/-- Follow the leader's commit index, bounded by the own log, and finalise every index passed. -/
def followCommit (e : RaftEngine) (leaderCommit : Int) : RaftEngine :=
  if leaderCommit > e.commitIndex then
    -- on a log that was cut below the commit index this moves the commit index BACK
    let newCommit := min leaderCommit ((e.log.length : Int) - 1 + e.lastSnapshotIndex + 1)
    (List.range (newCommit - e.commitIndex).toNat).foldl
      (fun acc (i : Nat) => acc.finalizeAt (e.commitIndex + 1 + i).toNat)
      { e with commitIndex := newCommit }
  else e

def appendReply (env : Env) (e : RaftEngine) (success : Bool) (leaderId : String) : RaftRPC :=
  e.createRpc env (.appendResponse success e.lastLogIndex) (some leaderId)

/-- `handle_append_entries` behind the term check, on a node that has become a follower of the sender. -/
def appendAsFollower (env : Env) (f : RaftEngine) (leaderId : String) (prevLogIndex : Int)
    (prevLogTerm : UInt64) (entries : Option (List LogEntry)) (leaderCommit : Int) :
    Option (RaftEngine × Option RaftRPC) :=
  match prevMatches f.log prevLogIndex prevLogTerm with
  | none => none
  | some false => some (f, some (f.appendReply env false leaderId))
  | some true => match entries with
    -- an entry that does not deserialize: no answer
    | none => some (f, none)
    | some entries =>
        let start := f.chainStart prevLogIndex
        if !entries.isEmpty && !verifyChain env (prevLogIndex + 1).toNat start.1 start.2 entries then
          some (f, some (f.appendReply env false leaderId))
        else
          let stored := if entries.isEmpty then f else f.storeEntries env prevLogIndex entries
          let done := (stored.followCommit leaderCommit).advanceAppliedIndex env
          some (done, some (done.appendReply env true leaderId))

def handleAppendEntries (env : Env) (e : RaftEngine) (term : UInt64) (leaderId : String)
    (prevLogIndex : Int) (prevLogTerm : UInt64) (entries : Option (List LogEntry)) (leaderCommit : Int) :
    Option (RaftEngine × Option RaftRPC) :=
  if term < e.currentTerm then some (e, some (e.appendReply env false leaderId))
  else appendAsFollower env { e with state := .follower, leaderId := some leaderId } leaderId
    prevLogIndex prevLogTerm entries leaderCommit

/-- A granted vote: store it, and lead if it makes a quorum. -/
def countVote (e : RaftEngine) (senderId : String) : RaftEngine :=
  let e' := { e with votesReceived := insert senderId e.votesReceived }
  if e'.hasQuorum e'.votesReceived then e'.becomeLeader else e'

def handleVoteResponse (e : RaftEngine) (term : UInt64) (senderId : String) (voteGranted : Bool) :
    RaftEngine :=
  if e.state ≠ .candidate ∨ term ≠ e.currentTerm then e
  else if voteGranted then e.countVote senderId
  else e

def handleAppendResponse (env : Env) (e : RaftEngine) (term : UInt64) (senderId : String)
    (success : Bool) (lastLogIndex : Int) : RaftEngine :=
  if e.state ≠ .leader ∨ term ≠ e.currentTerm then e
  else if success then
    advanceAppliedIndex env (updateCommitIndex { e with
      nextIndex := e.nextIndex.insert senderId (toUsize (lastLogIndex + 1))
      matchIndex := e.matchIndex.insert senderId lastLogIndex })
  else
    -- one step back for each refusal, not below 0
    { e with nextIndex := e.nextIndex.insert senderId ((e.nextIndex.lookup senderId).getD 0 - 1) }

/-- Step 1 of `handle_rpc`: the sender's key is registered and the signature does not verify. -/
def badSignature (env : Env) (e : RaftEngine) (rpc : RaftRPC) : Bool :=
  match e.peerKeys.lookup rpc.senderId with
  | some pk => !env.verifyRaw pk (rpc.payload.rpcType ++ ":" ++ toString rpc.term ++ ":" ++ rpc.senderId
      ++ ":" ++ env.payloadText rpc.payload) rpc.signature
  | none => false

/-- Step 3 of `handle_rpc`, on a node that has observed the term. -/
def dispatch (env : Env) (e : RaftEngine) (rpc : RaftRPC) : Option (RaftEngine × Option RaftRPC) :=
  match rpc.payload with
  | .requestVote lastLogIndex lastLogTerm =>
      some (e.handleRequestVote env rpc.term rpc.senderId lastLogIndex lastLogTerm)
  | .appendEntries prevLogIndex prevLogTerm _ _ entries leaderCommit =>
      e.handleAppendEntries env rpc.term rpc.senderId prevLogIndex prevLogTerm entries leaderCommit
  | .voteResponse voteGranted => some (e.handleVoteResponse rpc.term rpc.senderId voteGranted, none)
  | .appendResponse success lastLogIndex =>
      some (e.handleAppendResponse env rpc.term rpc.senderId success lastLogIndex, none)
  | .malformed => some (e, none)

def handleRpc (env : Env) (e : RaftEngine) (rpc : RaftRPC) : Option (RaftEngine × Option RaftRPC) :=
  if e.badSignature env rpc then some (e, none)
  else dispatch env (e.observeTerm rpc.term) rpc

/-! ### Proposals and snapshots -/

/-- The entry a leader appends for `data`: chained to its last entry, else to its snapshot. -/
def proposedEntry (env : Env) (e : RaftEngine) (data : String) (zkProof : List UInt8) : LogEntry :=
  let curIdx := (e.lastSnapshotIndex + e.log.length + 1).toNat
  let prev : String × String := match e.log.getLast? with
    | some last => (last.cumulativeHash, last.poseidonHash)
    | none =>
        if 0 ≤ e.lastSnapshotIndex then (e.lastSnapshotCumHash, e.lastSnapshotPosHash)
        else (zeroHash, zeroHash)
  let hashes := calculateEntryHashes env e.currentTerm curIdx data prev.1 prev.2
  { term := e.currentTerm
    data := data
    signature := (env.signRaw e.privateKey ("LOG:" ++ toString e.currentTerm ++ ":" ++ toString curIdx
      ++ ":" ++ hashes.2 ++ ":" ++ data)).getD "INVALID_SIG"
    voterId := e.nodeId
    cumulativeHash := hashes.1
    poseidonHash := hashes.2
    zkProof := zkProof
    index := UInt64.ofNat curIdx }

def propose (env : Env) (e : RaftEngine) (data : String) (zkProof : List UInt8) : RaftEngine × Bool :=
  if e.state ≠ .leader then (e, false)
  else if !validPrefixes.any (fun p => p.toList.isPrefixOf data.toList) then (e, false)
  else
    -- a second `CONF:` replaces the list of the first, committed or not
    let pending := match confPeers data with
      | some newPeers => some newPeers
      | none => e.pendingPeers
    let entry := e.proposedEntry env data zkProof
    ({ e with
        pendingPeers := pending
        log := e.log ++ [entry]
        storage := e.storage.map fun s => s.appendLog entry }, true)

/-- `save_current_snapshot`: record the last applied entry as a snapshot and, with storage, prune the log
up to it. -/
def saveCurrentSnapshot (e : RaftEngine) (data : String) : RaftEngine :=
  if e.lastApplied < 0 then e
  else
    let idx := e.lastApplied.toNat
    let included : Option (UInt64 × String × String) :=
      if (idx : Int) = e.lastSnapshotIndex then
        some (e.lastSnapshotTerm, e.lastSnapshotCumHash, e.lastSnapshotPosHash)
      else (e.getEntry idx).map fun entry => (entry.term, entry.cumulativeHash, entry.poseidonHash)
    -- without storage nothing is recorded and nothing pruned
    match included, e.storage with
    | some (term, cumHash, posHash), some s =>
        let splitIdx := (idx : Int) - e.lastSnapshotIndex
        { e with
          log := if 0 < splitIdx ∧ splitIdx ≤ e.log.length then e.log.drop splitIdx.toNat else e.log
          lastSnapshotIndex := idx
          lastSnapshotTerm := term
          lastSnapshotCumHash := cumHash
          lastSnapshotPosHash := posHash
          stateMachineData := data
          storage := some (s.saveSnapshot
            { data := data, lastIncludedIndex := idx, lastIncludedTerm := term,
              cumulativeHash := cumHash, poseidonHash := posHash }) }
    | _, _ => e

def registerPeerKey (e : RaftEngine) (nodeId publicKey : String) : RaftEngine :=
  { e with peerKeys := e.peerKeys.insert nodeId publicKey }

/-! ### Calls -/

/-- A call from outside, snapshots apart. -/
inductive EngineOp where
  | tick (elapsed : Bool)
  | propose (data : String) (zkProof : List UInt8)
  | rpc (m : RaftRPC)

/-- The engine after the call, and the messages it sends. -/
def EngineOp.call (env : Env) (e : RaftEngine) : EngineOp → Option (RaftEngine × List RaftRPC)
  | .tick elapsed => e.handleTick env elapsed
  | .propose data zkProof => some ((e.propose env data zkProof).1, [])
  | .rpc m => (e.handleRpc env m).map fun r => (r.1, r.2.toList)

end RaftEngine

end WarmLogic.Consensus
