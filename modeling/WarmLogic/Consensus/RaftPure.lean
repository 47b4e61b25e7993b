/-
# WarmLogic.Consensus.RaftPure — `RaftCore` of `consensus/raft_pure.rs`, handler by handler.

The RPC type of `types.rs` with its payload as a text; `serde_json` is the parameter `Serde`. The deadline of `tick` is
an input, and the channels are the arguments and results of `handleEvent`. Fields no handler reads or writes (the
peers, the leader's index maps, `last_applied`, the timers) stay out.

`i64` is `Int` and a length is a `Nat`. `commit_index` is a `usize` that the handler reads and writes through `as i64`
and `as usize` only, and the two casts undo each other; it is kept as the `i64`, so -1 stands for `usize::MAX`. A vector
index that is negative as an `i64` is past the end of every vector: `none`, the panic.
-/
import WarmLogic.Consensus.Raft

namespace WarmLogic.Consensus.RaftPure

/-! ## Messages -/

/-- `RaftRPC`, with the payload as it is sent. -/
structure TextRPC where
  rpcType : String
  term : UInt64
  senderId : String
  targetId : Option String
  payload : String
  signature : String
  poseidonHash : String

/-- The four payloads, under the names they have in the source. -/
structure RequestVoteDTO where
  term : UInt64
  candidateId : String
  lastLogIndex : Int
  lastLogTerm : UInt64

structure RequestVoteResponseDTO where
  term : UInt64
  voteGranted : Bool

structure AppendEntriesDTO where
  term : UInt64
  leaderId : String
  prevLogIndex : Int
  prevLogTerm : UInt64
  entries : List LogEntry
  leaderCommit : Int
  deriving DecidableEq

structure AppendEntriesResponseDTO where
  term : UInt64
  success : Bool
  matchIndex : Int

/-- `serde_json`: two payloads read (`none` is the error), two written. -/
structure Serde where
  parseRequestVote : String → Option RequestVoteDTO
  parseAppendEntries : String → Option AppendEntriesDTO
  printVoteResponse : RequestVoteResponseDTO → String
  printAppendResponse : AppendEntriesResponseDTO → String

/-- `RaftEvent`; a tick comes with whether its deadline has passed. -/
inductive RaftEvent where
  | tick (elapsed : Bool)
  | rpc (msg : TextRPC)
  | clientRequest (command : List UInt8)
  | adminCommand (command : String)

/-! ## The core -/

/-- The state that the handlers read and write. -/
structure RaftCore where
  nodeId : String
  currentTerm : UInt64
  votedFor : Option String
  log : List LogEntry
  commitIndex : Int
  state : RaftState
  leaderId : Option String

namespace RaftCore

/-- `new`: a commit index of 0 in an empty log, where `raft.rs` starts at -1. -/
def new (nodeId : String) : RaftCore where
  nodeId := nodeId
  currentTerm := 0
  votedFor := none
  log := []
  commitIndex := 0
  state := .follower
  leaderId := none

/-- `create_rpc`: no signature and no hash so far. -/
def createRpc (s : RaftCore) (rpcType payload : String) (target : Option String) : TextRPC where
  rpcType := rpcType
  term := s.currentTerm
  senderId := s.nodeId
  targetId := target
  payload := payload
  signature := ""
  poseidonHash := ""

/-- `start_election`; `none` when the term overflows. No request is sent so far. -/
def startElection (s : RaftCore) : Option RaftCore :=
  if s.currentTerm.toNat + 1 = 2 ^ 64 then none
  else some { s with state := .candidate, currentTerm := s.currentTerm + 1, votedFor := some s.nodeId }

/-- `tick`; the heartbeats of a leader are empty so far. -/
def tick (s : RaftCore) (elapsed : Bool) : Option RaftCore :=
  if elapsed ∧ s.state ≠ .leader then s.startElection else some s

/-- The first step of both handlers. -/
def observeTerm (s : RaftCore) (term : UInt64) : RaftCore :=
  if term > s.currentTerm then { s with currentTerm := term, state := .follower, votedFor := none } else s

/-- `handle_request_vote`: a vote is given to the candidate that has it already, or to the first one whose log is not
behind. -/
def handleRequestVote (s : RaftCore) (request : RequestVoteDTO) : RaftCore × RequestVoteResponseDTO :=
  let s := s.observeTerm request.term
  let lastLogIdx : Int := (s.log.length : Int) - 1
  let lastLogTerm := (s.log.getLast?.map (·.term)).getD 0
  let granted := !(request.term < s.currentTerm : Bool)
    && (s.votedFor == none || s.votedFor == some request.candidateId)
    && ((request.lastLogTerm > lastLogTerm : Bool)
      || (request.lastLogTerm == lastLogTerm && decide (lastLogIdx ≤ request.lastLogIndex)))
  (if granted then { s with votedFor := some request.candidateId } else s,
    { term := s.currentTerm, voteGranted := granted })

/-- The loop over the received entries: skip what is there with the same term, cut at the first conflict, append the
rest. -/
def appendLoop : List LogEntry → Nat → List LogEntry → List LogEntry
  | log, _, [] => log
  | log, currentIdx, entry :: entries =>
      if h : currentIdx < log.length then
        if log[currentIdx].term ≠ entry.term then
          appendLoop (log.take currentIdx ++ [entry]) (currentIdx + 1) entries
        else appendLoop log (currentIdx + 1) entries
      else appendLoop (log ++ [entry]) (currentIdx + 1) entries

/-- `handle_append_entries`; the consistency check is the one of `raft.rs`. -/
def handleAppendEntries (s : RaftCore) (request : AppendEntriesDTO) :
    Option (RaftCore × AppendEntriesResponseDTO) :=
  let s := s.observeTerm request.term
  if request.term < s.currentTerm then
    some (s, { term := s.currentTerm, success := false, matchIndex := 0 })
  else
    let s := { s with state := .follower, leaderId := some request.leaderId }
    match RaftEngine.prevMatches s.log request.prevLogIndex request.prevLogTerm with
    | none => none
    | some false => some (s, { term := s.currentTerm, success := false, matchIndex := 0 })
    | some true =>
        let log := appendLoop s.log (request.prevLogIndex + 1).toNat request.entries
        -- -1 when there is still nothing in the log
        let matchIndex : Int := (log.length : Int) - 1
        let commitIndex :=
          if request.leaderCommit > s.commitIndex then min request.leaderCommit matchIndex else s.commitIndex
        some ({ s with log := log, commitIndex := commitIndex },
          { term := s.currentTerm, success := true, matchIndex := matchIndex })

/-- `handle_rpc`: a payload that does not parse is dropped, and so is a type that is not one of the two. -/
def handleRpc (serde : Serde) (s : RaftCore) (msg : TextRPC) : Option (RaftCore × Option TextRPC) :=
  if msg.rpcType = "RequestVote" then
    match serde.parseRequestVote msg.payload with
    | none => some (s, none)
    | some request =>
        let (s', response) := s.handleRequestVote request
        some (s', some (s'.createRpc "RequestVoteResponse" (serde.printVoteResponse response) (some msg.senderId)))
  else if msg.rpcType = "AppendEntries" then
    match serde.parseAppendEntries msg.payload with
    | none => some (s, none)
    | some request =>
        match s.handleAppendEntries request with
        | none => none
        | some (s', response) =>
            some (s',
              some (s'.createRpc "AppendEntriesResponse" (serde.printAppendResponse response) (some msg.senderId)))
  else some (s, none)

/-- `handle_event`: requests of clients and of the administrator are taken and not acted upon. -/
def handleEvent (serde : Serde) (s : RaftCore) : RaftEvent → Option (RaftCore × Option TextRPC)
  | .tick elapsed => (s.tick elapsed).map fun s' => (s', none)
  | .rpc msg => s.handleRpc serde msg
  | .clientRequest _ => some (s, none)
  | .adminCommand _ => some (s, none)

end RaftCore

end WarmLogic.Consensus.RaftPure
