/-
# WarmLogic.Consensus.StoredNode — a node with its storage worker and its directory.

The worker takes its commands one by one and may be anywhere in its queue when the process ends. A restart opens the
directory again through `RaftEngine::new`; what was queued is lost. Two things are recorded beside the engine: every
message the node has sent, and the entries that snapshots have dropped from its log since it was built.

The worker is a thread with a channel, so between any two calls it may handle any number of commands; the model lets
it handle one command as a step of its own. A crash between two commands is the restart that follows the first.
Nothing is said of a crash inside a write: the files change command by command.

`NodeStep` is the inversion of a step, in the terms of `RaftPersistence`: a method hands its commands to the queue
behind the cut it makes, and nothing else happens to the storage.
-/
import WarmLogic.Consensus.RaftPersistence
import WarmLogic.Lib.Run

namespace WarmLogic.Consensus

open WarmLogic.Lib

namespace RaftStorage

/-- The worker handles the first command of its queue. -/
def workNext (env : Env) (s : RaftStorage) : Option RaftStorage :=
  match s.queue with
  | [] => none
  | cmd :: rest => some (work env { s with queue := rest } cmd)

/-- Opening the directory again: what is on disk stays, the queue is gone. -/
def reopen (s : RaftStorage) : RaftStorage := tryNew (some s.wal) s.metaFile s.snapshotFile

end RaftStorage

/-- Everything that can happen to a node: the engine's methods, one command of the worker, and a restart of the
process, which may take other constructor arguments. -/
inductive NodeOp where
  | call (op : RaftEngine.EngineOp)
  | startElection
  | sendHeartbeats
  | advanceAppliedIndex
  | registerPeerKey (nodeId publicKey : String)
  | saveSnapshot (data : String)
  | work
  | restart (peers : List String) (privateKey : String) (stateMachine : Option (List (Nat × String)))

/-- The node: its engine with the storage inside, every message it has sent, and the entries snapshots have dropped
from the log since the engine was built. -/
structure StoredNode where
  engine : RaftEngine
  sent : List RaftRPC
  pruned : List LogEntry

namespace StoredNode

open RaftEngine

/-- The node after a method of the engine returned. -/
def after (s : StoredNode) (r : RaftEngine × List RaftRPC) : StoredNode :=
  { s with engine := r.1, sent := r.2 ++ s.sent }

/-- One step; `none` where the method panics, and where the worker has nothing to do. -/
def stepBy (env : Env) (s : StoredNode) : NodeOp → Option StoredNode
  | .call op => (op.call env s.engine).map s.after
  | .startElection => (s.engine.startElection env).map s.after
  | .sendHeartbeats => (s.engine.sendHeartbeats env).map s.after
  | .advanceAppliedIndex => some { s with engine := s.engine.advanceAppliedIndex env }
  | .registerPeerKey nodeId publicKey => some { s with engine := s.engine.registerPeerKey nodeId publicKey }
  | .saveSnapshot data =>
      let e := s.engine.saveCurrentSnapshot data
      some { s with
        engine := e
        pruned := s.pruned ++ s.engine.log.take (s.engine.log.length - e.log.length) }
  | .work => (s.engine.storage.bind (·.workNext env)).map fun st =>
      { s with engine := { s.engine with storage := some st } }
  | .restart peers privateKey stateMachine =>
      -- the directory belongs to the node id; what was queued is lost
      some { s with
        engine := new env s.engine.nodeId peers privateKey (s.engine.storage.map (·.reopen)) stateMachine
        pruned := [] }

end StoredNode

/-- A node with a worker that may stop anywhere, from the engines `start` admits. -/
def storedNode (env : Env) (start : RaftEngine → Prop) : System StoredNode NodeOp where
  init s := start s.engine ∧ s.sent = [] ∧ s.pruned = []
  step op s := s.stepBy env op

/-- The entries an operation adds to the log. -/
def NodeOp.offered (env : Env) (e : RaftEngine) : NodeOp → List LogEntry
  | .call op => op.offered env e
  | _ => []

/-- The engine after the cut an operation makes. -/
def NodeOp.cut (env : Env) (e : RaftEngine) : NodeOp → RaftEngine
  | .call op => op.cut env e
  | _ => e

/-- The member list an operation installs, if it installs one. -/
def NodeOp.installed (env : Env) (e : RaftEngine) : NodeOp → Option (List String)
  | .call op => op.installed env e
  | _ => none

/-- **Everything a step can do**: a method that hands commands over, a snapshot, a command of the worker, a
restart. -/
inductive NodeStep (env : Env) (s : StoredNode) : NodeOp → StoredNode → Prop
  | method {op : NodeOp} {cmds : List StorageCommand} {e : RaftEngine} {outs : List RaftRPC} :
      RaftEngine.Wrote (op.cut env s.engine) cmds e → appendsOf cmds = op.offered env s.engine →
      (∀ m ∈ outs, RaftEngine.GrantIn e cmds m) →
      e.peers = s.engine.peers ∨ op.installed env s.engine = some e.peers →
      NodeStep env s op { s with engine := e, sent := outs ++ s.sent }
  | snapshot {data : String} {st : RaftStorage} {snap : RaftSnapshot} {n : Nat} :
      s.engine.storage = some st → s.engine.SnapshotAt snap n →
      NodeStep env s (.saveSnapshot data)
        { s with engine := s.engine.snapshotted snap n st, pruned := s.pruned ++ s.engine.log.take n }
  | work {st : RaftStorage} {cmd : StorageCommand} {rest : List StorageCommand} :
      s.engine.storage = some st → st.queue = cmd :: rest →
      NodeStep env s .work
        { s with engine := { s.engine with storage := some (RaftStorage.work env { st with queue := rest } cmd) } }
  | restart {peers : List String} {privateKey : String} {machine : Option (List (Nat × String))} :
      NodeStep env s (.restart peers privateKey machine) { s with
        engine := RaftEngine.new env s.engine.nodeId peers privateKey (s.engine.storage.map (·.reopen)) machine
        pruned := [] }

/-- A method that changes nothing a restart would read. -/
theorem NodeStep.of_same {env : Env} {s : StoredNode} {op : NodeOp} {e : RaftEngine} {o : List RaftRPC}
    (h : RaftEngine.SameStored s.engine e) (hcut : op.cut env s.engine = s.engine)
    (hoff : op.offered env s.engine = []) (hno : ∀ m ∈ o, m.payload ≠ .voteResponse true) :
    NodeStep env s op { s with engine := e, sent := o ++ s.sent } := by
  have hw : RaftEngine.Wrote (op.cut env s.engine) [] e := by
    rw [hcut]
    exact h.wrote
  exact .method hw hoff.symm (fun m hm hv => absurd hv (hno m hm)) (.inl (congrArg RaftMetadata.peers h.metadata))

theorem stepBy_cases {env : Env} {s s' : StoredNode} {op : NodeOp} (h : s.stepBy env op = some s') :
    NodeStep env s op s' := by
  cases op with
  | call op =>
      obtain ⟨⟨e, outs⟩, hcall, rfl⟩ := Option.map_eq_some_iff.mp h
      obtain ⟨cmds, hw, happ, hgrant⟩ := RaftEngine.wrote_call hcall
      exact .method hw happ hgrant (RaftEngine.peers_call hcall)
  | startElection =>
      obtain ⟨⟨e, outs⟩, hcall, rfl⟩ := Option.map_eq_some_iff.mp h
      obtain ⟨cmds, hw, happ, hno⟩ := RaftEngine.wrote_startElection hcall
      exact .method hw happ (fun m hm hv => absurd hv (hno m hm)) (.inl (RaftEngine.peers_startElection hcall))
  | sendHeartbeats =>
      obtain ⟨⟨e, outs⟩, hcall, rfl⟩ := Option.map_eq_some_iff.mp h
      obtain ⟨rfl, hno⟩ := RaftEngine.wrote_sendHeartbeats hcall
      exact .of_same ⟨rfl, rfl, rfl, rfl, rfl, rfl, rfl, rfl⟩ rfl rfl hno
  | advanceAppliedIndex =>
      cases h
      exact .of_same (o := []) (.advanceAppliedIndex env _) rfl rfl (by intro m hm; cases hm)
  | registerPeerKey nodeId publicKey =>
      cases h
      exact .of_same (o := []) ⟨rfl, rfl, rfl, rfl, rfl, rfl, rfl, rfl⟩ rfl rfl (by intro m hm; cases hm)
  | saveSnapshot data =>
      cases h
      rcases s.engine.saveCurrentSnapshot_cases data with heq | ⟨st, snap, n, hst, hsnap, heq⟩
      · rw [heq, Nat.sub_self, List.take_zero, List.append_nil]
        exact .of_same (o := []) ⟨rfl, rfl, rfl, rfl, rfl, rfl, rfl, rfl⟩ rfl rfl (by intro m hm; cases hm)
      · have hlen : s.engine.log.length - (s.engine.snapshotted snap n st).log.length = n := by
          have := hsnap.le
          unfold RaftEngine.snapshotted
          rw [List.length_drop]
          omega
        rw [heq, hlen]
        exact .snapshot hst hsnap
  | work =>
      obtain ⟨st', hwork, rfl⟩ := Option.map_eq_some_iff.mp h
      obtain ⟨st, hst, hnext⟩ := Option.bind_eq_some_iff.mp hwork
      unfold RaftStorage.workNext at hnext
      split at hnext
      · cases hnext
      · rename_i cmd rest hq
        cases hnext
        exact .work hst hq
  | restart peers privateKey machine =>
      cases h
      exact .restart

/-- A cut touches the log and the WAL alone. -/
theorem NodeOp.cut_cases (env : Env) (e : RaftEngine) (op : NodeOp) :
    op.cut env e = e ∨ ∃ keep, op.cut env e = e.cutLog env keep := by
  cases op with
  | call op =>
      cases op with
      | rpc m =>
          have hcut : ∀ p, e.rpcCut env m p = e ∨ ∃ keep, e.rpcCut env m p = e.cutLog env keep := by
            intro p
            unfold RaftEngine.rpcCut
            split
            · unfold RaftEngine.cutFor
              split
              · exact .inr ⟨_, rfl⟩
              · exact .inl rfl
            · exact .inl rfl
          exact hcut m.payload
      | tick _ => exact .inl rfl
      | propose _ _ => exact .inl rfl
  | _ => exact .inl rfl

theorem RaftStorage.truncateLogSuffix_eq (env : Env) (st : RaftStorage) (keep : Nat) :
    ∃ w, st.truncateLogSuffix env keep = { st with wal := w } := by
  unfold RaftStorage.truncateLogSuffix
  dsimp only
  split
  · exact ⟨st.wal, rfl⟩
  · exact ⟨_, rfl⟩

/-- What a method does to the storage: the WAL may be cut, and commands are queued. -/
theorem RaftEngine.Wrote.exists_storage {env : Env} {e e' : RaftEngine} {op : NodeOp} {cmds : List StorageCommand}
    (h : RaftEngine.Wrote (op.cut env e) cmds e') {st : RaftStorage} (hst : e.storage = some st) :
    ∃ w, e'.storage = some { st with wal := w, queue := st.queue ++ cmds } := by
  rw [h.storage]
  rcases op.cut_cases env e with hcut | ⟨keep, hcut⟩
  · rw [hcut, hst]
    exact ⟨st.wal, rfl⟩
  · obtain ⟨w, hw⟩ := st.truncateLogSuffix_eq env keep
    rw [hcut]
    unfold RaftEngine.cutLog
    rw [hst, Option.map_some, Option.map_some, hw]
    exact ⟨w, rfl⟩

theorem NodeOp.cut_metadata (env : Env) (e : RaftEngine) (op : NodeOp) :
    (op.cut env e).metadata = e.metadata := by
  rcases op.cut_cases env e with hcut | ⟨keep, hcut⟩
  · rw [hcut]
  · rw [hcut]
    rfl

end WarmLogic.Consensus
