/-
# WarmLogic.Consensus.Cluster — a cluster of Raft engines over a network that loses, repeats and reorders.

A `Cluster` is one engine per name and the set of messages ever sent. A step is a call on one member: a tick,
the delivery of a message, a client proposal, a snapshot. A delivered message stays in the network, so it can
be delivered again at any later time, in any order, or never; only messages some member made with
`create_rpc` are ever in it. A unicast message is delivered to its target alone, as the sender task of
`consensus/p2p.rs` routes it; a broadcast goes to anyone.

`FixedMembership` and `SnapshotFree` are the standing restrictions of most safety results. What the proofs need is
less: `KeepsPeers`, that no delivery installs a pending list, and `KeepsLogs`, that no snapshot prunes. Both look
at the operation and the state it meets, and every run of fixed membership has the first (`run_keepsPeers`).

Every safety result is about this machine and an invariant of a state together with the history that led to it. The
history is what lets a message be backed by a moment long past. `step_cases` is the interface to the code: under
`KeepsPeers` every step is a `Move`, an outcome of `RaftEvent` at one member with its message taken from the network,
or a snapshot. Invariants are then shown for moves, and need nothing else of the handlers.

Nodes do not crash in this machine. A crash loses what the worker has not written, and is the subject of the modules
about one node and its directory (`StoredNode`); a node that never comes back is one on which no operation runs.
-/
import Mathlib.Data.Finset.Card
import WarmLogic.Lib.Run
import WarmLogic.Consensus.RaftEvent
import WarmLogic.Consensus.WalFidelity

namespace WarmLogic.Consensus

open WarmLogic.Lib

/-- One engine for every name, and everything that was ever sent, newest first. -/
structure Cluster where
  node : String → RaftEngine
  net : List RaftRPC

/-- An operation of the cluster. Whether a timeout has elapsed is part of the tick, so no clock is modelled. -/
inductive ClusterOp where
  | tick (n : String) (elapsed : Bool)
  | deliver (n : String) (rpc : RaftRPC)
  | propose (n : String) (data : String) (zkProof : List UInt8)
  | snapshot (n : String) (data : String)

/-- The member an operation runs on. -/
def ClusterOp.actor : ClusterOp → String
  | .tick n _ => n
  | .deliver n _ => n
  | .propose n _ _ => n
  | .snapshot n _ => n

/-- The message an operation hands over. -/
def ClusterOp.received : ClusterOp → Option RaftRPC
  | .deliver _ rpc => some rpc
  | _ => none

namespace Cluster

/-- Replace one engine and send its messages. -/
def put (s : Cluster) (n : String) (e : RaftEngine) (outs : List RaftRPC) : Cluster where
  node := Function.update s.node n e
  net := outs ++ s.net

@[simp] theorem put_node_self (s : Cluster) (n : String) (e : RaftEngine) (outs : List RaftRPC) :
    (s.put n e outs).node n = e := by
  simp only [put, Function.update_self]

theorem put_node_of_ne (s : Cluster) {n k : String} (e : RaftEngine) (outs : List RaftRPC) (h : k ≠ n) :
    (s.put n e outs).node k = s.node k := by
  simp only [put, Function.update_of_ne h]

/-- One member changed, the others did not. -/
theorem forall_put {P : String → RaftEngine → Prop} {s : Cluster} {members : Finset String} {n : String}
    {e : RaftEngine} {outs : List RaftRPC} (hn : P n e) (hs : ∀ k ∈ members, P k (s.node k)) :
    ∀ k ∈ members, P k ((s.put n e outs).node k) := by
  intro k hk
  by_cases hkn : k = n
  · rw [hkn, put_node_self]
    exact hn
  · rw [put_node_of_ne _ _ _ hkn]
    exact hs k hk

/-- The message can reach `n`. -/
def Addressed (s : Cluster) (n : String) (rpc : RaftRPC) : Prop :=
  rpc ∈ s.net ∧ (rpc.targetId = none ∨ rpc.targetId = some n)

instance (s : Cluster) (n : String) (rpc : RaftRPC) : Decidable (s.Addressed n rpc) :=
  inferInstanceAs (Decidable (_ ∧ _))

/-- What the operation makes of its member, and the messages sent. -/
def call (env : Env) (s : Cluster) : ClusterOp → Option (RaftEngine × List RaftRPC)
  | .tick n elapsed => (s.node n).handleTick env elapsed
  | .deliver n rpc =>
      if s.Addressed n rpc then
        ((s.node n).handleRpc env rpc).map fun r => (r.1, r.2.toList)
      else none
  | .propose n data zkProof => some (((s.node n).propose env data zkProof).1, [])
  | .snapshot n data => some ((s.node n).saveCurrentSnapshot data, [])

end Cluster

/-- A node as `new` makes it at the first start: every other member is a peer, the directory (if any) is
empty, the attached machine (if any) has seen no call. -/
def Fresh (env : Env) (members : Finset String) (n : String) (e : RaftEngine) : Prop :=
  ∃ peers key keys storage machine,
    peers.Nodup ∧ peers.toFinset = members.erase n ∧
    (storage = none ∨ storage = some freshStorage) ∧
    (machine = none ∨ machine = some []) ∧
    e = { RaftEngine.new env n peers key storage machine with peerKeys := keys }

/-- **The cluster as a machine.** -/
def cluster (env : Env) (members : Finset String) : System Cluster ClusterOp where
  init s := s.net = [] ∧ ∀ n ∈ members, Fresh env members n (s.node n)
  step op s :=
    if op.actor ∈ members then (s.call env op).map fun r => s.put op.actor r.1 r.2 else none

/-- No reconfiguration is proposed. -/
def FixedMembership : ClusterOp → Cluster → Prop
  | .propose _ data _, _ => isConf data = false
  | _, _ => True

/-- No snapshot is taken. -/
def SnapshotFree : ClusterOp → Cluster → Prop
  | .snapshot _ _, _ => False
  | _, _ => True

instance : ∀ op s, Decidable (FixedMembership op s)
  | .propose _ data _, _ => inferInstanceAs (Decidable (isConf data = false))
  | .tick .., _ => inferInstanceAs (Decidable True)
  | .deliver .., _ => inferInstanceAs (Decidable True)
  | .snapshot .., _ => inferInstanceAs (Decidable True)

instance : ∀ op s, Decidable (SnapshotFree op s)
  | .snapshot .., _ => inferInstanceAs (Decidable False)
  | .tick .., _ => inferInstanceAs (Decidable True)
  | .deliver .., _ => inferInstanceAs (Decidable True)
  | .propose .., _ => inferInstanceAs (Decidable True)

/-- Both. -/
def Plain (op : ClusterOp) (s : Cluster) : Prop := FixedMembership op s ∧ SnapshotFree op s

instance (op : ClusterOp) (s : Cluster) : Decidable (Plain op s) := inferInstanceAs (Decidable (_ ∧ _))

/-- No delivery makes its node install a pending list of peers. -/
def KeepsPeers (env : Env) : ClusterOp → Cluster → Prop
  | .deliver n rpc, s => (s.node n).badSignature env rpc = false →
      (s.node n).InstallsNothing env rpc.term rpc.senderId rpc.payload
  | _, _ => True

/-- No snapshot takes entries out of a log. -/
def KeepsLogs : ClusterOp → Cluster → Prop
  | .snapshot n _, s => ¬ (s.node n).Prunes ∨ (s.node n).storage = none
  | _, _ => True

instance (env : Env) : ∀ op s, Decidable (KeepsPeers env op s)
  | .deliver .., _ => inferInstanceAs (Decidable (_ → _))
  | .tick .., _ => inferInstanceAs (Decidable True)
  | .propose .., _ => inferInstanceAs (Decidable True)
  | .snapshot .., _ => inferInstanceAs (Decidable True)

instance : ∀ op s, Decidable (KeepsLogs op s)
  | .snapshot n _, s => decidable_of_iff (¬ (s.node n).Prunes ∨ (s.node n).storage.isNone = true)
      (or_congr_right Option.isNone_iff_eq_none)
  | .tick .., _ => inferInstanceAs (Decidable True)
  | .deliver .., _ => inferInstanceAs (Decidable True)
  | .propose .., _ => inferInstanceAs (Decidable True)

/-- Both. -/
def Steady (env : Env) (op : ClusterOp) (s : Cluster) : Prop := KeepsPeers env op s ∧ KeepsLogs op s

instance (env : Env) (op : ClusterOp) (s : Cluster) : Decidable (Steady env op s) :=
  inferInstanceAs (Decidable (_ ∧ _))

/-! ## A fresh node -/

/-- Starting on an empty directory recovers nothing: the node is blank. -/
theorem boot_freshStorage (env : Env) (e : RaftEngine) (hterm : e.currentTerm = 0)
    (hvote : e.votedFor = none) (hlog : e.log = []) :
    RaftEngine.boot env e freshStorage = { e with storage := some freshStorage } := by
  have hload : freshStorage.loadLog env = [] := (shows_fresh env).loadLog
  have hverify : freshStorage.verifyWalIntegrity env = none :=
    verifyLoop_image env (shows_fresh env).fits (shows_fresh env).fuel (shows_fresh env).holds
      (shows_fresh env).endsAt
  have hmeta : freshStorage.loadMetadata = (0, none, []) := rfl
  have hsnap : freshStorage.snapshotFile = none := rfl
  unfold RaftEngine.boot
  simp only [hverify, hmeta, hload, hsnap, List.isEmpty_nil, if_true]
  rw [← hterm, ← hvote, ← hlog]

/-- A fresh node in one record. -/
theorem Fresh.eq_blank {env : Env} {members : Finset String} {n : String} {e : RaftEngine}
    (h : Fresh env members n e) :
    ∃ peers key keys storage machine, peers.Nodup ∧ peers.toFinset = members.erase n ∧
      (machine = none ∨ machine = some []) ∧
      e = { RaftEngine.blank n peers key machine with storage := storage, peerKeys := keys } := by
  obtain ⟨peers, key, keys, storage, machine, hnd, hpeers, hst, hm, rfl⟩ := h
  rcases hst with rfl | rfl
  · exact ⟨peers, key, keys, none, machine, hnd, hpeers, hm, rfl⟩
  · refine ⟨peers, key, keys, some freshStorage, machine, hnd, hpeers, hm, ?_⟩
    rw [RaftEngine.new]
    dsimp only
    rw [boot_freshStorage env _ rfl rfl rfl]

/-- What every invariant needs of a node that has done nothing yet. -/
structure JustStarted (e : RaftEngine) : Prop where
  state : e.state = .follower
  log : e.log = []
  commitIndex : e.commitIndex = -1
  lastApplied : e.lastApplied = -1
  lastSnapshotIndex : e.lastSnapshotIndex = -1
  calls : e.calls = []

theorem Fresh.justStarted {env : Env} {members : Finset String} {n : String} {e : RaftEngine}
    (h : Fresh env members n e) : JustStarted e := by
  obtain ⟨peers, key, keys, storage, machine, -, -, hmach, rfl⟩ := h.eq_blank
  refine ⟨rfl, rfl, rfl, rfl, rfl, ?_⟩
  rcases hmach with rfl | rfl
  · rfl
  · rfl

/-! ## The fixed configuration -/

/-- The peers are exactly the other members, whatever list may be pending. It holds at the start, and a call changes
the peers only when it installs a list. -/
structure Configured (members : Finset String) (n : String) (e : RaftEngine) : Prop where
  nodeId : e.nodeId = n
  nodup : e.peers.Nodup
  peers : e.peers.toFinset = members.erase n

/-- **A move**: member `n` makes a call whose outcome is an `Event`. -/
structure Move (env : Env) (members : Finset String) (op : ClusterOp) (s : Cluster) (n : String)
    (m : Option RaftRPC) (e' : RaftEngine) (outs : List RaftRPC) : Prop where
  mem : n ∈ members
  actor : op.actor = n
  received : op.received = m
  addressed : ∀ rpc ∈ m, s.Addressed n rpc
  /-- What a node adds to its log on its own is what its client proposed. -/
  added : m = none → ∀ x ∈ e'.log.drop (s.node n).log.length, ∃ zkProof, op = .propose n x.data zkProof
  event : RaftEngine.Event env (s.node n) m e' outs

/-- A move with a message is the delivery of that message. -/
theorem Move.op_eq {env : Env} {members : Finset String} {op : ClusterOp} {s : Cluster} {n : String}
    {m : Option RaftRPC} {e' : RaftEngine} {outs : List RaftRPC}
    (h : Move env members op s n m e' outs) {rpc : RaftRPC} (hrpc : rpc ∈ m) : op = .deliver n rpc := by
  have hrec := h.received
  have hact := h.actor
  rw [Option.mem_def] at hrpc
  rw [hrpc] at hrec
  cases op with
  | deliver k r =>
      cases hrec
      cases hact
      rfl
  | tick | propose | snapshot => cases hrec

/-- **Every step that keeps the peers is a move or a snapshot.** -/
theorem step_cases {env : Env} {members : Finset String} {op : ClusterOp} {s s' : Cluster}
    (hok : KeepsPeers env op s) (h : (cluster env members).step op s = some s') :
    (∃ n m e' outs, Move env members op s n m e' outs ∧ s' = s.put n e' outs) ∨
      ∃ n ∈ members, ∃ data, op = .snapshot n data ∧
        s' = s.put n ((s.node n).saveCurrentSnapshot data) [] := by
  simp only [cluster] at h
  split at h
  · rename_i hmem
    obtain ⟨⟨e', outs⟩, hcall, rfl⟩ := Option.map_eq_some_iff.mp h
    cases op with
    | tick n elapsed =>
        left
        refine ⟨n, none, e', outs, ⟨hmem, rfl, rfl, by simp, ?_, RaftEngine.handleTick_event hcall⟩, rfl⟩
        intro _ x hx
        rw [RaftEngine.handleTick_log hcall, List.drop_length] at hx
        cases hx
    | deliver n rpc =>
        left
        simp only [Cluster.call] at hcall
        split at hcall
        · rename_i haddr
          obtain ⟨⟨e'', out⟩, hrpc, hr⟩ := Option.map_eq_some_iff.mp hcall
          cases hr
          refine ⟨n, some rpc, _, out.toList, ⟨hmem, rfl, rfl, ?_, by simp, ?_⟩, rfl⟩
          · rintro r ⟨⟩
            exact haddr
          · exact RaftEngine.handleRpc_event hok hrpc
        · cases hcall
    | propose n data zkProof =>
        left
        cases hcall
        refine ⟨n, none, _, [], ⟨hmem, rfl, rfl, by simp, ?_, RaftEngine.propose_event _ data zkProof⟩, rfl⟩
        intro _ x hx
        rw [RaftEngine.data_of_mem_propose _ data zkProof x hx]
        exact ⟨zkProof, rfl⟩
    | snapshot n data =>
        right
        cases hcall
        exact ⟨n, hmem, data, rfl, rfl⟩
  · cases h

/-- **Every steady step is a move.** -/
theorem steady_step {env : Env} {members : Finset String} {op : ClusterOp} {s s' : Cluster}
    (hok : Steady env op s) (h : (cluster env members).step op s = some s') :
    ∃ n m e' outs, Move env members op s n m e' outs ∧ s' = s.put n e' outs := by
  rcases step_cases hok.1 h with hmove | ⟨n, hn, data, rfl, rfl⟩
  · exact hmove
  · have hlog : ∀ x ∈ ((s.node n).saveCurrentSnapshot data).log.drop (s.node n).log.length,
        ∃ zkProof, ClusterOp.snapshot n data = .propose n x.data zkProof := by
      obtain ⟨d, st, heq⟩ := RaftEngine.saveCurrentSnapshot_eq hok.2 data
      rw [heq]
      simp
    exact ⟨n, none, _, [], ⟨hn, rfl, rfl, by simp, fun _ => hlog,
      RaftEngine.saveCurrentSnapshot_event hok.2 data⟩, rfl⟩

/-! ## The configuration never changes -/

theorem Configured.event {env : Env} {members : Finset String} {n : String} {e e' : RaftEngine}
    {m : Option RaftRPC} {outs : List RaftRPC} (hc : Configured members n e)
    (hev : RaftEngine.Event env e m e' outs) : Configured members n e' :=
  ⟨hev.nodeId_eq.trans hc.nodeId, hev.peers_eq ▸ hc.nodup, hev.peers_eq ▸ hc.peers⟩

theorem Configured.snapshot {members : Finset String} {n : String} {e : RaftEngine}
    (hc : Configured members n e) (data : String) :
    Configured members n (e.saveCurrentSnapshot data) := by
  unfold RaftEngine.saveCurrentSnapshot
  split
  · exact hc
  · dsimp only
    split
    · exact ⟨hc.nodeId, hc.nodup, hc.peers⟩
    · exact hc

/-- **The configuration is an invariant** of every run in which no list is installed. -/
theorem configured_reachable {env : Env} {members : Finset String} {ok : ClusterOp → Cluster → Prop}
    (hkeep : ∀ op s, ok op s → KeepsPeers env op s) {s : Cluster} (h : (cluster env members).Reachable ok s) :
    ∀ n ∈ members, Configured members n (s.node n) := by
  refine System.Reachable.invariant (P := fun s => ∀ n ∈ members, Configured members n (s.node n)) ?_ ?_ h
  · rintro s ⟨-, hfresh⟩ n hn
    obtain ⟨peers, key, keys, storage, machine, hnd, hpeers, -, heq⟩ := (hfresh n hn).eq_blank
    rw [heq]
    exact ⟨rfl, hnd, hpeers⟩
  · intro s op s' hs hok hstep
    rcases step_cases (hkeep op s hok) hstep with ⟨n, m, e', outs, hmv, rfl⟩ | ⟨n, hn, data, -, rfl⟩
    · exact Cluster.forall_put ((hs n hmv.mem).event hmv.event) hs
    · exact Cluster.forall_put ((hs n hn).snapshot data) hs

/-! ## Without a proposed reconfiguration there is none -/

theorem NoConf.append {xs ys : List LogEntry} (hx : NoConf xs) (hy : NoConf ys) : NoConf (xs ++ ys) := by
  intro x h
  rcases List.mem_append.mp h with h | h
  · exact hx x h
  · exact hy x h

theorem NoConf.sublist {xs ys : List LogEntry} (hx : NoConf xs) (h : ys.Sublist xs) : NoConf ys :=
  fun y hy => hx y (h.subset hy)

theorem NoConf.storedLog {log es : List LogEntry} (hlog : NoConf log) (hes : NoConf es) (prev : Int) :
    NoConf (RaftEngine.storedLog log prev es) := by
  unfold RaftEngine.storedLog
  split
  · exact hlog
  · apply NoConf.append _ hes
    split
    · exact hlog.sublist (List.take_sublist _ _)
    · exact hlog

/-- No reconfiguration is pending at the node, and none is in its log. -/
structure Unreconfigured (e : RaftEngine) : Prop where
  pending : e.pendingPeers = none
  noConf : NoConf e.log

/-- No reconfiguration is pending, in a log or on the wire. -/
structure UnreconfiguredInv (members : Finset String) (s : Cluster) : Prop where
  node : ∀ n ∈ members, Unreconfigured (s.node n)
  net : ∀ m ∈ s.net, m.ConfFree

theorem confFree_of_negative {m : RaftRPC} (h : RaftEngine.Negative m) : m.ConfFree := by
  intro prev pt ph pp es lc hp
  rcases h with h | ⟨i, h⟩ <;> rw [h] at hp <;> cases hp

/-- A heartbeat transports a part of the leader's log. -/
theorem confFree_of_heartbeat {env : Env} {e : RaftEngine} {p : RpcPayload} {target : Option String}
    (hp : RaftEngine.Heartbeat e p) (hlog : NoConf e.log) : (e.createRpc env p target).ConfFree := by
  obtain ⟨next, -, ph', pp', rfl⟩ := hp
  intro prev pt ph pp es lc hp
  simp only [RaftEngine.createRpc, RpcPayload.appendEntries.injEq, Option.some.injEq] at hp
  obtain ⟨-, -, -, -, rfl, -⟩ := hp
  exact hlog.sublist (List.drop_sublist _ _)

theorem confFree_of_payload {m : RaftRPC} {p : RpcPayload} (h : m.payload = p)
    (hp : ∀ prev pt ph pp es lc, p ≠ .appendEntries prev pt ph pp es lc) : m.ConfFree := by
  intro prev pt ph pp es lc he
  exact absurd (h.symm.trans he) (hp _ _ _ _ _ _)

theorem Unreconfigured.event {env : Env} {e e' : RaftEngine} {m : Option RaftRPC} {outs : List RaftRPC}
    (hu : Unreconfigured e) (hm : ∀ rpc ∈ m, rpc.ConfFree)
    (hadded : m = none → NoConf (e'.log.drop e.log.length)) (hev : RaftEngine.Event env e m e' outs) :
    Unreconfigured e' ∧ ∀ o ∈ outs, o.ConfFree := by
  cases hev with
  | idle => exact ⟨hu, by simp⟩
  | campaign _ _ houts =>
      refine ⟨⟨hu.pending, hu.noConf⟩, fun o ho => ?_⟩
      exact confFree_of_payload (houts o ho).2.2 (by simp)
  | solo _ _ _ => exact ⟨⟨hu.pending, hu.noConf⟩, by simp⟩
  | heartbeat _ houts =>
      refine ⟨hu, fun o ho => ?_⟩
      obtain ⟨p, hp, rfl⟩ := houts o ho
      exact confFree_of_heartbeat hp hu.noConf
  | propose _ _ =>
      have hx := hadded rfl
      dsimp only at hx
      rw [List.drop_left] at hx
      refine ⟨⟨?_, hu.noConf.append hx⟩, by simp⟩
      exact (RaftEngine.pendingAfter_of_noConf _ hx).trans hu.pending
  | snapshot => exact ⟨⟨hu.pending, hu.noConf⟩, by simp⟩
  | observe _ houts =>
      exact ⟨⟨hu.pending, hu.noConf⟩, fun o ho => confFree_of_negative (houts o ho)⟩
  | grant _ _ _ _ _ _ _ _ hp =>
      refine ⟨⟨hu.pending, hu.noConf⟩, fun o ho => ?_⟩
      rw [List.mem_singleton] at ho
      exact confFree_of_payload (ho ▸ hp) (by simp)
  | follow _ _ houts =>
      exact ⟨⟨hu.pending, hu.noConf⟩, fun o ho => confFree_of_negative (houts o ho)⟩
  | accept hpay _ _ _ hf _ _ _ _ hp =>
      subst hf
      have hes := hm _ rfl _ _ _ _ _ _ hpay
      refine ⟨⟨?_, hu.noConf.storedLog hes _⟩, fun o ho => ?_⟩
      · exact (RaftEngine.pendingAfter_of_noConf _ hes).trans hu.pending
      · rw [List.mem_singleton] at ho
        exact confFree_of_payload (ho ▸ hp) (by simp)
  | count _ _ _ => exact ⟨⟨hu.pending, hu.noConf⟩, by simp⟩
  | win _ _ _ _ => exact ⟨⟨hu.pending, hu.noConf⟩, by simp⟩
  | ack _ _ _ hf hg _ =>
      subst hg
      subst hf
      exact ⟨⟨hu.pending, hu.noConf⟩, by simp⟩

theorem Unreconfigured.snapshot {e : RaftEngine} (hu : Unreconfigured e) (data : String) :
    Unreconfigured (e.saveCurrentSnapshot data) := by
  unfold RaftEngine.saveCurrentSnapshot
  split
  · exact hu
  · dsimp only
    split
    · refine ⟨hu.pending, ?_⟩
      dsimp only
      split
      · exact hu.noConf.sublist (List.drop_sublist _ _)
      · exact hu.noConf
    · exact hu

/-- Where no reconfiguration is, no delivery installs one. -/
theorem UnreconfiguredInv.keepsPeers {env : Env} {members : Finset String} {s s' : Cluster} {op : ClusterOp}
    (hs : UnreconfiguredInv members s) (hstep : (cluster env members).step op s = some s') :
    KeepsPeers env op s := by
  cases op with
  | deliver n rpc =>
      simp only [cluster] at hstep
      split at hstep
      · rename_i hn
        obtain ⟨r, hcall, -⟩ := Option.map_eq_some_iff.mp hstep
        simp only [Cluster.call] at hcall
        split at hcall
        · rename_i haddr
          exact fun _ => RaftEngine.installsNothing_of_confFree (hs.node n hn).pending (hs.net rpc haddr.1)
        · cases hcall
      · cases hstep
  | tick n elapsed => trivial
  | propose n data zkProof => trivial
  | snapshot n data => trivial

section Runs

variable {env : Env} {members : Finset String} {ok : ClusterOp → Cluster → Prop}

theorem unreconfigured_reachable (hfix : ∀ op s, ok op s → FixedMembership op s) {s : Cluster}
    (h : (cluster env members).Reachable ok s) : UnreconfiguredInv members s := by
  refine System.Reachable.invariant ?_ ?_ h
  · rintro s ⟨hnet, hfresh⟩
    refine ⟨fun n hn => ?_, by simp [hnet]⟩
    obtain ⟨peers, key, keys, storage, machine, -, -, -, heq⟩ := (hfresh n hn).eq_blank
    rw [heq]
    exact ⟨rfl, by intro x hx; cases hx⟩
  · intro s op s' hs hok hstep
    -- one member changes, and its new messages join the network
    have hput : ∀ n ∈ members, ∀ e' outs, Unreconfigured e' → (∀ o ∈ outs, o.ConfFree) →
        UnreconfiguredInv members (s.put n e' outs) := by
      intro n hn e' outs he houts
      refine ⟨Cluster.forall_put he hs.node, fun m hm => ?_⟩
      rcases List.mem_append.mp hm with hm | hm
      · exact houts m hm
      · exact hs.net m hm
    rcases step_cases (hs.keepsPeers hstep) hstep with ⟨n, m, e', outs, hmv, rfl⟩ | ⟨n, hn, data, -, rfl⟩
    · have hadded : m = none → NoConf (e'.log.drop (s.node n).log.length) := by
        intro hm x hx
        obtain ⟨zkProof, rfl⟩ := hmv.added hm x hx
        exact hfix _ _ hok
      obtain ⟨h1, h2⟩ := (hs.node n hmv.mem).event
        (fun rpc hrpc => hs.net rpc (hmv.addressed rpc hrpc).1) hadded hmv.event
      exact hput n hmv.mem e' outs h1 h2
    · exact hput n hn _ [] ((hs.node n hn).snapshot data) (by simp)

/-- **A run of fixed membership installs no list.** -/
theorem run_keepsPeers (hfix : ∀ op s, ok op s → FixedMembership op s) {h : List Cluster}
    (hr : (cluster env members).Run ok h) :
    (cluster env members).Run (fun op s => ok op s ∧ KeepsPeers env op s) h :=
  hr.strengthen fun _ _ _ hreach hok hstep => ⟨hok, (unreconfigured_reachable hfix hreach).keepsPeers hstep⟩

/-- **A plain run is steady.** -/
theorem run_steady (hplain : ∀ op s, ok op s → Plain op s) {h : List Cluster}
    (hr : (cluster env members).Run ok h) :
    (cluster env members).Run (fun op s => ok op s ∧ Steady env op s) h := by
  refine (run_keepsPeers (fun op s hok => (hplain op s hok).1) hr).mono ?_
  rintro op s ⟨hok, hkeep⟩
  refine ⟨hok, hkeep, ?_⟩
  cases op with
  | snapshot n data => exact (hplain _ s hok).2.elim
  | tick n elapsed => trivial
  | deliver n rpc => trivial
  | propose n data zkProof => trivial

end Runs

/-! ## Three nodes, to play scripts on -/

/-- Surroundings for the scripts: an injective text in the place of the hash. -/
def scriptEnv : Env where
  sha256 s := "#" ++ s
  crc32 _ := 0
  zk := false
  poseidon _ _ _ _ := zeroHash
  snapshotPoseidon _ _ := zeroHash
  codec := Borsh.entryCodec
  signRaw _ _ := none
  verifyRaw _ _ _ := true
  payloadText _ := ""
  machineReply _ := ""

def trio : Finset String := {"a", "b", "c"}

/-- Three fresh nodes, none of which has a directory. -/
def trioStart : Cluster where
  node n := RaftEngine.new scriptEnv n (["a", "b", "c"].filter (· ≠ n)) "" none (some [])
  net := []

theorem trioStart_init : (cluster scriptEnv trio).init trioStart := by
  refine ⟨rfl, fun n hn => ⟨["a", "b", "c"].filter (· ≠ n), "", ∅, none, some [], ?_, ?_, .inl rfl,
    .inr rfl, rfl⟩⟩
  · exact List.Nodup.filter _ (by decide)
  · ext x
    simp only [trio, List.mem_toFinset, List.mem_filter, Finset.mem_erase, Finset.mem_insert,
      Finset.mem_singleton, List.mem_cons, List.not_mem_nil, or_false, decide_eq_true_eq]
    exact And.comm

/-- Deliver to `n` the `i`-th message ever sent. -/
def deliverNth (n : String) (i : Nat) (s : Cluster) : ClusterOp :=
  match s.net.reverse[i]? with
  | some rpc => .deliver n rpc
  | none => .tick n false

/-- A deadline of `n` elapses. -/
def timeout (n : String) (_ : Cluster) : ClusterOp := .tick n true

/-- A client proposes `data` to `n`. -/
def clientPropose (n data : String) (_ : Cluster) : ClusterOp := .propose n data []

end WarmLogic.Consensus
