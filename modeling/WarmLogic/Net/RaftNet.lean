/-
# WarmLogic.Net.RaftNet — the Raft transport of `raft_net.rs`: framing, connections and what is delivered.

Every connection has a task that writes the messages of its channel as packets, four bytes of length and the message in
JSON. The listener at the other end reads packet after packet; a length over the limit ends its loop, and a message that
it cannot parse is passed over. The channel of a task that ended is replaced by a new connection at the next send.

What arrives is a prefix of what was written, cut anywhere. `listen` only grows with the stream (`listen_prefix`), so a
connection delivers what was sent on it up to some message, and never anything behind an oversized one
(`network_sound`).

A connection's invariant says that its stream is a prefix of the packets of a prefix of what was sent on it, and the
whole of them while the task runs. The network's invariant says that the connections to a target took the messages for
it one after the other, each where the one before had broken off: the channel in use is that of the last connection,
and a new one is made only when that has ended. Both are kept by every step, whatever the order.
-/
import WarmLogic.Lib.Bytes
import WarmLogic.Lib.Run
import Mathlib.Data.List.Basic
import Mathlib.Logic.Function.Basic

namespace WarmLogic.Net.RaftNet

open WarmLogic.Lib

/-- `serde_json` on the messages: what it writes it reads back. -/
structure Serde (RPC : Type) where
  toVec : RPC → Option (List UInt8)
  fromSlice : List UInt8 → Option RPC
  fromSlice_toVec : ∀ {rpc bytes}, toVec rpc = some bytes → fromSlice bytes = some rpc

/-! ## Framing -/

/-- The sanity limit of the listener. -/
def sanityLimit : Nat := 10 * 1024 * 1024

/-- The packet of a serialized message: its length as a `u32` and the message. -/
def packet (bytes : List UInt8) : List UInt8 := beBytes 4 bytes.length ++ bytes

section Framing

variable {RPC : Type} (serde : Serde RPC)

/-- The listener's loop over a stream that ends: the messages that it passes on. -/
def listen (stream : List UInt8) : List RPC :=
  if 4 ≤ stream.length then
    let len := ofBeBytes (stream.take 4)
    let rest := stream.drop 4
    if len > sanityLimit then []
    else if len ≤ rest.length then (serde.fromSlice (rest.take len)).toList ++ listen (rest.drop len)
    else []
  else []
termination_by stream.length
decreasing_by
  simp only [List.length_drop]
  omega

/-- What a task writes for its messages. One that `serde_json` cannot write is left out. -/
def packets (rpcs : List RPC) : List UInt8 := (rpcs.filterMap serde.toVec).flatMap packet

/-- The message is not over the listener's limit. -/
def Fits (rpc : RPC) : Prop := ∀ bytes, serde.toVec rpc = some bytes → bytes.length ≤ sanityLimit

instance (rpc : RPC) : Decidable (Fits serde rpc) :=
  match h : serde.toVec rpc with
  | none => isTrue fun bytes hbytes => by rw [h] at hbytes; cases hbytes
  | some bytes =>
      decidable_of_iff (bytes.length ≤ sanityLimit)
        ⟨fun hle b hb => by rw [h] at hb; cases hb; exact hle, fun hfits => hfits bytes h⟩

/-- The messages before the first oversized one, without those that cannot be written. -/
def passed (rpcs : List RPC) : List RPC :=
  (rpcs.filter fun rpc => (serde.toVec rpc).isSome).takeWhile fun rpc => decide (Fits serde rpc)

/-- The length of the message is a `u32`. -/
def Small (rpc : RPC) : Prop := ∀ bytes, serde.toVec rpc = some bytes → bytes.length < 2 ^ 32

variable {serde} {rpc : RPC} {bytes : List UInt8}

/-- The length in front of a message reads as its length. -/
theorem ofBeBytes_packet (h : bytes.length < 2 ^ 32) (rest : List UInt8) :
    ofBeBytes ((packet bytes ++ rest).take 4) = bytes.length := by
  have hhead : (packet bytes ++ rest).take 4 = beBytes 4 bytes.length := by
    unfold packet
    rw [List.append_assoc]
    exact List.take_left' (length_beBytes 4 bytes.length)
  rw [hhead]
  exact ofBeBytes_beBytes_of_lt (by omega)

/-- Behind it stands the message. -/
theorem drop_packet (bytes rest : List UInt8) : (packet bytes ++ rest).drop 4 = bytes ++ rest := by
  unfold packet
  rw [List.append_assoc]
  exact List.drop_left' (length_beBytes 4 bytes.length)

/-- A packet is four bytes longer than its message. -/
theorem length_packet (bytes : List UInt8) : (packet bytes).length = 4 + bytes.length := by
  unfold packet
  rw [List.length_append, length_beBytes]

/-- A packet within the limit is passed on. -/
theorem listen_packet (hrpc : serde.toVec rpc = some bytes) (h : bytes.length ≤ sanityLimit) (rest : List UInt8) :
    listen serde (packet bytes ++ rest) = rpc :: listen serde rest := by
  have hlimit : sanityLimit = 10485760 := rfl
  have hlong : 4 ≤ (packet bytes ++ rest).length := by
    rw [List.length_append, length_packet]
    omega
  rw [listen, if_pos hlong]
  simp only [ofBeBytes_packet (show bytes.length < 2 ^ 32 by omega) rest, drop_packet]
  rw [if_neg (by omega), if_pos (by rw [List.length_append]; omega), List.take_left, List.drop_left,
    serde.fromSlice_toVec hrpc]
  rfl

/-- Behind the length of an oversized message nothing is read any more. -/
theorem listen_oversized (h : sanityLimit < bytes.length) (hlt : bytes.length < 2 ^ 32) (rest : List UInt8) :
    listen serde (packet bytes ++ rest) = [] := by
  have hlong : 4 ≤ (packet bytes ++ rest).length := by
    rw [List.length_append, length_packet]
    omega
  rw [listen, if_pos hlong]
  simp only [ofBeBytes_packet hlt rest]
  exact if_pos h

/-- **The listener never takes back what it passed on**: of a longer stream it passes on as much or more. -/
theorem listen_prefix {a b : List UInt8} (h : a <+: b) : listen serde a <+: listen serde b := by
  induction hn : a.length using Nat.strong_induction_on generalizing a b with
  | _ n ih =>
      obtain ⟨tail, rfl⟩ := h
      rw [listen]
      split
      · next hlong =>
          have hlong' : 4 ≤ (a ++ tail).length := by
            rw [List.length_append]
            omega
          rw [listen.eq_1 serde (a ++ tail), if_pos hlong', List.take_append_of_le_length hlong,
            List.drop_append_of_le_length hlong]
          dsimp only
          split
          · exact List.prefix_refl _
          · split
            · next hwhole =>
                -- the same packet stands at the front of both
                rw [if_pos (by rw [List.length_append]; omega), List.take_append_of_le_length hwhole,
                  List.drop_append_of_le_length hwhole]
                refine List.prefix_append_right_inj _ |>.mpr (ih _ ?_ (List.prefix_append _ tail) rfl)
                rw [← hn]
                simp only [List.length_drop]
                omega
            · exact List.nil_prefix
      · exact List.nil_prefix

/-- What the listener passes on of everything that was written. -/
theorem listen_packets {rpcs : List RPC} (hsmall : ∀ rpc ∈ rpcs, Small serde rpc) :
    listen serde (packets serde rpcs) = passed serde rpcs := by
  unfold packets passed
  induction rpcs with
  | nil =>
      rw [listen]
      rfl
  | cons rpc rpcs ih =>
      obtain ⟨hrpc, hrpcs⟩ := List.forall_mem_cons.mp hsmall
      cases hbytes : serde.toVec rpc with
      | none =>
          rw [List.filterMap_cons_none hbytes, List.filter_cons_of_neg (by simp [hbytes])]
          exact ih hrpcs
      | some bytes =>
          rw [List.filterMap_cons_some hbytes, List.filter_cons_of_pos (by simp [hbytes]), List.flatMap_cons]
          by_cases hfits : Fits serde rpc
          · rw [listen_packet hbytes (hfits bytes hbytes), List.takeWhile_cons, if_pos (decide_eq_true hfits), ih hrpcs]
          · have hover : sanityLimit < bytes.length := by
              by_contra hle
              refine hfits fun b hb => ?_
              rw [hbytes] at hb
              cases hb
              omega
            rw [listen_oversized hover (hrpc bytes hbytes), List.takeWhile_cons, decide_eq_false hfits]
            rfl

end Framing

/-! ## Connections -/

section Network

variable {RPC Addr : Type}

/-- A connection: the channel and the task that empties it. -/
structure Connection (RPC Addr : Type) where
  target : String
  addr : Addr
  /-- The messages in the channel. -/
  queue : List RPC
  connected : Bool
  /-- The task runs, so the channel has its receiver. -/
  running : Bool
  /-- What the task has written. -/
  wire : List UInt8
  /-- How much of it has arrived. -/
  arrived : Nat
  /-- Everything that was ever sent into the channel. -/
  sent : List RPC

/-- `tx.send`. -/
def Connection.push (c : Connection RPC Addr) (rpc : RPC) : Connection RPC Addr :=
  { c with queue := c.queue ++ [rpc], sent := c.sent ++ [rpc] }

/-- `calls` lists the messages that were to be sent, with their targets. -/
structure RaftNetwork (RPC Addr : Type) where
  nodeId : String
  peers : List (String × Addr)
  /-- The channel of each target, by the number of its connection. -/
  peerConnections : String → Option Nat
  connections : List (Connection RPC Addr)
  calls : List (String × RPC)

namespace RaftNetwork

/-- A network without connections. -/
def new (nodeId : String) (peers : List (String × Addr)) : RaftNetwork RPC Addr where
  nodeId := nodeId
  peers := peers
  peerConnections _ := none
  connections := []
  calls := []

/-- The connection whose channel takes a message for the target. -/
def channel (s : RaftNetwork RPC Addr) (target : String) : Option Nat :=
  (s.peerConnections target).filter fun i => (s.connections[i]?).any (·.running)

/-- `send_rpc`: to the channel of the target, or of a new connection where that has ended. -/
def sendRpc (s : RaftNetwork RPC Addr) (targetId : String) (rpc : RPC) : RaftNetwork RPC Addr :=
  let s := { s with calls := s.calls ++ [(targetId, rpc)] }
  match s.channel targetId with
  | some i => { s with connections := s.connections.modify i (·.push rpc) }
  | none =>
      match s.peers.lookup targetId with
      | some addr =>
          { s with
            peerConnections := Function.update s.peerConnections targetId (some s.connections.length)
            connections := s.connections ++
              [⟨targetId, addr, [rpc], false, true, [], 0, [rpc]⟩] }
      | none => s

/-- `broadcast`: to each of the peers. -/
def broadcast (s : RaftNetwork RPC Addr) (rpc : RPC) : RaftNetwork RPC Addr :=
  (s.peers.filter fun peer => peer.1 ≠ s.nodeId).foldl (fun s peer => s.sendRpc peer.1 rpc) s

end RaftNetwork

/-- What a connection's task and its stream do. -/
inductive LinkStep where
  | connects
  | connectFails
  /-- The task takes the next message and writes its packet. -/
  | writes
  /-- It fails after so many bytes of the packet. -/
  | writeFails (n : Nat)
  /-- So many bytes more arrive. -/
  | arrives (n : Nat)

section Step

variable (serde : Serde RPC)

/-- The connection after a step of its own. -/
def Connection.step (c : Connection RPC Addr) : LinkStep → Option (Connection RPC Addr)
  | .connects => if c.running ∧ ¬c.connected then some { c with connected := true } else none
  | .connectFails => if c.running ∧ ¬c.connected then some { c with running := false } else none
  | .writes =>
      match c.queue with
      | rpc :: queue =>
          if c.running ∧ c.connected then
            some { c with queue, wire := c.wire ++ ((serde.toVec rpc).map packet).getD [] }
          else none
      | [] => none
  | .writeFails n =>
      match c.queue with
      | rpc :: queue =>
          if c.running ∧ c.connected then
            (serde.toVec rpc).map fun bytes =>
              { c with queue, running := false, wire := c.wire ++ (packet bytes).take n }
          else none
      | [] => none
  | .arrives n => some { c with arrived := min (c.arrived + n) c.wire.length }

/-- What the listener has passed on of this connection. -/
def Connection.delivered (c : Connection RPC Addr) : List RPC := listen serde (c.wire.take c.arrived)

/-- What a program asks of the network, and what connections do. -/
inductive NetworkOp (RPC : Type) where
  | sendRpc (targetId : String) (rpc : RPC)
  | broadcast (rpc : RPC)
  | link (i : Nat) (step : LinkStep)

/-- The messages that an operation sends are written with a `u32` length. -/
def NetworkOp.Small : NetworkOp RPC → Prop
  | .sendRpc _ rpc => RaftNet.Small serde rpc
  | .broadcast rpc => RaftNet.Small serde rpc
  | .link _ _ => True

/-- The network after that. -/
def NetworkOp.run : NetworkOp RPC → RaftNetwork RPC Addr → Option (RaftNetwork RPC Addr)
  | .sendRpc targetId rpc, s => some (s.sendRpc targetId rpc)
  | .broadcast rpc, s => some (s.broadcast rpc)
  | .link i step, s => do
      let c ← s.connections[i]?
      let c ← c.step serde step
      return { s with connections := s.connections.set i c }

/-- A node's network: calls, tasks and streams in any order. -/
def raftNetwork : System (RaftNetwork RPC Addr) (NetworkOp RPC) where
  init s := ∃ nodeId peers, s = RaftNetwork.new nodeId peers
  step := NetworkOp.run serde

end Step

/-! ## What a connection delivers -/

section Delivery

variable {serde : Serde RPC}

/-- What was sent is what was written, what is lost and what is in the channel. -/
structure Connection.Inv (serde : Serde RPC) (c : Connection RPC Addr) : Prop where
  arrived : c.arrived ≤ c.wire.length
  small : ∀ rpc ∈ c.sent, Small serde rpc
  written : ∃ written, written <+: c.sent ∧ c.wire <+: packets serde written ∧
    (c.running = true → c.sent = written ++ c.queue ∧ c.wire = packets serde written)

/-- Packets are written one after the other. -/
theorem packets_append (rpcs rpcs' : List RPC) : packets serde (rpcs ++ rpcs') = packets serde rpcs ++ packets serde rpcs' := by
  unfold packets
  rw [List.filterMap_append, List.flatMap_append]

/-- The packet of one message. -/
theorem packets_singleton (rpc : RPC) : packets serde [rpc] = ((serde.toVec rpc).map packet).getD [] := by
  unfold packets
  cases h : serde.toVec rpc with
  | none => simp [h]
  | some bytes => simp [h]

/-- Of more messages as much or more is passed on. -/
theorem passed_mono {rpcs rpcs' : List RPC} (h : rpcs <+: rpcs') : passed serde rpcs <+: passed serde rpcs' := by
  unfold passed
  obtain ⟨tail, rfl⟩ := h
  rw [List.filter_append, List.takeWhile_append]
  split
  · exact (List.takeWhile_prefix _).trans (List.prefix_append _ _)
  · exact List.prefix_refl _

/-- A message put into the channel keeps the invariant. -/
theorem Connection.Inv.push {c : Connection RPC Addr} (h : c.Inv serde) {rpc : RPC} (hrpc : Small serde rpc) :
    (c.push rpc).Inv serde := by
  obtain ⟨written, hsent, hwire, hrunning⟩ := h.written
  refine ⟨h.arrived, ?_, written, hsent.trans (List.prefix_append _ _), hwire, fun hr => ?_⟩
  · intro r hr
    rcases List.mem_append.mp hr with hr | hr
    · exact h.small r hr
    · rw [List.mem_singleton.mp hr]
      exact hrpc
  · obtain ⟨hsplit, hall⟩ := hrunning hr
    refine ⟨?_, hall⟩
    show c.sent ++ [rpc] = written ++ (c.queue ++ [rpc])
    rw [hsplit, List.append_assoc]

/-- **The step lemma of a connection.** -/
theorem Connection.Inv.step {c c' : Connection RPC Addr} (h : c.Inv serde) {step : LinkStep}
    (hstep : c.step serde step = some c') : c'.Inv serde := by
  obtain ⟨written, hsent, hwire, hrunning⟩ := h.written
  unfold Connection.step at hstep
  split at hstep
  · -- connects
    split at hstep
    · cases hstep
      exact ⟨h.arrived, h.small, written, hsent, hwire, hrunning⟩
    · cases hstep
  · -- the connection attempt fails
    split at hstep
    · cases hstep
      exact ⟨h.arrived, h.small, written, hsent, hwire, fun hr => by cases hr⟩
    · cases hstep
  · split at hstep
    · next rpc queue hqueue =>
        split at hstep
        · next hr =>
            cases hstep
            obtain ⟨hsplit, hall⟩ := hrunning hr.1
            rw [hqueue] at hsplit
            have hsplit' : c.sent = (written ++ [rpc]) ++ queue := by rw [hsplit, List.append_assoc]; rfl
            have hwire' : c.wire ++ ((serde.toVec rpc).map packet).getD [] = packets serde (written ++ [rpc]) := by
              rw [packets_append, packets_singleton, hall]
            refine ⟨h.arrived.trans ?_, h.small, written ++ [rpc], ⟨queue, hsplit'.symm⟩, ?_, fun _ => ⟨hsplit', hwire'⟩⟩
            · show c.wire.length ≤ (c.wire ++ _).length
              simp only [List.length_append, Nat.le_add_right]
            · show c.wire ++ _ <+: _
              exact hwire' ▸ List.prefix_refl _
        · cases hstep
    · cases hstep
  · split at hstep
    · next n rpc queue hqueue =>
        split at hstep
        · next hr =>
            obtain ⟨bytes, hbytes, rfl⟩ := Option.map_eq_some_iff.mp hstep
            obtain ⟨hsplit, hall⟩ := hrunning hr.1
            rw [hqueue] at hsplit
            have hsplit' : c.sent = (written ++ [rpc]) ++ queue := by rw [hsplit, List.append_assoc]; rfl
            refine ⟨h.arrived.trans ?_, h.small, written ++ [rpc], ⟨queue, hsplit'.symm⟩, ?_, fun hr => by cases hr⟩
            · show c.wire.length ≤ (c.wire ++ _).length
              simp only [List.length_append, Nat.le_add_right]
            · -- a part of the last packet
              show c.wire ++ _ <+: _
              rw [packets_append, packets_singleton, hbytes, hall]
              exact (List.prefix_append_right_inj _).mpr (List.take_prefix _ _)
        · cases hstep
    · cases hstep
  · cases hstep
    refine ⟨Nat.min_le_right _ _, h.small, written, hsent, hwire, hrunning⟩

/-- What is delivered is a front part of what was sent. -/
theorem Connection.Inv.delivered_initial {c : Connection RPC Addr} (h : c.Inv serde) :
    c.delivered serde <+: passed serde c.sent := by
  obtain ⟨written, hsent, hwire, -⟩ := h.written
  have hsmall : ∀ rpc ∈ written, Small serde rpc := fun rpc hrpc => h.small rpc (hsent.subset hrpc)
  have harrived : c.wire.take c.arrived <+: packets serde written := (List.take_prefix _ _).trans hwire
  have hlisten : listen serde _ <+: listen serde _ := listen_prefix harrived
  rw [listen_packets hsmall] at hlisten
  exact hlisten.trans (passed_mono hsent)

/-- And all that can be, once everything was written and has arrived. -/
theorem Connection.Inv.delivered_eq {c : Connection RPC Addr} (h : c.Inv serde) (hrunning : c.running = true)
    (hqueue : c.queue = []) (harrived : c.arrived = c.wire.length) : c.delivered serde = passed serde c.sent := by
  obtain ⟨written, hsent, -, hr⟩ := h.written
  obtain ⟨hsplit, hwire⟩ := hr hrunning
  rw [hqueue, List.append_nil] at hsplit
  unfold Connection.delivered
  rw [harrived, List.take_length, hwire, hsplit]
  exact listen_packets fun rpc hrpc => h.small rpc (hsent.subset hrpc)

end Delivery

/-! ## What a network delivers -/

section Runs

variable {serde : Serde RPC}

namespace RaftNetwork

/-- The messages sent to a target on these connections, one connection after the other. -/
def sentOn (connections : List (Connection RPC Addr)) (target : String) : List RPC :=
  (connections.filter fun c => c.target = target).flatMap Connection.sent

/-- The messages sent to a target on all connections. -/
def sentTo (s : RaftNetwork RPC Addr) (target : String) : List RPC := sentOn s.connections target

/-- The messages that were to be sent to it. -/
def callsTo (s : RaftNetwork RPC Addr) (target : String) : List RPC :=
  (s.calls.filter fun call => call.1 = target).map Prod.snd

/-- The channel of a target is that of its last connection, so that its connections together took every message for
it in order. -/
structure Inv (serde : Serde RPC) (s : RaftNetwork RPC Addr) : Prop where
  connections : ∀ c ∈ s.connections, c.Inv serde ∧ s.peers.lookup c.target = some c.addr
  last : ∀ target i, s.peerConnections target = some i →
    ∃ front back, s.connections.map Connection.target = front ++ target :: back ∧ front.length = i ∧ target ∉ back
  sent : ∀ target, (s.peers.lookup target).isSome → s.sentTo target = s.callsTo target

/-- A call more is a message more for its target. -/
theorem callsTo_append (s : RaftNetwork RPC Addr) (targetId : String) (rpc : RPC) (target : String) :
    (({ s with calls := s.calls ++ [(targetId, rpc)] } : RaftNetwork RPC Addr)).callsTo target =
      s.callsTo target ++ if targetId = target then [rpc] else [] := by
  unfold callsTo
  rw [List.filter_append, List.map_append]
  by_cases h : targetId = target
  · simp [h]
  · simp [h]

/-- Connections one after the other. -/
theorem sentOn_append (l l' : List (Connection RPC Addr)) (target : String) :
    sentOn (l ++ l') target = sentOn l target ++ sentOn l' target := by
  unfold sentOn
  rw [List.filter_append, List.flatMap_append]

/-- What was sent on the first, then on the others. -/
theorem sentOn_cons (c : Connection RPC Addr) (l : List (Connection RPC Addr)) (target : String) :
    sentOn (c :: l) target = (if c.target = target then c.sent else []) ++ sentOn l target := by
  unfold sentOn
  by_cases h : c.target = target
  · simp [h]
  · simp [h]

/-- Connections to others took nothing for the target. -/
theorem sentOn_eq_nil {l : List (Connection RPC Addr)} {target : String} (h : target ∉ l.map Connection.target) :
    sentOn l target = [] := by
  unfold sentOn
  rw [List.filter_eq_nil_iff.mpr fun c hc htarget => h (List.mem_map.mpr ⟨c, hc, of_decide_eq_true htarget⟩)]
  rfl

/-- **Sending a message** puts it behind all that was sent to the target. -/
theorem Inv.sendRpc {s : RaftNetwork RPC Addr} (h : s.Inv serde) (targetId : String) {rpc : RPC}
    (hrpc : Small serde rpc) : (s.sendRpc targetId rpc).Inv serde := by
  have hlast := h.last
  unfold RaftNetwork.sendRpc
  dsimp only
  have hcalls := callsTo_append s targetId rpc
  have hchannel : ({ s with calls := s.calls ++ [(targetId, rpc)] } : RaftNetwork RPC Addr).channel targetId =
      s.channel targetId := rfl
  rw [hchannel]
  cases hi : s.channel targetId with
  | some i =>
      obtain ⟨hconn, -⟩ := Option.filter_eq_some_iff.mp hi
      obtain ⟨front, back, hsplit, hlen, hback⟩ := h.last targetId i hconn
      obtain ⟨before, rest, hall, hfront, hrest⟩ := List.map_eq_append_iff.mp hsplit
      obtain ⟨c, after, rfl, hc, rfl⟩ := List.map_eq_cons_iff.mp hrest
      have hlen' : before.length = i := by rw [← hlen, ← hfront, List.length_map]
      have hmodify : s.connections.modify i (·.push rpc) = before ++ c.push rpc :: after := by
        have hlt : before.length < (before ++ c :: after).length := by
          rw [List.length_append, List.length_cons]
          omega
        rw [hall, ← hlen', List.modify_eq_take_cons_drop hlt]
        simp
      have hmap : (s.connections.modify i (·.push rpc)).map Connection.target = s.connections.map Connection.target := by
        rw [hmodify, hall]
        simp [Connection.push]
      refine ⟨fun d hd => ?_, fun target j hj => ?_, fun target htarget => ?_⟩
      · change d ∈ s.connections.modify i (·.push rpc) at hd
        have hmem : c ∈ s.connections := by rw [hall]; simp
        rw [hmodify, List.mem_append, List.mem_cons] at hd
        rcases hd with hd | rfl | hd
        · exact h.connections d (by rw [hall]; simp [hd])
        · exact ⟨(h.connections c hmem).1.push hrpc, (h.connections c hmem).2⟩
        · exact h.connections d (by rw [hall]; simp [hd])
      · show ∃ front back, (s.connections.modify i (·.push rpc)).map Connection.target = _ ∧ _
        rw [hmap]
        exact hlast target j hj
      · refine Eq.trans ?_ (hcalls target).symm
        rw [← h.sent target htarget]
        show sentOn (s.connections.modify i (·.push rpc)) target = sentOn s.connections target ++ _
        rw [hmodify, hall, sentOn_append, sentOn_append, sentOn_cons, sentOn_cons]
        by_cases heq : targetId = target
        · -- nothing was sent to the target on a later connection
          subst heq
          rw [sentOn_eq_nil hback, if_pos hc, if_pos (show (c.push rpc).target = targetId from hc), if_pos rfl]
          show _ ++ (c.sent ++ [rpc] ++ []) = _
          simp
        · have hne : ¬c.target = target := fun hct => heq (hc.symm.trans hct)
          rw [if_neg hne, if_neg (show ¬(c.push rpc).target = target from hne), if_neg heq, List.append_nil]
  | none =>
      cases haddr : s.peers.lookup targetId with
      | none =>
          simp only
          refine ⟨h.connections, h.last, fun target htarget => ?_⟩
          refine Eq.trans (h.sent target htarget) ((hcalls target).trans ?_).symm
          have hne : targetId ≠ target := by
            rintro rfl
            rw [haddr] at htarget
            cases htarget
          rw [if_neg hne, List.append_nil]
      | some addr =>
          simp only
          refine ⟨fun d hd => ?_, fun target j hj => ?_, fun target htarget => ?_⟩
          · rcases List.mem_append.mp hd with hd | hd
            · exact h.connections d hd
            · rw [List.mem_singleton.mp hd]
              refine ⟨⟨Nat.le_refl 0, fun r hr => ?_, [], List.nil_prefix, List.nil_prefix, fun _ => ⟨rfl, rfl⟩⟩, haddr⟩
              rw [List.mem_singleton.mp hr]
              exact hrpc
          · change Function.update s.peerConnections targetId (some s.connections.length) target = some j at hj
            by_cases heq : target = targetId
            · subst heq
              rw [Function.update_self] at hj
              cases hj
              exact ⟨_, [], List.map_append, List.length_map _, List.not_mem_nil⟩
            · rw [Function.update_of_ne heq] at hj
              obtain ⟨front, back, hsplit, hlen, hback⟩ := h.last target j hj
              refine ⟨front, back ++ [targetId], ?_, hlen, ?_⟩
              · show (s.connections ++ [_]).map Connection.target = _
                rw [List.map_append, hsplit, List.append_assoc]
                rfl
              · rw [List.mem_append, List.mem_singleton]
                exact fun hor => hor.elim hback heq
          · refine Eq.trans ?_ (hcalls target).symm
            rw [← h.sent target htarget]
            show sentOn (s.connections ++ [_]) target = sentOn s.connections target ++ _
            rw [sentOn_append, sentOn_cons]
            exact congrArg _ (List.append_nil _)

/-- A broadcast is a message to each peer. -/
theorem Inv.broadcast {s : RaftNetwork RPC Addr} (h : s.Inv serde) {rpc : RPC} (hrpc : Small serde rpc) :
    (s.broadcast rpc).Inv serde := by
  unfold RaftNetwork.broadcast
  generalize s.peers.filter _ = targets
  induction targets generalizing s with
  | nil => exact h
  | cons peer targets ih => exact ih (h.sendRpc peer.1 hrpc)

end RaftNetwork

/-- What a connection does on its own changes neither its target nor what was sent. -/
theorem Connection.step_frame {c c' : Connection RPC Addr} {step : LinkStep} (h : c.step serde step = some c') :
    c'.target = c.target ∧ c'.addr = c.addr ∧ c'.sent = c.sent := by
  unfold Connection.step at h
  split at h
  · split at h
    · cases h
      exact ⟨rfl, rfl, rfl⟩
    · cases h
  · split at h
    · cases h
      exact ⟨rfl, rfl, rfl⟩
    · cases h
  · split at h
    · split at h
      · cases h
        exact ⟨rfl, rfl, rfl⟩
      · cases h
    · cases h
  · split at h
    · split at h
      · obtain ⟨bytes, -, rfl⟩ := Option.map_eq_some_iff.mp h
        exact ⟨rfl, rfl, rfl⟩
      · cases h
    · cases h
  · cases h
    exact ⟨rfl, rfl, rfl⟩

/-- What a connection does on its own keeps the invariant. -/
theorem RaftNetwork.Inv.link {s : RaftNetwork RPC Addr} (h : s.Inv serde) {i : Nat} {c c' : Connection RPC Addr}
    (hc : s.connections[i]? = some c) {step : LinkStep} (hstep : c.step serde step = some c') :
    ({ s with connections := s.connections.set i c' } : RaftNetwork RPC Addr).Inv serde := by
  obtain ⟨htarget, haddr, hsent⟩ := Connection.step_frame hstep
  obtain ⟨hlt, hget⟩ := List.getElem?_eq_some_iff.mp hc
  have hsplit : s.connections = s.connections.take i ++ c :: s.connections.drop (i + 1) := by
    rw [← hget, List.getElem_cons_drop, List.take_append_drop]
  have hset : s.connections.set i c' = s.connections.take i ++ c' :: s.connections.drop (i + 1) :=
    List.set_eq_take_append_cons_drop.trans (if_pos hlt)
  refine ⟨fun d hd => ?_, fun target j hj => ?_, fun target hlookup => ?_⟩
  · rcases List.mem_or_eq_of_mem_set hd with hd | rfl
    · exact h.connections d hd
    · obtain ⟨hinv, hpeer⟩ := h.connections c (List.mem_of_getElem? hc)
      refine ⟨hinv.step hstep, ?_⟩
      rw [htarget, haddr]
      exact hpeer
  · have hmap : (s.connections.set i c').map Connection.target = s.connections.map Connection.target := by
      conv_rhs => rw [hsplit]
      rw [hset, List.map_append, List.map_append, List.map_cons, List.map_cons, htarget]
    show ∃ front back, (s.connections.set i c').map Connection.target = _ ∧ _
    rw [hmap]
    exact h.last target j hj
  · refine Eq.trans ?_ (h.sent target hlookup)
    show sentOn (s.connections.set i c') target = sentOn s.connections target
    conv_rhs => rw [hsplit]
    rw [hset, sentOn_append, sentOn_append, sentOn_cons, sentOn_cons, htarget, hsent]

/-- **Whatever calls, tasks and streams do**, the connections to a peer together took all messages for it, each once and in
order, and each connection delivered what was sent on it up to some message before the first oversized one: all of it, if
its task never ended and everything arrived. -/
theorem network_sound {s : RaftNetwork RPC Addr}
    (h : (raftNetwork serde).Reachable (fun op _ => op.Small serde) s) :
    (∀ target, (s.peers.lookup target).isSome → s.sentTo target = s.callsTo target) ∧
      ∀ c ∈ s.connections, s.peers.lookup c.target = some c.addr ∧ c.delivered serde <+: passed serde c.sent ∧
        (c.running = true → c.queue = [] → c.arrived = c.wire.length → c.delivered serde = passed serde c.sent) := by
  have hinv : s.Inv serde := by
    refine h.invariant (fun s hs => ?_) fun s op s' hinv hok hstep => ?_
    · obtain ⟨nodeId, peers, rfl⟩ := hs
      exact ⟨fun c hc => absurd hc List.not_mem_nil, fun target i hi => (by cases hi), fun target _ => rfl⟩
    · cases op with
      | sendRpc targetId rpc =>
          obtain rfl := Option.some.inj hstep
          exact hinv.sendRpc targetId hok
      | broadcast rpc =>
          obtain rfl := Option.some.inj hstep
          exact hinv.broadcast hok
      | link i step =>
          obtain ⟨c, hc, hstep⟩ := Option.bind_eq_some_iff.mp hstep
          obtain ⟨c', hc', hstep⟩ := Option.bind_eq_some_iff.mp hstep
          obtain rfl := Option.some.inj hstep
          exact hinv.link hc hc'
  exact ⟨hinv.sent, fun c hc => ⟨(hinv.connections c hc).2, (hinv.connections c hc).1.delivered_initial,
    (hinv.connections c hc).1.delivered_eq⟩⟩

end Runs

end Network

/-- `serde_json` on a digit. -/
def digitSerde : Serde (Fin 10) where
  toVec d := some [UInt8.ofNat (48 + d)]
  fromSlice
    | [b] => if h : 48 ≤ b.toNat ∧ b.toNat < 58 then some ⟨b.toNat - 48, by omega⟩ else none
    | _ => none
  fromSlice_toVec := by
    intro rpc bytes h
    obtain rfl := Option.some.inj h
    revert rpc
    decide

/-- Two messages on a connection that breaks in the second packet, and a third on the next connection. -/
def cutNetwork : RaftNetwork (Fin 10) Nat :=
  [NetworkOp.sendRpc "b" 3, .link 0 .connects, .broadcast 5, .link 0 .writes, .link 0 (.writeFails 2),
    .link 0 (.arrives 100), .sendRpc "b" 7].foldl (fun s op => (op.run digitSerde s).getD s)
      (.new "a" [("a", 1), ("b", 2)])

theorem network_sound_cut :
    (∀ target, (cutNetwork.peers.lookup target).isSome → cutNetwork.sentTo target = cutNetwork.callsTo target) ∧
      ∀ c ∈ cutNetwork.connections, cutNetwork.peers.lookup c.target = some c.addr ∧
        c.delivered digitSerde <+: passed digitSerde c.sent ∧
        (c.running = true → c.queue = [] → c.arrived = c.wire.length →
          c.delivered digitSerde = passed digitSerde c.sent) := by
  have hsmall : ∀ d, Small digitSerde d := by
    intro d bytes h
    obtain rfl := Option.some.inj h
    exact (by decide : 1 < 2 ^ 32)
  refine network_sound ⟨_, .step (a := .sendRpc "b" 7) (.step (a := .link 0 (.arrives 100))
    (.step (a := .link 0 (.writeFails 2)) (.step (a := .link 0 .writes) (.step (a := .broadcast 5)
      (.step (a := .link 0 .connects) (.step (a := .sendRpc "b" 3) (.init ⟨"a", [("a", 1), ("b", 2)], rfl⟩)
        (hsmall 3) rfl) trivial rfl) (hsmall 5) rfl) trivial rfl) trivial rfl) trivial rfl) (hsmall 7) rfl⟩

end WarmLogic.Net.RaftNet
