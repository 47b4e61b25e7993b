/-
# WarmLogic.Net.UdpEngine — the receiving side of `transport.rs`: size check, rate limiter, statistics, buffer.

Each datagram is dropped for its size, dropped by the limiter, or counted and pushed to the incoming buffer, which drops
its oldest message when it is full. The ghost record says what arrived and was accepted, and what each poll returned.

The statistics account for every datagram, a poll returns the newest of what was accepted since the poll before, in
order, and the limiter bounds what one address gets into the buffer (`engine_sound`).

`EngineInv` is a list of equations between the engine and the record beside it: each counter counts something that is
in the record, the buffer is the newest part of what was accepted since the last poll, and the limiter runs as in
`RateLimiter`, so that what holds of all its runs holds here. A step changes engine and record alike, which keeps
every equation.
-/
import WarmLogic.Net.RateLimiter

namespace WarmLogic.Net.Limiter

open WarmLogic.Lib

/-- `IncomingMessage`, with its sender. -/
structure IncomingMessage (Ip : Type) where
  source : Ip × UInt16
  payload : List UInt8

/-- `MessageBuffer`. -/
structure MessageBuffer (Ip : Type) where
  messages : List (IncomingMessage Ip)
  capacity : Nat

namespace MessageBuffer

variable {Ip : Type}

/-- An empty buffer. -/
def new (capacity : Nat) : MessageBuffer Ip where
  messages := []
  capacity := capacity

/-- Drops the oldest message if the buffer is full. -/
def push (buffer : MessageBuffer Ip) (msg : IncomingMessage Ip) : MessageBuffer Ip :=
  let messages := if buffer.capacity ≤ buffer.messages.length then buffer.messages.drop 1 else buffer.messages
  { buffer with messages := messages ++ [msg] }

/-- All messages, oldest first, and the buffer is empty. -/
def popAll (buffer : MessageBuffer Ip) : MessageBuffer Ip × List (IncomingMessage Ip) :=
  ({ buffer with messages := [] }, buffer.messages)

end MessageBuffer

/-- The counters of the receiver. -/
structure NetworkStats where
  messagesReceived : Nat
  bytesReceived : Nat
  recvErrors : Nat
  rateLimited : Nat
  oversizedDropped : Nat

/-- `NetworkingEngine`, with the limiter in its record. -/
structure NetworkingEngine (Ip : Type) where
  incoming : MessageBuffer Ip
  stats : NetworkStats
  rateLimiter : Limited Ip
  maxMessageSize : Nat

/-- One poll: what was accepted since the poll before, and what it returned. -/
structure Poll (Ip : Type) where
  accepted : List (IncomingMessage Ip)
  returned : List (IncomingMessage Ip)

/-- The engine, the number of datagrams that arrived, the polls, newest first, and what was accepted since the last. -/
structure Engine (Ip : Type) where
  engine : NetworkingEngine Ip
  arrived : Nat
  polls : List (Poll Ip)
  since : List (IncomingMessage Ip)

/-- What the socket, the program and the clock do. -/
inductive EngineOp (Ip : Type) where
  | datagram (source : Ip × UInt16) (payload : List UInt8) (now created : Nat)
  | recvError
  | pollIncoming
  | banIp (ip : Ip) (created now : Nat)
  | isBanned (ip : Ip) (now : Nat)
  | cleanupRateLimits (now : Nat)

namespace EngineOp

variable {Ip : Type} [DecidableEq Ip]

/-- A call on the limiter alone. -/
def limit (s : Engine Ip) (op : RateOp Ip) : Engine Ip :=
  { s with engine := { s.engine with rateLimiter := op.run s.engine.rateLimiter } }

/-- One turn of the receiver's loop for a datagram. -/
def receive (s : Engine Ip) (source : Ip × UInt16) (payload : List UInt8) (now created : Nat) : Engine Ip :=
  let size := payload.length
  let e := s.engine
  if e.maxMessageSize < size then
    { s with
      engine := { e with stats := { e.stats with oversizedDropped := e.stats.oversizedDropped + 1 } }
      arrived := s.arrived + 1 }
  else
    let allowed := (e.rateLimiter.limiter.checkAndIncrement source.1 now created).2
    let rateLimiter := RateOp.run e.rateLimiter (.checkAndIncrement source.1 now created)
    if allowed then
      { s with
        engine :=
          { e with
            rateLimiter := rateLimiter
            stats :=
              { e.stats with
                messagesReceived := e.stats.messagesReceived + 1
                bytesReceived := e.stats.bytesReceived + size }
            incoming := e.incoming.push ⟨source, payload⟩ }
        arrived := s.arrived + 1
        since := s.since ++ [⟨source, payload⟩] }
    else
      { s with
        engine :=
          { e with
            rateLimiter := rateLimiter
            stats := { e.stats with rateLimited := e.stats.rateLimited + 1 } }
        arrived := s.arrived + 1 }

/-- The engine after an event. -/
def run (s : Engine Ip) : EngineOp Ip → Engine Ip
  | .datagram source payload now created => receive s source payload now created
  | .recvError => { s with engine := { s.engine with stats := { s.engine.stats with recvErrors := s.engine.stats.recvErrors + 1 } } }
  | .pollIncoming =>
      let (incoming, messages) := s.engine.incoming.popAll
      { s with engine := { s.engine with incoming := incoming }, polls := ⟨s.since, messages⟩ :: s.polls, since := [] }
  | .banIp ip created now => limit s (.ban ip created now)
  | .isBanned ip now => limit s (.isBanned ip now)
  | .cleanupRateLimits now => limit s (.cleanupExpired now)

/-- The readings of the clock follow each other. An oversized datagram reads no clock. -/
def Forward (op : EngineOp Ip) (s : Engine Ip) : Prop :=
  match op with
  | .datagram _ _ now created => s.engine.rateLimiter.clock ≤ now ∧ now ≤ created
  | .banIp _ created now => s.engine.rateLimiter.clock ≤ created ∧ created ≤ now
  | .isBanned _ now => s.engine.rateLimiter.clock ≤ now
  | .cleanupRateLimits now => s.engine.rateLimiter.clock ≤ now
  | _ => True

end EngineOp

/-- The duration of bans that the engine sets. -/
def banDurationSecs : Nat := 300

/-- `start_with_config`, with the buffer of a thousand messages. -/
def startWithConfig (Ip : Type) [DecidableEq Ip] (maxMessageSize maxMessagesPerSecond : Nat) :
    System (Engine Ip) (EngineOp Ip) where
  init s := s.engine.incoming = .new 1000 ∧ s.engine.stats = ⟨0, 0, 0, 0, 0⟩ ∧
    (rateSystem Ip maxMessagesPerSecond banDurationSecs).init s.engine.rateLimiter ∧
    s.engine.maxMessageSize = maxMessageSize ∧ s.arrived = 0 ∧ s.polls = [] ∧ s.since = []
  step op s := some (op.run s)

/-! ## The buffer -/

/-- The last `n` elements. -/
def newest {α : Type} (n : Nat) (l : List α) : List α := l.drop (l.length - n)

/-- Of nothing, nothing. -/
theorem newest_nil {α : Type} (n : Nat) : newest n ([] : List α) = [] := List.drop_nil

/-- One element more pushes the oldest out, if there are as many. -/
theorem newest_concat {α : Type} {n : Nat} (hn : 0 < n) (l : List α) (x : α) :
    newest n (l ++ [x]) = (if n ≤ (newest n l).length then (newest n l).drop 1 else newest n l) ++ [x] := by
  unfold newest
  rw [List.length_append, List.length_singleton, List.length_drop]
  by_cases hlong : n ≤ l.length
  · rw [if_pos (by omega), List.drop_drop, List.drop_append_of_le_length (by omega)]
    congr 2
    omega
  · have hzero : l.length - n = 0 := by omega
    have hzero' : l.length + 1 - n = 0 := by omega
    rw [if_neg (by omega), hzero, hzero', List.drop_zero, List.drop_zero]

section Runs

variable {Ip : Type} [DecidableEq Ip] {maxMessageSize maxMessagesPerSecond : Nat} {s : Engine Ip}

/-- Everything that was accepted, oldest first. -/
def Engine.accepted (s : Engine Ip) : List (IncomingMessage Ip) :=
  (s.polls.reverse.map Poll.accepted).flatten ++ s.since

/-- **What holds of the receiver at every point**: statistics, sizes, buffer, polls and limiter, each against the
record. An event that is not a datagram accepted or dropped leaves the counters, and one that is moves a counter and
the record together. -/
structure EngineInv (maxMessageSize maxMessagesPerSecond : Nat) (s : Engine Ip) : Prop where
  size : s.engine.maxMessageSize = maxMessageSize
  capacity : s.engine.incoming.capacity = 1000
  conserved : s.arrived
    = s.engine.stats.messagesReceived + s.engine.stats.rateLimited + s.engine.stats.oversizedDropped
  received : s.engine.stats.messagesReceived = s.accepted.length
  bytes : s.engine.stats.bytesReceived = (s.accepted.map fun msg => msg.payload.length).sum
  small : ∀ msg ∈ s.accepted, msg.payload.length ≤ maxMessageSize
  buffer : s.engine.incoming.messages = newest 1000 s.since
  polls : ∀ poll ∈ s.polls, poll.returned = newest 1000 poll.accepted
  admitted : (s.engine.rateLimiter.admitted.map Prod.fst).reverse = s.accepted.map fun msg => msg.source.1
  limiter : (rateSystem Ip maxMessagesPerSecond banDurationSecs).Reachable Limiter.Forward s.engine.rateLimiter

/-- It holds at the start. -/
theorem EngineInv.init (h : (startWithConfig Ip maxMessageSize maxMessagesPerSecond).init s) :
    EngineInv maxMessageSize maxMessagesPerSecond s := by
  obtain ⟨hincoming, hstats, hlimiter, hsize, harrived, hpolls, hsince⟩ := h
  have haccepted : s.accepted = [] := by
    unfold Engine.accepted
    rw [hpolls, hsince]
    rfl
  refine ⟨hsize, by rw [hincoming]; rfl, by rw [hstats, harrived]; rfl, by rw [hstats, haccepted]; rfl,
    by rw [hstats, haccepted]; rfl, fun msg hmsg => ?_, by rw [hincoming, hsince, newest_nil]; rfl,
    fun poll hpoll => ?_, ?_, ⟨[], .init hlimiter⟩⟩
  · rw [haccepted] at hmsg
    exact absurd hmsg List.not_mem_nil
  · rw [hpolls] at hpoll
    exact absurd hpoll List.not_mem_nil
  · rw [haccepted, hlimiter.2.1]
    rfl

/-- The limiter inside runs as a limiter. -/
theorem reachable_run (op : RateOp Ip) {l : Limited Ip} (hforward : op.Forward l.clock)
    (h : (rateSystem Ip maxMessagesPerSecond banDurationSecs).Reachable Limiter.Forward l) :
    (rateSystem Ip maxMessagesPerSecond banDurationSecs).Reachable Limiter.Forward (op.run l) := by
  obtain ⟨past, hrun⟩ := h
  exact ⟨_, .step hrun hforward rfl⟩

/-- A call on the limiter alone keeps it. -/
theorem EngineInv.limit (h : EngineInv maxMessageSize maxMessagesPerSecond s) (op : RateOp Ip)
    (hforward : op.Forward s.engine.rateLimiter.clock)
    (hsame : (op.run s.engine.rateLimiter).admitted = s.engine.rateLimiter.admitted) :
    EngineInv maxMessageSize maxMessagesPerSecond (EngineOp.limit s op) :=
  ⟨h.size, h.capacity, h.conserved, h.received, h.bytes, h.small, h.buffer, h.polls,
    (congrArg (fun l => (l.map Prod.fst).reverse) hsame).trans h.admitted, reachable_run op hforward h.limiter⟩

/-- What the limiter lets through is recorded there. -/
theorem admitted_check (l : Limited Ip) (ip : Ip) (now created : Nat) :
    ((RateOp.run l (.checkAndIncrement ip now created)).admitted.map Prod.fst).reverse
      = (l.admitted.map Prod.fst).reverse ++
        (if (l.limiter.checkAndIncrement ip now created).2 then [ip] else []) := by
  show (List.map Prod.fst (if (l.limiter.checkAndIncrement ip now created).2 = true then (ip, _) :: l.admitted
    else l.admitted)).reverse = _
  by_cases hallowed : (l.limiter.checkAndIncrement ip now created).2 = true
  · rw [if_pos hallowed, if_pos hallowed, List.map_cons, List.reverse_cons]
  · rw [if_neg hallowed, if_neg hallowed, List.append_nil]

omit [DecidableEq Ip] in
/-- A message accepted is one more at the end. -/
theorem accepted_snoc (s : Engine Ip) (msg : IncomingMessage Ip) :
    (Engine.accepted { s with since := s.since ++ [msg] }) = s.accepted ++ [msg] := by
  unfold Engine.accepted
  rw [List.append_assoc]

/-- **A datagram keeps it**, in each of its three cases. -/
theorem EngineInv.receive (h : EngineInv maxMessageSize maxMessagesPerSecond s) (source : Ip × UInt16)
    (payload : List UInt8) {now created : Nat} (hnow : s.engine.rateLimiter.clock ≤ now) (hcreated : now ≤ created) :
    EngineInv maxMessageSize maxMessagesPerSecond (EngineOp.receive s source payload now created) := by
  have hconserved := h.conserved
  have hlimiter := reachable_run (.checkAndIncrement source.1 now created) ⟨hnow, hcreated⟩ h.limiter
  have hadmitted := admitted_check s.engine.rateLimiter source.1 now created
  unfold EngineOp.receive
  simp only
  split
  · exact ⟨h.size, h.capacity, by simp only; omega, h.received, h.bytes, h.small, h.buffer, h.polls, h.admitted,
      h.limiter⟩
  · next hsmall =>
      split
      · next hallowed =>
          rw [if_pos hallowed] at hadmitted
          have hbuffer : (s.engine.incoming.push ⟨source, payload⟩).messages
              = newest 1000 (s.since ++ [⟨source, payload⟩]) := by
            rw [newest_concat (by decide), ← h.buffer, MessageBuffer.push, h.capacity]
          refine ⟨h.size, h.capacity, by simp only; omega, ?_, ?_, fun msg hmsg => ?_, hbuffer, h.polls, ?_, hlimiter⟩
          · show s.engine.stats.messagesReceived + 1 = (Engine.accepted { s with since := _ }).length
            rw [accepted_snoc, List.length_append, List.length_singleton, h.received]
          · show s.engine.stats.bytesReceived + payload.length = ((Engine.accepted { s with since := _ }).map _).sum
            rw [accepted_snoc, List.map_append, List.sum_append, h.bytes]
            rfl
          · have hmsg : msg ∈ Engine.accepted { s with since := s.since ++ [⟨source, payload⟩] } := hmsg
            rw [accepted_snoc] at hmsg
            rcases List.mem_append.mp hmsg with hold | hnew
            · exact h.small msg hold
            · rw [List.mem_singleton.mp hnew, ← h.size]
              exact Nat.not_lt.mp hsmall
          · show _ = (Engine.accepted { s with since := s.since ++ [⟨source, payload⟩] }).map _
            rw [accepted_snoc, List.map_append, ← h.admitted]
            exact hadmitted
      · next hrefused =>
          rw [if_neg hrefused, List.append_nil] at hadmitted
          exact ⟨h.size, h.capacity, by simp only; omega, h.received, h.bytes, h.small, h.buffer, h.polls,
            hadmitted.trans h.admitted, hlimiter⟩

/-- A poll returns the buffer and starts a new stretch. -/
theorem EngineInv.poll (h : EngineInv maxMessageSize maxMessagesPerSecond s) :
    EngineInv maxMessageSize maxMessagesPerSecond (EngineOp.run s .pollIncoming) := by
  have haccepted : (EngineOp.run s .pollIncoming).accepted = s.accepted := by
    show ((⟨s.since, _⟩ :: s.polls).reverse.map Poll.accepted).flatten ++ [] = s.accepted
    unfold Engine.accepted
    simp
  refine ⟨h.size, h.capacity, h.conserved, haccepted ▸ h.received, haccepted ▸ h.bytes, haccepted ▸ h.small, ?_, ?_,
    haccepted ▸ h.admitted, h.limiter⟩
  · exact (newest_nil 1000).symm
  · intro poll hpoll
    rcases List.mem_cons.mp hpoll with rfl | hpoll
    · exact h.buffer
    · exact h.polls poll hpoll

/-- **The step lemma.** -/
theorem EngineInv.run (h : EngineInv maxMessageSize maxMessagesPerSecond s) {op : EngineOp Ip} (hok : op.Forward s) :
    EngineInv maxMessageSize maxMessagesPerSecond (op.run s) := by
  cases op with
  | datagram source payload now created => exact h.receive source payload hok.1 hok.2
  | recvError =>
      exact ⟨h.size, h.capacity, h.conserved, h.received, h.bytes, h.small, h.buffer, h.polls, h.admitted, h.limiter⟩
  | pollIncoming => exact h.poll
  | banIp ip created now => exact h.limit (.ban ip created now) hok rfl
  | isBanned ip now => exact h.limit (.isBanned ip now) hok rfl
  | cleanupRateLimits now => exact h.limit (.cleanupExpired now) hok rfl

/-- **In every run of the receiver** the statistics account for each datagram, nothing oversized is accepted, each poll
returned the newest thousand of what was accepted since the poll before, in order, and within `k` seconds no address gets
more than `k + 1` times the limit accepted. -/
theorem engine_sound (h : (startWithConfig Ip maxMessageSize maxMessagesPerSecond).Reachable EngineOp.Forward s) :
    EngineInv maxMessageSize maxMessagesPerSecond s ∧ ∀ (ip : Ip) (start k : Nat),
      ((of ip s.engine.rateLimiter.admitted).filter fun a => start ≤ a.now ∧ a.created < start + k * second).length
        ≤ (k + 1) * maxMessagesPerSecond := by
  have hinv : EngineInv maxMessageSize maxMessagesPerSecond s := by
    refine h.invariant (fun _ hs => .init hs) fun s op s' hinv hok hstep => ?_
    obtain rfl := Option.some.inj hstep
    exact hinv.run hok
  exact ⟨hinv, fun ip start k => admitted_le (by decide) hinv.limiter ip start k⟩

end Runs

/-- The engine as it is started. -/
def started : Engine Nat where
  engine := ⟨.new 1000, ⟨0, 0, 0, 0, 0⟩, ⟨.new 1 banDurationSecs, 0, [], []⟩, 2⟩
  arrived := 0
  polls := []
  since := []

/-- A message that is taken, one too many, one too large, and a poll. -/
def fourEvents : Engine Nat :=
  [EngineOp.datagram (7, 1) [1, 2] 10 11, .datagram (7, 1) [3] 20 20, .datagram (8, 1) [1, 2, 3] 30 30,
    .pollIncoming].foldl EngineOp.run started

/-- What the four events leave. -/
theorem engine_sound_four : EngineInv 2 1 fourEvents ∧ ∀ ip start k : Nat,
    ((of ip fourEvents.engine.rateLimiter.admitted).filter
      fun a => start ≤ a.now ∧ a.created < start + k * second).length ≤ (k + 1) * 1 := by
  refine engine_sound ⟨_, .step (a := EngineOp.pollIncoming) (.step (a := .datagram (8, 1) [1, 2, 3] 30 30)
    (.step (a := .datagram (7, 1) [3] 20 20) (.step (a := .datagram (7, 1) [1, 2] 10 11) (.init ?_) ?_ rfl) ?_ rfl)
    ?_ rfl) trivial rfl⟩
  · exact ⟨rfl, rfl, ⟨rfl, rfl, rfl⟩, rfl, rfl, rfl, rfl⟩
  · exact ⟨by decide, by decide⟩
  · exact ⟨by decide, by decide⟩
  · exact ⟨by decide, by decide⟩

end WarmLogic.Net.Limiter
