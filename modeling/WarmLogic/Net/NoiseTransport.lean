/-
# WarmLogic.Net.NoiseTransport — what the transport of a Noise session promises against replayed and forged packets.

`decrypt` keeps one number, the least counter it still accepts, and moves it behind every packet that is long enough
and not below it. It does so before the cipher is asked, so a packet made by anyone moves it.

* A packet with the last counter there is moves it to zero, and every packet ever accepted is accepted again
  (`no_replay` is the rule without such packets).
* Any other forged packet can move it past the packets that are still to come, which are refused then.
  `forged_packets_iff` says which forged packets are harmless, for one call and for a whole stream.
-/
import WarmLogic.Lib.Counter
import WarmLogic.Lib.Run
import WarmLogic.Net.Noise
import Mathlib.Data.List.DropRight

namespace WarmLogic.Net.Noise

open WarmLogic.Lib

/-! ## Replayed packets -/

/-- A sender and a receiver, the packets the sender made and the packets the receiver accepted. -/
structure Link where
  sender : NoiseSession
  receiver : NoiseSession
  produced : List (List UInt8)
  accepted : List (List UInt8)

/-- The sender encrypts a message, or any bytes reach the receiver. -/
inductive LinkOp where
  | encrypt (plaintext : List UInt8)
  | decrypt (packet : List UInt8)

/-- Two sessions after the handshake. -/
def transport (aead : Aead) : System Link LinkOp where
  init s :=
    (s.sender.state = .complete ∧ s.receiver.state = .complete ∧ ∃ key, s.sender.sendKey = some key ∧
      s.receiver.recvKey = some key) ∧ s.produced = [] ∧ s.accepted = []
  step op s :=
    match op with
    | .encrypt plaintext =>
        let r := s.sender.encrypt aead plaintext
        some { s with sender := r.1, produced := r.2.toOption.toList ++ s.produced }
    | .decrypt packet =>
        let r := s.receiver.decrypt aead packet
        some { s with receiver := r.1, accepted := (r.2.toOption.map fun _ => packet).toList ++ s.accepted }

/-- No packet of the sender is accepted twice. -/
def NoReplay (s : Link) : Prop := ∀ packet ∈ s.produced, s.accepted.count packet ≤ 1

/-- The cipher accepts only what the sender made. -/
def Authentic (aead : Aead) (op : LinkOp) (s : Link) : Prop :=
  ∀ packet, op = .decrypt packet → ∀ key ∈ s.receiver.recvKey, opened aead key packet ≠ none → packet ∈ s.produced

/-- **The guard.** No packet carries the last counter there is. -/
def NoLastCounter (op : LinkOp) (_ : Link) : Prop :=
  ∀ packet, op = .decrypt packet → nonceSize + 16 ≤ packet.length → packetCounter packet + 1 ≠ 0

/-- What was accepted is behind the receiver's counter, and nothing was accepted twice. -/
structure ReplayInv (s : Link) : Prop where
  behind : ∀ packet ∈ s.accepted, packetCounter packet < s.receiver.recvNonce
  once : s.accepted.Nodup

theorem ReplayInv.step {aead : Aead} {op : LinkOp} {s s' : Link} (hi : ReplayInv s) (hok : NoLastCounter op s)
    (hstep : (transport aead).step op s = some s') : ReplayInv s' := by
  cases op with
  | encrypt plaintext =>
      cases hstep
      exact ⟨hi.behind, hi.once⟩
  | decrypt packet =>
      cases hstep
      show ReplayInv { s with
        receiver := (s.receiver.decrypt aead packet).1
        accepted := ((s.receiver.decrypt aead packet).2.toOption.map fun _ => packet).toList ++ s.accepted }
      rcases s.receiver.decrypt_cases aead packet with ⟨-, e, heq⟩ | ⟨key, hadm, hcase⟩
      · rw [heq]
        exact hi
      obtain ⟨-, hlen, hle, -⟩ := NoiseSession.admits_eq_some.mp hadm
      have hup := (lt_add_one_iff _).mpr (hok packet rfl hlen)
      -- the counter moves up, so what was behind it stays behind
      have hbehind : ∀ p ∈ s.accepted, packetCounter p < packetCounter packet + 1 := fun p hp =>
        UInt64.lt_trans (UInt64.lt_of_lt_of_le (hi.behind p hp) hle) hup
      rcases hcase with ⟨-, heq⟩ | ⟨plaintext, -, heq⟩
      · rw [heq]
        exact ⟨hbehind, hi.once⟩
      · rw [heq]
        refine ⟨List.forall_mem_cons.mpr ⟨hup, hbehind⟩, List.nodup_cons.mpr ⟨fun hmem => ?_, hi.once⟩⟩
        exact UInt64.not_lt.mpr hle (hi.behind packet hmem)

/-- **No replay.** In every run in which no packet carries the last counter there is, no packet of the sender is
accepted twice, in any state. An accepted packet leaves the receiver's counter above its own, and a packet behind the
counter is refused. -/
theorem no_replay (aead : Aead) (h : List Link) (hr : (transport aead).Run NoLastCounter h) :
    ∀ s ∈ h, NoReplay s := by
  intro s hs packet _
  obtain ⟨past, -, hrun⟩ := hr.exists_suffix hs
  refine List.nodup_iff_count_le_one.mp (System.Reachable.invariant (P := ReplayInv) ?_ ?_ ⟨past, hrun⟩).once packet
  · rintro s ⟨-, -, hnil⟩
    refine ⟨fun p hp => ?_, ?_⟩
    · rw [hnil] at hp
      exact absurd hp List.not_mem_nil
    · rw [hnil]
      exact List.nodup_nil
  · intro s op s' hi hok hstep
    exact hi.step hok hstep

/-! ### A packet with the last counter -/

instance (aead : Aead) : (op : LinkOp) → (s : Link) → Decidable (Authentic aead op s)
  | .encrypt _, _ => isTrue fun _ heq => nomatch heq
  | .decrypt packet, s =>
      haveI : Decidable (∀ key ∈ s.receiver.recvKey, opened aead key packet ≠ none → packet ∈ s.produced) :=
        Option.decidableForallMem _
      decidable_of_iff (∀ key ∈ s.receiver.recvKey, opened aead key packet ≠ none → packet ∈ s.produced)
        ⟨fun h _ heq => LinkOp.decrypt.inj heq ▸ h, fun h => h packet rfl⟩

instance : (op : LinkOp) → (s : Link) → Decidable (NoLastCounter op s)
  | .encrypt _, _ => isTrue fun _ heq => nomatch heq
  | .decrypt packet, _ =>
      decidable_of_iff (nonceSize + 16 ≤ packet.length → packetCounter packet + 1 ≠ 0)
        ⟨fun h _ heq => LinkOp.decrypt.inj heq ▸ h, fun h => h packet rfl⟩

/-- The tag of the script's cipher: the nonce and the first bytes of the key. -/
def scriptTag (key : Key) (nonce : List UInt8) : List UInt8 :=
  (nonce ++ key.toList).take 16

theorem length_scriptTag (key : Key) (nonce : List UInt8) : (scriptTag key nonce).length = 16 := by
  simp [scriptTag]

/-- A cipher to compute with: the plaintext and its tag. -/
def scriptAead : Aead where
  encrypt key nonce plaintext := plaintext ++ scriptTag key nonce
  decrypt key nonce ciphertext :=
    if ciphertext.drop (ciphertext.length - 16) = scriptTag key nonce then
      some (ciphertext.take (ciphertext.length - 16))
    else none
  decrypt_encrypt key nonce plaintext := by
    simp [length_scriptTag]
  length_encrypt key nonce plaintext := by
    rw [List.length_append, length_scriptTag]

def scriptKey : Key := Vector.replicate 32 7

/-- A session after the handshake, with the same key in both directions. -/
def scriptSession : NoiseSession :=
  { role := .initiator, state := .complete, ephemeral := none, peerEk := none, sharedSecrets := [],
    sendKey := some scriptKey, recvKey := some scriptKey, sendNonce := 0, recvNonce := 0 }

/-- A packet of nobody: a counter and sixteen zero bytes. -/
def forgedPacket (counter : UInt64) : List UInt8 := nonceOf counter ++ List.replicate 16 0

theorem scriptLink_init : (transport scriptAead).init ⟨scriptSession, scriptSession, [], []⟩ :=
  ⟨⟨rfl, rfl, scriptKey, rfl, rfl⟩, rfl, rfl⟩

/-- The packet the sender made last reaches the receiver. -/
def deliverLast (s : Link) : LinkOp := .decrypt (s.produced.headD [])

/-- A message is delivered, delivered again and followed by a forged packet: it is accepted once. -/
theorem no_replay_one_message : ∃ s past, (transport scriptAead).Run NoLastCounter (s :: past) ∧
    s.accepted.length = 1 ∧ ∀ t ∈ s :: past, NoReplay t := by
  obtain ⟨s, past, hr, hlen⟩ := System.exists_run_of_play (M := transport scriptAead) NoLastCounter
    (P := fun s _ => s.accepted.length = 1) scriptLink_init
    [fun _ => .encrypt [1], deliverLast, deliverLast, fun _ => .decrypt (forgedPacket 5), deliverLast]
    (by decide +kernel)
  exact ⟨s, past, hr, hlen, no_replay scriptAead (s :: past) hr⟩

/-- A message is delivered, then a forged packet with the last counter, then the message again: it is accepted twice. -/
theorem replay_after_last_counter : ¬ ∀ (aead : Aead) (h : List Link),
    (transport aead).Run (Authentic aead) h → ∀ s ∈ h, NoReplay s := by
  intro hall
  obtain ⟨s, past, hr, packet, hmem, htwice⟩ := System.exists_run_of_play (M := transport scriptAead)
    (Authentic scriptAead) (P := fun s _ => ∃ packet ∈ s.produced, s.accepted.count packet = 2) scriptLink_init
    [fun _ => .encrypt [1], deliverLast, fun _ => .decrypt (forgedPacket 0xFFFFFFFFFFFFFFFF), deliverLast] (by decide +kernel)
  have honce := hall scriptAead _ hr s List.mem_cons_self packet hmem
  rw [htwice] at honce
  exact absurd honce (by decide)

/-! ## Forged packets -/

/-- The least counter accepted after packets with these counters. -/
def movedBy (r : UInt64) (counters : List UInt64) : UInt64 :=
  counters.foldl (fun r c => if c < r then r else c + 1) r

/-- The counters of the packets that are long enough to be looked at. -/
def countersOf (packets : List (List UInt8)) : List UInt64 :=
  (packets.filter fun p => nonceSize + 16 ≤ p.length).map packetCounter

/-- **Harmless packets.** All those after the last one with the last counter there is have a counter below `n`. -/
def Harmless (n : UInt64) (packets : List (List UInt8)) : Prop :=
  ∀ c ∈ (countersOf packets).rtakeWhile (fun c => c + 1 ≠ 0), c < n

-- over the counters in the list; a search over all counters would never end
instance (n : UInt64) (packets : List (List UInt8)) : Decidable (Harmless n packets) :=
  List.decidableBAll (fun c => c < n) _

/-- Whatever the counters, what comes next is still accepted exactly if those after the last wrap are below it. -/
theorem movedBy_le_iff {r n : UInt64} (hr : r ≤ n) (counters : List UInt64) :
    movedBy r counters ≤ n ↔ ∀ c ∈ counters.rtakeWhile (fun c => c + 1 ≠ 0), c < n := by
  induction counters using List.reverseRecOn with
  | nil => exact iff_of_true hr fun c hc => absurd hc List.not_mem_nil
  | append_singleton counters c ih =>
      have hmove : movedBy r (counters ++ [c]) = if c < movedBy r counters then movedBy r counters else c + 1 := by
        rw [movedBy, List.foldl_append]
        rfl
      rw [hmove]
      by_cases hwrap : c + 1 = 0
      · -- the last counter moves the receiver to zero
        have hlast : ¬ c < movedBy r counters := UInt64.not_lt.mpr (le_of_add_one_eq_zero hwrap _)
        rw [if_neg hlast, List.rtakeWhile_concat_neg _ _ _ (by simpa using hwrap), hwrap]
        exact iff_of_true UInt64.zero_le fun c hc => absurd hc List.not_mem_nil
      · rw [List.rtakeWhile_concat_pos _ _ _ (by simpa using hwrap), List.forall_mem_append,
          List.forall_mem_singleton, ← ih]
        split
        · rename_i hlt
          exact ⟨fun hle => ⟨hle, UInt64.lt_of_lt_of_le hlt hle⟩, fun h => h.1⟩
        · rename_i hge
          rw [add_one_le_iff hwrap]
          exact ⟨fun hlt => ⟨UInt64.le_of_lt (UInt64.lt_of_le_of_lt (UInt64.not_lt.mp hge) hlt), hlt⟩, fun h => h.2⟩

/-- The receiver after a number of packets. -/
def receiveAll (aead : Aead) (b : NoiseSession) (packets : List (List UInt8)) : NoiseSession :=
  packets.foldl (fun b packet => (b.decrypt aead packet).1) b

/-- Packets move the counter by their own counters, whatever the cipher says of them, and change nothing else. -/
theorem receiveAll_eq {aead : Aead} {b : NoiseSession} {key : Key} (hdone : b.state = .complete)
    (hkey : b.recvKey = some key) (packets : List (List UInt8)) :
    receiveAll aead b packets = { b with recvNonce := movedBy b.recvNonce (countersOf packets) } := by
  induction packets generalizing b with
  | nil => rfl
  | cons packet packets ih =>
      show receiveAll aead (b.decrypt aead packet).1 packets = _
      have hmoved : ∀ (hlen : nonceSize + 16 ≤ packet.length), movedBy b.recvNonce (countersOf (packet :: packets)) =
          movedBy (if packetCounter packet < b.recvNonce then b.recvNonce else packetCounter packet + 1)
            (countersOf packets) := by
        intro hlen
        unfold countersOf
        rw [List.filter_cons_of_pos (by simpa using hlen), List.map_cons, movedBy, List.foldl_cons]
        rfl
      rcases b.decrypt_cases aead packet with ⟨hnone, e, heq⟩ | ⟨k, hadm, hcase⟩
      · -- too short, or behind the counter
        rw [heq, ih hdone hkey]
        by_cases hlen : nonceSize + 16 ≤ packet.length
        · have hlt : packetCounter packet < b.recvNonce := by
            rw [← UInt64.not_le]
            intro hle
            rw [NoiseSession.admits_eq_some.mpr ⟨hdone, hlen, hle, hkey⟩] at hnone
            cases hnone
          rw [hmoved hlen, if_pos hlt]
        · unfold countersOf
          rw [List.filter_cons_of_neg (by simpa using hlen)]
      · obtain ⟨-, hlen, hle, -⟩ := NoiseSession.admits_eq_some.mp hadm
        have hstate : (b.decrypt aead packet).1 = { b with recvNonce := packetCounter packet + 1 } := by
          rcases hcase with ⟨-, heq⟩ | ⟨plaintext, -, heq⟩
          · rw [heq]
          · rw [heq]
        rw [hstate, hmoved hlen, if_neg (UInt64.not_lt.mpr hle)]
        exact ih (b := { b with recvNonce := packetCounter packet + 1 }) hdone hkey

/-- A stream: before each message of the sender, the packets of others that come in first. -/
abbrev Stream := List (List (List UInt8) × List UInt8)

/-- What the receiver returns for the messages of the sender, delivered in order among the packets of others. -/
def deliverStream (aead : Aead) : NoiseSession → NoiseSession → Stream → List (Except NoiseError (List UInt8))
  | _, _, [] => []
  | a, b, (forged, plaintext) :: rest =>
      let b := receiveAll aead b forged
      match a.encrypt aead plaintext with
      | (a, .error e) => .error e :: deliverStream aead a b rest
      | (a, .ok packet) => (b.decrypt aead packet).2 :: deliverStream aead a (b.decrypt aead packet).1 rest

/-- Two sessions after the handshake, with their counters in step. -/
structure Paired (key : Key) (a b : NoiseSession) : Prop where
  sender : a.state = .complete
  receiver : b.state = .complete
  sendKey : a.sendKey = some key
  recvKey : b.recvKey = some key
  inStep : b.recvNonce = a.sendNonce

/-- A stream of messages `encrypt` takes, among packets the cipher does not accept. -/
def ForgedAmong (aead : Aead) (key : Key) (stream : Stream) : Prop :=
  ∀ x ∈ stream, x.2.length ≤ maxEncryptedMsgSize - 16 - nonceSize ∧ ∀ p ∈ x.1, opened aead key p = none

/-- The packets before each message are harmless to it. -/
def HarmlessStream : UInt64 → Stream → Prop
  | _, [] => True
  | n, (forged, _) :: rest => Harmless n forged ∧ HarmlessStream (n + 1) rest

/-- The packet of a message is accepted, with its plaintext, exactly if the counter has not passed it. -/
theorem decrypt_packetOf (aead : Aead) {b : NoiseSession} {key : Key} (hdone : b.state = .complete)
    (hkey : b.recvKey = some key) (n : UInt64) (plaintext : List UInt8) :
    (b.recvNonce ≤ n ∧ b.decrypt aead (NoiseSession.packetOf aead key n plaintext) =
        ({ b with recvNonce := n + 1 }, .ok plaintext)) ∨
      (¬ b.recvNonce ≤ n ∧ ∃ e, (b.decrypt aead (NoiseSession.packetOf aead key n plaintext)).2 = .error e) := by
  by_cases hle : b.recvNonce ≤ n
  · left
    refine ⟨hle, ?_⟩
    have hadm : b.admits (NoiseSession.packetOf aead key n plaintext) = some key := by
      refine NoiseSession.admits_eq_some.mpr ⟨hdone, NoiseSession.length_packetOf key n plaintext, ?_, hkey⟩
      rw [NoiseSession.packetCounter_packetOf]
      exact hle
    rcases b.decrypt_cases aead (NoiseSession.packetOf aead key n plaintext) with ⟨hnone, -⟩ | ⟨k, hk, hcase⟩
    · rw [hadm] at hnone
      cases hnone
    cases hadm.symm.trans hk
    rcases hcase with ⟨hno, -⟩ | ⟨m, hm, heq⟩
    · rw [NoiseSession.opened_packetOf] at hno
      cases hno
    · rw [NoiseSession.opened_packetOf] at hm
      cases hm
      rw [heq, NoiseSession.packetCounter_packetOf]
  · right
    refine ⟨hle, ?_⟩
    rcases b.decrypt_cases aead (NoiseSession.packetOf aead key n plaintext) with ⟨-, e, heq⟩ | ⟨k, hk, -⟩
    · rw [heq]
      exact ⟨e, rfl⟩
    · have := (NoiseSession.admits_eq_some.mp hk).2.2.1
      rw [NoiseSession.packetCounter_packetOf] at this
      exact absurd this hle

theorem deliverStream_iff {aead : Aead} {key : Key} {a b : NoiseSession} {stream : Stream} (hp : Paired key a b)
    (hs : ForgedAmong aead key stream) :
    deliverStream aead a b stream = stream.map (fun x => .ok x.2) ↔ HarmlessStream a.sendNonce stream := by
  induction stream generalizing a b with
  | nil => exact iff_of_true rfl trivial
  | cons x rest ih =>
      obtain ⟨forged, plaintext⟩ := x
      obtain ⟨⟨hlen, -⟩, hrest⟩ := List.forall_mem_cons.mp hs
      have hmoved : movedBy b.recvNonce (countersOf forged) ≤ a.sendNonce ↔ Harmless a.sendNonce forged := by
        rw [hp.inStep]
        exact movedBy_le_iff (UInt64.le_refl _) _
      rw [deliverStream, receiveAll_eq hp.receiver hp.recvKey, NoiseSession.encrypt_ok hp.sender hp.sendKey hlen]
      rw [List.map_cons, List.cons_eq_cons]
      rcases decrypt_packetOf aead
        (b := { b with recvNonce := movedBy b.recvNonce (countersOf forged) }) hp.receiver hp.recvKey
        a.sendNonce plaintext with ⟨hle, heq⟩ | ⟨hgt, e, heq⟩
      · rw [heq]
        have hp' : Paired key { a with sendNonce := a.sendNonce + 1 } { b with recvNonce := a.sendNonce + 1 } :=
          ⟨hp.sender, hp.receiver, hp.sendKey, hp.recvKey, rfl⟩
        show _ ∧ _ ↔ Harmless a.sendNonce forged ∧ HarmlessStream (a.sendNonce + 1) rest
        rw [ih hp' hrest, ← hmoved]
        exact ⟨fun h => ⟨hle, h.2⟩, fun h => ⟨rfl, h.2⟩⟩
      · rw [heq]
        refine iff_of_false (fun h => by cases h.1) fun h => ?_
        exact hgt (hmoved.mpr h.1)

/-- **The condition for one call.** The packet is refused before the counter moves, or the cipher accepts it, or it is
the packet with the last counter at the first counter. -/
def LeavesSession (aead : Aead) (s : NoiseSession) (packet : List UInt8) : Prop :=
  ∀ key ∈ s.admits packet, opened aead key packet ≠ none ∨ packetCounter packet + 1 = s.recvNonce

theorem decrypt_error_iff (aead : Aead) (s : NoiseSession) (packet : List UInt8) :
    ((∃ e, (s.decrypt aead packet).2 = .error e) → (s.decrypt aead packet).1 = s) ↔ LeavesSession aead s packet := by
  unfold LeavesSession
  rcases s.decrypt_cases aead packet with ⟨hnone, e, heq⟩ | ⟨key, hkey, ⟨hno, heq⟩ | ⟨plaintext, hm, heq⟩⟩
  · rw [heq, hnone]
    exact iff_of_true (fun _ => rfl) fun key hkey => nomatch hkey
  · -- the only way out that moves the counter and fails
    rw [heq, hkey]
    constructor
    · rintro hsame k ⟨⟩
      exact .inr (congrArg NoiseSession.recvNonce (hsame ⟨_, rfl⟩))
    · intro h _
      rcases h key rfl with hopen | hmove
      · exact absurd hno hopen
      · show { s with recvNonce := packetCounter packet + 1 } = s
        rw [hmove]
  · rw [heq, hkey]
    refine iff_of_true (fun h => ?_) ?_
    · obtain ⟨e, he⟩ := h
      cases he
    · rintro k ⟨⟩
      left
      rw [hm]
      exact Option.some_ne_none plaintext

/-- **Forged packets.** A call that fails leaves the session as it was exactly under the condition for one call; and the
messages of the sender, delivered in order among forged packets, all come out exactly if the packets before each one
are harmless to it. -/
theorem forged_packets_iff (aead : Aead) :
    (∀ s packet, ((∃ e, (s.decrypt aead packet).2 = .error e) → (s.decrypt aead packet).1 = s) ↔
      LeavesSession aead s packet) ∧
    ∀ key a b stream, Paired key a b → ForgedAmong aead key stream →
      (deliverStream aead a b stream = stream.map (fun x => .ok x.2) ↔ HarmlessStream a.sendNonce stream) :=
  ⟨fun s packet => decrypt_error_iff aead s packet, fun _ _ _ _ hp hs => deliverStream_iff hp hs⟩

/-! ### A forged packet ahead of the sender -/

theorem scriptSession_paired : Paired scriptKey scriptSession scriptSession := ⟨rfl, rfl, rfl, rfl, rfl⟩

/-- A forged packet with a counter that was used before the second message: both messages come out. -/
theorem forged_packets_iff_stale : LeavesSession scriptAead { scriptSession with recvNonce := 1 } (forgedPacket 0) ∧
    deliverStream scriptAead scriptSession scriptSession [([], [1]), ([forgedPacket 0], [2])] = [.ok [1], .ok [2]] := by
  obtain ⟨hcall, hstream⟩ := forged_packets_iff scriptAead
  refine ⟨(hcall _ _).mp fun _ => by decide +kernel, ?_⟩
  refine (hstream scriptKey scriptSession scriptSession _ scriptSession_paired ?_).mpr ?_
  · unfold ForgedAmong
    decide +kernel
  · exact ⟨by decide +kernel, by decide +kernel, trivial⟩

/-- One forged packet with counter 5 fails and moves the counter, and the first message of the sender is refused as a
replay. -/
theorem forged_packet_blocks_message :
    (scriptSession.decrypt scriptAead (forgedPacket 5)).2 = .error (.decryptionFailed "Authentication failed") ∧
    (scriptSession.decrypt scriptAead (forgedPacket 5)).1 ≠ scriptSession ∧
    Paired scriptKey scriptSession scriptSession ∧ ForgedAmong scriptAead scriptKey [([forgedPacket 5], [1])] ∧
    deliverStream scriptAead scriptSession scriptSession [([forgedPacket 5], [1])] =
      [.error (.decryptionFailed "Replay detected: nonce too low")] := by
  refine ⟨by decide +kernel, by decide +kernel, scriptSession_paired, ?_, by decide +kernel⟩
  unfold ForgedAmong
  decide +kernel

end WarmLogic.Net.Noise
