/-
# WarmLogic.Net.HandshakeRuns — an initiator and a responder under any calls and any messages.

The network is free: every call may be made on either session, with any message. A party keeps what it sent and what it
processed without an error; the messages of the honest peer are those the peer sent.

A call that fails should leave the session as it was. `respond` and `process_response` store before they can still
fail, so a failed call changes the session exactly if it `spoils` it. The secrets of a handshake are mixed in order:
the transport keys of two honest parties agree unless a failed call left a secret behind (`mixes`).

How far a party is, together with the secrets in its session, is `InitiatorAt` and `ResponderAt`. In the last stage it
also says of which ciphertexts the two secrets were made. For two honest parties the ciphertext that one opened is the
one that the other made, so the secrets are the same and in the same order, and the transport keys with them
(`Clean.keysAgree`).
-/
import WarmLogic.Net.NoiseHandshake
import WarmLogic.Lib.Run

namespace WarmLogic.Net.Noise

open WarmLogic.Lib
open WarmLogic.Federation (hexEncode)
open WarmLogic.Crypto

variable {ρ : Type}

/-! ## One failed call -/

namespace NoiseSession

variable {kem : MlKem ρ} {sha3 : List UInt8 → Key} {s : NoiseSession} {ek dk : List UInt8}

/-- The key of a message does not encapsulate. -/
theorem refusesKey_eq (e : List UInt8) (rng : ρ) : refusesKey kem e rng = !(kem.encapsBytes e rng).isOk := by
  rw [refusesKey, MlKem.encapsulateRaw_hexEncode]
  cases kem.encapsBytes e rng <;> rfl

/-- The ciphertext of a message opens. -/
theorem opensCiphertext_eq (h : s.Keyed ek dk) (c : List UInt8) :
    s.opensCiphertext kem c = (kem.decapsBytes dk (hexEncode c)).isOk := by
  unfold Keyed at h
  rw [opensCiphertext, h]
  dsimp only
  rw [MlKem.decapsulateRaw_hexEncode]
  cases kem.decapsBytes dk (hexEncode c) <;> rfl

/-- Storing a peer's key changes nothing exactly if it was there. -/
theorem store_peerEk_eq_iff (peer : String) : { s with peerEk := some peer } = s ↔ s.peerEk = some peer := by
  obtain ⟨role, state, ephemeral, peerEk, secrets, sendKey, recvKey, sendNonce, recvNonce⟩ := s
  simp [eq_comm]

/-- **A failed call leaves the session as it was exactly if it does not spoil it.** -/
theorem unchanged_iff (h : s.Ready ek dk) (c : HandshakeCall ρ) {err : NoiseError}
    (herr : (s.call kem sha3 c).2 = .error err) : (s.call kem sha3 c).1 = s ↔ s.spoils kem c = false := by
  have hh := call_handles kem sha3 h c
  generalize (s.call kem sha3 c).1 = s' at hh ⊢
  generalize (s.call kem sha3 c).2 = r at hh herr
  cases hh with
  | refused hs hm => exact ⟨fun _ => hs, fun _ => rfl⟩
  | respondFails hrole hstate henc =>
      rw [store_peerEk_eq_iff]
      simp [spoils, hrole, hstate, refusesKey_eq, henc, Except.isOk, Except.toBool]
  | decapsFails hrole hstate hdec =>
      rw [store_peerEk_eq_iff]
      simp [spoils, hrole, hstate, opensCiphertext_eq h.keyed, hdec, Except.isOk, Except.toBool]
  | encapsFails hrole hstate hdec henc =>
      -- a secret was pushed: the list of secrets is longer by one
      constructor
      · intro heq
        have hlen := congrArg (fun s => s.sharedSecrets.length) heq
        simp at hlen
      · intro hs
        simp [spoils, hrole, hstate, opensCiphertext_eq h.keyed, refusesKey_eq, hdec, henc, Except.isOk,
          Except.toBool] at hs
  | initiate hrole hstate => cases herr
  | respond hrole hstate henc => cases herr
  | processResponse hrole hstate hdec henc => cases herr
  | processFinal hrole hstate hdec => cases herr

/-- Deriving keys leaves the keypair. -/
theorem keysDerived_ephemeral (secrets : List Key) : (keysDerived sha3 s secrets).ephemeral = s.ephemeral := by
  unfold keysDerived
  cases s.role <;> rfl

/-- A call keeps the keypair, and a session that has answered an `Init` holds a secret. -/
theorem Ready.call (h : s.Ready ek dk) (c : HandshakeCall ρ) : (s.call kem sha3 c).1.Ready ek dk := by
  have hh := call_handles kem sha3 h c
  generalize (s.call kem sha3 c).1 = s' at hh ⊢
  generalize (s.call kem sha3 c).2 = r at hh
  cases hh with
  | refused hs hm => exact h
  | initiate hrole hstate => exact ⟨h.keyed, fun hst => by cases hst⟩
  | respondFails hrole hstate henc => exact ⟨h.keyed, h.secret⟩
  | respond hrole hstate henc => exact ⟨h.keyed, fun _ => by simp⟩
  | decapsFails hrole hstate hdec => exact ⟨h.keyed, h.secret⟩
  | encapsFails hrole hstate hdec henc => exact ⟨h.keyed, fun _ => by simp⟩
  | processResponse hrole hstate hdec henc =>
      exact ⟨(keysDerived_ephemeral _).trans h.keyed, fun hst => by cases hst⟩
  | processFinal hrole hstate hdec => exact ⟨(keysDerived_ephemeral _).trans h.keyed, fun hst => by cases hst⟩

/-- And the role. -/
theorem keysDerived_role (secrets : List Key) : (keysDerived sha3 s secrets).role = s.role := by
  unfold keysDerived
  cases s.role <;> rfl

/-- A call keeps the role. -/
theorem Ready.role_call (h : s.Ready ek dk) (c : HandshakeCall ρ) : (s.call kem sha3 c).1.role = s.role := by
  have hh := call_handles kem sha3 h c
  generalize (s.call kem sha3 c).1 = s' at hh ⊢
  generalize (s.call kem sha3 c).2 = r at hh
  cases hh with
  | processResponse hrole hstate hdec henc => exact keysDerived_role _
  | processFinal hrole hstate hdec => exact keysDerived_role _
  | _ => rfl

/-- A new session is ready. -/
theorem ready_of_new {role : NoiseRole} {rng : ρ} (h : newSession kem role rng = .ok s) :
    ∃ ek dk, kem.keygen rng = .ok (ek, dk) ∧ s = ofKeypair role (hexEncode ek.toList) (hexEncode dk.toList) ∧
      s.Ready ek.toList dk.toList := by
  unfold newSession MlKem.keygenRaw at h
  cases hkey : kem.keygen rng with
  | error e =>
      rw [hkey] at h
      cases h
  | ok p =>
      rw [hkey] at h
      obtain rfl := Except.ok.inj h
      exact ⟨p.1, p.2, rfl, rfl, rfl, fun hst => by cases hst⟩

end NoiseSession

/-! ## Two parties -/

/-- A session, the messages it sent and the messages it processed without an error, the newest first. -/
structure Party where
  session : NoiseSession
  sent : List HandshakeMessage
  handled : List HandshakeMessage
  deriving DecidableEq

/-- The party after a call. -/
def Party.step (kem : MlKem ρ) (sha3 : List UInt8 → Key) (c : HandshakeCall ρ) (p : Party) : Party :=
  match p.session.call kem sha3 c with
  | (s, .error _) => { p with session := s }
  | (s, .ok msg) => { session := s, sent := msg.toList ++ p.sent, handled := c.given.toList ++ p.handled }

/-- The two parties. -/
structure Handshake where
  initiator : Party
  responder : Party
  deriving DecidableEq

namespace Handshake

/-- One of them. -/
def party (t : Handshake) : NoiseRole → Party
  | .initiator => t.initiator
  | .responder => t.responder

/-- The handshake after a call on one of them. -/
def step (kem : MlKem ρ) (sha3 : List UInt8 → Key) (op : NoiseRole × HandshakeCall ρ) (t : Handshake) : Handshake :=
  match op.1 with
  | .initiator => { t with initiator := t.initiator.step kem sha3 op.2 }
  | .responder => { t with responder := t.responder.step kem sha3 op.2 }

/-- Both parties are through, and each processed only messages that the other sent. -/
def HonestlyComplete (t : Handshake) : Prop :=
  t.initiator.session.state = .complete ∧ t.responder.session.state = .complete ∧
    (∀ msg ∈ t.initiator.handled, msg ∈ t.responder.sent) ∧ ∀ msg ∈ t.responder.handled, msg ∈ t.initiator.sent

instance (t : Handshake) : Decidable t.HonestlyComplete := by
  unfold HonestlyComplete
  infer_instance

/-- What one side sends under, the other receives under. -/
def KeysAgree (t : Handshake) : Prop :=
  t.initiator.session.sendKey = t.responder.session.recvKey ∧
    t.initiator.session.recvKey = t.responder.session.sendKey

instance (t : Handshake) : Decidable t.KeysAgree := by
  unfold KeysAgree
  infer_instance

end Handshake

/-- A new initiator and a new responder under any calls. -/
def handshakeSystem (kem : MlKem ρ) (sha3 : List UInt8 → Key) : System Handshake (NoiseRole × HandshakeCall ρ) where
  init t := ∃ rng rng', NoiseSession.newInitiator kem rng = .ok t.initiator.session ∧
    NoiseSession.newResponder kem rng' = .ok t.responder.session ∧
    t.initiator.sent = [] ∧ t.initiator.handled = [] ∧ t.responder.sent = [] ∧ t.responder.handled = []
  step op t := some (t.step kem sha3 op)

/-! ## How far a party is -/

section Stages

variable (kem : MlKem ρ) (sha3 : List UInt8 → Key) (ek dk : List UInt8)

/-- An initiator into which nothing was mixed but the two secrets of the handshake. -/
inductive InitiatorAt : Party → Prop
  | initial {p : Party} : p.session.state = .initial → p.session.sharedSecrets = [] → p.sent = [] → p.handled = [] →
      InitiatorAt p
  | waiting {p : Party} : p.session.state = .waitingForResponse → p.session.sharedSecrets = [] →
      p.sent = [.init ek] → p.handled = [] → InitiatorAt p
  | complete {p : Party} {e c : List UInt8} {rng : ρ} {ss1 ss2 : Key} {ct : Vector UInt8 kem.ctLen} :
      p.session.state = .complete → kem.decapsBytes dk (hexEncode c) = .ok ss1 →
      kem.encapsBytes e rng = .ok (ss2, ct) → p.sent = [.final ct.toList, .init ek] → p.handled = [.response e c] →
      p.session.sendKey = some (initiatorToResponderKey sha3 [ss1, ss2]) →
      p.session.recvKey = some (responderToInitiatorKey sha3 [ss1, ss2]) → InitiatorAt p

/-- A responder; its failed calls mix nothing in. -/
inductive ResponderAt : Party → Prop
  | initial {p : Party} : p.session.state = .initial → p.session.sharedSecrets = [] → p.sent = [] → p.handled = [] →
      ResponderAt p
  | received {p : Party} {e : List UInt8} {rng : ρ} {ss1 : Key} {ct : Vector UInt8 kem.ctLen} :
      p.session.state = .receivedInitiation → kem.encapsBytes e rng = .ok (ss1, ct) →
      p.session.sharedSecrets = [ss1] → p.sent = [.response ek ct.toList] → p.handled = [.init e] → ResponderAt p
  | complete {p : Party} {e c : List UInt8} {rng : ρ} {ss1 ss2 : Key} {ct : Vector UInt8 kem.ctLen} :
      p.session.state = .complete → kem.encapsBytes e rng = .ok (ss1, ct) →
      kem.decapsBytes dk (hexEncode c) = .ok ss2 → p.sent = [.response ek ct.toList] →
      p.handled = [.final c, .init e] →
      p.session.sendKey = some (responderToInitiatorKey sha3 [ss1, ss2]) →
      p.session.recvKey = some (initiatorToResponderKey sha3 [ss1, ss2]) → ResponderAt p

end Stages

variable {kem : MlKem ρ} {sha3 : List UInt8 → Key} {ek dk : List UInt8} {p : Party}

/-- A call that fails: only the session may change. -/
theorem Party.step_error {c : HandshakeCall ρ} {s : NoiseSession} {err : NoiseError}
    (h : p.session.call kem sha3 c = (s, .error err)) : p.step kem sha3 c = { p with session := s } := by
  rw [Party.step, h]

/-- A call that succeeds adds what was handled and what was sent. -/
theorem Party.step_ok {c : HandshakeCall ρ} {s : NoiseSession} {msg : Option HandshakeMessage}
    (h : p.session.call kem sha3 c = (s, .ok msg)) :
    p.step kem sha3 c =
      { session := s, sent := msg.toList ++ p.sent, handled := c.given.toList ++ p.handled } := by
  rw [Party.step, h]

/-- A stored peer key is no part of the stage. -/
theorem InitiatorAt.store (h : InitiatorAt kem sha3 ek dk p) (peer : Option String) :
    InitiatorAt kem sha3 ek dk { p with session := { p.session with peerEk := peer } } := by
  cases h with
  | initial hstate hsecrets hsent hhandled => exact .initial hstate hsecrets hsent hhandled
  | waiting hstate hsecrets hsent hhandled => exact .waiting hstate hsecrets hsent hhandled
  | complete hstate hdec henc hsent hhandled hsend hrecv =>
      exact .complete hstate hdec henc hsent hhandled hsend hrecv

/-- Nor for a responder. -/
theorem ResponderAt.store (h : ResponderAt kem sha3 ek dk p) (peer : Option String) :
    ResponderAt kem sha3 ek dk { p with session := { p.session with peerEk := peer } } := by
  cases h with
  | initial hstate hsecrets hsent hhandled => exact .initial hstate hsecrets hsent hhandled
  | received hstate henc hsecrets hsent hhandled => exact .received hstate henc hsecrets hsent hhandled
  | complete hstate henc hdec hsent hhandled hsend hrecv =>
      exact .complete hstate henc hdec hsent hhandled hsend hrecv

/-- **One call on an initiator**, unless it mixes a secret in and then fails. -/
theorem InitiatorAt.step (h : InitiatorAt kem sha3 ek dk p) (hready : p.session.Ready ek dk)
    (hrole : p.session.role = .initiator) {c : HandshakeCall ρ} (hmix : p.session.mixes kem c = false) :
    InitiatorAt kem sha3 ek dk (p.step kem sha3 c) := by
  have hh := NoiseSession.call_handles kem sha3 hready c
  obtain ⟨s', r, hcall⟩ : ∃ s' r, p.session.call kem sha3 c = (s', r) := ⟨_, _, rfl⟩
  rw [hcall] at hh
  dsimp only at hh
  cases hh with
  | refused hs hm =>
      rw [Party.step_error hcall]
      exact h
  | initiate _ hstate =>
      rw [Party.step_ok hcall]
      cases h with
      | initial _ hsecrets hsent hhandled => exact .waiting rfl hsecrets (by rw [hsent]; rfl) (by rw [hhandled]; rfl)
      | waiting hst => exact absurd (hstate.symm.trans hst) (by decide)
      | complete hst => exact absurd (hstate.symm.trans hst) (by decide)
  | respondFails hother => exact absurd (hrole.symm.trans hother) (by decide)
  | respond hother => exact absurd (hrole.symm.trans hother) (by decide)
  | decapsFails _ hstate hdec =>
      rw [Party.step_error hcall]
      exact h.store _
  | encapsFails _ hstate hdec henc =>
      -- the first secret would stay behind: the guard excludes it
      simp [NoiseSession.mixes, hrole, hstate, NoiseSession.opensCiphertext_eq hready.keyed,
        NoiseSession.refusesKey_eq, hdec, henc, Except.isOk, Except.toBool] at hmix
  | processResponse _ hstate hdec henc =>
      rw [Party.step_ok hcall]
      cases h with
      | initial hst => exact absurd (hstate.symm.trans hst) (by decide)
      | waiting _ hsecrets hsent hhandled =>
          refine .complete rfl hdec henc (by rw [hsent]; rfl) (by rw [hhandled]; rfl) ?_ ?_
          · simp only [NoiseSession.keysDerived, hrole, hsecrets, List.nil_append, List.singleton_append]
          · simp only [NoiseSession.keysDerived, hrole, hsecrets, List.nil_append, List.singleton_append]
      | complete hst => exact absurd (hstate.symm.trans hst) (by decide)
  | processFinal hother => exact absurd (hrole.symm.trans hother) (by decide)

/-- **One call on a responder.** -/
theorem ResponderAt.step (h : ResponderAt kem sha3 ek dk p) (hready : p.session.Ready ek dk)
    (hrole : p.session.role = .responder) (c : HandshakeCall ρ) :
    ResponderAt kem sha3 ek dk (p.step kem sha3 c) := by
  have hh := NoiseSession.call_handles kem sha3 hready c
  obtain ⟨s', r, hcall⟩ : ∃ s' r, p.session.call kem sha3 c = (s', r) := ⟨_, _, rfl⟩
  rw [hcall] at hh
  dsimp only at hh
  cases hh with
  | refused hs hm =>
      rw [Party.step_error hcall]
      exact h
  | initiate hother => exact absurd (hrole.symm.trans hother) (by decide)
  | respondFails _ hstate henc =>
      rw [Party.step_error hcall]
      exact h.store _
  | respond _ hstate henc =>
      rw [Party.step_ok hcall]
      cases h with
      | initial _ hsecrets hsent hhandled =>
          exact .received rfl henc (by simp [hsecrets]) (by rw [hsent]; rfl) (by rw [hhandled]; rfl)
      | received hst => exact absurd (hstate.symm.trans hst) (by decide)
      | complete hst => exact absurd (hstate.symm.trans hst) (by decide)
  | decapsFails hother => exact absurd (hrole.symm.trans hother) (by decide)
  | encapsFails hother => exact absurd (hrole.symm.trans hother) (by decide)
  | processResponse hother => exact absurd (hrole.symm.trans hother) (by decide)
  | processFinal _ hstate hdec =>
      rw [Party.step_ok hcall]
      cases h with
      | initial hst => exact absurd (hstate.symm.trans hst) (by decide)
      | received _ henc hsecrets hsent hhandled =>
          refine .complete rfl henc hdec (by rw [hsent]; rfl) (by rw [hhandled]; rfl) ?_ ?_
          · simp only [NoiseSession.keysDerived, hrole, hsecrets, List.singleton_append]
          · simp only [NoiseSession.keysDerived, hrole, hsecrets, List.singleton_append]
      | complete hst => exact absurd (hstate.symm.trans hst) (by decide)

/-! ## Runs -/

/-- A party of a role whose keypair was generated. -/
structure Party.Owns (kem : MlKem ρ) (role : NoiseRole) (p : Party) (ek : Vector UInt8 kem.ekLen)
    (dk : Vector UInt8 kem.dkLen) : Prop where
  generated : ∃ rng, kem.keygen rng = .ok (ek, dk)
  role_eq : p.session.role = role
  ready : p.session.Ready ek.toList dk.toList

/-- The session of a party after a call. -/
theorem Party.session_step (c : HandshakeCall ρ) : (p.step kem sha3 c).session = (p.session.call kem sha3 c).1 := by
  obtain ⟨s, r, hcall⟩ : ∃ s r, p.session.call kem sha3 c = (s, r) := ⟨_, _, rfl⟩
  cases r with
  | error e => rw [Party.step_error hcall, hcall]
  | ok msg => rw [Party.step_ok hcall, hcall]

/-- A party keeps its keypair. -/
theorem Party.Owns.step {role : NoiseRole} {ek : Vector UInt8 kem.ekLen} {dk : Vector UInt8 kem.dkLen}
    (h : p.Owns kem role ek dk) (c : HandshakeCall ρ) : (p.step kem sha3 c).Owns kem role ek dk where
  generated := h.generated
  role_eq := by
    rw [Party.session_step, h.ready.role_call]
    exact h.role_eq
  ready := by
    rw [Party.session_step]
    exact h.ready.call c

/-- A new party owns one. -/
theorem Party.owns_of_new {role : NoiseRole} {rng : ρ} (h : NoiseSession.newSession kem role rng = .ok p.session) :
    ∃ ek dk, p.Owns kem role ek dk ∧ p.session.state = .initial ∧ p.session.sharedSecrets = [] := by
  obtain ⟨ek, dk, hkey, hs, hready⟩ := NoiseSession.ready_of_new h
  exact ⟨ek, dk, ⟨⟨rng, hkey⟩, by rw [hs]; rfl, hready⟩, by rw [hs]; rfl, by rw [hs]; rfl⟩

namespace Handshake

/-- Both parties own generated keypairs. -/
def Owned (kem : MlKem ρ) (t : Handshake) : Prop :=
  ∀ side, ∃ ek dk, (t.party side).Owns kem side ek dk

/-- At the start both own one. -/
theorem owned_of_init {t : Handshake} (h : (handshakeSystem kem sha3).init t) : t.Owned kem := by
  obtain ⟨rng, rng', hi, hr, -⟩ := h
  intro side
  cases side with
  | initiator =>
      obtain ⟨ek, dk, howns, -⟩ := Party.owns_of_new hi
      exact ⟨ek, dk, howns⟩
  | responder =>
      obtain ⟨ek, dk, howns, -⟩ := Party.owns_of_new hr
      exact ⟨ek, dk, howns⟩

/-- And keep it. -/
theorem Owned.step {t : Handshake} (h : t.Owned kem) (op : NoiseRole × HandshakeCall ρ) :
    (t.step kem sha3 op).Owned kem := by
  obtain ⟨called, c⟩ := op
  intro side
  obtain ⟨ek, dk, howns⟩ := h side
  refine ⟨ek, dk, ?_⟩
  cases called <;> cases side
  · exact howns.step c
  · exact howns
  · exact howns
  · exact howns.step c

/-- Both parties are at a stage of the handshake into which only its own secrets were mixed. -/
structure Clean (kem : MlKem ρ) (sha3 : List UInt8 → Key) (t : Handshake) : Prop where
  initiator : ∃ ek dk, t.initiator.Owns kem .initiator ek dk ∧ InitiatorAt kem sha3 ek.toList dk.toList t.initiator
  responder : ∃ ek dk, t.responder.Owns kem .responder ek dk ∧ ResponderAt kem sha3 ek.toList dk.toList t.responder

/-- At the start both parties are at the first stage. -/
theorem clean_of_init {t : Handshake} (h : (handshakeSystem kem sha3).init t) : t.Clean kem sha3 := by
  obtain ⟨rng, rng', hi, hr, hsent, hhandled, hsent', hhandled'⟩ := h
  obtain ⟨ek, dk, howns, hstate, hsecrets⟩ := Party.owns_of_new hi
  obtain ⟨ek', dk', howns', hstate', hsecrets'⟩ := Party.owns_of_new hr
  exact ⟨⟨ek, dk, howns, .initial hstate hsecrets hsent hhandled⟩,
    ⟨ek', dk', howns', .initial hstate' hsecrets' hsent' hhandled'⟩⟩

/-- The call does not mix a secret in and then fail. -/
def NoMixing (kem : MlKem ρ) (op : NoiseRole × HandshakeCall ρ) (t : Handshake) : Prop :=
  (t.party op.1).session.mixes kem op.2 = false

instance (kem : MlKem ρ) (op : NoiseRole × HandshakeCall ρ) (t : Handshake) : Decidable (NoMixing kem op t) := by
  unfold NoMixing
  infer_instance

/-- **The step lemma**: a call that does not mix a secret in and fail moves its party on by a stage, or not at all. -/
theorem Clean.step {t : Handshake} (h : t.Clean kem sha3) {op : NoiseRole × HandshakeCall ρ}
    (hok : NoMixing kem op t) : (t.step kem sha3 op).Clean kem sha3 := by
  obtain ⟨called, c⟩ := op
  obtain ⟨⟨ek, dk, howns, hat⟩, ⟨ek', dk', howns', hat'⟩⟩ := h
  cases called with
  | initiator =>
      exact ⟨⟨ek, dk, howns.step c, hat.step howns.ready howns.role_eq hok⟩, ⟨ek', dk', howns', hat'⟩⟩
  | responder =>
      exact ⟨⟨ek, dk, howns, hat⟩, ⟨ek', dk', howns'.step c, hat'.step howns'.ready howns'.role_eq c⟩⟩

/-- **Two honest parties that are through hold the same keys.** Each decapsulates what the other encapsulated. -/
theorem Clean.keysAgree {t : Handshake} (h : t.Clean kem sha3) (hdone : t.HonestlyComplete) : t.KeysAgree := by
  obtain ⟨⟨ek, dk, howns, hat⟩, ⟨ek', dk', howns', hat'⟩⟩ := h
  obtain ⟨hstate, hstate', hhonest, hhonest'⟩ := hdone
  obtain ⟨rng, hgen⟩ := howns.generated
  obtain ⟨rng', hgen'⟩ := howns'.generated
  cases hat with
  | initial hst => exact absurd (hstate.symm.trans hst) (by decide)
  | waiting hst => exact absurd (hstate.symm.trans hst) (by decide)
  | @complete e c _ ss1 ss2 ct _ hdec henc hsent hhandled hsend hrecv =>
      cases hat' with
      | initial hst => exact absurd (hstate'.symm.trans hst) (by decide)
      | received hst => exact absurd (hstate'.symm.trans hst) (by decide)
      | @complete e' c' _ ss1' ss2' ct' _ henc' hdec' hsent' hhandled' hsend' hrecv' =>
          -- what one party processed is what the other sent
          rw [hhandled, hsent'] at hhonest
          rw [hhandled', hsent] at hhonest'
          have hresp : e = ek'.toList ∧ c = ct'.toList := by simpa using hhonest (.response e c) (by simp)
          have hinit : e' = ek.toList := by simpa using hhonest' (.init e') (by simp)
          have hfinal : c' = ct.toList := by simpa using hhonest' (.final c') (by simp)
          -- so each decapsulates the other's ciphertext, and the secrets are the same two in the same order
          rw [hresp.2] at hdec
          rw [hresp.1] at henc
          rw [hinit] at henc'
          rw [hfinal] at hdec'
          have h1 : ss1 = ss1' := Except.ok.inj (hdec.symm.trans (MlKem.decapsBytes_of_encapsBytes hgen henc'))
          have h2 : ss2 = ss2' :=
            Except.ok.inj ((MlKem.decapsBytes_of_encapsBytes hgen' henc).symm.trans hdec')
          subst h1 h2
          exact ⟨hsend.trans hrecv'.symm, hrecv.trans hsend'.symm⟩

end Handshake

open Handshake

/-- **What the handshake recovers from.** In every run, a call that returns an error leaves its session exactly as it
was if and only if it does not spoil it. And in every run in which no call mixes a secret in and fails, two parties that
are through, after each processed only messages of the other, hold the same transport keys. -/
theorem handshake_recovers_iff (kem : MlKem ρ) (sha3 : List UInt8 → Key) :
    (∀ t past, (handshakeSystem kem sha3).Run (fun _ _ => True) (t :: past) → ∀ side c err,
      ((t.party side).session.call kem sha3 c).2 = .error err →
        (((t.party side).session.call kem sha3 c).1 = (t.party side).session ↔
          (t.party side).session.spoils kem c = false)) ∧
    ∀ t past, (handshakeSystem kem sha3).Run (NoMixing kem) (t :: past) → t.HonestlyComplete → t.KeysAgree := by
  constructor
  · intro t past hr side c err herr
    have howned : t.Owned kem := by
      refine System.Reachable.invariant (fun _ => owned_of_init) ?_ ⟨past, hr⟩
      rintro s op s' hs - hstep
      obtain rfl := Option.some.inj hstep
      exact hs.step op
    obtain ⟨ek, dk, howns⟩ := howned side
    exact NoiseSession.unchanged_iff howns.ready c herr
  · intro t past hr hdone
    have hclean : t.Clean kem sha3 := by
      refine System.Reachable.invariant (fun _ => clean_of_init) ?_ ⟨past, hr⟩
      rintro s op s' hs hok hstep
      obtain rfl := Option.some.inj hstep
      exact hs.step hok
    exact hclean.keysAgree hdone

/-! ### One-byte keys -/

/-- A small KEM: a keypair is one random byte twice, a ciphertext is the random byte of which the secret is made. -/
def byteKem : MlKem UInt8 where
  ekLen := 1
  dkLen := 1
  ctLen := 1
  keygen r := .ok (Vector.replicate 1 r, Vector.replicate 1 r)
  readEk _ := .ok ()
  readDk _ := .ok ()
  readCt _ := .ok ()
  encaps _ r := .ok (Vector.replicate 32 r, Vector.replicate 1 r)
  decaps _ ct := .ok (Vector.replicate 32 (ct.toList.headD 0))
  hexError _ := "Odd number of digits"
  decaps_encaps := by
    intro r r' ek dk ss ct _ henc
    obtain ⟨rfl, rfl⟩ := Prod.mk.inj (Except.ok.inj henc)
    exact ⟨rfl, rfl, rfl⟩

/-- The sum of the bytes, in the first byte. -/
def sumHash (bytes : List UInt8) : Key := Vector.ofFn fun i => if i.val = 0 then bytes.foldl (· + ·) 0 else 0

/-- An initiator with the key 1 and a responder with the key 2. -/
def newParties : Handshake where
  initiator := ⟨.ofKeypair .initiator (hexEncode [1]) (hexEncode [1]), [], []⟩
  responder := ⟨.ofKeypair .responder (hexEncode [2]) (hexEncode [2]), [], []⟩

/-- It is a start of the runs. -/
theorem newParties_init : (handshakeSystem byteKem sumHash).init newParties :=
  ⟨1, 2, rfl, rfl, rfl, rfl, rfl, rfl⟩

/-- The newest message of a party. -/
def newest (p : Party) : HandshakeMessage := p.sent.headD (.final [])

/-- A `Response` with its key taken out. -/
def withoutKey : HandshakeMessage → HandshakeMessage
  | .response _ c => .response [] c
  | msg => msg

/-- Between the honest messages each party is called in the wrong state, with the wrong kind of message, or with a
ciphertext of the wrong length. All of that is refused and spoils nothing: the handshake ends with the same keys, and
one more such call leaves the responder as it is. -/
theorem disturbed_handshake_agrees :
    ∃ t past, (handshakeSystem byteKem sumHash).Run (NoMixing byteKem) (t :: past) ∧ past.length = 9 ∧
      t.initiator.handled.length = 1 ∧ t.responder.handled.length = 2 ∧ t.HonestlyComplete ∧ t.KeysAgree ∧
      ∃ err, ((t.party .responder).session.call byteKem sumHash (.processFinal (.final []))).2 = .error err ∧
        ((t.party .responder).session.call byteKem sumHash (.processFinal (.final []))).1 =
          (t.party .responder).session := by
  obtain ⟨t, past, hr, ⟨hcalls, hone, htwo, hdone⟩, hrefused, hspoils⟩ := System.exists_run_of_play
    (P := fun t h => (h.length = 10 ∧ t.initiator.handled.length = 1 ∧ t.responder.handled.length = 2 ∧
        t.HonestlyComplete) ∧
      (((t.party .responder).session.call byteKem sumHash (.processFinal (.final []))).2.toOption = none) ∧
      (t.party .responder).session.spoils byteKem (.processFinal (.final [])) = false) (NoMixing byteKem)
    newParties_init
    [fun _ => (.responder, .processFinal (.final [7])),
      fun _ => (.initiator, .initiate),
      fun _ => (.initiator, .processResponse (.init [9]) 6),
      fun t => (.responder, .respond (newest t.initiator) 5),
      fun t => (.responder, .respond (newest t.initiator) 8),
      fun t => (.initiator, .processResponse (newest t.responder) 6),
      fun t => (.initiator, .processResponse (newest t.responder) 6),
      fun _ => (.responder, .processFinal (.final [])),
      fun t => (.responder, .processFinal (newest t.initiator))] (by decide +kernel)
  refine ⟨t, past, hr, Nat.succ.inj hcalls, hone, htwo, hdone,
    (handshake_recovers_iff byteKem sumHash).2 t past hr hdone, ?_⟩
  cases hcall : ((t.party .responder).session.call byteKem sumHash (.processFinal (.final []))).2 with
  | ok _ =>
      rw [hcall] at hrefused
      cases hrefused
  | error err =>
      exact ⟨err, rfl, ((handshake_recovers_iff byteKem sumHash).1 t past (hr.mono fun _ _ _ => trivial) .responder _ err
        hcall).mpr hspoils⟩

/-- The honest `Response` first comes with its key taken out and is refused; then it comes as it is. Both parties are
through, each on messages of the other only, and their keys differ: the first secret was mixed in twice. And an `Init`
without a key, refused by a new responder, stays in its session. -/
theorem refused_response_spoils_keys :
    (∃ t past, (handshakeSystem byteKem sumHash).Run (fun _ _ => True) (t :: past) ∧ t.HonestlyComplete ∧
      ¬ t.KeysAgree) ∧
    ∃ t past c err, (handshakeSystem byteKem sumHash).Run (fun _ _ => True) (t :: past) ∧
      (t.responder.session.call byteKem sumHash c).2 = .error err ∧
      (t.responder.session.call byteKem sumHash c).1 ≠ t.responder.session := by
  constructor
  · exact System.exists_run_of_play (P := fun t _ => t.HonestlyComplete ∧ ¬ t.KeysAgree) (fun _ _ => True)
      newParties_init
      [fun _ => (.initiator, .initiate),
        fun t => (.responder, .respond (newest t.initiator) 5),
        fun t => (.initiator, .processResponse (withoutKey (newest t.responder)) 6),
        fun t => (.initiator, .processResponse (newest t.responder) 6),
        fun t => (.responder, .processFinal (newest t.initiator))] (by decide +kernel)
  · exact ⟨newParties, [], .respond (.init []) 5, _, .init newParties_init, rfl, by decide +kernel⟩

end WarmLogic.Net.Noise
