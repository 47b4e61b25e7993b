/-
# WarmLogic.Governance.Veto — the veto engine: its lock, its multi-signature reset, and the decisions of peers.

`governance.rs` (`VetoEngine`) and `net/veto_sync.rs` (`VetoSyncHandler`). An activation is known by one hash, SHA3-256
of its reason and tick; the reset authorities sign that hash, and what they sent so far waits in `pendingResets`.

Outside the model, as parameters: SHA3-256, ML-DSA (`verifyRaw`, on hex texts), the two comparisons on `f64` metrics
and the accelerator behind them, and the proof system of the `zk` build. The audit log and the observers only receive.
`u64` is `UInt64`, so the tick wraps, as in the release profile.
-/
import WarmLogic.Crypto.Hex
import WarmLogic.Ledger.SovereignStore

namespace WarmLogic.Governance

open WarmLogic.Lib
open WarmLogic.Federation (hexEncode)
open WarmLogic.Ledger (Bytes utf8)

/-! ## Decisions -/

inductive GovernanceVerdict where
  | allow
  | review
  | block
  | vetoLock
  | criticalHalt
  deriving DecidableEq, Repr

namespace GovernanceVerdict

def isHalt : GovernanceVerdict → Bool
  | .vetoLock | .criticalHalt => true
  | .allow | .review | .block => false

/-- `{:?}`: the derived `Debug`. -/
def debug : GovernanceVerdict → String
  | .allow => "Allow"
  | .review => "Review"
  | .block => "Block"
  | .vetoLock => "VetoLock"
  | .criticalHalt => "CriticalHalt"

end GovernanceVerdict

structure ProofMetadata where
  circuitId : String
  timestamp : UInt64
  epoch : UInt64
  verified : Bool
  deriving DecidableEq

structure GovernanceDecision where
  verdict : GovernanceVerdict
  reason : String
  contextHash : Vector UInt8 32
  tick : UInt64
  signature : Option Bytes
  proofHash : Option (Vector UInt8 32)
  proofMetadata : Option ProofMetadata
  proofBytes : Option Bytes
  deriving DecidableEq

/-- What the engine calls; `F` is `f64`. -/
structure VetoEnv (F : Type) where
  sha3 : Bytes → Vector UInt8 32
  /-- `MLDSA::verify_raw`: public key, message, signature. -/
  verifyRaw : String → String → String → Bool
  /-- `tau_ethics > VETO_THRESHOLD`. -/
  breach : F → Bool
  /-- The verdict on metrics below the threshold, with its text. -/
  policy : F → F → GovernanceVerdict × String
  /-- The build has the `zk` feature. -/
  zk : Bool
  /-- `generate_proof` at a tick that is not 0. -/
  prove : GovernanceVerdict → Vector UInt8 32 → UInt64 → Option (Vector UInt8 32 × ProofMetadata × Bytes)
  /-- The verifying key of the proof system, which no operation of the engine sets. -/
  verifyingKey : Option Bytes
  /-- `Verifier::verify_serialized` on the inputs of a decision and its proof. -/
  verifySerialized : Bytes → GovernanceDecision → Bytes → Except String Bool

/-! ## The engine -/

/-- `VetoState` and the tick. -/
structure VetoEngine where
  active : Bool
  activatedAt : UInt64
  activationReason : String
  activationHash : Vector UInt8 32
  resetAuthorities : List Bytes
  resetThreshold : Nat
  /-- Public key and signature. -/
  pendingResets : List (Bytes × Bytes)
  currentTick : UInt64
  deriving DecidableEq

namespace VetoEngine

variable {F : Type} (env : VetoEnv F)

def new : VetoEngine where
  active := false
  activatedAt := 0
  activationReason := ""
  activationHash := Vector.replicate 32 0
  resetAuthorities := []
  resetThreshold := 0
  pendingResets := []
  currentTick := 0

/-- `configure_reset_authority`. -/
def configureResetAuthority (e : VetoEngine) (publicKeys : List Bytes) (threshold : Nat) : VetoEngine :=
  { e with resetAuthorities := publicKeys, resetThreshold := threshold, pendingResets := [] }

/-- The hash of an activation. -/
def contextOf (tick : UInt64) (reason : String) : Vector UInt8 32 := env.sha3 (utf8 reason ++ leBytes 8 tick.toNat)

/-- `activate_veto`; the hash it is given is not used, and what is pending stays. -/
def activateVeto (e : VetoEngine) (tick : UInt64) (reason : String) (_hash : Vector UInt8 32) : VetoEngine :=
  { e with
    active := true
    activatedAt := tick
    activationReason := reason
    activationHash := contextOf env tick reason }

/-- `make_decision`; a proof is attached in the `zk` build, where the circuit wants a tick that is not 0. -/
def makeDecision (verdict : GovernanceVerdict) (reason : String) (tick : UInt64) : GovernanceDecision :=
  let contextHash := env.sha3 (utf8 verdict.debug ++ utf8 reason ++ leBytes 8 tick.toNat)
  let proof := if env.zk && tick != 0 then env.prove verdict contextHash tick else none
  { verdict, reason, contextHash, tick
    signature := none
    proofHash := proof.map (·.1)
    proofMetadata := proof.map (·.2.1)
    proofBytes := proof.map (·.2.2) }

/-- The reason of a local activation. -/
def breachReason : String := "TAU_ETHICS breach: THRESHOLD EXCEEDED"

/-- `evaluate`: an active lock is only reported; a breach activates it at the current tick; below the threshold the
policy decides. -/
def evaluate (e : VetoEngine) (tauEthics epsilonC : F) : VetoEngine × GovernanceDecision :=
  if e.active then (e, makeDecision env .vetoLock "VETO_LOCK already active" e.currentTick)
  else if env.breach tauEthics then
    (e.activateVeto env e.currentTick breachReason (contextOf env e.currentTick breachReason),
      makeDecision env .vetoLock breachReason e.currentTick)
  else (e, makeDecision env (env.policy tauEthics epsilonC).1 (env.policy tauEthics epsilonC).2 e.currentTick)

/-- `verify_raw` on the hex texts of the three byte strings. -/
def verifies (pk message signature : Bytes) : Bool :=
  env.verifyRaw (hexEncode pk) (hexEncode message) (hexEncode signature)

/-- The first authority whose key verifies the signature. -/
def signerPk (e : VetoEngine) (signature message : Bytes) : Option Bytes :=
  e.resetAuthorities.find? fun pk => verifies env pk message signature

/-- `reset_with_signature`. -/
def resetWithSignature (e : VetoEngine) (signature message : Bytes) : VetoEngine × Except String Bool :=
  if !e.active then (e, .ok true)
  else if message ≠ e.activationHash.toList then (e, .error "Message does not match activation hash")
  else match e.signerPk env signature message with
    | none => (e, .error "Invalid signature: not from an authorized reset authority")
    | some pk =>
        if e.pendingResets.any fun p => p.1 == pk then (e, .error "Signature from this authority already collected")
        else
          let pending := e.pendingResets ++ [(pk, signature)]
          if e.resetThreshold ≤ pending.length then
            ({ e with active := false, activationReason := "", pendingResets := [] }, .ok true)
          else ({ e with pendingResets := pending }, .ok false)

/-- `tick`. -/
def tick (e : VetoEngine) : VetoEngine := { e with currentTick := e.currentTick + 1 }

/-- `verify_decision`. -/
def verifyDecision (decision : GovernanceDecision) : Except String Bool :=
  if !env.zk then .error "ZK feature not enabled"
  else match decision.proofBytes with
    | none => .ok false
    | some proof => match env.verifyingKey with
      | none => .error "No verifying key available"
      | some vk => (env.verifySerialized vk decision proof).mapError ("Verification failed: " ++ ·)

/-- The check of a peer's decision; only the `zk` build makes one. -/
def admitDecision (decision : GovernanceDecision) (peerNodeId : Vector UInt8 32) : Except String Unit :=
  if env.zk then do
    if !(← verifyDecision env decision) then
      throw ("Invalid ZK proof from peer \"" ++ hexEncode peerNodeId.toList ++ "\"")
  else .ok ()

/-- The reason of an activation by a peer. -/
def remoteReason (decision : GovernanceDecision) (peerNodeId : Vector UInt8 32) : String :=
  "Remote Veto from Peer \"" ++ hexEncode peerNodeId.toList ++ "\": " ++ decision.reason

/-- `VetoSyncHandler::process_network_decision`. -/
def processNetworkDecision (e : VetoEngine) (decision : GovernanceDecision) (peerNodeId : Vector UInt8 32) :
    VetoEngine × Except String Unit :=
  match admitDecision env decision peerNodeId with
  | .error msg => (e, .error msg)
  | .ok () =>
      if decision.verdict.isHalt && !e.active then
        -- neither the tick nor the sender is compared with anything seen before
        (e.activateVeto env decision.tick (remoteReason decision peerNodeId) decision.contextHash, .ok ())
      else (e, .ok ())

/-! ## What a call can do -/

variable {env}

/-- A signature that `reset_with_signature` takes: the lock is active, the message is its hash, and the signer is an
authority from which nothing is pending. -/
structure Takes (env : VetoEnv F) (e : VetoEngine) (signature message pk : Bytes) : Prop where
  active : e.active = true
  message_eq : message = e.activationHash.toList
  signer : e.signerPk env signature message = some pk
  fresh : pk ∉ e.pendingResets.map Prod.fst

theorem Takes.mem_authorities {e : VetoEngine} {signature message pk : Bytes} (h : e.Takes env signature message pk) :
    pk ∈ e.resetAuthorities := List.mem_of_find?_eq_some h.signer

theorem Takes.verifies {e : VetoEngine} {signature message pk : Bytes} (h : e.Takes env signature message pk) :
    verifies env pk e.activationHash.toList signature = true := by
  have hv := List.find?_some h.signer
  rwa [← h.message_eq]

/-- `reset_with_signature` refuses and changes nothing, or it takes the signature: then the lock ends if that makes the
threshold, and the signature waits if it does not. -/
theorem resetWithSignature_cases (env : VetoEnv F) (e : VetoEngine) (signature message : Bytes) :
    (e.resetWithSignature env signature message).1 = e ∨
    ∃ pk, e.Takes env signature message pk ∧
      (e.resetThreshold ≤ e.pendingResets.length + 1 ∧
          (e.resetWithSignature env signature message).1 =
            { e with active := false, activationReason := "", pendingResets := [] } ∨
        (e.resetWithSignature env signature message).1 =
          { e with pendingResets := e.pendingResets ++ [(pk, signature)] }) := by
  unfold resetWithSignature
  by_cases hact : e.active = true
  swap
  · exact Or.inl (by rw [if_pos (by simpa using hact)])
  rw [if_neg (by simp [hact])]
  by_cases hmsg : message = e.activationHash.toList
  swap
  · exact Or.inl (by rw [if_pos hmsg])
  rw [if_neg (not_not_intro hmsg)]
  cases hpk : e.signerPk env signature message with
  | none => exact Or.inl rfl
  | some pk =>
      dsimp only
      by_cases hdup : (e.pendingResets.any fun p => p.1 == pk) = true
      · exact Or.inl (by rw [if_pos hdup])
      rw [if_neg hdup]
      have hfresh : pk ∉ e.pendingResets.map Prod.fst := by
        rintro hmem
        obtain ⟨p, hp, rfl⟩ := List.mem_map.mp hmem
        exact hdup (List.any_eq_true.mpr ⟨p, hp, beq_self_eq_true _⟩)
      refine Or.inr ⟨pk, ⟨hact, hmsg, hpk, hfresh⟩, ?_⟩
      by_cases hthr : e.resetThreshold ≤ (e.pendingResets ++ [(pk, signature)]).length
      · rw [if_pos hthr]
        exact Or.inl ⟨by simpa using hthr, rfl⟩
      · rw [if_neg hthr]
        exact Or.inr rfl

/-- Which peer a decision came from does not matter for whether it is admitted. -/
theorem admitDecision_peer {decision : GovernanceDecision} {peer : Vector UInt8 32}
    (h : admitDecision env decision peer = .ok ()) (peer' : Vector UInt8 32) :
    admitDecision env decision peer' = .ok () := by
  unfold admitDecision at h ⊢
  split
  · rename_i hzk
    rw [if_pos hzk] at h
    cases hv : verifyDecision env decision with
    | error msg =>
        rw [hv] at h
        cases h
    | ok b =>
        cases b with
        | true => rfl
        | false =>
            rw [hv] at h
            cases h
  · rfl

end VetoEngine

end WarmLogic.Governance
