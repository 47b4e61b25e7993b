/-
# WarmLogic.Governance.VetoRuns — runs of the veto engine: who ended a lock, and with which signatures.

A run calls the engine and the sync handler in any order. Beside the engine it keeps what the properties speak about:
the reset calls since the most recent activation, the signatures that ended each lock, and the decisions of peers that
were processed.

`activate_veto` leaves what is pending in place. So a signature over one activation counts for the next one if the
lock is activated again before it was reset; the guard `FindsNothingPending` excludes exactly such calls. An
activation is known by its hash alone, and nothing remembers spent signatures or processed decisions.

Why the guard is enough (`Collected`): under it everything pending was sent since the most recent activation and
verified over its hash, by authorities each of which is pending once. The lock ends with as many as the threshold, so
that many distinct authorities vouch. A signature is not used twice as long as no activation takes a hash over which a
spent one verifies (`Unspent`), because what is pending verifies over the current hash and what is spent does not.
-/
import WarmLogic.Governance.Veto
import WarmLogic.Lib.Run

namespace WarmLogic.Governance

open WarmLogic.Lib
open WarmLogic.Ledger (Bytes)
open VetoEngine

/-! ## Calls -/

/-- A call, or a decision that comes in from a peer. -/
inductive VetoOp (F : Type) where
  | activateVeto (tick : UInt64) (reason : String) (hash : Vector UInt8 32)
  | evaluate (tauEthics epsilonC : F)
  | processNetworkDecision (decision : GovernanceDecision) (peerNodeId : Vector UInt8 32)
  | resetWithSignature (signature message : Bytes)
  | tick

variable {F : Type}

namespace VetoOp

/-- The engine after a call. -/
def call (env : VetoEnv F) (e : VetoEngine) : VetoOp F → VetoEngine
  | .activateVeto time reason hash => e.activateVeto env time reason hash
  | .evaluate tauEthics epsilonC => (e.evaluate env tauEthics epsilonC).1
  | .processNetworkDecision decision peer => (e.processNetworkDecision env decision peer).1
  | .resetWithSignature signature message => (e.resetWithSignature env signature message).1
  | .tick => e.tick

/-- The tick and the reason with which a call activates the lock, if it does. -/
def activates (env : VetoEnv F) (e : VetoEngine) : VetoOp F → Option (UInt64 × String)
  | .activateVeto time reason _ => some (time, reason)
  | .evaluate tauEthics _ => if !e.active && env.breach tauEthics then some (e.currentTick, breachReason) else none
  | .processNetworkDecision decision peer =>
      match admitDecision env decision peer with
      | .error _ => none
      | .ok () =>
          if decision.verdict.isHalt && !e.active then some (decision.tick, remoteReason decision peer) else none
  | .resetWithSignature _ _ => none
  | .tick => none

/-- The engine once the lock was activated. -/
def activated (env : VetoEnv F) (e : VetoEngine) (a : UInt64 × String) : VetoEngine :=
  { e with active := true, activatedAt := a.1, activationReason := a.2, activationHash := contextOf env a.1 a.2 }

variable {env : VetoEnv F} {e : VetoEngine}

/-- **What a call can do**: activate the lock; take a signature, which ends the lock or waits; or leave everything but
the tick. -/
theorem call_cases (env : VetoEnv F) (e : VetoEngine) (op : VetoOp F) :
    (∃ a, op.activates env e = some a ∧ op.call env e = activated env e a) ∨
    (op.activates env e = none ∧ ∃ signature message pk, op = .resetWithSignature signature message ∧
      e.Takes env signature message pk ∧
      (e.resetThreshold ≤ e.pendingResets.length + 1 ∧
          op.call env e = { e with active := false, activationReason := "", pendingResets := [] } ∨
        op.call env e = { e with pendingResets := e.pendingResets ++ [(pk, signature)] })) ∨
    (op.activates env e = none ∧ ∃ t, op.call env e = { e with currentTick := t }) := by
  cases op with
  | activateVeto time reason hash => exact Or.inl ⟨(time, reason), rfl, rfl⟩
  | evaluate tauEthics epsilonC =>
      simp only [activates, call, VetoEngine.evaluate]
      by_cases hact : e.active = true
      · rw [if_pos hact, if_neg (by simp [hact])]
        exact Or.inr (Or.inr ⟨rfl, e.currentTick, rfl⟩)
      · rw [if_neg hact]
        by_cases hbreach : env.breach tauEthics = true
        · rw [if_pos hbreach, if_pos (by simp [hact, hbreach])]
          exact Or.inl ⟨_, rfl, rfl⟩
        · rw [if_neg hbreach, if_neg (by simp [hbreach])]
          exact Or.inr (Or.inr ⟨rfl, e.currentTick, rfl⟩)
  | processNetworkDecision decision peer =>
      simp only [activates, call, VetoEngine.processNetworkDecision]
      cases admitDecision env decision peer with
      | error msg => exact Or.inr (Or.inr ⟨rfl, e.currentTick, rfl⟩)
      | ok u =>
          dsimp only
          by_cases hhalt : (decision.verdict.isHalt && !e.active) = true
          · rw [if_pos hhalt, if_pos hhalt]
            exact Or.inl ⟨_, rfl, rfl⟩
          · rw [if_neg hhalt, if_neg hhalt]
            exact Or.inr (Or.inr ⟨rfl, e.currentTick, rfl⟩)
  | resetWithSignature signature message =>
      rcases resetWithSignature_cases env e signature message with heq | ⟨pk, htakes, hres⟩
      · exact Or.inr (Or.inr ⟨rfl, e.currentTick, heq⟩)
      · exact Or.inr (Or.inl ⟨rfl, signature, message, pk, rfl, htakes, hres⟩)
  | tick => exact Or.inr (Or.inr ⟨rfl, e.currentTick + 1, rfl⟩)

/-- Apart from `activate_veto` itself, a call activates the lock only where it is not active. -/
theorem inactive_of_activates {op : VetoOp F} {a : UInt64 × String} (h : op.activates env e = some a) :
    e.active = false ∨ ∃ time reason hash, op = .activateVeto time reason hash := by
  cases op with
  | activateVeto time reason hash => exact Or.inr ⟨time, reason, hash, rfl⟩
  | evaluate tauEthics epsilonC =>
      simp only [activates] at h
      split at h
      · rename_i hcond
        exact Or.inl (by simpa using (Bool.and_eq_true_iff.mp hcond).1)
      · exact nomatch h
  | processNetworkDecision decision peer =>
      simp only [activates] at h
      split at h
      · exact nomatch h
      · split at h
        · rename_i hcond
          exact Or.inl (by simpa using (Bool.and_eq_true_iff.mp hcond).2)
        · exact nomatch h
  | resetWithSignature signature message => exact nomatch h
  | tick => exact nomatch h

end VetoOp

/-! ## Runs -/

/-- The engine, with what the properties speak of. -/
structure VetoTrace where
  engine : VetoEngine
  /-- Signature and message of the reset calls since the most recent activation, the newest first. -/
  supplied : List (Bytes × Bytes)
  /-- The signatures, each with its signer, that ended the locks so far, the newest first. -/
  ended : List (List (Bytes × Bytes))
  /-- The decisions of peers that were processed without an error. -/
  processed : List GovernanceDecision
  deriving DecidableEq

namespace VetoTrace

/-- What is collected once a reset call has counted. -/
def collected (env : VetoEnv F) (e : VetoEngine) : VetoOp F → List (Bytes × Bytes)
  | .resetWithSignature signature message =>
      e.pendingResets ++ (e.signerPk env signature message).toList.map (·, signature)
  | _ => e.pendingResets

/-- The trace after a call. -/
def step (env : VetoEnv F) (op : VetoOp F) (t : VetoTrace) : VetoTrace where
  engine := op.call env t.engine
  supplied :=
    match op.activates env t.engine with
    | some _ => []
    | none => match op with
      | .resetWithSignature signature message => (signature, message) :: t.supplied
      | _ => t.supplied
  ended :=
    if t.engine.active && !(op.call env t.engine).active then collected env t.engine op :: t.ended else t.ended
  processed :=
    match op with
    | .processNetworkDecision decision peer =>
        match (t.engine.processNetworkDecision env decision peer).2 with
        | .ok () => decision :: t.processed
        | .error _ => t.processed
    | _ => t.processed

/-- A new engine with its reset authority configured. -/
def start (keys : List Bytes) (threshold : Nat) : VetoTrace where
  engine := VetoEngine.new.configureResetAuthority keys threshold
  supplied := []
  ended := []
  processed := []

end VetoTrace

/-- The engine and the sync handler under any calls. -/
def vetoSystem (env : VetoEnv F) (keys : List Bytes) (threshold : Nat) : System VetoTrace (VetoOp F) where
  init t := t = VetoTrace.start keys threshold
  step op t := some (t.step env op)

variable {env : VetoEnv F} {keys : List Bytes} {threshold : Nat}

/-! ## What a step can do -/

namespace VetoTrace

/-- A step that leaves the lock active, or finds none, ends none. -/
theorem ended_of_active {t : VetoTrace} {op : VetoOp F}
    (h : (op.call env t.engine).active = true ∨ t.engine.active = false) : (t.step env op).ended = t.ended := by
  refine if_neg fun hcond => ?_
  rw [Bool.and_eq_true] at hcond
  rcases h with h | h
  · simp [h] at hcond
  · simp [h] at hcond

/-- The step that ends the lock files what was pending and the signature it took. -/
theorem ended_of_takes {t : VetoTrace} {signature message pk : Bytes} (ht : t.engine.Takes env signature message pk)
    (hin : (t.engine.resetWithSignature env signature message).1.active = false) :
    (t.step env (.resetWithSignature signature message)).ended =
      (t.engine.pendingResets ++ [(pk, signature)]) :: t.ended := by
  have hcond : (t.engine.active &&
      !((VetoOp.resetWithSignature signature message : VetoOp F).call env t.engine).active) = true := by
    rw [Bool.and_eq_true]
    exact ⟨ht.active, by simpa [VetoOp.call] using hin⟩
  refine (if_pos hcond).trans ?_
  rw [collected, ht.signer]
  rfl

/-- **What a step can do**, with what it files: an activation; a signature that is taken, and ends the lock or waits; or
nothing but the tick. -/
theorem step_cases (env : VetoEnv F) (t : VetoTrace) (op : VetoOp F) :
    (∃ a, op.activates env t.engine = some a ∧ (t.step env op).engine = VetoOp.activated env t.engine a ∧
      (t.step env op).ended = t.ended) ∨
    (op.activates env t.engine = none ∧ ∃ signature message pk, op = .resetWithSignature signature message ∧
      t.engine.Takes env signature message pk ∧
      (t.engine.resetThreshold ≤ t.engine.pendingResets.length + 1 ∧
          (t.step env op).engine = { t.engine with active := false, activationReason := "", pendingResets := [] } ∧
          (t.step env op).ended = (t.engine.pendingResets ++ [(pk, signature)]) :: t.ended ∨
        (t.step env op).engine = { t.engine with pendingResets := t.engine.pendingResets ++ [(pk, signature)] } ∧
          (t.step env op).ended = t.ended)) ∨
    (op.activates env t.engine = none ∧ ∃ tk, (t.step env op).engine = { t.engine with currentTick := tk } ∧
      (t.step env op).ended = t.ended) := by
  rcases VetoOp.call_cases env t.engine op with
    ⟨a, ha, hcall⟩ | ⟨hnone, signature, message, pk, rfl, ht, ⟨hthr, hcall⟩ | hcall⟩ | ⟨hnone, tk, hcall⟩
  · exact Or.inl ⟨a, ha, hcall, ended_of_active (Or.inl (by rw [hcall]; rfl))⟩
  · have hended := ended_of_takes ht (congrArg VetoEngine.active hcall)
    exact Or.inr (Or.inl ⟨hnone, signature, message, pk, rfl, ht, Or.inl ⟨hthr, hcall, hended⟩⟩)
  · have hended := ended_of_active (Or.inl (by rw [hcall]; exact ht.active))
    exact Or.inr (Or.inl ⟨hnone, signature, message, pk, rfl, ht, Or.inr ⟨hcall, hended⟩⟩)
  · have hended : (t.step env op).ended = t.ended := by
      refine ended_of_active ?_
      rw [hcall]
      exact Bool.eq_false_or_eq_true t.engine.active
    exact Or.inr (Or.inr ⟨hnone, tk, hcall, hended⟩)

end VetoTrace

/-! ## Who ended a lock -/

namespace VetoTrace

/-- Since the most recent activation `pk` supplied a verifying signature over `message`. -/
def vouches (env : VetoEnv F) (t : VetoTrace) (message pk : Bytes) : Bool :=
  t.supplied.any fun c => c.2 == message && verifies env pk message c.1

/-- The step from `t` to `t'` did not end the lock, or enough distinct authorities vouch for the hash of `t`. -/
def EndedByQuorum (env : VetoEnv F) (keys : List Bytes) (threshold : Nat) (t t' : VetoTrace) : Prop :=
  t.engine.active = true → t'.engine.active = false →
    ∃ signers : List Bytes, signers.Nodup ∧ threshold ≤ signers.length ∧
      ∀ pk ∈ signers, pk ∈ keys ∧ t'.vouches env t.engine.activationHash.toList pk = true

/-- `activate_veto` is not called on an active lock for which signatures are pending. -/
def FindsNothingPending (op : VetoOp F) (t : VetoTrace) : Prop :=
  match op with
  | .activateVeto _ _ _ => t.engine.active = true → t.engine.pendingResets = []
  | _ => True

instance (op : VetoOp F) (t : VetoTrace) : Decidable (FindsNothingPending op t) := by
  unfold FindsNothingPending
  split <;> infer_instance

/-- **The invariant behind the quorum**: configured authorities and threshold; nothing pending without a lock; and
what is pending comes from distinct authorities that vouch for the current hash. A reset call adds one that was not
there, an activation finds nothing pending, and the end of a lock clears it. -/
structure Collected (env : VetoEnv F) (keys : List Bytes) (threshold : Nat) (t : VetoTrace) : Prop where
  authorities : t.engine.resetAuthorities = keys
  threshold : t.engine.resetThreshold = threshold
  idle : t.engine.active = false → t.engine.pendingResets = []
  nodup : (t.engine.pendingResets.map Prod.fst).Nodup
  valid : ∀ p ∈ t.engine.pendingResets,
    p.1 ∈ keys ∧ t.vouches env t.engine.activationHash.toList p.1 = true

/-- A new engine has nothing pending. -/
theorem collected_start : Collected env keys threshold (start keys threshold) where
  authorities := rfl
  threshold := rfl
  idle _ := rfl
  nodup := List.nodup_nil
  valid _ hp := nomatch hp

/-- An activation under the guard finds nothing pending. -/
theorem Collected.pending_nil {t : VetoTrace} (h : Collected env keys threshold t) {op : VetoOp F}
    (hok : FindsNothingPending op t) {a : UInt64 × String} (ha : op.activates env t.engine = some a) :
    t.engine.pendingResets = [] := by
  rcases VetoOp.inactive_of_activates ha with hin | ⟨time, reason, hash, rfl⟩
  · exact h.idle hin
  · by_cases hact : t.engine.active = true
    · exact hok hact
    · exact h.idle (by simpa using hact)

/-- A call that is no activation forgets no reset call. -/
theorem vouches_step {t : VetoTrace} {op : VetoOp F} (hnone : op.activates env t.engine = none) {message pk : Bytes}
    (h : t.vouches env message pk = true) : (t.step env op).vouches env message pk = true := by
  obtain ⟨c, hc, hv⟩ := List.any_eq_true.mp h
  refine List.any_eq_true.mpr ⟨c, ?_, hv⟩
  simp only [step, hnone]
  split
  · exact List.mem_cons_of_mem _ hc
  · exact hc

/-- A signature that is taken vouches for the hash. -/
theorem vouches_of_takes {t : VetoTrace} {signature message pk : Bytes}
    (h : t.engine.Takes env signature message pk) :
    (t.step env (.resetWithSignature signature message)).vouches env t.engine.activationHash.toList pk = true := by
  refine List.any_eq_true.mpr ⟨(signature, message), List.mem_cons_self, ?_⟩
  rw [Bool.and_eq_true]
  exact ⟨beq_iff_eq.mpr h.message_eq, h.verifies⟩

/-- The pending signers and the one whose signature is taken are distinct authorities that vouch for the hash. -/
theorem Collected.signers {t : VetoTrace} (h : Collected env keys threshold t) {signature message pk : Bytes}
    (ht : t.engine.Takes env signature message pk) :
    (t.engine.pendingResets.map Prod.fst ++ [pk]).Nodup ∧
      ∀ q ∈ t.engine.pendingResets.map Prod.fst ++ [pk], q ∈ keys ∧
        (t.step env (.resetWithSignature signature message)).vouches env t.engine.activationHash.toList q = true := by
  constructor
  · rw [← List.concat_eq_append]
    exact List.Nodup.concat ht.fresh h.nodup
  · intro q hq
    rcases List.mem_append.mp hq with hq | hq
    · obtain ⟨p, hp, rfl⟩ := List.mem_map.mp hq
      exact ⟨(h.valid p hp).1, vouches_step rfl (h.valid p hp).2⟩
    · obtain rfl := List.mem_singleton.mp hq
      exact ⟨h.authorities ▸ ht.mem_authorities, vouches_of_takes ht⟩

/-- **The step lemma** for what is pending. -/
theorem Collected.step {t : VetoTrace} (h : Collected env keys threshold t) {op : VetoOp F}
    (hok : FindsNothingPending op t) : Collected env keys threshold (t.step env op) := by
  rcases step_cases env t op with ⟨a, ha, hengine, -⟩ |
    ⟨-, signature, message, pk, rfl, ht, ⟨-, hengine, -⟩ | ⟨hengine, -⟩⟩ | ⟨hnone, tk, hengine, -⟩
  · -- an activation: the guard leaves nothing pending that was signed before it
    have hnil := h.pending_nil hok ha
    constructor <;> rw [hengine]
    · exact h.authorities
    · exact h.threshold
    · exact fun _ => hnil
    · exact h.nodup
    · intro p hp
      rw [VetoOp.activated, hnil] at hp
      exact nomatch hp
  · -- the lock ends
    constructor <;> rw [hengine]
    · exact h.authorities
    · exact h.threshold
    · exact fun _ => rfl
    · exact List.nodup_nil
    · exact fun p hp => nomatch hp
  · -- a signature below the threshold waits with the others
    obtain ⟨hnodup, hvalid⟩ := h.signers ht
    constructor <;> rw [hengine]
    · exact h.authorities
    · exact h.threshold
    · exact fun hin => absurd (ht.active.symm.trans hin) (by decide)
    · rw [List.map_append]
      exact hnodup
    · intro p hp
      have hp' : p.1 ∈ t.engine.pendingResets.map Prod.fst ++ [pk] := by
        rw [show [pk] = [(pk, signature)].map Prod.fst from rfl, ← List.map_append]
        exact List.mem_map_of_mem hp
      exact hvalid p.1 hp'
  · -- a refused call, or only the tick
    constructor <;> rw [hengine]
    · exact h.authorities
    · exact h.threshold
    · exact h.idle
    · exact h.nodup
    · exact fun p hp => ⟨(h.valid p hp).1, vouches_step hnone (h.valid p hp).2⟩

/-- **One step ends the lock only by a quorum.** -/
theorem Collected.endedByQuorum {t : VetoTrace} (h : Collected env keys threshold t) (op : VetoOp F) :
    EndedByQuorum env keys threshold t (t.step env op) := by
  intro hact hin
  rcases step_cases env t op with ⟨a, -, hengine, -⟩ |
    ⟨-, signature, message, pk, rfl, ht, ⟨hthr, -, -⟩ | ⟨hengine, -⟩⟩ | ⟨-, tk, hengine, -⟩
  · simp [hengine, VetoOp.activated] at hin
  · obtain ⟨hnodup, hvalid⟩ := h.signers ht
    refine ⟨_, hnodup, ?_, hvalid⟩
    rw [← h.threshold]
    simpa using hthr
  · simp [hengine, hact] at hin
  · simp [hengine, hact] at hin

end VetoTrace

open VetoTrace

/-- **The run lemma.** -/
theorem collected_of_run {t : VetoTrace} {past : List VetoTrace}
    (hr : (vetoSystem env keys threshold).Run FindsNothingPending (t :: past)) :
    Collected env keys threshold t := by
  refine System.Reachable.invariant ?_ ?_ ⟨past, hr⟩
  · rintro _ rfl
    exact collected_start
  · rintro s op s' hs hok hstep
    obtain rfl := Option.some.inj hstep
    exact hs.step hok

/-- **The reset authority.** In every run in which `activate_veto` is never called on an active lock with signatures
pending, each step that ends the lock comes after at least `threshold` distinct authorities supplied, since the most
recent activation, a verifying signature over that activation's hash. -/
theorem reset_needs_quorum {t t' : VetoTrace} {past : List VetoTrace}
    (hr : (vetoSystem env keys threshold).Run FindsNothingPending (t' :: t :: past)) :
    EndedByQuorum env keys threshold t t' := by
  cases hr with
  | step hr hok hstep =>
      obtain rfl := Option.some.inj hstep
      exact (collected_of_run hr).endedByQuorum _

/-! ### Two authorities -/

/-- A small environment: a signature is the key and the message, one after the other; the hash is the sum of the bytes,
thirty-two times; a breach is `true`; there is no proof system. -/
def sumEnv : VetoEnv Bool where
  sha3 bytes := Vector.replicate 32 (bytes.foldl (· + ·) 0)
  verifyRaw pk message signature := signature == pk ++ message
  breach tauEthics := tauEthics
  policy _ _ := (.allow, "Policy Compliant")
  zk := false
  prove _ _ _ := none
  verifyingKey := none
  verifySerialized _ _ _ := .ok false

/-- `pk` signs the hash of the current activation. -/
def signs (pk : Bytes) (t : VetoTrace) : VetoOp Bool :=
  .resetWithSignature (pk ++ t.engine.activationHash.toList) t.engine.activationHash.toList

/-- The newest step of a history ended the lock. -/
def endsLock (t : VetoTrace) (h : List VetoTrace) : Bool :=
  (h[1]?.any fun s => s.engine.active) && !t.engine.active

/-- A step that ends a lock has a state before it. -/
theorem exists_step_of_endsLock {t : VetoTrace} {past : List VetoTrace} (h : endsLock t (t :: past) = true) :
    ∃ s rest, past = s :: rest ∧ s.engine.active = true ∧ t.engine.active = false := by
  cases past with
  | nil => simp [endsLock] at h
  | cons s rest =>
      have h' : s.engine.active = true ∧ t.engine.active = false := by simpa [endsLock] using h
      exact ⟨s, rest, rfl, h'⟩

/-- Two of two authorities sign one activation, one after the other, and the lock ends. -/
theorem two_signers_end_lock :
    ∃ t t' past, (vetoSystem sumEnv [[1], [2]] 2).Run FindsNothingPending (t' :: t :: past) ∧
      t.engine.active = true ∧ t'.engine.active = false ∧ EndedByQuorum sumEnv [[1], [2]] 2 t t' := by
  obtain ⟨t', past, hr, hend⟩ := System.exists_run_of_play (M := vetoSystem sumEnv [[1], [2]] 2)
    (s := start [[1], [2]] 2) (P := fun t h => endsLock t h = true) FindsNothingPending rfl
    [fun _ => .activateVeto 1 "a" (Vector.replicate 32 0), signs [1], signs [2]] (by decide +kernel)
  obtain ⟨t, rest, rfl, hact, hin⟩ := exists_step_of_endsLock hend
  exact ⟨t, t', rest, hr, hact, hin, reset_needs_quorum hr⟩

/-- Those who vouch for a hash are among the keys that do. -/
theorem length_le_of_vouches {t' : VetoTrace} {message : Bytes} {signers : List Bytes} (hnodup : signers.Nodup)
    (h : ∀ pk ∈ signers, pk ∈ keys ∧ t'.vouches env message pk = true) :
    signers.length ≤ (keys.filter (t'.vouches env message)).length := by
  refine (List.Nodup.subperm hnodup ?_).length_le
  intro pk hpk
  exact List.mem_filter.mpr (h pk hpk)

/-- One authority signs the first activation, the lock is activated again, the other authority signs the second
activation: the lock ends, although only one of the two ever signed the second activation. -/
theorem stale_signature_ends_lock :
    ∃ t t' past, (vetoSystem sumEnv [[1], [2]] 2).Run (fun _ _ => True) (t' :: t :: past) ∧
      ¬ EndedByQuorum sumEnv [[1], [2]] 2 t t' := by
  obtain ⟨t', past, hr, hend, hfew⟩ := System.exists_run_of_play (M := vetoSystem sumEnv [[1], [2]] 2)
    (s := start [[1], [2]] 2)
    (P := fun t h => endsLock t h = true ∧
      ([[1], [2]].filter (t.vouches sumEnv t.engine.activationHash.toList)).length < 2 ∧
      h[1]?.all fun s => s.engine.activationHash == t.engine.activationHash)
    (fun _ _ => True) rfl
    [fun _ => .activateVeto 1 "a" (Vector.replicate 32 0), signs [1],
      fun _ => .activateVeto 2 "b" (Vector.replicate 32 0), signs [2]] (by decide +kernel)
  obtain ⟨t, rest, rfl, hact, hin⟩ := exists_step_of_endsLock hend
  refine ⟨t, t', rest, hr, fun hquorum => ?_⟩
  obtain ⟨signers, hnodup, hlen, hvouch⟩ := hquorum hact hin
  have hsame : t.engine.activationHash = t'.engine.activationHash := by simpa using hfew.2
  rw [hsame] at hvouch
  have := length_le_of_vouches hnodup hvouch
  omega

/-! ## Signatures and decisions that come again -/

namespace VetoTrace

/-- The signatures that ended a lock so far. -/
def spent (t : VetoTrace) : List (Bytes × Bytes) := t.ended.flatten

/-- A call does not activate the lock with a hash over which a spent signature verifies. -/
def NewContext (env : VetoEnv F) (op : VetoOp F) (t : VetoTrace) : Prop :=
  ∀ a ∈ op.activates env t.engine, ∀ p ∈ t.spent, verifies env p.1 (contextOf env a.1 a.2).toList p.2 = false

instance (env : VetoEnv F) (op : VetoOp F) (t : VetoTrace) : Decidable (NewContext env op t) := by
  unfold NewContext
  infer_instance

/-- **The invariant behind single use**: an idle engine has nothing pending, no spent signature verifies over the hash
of an active lock, none is pending, and no two locks were ended by a common signature. -/
structure Unspent (env : VetoEnv F) (t : VetoTrace) : Prop where
  idle : t.engine.active = false → t.engine.pendingResets = []
  refused : t.engine.active = true → ∀ p ∈ t.spent, verifies env p.1 t.engine.activationHash.toList p.2 = false
  pending : t.engine.pendingResets.Disjoint t.spent
  disjoint : t.ended.Pairwise List.Disjoint

/-- A signature that is taken verifies over the hash, so it is none of the spent ones. -/
theorem Unspent.taken_disjoint {t : VetoTrace} (h : Unspent env t) {signature message pk : Bytes}
    (ht : t.engine.Takes env signature message pk) :
    (t.engine.pendingResets ++ [(pk, signature)]).Disjoint t.spent := by
  refine List.disjoint_append_left.mpr ⟨h.pending, ?_⟩
  rintro p hp hspent
  obtain rfl := List.mem_singleton.mp hp
  exact absurd (ht.verifies.symm.trans (h.refused ht.active _ hspent)) (by decide)

/-- **The step lemma** for spent signatures. -/
theorem Unspent.step {t : VetoTrace} (h : Unspent env t) {op : VetoOp F} (hok : NewContext env op t) :
    Unspent env (t.step env op) := by
  rcases step_cases env t op with ⟨a, ha, hengine, hended⟩ |
    ⟨-, signature, message, pk, rfl, ht, ⟨-, hengine, hended⟩ | ⟨hengine, hended⟩⟩ | ⟨-, tk, hengine, hended⟩
  · constructor <;> simp only [spent, hengine, hended]
    · exact fun hin => nomatch hin
    · -- the guard speaks of the hash this activation takes
      exact fun _ => hok a ha
    · exact h.pending
    · exact h.disjoint
  · constructor <;> simp only [spent, hengine, hended]
    · exact fun _ => trivial
    · exact fun hact => nomatch hact
    · exact List.disjoint_nil_left _
    · -- what ends this lock was pending or is the signature taken now; neither is spent
      refine List.pairwise_cons.mpr ⟨?_, h.disjoint⟩
      intro set hset p hp hp'
      exact h.taken_disjoint ht hp (List.mem_flatten.mpr ⟨set, hset, hp'⟩)
  · constructor <;> simp only [spent, hengine, hended]
    · exact fun hin => absurd (ht.active.symm.trans hin) (by decide)
    · exact h.refused
    · exact h.taken_disjoint ht
    · exact h.disjoint
  · constructor <;> simp only [spent, hengine, hended]
    · exact h.idle
    · exact h.refused
    · exact h.pending
    · exact h.disjoint

/-- A decision is processed without an error only if it was admitted. -/
theorem admitted_step {t : VetoTrace} {op : VetoOp F}
    (h : ∀ d ∈ t.processed, ∃ peer, admitDecision env d peer = .ok ()) :
    ∀ d ∈ (t.step env op).processed, ∃ peer, admitDecision env d peer = .ok () := by
  intro d hd
  cases op with
  | processNetworkDecision decision peer =>
      cases hadm : admitDecision env decision peer with
      | error msg =>
          simp only [VetoTrace.step, VetoEngine.processNetworkDecision, hadm] at hd
          exact h d hd
      | ok u =>
          have hres : (t.engine.processNetworkDecision env decision peer).2 = .ok () := by
            simp only [VetoEngine.processNetworkDecision, hadm]
            split <;> rfl
          simp only [VetoTrace.step, hres] at hd
          rcases List.mem_cons.mp hd with rfl | hd
          · exact ⟨peer, hadm⟩
          · exact h d hd
  | activateVeto time reason hash => exact h d hd
  | evaluate tauEthics epsilonC => exact h d hd
  | resetWithSignature signature message => exact h d hd
  | tick => exact h d hd

end VetoTrace

/-- An admitted decision activates an inactive lock exactly if its verdict halts. -/
theorem active_processNetworkDecision {e : VetoEngine} {d : GovernanceDecision} {peer : Vector UInt8 32}
    (h : admitDecision env d peer = .ok ()) (hin : e.active = false) :
    (e.processNetworkDecision env d peer).2 = .ok () ∧
      (e.processNetworkDecision env d peer).1.active = d.verdict.isHalt := by
  simp only [VetoEngine.processNetworkDecision, h, hin, Bool.not_false, Bool.and_true]
  cases hhalt : d.verdict.isHalt with
  | true => exact ⟨rfl, rfl⟩
  | false => exact ⟨rfl, hin⟩

/-- **What is single use.** In every run in which no activation takes a hash over which a spent signature verifies, no
signature that ended one lock is among those that end another. And in any run, delivering a processed decision once
more, from any peer, while the lock is not active, activates it exactly if the verdict halts. -/
theorem spent_once_and_redelivery (env : VetoEnv F) (keys : List Bytes) (threshold : Nat) :
    (∀ t past, (vetoSystem env keys threshold).Run (NewContext env) (t :: past) → t.ended.Pairwise List.Disjoint) ∧
    ∀ t past, (vetoSystem env keys threshold).Run (fun _ _ => True) (t :: past) →
      ∀ d ∈ t.processed, ∀ peer, t.engine.active = false →
        (t.engine.processNetworkDecision env d peer).2 = .ok () ∧
          (t.engine.processNetworkDecision env d peer).1.active = d.verdict.isHalt := by
  constructor
  · intro t past hr
    have hinv : Unspent env t := by
      refine System.Reachable.invariant ?_ ?_ ⟨past, hr⟩
      · rintro _ rfl
        exact ⟨fun _ => rfl, (nomatch ·), List.disjoint_nil_left _, List.Pairwise.nil⟩
      · rintro s op s' hs hok hstep
        obtain rfl := Option.some.inj hstep
        exact hs.step hok
    exact hinv.disjoint
  · intro t past hr d hd peer hin
    have hinv : ∀ d ∈ t.processed, ∃ peer, admitDecision env d peer = .ok () := by
      refine System.Reachable.invariant
        (P := fun t : VetoTrace => ∀ d ∈ t.processed, ∃ peer, admitDecision env d peer = .ok ()) ?_ ?_ ⟨past, hr⟩
      · rintro _ rfl d hd
        exact nomatch hd
      · rintro s op s' hs - hstep
        obtain rfl := Option.some.inj hstep
        exact admitted_step hs
    obtain ⟨peer', hadm⟩ := hinv d hd
    exact active_processNetworkDecision (admitDecision_peer hadm peer) hin

/-- Breaches at two ticks: each lock is ended by its own signature. -/
theorem two_locks_two_signatures :
    ∃ t past, (vetoSystem sumEnv [[1]] 1).Run (NewContext sumEnv) (t :: past) ∧ t.ended.length = 2 ∧
      t.ended.Pairwise List.Disjoint := by
  obtain ⟨t, past, hr, hlen⟩ := System.exists_run_of_play (M := vetoSystem sumEnv [[1]] 1)
    (s := start [[1]] 1) (P := fun t _ => t.ended.length = 2) (NewContext sumEnv) rfl
    [fun _ => .evaluate true true, signs [1], fun _ => .tick, fun _ => .evaluate true true, signs [1]]
    (by decide +kernel)
  exact ⟨t, past, hr, hlen, (spent_once_and_redelivery sumEnv [[1]] 1).1 t past hr⟩

/-- A halting decision of a peer. -/
def haltDecision : GovernanceDecision where
  verdict := .criticalHalt
  reason := "halt"
  contextHash := Vector.replicate 32 0
  tick := 3
  signature := none
  proofHash := none
  proofMetadata := none
  proofBytes := none

/-- Two breaches at one tick have one hash, so the signature that ended the first lock ends the second; and a halting
decision that a peer delivers again after the reset activates the lock again. -/
theorem spent_signature_and_old_decision :
    (∃ t past, (vetoSystem sumEnv [[1]] 1).Run (fun _ _ => True) (t :: past) ∧ ¬ t.ended.Pairwise List.Disjoint) ∧
    ∃ t past peer, (vetoSystem sumEnv [[1]] 1).Run (fun _ _ => True) (t :: past) ∧ haltDecision ∈ t.processed ∧
      t.engine.active = false ∧ (t.engine.processNetworkDecision sumEnv haltDecision peer).1.active = true := by
  constructor
  · obtain ⟨t, past, hr, p, -, hp⟩ := System.exists_run_of_play (M := vetoSystem sumEnv [[1]] 1)
      (s := start [[1]] 1) (P := fun t _ => ∃ p ∈ t.spent, t.ended = [[p], [p]]) (fun _ _ => True) rfl
      [fun _ => .evaluate true true, signs [1], fun _ => .evaluate true true, signs [1]] (by decide +kernel)
    refine ⟨t, past, hr, fun hdisj => ?_⟩
    rw [hp, List.pairwise_cons] at hdisj
    exact hdisj.1 [p] List.mem_cons_self List.mem_cons_self List.mem_cons_self
  · obtain ⟨t, past, hr, hmem, hin, hact⟩ := System.exists_run_of_play (M := vetoSystem sumEnv [[1]] 1)
      (s := start [[1]] 1)
      (P := fun t _ => haltDecision ∈ t.processed ∧ t.engine.active = false ∧
        (t.engine.processNetworkDecision sumEnv haltDecision (Vector.replicate 32 7)).1.active = true)
      (fun _ _ => True) rfl
      [fun _ => .processNetworkDecision haltDecision (Vector.replicate 32 7), signs [1]] (by decide +kernel)
    exact ⟨t, past, _, hr, hmem, hin, hact⟩

end WarmLogic.Governance
