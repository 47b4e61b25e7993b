/-
# WarmLogic.Ledger.LedgerRuns — penalties, replays and locks over whole runs of the ledger.

Three results over every sequence of calls. An account that authors nothing is locked, and loses balance, only
when a transaction naming it as source is submitted with a signature that does not verify: the ledger slashes
the NAMED source, once, by at most the configured burn. A signed transaction is applied at most as often as it
was submitted; nothing compares it with earlier ones, so not at most once. And locks are read when a
transaction is submitted and not when it is mined, so a locked account spends nothing exactly as long as locks
fall only on accounts without pending transactions.

`submitTransaction_cases` is the only place where a submission is opened: it names the five outcomes, and the lemmas
of "A submission, summed up" say of all of them at once what happens to locks, balances and pending transactions. The
run results are inductions over the calls with an invariant each.

* Penalties: `PenaltyInv`. Nothing of `a` is ever pending, since only what verifies is queued; so a block takes
  nothing from `a`, and only a forgery does. A second forgery finds the lock entry and does nothing, hence at most one
  burn.
* Replays: `Accounted`. Applied and pending together are no more than submitted: a submission adds one to both sides,
  a block moves pending ones to applied or drops them.
* Locks: `PendingFree`. Nothing pending belongs to a locked account, as long as no lock falls on an account that has
  something pending; and then a block spends nothing of a locked account.
-/
import WarmLogic.Ledger.LedgerSupply
import WarmLogic.Lib.Run

namespace WarmLogic.Ledger.RustReplicatedLedger

open WarmLogic.Lib SovereignStorage LawfulStorage

variable {σ : Type} [SovereignStorage σ]

/-! ## What a submission can do -/

/-- The outcomes of `submit_transaction`: ignored, punished as a forgery, punished for its size, and queued
with or without a burn (unless a lock entry stops it at the end). -/
inductive Submitted (env : LedgerEnv) (l : RustReplicatedLedger σ) (tx : Transaction) :
    RustReplicatedLedger σ → Prop
  | ignored (h : l.lockOf tx.source = some locked) : Submitted env l tx l
  | forged (v : SlashingVerdict) (h : l.lockOf tx.source ≠ some locked) (ha : authentic env tx = false) :
      Submitted env l tx (((l.burn tx.source l.slashingEngine.config.invalidSignatureBurn).lock
        tx.source).logSlash env tx.txId v)
  | oversized (v : SlashingVerdict) (h : l.lockOf tx.source ≠ some locked) (ha : authentic env tx = true)
      (hs : 1000000 < tx.amount) : Submitted env l tx ((l.lock tx.source).logSlash env tx.txId v)
  | burnt (h : l.lockOf tx.source ≠ some locked) (ha : authentic env tx = true) :
      Submitted env l tx ((l.burn tx.source 100).queueTx env tx)
  | plain (h : l.lockOf tx.source ≠ some locked) (ha : authentic env tx = true) :
      Submitted env l tx (l.queueTx env tx)

/-- **The inversion of a submission.** -/
theorem submitTransaction_cases (env : LedgerEnv) (now : UInt64) (l : RustReplicatedLedger σ) (tx : Transaction) :
    Submitted env l tx (l.submitTransaction env now tx) := by
  unfold submitTransaction
  by_cases hlock : l.lockOf tx.source = some locked
  · rw [if_pos hlock]
    exact .ignored hlock
  rw [if_neg hlock]
  cases ha : authentic env tx with
  | false => exact .forged _ hlock ha
  | true =>
      simp only [Bool.not_true, Bool.false_eq_true, if_false]
      unfold severity SlashingEngine.evaluateViolationRaw
      by_cases h1 : tx.amount > 1000000
      · rw [if_pos h1]
        exact .oversized _ hlock ha h1
      · rw [if_neg h1]
        by_cases h2 : tx.amount > 500000
        · rw [if_pos h2]
          exact .burnt hlock ha
        · rw [if_neg h2]
          exact .plain hlock ha

/-- What is queued: nothing behind a lock entry, else the transaction under its new id. -/
theorem queueTx_pendingTxs (env : LedgerEnv) (l : RustReplicatedLedger σ) (tx : Transaction) :
    (l.queueTx env tx).pendingTxs = l.pendingTxs ∨
      l.lockOf tx.source = none ∧ (l.queueTx env tx).pendingTxs =
        l.pendingTxs ++ [{ tx with txId := env.sha3 (utf8 (tx.payload env)) }] := by
  unfold queueTx
  split
  · exact .inl rfl
  · rename_i h
    exact .inr ⟨Option.not_isSome_iff_eq_none.mp h, rfl⟩

/-- Queueing does not write to the store. -/
theorem queueTx_store (env : LedgerEnv) (l : RustReplicatedLedger σ) (tx : Transaction) :
    (l.queueTx env tx).store = l.store := by
  unfold queueTx
  split <;> rfl

/-- Nor to the slashing rules. -/
theorem queueTx_slashingEngine (env : LedgerEnv) (l : RustReplicatedLedger σ) (tx : Transaction) :
    (l.queueTx env tx).slashingEngine = l.slashingEngine := by
  unfold queueTx
  split <;> rfl

/-- A penalty leaves what is pending. -/
theorem applyPenalty_pendingTxs (l : RustReplicatedLedger σ) (v : SlashingVerdict) :
    (l.applyPenalty v).pendingTxs = l.pendingTxs := by
  unfold applyPenalty
  split <;> rfl

/-- A submission leaves the slashing rules. -/
theorem Submitted.slashingEngine {env : LedgerEnv} {l l' : RustReplicatedLedger σ} {tx : Transaction}
    (h : Submitted env l tx l') : l'.slashingEngine = l.slashingEngine := by
  cases h with
  | ignored _ => rfl
  | forged v _ _ => rfl
  | oversized v _ _ _ => rfl
  | burnt _ _ => exact queueTx_slashingEngine env _ tx
  | plain _ _ => exact queueTx_slashingEngine env l tx

/-! ## Runs -/

/-- A call on the ledger, with the environment it meets where it matters. -/
inductive LedgerOp where
  | submitTransaction (now : UInt64) (tx : Transaction)
  | mineBlock (minerAddress : String)
  | applyPenalty (verdict : SlashingVerdict)

/-- A ledger with what its run did: the transactions submitted, and those a block applied to the balances. -/
structure Trace (σ : Type) where
  ledger : RustReplicatedLedger σ
  submitted : List Transaction
  applied : List Transaction

/-- The calls on a ledger, from any ledger with `start`; what is pending there counts as submitted. -/
def ledgerFrom (env : LedgerEnv) (start : RustReplicatedLedger σ → Prop) : System (Trace σ) LedgerOp where
  init s := start s.ledger ∧ s.submitted = s.ledger.pendingTxs ∧ s.applied = []
  step op s :=
    match op with
    | .submitTransaction now tx =>
        some { s with ledger := s.ledger.submitTransaction env now tx, submitted := tx :: s.submitted }
    | .mineBlock m =>
        some { s with ledger := (s.ledger.mineBlock env m).1, applied := s.ledger.minedTxs m ++ s.applied }
    | .applyPenalty verdict => some { s with ledger := s.ledger.applyPenalty verdict }

/-- The balance `get_all_balances` shows for an account, 0 where it shows none. -/
def balance (l : RustReplicatedLedger σ) (a : String) : UInt64 := balanceOf l.getAllBalances a

/-- What the pending transactions would pay an account. -/
def paidTo (txs : List Transaction) (a : String) : Nat :=
  ((txs.filter (·.target = a)).map (·.amount.toNat)).sum

/-- A call to `submit_transaction` or `mine_block`, and no submitted transaction that names `a` as its source
verifies under `a`. -/
def NothingVerifies (env : LedgerEnv) (a : String) : LedgerOp → Prop
  | .submitTransaction _ tx => tx.source = a → env.verifyRaw a (tx.payload env) tx.signature = false
  | .mineBlock _ => True
  | .applyPenalty _ => False

instance (env : LedgerEnv) (a : String) (op : LedgerOp) : Decidable (NothingVerifies env a op) :=
  match op with
  | .submitTransaction _ _ => inferInstanceAs (Decidable (_ → _))
  | .mineBlock _ => inferInstanceAs (Decidable True)
  | .applyPenalty _ => inferInstanceAs (Decidable False)

/-- What a block may pay `a` fits a `u64` with what it has. -/
def CreditsFit (a : String) (op : LedgerOp) (s : Trace σ) : Prop :=
  match op with
  | .mineBlock _ => (s.ledger.balance a).toNat + paidTo s.ledger.pendingTxs a < 2 ^ 64
  | _ => True

instance (a : String) (op : LedgerOp) (s : Trace σ) : Decidable (CreditsFit a op s) :=
  match op with
  | .submitTransaction _ _ => inferInstanceAs (Decidable True)
  | .mineBlock _ => inferInstanceAs (Decidable (_ < _))
  | .applyPenalty _ => inferInstanceAs (Decidable True)

/-- From `t` to a later point `s` of the run, `since` being what was submitted in between: nothing was taken from `a`,
or `a` was punished, once, while a transaction that named it was submitted. -/
def Spared (a : String) (s t : Trace σ) : Prop :=
  ∃ since, s.submitted = since ++ t.submitted ∧
    ((s.ledger.lockOf a = t.ledger.lockOf a ∧ (t.ledger.balance a).toNat ≤ (s.ledger.balance a).toNat) ∨
      ((∃ tx ∈ since, tx.source = a) ∧ t.ledger.lockOf a ≠ some locked ∧ s.ledger.lockOf a = some locked ∧
        (t.ledger.balance a).toNat ≤
          (s.ledger.balance a).toNat + s.ledger.slashingEngine.config.invalidSignatureBurn.toNat))

/-- From a point to itself nothing happened. -/
theorem Spared.refl (a : String) (s : Trace σ) : Spared a s s := ⟨[], rfl, .inl ⟨rfl, le_refl _⟩⟩

/-- A call that neither locks `a` nor takes from it, whatever it submits. -/
theorem Spared.keep {a : String} {s s' t : Trace σ} {new : List Transaction} (h : Spared a s t)
    (hlock : s'.ledger.lockOf a = s.ledger.lockOf a)
    (hbal : (s.ledger.balance a).toNat ≤ (s'.ledger.balance a).toNat)
    (hsub : s'.submitted = new ++ s.submitted)
    (heng : s'.ledger.slashingEngine = s.ledger.slashingEngine) : Spared a s' t := by
  obtain ⟨since, hsince, h⟩ := h
  refine ⟨new ++ since, by rw [hsub, hsince, List.append_assoc], ?_⟩
  rcases h with ⟨h1, h2⟩ | ⟨⟨tx, htx, hs⟩, h2, h3, h4⟩
  · exact .inl ⟨hlock.trans h1, h2.trans hbal⟩
  · refine .inr ⟨⟨tx, List.mem_append_right new htx, hs⟩, h2, hlock.trans h3, ?_⟩
    rw [heng]
    omega

/-! ## Locks and balances, call by call -/

variable [LawfulStorage σ]

/-- A lock shows at its account only. -/
theorem lockOf_lock (l : RustReplicatedLedger σ) (b a : String) :
    (l.lock b).lockOf a = if a = b then some locked else l.lockOf a := by
  rw [lockOf_eq, lockOf_eq, content_lock_locks]
  simp only [utf8_inj]

/-- A burn writes balances, not locks. -/
@[simp] theorem lockOf_burn (l : RustReplicatedLedger σ) (b : String) (x : UInt64) (a : String) :
    (l.burn b x).lockOf a = l.lockOf a := by
  rw [lockOf_eq, lockOf_eq, content_burn_locks]

/-- Nor does the log of a rejected transaction. -/
@[simp] theorem lockOf_logSlash (env : LedgerEnv) (l : RustReplicatedLedger σ) (txId : String) (v : SlashingVerdict)
    (a : String) : (l.logSlash env txId v).lockOf a = l.lockOf a := by
  rw [lockOf_eq, lockOf_eq, content_logSlash_locks]

/-- Nor does queueing. -/
@[simp] theorem lockOf_queueTx (env : LedgerEnv) (l : RustReplicatedLedger σ) (tx : Transaction) (a : String) :
    (l.queueTx env tx).lockOf a = l.lockOf a := by
  rw [lockOf_eq, lockOf_eq, queueTx_store]

/-- Nor does a block. -/
@[simp] theorem lockOf_mineBlock (env : LedgerEnv) (l : RustReplicatedLedger σ) (m a : String) :
    (l.mineBlock env m).1.lockOf a = l.lockOf a := by
  by_cases h : l.Mines m
  · rw [mineBlock_of_mines h, lockOf_eq, lockOf_eq, content_minedBatch_locks]
  · rw [mineBlock_of_not_mines h]

/-- A balance depends on the tree `balances` alone. -/
theorem balance_congr {l l' : RustReplicatedLedger σ} (hwf : l.WellFormed) (hwf' : l'.WellFormed) {a : String}
    (h : content l'.store "balances" (utf8 a) = content l.store "balances" (utf8 a)) :
    l'.balance a = l.balance a := by
  unfold balance balanceOf
  rw [getAllBalances_congr hwf hwf' h]

/-- A lock leaves the balances. -/
theorem balance_lock {l : RustReplicatedLedger σ} (hwf : l.WellFormed) (b a : String) :
    (l.lock b).balance a = l.balance a :=
  balance_congr hwf (hwf.lock b) (by rw [content_lock_balances])

/-- A log entry leaves the balances. -/
theorem balance_logSlash {l : RustReplicatedLedger σ} (hwf : l.WellFormed) (env : LedgerEnv) (txId : String)
    (v : SlashingVerdict) (a : String) : (l.logSlash env txId v).balance a = l.balance a :=
  balance_congr hwf (hwf.logSlash env txId v) (by rw [content_logSlash_balances])

/-- Queueing leaves the balances. -/
theorem balance_queueTx {l : RustReplicatedLedger σ} (hwf : l.WellFormed) (env : LedgerEnv) (tx : Transaction)
    (a : String) : (l.queueTx env tx).balance a = l.balance a :=
  balance_congr hwf (hwf.queueTx env tx) (by rw [queueTx_store])

/-- A burn is one account's. -/
theorem balance_burn_other {l : RustReplicatedLedger σ} (hwf : l.WellFormed) {b a : String} (hne : a ≠ b)
    (x : UInt64) : (l.burn b x).balance a = l.balance a := by
  refine balance_congr hwf (hwf.burn b x) ?_
  rw [content_burn_balances, if_neg (fun h => hne (utf8_inj.mp h))]

/-- An address the backend does not list shows nothing. -/
theorem balance_of_not_listed {l : RustReplicatedLedger σ} (hwf : l.WellFormed) {a : String}
    (h : ¬ Listed σ a) : l.balance a = 0 := by
  unfold balance balanceOf
  rw [getAllBalances_of_not_listed hwf h, Option.getD_none]

/-- A burn takes no more than its amount. -/
theorem balance_le_burn {l : RustReplicatedLedger σ} (hwf : l.WellFormed) (b : String) (x : UInt64) :
    (l.balance b).toNat ≤ ((l.burn b x).balance b).toNat + x.toNat := by
  by_cases hb : Listed σ b
  · have hnew : (l.burn b x).getAllBalances[b]? = some (l.burntBalance b x) := by
      rw [getAllBalances_eq_some (hwf.burn b x), content_burn_balances, if_pos rfl]
      exact ⟨hb, rfl⟩
    have hbal : (l.burn b x).balance b = l.burntBalance b x := by
      unfold balance balanceOf
      rw [hnew, Option.getD_some]
    rw [hbal]
    unfold burntBalance balance
    split
    · rename_i hle
      rw [UInt64.toNat_sub_of_le _ _ hle]
      omega
    · rename_i hlt
      have := UInt64.lt_iff_toNat_lt.mp (UInt64.not_le.mp hlt)
      omega
  · rw [balance_of_not_listed hwf hb]
    exact Nat.zero_le _

/-- The loop takes nothing from an account that sends nothing, as long as its credits do not wrap. -/
theorem balanceOf_le_applyPending {b : Balances} {txs : List Transaction} {a : String}
    (hsrc : ∀ tx ∈ txs, tx.source ≠ a) (hfit : (balanceOf b a).toNat + paidTo txs a < 2 ^ 64) :
    (balanceOf b a).toNat ≤ (balanceOf (applyPending b txs).1 a).toNat := by
  induction txs generalizing b with
  | nil => exact le_refl _
  | cons tx txs ih =>
      obtain ⟨hs, hsrc⟩ := List.forall_mem_cons.mp hsrc
      have hpaid : paidTo (tx :: txs) a = (if tx.target = a then tx.amount.toNat else 0) + paidTo txs a := by
        unfold paidTo
        by_cases ht : tx.target = a <;> simp [ht]
      unfold applyPending
      cases hb : applyTx b tx with
      | none => exact ih hsrc (by omega)
      | some b' =>
          have hnew := balanceOf_applyTx hb a
          rw [balanceOf_afterDebit_other hs] at hnew
          by_cases ht : tx.target = a
          · -- the credit fits
            rw [if_pos ht] at hnew hpaid
            have hadd : (balanceOf b' a).toNat = (balanceOf b a).toNat + tx.amount.toNat := by
              rw [hnew, UInt64.toNat_add]
              omega
            have hih := ih hsrc (show (balanceOf b' a).toNat + paidTo txs a < 2 ^ 64 by omega)
            dsimp only
            omega
          · rw [if_neg ht] at hnew hpaid
            have hih := ih hsrc (show (balanceOf b' a).toNat + paidTo txs a < 2 ^ 64 by rw [hnew]; omega)
            rw [hnew] at hih
            exact hih

/-- A block takes nothing from an account that has nothing pending, as long as its credits do not wrap. -/
theorem balance_le_mineBlock {l : RustReplicatedLedger σ} (hwf : l.WellFormed) {a : String}
    (hsrc : ∀ tx ∈ l.pendingTxs, tx.source ≠ a) (hfit : (l.balance a).toNat + paidTo l.pendingTxs a < 2 ^ 64)
    (env : LedgerEnv) (m : String) : (l.balance a).toNat ≤ ((l.mineBlock env m).1.balance a).toNat := by
  by_cases hm : l.Mines m
  · by_cases ha : Listed σ a
    · have hbal : (l.mineBlock env m).1.balance a = balanceOf l.workingBalances a := by
        unfold balance
        rw [balanceOf, getAllBalances_mineBlock hwf hm, if_pos ha, balanceOf]
      rw [hbal]
      exact balanceOf_le_applyPending hsrc hfit
    · rw [balance_of_not_listed hwf ha]
      exact Nat.zero_le _
  · rw [mineBlock_of_not_mines hm]

/-! ## A submission, summed up -/

section
variable {env : LedgerEnv} {l l' : RustReplicatedLedger σ} {tx : Transaction}

/-- A submission locks no one but its source, and only for a forgery or for its size. -/
theorem Submitted.lockOf (h : Submitted env l tx l') (a : String) :
    l'.lockOf a = l.lockOf a ∨
      (a = tx.source ∧ l.lockOf a ≠ some locked ∧ (authentic env tx = false ∨ 1000000 < tx.amount) ∧
        l'.lockOf a = some locked) := by
  cases h with
  | ignored _ => exact .inl rfl
  | forged v h ha =>
      by_cases hs : a = tx.source
      · subst hs
        refine .inr ⟨rfl, h, .inl ha, ?_⟩
        rw [lockOf_logSlash, lockOf_lock, if_pos rfl]
      · left
        rw [lockOf_logSlash, lockOf_lock, if_neg hs, lockOf_burn]
  | oversized v h ha hsize =>
      by_cases hs : a = tx.source
      · subst hs
        refine .inr ⟨rfl, h, .inr hsize, ?_⟩
        rw [lockOf_logSlash, lockOf_lock, if_pos rfl]
      · left
        rw [lockOf_logSlash, lockOf_lock, if_neg hs]
  | burnt _ _ =>
      left
      rw [lockOf_queueTx, lockOf_burn]
  | plain _ _ =>
      left
      rw [lockOf_queueTx]

/-- It touches no balance but its source's. -/
theorem Submitted.balance_other (h : Submitted env l tx l') (hwf : l.WellFormed) {a : String}
    (hne : a ≠ tx.source) : l'.balance a = l.balance a := by
  cases h with
  | ignored _ => rfl
  | forged v _ _ =>
      rw [balance_logSlash ((hwf.burn _ _).lock _), balance_lock (hwf.burn _ _), balance_burn_other hwf hne]
  | oversized v _ _ _ => rw [balance_logSlash (hwf.lock _), balance_lock hwf]
  | burnt _ _ => rw [balance_queueTx (hwf.burn _ _), balance_burn_other hwf hne]
  | plain _ _ => rw [balance_queueTx hwf]

/-- It queues nothing, or the transaction under its new id; then its source had no lock entry, and no lock
fell. -/
theorem Submitted.pending (h : Submitted env l tx l') :
    l'.pendingTxs = l.pendingTxs ∨
      (l.lockOf tx.source = none ∧ (∀ a, l'.lockOf a = l.lockOf a) ∧
        l'.pendingTxs = l.pendingTxs ++ [{ tx with txId := env.sha3 (utf8 (tx.payload env)) }]) := by
  cases h with
  | ignored _ => exact .inl rfl
  | forged v _ _ => exact .inl rfl
  | oversized v _ _ _ => exact .inl rfl
  | burnt _ _ =>
      rcases queueTx_pendingTxs env (l.burn tx.source 100) tx with h | ⟨hlock, h⟩
      · exact .inl h
      · refine .inr ⟨by rw [← hlock, lockOf_burn], fun a => by rw [lockOf_queueTx, lockOf_burn], h⟩
  | plain _ _ =>
      rcases queueTx_pendingTxs env l tx with h | ⟨hlock, h⟩
      · exact .inl h
      · exact .inr ⟨hlock, fun a => lockOf_queueTx env l tx a, h⟩

/-- A new pending transaction has the source of the submission. -/
theorem Submitted.mem_pending (h : Submitted env l tx l') {x : Transaction} (hx : x ∈ l'.pendingTxs) :
    x ∈ l.pendingTxs ∨ x.source = tx.source := by
  rcases h.pending with hp | ⟨-, -, hp⟩
  · rw [hp] at hx
    exact .inl hx
  · rw [hp] at hx
    rcases List.mem_append.mp hx with hx | hx
    · exact .inl hx
    · rw [List.mem_singleton.mp hx]
      exact .inr rfl

/-- A forgery locks the named source and burns no more than configured. -/
theorem Submitted.of_not_authentic (h : Submitted env l tx l') (hwf : l.WellFormed)
    (ha : authentic env tx = false) :
    (l.lockOf tx.source = some locked ∧ l' = l) ∨
      (l.lockOf tx.source ≠ some locked ∧ l'.lockOf tx.source = some locked ∧ l'.pendingTxs = l.pendingTxs ∧
        (l.balance tx.source).toNat ≤
          (l'.balance tx.source).toNat + l.slashingEngine.config.invalidSignatureBurn.toNat) := by
  cases h with
  | ignored h => exact .inl ⟨h, rfl⟩
  | forged v h _ =>
      refine .inr ⟨h, ?_, rfl, ?_⟩
      · rw [lockOf_logSlash, lockOf_lock, if_pos rfl]
      · rw [balance_logSlash ((hwf.burn _ _).lock _), balance_lock (hwf.burn _ _)]
        exact balance_le_burn hwf _ _
  | oversized v _ ha' _ => exact absurd (ha.symm.trans ha') Bool.false_ne_true
  | burnt _ ha' => exact absurd (ha.symm.trans ha') Bool.false_ne_true
  | plain _ ha' => exact absurd (ha.symm.trans ha') Bool.false_ne_true

end

/-! ## Penalties -/

/-- **The invariant behind the penalties**: the balances have their shape, nothing pending names `a`, and `a` was
spared between any earlier point of the run and now. The second part keeps blocks from touching `a`, the lock entry of
the first punishment keeps a second one away. -/
structure PenaltyInv (a : String) (s : Trace σ) (h : List (Trace σ)) : Prop where
  wf : s.ledger.WellFormed
  src : ∀ tx ∈ s.ledger.pendingTxs, tx.source ≠ a
  spared : ∀ t ∈ h, Spared a s t

/-- A submission keeps it. A forgery that names `a` is where the one punishment can happen; any other is about someone
else. -/
theorem PenaltyInv.submit {a : String} {s : Trace σ} {past : List (Trace σ)} (hi : PenaltyInv a s (s :: past))
    (hgen : a ≠ "GENESIS") {env : LedgerEnv} {now : UInt64} {tx : Transaction}
    (hok : tx.source = a → env.verifyRaw a (tx.payload env) tx.signature = false) (s' : Trace σ)
    (hs' : s' = { s with ledger := s.ledger.submitTransaction env now tx, submitted := tx :: s.submitted }) :
    PenaltyInv a s' (s' :: s :: past) := by
  have hsub := submitTransaction_cases env now s.ledger tx
  have hled : s'.ledger = s.ledger.submitTransaction env now tx := by rw [hs']
  rw [← hled] at hsub
  have hnew : s'.submitted = [tx] ++ s.submitted := by rw [hs', List.singleton_append]
  have hwf : s'.ledger.WellFormed := by
    rw [hled]
    exact hi.wf.submitTransaction env now tx
  by_cases hsrc : tx.source = a
  · -- a forgery in the name of `a`
    have hauth : authentic env tx = false := by
      unfold authentic
      rw [hsrc, hok hsrc, Bool.or_false]
      exact beq_false_of_ne hgen
    have hcase := hsub.of_not_authentic hi.wf hauth
    rw [hsrc] at hcase
    rcases hcase with ⟨-, heq⟩ | ⟨hfree, hlock, hpend, hbal⟩
    · refine ⟨hwf, by rw [heq]; exact hi.src, ?_⟩
      refine List.forall_mem_cons.mpr ⟨.refl a s', fun t ht => ?_⟩
      exact (hi.spared t ht).keep (by rw [heq]) (by rw [heq]) hnew (by rw [heq])
    · refine ⟨hwf, by rw [hpend]; exact hi.src, ?_⟩
      refine List.forall_mem_cons.mpr ⟨.refl a s', fun t ht => ?_⟩
      obtain ⟨since, hsince, ⟨h1, h2⟩ | ⟨-, -, h3, -⟩⟩ := hi.spared t ht
      · refine ⟨tx :: since, by rw [hnew, hsince, List.singleton_append, List.cons_append], .inr ?_⟩
        refine ⟨⟨tx, List.mem_cons_self, hsrc⟩, by rw [← h1]; exact hfree, hlock, ?_⟩
        rw [hsub.slashingEngine]
        omega
      · exact absurd h3 hfree
  · have hne : a ≠ tx.source := fun h => hsrc h.symm
    have hlock : s'.ledger.lockOf a = s.ledger.lockOf a := by
      rcases hsub.lockOf a with h | ⟨h, -⟩
      · exact h
      · exact absurd h hne
    refine ⟨hwf, ?_, ?_⟩
    · intro x hx
      rcases hsub.mem_pending hx with hx | hx
      · exact hi.src x hx
      · rw [hx]
        exact hsrc
    · refine List.forall_mem_cons.mpr ⟨.refl a s', fun t ht => ?_⟩
      exact (hi.spared t ht).keep hlock (by rw [hsub.balance_other hi.wf hne]) hnew hsub.slashingEngine

/-- **No penalty without a forgery.** In every run in which nothing that names `a` verifies under `a` and no
credit of `a` wraps, from any well-formed ledger without a pending transaction of `a`: between any two points
`a` keeps its lock state and loses nothing, or a transaction naming `a` was submitted in between, and `a`, unlocked
before, is locked and has lost at most one burn. -/
theorem penalty_only_for_forgery (env : LedgerEnv) (a : String) (hgen : a ≠ "GENESIS") (s : Trace σ)
    (past : List (Trace σ))
    (hr : (ledgerFrom env fun l : RustReplicatedLedger σ =>
      l.WellFormed ∧ ∀ tx ∈ l.pendingTxs, tx.source ≠ a).Run
        (fun op s => NothingVerifies env a op ∧ CreditsFit a op s) (s :: past)) :
    ∀ t ∈ past, Spared a s t := by
  have hinv : PenaltyInv a s (s :: past) := by
    refine System.Run.invariant_head (P := PenaltyInv a) ?_ ?_ hr
    · rintro s ⟨⟨hwf, hsrc⟩, -, -⟩
      refine ⟨hwf, hsrc, ?_⟩
      intro t ht
      rw [List.mem_singleton.mp ht]
      exact .refl a s
    · intro s past op s' _ hi hok hstep
      cases op with
      | submitTransaction now tx => exact hi.submit hgen hok.1 s' (Option.some.inj hstep).symm
      | mineBlock m =>
          cases hstep
          refine ⟨hi.wf.mineBlock env m, ?_, ?_⟩
          · intro x hx
            dsimp only at hx
            rw [mineBlock_pendingTxs] at hx
            split at hx
            · exact absurd hx List.not_mem_nil
            · exact hi.src x hx
          · refine List.forall_mem_cons.mpr ⟨.refl a _, fun t ht => ?_⟩
            exact (hi.spared t ht).keep (lockOf_mineBlock env s.ledger m a)
              (balance_le_mineBlock hi.wf hi.src hok.2 env m) (List.nil_append _).symm (mineBlock_slashingEngine env s.ledger m)
      | applyPenalty verdict => exact absurd hok.1 id
  exact fun t ht => hinv.spared t (List.mem_cons_of_mem _ ht)

/-- A fresh ledger in memory, before any call. -/
def freshTrace : Trace MemoryStore := ⟨new MemoryStore.new, [], []⟩

/-- A payment in Alice's name that she did not sign. -/
def forgedTx : Transaction := { signedTx "alice" "mallory" 100 10 with signature := "forged" }

/-- GENESIS pays Alice 6000 and she is named in a forgery: she is locked and loses 5000. -/
def forgeryScript : List (Trace MemoryStore → LedgerOp) :=
  [fun _ => .submitTransaction 0 (signedTx "GENESIS" "alice" 6000 0), fun _ => .mineBlock "GENESIS",
    fun _ => .submitTransaction 0 forgedTx]

/-- A fresh ledger in memory is a start of these runs. -/
theorem freshTrace_init (a : String) : (ledgerFrom scriptEnv fun l : RustReplicatedLedger MemoryStore =>
    l.WellFormed ∧ ∀ tx ∈ l.pendingTxs, tx.source ≠ a).init freshTrace :=
  ⟨⟨wellFormed_new, fun _ h => absurd h List.not_mem_nil⟩, rfl, rfl⟩

theorem penalty_only_for_forgery_alice : ∃ (s : Trace MemoryStore) (past : List (Trace MemoryStore)),
    (s.ledger.lockOf "alice" = some locked ∧ s.ledger.balance "alice" = 1000) ∧
      ∀ t ∈ past, Spared "alice" s t := by
  obtain ⟨s, past, hr, h⟩ := System.exists_run_of_play
    (fun op s => NothingVerifies scriptEnv "alice" op ∧ CreditsFit "alice" op s)
    (P := fun s _ => s.ledger.lockOf "alice" = some locked ∧ s.ledger.balance "alice" = 1000)
    (freshTrace_init "alice") forgeryScript (by decide +kernel)
  exact ⟨s, past, h, penalty_only_for_forgery scriptEnv "alice" (by decide) s past hr⟩

/-- Alice signed nothing, and is locked and 5000 poorer. -/
theorem slashed_without_authorship : ¬ ∀ (env : LedgerEnv) (a : String) (s : Trace MemoryStore)
    (past : List (Trace MemoryStore)),
    (ledgerFrom env fun l : RustReplicatedLedger MemoryStore =>
      l.WellFormed ∧ ∀ tx ∈ l.pendingTxs, tx.source ≠ a).Run (fun op _ => NothingVerifies env a op) (s :: past) →
    ∀ t ∈ past, (t.ledger.lockOf a = none → s.ledger.lockOf a = none) ∧
      (t.ledger.balance a).toNat ≤ (s.ledger.balance a).toNat := by
  intro hall
  obtain ⟨s, past, hr, h⟩ := System.exists_run_of_play
    (fun op _ => NothingVerifies scriptEnv "alice" op)
    (P := fun s h => ¬ ∀ t ∈ h.tail, (t.ledger.lockOf "alice" = none → s.ledger.lockOf "alice" = none) ∧
      (t.ledger.balance "alice").toNat ≤ (s.ledger.balance "alice").toNat)
    (freshTrace_init "alice") forgeryScript (by decide +kernel)
  exact h (hall scriptEnv "alice" s past hr)

/-! ## Replays -/

/-- The same transaction, whatever id it carries. -/
def SameSigned (tx x : Transaction) : Prop := { x with txId := tx.txId } = tx

instance (tx x : Transaction) : Decidable (SameSigned tx x) := inferInstanceAs (Decidable (_ = _))

/-- The loop includes pending transactions only, in their order. -/
theorem applyPending_sublist (b : Balances) (txs : List Transaction) : (applyPending b txs).2.Sublist txs := by
  induction txs generalizing b with
  | nil => exact List.Sublist.refl []
  | cons tx txs ih =>
      unfold applyPending
      cases applyTx b tx with
      | none => exact (ih b).cons tx
      | some b' => exact (ih b').cons_cons tx

/-- What is applied or pending was submitted, as often. -/
def Accounted (tx : Transaction) (s : Trace σ) : Prop :=
  s.applied.countP (SameSigned tx ·) + s.ledger.pendingTxs.countP (SameSigned tx ·) ≤
    s.submitted.countP (SameSigned tx ·)

/-- **A transaction is applied at most as often as it was submitted**, in every run of the ledger. Each submission
queues one transaction at most, and a block takes each out of the queue once. -/
theorem applied_le_submitted (env : LedgerEnv) (tx : Transaction) (s : Trace σ) (past : List (Trace σ))
    (hr : (ledgerFrom env fun _ : RustReplicatedLedger σ => True).Run (fun _ _ => True) (s :: past)) :
    s.applied.countP (SameSigned tx ·) ≤ s.submitted.countP (SameSigned tx ·) := by
  have hinv : Accounted tx s := by
    refine System.Run.invariant_head (P := fun s _ => Accounted tx s) ?_ ?_ hr
    · rintro s ⟨-, hsub, happ⟩
      unfold Accounted
      rw [hsub, happ, List.countP_nil, Nat.zero_add]
    · intro s past op s' _ hi _ hstep
      unfold Accounted at hi ⊢
      cases op with
      | submitTransaction now x =>
          cases hstep
          dsimp only
          rw [List.countP_cons]
          rcases (submitTransaction_cases env now s.ledger x).pending with hp | ⟨-, -, hp⟩
          · rw [hp]
            omega
          · -- the queued transaction differs in its id only
            have hsame : SameSigned tx { x with txId := env.sha3 (utf8 (x.payload env)) } ↔ SameSigned tx x := Iff.rfl
            rw [hp, List.countP_append, List.countP_singleton]
            simp only [hsame]
            omega
      | mineBlock m =>
          cases hstep
          dsimp only
          rw [List.countP_append, mineBlock_pendingTxs]
          by_cases hm : s.ledger.Mines m
          · have hle : (s.ledger.minedTxs m).countP (SameSigned tx ·) ≤
                s.ledger.pendingTxs.countP (SameSigned tx ·) := by
              rw [minedTxs, if_pos hm]
              exact (applyPending_sublist _ _).countP_le
            rw [if_pos hm, List.countP_nil]
            omega
          · rw [if_neg hm, minedTxs, if_neg hm, List.countP_nil]
            omega
      | applyPenalty v =>
          cases hstep
          dsimp only
          rw [applyPenalty_pendingTxs]
          exact hi
  unfold Accounted at hinv
  omega

/-- Alice's payment to Bob, submitted twice before a block and once after it. -/
def replayScript : List (Trace MemoryStore → LedgerOp) :=
  [fun _ => .submitTransaction 0 (signedTx "GENESIS" "alice" 6000 0), fun _ => .mineBlock "GENESIS",
    fun _ => .submitTransaction 0 (signedTx "alice" "bob" 100 10),
    fun _ => .submitTransaction 0 (signedTx "alice" "bob" 100 10), fun _ => .mineBlock "miner",
    fun _ => .submitTransaction 0 (signedTx "alice" "bob" 100 10), fun _ => .mineBlock "miner"]

theorem applied_le_submitted_replay : ∃ (s : Trace MemoryStore) (past : List (Trace MemoryStore)),
    (ledgerFrom scriptEnv fun _ : RustReplicatedLedger MemoryStore => True).Run (fun _ _ => True) (s :: past) ∧
      s.submitted.countP (SameSigned (signedTx "alice" "bob" 100 10) ·) = 3 ∧
      s.applied.countP (SameSigned (signedTx "alice" "bob" 100 10) ·) ≤
        s.submitted.countP (SameSigned (signedTx "alice" "bob" 100 10) ·) := by
  obtain ⟨s, past, hr, h⟩ := System.exists_run_of_play
    (M := ledgerFrom scriptEnv fun _ : RustReplicatedLedger MemoryStore => True) (fun _ _ => True)
    (P := fun s _ => s.submitted.countP (SameSigned (signedTx "alice" "bob" 100 10) ·) = 3)
    (s := freshTrace) ⟨trivial, rfl, rfl⟩ replayScript (by decide +kernel)
  exact ⟨s, past, hr, h, applied_le_submitted scriptEnv _ s past hr⟩

/-- One signed payment, submitted three times, is applied three times. -/
theorem replayed_payment_applied : ¬ ∀ (env : LedgerEnv) (tx : Transaction) (s : Trace MemoryStore)
    (past : List (Trace MemoryStore)), tx.source ≠ "GENESIS" →
    (ledgerFrom env fun _ : RustReplicatedLedger MemoryStore => True).Run (fun _ _ => True) (s :: past) →
    s.applied.countP (SameSigned tx ·) ≤ 1 := by
  intro hall
  obtain ⟨s, past, hr, h⟩ := System.exists_run_of_play
    (M := ledgerFrom scriptEnv fun _ : RustReplicatedLedger MemoryStore => True) (fun _ _ => True)
    (P := fun s _ => s.applied.countP (SameSigned (signedTx "alice" "bob" 100 10) ·) = 3)
    (s := freshTrace) ⟨trivial, rfl, rfl⟩ replayScript (by decide +kernel)
  have hle := hall scriptEnv (signedTx "alice" "bob" 100 10) s past (by decide +kernel) hr
  omega

/-! ## Locks -/

/-- The account a call locks. -/
def placesLock (env : LedgerEnv) (l : RustReplicatedLedger σ) : LedgerOp → Option String
  | .submitTransaction _ tx =>
      if l.lockOf tx.source ≠ some locked ∧ (authentic env tx = false ∨ 1000000 < tx.amount) then some tx.source
      else none
  | .mineBlock _ => none
  | .applyPenalty verdict =>
      match verdict.penalty with
      | .stateLock => some verdict.actor
      | .totalIsolation _ => some verdict.actor
      | _ => none

/-- A lock falls only on an account without a pending transaction. -/
def LocksIdle (env : LedgerEnv) (op : LedgerOp) (s : Trace σ) : Prop :=
  ∀ a ∈ placesLock env s.ledger op, ∀ tx ∈ s.ledger.pendingTxs, tx.source ≠ a

instance (env : LedgerEnv) (op : LedgerOp) (s : Trace σ) : Decidable (LocksIdle env op s) :=
  inferInstanceAs (Decidable (∀ a ∈ placesLock env s.ledger op, _))

/-- No source of a pending transaction has a lock entry. -/
def PendingFree (l : RustReplicatedLedger σ) : Prop := ∀ tx ∈ l.pendingTxs, l.lockOf tx.source = none

/-- A penalty locks its actor or no one. -/
theorem lockOf_applyPenalty (l : RustReplicatedLedger σ) (v : SlashingVerdict) (a : String) :
    (l.applyPenalty v).lockOf a = l.lockOf a ∨
      (a = v.actor ∧ ∀ env, placesLock env l (.applyPenalty v) = some a) := by
  unfold applyPenalty
  cases hv : v.penalty with
  | stateLock =>
      by_cases h : a = v.actor
      · exact .inr ⟨h, fun _ => by simp only [placesLock, hv, h]⟩
      · left
        dsimp only
        rw [lockOf_lock, if_neg h]
  | totalIsolation x =>
      by_cases h : a = v.actor
      · exact .inr ⟨h, fun _ => by simp only [placesLock, hv, h]⟩
      · left
        dsimp only
        rw [lockOf_lock, if_neg h, lockOf_burn]
  | economicBurn x => exact .inl (lockOf_burn l _ _ a)
  | identityIsolation => exact .inl rfl
  | reputationSlash x => exact .inl rfl
  | temporarySuspension x => exact .inl rfl

/-- **A submission keeps what is pending free of locks**: what is queued has no lock entry, and a lock it places falls
on no one with something pending. -/
theorem PendingFree.submit {l : RustReplicatedLedger σ} (h : l.PendingFree) {env : LedgerEnv} {now : UInt64}
    {tx : Transaction} (hok : ∀ a ∈ placesLock env l (.submitTransaction now tx), ∀ x ∈ l.pendingTxs, x.source ≠ a) :
    (l.submitTransaction env now tx).PendingFree := by
  have hsub := submitTransaction_cases env now l tx
  intro x hx
  rcases hsub.pending with hp | ⟨hfree, hlocks, hp⟩
  · -- nothing new is pending, so a new lock could only be on a source of an old one
    rw [hp] at hx
    rcases hsub.lockOf x.source with hl | ⟨hs, hne, hwhy, -⟩
    · rw [hl]
      exact h x hx
    · rw [hs] at hne
      have hplaced : placesLock env l (.submitTransaction now tx) = some tx.source := if_pos ⟨hne, hwhy⟩
      exact absurd hs (hok tx.source hplaced x hx)
  · rw [hlocks]
    rw [hp] at hx
    rcases List.mem_append.mp hx with hx | hx
    · exact h x hx
    · rw [List.mem_singleton.mp hx]
      exact hfree

/-- **Locked accounts spend nothing**, in every run whose locks fall only on accounts without pending
transactions: no block, mined by anyone in any state of the run, takes in a transaction (and with it the
debit) of a source with a lock entry. -/
theorem locked_never_spends (env : LedgerEnv) (s : Trace σ) (past : List (Trace σ))
    (hr : (ledgerFrom env fun l : RustReplicatedLedger σ => l.pendingTxs = []).Run (LocksIdle env) (s :: past)) :
    ∀ m, ∀ tx ∈ s.ledger.minedTxs m, s.ledger.lockOf tx.source = none := by
  have hinv : s.ledger.PendingFree := by
    refine System.Run.invariant_head (P := fun s _ => s.ledger.PendingFree) ?_ ?_ hr
    · rintro s ⟨hnil, -, -⟩ tx htx
      rw [hnil] at htx
      exact absurd htx List.not_mem_nil
    · intro s past op s' _ hi hok hstep
      cases op with
      | submitTransaction now tx =>
          cases hstep
          exact hi.submit hok
      | mineBlock m =>
          cases hstep
          intro tx htx
          dsimp only at htx ⊢
          rw [lockOf_mineBlock]
          rw [mineBlock_pendingTxs] at htx
          split at htx
          · exact absurd htx List.not_mem_nil
          · exact hi tx htx
      | applyPenalty v =>
          cases hstep
          intro tx htx
          dsimp only at htx ⊢
          rw [applyPenalty_pendingTxs] at htx
          rcases lockOf_applyPenalty s.ledger v tx.source with hl | ⟨-, hplaced⟩
          · rw [hl]
            exact hi tx htx
          · exact absurd rfl (hok tx.source (hplaced env) tx htx)
  intro m tx htx
  unfold minedTxs at htx
  split at htx
  · exact hinv tx ((applyPending_sublist _ _).subset htx)
  · exact absurd htx List.not_mem_nil

/-- Alice is funded and pays Bob. -/
def paymentScript : List (Trace MemoryStore → LedgerOp) :=
  [fun _ => .submitTransaction 0 (signedTx "GENESIS" "alice" 6000 0), fun _ => .mineBlock "GENESIS",
    fun _ => .submitTransaction 0 (signedTx "alice" "bob" 100 10)]

/-- Alice tries to send two million, which locks her. -/
def lockAlice : Trace MemoryStore → LedgerOp := fun _ =>
  .submitTransaction 0 (signedTx "alice" "bob" 2000000 10)

/-- Her payment is mined before the lock; Bob's next one may then spend. -/
theorem locked_never_spends_bob : ∃ (s : Trace MemoryStore) (past : List (Trace MemoryStore)),
    (ledgerFrom scriptEnv fun l : RustReplicatedLedger MemoryStore => l.pendingTxs = []).Run
      (LocksIdle scriptEnv) (s :: past) ∧
    (s.ledger.lockOf "alice" = some locked ∧ (s.ledger.minedTxs "miner").map (·.source) = ["bob"]) ∧
      ∀ m, ∀ tx ∈ s.ledger.minedTxs m, s.ledger.lockOf tx.source = none := by
  obtain ⟨s, past, hr, h⟩ := System.exists_run_of_play
    (M := ledgerFrom scriptEnv fun l : RustReplicatedLedger MemoryStore => l.pendingTxs = []) (LocksIdle scriptEnv)
    (P := fun s _ => s.ledger.lockOf "alice" = some locked ∧ (s.ledger.minedTxs "miner").map (·.source) = ["bob"])
    (s := freshTrace) ⟨rfl, rfl, rfl⟩
    (paymentScript ++ [fun _ => .mineBlock "miner", lockAlice,
      fun _ => .submitTransaction 0 (signedTx "bob" "carol" 10 1)]) (by decide +kernel)
  exact ⟨s, past, hr, h, locked_never_spends scriptEnv s past hr⟩

/-- Locked between submission and block, Alice still pays Bob. -/
theorem locked_account_spends : ¬ ∀ (env : LedgerEnv) (s : Trace MemoryStore) (past : List (Trace MemoryStore)),
    (ledgerFrom env fun l : RustReplicatedLedger MemoryStore => l.pendingTxs = []).Run (fun _ _ => True) (s :: past) →
    ∀ m, ∀ tx ∈ s.ledger.minedTxs m, s.ledger.lockOf tx.source = none := by
  intro hall
  obtain ⟨s, past, hr, h⟩ := System.exists_run_of_play
    (M := ledgerFrom scriptEnv fun l : RustReplicatedLedger MemoryStore => l.pendingTxs = []) (fun _ _ => True)
    (P := fun s _ => ¬ ∀ tx ∈ s.ledger.minedTxs "miner", s.ledger.lockOf tx.source = none)
    (s := freshTrace) ⟨rfl, rfl, rfl⟩ (paymentScript ++ [lockAlice]) (by decide +kernel)
  exact h (hall scriptEnv s past hr "miner")

end WarmLogic.Ledger.RustReplicatedLedger
