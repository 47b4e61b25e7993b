/-
# WarmLogic.Ledger.LedgerChain — the blocks of a run: what they commit to, and the chain they form.

A run of `submit_transaction` and `mine_block` from an empty store, with a record of every block: the ledger it was
mined on, its miner, the block itself and the ledger after it.

A block carries the state root of the balances BEFORE its own transactions, so it commits to the state it produced
only where these transactions cancel out: every address they write was there before and gets what it pays. That it takes
no less is because addresses are only ever added, and a text with more entries has more separators, however the
addresses are spelled (`stateText_eq_iff_of_grows`). The hash covers the parent, the miner and the index, so two blocks
of one parent have different hashes exactly if they have different miners (`block_commitment_iff`).

The blocks form one chain back to the all-zero hash as long as Borsh takes each of them (`chain_of_serialised`).
`mine_block` stores an empty entry for a block that Borsh refuses, and the next block starts a new chain.
-/
import WarmLogic.Ledger.BlockStore
import WarmLogic.Ledger.StateRoot

namespace WarmLogic.Ledger.RustReplicatedLedger

open WarmLogic.Lib SovereignStorage LawfulStorage
open WarmLogic.Consensus (zeroHash)

variable {σ τ : Type} [SovereignStorage σ] [LawfulStorage σ] [SovereignStorage τ] [LawfulStorage τ]

/-! ## Runs -/

/-- The block `mine_block` makes for this miner. -/
def minedBlock (env : LedgerEnv) (l : RustReplicatedLedger σ) (m : String) : Block :=
  l.nextBlock env m ((l.minedTxs m).map (·.txId))

/-- A block of a run, with the ledger it was mined on and the ledger after it. -/
structure Mined (σ : Type) where
  before : RustReplicatedLedger σ
  miner : String
  block : Block
  after : RustReplicatedLedger σ

/-- A ledger with the blocks of its run, newest first. -/
structure ChainTrace (σ : Type) where
  ledger : RustReplicatedLedger σ
  mined : List (Mined σ)

/-- The blocks alone, newest first. -/
def ChainTrace.blocks (s : ChainTrace σ) : List Block := s.mined.map (·.block)

/-- A call of a run. -/
inductive ChainOp where
  | submitTransaction (now : UInt64) (tx : Transaction)
  | mineBlock (minerAddress : String)

/-- A store without entries. -/
def Fresh (s : σ) : Prop := ∀ t, NulFree t → ∀ k, content s t k = none

/-- Submissions and blocks, on a new ledger over an empty store. -/
def chainSystem (env : LedgerEnv) : System (ChainTrace σ) ChainOp where
  init s := (∃ store, Fresh store ∧ s.ledger = new store) ∧ s.mined = []
  step op s :=
    match op with
    | .submitTransaction now tx => some { s with ledger := s.ledger.submitTransaction env now tx }
    | .mineBlock m =>
        let after := (s.ledger.mineBlock env m).1
        some
          { ledger := after
            mined := if s.ledger.Mines m then ⟨s.ledger, m, s.ledger.minedBlock env m, after⟩ :: s.mined else s.mined }

/-- What a step of a run can do. -/
theorem chainSystem_cases {env : LedgerEnv} {op : ChainOp} {s s' : ChainTrace σ}
    (h : (chainSystem env).step op s = some s') :
    (∃ now tx, op = .submitTransaction now tx ∧
      s' = { s with ledger := s.ledger.submitTransaction env now tx }) ∨
    (∃ m, op = .mineBlock m ∧ s.ledger.Mines m ∧
      s' = ⟨(s.ledger.mineBlock env m).1,
        ⟨s.ledger, m, s.ledger.minedBlock env m, (s.ledger.mineBlock env m).1⟩ :: s.mined⟩) ∨
    (∃ m, op = .mineBlock m ∧ ¬ s.ledger.Mines m ∧ s' = s) := by
  cases op with
  | submitTransaction now tx =>
      cases h
      exact .inl ⟨now, tx, rfl, rfl⟩
  | mineBlock m =>
      right
      by_cases hm : s.ledger.Mines m
      · left
        refine ⟨m, rfl, hm, ?_⟩
        simpa only [chainSystem, if_pos hm] using (Option.some.inj h).symm
      · right
        refine ⟨m, rfl, hm, ?_⟩
        have hs := (Option.some.inj h).symm
        simp only [if_neg hm, mineBlock_of_not_mines hm] at hs
        exact hs

/-- An empty store has no balance that does not read. -/
theorem Fresh.wellFormed {s : σ} (h : Fresh s) : (new s).WellFormed := by
  intro k v hk
  have hnone := h "balances" (nulFree_trees _ (by simp)) k
  exact nomatch hnone.symm.trans hk

/-- **What the record says of each block.** -/
theorem chainSystem_mined {env : LedgerEnv} {ok : ChainOp → ChainTrace σ → Prop} {s : ChainTrace σ}
    (h : (chainSystem env).Reachable ok s) {e : Mined σ} (he : e ∈ s.mined) :
    e.before.WellFormed ∧ e.before.Mines e.miner ∧ e.block = e.before.minedBlock env e.miner ∧
      e.after = (e.before.mineBlock env e.miner).1 := by
  have key : s.ledger.WellFormed ∧ ∀ e ∈ s.mined, e.before.WellFormed ∧ e.before.Mines e.miner ∧
      e.block = e.before.minedBlock env e.miner ∧ e.after = (e.before.mineBlock env e.miner).1 := by
    refine System.Reachable.invariant (P := fun s : ChainTrace σ => s.ledger.WellFormed ∧ ∀ e ∈ s.mined,
      e.before.WellFormed ∧ e.before.Mines e.miner ∧ e.block = e.before.minedBlock env e.miner ∧
        e.after = (e.before.mineBlock env e.miner).1) ?_ ?_ h
    · rintro s ⟨⟨store, hfresh, heq⟩, hnil⟩
      rw [heq, hnil]
      exact ⟨hfresh.wellFormed, fun e he => absurd he List.not_mem_nil⟩
    · rintro s op s' ⟨hwf, hmined⟩ _ hstep
      rcases chainSystem_cases hstep with ⟨now, tx, -, rfl⟩ | ⟨m, -, hm, rfl⟩ | ⟨m, -, -, rfl⟩
      · exact ⟨hwf.submitTransaction env now tx, hmined⟩
      · exact ⟨hwf.mineBlock env m, List.forall_mem_cons.mpr ⟨⟨hwf, hm, rfl, rfl⟩, hmined⟩⟩
      · exact ⟨hwf, hmined⟩
  exact key.2 e he

/-! ## What a block commits to -/

/-- The balances that `get_all_balances` will show once the pending transactions are applied. -/
def balancesNext (l : RustReplicatedLedger σ) : Balances := l.workingBalances.filter fun a _ => decide (Listed σ a)

/-- The text depends on the balances shown. -/
theorem stateText_congr {b b' : Balances} (h : ∀ a : String, b[a]? = b'[a]?) : stateText b = stateText b' := by
  unfold stateText
  rw [toList_congr h]

/-- A map that keeps its addresses and may gain some has the same text only if it is the same map. -/
theorem stateText_eq_iff_of_grows {b b' : Balances} (h : ∀ a : String, a ∈ b → a ∈ b') :
    stateText b' = stateText b ↔ ∀ a : String, b'[a]? = b[a]? := by
  constructor
  · intro htext
    have hkeys : ((entries b).map Prod.fst).Sublist ((entries b').map Prod.fst) := by
      have hmap : ∀ b : Balances, (entries b).map Prod.fst = (b.toList.map Prod.fst).map String.toList := by
        intro b
        rw [entries, List.map_map, List.map_map]
        rfl
      rw [hmap, hmap]
      exact (keys_sublist h).map String.toList
    have hjoin : stateFormat.joinText (entries b) = stateFormat.joinText (entries b') := by
      rw [← toList_stateText, ← toList_stateText, htext]
    have hentries := EntryFormat.eq_of_joinText_of_sublist hkeys hjoin
    exact fun a => (getElem?_eq_of_entries hentries a).symm
  · exact stateText_congr

/-- What the next `get_all_balances` shows: the working balances at the listed addresses. -/
theorem getElem?_balancesNext (l : RustReplicatedLedger σ) (a : String) :
    l.balancesNext[a]? = if Listed σ a then l.workingBalances[a]? else none := by
  rw [balancesNext, Std.TreeMap.getElem?_filter']
  by_cases ha : Listed σ a
  · rw [if_pos ha, decide_eq_true ha]
    cases l.workingBalances[a]? <;> rfl
  · rw [if_neg ha, decide_eq_false ha]
    cases l.workingBalances[a]? <;> rfl

/-! ### What the transactions of a block add up to -/

/-- The addresses whose balance a transaction writes: GENESIS is not debited. -/
def written (tx : Transaction) : List String :=
  if tx.source = "GENESIS" then [tx.target] else [tx.source, tx.target]

/-- What an address gets from the transactions. -/
def received : List Transaction → String → UInt64
  | [], _ => 0
  | tx :: txs, a => (if tx.target = a then tx.amount else 0) + received txs a

/-- What it pays for them, fees included. -/
def paid : List Transaction → String → UInt64
  | [], _ => 0
  | tx :: txs, a => (if tx.source ≠ "GENESIS" ∧ tx.source = a then tx.amount + tx.maxFee else 0) + paid txs a

/-- **The transactions cancel out**: every address they write was shown before, and gets from them what it pays. -/
structure CancelsOut (σ : Type) [SovereignStorage σ] [LawfulStorage σ] (shown : Balances) (txs : List Transaction) :
    Prop where
  known : ∀ tx ∈ txs, ∀ a ∈ written tx, Listed σ a → a ∈ shown
  even : ∀ tx ∈ txs, ∀ a ∈ written tx, Listed σ a → received txs a = paid txs a

/-- A debit takes amount and fee from the source. -/
theorem balanceOf_afterDebit (b : Balances) (tx : Transaction) (a : String) :
    balanceOf (afterDebit b tx) a =
      balanceOf b a - if tx.source ≠ "GENESIS" ∧ tx.source = a then tx.amount + tx.maxFee else 0 := by
  by_cases hsource : tx.source = a
  · subst hsource
    unfold afterDebit
    by_cases hgenesis : tx.source = "GENESIS"
    · simp [hgenesis]
    · simp [hgenesis, balanceOf]
  · rw [balanceOf_afterDebit_other hsource, if_neg fun h => hsource h.2, UInt64.sub_zero]

/-- **One transaction**: what the address gets is added, what it pays is taken off. -/
theorem balanceOf_applyTx_eq {b b' : Balances} {tx : Transaction} (h : applyTx b tx = some b') (a : String) :
    balanceOf b' a = balanceOf b a + (if tx.target = a then tx.amount else 0) -
      if tx.source ≠ "GENESIS" ∧ tx.source = a then tx.amount + tx.maxFee else 0 := by
  rw [balanceOf_applyTx h, balanceOf_afterDebit]
  split
  · grind
  · grind

/-- **The loop of `mine_block`**: the balances move by what the included transactions add up to. -/
theorem balanceOf_applyPending (b : Balances) (txs : List Transaction) (a : String) :
    balanceOf (applyPending b txs).1 a =
      balanceOf b a + received (applyPending b txs).2 a - paid (applyPending b txs).2 a := by
  induction txs generalizing b with
  | nil =>
      show balanceOf b a = balanceOf b a + 0 - 0
      grind
  | cons tx txs ih =>
      unfold applyPending
      cases hb : applyTx b tx with
      | none => exact ih b
      | some b' =>
          show balanceOf (applyPending b' txs).1 a = balanceOf b a + ((if tx.target = a then tx.amount else 0) +
            received (applyPending b' txs).2 a) - ((if tx.source ≠ "GENESIS" ∧ tx.source = a then
              tx.amount + tx.maxFee else 0) + paid (applyPending b' txs).2 a)
          rw [ih b', balanceOf_applyTx_eq hb]
          grind

/-- The addresses after one transaction: those before, its target, and its source unless that is GENESIS. -/
theorem mem_applyTx {b b' : Balances} {tx : Transaction} (h : applyTx b tx = some b') (a : String) :
    a ∈ b' ↔ a ∈ b ∨ a ∈ written tx := by
  obtain ⟨-, rfl⟩ := applyTx_eq_some h
  unfold afterDebit written
  by_cases hgenesis : tx.source = "GENESIS"
  · rw [if_neg (not_not_intro hgenesis), if_pos hgenesis, Std.TreeMap.mem_insert, List.mem_singleton,
      Std.LawfulEqCmp.compare_eq_iff_eq]
    exact ⟨fun h => h.elim (fun h => .inr h.symm) .inl, fun h => h.elim .inr fun h => .inl h.symm⟩
  · rw [if_pos hgenesis, if_neg hgenesis, Std.TreeMap.mem_insert, Std.TreeMap.mem_insert,
      Std.LawfulEqCmp.compare_eq_iff_eq, Std.LawfulEqCmp.compare_eq_iff_eq, List.mem_cons, List.mem_singleton]
    grind

/-- And after the loop: those before, and those written. -/
theorem mem_applyPending (b : Balances) (txs : List Transaction) (a : String) :
    a ∈ (applyPending b txs).1 ↔ a ∈ b ∨ ∃ tx ∈ (applyPending b txs).2, a ∈ written tx := by
  induction txs generalizing b with
  | nil => simp [applyPending]
  | cons tx txs ih =>
      unfold applyPending
      cases hb : applyTx b tx with
      | none => exact ih b
      | some b' =>
          dsimp only
          rw [ih b', mem_applyTx hb]
          simp only [List.mem_cons, exists_eq_or_imp]
          exact or_assoc

/-- An address that no transaction writes gets nothing and pays nothing. -/
theorem received_eq_paid_of_not_written {txs : List Transaction} {a : String} (h : ∀ tx ∈ txs, a ∉ written tx) :
    received txs a = 0 ∧ paid txs a = 0 := by
  induction txs with
  | nil => exact ⟨rfl, rfl⟩
  | cons tx txs ih =>
      obtain ⟨htx, hrest⟩ := List.forall_mem_cons.mp h
      obtain ⟨hreceived, hpaid⟩ := ih hrest
      have htarget : tx.target ≠ a := by
        rintro rfl
        refine htx ?_
        unfold written
        split <;> simp
      have hsource : ¬ (tx.source ≠ "GENESIS" ∧ tx.source = a) := by
        rintro ⟨hgenesis, rfl⟩
        refine htx ?_
        rw [written, if_neg hgenesis]
        exact List.mem_cons_self
      unfold received paid
      rw [if_neg htarget, if_neg hsource, hreceived, hpaid]
      exact ⟨rfl, rfl⟩

/-- Transactions that leave every balance shown as it is cancel out: what they write was shown, and what an address gets
is what it gives. -/
theorem cancelsOut_of_same {l : RustReplicatedLedger σ}
    (hsame : ∀ a : String, l.balancesNext[a]? = l.getAllBalances[a]?) :
    CancelsOut σ l.getAllBalances (applyPending l.getAllBalances l.pendingTxs).2 := by
  have hlisted : ∀ a, Listed σ a → l.workingBalances[a]? = l.getAllBalances[a]? := by
    intro a ha
    rw [← hsame a, getElem?_balancesNext, if_pos ha]
  refine ⟨fun tx htx a ha hl => ?_, fun tx htx a ha hl => ?_⟩
  · have hin : a ∈ l.workingBalances := (mem_applyPending l.getAllBalances l.pendingTxs a).mpr (.inr ⟨tx, htx, ha⟩)
    rw [Std.TreeMap.mem_iff_isSome_getElem?, hlisted a hl] at hin
    exact Std.TreeMap.mem_iff_isSome_getElem?.mpr hin
  · have hkept : balanceOf l.workingBalances a = balanceOf l.getAllBalances a := by
      unfold balanceOf
      rw [hlisted a hl]
    have hmoved := balanceOf_applyPending l.getAllBalances l.pendingTxs a
    rw [← workingBalances, hkept] at hmoved
    grind

/-- Transactions that cancel out leave the amount of every listed address as it is. -/
theorem balanceOf_workingBalances {l : RustReplicatedLedger σ}
    (hcancels : CancelsOut σ l.getAllBalances (applyPending l.getAllBalances l.pendingTxs).2) {a : String}
    (ha : Listed σ a) : balanceOf l.workingBalances a = balanceOf l.getAllBalances a := by
  rw [workingBalances, balanceOf_applyPending l.getAllBalances l.pendingTxs a]
  by_cases hw : ∃ tx ∈ (applyPending l.getAllBalances l.pendingTxs).2, a ∈ written tx
  · obtain ⟨tx, htx, hat⟩ := hw
    rw [hcancels.even tx htx a hat ha]
    grind
  · obtain ⟨hreceived, hpaid⟩ := received_eq_paid_of_not_written (fun tx htx hat => hw ⟨tx, htx, hat⟩)
    rw [hreceived, hpaid]
    grind

/-- Nor do they bring in a listed address. -/
theorem mem_workingBalances {l : RustReplicatedLedger σ}
    (hcancels : CancelsOut σ l.getAllBalances (applyPending l.getAllBalances l.pendingTxs).2) {a : String}
    (ha : Listed σ a) : a ∈ l.workingBalances ↔ a ∈ l.getAllBalances := by
  rw [workingBalances, mem_applyPending l.getAllBalances l.pendingTxs a]
  constructor
  · rintro (hold | ⟨tx, htx, hat⟩)
    · exact hold
    · exact hcancels.known tx htx a hat ha
  · exact .inl

/-- **The balances shown stay as they are exactly if the included transactions cancel out.** -/
theorem balancesNext_eq_iff {l : RustReplicatedLedger σ} (hwf : l.WellFormed) :
    (∀ a : String, l.balancesNext[a]? = l.getAllBalances[a]?) ↔
      CancelsOut σ l.getAllBalances (applyPending l.getAllBalances l.pendingTxs).2 := by
  refine ⟨cancelsOut_of_same, fun hcancels a => ?_⟩
  rw [getElem?_balancesNext]
  by_cases ha : Listed σ a
  · rw [if_pos ha]
    -- the address stays in or out, and if it is in, so does its amount
    have heven := balanceOf_workingBalances hcancels ha
    have hkept := mem_workingBalances hcancels ha
    rw [Std.TreeMap.mem_iff_isSome_getElem?, Std.TreeMap.mem_iff_isSome_getElem?] at hkept
    unfold balanceOf at heven
    cases hw : l.workingBalances[a]? with
    | none =>
        rw [hw] at hkept
        exact (Option.not_isSome_iff_eq_none.mp fun h => absurd (hkept.mpr h) (by simp)).symm
    | some x =>
        rw [hw] at hkept heven
        obtain ⟨y, hy⟩ := Option.isSome_iff_exists.mp (hkept.mp rfl)
        rw [hy] at heven ⊢
        exact congrArg some heven
  · rw [if_neg ha, getAllBalances_of_not_listed hwf ha]

/-- The text of the balances after a block. -/
theorem stateText_mineBlock {l : RustReplicatedLedger σ} (hwf : l.WellFormed) {m : String} (h : l.Mines m)
    (env : LedgerEnv) : stateText (l.mineBlock env m).1.getAllBalances = stateText l.balancesNext := by
  apply stateText_congr
  intro a
  rw [getAllBalances_mineBlock hwf h, getElem?_balancesNext]

/-- **The state root in a block is the one after it exactly if its transactions cancel out.** -/
theorem stateRoot_minedBlock_iff {env : LedgerEnv} (hsha : Function.Injective env.sha3) {l : RustReplicatedLedger σ}
    (hwf : l.WellFormed) {m : String} (h : l.Mines m) :
    (l.minedBlock env m).stateRoot = some ((l.mineBlock env m).1.getStateRoot env) ↔
      CancelsOut σ l.getAllBalances (l.minedTxs m) := by
  have hgrows : ∀ a : String, a ∈ l.getAllBalances → a ∈ l.balancesNext := by
    intro a ha
    have hlisted : Listed σ a := by
      by_contra hno
      rw [Std.TreeMap.mem_iff_isSome_getElem?, getAllBalances_of_not_listed hwf hno] at ha
      cases ha
    have hin : a ∈ l.workingBalances := applyPending_mono _ _ ha
    rw [Std.TreeMap.mem_iff_isSome_getElem?] at hin ⊢
    rwa [getElem?_balancesNext, if_pos hlisted]
  show some (l.getStateRoot env) = some ((l.mineBlock env m).1.getStateRoot env) ↔ _
  rw [Option.some.injEq, getStateRoot_eq_iff hsha, stateText_mineBlock hwf h, eq_comm,
    stateText_eq_iff_of_grows hgrows, balancesNext_eq_iff hwf, minedTxs, if_pos h]

/-- The bytes under a block's hash. -/
def hashInput (prevHash miner : String) (index : UInt32) : Bytes :=
  utf8 prevHash ++ utf8 miner ++ (leBytes 4 index.toNat).reverse

omit [LawfulStorage σ] in
/-- The hash of a new block, by the bytes under it. -/
theorem hash_nextBlock (env : LedgerEnv) (l : RustReplicatedLedger σ) (m : String) (txIds : List String) :
    (l.nextBlock env m txIds).hash = env.sha3 (hashInput (l.nextBlock env m txIds).prevHash m
      (l.nextBlock env m txIds).index) := rfl

/-- The index is the last four bytes. -/
theorem hashInput_index {p m p' m' : String} {i i' : UInt32} (h : hashInput p m i = hashInput p' m' i') : i = i' := by
  have htail : (leBytes 4 i.toNat).reverse = (leBytes 4 i'.toNat).reverse :=
    (List.append_inj' h (by simp)).2
  have hle : leBytes 4 i.toNat = leBytes 4 i'.toNat := List.reverse_injective htail
  have hof := congrArg ofLeBytes hle
  rw [ofLeBytes_leBytes_of_lt i.toNat_lt, ofLeBytes_leBytes_of_lt i'.toNat_lt] at hof
  exact UInt32.toNat_inj.mp hof

omit [LawfulStorage σ] [LawfulStorage τ] in
/-- Two blocks of one parent have one hash exactly if they have one miner. -/
theorem hash_minedBlock_iff {env : LedgerEnv} (hsha : Function.Injective env.sha3) {l : RustReplicatedLedger σ}
    {l' : RustReplicatedLedger τ} (hparent : l.getLastBlock env = l'.getLastBlock env) (m m' : String) :
    (l.minedBlock env m).hash = (l'.minedBlock env m').hash ↔ m = m' := by
  have hprev : (l.minedBlock env m).prevHash = (l'.minedBlock env m').prevHash := by
    show ((l.getLastBlock env).map (·.hash)).getD _ = ((l'.getLastBlock env).map (·.hash)).getD _
    rw [hparent]
  have hindex : (l.minedBlock env m).index = (l'.minedBlock env m').index := by
    show ((l.getLastBlock env).map (·.index + 1)).getD 0 = ((l'.getLastBlock env).map (·.index + 1)).getD 0
    rw [hparent]
  unfold minedBlock at hprev hindex ⊢
  rw [hash_nextBlock, hash_nextBlock, hsha.eq_iff, hprev, hindex, hashInput, hashInput]
  constructor
  · intro h
    exact utf8_inj.mp (List.append_cancel_left (List.append_cancel_right h))
  · rintro rfl
    rfl

/-- **What the blocks of a run commit to, exactly.** In every run the state root in a block is that of the state after
it if and only if its transactions cancel out; and of two blocks mined in any two runs on the same last block, the
hashes are different where transactions or state roots are if and only if the miners are. -/
theorem block_commitment_iff (env : LedgerEnv) (hsha : Function.Injective env.sha3) :
    (∀ s : ChainTrace σ, (chainSystem env).Reachable (fun _ _ => True) s → ∀ e ∈ s.mined,
      (e.block.stateRoot = some (e.after.getStateRoot env) ↔
        CancelsOut σ e.before.getAllBalances (e.before.minedTxs e.miner))) ∧
    ∀ (s : ChainTrace σ) (s' : ChainTrace τ), (chainSystem env).Reachable (fun _ _ => True) s →
      (chainSystem env).Reachable (fun _ _ => True) s' → ∀ e ∈ s.mined, ∀ e' ∈ s'.mined,
      e.before.getLastBlock env = e'.before.getLastBlock env →
      ((e.block.txIds ≠ e'.block.txIds ∨ e.block.stateRoot ≠ e'.block.stateRoot → e.block.hash ≠ e'.block.hash) ↔
        (e.block.txIds ≠ e'.block.txIds ∨ e.block.stateRoot ≠ e'.block.stateRoot → e.miner ≠ e'.miner)) := by
  refine ⟨?_, ?_⟩
  · intro s hs e he
    obtain ⟨hwf, hm, hblock, hafter⟩ := chainSystem_mined hs he
    rw [hblock, hafter]
    exact stateRoot_minedBlock_iff hsha hwf hm
  · intro s s' hs hs' e he e' he' hparent
    obtain ⟨-, -, hblock, -⟩ := chainSystem_mined hs he
    obtain ⟨-, -, hblock', -⟩ := chainSystem_mined hs' he'
    have hhash : e.block.hash = e'.block.hash ↔ e.miner = e'.miner := by
      rw [hblock, hblock']
      exact hash_minedBlock_iff hsha hparent e.miner e'.miner
    simp only [ne_eq, hhash]

instance (shown : Balances) (txs : List Transaction) : Decidable (CancelsOut σ shown txs) :=
  decidable_of_iff ((∀ tx ∈ txs, ∀ a ∈ written tx, Listed σ a → a ∈ shown) ∧
    ∀ tx ∈ txs, ∀ a ∈ written tx, Listed σ a → received txs a = paid txs a)
    ⟨fun h => ⟨h.1, h.2⟩, fun h => ⟨h.known, h.even⟩⟩

/-- A new ledger in memory, before its first call. -/
def chainStart : ChainTrace MemoryStore := ⟨new MemoryStore.new, []⟩

theorem fresh_memory : Fresh MemoryStore.new := by
  intro t _ k
  show MemoryStore.new.find t k = none
  simp [MemoryStore.find, MemoryStore.new]

theorem chainStart_init (env : LedgerEnv) : (chainSystem env).init chainStart := ⟨⟨MemoryStore.new, fresh_memory, rfl⟩, rfl⟩

/-- A payment out of GENESIS, which needs no signature. -/
def genesisTx : Transaction where
  txId := ""
  source := "GENESIS"
  target := "alice"
  amount := 100
  signature := ""
  timestamp := 0
  maxFee := 0
  priorityFee := 0

/-- An environment whose hash is injective and which takes every signature. -/
def trustingEnv : LedgerEnv := { hexEnv with verifyRaw := fun _ _ _ => true }

/-- A transfer of 30 without a fee. -/
def transfer (source target : String) : Transaction :=
  { genesisTx with source := source, target := target, amount := 30 }

/-- Alice and Bob, who have 100 each, pay each other 30: the block with both payments carries the state root of the
state after it. -/
theorem mutual_payments_commit : ∃ s : ChainTrace MemoryStore, (chainSystem trustingEnv).Reachable (fun _ _ => True) s ∧
    ∃ e ∈ s.mined, (e.before.minedTxs e.miner).map (fun tx => (tx.source, tx.target)) =
        [("alice", "bob"), ("bob", "alice")] ∧
      CancelsOut MemoryStore e.before.getAllBalances (e.before.minedTxs e.miner) ∧
      e.block.stateRoot = some (e.after.getStateRoot trustingEnv) := by
  obtain ⟨s, past, hr, e, he, htxs, hcancels⟩ := System.exists_run_of_play (fun _ _ => True)
    (P := fun s _ => ∃ e ∈ s.mined, (e.before.minedTxs e.miner).map (fun tx => (tx.source, tx.target)) =
        [("alice", "bob"), ("bob", "alice")] ∧
      CancelsOut MemoryStore e.before.getAllBalances (e.before.minedTxs e.miner)) (chainStart_init trustingEnv)
    [fun _ => .submitTransaction 0 genesisTx, fun _ => .submitTransaction 0 { genesisTx with target := "bob" },
      fun _ => .mineBlock "m", fun _ => .submitTransaction 0 (transfer "alice" "bob"),
      fun _ => .submitTransaction 0 (transfer "bob" "alice"), fun _ => .mineBlock "m"]
    (by decide +kernel)
  have hroot := (block_commitment_iff (σ := MemoryStore) (τ := MemoryStore) trustingEnv
    WarmLogic.Crypto.hexEncode_injective).1 s ⟨past, hr⟩ e he
  exact ⟨s, ⟨past, hr⟩, e, he, htxs, hcancels, hroot.mpr hcancels⟩

/-- The first payment of a ledger: its block carries the root of no balances. And the block with it and the block
without it, both GENESIS's first, have one hash. -/
theorem payment_not_committed :
    (¬ ∀ env : LedgerEnv, Function.Injective env.sha3 → ∀ s : ChainTrace MemoryStore,
      (chainSystem env).Reachable (fun _ _ => True) s → ∀ e ∈ s.mined,
        e.block.stateRoot = some (e.after.getStateRoot env)) ∧
    ¬ ∀ env : LedgerEnv, Function.Injective env.sha3 → ∀ s s' : ChainTrace MemoryStore,
      (chainSystem env).Reachable (fun _ _ => True) s → (chainSystem env).Reachable (fun _ _ => True) s' →
      ∀ e ∈ s.mined, ∀ e' ∈ s'.mined, e.before.getLastBlock env = e'.before.getLastBlock env →
        e.block.txIds ≠ e'.block.txIds ∨ e.block.stateRoot ≠ e'.block.stateRoot → e.block.hash ≠ e'.block.hash := by
  have hinj : Function.Injective hexEnv.sha3 := WarmLogic.Crypto.hexEncode_injective
  obtain ⟨s, past, hr, e, he, hlast, hhash, hids⟩ := System.exists_run_of_play (fun _ _ => True)
    (P := fun s _ => ∃ e ∈ s.mined, e.before.getLastBlock hexEnv = none ∧
      e.block.hash = hexEnv.sha3 (hashInput zeroHash "GENESIS" 0) ∧ e.block.txIds = [])
    (chainStart_init hexEnv) [fun _ => .mineBlock "GENESIS"] (by decide +kernel)
  obtain ⟨s', past', hr', e', he', hroot', hlast', hhash', hids'⟩ := System.exists_run_of_play (fun _ _ => True)
    (P := fun s _ => ∃ e ∈ s.mined, e.block.stateRoot ≠ some (e.after.getStateRoot hexEnv) ∧
      e.before.getLastBlock hexEnv = none ∧ e.block.hash = hexEnv.sha3 (hashInput zeroHash "GENESIS" 0) ∧ e.block.txIds ≠ [])
    (chainStart_init hexEnv) [fun _ => .submitTransaction 0 genesisTx, fun _ => .mineBlock "GENESIS"]
    (by decide +kernel)
  refine ⟨?_, ?_⟩
  · intro h
    exact hroot' (h hexEnv hinj s' ⟨past', hr'⟩ e' he')
  · intro h
    refine h hexEnv hinj s s' ⟨past, hr⟩ ⟨past', hr'⟩ e he e' he' (hlast.trans hlast'.symm) (.inl ?_)
      (hhash.trans hhash'.symm)
    rw [hids]
    exact hids'.symm

/-! ## The chain -/

/-- Follow `prev_hash` from a block, at most as many blocks as the fuel says. -/
def walkBack (env : LedgerEnv) (l : RustReplicatedLedger σ) : Nat → Option Block → List Block
  | 0, _ => []
  | _ + 1, none => []
  | n + 1, some b => b :: walkBack env l n (l.getBlock env b.prevHash)

/-- **The blocks are the chain of the ledger**, newest first: the last block of the ledger is the first of them, each
is stored under its hash and points to the next, the last one points to the all-zero hash, the indices count down to 0,
and no hash occurs twice. -/
structure IsChainOf (env : LedgerEnv) (l : RustReplicatedLedger σ) (blocks : List Block) : Prop where
  last : l.getLastBlock env = blocks.head?
  stored : ∀ b ∈ blocks, l.getBlock env b.hash = some b
  linked : blocks.IsChain fun b parent => b.prevHash = parent.hash
  ends : ∀ b ∈ blocks.getLast?, b.prevHash = zeroHash
  indices : blocks.map (·.index.toNat) = (List.range blocks.length).reverse
  nodup : (blocks.map (·.hash)).Nodup

omit [LawfulStorage σ] in
/-- Walking back from the last block visits the chain. -/
theorem IsChainOf.walkBack {env : LedgerEnv} {l : RustReplicatedLedger σ} {blocks : List Block}
    (h : l.IsChainOf env blocks) : l.walkBack env blocks.length (l.getLastBlock env) = blocks := by
  have key : ∀ bs : List Block, (∀ b ∈ bs, l.getBlock env b.hash = some b) →
      bs.IsChain (fun b parent => b.prevHash = parent.hash) → l.walkBack env bs.length bs.head? = bs := by
    intro bs hstored hlinked
    induction bs with
    | nil => rfl
    | cons b bs ih =>
        obtain ⟨-, hstored⟩ := List.forall_mem_cons.mp hstored
        obtain ⟨hhead, hlinked⟩ := List.isChain_cons.mp hlinked
        show b :: l.walkBack env bs.length (l.getBlock env b.prevHash) = b :: bs
        cases bs with
        | nil => rfl
        | cons p bs =>
            rw [hhead p rfl, hstored p List.mem_cons_self]
            exact congrArg (b :: ·) (ih hstored hlinked)
  rw [h.last]
  exact key blocks h.stored h.linked

/-- A mined block takes the hash its parts determine. -/
def HashedBy (env : LedgerEnv) (b : Block) : Prop := b.hash = env.sha3 (hashInput b.prevHash b.miner b.index)

/-- Borsh takes the block that the call makes, if it makes one. -/
def Serialises (env : LedgerEnv) (op : ChainOp) (s : ChainTrace σ) : Prop :=
  match op with
  | .submitTransaction _ _ => True
  | .mineBlock m => s.ledger.Mines m → env.codec.encodeBlock (s.ledger.minedBlock env m) ≠ none

/-- What a mined block leaves in the two trees. -/
theorem getBlock_mineBlock {env : LedgerEnv} {l : RustReplicatedLedger σ} {m : String} (h : l.Mines m)
    (henc : env.codec.encodeBlock (l.minedBlock env m) ≠ none) (hash : String) :
    (l.mineBlock env m).1.getBlock env hash =
      if hash = (l.minedBlock env m).hash then some (l.minedBlock env m) else l.getBlock env hash := by
  obtain ⟨data, hdata⟩ := Option.ne_none_iff_exists'.mp henc
  rw [getBlock_eq, mineBlock_of_mines h, content_minedBatch_blocks]
  change (if utf8 hash = utf8 (l.minedBlock env m).hash then some ((env.codec.encodeBlock (l.minedBlock env m)).getD [])
    else content l.store "blocks" (utf8 hash)).bind _ = _
  by_cases heq : hash = (l.minedBlock env m).hash
  · rw [if_pos (utf8_inj.mpr heq), if_pos heq, hdata, Option.getD_some, Option.bind_some,
      env.codec.decode_encodeBlock hdata]
  · rw [if_neg (mt utf8_inj.mp heq), if_neg heq, getBlock_eq]

/-- After a mined block that Borsh takes, the last block is that one. -/
theorem getLastBlock_mineBlock {env : LedgerEnv} {l : RustReplicatedLedger σ} {m : String} (h : l.Mines m)
    (henc : env.codec.encodeBlock (l.minedBlock env m) ≠ none) :
    (l.mineBlock env m).1.getLastBlock env = some (l.minedBlock env m) := by
  obtain ⟨data, hdata⟩ := Option.ne_none_iff_exists'.mp (env.codec.encodeText_of_block henc)
  have htail : (l.mineBlock env m).1.tailHash env = some (l.minedBlock env m).hash := by
    rw [tailHash, mineBlock_of_mines h, content_minedBatch_meta, if_pos rfl]
    change (some ((env.codec.encodeText (l.minedBlock env m).hash).getD [])).bind _ = _
    rw [hdata, Option.getD_some, Option.bind_some, env.codec.decode_encodeText hdata]
  rw [getLastBlock_eq, htail, Option.bind_some, getBlock_mineBlock h henc, if_pos rfl]

/-- A submission does not touch the blocks. -/
theorem IsChainOf.submitTransaction {env : LedgerEnv} {l : RustReplicatedLedger σ} {blocks : List Block}
    (h : l.IsChainOf env blocks) (now : UInt64) (tx : Transaction) :
    (l.submitTransaction env now tx).IsChainOf env blocks := by
  have hget := @getBlock_congr _ _ _ env _ _ (content_submitTransaction (by simp : "blocks" ∈ ["blocks", "meta"]) l env now tx)
  have htail := @tailHash_congr _ _ _ env _ _ (content_submitTransaction (by simp : "meta" ∈ ["blocks", "meta"]) l env now tx)
  refine ⟨?_, ?_, h.linked, h.ends, h.indices, h.nodup⟩
  · rw [getLastBlock_eq, htail, funext hget, ← getLastBlock_eq, h.last]
  · intro b hb
    rw [hget, h.stored b hb]

omit [LawfulStorage σ] in
/-- The index of a new block is the number of blocks before it. -/
theorem index_minedBlock (env : LedgerEnv) {l : RustReplicatedLedger σ} {blocks : List Block} (h : l.IsChainOf env blocks)
    (hlen : blocks.length < 2 ^ 32) (m : String) : (l.minedBlock env m).index.toNat = blocks.length := by
  show (((l.getLastBlock env).map fun b : Block => b.index + 1).getD 0).toNat = blocks.length
  rw [h.last]
  cases blocks with
  | nil => rfl
  | cons b bs =>
      have hb : b.index.toNat = bs.length := by
        have := h.indices
        rw [List.length_cons, List.range_succ, List.reverse_append] at this
        exact (List.cons.inj this).1
      rw [List.length_cons] at hlen ⊢
      show (b.index + 1).toNat = bs.length + 1
      rw [UInt32.toNat_add, hb]
      simp only [UInt32.toNat_one]
      omega

/-- **One block extends the chain.** -/
theorem IsChainOf.mineBlock {env : LedgerEnv} (hsha : Function.Injective env.sha3) {l : RustReplicatedLedger σ}
    {blocks : List Block} (h : l.IsChainOf env blocks) (hhash : ∀ b ∈ blocks, HashedBy env b)
    (hlen : blocks.length < 2 ^ 32) {m : String} (hm : l.Mines m)
    (henc : env.codec.encodeBlock (l.minedBlock env m) ≠ none) :
    (l.mineBlock env m).1.IsChainOf env (l.minedBlock env m :: blocks) := by
  have hindex := index_minedBlock env h hlen m
  -- an earlier block has a smaller index, so another hash
  have hnew : ∀ b ∈ blocks, b.hash ≠ (l.minedBlock env m).hash := by
    intro b hb heq
    have hsame : hashInput b.prevHash b.miner b.index = hashInput _ m (l.minedBlock env m).index :=
      hsha ((hhash b hb).symm.trans heq)
    have hidx := congrArg UInt32.toNat (hashInput_index hsame)
    have hlt : b.index.toNat ∈ (List.range blocks.length).reverse := h.indices ▸ List.mem_map_of_mem hb
    rw [List.mem_reverse, List.mem_range] at hlt
    omega
  have hprev : (l.minedBlock env m).prevHash = (blocks.head?.map (·.hash)).getD zeroHash := by
    show ((l.getLastBlock env).map (·.hash)).getD zeroHash = _
    rw [h.last]
  refine ⟨getLastBlock_mineBlock hm henc, ?_, ?_, ?_, ?_, ?_⟩
  · intro b hb
    rw [getBlock_mineBlock hm henc]
    rcases List.mem_cons.mp hb with rfl | hb
    · rw [if_pos rfl]
    · rw [if_neg (hnew b hb), h.stored b hb]
  · refine List.isChain_cons.mpr ⟨?_, h.linked⟩
    intro p hp
    rw [hprev, hp]
    rfl
  · intro b hb
    cases blocks with
    | nil =>
        cases hb
        exact hprev
    | cons p bs =>
        rw [List.getLast?_cons_cons] at hb
        exact h.ends b hb
  · rw [List.map_cons, h.indices, hindex, List.length_cons, List.range_succ, List.reverse_append]
    rfl
  · rw [List.map_cons]
    refine List.nodup_cons.mpr ⟨?_, h.nodup⟩
    intro hmem
    obtain ⟨b, hb, heq⟩ := List.mem_map.mp hmem
    exact hnew b hb heq

/-- An empty store has the empty chain. -/
theorem Fresh.isChainOf {s : σ} (h : Fresh s) (env : LedgerEnv) : (new s).IsChainOf env [] := by
  have hmeta : content (new s).store "meta" (utf8 "last_block_hash") = none := h "meta" (nulFree_trees _ (by simp)) _
  have htail : (new s).tailHash env = none := by rw [tailHash, hmeta, Option.bind_none]
  refine ⟨?_, ?_, .nil, ?_, rfl, List.nodup_nil⟩
  · rw [getLastBlock_eq, htail, Option.bind_none, List.head?_nil]
  · exact fun b hb => absurd hb List.not_mem_nil
  · exact fun b hb => absurd hb (by simp)

/-- Every state of a run has the newest blocks of the later ones taken off. -/
theorem chainSystem_suffix {env : LedgerEnv} {ok : ChainOp → ChainTrace σ → Prop} {s : ChainTrace σ}
    {past : List (ChainTrace σ)} (hr : (chainSystem env).Run ok (s :: past)) :
    ∀ t ∈ s :: past, t.mined <:+ s.mined := by
  refine System.Run.invariant_head (P := fun s h => ∀ t ∈ h, t.mined <:+ s.mined) ?_ ?_ hr
  · intro s _ t ht
    exact List.mem_singleton.mp ht ▸ List.suffix_refl _
  · intro s past op s' _ ih _ hstep t ht
    have hgrow : s.mined <:+ s'.mined := by
      rcases chainSystem_cases hstep with ⟨now, tx, -, rfl⟩ | ⟨m, -, -, rfl⟩ | ⟨m, -, -, rfl⟩
      · exact List.suffix_refl _
      · exact List.suffix_cons _ _
      · exact List.suffix_refl _
    rcases List.mem_cons.mp ht with rfl | ht
    · exact List.suffix_refl _
    · exact (ih t ht).trans hgrow

/-- **Every run keeps the chain**: a submission leaves the two trees, and a mined block that Borsh takes extends the
chain by one. -/
theorem chainSystem_isChainOf {env : LedgerEnv} (hsha : Function.Injective env.sha3) {s : ChainTrace σ}
    (hs : (chainSystem env).Reachable (Serialises env) s) (hlen : s.mined.length < 2 ^ 32) :
    s.ledger.IsChainOf env s.blocks := by
  have key : s.mined.length < 2 ^ 32 → s.ledger.IsChainOf env s.blocks ∧ ∀ b ∈ s.blocks, HashedBy env b := by
    refine System.Reachable.invariant (P := fun s : ChainTrace σ => s.mined.length < 2 ^ 32 →
      s.ledger.IsChainOf env s.blocks ∧ ∀ b ∈ s.blocks, HashedBy env b) ?_ ?_ hs
    · rintro s ⟨⟨store, hfresh, heq⟩, hnil⟩ -
      rw [ChainTrace.blocks, heq, hnil]
      exact ⟨hfresh.isChainOf env, fun b hb => absurd hb List.not_mem_nil⟩
    · intro s op s' ih hok hstep hlen
      rcases chainSystem_cases hstep with ⟨now, tx, rfl, rfl⟩ | ⟨m, rfl, hm, rfl⟩ | ⟨m, rfl, -, rfl⟩
      · obtain ⟨hchain, hhash⟩ := ih hlen
        exact ⟨hchain.submitTransaction now tx, hhash⟩
      · obtain ⟨hchain, hhash⟩ := ih (Nat.lt_of_succ_lt hlen)
        have hcount : s.blocks.length < 2 ^ 32 := by
          rw [ChainTrace.blocks, List.length_map]
          exact Nat.lt_of_succ_lt hlen
        exact ⟨hchain.mineBlock hsha hhash hcount hm (hok hm), List.forall_mem_cons.mpr ⟨rfl, hhash⟩⟩
      · exact ih hlen
  exact (key hlen).1

/-- **The chain of a run.** In every run from an empty store in which Borsh takes each mined block, with fewer than
2^32 of them, the blocks of the run are the chain of the ledger, walking back from `get_last_block` visits them, and
every block of an earlier state is stored as it was. -/
theorem chain_of_serialised (env : LedgerEnv) (hsha : Function.Injective env.sha3) (s : ChainTrace σ)
    (past : List (ChainTrace σ)) (hr : (chainSystem env).Run (Serialises env) (s :: past))
    (hlen : s.mined.length < 2 ^ 32) :
    s.ledger.IsChainOf env s.blocks ∧ s.ledger.walkBack env s.blocks.length (s.ledger.getLastBlock env) = s.blocks ∧
      ∀ t ∈ past, ∀ b ∈ t.blocks, t.ledger.getBlock env b.hash = some b ∧ s.ledger.getBlock env b.hash = some b := by
  have hchain := chainSystem_isChainOf hsha ⟨past, hr⟩ hlen
  refine ⟨hchain, hchain.walkBack, ?_⟩
  intro t ht b hb
  have hsuffix := chainSystem_suffix hr t (List.mem_cons_of_mem s ht)
  obtain ⟨past', -, hr'⟩ := hr.exists_suffix (List.mem_cons_of_mem s ht)
  have hearlier := chainSystem_isChainOf hsha ⟨past', hr'⟩ (Nat.lt_of_le_of_lt hsuffix.length_le hlen)
  have hb' : b ∈ s.blocks := (hsuffix.map (·.block)).subset hb
  exact ⟨hearlier.stored b hb, hchain.stored b hb'⟩

instance (env : LedgerEnv) (op : ChainOp) (s : ChainTrace σ) : Decidable (Serialises env op s) :=
  match op with
  | .submitTransaction _ _ => .isTrue trivial
  | .mineBlock m => inferInstanceAs (Decidable (s.ledger.Mines m → env.codec.encodeBlock (s.ledger.minedBlock env m) ≠ none))

/-- A payment mined by Bob, and an empty block of GENESIS on top. -/
theorem chain_of_two_blocks : ∃ (s : ChainTrace MemoryStore) (past : List (ChainTrace MemoryStore)),
    (chainSystem hexEnv).Run (Serialises hexEnv) (s :: past) ∧ s.mined.length = 2 ∧
      s.ledger.IsChainOf hexEnv s.blocks := by
  obtain ⟨s, past, hr, hlen⟩ := System.exists_run_of_play (Serialises hexEnv) (P := fun s _ => s.mined.length = 2)
    (chainStart_init hexEnv)
    [fun _ => .submitTransaction 0 genesisTx, fun _ => .mineBlock "bob", fun _ => .mineBlock "GENESIS"]
    (by decide +kernel)
  have hchain := chain_of_serialised hexEnv WarmLogic.Crypto.hexEncode_injective s past hr (by rw [hlen]; decide)
  exact ⟨s, past, hr, hlen, hchain.1⟩

/-! ## A block that Borsh refuses -/

/-- The tail pointer of a refused block leads nowhere. -/
theorem getLastBlock_of_refused {env : LedgerEnv} {l : RustReplicatedLedger σ} {m : String} (h : l.Mines m)
    (henc : env.codec.encodeBlock (l.minedBlock env m) = none) : (l.mineBlock env m).1.getLastBlock env = none := by
  have hblock : (l.mineBlock env m).1.getBlock env (l.minedBlock env m).hash = none := by
    rw [getBlock_eq, mineBlock_of_mines h, content_minedBatch_blocks]
    change (if utf8 (l.minedBlock env m).hash = utf8 (l.minedBlock env m).hash then
      some ((env.codec.encodeBlock (l.minedBlock env m)).getD []) else _).bind _ = _
    rw [if_pos rfl, henc]
    exact env.codec.decodeBlock_nil
  have htail : (l.mineBlock env m).1.tailHash env = none ∨
      (l.mineBlock env m).1.tailHash env = some (l.minedBlock env m).hash := by
    rw [tailHash, mineBlock_of_mines h, content_minedBatch_meta, if_pos rfl]
    change (some ((env.codec.encodeText (l.minedBlock env m).hash).getD [])).bind _ = _ ∨
      (some ((env.codec.encodeText (l.minedBlock env m).hash).getD [])).bind _ = _
    cases hdata : env.codec.encodeText (l.minedBlock env m).hash with
    | none => exact .inl env.codec.decodeText_nil
    | some data => exact .inr (env.codec.decode_encodeText hdata)
  rw [getLastBlock_eq]
  rcases htail with htail | htail
  · rw [htail, Option.bind_none]
  · rw [htail, Option.bind_some, hblock]

/-- A text of so many letters. -/
def longText : Nat → String
  | 0 => ""
  | n + 1 => longText n ++ "a"

/-- Its length in bytes. -/
theorem length_utf8_longText (n : Nat) : (utf8 (longText n)).length = n := by
  induction n with
  | zero => rfl
  | succ n ih =>
      have happ : utf8 (longText n ++ "a") = utf8 (longText n) ++ utf8 "a" := by
        simp [utf8]
      rw [longText, happ, List.length_append, ih]
      rfl

/-- A miner address of 2^32 letters: the block is announced, and there is no last block. -/
theorem long_miner_breaks_chain : ¬ ∀ env : LedgerEnv, Function.Injective env.sha3 →
    ∀ (s : ChainTrace MemoryStore) (past : List (ChainTrace MemoryStore)),
      (chainSystem env).Run (fun _ _ => True) (s :: past) → s.mined.length < 2 ^ 32 →
      s.ledger.IsChainOf env s.blocks := by
  intro h
  generalize hl : (new MemoryStore.new).submitTransaction hexEnv 0 genesisTx = l
  have hpending : l.pendingTxs ≠ [] := by
    rw [← hl]
    decide +kernel
  have hstore : l.store = MemoryStore.new := by
    rw [← hl]
    rfl
  obtain ⟨m, hm⟩ : ∃ m : String, (utf8 m).length = 2 ^ 32 := ⟨_, length_utf8_longText _⟩
  have hmines : l.Mines m := by
    refine ⟨?_, fun hnil => absurd hnil hpending⟩
    rw [lockOf_eq, hstore]
    exact fresh_memory "locks" (nulFree_trees _ (by simp)) _
  have hrefused : hexEnv.codec.encodeBlock (l.minedBlock hexEnv m) = none := by
    apply Borsh.encodeBlock_of_miner
    show WarmLogic.Consensus.Borsh.encodeVec (utf8 m) = none
    rw [WarmLogic.Consensus.Borsh.encodeVec, hm, if_neg (Nat.lt_irrefl _)]
  have hrun : (chainSystem hexEnv).Run (fun _ _ => True)
      [⟨(l.mineBlock hexEnv m).1, [⟨l, m, l.minedBlock hexEnv m, (l.mineBlock hexEnv m).1⟩]⟩, ⟨l, []⟩, chainStart] := by
    refine .step (a := .mineBlock m) (.step (a := .submitTransaction 0 genesisTx) (.init (chainStart_init hexEnv))
      trivial ?_) trivial ?_
    · rw [← hl]
      rfl
    · simp only [chainSystem, if_pos hmines]
  have hlast := (h hexEnv WarmLogic.Crypto.hexEncode_injective _ _ hrun (show 1 < 2 ^ 32 by decide)).last
  rw [getLastBlock_of_refused hmines hrefused] at hlast
  cases hlast

end WarmLogic.Ledger.RustReplicatedLedger
