/-
# WarmLogic.Ledger.LedgerStore — what the ledger's operations do to locks, balances and the store's shape.

Everything later modules need about the store is said here once, over any lawful backend. The ledger writes
balances only under the UTF-8 bytes of an address and only as eight bytes; `WellFormed` says that of the whole
tree, a fresh ledger has it and every operation keeps it. In a well-formed ledger `get_all_balances` shows
exactly the stored balances, less the one of the empty address where the backend does not list it.

An operation is described by its effect on the content of the store, tree by tree: which entry it writes, and that it
writes no other. Locks and balances are then read off the content, so a proof about a lock never looks at how a
balance is stored.
-/
import WarmLogic.Ledger.ReplicatedLedger
import WarmLogic.Lib.FieldCodec
import WarmLogic.Lib.MapSum

namespace WarmLogic.Ledger.RustReplicatedLedger

open WarmLogic.Lib SovereignStorage LawfulStorage

variable {σ : Type} [SovereignStorage σ]

/-! ## When a block is made -/

/-- `mine_block` makes a block: the miner has no lock entry, and there is something to mine or it is GENESIS. -/
def Mines (l : RustReplicatedLedger σ) (m : String) : Prop :=
  l.lockOf m = none ∧ (l.pendingTxs = [] → m = "GENESIS")

instance (l : RustReplicatedLedger σ) (m : String) : Decidable (l.Mines m) := inferInstanceAs (Decidable (_ ∧ _))

/-- The working balances at the end of the loop. -/
def workingBalances (l : RustReplicatedLedger σ) : Balances := (applyPending l.getAllBalances l.pendingTxs).1

/-- The transactions of the block `mine_block` makes, none where it makes none. -/
def minedTxs (l : RustReplicatedLedger σ) (m : String) : List Transaction :=
  if l.Mines m then (applyPending l.getAllBalances l.pendingTxs).2 else []

/-- A call that mines writes the batch of its block and empties the queue. -/
theorem mineBlock_of_mines {l : RustReplicatedLedger σ} {m : String} (h : l.Mines m) (env : LedgerEnv) :
    l.mineBlock env m =
      ({ l with
          store := (applyBatch l.store (minedBatch env l.workingBalances
            (l.nextBlock env m ((l.minedTxs m).map (·.txId))))).1
          pendingTxs := [] }, some (l.nextBlock env m ((l.minedTxs m).map (·.txId))).hash) := by
  unfold mineBlock minedTxs
  rw [if_neg (by rw [h.1]; exact Bool.false_ne_true), if_neg (fun hc => hc.2 (h.2 hc.1)), if_pos h]
  rfl

/-- A call that does not mine changes nothing. -/
theorem mineBlock_of_not_mines {l : RustReplicatedLedger σ} {m : String} (h : ¬ l.Mines m) (env : LedgerEnv) :
    l.mineBlock env m = (l, none) := by
  unfold mineBlock
  split
  · rfl
  split
  · rfl
  · rename_i hlock hpend
    refine absurd ⟨Option.not_isSome_iff_eq_none.mp hlock, ?_⟩ h
    intro hnil
    by_contra hm
    exact hpend ⟨hnil, hm⟩

theorem mineBlock_pendingTxs (env : LedgerEnv) (l : RustReplicatedLedger σ) (m : String) :
    (l.mineBlock env m).1.pendingTxs = if l.Mines m then [] else l.pendingTxs := by
  by_cases h : l.Mines m
  · rw [mineBlock_of_mines h, if_pos h]
  · rw [mineBlock_of_not_mines h, if_neg h]

/-- No block changes the slashing rules. -/
theorem mineBlock_slashingEngine (env : LedgerEnv) (l : RustReplicatedLedger σ) (m : String) :
    (l.mineBlock env m).1.slashingEngine = l.slashingEngine := by
  by_cases h : l.Mines m
  · rw [mineBlock_of_mines h]
  · rw [mineBlock_of_not_mines h]

/-! ## The balances tree -/

variable [LawfulStorage σ]

/-- The bytes of a stored amount. -/
def amountBytes (x : UInt64) : Bytes := leBytes 8 x.toNat

/-- A stored amount reads back. -/
theorem decodeAmount_amountBytes (x : UInt64) : Borsh.decodeAmount (amountBytes x) = some x :=
  Borsh.decodeAmount_leBytes x

/-- So different amounts have different bytes. -/
theorem amountBytes_inj {x y : UInt64} : amountBytes x = amountBytes y ↔ x = y := by
  constructor
  · intro h
    have hx := decodeAmount_amountBytes x
    rw [h, decodeAmount_amountBytes] at hx
    exact (Option.some.inj hx).symm
  · rintro rfl
    rfl

/-- The backend lists the balance of this address. -/
def Listed (σ : Type) [SovereignStorage σ] [LawfulStorage σ] (a : String) : Prop :=
  a = "" → listsEmptyKey σ = true

instance (a : String) : Decidable (Listed σ a) := inferInstanceAs (Decidable (_ → _))

/-- **The shape of the balances tree**: addresses in UTF-8, amounts in eight bytes. -/
def WellFormed (l : RustReplicatedLedger σ) : Prop :=
  ∀ k v, content l.store "balances" k = some v → ∃ a x, k = utf8 a ∧ v = amountBytes x

/-- The empty key belongs to the empty address. -/
theorem utf8_eq_nil {a : String} : utf8 a = [] ↔ a = "" := by
  constructor
  · intro h
    exact utf8_injective (h.trans rfl)
  · rintro rfl
    rfl

/-! ## Reading -/

/-- A lock is the entry of `locks` under the address. -/
theorem lockOf_eq (l : RustReplicatedLedger σ) (a : String) :
    l.lockOf a = content l.store "locks" (utf8 a) := by
  unfold lockOf
  rw [getRaw_eq]

/-- The listing of a well-formed balances tree decodes, in key order. -/
theorem getAll_balances {l : RustReplicatedLedger σ} (hwf : l.WellFormed) :
    ∃ items, getAll Borsh.decodeAmount l.store "balances" = some items ∧
      items.Pairwise (fun p q => fromUtf8Lossy p.1 ≠ fromUtf8Lossy q.1) ∧
      ∀ a x, (∃ p ∈ items, fromUtf8Lossy p.1 = a ∧ p.2 = x) ↔
        Listed σ a ∧ content l.store "balances" (utf8 a) = some (amountBytes x) := by
  obtain ⟨raw, hraw, hsorted, hmem⟩ := getAllRaw_eq l.store "balances"
  have hshape : ∀ p ∈ raw, ∃ a x, p = (utf8 a, amountBytes x) := by
    rintro ⟨k, v⟩ hp
    obtain ⟨a, x, rfl, rfl⟩ := hwf k v ((hmem k v).mp hp).2
    exact ⟨a, x, rfl⟩
  set g : Bytes × Bytes → Bytes × UInt64 := fun p =>
    (p.1, (Borsh.decodeAmount p.2).getD 0) with hg
  have hgx : ∀ a x, g (utf8 a, amountBytes x) = (utf8 a, x) := by
    intro a x
    simp only [hg, decodeAmount_amountBytes, Option.getD_some]
  refine ⟨raw.map g, ?_, ?_, ?_⟩
  · unfold getAll
    rw [hraw]
    apply mapM_eq_map
    intro p hp
    obtain ⟨a, x, rfl⟩ := hshape p hp
    simp only [hgx, decodeAmount_amountBytes, Option.map_some]
  · -- distinct UTF-8 keys are distinct addresses
    rw [List.pairwise_map]
    refine List.Pairwise.imp_of_mem ?_ hsorted
    intro p q hp hq hlt heq
    obtain ⟨a, x, rfl⟩ := hshape p hp
    obtain ⟨b, y, rfl⟩ := hshape q hq
    rw [hgx, hgx, fromUtf8Lossy_utf8, fromUtf8Lossy_utf8] at heq
    simp [heq] at hlt
  · intro a x
    constructor
    · rintro ⟨p, hp, rfl, rfl⟩
      obtain ⟨q, hq, rfl⟩ := List.mem_map.mp hp
      obtain ⟨b, y, rfl⟩ := hshape q hq
      obtain ⟨hl, hc⟩ := (hmem _ _).mp hq
      rw [hgx, fromUtf8Lossy_utf8]
      exact ⟨fun h => hl (utf8_eq_nil.mpr h), hc⟩
    · rintro ⟨hl, hc⟩
      have hq : (utf8 a, amountBytes x) ∈ raw := (hmem _ _).mpr ⟨fun h => hl (utf8_eq_nil.mp h), hc⟩
      refine ⟨g (utf8 a, amountBytes x), List.mem_map_of_mem hq, ?_, ?_⟩
      · rw [hgx, fromUtf8Lossy_utf8]
      · rw [hgx]

/-- **`get_all_balances` of a well-formed ledger** shows the stored balances of the listed addresses. -/
theorem getAllBalances_eq_some {l : RustReplicatedLedger σ} (hwf : l.WellFormed) (a : String) (x : UInt64) :
    l.getAllBalances[a]? = some x ↔
      Listed σ a ∧ content l.store "balances" (utf8 a) = some (amountBytes x) := by
  obtain ⟨items, hitems, hd, hmem⟩ := getAll_balances hwf
  unfold getAllBalances
  rw [hitems, ← hmem]
  have hfold := getElem?_foldl_insert (fun p : Bytes × UInt64 => fromUtf8Lossy p.1) (fun p => p.2) hd
    (∅ : Balances) a x
  refine hfold.trans ⟨?_, .inl⟩
  rintro (h | ⟨-, h⟩)
  · exact h
  · rw [Std.TreeMap.getElem?_emptyc] at h
    cases h

/-- An address the backend does not list has no balance to show. -/
theorem getAllBalances_of_not_listed {l : RustReplicatedLedger σ} (hwf : l.WellFormed) {a : String}
    (h : ¬ Listed σ a) : l.getAllBalances[a]? = none := by
  apply Option.eq_none_iff_forall_not_mem.mpr
  intro x hx
  exact h ((getAllBalances_eq_some hwf a x).mp hx).1

/-- A balance is read off one key of the balances tree. -/
theorem getAllBalances_congr {l l' : RustReplicatedLedger σ} (hwf : l.WellFormed) (hwf' : l'.WellFormed) {a : String}
    (h : content l'.store "balances" (utf8 a) = content l.store "balances" (utf8 a)) :
    l'.getAllBalances[a]? = l.getAllBalances[a]? := by
  apply Option.ext
  intro x
  rw [getAllBalances_eq_some hwf, getAllBalances_eq_some hwf', h]

/-! ## Writing -/

/-- The names of the ledger's trees. -/
theorem nulFree_trees : ∀ t ∈ ["balances", "blocks", "locks", "meta", "slash_logs"], NulFree t := by decide +kernel

/-- An entry written is there. -/
theorem content_insertRaw_same (s : σ) (t : String) (ht : NulFree t) (k v k' : Bytes) :
    content (insertRaw s t k v).1 t k' = if k' = k then some v else content s t k' := by
  rw [content_insertRaw s t k v ht t ht]
  simp only [BatchOp.on, true_and]

/-- An entry of another tree is not touched. -/
theorem content_insertRaw_other (s : σ) {t t' : String} (ht : NulFree t) (ht' : NulFree t') (hne : t' ≠ t)
    (k v : Bytes) : content (insertRaw s t k v).1 t' = content s t' := by
  rw [content_insertRaw s t k v ht t' ht']
  funext k'
  simp only [BatchOp.on, hne, false_and, if_false]

/-- The balance a burn leaves. -/
def burntBalance (l : RustReplicatedLedger σ) (actor : String) (amount : UInt64) : UInt64 :=
  if amount ≤ balanceOf l.getAllBalances actor then balanceOf l.getAllBalances actor - amount else 0

/-- A burn writes the balance of its account. -/
theorem content_burn_balances (l : RustReplicatedLedger σ) (b : String) (x : UInt64) (k : Bytes) :
    content (l.burn b x).store "balances" k =
      if k = utf8 b then some (amountBytes (l.burntBalance b x)) else content l.store "balances" k :=
  content_insertRaw_same l.store "balances" (nulFree_trees _ (by simp)) _ _ k

/-- A lock writes the entry of its account. -/
theorem content_lock_locks (l : RustReplicatedLedger σ) (b : String) (k : Bytes) :
    content (l.lock b).store "locks" k = if k = utf8 b then some locked else content l.store "locks" k :=
  content_insertRaw_same l.store "locks" (nulFree_trees _ (by simp)) _ _ k

/-- A burn leaves the locks. -/
theorem content_burn_locks (l : RustReplicatedLedger σ) (b : String) (x : UInt64) :
    content (l.burn b x).store "locks" = content l.store "locks" :=
  content_insertRaw_other l.store (nulFree_trees _ (by simp)) (nulFree_trees _ (by simp)) (by decide) _ _

/-- A lock leaves the balances. -/
theorem content_lock_balances (l : RustReplicatedLedger σ) (b : String) :
    content (l.lock b).store "balances" = content l.store "balances" :=
  content_insertRaw_other l.store (nulFree_trees _ (by simp)) (nulFree_trees _ (by simp)) (by decide) _ _

/-- The log of a rejected transaction leaves the locks. -/
theorem content_logSlash_locks (env : LedgerEnv) (l : RustReplicatedLedger σ) (txId : String) (v : SlashingVerdict) :
    content (l.logSlash env txId v).store "locks" = content l.store "locks" :=
  content_insertRaw_other l.store (nulFree_trees _ (by simp)) (nulFree_trees _ (by simp)) (by decide) _ _

/-- And the balances. -/
theorem content_logSlash_balances (env : LedgerEnv) (l : RustReplicatedLedger σ) (txId : String) (v : SlashingVerdict) :
    content (l.logSlash env txId v).store "balances" = content l.store "balances" :=
  content_insertRaw_other l.store (nulFree_trees _ (by simp)) (nulFree_trees _ (by simp)) (by decide) _ _

/-! ## The batch of a mined block -/

/-- Batch operations on other trees do not show. -/
theorem foldl_on_other {batch : SovereignBatch} {t : String} (h : ∀ op ∈ batch, op.tree ≠ t)
    (c : String → Bytes → Option Bytes) : batch.foldl BatchOp.on c t = c t := by
  induction batch generalizing c with
  | nil => rfl
  | cons op batch ih =>
      obtain ⟨hop, hb⟩ := List.forall_mem_cons.mp h
      rw [List.foldl_cons, ih hb]
      funext k
      cases op with
      | insert tree key value => exact if_neg fun h => hop h.1.symm
      | remove tree key => exact if_neg fun h => hop h.1.symm

/-- A run of inserts under distinct keys of one tree shows them, over what the tree had. -/
theorem foldl_on_inserts {γ : Type} {t : String} (key val : γ → Bytes) {items : List γ}
    (hd : items.Pairwise fun x y => key x ≠ key y) (c : String → Bytes → Option Bytes) (k v : Bytes) :
    (items.map fun x => BatchOp.insert t (key x) (val x)).foldl BatchOp.on c t k = some v ↔
      (∃ x ∈ items, key x = k ∧ val x = v) ∨ ((∀ x ∈ items, key x ≠ k) ∧ c t k = some v) := by
  induction items generalizing c with
  | nil => simp
  | cons x items ih =>
      obtain ⟨hx, hd⟩ := List.pairwise_cons.mp hd
      rw [List.map_cons, List.foldl_cons, ih hd]
      by_cases hk : key x = k
      · subst hk
        have hrest : ∀ y ∈ items, key y ≠ key x := fun y hy => (hx y hy).symm
        have hno : ¬ ∃ y ∈ items, key y = key x ∧ val y = v := fun ⟨y, hy, he, _⟩ => hrest y hy he
        simp only [BatchOp.on, and_self, if_true, hno, false_or, Option.some.injEq, List.mem_cons,
          exists_eq_or_imp, true_and, forall_eq_or_imp, ne_eq, not_true_eq_false, false_and, or_false]
        exact ⟨fun h => h.2, fun h => ⟨hrest, h⟩⟩
      · have hk' : ¬ k = key x := fun h => hk h.symm
        simp [BatchOp.on, hk, hk']

/-- A block writes to three trees. -/
theorem minedBatch_tree {env : LedgerEnv} {w : Balances} {block : Block} {op : BatchOp} (h : op ∈ minedBatch env w block) :
    op.tree = "balances" ∨ op.tree = "blocks" ∨ op.tree = "meta" := by
  rcases List.mem_append.mp h with h | h
  · obtain ⟨p, -, rfl⟩ := List.mem_map.mp h
    exact .inl rfl
  · rcases List.mem_cons.mp h with rfl | h
    · exact .inr (.inl rfl)
    · rw [List.mem_singleton.mp h]
      exact .inr (.inr rfl)

theorem minedBatch_nulFree (env : LedgerEnv) (w : Balances) (block : Block) : ∀ op ∈ minedBatch env w block, NulFree op.tree := by
  intro op hop
  refine nulFree_trees _ ?_
  rcases minedBatch_tree hop with h | h | h <;> simp [h]

/-- So it leaves the locks. -/
theorem content_minedBatch_locks (env : LedgerEnv) (s : σ) (w : Balances) (block : Block) :
    content (applyBatch s (minedBatch env w block)).1 "locks" = content s "locks" := by
  rw [content_applyBatch s _ (minedBatch_nulFree env w block) "locks" (nulFree_trees _ (by simp))]
  apply foldl_on_other
  intro op hop
  rcases minedBatch_tree hop with h | h | h <;> rw [h] <;> decide

/-- The writes of all balances. -/
def balanceOps (w : Balances) : SovereignBatch :=
  w.toList.map fun (addr, amount) => .insert "balances" (utf8 addr) (leBytes 8 amount.toNat)

/-- A write of a balance is a write to `balances`. -/
theorem mem_balanceOps {w : Balances} {op : BatchOp} (h : op ∈ balanceOps w) : op.tree = "balances" := by
  obtain ⟨p, -, rfl⟩ := List.mem_map.mp h
  rfl

/-- The balances of a batch, over what the tree had. -/
theorem foldl_balanceOps (w : Balances) (c : String → Bytes → Option Bytes) (k v : Bytes) :
    (balanceOps w).foldl BatchOp.on c "balances" k = some v ↔
      (∃ a x, w[a]? = some x ∧ utf8 a = k ∧ amountBytes x = v) ∨
        ((∀ a x, w[a]? = some x → utf8 a ≠ k) ∧ c "balances" k = some v) := by
  have hd : w.toList.Pairwise fun p q => utf8 p.1 ≠ utf8 q.1 := by
    refine List.Pairwise.imp ?_ w.distinct_keys_toList
    intro p q hne heq
    exact hne (by simp [utf8_inj.mp heq])
  refine (foldl_on_inserts (fun p : String × UInt64 => utf8 p.1) (fun p => amountBytes p.2) hd c k v).trans ?_
  have hmem : ∀ a x, (a, x) ∈ w.toList ↔ w[a]? = some x := fun a x =>
    Std.TreeMap.mem_toList_iff_getElem?_eq_some
  simp only [Prod.exists, Prod.forall, hmem]

/-- The balances tree after a block: the working balances over what was stored. -/
theorem content_minedBatch_balances (env : LedgerEnv) (s : σ) (w : Balances) (block : Block) (k v : Bytes) :
    content (applyBatch s (minedBatch env w block)).1 "balances" k = some v ↔
      (∃ a x, w[a]? = some x ∧ utf8 a = k ∧ amountBytes x = v) ∨
        ((∀ a x, w[a]? = some x → utf8 a ≠ k) ∧ content s "balances" k = some v) := by
  rw [content_applyBatch s _ (minedBatch_nulFree env w block) "balances" (nulFree_trees _ (by simp))]
  unfold minedBatch
  rw [List.foldl_append, foldl_on_other]
  · exact foldl_balanceOps w (content s) k v
  · simp [BatchOp.tree]

/-! ## The shape is kept -/

/-- The shape is one of the tree `balances` alone. -/
theorem wellFormed_of_balances {l l' : RustReplicatedLedger σ} (hwf : l.WellFormed)
    (h : content l'.store "balances" = content l.store "balances") : l'.WellFormed := by
  intro k v hk
  rw [h] at hk
  exact hwf k v hk

theorem WellFormed.lock {l : RustReplicatedLedger σ} (hwf : l.WellFormed) (b : String) : (l.lock b).WellFormed :=
  wellFormed_of_balances hwf (content_lock_balances l b)

theorem WellFormed.logSlash {l : RustReplicatedLedger σ} (hwf : l.WellFormed) (env : LedgerEnv) (txId : String)
    (v : SlashingVerdict) : (l.logSlash env txId v).WellFormed :=
  wellFormed_of_balances hwf (content_logSlash_balances env l txId v)

/-- A burn writes an amount under an address. -/
theorem WellFormed.burn {l : RustReplicatedLedger σ} (hwf : l.WellFormed) (b : String) (x : UInt64) :
    (l.burn b x).WellFormed := by
  intro k v hk
  rw [content_burn_balances] at hk
  split at hk
  · rename_i hkb
    cases hk
    exact ⟨b, l.burntBalance b x, hkb, rfl⟩
  · exact hwf k v hk

theorem WellFormed.applyPenalty {l : RustReplicatedLedger σ} (hwf : l.WellFormed) (v : SlashingVerdict) :
    (l.applyPenalty v).WellFormed := by
  unfold RustReplicatedLedger.applyPenalty
  split
  · exact hwf.lock _
  · exact hwf.burn _ _
  · exact (hwf.burn _ _).lock _
  · exact hwf

theorem WellFormed.queueTx {l : RustReplicatedLedger σ} (hwf : l.WellFormed) (env : LedgerEnv) (tx : Transaction) :
    (l.queueTx env tx).WellFormed := by
  unfold RustReplicatedLedger.queueTx
  split <;> exact hwf

/-- **A submission keeps the shape**, through the penalty, the log and the queue. -/
theorem WellFormed.submitTransaction {l : RustReplicatedLedger σ} (hwf : l.WellFormed) (env : LedgerEnv)
    (now : UInt64) (tx : Transaction) : (l.submitTransaction env now tx).WellFormed := by
  unfold RustReplicatedLedger.submitTransaction
  split
  · exact hwf
  split
  · exact (hwf.applyPenalty _).logSlash _ _ _
  split
  · exact hwf.queueTx env tx
  · dsimp only
    split
    · exact (hwf.applyPenalty _).logSlash _ _ _
    · exact (hwf.applyPenalty _).queueTx env tx

/-- **A block keeps the shape**: its balances are amounts under addresses. -/
theorem WellFormed.mineBlock {l : RustReplicatedLedger σ} (hwf : l.WellFormed) (env : LedgerEnv) (m : String) :
    (l.mineBlock env m).1.WellFormed := by
  unfold RustReplicatedLedger.mineBlock
  split
  · exact hwf
  split
  · exact hwf
  intro k v hk
  rcases (content_minedBatch_balances _ _ _ _ k v).mp hk with ⟨a, x, -, rfl, rfl⟩ | ⟨-, hk⟩
  · exact ⟨a, x, rfl, rfl⟩
  · exact hwf k v hk

end WarmLogic.Ledger.RustReplicatedLedger
