/-
# WarmLogic.Ledger.MiningFailure — `mine_block` over a store whose `apply_batch` fails.

`FailingRedb` is `RedbStore` with the errors redb may give at each of its calls. A write transaction works on a copy
of the table and only a commit that succeeds puts the copy in its place, so a batch that fails anywhere leaves the
table as it was (`applyBatch_of_error`); without errors it is `RedbStore` (`healthy_eq`).

`mine_block` drops the result of its batch. Over any store whatever, a failed batch loses the queued transactions and
the hash of the block comes back as if it were stored (`failed_mining_never_atomic`); the store alone keeps its side
(`mineBlock_of_redb_error`).
-/
import WarmLogic.Ledger.LedgerChain

namespace WarmLogic.Ledger

open SovereignStorage

/-! ## redb with errors -/

/-- The text of the error each call of redb gives, if it fails. -/
structure RedbErrors where
  beginWrite : Option String := none
  openTable : Option String := none
  insert : Bytes → Option String := fun _ => none
  remove : Bytes → Option String := fun _ => none
  commit : Option String := none
  beginRead : Option String := none
  /-- `open_table` of a read: the table is not there yet, or cannot be opened. -/
  readTable : Option String := none
  get : Bytes → Option String := fun _ => none
  iter : Option String := none
  item : Bytes → Option String := fun _ => none

/-- `RedbStore`, with the errors of the calls it makes. -/
structure FailingRedb where
  store : RedbStore
  errors : RedbErrors

namespace FailingRedb

/-- `map_err(|e| e.to_string())?`. -/
def attempt : Option String → Except String Unit
  | none => .ok ()
  | some e => .error e

/-- One operation on the working copy of the table. -/
def change (errors : RedbErrors) (copy : RedbStore) : BatchOp → Except String RedbStore
  | .insert tree key value => do
      attempt (errors.insert (RedbStore.prefixedKey tree key))
      return copy.put tree key value
  | .remove tree key => do
      attempt (errors.remove (RedbStore.prefixedKey tree key))
      return copy.remove tree key

/-- The write transaction up to its commit: the table to be kept, or the first error. -/
def transaction (s : FailingRedb) (batch : SovereignBatch) : Except String RedbStore := do
  attempt s.errors.beginWrite
  attempt s.errors.openTable
  let copy ← batch.foldlM (change s.errors) s.store
  attempt s.errors.commit
  return copy

/-- A transaction that is not committed is rolled back. -/
def commitOrAbort (s : FailingRedb) : Except String RedbStore → FailingRedb × Except String Unit
  | .ok copy => ({ s with store := copy }, .ok ())
  | .error e => (s, .error e)

/-- The loop over the items of a table, each of which may fail to be read. -/
def readItems (errors : RedbErrors) (items : List (Bytes × Bytes)) : Except String (List (Bytes × Bytes)) :=
  items.mapM fun (k, v) => do
    attempt (errors.item k)
    return (k, v)

/-- The reads take a table that cannot be opened for an empty one; `insert_raw` is a transaction of one write. -/
instance : SovereignStorage FailingRedb where
  insertRaw s tree key value := s.commitOrAbort (s.transaction [.insert tree key value])
  getRaw s tree key := do
    attempt s.errors.beginRead
    if s.errors.readTable.isSome then return none
    attempt (s.errors.get (RedbStore.prefixedKey tree key))
    return s.store.find tree key
  getAllRaw s tree := do
    attempt s.errors.beginRead
    if s.errors.readTable.isSome then return []
    attempt s.errors.iter
    let items ← readItems s.errors s.store.table.toList
    return items.filterMap fun (k, v) => (RedbStore.unprefixKey tree k).map fun key => (key, v)
  applyBatch s batch := s.commitOrAbort (s.transaction batch)

/-- **A batch is all or nothing**: where it fails, at whatever call, the table is as it was. -/
theorem applyBatch_of_error {s : FailingRedb} {batch : SovereignBatch} {e : String}
    (h : (applyBatch s batch).2 = .error e) : (applyBatch s batch).1 = s := by
  change (s.commitOrAbort (s.transaction batch)).2 = .error e at h
  show (s.commitOrAbort (s.transaction batch)).1 = s
  cases htxn : s.transaction batch with
  | error e' => rfl
  | ok copy =>
      rw [htxn] at h
      cases h

/-- No call fails. -/
def healthy (store : RedbStore) : FailingRedb := ⟨store, {}⟩

/-- Without errors the operations of a batch go through, one after the other. -/
theorem foldlM_change_healthy (batch : SovereignBatch) (store : RedbStore) :
    batch.foldlM (change {}) store = .ok (batch.foldl RedbStore.apply store) := by
  induction batch generalizing store with
  | nil => rfl
  | cons op batch ih =>
      rw [List.foldlM_cons, List.foldl_cons, ← ih (store.apply op)]
      cases op with
      | insert tree key value => rfl
      | remove tree key => rfl

/-- And so do the items of a table. -/
theorem readItems_healthy (items : List (Bytes × Bytes)) : readItems {} items = .ok items := by
  induction items with
  | nil => rfl
  | cons item items ih =>
      rw [readItems, List.mapM_cons, ← readItems, ih]
      rfl

/-- **Without errors it is `RedbStore`**, call by call. -/
theorem healthy_eq (store : RedbStore) :
    (∀ tree key, getRaw (healthy store) tree key = getRaw store tree key) ∧
    (∀ tree, getAllRaw (healthy store) tree = getAllRaw store tree) ∧
    (∀ tree key value, insertRaw (healthy store) tree key value =
      (healthy (insertRaw store tree key value).1, (insertRaw store tree key value).2)) ∧
    ∀ batch, applyBatch (healthy store) batch = (healthy (applyBatch store batch).1, (applyBatch store batch).2) := by
  refine ⟨fun _ _ => rfl, fun tree => ?_, fun _ _ _ => rfl, fun batch => ?_⟩
  · show (readItems {} store.table.toList >>= fun items => .ok (items.filterMap _)) = _
    rw [readItems_healthy]
    rfl
  · show (healthy store).commitOrAbort (batch.foldlM (change {}) store >>= fun copy => .ok copy) = _
    rw [foldlM_change_healthy]
    rfl

end FailingRedb

namespace RustReplicatedLedger

variable {σ : Type} [SovereignStorage σ]

/-! ## Mining when the batch fails -/

/-- The batch `mine_block` gives to the store. -/
def miningBatch (env : LedgerEnv) (l : RustReplicatedLedger σ) (m : String) : SovereignBatch :=
  minedBatch env l.workingBalances (l.nextBlock env m ((l.minedTxs m).map (·.txId)))

/-- The call gets as far as `apply_batch`, and that fails. -/
def MiningFails (env : LedgerEnv) (l : RustReplicatedLedger σ) (m : String) : Prop :=
  l.Mines m ∧ ∃ e, (applyBatch l.store (l.miningBatch env m)).2 = .error e

/-- All or nothing, for a call that fails: the queue is kept, no hash is given, and balances, blocks and the tail
pointer read as before. -/
structure MiningUndone (env : LedgerEnv) (l : RustReplicatedLedger σ) (m : String) : Prop where
  pendingTxs : (l.mineBlock env m).1.pendingTxs = l.pendingTxs
  noHash : (l.mineBlock env m).2 = none
  entries : ∀ tree ∈ ["balances", "blocks", "meta"], ∀ key,
    getRaw (l.mineBlock env m).1.store tree key = getRaw l.store tree key
  listings : ∀ tree ∈ ["balances", "blocks", "meta"],
    getAllRaw (l.mineBlock env m).1.store tree = getAllRaw l.store tree

/-- Only the store can tell whether the batch was applied: the queue is emptied and the hash is given either way. -/
theorem mineBlock_blind (env : LedgerEnv) {l : RustReplicatedLedger σ} {m : String} (h : l.Mines m) :
    (l.mineBlock env m).1.pendingTxs = [] ∧
      (l.mineBlock env m).2 = some (l.nextBlock env m ((l.minedTxs m).map (·.txId))).hash := by
  rw [mineBlock_of_mines h]
  exact ⟨rfl, rfl⟩

/-- A call that makes a block gives its hash, and an undone call gives none. -/
theorem not_miningUndone {env : LedgerEnv} {l : RustReplicatedLedger σ} {m : String} (h : l.Mines m) :
    ¬ l.MiningUndone env m := by
  intro hundone
  have hnone := hundone.noHash
  rw [(mineBlock_blind env h).2] at hnone
  cases hnone

/-- The backends of the other modules never come here. -/
theorem not_miningFails_of_lawful [LawfulStorage σ] (env : LedgerEnv) (l : RustReplicatedLedger σ) (m : String) :
    ¬ l.MiningFails env m := by
  rintro ⟨-, e, he⟩
  rw [LawfulStorage.applyBatch_ok] at he
  cases he

/-- **On redb a failed mining stores nothing**: the ledger is the one before, without its queue. -/
theorem mineBlock_of_redb_error {env : LedgerEnv} {l : RustReplicatedLedger FailingRedb} {m : String}
    (h : l.MiningFails env m) : (l.mineBlock env m).1 = { l with pendingTxs := [] } := by
  obtain ⟨hmines, e, he⟩ := h
  rw [mineBlock_of_mines hmines]
  exact congrArg (fun store => { l with store := store, pendingTxs := [] }) (FailingRedb.applyBatch_of_error he)

/-- **A failed mining is never undone.** Whatever the store, the queued transactions are gone and the hash of a block
is given. The result of the batch is dropped, so the call goes on as if it had succeeded. -/
theorem failed_mining_never_atomic (env : LedgerEnv) (l : RustReplicatedLedger σ) (m : String)
    (h : l.MiningFails env m) :
    ¬ l.MiningUndone env m ∧ (l.mineBlock env m).1.pendingTxs = [] ∧ ∃ hash, (l.mineBlock env m).2 = some hash := by
  obtain ⟨hpending, hhash⟩ := mineBlock_blind env h.1
  exact ⟨not_miningUndone h.1, hpending, _, hhash⟩

/-- A new ledger on a full disk, with one transaction in its queue. -/
def fullDiskLedger : RustReplicatedLedger FailingRedb where
  store := ⟨RedbStore.new, { commit := some "No space left on device" }⟩
  pendingTxs := [genesisTx]
  slashingEngine := {}

/-- Its batch fails. -/
theorem fullDiskLedger_fails : fullDiskLedger.MiningFails hexEnv "bob" :=
  ⟨by decide +kernel, "No space left on device", by decide +kernel⟩

/-- The payment is gone and the last block is still none. -/
theorem full_disk_loses_payment :
    (¬ fullDiskLedger.MiningUndone hexEnv "bob" ∧ (fullDiskLedger.mineBlock hexEnv "bob").1.pendingTxs = [] ∧
      ∃ hash, (fullDiskLedger.mineBlock hexEnv "bob").2 = some hash) ∧
    (fullDiskLedger.mineBlock hexEnv "bob").1.getLastBlock hexEnv = none := by
  refine ⟨failed_mining_never_atomic hexEnv fullDiskLedger "bob" fullDiskLedger_fails, ?_⟩
  rw [mineBlock_of_redb_error fullDiskLedger_fails]
  decide +kernel

/-- The queue held a payment, the commit failed, and a hash was given. -/
theorem mining_on_full_disk_not_undone :
    ¬ ∀ (env : LedgerEnv) (l : RustReplicatedLedger FailingRedb) (m : String),
      l.MiningFails env m → l.MiningUndone env m := by
  intro h
  have hkept := (h hexEnv fullDiskLedger "bob" fullDiskLedger_fails).pendingTxs
  rw [(mineBlock_blind hexEnv fullDiskLedger_fails.1).1] at hkept
  cases hkept

end RustReplicatedLedger

end WarmLogic.Ledger
