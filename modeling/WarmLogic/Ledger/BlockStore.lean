/-
# WarmLogic.Ledger.BlockStore — the blocks and the tail pointer in the store.

`get_block` and `get_last_block` are read off the two trees `blocks` and `meta`, which only `mine_block` and `sync_state`
write; a mined block is under its hash, and the tail pointer is that hash, unless Borsh refused one of them: then the
entry is empty and reads as no block.
-/
import WarmLogic.Ledger.LedgerRuns

namespace WarmLogic.Ledger

open WarmLogic.Lib

namespace RustReplicatedLedger

open SovereignStorage LawfulStorage

variable {σ : Type} [SovereignStorage σ] [LawfulStorage σ]

/-! ## Reading blocks -/

/-- The value an entry reads as. -/
theorem get_eq {α : Type} (read : Bytes → Option α) (s : σ) (tree : String) (key : Bytes) :
    get read s tree key =
      match content s tree key with
      | none => .ok none
      | some data =>
          match read data with
          | none => .error ()
          | some val => .ok (some val) := by
  unfold get
  rw [getRaw_eq]
  cases content s tree key <;> rfl

/-- `get_block`, over what the store shows. -/
theorem getBlock_eq (env : LedgerEnv) (l : RustReplicatedLedger σ) (hash : String) :
    l.getBlock env hash = (content l.store "blocks" (utf8 hash)).bind env.codec.decodeBlock := by
  unfold getBlock
  rw [get_eq]
  cases content l.store "blocks" (utf8 hash) with
  | none => rfl
  | some data =>
      dsimp only [Option.bind_some]
      cases env.codec.decodeBlock data <;> rfl

/-- The hash in the tail pointer, where there is one that reads. -/
def tailHash (env : LedgerEnv) (l : RustReplicatedLedger σ) : Option String :=
  (content l.store "meta" (utf8 "last_block_hash")).bind env.codec.decodeText

/-- `get_last_block`: the block the tail pointer names, if both read. -/
theorem getLastBlock_eq (env : LedgerEnv) (l : RustReplicatedLedger σ) :
    l.getLastBlock env = (l.tailHash env).bind (l.getBlock env) := by
  unfold getLastBlock tailHash
  rw [get_eq]
  cases content l.store "meta" (utf8 "last_block_hash") with
  | none => rfl
  | some data =>
      dsimp only [Option.bind_some]
      cases env.codec.decodeText data with
      | none => rfl
      | some hash => rfl

/-- Only the two trees matter. -/
theorem getBlock_congr {env : LedgerEnv} {l l' : RustReplicatedLedger σ}
    (h : content l'.store "blocks" = content l.store "blocks") (hash : String) :
    l'.getBlock env hash = l.getBlock env hash := by
  rw [getBlock_eq, getBlock_eq, h]

/-- The tail pointer is read off `meta` alone. -/
theorem tailHash_congr {env : LedgerEnv} {l l' : RustReplicatedLedger σ}
    (h : content l'.store "meta" = content l.store "meta") : l'.tailHash env = l.tailHash env := by
  rw [tailHash, tailHash, h]

/-! ## Writing blocks -/

/-- The balances in a batch do not show in another tree. -/
theorem foldl_balanceOps_other {t : String} (ht : "balances" ≠ t) (w : Balances) (c : String → Bytes → Option Bytes) :
    (balanceOps w).foldl BatchOp.on c t = c t :=
  foldl_on_other (fun op hop => by rwa [mem_balanceOps hop]) c

/-- The batch of a block: balances, then block, then tail pointer. -/
theorem minedBatch_eq (env : LedgerEnv) (w : Balances) (block : Block) :
    minedBatch env w block = balanceOps w ++
      [.insert "blocks" (utf8 block.hash) ((env.codec.encodeBlock block).getD []),
       .insert "meta" (utf8 "last_block_hash") ((env.codec.encodeText block.hash).getD [])] := rfl

/-- A mined block adds one entry to `blocks`, under its hash. -/
theorem content_minedBatch_blocks (env : LedgerEnv) (s : σ) (w : Balances) (block : Block) (k : Bytes) :
    content (applyBatch s (minedBatch env w block)).1 "blocks" k =
      if k = utf8 block.hash then some ((env.codec.encodeBlock block).getD []) else content s "blocks" k := by
  rw [content_applyBatch s _ (minedBatch_nulFree env w block) "blocks" (nulFree_trees _ (by simp))]
  simp only [minedBatch_eq, List.foldl_append, List.foldl_cons, List.foldl_nil, BatchOp.on, true_and,
    foldl_balanceOps_other (show "balances" ≠ "blocks" by decide)]
  rw [if_neg fun h => absurd h.1 (by decide)]

/-- And points the tail there. -/
theorem content_minedBatch_meta (env : LedgerEnv) (s : σ) (w : Balances) (block : Block) (k : Bytes) :
    content (applyBatch s (minedBatch env w block)).1 "meta" k =
      if k = utf8 "last_block_hash" then some ((env.codec.encodeText block.hash).getD [])
      else content s "meta" k := by
  rw [content_applyBatch s _ (minedBatch_nulFree env w block) "meta" (nulFree_trees _ (by simp))]
  simp only [minedBatch_eq, List.foldl_append, List.foldl_cons, List.foldl_nil, BatchOp.on, true_and,
    foldl_balanceOps_other (show "balances" ≠ "meta" by decide)]
  rw [if_neg (fun h : "meta" = "blocks" ∧ k = utf8 block.hash => absurd h.1 (by decide))]

/-- Entries of the other trees do not show in the two. -/
theorem content_insertRaw_blocks {t t' : String} (ht : t ∈ ["blocks", "meta"]) (s : σ)
    (ht' : t' ∈ ["balances", "locks", "slash_logs"]) (k v : Bytes) :
    content (insertRaw s t' k v).1 t = content s t := by
  simp only [List.mem_cons, List.not_mem_nil, or_false] at ht ht'
  refine content_insertRaw_other s (nulFree_trees t' ?_) (nulFree_trees t ?_) ?_ k v
  · rcases ht' with rfl | rfl | rfl <;> simp
  · rcases ht with rfl | rfl <;> simp
  · rcases ht with rfl | rfl <;> rcases ht' with rfl | rfl | rfl <;> decide

section
variable {t : String} (ht : t ∈ ["blocks", "meta"]) (l : RustReplicatedLedger σ)
include ht

/-- A burn leaves the two trees. -/
theorem content_burn_blocks (a : String) (x : UInt64) : content (l.burn a x).store t = content l.store t :=
  content_insertRaw_blocks ht l.store (by simp) _ _

/-- So does a lock. -/
theorem content_lock_blocks (a : String) : content (l.lock a).store t = content l.store t :=
  content_insertRaw_blocks ht l.store (by simp) _ _

/-- So does a log entry. -/
theorem content_logSlash_blocks (env : LedgerEnv) (id : String) (v : SlashingVerdict) :
    content (l.logSlash env id v).store t = content l.store t :=
  content_insertRaw_blocks ht l.store (by simp) _ _

/-- So does a penalty. -/
theorem content_applyPenalty (v : SlashingVerdict) : content (l.applyPenalty v).store t = content l.store t := by
  unfold applyPenalty
  split
  · exact content_lock_blocks ht l _
  · exact content_burn_blocks ht l _ _
  · rw [content_lock_blocks ht, content_burn_blocks ht]
  · rfl

/-- A submission writes balances, locks and slash logs only. -/
theorem content_submitTransaction (env : LedgerEnv) (now : UInt64) (tx : Transaction) :
    content (l.submitTransaction env now tx).store t = content l.store t := by
  have hcases := submitTransaction_cases env now l tx
  generalize l.submitTransaction env now tx = l' at hcases ⊢
  cases hcases with
  | ignored _ => rfl
  | forged v _ _ => rw [content_logSlash_blocks ht, content_lock_blocks ht, content_burn_blocks ht]
  | oversized v _ _ _ => rw [content_logSlash_blocks ht, content_lock_blocks ht]
  | burnt _ _ => rw [queueTx_store, content_burn_blocks ht]
  | plain _ _ => rw [queueTx_store]

end

end RustReplicatedLedger

end WarmLogic.Ledger
