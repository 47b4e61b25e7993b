/-
# WarmLogic.Ledger.LedgerSync — what `sync_state` makes of the receiving ledger.

`sync_state` writes the given balances and blocks over what the ledger has and moves the tail pointer to the last of
the blocks. It removes nothing, and with no blocks it leaves the tail pointer alone. So after a sync the receiver shows
the balances, the state root and the last block of the sender exactly if it had no address the sender does not show,
its backend lists the empty address where the sender shows it, and it had no last block where the sender has none
(`sync_agreement_iff`).

The three conditions are about different trees, and each is decided there: the balances tree has after the sync what
was given, over what was there (`overwritten_eq_iff`), and the tail pointer is replaced only where blocks were given
(`tip_eq_iff`). That the tail pointer then leads to the sender's last block rests on the shape that every ledger keeps
(`Reached.shaped`): a readable block stands under its own hash, so no older entry of the receiver can stand in the
way.
-/
import WarmLogic.Ledger.LedgerChain
import WarmLogic.Ledger.StoreAgreement

namespace WarmLogic.Ledger.RustReplicatedLedger

open WarmLogic.Lib SovereignStorage LawfulStorage

variable {σ τ : Type} [SovereignStorage σ] [LawfulStorage σ] [SovereignStorage τ] [LawfulStorage τ]

/-! ## The batch -/

/-- A `mapM` that succeeds is the `map` of its results. -/
theorem mapM_eq_some {α β : Type} {f : α → Option β} {l : List α} {ys : List β} (h : l.mapM f = some ys) :
    l.map f = ys.map some := by
  induction l generalizing ys with
  | nil =>
      cases h
      rfl
  | cons x l ih =>
      rw [List.mapM_cons] at h
      obtain ⟨y, hy, h⟩ := Option.bind_eq_some_iff.mp h
      obtain ⟨ys', hys, h⟩ := Option.bind_eq_some_iff.mp h
      cases h
      rw [List.map_cons, List.map_cons, hy, ih hys]

/-- The hash of the last of the blocks, empty for none. -/
def lastHash (blocks : List Block) : String := (blocks.getLast?.map (·.hash)).getD ""

/-- The writes of the blocks. -/
def blockOps (env : LedgerEnv) (blocks : List Block) : SovereignBatch :=
  blocks.map fun b => .insert "blocks" (utf8 b.hash) ((env.codec.encodeBlock b).getD [])

/-- The write of the tail pointer. -/
def tailOps (env : LedgerEnv) (blocks : List Block) : SovereignBatch :=
  if lastHash blocks = "" then []
  else [.insert "meta" (utf8 "last_block_hash") ((env.codec.encodeText (lastHash blocks)).getD [])]

/-- **The batch of a sync**, where Borsh takes every block. -/
theorem syncBatch_eq_some {env : LedgerEnv} {w : Balances} {blocks : List Block} {batch : SovereignBatch}
    (h : syncBatch env w blocks = some batch) :
    (∀ b ∈ blocks, env.codec.encodeBlock b ≠ none) ∧
      batch = balanceOps w ++ blockOps env blocks ++ tailOps env blocks := by
  unfold syncBatch at h
  obtain ⟨ops, hops, h⟩ := Option.bind_eq_some_iff.mp h
  obtain ⟨tail, htail, h⟩ := Option.bind_eq_some_iff.mp h
  cases h
  have hmap := mapM_eq_some hops
  have henc : ∀ b ∈ blocks, env.codec.encodeBlock b ≠ none := by
    intro b hb hnone
    have hmem : none ∈ ops.map some := by
      rw [← hmap]
      exact List.mem_map.mpr ⟨b, hb, by rw [hnone, Option.map_none]⟩
    obtain ⟨y, -, hy⟩ := List.mem_map.mp hmem
    exact nomatch hy
  have hopsEq : ops = blockOps env blocks := by
    apply List.map_injective_iff.mpr (Option.some_injective _)
    rw [← hmap, blockOps, List.map_map]
    apply List.map_congr_left
    intro b hb
    obtain ⟨data, hdata⟩ := Option.ne_none_iff_exists'.mp (henc b hb)
    simp [hdata]
  have htailEq : tail = tailOps env blocks := by
    unfold tailOps lastHash
    split at htail
    · rename_i hempty
      rw [if_pos hempty]
      exact (Option.some.inj htail).symm
    · rename_i hne
      obtain ⟨data, hdata, rfl⟩ := Option.map_eq_some_iff.mp htail
      rw [if_neg hne, hdata, Option.getD_some]
  refine ⟨henc, ?_⟩
  rw [hopsEq, htailEq]
  rfl

/-- A write of a block is a write to `blocks`. -/
theorem mem_blockOps {env : LedgerEnv} {blocks : List Block} {op : BatchOp} (h : op ∈ blockOps env blocks) : op.tree = "blocks" := by
  obtain ⟨b, -, rfl⟩ := List.mem_map.mp h
  rfl

/-- The write of the tail pointer is one to `meta`. -/
theorem mem_tailOps {env : LedgerEnv} {blocks : List Block} {op : BatchOp} (h : op ∈ tailOps env blocks) : op.tree = "meta" := by
  unfold tailOps at h
  split at h
  · exact absurd h List.not_mem_nil
  · rw [List.mem_singleton.mp h]
    rfl

/-- **The outcomes of a sync**: refused by Borsh, or the store with the batch applied. -/
theorem syncState_cases (env : LedgerEnv) (l : RustReplicatedLedger σ) (w : Balances) (blocks : List Block) :
    l.syncState env w blocks = (l, .error ()) ∨
      ∃ batch, syncBatch env w blocks = some batch ∧
        l.syncState env w blocks = ({ l with store := (applyBatch l.store batch).1 }, .ok ()) := by
  unfold syncState
  cases hb : syncBatch env w blocks with
  | none => exact .inl rfl
  | some batch =>
      right
      refine ⟨batch, rfl, ?_⟩
      have hok := applyBatch_ok l.store batch
      dsimp only
      split
      · rename_i store heq
        rw [heq]
      · rename_i store e heq
        rw [heq] at hok
        exact nomatch hok

section

variable {env : LedgerEnv} {w : Balances} {blocks : List Block} {batch : SovereignBatch}

/-- The trees of a sync have names without zero bytes. -/
theorem nulFree_syncBatch (h : syncBatch env w blocks = some batch) : ∀ op ∈ batch, NulFree op.tree := by
  intro op hop
  obtain ⟨-, rfl⟩ := syncBatch_eq_some h
  rcases List.mem_append.mp hop with hop | hop
  · rcases List.mem_append.mp hop with hop | hop
    · rw [mem_balanceOps hop]
      exact nulFree_trees _ (by simp)
    · rw [mem_blockOps hop]
      exact nulFree_trees _ (by simp)
  · rw [mem_tailOps hop]
    exact nulFree_trees _ (by simp)

/-- The balances after a sync: what was given, over what was there. -/
theorem content_syncBatch_balances (s : σ) (h : syncBatch env w blocks = some batch) (k v : Bytes) :
    content (applyBatch s batch).1 "balances" k = some v ↔
      (∃ a x, w[a]? = some x ∧ utf8 a = k ∧ amountBytes x = v) ∨
        ((∀ a x, w[a]? = some x → utf8 a ≠ k) ∧ content s "balances" k = some v) := by
  rw [content_applyBatch s batch (nulFree_syncBatch h) "balances" (nulFree_trees _ (by simp))]
  obtain ⟨-, rfl⟩ := syncBatch_eq_some h
  rw [List.foldl_append, List.foldl_append, foldl_on_other, foldl_on_other]
  · exact foldl_balanceOps w (content s) k v
  · intro op hop
    rw [mem_blockOps hop]
    decide
  · intro op hop
    rw [mem_tailOps hop]
    decide

/-- The blocks too. -/
theorem content_syncBatch_blocks (s : σ) (h : syncBatch env w blocks = some batch) :
    content (applyBatch s batch).1 "blocks" = (blockOps env blocks).foldl BatchOp.on (content s) "blocks" := by
  rw [content_applyBatch s batch (nulFree_syncBatch h) "blocks" (nulFree_trees _ (by simp))]
  obtain ⟨-, rfl⟩ := syncBatch_eq_some h
  rw [List.foldl_append, List.foldl_append, foldl_on_other]
  · exact foldl_on_congr (blockOps env blocks) (foldl_balanceOps_other (by decide) w (content s))
  · intro op hop
    rw [mem_tailOps hop]
    decide

/-- And the tail pointer, where it is written. -/
theorem content_syncBatch_meta (s : σ) (h : syncBatch env w blocks = some batch) (k : Bytes) :
    content (applyBatch s batch).1 "meta" k =
      if lastHash blocks ≠ "" ∧ k = utf8 "last_block_hash" then
        some ((env.codec.encodeText (lastHash blocks)).getD [])
      else content s "meta" k := by
  rw [content_applyBatch s batch (nulFree_syncBatch h) "meta" (nulFree_trees _ (by simp))]
  obtain ⟨-, rfl⟩ := syncBatch_eq_some h
  have hrest : (balanceOps w ++ blockOps env blocks).foldl BatchOp.on (content s) "meta" = content s "meta" := by
    apply foldl_on_other
    intro op hop
    rcases List.mem_append.mp hop with hop | hop
    · rw [mem_balanceOps hop]
      decide
    · rw [mem_blockOps hop]
      decide
  rw [List.foldl_append]
  unfold tailOps
  split
  · rename_i hempty
    rw [if_neg (fun hc => hc.1 hempty), List.foldl_nil, hrest]
  · rename_i hne
    rw [List.foldl_cons, List.foldl_nil]
    simp only [BatchOp.on, true_and, ne_eq, hne, not_false_eq_true]
    rw [hrest]

end

/-- What stands in the blocks tree after a sync was written by it, under its own hash, or was there. -/
theorem foldl_blockOps_cases {env : LedgerEnv} {blocks : List Block} {c : String → Bytes → Option Bytes} {k v : Bytes}
    (h : (blockOps env blocks).foldl BatchOp.on c "blocks" k = some v) :
    (∃ b ∈ blocks, k = utf8 b.hash ∧ v = (env.codec.encodeBlock b).getD []) ∨ c "blocks" k = some v := by
  induction blocks generalizing c with
  | nil => exact .inr h
  | cons b blocks ih =>
      rcases ih h with ⟨b', hb', hk⟩ | hold
      · exact .inl ⟨b', List.mem_cons_of_mem b hb', hk⟩
      · simp only [BatchOp.on, true_and] at hold
        split at hold
        · rename_i hk
          exact .inl ⟨b, List.mem_cons_self, hk, (Option.some.inj hold).symm⟩
        · exact .inr hold

/-- The last block written is there. -/
theorem foldl_blockOps_last {env : LedgerEnv} {blocks : List Block} {b : Block} (h : blocks.getLast? = some b)
    (c : String → Bytes → Option Bytes) :
    (blockOps env blocks).foldl BatchOp.on c "blocks" (utf8 b.hash) = some ((env.codec.encodeBlock b).getD []) := by
  obtain ⟨front, rfl⟩ := List.getLast?_eq_some_iff.mp h
  simp [blockOps, List.foldl_append, BatchOp.on]

/-! ## Ledgers -/

/-- A ledger that its own calls produced, from an empty store. -/
inductive Reached (env : LedgerEnv) : RustReplicatedLedger σ → Prop
  | new {store : σ} : Fresh store → Reached env (new store)
  | submitTransaction {l : RustReplicatedLedger σ} (now : UInt64) (tx : Transaction) :
      Reached env l → Reached env (l.submitTransaction env now tx)
  | mineBlock {l : RustReplicatedLedger σ} (m : String) : Reached env l → Reached env (l.mineBlock env m).1
  | applyPenalty {l : RustReplicatedLedger σ} (v : SlashingVerdict) : Reached env l → Reached env (l.applyPenalty v)
  | syncState {l : RustReplicatedLedger σ} (w : Balances) (blocks : List Block) :
      Reached env l → Reached env (l.syncState env w blocks).1

/-- **The shape of a ledger**: a well-formed balances tree, every readable block under its own hash, and no empty hash
in the tail pointer. -/
structure Shaped (env : LedgerEnv) (l : RustReplicatedLedger σ) : Prop where
  wellFormed : l.WellFormed
  keyed : ∀ k data b, content l.store "blocks" k = some data → env.codec.decodeBlock data = some b → k = utf8 b.hash
  tail_ne : l.tailHash env ≠ some ""

/-- An operation that leaves blocks and tail pointer keeps the shape if the balances keep theirs. -/
theorem Shaped.of_blocks {env : LedgerEnv} {l l' : RustReplicatedLedger σ} (h : l.Shaped env) (hwf : l'.WellFormed)
    (hblocks : content l'.store "blocks" = content l.store "blocks")
    (hmeta : content l'.store "meta" = content l.store "meta") : l'.Shaped env := by
  refine ⟨hwf, ?_, ?_⟩
  · rw [hblocks]
    exact h.keyed
  · rw [tailHash_congr hmeta]
    exact h.tail_ne

/-- What Borsh wrote for a block, or left empty, reads as that block or not at all. -/
theorem eq_of_decodeBlock_encoded {env : LedgerEnv} {b b' : Block}
    (h : env.codec.decodeBlock ((env.codec.encodeBlock b).getD []) = some b') : b = b' := by
  cases hdata : env.codec.encodeBlock b with
  | none =>
      rw [hdata, Option.getD_none, env.codec.decodeBlock_nil] at h
      exact nomatch h
  | some data =>
      rw [hdata, Option.getD_some, env.codec.decode_encodeBlock hdata] at h
      exact Option.some.inj h

/-- What was written for a hash, or left empty, reads as that hash or not at all. -/
theorem eq_of_decodeText_hash {env : LedgerEnv} {s s' : String}
    (h : env.codec.decodeText ((env.codec.encodeText s).getD []) = some s') : s = s' := by
  cases hdata : env.codec.encodeText s with
  | none =>
      rw [hdata, Option.getD_none, env.codec.decodeText_nil] at h
      exact nomatch h
  | some data =>
      rw [hdata, Option.getD_some, env.codec.decode_encodeText hdata] at h
      exact Option.some.inj h

/-- **A mined block keeps the shape**: it is written under its own hash, or as an empty entry, which does not read. -/
theorem Shaped.mineBlock {env : LedgerEnv} (hsha : ∀ bs, env.sha3 bs ≠ "") {l : RustReplicatedLedger σ}
    (h : l.Shaped env) (m : String) : (l.mineBlock env m).1.Shaped env := by
  by_cases hm : l.Mines m
  · refine ⟨h.wellFormed.mineBlock env m, ?_, ?_⟩
    · intro k data b hdata hb
      rw [mineBlock_of_mines hm, content_minedBatch_blocks] at hdata
      split at hdata
      · rename_i hk
        rw [← Option.some.inj hdata] at hb
        rw [hk, eq_of_decodeBlock_encoded hb]
      · exact h.keyed k data b hdata hb
    · intro htail
      rw [tailHash, mineBlock_of_mines hm, content_minedBatch_meta, if_pos rfl, Option.bind_some] at htail
      exact hsha _ (eq_of_decodeText_hash htail)
  · rw [mineBlock_of_not_mines hm]
    exact h

/-- **So does a sync**, as every given block is written under its own hash. -/
theorem Shaped.syncState {env : LedgerEnv} {l : RustReplicatedLedger σ} (h : l.Shaped env) (w : Balances)
    (blocks : List Block) : (l.syncState env w blocks).1.Shaped env := by
  rcases syncState_cases env l w blocks with heq | ⟨batch, hbatch, heq⟩
  · rw [heq]
    exact h
  · rw [heq]
    refine ⟨?_, ?_, ?_⟩
    · intro k v hk
      rcases (content_syncBatch_balances l.store hbatch k v).mp hk with ⟨a, x, -, rfl, rfl⟩ | ⟨-, hold⟩
      · exact ⟨a, x, rfl, rfl⟩
      · exact h.wellFormed k v hold
    · intro k data b hdata hb
      change content (applyBatch l.store batch).1 "blocks" k = some data at hdata
      rw [content_syncBatch_blocks l.store hbatch] at hdata
      rcases foldl_blockOps_cases hdata with ⟨b', -, rfl, rfl⟩ | hold
      · rw [eq_of_decodeBlock_encoded hb]
      · exact h.keyed k data b hold hb
    · intro htail
      unfold tailHash at htail
      change (content (applyBatch l.store batch).1 "meta" _).bind _ = some "" at htail
      rw [content_syncBatch_meta l.store hbatch] at htail
      split at htail
      · rename_i hc
        exact hc.1 (eq_of_decodeText_hash htail)
      · exact h.tail_ne htail

/-- **Every ledger has the shape.** -/
theorem Reached.shaped {env : LedgerEnv} (hsha : ∀ bs, env.sha3 bs ≠ "") {l : RustReplicatedLedger σ}
    (h : Reached env l) : l.Shaped env := by
  induction h with
  | @new store hfresh =>
      refine ⟨hfresh.wellFormed, ?_, ?_⟩
      · intro k data b hdata
        cases (hfresh "blocks" (nulFree_trees _ (by simp)) k).symm.trans hdata
      · have hmeta : content (RustReplicatedLedger.new store).store "meta" (utf8 "last_block_hash") = none :=
          hfresh "meta" (nulFree_trees _ (by simp)) _
        rw [tailHash, hmeta, Option.bind_none]
        exact fun hc => absurd hc (by simp)
  | submitTransaction now tx _ ih =>
      exact ih.of_blocks (ih.wellFormed.submitTransaction env now tx)
        (content_submitTransaction (by simp) _ env now tx) (content_submitTransaction (by simp) _ env now tx)
  | mineBlock m _ ih => exact ih.mineBlock hsha m
  | applyPenalty v _ ih =>
      exact ih.of_blocks (ih.wellFormed.applyPenalty v) (content_applyPenalty (by simp) _ v)
        (content_applyPenalty (by simp) _ v)
  | syncState w blocks _ ih => exact ih.syncState w blocks

/-- The hash of a last block is not empty. -/
theorem Shaped.hash_ne {env : LedgerEnv} {l : RustReplicatedLedger σ} (h : l.Shaped env) {b : Block}
    (hb : l.getLastBlock env = some b) : b.hash ≠ "" := by
  rw [getLastBlock_eq] at hb
  obtain ⟨hash, htail, hget⟩ := Option.bind_eq_some_iff.mp hb
  rw [getBlock_eq] at hget
  obtain ⟨data, hdata, hread⟩ := Option.bind_eq_some_iff.mp hget
  have hkey := utf8_inj.mp (h.keyed _ _ _ hdata hread)
  intro hempty
  exact h.tail_ne (by rw [htail, hkey, hempty])

/-! ## After a sync -/

/-- The balances after a sync: the given ones at the listed addresses, and the receiver's own elsewhere. -/
theorem getAllBalances_syncState {env : LedgerEnv} {l : RustReplicatedLedger σ} (hwf : l.WellFormed) (hwf' : ∀ w blocks,
    (l.syncState env w blocks).1.WellFormed) {w : Balances} {blocks : List Block}
    (hok : (l.syncState env w blocks).2 = .ok ()) (a : String) :
    (l.syncState env w blocks).1.getAllBalances[a]? =
      if a ∈ w then (if Listed σ a then w[a]? else none) else l.getAllBalances[a]? := by
  rcases syncState_cases env l w blocks with heq | ⟨batch, hbatch, heq⟩
  · rw [heq] at hok
    exact nomatch hok
  apply Option.ext
  intro x
  rw [getAllBalances_eq_some (hwf' w blocks), heq]
  change Listed σ a ∧ content (applyBatch l.store batch).1 "balances" (utf8 a) = some (amountBytes x) ↔ _
  rw [content_syncBatch_balances l.store hbatch]
  by_cases ha : a ∈ w
  · obtain ⟨y, hy⟩ := Option.isSome_iff_exists.mp (Std.TreeMap.mem_iff_isSome_getElem?.mp ha)
    rw [if_pos ha]
    constructor
    · rintro ⟨hl, ⟨a', x', hw, hk, hv⟩ | ⟨hno, -⟩⟩
      · rw [if_pos hl, ← utf8_inj.mp hk, ← amountBytes_inj.mp hv]
        exact hw
      · exact absurd rfl (hno a y hy)
    · intro hx
      split at hx
      · rename_i hl
        exact ⟨hl, .inl ⟨a, x, hx, rfl, rfl⟩⟩
      · exact nomatch hx
  · rw [if_neg ha, getAllBalances_eq_some hwf]
    have hnone : ∀ a' x', w[a']? = some x' → utf8 a' ≠ utf8 a := by
      intro a' x' hw heq'
      apply ha
      rw [← utf8_inj.mp heq']
      exact Std.TreeMap.mem_iff_isSome_getElem?.mpr (by rw [hw]; rfl)
    constructor
    · rintro ⟨hl, ⟨a', x', hw, hk, -⟩ | ⟨-, hold⟩⟩
      · exact absurd hk (hnone a' x' hw)
      · exact ⟨hl, hold⟩
    · rintro ⟨hl, hold⟩
      exact ⟨hl, .inr ⟨hnone, hold⟩⟩

/-- The last block after a sync: the last one given, or the receiver's own where none was given. -/
theorem getLastBlock_syncState {env : LedgerEnv} {l : RustReplicatedLedger σ} {w : Balances} {blocks : List Block}
    (hhash : ∀ b ∈ blocks.getLast?, b.hash ≠ "") (hok : (l.syncState env w blocks).2 = .ok ()) :
    (l.syncState env w blocks).1.getLastBlock env = if blocks = [] then l.getLastBlock env else blocks.getLast? := by
  rcases syncState_cases env l w blocks with heq | ⟨batch, hbatch, heq⟩
  · rw [heq] at hok
    exact nomatch hok
  rw [heq]
  cases hlast : blocks.getLast? with
  | none =>
      have hnil : blocks = [] := List.getLast?_eq_none_iff.mp hlast
      subst hnil
      have hmeta : content (applyBatch l.store batch).1 "meta" = content l.store "meta" := by
        funext k
        rw [content_syncBatch_meta l.store hbatch, if_neg (fun hc => hc.1 rfl)]
      rw [if_pos rfl, getLastBlock_eq, getLastBlock_eq, tailHash_congr hmeta,
        funext (getBlock_congr (content_syncBatch_blocks l.store hbatch))]
  | some b =>
      have hne : blocks ≠ [] := by
        rintro rfl
        exact nomatch hlast
      have hlh : lastHash blocks = b.hash := by rw [lastHash, hlast, Option.map_some, Option.getD_some]
      have hb : b.hash ≠ "" := hhash b hlast
      obtain ⟨henc, -⟩ := syncBatch_eq_some hbatch
      have hencb := henc b (List.mem_of_getLast? hlast)
      obtain ⟨data, hdata⟩ := Option.ne_none_iff_exists'.mp hencb
      obtain ⟨hdr, hhdr⟩ := Option.ne_none_iff_exists'.mp (env.codec.encodeText_of_block hencb)
      have htail : tailHash env { l with store := (applyBatch l.store batch).1 } = some b.hash := by
        unfold tailHash
        rw [content_syncBatch_meta l.store hbatch, hlh, if_pos ⟨hb, rfl⟩, hhdr, Option.getD_some, Option.bind_some,
          env.codec.decode_encodeText hhdr]
      rw [if_neg hne, getLastBlock_eq, htail, Option.bind_some, getBlock_eq, content_syncBatch_blocks l.store hbatch,
        foldl_blockOps_last hlast, hdata, Option.getD_some, Option.bind_some, env.codec.decode_encodeBlock hdata]

/-- Balances written over a ledger's own show exactly what was written if the ledger showed no other address and lists
the empty one where it was written. -/
theorem overwritten_eq_iff {w own shown : Balances}
    (hshown : ∀ a : String, shown[a]? = if a ∈ w then (if Listed τ a then w[a]? else none) else own[a]?) :
    (∀ a : String, shown[a]? = w[a]?) ↔ (∀ a ∈ own, a ∈ w) ∧ ("" ∈ w → listsEmptyKey τ = true) := by
  constructor
  · intro hsame
    refine ⟨?_, ?_⟩
    · intro a ha
      by_contra hno
      have h1 := hshown a
      rw [if_neg hno, hsame a] at h1
      rw [Std.TreeMap.mem_iff_isSome_getElem?, ← h1, ← Std.TreeMap.mem_iff_isSome_getElem?] at ha
      exact hno ha
    · intro ha
      by_contra hno
      have hlisted : ¬ Listed τ "" := fun h => hno (h rfl)
      have h1 := hshown ""
      rw [if_pos ha, if_neg hlisted, hsame ""] at h1
      rw [Std.TreeMap.mem_iff_isSome_getElem?, h1] at ha
      exact nomatch ha
  · rintro ⟨hsub, hempty⟩ a
    rw [hshown a]
    by_cases ha : a ∈ w
    · rw [if_pos ha, if_pos]
      rintro rfl
      exact hempty ha
    · have hb : a ∉ own := fun hb => ha (hsub a hb)
      rw [if_neg ha, Std.TreeMap.getElem?_eq_none hb, Std.TreeMap.getElem?_eq_none ha]

/-- A tip that is replaced only where blocks were given is the given one if there was none to keep. -/
theorem tip_eq_iff {blocks : List Block} {own last : Option Block} (hnil : blocks = [] ↔ last = none) :
    (if blocks = [] then own else last) = last ↔ (last = none → own = none) := by
  constructor
  · intro htip hnone
    rw [if_pos (hnil.mpr hnone)] at htip
    exact htip.trans hnone
  · intro hown
    split
    · rename_i hb
      rw [hown (hnil.mp hb), hnil.mp hb]
    · rfl

/-- **Agreement after a sync, exactly.** Let `B` take over the balances of `A` and blocks ending with the last block
of `A`, and let the call succeed. Then `B` shows the balances, the state root and the last block of `A` if and only if
`B` showed no address that `A` does not, the backend of `B` lists the empty address where `A` shows it, and `B` had no
last block where `A` has none. -/
theorem sync_agreement_iff (env : LedgerEnv) (hsha : ∀ bs, env.sha3 bs ≠ "") (A : RustReplicatedLedger σ)
    (B : RustReplicatedLedger τ) (hA : Reached env A) (hB : Reached env B) (blocks : List Block)
    (hlast : blocks.getLast? = A.getLastBlock env) (hok : (B.syncState env A.getAllBalances blocks).2 = .ok ()) :
    ((∀ a : String, (B.syncState env A.getAllBalances blocks).1.getAllBalances[a]? = A.getAllBalances[a]?) ∧
        (B.syncState env A.getAllBalances blocks).1.getStateRoot env = A.getStateRoot env ∧
        (B.syncState env A.getAllBalances blocks).1.getLastBlock env = A.getLastBlock env) ↔
      (∀ a ∈ B.getAllBalances, a ∈ A.getAllBalances) ∧ ("" ∈ A.getAllBalances → listsEmptyKey τ = true) ∧
        (A.getLastBlock env = none → B.getLastBlock env = none) := by
  have hshapeA := hA.shaped hsha
  have hshapeB := hB.shaped hsha
  have hbal := getAllBalances_syncState hshapeB.wellFormed (fun w bs => (hshapeB.syncState w bs).wellFormed) hok
  have hblock := getLastBlock_syncState (fun b hb => hshapeA.hash_ne (hlast ▸ hb)) hok
  rw [hlast] at hblock
  have hnil : blocks = [] ↔ A.getLastBlock env = none := by rw [← hlast, List.getLast?_eq_none_iff]
  constructor
  · rintro ⟨hsame, -, htip⟩
    obtain ⟨hsub, hempty⟩ := (overwritten_eq_iff hbal).mp hsame
    rw [hblock] at htip
    exact ⟨hsub, hempty, (tip_eq_iff hnil).mp htip⟩
  · rintro ⟨hsub, hempty, hnone⟩
    have hsame := (overwritten_eq_iff hbal).mpr ⟨hsub, hempty⟩
    refine ⟨hsame, ?_, ?_⟩
    · rw [getStateRoot_eq, getStateRoot_eq, stateText_congr hsame]
    · rw [hblock]
      exact (tip_eq_iff hnil).mpr hnone

/-- A short stand-in for the hash, which tells the few strings of the ledgers below apart. -/
def syncEnv : LedgerEnv where
  sha3 bs := "h" ++ WarmLogic.Federation.hexEncode [bs.sum, UInt8.ofNat bs.length]
  verifyRaw _ _ _ := false
  showF64 _ := ""
  codec := Borsh.ledgerCodec

/-- It is never empty, as no hash is. -/
theorem syncEnv_sha3_ne (bs : Bytes) : syncEnv.sha3 bs ≠ "" := by
  simp [syncEnv]

/-- A ledger in memory with one mined payment. -/
def paidLedger : RustReplicatedLedger MemoryStore :=
  (((new MemoryStore.new).submitTransaction syncEnv 0 genesisTx).mineBlock syncEnv "bob").1

/-- Its own calls produced it. -/
theorem paidLedger_reached : Reached syncEnv paidLedger :=
  .mineBlock "bob" (.submitTransaction 0 genesisTx (.new fresh_memory))

/-- A new store on disk is empty. -/
theorem fresh_redb : Fresh RedbStore.new := by
  intro t _ k
  show RedbStore.new.find t k = none
  simp [RedbStore.find, RedbStore.new]

/-- The ledger in memory with a second payment to the same account, mined on the first block. -/
def twicePaidLedger : RustReplicatedLedger MemoryStore :=
  ((paidLedger.submitTransaction syncEnv 0 { genesisTx with amount := 50, timestamp := 1 }).mineBlock syncEnv "bob").1

/-- So did they this one. -/
theorem twicePaidLedger_reached : Reached syncEnv twicePaidLedger :=
  .mineBlock "bob" (.submitTransaction 0 { genesisTx with amount := 50, timestamp := 1 } paidLedger_reached)

/-- A ledger on disk that has mined the first payment itself. -/
def storedLedger : RustReplicatedLedger RedbStore :=
  (((new RedbStore.new).submitTransaction syncEnv 0 genesisTx).mineBlock syncEnv "bob").1

/-- And the one on disk. -/
theorem storedLedger_reached : Reached syncEnv storedLedger :=
  .mineBlock "bob" (.submitTransaction 0 genesisTx (.new fresh_redb))

/-- The two blocks of the ledger in memory. -/
def twoBlocks : List Block := (paidLedger.getLastBlock syncEnv).toList ++ (twicePaidLedger.getLastBlock syncEnv).toList

/-- A ledger on disk, which has the account and the first block already, takes over the ledger in memory: the account
gets its new amount, and the last block is the second one. -/
theorem stored_ledger_agrees_after_sync :
    storedLedger.getAllBalances["alice"]? = some 100 ∧ twicePaidLedger.getAllBalances["alice"]? = some 150 ∧
    (∃ b, storedLedger.getLastBlock syncEnv = some b ∧ twicePaidLedger.getBlock syncEnv b.hash = some b) ∧
    (storedLedger.syncState syncEnv twicePaidLedger.getAllBalances twoBlocks).2 = .ok () ∧
    (∀ a : String, (storedLedger.syncState syncEnv twicePaidLedger.getAllBalances twoBlocks).1.getAllBalances[a]? =
      twicePaidLedger.getAllBalances[a]?) ∧
    (storedLedger.syncState syncEnv twicePaidLedger.getAllBalances twoBlocks).1.getStateRoot syncEnv =
      twicePaidLedger.getStateRoot syncEnv ∧
    (storedLedger.syncState syncEnv twicePaidLedger.getAllBalances twoBlocks).1.getLastBlock syncEnv =
      twicePaidLedger.getLastBlock syncEnv := by
  have hok : (storedLedger.syncState syncEnv twicePaidLedger.getAllBalances twoBlocks).2 = .ok () := by
    decide +kernel
  have hshared : ((storedLedger.getLastBlock syncEnv).any fun b => decide (twicePaidLedger.getBlock syncEnv b.hash = some b)) = true := by
    decide +kernel
  obtain ⟨b, hb, hblock⟩ := (Option.any_eq_true _ _).mp hshared
  have hkeys : ∀ a ∈ storedLedger.getAllBalances.keys, a ∈ twicePaidLedger.getAllBalances := by
    decide +kernel
  have hempty : ¬ "" ∈ twicePaidLedger.getAllBalances := by
    decide +kernel
  have htip : twicePaidLedger.getLastBlock syncEnv ≠ none := by
    decide +kernel
  have hlast : twoBlocks.getLast? = twicePaidLedger.getLastBlock syncEnv := by
    decide +kernel
  refine ⟨by decide +kernel, by decide +kernel, ⟨b, hb, of_decide_eq_true hblock⟩, hok, ?_⟩
  refine (sync_agreement_iff syncEnv syncEnv_sha3_ne twicePaidLedger storedLedger twicePaidLedger_reached
    storedLedger_reached twoBlocks hlast hok).mpr ⟨?_, ?_, ?_⟩
  · intro a ha
    exact hkeys a (Std.TreeMap.mem_keys.mpr ha)
  · intro h
    exact absurd h hempty
  · intro hnone
    exact absurd hnone htip

/-- The receiver's own account stays beside those of the sender. -/
theorem own_account_survives_sync : ¬ ∀ (env : LedgerEnv), (∀ bs, env.sha3 bs ≠ "") →
    ∀ (A B : RustReplicatedLedger MemoryStore), Reached env A → Reached env B → ∀ blocks : List Block,
      blocks.getLast? = A.getLastBlock env → (B.syncState env A.getAllBalances blocks).2 = .ok () →
      (∀ a : String, (B.syncState env A.getAllBalances blocks).1.getAllBalances[a]? = A.getAllBalances[a]?) ∧
        (B.syncState env A.getAllBalances blocks).1.getStateRoot env = A.getStateRoot env ∧
        (B.syncState env A.getAllBalances blocks).1.getLastBlock env = A.getLastBlock env := by
  intro h
  have hsame := (h syncEnv syncEnv_sha3_ne (new MemoryStore.new) paidLedger (.new fresh_memory) paidLedger_reached []
    (by decide +kernel) (by decide +kernel)).1 "alice"
  exact absurd hsame (by decide +kernel)

end WarmLogic.Ledger.RustReplicatedLedger
