/-
# WarmLogic.Ledger.ForensicMirror — the SQLite mirror of `kernel/economy/ledger.py`, and its audit.

`ReplicatedLedger` keeps its blocks twice: in the Rust ledger, and as rows of SQLite that `commit_block` of
`sys/persistence.py` writes behind it. `ops/audit.py` follows the links of the rows and compares their head with the
last block of the Rust ledger. SQLite is its rows in the order of their ids and its balances; of a row the two columns
the audit reads are kept. The table `ledger`, where `detect_drift` looks when there are no rows, is empty here, and the
`SLASH` entry of a refused proof is left out, as nothing here reads it.

`receive_external_block` writes the rows and balances of the network without asking the Rust ledger.
`inStep_iff` says which calls keep the mirror in step, and `mirror_in_step` carries it along the runs.

The conditions are of two kinds, one for each writer: `MinedInStep` for a block of the Rust ledger, `ExternalInStep`
for one of the network. Each is the least that the new row and the new balances must satisfy, given a mirror that was
in step, so the step lemma is an equivalence, and a run theorem with weaker conditions would be false at the first
call that breaks them.
-/
import WarmLogic.Ledger.LedgerSync
import WarmLogic.Lib.Json

namespace WarmLogic.Ledger

open WarmLogic.Lib
open WarmLogic.Consensus (zeroHash)

/-! ## SQLite -/

/-- What the ledger calls besides the Rust core. -/
structure MirrorEnv extends LedgerEnv where
  /-- Hex SHA-256. -/
  sha256 : Bytes → String
  /-- The text that SQLite makes of a float, by its literal. -/
  realText : List Char → String
  /-- `ZKProofGenerator.verify_proof`. -/
  verifyProof : String → String → List Json → String → Bool

/-- Amounts of SQLite and of Python, by address. -/
abbrev Amounts := Std.TreeMap String Int

/-- A row, with the columns the audit reads. -/
structure BlockRow where
  prevHash : String
  hash : String
  deriving DecidableEq

/-- The tables `blocks`, by id, and `balances`. -/
structure ForensicStore where
  blocks : List BlockRow
  balances : Amounts

/-- An integer of 64 bits with its sign; `sqlite3` raises an OverflowError for others. `Int.negSucc n` is `-n - 1`. -/
def fitsInteger : Int → Bool
  | .ofNat n => decide (n < 2 ^ 63)
  | .negSucc n => decide (n < 2 ^ 63)

/-- What a `TEXT NOT NULL` column keeps of a value; `none` where the statement fails. -/
def textColumn (env : MirrorEnv) : Json → Option String
  | .null => none
  | .bool b => some (if b then "1" else "0")
  | .int n => if fitsInteger n then some (String.ofList (Json.intText n)) else none
  | .float literal => some (env.realText literal)
  | .str s => some (String.ofList s)
  | .arr _ => none
  | .obj _ => none

/-- Whether a value can be bound at all. -/
def bindable : Json → Bool
  | .int n => fitsInteger n
  | .arr _ => false
  | .obj _ => false
  | _ => true

namespace ForensicStore

/-- The hash is taken. -/
def hasHash (store : ForensicStore) (hash : String) : Bool := store.blocks.any fun row => row.hash == hash

/-- The row that `commit_block` inserts; `none` where a statement fails, the hash column is `UNIQUE`. -/
def newRow (env : MirrorEnv) (store : ForensicStore) (prevHash blockHash : Json) (balanceUpdates : Amounts) (index : Json) :
    Option BlockRow :=
  match textColumn env prevHash, textColumn env blockHash with
  | some prevHash, some hash =>
      if bindable index && !store.hasHash hash && balanceUpdates.toList.all fun p => fitsInteger p.2 then
        some ⟨prevHash, hash⟩
      else none
  | _, _ => none

/-- The row and, address by address, `INSERT OR REPLACE INTO balances`. -/
def insertBlock (store : ForensicStore) (row : BlockRow) (balanceUpdates : Amounts) : ForensicStore where
  blocks := store.blocks ++ [row]
  balances := store.balances ∪ balanceUpdates

/-- `commit_block`; `none` is an exception, behind which `with self.conn` has rolled everything back. -/
def commitBlock (env : MirrorEnv) (store : ForensicStore) (prevHash blockHash : Json) (balanceUpdates : Amounts)
    (index : Json) : Option ForensicStore :=
  (store.newRow env prevHash blockHash balanceUpdates index).map fun row => store.insertBlock row balanceUpdates

end ForensicStore

/-! ## The ledger -/

/-- `ReplicatedLedger` with the SQLite part of its store. -/
structure ReplicatedLedger (σ : Type) where
  rustCore : RustReplicatedLedger σ
  store : ForensicStore

/-- An amount of the Rust ledger, as Python sees it. -/
def pyAmount (x : UInt64) : Int := x.toNat

/-- `hashlib.sha256("|".join([f"{k}:{v}" for k, v in items]).encode()).hexdigest()` -/
def claimedRoot (env : MirrorEnv) (balanceUpdates : Amounts) : String :=
  env.sha256 (utf8 ("|".intercalate (balanceUpdates.toList.map fun (k, v) => k ++ ":" ++ String.ofList (Json.intText v))))

namespace ReplicatedLedger

variable {σ : Type} [SovereignStorage σ]

/-- `submit_tx`, of what gets past the checks of Python and of the binding. -/
def submitTx (env : MirrorEnv) (now : UInt64) (l : ReplicatedLedger σ) (tx : Transaction) : ReplicatedLedger σ :=
  { l with rustCore := l.rustCore.submitTransaction env.toLedgerEnv now tx }

/-- `mine_block`; the error is the exception of `commit_block`. -/
def mineBlock (env : MirrorEnv) (l : ReplicatedLedger σ) (minerAddress : String) :
    ReplicatedLedger σ × Except Unit (Option String) :=
  match l.rustCore.mineBlock env.toLedgerEnv minerAddress with
  | (rustCore, none) => (⟨rustCore, l.store⟩, .ok none)
  | (rustCore, some blockHash) =>
      if blockHash = "" then (⟨rustCore, l.store⟩, .ok none)
      else
        match rustCore.getLastBlock env.toLedgerEnv with
        | none => (⟨rustCore, l.store⟩, .ok (some blockHash))
        | some block =>
            match l.store.commitBlock env (.str block.prevHash.toList) (.str block.hash.toList)
                (rustCore.getAllBalances.map fun _ x => pyAmount x) (.int block.index.toNat) with
            | none => (⟨rustCore, l.store⟩, .error ())
            | some store => (⟨rustCore, store⟩, .ok (some blockHash))

/-- `receive_external_block`. After the commit it logs `block_data['hash'][:8]`, which raises for what is no text. -/
def receiveExternalBlock (env : MirrorEnv) (l : ReplicatedLedger σ) (blockData : List (List Char × Json))
    (balanceUpdates : Amounts) (zkProof : String) (transactions : List Json) : ReplicatedLedger σ × Bool :=
  match Json.getItem blockData "index".toList, Json.getItem blockData "prev_hash".toList,
      Json.getItem blockData "tx_ids".toList, Json.getItem blockData "hash".toList with
  | some index, some prevHash, some _, some hash =>
      let prevRoot := l.rustCore.getStateRoot env.toLedgerEnv
      if !env.verifyProof zkProof prevRoot transactions (claimedRoot env balanceUpdates) then (l, false)
      else
        match l.store.commitBlock env prevHash hash balanceUpdates index with
        | none => (l, false)
        | some store =>
            match hash with
            | .str _ => (⟨l.rustCore, store⟩, true)
            | _ => (⟨l.rustCore, store⟩, false)
  | _, _, _, _ => (l, false)

end ReplicatedLedger

/-! ## The audit -/

/-- `text[:8]`. -/
def firstEight (s : String) : String := String.ofList (s.toList.take 8)

/-- `detect_drift`. -/
def ReplicatedLedger.detectDrift {σ : Type} [SovereignStorage σ] (env : MirrorEnv) (l : ReplicatedLedger σ) :
    Option String :=
  match l.rustCore.getLastBlock env.toLedgerEnv, l.store.blocks.getLast? with
  | some sledLast, some row =>
      if row.hash ≠ "" ∧ sledLast.hash ≠ row.hash then
        some ("Head Drift: Sled Head (" ++ firstEight sledLast.hash ++ ") != SQLite Head (" ++ firstEight row.hash ++ ")")
      else none
  | _, _ => none

/-- The loop of `_verify_chain_continuity`: the text of the first broken link. -/
def chainBreak (expectedPrev : String) (i : Nat) : List BlockRow → Option String
  | [] => none
  | row :: rows =>
      if row.prevHash ≠ expectedPrev then
        some ("Chain Break at block " ++ toString i ++ ": Expected prev " ++ expectedPrev ++ ", got " ++ row.prevHash)
      else chainBreak row.hash (i + 1) rows

/-- `_verify_chain_continuity`, with the details of the report. -/
def verifyChainContinuity (store : ForensicStore) (details : List String) : Bool × List String :=
  if store.blocks = [] then (true, details ++ ["Chain is empty (Genesis pending)."])
  else
    match chainBreak zeroHash 0 store.blocks with
    | none => (true, details)
    | some text => (false, details ++ [text])

/-! ## In step -/

namespace ReplicatedLedger

/-- SQLite has the amounts of the Rust ledger. -/
def SameAmounts (amounts : Amounts) (balances : Balances) : Prop := ∀ a : String, amounts[a]? = balances[a]?.map pyAmount

/-- **The mirror is in step**: its rows are a chain, no drift is detected, and the balances are the same. -/
structure InStep {σ : Type} [SovereignStorage σ] (env : MirrorEnv) (l : ReplicatedLedger σ) : Prop where
  continuous : (verifyChainContinuity l.store []).1 = true
  noDrift : l.detectDrift env = none
  balances : SameAmounts l.store.balances l.rustCore.getAllBalances

/-- The hash that the next row has to point to. -/
def headHash (store : ForensicStore) : String := (store.blocks.getLast?.map (·.hash)).getD zeroHash

/-- The links of two parts, and the link between them. -/
theorem chainBreak_append (expectedPrev : String) (i : Nat) (rows : List BlockRow) (row : BlockRow) :
    chainBreak expectedPrev i (rows ++ [row]) = none ↔
      chainBreak expectedPrev i rows = none ∧ row.prevHash = (rows.getLast?.map (·.hash)).getD expectedPrev := by
  induction rows generalizing expectedPrev i with
  | nil => simp [chainBreak]
  | cons first rows ih =>
    rw [List.cons_append, chainBreak, chainBreak]
    by_cases hlink : first.prevHash = expectedPrev
    · rw [if_neg (not_not.mpr hlink), if_neg (not_not.mpr hlink), ih]
      cases hlast : rows.getLast? with
      | none =>
        rw [List.getLast?_eq_none_iff.mp hlast]
        rfl
      | some last => rw [List.getLast?_cons, hlast]; rfl
    · rw [if_pos hlink, if_pos hlink]
      simp

/-- The chain is continuous if no link is broken. -/
theorem continuous_iff (store : ForensicStore) (details : List String) :
    (verifyChainContinuity store details).1 = true ↔ chainBreak zeroHash 0 store.blocks = none := by
  unfold verifyChainContinuity
  split
  · next hnil => simp [hnil, chainBreak]
  · cases chainBreak zeroHash 0 store.blocks <;> simp

/-- A new row keeps the chain if and only if it points to the head. -/
theorem continuous_insertBlock_iff {store : ForensicStore} (h : (verifyChainContinuity store []).1 = true)
    (row : BlockRow) (updates : Amounts) :
    (verifyChainContinuity (store.insertBlock row updates) []).1 = true ↔ row.prevHash = headHash store := by
  rw [continuous_iff] at h ⊢
  show chainBreak zeroHash 0 (store.blocks ++ [row]) = none ↔ row.prevHash = headHash store
  rw [chainBreak_append, and_iff_right h, headHash]

/-! ## What a call leaves -/

variable {σ : Type} [SovereignStorage σ] [LawfulStorage σ]

/-- The block that the Rust core will mine. -/
def nextMined (env : MirrorEnv) (l : ReplicatedLedger σ) (m : String) : Block := l.rustCore.minedBlock env.toLedgerEnv m

/-- SQLite takes the next block: its hash is new, and the amounts behind it are integers of SQLite. -/
def takesMined (env : MirrorEnv) (l : ReplicatedLedger σ) (m : String) : Bool :=
  !l.store.hasHash (l.nextMined env m).hash && l.rustCore.balancesNext.toList.all fun p => fitsInteger (pyAmount p.2)

/-- The row of a block of the network, where the proof is accepted and SQLite takes the row. -/
def externalRow (env : MirrorEnv) (l : ReplicatedLedger σ) (blockData : List (List Char × Json)) (balanceUpdates : Amounts)
    (zkProof : String) (transactions : List Json) : Option BlockRow :=
  match Json.getItem blockData "index".toList, Json.getItem blockData "prev_hash".toList,
      Json.getItem blockData "tx_ids".toList, Json.getItem blockData "hash".toList with
  | some index, some prevHash, some _, some hash =>
      if env.verifyProof zkProof (l.rustCore.getStateRoot env.toLedgerEnv) transactions (claimedRoot env balanceUpdates) then
        l.store.newRow env prevHash hash balanceUpdates index
      else none
  | _, _, _, _ => none

omit [LawfulStorage σ] in
/-- A block of the network changes SQLite alone, and by its row. -/
theorem receiveExternalBlock_fst (env : MirrorEnv) (l : ReplicatedLedger σ) (blockData : List (List Char × Json))
    (balanceUpdates : Amounts) (zkProof : String) (transactions : List Json) :
    (l.receiveExternalBlock env blockData balanceUpdates zkProof transactions).1 =
      match l.externalRow env blockData balanceUpdates zkProof transactions with
      | none => l
      | some row => ⟨l.rustCore, l.store.insertBlock row balanceUpdates⟩ := by
  unfold receiveExternalBlock externalRow
  split
  · next index prevHash _ hash _ _ _ _ =>
    dsimp only
    cases env.verifyProof zkProof (l.rustCore.getStateRoot env.toLedgerEnv) transactions (claimedRoot env balanceUpdates) with
    | false => rfl
    | true =>
      rw [if_neg (by simp), if_pos rfl, ForensicStore.commitBlock]
      cases l.store.newRow env prevHash hash balanceUpdates index with
      | none => rfl
      | some row => cases hash <;> rfl
  · rfl

/-- The amounts that the Rust core shows behind a block. -/
theorem getAllBalances_mined {l : RustReplicatedLedger σ} (hwf : l.WellFormed) {m : String} (h : l.Mines m)
    (env : LedgerEnv) (a : String) : (l.mineBlock env m).1.getAllBalances[a]? = l.balancesNext[a]? := by
  rw [RustReplicatedLedger.getAllBalances_mineBlock hwf h, RustReplicatedLedger.getElem?_balancesNext]

/-- The row of a mined block. -/
theorem newRow_mined {env : MirrorEnv} {l : ReplicatedLedger σ} (hwf : l.rustCore.WellFormed) {m : String}
    (h : l.rustCore.Mines m) :
    l.store.newRow env (.str (l.nextMined env m).prevHash.toList) (.str (l.nextMined env m).hash.toList)
        ((l.rustCore.mineBlock env.toLedgerEnv m).1.getAllBalances.map fun _ x => pyAmount x)
        (.int (l.nextMined env m).index.toNat) =
      if l.takesMined env m then some ⟨(l.nextMined env m).prevHash, (l.nextMined env m).hash⟩ else none := by
  have hindex : bindable (.int (l.nextMined env m).index.toNat) = true := by
    have hlt : (l.nextMined env m).index.toNat < 2 ^ 32 := UInt32.toNat_lt _
    exact decide_eq_true (Nat.lt_trans hlt (by decide))
  have hall : (((l.rustCore.mineBlock env.toLedgerEnv m).1.getAllBalances.map fun _ x => pyAmount x).toList.all
      fun p => fitsInteger p.2) = l.rustCore.balancesNext.toList.all fun p => fitsInteger (pyAmount p.2) := by
    rw [Std.TreeMap.toList_map, List.all_map, toList_congr (getAllBalances_mined hwf h env.toLedgerEnv)]
    simp only [Function.comp_def]
  simp only [ForensicStore.newRow, textColumn, String.ofList_toList, hindex, hall, Bool.true_and, takesMined]
  rfl

omit [LawfulStorage σ] in
/-- `mine_block` behind the Rust core. -/
theorem mineBlock_of_pair {env : MirrorEnv} {l : ReplicatedLedger σ} {m : String} {rustCore : RustReplicatedLedger σ}
    {blockHash : String} (hpair : l.rustCore.mineBlock env.toLedgerEnv m = (rustCore, some blockHash))
    (hne : blockHash ≠ "") :
    (l.mineBlock env m).1 = ⟨rustCore,
      match rustCore.getLastBlock env.toLedgerEnv with
      | none => l.store
      | some block =>
          (l.store.commitBlock env (.str block.prevHash.toList) (.str block.hash.toList)
            (rustCore.getAllBalances.map fun _ x => pyAmount x) (.int block.index.toNat)).getD l.store⟩ := by
  unfold mineBlock
  rw [hpair]
  dsimp only
  rw [if_neg hne]
  cases rustCore.getLastBlock env.toLedgerEnv with
  | none => rfl
  | some block =>
    dsimp only
    cases l.store.commitBlock env (.str block.prevHash.toList) (.str block.hash.toList)
      (rustCore.getAllBalances.map fun _ x => pyAmount x) (.int block.index.toNat) <;> rfl

/-- **What `mine_block` leaves**, where the Rust core mines: its own new state, and the new row where Borsh took the
block and SQLite takes the row. -/
theorem mineBlock_fst {env : MirrorEnv} (hsha : ∀ bs, env.sha3 bs ≠ "") {l : ReplicatedLedger σ}
    (hwf : l.rustCore.WellFormed) {m : String} (h : l.rustCore.Mines m) :
    (l.mineBlock env m).1 =
      ⟨(l.rustCore.mineBlock env.toLedgerEnv m).1,
        if env.codec.encodeBlock (l.nextMined env m) ≠ none ∧ l.takesMined env m = true then
          l.store.insertBlock ⟨(l.nextMined env m).prevHash, (l.nextMined env m).hash⟩
            ((l.rustCore.mineBlock env.toLedgerEnv m).1.getAllBalances.map fun _ x => pyAmount x)
        else l.store⟩ := by
  have hrow := @newRow_mined _ _ _ env _ hwf _ h
  have hrefused : env.codec.encodeBlock (l.nextMined env m) = none → _ := RustReplicatedLedger.getLastBlock_of_refused h
  have hlast : env.codec.encodeBlock (l.nextMined env m) ≠ none → _ := RustReplicatedLedger.getLastBlock_mineBlock h
  have hmined : l.rustCore.mineBlock env.toLedgerEnv m =
      ((l.rustCore.mineBlock env.toLedgerEnv m).1, some (l.nextMined env m).hash) := by
    rw [RustReplicatedLedger.mineBlock_of_mines h]
    rfl
  have hne : (l.nextMined env m).hash ≠ "" := hsha _
  rw [mineBlock_of_pair hmined hne]
  generalize (l.rustCore.mineBlock env.toLedgerEnv m).1 = rustCore at hrow hrefused hlast ⊢
  by_cases henc : env.codec.encodeBlock (l.nextMined env m) = none
  · rw [hrefused henc, if_neg fun hc => hc.1 henc]
  · rw [hlast henc]
    change ReplicatedLedger.mk rustCore ((l.store.commitBlock env (.str (l.nextMined env m).prevHash.toList)
      (.str (l.nextMined env m).hash.toList) _ (.int (l.nextMined env m).index.toNat)).getD l.store) = _
    rw [ForensicStore.commitBlock, hrow]
    cases l.takesMined env m with
    | false =>
      rw [if_neg Bool.false_ne_true, if_neg fun hc => Bool.false_ne_true hc.2]
      rfl
    | true =>
      rw [if_pos rfl, if_pos ⟨henc, rfl⟩]
      rfl

/-! ## Runs -/

end ReplicatedLedger

/-- A call on the ledger, with the clock and the data it meets. -/
inductive MirrorOp where
  | submitTx (now : UInt64) (tx : Transaction)
  | mineBlock (minerAddress : String)
  | receiveExternalBlock (blockData : List (List Char × Json)) (balanceUpdates : Amounts) (zkProof : String)
      (transactions : List Json)

/-- A call that is to leave the mirror in step; a submission may burn an amount in the Rust ledger alone. -/
def MirrorOp.Commits : MirrorOp → Prop
  | .submitTx _ _ => False
  | _ => True

namespace ReplicatedLedger

variable {σ : Type} [SovereignStorage σ] [LawfulStorage σ]

/-- The ledger after a call; exceptions end the call, and the ledger is as they leave it. -/
def apply (env : MirrorEnv) (l : ReplicatedLedger σ) : MirrorOp → ReplicatedLedger σ
  | .submitTx now tx => l.submitTx env now tx
  | .mineBlock m => (l.mineBlock env m).1
  | .receiveExternalBlock blockData updates zkProof txs => (l.receiveExternalBlock env blockData updates zkProof txs).1

/-- Calls on a ledger whose two stores start empty. -/
def mirrorRuns (env : MirrorEnv) : System (ReplicatedLedger σ) MirrorOp where
  init l := (∃ store, RustReplicatedLedger.Fresh store ∧ l.rustCore = RustReplicatedLedger.new store) ∧ l.store = ⟨[], ∅⟩
  step op l := some (l.apply env op)

/-- When a mined block keeps the mirror in step. One that SQLite takes must point to the head of the rows, and SQLite
must have no address that the Rust ledger lacks. One that SQLite does not take, or that Borsh refused, must leave the
amounts as SQLite has them, and the head where it was. -/
structure MinedInStep (env : MirrorEnv) (l : ReplicatedLedger σ) (m : String) : Prop where
  refused : env.codec.encodeBlock (l.nextMined env m) = none → SameAmounts l.store.balances l.rustCore.balancesNext
  taken : env.codec.encodeBlock (l.nextMined env m) ≠ none → l.takesMined env m = true →
    (l.nextMined env m).prevHash = headHash l.store ∧ ∀ a ∈ l.store.balances, a ∈ l.rustCore.balancesNext
  notTaken : env.codec.encodeBlock (l.nextMined env m) ≠ none → l.takesMined env m = false →
    (∀ row ∈ l.store.blocks.getLast?, row.hash = "" ∨ (l.nextMined env m).hash = row.hash) ∧
      SameAmounts l.store.balances l.rustCore.balancesNext

/-- When the row of a block of the network does: it must point to the head of the rows, be the last block of the Rust
ledger, if there is one, and bring no amount that the Rust ledger has not. -/
structure ExternalInStep (env : MirrorEnv) (l : ReplicatedLedger σ) (row : BlockRow) (updates : Amounts) : Prop where
  linked : row.prevHash = headHash l.store
  head : ∀ b ∈ l.rustCore.getLastBlock env.toLedgerEnv, row.hash = "" ∨ b.hash = row.hash
  balances : SameAmounts (l.store.balances ∪ updates) l.rustCore.getAllBalances

/-- **When a call keeps the mirror in step**; one that writes nothing must find the amounts the same. -/
def KeepsInStep (env : MirrorEnv) (op : MirrorOp) (l : ReplicatedLedger σ) : Prop :=
  match op with
  | .submitTx _ _ => True
  | .mineBlock m =>
      (¬ l.rustCore.Mines m → SameAmounts l.store.balances l.rustCore.getAllBalances) ∧
        (l.rustCore.Mines m → l.MinedInStep env m)
  | .receiveExternalBlock blockData updates zkProof txs =>
      (l.externalRow env blockData updates zkProof txs = none → SameAmounts l.store.balances l.rustCore.getAllBalances) ∧
        ∀ row, l.externalRow env blockData updates zkProof txs = some row → l.ExternalInStep env row updates

omit [LawfulStorage σ] in
/-- No drift: the two heads agree, or one of them is not there to compare. -/
theorem detectDrift_eq_none_iff (env : MirrorEnv) (l : ReplicatedLedger σ) :
    l.detectDrift env = none ↔
      ∀ row ∈ l.store.blocks.getLast?, ∀ b ∈ l.rustCore.getLastBlock env.toLedgerEnv, row.hash = "" ∨ b.hash = row.hash := by
  unfold detectDrift
  cases l.rustCore.getLastBlock env.toLedgerEnv with
  | none => simp
  | some b =>
    cases l.store.blocks.getLast? with
    | none => simp
    | some row =>
      dsimp only
      split
      · next h => simp [h.1, h.2]
      · next h =>
        refine iff_of_true rfl ?_
        rintro _ ⟨⟩ _ ⟨⟩
        exact or_iff_not_imp_left.mpr fun hne => not_not.mp fun hdiff => h ⟨hne, hdiff⟩

/-- Amounts are compared address by address. -/
theorem SameAmounts.congr {amounts amounts' : Amounts} {balances balances' : Balances}
    (ha : ∀ a : String, amounts[a]? = amounts'[a]?) (hb : ∀ a : String, balances[a]? = balances'[a]?) :
    SameAmounts amounts balances ↔ SameAmounts amounts' balances' := by
  unfold SameAmounts
  simp only [ha, hb]

/-- Amounts under those of the Rust ledger are the same if there are no other addresses. -/
theorem sameAmounts_union_iff (amounts : Amounts) (balances : Balances) :
    SameAmounts (amounts ∪ balances.map fun _ x => pyAmount x) balances ↔ ∀ a ∈ amounts, a ∈ balances := by
  have hlookup : ∀ a : String, (amounts ∪ balances.map fun _ x => pyAmount x)[a]? =
      (balances[a]?.map pyAmount).or amounts[a]? := fun a => by
    rw [Std.TreeMap.getElem?_union, Std.TreeMap.getElem?_map]
  constructor
  · intro hsame a ha
    have h := hsame a
    rw [hlookup] at h
    cases hb : balances[a]? with
    | some x => exact Std.TreeMap.mem_iff_isSome_getElem?.mpr (by rw [hb]; rfl)
    | none =>
      rw [hb, Option.map_none, Option.none_or] at h
      rw [Std.TreeMap.mem_iff_isSome_getElem?, h] at ha
      cases ha
  · intro hsub a
    rw [hlookup]
    cases hb : balances[a]? with
    | some x => rfl
    | none =>
      rw [Option.map_none, Option.none_or]
      refine Std.TreeMap.getElem?_eq_none fun ha => ?_
      have hmem := Std.TreeMap.mem_iff_isSome_getElem?.mp (hsub a ha)
      rw [hb] at hmem
      cases hmem

/-- **The invariant of the runs**: a balances tree in shape, a continuous chain, and no drift. It does not say that
the balances are the same: a submission may burn in the Rust ledger alone, so that part is asked anew at each call
that commits. -/
structure Linked (env : MirrorEnv) (l : ReplicatedLedger σ) : Prop where
  wellFormed : l.rustCore.WellFormed
  continuous : (verifyChainContinuity l.store []).1 = true
  noDrift : l.detectDrift env = none

omit [LawfulStorage σ] in
/-- A new row, and the Rust ledger as it is then. -/
theorem inStep_insertBlock_iff {env : MirrorEnv} {rustCore : RustReplicatedLedger σ} {store : ForensicStore}
    (h : (verifyChainContinuity store []).1 = true) (row : BlockRow) (updates : Amounts) :
    InStep env ⟨rustCore, store.insertBlock row updates⟩ ↔ ExternalInStep env ⟨rustCore, store⟩ row updates := by
  have hdrift : detectDrift env ⟨rustCore, store.insertBlock row updates⟩ = none ↔
      ∀ b ∈ rustCore.getLastBlock env.toLedgerEnv, row.hash = "" ∨ b.hash = row.hash := by
    rw [detectDrift_eq_none_iff]
    show (∀ last ∈ (store.blocks ++ [row]).getLast?, _) ↔ _
    rw [List.getLast?_concat]
    exact ⟨fun hall => hall row rfl, fun hall _ hlast => Option.some.inj hlast ▸ hall⟩
  constructor
  · rintro ⟨hchain, hnone, hsame⟩
    exact ⟨(continuous_insertBlock_iff h row updates).mp hchain, hdrift.mp hnone, hsame⟩
  · rintro ⟨hlink, hhead, hsame⟩
    exact ⟨(continuous_insertBlock_iff h row updates).mpr hlink, hdrift.mpr hhead, hsame⟩

omit [LawfulStorage σ] in
/-- The same rows and balances, and the Rust ledger as it is then. -/
theorem inStep_sameStore_iff {env : MirrorEnv} {rustCore : RustReplicatedLedger σ} {store : ForensicStore}
    (h : (verifyChainContinuity store []).1 = true) :
    InStep env ⟨rustCore, store⟩ ↔
      (∀ row ∈ store.blocks.getLast?, ∀ b ∈ rustCore.getLastBlock env.toLedgerEnv, row.hash = "" ∨ b.hash = row.hash) ∧
        SameAmounts store.balances rustCore.getAllBalances := by
  constructor
  · rintro ⟨-, hnone, hsame⟩
    exact ⟨(detectDrift_eq_none_iff env _).mp hnone, hsame⟩
  · rintro ⟨hhead, hsame⟩
    exact ⟨h, (detectDrift_eq_none_iff env _).mpr hhead, hsame⟩

/-- A mined block, by the condition on it. -/
theorem inStep_mineBlock_iff {env : MirrorEnv} (hsha : ∀ bs, env.sha3 bs ≠ "") {l : ReplicatedLedger σ} (h : l.Linked env)
    {m : String} (hm : l.rustCore.Mines m) : InStep env (l.mineBlock env m).1 ↔ l.MinedInStep env m := by
  rw [mineBlock_fst hsha h.wellFormed hm]
  have hbalances := getAllBalances_mined h.wellFormed hm env.toLedgerEnv
  have hrefused : env.codec.encodeBlock (l.nextMined env m) = none → _ := RustReplicatedLedger.getLastBlock_of_refused hm
  have hlast : env.codec.encodeBlock (l.nextMined env m) ≠ none → _ := RustReplicatedLedger.getLastBlock_mineBlock hm
  generalize (l.rustCore.mineBlock env.toLedgerEnv m).1 = rustCore at hbalances hrefused hlast ⊢
  have hsame : SameAmounts l.store.balances rustCore.getAllBalances ↔
      SameAmounts l.store.balances l.rustCore.balancesNext := SameAmounts.congr (fun _ => rfl) hbalances
  by_cases henc : env.codec.encodeBlock (l.nextMined env m) = none
  · rw [if_neg fun hc => hc.1 henc, inStep_sameStore_iff h.continuous, hrefused henc]
    constructor
    · rintro ⟨-, hbal⟩
      exact ⟨fun _ => hsame.mp hbal, fun hne => absurd henc hne, fun hne => absurd henc hne⟩
    · intro hmined
      exact ⟨fun row _ b hb => (by cases hb), hsame.mpr (hmined.refused henc)⟩
  have hlast' : rustCore.getLastBlock env.toLedgerEnv = some (l.nextMined env m) := hlast henc
  cases htakes : l.takesMined env m with
  | true =>
    rw [if_pos ⟨henc, rfl⟩, inStep_insertBlock_iff h.continuous]
    have hmem : ∀ a : String, a ∈ rustCore.getAllBalances ↔ a ∈ l.rustCore.balancesNext := fun a => by
      rw [Std.TreeMap.mem_iff_isSome_getElem?, hbalances, ← Std.TreeMap.mem_iff_isSome_getElem?]
    have hsub : SameAmounts (l.store.balances ∪ rustCore.getAllBalances.map fun _ x => pyAmount x) rustCore.getAllBalances ↔
        ∀ a ∈ l.store.balances, a ∈ l.rustCore.balancesNext := by
      simp only [sameAmounts_union_iff, hmem]
    constructor
    · rintro ⟨hlink, -, hbal⟩
      exact ⟨fun hnone => absurd hnone henc, fun _ _ => ⟨hlink, hsub.mp hbal⟩,
        fun _ hno => absurd (hno.symm.trans htakes) Bool.false_ne_true⟩
    · intro hmined
      obtain ⟨hlink, hall⟩ := hmined.taken henc htakes
      refine ⟨hlink, ?_, hsub.mpr hall⟩
      intro b hb
      rw [hlast', Option.mem_some] at hb
      exact .inr (congrArg Block.hash hb.symm)
  | false =>
    rw [if_neg fun hc => Bool.false_ne_true hc.2, inStep_sameStore_iff h.continuous, hlast']
    constructor
    · rintro ⟨hhead, hbal⟩
      exact ⟨fun hnone => absurd hnone henc, fun _ hyes => absurd (htakes.symm.trans hyes) Bool.false_ne_true,
        fun _ _ => ⟨fun row hrow => hhead row hrow _ rfl, hsame.mp hbal⟩⟩
    · intro hmined
      obtain ⟨hhead, hbal⟩ := hmined.notTaken henc htakes
      exact ⟨fun row hrow b hb => Option.some.inj hb ▸ hhead row hrow, hsame.mpr hbal⟩

omit [LawfulStorage σ] in
/-- A call that writes nothing leaves the mirror in step if it finds the amounts the same. -/
theorem inStep_unchanged_iff {env : MirrorEnv} {l : ReplicatedLedger σ} (hcontinuous : (verifyChainContinuity l.store []).1 = true)
    (hdrift : l.detectDrift env = none) : InStep env l ↔ SameAmounts l.store.balances l.rustCore.getAllBalances :=
  ⟨fun hin => hin.balances, fun hsame => ⟨hcontinuous, hdrift, hsame⟩⟩

/-- **The step lemma, exactly**: behind a call that is to leave the mirror in step, it is in step if and only if the
call met the condition. -/
theorem inStep_iff {env : MirrorEnv} (hsha : ∀ bs, env.sha3 bs ≠ "") {l : ReplicatedLedger σ} (h : l.Linked env) {op : MirrorOp}
    (hop : op.Commits) : InStep env (l.apply env op) ↔ KeepsInStep env op l := by
  cases op with
  | submitTx now tx => exact hop.elim
  | mineBlock m =>
    show InStep env (l.mineBlock env m).1 ↔ (¬ l.rustCore.Mines m → _) ∧ (l.rustCore.Mines m → _)
    by_cases hm : l.rustCore.Mines m
    · rw [inStep_mineBlock_iff hsha h hm]
      exact ⟨fun hmined => ⟨fun hno => absurd hm hno, fun _ => hmined⟩, fun hok => hok.2 hm⟩
    · have hunchanged : (l.mineBlock env m).1 = l := by
        unfold mineBlock
        rw [RustReplicatedLedger.mineBlock_of_not_mines hm]
      rw [hunchanged, inStep_unchanged_iff h.continuous h.noDrift]
      exact ⟨fun hsame => ⟨fun _ => hsame, fun hyes => absurd hyes hm⟩, fun hok => hok.1 hm⟩
  | receiveExternalBlock blockData updates zkProof txs =>
    show InStep env (l.receiveExternalBlock env blockData updates zkProof txs).1 ↔ _
    rw [receiveExternalBlock_fst, KeepsInStep]
    cases hrow : l.externalRow env blockData updates zkProof txs with
    | none =>
      rw [inStep_unchanged_iff h.continuous h.noDrift]
      exact ⟨fun hsame => ⟨fun _ => hsame, fun row hsome => absurd hsome.symm (Option.some_ne_none row)⟩, fun hok => hok.1 rfl⟩
    | some row =>
      rw [inStep_insertBlock_iff h.continuous row updates]
      refine ⟨fun hin => ⟨fun hnone => absurd hnone (Option.some_ne_none row), ?_⟩, fun hok => hok.2 row rfl⟩
      rintro _ ⟨⟩
      exact hin

/-- Every call keeps the balances tree in shape. -/
theorem wellFormed_apply (env : MirrorEnv) {l : ReplicatedLedger σ} (h : l.rustCore.WellFormed) (op : MirrorOp) :
    (l.apply env op).rustCore.WellFormed := by
  cases op with
  | submitTx now tx => exact h.submitTransaction env.toLedgerEnv now tx
  | mineBlock m =>
    have hcore : (l.mineBlock env m).1.rustCore = (l.rustCore.mineBlock env.toLedgerEnv m).1 := by
      unfold mineBlock
      split
      · next hpair => rw [hpair]
      · next hpair =>
        rw [hpair]
        split
        · rfl
        · split
          · rfl
          · split <;> rfl
    show (l.mineBlock env m).1.rustCore.WellFormed
    rw [hcore]
    exact h.mineBlock env.toLedgerEnv m
  | receiveExternalBlock blockData updates zkProof txs =>
    show (l.receiveExternalBlock env blockData updates zkProof txs).1.rustCore.WellFormed
    rw [receiveExternalBlock_fst]
    split
    · exact h
    · exact h

/-- A submission touches neither the rows nor the last block. -/
theorem Linked.submitTx {env : MirrorEnv} {l : ReplicatedLedger σ} (h : l.Linked env) (now : UInt64) (tx : Transaction) :
    (l.submitTx env now tx).Linked env := by
  have hblocks := RustReplicatedLedger.content_submitTransaction (by simp : "blocks" ∈ ["blocks", "meta"]) l.rustCore
    env.toLedgerEnv now tx
  have hmeta := RustReplicatedLedger.content_submitTransaction (by simp : "meta" ∈ ["blocks", "meta"]) l.rustCore
    env.toLedgerEnv now tx
  have hlast : (l.rustCore.submitTransaction env.toLedgerEnv now tx).getLastBlock env.toLedgerEnv =
       l.rustCore.getLastBlock env.toLedgerEnv := by
    rw [RustReplicatedLedger.getLastBlock_eq, RustReplicatedLedger.getLastBlock_eq,
      RustReplicatedLedger.tailHash_congr hmeta, funext (RustReplicatedLedger.getBlock_congr hblocks)]
  refine ⟨h.wellFormed.submitTransaction env.toLedgerEnv now tx, h.continuous, ?_⟩
  have hdrift := h.noDrift
  rw [detectDrift_eq_none_iff] at hdrift ⊢
  show ∀ row ∈ l.store.blocks.getLast?, ∀ b ∈ (l.rustCore.submitTransaction env.toLedgerEnv now tx).getLastBlock
    env.toLedgerEnv, _
  rw [hlast]
  exact hdrift

/-- Every state of a run whose calls meet the condition is linked. -/
theorem linked_of_reachable {env : MirrorEnv} (hsha : ∀ bs, env.sha3 bs ≠ "") {l : ReplicatedLedger σ}
    (h : (mirrorRuns env).Reachable (KeepsInStep env) l) : l.Linked env := by
  refine System.Reachable.invariant ?_ ?_ h
  · rintro l ⟨⟨store, hfresh, hcore⟩, hstore⟩
    refine ⟨hcore ▸ hfresh.wellFormed, ?_, ?_⟩
    · rw [hstore]
      rfl
    · rw [detectDrift_eq_none_iff, hstore]
      exact fun row hrow => by cases hrow
  · rintro l op _ hl hok ⟨⟩
    by_cases hop : op.Commits
    · have hin := (inStep_iff hsha hl hop).mpr hok
      exact ⟨wellFormed_apply env hl.wellFormed op, hin.continuous, hin.noDrift⟩
    · cases op with
      | submitTx now tx => exact hl.submitTx now tx
      | mineBlock m => exact absurd trivial hop
      | receiveExternalBlock blockData updates zkProof txs => exact absurd trivial hop

/-- **The mirror stays in step** in every run whose calls meet the condition: after each `mine_block` and each
`receive_external_block` its rows are a chain, no drift is detected and the balances are those of the Rust ledger. -/
theorem mirror_in_step {env : MirrorEnv} (hsha : ∀ bs, env.sha3 bs ≠ "") {l : ReplicatedLedger σ}
    {past : List (ReplicatedLedger σ)} (hrun : (mirrorRuns env).Run (KeepsInStep env) (l :: past)) {op : MirrorOp}
    (hcall : op.Commits) (hok : KeepsInStep env op l) : (l.apply env op).InStep env :=
  (inStep_iff hsha (linked_of_reachable hsha ⟨past, hrun⟩) hcall).mpr hok

/-! ## A payment, and a block of the network -/

/-- Every proof is accepted. -/
def trustingEnv : MirrorEnv where
  toLedgerEnv := RustReplicatedLedger.syncEnv
  sha256 _ := ""
  realText := String.ofList
  verifyProof _ _ _ _ := true

/-- Its hashes are not empty. -/
theorem trustingEnv_sha3_ne (bs : Bytes) : trustingEnv.sha3 bs ≠ "" := RustReplicatedLedger.syncEnv_sha3_ne bs

/-- A new ledger in memory. -/
def mirrorStart : ReplicatedLedger MemoryStore := ⟨RustReplicatedLedger.new MemoryStore.new, ⟨[], ∅⟩⟩

/-- It is a start of these runs. -/
theorem mirrorStart_init : (mirrorRuns trustingEnv).init mirrorStart :=
  ⟨⟨MemoryStore.new, RustReplicatedLedger.fresh_memory, rfl⟩, rfl⟩

/-- The payment waits for its block. -/
def paidMirror : ReplicatedLedger MemoryStore := mirrorStart.submitTx trustingEnv 0 RustReplicatedLedger.genesisTx

/-- The calls behind it. -/
theorem paidMirror_run : (mirrorRuns trustingEnv).Run (KeepsInStep trustingEnv) [paidMirror, mirrorStart] :=
  .step (a := .submitTx 0 RustReplicatedLedger.genesisTx) (.init mirrorStart_init) trivial rfl

/-- Its next block keeps the mirror in step. -/
theorem paidMirror_keeps : KeepsInStep trustingEnv (.mineBlock "bob") paidMirror := by
  have hmines : paidMirror.rustCore.Mines "bob" := by decide +kernel
  have henc : trustingEnv.codec.encodeBlock (paidMirror.nextMined trustingEnv "bob") ≠ none := by decide +kernel
  have htakes : paidMirror.takesMined trustingEnv "bob" = true := by decide +kernel
  have hlink : (paidMirror.nextMined trustingEnv "bob").prevHash = headHash paidMirror.store := by decide +kernel
  have hstore : paidMirror.store = ⟨[], ∅⟩ := rfl
  refine ⟨fun hno => absurd hmines hno, fun _ => ⟨fun hnone => absurd hnone henc, fun _ _ => ⟨hlink, ?_⟩, ?_⟩⟩
  · rw [hstore]
    exact fun a ha => absurd ha Std.TreeMap.not_mem_emptyc
  · exact fun _ hno => absurd (hno.symm.trans htakes) Bool.false_ne_true

/-- The first mined payment is mirrored. -/
theorem mined_payment_in_step : (paidMirror.apply trustingEnv (.mineBlock "bob")).InStep trustingEnv :=
  mirror_in_step trustingEnv_sha3_ne paidMirror_run trivial paidMirror_keeps

/-- A block of the network that points nowhere and pays Alice. -/
def forgedBlock : MirrorOp :=
  .receiveExternalBlock
    [("index".toList, .int 7), ("prev_hash".toList, .str "nowhere".toList), ("tx_ids".toList, .arr []),
      ("hash".toList, .str "forged".toList)]
    (Std.TreeMap.ofList [("alice", (5 : Int))]) "proof" []

/-- **The mirror does not stay in step**: behind GENESIS's first block and a block of the network with an accepted proof
the chain is broken, the drift is detected, and the balances differ. -/
theorem forged_block_breaks_mirror :
    ∃ (l : ReplicatedLedger MemoryStore) (past : List (ReplicatedLedger MemoryStore)),
      (mirrorRuns trustingEnv).Run (fun _ _ => True) (l :: past) ∧
        (verifyChainContinuity l.store []).1 = false ∧ (l.detectDrift trustingEnv).isSome = true ∧
          l.store.balances["alice"]? = some 5 ∧ l.rustCore.getAllBalances["alice"]? = none := by
  obtain ⟨l, past, hrun, h⟩ := System.exists_run_of_play (fun _ _ => True)
    (P := fun (l : ReplicatedLedger MemoryStore) _ =>
      (verifyChainContinuity l.store []).1 = false ∧ (l.detectDrift trustingEnv).isSome = true ∧
        l.store.balances["alice"]? = some 5 ∧ l.rustCore.getAllBalances["alice"]? = none)
    mirrorStart_init [fun _ => .mineBlock "GENESIS", fun _ => forgedBlock] (by decide +kernel)
  exact ⟨l, past, hrun, h⟩

end ReplicatedLedger

end WarmLogic.Ledger
