/-
# WarmLogic.Ledger.ReplicatedLedger — `ledger.rs`, with the part of `slashing.rs` it calls.

The ledger is generic in its store. A `&mut self` method is a function from the ledger to the new one (and its
result). `u64` and `u32` are `UInt64` and `UInt32`: sums wrap, as in the release profile. A `HashMap` of
balances is an ordered map here; no function depends on its order (`get_state_root` sorts). An `f64` is its
bit pattern, shown by `LedgerEnv.showF64`; a severity is given in hundredths, the ledger passes 99, 85 and 0.
The four test signatures `submit_transaction` accepts under `cfg!(test)` are not in the model, which is of a
build without tests.

The store holds `balances`, `blocks`, `locks`, `slash_logs` and `meta`, each value in Borsh. How a block, a verdict or the
text of the tail pointer is written lies outside: `LedgerCodec` is what the ledger needs of it, that a value reads back,
that nothing is written as the empty entry, and that a block is written only with its hash. All that is proved about the
ledger holds for any such codec; `Borsh.ledgerCodec` (`BlockCodec`) is the one of the derived implementations. An amount
is its eight bytes, the low one first.

Failures are where the source has them, and mostly swallowed there: a balance that cannot be read counts as 0, a
listing with one bad value as no balances at all, and a block that Borsh refuses is stored as an empty entry.
-/
import WarmLogic.Ledger.SovereignStore
import WarmLogic.Consensus.Types

namespace WarmLogic.Ledger

open WarmLogic.Lib WarmLogic.Consensus

/-- A transaction as it is submitted. `tx_id` is replaced when it is queued. -/
structure Transaction where
  txId : String
  source : String
  target : String
  amount : UInt64
  signature : String
  timestamp : UInt64
  maxFee : UInt64
  priorityFee : UInt64
  deriving DecidableEq

/-- A mined block: the transactions are there by their ids, the balances by the text of their root. -/
structure Block where
  index : UInt32
  timestamp : UInt64
  txIds : List String
  prevHash : String
  hash : String
  miner : String
  zkProof : Option String
  stateRoot : Option String
  baseFeePerGas : UInt64
  deriving DecidableEq

/-! ## Slashing -/

/-- `ViolationType`. The ledger evaluates the first and the third. -/
inductive ViolationType where
  | policyViolation
  | doubleVoting
  | invalidSignature
  | invalidZkProof
  | conflictingViewChange
  | taskCompletionFraud
  | attestationForgery
  | livenessFailure
  deriving DecidableEq

/-- `Penalty`; the two about reputation and suspension leave the ledger as it is. -/
inductive Penalty where
  | stateLock
  | economicBurn (amount : UInt64)
  | identityIsolation
  | reputationSlash (points : UInt32)
  | temporarySuspension (epochs : UInt32)
  | totalIsolation (amount : UInt64)
  deriving DecidableEq

/-- The field `witness` is left out: it is `None` in every verdict the ledger makes, and never read. -/
structure SlashingVerdict where
  reason : String
  penalty : Penalty
  actor : String
  violationType : Option ViolationType
  evidenceHash : Option String
  timestamp : UInt64
  deriving DecidableEq

/-- `SlashingConfig`, with its defaults. The ledger reads the last one. -/
structure SlashingConfig where
  doubleVoteBurn : UInt64 := 1000
  invalidZkBurn : UInt64 := 500
  taskFraudReputationSlash : UInt32 := 50
  livenessSuspensionEpochs : UInt32 := 10
  invalidSignatureBurn : UInt64 := 5000

/-- `SlashingEngine`, by its configuration: the ledger never looks at `slashed_actors`. -/
structure SlashingEngine where
  config : SlashingConfig := {}

namespace SlashingEngine

/-- `evaluate_violation_raw`; `now` is the clock the source reads, `severity` in hundredths. -/
def evaluateViolationRaw (now : UInt64) (actor : String) (severity : Nat) : Option SlashingVerdict :=
  if 95 < severity then
    some
      { reason := "Critical Policy Violation detected in ACT Engine"
        penalty := .stateLock
        actor := actor
        violationType := some .policyViolation
        evidenceHash := none
        timestamp := now }
  else if 80 < severity then
    some
      { reason := "Suspicious Economic Pattern"
        penalty := .economicBurn 100
        actor := actor
        violationType := some .policyViolation
        evidenceHash := none
        timestamp := now }
  else none

/-- `evaluate_invalid_signature`: what a forged transaction costs its named source. -/
def evaluateInvalidSignature (e : SlashingEngine) (now : UInt64) (actor txId : String) : SlashingVerdict where
  reason := "Invalid ML-DSA-65 signature on transaction: Cryptographic Identity Mismatch"
  penalty := .totalIsolation e.config.invalidSignatureBurn
  actor := actor
  violationType := some .invalidSignature
  evidenceHash := some txId
  timestamp := now

end SlashingEngine

/-! ## What lies outside -/

/-- The Borsh implementations of a block, a verdict and a text, as `RustSovereignStore` uses them: an encoder may refuse a
value, and a decoder takes the whole entry. -/
structure LedgerCodec where
  encodeBlock : Block → Option Bytes
  decodeBlock : Bytes → Option Block
  encodeText : String → Option Bytes
  decodeText : Bytes → Option String
  encodeVerdict : SlashingVerdict → Option Bytes
  /-- A stored block reads back. -/
  decode_encodeBlock : ∀ {b bs}, encodeBlock b = some bs → decodeBlock bs = some b
  /-- So does a stored text. -/
  decode_encodeText : ∀ {s bs}, encodeText s = some bs → decodeText bs = some s
  /-- The empty entry, which stands for a refused value, reads as no block. -/
  decodeBlock_nil : decodeBlock [] = none
  /-- And as no text. -/
  decodeText_nil : decodeText [] = none
  /-- A block is written with its hash. -/
  encodeText_of_block : ∀ {b}, encodeBlock b ≠ none → encodeText b.hash ≠ none

/-- What the ledger calls and this development does not open. -/
structure LedgerEnv where
  /-- Hex SHA3-256 of a byte string. -/
  sha3 : Bytes → String
  /-- `MLDSA::verify_raw`: public key, message, signature, all texts. -/
  verifyRaw : String → String → String → Bool
  /-- The decimal text of an `f64`, given by its bits. -/
  showF64 : UInt64 → String
  codec : LedgerCodec

/-- The signed text `source:target:amount:timestamp:max_fee:priority_fee`, hashed again for `tx_id`. -/
def Transaction.payload (env : LedgerEnv) (tx : Transaction) : String :=
  tx.source ++ ":" ++ tx.target ++ ":" ++ toString tx.amount.toNat ++ ":" ++ env.showF64 tx.timestamp ++ ":" ++
    toString tx.maxFee.toNat ++ ":" ++ toString tx.priorityFee.toNat

/-! ## Amounts -/

namespace Borsh

open WarmLogic.Consensus.Borsh

/-- `from_slice`: decode, and leave nothing over. -/
def fromSlice {α : Type} (d : Decoder α) (bs : Bytes) : Option α :=
  match d bs with
  | some (x, []) => some x
  | _ => none

/-- An amount, by its bytes. -/
def decodeAmount (bs : Bytes) : Option UInt64 := fromSlice decodeU64 bs

/-- A stored balance reads back. -/
theorem decodeAmount_leBytes (x : UInt64) : decodeAmount (leBytes 8 x.toNat) = some x := by
  have h := codec_u64.decode_encode (x := x) rfl []
  rw [List.append_nil] at h
  rw [decodeAmount, fromSlice, h]

end Borsh

/-! ## `String::from_utf8_lossy` -/

/-- The sequence at the front of the input: whether it is a well-formed character, and how many bytes it
takes. A malformed one is the longest front part of a character, or one byte. -/
def leadingSequence : Bytes → Bool × Nat
  | [] => (true, 0)
  | b :: bs =>
      let inRange (lo hi x : UInt8) : Bool := decide (lo ≤ x ∧ x ≤ hi)
      let cont (i : Nat) : Bool := inRange 0x80 0xBF (bs[i]?.getD 0)
      let second := bs[0]?.getD 0
      if b < 0x80 then (true, 1)
      else if inRange 0xC2 0xDF b then (if cont 0 then (true, 2) else (false, 1))
      else if inRange 0xE0 0xEF b then
        let ok := if b = 0xE0 then inRange 0xA0 0xBF second
          else if b = 0xED then inRange 0x80 0x9F second else cont 0
        if !ok then (false, 1) else if !cont 1 then (false, 2) else (true, 3)
      else if inRange 0xF0 0xF4 b then
        let ok := if b = 0xF0 then inRange 0x90 0xBF second
          else if b = 0xF4 then inRange 0x80 0x8F second else cont 0
        if !ok then (false, 1) else if !cont 1 then (false, 2) else if !cont 2 then (false, 3) else (true, 4)
      else (false, 1)

/-- The bytes with every malformed sequence replaced by U+FFFD; the fuel is the number of bytes. -/
def replaceMalformed : Nat → Bytes → Bytes
  | 0, _ => []
  | _, [] => []
  | n + 1, bs =>
      let (ok, len) := leadingSequence bs
      (if ok then bs.take len else [0xEF, 0xBF, 0xBD]) ++ replaceMalformed n (bs.drop len)

/-- Valid UTF-8 is taken as it is. -/
def fromUtf8Lossy (bs : Bytes) : String :=
  (String.fromUTF8? ⟨bs.toArray⟩).getD
    ((String.fromUTF8? ⟨(replaceMalformed bs.length bs).toArray⟩).getD "")

/-- The bytes of a text read back as the text. -/
theorem fromUtf8Lossy_utf8 (s : String) : fromUtf8Lossy (utf8 s) = s := by
  have hs : String.fromUTF8? ⟨(utf8 s).toArray⟩ = some s :=
    WarmLogic.Consensus.Borsh.fromUTF8?_eq_some.mpr rfl
  rw [fromUtf8Lossy, hs, Option.getD_some]

example : fromUtf8Lossy [0x61, 0xE2, 0x82, 0x62, 0xFF] = "a\uFFFDb\uFFFD" := by decide +kernel

/-! ## The ledger -/

/-- `RustReplicatedLedger`: a store, what is pending, and the slashing rules. -/
structure RustReplicatedLedger (σ : Type) where
  store : σ
  pendingTxs : List Transaction
  slashingEngine : SlashingEngine

/-- A map from addresses to amounts, `HashMap<String, u64>`. -/
abbrev Balances := Std.TreeMap String UInt64

/-- `balances.get(a).cloned().unwrap_or(0)`. -/
def balanceOf (balances : Balances) (a : String) : UInt64 := balances[a]?.getD 0

namespace RustReplicatedLedger

open SovereignStorage

variable {σ : Type} [SovereignStorage σ]

/-- `new` on an opened store. -/
def new (store : σ) : RustReplicatedLedger σ where
  store := store
  pendingTxs := []
  slashingEngine := {}

/-- `b"LOCKED"`. -/
def locked : Bytes := utf8 "LOCKED"

/-- `get_raw("locks", a).unwrap_or(None)`. -/
def lockOf (l : RustReplicatedLedger σ) (a : String) : Option Bytes :=
  match getRaw l.store "locks" (utf8 a) with
  | .ok lock => lock
  | .error _ => none

/-- `RustSovereignStore::get`. -/
def get {α : Type} (read : Bytes → Option α) (s : σ) (tree : String) (key : Bytes) : Except Unit (Option α) :=
  match getRaw s tree key with
  | .error _ => .error ()
  | .ok none => .ok none
  | .ok (some data) =>
      match read data with
      | none => .error ()
      | some val => .ok (some val)

/-- `RustSovereignStore::get_all`: one undecodable value fails the whole listing. -/
def getAll {α : Type} (read : Bytes → Option α) (s : σ) (tree : String) : Option (List (Bytes × α)) :=
  match getAllRaw s tree with
  | .error _ => none
  | .ok raw => raw.mapM fun (k, v) => (read v).map fun val => (k, val)

/-- Both failures are read as 0. -/
def getBalance (l : RustReplicatedLedger σ) (address : String) : UInt64 :=
  match get Borsh.decodeAmount l.store "balances" (utf8 address) with
  | .ok (some balance) => balance
  | .ok none => 0
  | .error _ => 0

/-- A listing that fails is read as no balances at all. -/
def getAllBalances (l : RustReplicatedLedger σ) : Balances :=
  match getAll Borsh.decodeAmount l.store "balances" with
  | none => ∅
  | some items => items.foldl (fun balances (k, v) => balances.insert (fromUtf8Lossy k) v) ∅

/-- `get_state_root`: the hash of `address:amount|` for every balance, in the order of the addresses. -/
def getStateRoot (env : LedgerEnv) (l : RustReplicatedLedger σ) : String :=
  let items := l.getAllBalances.toList
  env.sha3 (utf8 ("|".intercalate (items.map fun (k, v) => k ++ ":" ++ toString v.toNat)))

/-- The burn of both burning penalties: the balance less the amount, no less than 0, is written. -/
def burn (l : RustReplicatedLedger σ) (actor : String) (amount : UInt64) : RustReplicatedLedger σ :=
  let currentBalance := balanceOf l.getAllBalances actor
  let newBalance := if amount ≤ currentBalance then currentBalance - amount else 0
  { l with store := (insertRaw l.store "balances" (utf8 actor) (leBytes 8 newBalance.toNat)).1 }

/-- `locks` gets an entry for the account. -/
def lock (l : RustReplicatedLedger σ) (actor : String) : RustReplicatedLedger σ :=
  { l with store := (insertRaw l.store "locks" (utf8 actor) locked).1 }

/-- `apply_penalty`: a lock, a burn, both, or nothing; the result of each write is ignored. -/
def applyPenalty (l : RustReplicatedLedger σ) (verdict : SlashingVerdict) : RustReplicatedLedger σ :=
  match verdict.penalty with
  | .stateLock => l.lock verdict.actor
  | .economicBurn amount => l.burn verdict.actor amount
  | .totalIsolation amount => (l.burn verdict.actor amount).lock verdict.actor
  | _ => l

/-- The entry of a rejected transaction in `slash_logs`. -/
def logSlash (env : LedgerEnv) (l : RustReplicatedLedger σ) (txId : String) (verdict : SlashingVerdict) :
    RustReplicatedLedger σ :=
  { l with store := (insertRaw l.store "slash_logs" (utf8 txId) ((env.codec.encodeVerdict verdict).getD [])).1 }

/-- `Slashing Check 1`: the severity of an amount, in hundredths. -/
def severity (amount : UInt64) : Nat :=
  if amount > 1000000 then 99 else if amount > 500000 then 85 else 0

/-- The end of `submit_transaction`: nothing for a source with any lock entry, else queue under a new id. -/
def queueTx (env : LedgerEnv) (l : RustReplicatedLedger σ) (tx : Transaction) : RustReplicatedLedger σ :=
  if (l.lockOf tx.source).isSome then l
  else { l with pendingTxs := l.pendingTxs ++ [{ tx with txId := env.sha3 (utf8 (tx.payload env)) }] }

/-- `Mandatory PQC Signature Verification`; the source `GENESIS` needs none. -/
def authentic (env : LedgerEnv) (tx : Transaction) : Bool :=
  tx.source == "GENESIS" || env.verifyRaw tx.source (tx.payload env) tx.signature

/-- `submit_transaction`: a forged signature costs its named source a burn and a lock, an amount that is too large a
lock or a burn. A forged transaction and one that is answered with a lock are dropped, all others go on to the queue.
-/
def submitTransaction (env : LedgerEnv) (now : UInt64) (l : RustReplicatedLedger σ) (tx : Transaction) :
    RustReplicatedLedger σ :=
  if l.lockOf tx.source = some locked then l
  else if !authentic env tx then
    let verdict := l.slashingEngine.evaluateInvalidSignature now tx.source tx.txId
    (l.applyPenalty verdict).logSlash env tx.txId verdict
  else
    match SlashingEngine.evaluateViolationRaw now tx.source (severity tx.amount) with
    | none => l.queueTx env tx
    | some verdict =>
        let l := l.applyPenalty verdict
        if verdict.penalty = .stateLock then l.logSlash env tx.txId verdict else l.queueTx env tx

/-- One turn of the loop of `mine_block`; `none` when the transaction is skipped. The check and the debit both
compute `amount + max_fee`, which wraps. -/
def applyTx (balances : Balances) (tx : Transaction) : Option Balances :=
  if tx.source ≠ "GENESIS" ∧ balanceOf balances tx.source < tx.amount + tx.maxFee then none
  else
    let debited :=
      if tx.source ≠ "GENESIS" then
        balances.insert tx.source (balanceOf balances tx.source - (tx.amount + tx.maxFee))
      else balances
    some (debited.insert tx.target (balanceOf debited tx.target + tx.amount))

/-- The loop of `mine_block` over the pending transactions, in the order they came. -/
def applyPending (balances : Balances) : List Transaction → Balances × List Transaction
  | [] => (balances, [])
  | tx :: txs =>
      match applyTx balances tx with
      | none => applyPending balances txs
      | some balances' => ((applyPending balances' txs).1, tx :: (applyPending balances' txs).2)

/-- `get_last_block`: the tail pointer, and the block under it. -/
def getLastBlock (env : LedgerEnv) (l : RustReplicatedLedger σ) : Option Block :=
  match get env.codec.decodeText l.store "meta" (utf8 "last_block_hash") with
  | .ok (some hash) =>
      match get env.codec.decodeBlock l.store "blocks" (utf8 hash) with
      | .ok block => block
      | .error _ => none
  | _ => none

/-- `get_block`. -/
def getBlock (env : LedgerEnv) (l : RustReplicatedLedger σ) (hash : String) : Option Block :=
  match get env.codec.decodeBlock l.store "blocks" (utf8 hash) with
  | .ok block => block
  | .error _ => none

/-- The block `mine_block` makes; `state_root` is that of the balances BEFORE it. -/
def nextBlock (env : LedgerEnv) (l : RustReplicatedLedger σ) (minerAddress : String) (txIds : List String) :
    Block :=
  let lastBlock := l.getLastBlock env
  let prevHash := (lastBlock.map (·.hash)).getD zeroHash
  let nextIndex := (lastBlock.map (·.index + 1)).getD 0
  { index := nextIndex
    timestamp := 4745077528400494592
    txIds := txIds
    prevHash := prevHash
    hash := env.sha3 (utf8 prevHash ++ utf8 minerAddress ++ (leBytes 4 nextIndex.toNat).reverse)
    miner := minerAddress
    zkProof := none
    stateRoot := some (l.getStateRoot env)
    baseFeePerGas := 10 }

/-- The writes of a mined block: every balance, the block, and the tail pointer. -/
def minedBatch (env : LedgerEnv) (balances : Balances) (block : Block) : SovereignBatch :=
  (balances.toList.map fun (addr, amount) => .insert "balances" (utf8 addr) (leBytes 8 amount.toNat)) ++
    [.insert "blocks" (utf8 block.hash) ((env.codec.encodeBlock block).getD []),
     .insert "meta" (utf8 "last_block_hash") ((env.codec.encodeText block.hash).getD [])]

/-- `mine_block`: one batch for balances, block and tail pointer. The pending transactions are gone afterwards,
applied or not. -/
def mineBlock (env : LedgerEnv) (l : RustReplicatedLedger σ) (minerAddress : String) :
    RustReplicatedLedger σ × Option String :=
  if (l.lockOf minerAddress).isSome then (l, none)
  else if l.pendingTxs = [] ∧ minerAddress ≠ "GENESIS" then (l, none)
  else
    let (balances, included) := applyPending l.getAllBalances l.pendingTxs
    let block := l.nextBlock env minerAddress (included.map (·.txId))
    ({ l with
        store := (applyBatch l.store (minedBatch env balances block)).1
        pendingTxs := [] }, some block.hash)

/-- The writes of `sync_state`: every given balance, every given block, and the tail pointer to the last of them
unless its hash is empty; nothing is removed. `none` when Borsh refuses a block or the hash. -/
def syncBatch (env : LedgerEnv) (balances : Balances) (blocks : List Block) : Option SovereignBatch := do
  let lastHash := (blocks.getLast?.map (·.hash)).getD ""
  let blockOps ← blocks.mapM fun block =>
    (env.codec.encodeBlock block).map fun data => BatchOp.insert "blocks" (utf8 block.hash) data
  let tailOps ← (if lastHash = "" then some []
    else (env.codec.encodeText lastHash).map fun data =>
      [BatchOp.insert "meta" (utf8 "last_block_hash") data])
  some ((balances.toList.map fun (addr, amount) => .insert "balances" (utf8 addr) (leBytes 8 amount.toNat)) ++
    blockOps ++ tailOps)

/-- `sync_state`; the text of its errors, which are those of Borsh and of the store, is left out. -/
def syncState (env : LedgerEnv) (l : RustReplicatedLedger σ) (balances : Balances) (blocks : List Block) :
    RustReplicatedLedger σ × Except Unit Unit :=
  match syncBatch env balances blocks with
  | none => (l, .error ())
  | some batch =>
      match applyBatch l.store batch with
      | (store, .ok ()) => ({ l with store := store }, .ok ())
      | (store, .error _) => ({ l with store := store }, .error ())

end RustReplicatedLedger

end WarmLogic.Ledger
