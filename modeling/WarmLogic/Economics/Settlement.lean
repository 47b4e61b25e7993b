/-
# WarmLogic.Economics.Settlement — the settlement engine and the law of its three pools.

`economics.rs`: a reserve, the ledgers of the nodes and an escrow, between which `settle_labor`, `lock_funds` and
`process_bounty_claim` move units. `u64` is `UInt64`, so the credits wrap, as in the release profile; the debit of the
reserve in `settle_labor` saturates. The two `BTreeMap`s are ordered maps.

No unit should appear or vanish. Three slips break that: a settlement credits the whole reward although the reserve
had less, a credit wraps, and a lock under a bounty id that already holds an escrow overwrites it. `total_run_iff`
lists exactly these.
-/
import WarmLogic.Lib.MapSum
import WarmLogic.Lib.Counter

namespace WarmLogic.Economics

open WarmLogic.Lib

/-- The engine responsible for settling cognitive debts and rewards. -/
structure SettlementEngine where
  totalReserve : UInt64
  ledgers : Std.TreeMap String UInt64
  escrow : Std.TreeMap String UInt64

namespace SettlementEngine

/-- `new`: the genesis reserve. -/
def new : SettlementEngine := { totalReserve := 10000000, ledgers := ∅, escrow := ∅ }

/-- `u64::saturating_sub`. -/
def saturatingSub (a b : UInt64) : UInt64 := if b ≤ a then a - b else 0

/-- The value at an id, 0 where there is none: `get(id).unwrap_or(&0)`, and `entry(id).or_insert(0)` read. -/
def held (m : Std.TreeMap String UInt64) (id : String) : UInt64 := m[id]?.getD 0

/-- `settle_labor`. -/
def settleLabor (e : SettlementEngine) (nodeId : String) (reward : UInt64) : SettlementEngine :=
  { e with
    totalReserve := saturatingSub e.totalReserve reward
    ledgers := e.ledgers.insert nodeId (held e.ledgers nodeId + reward) }

/-- `lock_funds`: from the node's balance where it has enough, else from the reserve. -/
def lockFunds (e : SettlementEngine) (nodeId : String) (amount : UInt64) (bountyId : String) :
    SettlementEngine × Bool :=
  let balance := held e.ledgers nodeId
  if balance ≥ amount then
    ({ e with
        ledgers := e.ledgers.insert nodeId (balance - amount)
        escrow := e.escrow.insert bountyId amount }, true)
  else if e.totalReserve ≥ amount then
    ({ e with
        totalReserve := e.totalReserve - amount
        escrow := e.escrow.insert bountyId amount }, true)
  else (e, false)

/-- `process_bounty_claim`: the escrow of the bounty goes to the solver. -/
def processBountyClaim (e : SettlementEngine) (bountyId solverId : String) : SettlementEngine × Bool :=
  match e.escrow[bountyId]? with
  | some amount =>
      ({ e with
          escrow := e.escrow.erase bountyId
          ledgers := e.ledgers.insert solverId (held e.ledgers solverId + amount) }, true)
  | none => (e, false)

/-! ## Totals -/

/-- The units in a map. -/
def pool (m : Std.TreeMap String UInt64) : ℤ := mapSum (fun x : UInt64 => (x.toNat : ℤ)) m

theorem pool_insert (m : Std.TreeMap String UInt64) (id : String) (x : UInt64) :
    pool (m.insert id x) = pool m - (held m id).toNat + x.toNat := by
  rw [pool, mapSum_insert, weightAt_toNat, pool, held]

theorem pool_erase (m : Std.TreeMap String UInt64) (id : String) :
    pool (m.erase id) = pool m - (held m id).toNat := by
  rw [pool, mapSum_erase, weightAt_toNat, pool, held]

/-- The reserve, the ledgers and the escrow together. -/
def total (e : SettlementEngine) : ℤ := e.totalReserve.toNat + pool e.ledgers + pool e.escrow

theorem toNat_saturatingSub (a b : UInt64) : (saturatingSub a b).toNat = a.toNat - b.toNat := by
  unfold saturatingSub
  split
  · rename_i h
    exact UInt64.toNat_sub_of_le _ _ h
  · rename_i h
    have := UInt64.lt_iff_toNat_lt.mp (UInt64.not_le.mp h)
    simp only [UInt64.toNat_zero]
    omega

/-! ## One call -/

inductive SettlementOp where
  | settleLabor (nodeId : String) (reward : UInt64)
  | lockFunds (nodeId : String) (amount : UInt64) (bountyId : String)
  | processBountyClaim (bountyId solverId : String)

/-- A call, with its result; `settle_labor` has none. -/
def call (e : SettlementEngine) : SettlementOp → SettlementEngine × Option Bool
  | .settleLabor nodeId reward => (e.settleLabor nodeId reward, none)
  | .lockFunds nodeId amount bountyId => ((e.lockFunds nodeId amount bountyId).1, some (e.lockFunds nodeId amount bountyId).2)
  | .processBountyClaim bountyId solverId =>
      ((e.processBountyClaim bountyId solverId).1, some (e.processBountyClaim bountyId solverId).2)

/-- The call moves units and neither makes nor loses any: a settlement has its whole reward in the reserve and its
credit fits a `u64`; a lock that finds the funds finds no units in escrow under its bounty id; the escrow that a claim
releases fits the solver's balance. -/
def Sound (e : SettlementEngine) : SettlementOp → Prop
  | .settleLabor nodeId reward =>
      reward ≤ e.totalReserve ∧ (held e.ledgers nodeId).toNat + reward.toNat < 2 ^ 64
  | .lockFunds nodeId amount bountyId =>
      amount ≤ held e.ledgers nodeId ∨ amount ≤ e.totalReserve → held e.escrow bountyId = 0
  | .processBountyClaim bountyId solverId =>
      (held e.ledgers solverId).toNat + (held e.escrow bountyId).toNat < 2 ^ 64

/-- A settlement adds what the reserve could not pay, and loses 2^64 when the credit wraps. -/
theorem total_settleLabor (e : SettlementEngine) (nodeId : String) (reward : UInt64) :
    (e.settleLabor nodeId reward).total = e.total + ((reward.toNat - e.totalReserve.toNat : ℕ) : ℤ) -
      2 ^ 64 * (if 2 ^ 64 ≤ (held e.ledgers nodeId).toNat + reward.toNat then 1 else 0) := by
  simp only [total, settleLabor, pool_insert, toNat_saturatingSub, toNat_add_eq]
  omega

/-- A lock that finds the funds loses what its bounty id had in escrow. -/
theorem total_lockFunds (e : SettlementEngine) (nodeId : String) (amount : UInt64) (bountyId : String) :
    (e.lockFunds nodeId amount bountyId).1.total = e.total -
      if amount ≤ held e.ledgers nodeId ∨ amount ≤ e.totalReserve then ((held e.escrow bountyId).toNat : ℤ) else 0 := by
  unfold lockFunds
  by_cases hbal : amount ≤ held e.ledgers nodeId
  · have hle := UInt64.le_iff_toNat_le.mp hbal
    rw [if_pos hbal, if_pos (Or.inl hbal)]
    simp only [total, pool_insert, UInt64.toNat_sub_of_le _ _ hbal]
    omega
  · by_cases hres : amount ≤ e.totalReserve
    · have hle := UInt64.le_iff_toNat_le.mp hres
      rw [if_neg hbal, if_pos hres, if_pos (Or.inr hres)]
      simp only [total, pool_insert, UInt64.toNat_sub_of_le _ _ hres]
      omega
    · rw [if_neg hbal, if_neg hres, if_neg (not_or_intro hbal hres), sub_zero]

/-- A claim loses 2^64 when the credit wraps. -/
theorem total_processBountyClaim (e : SettlementEngine) (bountyId solverId : String) :
    (e.processBountyClaim bountyId solverId).1.total = e.total -
      2 ^ 64 * (if 2 ^ 64 ≤ (held e.ledgers solverId).toNat + (held e.escrow bountyId).toNat then 1 else 0) := by
  unfold processBountyClaim
  cases h : e.escrow[bountyId]? with
  | none =>
      have hzero : held e.escrow bountyId = 0 := by rw [held, h, Option.getD_none]
      have hlt := (held e.ledgers solverId).toNat_lt
      rw [hzero, UInt64.toNat_zero, if_neg (by omega), mul_zero, sub_zero]
  | some amount =>
      have heq : held e.escrow bountyId = amount := by rw [held, h, Option.getD_some]
      simp only [total, pool_insert, pool_erase, toNat_add_eq, heq]
      omega

/-- **One call keeps the total exactly if it is sound.** -/
theorem total_call_iff (e : SettlementEngine) (op : SettlementOp) : (e.call op).1.total = e.total ↔ e.Sound op := by
  cases op with
  | settleLabor nodeId reward =>
      have hlt := reward.toNat_lt
      simp only [call, Sound, total_settleLabor, UInt64.le_iff_toNat_le]
      split <;> omega
  | lockFunds nodeId amount bountyId =>
      simp only [call, Sound, total_lockFunds, ← UInt64.toNat_inj, UInt64.toNat_zero]
      split
      · rename_i h
        simp only [h, true_imp_iff]
        omega
      · rename_i h
        simp only [h, false_imp_iff, sub_zero]
  | processBountyClaim bountyId solverId =>
      simp only [call, Sound, total_processBountyClaim]
      split <;> omega

/-- A call that answers `false` was refused before it wrote anything. -/
theorem call_of_false {e : SettlementEngine} {op : SettlementOp} (h : (e.call op).2 = some false) :
    (e.call op).1 = e := by
  cases op with
  | settleLabor nodeId reward => exact nomatch h
  | lockFunds nodeId amount bountyId =>
      have hres : (e.lockFunds nodeId amount bountyId).2 = false := Option.some.inj h
      show (e.lockFunds nodeId amount bountyId).1 = e
      unfold lockFunds at hres ⊢
      by_cases hbal : amount ≤ held e.ledgers nodeId
      · rw [if_pos hbal] at hres
        exact nomatch hres
      · by_cases hfund : amount ≤ e.totalReserve
        · rw [if_neg hbal, if_pos hfund] at hres
          exact nomatch hres
        · rw [if_neg hbal, if_neg hfund]
  | processBountyClaim bountyId solverId =>
      have hres : (e.processBountyClaim bountyId solverId).2 = false := Option.some.inj h
      show (e.processBountyClaim bountyId solverId).1 = e
      unfold processBountyClaim at hres ⊢
      split at hres
      · exact nomatch hres
      · rfl

/-! ## Runs -/

/-- The engine after a sequence of calls. -/
def run (e : SettlementEngine) (ops : List SettlementOp) : SettlementEngine := ops.foldl (fun e op => (e.call op).1) e

theorem run_append_singleton (e : SettlementEngine) (ops : List SettlementOp) (op : SettlementOp) :
    e.run (ops ++ [op]) = ((e.run ops).call op).1 := by
  simp [run]

/-- **Economic conservation, exactly.** The reserve, the ledgers and the escrow keep their total in every state of a
run if and only if each call of the run is sound where it is made; and whatever a run did before, a call that answers
`false` changes nothing. -/
theorem total_run_iff (e : SettlementEngine) (ops : List SettlementOp) :
    ((∀ done, done <+: ops → (e.run done).total = e.total) ↔
      ∀ done op, done ++ [op] <+: ops → (e.run done).Sound op) ∧
    ∀ done op, done ++ [op] <+: ops → ((e.run done).call op).2 = some false → e.run (done ++ [op]) = e.run done := by
  refine ⟨⟨?_, ?_⟩, ?_⟩
  · intro h done op hpre
    have hbefore := h done ((List.prefix_append done [op]).trans hpre)
    have hafter := h (done ++ [op]) hpre
    rw [run_append_singleton] at hafter
    exact (total_call_iff _ _).mp (hafter.trans hbefore.symm)
  · intro h done
    -- the calls made so far, the newest last
    induction done using List.reverseRecOn with
    | nil =>
        intro _
        rfl
    | append_singleton done op ih =>
        intro hpre
        rw [run_append_singleton, (total_call_iff _ _).mpr (h done op hpre)]
        exact ih ((List.prefix_append done [op]).trans hpre)
  · intro done op _ hfalse
    rw [run_append_singleton]
    exact call_of_false hfalse

/-- From the genesis engine: one reward of a unit more than the reserve makes that unit. -/
theorem total_settleLabor_beyond_reserve :
    (new.run [.settleLabor "node" 10000001]).total ≠ new.total := by
  show (new.settleLabor "node" 10000001).total ≠ new.total
  rw [total_settleLabor]
  decide

end SettlementEngine

end WarmLogic.Economics
