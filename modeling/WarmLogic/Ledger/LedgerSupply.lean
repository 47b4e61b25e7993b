/-
# WarmLogic.Ledger.LedgerSupply — the supply law of `mine_block`.

A block should change the sum of all balances by the GENESIS amounts it includes, less the fees of the other
transactions it includes, and no transfer should add to it. `u64` sums wrap, and the loop makes two of them:
`amount + max_fee`, checked and debited, and `target_balance + amount`, credited. A wrapped debit creates
2^64 units, a wrapped credit destroys as many. So the law holds exactly when at every included transaction
either both sums wrap or neither does, and nothing is left at an address the backend does not list.

Totals are taken over `Nat`, where nothing wraps, and a turn of the loop is measured against them: `total_applyTx`
says that the total moves by what is due and by 2^64 for each of the two sums that wraps, `total_applyPending` adds
this up over the loop, and the law is that the creations and destructions are none (`exact_iff`). `FitsSupply` is what
a caller can check: while the supply and all that GENESIS may add fit a `u64`, no sum of the loop can wrap.
-/
import WarmLogic.Ledger.BlockCodec
import WarmLogic.Ledger.LedgerStore
import WarmLogic.Lib.Counter

namespace WarmLogic.Ledger.RustReplicatedLedger

open WarmLogic.Lib SovereignStorage LawfulStorage

/-! ## Totals of the working balances -/

/-- The sum of all balances. -/
def total (b : Balances) : ℤ := mapSum (fun x : UInt64 => (x.toNat : ℤ)) b

/-- What an address weighs is its balance. -/
theorem weightAt_eq (b : Balances) (a : String) :
    weightAt (fun x : UInt64 => (x.toNat : ℤ)) b a = ((balanceOf b a).toNat : ℤ) :=
  weightAt_toNat b a

/-- One balance written: the total loses the old one and gains the new. -/
theorem total_insert (b : Balances) (a : String) (x : UInt64) :
    total (b.insert a x) = total b - (balanceOf b a).toNat + x.toNat := by
  rw [total, mapSum_insert, weightAt_eq, total]

/-- No one has more than there is. -/
theorem balanceOf_le_total (b : Balances) (a : String) : ((balanceOf b a).toNat : ℤ) ≤ total b := by
  rw [← weightAt_eq]
  exact weightAt_le_mapSum (fun x => Int.natCast_nonneg x.toNat) b a

/-! ## One transaction -/

/-- The working balances after the debit of a transaction that is not skipped. -/
def afterDebit (b : Balances) (tx : Transaction) : Balances :=
  if tx.source ≠ "GENESIS" then b.insert tx.source (balanceOf b tx.source - (tx.amount + tx.maxFee)) else b

/-- `amount + max_fee` wraps; a GENESIS transaction has no debit. -/
def DebitOverflows (tx : Transaction) : Prop :=
  tx.source ≠ "GENESIS" ∧ 2 ^ 64 ≤ tx.amount.toNat + tx.maxFee.toNat

/-- `target_balance + amount` wraps. -/
def CreditOverflows (b : Balances) (tx : Transaction) : Prop :=
  2 ^ 64 ≤ (balanceOf (afterDebit b tx) tx.target).toNat + tx.amount.toNat

instance (tx : Transaction) : Decidable (DebitOverflows tx) := inferInstanceAs (Decidable (_ ∧ _))

instance (b : Balances) (tx : Transaction) : Decidable (CreditOverflows b tx) :=
  inferInstanceAs (Decidable (_ ≤ _))

/-- What a transaction should add to the supply. -/
def due (tx : Transaction) : ℤ := if tx.source = "GENESIS" then tx.amount.toNat else -tx.maxFee.toNat

/-- The units an included transaction creates beyond that, in multiples of 2^64. -/
def gap (b : Balances) (tx : Transaction) : ℤ :=
  (if DebitOverflows tx then 1 else 0) - (if CreditOverflows b tx then 1 else 0)

/-- A transaction that is not skipped debits its source and then credits its target. -/
theorem applyTx_eq_some {b b' : Balances} {tx : Transaction} (h : applyTx b tx = some b') :
    (tx.source ≠ "GENESIS" → tx.amount + tx.maxFee ≤ balanceOf b tx.source) ∧
      b' = (afterDebit b tx).insert tx.target (balanceOf (afterDebit b tx) tx.target + tx.amount) := by
  unfold applyTx at h
  split at h
  · cases h
  · rename_i hc
    refine ⟨?_, (Option.some.inj h).symm⟩
    intro hs
    exact UInt64.not_lt.mp fun hlt => hc ⟨hs, hlt⟩

/-- A debit is the source's alone. -/
theorem balanceOf_afterDebit_other {tx : Transaction} {a : String} (h : tx.source ≠ a) (b : Balances) :
    balanceOf (afterDebit b tx) a = balanceOf b a := by
  unfold afterDebit
  split
  · simp [balanceOf, Std.TreeMap.getElem?_insert, h]
  · rfl

/-- A credit is the target's alone. -/
theorem balanceOf_applyTx {b b' : Balances} {tx : Transaction} (h : applyTx b tx = some b') (a : String) :
    balanceOf b' a = if tx.target = a then balanceOf (afterDebit b tx) a + tx.amount
      else balanceOf (afterDebit b tx) a := by
  obtain ⟨-, rfl⟩ := applyTx_eq_some h
  split
  · rename_i ht
    rw [ht]
    simp [balanceOf]
  · rename_i ht
    simp [balanceOf, Std.TreeMap.getElem?_insert, ht]

/-- The debit takes amount and fee, and gives 2^64 back where the sum wraps. -/
theorem total_afterDebit {b : Balances} {tx : Transaction}
    (hfund : tx.source ≠ "GENESIS" → tx.amount + tx.maxFee ≤ balanceOf b tx.source) :
    total (afterDebit b tx) = total b - (if tx.source = "GENESIS" then (0 : ℤ) else (tx.amount + tx.maxFee).toNat) := by
  unfold afterDebit
  by_cases hs : tx.source = "GENESIS"
  · rw [if_neg (not_not_intro hs), if_pos hs, sub_zero]
  · have hle := UInt64.le_iff_toNat_le.mp (hfund hs)
    rw [if_pos hs, if_neg hs, total_insert, UInt64.toNat_sub_of_le _ _ (hfund hs)]
    omega

/-- **One turn of the loop.** The total moves by what is due, and by 2^64 for each sum that wraps. -/
theorem total_applyTx {b b' : Balances} {tx : Transaction} (h : applyTx b tx = some b') :
    total b' = total b + due tx + 2 ^ 64 * gap b tx := by
  obtain ⟨hfund, rfl⟩ := applyTx_eq_some h
  rw [total_insert, total_afterDebit hfund, toNat_add_eq (balanceOf _ _)]
  unfold due gap CreditOverflows DebitOverflows
  by_cases hs : tx.source = "GENESIS"
  · simp only [hs, if_true, ne_eq, not_true_eq_false, false_and, if_false]
    split_ifs <;> omega
  · simp only [hs, if_false, ne_eq, not_false_eq_true, true_and, toNat_add_eq tx.amount]
    split_ifs <;> omega

/-! ## The loop -/

/-- The units the loop creates beyond what is due, in multiples of 2^64. -/
def gaps : Balances → List Transaction → ℤ
  | _, [] => 0
  | b, tx :: txs =>
      match applyTx b tx with
      | none => gaps b txs
      | some b' => gap b tx + gaps b' txs

/-- At every transaction the loop includes, the debit wraps exactly when the credit does. -/
def Exact : Balances → List Transaction → Prop
  | _, [] => True
  | b, tx :: txs =>
      match applyTx b tx with
      | none => Exact b txs
      | some b' => (DebitOverflows tx ↔ CreditOverflows b tx) ∧ Exact b' txs

/-- No transaction the loop includes adds to the total, unless it is a GENESIS transaction. -/
def NeverAdds : Balances → List Transaction → Prop
  | _, [] => True
  | b, tx :: txs =>
      match applyTx b tx with
      | none => NeverAdds b txs
      | some b' => (tx.source ≠ "GENESIS" → total b' ≤ total b) ∧ NeverAdds b' txs

/-- **The loop.** The total moves by what is due over the included transactions, and by the gaps. -/
theorem total_applyPending (b : Balances) (txs : List Transaction) :
    total (applyPending b txs).1 = total b + ((applyPending b txs).2.map due).sum + 2 ^ 64 * gaps b txs := by
  induction txs generalizing b with
  | nil => simp [applyPending, gaps]
  | cons tx txs ih =>
      unfold applyPending gaps
      cases h : applyTx b tx with
      | none => exact ih b
      | some b' =>
          simp only [List.map_cons, List.sum_cons]
          rw [ih b', total_applyTx h]
          ring

/-- Nothing is created or destroyed exactly when the two sums of the transaction wrap together. -/
theorem gap_eq_zero_iff (b : Balances) (tx : Transaction) :
    gap b tx = 0 ↔ (DebitOverflows tx ↔ CreditOverflows b tx) := by
  unfold gap
  by_cases hd : DebitOverflows tx <;> by_cases hc : CreditOverflows b tx <;> simp [hd, hc]

/-- A transfer that does not add to the total creates nothing, and neither does a GENESIS transaction. -/
theorem gap_nonpos_iff {b b' : Balances} {tx : Transaction} (h : applyTx b tx = some b') :
    (tx.source ≠ "GENESIS" → total b' ≤ total b) ↔ gap b tx ≤ 0 := by
  have ht := total_applyTx h
  have hfee := tx.maxFee.toNat_lt
  by_cases hs : tx.source = "GENESIS"
  · have hno : ¬ DebitOverflows tx := fun hd => hd.1 hs
    have hgap : gap b tx ≤ 0 := by
      unfold gap
      rw [if_neg hno]
      split <;> omega
    exact ⟨fun _ => hgap, fun _ hne => absurd hs hne⟩
  · rw [due, if_neg hs] at ht
    constructor
    · intro hle
      have := hle hs
      omega
    · intro hg _
      omega

/-- If no transfer adds, the gaps of the loop sum to no more than nothing. -/
theorem gaps_nonpos {b : Balances} {txs : List Transaction} (h : NeverAdds b txs) : gaps b txs ≤ 0 := by
  induction txs generalizing b with
  | nil => exact le_refl 0
  | cons tx txs ih =>
      unfold NeverAdds at h
      unfold gaps
      cases hb : applyTx b tx with
      | none =>
          rw [hb] at h
          exact ih h
      | some b' =>
          rw [hb] at h
          have h1 := (gap_nonpos_iff hb).mp h.1
          have h2 := ih h.2
          simp only
          omega

/-- Nothing is created or destroyed beyond the due exactly when no transfer adds and the balance is even. -/
theorem exact_iff (b : Balances) (txs : List Transaction) : Exact b txs ↔ NeverAdds b txs ∧ gaps b txs = 0 := by
  induction txs generalizing b with
  | nil => simp [Exact, NeverAdds, gaps]
  | cons tx txs ih =>
      unfold Exact NeverAdds gaps
      cases hb : applyTx b tx with
      | none => exact ih b
      | some b' =>
          simp only
          rw [ih b', ← gap_eq_zero_iff, gap_nonpos_iff hb]
          constructor
          · rintro ⟨h1, h2, h3⟩
            exact ⟨⟨by omega, h2⟩, by omega⟩
          · rintro ⟨⟨h1, h2⟩, h3⟩
            have h4 := gaps_nonpos h2
            exact ⟨by omega, h2, by omega⟩

/-- The loop forgets no address. -/
theorem applyPending_mono (b : Balances) (txs : List Transaction) {a : String} (h : a ∈ b) :
    a ∈ (applyPending b txs).1 := by
  induction txs generalizing b with
  | nil => exact h
  | cons tx txs ih =>
      unfold applyPending
      cases hb : applyTx b tx with
      | none => exact ih b h
      | some b' =>
          apply ih b'
          obtain ⟨-, rfl⟩ := applyTx_eq_some hb
          rw [Std.TreeMap.mem_insert]
          right
          unfold afterDebit
          split
          · rw [Std.TreeMap.mem_insert]
            exact .inr h
          · exact h

/-! ## The ledger -/

section
variable {σ : Type} [SovereignStorage σ] [LawfulStorage σ]

/-- **The balances after a block** are the working balances, at the listed addresses. -/
theorem getAllBalances_mineBlock {l : RustReplicatedLedger σ} (hwf : l.WellFormed) {m : String} (h : l.Mines m)
    (env : LedgerEnv) (a : String) :
    (l.mineBlock env m).1.getAllBalances[a]? = if Listed σ a then l.workingBalances[a]? else none := by
  apply Option.ext
  intro x
  rw [getAllBalances_eq_some (hwf.mineBlock env m), mineBlock_of_mines h, content_minedBatch_balances]
  by_cases ha : Listed σ a
  · rw [if_pos ha]
    constructor
    · rintro ⟨-, ⟨a', x', hw, hk, hv⟩ | ⟨hno, hold⟩⟩
      · rw [← utf8_inj.mp hk, ← amountBytes_inj.mp hv]
        exact hw
      · -- an address that was stored is in the working balances
        have hb : l.getAllBalances[a]? = some x := (getAllBalances_eq_some hwf a x).mpr ⟨ha, hold⟩
        have hmem : a ∈ l.workingBalances :=
          applyPending_mono _ _ (Std.TreeMap.mem_iff_isSome_getElem?.mpr (by rw [hb]; rfl))
        obtain ⟨y, hy⟩ := Option.isSome_iff_exists.mp (Std.TreeMap.mem_iff_isSome_getElem?.mp hmem)
        exact absurd rfl (hno a y hy)
    · intro hw
      exact ⟨ha, .inl ⟨a, x, hw, rfl, rfl⟩⟩
  · rw [if_neg ha]
    exact ⟨fun hc => absurd hc.1 ha, fun hc => nomatch hc⟩

/-- The sum of all balances, as `get_all_balances` shows them. -/
def totalSupply (l : RustReplicatedLedger σ) : ℤ := total l.getAllBalances

/-- The supply after a block is the total of the working balances at the addresses the backend lists. -/
theorem totalSupply_mineBlock {l : RustReplicatedLedger σ} (hwf : l.WellFormed) {m : String} (h : l.Mines m)
    (env : LedgerEnv) :
    totalSupply (l.mineBlock env m).1 = total l.workingBalances -
      (if listsEmptyKey σ = true then (0 : ℤ) else (balanceOf l.workingBalances "").toNat) := by
  unfold totalSupply total
  by_cases hlist : listsEmptyKey σ = true
  · rw [if_pos hlist, sub_zero]
    apply mapSum_congr
    intro a
    have hl : Listed σ a := fun _ => hlist
    rw [getAllBalances_mineBlock hwf h, if_pos hl]
  · rw [if_neg hlist, ← weightAt_eq, ← mapSum_erase]
    apply mapSum_congr
    intro a
    rw [getAllBalances_mineBlock hwf h, Std.TreeMap.getElem?_erase]
    by_cases ha : a = ""
    · have hl : ¬ Listed σ a := fun hl => hlist (hl ha)
      rw [if_neg hl, if_pos (by rw [ha]; exact Std.ReflCmp.compare_self)]
    · have hl : Listed σ a := fun h => absurd h ha
      rw [if_pos hl, if_neg]
      intro hc
      exact ha (Std.LawfulEqCmp.eq_of_compare hc).symm

/-- The amounts of the GENESIS transactions. -/
def minted (txs : List Transaction) : ℤ :=
  ((txs.filter (·.source = "GENESIS")).map fun tx => (tx.amount.toNat : ℤ)).sum

/-- The fees of the others. -/
def fees (txs : List Transaction) : ℤ :=
  ((txs.filter (·.source ≠ "GENESIS")).map fun tx => (tx.maxFee.toNat : ℤ)).sum

/-- What is due over the loop: the GENESIS amounts, less the fees of the others. -/
theorem sum_due (txs : List Transaction) : (txs.map due).sum = minted txs - fees txs := by
  induction txs with
  | nil => rfl
  | cons tx txs ih =>
      rw [List.map_cons, List.sum_cons, ih]
      unfold due minted fees
      by_cases hs : tx.source = "GENESIS"
      · simp [hs]
        ring
      · simp [hs]
        ring

/-- **The supply law of one `mine_block`**: the sum of all balances changes by the included GENESIS amounts
less the included fees, and no included transfer adds to it. -/
def SupplyLaw (env : LedgerEnv) (l : RustReplicatedLedger σ) (m : String) : Prop :=
  totalSupply (l.mineBlock env m).1 = totalSupply l + minted (l.minedTxs m) - fees (l.minedTxs m) ∧
    (l.Mines m → NeverAdds l.getAllBalances l.pendingTxs)

/-- A condition on the pending transactions and the supply alone: no debit can wrap, the supply with all that
GENESIS adds fits a `u64`, and no one pays an address the backend does not list. -/
def FitsSupply (l : RustReplicatedLedger σ) : Prop :=
  (∀ tx ∈ l.pendingTxs, tx.source ≠ "GENESIS" → tx.amount.toNat + tx.maxFee.toNat < 2 ^ 64) ∧
    totalSupply l + minted l.pendingTxs < 2 ^ 64 ∧
    (listsEmptyKey σ = false → ∀ tx ∈ l.pendingTxs, tx.target ≠ "")

/-- While the supply and all that GENESIS may add fit a `u64`, no credit wraps. -/
theorem exact_of_fits {b : Balances} {txs : List Transaction}
    (hdebit : ∀ tx ∈ txs, tx.source ≠ "GENESIS" → tx.amount.toNat + tx.maxFee.toNat < 2 ^ 64)
    (hfit : total b + minted txs < 2 ^ 64) : Exact b txs := by
  induction txs generalizing b with
  | nil => exact trivial
  | cons tx txs ih =>
      obtain ⟨htx, hdebit⟩ := List.forall_mem_cons.mp hdebit
      have hnonneg : 0 ≤ minted txs := by
        apply List.sum_nonneg
        intro x hx
        obtain ⟨t, -, rfl⟩ := List.mem_map.mp hx
        exact Int.natCast_nonneg _
      have hmint : minted (tx :: txs) = (if tx.source = "GENESIS" then (tx.amount.toNat : ℤ) else 0) + minted txs := by
        unfold minted
        by_cases hs : tx.source = "GENESIS" <;> simp [hs]
      rw [hmint] at hfit
      unfold Exact
      cases hb : applyTx b tx with
      | none =>
          refine ih hdebit ?_
          split at hfit <;> omega
      | some b' =>
          obtain ⟨hfund, -⟩ := applyTx_eq_some hb
          have htotal := total_applyTx hb
          have hdeb := total_afterDebit hfund
          have htarget := balanceOf_le_total (afterDebit b tx) tx.target
          have hd : ¬ DebitOverflows tx := fun hd => absurd (htx hd.1) (by have := hd.2; omega)
          have hc : ¬ CreditOverflows b tx := by
            unfold CreditOverflows
            by_cases hs : tx.source = "GENESIS"
            · rw [if_pos hs] at hdeb hfit
              omega
            · rw [if_neg hs] at hdeb hfit
              rw [toNat_add_eq, if_neg (by have := htx hs; omega)] at hdeb
              omega
          refine ⟨iff_of_false hd hc, ih hdebit ?_⟩
          have hgap : gap b tx = 0 := (gap_eq_zero_iff b tx).mpr (iff_of_false hd hc)
          rw [hgap] at htotal
          unfold due at htotal
          split at htotal <;> rename_i hs <;> simp only [hs, if_true, if_false] at hfit <;> omega

/-- An address that starts at nothing and is never paid stays there. -/
theorem balanceOf_applyPending_eq_zero {b : Balances} {txs : List Transaction} {a : String}
    (h0 : balanceOf b a = 0) (htarget : ∀ tx ∈ txs, tx.target ≠ a) :
    balanceOf (applyPending b txs).1 a = 0 := by
  induction txs generalizing b with
  | nil => exact h0
  | cons tx txs ih =>
      obtain ⟨ht, htarget⟩ := List.forall_mem_cons.mp htarget
      unfold applyPending
      cases hb : applyTx b tx with
      | none => exact ih h0 htarget
      | some b' =>
          apply ih ?_ htarget
          rw [balanceOf_applyTx hb, if_neg ht]
          by_cases ha : tx.source = a
          · unfold afterDebit
            split
            · -- it can only have paid nothing
              rename_i hs
              have hle := (applyTx_eq_some hb).1 hs
              rw [ha, h0] at hle
              have hz : tx.amount + tx.maxFee = 0 := UInt64.le_zero_iff.mp hle
              simp [balanceOf, ha, hz]
              exact h0
            · exact h0
          · rw [balanceOf_afterDebit_other ha]
            exact h0

/-- On a block that is mined, the law compares the two sides of the loop and what the backend lists of its result. -/
theorem supplyLaw_of_mines {l : RustReplicatedLedger σ} (hwf : l.WellFormed) {m : String} (hm : l.Mines m)
    (env : LedgerEnv) : SupplyLaw env l m ↔
      Exact l.getAllBalances l.pendingTxs ∧ (listsEmptyKey σ = false → balanceOf l.workingBalances "" = 0) := by
  have htotal := totalSupply_mineBlock hwf hm env
  have hloop := total_applyPending l.getAllBalances l.pendingTxs
  have htxs : l.minedTxs m = (applyPending l.getAllBalances l.pendingTxs).2 := if_pos hm
  rw [sum_due, ← htxs] at hloop
  unfold SupplyLaw
  rw [exact_iff, htotal, workingBalances, hloop, totalSupply]
  have hlt := (balanceOf (applyPending l.getAllBalances l.pendingTxs).1 "").toNat_lt
  have hzero : balanceOf (applyPending l.getAllBalances l.pendingTxs).1 "" = 0 ↔
      (balanceOf (applyPending l.getAllBalances l.pendingTxs).1 "").toNat = 0 := by
    rw [← UInt64.toNat_inj]
    rfl
  rw [hzero]
  cases hlist : listsEmptyKey σ with
  | true =>
      simp only [if_true, hm, true_imp_iff, Bool.true_eq_false, false_imp_iff, and_true]
      constructor
      · rintro ⟨h1, h2⟩
        exact ⟨h2, by omega⟩
      · rintro ⟨h1, h2⟩
        exact ⟨by omega, h1⟩
  | false =>
      simp only [Bool.false_eq_true, if_false, hm, true_imp_iff]
      constructor
      · rintro ⟨h1, h2⟩
        exact ⟨⟨h2, by omega⟩, by omega⟩
      · rintro ⟨⟨h1, h2⟩, h3⟩
        exact ⟨by omega, h1⟩

/-- **When the supply law holds.** Exactly when at each transaction of the block the debit wraps if and only
if the credit does, and the block leaves nothing at an empty address the backend does not list; the condition
on the pending transactions alone is enough. -/
theorem supply_law_iff (env : LedgerEnv) (l : RustReplicatedLedger σ) (m : String) (hwf : l.WellFormed) :
    (SupplyLaw env l m ↔ (l.Mines m → Exact l.getAllBalances l.pendingTxs ∧
      (listsEmptyKey σ = false → balanceOf l.workingBalances "" = 0))) ∧
    (l.FitsSupply → SupplyLaw env l m) := by
  have hiff : SupplyLaw env l m ↔ (l.Mines m → Exact l.getAllBalances l.pendingTxs ∧
      (listsEmptyKey σ = false → balanceOf l.workingBalances "" = 0)) := by
    by_cases hm : l.Mines m
    · exact (supplyLaw_of_mines hwf hm env).trans ⟨fun h _ => h, fun h => h hm⟩
    · have htxs : l.minedTxs m = [] := if_neg hm
      unfold SupplyLaw
      rw [mineBlock_of_not_mines hm, htxs]
      simp [hm, minted, fees]
  refine ⟨hiff, ?_⟩
  rintro ⟨hdebit, hfit, hempty⟩
  refine hiff.mpr fun _ => ⟨exact_of_fits hdebit hfit, fun hlist => ?_⟩
  refine balanceOf_applyPending_eq_zero ?_ (hempty hlist)
  -- the empty address is not listed, so the loop starts without it
  have hnot : ¬ Listed σ "" := by
    intro hl
    rw [hl rfl] at hlist
    cases hlist
  unfold balanceOf
  rw [getAllBalances_of_not_listed hwf hnot]
  rfl

end

/-! ## Two blocks -/

/-- Stand-ins to run scripts with: a signature is the public key in front of the message. -/
def scriptEnv : LedgerEnv where
  sha3 bs := toString (bs.map (·.toNat))
  verifyRaw publicKey message signature := signature == publicKey ++ "/" ++ message
  showF64 bits := toString bits.toNat
  codec := Borsh.ledgerCodec

/-- A transaction signed by its source. -/
def signedTx (source target : String) (amount maxFee : UInt64) : Transaction :=
  let tx : Transaction :=
    { txId := "", source := source, target := target, amount := amount, signature := "", timestamp := 0,
      maxFee := maxFee, priorityFee := 1 }
  { tx with signature := source ++ "/" ++ tx.payload scriptEnv }

/-- A fresh ledger to which the transactions are submitted in order. -/
def submitted (txs : List Transaction) : RustReplicatedLedger MemoryStore :=
  txs.foldl (submitTransaction scriptEnv 0) (new MemoryStore.new)

theorem wellFormed_new : (new MemoryStore.new).WellFormed := by
  intro k v hk
  change MemoryStore.new.find "balances" k = some v at hk
  simp [MemoryStore.find, MemoryStore.new] at hk

theorem WellFormed.submitAll {σ : Type} [SovereignStorage σ] [LawfulStorage σ] {l : RustReplicatedLedger σ}
    (hwf : l.WellFormed) (env : LedgerEnv) (now : UInt64) (txs : List Transaction) :
    (txs.foldl (RustReplicatedLedger.submitTransaction env now) l).WellFormed := by
  induction txs generalizing l with
  | nil => exact hwf
  | cons tx txs ih => exact ih (hwf.submitTransaction env now tx)

/-- GENESIS pays Alice 1000, Alice pays Bob 100 with a fee of 10: the supply grows by 990. -/
theorem supply_law_iff_transfer :
    (submitted [signedTx "GENESIS" "alice" 1000 10, signedTx "alice" "bob" 100 10]).FitsSupply ∧
      SupplyLaw scriptEnv (submitted [signedTx "GENESIS" "alice" 1000 10, signedTx "alice" "bob" 100 10]) "miner" := by
  have hfits : (submitted [signedTx "GENESIS" "alice" 1000 10, signedTx "alice" "bob" 100 10]).FitsSupply :=
    ⟨by decide +kernel, by decide +kernel, by decide +kernel⟩
  exact ⟨hfits, (supply_law_iff scriptEnv _ "miner" (wellFormed_new.submitAll scriptEnv 0 _)).2 hfits⟩

/-- Eve, who owns nothing, offers a fee of 2^64 - 1 on a payment of 1: the debit wraps to 0, and the supply
grows by 1. -/
theorem supply_grows_by_transfer : ¬ ∀ (env : LedgerEnv) (store : MemoryStore) (now : UInt64)
    (txs : List Transaction) (m : String),
    SupplyLaw env (txs.foldl (submitTransaction env now) (new store)) m := by
  intro h
  have hlaw := (h scriptEnv MemoryStore.new 0 [signedTx "eve" "mallory" 1 18446744073709551615] "miner").1
  exact absurd hlaw (by decide +kernel)

end WarmLogic.Ledger.RustReplicatedLedger
