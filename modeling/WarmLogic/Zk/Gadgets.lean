/-
# WarmLogic.Zk.Gadgets — the gadgets of `circuit.rs`: range proofs and comparisons by binary digits.

A range proof allocates one truth value for each binary digit and enforces that together they make the value. The digits
are the prover's own choice, so a value has a range proof exactly when some number of that width stands for it: for every
width, also one above that of the field, exactly when the canonical number of the value is below the power of two
(`yields_enforceRange`). `comparisons_exact` is what this gives for numbers of 64 bits, to a prover that follows the
program and to one that does not.

A comparison is a range proof of a difference. For numbers of 64 bits the difference is small in the field exactly
when it did not go below zero, as the field is much larger (`val_sub_lt`), which is why these gadgets are right and
would not be for arbitrary field elements.

The gadgets of the proof library below them are the parameter `Gadgets Fr` of `Lib.R1cs`: what is proved here uses their
readings, not how they allocate.
-/
import WarmLogic.Zk.Types
import WarmLogic.Lib.R1cs

namespace WarmLogic.Zk

open WarmLogic.Lib
open WarmLogic.Lib.Synthesis
open WarmLogic.Lib.Synthesis.Gadgets

/-! ## The gadgets -/

section Programs

variable [Gadgets Fr]

/-- `enforce_equal_constant`. -/
def enforceEqualConstant (var constant : Fr) : Synthesis Fr Unit := enforceEqual var constant

/-- `enforce_boolean`. The truth value that comes back is a new one. -/
def enforceBoolean (var : Fr) : Synthesis Fr Fr := do
  let product ← mulVar var (1 - var)
  enforceEqual product 0
  newBoolean (decide (var = 1))

/-- The width of the comparisons. -/
def rangeProofBits : ℕ := 64

/-- The loop of `bit_decomposition`: digits from the `i`-th on, the value reconstructed so far and the power of two. -/
def decomposeFrom (valueNative : ℕ) : ℕ → ℕ → Fr → Fr → Synthesis Fr (List Fr × Fr)
  | 0, _, reconstructed, _ => pure ([], reconstructed)
  | k + 1, i, reconstructed, powerOfTwo => do
      let bitVar ← newBoolean (valueNative.testBit i)
      let decomposed ← decomposeFrom valueNative k (i + 1) (reconstructed + bitVar * powerOfTwo) (powerOfTwo * 2)
      pure (bitVar :: decomposed.1, decomposed.2)

/-- `bit_decomposition`: the digits, which together make the value. -/
def bitDecomposition (value : Fr) (numBits : ℕ) : Synthesis Fr (List Fr) := do
  let decomposed ← decomposeFrom value.val numBits 0 0 1
  enforceEqual value decomposed.2
  pure decomposed.1

/-- `enforce_range`. -/
def enforceRange (value : Fr) (numBits : ℕ) : Synthesis Fr Unit := do
  let _bits ← bitDecomposition value numBits
  pure ()

/-- `enforce_greater_or_equal`: the difference is small. -/
def enforceGreaterOrEqual (a b : Fr) : Synthesis Fr Unit := do
  enforceRange (a - b) rangeProofBits
  pure ()

/-- `enforce_greater_than`: the difference less one is small. -/
def enforceGreaterThan (a b : Fr) : Synthesis Fr Unit := do
  enforceRange (a - b - 1) rangeProofBits
  pure ()

/-- `enforce_less_or_equal`, the other way round. -/
def enforceLessOrEqual (a b : Fr) : Synthesis Fr Unit := enforceGreaterOrEqual b a

/-- `enforce_less_than`, the other way round. -/
def enforceLessThan (a b : Fr) : Synthesis Fr Unit := enforceGreaterThan b a

/-- `enforce_non_zero`. The prover takes 1 where there is no inverse. -/
def enforceNonZero (value : Fr) : Synthesis Fr Unit := do
  let invVar ← newWitness (some (if value = 0 then 1 else value⁻¹))
  let product ← mulVar value invVar
  enforceEqual product 1
  pure ()

end Programs

/-! ## Digits -/

section Digits

variable {n k i : ℕ} {r p : Fr} {bits : List Fr} {total : Fr} {x rest : List Fr}

/-- A digit is 0 or 1. -/
theorem ofBool_eq (b : Bool) : (ofBool b : Fr) = (b.toNat : Fr) := by
  cases b
  · exact Nat.cast_zero.symm
  · exact Nat.cast_one.symm

/-- Digits make their number from the low one up. -/
theorem ofBits_cons (b : Bool) (bs : List Bool) (r p : Fr) :
    r + p * (ofBits (b :: bs) : ℕ) = r + ofBool b * p + p * 2 * (ofBits bs : ℕ) := by
  rw [ofBits, ofBool_eq]
  push_cast
  ring

variable [Gadgets Fr]

/-- What the loop admits: any digits at all, and the number that they make. -/
theorem yields_decomposeFrom :
    (decomposeFrom n k i r p).Yields x (bits, total) rest ↔
      ∃ bs : List Bool, bs.length = k ∧ bits = bs.map ofBool ∧ total = r + p * (ofBits bs : ℕ) ∧ x = rest := by
  induction k generalizing i r p bits total rest with
  | zero =>
      constructor
      · rintro ⟨h, rfl⟩
        cases h
        refine ⟨[], rfl, rfl, ?_, rfl⟩
        rw [ofBits, Nat.cast_zero, mul_zero, add_zero]
      · rintro ⟨bs, hlen, rfl, rfl, rfl⟩
        rw [List.length_eq_zero_iff.mp hlen, ofBits, Nat.cast_zero, mul_zero, add_zero]
        exact ⟨rfl, rfl⟩
  | succ k ih =>
      unfold decomposeFrom
      rw [yields_newBoolean]
      constructor
      · rintro ⟨b, h⟩
        obtain ⟨⟨bits', total'⟩, x', hloop, hpure⟩ := yields_bind.mp h
        obtain ⟨bs, hlen, hbits, htotal, rfl⟩ := ih.mp hloop
        obtain ⟨heq, rfl⟩ := yields_pure.mp hpure
        cases heq
        refine ⟨b :: bs, congrArg (· + 1) hlen, by rw [hbits]; rfl, ?_, rfl⟩
        rw [htotal, ofBits_cons]
      · rintro ⟨bs, hlen, rfl, rfl, rfl⟩
        obtain ⟨b, bs, rfl⟩ := List.exists_cons_of_length_eq_add_one hlen
        have hloop : (decomposeFrom n k (i + 1) (r + ofBool b * p) (p * 2)).Yields x
            (bs.map ofBool, r + p * (ofBits (b :: bs) : ℕ)) x :=
          ih.mpr ⟨bs, Nat.succ_inj.mp hlen, rfl, ofBits_cons b bs r p, rfl⟩
        exact ⟨b, yields_bind.mpr ⟨_, x, hloop, rfl, rfl⟩⟩

/-- The prover's digits are those of its own number. -/
theorem proves_decomposeFrom :
    (decomposeFrom n k i r p).Proves (bits, total) x ↔
      bits = (bitsFrom n i k).map ofBool ∧ total = r + p * (ofBits (bitsFrom n i k) : ℕ) ∧ x = [] := by
  induction k generalizing i r p bits total x with
  | zero =>
      unfold decomposeFrom
      rw [proves_pure, Prod.mk.injEq, and_assoc, eq_comm (a := []), eq_comm (a := r)]
      show _ ∧ _ ∧ _ ↔ _ ∧ total = r + p * ((0 : ℕ) : Fr) ∧ _
      rw [Nat.cast_zero, mul_zero, add_zero]
      rfl
  | succ k ih =>
      have hcons : bitsFrom n i (k + 1) = n.testBit i :: bitsFrom n (i + 1) k := rfl
      unfold decomposeFrom
      rw [proves_newBoolean, hcons, ofBits_cons]
      constructor
      · intro h
        obtain ⟨⟨bits', total'⟩, y, z, hloop, hpure, rfl⟩ := proves_bind.mp h
        obtain ⟨hbits, htotal, rfl⟩ := ih.mp hloop
        obtain ⟨heq, rfl⟩ := proves_pure.mp hpure
        cases heq
        exact ⟨by rw [hbits]; rfl, htotal, rfl⟩
      · rintro ⟨rfl, rfl, rfl⟩
        exact proves_bind.mpr ⟨_, [], [], ih.mpr ⟨rfl, rfl, rfl⟩, proves_pure.mpr ⟨rfl, rfl⟩, rfl⟩

end Digits

/-! ## Ranges -/

section Ranges

variable [Gadgets Fr] {v : Fr} {n : ℕ} {x rest : List Fr} {u : Unit}

/-- **A range proof of any width** is there exactly when the canonical number of the value is in the range. -/
theorem yields_enforceRange : (enforceRange v n).Yields x u rest ↔ v.val < 2 ^ n ∧ x = rest := by
  unfold enforceRange
  constructor
  · intro h
    obtain ⟨bits, x', hbits, hpure⟩ := yields_bind.mp h
    obtain ⟨⟨bits', total⟩, x'', hloop, heq⟩ := yields_bind.mp hbits
    obtain ⟨bs, hlen, -, htotal, rfl⟩ := yields_decomposeFrom.mp hloop
    obtain ⟨hv, hx⟩ := yields_enforceEqual.mp heq
    rw [zero_add, one_mul] at htotal
    refine ⟨exists_natCast_eq_iff.mp ⟨ofBits bs, hlen ▸ ofBits_lt bs, ?_⟩, hx.2.trans hpure.2⟩
    exact (hv.trans htotal).symm
  · rintro ⟨hv, rfl⟩
    -- the digits of the canonical number
    have htotal : v = 0 + 1 * (ofBits (bitsFrom v.val 0 n) : ℕ) := by
      rw [ofBits_bitsFrom, pow_zero, Nat.div_one, Nat.mod_eq_of_lt hv, ZMod.natCast_zmod_val, zero_add, one_mul]
    have hlen : (bitsFrom v.val 0 n).length = n := by
      rw [bitsFrom, List.length_map, List.length_range']
    have hdigits : (bitDecomposition v n).Yields x ((bitsFrom v.val 0 n).map ofBool) x := by
      refine yields_bind.mpr ⟨(_, v), x, ?_, yields_enforceEqual.mpr ⟨rfl, rfl, rfl⟩⟩
      exact yields_decomposeFrom.mpr ⟨_, hlen, rfl, htotal, rfl⟩
    exact yields_bind.mpr ⟨_, x, hdigits, rfl, rfl⟩

/-- The prover's own range proof is there for the same values. -/
theorem proves_enforceRange : (enforceRange v n).Proves u x ↔ v.val < 2 ^ n ∧ x = [] := by
  have htotal : (0 : Fr) + 1 * (ofBits (bitsFrom v.val 0 n) : ℕ) = (v.val % 2 ^ n : ℕ) := by
    rw [ofBits_bitsFrom, pow_zero, Nat.div_one, zero_add, one_mul]
  unfold enforceRange
  constructor
  · intro h
    obtain ⟨bits, y, z, hbits, hpure, rfl⟩ := proves_bind.mp h
    obtain ⟨⟨bits', total⟩, y', z', hloop, heq, rfl⟩ := proves_bind.mp hbits
    obtain ⟨-, htot, rfl⟩ := proves_decomposeFrom.mp hloop
    obtain ⟨hv, hz'⟩ := proves_enforceEqual.mp heq
    rw [(proves_pure.mp hz').2, (proves_pure.mp hpure).2]
    refine ⟨?_, rfl⟩
    exact exists_natCast_eq_iff.mp ⟨v.val % 2 ^ n, Nat.mod_lt _ (by positivity), (hv.trans (htot.trans htotal)).symm⟩
  · rintro ⟨hv, rfl⟩
    rw [Nat.mod_eq_of_lt hv, ZMod.natCast_zmod_val] at htotal
    have hdigits : (bitDecomposition v n).Proves ((bitsFrom v.val 0 n).map ofBool) [] := by
      refine proves_bind.mpr ⟨((bitsFrom v.val 0 n).map ofBool, v), [], [], ?_, ?_, rfl⟩
      · exact proves_decomposeFrom.mpr ⟨rfl, htotal.symm, rfl⟩
      · exact proves_enforceEqual.mpr ⟨rfl, proves_pure.mpr ⟨rfl, rfl⟩⟩
    exact proves_bind.mpr ⟨_, [], [], hdigits, proves_pure.mpr ⟨rfl, rfl⟩, rfl⟩

end Ranges

/-! ## Comparisons -/

section Comparisons

variable {a b : ℕ}

/-- The field is larger than the range. -/
theorem two_pow_bits_le : 2 * 2 ^ rangeProofBits ≤ frModulus :=
  le_trans (by unfold rangeProofBits; norm_num) two_pow_lt_frModulus.le

/-- The difference that `enforce_greater_or_equal` shows to be small. -/
theorem val_sub_lt (ha : a < 2 ^ rangeProofBits) (hb : b < 2 ^ rangeProofBits) :
    ((a : Fr) - b).val < 2 ^ rangeProofBits ↔ b ≤ a :=
  val_sub_lt_iff ha hb two_pow_bits_le

/-- The difference that `enforce_greater_than` shows to be small. -/
theorem val_sub_one_lt (ha : a < 2 ^ rangeProofBits) (hb : b < 2 ^ rangeProofBits) :
    ((a : Fr) - b - 1).val < 2 ^ rangeProofBits ↔ b < a := by
  have hsucc : (a : Fr) - b - 1 = (a : Fr) - ((b + 1 : ℕ) : Fr) := by
    push_cast
    ring
  rw [hsucc]
  rcases Nat.lt_or_ge (b + 1) (2 ^ rangeProofBits) with h | h
  · rw [val_sub_lt ha h]
    exact Nat.succ_le_iff
  · -- `b + 1` is the bound itself
    have hle := two_pow_bits_le
    have hwrap : (a : Fr) - ((b + 1 : ℕ) : Fr) = ((frModulus - (b + 1 - a) : ℕ) : Fr) := by
      rw [Nat.cast_sub (by omega : b + 1 - a ≤ frModulus), Nat.cast_sub (by omega : a ≤ b + 1), ZMod.natCast_self,
        zero_sub, neg_sub]
    rw [hwrap, ZMod.val_natCast, Nat.mod_eq_of_lt (by omega)]
    omega

variable [Gadgets Fr]

/-- A range proof enforces the range. -/
theorem enforces_range {v : Fr} {n : ℕ} : (enforceRange v n).Enforces (v.val < 2 ^ n) :=
  enforces_iff.mpr ⟨yields_enforceRange.trans (and_iff_left rfl), proves_enforceRange.trans (and_iff_left rfl)⟩

/-- What `enforce_greater_than` admits. -/
theorem yields_enforceGreaterThan {v w : Fr} {x rest : List Fr} {u : Unit} :
    (enforceGreaterThan v w).Yields x u rest ↔ (v - w - 1).val < 2 ^ rangeProofBits ∧ x = rest :=
  yields_then_pure.trans yields_enforceRange

/-- And what the prover's run of it needs. -/
theorem proves_enforceGreaterThan {v w : Fr} {x : List Fr} {u : Unit} :
    (enforceGreaterThan v w).Proves u x ↔ (v - w - 1).val < 2 ^ rangeProofBits ∧ x = [] :=
  proves_then_pure.trans proves_enforceRange

/-- `enforce_greater_or_equal` enforces its comparison. -/
theorem enforces_greaterOrEqual (ha : a < 2 ^ rangeProofBits) (hb : b < 2 ^ rangeProofBits) :
    (enforceGreaterOrEqual (a : Fr) b).Enforces (b ≤ a) := by
  rw [← val_sub_lt ha hb]
  exact enforces_iff.mpr ⟨(yields_then_pure.trans yields_enforceRange).trans (and_iff_left rfl),
    (proves_then_pure.trans proves_enforceRange).trans (and_iff_left rfl)⟩

/-- So does `enforce_greater_than`. -/
theorem enforces_greaterThan (ha : a < 2 ^ rangeProofBits) (hb : b < 2 ^ rangeProofBits) :
    (enforceGreaterThan (a : Fr) b).Enforces (b < a) := by
  rw [← val_sub_one_lt ha hb]
  exact enforces_iff.mpr ⟨yields_enforceGreaterThan.trans (and_iff_left rfl),
    proves_enforceGreaterThan.trans (and_iff_left rfl)⟩

/-- `enforce_non_zero` enforces that. -/
theorem enforces_nonZero (v : Fr) : (enforceNonZero v).Enforces (v ≠ 0) := by
  unfold enforceNonZero
  refine enforces_iff.mpr ⟨?_, ?_⟩
  · rw [yields_newWitness]
    constructor
    · rintro ⟨u, h⟩ rfl
      have hone := (yields_enforceEqual.mp (yields_mulVar.mp h)).1
      rw [zero_mul] at hone
      exact zero_ne_one hone
    · intro hv
      exact ⟨v⁻¹, yields_mulVar.mpr (yields_enforceEqual.mpr ⟨mul_inv_cancel₀ hv, rfl, rfl⟩)⟩
  · rw [proves_newWitness, proves_mulVar, proves_enforceEqual, and_iff_left (proves_pure.mpr ⟨rfl, rfl⟩)]
    by_cases hv : v = 0
    · rw [if_pos hv, hv, zero_mul]
      exact iff_of_false zero_ne_one (fun h => h rfl)
    · rw [if_neg hv]
      exact iff_of_true (mul_inv_cancel₀ hv) hv

/-- `enforce_boolean` admits 0 and 1, each of them with either truth value. -/
theorem yields_enforceBoolean {v : Fr} {s : Bool} {x rest : List Fr} :
    (enforceBoolean v).Yields x (ofBool s) rest ↔ (v = 0 ∨ v = 1) ∧ x = rest := by
  unfold enforceBoolean
  rw [yields_mulVar, yields_enforceEqual, mul_eq_zero, sub_eq_zero, eq_comm (a := (1 : Fr)), newBoolean_yields]
  exact and_congr_right fun _ => and_iff_right ⟨s, rfl⟩

/-- **The gadgets enforce what they are named after**, for numbers of 64 bits and for ranges of every width: a prover that
follows the program succeeds on the same values as one that picks its own digits. The truth value of `enforce_boolean` is
not bound to its variable. -/
theorem gadgets_exact :
    (∀ (v : Fr) (n : ℕ), (enforceRange v n).Enforces (v.val < 2 ^ n)) ∧
    (∀ a b : UInt64,
      (enforceGreaterOrEqual (a.toNat : Fr) b.toNat).Enforces (b ≤ a) ∧
      (enforceGreaterThan (a.toNat : Fr) b.toNat).Enforces (b < a) ∧
      (enforceLessOrEqual (a.toNat : Fr) b.toNat).Enforces (a ≤ b) ∧
      (enforceLessThan (a.toNat : Fr) b.toNat).Enforces (a < b)) ∧
    (∀ v : Fr, (enforceNonZero v).Enforces (v ≠ 0)) ∧
    ∀ (v : Fr) (s : Bool), (enforceBoolean v).Yields [] (ofBool s) [] ↔ v = 0 ∨ v = 1 := by
  refine ⟨fun v n => enforces_range, fun a b => ?_, enforces_nonZero, fun v s => ?_⟩
  · have ha : a.toNat < 2 ^ rangeProofBits := a.toNat_lt
    have hb : b.toNat < 2 ^ rangeProofBits := b.toNat_lt
    simp only [UInt64.le_iff_toNat_le, UInt64.lt_iff_toNat_lt]
    exact ⟨enforces_greaterOrEqual ha hb, enforces_greaterThan ha hb, enforces_greaterOrEqual hb ha,
      enforces_greaterThan hb ha⟩
  · exact yields_enforceBoolean.trans (and_iff_left rfl)

end Comparisons

end WarmLogic.Zk
