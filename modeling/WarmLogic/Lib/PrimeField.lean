/-
# WarmLogic.Lib.PrimeField — prime fields of a given modulus: a certificate that it is prime, and numbers below it.

`prime_of_certificate` is Lucas's test with the powers computed by squaring, so that a modulus of a few hundred bits is
checked by evaluation. The rest is about the numbers a field element stands for: below the modulus they are told apart, a
difference that wraps around is large, and binary digits of any width name every number below their power of two.
-/
import Mathlib.NumberTheory.LucasPrimality
import Mathlib.Algebra.Field.ZMod
import Mathlib.Data.Nat.Digits.Lemmas

namespace WarmLogic.Lib

/-! ## Lucas's test -/

/-- `a ^ e` modulo `m`, for an exponent of at most `k` binary digits. -/
def powMod (m : ℕ) : ℕ → ℕ → ℕ → ℕ
  | 0, _, _ => 1 % m
  | k + 1, a, e => if e % 2 = 1 then a * powMod m k (a * a % m) (e / 2) % m else powMod m k (a * a % m) (e / 2)

theorem powMod_eq {m k e : ℕ} (a : ℕ) (h : e < 2 ^ k) : powMod m k a e = a ^ e % m := by
  induction k generalizing a e with
  | zero =>
      have he : e = 0 := by omega
      rw [he]
      rfl
  | succ k ih =>
      have hhalf : e / 2 < 2 ^ k := by omega
      have hsquare : (a * a % m) ^ (e / 2) % m = a ^ (2 * (e / 2)) % m := by
        rw [← Nat.pow_mod, pow_mul, pow_two]
      rw [powMod, ih _ hhalf, hsquare]
      split
      · next hodd =>
          rw [Nat.mul_mod, Nat.mod_mod, ← Nat.mul_mod, ← pow_succ']
          congr 2
          omega
      · next heven =>
          congr 2
          omega

/-- **A certificate of primality**: a number whose powers below `p - 1` by its prime factors are not 1. -/
theorem prime_of_certificate {p g k : ℕ} {factors : List ℕ} (hk : p ≤ 2 ^ k) (hp : 1 < p)
    (hfactors : ∀ q : ℕ, q.Prime → q ∣ p - 1 → q ∈ factors) (hone : powMod p k g (p - 1) = 1)
    (hne : ∀ q ∈ factors, powMod p k g ((p - 1) / q) ≠ 1) : p.Prime := by
  have hcast : ∀ e, e ≤ p - 1 → ((g : ZMod p) ^ e = 1 ↔ powMod p k g e = 1) := by
    intro e he
    rw [powMod_eq g (by omega), ← Nat.cast_pow, ← Nat.cast_one, ZMod.natCast_eq_natCast_iff', Nat.mod_eq_of_lt hp]
  refine lucas_primality p (g : ZMod p) ((hcast _ le_rfl).mpr hone) fun q hq hdvd h => ?_
  exact hne q (hfactors q hq hdvd) ((hcast _ (Nat.div_le_self _ _)).mp h)

/-! ## Numbers below the modulus -/

section Modulus

variable {p : ℕ}

theorem natCast_eq_iff {m n : ℕ} (hm : m < p) (hn : n < p) : (m : ZMod p) = n ↔ m = n := by
  rw [ZMod.natCast_eq_natCast_iff', Nat.mod_eq_of_lt hm, Nat.mod_eq_of_lt hn]

/-- A difference of numbers below `b` is below `b` as a field element just when it does not wrap around. -/
theorem val_sub_lt_iff [NeZero p] {m n b : ℕ} (hm : m < b) (hn : n < b) (hb : 2 * b ≤ p) :
    ((m : ZMod p) - n).val < b ↔ n ≤ m := by
  by_cases h : n ≤ m
  · refine iff_of_true ?_ h
    rw [← Nat.cast_sub h, ZMod.val_natCast, Nat.mod_eq_of_lt (by omega)]
    omega
  · refine iff_of_false ?_ h
    -- the difference is `p - (n - m)`, above every number below `b`
    have hwrap : (m : ZMod p) - n = ((p - (n - m) : ℕ) : ZMod p) := by
      rw [Nat.cast_sub (by omega : n - m ≤ p), Nat.cast_sub (by omega : m ≤ n), ZMod.natCast_self, zero_sub, neg_sub]
    rw [hwrap, ZMod.val_natCast, Nat.mod_eq_of_lt (by omega)]
    omega

/-- The numbers below `b` that stand for a field element are there just when its own is. -/
theorem exists_natCast_eq_iff [NeZero p] {v : ZMod p} {b : ℕ} : (∃ m < b, (m : ZMod p) = v) ↔ v.val < b := by
  constructor
  · rintro ⟨m, hm, rfl⟩
    rw [ZMod.val_natCast]
    exact lt_of_le_of_lt (Nat.mod_le _ _) hm
  · exact fun h => ⟨v.val, h, ZMod.natCast_zmod_val v⟩

end Modulus

/-! ## Binary digits -/

/-- The number of these binary digits, the lowest first. -/
def ofBits : List Bool → ℕ
  | [] => 0
  | b :: bits => b.toNat + 2 * ofBits bits

theorem ofBits_lt (bits : List Bool) : ofBits bits < 2 ^ bits.length := by
  induction bits with
  | nil => exact Nat.one_pos
  | cons b bits ih =>
      have hb := Bool.toNat_lt b
      rw [ofBits, List.length_cons, pow_succ]
      omega

/-- The lowest digits of a number, from the `i`-th on. -/
def bitsFrom (n i k : ℕ) : List Bool := (List.range' i k).map n.testBit

theorem ofBits_bitsFrom (n i k : ℕ) : ofBits (bitsFrom n i k) = n / 2 ^ i % 2 ^ k := by
  induction k generalizing i with
  | zero => simp [bitsFrom, ofBits, Nat.mod_one]
  | succ k ih =>
      have hcons : bitsFrom n i (k + 1) = n.testBit i :: bitsFrom n (i + 1) k := rfl
      have hbit : (n.testBit i).toNat = n / 2 ^ i % 2 := Nat.toNat_testBit n i
      rw [hcons, ofBits, ih, hbit, pow_succ, ← Nat.div_div_eq_div_mul, pow_succ', Nat.mod_mul]

end WarmLogic.Lib
