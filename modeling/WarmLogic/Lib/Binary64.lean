/-
# WarmLogic.Lib.Binary64 — what the binary64 arithmetic of `Float` does to unsigned 64-bit integers.

`Float` is defined on bit patterns: an operation unpacks its arguments to a mantissa and an exponent, computes exactly
on these, and rounds to the nearest mantissa of 53 bits, ties to the even one. Nothing of its order is in the library.
Two facts are developed here: conversion from `UInt64` is monotone and gives a number in normal form
(`unpack_toFloat`, `toFloat_mono`), and a quotient of two such conversions does not exceed 1 if the exact one does not
(`toFloat_div_toFloat_le_one`). Both rest on one description of rounding for a mantissa that is long enough
(`roundWithAccuracy_normal`); a carry to `2 ^ 53` moves into the exponent, which is the case that needs care.
-/
import Mathlib.Data.Nat.Log
import Mathlib.Tactic.Linarith

namespace WarmLogic.Lib.Binary64

open Float.Model Float.Model.UnpackedFloat

/-! ## The residual bits -/

/-- Mantissa, round bit and sticky bit as one number, in the order of the values they stand for. -/
def code (em : ExtendedMantissa) : Nat := 4 * em.mantissa + 2 * em.roundBit.toNat + em.stickyBit.toNat

/-- The mantissa is what the code has above its two residual bits. -/
theorem code_div (em : ExtendedMantissa) : code em / 4 = em.mantissa := by
  have hround := Bool.toNat_le em.roundBit
  have hsticky := Bool.toNat_le em.stickyBit
  unfold code
  omega

/-- A shift keeps of the code what the sticky bit can hold. -/
theorem code_shiftRightOne (em : ExtendedMantissa) :
    code em.shiftRightOne = 2 * (code em / 4) + min 1 (code em % 4) := by
  obtain ⟨m, r, s⟩ := em
  have hbit : (m % 2 != 0).toNat = m % 2 := by
    rcases Nat.mod_two_eq_zero_or_one m with h | h <;> simp [h]
  rw [code_div]
  unfold code ExtendedMantissa.shiftRightOne
  dsimp only
  rw [hbit]
  cases r <;> cases s <;> simp <;> omega

/-- Shifting keeps the order of codes. -/
theorem code_shiftRight_mono {a b : ExtendedMantissa} (h : code a ≤ code b) (k : Nat) :
    code (a >>> k) ≤ code (b >>> k) := by
  induction k with
  | zero => exact h
  | succ k ih =>
      show code (a >>> k).shiftRightOne ≤ code (b >>> k).shiftRightOne
      rw [code_shiftRightOne, code_shiftRightOne]
      omega

/-- And shifts the mantissa. -/
theorem mantissa_shiftRight (em : ExtendedMantissa) (k : Nat) : (em >>> k).mantissa = em.mantissa / 2 ^ k := by
  induction k with
  | zero => exact (Nat.div_one _).symm
  | succ k ih =>
      show (em >>> k).mantissa / 2 = _
      rw [ih, Nat.div_div_eq_div_mul, Nat.pow_succ]

/-- Rounding to the nearest mantissa, ties to even, as one division. -/
theorem roundedMantissa_eq (em : ExtendedMantissa) :
    em.roundedMantissa = (code em + 1 + em.mantissa % 2) / 4 := by
  obtain ⟨m, r, s⟩ := em
  cases r <;> cases s <;>
    simp only [ExtendedMantissa.roundedMantissa, ExtendedMantissa.accuracy, Accuracy.roundToNearestEven, code,
      Bool.toNat_true, Bool.toNat_false] <;> omega

/-- Rounding keeps the order of codes. -/
theorem roundedMantissa_mono {a b : ExtendedMantissa} (h : code a ≤ code b) : a.roundedMantissa ≤ b.roundedMantissa := by
  rw [roundedMantissa_eq, roundedMantissa_eq, ← code_div a, ← code_div b]
  rcases Nat.lt_or_eq_of_le (Nat.div_le_div_right (c := 4) h) with hlt | heq
  · omega
  · rw [heq]
    omega

/-- And adds at most one to the mantissa. -/
theorem roundedMantissa_bounds (em : ExtendedMantissa) :
    em.mantissa ≤ em.roundedMantissa ∧ em.roundedMantissa ≤ em.mantissa + 1 := by
  rw [roundedMantissa_eq, ← code_div em]
  omega

/-- A mantissa with no residual bits. -/
theorem mantissa_ofMantissaAndAccuracy (m : Nat) (acc : Accuracy) :
    (ExtendedMantissa.ofMantissaAndAccuracy m acc).mantissa = m := by
  rcases acc with _ | (_ | _ | _) <;> rfl

/-! ## Rounding -/

/-- A mantissa of 53 bits, as every normal number has it. -/
def Normal (m : Nat) : Prop := 2 ^ 52 ≤ m ∧ m < 2 ^ 53

/-- Its leading bit is the 53rd. -/
theorem Normal.log2 {m : Nat} (h : Normal m) : m.log2 = 52 :=
  (Nat.log2_eq_iff (by have := h.1; omega)).mpr h

/-- It is positive. -/
theorem Normal.pos {m : Nat} (h : Normal m) : 0 < m := Nat.lt_of_lt_of_le (by decide) h.1

/-- The exponent that a mantissa is brought to, away from the subnormal numbers. -/
theorem targetExponent_binary64 (total : Int) : Format.binary64.targetExponent total = max (total - 53) (-1074) := rfl

/-- A mantissa with `k` bits too many is shifted by `k`. -/
theorem shiftToTargetExponent_of_log2 {m k : Nat} {e : Int} (acc : Accuracy) (hlog : m.log2 = 52 + k)
    (he : -1074 ≤ e + k) : shiftToTargetExponent Format.binary64 m e acc =
      (ExtendedMantissa.ofMantissaAndAccuracy m acc >>> k, e + k) := by
  have htarget : Format.binary64.targetExponent (totalExponent m e) = e + k := by
    rw [targetExponent_binary64, totalExponent, hlog]
    push_cast
    omega
  unfold shiftToTargetExponent shiftToExponent
  dsimp only
  rw [htarget, show (e + k - e).toNat = k by omega]

/-- So one that has its 53 bits stays as it is. -/
theorem shiftToTargetExponent_normal {m : Nat} {e : Int} (h : Normal m) (he : -1074 ≤ e) :
    shiftToTargetExponent Format.binary64 m e .exact = (⟨m, false, false⟩, e) := by
  rw [shiftToTargetExponent_of_log2 (k := 0) .exact h.log2 (by omega)]
  exact Prod.ext rfl (Int.add_zero e)

/-- And one that has been rounded up to `2 ^ 53` loses its last bit. -/
theorem shiftToTargetExponent_carry {e : Int} (he : -1074 ≤ e) :
    shiftToTargetExponent Format.binary64 (2 ^ 53) e .exact = (⟨2 ^ 52, false, false⟩, e + 1) := by
  rw [shiftToTargetExponent_of_log2 (k := 1) .exact Nat.log2_two_pow (by omega)]
  rfl

/-- **Rounding, in one statement**: a mantissa with `k` bits too many is shifted by `k` and rounded; if that gives
`2 ^ 53` the exponent takes one more. -/
theorem roundWithAccuracy_normal (s : Sign) {m k : Nat} {e : Int} (acc : Accuracy) (hlow : 2 ^ (52 + k) ≤ m)
    (hhigh : m < 2 ^ (53 + k)) (he : -1074 ≤ e + k) :
    ∃ m' e', ∃ h : 0 < m', roundWithAccuracy Format.binary64 s m e acc = .finite s m' e' h ∧ Normal m' ∧
      ((m' = (ExtendedMantissa.ofMantissaAndAccuracy m acc >>> k).roundedMantissa ∧ e' = e + k) ∨
        ((ExtendedMantissa.ofMantissaAndAccuracy m acc >>> k).roundedMantissa = 2 ^ 53 ∧ m' = 2 ^ 52 ∧
          e' = e + k + 1)) := by
  have hpos : m ≠ 0 := by
    have := Nat.two_pow_pos (52 + k)
    omega
  have hlog : m.log2 = 52 + k := (Nat.log2_eq_iff hpos).mpr ⟨hlow, by rwa [Nat.add_right_comm]⟩
  have hfirst := shiftToTargetExponent_of_log2 acc hlog he
  generalize hem : ExtendedMantissa.ofMantissaAndAccuracy m acc >>> k = em at hfirst ⊢
  -- what is left of the mantissa has 53 bits, and rounding adds 1 at most
  have hmantissa : em.mantissa = m / 2 ^ k := by
    rw [← hem, mantissa_shiftRight, mantissa_ofMantissaAndAccuracy]
  have hlow' : 2 ^ 52 ≤ em.mantissa := by
    rw [hmantissa, Nat.le_div_iff_mul_le (Nat.two_pow_pos k), ← Nat.pow_add]
    exact hlow
  have hhigh' : em.mantissa < 2 ^ 53 := by
    rw [hmantissa, Nat.div_lt_iff_lt_mul (Nat.two_pow_pos k), ← Nat.pow_add]
    exact hhigh
  have hbounds := roundedMantissa_bounds em
  unfold roundWithAccuracy
  rw [hfirst]
  dsimp only
  by_cases hcarry : em.roundedMantissa = 2 ^ 53
  · rw [hcarry, shiftToTargetExponent_carry he]
    exact ⟨2 ^ 52, e + k + 1, by decide, rfl, ⟨by decide, by decide⟩, .inr ⟨rfl, rfl, rfl⟩⟩
  · have hnormal : Normal em.roundedMantissa := ⟨by omega, by omega⟩
    rw [shiftToTargetExponent_normal hnormal he]
    exact ⟨_, _, hnormal.pos, dif_neg hnormal.pos.ne', hnormal, .inl ⟨rfl, rfl⟩⟩

/-! ## Packing -/

/-- The sign bit of a packed number. -/
theorem sign_ofBitVec_toBitVec (s : Sign) : Sign.ofBitVec s.toBitVec = s := by
  cases s <;> rfl

/-- Numbers with the same parts are the same. -/
theorem finite_congr {s : Sign} {m m' : Nat} {e e' : Int} {h : 0 < m} {h' : 0 < m'} (hm : m = m') (he : e = e') :
    UnpackedFloat.finite s m e h = .finite s m' e' h' := by
  subst hm he
  rfl

section Components

variable {spec : Format} (s : Sign) (exponent : BitVec spec.exponentBits)
  (mantissa : BitVec spec.mantissaBitsWithoutImplicit)

/-- Is the sign that was packed. -/
theorem unpackSign_packComponents : unpackSign (packComponents spec s exponent mantissa) = s.toBitVec := by
  ext i hi
  obtain rfl : i = 0 := by omega
  show (BitVec.cast _ (BitVec.extractLsb (spec.mantissaBitsWithoutImplicit + spec.exponentBits)
    (spec.mantissaBitsWithoutImplicit + spec.exponentBits) (packComponents spec s exponent mantissa)))[0] = s.toBitVec[0]
  simp [packComponents, BitVec.getLsbD_append, BitVec.getElem_append]

/-- A mantissa with its leading bit is positive. -/
theorem one_append_pos : 0 < (1#1 ++ mantissa).toNat := by
  rw [BitVec.toNat_append, ← Nat.shiftLeft_add_eq_or_of_lt mantissa.isLt]
  have hpow := Nat.two_pow_pos spec.mantissaBitsWithoutImplicit
  rw [Nat.shiftLeft_eq, show (1#1).toNat = 1 from rfl]
  omega

/-- The components of a normal number, unpacked: the leading bit of the mantissa comes back. -/
theorem unpack_packComponents (hinf : exponent ≠ -1#_) (hzero : exponent ≠ 0#_) :
    UnpackedFloat.unpack spec (packComponents spec s exponent mantissa) =
      .finite s (1#1 ++ mantissa).toNat
        (exponent.toNat - (spec.exponentBias + spec.mantissaBitsWithoutImplicit)) (one_append_pos mantissa) := by
  have hsign : Sign.ofBitVec (unpackSign (packComponents spec s exponent mantissa)) = s := by
    rw [unpackSign_packComponents, sign_ofBitVec_toBitVec]
  show ite (unpackExponent (packComponents spec s exponent mantissa) = -1#_) _
    (ite (unpackExponent (packComponents spec s exponent mantissa) = 0#_) _ (UnpackedFloat.finite
      (Sign.ofBitVec (unpackSign (packComponents spec s exponent mantissa))) _ _ _)) = _
  rw [hsign, if_neg (by rwa [unpackExponent_packComponents]), if_neg (by rwa [unpackExponent_packComponents])]
  exact finite_congr (by rw [unpackMantissa_packComponents]) (by rw [unpackExponent_packComponents])

end Components

/-- And has this value. -/
theorem toNat_one_append {m : Nat} (h : Normal m) : (1#1 ++ BitVec.ofNat 52 m).toNat = m := by
  obtain ⟨hm, hm'⟩ := h
  rw [BitVec.toNat_append, ← Nat.shiftLeft_add_eq_or_of_lt (BitVec.isLt _), BitVec.toNat_ofNat]
  show 1 <<< 52 + m % 2 ^ 52 = m
  omega

/-- A normal number is packed with its exponent biased, which is neither the least nor the greatest one. -/
theorem pack_normal (s : Sign) {m : Nat} {e : Int} (h : Normal m) (hpos : 0 < m) (hlow : -1074 ≤ e) (hhigh : e ≤ 971) :
    ∃ b : Nat, UnpackedFloat.pack Format.binary64 (.finite s m e hpos) =
      packComponents Format.binary64 s (BitVec.ofNat 11 b) (BitVec.ofNat 52 m) ∧ 0 < b ∧ b < 2047 ∧
        (b : Int) = e + 1075 := by
  have hbiased : ∃ b : Nat, (e + 1023 + 52).toNat = b ∧ 0 < b ∧ b < 2047 ∧ (b : Int) = e + 1075 :=
    ⟨_, rfl, by omega, by omega, by omega⟩
  obtain ⟨b, hb, hbpos, hblt, hbe⟩ := hbiased
  have hbias : (e + Format.binary64.exponentBias + Format.binary64.mantissaBitsWithoutImplicit).toNat = b := hb
  refine ⟨b, ?_, hbpos, hblt, hbe⟩
  unfold UnpackedFloat.pack
  dsimp only
  rw [hbias, if_neg (by show ¬ 2 ^ 11 ≤ b + 1; omega), if_pos (by rw [h.log2]; rfl)]

/-- **A normal number survives packing.** -/
theorem unpack_pack_normal (s : Sign) {m : Nat} {e : Int} (h : Normal m) (hpos : 0 < m) (hlow : -1074 ≤ e)
    (hhigh : e ≤ 971) : (Float.Model.pack (.finite s m e hpos)).unpack = .finite s m e hpos := by
  obtain ⟨b, hpack, hbpos, hblt, hbe⟩ := pack_normal s h hpos hlow hhigh
  have hexponent : (BitVec.ofNat 11 b).toNat = b := by
    rw [BitVec.toNat_ofNat, Nat.mod_eq_of_lt (by omega)]
  have hinf : BitVec.ofNat 11 b ≠ -1#11 := fun heq => by
    rw [heq] at hexponent
    have : (-1#11 : BitVec 11).toNat = 2047 := by decide
    omega
  have hzero : BitVec.ofNat 11 b ≠ 0#11 := fun heq => by
    rw [heq] at hexponent
    have : (0#11 : BitVec 11).toNat = 0 := by decide
    omega
  have hbits : (Float.Model.pack (.finite s m e hpos)).unpack =
      UnpackedFloat.unpack Format.binary64 (UnpackedFloat.pack Format.binary64 (.finite s m e hpos)) := rfl
  rw [hbits, hpack, unpack_packComponents s _ _ hinf hzero]
  refine finite_congr (toNat_one_append h) ?_
  rw [hexponent, hbe]
  show e + 1075 - (1023 + 52) = e
  omega

/-! ## From `u64` -/

/-- `a` is at most `b`, as normal numbers: by exponent first. -/
def NormalLe (m : Nat) (e : Int) (m' : Nat) (e' : Int) : Prop := e < e' ∨ e = e' ∧ m ≤ m'

/-- The number of bits by which an integer is too long for a mantissa. -/
def excess (n : Nat) : Nat := n.log2 - 52

/-- The integer with its mantissa filled up to 53 bits, and not yet cut down to them. -/
def filled (n : Nat) : Nat := n * 2 ^ (52 - n.log2)

/-- The filled mantissa has its leading bit at the right place. -/
theorem filled_bounds {n : Nat} (hn : n ≠ 0) : 2 ^ (52 + excess n) ≤ filled n ∧ filled n < 2 ^ (53 + excess n) := by
  have hlow := Nat.log2_self_le hn
  have hhigh := Nat.lt_log2_self (n := n)
  have hpow : n.log2 + (52 - n.log2) = 52 + excess n := by
    unfold excess
    omega
  unfold filled
  constructor
  · rw [← hpow, Nat.pow_add]
    exact Nat.mul_le_mul_right _ hlow
  · rw [show 53 + excess n = n.log2 + 1 + (52 - n.log2) by omega, Nat.pow_add]
    exact Nat.mul_lt_mul_of_pos_right hhigh (Nat.two_pow_pos _)

/-- The mantissa of an integer, after rounding; it may be `2 ^ 53`. -/
def rounded (n : Nat) : Nat :=
  (ExtendedMantissa.ofMantissaAndAccuracy (filled n) .exact >>> excess n).roundedMantissa

/-- **A positive integer below `2 ^ 64` becomes a normal number.** -/
theorem ofNat_normal {n : Nat} (hn : n ≠ 0) (hlt : n < 2 ^ 64) :
    ∃ m e, ∃ h : 0 < m, UnpackedFloat.ofNat Format.binary64 n = .finite .positive m e h ∧ Normal m ∧
      ((m = rounded n ∧ e = n.log2 - 52) ∨ (rounded n = 2 ^ 53 ∧ m = 2 ^ 52 ∧ e = n.log2 - 52 + 1)) := by
  obtain ⟨hlow, hhigh⟩ := filled_bounds hn
  have hlog : n.log2 < 64 := (Nat.log2_lt hn).mpr hlt
  have hround : UnpackedFloat.ofNat Format.binary64 n =
      roundWithAccuracy Format.binary64 .positive (filled n) (-((52 - n.log2 : Nat) : Int)) .exact := by
    have htarget : Format.binary64.targetExponent (totalExponent n 0) = n.log2 - 52 := by
      rw [targetExponent_binary64, totalExponent]
      omega
    have hgt : compare (n : Int) 0 = .gt := Int.compare_eq_gt.mpr (by omega)
    unfold UnpackedFloat.ofNat UnpackedFloat.ofInt UnpackedFloat.normalize
    rw [hgt]
    unfold UnpackedFloat.round decreaseExponent
    dsimp only
    rw [Int.toNat_natCast, htarget, show ((0 : Int) - (n.log2 - 52)).toNat = 52 - n.log2 by omega, Nat.shiftLeft_eq,
      Int.zero_sub]
    rfl
  obtain ⟨m, e, h, hresult, hnormal, hcases⟩ :=
    roundWithAccuracy_normal .positive (e := -((52 - n.log2 : Nat) : Int)) .exact hlow hhigh (by omega)
  have hexponent : -((52 - n.log2 : Nat) : Int) + (excess n : Nat) = n.log2 - 52 := by
    unfold excess
    omega
  rw [hexponent] at hcases
  exact ⟨m, e, h, hround.trans hresult, hnormal, hcases⟩

/-- At one place of rounding, a larger integer has a mantissa that is at least as large. -/
theorem rounded_mono {a b : Nat} (hlog : a.log2 = b.log2) (hle : a ≤ b) : rounded a ≤ rounded b := by
  have hfilled : filled a ≤ filled b := by
    unfold filled
    rw [hlog]
    exact Nat.mul_le_mul_right _ hle
  have hexcess : excess a = excess b := congrArg (· - 52) hlog
  unfold rounded
  rw [hexcess]
  refine roundedMantissa_mono (code_shiftRight_mono ?_ _)
  show 4 * filled a + 2 * 0 + 0 ≤ 4 * filled b + 2 * 0 + 0
  omega

/-- **The conversion is monotone.** With the same leading bit the mantissas are rounded at the same place; otherwise
the smaller number has the smaller exponent, unless it is rounded up to the power of two below the other. -/
theorem ofNat_mono {a b m₁ m₂ : Nat} {e₁ e₂ : Int} {h₁ : 0 < m₁} {h₂ : 0 < m₂} (ha : a ≠ 0) (hle : a ≤ b)
    (hlt : b < 2 ^ 64) (hm₁ : UnpackedFloat.ofNat Format.binary64 a = .finite .positive m₁ e₁ h₁)
    (hm₂ : UnpackedFloat.ofNat Format.binary64 b = .finite .positive m₂ e₂ h₂) : NormalLe m₁ e₁ m₂ e₂ := by
  obtain ⟨m, e, h, heq, ⟨hlow₁, hhigh₁⟩, hcases₁⟩ := ofNat_normal ha (by omega)
  rw [hm₁] at heq
  cases heq
  obtain ⟨m, e, h, heq, ⟨hlow₂, hhigh₂⟩, hcases₂⟩ := ofNat_normal (n := b) (by omega) hlt
  rw [hm₂] at heq
  cases heq
  have hlog : a.log2 ≤ b.log2 := (Nat.le_log2 (by omega)).mpr ((Nat.log2_self_le ha).trans hle)
  unfold NormalLe
  rcases Nat.lt_or_eq_of_le hlog with hlt | heq
  · omega
  · have hrounded := rounded_mono heq hle
    omega

/-! ## Quotients -/

/-- The quotient of two mantissas, with 53 more bits: between half of `2 ^ 53` and twice it. -/
theorem mantissa_div {m₁ m₂ : Nat} (hm₁ : Normal m₁) (hm₂ : Normal m₂) :
    (m₁ < m₂ → 2 ^ 52 ≤ m₁ * 2 ^ 53 / m₂ ∧ m₁ * 2 ^ 53 / m₂ < 2 ^ 53) ∧
    (m₂ ≤ m₁ → 2 ^ 53 ≤ m₁ * 2 ^ 53 / m₂ ∧ m₁ * 2 ^ 53 / m₂ < 2 ^ 54) := by
  obtain ⟨hlow₁, hhigh₁⟩ := hm₁
  obtain ⟨hlow₂, hhigh₂⟩ := hm₂
  have hpos : 0 < m₂ := by omega
  simp only [Nat.le_div_iff_mul_le hpos, Nat.div_lt_iff_lt_mul hpos]
  omega

/-- A quotient is the rounded quotient of the mantissas. -/
theorem div_eq_round {m₁ m₂ : Nat} {e₁ e₂ : Int} (h₁ : 0 < m₁) (h₂ : 0 < m₂) (hm₁ : Normal m₁) (hm₂ : Normal m₂)
    (hrange : -1021 ≤ e₁ - e₂) :
    UnpackedFloat.div Format.binary64 (.finite .positive m₁ e₁ h₁) (.finite .positive m₂ e₂ h₂) =
      roundWithAccuracy Format.binary64 .positive (m₁ * 2 ^ 53 / m₂) (e₁ - e₂ - 53)
        (accuracyOfFraction (m₁ * 2 ^ 53 % m₂) m₂) := by
  have htarget : min (e₁ - e₂) (Format.binary64.targetExponent (totalExponent m₁ e₁ - totalExponent m₂ e₂)) =
      e₁ - e₂ - 53 := by
    rw [targetExponent_binary64, totalExponent, totalExponent, hm₁.log2, hm₂.log2]
    omega
  unfold UnpackedFloat.div divCore
  dsimp only
  rw [htarget, show (e₁ - e₂ - (e₁ - e₂ - 53)).toNat = 53 by omega, Nat.shiftLeft_eq]
  rfl

/-- **The quotient of two normal numbers, the first at most the second, is a normal number and at most 1.** -/
theorem div_normal {m₁ m₂ : Nat} {e₁ e₂ : Int} (h₁ : 0 < m₁) (h₂ : 0 < m₂) (hm₁ : Normal m₁) (hm₂ : Normal m₂)
    (hle : NormalLe m₁ e₁ m₂ e₂) (hrange : -1021 ≤ e₁ - e₂) :
    ∃ m e, ∃ h : 0 < m, UnpackedFloat.div Format.binary64 (.finite .positive m₁ e₁ h₁) (.finite .positive m₂ e₂ h₂) =
      .finite .positive m e h ∧ Normal m ∧ -1074 ≤ e ∧ NormalLe m e (2 ^ 52) (-52) := by
  rw [div_eq_round h₁ h₂ hm₁ hm₂ hrange]
  rcases Nat.lt_or_ge m₁ m₂ with hlt | hge
  · -- below 1 in the mantissas: 53 bits, and a carry reaches the next power of two
    obtain ⟨hlow, hhigh⟩ := (mantissa_div hm₁ hm₂).1 hlt
    obtain ⟨m, e, h, hresult, hnormal, hcases⟩ := roundWithAccuracy_normal .positive (k := 0) (e := e₁ - e₂ - 53)
      (accuracyOfFraction (m₁ * 2 ^ 53 % m₂) m₂) hlow hhigh (by omega)
    refine ⟨m, e, h, hresult, hnormal, ?_, ?_⟩
    · omega
    · unfold NormalLe at hle ⊢
      omega
  · -- 54 bits; the exponent of the first is smaller, unless the two numbers are the same
    obtain ⟨hlow, hhigh⟩ := (mantissa_div hm₁ hm₂).2 hge
    obtain ⟨m, e, h, hresult, hnormal, hcases⟩ := roundWithAccuracy_normal .positive (k := 1) (e := e₁ - e₂ - 53)
      (accuracyOfFraction (m₁ * 2 ^ 53 % m₂) m₂) hlow hhigh (by omega)
    refine ⟨m, e, h, hresult, hnormal, ?_, ?_⟩
    · omega
    · unfold NormalLe at hle ⊢
      rcases hle with hsmaller | ⟨hexp, hmant⟩
      · omega
      · obtain rfl : m₁ = m₂ := Nat.le_antisymm hmant hge
        have hone : ExtendedMantissa.ofMantissaAndAccuracy (m₁ * 2 ^ 53 / m₁)
            (accuracyOfFraction (m₁ * 2 ^ 53 % m₁) m₁) >>> 1 = ⟨2 ^ 52, false, false⟩ := by
          rw [Nat.mul_div_cancel_left _ h₁, Nat.mul_mod_right, accuracyOfFraction, if_pos rfl]
          rfl
        rw [hone] at hcases
        have hrounded : (⟨2 ^ 52, false, false⟩ : ExtendedMantissa).roundedMantissa = 2 ^ 52 := rfl
        rw [hrounded] at hcases
        omega

/-! ## `Float` -/

/-- Zero. -/
theorem unpack_zero : (0 : Float).toModel.unpack = .zero .positive := rfl

/-- One. -/
theorem unpack_one : (1 : Float).toModel.unpack = .finite .positive (2 ^ 52) (-52) (by decide) := rfl

/-- Zero as a `Float`. -/
theorem toFloat_zero : (0 : UInt64).toFloat = 0 := rfl

/-- A division of `Float`, on what the patterns stand for. -/
theorem div_eq_pack (x y : Float) :
    x / y = .ofModel (Float.Model.pack (UnpackedFloat.div Format.binary64 x.toModel.unpack y.toModel.unpack)) := rfl

/-- The order of `Float`, on what the patterns stand for. -/
theorem le_iff_compare (x y : Float) :
    x ≤ y ↔ (x.toModel.unpack.compare y.toModel.unpack).any (·.isLE) = true := by
  show decide (x.toModel ≤ y.toModel) = true ↔ _
  exact decide_eq_true_iff

/-- A positive `u64` is a normal number after the conversion. -/
theorem unpack_toFloat {n : UInt64} (hn : 0 < n) :
    ∃ m e, ∃ h : 0 < m, n.toFloat.toModel.unpack = .finite .positive m e h ∧
      UnpackedFloat.ofNat Format.binary64 n.toNat = .finite .positive m e h ∧ Normal m ∧ -52 ≤ e ∧ e ≤ 12 := by
  have hpos : n.toNat ≠ 0 := Nat.pos_iff_ne_zero.mp (UInt64.lt_iff_toNat_lt.mp hn)
  obtain ⟨m, e, h, hnat, hnormal, hcases⟩ := ofNat_normal hpos n.toNat_lt
  have hlog : n.toNat.log2 < 64 := (Nat.log2_lt hpos).mpr n.toNat_lt
  have hpack : n.toFloat.toModel = Float.Model.pack (UnpackedFloat.ofNat Format.binary64 n.toNat) := rfl
  refine ⟨m, e, h, ?_, hnat, hnormal, by omega, by omega⟩
  rw [hpack, hnat, unpack_pack_normal .positive hnormal h (by omega) (by omega)]

/-- Nothing is left of zero by a division. -/
theorem zero_div_toFloat {n : UInt64} (hn : 0 < n) : (0 : Float) / n.toFloat = 0 := by
  obtain ⟨m, e, h, hunpack, -⟩ := unpack_toFloat hn
  rw [div_eq_pack, hunpack, unpack_zero]
  rfl

/-- **A ratio of two `u64` that is at most 1 is at most 1 in `f64` as well.** -/
theorem toFloat_div_toFloat_le_one {a b : UInt64} (hb : 0 < b) (hle : a ≤ b) : a.toFloat / b.toFloat ≤ 1 := by
  by_cases ha : a = 0
  · rw [ha, toFloat_zero, zero_div_toFloat hb]
    decide +kernel
  · have hpos : 0 < a := UInt64.pos_iff_ne_zero.mpr ha
    obtain ⟨m₁, e₁, h₁, hunpack₁, hnat₁, hnormal₁, hlow₁, hhigh₁⟩ := unpack_toFloat hpos
    obtain ⟨m₂, e₂, h₂, hunpack₂, hnat₂, hnormal₂, hlow₂, hhigh₂⟩ := unpack_toFloat hb
    have hmono : NormalLe m₁ e₁ m₂ e₂ :=
      ofNat_mono (Nat.pos_iff_ne_zero.mp (UInt64.lt_iff_toNat_lt.mp hpos)) (UInt64.le_iff_toNat_le.mp hle) b.toNat_lt
        hnat₁ hnat₂
    obtain ⟨m, e, h, hdiv, hnormal, hlow, hone⟩ := div_normal h₁ h₂ hnormal₁ hnormal₂ hmono (by omega)
    have hunpack : (a.toFloat / b.toFloat).toModel.unpack = .finite .positive m e h := by
      rw [div_eq_pack, hunpack₁, hunpack₂, hdiv]
      refine unpack_pack_normal .positive hnormal h hlow ?_
      unfold NormalLe at hone
      omega
    rw [le_iff_compare, hunpack, unpack_one]
    show ((compare e (-52)).then (compare m (2 ^ 52))).isLE = true
    rcases hone with hlt | ⟨rfl, hm⟩
    · rw [Int.compare_eq_lt.mpr hlt]
      rfl
    · rw [Int.compare_eq_eq.mpr rfl]
      exact Nat.isLE_compare.mpr hm

end WarmLogic.Lib.Binary64
