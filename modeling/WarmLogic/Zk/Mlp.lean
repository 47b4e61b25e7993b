/-
# WarmLogic.Zk.Mlp — the circuit of a quantized network, and which inferences it accepts.

A layer adds to each bias the products of weights and inputs, each divided by the scale. The division is a private quotient
and remainder: the remainder is shown to be below the scale, but nothing is shown of the quotient, so a prover can take any
remainder there and have a quotient for it in the field. Only the sum of a neuron is shown to be a byte. Hence what the
circuit accepts of a neuron with `n` inputs is any byte that is right up to a total remainder of at most `n` times the
scale less one (`Admits`), which with two inputs or more is not one value. `mlp_circuit` has this for the whole network,
beside what a prover that follows the program needs; `admits_fire` bounds how far the two are apart.

The development of one neuron has two halves. What the circuit admits (`yields_neuron`): its equation over the field
is one over the numbers, since no term reaches the modulus, and the remainders are free below the scale, so any total
up to their maximum can be shared out among the inputs (`exists_share`). What the program proves (`proves_neuron`):
its own quotients and remainders, as long as every number it meets is a byte. Layers and the network repeat the two,
and `admits_fire` ties them together.
-/
import WarmLogic.Zk.Gadgets
import Mathlib.Tactic.LinearCombination

namespace WarmLogic.Zk

open WarmLogic.Lib
open WarmLogic.Lib.Synthesis
open WarmLogic.Lib.Synthesis.Gadgets

section Programs

variable [Gadgets Fr]

/-! ## The gadgets of `quantized_gadget.rs` -/

/-- A byte. -/
def enforceU8Range (val : Fr) : Synthesis Fr Unit := enforceRange val 8

/-- A byte with its sign, moved to the non-negative ones. -/
def enforceI8Range (val : Fr) : Synthesis Fr Unit := enforceRange (val + 128) 8

/-- `mul_and_scale`. The prover's division fails for a scale of zero. -/
def mulAndScale (a b : Fr) (qScale : UInt64) : Synthesis Fr Fr := do
  let aInt := a.val % 2 ^ 64
  let bInt := b.val % 2 ^ 64
  let productInt := aInt * bInt % 2 ^ 64
  let quotient ← newWitness (if qScale = 0 then none else some ((productInt / qScale.toNat : ℕ) : Fr))
  let rem ← newWitness (if qScale = 0 then none else some ((productInt % qScale.toNat : ℕ) : Fr))
  let scaleVar : Fr := (qScale.toNat : Fr)
  let product ← mulVar a b
  enforceEqual product (quotient * scaleVar + rem)
  enforceRange rem 8
  enforceLessThan rem scaleVar
  pure quotient

/-! ## The circuit -/

/-- The numbers of the prover, which it takes from the network and its input. -/
structure MLPCircuit where
  inputs : List UInt64
  wHidden : List (List UInt64)
  bHidden : List UInt64
  wOut : List (List UInt64)
  bOut : List UInt64
  qScale : UInt64

/-- The private inputs, each shown to be a byte. -/
def allocInputs : List UInt64 → Synthesis Fr (List Fr)
  | [] => pure []
  | v :: inputs => do
      let var ← newWitness (some (v.toNat : Fr))
      enforceU8Range var
      let inputVars ← allocInputs inputs
      pure (var :: inputVars)

/-- The loop of a neuron over its inputs. A weight that is not there is an index out of bounds to the prover. -/
def accumulate (qScale : UInt64) : List Fr → List UInt64 → Fr → Synthesis Fr Fr
  | [], _, accumulator => pure accumulator
  | inputVar :: inputVars, weights, accumulator => do
      let weightVar ← newInput (weights.head?.map fun w => (w.toNat : Fr))
      enforceU8Range weightVar
      let macTerm ← mulAndScale weightVar inputVar qScale
      accumulate qScale inputVars weights.tail (accumulator + macTerm)

/-- One neuron: its bias is public, and its sum shown to be a byte. -/
def neuron (qScale : UInt64) (inputs : List Fr) (bias : UInt64) (weights : List UInt64) : Synthesis Fr Fr := do
  let biasVar ← newInput (some (bias.toNat : Fr))
  enforceU8Range biasVar
  let accumulator ← accumulate qScale inputs weights biasVar
  enforceU8Range accumulator
  pure accumulator

/-- The neurons of a layer, one after the other. -/
def layer (qScale : UInt64) (inputs : List Fr) : List UInt64 → List (List UInt64) → Synthesis Fr (List Fr)
  | [], _ => pure []
  | bias :: biases, rows => do
      let accumulator ← neuron qScale inputs bias (rows.head?.getD [])
      let vars ← layer qScale inputs biases rows.tail
      pure (accumulator :: vars)

def MLPCircuit.generateConstraints (c : MLPCircuit) : Synthesis Fr Unit := do
  let inputVars ← allocInputs c.inputs
  let hiddenVars ← layer c.qScale inputVars c.bHidden c.wHidden
  let _outputVars ← layer c.qScale hiddenVars c.bOut c.wOut
  pure ()

end Programs

/-! ## What a neuron computes, and what is admitted of it -/

/-- The sum of the products, undivided. -/
def dot : List ℕ → List ℕ → ℕ
  | w :: ws, x :: xs => w * x + dot ws xs
  | [], _ => 0
  | _ :: _, [] => 0

/-- The sum of the products, each divided by the scale. -/
def macSum (q : ℕ) : List ℕ → List ℕ → ℕ
  | w :: ws, x :: xs => w * x / q + macSum q ws xs
  | [], _ => 0
  | _ :: _, [] => 0

/-- The numbers of a neuron: its bias and its weights. -/
structure Params where
  bias : ℕ
  weights : List ℕ

/-- What the network computes of a neuron. -/
def Params.fire (p : Params) (q : ℕ) (xs : List ℕ) : ℕ := p.bias + macSum q p.weights xs

/-- The largest remainder that is shown to be one. -/
def maxRem (q : ℕ) : ℕ := min q 256 - 1

/-- What the circuit admits of a neuron: a byte that is right up to the remainders of all its inputs. -/
def Params.Admits (q : ℕ) (xs : List ℕ) (p : Params) (y : ℕ) : Prop :=
  y < 256 ∧ q * y ≤ q * p.bias + dot p.weights xs ∧ q * p.bias + dot p.weights xs ≤ q * y + xs.length * maxRem q

/-- A neuron for `n` inputs whose bias and weights are bytes. -/
def Params.Fits (n : ℕ) (p : Params) : Prop :=
  p.bias < 256 ∧ p.weights.length = n ∧ ∀ w ∈ p.weights, w < 256

/-- Numbers as field elements. -/
def casts (ns : List ℕ) : List Fr := ns.map Nat.cast

/-- The public inputs of a neuron, in the order of their allocation. -/
def Params.encode (p : Params) : List Fr := (p.bias : Fr) :: casts p.weights

/-- The public inputs of a layer. -/
def encodeLayer : List Params → List Fr
  | [] => []
  | p :: ps => p.encode ++ encodeLayer ps

/-- A sum of products of bytes is bounded. -/
theorem dot_le {ws xs : List ℕ} (hw : ∀ w ∈ ws, w < 256) (hx : ∀ x ∈ xs, x < 256) :
    dot ws xs ≤ xs.length * (255 * 255) := by
  induction ws generalizing xs with
  | nil =>
      show 0 ≤ _
      omega
  | cons w ws ih =>
      cases xs with
      | nil =>
          show 0 ≤ _
          omega
      | cons x xs =>
          obtain ⟨hw0, hw⟩ := List.forall_mem_cons.mp hw
          obtain ⟨hx0, hx⟩ := List.forall_mem_cons.mp hx
          have hprod : w * x ≤ 255 * 255 := Nat.mul_le_mul (by omega) (by omega)
          have hrest := ih hw hx
          show w * x + dot ws xs ≤ (xs.length + 1) * (255 * 255)
          omega

/-- Dividing each product loses less than the scale at each input. -/
theorem macSum_bounds {q : ℕ} (hq : 0 < q) (ws xs : List ℕ) :
    q * macSum q ws xs ≤ dot ws xs ∧ dot ws xs ≤ q * macSum q ws xs + xs.length * (q - 1) := by
  induction ws generalizing xs with
  | nil =>
      show q * 0 ≤ 0 ∧ 0 ≤ _
      omega
  | cons w ws ih =>
      cases xs with
      | nil =>
          show q * 0 ≤ 0 ∧ 0 ≤ _
          omega
      | cons x xs =>
          obtain ⟨hle, hge⟩ := ih xs
          have hdiv := Nat.div_add_mod (w * x) q
          have hmod := Nat.mod_lt (w * x) hq
          show q * (w * x / q + macSum q ws xs) ≤ w * x + dot ws xs ∧
            w * x + dot ws xs ≤ q * (w * x / q + macSum q ws xs) + (xs.length + 1) * (q - 1)
          rw [Nat.mul_add, Nat.add_mul]
          omega

/-- **What the prover of the program computes is admitted, and what is admitted is close to it**: nearer than the number of
inputs, so that only a neuron with one input has one value. -/
theorem admits_fire {q : ℕ} (hq : 0 < q) (hq' : q ≤ 256) {p : Params} {xs : List ℕ} :
    (p.fire q xs < 256 → p.Admits q xs (p.fire q xs)) ∧
      ∀ y, p.Admits q xs y → y < p.fire q xs + max xs.length 1 ∧ p.fire q xs < y + max xs.length 1 := by
  obtain ⟨hle, hge⟩ := macSum_bounds hq p.weights xs
  have hrem : maxRem q = q - 1 := by
    unfold maxRem
    omega
  have hfire : q * p.fire q xs = q * p.bias + q * macSum q p.weights xs := Nat.mul_add _ _ _
  refine ⟨fun hbyte => ⟨hbyte, by omega, by rw [hrem]; omega⟩, ?_⟩
  rintro y ⟨-, hlow, hhigh⟩
  rw [hrem] at hhigh
  -- both are within the total remainder of the same sum
  have hspread : xs.length * (q - 1) + 1 ≤ q * max xs.length 1 := by
    rcases Nat.eq_zero_or_pos xs.length with h | h
    · rw [h, Nat.zero_mul, Nat.max_eq_right (Nat.zero_le 1), Nat.mul_one]
      omega
    · rw [max_eq_left h, Nat.mul_sub_one, Nat.mul_comm]
      have := Nat.le_mul_of_pos_right xs.length hq
      rw [Nat.mul_comm] at this
      omega
  constructor
  · have hlt : q * y < q * (p.fire q xs + max xs.length 1) := by
      rw [Nat.mul_add]
      omega
    exact Nat.lt_of_mul_lt_mul_left hlt
  · have hlt : q * p.fire q xs < q * (y + max xs.length 1) := by
      rw [Nat.mul_add]
      omega
    exact Nat.lt_of_mul_lt_mul_left hlt

/-- A total remainder can be shared out, one share after the other. -/
theorem exists_share {R n m : ℕ} (h : R ≤ (n + 1) * m) : ∃ r ≤ m, ∃ R' ≤ n * m, R = r + R' := by
  rw [Nat.add_mul, Nat.one_mul] at h
  rcases Nat.le_total R m with hR | hR
  · exact ⟨R, hR, 0, Nat.zero_le _, rfl⟩
  · exact ⟨m, le_rfl, R - m, by omega, by omega⟩

/-- The equation of a neuron is one of numbers: nothing wraps around. -/
theorem neuron_eq_iff {q b d y R n : ℕ} (hq : q < 2 ^ 64) (hn : n < 2 ^ 64) (hb : b < 256) (hy : y < 256)
    (hd : d ≤ n * (255 * 255)) (hR : R ≤ n * maxRem q) :
    (q : Fr) * y + (R : ℕ) = (q : Fr) * b + (d : ℕ) ↔ q * y + R = q * b + d := by
  have hmodulus := two_pow_lt_frModulus
  have hrem : n * maxRem q ≤ n * 255 := Nat.mul_le_mul_left n (by unfold maxRem; omega)
  have hqy : q * y ≤ 2 ^ 64 * 255 := Nat.mul_le_mul hq.le (by omega)
  have hqb : q * b ≤ 2 ^ 64 * 255 := Nat.mul_le_mul hq.le (by omega)
  rw [← natCast_eq_iff (p := frModulus) (by omega) (by omega)]
  push_cast
  exact Iff.rfl

/-! ## One multiplication -/

section Rules

variable {qScale : UInt64} {x rest : List Fr}

/-- The scale is not zero in the field. -/
theorem scale_ne_zero (hq : 0 < qScale.toNat) : (qScale.toNat : Fr) ≠ 0 := by
  rw [Ne, ← Nat.cast_zero, natCast_eq_iff (lt_trans qScale.toNat_lt (lt_trans (by norm_num) two_pow_lt_frModulus))
    prime_frModulus.pos]
  omega

variable [Gadgets Fr]

/-- Any remainder below the scale goes with a quotient. -/
theorem yields_mulAndScale {a b quotient : Fr} :
    (mulAndScale a b qScale).Yields x quotient rest ↔
      (∃ r < min qScale.toNat 256, a * b = quotient * (qScale.toNat : Fr) + (r : ℕ)) ∧ x = rest := by
  unfold mulAndScale
  simp only [yields_newWitness, yields_mulVar, yields_enforceEqual]
  constructor
  · rintro ⟨u, v, heq, h⟩
    obtain ⟨_, x', hrange, h⟩ := yields_bind.mp h
    obtain ⟨_, x'', hless, hpure⟩ := yields_bind.mp h
    obtain ⟨hv, rfl⟩ := yields_enforceRange.mp hrange
    obtain ⟨hlt, rfl⟩ := yields_enforceGreaterThan.mp hless
    obtain ⟨rfl, rfl⟩ := yields_pure.mp hpure
    have hval : ((v.val : ℕ) : Fr) = v := ZMod.natCast_zmod_val v
    rw [← hval] at hlt
    have hscale := (val_sub_one_lt qScale.toNat_lt (lt_trans hv (by norm_num [rangeProofBits]))).mp hlt
    exact ⟨⟨v.val, lt_min hscale hv, by rw [hval]; exact heq⟩, rfl⟩
  · rintro ⟨⟨r, hr, heq⟩, rfl⟩
    obtain ⟨hscale, hbyte⟩ := lt_min_iff.mp hr
    have hlt : r < frModulus := lt_trans hbyte (lt_trans (by norm_num) two_pow_lt_frModulus)
    refine ⟨quotient, r, heq, yields_bind.mpr ⟨(), x, yields_enforceRange.mpr ⟨?_, rfl⟩, ?_⟩⟩
    · rw [ZMod.val_natCast, Nat.mod_eq_of_lt hlt]
      exact hbyte
    · refine yields_bind.mpr ⟨(), x, yields_enforceGreaterThan.mpr ⟨?_, rfl⟩, rfl, rfl⟩
      exact (val_sub_one_lt qScale.toNat_lt (lt_trans hbyte (by norm_num [rangeProofBits]))).mpr hscale

/-- The prover's own division of two bytes. -/
theorem proves_mulAndScale (hq : 0 < qScale.toNat) {w v : ℕ} (hw : w < 256) (hv : v < 256) {quotient : Fr} :
    (mulAndScale (w : Fr) v qScale).Proves quotient x ↔
      w * v % qScale.toNat < 256 ∧ quotient = ((w * v / qScale.toNat : ℕ) : Fr) ∧ x = [] := by
  have hmod := Nat.mod_lt (w * v) hq
  have hprod : w * v ≤ 255 * 255 := Nat.mul_le_mul (by omega) (by omega)
  have hmodulus : 2 ^ 64 < frModulus := lt_trans (by norm_num) two_pow_lt_frModulus
  have hlt := qScale.toNat_lt
  have hscale : qScale ≠ 0 := fun h => by rw [h] at hq; exact absurd hq (by decide)
  have hproduct : (w : Fr).val % 2 ^ 64 * ((v : Fr).val % 2 ^ 64) % 2 ^ 64 = w * v := by
    rw [ZMod.val_natCast, ZMod.val_natCast, Nat.mod_eq_of_lt (show w < frModulus by omega),
      Nat.mod_eq_of_lt (show v < frModulus by omega), Nat.mod_eq_of_lt (show w < 2 ^ 64 by omega),
      Nat.mod_eq_of_lt (show v < 2 ^ 64 by omega), Nat.mod_eq_of_lt (by omega)]
  have hdivision : (w : Fr) * v =
      ((w * v / qScale.toNat : ℕ) : Fr) * (qScale.toNat : Fr) + ((w * v % qScale.toNat : ℕ) : Fr) := by
    rw [← Nat.cast_mul, ← Nat.cast_mul, ← Nat.cast_add, Nat.mul_comm (w * v / qScale.toNat), Nat.div_add_mod]
  have hrem : (((w * v % qScale.toNat : ℕ) : Fr)).val = w * v % qScale.toNat := by
    rw [ZMod.val_natCast, Nat.mod_eq_of_lt (by omega)]
  have hless := (val_sub_one_lt (a := qScale.toNat) hlt (lt_trans hmod hlt)).mpr hmod
  unfold mulAndScale
  simp only [hproduct, if_neg hscale, proves_newWitness, proves_mulVar, proves_enforceEqual, hdivision, true_and]
  constructor
  · intro h
    obtain ⟨_, y, z, hrange, h, hx⟩ := proves_bind.mp h
    obtain ⟨_, y', z', hlt', hpure, hz⟩ := proves_bind.mp h
    obtain ⟨hbyte, hy⟩ := proves_enforceRange.mp hrange
    obtain ⟨-, hy'⟩ := proves_enforceGreaterThan.mp hlt'
    obtain ⟨heq, hz'⟩ := proves_pure.mp hpure
    rw [hrem] at hbyte
    rw [hx, hz, hy, hy', hz']
    exact ⟨hbyte, heq.symm, rfl⟩
  · rintro ⟨hbyte, rfl, rfl⟩
    rw [← hrem] at hbyte
    refine proves_bind.mpr ⟨(), [], [], proves_enforceRange.mpr ⟨hbyte, rfl⟩, ?_, rfl⟩
    exact proves_bind.mpr ⟨(), [], [], proves_enforceGreaterThan.mpr ⟨hless, rfl⟩, proves_pure.mpr ⟨rfl, rfl⟩, rfl⟩

/-! ## One neuron -/

/-- A byte as a public input. -/
theorem yields_byteInput {o : Option Fr} {f : Fr → Synthesis Fr Fr} {c : Fr} :
    (newInput o >>= fun v => enforceU8Range v >>= fun _ => f v).Yields x c rest ↔
      ∃ w : ℕ, w < 256 ∧ ∃ x', x = (w : Fr) :: x' ∧ (f (w : Fr)).Yields x' c rest := by
  rw [yields_newInput]
  constructor
  · rintro ⟨v, x', rfl, h⟩
    obtain ⟨_, x'', hrange, h⟩ := yields_bind.mp h
    obtain ⟨hv, rfl⟩ := yields_enforceRange.mp hrange
    have hval : ((v.val : ℕ) : Fr) = v := ZMod.natCast_zmod_val v
    exact ⟨v.val, hv, x', by rw [hval], by rw [hval]; exact h⟩
  · rintro ⟨w, hw, x', rfl, h⟩
    refine ⟨w, x', rfl, yields_bind.mpr ⟨(), x', yields_enforceRange.mpr ⟨?_, rfl⟩, h⟩⟩
    rw [ZMod.val_natCast, Nat.mod_eq_of_lt (lt_trans hw (lt_trans (by norm_num) two_pow_lt_frModulus))]
    exact hw

/-- The loop of a neuron, as an equation in the field: the remainders of all inputs add up to any number in their range. -/
theorem yields_accumulate (hq : 0 < qScale.toNat) {xs : List ℕ} {ws : List UInt64} {acc out : Fr} :
    (accumulate qScale (casts xs) ws acc).Yields x out rest ↔
      ∃ weights : List ℕ, weights.length = xs.length ∧ (∀ w ∈ weights, w < 256) ∧
        x = casts weights ++ rest ∧ ∃ R ≤ xs.length * maxRem qScale.toNat,
          (qScale.toNat : Fr) * out + (R : ℕ) = (qScale.toNat : Fr) * acc + (dot weights xs : ℕ) := by
  have hscale := scale_ne_zero hq
  induction xs generalizing ws acc x with
  | nil =>
      constructor
      · rintro ⟨rfl, rfl⟩
        exact ⟨[], rfl, fun _ h => (by cases h), rfl, 0, Nat.zero_le _, rfl⟩
      · rintro ⟨weights, hlen, -, rfl, R, hR, heq⟩
        rw [List.length_eq_zero_iff.mp hlen] at heq ⊢
        have hR0 : R = 0 := by
          rw [List.length_nil, Nat.zero_mul] at hR
          omega
        rw [hR0] at heq
        exact ⟨(mul_left_cancel₀ hscale (add_right_cancel heq)).symm, rfl⟩
  | cons v xs ih =>
      show (newInput _ >>= fun w => enforceU8Range w >>= fun _ => mulAndScale w (v : Fr) qScale >>= fun m =>
        accumulate qScale (casts xs) ws.tail (acc + m)).Yields x out rest ↔ _
      rw [yields_byteInput]
      constructor
      · rintro ⟨w, hw, x', rfl, h⟩
        obtain ⟨quotient, x'', hmul, hloop⟩ := yields_bind.mp h
        obtain ⟨⟨r, hr, heq⟩, rfl⟩ := yields_mulAndScale.mp hmul
        obtain ⟨weights, hlen, hbytes, rfl, R, hR, hsum⟩ := ih.mp hloop
        refine ⟨w :: weights, congrArg (· + 1) hlen, List.forall_mem_cons.mpr ⟨hw, hbytes⟩, rfl, r + R, ?_, ?_⟩
        · rw [List.length_cons, Nat.add_mul, Nat.one_mul]
          have : r ≤ maxRem qScale.toNat := Nat.le_sub_one_of_lt hr
          omega
        · show _ = _ + ((w * v + dot weights xs : ℕ) : Fr)
          push_cast
          linear_combination hsum - heq
      · rintro ⟨weights, hlen, hbytes, rfl, R, hR, hsum⟩
        obtain ⟨w, weights, rfl⟩ := List.exists_cons_of_length_eq_add_one hlen
        obtain ⟨hw, hbytes⟩ := List.forall_mem_cons.mp hbytes
        obtain ⟨r, hr, R', hR', rfl⟩ := exists_share hR
        have hmin : r < min qScale.toNat 256 := by
          unfold maxRem at hr
          omega
        -- the quotient that goes with the first share
        have hquot : (w : Fr) * v = ((w : Fr) * v - (r : ℕ)) / (qScale.toNat : Fr) * (qScale.toNat : Fr) + (r : ℕ) := by
          rw [div_mul_cancel₀ _ hscale, sub_add_cancel]
        have hsum' : ((w * v + dot weights xs : ℕ) : Fr) = (w : Fr) * v + (dot weights xs : ℕ) := by push_cast; rfl
        refine ⟨w, hw, _, rfl, yields_bind.mpr ⟨_, _, yields_mulAndScale.mpr ⟨⟨r, hmin, hquot⟩, rfl⟩, ?_⟩⟩
        refine ih.mpr ⟨weights, Nat.succ_inj.mp hlen, hbytes, rfl, R', hR', ?_⟩
        rw [show dot (w :: weights) (v :: xs) = w * v + dot weights xs from rfl, hsum', Nat.cast_add] at hsum
        linear_combination hsum + hquot

/-- **What the circuit admits of one neuron.** -/
theorem yields_neuron (hq : 0 < qScale.toNat) {xs : List ℕ} (hx : ∀ v ∈ xs, v < 256) (hn : xs.length < 2 ^ 64)
    {bias : UInt64} {ws : List UInt64} {out : Fr} :
    (neuron qScale (casts xs) bias ws).Yields x out rest ↔
      ∃ p : Params, p.Fits xs.length ∧ x = p.encode ++ rest ∧ ∃ y : ℕ, p.Admits qScale.toNat xs y ∧ out = (y : Fr) := by
  unfold neuron
  rw [yields_byteInput]
  constructor
  · rintro ⟨b, hb, x', rfl, h⟩
    obtain ⟨acc, x'', hloop, h⟩ := yields_bind.mp h
    obtain ⟨_, x''', hrange, hpure⟩ := yields_bind.mp h
    obtain ⟨hy, rfl⟩ := yields_enforceRange.mp hrange
    obtain ⟨rfl, rfl⟩ := yields_pure.mp hpure
    obtain ⟨weights, hlen, hbytes, rfl, R, hR, hsum⟩ := (yields_accumulate hq).mp hloop
    have hval : ((acc.val : ℕ) : Fr) = acc := ZMod.natCast_zmod_val acc
    rw [← hval, neuron_eq_iff qScale.toNat_lt hn hb hy (dot_le hbytes hx) hR] at hsum
    refine ⟨⟨b, weights⟩, ⟨hb, hlen, hbytes⟩, rfl, acc.val, ⟨hy, ?_, ?_⟩, hval.symm⟩
    · show qScale.toNat * acc.val ≤ qScale.toNat * b + dot weights xs
      omega
    · show qScale.toNat * b + dot weights xs ≤ qScale.toNat * acc.val + xs.length * maxRem qScale.toNat
      omega
  · rintro ⟨⟨b, weights⟩, ⟨hb, hlen, hbytes⟩, rfl, y, ⟨hy, hlow, hhigh⟩, rfl⟩
    have hrange : ((y : Fr)).val < 2 ^ 8 := by
      rw [ZMod.val_natCast, Nat.mod_eq_of_lt (lt_trans hy (lt_trans (by norm_num) two_pow_lt_frModulus))]
      exact hy
    -- the total remainder is what the admitted value leaves
    obtain ⟨R, hR⟩ := Nat.exists_eq_add_of_le hlow
    have hR' : R ≤ xs.length * maxRem qScale.toNat := by omega
    have hsum := (neuron_eq_iff qScale.toNat_lt hn hb hy (dot_le hbytes hx) hR').mpr hR.symm
    refine ⟨b, hb, _, rfl, yields_bind.mpr ⟨(y : Fr), rest, ?_, ?_⟩⟩
    · exact (yields_accumulate hq).mpr ⟨weights, hlen, hbytes, rfl, R, hR', hsum⟩
    · exact yields_bind.mpr ⟨(), rest, yields_enforceRange.mpr ⟨hrange, rfl⟩, rfl, rfl⟩

/-! ## Layers -/

/-- **What the circuit admits of a layer**, neuron by neuron. -/
theorem yields_layer (hq : 0 < qScale.toNat) {xs : List ℕ} (hx : ∀ v ∈ xs, v < 256) (hn : xs.length < 2 ^ 64)
    {biases : List UInt64} {rows : List (List UInt64)} {outs : List Fr} :
    (layer qScale (casts xs) biases rows).Yields x outs rest ↔
      ∃ ps : List Params, ps.length = biases.length ∧ (∀ p ∈ ps, p.Fits xs.length) ∧ x = encodeLayer ps ++ rest ∧
        ∃ ys : List ℕ, List.Forall₂ (Params.Admits qScale.toNat xs) ps ys ∧ outs = casts ys := by
  induction biases generalizing rows x outs with
  | nil =>
      constructor
      · rintro ⟨rfl, rfl⟩
        exact ⟨[], rfl, fun _ h => (by cases h), rfl, [], .nil, rfl⟩
      · rintro ⟨ps, hlen, -, rfl, ys, hys, rfl⟩
        rw [List.length_eq_zero_iff.mp hlen] at hys ⊢
        cases hys
        exact ⟨rfl, rfl⟩
  | cons bias biases ih =>
      unfold layer
      constructor
      · intro h
        obtain ⟨out, x', hneuron, h⟩ := yields_bind.mp h
        obtain ⟨vars, x'', hlayer, hpure⟩ := yields_bind.mp h
        obtain ⟨rfl, rfl⟩ := yields_pure.mp hpure
        obtain ⟨p, hfits, rfl, y, hy, rfl⟩ := (yields_neuron hq hx hn).mp hneuron
        obtain ⟨ps, hlen, hall, rfl, ys, hys, rfl⟩ := ih.mp hlayer
        refine ⟨p :: ps, congrArg (· + 1) hlen, List.forall_mem_cons.mpr ⟨hfits, hall⟩, ?_, y :: ys, .cons hy hys, rfl⟩
        exact (List.append_assoc _ _ _).symm
      · rintro ⟨ps, hlen, hall, rfl, ys, hys, rfl⟩
        obtain ⟨p, ps, rfl⟩ := List.exists_cons_of_length_eq_add_one hlen
        obtain ⟨hfits, hall⟩ := List.forall_mem_cons.mp hall
        obtain ⟨y, ys, hy, hys', rfl⟩ := List.forall₂_cons_left_iff.mp hys
        rw [encodeLayer, List.append_assoc]
        refine yields_bind.mpr ⟨(y : Fr), _, (yields_neuron hq hx hn).mpr ⟨p, hfits, rfl, y, hy, rfl⟩, ?_⟩
        refine yields_bind.mpr ⟨casts ys, rest, ?_, rfl, rfl⟩
        exact ih.mpr ⟨ps, Nat.succ_inj.mp hlen, hall, rfl, ys, hys', rfl⟩

/-- Of the inputs it admits all bytes. -/
theorem yields_allocInputs {values : List UInt64} {vars : List Fr} :
    (allocInputs values).Yields x vars rest ↔
      (∃ xs : List ℕ, xs.length = values.length ∧ (∀ v ∈ xs, v < 256) ∧ vars = casts xs) ∧ x = rest := by
  induction values generalizing x vars rest with
  | nil =>
      constructor
      · rintro ⟨rfl, rfl⟩
        exact ⟨⟨[], rfl, fun _ h => (by cases h), rfl⟩, rfl⟩
      · rintro ⟨⟨xs, hlen, -, rfl⟩, rfl⟩
        rw [List.length_eq_zero_iff.mp hlen]
        exact ⟨rfl, rfl⟩
  | cons value values ih =>
      unfold allocInputs
      rw [yields_newWitness]
      constructor
      · rintro ⟨v, h⟩
        obtain ⟨_, x', hrange, h⟩ := yields_bind.mp h
        obtain ⟨vars', x'', halloc, hpure⟩ := yields_bind.mp h
        obtain ⟨hv, rfl⟩ := yields_enforceRange.mp hrange
        obtain ⟨⟨xs, hlen, hall, rfl⟩, rfl⟩ := ih.mp halloc
        obtain ⟨rfl, rfl⟩ := yields_pure.mp hpure
        refine ⟨⟨v.val :: xs, congrArg (· + 1) hlen, List.forall_mem_cons.mpr ⟨hv, hall⟩, ?_⟩, rfl⟩
        show _ = ((v.val : ℕ) : Fr) :: casts xs
        rw [ZMod.natCast_zmod_val]
      · rintro ⟨⟨xs, hlen, hall, rfl⟩, rfl⟩
        obtain ⟨v, xs, rfl⟩ := List.exists_cons_of_length_eq_add_one hlen
        obtain ⟨hv, hall⟩ := List.forall_mem_cons.mp hall
        refine ⟨(v : Fr), yields_bind.mpr ⟨(), x, yields_enforceRange.mpr ⟨?_, rfl⟩, ?_⟩⟩
        · rw [ZMod.val_natCast, Nat.mod_eq_of_lt (lt_trans hv (lt_trans (by norm_num) two_pow_lt_frModulus))]
          exact hv
        · exact yields_bind.mpr ⟨casts xs, x, ih.mpr ⟨⟨xs, Nat.succ_inj.mp hlen, hall, rfl⟩, rfl⟩, rfl, rfl⟩

end Rules

/-! ## The prover of the program -/

/-- The remainders of the products are all bytes, which they are for every scale up to 256. -/
def RemsFit (q : ℕ) : List ℕ → List ℕ → Prop
  | w :: ws, x :: xs => w * x % q < 256 ∧ RemsFit q ws xs
  | [], _ => True
  | _ :: _, [] => True

/-- The prover's numbers do for a neuron: bytes everywhere, its sum among them. -/
def Params.Computes (q : ℕ) (xs : List ℕ) (p : Params) : Prop :=
  p.Fits xs.length ∧ RemsFit q p.weights xs ∧ p.fire q xs < 256

/-- The numbers of a neuron for `n` inputs. -/
def paramsOf (n : ℕ) (bias : UInt64) (weights : List UInt64) : Params :=
  ⟨bias.toNat, (weights.take n).map UInt64.toNat⟩

/-- The numbers of the neurons of a layer. -/
def layerParams (n : ℕ) : List UInt64 → List (List UInt64) → List Params
  | [], _ => []
  | bias :: biases, rows => paramsOf n bias (rows.head?.getD []) :: layerParams n biases rows.tail

/-- A number of 64 bits is below the modulus. -/
theorem val_u64 (v : UInt64) : ((v.toNat : ℕ) : Fr).val = v.toNat := by
  rw [ZMod.val_natCast, Nat.mod_eq_of_lt (lt_trans v.toNat_lt (lt_trans (by norm_num) two_pow_lt_frModulus))]

section Prover

variable [Gadgets Fr] {qScale : UInt64} {x : List Fr}

/-- A byte of the prover. -/
theorem proves_byte {v : UInt64} {β : Type} {m : Synthesis Fr β} {c : β} :
    (enforceU8Range (v.toNat : Fr) >>= fun _ => m).Proves c x ↔ v.toNat < 256 ∧ m.Proves c x := by
  rw [proves_bind]
  constructor
  · rintro ⟨_, y, z, hrange, hm, rfl⟩
    obtain ⟨hv, rfl⟩ := proves_enforceRange.mp hrange
    rw [val_u64] at hv
    exact ⟨hv, hm⟩
  · rintro ⟨hv, hm⟩
    exact ⟨(), [], x, proves_enforceRange.mpr ⟨by rw [val_u64]; exact hv, rfl⟩, hm, rfl⟩

/-- The loop of a neuron goes through exactly if its remainders fit. -/
theorem proves_accumulate (hq : 0 < qScale.toNat) {xs : List ℕ} (hx : ∀ v ∈ xs, v < 256) {ws : List UInt64} {acc : ℕ}
    {out : Fr} :
    (accumulate qScale (casts xs) ws (acc : Fr)).Proves out x ↔
      xs.length ≤ ws.length ∧ (∀ w ∈ (ws.take xs.length).map UInt64.toNat, w < 256) ∧
        RemsFit qScale.toNat ((ws.take xs.length).map UInt64.toNat) xs ∧
        out = ((acc + macSum qScale.toNat ((ws.take xs.length).map UInt64.toNat) xs : ℕ) : Fr) ∧
        x = casts ((ws.take xs.length).map UInt64.toNat) := by
  induction xs generalizing ws acc x with
  | nil =>
      refine proves_pure.trans ?_
      show _ ↔ 0 ≤ ws.length ∧ (∀ w ∈ (ws.take 0).map UInt64.toNat, w < 256) ∧ RemsFit _ ((ws.take 0).map _) [] ∧ _
      rw [List.take_zero]
      constructor
      · rintro ⟨rfl, rfl⟩
        exact ⟨Nat.zero_le _, fun _ h => (by cases h), trivial, rfl, rfl⟩
      · rintro ⟨-, -, -, rfl, rfl⟩
        exact ⟨rfl, rfl⟩
  | cons v xs ih =>
      obtain ⟨hv, hx⟩ := List.forall_mem_cons.mp hx
      cases ws with
      | nil =>
          constructor
          · exact fun h => (by cases h)
          · rintro ⟨h, -⟩
            exact absurd h (Nat.not_succ_le_zero _)
      | cons w ws =>
          show (newInput (some (w.toNat : Fr)) >>= fun u => enforceU8Range u >>= fun _ => mulAndScale u (v : Fr) qScale
            >>= fun m => accumulate qScale (casts xs) ws ((acc : Fr) + m)).Proves out x ↔ _
          rw [proves_newInput]
          simp only [proves_byte]
          have hmac : ∀ t : List ℕ, acc + macSum qScale.toNat (w.toNat :: t) (v :: xs) =
              acc + w.toNat * v / qScale.toNat + macSum qScale.toNat t xs := fun t => (Nat.add_assoc _ _ _).symm
          constructor
          · rintro ⟨x', rfl, hw, h⟩
            obtain ⟨quotient, y, z, hmul, hloop, rfl⟩ := proves_bind.mp h
            obtain ⟨hrem, rfl, rfl⟩ := (proves_mulAndScale hq hw hv).mp hmul
            rw [← Nat.cast_add] at hloop
            obtain ⟨hlen, hbytes, hrems, rfl, rfl⟩ := (ih hx).mp hloop
            refine ⟨Nat.succ_le_succ hlen, List.forall_mem_cons.mpr ⟨hw, hbytes⟩, ⟨hrem, hrems⟩, ?_, rfl⟩
            rw [List.length_cons, List.take_succ_cons, List.map_cons, hmac]
          · rintro ⟨hlen, hbytes, ⟨hrem, hrems⟩, hout, rfl⟩
            obtain ⟨hw, hbytes⟩ := List.forall_mem_cons.mp hbytes
            rw [List.length_cons, List.take_succ_cons, List.map_cons, hmac] at hout
            refine ⟨casts ((ws.take xs.length).map UInt64.toNat), rfl, hw, ?_⟩
            refine proves_bind.mpr ⟨_, [], _, (proves_mulAndScale hq hw hv).mpr ⟨hrem, rfl, rfl⟩, ?_, rfl⟩
            rw [← Nat.cast_add]
            exact (ih hx).mpr ⟨Nat.le_of_succ_le_succ hlen, hbytes, hrems, hout, rfl⟩

/-- **When the program proves a neuron**: its numbers are bytes, and it computes one. -/
theorem proves_neuron (hq : 0 < qScale.toNat) {xs : List ℕ} (hx : ∀ v ∈ xs, v < 256) (hn : xs.length < 2 ^ 64)
    {bias : UInt64} {ws : List UInt64} {out : Fr} :
    (neuron qScale (casts xs) bias ws).Proves out x ↔
      (paramsOf xs.length bias ws).Computes qScale.toNat xs ∧
        out = (((paramsOf xs.length bias ws).fire qScale.toNat xs : ℕ) : Fr) ∧ x = (paramsOf xs.length bias ws).encode := by
  have hlen : xs.length ≤ ws.length ↔ ((ws.take xs.length).map UInt64.toNat).length = xs.length := by
    rw [List.length_map, List.length_take]
    omega
  unfold neuron
  rw [proves_newInput]
  simp only [proves_byte]
  constructor
  · rintro ⟨x', rfl, hb, h⟩
    obtain ⟨acc, y, z, hloop, hrest, hx'⟩ := proves_bind.mp h
    obtain ⟨_, y', z', hrange, hpure, hz⟩ := proves_bind.mp hrest
    obtain ⟨hw, hbytes, hrems, hacc, hy⟩ := (proves_accumulate hq hx).mp hloop
    obtain ⟨hbyte, hy'⟩ := proves_enforceRange.mp hrange
    obtain ⟨hout, hz'⟩ := proves_pure.mp hpure
    -- the sum is a byte as a field element, and as a number it does not reach the modulus
    have hdot := dot_le hbytes hx
    have hmac := (macSum_bounds hq ((ws.take xs.length).map UInt64.toNat) xs).1
    have hle := Nat.le_mul_of_pos_left (macSum qScale.toNat ((ws.take xs.length).map UInt64.toNat) xs) hq
    have hmodulus := two_pow_lt_frModulus
    rw [hacc, ZMod.val_natCast, Nat.mod_eq_of_lt (by omega)] at hbyte
    refine ⟨⟨⟨hb, hlen.mp hw, hbytes⟩, hrems, hbyte⟩, hout ▸ hacc, ?_⟩
    rw [hx', hz, hy, hy', hz']
    exact congrArg _ (List.append_nil _)
  · rintro ⟨⟨⟨hb, hw, hbytes⟩, hrems, hfire⟩, rfl, rfl⟩
    refine ⟨_, rfl, hb, proves_bind.mpr ⟨_, _, [], (proves_accumulate hq hx).mpr ⟨hlen.mpr hw, hbytes, hrems, rfl, rfl⟩,
      ?_, (List.append_nil _).symm⟩⟩
    refine proves_bind.mpr ⟨(), [], [], proves_enforceRange.mpr ⟨?_, rfl⟩, proves_pure.mpr ⟨rfl, rfl⟩, rfl⟩
    rw [ZMod.val_natCast]
    exact lt_of_le_of_lt (Nat.mod_le _ _) hfire

/-- When it proves a layer: every neuron of it. -/
theorem proves_layer (hq : 0 < qScale.toNat) {xs : List ℕ} (hx : ∀ v ∈ xs, v < 256) (hn : xs.length < 2 ^ 64)
    {biases : List UInt64} {rows : List (List UInt64)} {outs : List Fr} :
    (layer qScale (casts xs) biases rows).Proves outs x ↔
      (∀ p ∈ layerParams xs.length biases rows, p.Computes qScale.toNat xs) ∧
        outs = casts ((layerParams xs.length biases rows).map fun p => p.fire qScale.toNat xs) ∧
        x = encodeLayer (layerParams xs.length biases rows) := by
  induction biases generalizing rows x outs with
  | nil =>
      refine proves_pure.trans ?_
      constructor
      · rintro ⟨rfl, rfl⟩
        exact ⟨fun _ h => (by cases h), rfl, rfl⟩
      · rintro ⟨-, rfl, rfl⟩
        exact ⟨rfl, rfl⟩
  | cons bias biases ih =>
      unfold layer layerParams
      constructor
      · intro h
        obtain ⟨out, y, z, hneuron, hrest, hx'⟩ := proves_bind.mp h
        obtain ⟨vars, y', z', hlayer, hpure, hz⟩ := proves_bind.mp hrest
        obtain ⟨hcomputes, hout, hy⟩ := (proves_neuron hq hx hn).mp hneuron
        obtain ⟨hall, hvars, hy'⟩ := ih.mp hlayer
        obtain ⟨heq, hz'⟩ := proves_pure.mp hpure
        refine ⟨List.forall_mem_cons.mpr ⟨hcomputes, hall⟩, ?_, ?_⟩
        · rw [← heq, hout, hvars]
          rfl
        · rw [hx', hz, hy, hy', hz', List.append_nil]
          rfl
      · rintro ⟨hall, rfl, rfl⟩
        obtain ⟨hcomputes, hall⟩ := List.forall_mem_cons.mp hall
        refine proves_bind.mpr ⟨_, _, _, (proves_neuron hq hx hn).mpr ⟨hcomputes, rfl, rfl⟩, ?_, rfl⟩
        refine proves_bind.mpr ⟨_, _, [], ih.mpr ⟨hall, rfl, rfl⟩, proves_pure.mpr ⟨rfl, rfl⟩, ?_⟩
        exact (List.append_nil _).symm

/-- When it proves its inputs: they are bytes. -/
theorem proves_allocInputs {values : List UInt64} {vars : List Fr} :
    (allocInputs values).Proves vars x ↔
      (∀ v ∈ values.map UInt64.toNat, v < 256) ∧ vars = casts (values.map UInt64.toNat) ∧ x = [] := by
  induction values generalizing x vars with
  | nil =>
      refine proves_pure.trans ?_
      constructor
      · rintro ⟨rfl, rfl⟩
        exact ⟨fun _ h => (by cases h), rfl, rfl⟩
      · rintro ⟨-, rfl, rfl⟩
        exact ⟨rfl, rfl⟩
  | cons value values ih =>
      unfold allocInputs
      rw [proves_newWitness, proves_byte]
      constructor
      · rintro ⟨hv, h⟩
        obtain ⟨vars', y, z, halloc, hpure, hx'⟩ := proves_bind.mp h
        obtain ⟨hall, hvars, hy⟩ := ih.mp halloc
        obtain ⟨heq, hz⟩ := proves_pure.mp hpure
        refine ⟨List.forall_mem_cons.mpr ⟨hv, hall⟩, ?_, by rw [hx', hy, hz]; rfl⟩
        rw [← heq, hvars]
        rfl
      · rintro ⟨hall, rfl, rfl⟩
        obtain ⟨hv, hall⟩ := List.forall_mem_cons.mp hall
        exact ⟨hv, proves_bind.mpr ⟨_, [], [], ih.mpr ⟨hall, rfl, rfl⟩, proves_pure.mpr ⟨rfl, rfl⟩, rfl⟩⟩

end Prover

/-! ## The network -/

namespace MLPCircuit

/-- The neurons of the prover's network. -/
def hiddenParams (c : MLPCircuit) : List Params := layerParams c.inputs.length c.bHidden c.wHidden

/-- And those of its output. -/
def outParams (c : MLPCircuit) : List Params := layerParams c.bHidden.length c.bOut c.wOut

/-- The hidden values that the network computes. -/
def hiddenValues (c : MLPCircuit) : List ℕ :=
  c.hiddenParams.map fun p => p.fire c.qScale.toNat (c.inputs.map UInt64.toNat)

/-- The inferences that the circuit admits for the public inputs `x`: some private bytes, and for each layer values that are
admitted of its neurons. -/
def Admitted (c : MLPCircuit) (x : List Fr) : Prop :=
  ∃ (hidden out : List Params) (xs hs ys : List ℕ),
    (hidden.length = c.bHidden.length ∧ ∀ p ∈ hidden, p.Fits c.inputs.length) ∧
    (out.length = c.bOut.length ∧ ∀ p ∈ out, p.Fits c.bHidden.length) ∧
    x = encodeLayer hidden ++ encodeLayer out ∧
    (xs.length = c.inputs.length ∧ ∀ v ∈ xs, v < 256) ∧
    List.Forall₂ (Params.Admits c.qScale.toNat xs) hidden hs ∧
    List.Forall₂ (Params.Admits c.qScale.toNat hs) out ys

/-- As many neurons as biases. -/
theorem length_layerParams (n : ℕ) (biases : List UInt64) (rows : List (List UInt64)) :
    (layerParams n biases rows).length = biases.length := by
  induction biases generalizing rows with
  | nil => rfl
  | cons bias biases ih => exact congrArg (· + 1) (ih rows.tail)

/-- What is admitted of a neuron is a byte. -/
theorem admits_lt {q : ℕ} {xs ys : List ℕ} {ps : List Params} (h : List.Forall₂ (Params.Admits q xs) ps ys) :
    ∀ y ∈ ys, y < 256 := by
  induction h with
  | nil => exact fun _ h => (by cases h)
  | cons hy _ ih => exact List.forall_mem_cons.mpr ⟨hy.1, ih⟩

section Circuit

variable [Gadgets Fr]

/-- **What the circuit accepts** is what is admitted. -/
theorem accepts_iff_admitted (c : MLPCircuit) (hq : 0 < c.qScale.toNat) (hi : c.inputs.length < 2 ^ 64)
    (hh : c.bHidden.length < 2 ^ 64) (x : List Fr) : c.generateConstraints.Accepts x ↔ c.Admitted x := by
  rw [accepts_iff]
  unfold generateConstraints Admitted
  constructor
  · rintro ⟨_, h⟩
    obtain ⟨vars, x', halloc, h1⟩ := yields_bind.mp h
    obtain ⟨⟨xs, hxs, hbytes, rfl⟩, rfl⟩ := yields_allocInputs.mp halloc
    obtain ⟨hvars, x'', hhidden, h2⟩ := yields_bind.mp h1
    rw [← hxs] at hi
    obtain ⟨hidden, hlen, hfits, rfl, hs, hhs, rfl⟩ := (yields_layer hq hbytes hi).mp hhidden
    obtain ⟨ovars, x''', hout, hpure⟩ := yields_bind.mp h2
    have hhs_len : hs.length = c.bHidden.length := hhs.length_eq.symm.trans hlen
    rw [← hhs_len] at hh
    obtain ⟨out, hlen', hfits', rfl, ys, hys, -⟩ := (yields_layer hq (admits_lt hhs) hh).mp hout
    obtain ⟨-, rfl⟩ := yields_pure.mp hpure
    rw [hxs] at hfits
    rw [hhs_len] at hfits'
    exact ⟨hidden, out, xs, hs, ys, ⟨hlen, hfits⟩, ⟨hlen', hfits'⟩, by rw [List.append_nil], ⟨hxs, hbytes⟩, hhs, hys⟩
  · rintro ⟨hidden, out, xs, hs, ys, ⟨hlen, hfits⟩, ⟨hlen', hfits'⟩, rfl, ⟨hxs, hbytes⟩, hhs, hys⟩
    have hhs_len : hs.length = c.bHidden.length := hhs.length_eq.symm.trans hlen
    rw [← hxs] at hi hfits
    rw [← hhs_len] at hh hfits'
    refine ⟨(), yields_bind.mpr ⟨casts xs, _, yields_allocInputs.mpr ⟨⟨xs, hxs, hbytes, rfl⟩, rfl⟩, ?_⟩⟩
    refine yields_bind.mpr ⟨casts hs, encodeLayer out, ?_, yields_bind.mpr ⟨casts ys, [], ?_, rfl, rfl⟩⟩
    · exact (yields_layer hq hbytes hi).mpr ⟨hidden, hlen, hfits, rfl, hs, hhs, rfl⟩
    · exact (yields_layer hq (admits_lt hhs) hh).mpr ⟨out, hlen', hfits', (List.append_nil _).symm, ys, hys, rfl⟩

/-- **When the program has a proof**: every number it meets is a byte. -/
theorem proves_iff (c : MLPCircuit) (hq : 0 < c.qScale.toNat) (hi : c.inputs.length < 2 ^ 64)
    (hh : c.bHidden.length < 2 ^ 64) (x : List Fr) :
    c.generateConstraints.Proves () x ↔
      (∀ v ∈ c.inputs.map UInt64.toNat, v < 256) ∧
      (∀ p ∈ c.hiddenParams, p.Computes c.qScale.toNat (c.inputs.map UInt64.toNat)) ∧
      (∀ p ∈ c.outParams, p.Computes c.qScale.toNat c.hiddenValues) ∧
      x = encodeLayer c.hiddenParams ++ encodeLayer c.outParams := by
  have hlen : (c.inputs.map UInt64.toNat).length = c.inputs.length := List.length_map _
  have hhlen : c.hiddenValues.length = c.bHidden.length := (List.length_map _).trans (length_layerParams _ _ _)
  have hparams : layerParams (c.inputs.map UInt64.toNat).length c.bHidden c.wHidden = c.hiddenParams := by
    rw [hlen]
    rfl
  have hparams' : layerParams c.hiddenValues.length c.bOut c.wOut = c.outParams := by
    rw [hhlen]
    rfl
  have hvalues : (∀ p ∈ c.hiddenParams, p.Computes c.qScale.toNat (c.inputs.map UInt64.toNat)) →
      ∀ v ∈ c.hiddenValues, v < 256 := by
    intro hall v hv
    obtain ⟨p, hp, rfl⟩ := List.mem_map.mp hv
    exact (hall p hp).2.2
  rw [← hlen] at hi
  rw [← hhlen] at hh
  unfold generateConstraints
  constructor
  · intro h
    obtain ⟨vars, y, z, halloc, h1, hx⟩ := proves_bind.mp h
    obtain ⟨hbytes, hvars, hy⟩ := proves_allocInputs.mp halloc
    rw [hvars] at h1
    obtain ⟨hv, y', z', hhidden, h2, hz⟩ := proves_bind.mp h1
    obtain ⟨hall, hvs, hy'⟩ := (proves_layer hq hbytes hi).mp hhidden
    rw [hparams] at hall hvs hy'
    rw [hvs] at h2
    obtain ⟨ov, y'', z'', hout, hpure, hz'⟩ := proves_bind.mp h2
    obtain ⟨hall', -, hy''⟩ := (proves_layer hq (hvalues hall) hh).mp hout
    rw [hparams'] at hall' hy''
    refine ⟨hbytes, hall, hall', ?_⟩
    rw [hx, hy, hz, hy', hz', hy'', (proves_pure.mp hpure).2, List.append_nil]
    rfl
  · rintro ⟨hbytes, hall, hall', rfl⟩
    refine proves_bind.mpr ⟨_, [], _, proves_allocInputs.mpr ⟨hbytes, rfl, rfl⟩, ?_, rfl⟩
    refine proves_bind.mpr ⟨casts c.hiddenValues, encodeLayer c.hiddenParams, encodeLayer c.outParams, ?_, ?_, rfl⟩
    · refine (proves_layer hq hbytes hi).mpr ?_
      rw [hparams]
      exact ⟨hall, rfl, rfl⟩
    · have hout : (layer c.qScale (casts c.hiddenValues) c.bOut c.wOut).Proves
          (casts (c.outParams.map fun p => p.fire c.qScale.toNat c.hiddenValues)) (encodeLayer c.outParams) := by
        refine (proves_layer hq (hvalues hall) hh).mpr ?_
        rw [hparams']
        exact ⟨hall', rfl, rfl⟩
      exact proves_bind.mpr ⟨_, _, [], hout, proves_pure.mpr ⟨rfl, rfl⟩, (List.append_nil _).symm⟩

/-- **The circuit of a quantized network.** It accepts exactly the public inputs with an inference admitted for them; a
prover that follows the program has a proof exactly when all its numbers, the computed ones among them, are bytes. A value
that is admitted of a neuron is nearer to the computed one than the number of its inputs. -/
theorem mlp_circuit (c : MLPCircuit) (hq : 0 < c.qScale.toNat) (hi : c.inputs.length < 2 ^ 64)
    (hh : c.bHidden.length < 2 ^ 64) :
    (∀ x, c.generateConstraints.Accepts x ↔ c.Admitted x) ∧
    (∀ x, c.generateConstraints.Proves () x ↔
      (∀ v ∈ c.inputs.map UInt64.toNat, v < 256) ∧
      (∀ p ∈ c.hiddenParams, p.Computes c.qScale.toNat (c.inputs.map UInt64.toNat)) ∧
      (∀ p ∈ c.outParams, p.Computes c.qScale.toNat c.hiddenValues) ∧
      x = encodeLayer c.hiddenParams ++ encodeLayer c.outParams) ∧
    (c.qScale.toNat ≤ 256 → ∀ (p : Params) (xs : List ℕ),
      (p.fire c.qScale.toNat xs < 256 → p.Admits c.qScale.toNat xs (p.fire c.qScale.toNat xs)) ∧
      ∀ y, p.Admits c.qScale.toNat xs y →
        y < p.fire c.qScale.toNat xs + max xs.length 1 ∧ p.fire c.qScale.toNat xs < y + max xs.length 1) :=
  ⟨c.accepts_iff_admitted hq hi hh, c.proves_iff hq hi hh, fun hq' _ _ => admits_fire hq hq'⟩

end Circuit

/-- A network of two inputs, two hidden neurons and one output, with a scale of 128. -/
def twoTwoOne : MLPCircuit where
  inputs := [64, 64]
  wHidden := [[64, 64], [128, 0]]
  bHidden := [0, 0]
  wOut := [[128, 128]]
  bOut := [0]
  qScale := 128

/-- The inference of the program on two bytes: its proof, and what else is admitted. -/
theorem mlp_circuit_two_two_one :
    twoTwoOne.generateConstraints.Proves () (encodeLayer [⟨0, [64, 64]⟩, ⟨0, [128, 0]⟩] ++ encodeLayer [⟨0, [128, 128]⟩]) := by
  refine ((mlp_circuit twoTwoOne (by decide) (by decide) (by decide)).2.1 _).mpr ⟨by decide, ?_, ?_, rfl⟩
  · show ∀ p ∈ [(⟨0, [64, 64]⟩ : Params), ⟨0, [128, 0]⟩], p.Computes 128 [64, 64]
    refine List.forall_mem_cons.mpr ⟨?_, List.forall_mem_singleton.mpr ?_⟩
    · exact ⟨⟨by decide, rfl, by decide⟩, ⟨by decide, by decide, trivial⟩, by decide⟩
    · exact ⟨⟨by decide, rfl, by decide⟩, ⟨by decide, by decide, trivial⟩, by decide⟩
  · show ∀ p ∈ [(⟨0, [128, 128]⟩ : Params)], p.Computes 128 [64, 64]
    exact List.forall_mem_singleton.mpr
      ⟨⟨by decide, rfl, by decide⟩, ⟨by decide, by decide, trivial⟩, by decide⟩

/-- The first hidden neuron computes 64 and may be given as 63: its products leave no remainder, but a remainder is taken. -/
example : (⟨0, [64, 64]⟩ : Params).Admits 128 [64, 64] 63 :=
  ⟨by decide, by decide, by decide⟩

end MLPCircuit

end WarmLogic.Zk
