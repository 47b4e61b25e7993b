/-
# WarmLogic.Zk.Types — the scalar field of the proof system and the public inputs of governance proofs.

`Fr` is the scalar field of BLS12-381; its modulus is certified prime, so that it is a field here too. A hash of 32 bytes
is two of its elements, each of 16 bytes read in little endian order, and comes back from them (`splitHash_inj`).
-/
import WarmLogic.Lib.PrimeField
import WarmLogic.Lib.Bytes
import Mathlib.Tactic.NormNum.Prime

namespace WarmLogic.Zk

open WarmLogic.Lib

/-! ## The field -/

/-- The order of the scalar field of BLS12-381. -/
@[irreducible] def frModulus : ℕ := 0x73eda753299d7d483339d80809a1d80553bda402fffe5bfeffffffff00000001

theorem frModulus_pred : frModulus - 1 = 2 ^ 32 * 3 * 11 * 19 * 10177 * 125527 * 859267 * 906349 ^ 2 * 2508409 *
    2529403 * 52437899 * 254760293 ^ 2 := by
  unfold frModulus
  norm_num

/-- The prime factors of the order less one. -/
def frFactors : List ℕ :=
  [2, 3, 11, 19, 10177, 125527, 859267, 906349, 2508409, 2529403, 52437899, 254760293]

theorem mem_frFactors {q : ℕ} (hq : q.Prime) (hdvd : q ∣ frModulus - 1) : q ∈ frFactors := by
  have heq : ∀ {f n : ℕ}, f.Prime → q ∣ f ^ n → q = f := fun hf h =>
    (Nat.prime_dvd_prime_iff_eq hq hf).mp (hq.dvd_of_dvd_pow h)
  have heq' : ∀ {f : ℕ}, f.Prime → q ∣ f → q = f := fun hf h => (Nat.prime_dvd_prime_iff_eq hq hf).mp h
  rw [frModulus_pred] at hdvd
  simp only [hq.dvd_mul] at hdvd
  rcases hdvd with (((((((((((h | h) | h) | h) | h) | h) | h) | h) | h) | h) | h) | h)
  · rw [heq (by norm_num) h]; decide
  · rw [heq' (by norm_num) h]; decide
  · rw [heq' (by norm_num) h]; decide
  · rw [heq' (by norm_num) h]; decide
  · rw [heq' (by norm_num) h]; decide
  · rw [heq' (by norm_num) h]; decide
  · rw [heq' (by norm_num) h]; decide
  · rw [heq (by norm_num) h]; decide
  · rw [heq' (by norm_num) h]; decide
  · rw [heq' (by norm_num) h]; decide
  · rw [heq' (by norm_num) h]; decide
  · rw [heq (by norm_num) h]; decide

/-- The order is prime: 7 generates the multiplicative group. -/
theorem prime_frModulus : frModulus.Prime :=
  prime_of_certificate (k := 255) (g := 7) (by decide +kernel) (by decide +kernel) (fun _ => mem_frFactors)
    (by decide +kernel) (by decide +kernel)

instance : Fact frModulus.Prime := ⟨prime_frModulus⟩

theorem two_pow_lt_frModulus : 2 ^ 254 < frModulus := by decide +kernel

/-- A field element. -/
abbrev Fr := ZMod frModulus

/-- `from_le_bytes_mod_order`. -/
def fromLeBytes (bytes : List UInt8) : Fr := (ofLeBytes bytes : ℕ)

/-- Bytes of one length, of at most 31 bytes, are told apart as field elements. -/
theorem fromLeBytes_eq_iff {bs cs : List UInt8} (hlen : bs.length = cs.length) (hlt : bs.length ≤ 31) :
    fromLeBytes bs = fromLeBytes cs ↔ bs = cs := by
  have hbound : ∀ {ds : List UInt8}, ds.length ≤ 31 → ofLeBytes ds < frModulus := fun {ds} h =>
    calc ofLeBytes ds < 256 ^ ds.length := ofLeBytes_lt ds
      _ ≤ 256 ^ 31 := Nat.pow_le_pow_right (by omega) h
      _ = 2 ^ 248 := by norm_num
      _ ≤ 2 ^ 254 := by norm_num
      _ ≤ frModulus := two_pow_lt_frModulus.le
  unfold fromLeBytes
  rw [natCast_eq_iff (hbound hlt) (hbound (hlen ▸ hlt))]
  constructor
  · intro h
    rw [← leBytes_ofLeBytes bs, ← leBytes_ofLeBytes cs, h, hlen]
  · exact fun h => h ▸ rfl

theorem fromLeBytes_append_zeros (bs : List UInt8) (n : ℕ) :
    fromLeBytes (bs ++ List.replicate n 0) = fromLeBytes bs := by
  have hzeros : ofLeBytes (List.replicate n 0) = 0 := by
    induction n with
    | zero => rfl
    | succ n ih =>
        show 0 + 256 * ofLeBytes (List.replicate n 0) = 0
        rw [ih]
  have happend : ofLeBytes (bs ++ List.replicate n 0) = ofLeBytes bs := by
    induction bs with
    | nil => exact hzeros
    | cons b bs ih =>
        show b.toNat + 256 * ofLeBytes (bs ++ _) = _
        rw [ih]
        rfl
  rw [fromLeBytes, happend]
  rfl

/-! ## Hashes -/

abbrev Hash := Vector UInt8 32

/-- `split_hash_to_field_elements`, and `split_hash` and `split_to_field_elements` of the other modules. -/
def splitHash (hash : Hash) : Fr × Fr :=
  (fromLeBytes (hash.toList.take 16 ++ List.replicate 16 0), fromLeBytes (hash.toList.drop 16 ++ List.replicate 16 0))

theorem splitHash_fst (hash : Hash) : (splitHash hash).1 = fromLeBytes (hash.toList.take 16) :=
  fromLeBytes_append_zeros _ _

theorem splitHash_snd (hash : Hash) : (splitHash hash).2 = fromLeBytes (hash.toList.drop 16) :=
  fromLeBytes_append_zeros _ _

theorem splitHash_fst_eq_iff {a b : Hash} :
    (splitHash a).1 = (splitHash b).1 ↔ a.toList.take 16 = b.toList.take 16 := by
  have hlen : ∀ c : Hash, (c.toList.take 16).length = 16 := fun c => by
    rw [List.length_take, Vector.length_toList]
    rfl
  rw [splitHash_fst, splitHash_fst]
  exact fromLeBytes_eq_iff ((hlen a).trans (hlen b).symm) (by rw [hlen]; omega)

theorem splitHash_snd_eq_iff {a b : Hash} :
    (splitHash a).2 = (splitHash b).2 ↔ a.toList.drop 16 = b.toList.drop 16 := by
  have hlen : ∀ c : Hash, (c.toList.drop 16).length = 16 := fun c => by
    rw [List.length_drop, Vector.length_toList]
  rw [splitHash_snd, splitHash_snd]
  exact fromLeBytes_eq_iff ((hlen a).trans (hlen b).symm) (by rw [hlen]; omega)

/-- **A hash is known by its two field elements.** -/
theorem splitHash_inj {a b : Hash} : splitHash a = splitHash b ↔ a = b := by
  constructor
  · intro h
    have hlow := splitHash_fst_eq_iff.mp (congrArg Prod.fst h)
    have hhigh := splitHash_snd_eq_iff.mp (congrArg Prod.snd h)
    have hlist : a.toList = b.toList := by
      rw [← List.take_append_drop 16 a.toList, hlow, hhigh, List.take_append_drop]
    exact Vector.toList_inj.mp hlist
  · exact fun h => h ▸ rfl

/-- The low element is zero just for a hash whose first 16 bytes are. -/
theorem splitHash_fst_eq_zero {a : Hash} : (splitHash a).1 = 0 ↔ a.toList.take 16 = List.replicate 16 0 := by
  have hzero : (0 : Fr) = fromLeBytes (List.replicate 16 0) :=
    Nat.cast_zero.symm.trans (fromLeBytes_append_zeros [] 16).symm
  have hlen : (a.toList.take 16).length = 16 := by
    rw [List.length_take, Vector.length_toList]
    rfl
  rw [splitHash_fst, hzero]
  exact fromLeBytes_eq_iff (hlen.trans List.length_replicate.symm) (by rw [hlen]; omega)

theorem natCast_u64_eq_iff {a b : UInt64} : (a.toNat : Fr) = b.toNat ↔ a = b := by
  have hlt : ∀ c : UInt64, c.toNat < frModulus := fun c =>
    lt_trans (lt_of_lt_of_le c.toNat_lt (by norm_num)) two_pow_lt_frModulus
  rw [natCast_eq_iff (hlt a) (hlt b)]
  exact UInt64.toNat_inj

theorem natCast_u8_eq_iff {a b : UInt8} : (a.toNat : Fr) = b.toNat ↔ a = b := by
  have hlt : ∀ c : UInt8, c.toNat < frModulus := fun c =>
    lt_trans (lt_of_lt_of_le c.toNat_lt (by norm_num)) two_pow_lt_frModulus
  rw [natCast_eq_iff (hlt a) (hlt b)]
  exact UInt8.toNat_inj

/-! ## Errors -/

/-- The errors that the modelled functions return. -/
inductive ZKError where
  | constraintViolation (message : String)
  | stateTransitionViolation (message : String)
  | invalidWitness (message : String)
  deriving DecidableEq, Repr

/-! ## Public inputs of governance proofs -/

/-- Decision types, with their numbers. -/
inductive DecisionType where
  | policyCompliance
  | vetoAuthority
  | quorumReached
  | regulatoryCompliance
  | identityAttestation
  deriving DecidableEq, Repr

def DecisionType.toU64 : DecisionType → UInt64
  | policyCompliance => 0
  | vetoAuthority => 1
  | quorumReached => 2
  | regulatoryCompliance => 3
  | identityAttestation => 4

structure GovernancePublicInputs where
  decisionHash : Hash
  policyHash : Hash
  decisionType : DecisionType
  epoch : UInt64
  nodeId : Hash
  modelHash : Hash

/-- `to_field_elements`: ten elements. -/
def GovernancePublicInputs.toFieldElements (p : GovernancePublicInputs) : List Fr :=
  [(splitHash p.decisionHash).1, (splitHash p.decisionHash).2, (splitHash p.policyHash).1, (splitHash p.policyHash).2,
    (p.decisionType.toU64.toNat : Fr), (p.epoch.toNat : Fr), (splitHash p.nodeId).1, (splitHash p.nodeId).2,
    (splitHash p.modelHash).1, (splitHash p.modelHash).2]

end WarmLogic.Zk
