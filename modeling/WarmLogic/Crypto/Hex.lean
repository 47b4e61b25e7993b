/-
# WarmLogic.Crypto.Hex — `hex::decode` and `bytes.fromhex`, and that they undo `hex::encode`.

The decoders take digits in either case, so they are not injective; the encoder is.
-/
import WarmLogic.Federation.StateSync

namespace WarmLogic.Crypto

open WarmLogic.Federation (hexEncode)

/-- The value of a hex digit. -/
def hexDigit (c : Char) : Option Nat :=
  if '0' ≤ c ∧ c ≤ '9' then some (c.toNat - '0'.toNat)
  else if 'a' ≤ c ∧ c ≤ 'f' then some (c.toNat - 'a'.toNat + 10)
  else if 'A' ≤ c ∧ c ≤ 'F' then some (c.toNat - 'A'.toNat + 10)
  else none

def hexBytes : List Char → Option (List UInt8)
  | [] => some []
  | [_] => none
  | hi :: lo :: rest =>
      (hexDigit hi).bind fun h => (hexDigit lo).bind fun l =>
        (hexBytes rest).map fun bytes => UInt8.ofNat (16 * h + l) :: bytes

/-- `hex::decode`; `none` is its error. -/
def hexDecode (s : String) : Option (List UInt8) := hexBytes s.toList

theorem hexDigit_digitChar {n : Nat} (h : n < 16) : hexDigit (Nat.digitChar n) = some n := by
  have key : ∀ n < 16, hexDigit (Nat.digitChar n) = some n := by decide
  exact key n h

/-- **What was encoded decodes to itself.** -/
@[simp] theorem hexDecode_hexEncode (bytes : List UInt8) : hexDecode (hexEncode bytes) = some bytes := by
  unfold hexDecode hexEncode
  rw [String.toList_ofList]
  induction bytes with
  | nil => rfl
  | cons b bytes ih =>
      have hlt := b.toNat_lt
      have hback : UInt8.ofNat (16 * (b.toNat / 16) + b.toNat % 16) = b := by
        rw [Nat.div_add_mod, UInt8.ofNat_toNat]
      rw [List.flatMap_cons, List.cons_append, List.singleton_append, hexBytes, hexDigit_digitChar (by omega),
        hexDigit_digitChar (by omega), ih]
      simp only [Option.bind_some, Option.map_some, hback]

theorem hexEncode_injective : Function.Injective hexEncode := by
  intro b b' h
  have := congrArg hexDecode h
  rwa [hexDecode_hexEncode, hexDecode_hexEncode, Option.some.injEq] at this

theorem length_hexEncode (bytes : List UInt8) : (hexEncode bytes).length = 2 * bytes.length := by
  unfold hexEncode
  rw [String.length_ofList]
  induction bytes with
  | nil => rfl
  | cons b bytes ih =>
      rw [List.flatMap_cons, List.length_append, ih, List.length_cons]
      simp only [List.length_cons, List.length_nil]
      omega

/-! ## `bytes.fromhex` -/

/-- Whitespace that `bytes.fromhex` skips. -/
def isHexSpace (c : Char) : Bool := c == ' ' || decide (9 ≤ c.toNat ∧ c.toNat ≤ 13)

/-- `bytes.fromhex`; `none` is its `ValueError`. -/
def fromHex : List Char → Option (List UInt8)
  | [] => some []
  | [c] => if isHexSpace c then some [] else none
  | c :: d :: rest =>
      if isHexSpace c then fromHex (d :: rest)
      else (hexDigit c).bind fun high => (hexDigit d).bind fun low =>
        (fromHex rest).map fun bytes => UInt8.ofNat (16 * high + low) :: bytes

theorem isHexSpace_digitChar {n : Nat} (h : n < 16) : isHexSpace (Nat.digitChar n) = false := by
  have key : ∀ n < 16, isHexSpace (Nat.digitChar n) = false := by decide
  exact key n h

theorem fromHex_hexEncode (bytes : List UInt8) : fromHex (hexEncode bytes).toList = some bytes := by
  unfold hexEncode
  rw [String.toList_ofList]
  induction bytes with
  | nil => rfl
  | cons b bytes ih =>
      have hlt := b.toNat_lt
      have hback : UInt8.ofNat (16 * (b.toNat / 16) + b.toNat % 16) = b := by
        rw [Nat.div_add_mod, UInt8.ofNat_toNat]
      rw [List.flatMap_cons, List.cons_append, List.singleton_append, fromHex, isHexSpace_digitChar (by omega),
        if_neg Bool.false_ne_true, hexDigit_digitChar (by omega), hexDigit_digitChar (by omega), ih]
      simp only [Option.bind_some, Option.map_some, hback]

end WarmLogic.Crypto
