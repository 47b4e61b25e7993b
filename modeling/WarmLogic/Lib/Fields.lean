/-
# WarmLogic.Lib.Fields — byte strings that are concatenated fields of fixed width.

A field of fixed width can be cut off at either end, so a concatenation of them determines each. An optional field
that is left out when absent, without a mark, can still be read back where the lengths tell: two of different
widths in a row have four different lengths together.
-/
import Mathlib.Data.List.Basic
import Mathlib.Data.Option.Basic

namespace WarmLogic.Lib

/-- Every value is encoded in `width` symbols, and no two values alike. -/
structure FixedWidth {α β : Type} (enc : α → List β) (width : Nat) : Prop where
  length : ∀ x, (enc x).length = width
  injective : Function.Injective enc

/-- The encoding of a value that may be absent, which then takes no room. -/
def optField {α β : Type} (enc : α → List β) (x : Option α) : List β := (x.map enc).getD []

namespace FixedWidth

variable {α α' β : Type} {enc : α → List β} {enc' : α' → List β} {width width' : Nat}

/-- A field in front determines itself and what follows. -/
theorem append_iff (h : FixedWidth enc width) {x y : α} {s t : List β} :
    enc x ++ s = enc y ++ t ↔ x = y ∧ s = t := by
  constructor
  · intro heq
    obtain ⟨hfield, hrest⟩ := List.append_inj heq (by rw [h.length, h.length])
    exact ⟨h.injective hfield, hrest⟩
  · rintro ⟨rfl, rfl⟩
    rfl

/-- So does one at the end. -/
theorem append_last_iff (h : FixedWidth enc width) {x y : α} {s t : List β} :
    s ++ enc x = t ++ enc y ↔ s = t ∧ x = y := by
  constructor
  · intro heq
    obtain ⟨hrest, hfield⟩ := List.append_inj' heq (by rw [h.length, h.length])
    exact ⟨hrest, h.injective hfield⟩
  · rintro ⟨rfl, rfl⟩
    rfl

theorem length_optField (h : FixedWidth enc width) (x : Option α) :
    (optField enc x).length = if x.isSome then width else 0 := by
  cases x with
  | none => rfl
  | some x => exact h.length x

/-- An optional field that takes room when it is there is read back from its length and its content. -/
theorem optField_injective (h : FixedWidth enc width) (hpos : 0 < width) : Function.Injective (optField enc) := by
  intro x y heq
  have hlen := congrArg List.length heq
  rw [h.length_optField, h.length_optField] at hlen
  cases x with
  | none =>
      cases y with
      | none => rfl
      | some y => exact absurd hlen (Nat.ne_of_lt hpos)
  | some x =>
      cases y with
      | none => exact absurd hlen (Nat.ne_of_gt hpos)
      | some y => exact congrArg some (h.injective heq)

/-- **Two optional fields in a row**, of different widths: which of them are there follows from the length. -/
theorem optField_append_iff (h : FixedWidth enc width) (h' : FixedWidth enc' width') (hpos : 0 < width)
    (hpos' : 0 < width') (hne : width ≠ width') {x y : Option α} {x' y' : Option α'} :
    optField enc x ++ optField enc' x' = optField enc y ++ optField enc' y' ↔ x = y ∧ x' = y' := by
  constructor
  · intro heq
    have hlen := congrArg List.length heq
    rw [List.length_append, List.length_append, h.length_optField, h.length_optField, h'.length_optField,
      h'.length_optField] at hlen
    have hfront : (optField enc x).length = (optField enc y).length := by
      rw [h.length_optField, h.length_optField]
      split_ifs at hlen ⊢ <;> omega
    obtain ⟨hx, hx'⟩ := List.append_inj heq hfront
    exact ⟨h.optField_injective hpos hx, h'.optField_injective hpos' hx'⟩
  · rintro ⟨rfl, rfl⟩
    rfl

end FixedWidth

end WarmLogic.Lib
