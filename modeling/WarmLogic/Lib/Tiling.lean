/-
# WarmLogic.Lib.Tiling — lists of ranges of natural numbers that follow one another without a gap.

A list tiles `[a, b)` when its first range begins at `a`, each next one begins behind the end of the one before, and the
last ends before `b`. Such ranges do not overlap, and each number is in one; a range may be replaced by ranges that tile it.
-/
import Mathlib.Data.List.Pairwise

namespace WarmLogic.Lib

variable {β : Type} {lo hi : β → Nat}

/-- `l` tiles `[a, b)` with the closed ranges `[lo x, hi x]`; a range may be empty. -/
def Tiles (lo hi : β → Nat) : Nat → List β → Nat → Prop
  | a, [], b => a = b
  | a, x :: l, b => lo x = a ∧ a ≤ hi x + 1 ∧ Tiles lo hi (hi x + 1) l b

namespace Tiles

variable {a b n : Nat} {l : List β} {x y : β}

theorem append {l' : List β} {c : Nat} (h : Tiles lo hi a l b) (h' : Tiles lo hi b l' c) : Tiles lo hi a (l ++ l') c := by
  induction l generalizing a with
  | nil =>
      obtain rfl : a = b := h
      exact h'
  | cons x l ih => exact ⟨h.1, h.2.1, ih h.2.2⟩

/-- Every range of a tiling lies in what it tiles. -/
theorem bounds (h : Tiles lo hi a l b) : a ≤ b ∧ ∀ x ∈ l, a ≤ lo x ∧ lo x ≤ hi x + 1 ∧ hi x < b := by
  induction l generalizing a with
  | nil => exact ⟨Nat.le_of_eq h, List.forall_mem_nil _⟩
  | cons x l ih =>
      obtain ⟨rfl, hx, hrest⟩ := h
      obtain ⟨hle, hall⟩ := ih hrest
      refine ⟨Nat.le_trans hx hle, List.forall_mem_cons.mpr ⟨⟨Nat.le_refl _, hx, hle⟩, fun y hy => ?_⟩⟩
      obtain ⟨hlo, hother⟩ := hall y hy
      exact ⟨Nat.le_trans hx hlo, hother⟩

/-- The ranges do not overlap. -/
theorem disjoint (h : Tiles lo hi a l b) : l.Pairwise fun x y => hi x < lo y := by
  induction l generalizing a with
  | nil => exact List.Pairwise.nil
  | cons x l ih =>
      obtain ⟨-, -, hrest⟩ := h
      exact List.pairwise_cons.mpr ⟨fun y hy => (hrest.bounds.2 y hy).1, ih hrest⟩

/-- A number is in one range only. -/
theorem eq_of_covers (h : Tiles lo hi a l b) (hx : x ∈ l) (hy : y ∈ l) (hxn : lo x ≤ n ∧ n ≤ hi x)
    (hyn : lo y ≤ n ∧ n ≤ hi y) : x = y := by
  by_contra hne
  have hapart : l.Pairwise fun x y => hi x < lo y ∨ hi y < lo x := h.disjoint.imp .inl
  have hsymm : Std.Symm fun x y => hi x < lo y ∨ hi y < lo x := ⟨fun _ _ => Or.symm⟩
  rcases hapart.forall hx hy hne with hlt | hlt <;> omega

/-- Every number of what is tiled is in a range. -/
theorem exists_covers (h : Tiles lo hi a l b) (ha : a ≤ n) (hb : n < b) : ∃ x ∈ l, lo x ≤ n ∧ n ≤ hi x := by
  induction l generalizing a with
  | nil =>
      obtain rfl : a = b := h
      omega
  | cons x l ih =>
      obtain ⟨rfl, -, hrest⟩ := h
      by_cases hn : n ≤ hi x
      · exact ⟨x, List.mem_cons_self, ha, hn⟩
      · obtain ⟨y, hy, hyn⟩ := ih hrest (by omega)
        exact ⟨y, List.mem_cons_of_mem x hy, hyn⟩

/-- Each range may be replaced by ranges that tile it. -/
theorem flatMap {f : β → List β} (h : Tiles lo hi a l b) (hf : ∀ x ∈ l, Tiles lo hi (lo x) (f x) (hi x + 1)) :
    Tiles lo hi a (l.flatMap f) b := by
  induction l generalizing a with
  | nil => exact h
  | cons x l ih =>
      obtain ⟨rfl, -, hrest⟩ := h
      obtain ⟨hx, hall⟩ := List.forall_mem_cons.mp hf
      rw [List.flatMap_cons]
      exact hx.append (ih hrest hall)

theorem map {f : β → β} (h : Tiles lo hi a l b) (hf : ∀ x ∈ l, lo (f x) = lo x ∧ hi (f x) = hi x) :
    Tiles lo hi a (l.map f) b := by
  rw [List.map_eq_flatMap]
  refine h.flatMap fun x hx => ?_
  have hbounds := (h.bounds.2 x hx).2.1
  obtain ⟨hlo, hhi⟩ := hf x hx
  exact ⟨hlo, by rwa [hhi], by rw [hhi]; rfl⟩

end Tiles

end WarmLogic.Lib
