/-
# WarmLogic.Lib.Reach — goals within so many steps of a graph, and when two graphs agree on all of them.

`Within edge goal k x` says that a goal is at most `k` steps from `x`. Two edge relations over the same goals agree on
every vertex and every bound exactly when, measured in the first graph alone, each step of one is made up for in the
other (`within_eq_iff`).
-/
import Mathlib.Logic.Basic

namespace WarmLogic.Lib

universe u

variable {α : Type u}

/-- A goal is at most so many steps away. -/
def Within (edge : α → α → Prop) (goal : α → Prop) : Nat → α → Prop
  | 0, x => goal x
  | k + 1, x => goal x ∨ ∃ y, edge x y ∧ Within edge goal k y

variable {edge edge' : α → α → Prop} {goal goal' : α → Prop}

theorem within_congr (hedge : ∀ x y, edge x y ↔ edge' x y) (hgoal : ∀ x, goal x ↔ goal' x) (k : Nat) (x : α) :
    Within edge goal k x ↔ Within edge' goal' k x := by
  induction k generalizing x with
  | zero => exact hgoal x
  | succ k ih =>
    show (goal x ∨ ∃ y, edge x y ∧ Within edge goal k y) ↔ (goal' x ∨ ∃ y, edge' x y ∧ Within edge' goal' k y)
    simp only [hedge, hgoal, ih]

/-- **Two graphs agree within every bound if and only if each step of one is made up for in the other.** Both sides of
the condition measure distances in the first graph: a step of the first is replaced by one of the second, or by a goal
at hand, and a step of the second leads nowhere that the first does not reach as fast. -/
theorem within_eq_iff :
    (∀ k x, Within edge goal k x ↔ Within edge' goal k x) ↔
      (∀ k x y, edge x y → Within edge goal k y → goal x ∨ ∃ z, edge' x z ∧ Within edge goal k z) ∧
        ∀ k x y, edge' x y → Within edge goal k y → Within edge goal (k + 1) x := by
  constructor
  · intro agree
    refine ⟨fun k x y hxy hy => ?_, fun k x y hxy hy => ?_⟩
    · have hx : Within edge goal (k + 1) x := .inr ⟨y, hxy, hy⟩
      rcases (agree (k + 1) x).1 hx with hgoal | ⟨z, hz, hwithin⟩
      · exact .inl hgoal
      · exact .inr ⟨z, hz, (agree k z).2 hwithin⟩
    · have hx : Within edge' goal (k + 1) x := .inr ⟨y, hxy, (agree k y).1 hy⟩
      exact (agree (k + 1) x).2 hx
  · rintro ⟨replaced, added⟩ k
    induction k with
    | zero => exact fun x => Iff.rfl
    | succ k ih =>
      intro x
      constructor
      · rintro (hgoal | ⟨y, hxy, hy⟩)
        · exact .inl hgoal
        · rcases replaced k x y hxy hy with hgoal | ⟨z, hxz, hz⟩
          · exact .inl hgoal
          · exact .inr ⟨z, hxz, (ih z).1 hz⟩
      · rintro (hgoal | ⟨y, hxy, hy⟩)
        · exact .inl hgoal
        · exact added k x y hxy ((ih y).2 hy)

end WarmLogic.Lib
