/-
# WarmLogic.Lib.Majority — counting members: positions of a list, and elements of a set.

A program counts a quorum over the POSITIONS of a member list, with a filter and a length: predicates no
member satisfies together count at most the whole list, and a predicate and its negation exactly that. Where
the members are a set, two majorities of it meet, and two subsets of one size share a number of members that
the size alone decides.
-/
import Mathlib.Data.Finset.Card
import Mathlib.Data.List.Count
import Mathlib.Data.List.Nodup

namespace WarmLogic.Lib

variable {α : Type*} {p q : α → Bool} {l : List α}

theorem countP_add_countP_not (p : α → Bool) (l : List α) :
    l.countP p + l.countP (fun x => !p x) = l.length := by
  rw [List.length_eq_countP_add_countP p]
  congr 2
  funext x
  cases p x <;> rfl

/-- Predicates no member satisfies together count at most the whole list. -/
theorem countP_add_countP_le_length (h : ∀ x ∈ l, p x → q x → False) :
    l.countP p + l.countP q ≤ l.length := by
  have hq : l.countP q ≤ l.countP (fun x => !p x) := by
    apply List.countP_mono_left
    intro x hx hqx
    cases hp : p x
    · rfl
    · exact absurd hqx (fun hqx => h x hx hp hqx)
  have := countP_add_countP_not p l
  omega

/-- More than half of the members are in the set. -/
def MajorityOf [DecidableEq α] (members votes : Finset α) : Prop :=
  members.card < 2 * (members.filter (· ∈ votes)).card

theorem MajorityOf.inter [DecidableEq α] {members V W : Finset α} (hV : MajorityOf members V)
    (hW : MajorityOf members W) : ∃ v ∈ members, v ∈ V ∧ v ∈ W := by
  unfold MajorityOf at hV hW
  have hne : (members.filter (· ∈ V) ∩ members.filter (· ∈ W)).Nonempty := by
    apply Finset.inter_nonempty_of_card_lt_card_add_card (s := members)
      (Finset.filter_subset _ _) (Finset.filter_subset _ _)
    omega
  obtain ⟨v, hv⟩ := hne
  simp only [Finset.mem_inter, Finset.mem_filter] at hv
  exact ⟨v, hv.1.1, hv.1.2, hv.2.2⟩

/-- Only members count. -/
theorem MajorityOf.restrict [DecidableEq α] {members votes : Finset α} (h : MajorityOf members votes) :
    MajorityOf members (votes ∩ members) := by
  unfold MajorityOf at h ⊢
  have hsame : members.filter (· ∈ votes ∩ members) = members.filter (· ∈ votes) := by
    apply Finset.filter_congr
    intro x hx
    simp [hx]
  rwa [hsame]

/-! ## How much two subsets of one size share -/

theorem card_add_card_le [DecidableEq α] {V A B : Finset α} (hA : A ⊆ V) (hB : B ⊆ V) :
    A.card + B.card ≤ (A ∩ B).card + V.card := by
  have hunion : (A ∪ B).card ≤ V.card := Finset.card_le_card (Finset.union_subset hA hB)
  have hsum := Finset.card_union_add_card_inter A B
  omega

/-- **The bound is attained.** Some two subsets of size `q` share no more than the counting forces. -/
theorem exists_card_inter_eq [DecidableEq α] {V : Finset α} {q : Nat} (hq : q ≤ V.card) :
    ∃ A ⊆ V, ∃ B ⊆ V, A.card = q ∧ B.card = q ∧ (A ∩ B).card = 2 * q - V.card := by
  obtain ⟨A, hA, hAq⟩ := Finset.exists_subset_card_eq hq
  have hrest : (V \ A).card = V.card - q := by
    rw [Finset.card_sdiff_of_subset hA, hAq]
  by_cases hroom : q ≤ V.card - q
  · -- the second set fits beside the first
    obtain ⟨B, hB, hBq⟩ := Finset.exists_subset_card_eq (hroom.trans_eq hrest.symm)
    have hdisj : A ∩ B = ∅ := by
      rw [← Finset.disjoint_iff_inter_eq_empty]
      exact Finset.disjoint_of_subset_right hB Finset.disjoint_sdiff
    refine ⟨A, hA, B, hB.trans Finset.sdiff_subset, hAq, hBq, ?_⟩
    rw [hdisj, Finset.card_empty]
    omega
  · -- it takes everything outside the first, and the missing members from inside
    have hC : 2 * q - V.card ≤ A.card := by omega
    obtain ⟨C, hCA, hCq⟩ := Finset.exists_subset_card_eq hC
    have hdisj : Disjoint (V \ A) C := Finset.disjoint_of_subset_right hCA Finset.sdiff_disjoint
    have hinter : A ∩ (V \ A ∪ C) = C := by
      rw [Finset.inter_union_distrib_left, Finset.inter_sdiff_self, Finset.empty_union,
        Finset.inter_eq_right.mpr hCA]
    refine ⟨A, hA, V \ A ∪ C, Finset.union_subset Finset.sdiff_subset (hCA.trans hA), hAq, ?_, ?_⟩
    · rw [Finset.card_union_of_disjoint hdisj, hrest, hCq]
      omega
    · rw [hinter, hCq]

end WarmLogic.Lib
