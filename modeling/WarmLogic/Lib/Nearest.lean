/-
# WarmLogic.Lib.Nearest — the first few of a set, kept sorted.

A search keeps the `n` nearest of all it has met: it sorts what it has and cuts the list off. `Nearest le n kept all`
says that `kept` is such a list for the set `all`. It is what sorting and cutting gives (`Nearest.sort`), and it goes on
holding as elements are met one by one (`Nearest.insert`), so a list that was cut many times is as good as one that was
sorted once. `le` need not tell all elements apart: it is a total preorder. Where it does tell the elements of the set
apart, there is only one such list (`Nearest.unique`).
-/
import Mathlib.Data.Set.Insert
import Mathlib.Data.List.Nodup
import Mathlib.Data.List.Perm.Subperm

namespace WarmLogic.Lib

universe u

variable {α : Type u}

/-- `kept` are the `n` nearest of `all`, sorted: who is left out found the list full, of others no farther away. -/
structure Nearest (le : α → α → Bool) (n : Nat) (kept : List α) (all : Set α) : Prop where
  sorted : kept.Pairwise fun a b => le a b = true
  nodup : kept.Nodup
  sub : ∀ x ∈ kept, x ∈ all
  bound : kept.length ≤ n
  rest : ∀ x ∈ all, x ∉ kept → kept.length = n ∧ ∀ y ∈ kept, le y x = true

namespace Nearest

variable {le : α → α → Bool} {n m : Nat} {kept : List α} {all : Set α}

/-- Of nothing, nothing is kept. -/
theorem empty (le : α → α → Bool) (n : Nat) : Nearest le n [] ∅ where
  sorted := List.Pairwise.nil
  nodup := List.nodup_nil
  sub _ hx := absurd hx List.not_mem_nil
  bound := Nat.zero_le n
  rest x hx := absurd hx (Set.notMem_empty x)

/-- A shorter cut of the same list. -/
theorem take (h : Nearest le n kept all) (hm : m ≤ n) : Nearest le m (kept.take m) all where
  sorted := h.sorted.sublist (List.take_sublist m kept)
  nodup := h.nodup.sublist (List.take_sublist m kept)
  sub x hx := h.sub x (List.mem_of_mem_take hx)
  bound := List.length_take_le m kept
  rest x hx hout := by
    by_cases hin : x ∈ kept
    · -- it stands behind the cut
      have hsplit : x ∈ kept.take m ++ kept.drop m := by rwa [List.take_append_drop]
      have hdrop : x ∈ kept.drop m := (List.mem_append.mp hsplit).resolve_left hout
      have hlen := List.length_pos_of_mem hdrop
      rw [List.length_drop] at hlen
      refine ⟨by rw [List.length_take]; omega, fun y hy => ?_⟩
      have hsorted := h.sorted
      rw [← List.take_append_drop m kept, List.pairwise_append] at hsorted
      exact hsorted.2.2 y hy x hdrop
    · obtain ⟨hfull, hnear⟩ := h.rest x hx hin
      exact ⟨by rw [List.length_take]; omega, fun y hy => hnear y (List.mem_of_mem_take hy)⟩

/-- What is left of such a list is one for its own elements. -/
theorem of_sublist (h : Nearest le n kept all) {l : List α} (hl : l.Sublist kept) : Nearest le n l {x | x ∈ l} where
  sorted := h.sorted.sublist hl
  nodup := h.nodup.sublist hl
  sub _ hx := hx
  bound := hl.length_le.trans h.bound
  rest _ hx hout := absurd hx hout

/-- Who is among the nearest of one list is among those of any other. -/
theorem mem_of_mem (hanti : ∀ a ∈ all, ∀ b ∈ all, le a b = true → le b a = true → a = b) {kept' : List α}
    (h : Nearest le n kept all) (h' : Nearest le n kept' all) {x : α} (hx : x ∈ kept) : x ∈ kept' := by
  by_contra hout
  obtain ⟨hfull, hbefore⟩ := h'.rest x (h.sub x hx) hout
  -- the other list is full, so it has somebody that this one lacks
  have hother : ∃ y ∈ kept', y ∉ kept := by
    by_contra hnone
    have hsub : kept' ⊆ kept := fun y hy => by
      by_contra hy'
      exact hnone ⟨y, hy, hy'⟩
    have hperm := (List.subperm_of_subset h'.nodup hsub).perm_of_length_le (hfull ▸ h.bound)
    exact hout (hperm.mem_iff.mpr hx)
  obtain ⟨y, hy, hlack⟩ := hother
  have hxy := (h.rest y (h'.sub y hy) hlack).2 x hx
  exact hlack (hanti x (h.sub x hx) y (h'.sub y hy) hxy (hbefore y hy) ▸ hx)

/-- **There is only one such list** where no two elements are equally near. -/
theorem unique (hanti : ∀ a ∈ all, ∀ b ∈ all, le a b = true → le b a = true → a = b) {kept' : List α}
    (h : Nearest le n kept all) (h' : Nearest le n kept' all) : kept = kept' := by
  have hperm : kept.Perm kept' := (List.perm_ext_iff_of_nodup h.nodup h'.nodup).mpr fun x =>
    ⟨h.mem_of_mem hanti h', h'.mem_of_mem hanti h⟩
  refine hperm.eq_of_pairwise ?_ h.sorted h'.sorted
  intro a b ha hb hab hba
  exact hanti a (h.sub a ha) b (h'.sub b hb) hab hba

/-- Of a list it can be computed whether these are the nearest. -/
instance [DecidableEq α] (le : α → α → Bool) (n : Nat) (kept l : List α) : Decidable (Nearest le n kept {x | x ∈ l}) :=
  decidable_of_iff
    (kept.Pairwise (fun a b => le a b = true) ∧ kept.Nodup ∧ (∀ x ∈ kept, x ∈ l) ∧ kept.length ≤ n ∧
      ∀ x ∈ l, x ∉ kept → kept.length = n ∧ ∀ y ∈ kept, le y x = true)
    ⟨fun ⟨hsorted, hnodup, hsub, hbound, hrest⟩ => ⟨hsorted, hnodup, hsub, hbound, hrest⟩,
      fun ⟨hsorted, hnodup, hsub, hbound, hrest⟩ => ⟨hsorted, hnodup, hsub, hbound, hrest⟩⟩

section Preorder

variable (htrans : ∀ a b c, le a b = true → le b c = true → le a c = true)
  (htotal : ∀ a b, (le a b || le b a) = true)
include htrans htotal

/-- **Sorting and cutting** keeps the nearest of a list. -/
theorem sort {l : List α} (hl : l.Nodup) : Nearest le n ((l.mergeSort le).take n) {x | x ∈ l} := by
  have hperm := List.mergeSort_perm l le
  have hwhole : Nearest le (max n l.length) (l.mergeSort le) {x | x ∈ l} :=
    { sorted := List.pairwise_mergeSort htrans htotal l
      nodup := hperm.nodup_iff.mpr hl
      sub := fun x hx => hperm.mem_iff.mp hx
      bound := hperm.length_eq ▸ Nat.le_max_right n l.length
      rest := fun x hx hout => absurd (hperm.mem_iff.mpr hx) hout }
  exact hwhole.take (Nat.le_max_left n l.length)

/-- **One more is met.** It goes behind the list, which is sorted and cut again. -/
theorem insert (h : Nearest le n kept all) {x : α} (hx : x ∉ kept) :
    Nearest le n (((kept ++ [x]).mergeSort le).take n) (Insert.insert x all) := by
  have hnodup : (kept ++ [x]).Nodup := by
    refine h.nodup.append (List.nodup_singleton x) fun y hy hy' => hx ?_
    rwa [← List.mem_singleton.mp hy']
  have hcut := sort (n := n) htrans htotal hnodup
  have hlen : (((kept ++ [x]).mergeSort le).take n).length = min n (kept.length + 1) := by
    rw [List.length_take, List.length_mergeSort, List.length_append, List.length_singleton]
  refine ⟨hcut.sorted, hcut.nodup, fun y hy => ?_, hcut.bound, fun z hz hout => ?_⟩
  · rcases List.mem_append.mp (hcut.sub y hy) with hy | hy
    · exact Set.mem_insert_of_mem x (h.sub y hy)
    · rw [List.mem_singleton.mp hy]
      exact Set.mem_insert x all
  · by_cases hin : z ∈ kept ++ [x]
    · exact hcut.rest z hin hout
    · -- left out before, so the list was full then, of nearer ones
      have hz : z ∈ all := hz.resolve_left fun heq => hin (heq ▸ List.mem_append_right kept List.mem_cons_self)
      obtain ⟨hfull, hnear⟩ := h.rest z hz fun hmem => hin (List.mem_append_left [x] hmem)
      refine ⟨by omega, fun y hy => ?_⟩
      rcases List.mem_append.mp (hcut.sub y hy) with hold | hnew
      · exact hnear y hold
      · -- `x` itself is in the cut, so one of the old ones is not, and `x` is before it
        obtain rfl := List.mem_singleton.mp hnew
        have hsomeone : ∃ w ∈ kept, w ∉ ((kept ++ [y]).mergeSort le).take n := by
          by_contra hnone
          have hall : ∀ w ∈ kept ++ [y], w ∈ ((kept ++ [y]).mergeSort le).take n := by
            intro w hw
            rcases List.mem_append.mp hw with hw | hw
            · by_contra hout
              exact hnone ⟨w, hw, hout⟩
            · rwa [List.mem_singleton.mp hw]
          have hle := (List.subperm_of_subset hnodup hall).length_le
          rw [List.length_append, List.length_singleton] at hle
          omega
        obtain ⟨w, hw, hout⟩ := hsomeone
        exact htrans y w z ((hcut.rest w (List.mem_append_left [y] hw) hout).2 y hy) (hnear w hw)

/-- A list in which each is strictly nearer than the next is sorted and has nobody twice. -/
theorem sorted_of_chain {l : List α} (h : l.IsChain fun a b => le b a = false) :
    (l.Pairwise fun a b => le a b = true) ∧ l.Nodup := by
  have hle : ∀ {a b}, le b a = false → le a b = true := fun {a b} hba => by
    have := htotal a b
    rwa [hba, Bool.or_false] at this
  have hstrict : IsTrans α fun a b => le b a = false := by
    refine ⟨fun a b c hba hcb => ?_⟩
    rw [Bool.eq_false_iff]
    intro hca
    have := htrans c a b hca (hle hba)
    rw [hcb] at this
    cases this
  have hpair : l.Pairwise fun a b => le b a = false := h.pairwise
  refine ⟨hpair.imp hle, hpair.imp fun hba heq => ?_⟩
  subst heq
  have := hle hba
  rw [hba] at this
  cases this

end Preorder

end Nearest

end WarmLogic.Lib
