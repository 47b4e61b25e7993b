/-
# WarmLogic.Lib.MapSum — totals over an ordered map, and maps built by inserting a list.

The total of a map is the sum of a weight over its values. What a program needs of it: an insertion replaces
the old weight at the key by the new one, maps with the same lookups have the same total, and no single entry
with nonnegative weights exceeds it. Beside it, the lookup rule for a map filled from a list whose keys do not
repeat.
-/
import Std.Data.TreeMap.Lemmas
import Mathlib.Algebra.BigOperators.Group.List.Basic
import Mathlib.Algebra.Order.BigOperators.Group.List
import Mathlib.Data.List.Perm.Basic
import Mathlib.Data.List.Sort
import Mathlib.Tactic.Ring

namespace WarmLogic.Lib

variable {α β : Type} {cmp : α → α → Ordering} [Std.TransCmp cmp] [Std.LawfulEqCmp cmp]

/-- The weight at a key, 0 where the map has none. -/
def weightAt (f : β → ℤ) (t : Std.TreeMap α β cmp) (k : α) : ℤ := (t[k]?.map f).getD 0

/-- The sum of the weights of all entries. -/
def mapSum (f : β → ℤ) (t : Std.TreeMap α β cmp) : ℤ := (t.toList.map fun p => f p.2).sum

/-- A map lists each key once. -/
theorem nodup_toList (t : Std.TreeMap α β cmp) : t.toList.Nodup := by
  refine List.Pairwise.imp ?_ t.distinct_keys_toList
  rintro a b hne rfl
  exact hne Std.ReflCmp.compare_self

/-- Maps with the same lookups list the same entries in the same order. -/
theorem toList_congr {t t' : Std.TreeMap α β cmp} (h : ∀ k : α, t[k]? = t'[k]?) : t.toList = t'.toList := by
  have hperm : t.toList.Perm t'.toList := by
    rw [List.perm_ext_iff_of_nodup (nodup_toList t) (nodup_toList t')]
    rintro ⟨k, v⟩
    rw [Std.TreeMap.mem_toList_iff_getElem?_eq_some, Std.TreeMap.mem_toList_iff_getElem?_eq_some, h k]
  refine hperm.eq_of_pairwise ?_ t.ordered_keys_toList t'.ordered_keys_toList
  intro p q _ _ hpq hqp
  have hgt : cmp p.1 q.1 = .gt := Std.OrientedCmp.gt_of_lt hqp
  exact nomatch hgt.symm.trans hpq

/-- The keys of a map that another one has too are listed in it in the same order. -/
theorem keys_sublist {t t' : Std.TreeMap α β cmp} (h : ∀ k : α, k ∈ t → k ∈ t') :
    (t.toList.map Prod.fst).Sublist (t'.toList.map Prod.fst) := by
  have hanti : Std.Antisymm fun a b : α => cmp a b = .lt :=
    ⟨fun a b hab hba => nomatch (Std.OrientedCmp.gt_of_lt hba).symm.trans hab⟩
  rw [Std.TreeMap.map_fst_toList_eq_keys, Std.TreeMap.map_fst_toList_eq_keys]
  refine List.sublist_of_subperm_of_pairwise (List.subperm_of_subset Std.TreeMap.nodup_keys ?_)
    Std.TreeMap.ordered_keys Std.TreeMap.ordered_keys
  intro k hk
  exact Std.TreeMap.mem_keys.mpr (h k (Std.TreeMap.mem_keys.mp hk))

/-- Only the lookups matter. -/
theorem mapSum_congr (f : β → ℤ) {t t' : Std.TreeMap α β cmp} (h : ∀ k : α, t[k]? = t'[k]?) :
    mapSum f t = mapSum f t' := by
  rw [mapSum, toList_congr h, mapSum]

/-- A new key adds its weight. -/
theorem mapSum_insert_of_none (f : β → ℤ) {t : Std.TreeMap α β cmp} {k : α} (v : β) (h : t[k]? = none) :
    mapSum f (t.insert k v) = f v + mapSum f t := by
  have hperm : (t.insert k v).toList.Perm ((k, v) :: t.toList) := by
    rw [List.perm_ext_iff_of_nodup (nodup_toList _)]
    · rintro ⟨k', v'⟩
      rw [Std.TreeMap.mem_toList_iff_getElem?_eq_some, Std.TreeMap.getElem?_insert, List.mem_cons,
        Std.TreeMap.mem_toList_iff_getElem?_eq_some, Prod.mk.injEq]
      by_cases hk : k = k'
      · subst hk
        simp [Std.ReflCmp.compare_self, h, eq_comm]
      · have hk' : ¬ k' = k := fun e => hk e.symm
        rw [if_neg (fun e => hk (Std.LawfulEqCmp.eq_of_compare e))]
        simp [hk']
    · refine List.nodup_cons.mpr ⟨?_, nodup_toList t⟩
      rw [Std.TreeMap.mem_toList_iff_getElem?_eq_some, h]
      exact fun e => nomatch e
  rw [mapSum, (hperm.map _).sum_eq, List.map_cons, List.sum_cons, mapSum]

/-- Erasing a key takes its weight away. -/
theorem mapSum_erase (f : β → ℤ) (t : Std.TreeMap α β cmp) (k : α) :
    mapSum f (t.erase k) = mapSum f t - weightAt f t k := by
  have hnone : (t.erase k)[k]? = none := by simp
  unfold weightAt
  cases h : t[k]? with
  | none =>
      rw [Option.map_none, Option.getD_none, sub_zero]
      apply mapSum_congr
      intro k'
      rw [Std.TreeMap.getElem?_erase]
      split
      · rename_i hk
        rw [← Std.LawfulEqCmp.compare_eq_iff_eq.mp hk, h]
      · rfl
  | some w =>
      -- the map is the erased one with the entry put back
      have hback : mapSum f t = f w + mapSum f (t.erase k) := by
        rw [← mapSum_insert_of_none f w hnone]
        apply mapSum_congr
        intro k'
        rw [Std.TreeMap.getElem?_insert, Std.TreeMap.getElem?_erase]
        by_cases hk : k = k'
        · subst hk
          simp [Std.ReflCmp.compare_self, h]
        · rw [if_neg (mt Std.LawfulEqCmp.compare_eq_iff_eq.mp hk), if_neg (mt Std.LawfulEqCmp.compare_eq_iff_eq.mp hk)]
      rw [hback, Option.map_some, Option.getD_some]
      ring

/-- **An insertion replaces the weight at its key.** -/
theorem mapSum_insert (f : β → ℤ) (t : Std.TreeMap α β cmp) (k : α) (v : β) :
    mapSum f (t.insert k v) = mapSum f t - weightAt f t k + f v := by
  have hnone : (t.erase k)[k]? = none := by simp
  have hnew : mapSum f (t.insert k v) = f v + mapSum f (t.erase k) := by
    rw [← mapSum_insert_of_none f v hnone]
    apply mapSum_congr
    intro k'
    simp only [Std.TreeMap.getElem?_insert, Std.TreeMap.getElem?_erase]
    by_cases hk : k = k'
    · rw [if_pos (Std.LawfulEqCmp.compare_eq_iff_eq.mpr hk), if_pos (Std.LawfulEqCmp.compare_eq_iff_eq.mpr hk)]
    · rw [if_neg (mt Std.LawfulEqCmp.compare_eq_iff_eq.mp hk), if_neg (mt Std.LawfulEqCmp.compare_eq_iff_eq.mp hk),
        if_neg (mt Std.LawfulEqCmp.compare_eq_iff_eq.mp hk)]
  rw [hnew, mapSum_erase]
  ring

/-- **No entry outweighs the map**, where no weight is negative. -/
theorem weightAt_le_mapSum {f : β → ℤ} (hf : ∀ v, 0 ≤ f v) (t : Std.TreeMap α β cmp) (k : α) :
    weightAt f t k ≤ mapSum f t := by
  have hnonneg : ∀ x ∈ t.toList.map (fun p => f p.2), 0 ≤ x := by
    intro x hx
    obtain ⟨p, -, rfl⟩ := List.mem_map.mp hx
    exact hf p.2
  unfold weightAt
  cases h : t[k]? with
  | none => exact List.sum_nonneg hnonneg
  | some v =>
      have hmem : (k, v) ∈ t.toList := Std.TreeMap.mem_toList_iff_getElem?_eq_some.mpr h
      exact List.single_le_sum hnonneg _ (List.mem_map_of_mem hmem)

omit [Std.TransCmp cmp] [Std.LawfulEqCmp cmp] in
/-- The weight of a machine word is its value; a key without an entry weighs as the word 0. -/
theorem weightAt_toNat (t : Std.TreeMap α UInt64 cmp) (k : α) :
    weightAt (fun x : UInt64 => (x.toNat : ℤ)) t k = ((t[k]?.getD 0).toNat : ℤ) := by
  unfold weightAt
  cases t[k]? <;> rfl

/-- A map filled from a list whose keys are pairwise distinct shows exactly the list, over what it had. -/
theorem getElem?_foldl_insert {γ : Type} (key : γ → α) (val : γ → β) {l : List γ}
    (hd : l.Pairwise fun x y => key x ≠ key y) (t : Std.TreeMap α β cmp) (k : α) (v : β) :
    (l.foldl (fun t x => t.insert (key x) (val x)) t)[k]? = some v ↔
      (∃ x ∈ l, key x = k ∧ val x = v) ∨ ((∀ x ∈ l, key x ≠ k) ∧ t[k]? = some v) := by
  induction l generalizing t with
  | nil => simp
  | cons x l ih =>
      obtain ⟨hx, hd⟩ := List.pairwise_cons.mp hd
      rw [List.foldl_cons, ih hd, Std.TreeMap.getElem?_insert]
      by_cases hk : key x = k
      · subst hk
        have hl : ∀ y ∈ l, key y ≠ key x := fun y hy => (hx y hy).symm
        have hno : ¬ ∃ y ∈ l, key y = key x ∧ val y = v := fun ⟨y, hy, he, _⟩ => hl y hy he
        simp [Std.ReflCmp.compare_self, hno]
        exact fun _ => hl
      · have hcmp : ¬ cmp (key x) k = .eq := fun e => hk (Std.LawfulEqCmp.eq_of_compare e)
        simp [hcmp, hk]

/-- A map filled from any list: at each key the last of the list wins, and where there is none the map is as it was. -/
theorem getElem?_foldl_insert_last {γ : Type} [DecidableEq α] (key : γ → α) (val : γ → β) (l : List γ)
    (t : Std.TreeMap α β cmp) (k : α) :
    (l.foldl (fun t x => t.insert (key x) (val x)) t)[k]? =
      ((l.reverse.find? fun x => key x = k).map val).or t[k]? := by
  induction l generalizing t with
  | nil => rfl
  | cons x l ih =>
      rw [List.foldl_cons, ih, Std.TreeMap.getElem?_insert, List.reverse_cons, List.find?_append]
      by_cases hk : key x = k
      · cases l.reverse.find? fun x => key x = k with
        | some y => rfl
        | none => simp [hk, Std.ReflCmp.compare_self]
      · have hcmp : ¬ cmp (key x) k = .eq := fun e => hk (Std.LawfulEqCmp.eq_of_compare e)
        cases l.reverse.find? fun x => key x = k with
        | some y => rfl
        | none => simp [hk, hcmp]

end WarmLogic.Lib
