/-
# WarmLogic.Lib.FirstWins — pairs arriving one after another, of which the first value for a key stays.

`inOrder` is the list of what stays, in the order of the keys, and is the listing of the ordered map that keeps first
values (`toList_eq_inOrder`). Where the pairs come from one list in the order of the keys, it does not depend on the order
or the number of the arrivals: it is the part of that list that came (`inOrder_eq_filter`).
-/
import WarmLogic.Lib.MapSum
import Mathlib.Data.List.Dedup
import Mathlib.Data.List.Flatten

namespace WarmLogic.Lib.FirstWins

variable {α β : Type} [DecidableEq α] (cmp : α → α → Ordering)

/-- The first value for each key, in the order of the keys. -/
def inOrder (l : List (α × β)) : List (α × β) :=
  ((l.map Prod.fst).dedup.mergeSort fun a b => (cmp a b).isLE).filterMap fun k => (l.lookup k).map (k, ·)

@[simp] theorem inOrder_nil : inOrder cmp ([] : List (α × β)) = [] := by simp [inOrder]

variable {cmp} {l : List (α × β)} {k : α} {v : β}

theorem mem_of_lookup (h : l.lookup k = some v) : (k, v) ∈ l := by
  obtain ⟨l₁, l₂, rfl, -⟩ := List.lookup_eq_some_iff.mp h
  exact List.mem_append_right l₁ List.mem_cons_self

@[simp] theorem mem_inOrder {p : α × β} : p ∈ inOrder cmp l ↔ l.lookup p.1 = some p.2 := by
  unfold inOrder
  simp only [List.mem_filterMap, List.mem_mergeSort, List.mem_dedup, Option.map_eq_some_iff]
  constructor
  · rintro ⟨k, -, v, hv, rfl⟩
    exact hv
  · intro h
    exact ⟨p.1, List.mem_map_of_mem (f := Prod.fst) (mem_of_lookup h), p.2, h, rfl⟩

variable [Std.TransCmp cmp] [Std.LawfulEqCmp cmp]

theorem inOrder_sorted (l : List (α × β)) : (inOrder cmp l).Pairwise fun p q => cmp p.1 q.1 = .lt := by
  have hle : ((l.map Prod.fst).dedup.mergeSort fun a b => (cmp a b).isLE).Pairwise fun a b => (cmp a b).isLE := by
    apply List.pairwise_mergeSort
    · exact fun a b c => Std.TransCmp.isLE_trans
    · intro a b
      rw [Bool.or_eq_true, ← Std.OrientedCmp.isGE_iff_isLE (a := a) (b := b)]
      cases cmp a b <;> simp
  have hne : ((l.map Prod.fst).dedup.mergeSort fun a b => (cmp a b).isLE).Nodup :=
    (List.mergeSort_perm _ _).nodup_iff.mpr (List.nodup_dedup _)
  refine List.Pairwise.filterMap _ ?_ (hle.and hne)
  rintro a b ⟨hab, hne⟩ p hp q hq
  obtain ⟨v, -, rfl⟩ := Option.map_eq_some_iff.mp hp
  obtain ⟨w, -, rfl⟩ := Option.map_eq_some_iff.mp hq
  show cmp a b = .lt
  cases h : cmp a b with
  | lt => rfl
  | eq => exact absurd (Std.LawfulEqCmp.eq_of_compare h) hne
  | gt => rw [h] at hab; exact nomatch hab

omit [DecidableEq α] [Std.LawfulEqCmp cmp] in
/-- A listing in the order of the keys has each key once. -/
theorem nodup_keys_of_sorted (hl : l.Pairwise fun p q => cmp p.1 q.1 = .lt) : (l.map Prod.fst).Nodup := by
  refine List.pairwise_map.mpr (hl.imp ?_)
  intro p q hlt heq
  rw [heq] at hlt
  exact absurd (Std.ReflCmp.compare_self.symm.trans hlt) (by decide)

omit [DecidableEq α] [Std.LawfulEqCmp cmp] in
/-- Two listings in the order of the keys with the same pairs are the same. -/
theorem eq_of_sorted {l l' : List (α × β)} (hl : l.Pairwise fun p q => cmp p.1 q.1 = .lt)
    (hl' : l'.Pairwise fun p q => cmp p.1 q.1 = .lt) (h : ∀ p, p ∈ l ↔ p ∈ l') : l = l' := by
  have hnodup := (nodup_keys_of_sorted hl).of_map
  have hnodup' := (nodup_keys_of_sorted hl').of_map
  refine ((List.perm_ext_iff_of_nodup hnodup hnodup').mpr h).eq_of_pairwise ?_ hl hl'
  intro p q _ _ hpq hqp
  exact absurd ((Std.OrientedCmp.gt_of_lt hpq).symm.trans hqp) (by decide)

/-- **A map that shows the first values lists them in order.** -/
theorem toList_eq_inOrder {t : Std.TreeMap α β cmp} (h : ∀ k : α, t[k]? = l.lookup k) : t.toList = inOrder cmp l := by
  refine eq_of_sorted Std.TreeMap.ordered_keys_toList (inOrder_sorted l) ?_
  rintro ⟨k, v⟩
  rw [Std.TreeMap.mem_toList_iff_getElem?_eq_some, h, mem_inOrder]

/-! ## One more pair, and pairs from one list -/

theorem lookup_append_singleton (l : List (α × β)) (p : α × β) (k : α) :
    (l ++ [p]).lookup k = (l.lookup k).or (if k = p.1 then some p.2 else none) := by
  induction l with
  | nil =>
      rw [List.nil_append, List.lookup_cons, List.lookup_nil, Option.none_or]
      by_cases hk : k = p.1
      · rw [if_pos hk, hk, beq_self_eq_true]
      · rw [if_neg hk, beq_false_of_ne hk]
  | cons q l ih =>
      rw [List.cons_append, List.lookup_cons, List.lookup_cons, ih]
      cases k == q.1 <;> rfl

/-- An insertion under a new key keeps a map that shows the first values. -/
theorem getElem?_insert_of_lookup {t : Std.TreeMap α β cmp} (h : ∀ k : α, t[k]? = l.lookup k) {p : α × β}
    (hnew : l.lookup p.1 = none) (k : α) : (t.insert p.1 p.2)[k]? = (l ++ [p]).lookup k := by
  rw [Std.TreeMap.getElem?_insert, lookup_append_singleton, h]
  by_cases hk : k = p.1
  · rw [if_pos (Std.LawfulEqCmp.compare_eq_iff_eq.mpr hk.symm), if_pos hk, hk, hnew, Option.none_or]
  · rw [if_neg fun e => hk (Std.LawfulEqCmp.eq_of_compare e).symm, if_neg hk, Option.or_none]

/-- A pair under a key that is there changes nothing. -/
theorem inOrder_append_of_some {p : α × β} (h : l.lookup p.1 = some v) : inOrder cmp (l ++ [p]) = inOrder cmp l := by
  refine eq_of_sorted (inOrder_sorted _) (inOrder_sorted _) fun q => ?_
  rw [mem_inOrder, mem_inOrder, lookup_append_singleton]
  by_cases hk : q.1 = p.1
  · rw [hk, h, Option.some_or]
  · rw [if_neg hk, Option.or_none]

/-- A pair under a new key is added. -/
theorem inOrder_append_perm {p : α × β} (h : l.lookup p.1 = none) : (inOrder cmp (l ++ [p])).Perm (p :: inOrder cmp l) := by
  have nodup (l : List (α × β)) : (inOrder cmp l).Nodup := (nodup_keys_of_sorted (inOrder_sorted l)).of_map
  have hnew : p ∉ inOrder cmp l := by
    rw [mem_inOrder, h]
    exact fun e => Option.some_ne_none _ e.symm
  rw [List.perm_ext_iff_of_nodup (nodup _) (List.nodup_cons.mpr ⟨hnew, nodup _⟩)]
  intro q
  rw [mem_inOrder, List.mem_cons, mem_inOrder, lookup_append_singleton]
  by_cases hk : q.1 = p.1
  · rw [hk, h, if_pos rfl, Option.none_or, Option.some.injEq]
    constructor
    · exact fun hv => .inl (Prod.ext hk hv.symm)
    · rintro (rfl | hv)
      · rfl
      · exact absurd hv.symm (Option.some_ne_none _)
  · rw [if_neg hk, Option.or_none]
    exact ⟨.inr, fun hq => hq.resolve_left fun e => hk (congrArg Prod.fst e)⟩

/-- **Any order, any copies.** Where the pairs come from one list in the order of the keys, what stays is the part of it
that came. -/
theorem inOrder_eq_filter {parts : List (α × β)} (hparts : parts.Pairwise fun p q => cmp p.1 q.1 = .lt)
    (hl : ∀ p ∈ l, p ∈ parts) : inOrder cmp l = parts.filter fun p => (l.lookup p.1).isSome := by
  refine eq_of_sorted (inOrder_sorted l) (hparts.filter _) fun p => ?_
  rw [mem_inOrder, List.mem_filter]
  constructor
  · intro h
    exact ⟨hl p (mem_of_lookup h), by rw [h]; rfl⟩
  · rintro ⟨hp, hsome⟩
    obtain ⟨v, hv⟩ := Option.isSome_iff_exists.mp hsome
    -- the value that came is the list's own value at the key
    have hq := hl _ (mem_of_lookup hv)
    have hsame : (p.1, v) = p := List.inj_on_of_nodup_map (nodup_keys_of_sorted hparts) hq hp rfl
    rw [hv, ← hsame]

end WarmLogic.Lib.FirstWins
