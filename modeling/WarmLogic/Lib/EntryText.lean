/-
# WarmLogic.Lib.EntryText — lists of entries written as `key:value|key:value|…`, and when two of them read alike.

The keys are any strings, the values are written without the two separators. Such a text does not determine the list:
`x:v` and `y:w` read like the one entry `w` under the key `x:v|y`. That is the only ambiguity. Two lists have one text
exactly if both arise from one list by merging neighbours in this way (`joinText_eq_iff`), so lists whose keys hold no
`:value|` are determined by their text.

A key that is not plain can be cut at a `:value|` into an entry and a shorter key, so every list is a grouping of a
finest one with plain keys (`exists_plain`); and lists with plain keys are read back from the left, entry by entry,
since what follows a value is the end or `|` (`joinText_injective`). The two together are the theorem.
-/
import Mathlib.Logic.Relation
import Mathlib.Data.List.Basic

namespace WarmLogic.Lib

variable {α β : Type}

/-- The two separators, and how a value is written between them. -/
structure EntryFormat (α β : Type) where
  colon : α
  bar : α
  write : β → List α
  colon_ne_bar : colon ≠ bar
  colon_not_mem : ∀ v, colon ∉ write v
  bar_not_mem : ∀ v, bar ∉ write v
  write_injective : Function.Injective write

namespace EntryFormat

variable (S : EntryFormat α β)

/-- `key:value`. -/
def entryText (e : List α × β) : List α := e.1 ++ S.colon :: S.write e.2

/-- The entries, with `|` between them. -/
def joinText : List (List α × β) → List α
  | [] => []
  | [e] => S.entryText e
  | e :: es => S.entryText e ++ S.bar :: joinText es

/-- The key holds no `:value|`. -/
def Plain (key : List α) : Prop := ∀ x v y, key ≠ S.entryText (x, v) ++ S.bar :: y

/-- A key that lacks one of the separators is plain. -/
theorem plain_of_not_mem {key : List α} (h : S.colon ∉ key ∨ S.bar ∉ key) : S.Plain key := by
  rintro x v y rfl
  rcases h with h | h
  · exact h (by simp [entryText])
  · exact h (by simp)

/-- Two neighbours read as one entry. -/
def merge (e e' : List α × β) : List α × β := (S.entryText e ++ S.bar :: e'.1, e'.2)

/-- One pair of neighbours merged. -/
inductive Merges : List (List α × β) → List (List α × β) → Prop
  | here (e e' : List α × β) (es : List (List α × β)) : Merges (e :: e' :: es) (S.merge e e' :: es)
  | later (e : List α × β) {es es' : List (List α × β)} : Merges es es' → Merges (e :: es) (e :: es')

/-- Any number of merges. -/
def Grouped : List (List α × β) → List (List α × β) → Prop := Relation.ReflTransGen S.Merges

variable {S}

/-! ## Merging keeps the text -/

/-- Merging two entries leaves the text they have together. -/
theorem entryText_merge (e e' : List α × β) :
    S.entryText (S.merge e e') = S.entryText e ++ S.bar :: S.entryText e' := by
  simp [merge, entryText]

/-- An entry in front of others. -/
theorem joinText_cons_of_ne_nil (e : List α × β) {es : List (List α × β)} (h : es ≠ []) :
    S.joinText (e :: es) = S.entryText e ++ S.bar :: S.joinText es := by
  cases es with
  | nil => exact absurd rfl h
  | cons e' es => rfl

/-- Merging leaves an entry. -/
theorem Merges.ne_nil {es es' : List (List α × β)} (h : S.Merges es es') : es ≠ [] ∧ es' ≠ [] := by
  cases h <;> exact ⟨List.cons_ne_nil _ _, List.cons_ne_nil _ _⟩

/-- One merge leaves the text. -/
theorem Merges.joinText {es es' : List (List α × β)} (h : S.Merges es es') : S.joinText es' = S.joinText es := by
  induction h with
  | here e e' es =>
      cases es with
      | nil => exact entryText_merge e e'
      | cons f es =>
          rw [joinText_cons_of_ne_nil _ (List.cons_ne_nil f es), entryText_merge,
            joinText_cons_of_ne_nil _ (List.cons_ne_nil e' _), joinText_cons_of_ne_nil _ (List.cons_ne_nil f es),
            List.append_assoc, List.cons_append]
  | later e h ih => rw [joinText_cons_of_ne_nil e h.ne_nil.1, joinText_cons_of_ne_nil e h.ne_nil.2, ih]

/-- So do many. -/
theorem Grouped.joinText {es es' : List (List α × β)} (h : S.Grouped es es') : S.joinText es' = S.joinText es := by
  induction h with
  | refl => rfl
  | tail _ h ih => rw [h.joinText, ih]

/-- A merge within the first part. -/
theorem Merges.append_right {es es' : List (List α × β)} (h : S.Merges es es') (fs : List (List α × β)) :
    S.Merges (es ++ fs) (es' ++ fs) := by
  induction h with
  | here e e' es => exact .here e e' (es ++ fs)
  | later e _ ih => exact .later e ih

/-- A merge within the second part. -/
theorem Merges.append_left {es es' : List (List α × β)} (h : S.Merges es es') (fs : List (List α × β)) :
    S.Merges (fs ++ es) (fs ++ es') := by
  induction fs with
  | nil => exact h
  | cons f fs ih => exact .later f ih

/-- Groupings of two parts. -/
theorem Grouped.append {es es' fs fs' : List (List α × β)} (h : S.Grouped es es') (h' : S.Grouped fs fs') :
    S.Grouped (es ++ fs) (es' ++ fs') := by
  have hleft : S.Grouped (es ++ fs) (es' ++ fs) := h.lift (· ++ fs) fun _ _ h => h.append_right fs
  have hright : S.Grouped (es' ++ fs) (es' ++ fs') := h'.lift (es' ++ ·) fun _ _ h => h.append_left es'
  exact hleft.trans hright

/-! ## The finest list -/

/-- One entry is a grouping of entries with plain keys. -/
theorem exists_plain_entry (key : List α) (v : β) :
    ∃ ps : List (List α × β), (∀ p ∈ ps, S.Plain p.1) ∧ S.Grouped ps [(key, v)] := by
  -- a key that is not plain splits into two shorter ones
  induction hn : key.length using Nat.strongRecOn generalizing key v with
  | _ n ih =>
      by_cases hplain : S.Plain key
      · refine ⟨[(key, v)], ?_, .refl⟩
        rintro p (_ | ⟨_, hp⟩)
        · exact hplain
        · exact absurd hp List.not_mem_nil
      · obtain ⟨x, u, y, hkey⟩ : ∃ x u y, key = S.entryText (x, u) ++ S.bar :: y := by
          simpa only [Plain, not_forall, not_not, ne_eq] using hplain
        have hlen : x.length + y.length < n := by
          rw [← hn, hkey]
          simp only [entryText, List.length_append, List.length_cons]
          omega
        obtain ⟨ps, hps, hgx⟩ := ih x.length (by omega) x u rfl
        obtain ⟨qs, hqs, hgy⟩ := ih y.length (by omega) y v rfl
        refine ⟨ps ++ qs, ?_, ?_⟩
        · intro p hp
          exact (List.mem_append.mp hp).elim (hps p) (hqs p)
        · refine (hgx.append hgy).trans (.single ?_)
          rw [hkey]
          exact .here (x, u) (y, v) []

/-- **Every list is a grouping of entries with plain keys.** -/
theorem exists_plain (es : List (List α × β)) :
    ∃ ps : List (List α × β), (∀ p ∈ ps, S.Plain p.1) ∧ S.Grouped ps es := by
  induction es with
  | nil => exact ⟨[], fun p hp => absurd hp List.not_mem_nil, .refl⟩
  | cons e es ih =>
      obtain ⟨ps, hps, hg⟩ := exists_plain_entry (S := S) e.1 e.2
      obtain ⟨qs, hqs, hg'⟩ := ih
      refine ⟨ps ++ qs, ?_, hg.append hg'⟩
      intro p hp
      exact (List.mem_append.mp hp).elim (hps p) (hqs p)

/-! ## Reading plain keys -/

/-- What may follow a value: nothing, or `|`. -/
def Ends (S : EntryFormat α β) (t : List α) : Prop := t = [] ∨ ∃ r, t = S.bar :: r

/-- A value is read back where it ends. -/
theorem write_append_inj {v v' : β} {t t' : List α} (ht : Ends S t) (ht' : Ends S t')
    (h : S.write v ++ t = S.write v' ++ t') : v = v' ∧ t = t' := by
  rcases List.append_eq_append_iff.mp h with ⟨a, hv, ha⟩ | ⟨a, hv, ha⟩
  · -- `a` would be a front part of what follows, and it is part of a value
    cases a with
    | nil => exact ⟨S.write_injective (by simpa using hv.symm), by simpa using ha⟩
    | cons c a =>
        rcases ht with rfl | ⟨r, rfl⟩
        · exact absurd ha.symm (by simp)
        · have hc : S.bar = c := (List.cons.inj ha).1
          exact absurd (hv ▸ List.mem_append_right _ (hc ▸ List.mem_cons_self)) (S.bar_not_mem v')
  · cases a with
    | nil => exact ⟨S.write_injective (by simpa using hv), by simpa using ha.symm⟩
    | cons c a =>
        rcases ht' with rfl | ⟨r, rfl⟩
        · exact absurd ha.symm (by simp)
        · have hc : S.bar = c := (List.cons.inj ha).1
          exact absurd (hv ▸ List.mem_append_right _ (hc ▸ List.mem_cons_self)) (S.bar_not_mem v)

/-- A longer key would hold the shorter one's value between separators. -/
theorem not_plain_of_longer {k : List α} {v v' : β} {c : α} {a t t' : List α} (ht : Ends S t)
    (h : S.colon :: (S.write v ++ t) = c :: (a ++ S.colon :: (S.write v' ++ t'))) : ¬ S.Plain (k ++ c :: a) := by
  obtain ⟨rfl, hrest⟩ := List.cons.inj h
  rcases List.append_eq_append_iff.mp hrest with ⟨b, ha, hb⟩ | ⟨b, hv, hb⟩
  · rcases ht with rfl | ⟨r, rfl⟩
    · exact absurd hb (by simp)
    · cases b with
      | nil => exact absurd (List.cons.inj hb).1.symm S.colon_ne_bar
      | cons b bs =>
          obtain ⟨rfl, -⟩ := List.cons.inj hb
          intro hplain
          apply hplain k v bs
          rw [ha]
          simp [entryText]
  · cases b with
    | nil =>
        rcases ht with rfl | ⟨r, rfl⟩
        · exact absurd hb (by simp)
        · exact absurd (List.cons.inj hb).1 S.colon_ne_bar
    | cons b bs =>
        have hc : S.colon = b := (List.cons.inj hb).1
        exact absurd (hv ▸ List.mem_append_right _ (hc ▸ List.mem_cons_self)) (S.colon_not_mem v)

/-- The first entry of a text is determined, if both readings give it a plain key. -/
theorem entryText_append_inj {e e' : List α × β} {t t' : List α} (he : S.Plain e.1) (he' : S.Plain e'.1)
    (ht : Ends S t) (ht' : Ends S t') (h : S.entryText e ++ t = S.entryText e' ++ t') : e = e' ∧ t = t' := by
  obtain ⟨k, v⟩ := e
  obtain ⟨k', v'⟩ := e'
  simp only [entryText, List.append_assoc, List.cons_append] at h
  rcases List.append_eq_append_iff.mp h with ⟨a, hk, ha⟩ | ⟨a, hk, ha⟩
  · cases a with
    | nil =>
        obtain ⟨rfl, rfl⟩ := write_append_inj ht ht' (List.cons.inj ha).2
        exact ⟨by simp [hk], rfl⟩
    | cons c a => exact absurd (hk ▸ he') (not_plain_of_longer ht ha)
  · cases a with
    | nil =>
        obtain ⟨rfl, rfl⟩ := write_append_inj ht' ht (List.cons.inj ha).2
        exact ⟨by simp [hk], rfl⟩
    | cons c a => exact absurd (hk ▸ he) (not_plain_of_longer ht' ha)

/-- What follows the first entry. -/
def restText (S : EntryFormat α β) : List (List α × β) → List α
  | [] => []
  | es => S.bar :: S.joinText es

/-- The first entry, and what follows it. -/
theorem joinText_cons (e : List α × β) (es : List (List α × β)) :
    S.joinText (e :: es) = S.entryText e ++ restText S es := by
  cases es with
  | nil => exact (List.append_nil _).symm
  | cons e' es => rfl

/-- What follows an entry ends its value. -/
theorem ends_restText (es : List (List α × β)) : Ends S (restText S es) := by
  cases es with
  | nil => exact .inl rfl
  | cons e es => exact .inr ⟨_, rfl⟩

/-- A list with an entry has a text. -/
theorem joinText_ne_nil (e : List α × β) (es : List (List α × β)) : S.joinText (e :: es) ≠ [] := by
  rw [joinText_cons]
  simp [entryText]

/-- **Plain keys are read back.** -/
theorem joinText_injective {ps qs : List (List α × β)} (hp : ∀ p ∈ ps, S.Plain p.1) (hq : ∀ q ∈ qs, S.Plain q.1)
    (h : S.joinText ps = S.joinText qs) : ps = qs := by
  induction ps generalizing qs with
  | nil =>
      cases qs with
      | nil => rfl
      | cons q qs => exact absurd h.symm (joinText_ne_nil q qs)
  | cons p ps ih =>
      cases qs with
      | nil => exact absurd h (joinText_ne_nil p ps)
      | cons q qs =>
          obtain ⟨hp1, hps⟩ := List.forall_mem_cons.mp hp
          obtain ⟨hq1, hqs⟩ := List.forall_mem_cons.mp hq
          rw [joinText_cons, joinText_cons] at h
          obtain ⟨rfl, hrest⟩ := entryText_append_inj hp1 hq1 (ends_restText ps) (ends_restText qs) h
          have hjoin : S.joinText ps = S.joinText qs := by
            cases ps with
            | nil =>
                cases qs with
                | nil => rfl
                | cons q qs => exact nomatch hrest
            | cons p ps =>
                cases qs with
                | nil => exact nomatch hrest
                | cons q qs => exact (List.cons.inj hrest).2
          rw [ih hps hqs hjoin]

/-- **Two lists have one text exactly if both are groupings of one list.** -/
theorem joinText_eq_iff {es fs : List (List α × β)} :
    S.joinText es = S.joinText fs ↔ ∃ ps, S.Grouped ps es ∧ S.Grouped ps fs := by
  constructor
  · intro h
    obtain ⟨ps, hps, hg⟩ := exists_plain (S := S) es
    obtain ⟨qs, hqs, hg'⟩ := exists_plain (S := S) fs
    have heq : ps = qs := joinText_injective hps hqs (by rw [← hg.joinText, ← hg'.joinText, h])
    exact ⟨ps, hg, heq ▸ hg'⟩
  · rintro ⟨ps, hg, hg'⟩
    rw [hg.joinText, hg'.joinText]

/-! ## Keys that only grow

A list that keeps the keys of another and adds some has more separators, so it cannot read like it unless nothing was
added; and under the same keys a text determines the values. -/

section Growth

variable [DecidableEq α]

/-- How many `:` a text of entries with these keys holds; the values hold none. -/
def colons (S : EntryFormat α β) : List (List α) → Nat
  | [] => 0
  | k :: ks => k.count S.colon + 1 + colons S ks

/-- An entry holds the separators of its key and one more. -/
theorem count_colon_entryText (e : List α × β) : (S.entryText e).count S.colon = e.1.count S.colon + 1 := by
  rw [entryText, List.count_append, List.count_cons_self, List.count_eq_zero.mpr (S.colon_not_mem e.2)]

/-- A text holds those of its entries. -/
theorem count_colon_joinText (es : List (List α × β)) :
    (S.joinText es).count S.colon = S.colons (es.map Prod.fst) := by
  induction es with
  | nil => rfl
  | cons e es ih =>
      have hrest : (restText S es).count S.colon = (S.joinText es).count S.colon := by
        cases es with
        | nil => rfl
        | cons e' es => exact List.count_cons_of_ne S.colon_ne_bar.symm
      rw [joinText_cons, List.count_append, count_colon_entryText, hrest, ih]
      rfl

/-- One key more. -/
theorem colons_cons (k : List α) (ks : List (List α)) :
    S.colons (k :: ks) = k.count S.colon + 1 + S.colons ks := rfl

/-- More keys, no fewer separators. -/
theorem colons_le_of_sublist {ks ks' : List (List α)} (h : ks.Sublist ks') : S.colons ks ≤ S.colons ks' := by
  induction h with
  | slnil => exact Nat.le_refl _
  | cons k _ ih =>
      rw [colons_cons]
      omega
  | cons_cons k _ ih =>
      rw [colons_cons, colons_cons]
      omega

/-- Each further key counts, so as many separators mean the same keys. -/
theorem eq_of_sublist_of_colons {ks ks' : List (List α)} (h : ks.Sublist ks') (hcount : S.colons ks = S.colons ks') :
    ks = ks' := by
  induction h with
  | slnil => rfl
  | cons k hsub _ =>
      have hle := colons_le_of_sublist (S := S) hsub
      rw [colons_cons] at hcount
      omega
  | cons_cons k _ ih =>
      rw [colons_cons, colons_cons] at hcount
      rw [ih (by omega)]

omit [DecidableEq α] in
/-- Under the same keys the values are read back. -/
theorem eq_of_joinText_of_keys {es es' : List (List α × β)} (hkeys : es.map Prod.fst = es'.map Prod.fst)
    (h : S.joinText es = S.joinText es') : es = es' := by
  induction es generalizing es' with
  | nil => exact (List.map_eq_nil_iff.mp hkeys.symm).symm
  | cons e es ih =>
      cases es' with
      | nil => cases hkeys
      | cons e' es' =>
          obtain ⟨hkey, hkeys⟩ := List.cons.inj hkeys
          rw [joinText_cons, joinText_cons, entryText, entryText, hkey, List.append_assoc, List.append_assoc] at h
          have htail := (List.cons.inj (List.append_cancel_left h)).2
          obtain ⟨hvalue, hrest⟩ := write_append_inj (ends_restText es) (ends_restText es') htail
          have hjoin : S.joinText es = S.joinText es' := by
            cases es with
            | nil => rw [List.map_eq_nil_iff.mp hkeys.symm]
            | cons f fs =>
                cases es' with
                | nil => cases hkeys
                | cons f' fs' => exact (List.cons.inj hrest).2
          rw [ih hkeys hjoin, Prod.ext hkey hvalue]

/-- **A text that has kept its keys and gained some is another text.** -/
theorem eq_of_joinText_of_sublist {es es' : List (List α × β)} (hkeys : (es.map Prod.fst).Sublist (es'.map Prod.fst))
    (h : S.joinText es = S.joinText es') : es = es' := by
  have hcount := congrArg (List.count S.colon) h
  rw [count_colon_joinText, count_colon_joinText] at hcount
  exact eq_of_joinText_of_keys (eq_of_sublist_of_colons hkeys hcount) h

end Growth

end EntryFormat

end WarmLogic.Lib
