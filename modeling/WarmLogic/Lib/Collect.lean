/-
# WarmLogic.Lib.Collect — collecting the pieces of a whole, and starting anew when it is complete.

A collector holds some pieces of a set `whole`. A copy of a piece it holds changes nothing; the piece that was the last
missing one completes the whole, and after that nothing is held, so nothing tells a late copy from a first one. In a
sequence in which every piece comes, the whole is completed exactly once and nothing is held at the end if and only if the
last of the sequence is the first copy of its piece (`once_iff`).

Collectors under keys, side by side, do not see each other (`collectMany_proj`).
-/
import Mathlib.Data.Finset.Dedup
import Mathlib.Data.Finset.Lattice.Lemmas

namespace WarmLogic.Lib.Collect

variable {ι κ : Type} [DecidableEq ι] [DecidableEq κ] {whole held : Finset ι} {i : ι} {l : List ι}

/-! ## One collector -/

/-- A piece comes in: what is held after it, and whether it completed the whole. -/
def collect (whole held : Finset ι) (i : ι) : Finset ι × Bool :=
  if i ∈ held then (held, false)
  else if insert i held = whole then (∅, true)
  else (insert i held, false)

/-- After a sequence of pieces: what is held, and what each piece did. -/
def collectAll (whole : Finset ι) : Finset ι → List ι → Finset ι × List Bool
  | held, [] => (held, [])
  | held, i :: l =>
      let step := collect whole held i
      let rest := collectAll whole step.1 l
      (rest.1, step.2 :: rest.2)

/-- One sequence after another. -/
theorem collectAll_append (l l' : List ι) :
    collectAll whole held (l ++ l') =
      ((collectAll whole (collectAll whole held l).1 l').1,
        (collectAll whole held l).2 ++ (collectAll whole (collectAll whole held l).1 l').2) := by
  induction l generalizing held with
  | nil => rfl
  | cons i l ih =>
      simp only [List.cons_append, collectAll, ih]

/-- What is held is always a proper part of the whole. -/
theorem collect_ssubset (hheld : held ⊂ whole) (hi : i ∈ whole) : (collect whole held i).1 ⊂ whole := by
  unfold collect
  split_ifs with hmem hdone
  · exact hheld
  · exact Finset.empty_ssubset.mpr ⟨i, hi⟩
  · exact (Finset.insert_subset hi hheld.subset).ssubset_of_ne hdone

/-- **While a piece is missing**, the pieces add up. -/
theorem collectAll_of_missing (h : ∃ x ∈ whole, x ∉ held ∧ x ∉ l) :
    collectAll whole held l = (held ∪ l.toFinset, List.replicate l.length false) := by
  induction l generalizing held with
  | nil => simp [collectAll]
  | cons i l ih =>
      obtain ⟨x, hx, hheld, hl⟩ := h
      obtain ⟨hxi, hxl⟩ := not_or.mp (mt List.mem_cons.mpr hl)
      have hxinsert : x ∉ insert i held := by
        rw [Finset.mem_insert]
        rintro (rfl | hmem)
        · exact hxi rfl
        · exact hheld hmem
      have hstep : collect whole held i = (insert i held, false) := by
        unfold collect
        split_ifs with hmem hdone
        · rw [Finset.insert_eq_of_mem hmem]
        · exact absurd (hdone ▸ hx) hxinsert
        · rfl
      rw [collectAll, hstep, ih ⟨x, hx, hxinsert, hxl⟩, List.toFinset_cons, Finset.insert_union,
        Finset.union_insert, List.length_cons, List.replicate_succ]

/-- **The piece that was missing** completes the whole. -/
theorem collectAll_of_last (hcover : ∀ x ∈ whole, x = i ∨ x ∈ l) (hparts : ∀ x ∈ l, x ∈ whole) (hi : i ∈ whole)
    (hmissing : i ∉ l) :
    collectAll whole ∅ (l ++ [i]) = (∅, List.replicate l.length false ++ [true]) := by
  have hbefore : collectAll whole ∅ l = (∅ ∪ l.toFinset, List.replicate l.length false) :=
    collectAll_of_missing ⟨i, hi, Finset.notMem_empty i, hmissing⟩
  rw [Finset.empty_union] at hbefore
  have hdone : insert i l.toFinset = whole := by
    ext x
    rw [Finset.mem_insert, List.mem_toFinset]
    constructor
    · rintro (rfl | hx)
      · exact hi
      · exact hparts x hx
    · exact hcover x
  have hlast : collect whole l.toFinset i = (∅, true) := by
    unfold collect
    rw [if_neg (by rwa [List.mem_toFinset]), if_pos hdone]
  rw [collectAll_append, hbefore]
  simp only [collectAll, hlast]

/-- Without a completion, everything that came is still held. -/
theorem subset_collectAll (h : true ∉ (collectAll whole held l).2) :
    held ∪ l.toFinset ⊆ (collectAll whole held l).1 := by
  induction l generalizing held with
  | nil => simp [collectAll]
  | cons i l ih =>
      simp only [collectAll, List.mem_cons, not_or] at h ⊢
      have hstep : (collect whole held i).1 = insert i held := by
        have hno := h.1
        unfold collect at hno ⊢
        split_ifs at hno ⊢ with hmem hdone
        · exact (Finset.insert_eq_of_mem hmem).symm
        · exact absurd rfl hno
        · rfl
      have hrest := ih h.2
      rw [hstep] at hrest ⊢
      rwa [List.toFinset_cons, Finset.union_insert, ← Finset.insert_union]

/-- The first completion in a sequence that covers the whole. -/
theorem exists_first_completion (hne : whole.Nonempty) (hcover : ∀ x ∈ whole, x ∈ l) :
    ∃ pre i post, l = pre ++ i :: post ∧ i ∈ whole ∧ i ∉ pre ∧ ∀ x ∈ whole, x = i ∨ x ∈ pre := by
  induction l using List.reverseRecOn with
  | nil =>
      obtain ⟨x, hx⟩ := hne
      exact absurd (hcover x hx) List.not_mem_nil
  | append_singleton l i ih =>
      by_cases hbefore : ∀ x ∈ whole, x ∈ l
      · obtain ⟨pre, j, post, hl, hj, hfirst, hall⟩ := ih hbefore
        exact ⟨pre, j, post ++ [i], by rw [hl, List.append_assoc, List.cons_append], hj, hfirst, hall⟩
      · obtain ⟨x, hx, hxl⟩ : ∃ x ∈ whole, x ∉ l := by
          by_contra hno
          exact hbefore fun x hx => by_contra fun hxl => hno ⟨x, hx, hxl⟩
        have hxi : x = i := by
          rcases List.mem_append.mp (hcover x hx) with h | h
          · exact absurd h hxl
          · exact List.mem_singleton.mp h
        refine ⟨l, i, [], rfl, hxi ▸ hx, hxi ▸ hxl, fun y hy => ?_⟩
        rcases List.mem_append.mp (hcover y hy) with h | h
        · exact .inr h
        · exact .inl (List.mem_singleton.mp h)

/-- **Once and for all.** Where every piece comes, and only such, the whole is completed exactly once with nothing held at
the end if and only if the last one that comes is the first copy of its piece. -/
theorem once_iff (hne : whole.Nonempty) (hcover : ∀ x, x ∈ l ↔ x ∈ whole) :
    (collectAll whole ∅ l).2.count true = 1 ∧ (collectAll whole ∅ l).1 = ∅ ↔
      ∃ pre last, l = pre ++ [last] ∧ last ∉ pre := by
  obtain ⟨pre, i, post, hl, hi, hfirst, hall⟩ := exists_first_completion hne fun x hx => (hcover x).mpr hx
  have hpre : ∀ x ∈ pre, x ∈ whole := fun x hx => (hcover x).mp (by rw [hl]; exact List.mem_append_left _ hx)
  have hdone := collectAll_of_last hall hpre hi hfirst
  have hrun : collectAll whole ∅ l = ((collectAll whole ∅ post).1,
      (List.replicate pre.length false ++ [true]) ++ (collectAll whole ∅ post).2) := by
    rw [hl, List.append_cons, collectAll_append, hdone]
  have hcount : (collectAll whole ∅ l).2.count true = 1 + (collectAll whole ∅ post).2.count true := by
    rw [hrun, List.count_append, List.count_append, List.count_replicate]
    rfl
  constructor
  · rintro ⟨hone, hnothing⟩
    have hno : true ∉ (collectAll whole ∅ post).2 := by
      rw [← List.count_eq_zero]
      omega
    have hheld := subset_collectAll hno
    rw [hrun] at hnothing
    rw [Finset.empty_union, hnothing, Finset.subset_empty, List.toFinset_eq_empty_iff] at hheld
    exact ⟨pre, i, by rw [hl, hheld], hfirst⟩
  · rintro ⟨init, last, hsplit, hlast⟩
    -- what comes after the completion would be a copy
    have hpost : post = [] := by
      by_contra hpost
      obtain ⟨post', last', rfl⟩ := List.eq_nil_or_concat post |>.resolve_left hpost
      rw [hsplit, List.concat_eq_append, ← List.cons_append, ← List.append_assoc] at hl
      obtain ⟨hinit, hsame⟩ := List.append_inj' hl rfl
      rw [List.singleton_inj] at hsame
      subst hsame
      have hwhole : last ∈ whole := (hcover last).mp (by rw [hsplit]; exact List.mem_append_right _ List.mem_cons_self)
      apply hlast
      rw [hinit]
      rcases hall last hwhole with rfl | hmem
      · exact List.mem_append_right _ List.mem_cons_self
      · exact List.mem_append_left _ hmem
    rw [hcount, hrun, hpost]
    exact ⟨rfl, rfl⟩

omit [DecidableEq ι] in
/-- Under names that tell the pieces apart, the last one is a first copy or not all the same. -/
theorem exists_last_map_iff {α : Type} {f : ι → α} (hinj : ∀ x ∈ l, ∀ y ∈ l, f x = f y → x = y) :
    (∃ pre last, l.map f = pre ++ [last] ∧ last ∉ pre) ↔ ∃ pre last, l = pre ++ [last] ∧ last ∉ pre := by
  constructor
  · rintro ⟨pre', last', hsplit, hlast⟩
    obtain ⟨pre, tail, rfl, rfl, htail⟩ := List.map_eq_append_iff.mp hsplit
    obtain ⟨last, rest, rfl, rfl, hrest⟩ := List.map_eq_cons_iff.mp htail
    rw [List.map_eq_nil_iff.mp hrest]
    exact ⟨pre, last, rfl, fun hmem => hlast (List.mem_map_of_mem hmem)⟩
  · rintro ⟨pre, last, rfl, hlast⟩
    refine ⟨pre.map f, f last, by rw [List.map_append, List.map_singleton], fun hmem => hlast ?_⟩
    obtain ⟨x, hx, heq⟩ := List.mem_map.mp hmem
    rw [← hinj x (List.mem_append_left _ hx) last (List.mem_append_right _ List.mem_cons_self) heq]
    exact hx

/-! ## Collectors under keys -/

/-- A piece for the collector of a key; in a sequence, each piece with what it did. -/
def collectMany (whole : κ → Finset ι) : (κ → Finset ι) → List (κ × ι) → (κ → Finset ι) × List ((κ × ι) × Bool)
  | held, [] => (held, [])
  | held, e :: l =>
      let step := collect (whole e.1) (held e.1) e.2
      let rest := collectMany whole (Function.update held e.1 step.1) l
      (rest.1, (e, step.2) :: rest.2)

/-- The pieces of one key. -/
def ofKey (k : κ) (l : List (κ × ι)) : List ι := (l.filter fun e => e.1 = k).map (·.2)

/-- **Each collector sees its own pieces only.** -/
theorem collectMany_proj (whole held : κ → Finset ι) (l : List (κ × ι)) (k : κ) :
    collectAll (whole k) (held k) (ofKey k l) =
      ((collectMany whole held l).1 k,
        ((collectMany whole held l).2.filter fun e => e.1.1 = k).map (·.2)) := by
  induction l generalizing held with
  | nil => rfl
  | cons e l ih =>
      have hrest := ih (Function.update held e.1 (collect (whole e.1) (held e.1) e.2).1)
      unfold ofKey at hrest ⊢
      by_cases hk : e.1 = k
      · subst hk
        rw [Function.update_self] at hrest
        simp only [collectMany, List.filter_cons, decide_true, if_true, List.map_cons, collectAll, hrest]
      · rw [Function.update_of_ne (Ne.symm hk)] at hrest
        simp only [collectMany, List.filter_cons, decide_eq_true_eq, if_neg hk, hrest]

/-- Each event stands beside what its piece did. -/
theorem collectMany_events (whole held : κ → Finset ι) (l : List (κ × ι)) :
    (collectMany whole held l).2.map (·.1) = l := by
  induction l generalizing held with
  | nil => rfl
  | cons e l ih => rw [collectMany, List.map_cons, ih]

end WarmLogic.Lib.Collect
