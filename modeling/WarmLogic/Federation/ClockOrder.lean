/-
# WarmLogic.Federation.ClockOrder — the pointwise order of clocks, and how far `happens_before` decides it.

A region without an entry and a region at 0 denote the same time, but not the same map: `with_regions` and
`from_bytes` make entries that hold 0, equality is equality of the maps, and `happens_before` answers for an empty
map without looking at the counters. So each of the three tests of `federation/vector_clock.rs` (`happens_before`,
`compare_clocks`, `happens_before_or_equal`) departs from the pointwise order at clocks of one shape, and
`clock_tests_pointwise_iff` says which. The lemmas on `Le` are what the results about whole runs use.
-/
import WarmLogic.Federation.VectorClock

namespace WarmLogic.Federation

namespace VectorClock

/-! ## The tests of the source -/

/-- `with_regions`: every listed region, at 0. -/
def withRegions (regions : List String) : VectorClock where
  regions := regions.toFinset
  get _ := 0
  get_eq_zero _ _ := rfl

/-- `is_concurrent`. -/
def isConcurrent (c other : VectorClock) : Bool :=
  !c.happensBefore other && !other.happensBefore c && decide (c ≠ other)

/-- `happens_before_or_equal`. -/
def happensBeforeOrEqual (c other : VectorClock) : Bool := decide (c = other) || c.happensBefore other

/-! ## The pointwise order -/

/-- No counter of `a` is greater than the counter of `b` for the same region. -/
def Le (a b : VectorClock) : Prop := ∀ region, a.get region ≤ b.get region

/-- The strict order: not above anywhere, and below somewhere. -/
def Lt (a b : VectorClock) : Prop := a.Le b ∧ ∃ region, a.get region < b.get region

/-- A clock is at or below itself. -/
theorem Le.refl (a : VectorClock) : a.Le a := fun _ => UInt64.le_refl _

/-- The order is transitive. -/
theorem Le.trans {a b c : VectorClock} (hab : a.Le b) (hbc : b.Le c) : a.Le c :=
  fun region => UInt64.le_trans (hab region) (hbc region)

/-- A merge has the greater counter of each region. -/
theorem get_merge (a b : VectorClock) (region : String) :
    (a.merge b).get region = if a.get region ≤ b.get region then b.get region else a.get region := rfl

/-- So it is above the first clock. -/
theorem le_merge_left (a b : VectorClock) : a.Le (a.merge b) := by
  intro region
  rw [get_merge]
  split
  · assumption
  · exact UInt64.le_refl _

/-- And above the second. -/
theorem le_merge_right (a b : VectorClock) : b.Le (a.merge b) := by
  intro region
  rw [get_merge]
  split
  · exact UInt64.le_refl _
  · rename_i h
    exact UInt64.le_of_lt (UInt64.not_le.mp h)

/-- `increment` adds one to one counter, unless that counter is at its last value. -/
theorem get_lt_increment {a : VectorClock} {region : String} (h : a.get region ≠ UInt64.ofNat (2 ^ 64 - 1)) :
    a.get region < (a.increment region).get region := by
  show a.get region < Function.update a.get region (a.get region + 1) region
  rw [Function.update_self, UInt64.lt_iff_toNat_lt, UInt64.toNat_add]
  have hlt := (a.get region).toNat_lt
  have hne : (a.get region).toNat ≠ 2 ^ 64 - 1 := by
    intro heq
    apply h
    rw [← heq, UInt64.ofNat_toNat]
  have hone : (1 : UInt64).toNat = 1 := rfl
  omega

/-- The counters of other regions stay. -/
theorem increment_get_of_ne (a : VectorClock) {region other : String} (h : other ≠ region) :
    (a.increment region).get other = a.get other := Function.update_of_ne h _ _

/-- An increment does not lower a clock, unless the counter wraps. -/
theorem le_increment {a : VectorClock} {region : String} (h : a.get region ≠ UInt64.ofNat (2 ^ 64 - 1)) :
    a.Le (a.increment region) := by
  intro other
  by_cases hother : other = region
  · subst hother
    exact UInt64.le_of_lt (get_lt_increment h)
  · rw [increment_get_of_ne a hother]
    exact UInt64.le_refl _

/-! ## What the pointwise order gives of `happens_before` -/

/-- A clock strictly below another one happens before it. -/
theorem happensBefore_of_lt {a b : VectorClock} (h : a.Lt b) : a.happensBefore b = true := by
  obtain ⟨hle, region, hlt⟩ := h
  rw [happensBefore_iff]
  by_cases hempty : a.regions = ∅
  · exact .inl ⟨hempty, regions_ne_empty (pos_of_lt hlt)⟩
  · exact .inr ⟨hempty, hle, region, hlt⟩

/-- Whatever happens before a clock is not above it anywhere. -/
theorem le_of_happensBefore {a b : VectorClock} (h : a.happensBefore b = true) : a.Le b := by
  rcases happensBefore_iff.mp h with ⟨hempty, -⟩ | ⟨-, hle, -⟩
  · intro region
    rw [a.get_eq_zero region (hempty ▸ Finset.notMem_empty region)]
    exact UInt64.zero_le
  · exact hle

/-- The one way in which `happens_before` says more than the counters: an empty map against a map of zeros. -/
theorem happensBefore_iff_lt (a b : VectorClock) :
    a.happensBefore b = true ↔
      a.Lt b ∨ (a.regions = ∅ ∧ b.regions ≠ ∅ ∧ ∀ region, b.get region = 0) := by
  constructor
  · intro h
    by_cases hlt : ∃ region, a.get region < b.get region
    · exact .inl ⟨le_of_happensBefore h, hlt⟩
    · rcases happensBefore_iff.mp h with ⟨hempty, hne⟩ | ⟨-, -, hsome⟩
      · refine .inr ⟨hempty, hne, fun region => ?_⟩
        have hnot : ¬ a.get region < b.get region := fun h => hlt ⟨region, h⟩
        rw [a.get_eq_zero region (hempty ▸ Finset.notMem_empty region)] at hnot
        exact UInt64.le_antisymm (UInt64.not_lt.mp hnot) UInt64.zero_le
      · exact absurd hsome hlt
  · rintro (hlt | ⟨hempty, hne, -⟩)
    · exact happensBefore_of_lt hlt
    · exact happensBefore_iff.mpr (.inl ⟨hempty, hne⟩)

theorem happensBefore_pointwise_iff (a b : VectorClock) :
    (a.happensBefore b = true ↔ a.Lt b) ↔
      ¬ (a.regions = ∅ ∧ b.regions ≠ ∅ ∧ ∀ region, b.get region = 0) := by
  rw [happensBefore_iff_lt]
  constructor
  · rintro h hzero
    obtain ⟨-, region, hlt⟩ := h.mp (.inr hzero)
    rw [hzero.2.2 region] at hlt
    exact UInt64.not_lt.mpr UInt64.zero_le hlt
  · intro hzero
    exact ⟨fun h => h.resolve_right hzero, .inl⟩

/-! ## Equality and `merge` -/

theorem agree_pointwise_iff (a b : VectorClock) :
    (compareClocks a b = .equal ↔ ∀ region, a.get region = b.get region) ↔
      ((∀ region, a.get region = b.get region) → a.regions = b.regions) := by
  have hequal : compareClocks a b = .equal ↔ a = b := by
    unfold compareClocks
    by_cases heq : a = b
    · simp [heq]
    · simp only [heq, if_false, iff_false]
      split
      · simp
      · split
        · simp
        · simp
  rw [hequal]
  constructor
  · intro h hget
    rw [h.mpr hget]
  · intro h
    constructor
    · rintro rfl region
      rfl
    · intro hget
      exact VectorClock.ext (h hget) (funext hget)

theorem eq_merge_iff (a b : VectorClock) : a = a.merge b ↔ b.regions ⊆ a.regions ∧ b.Le a := by
  constructor
  · intro h
    constructor
    · rw [h]
      exact Finset.subset_union_right
    · rw [h]
      exact le_merge_right a b
  · rintro ⟨hsub, hle⟩
    refine VectorClock.ext (Finset.union_eq_left.mpr hsub).symm (funext fun region => ?_)
    rw [get_merge]
    split
    · rename_i h
      exact UInt64.le_antisymm h (hle region)
    · rfl

theorem get_lt_merge_iff (a b : VectorClock) (region : String) :
    a.get region < (a.merge b).get region ↔ a.get region < b.get region := by
  rw [get_merge]
  split
  · rfl
  · rename_i h
    refine iff_of_false (UInt64.lt_irrefl _) fun hlt => h (UInt64.le_of_lt hlt)

/-- A merge is not seen as later when all it adds are regions at 0. -/
theorem merge_not_before_iff (a b : VectorClock) :
    a.happensBeforeOrEqual (a.merge b) = true ↔
      a.regions = ∅ ∨ b.regions ⊆ a.regions ∨ ∃ region, a.get region < b.get region := by
  unfold happensBeforeOrEqual
  rw [Bool.or_eq_true, decide_eq_true_eq, eq_merge_iff, happensBefore_iff]
  constructor
  · rintro (⟨hsub, -⟩ | ⟨hempty, -⟩ | ⟨-, -, region, hlt⟩)
    · exact .inr (.inl hsub)
    · exact .inl hempty
    · exact .inr (.inr ⟨region, (get_lt_merge_iff a b region).mp hlt⟩)
  · intro h
    by_cases hlt : ∃ region, a.get region < b.get region
    · obtain ⟨region, hlt⟩ := hlt
      have hmerge := (get_lt_merge_iff a b region).mpr hlt
      by_cases hempty : a.regions = ∅
      · exact .inr (.inl ⟨hempty, regions_ne_empty (pos_of_lt hmerge)⟩)
      · exact .inr (.inr ⟨hempty, le_merge_left a b, region, hmerge⟩)
    · have hle : b.Le a := fun region => UInt64.not_lt.mp fun h => hlt ⟨region, h⟩
      rcases h with hempty | hsub | hsome
      · by_cases hother : b.regions = ∅
        · exact .inl ⟨by rw [hother]; exact Finset.empty_subset _, hle⟩
        · refine .inr (.inl ⟨hempty, fun h => hother ?_⟩)
          exact (Finset.union_eq_empty.mp h).2
      · exact .inl ⟨hsub, hle⟩
      · exact absurd hsome hlt

end VectorClock

/-! ## The three tests against the pointwise order -/

/-- **Where the tests are the pointwise order.** For every two clocks: `happens_before` is the strict pointwise order
except from the empty map to a map of zeros; `compare_clocks` says `Equal` of the clocks that agree everywhere except
when only one of them has an entry for some region; and a clock is before or equal to its merge with another one
except when that one brings new regions and no greater counter to a clock that has some region. -/
theorem clock_tests_pointwise_iff (a b : VectorClock) :
    ((a.happensBefore b = true ↔
        (∀ region, a.get region ≤ b.get region) ∧ ∃ region, a.get region < b.get region) ↔
      ¬ (a.regions = ∅ ∧ b.regions ≠ ∅ ∧ ∀ region, b.get region = 0)) ∧
    ((compareClocks a b = .equal ↔ ∀ region, a.get region = b.get region) ↔
      ((∀ region, a.get region = b.get region) → a.regions = b.regions)) ∧
    (a.happensBeforeOrEqual (a.merge b) = true ↔
      a.regions = ∅ ∨ b.regions ⊆ a.regions ∨ ∃ region, a.get region < b.get region) :=
  ⟨a.happensBefore_pointwise_iff b, a.agree_pointwise_iff b, a.merge_not_before_iff b⟩

/-- All three fail on clocks that differ by a region at 0: `new()` against `with_regions(["a"])`, and `{a: 1}` merged
with `with_regions(["b"])`. -/
theorem zero_entries_are_not_absent :
    (VectorClock.new.happensBefore (.withRegions ["a"]) = true ∧
      ∀ region, ¬ VectorClock.new.get region < (VectorClock.withRegions ["a"]).get region) ∧
    (compareClocks .new (.withRegions ["a"]) ≠ .equal ∧
      ∀ region, VectorClock.new.get region = (VectorClock.withRegions ["a"]).get region) ∧
    (VectorClock.new.increment "a").happensBeforeOrEqual
      ((VectorClock.new.increment "a").merge (.withRegions ["b"])) = false := by
  refine ⟨⟨by decide, fun _ => UInt64.lt_irrefl _⟩, ⟨by decide, fun _ => rfl⟩, ?_⟩
  rw [← Bool.not_eq_true, VectorClock.merge_not_before_iff]
  rintro (h | h | ⟨region, hlt⟩)
  · exact absurd h (by decide)
  · exact absurd h (by decide)
  · exact UInt64.not_lt.mpr UInt64.zero_le hlt

end WarmLogic.Federation
