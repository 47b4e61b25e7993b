/-
# WarmLogic.Federation.VectorClock — the vector clocks of `federation/vector_clock.rs`, and their causal order.

A clock is a finite map from region ids to `u64` counters; the model keeps its set of regions and a total `get`
that is 0 outside it, so two clocks are equal exactly when the maps are. `happens_before` treats an empty clock
apart: it is before every clock that has a region, also one whose counters are all 0. Elsewhere it is the strict
order of the `get` functions. It is a strict partial order all the same (`happensBefore_trans`,
`happensBefore_irrefl`), which is what the results on state synchronisation rest on.
-/
import WarmLogic.Lib.Bytes
import Mathlib.Data.Finset.Card
import Mathlib.Logic.Function.Basic

namespace WarmLogic.Federation

open WarmLogic.Lib

/-! ## Clocks -/

/-- `VectorClock`: the regions that have an entry, and the counter of each. -/
@[ext] structure VectorClock where
  regions : Finset String
  get : String → UInt64
  get_eq_zero : ∀ region, region ∉ regions → get region = 0

namespace VectorClock

/-- Clocks are equal if their regions and counters are. -/
theorem eq_iff {a b : VectorClock} : a = b ↔ a.regions = b.regions ∧ ∀ r ∈ a.regions, a.get r = b.get r := by
  constructor
  · rintro rfl
    exact ⟨rfl, fun _ _ => rfl⟩
  · rintro ⟨hregions, hget⟩
    refine VectorClock.ext hregions (funext fun r => ?_)
    by_cases hr : r ∈ a.regions
    · exact hget r hr
    · rw [a.get_eq_zero r hr, b.get_eq_zero r (hregions ▸ hr)]

instance : DecidableEq VectorClock := fun _ _ => decidable_of_iff _ eq_iff.symm

/-- The empty clock. -/
def new : VectorClock where
  regions := ∅
  get _ := 0
  get_eq_zero _ _ := rfl

/-- `increment`: the counter of the region wraps. -/
def increment (c : VectorClock) (region : String) : VectorClock where
  regions := insert region c.regions
  get := Function.update c.get region (c.get region + 1)
  get_eq_zero r hr := by
    have hne : r ≠ region := fun h => hr (h ▸ Finset.mem_insert_self _ _)
    rw [Function.update_of_ne hne]
    exact c.get_eq_zero r fun h => hr (Finset.mem_insert_of_mem h)

/-- `merge`: the greater counter of each region; a region of one clock only keeps its own. -/
def merge (c other : VectorClock) : VectorClock where
  regions := c.regions ∪ other.regions
  get r := max (c.get r) (other.get r)
  get_eq_zero r hr := by
    rw [Finset.notMem_union] at hr
    rw [c.get_eq_zero r hr.1, other.get_eq_zero r hr.2]
    rfl

/-- `happens_before`. The first loop of the source returns at a counter that is greater on the left. -/
def happensBefore (c other : VectorClock) : Bool :=
  if c.regions = ∅ ∧ other.regions ≠ ∅ then true
  else if c.regions = ∅ ∧ other.regions = ∅ then false
  else if ∃ r ∈ c.regions, other.get r < c.get r then false
  else decide ((∃ r ∈ c.regions, c.get r < other.get r) ∨ ∃ r ∈ other.regions, r ∉ c.regions ∧ 0 < other.get r)

/-- `to_bytes`; the map is walked in the given order of its regions. -/
def toBytes (c : VectorClock) (order : List String) : List UInt8 :=
  leBytes 4 c.regions.card ++ order.flatMap fun region =>
    leBytes 2 region.utf8ByteSize ++ region.toUTF8.toList ++ leBytes 8 (c.get region).toNat

/-! ## The causal order -/

/-- What is above something is above 0. -/
theorem pos_of_lt {x y : UInt64} (h : x < y) : 0 < y := by
  rw [UInt64.lt_iff_toNat_lt] at h ⊢
  exact Nat.lt_of_le_of_lt (Nat.zero_le _) h

/-- A clock with a positive counter has a region. -/
theorem regions_ne_empty {c : VectorClock} {r : String} (h : 0 < c.get r) : c.regions ≠ ∅ := by
  intro hempty
  rw [c.get_eq_zero r (hempty ▸ Finset.notMem_empty r)] at h
  exact UInt64.lt_irrefl _ h

/-- What `happens_before` decides. -/
theorem happensBefore_iff {c other : VectorClock} :
    c.happensBefore other = true ↔
      (c.regions = ∅ ∧ other.regions ≠ ∅) ∨
        (c.regions ≠ ∅ ∧ (∀ r, c.get r ≤ other.get r) ∧ ∃ r, c.get r < other.get r) := by
  unfold happensBefore
  by_cases hempty : c.regions = ∅
  · by_cases hother : other.regions = ∅
    · simp [hempty, hother]
    · simp [hempty, hother]
  · rw [if_neg (fun h => hempty h.1), if_neg (fun h => hempty h.1)]
    split
    · rename_i habove
      obtain ⟨r, -, hr⟩ := habove
      refine iff_of_false Bool.false_ne_true ?_
      rintro (h | ⟨-, hle, -⟩)
      · exact hempty h.1
      · exact UInt64.not_lt.mpr (hle r) hr
    · rename_i habove
      have hle : ∀ r, c.get r ≤ other.get r := by
        intro r
        by_cases hr : r ∈ c.regions
        · exact UInt64.not_lt.mp fun h => habove ⟨r, hr, h⟩
        · rw [c.get_eq_zero r hr]
          exact UInt64.zero_le
      rw [decide_eq_true_eq]
      constructor
      · rintro (⟨r, -, hr⟩ | ⟨r, -, hnot, hr⟩)
        · exact .inr ⟨hempty, hle, r, hr⟩
        · refine .inr ⟨hempty, hle, r, ?_⟩
          rw [c.get_eq_zero r hnot]
          exact hr
      · rintro (h | ⟨-, -, r, hr⟩)
        · exact absurd h.1 hempty
        · by_cases hmem : r ∈ c.regions
          · exact .inl ⟨r, hmem, hr⟩
          · right
            rw [c.get_eq_zero r hmem] at hr
            refine ⟨r, ?_, hmem, hr⟩
            by_contra hnot
            rw [other.get_eq_zero r hnot] at hr
            exact UInt64.lt_irrefl _ hr

/-- No clock is before itself. -/
theorem happensBefore_irrefl (c : VectorClock) : ¬ c.happensBefore c = true := by
  rw [happensBefore_iff]
  rintro (⟨hempty, hne⟩ | ⟨-, -, r, hr⟩)
  · exact hne hempty
  · exact UInt64.lt_irrefl _ hr

/-- `happens_before` is transitive, empty clocks included. -/
theorem happensBefore_trans {a b c : VectorClock} (hab : a.happensBefore b = true) (hbc : b.happensBefore c = true) :
    a.happensBefore c = true := by
  rw [happensBefore_iff] at hab hbc ⊢
  rcases hbc with ⟨hb, -⟩ | ⟨-, hlebc, r, hr⟩
  · -- nothing is before the empty clock
    rcases hab with ⟨-, hne⟩ | ⟨-, -, r, hr⟩
    · exact absurd hb hne
    · exact absurd hb (regions_ne_empty (pos_of_lt hr))
  · rcases hab with ⟨ha, -⟩ | ⟨ha, hleab, -⟩
    · exact .inl ⟨ha, regions_ne_empty (pos_of_lt hr)⟩
    · refine .inr ⟨ha, fun s => UInt64.le_trans (hleab s) (hlebc s), r, ?_⟩
      exact UInt64.lt_of_le_of_lt (hleab r) hr

/-- Nor are two clocks before each other. -/
theorem happensBefore_asymm {a b : VectorClock} (hab : a.happensBefore b = true) : ¬ b.happensBefore a = true :=
  fun hba => happensBefore_irrefl a (happensBefore_trans hab hba)

end VectorClock

/-! ## Comparison -/

/-- `CausalOrder`. -/
inductive CausalOrder where
  | before
  | after
  | concurrent
  | equal
  deriving DecidableEq

/-- `compare_clocks`, by the tests in the order of the source. -/
def compareClocks (a b : VectorClock) : CausalOrder :=
  if a = b then .equal
  else if a.happensBefore b then .before
  else if b.happensBefore a then .after
  else .concurrent

variable {a b : VectorClock}

/-- `Before` is `happens_before`. -/
theorem compareClocks_eq_before : compareClocks a b = .before ↔ a.happensBefore b = true := by
  unfold compareClocks
  by_cases heq : a = b
  · subst heq
    simp [VectorClock.happensBefore_irrefl]
  · by_cases hab : a.happensBefore b = true
    · simp [heq, hab]
    · by_cases hba : b.happensBefore a = true
      · simp [heq, hab, hba]
      · simp [heq, hab, hba]

/-- `Concurrent`: different, and neither is before the other. -/
theorem compareClocks_eq_concurrent :
    compareClocks a b = .concurrent ↔
      a ≠ b ∧ ¬ a.happensBefore b = true ∧ ¬ b.happensBefore a = true := by
  unfold compareClocks
  by_cases heq : a = b
  · simp [heq]
  · by_cases hab : a.happensBefore b = true
    · simp [heq, hab]
    · by_cases hba : b.happensBefore a = true
      · simp [heq, hab, hba]
      · simp [heq, hab, hba]

end WarmLogic.Federation
