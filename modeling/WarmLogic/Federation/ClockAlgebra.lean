/-
# WarmLogic.Federation.ClockAlgebra — the algebra of the clocks that a program can build.

A program makes clocks with `new`, advances them with `increment` and `tick` and joins them with `merge`. `ClockPool` is
what it has made so far, with the number of increments it has spent. Below 2^64 increments no counter wraps, so every
region of such a clock has a positive counter (`clocksCounted_of_reachable`), the tests of `ClockOrder` are the
pointwise order, and `merge` is its join (`clock_algebra`).
-/
import WarmLogic.Federation.ClockOrder
import WarmLogic.Lib.Run

namespace WarmLogic.Federation

open WarmLogic.Lib

/-! ## Building clocks -/

/-- `tick`: a copy with one region incremented. -/
def VectorClock.tick (c : VectorClock) (region : String) : VectorClock := c.increment region

/-- The clocks a program has made, and how often it has incremented one. -/
structure ClockPool where
  clocks : List VectorClock
  increments : Nat

/-- A call on clocks of the pool, by their positions. -/
inductive ClockOp where
  | new
  | increment (i : Nat) (region : String)
  | tick (i : Nat) (region : String)
  | merge (i j : Nat)

/-- `increment` changes a clock in place, the other calls make a new one. -/
def clockRuns : System ClockPool ClockOp where
  init pool := pool = ⟨[], 0⟩
  step
    | .new, pool => some ⟨.new :: pool.clocks, pool.increments⟩
    | .increment i region, pool =>
        pool.clocks[i]?.map fun c => ⟨pool.clocks.set i (c.increment region), pool.increments + 1⟩
    | .tick i region, pool => pool.clocks[i]?.map fun c => ⟨c.tick region :: pool.clocks, pool.increments + 1⟩
    | .merge i j, pool =>
        pool.clocks[i]?.bind fun c => pool.clocks[j]?.map fun other => ⟨c.merge other :: pool.clocks, pool.increments⟩

/-! ## No counter wraps -/

/-- The regions of the clock are those with a positive counter. -/
def VectorClock.Positive (c : VectorClock) : Prop := ∀ region ∈ c.regions, 0 < c.get region

/-- No counter is above the number of increments spent. -/
def VectorClock.Within (c : VectorClock) (n : Nat) : Prop := ∀ region, (c.get region).toNat ≤ n

/-- **`ClocksCounted pool`** — as long as the increments fit a `u64`, every clock is positive and within them. -/
def ClocksCounted (pool : ClockPool) : Prop :=
  pool.increments < 2 ^ 64 → ∀ c ∈ pool.clocks, c.Positive ∧ c.Within pool.increments

namespace VectorClock

variable {a b c : VectorClock}

/-- More increments spent, and no counter is above them still. -/
theorem Within.mono {n m : Nat} (h : c.Within n) (hle : n ≤ m) : c.Within m :=
  fun region => (h region).trans hle

/-- The empty clock has no counters. -/
theorem within_new : VectorClock.new.Within 0 := fun _ => Nat.le_refl 0

/-- And no regions. -/
theorem positive_new : VectorClock.new.Positive := fun _ h => absurd h (Finset.notMem_empty _)

/-- An increment adds one, and wraps. -/
theorem get_increment_self (c : VectorClock) (region : String) :
    (c.increment region).get region = c.get region + 1 := Function.update_self _ _ _

/-- Within the bound it does not wrap. -/
theorem toNat_get_increment {n : Nat} (h : c.Within n) (hn : n + 1 < 2 ^ 64) (region : String) :
    ((c.increment region).get region).toNat = (c.get region).toNat + 1 := by
  rw [get_increment_self, UInt64.toNat_add]
  have hle := h region
  exact Nat.mod_eq_of_lt (by show _ + 1 < 2 ^ 64; omega)

/-- An increment spends one more, so the counters are within. -/
theorem Within.increment {n : Nat} (h : c.Within n) (hn : n + 1 < 2 ^ 64) (region : String) :
    (c.increment region).Within (n + 1) := by
  intro other
  by_cases hother : other = region
  · subst hother
    rw [toNat_get_increment h hn]
    exact Nat.succ_le_succ (h other)
  · rw [increment_get_of_ne c hother]
    exact (h other).trans (Nat.le_succ n)

/-- A counter that is incremented is positive, as it does not wrap to 0. -/
theorem Positive.increment {n : Nat} (hpos : c.Positive) (h : c.Within n) (hn : n + 1 < 2 ^ 64) (region : String) :
    (c.increment region).Positive := by
  intro other hmem
  by_cases hother : other = region
  · subst hother
    rw [UInt64.lt_iff_toNat_lt, toNat_get_increment h hn]
    exact Nat.succ_pos _
  · rw [increment_get_of_ne c hother]
    exact hpos other (Finset.mem_of_mem_insert_of_ne hmem hother)

/-- A greater one of two counters is one of them. -/
theorem Within.merge {n : Nat} (ha : a.Within n) (hb : b.Within n) : (a.merge b).Within n := by
  intro region
  rw [get_merge]
  split
  · exact hb region
  · exact ha region

/-- And the regions of a join are those of the two clocks. -/
theorem Positive.merge (ha : a.Positive) (hb : b.Positive) : (a.merge b).Positive := by
  intro region hmem
  rcases Finset.mem_union.mp hmem with hmem | hmem
  · exact UInt64.lt_of_lt_of_le (ha region hmem) (le_merge_left a b region)
  · exact UInt64.lt_of_lt_of_le (hb region hmem) (le_merge_right a b region)

end VectorClock

/-- An empty pool has no clocks. -/
theorem clocksCounted_init : ClocksCounted ⟨[], 0⟩ := fun _ _ hc => absurd hc List.not_mem_nil

/-- **The step lemma**, one case for each call. -/
theorem clocksCounted_step {pool pool' : ClockPool} {op : ClockOp} (h : ClocksCounted pool)
    (hstep : clockRuns.step op pool = some pool') : ClocksCounted pool' := by
  cases op with
  | new =>
      cases hstep
      intro hlt
      have hold := h hlt
      refine List.forall_mem_cons.mpr ⟨⟨VectorClock.positive_new, ?_⟩, hold⟩
      exact VectorClock.within_new.mono (Nat.zero_le _)
  | increment i region =>
      obtain ⟨c, hc, rfl⟩ := Option.map_eq_some_iff.mp hstep
      intro hlt
      have hold := h (Nat.lt_of_succ_lt hlt)
      obtain ⟨hpos, hwithin⟩ := hold c (List.mem_of_getElem? hc)
      intro d hd
      rcases List.mem_or_eq_of_mem_set hd with hd | rfl
      · exact ⟨(hold d hd).1, (hold d hd).2.mono (Nat.le_succ _)⟩
      · exact ⟨hpos.increment hwithin hlt region, hwithin.increment hlt region⟩
  | tick i region =>
      obtain ⟨c, hc, rfl⟩ := Option.map_eq_some_iff.mp hstep
      intro hlt
      have hold := h (Nat.lt_of_succ_lt hlt)
      obtain ⟨hpos, hwithin⟩ := hold c (List.mem_of_getElem? hc)
      refine List.forall_mem_cons.mpr ⟨⟨hpos.increment hwithin hlt region, hwithin.increment hlt region⟩, ?_⟩
      exact fun d hd => ⟨(hold d hd).1, (hold d hd).2.mono (Nat.le_succ _)⟩
  | merge i j =>
      obtain ⟨c, hc, hstep⟩ := Option.bind_eq_some_iff.mp hstep
      obtain ⟨other, hother, rfl⟩ := Option.map_eq_some_iff.mp hstep
      intro hlt
      have hold := h hlt
      obtain ⟨hpos, hwithin⟩ := hold c (List.mem_of_getElem? hc)
      obtain ⟨hpos', hwithin'⟩ := hold other (List.mem_of_getElem? hother)
      exact List.forall_mem_cons.mpr ⟨⟨hpos.merge hpos', hwithin.merge hwithin'⟩, hold⟩

/-- **The run lemma**: all clocks a program makes are counted. -/
theorem clocksCounted_of_reachable {pool : ClockPool} (h : clockRuns.Reachable (fun _ _ => True) pool) :
    ClocksCounted pool := by
  refine System.Reachable.invariant (P := ClocksCounted) ?_ ?_ h
  · rintro pool rfl
    exact clocksCounted_init
  · exact fun pool op pool' h _ hstep => clocksCounted_step h hstep

/-! ## The order and its join -/

namespace VectorClock

variable {a b c : VectorClock}

/-- Clocks at or below each other have the same counters. -/
theorem Le.antisymm (hab : a.Le b) (hba : b.Le a) (region : String) : a.get region = b.get region :=
  UInt64.le_antisymm (hab region) (hba region)

/-- The join is below every clock that is above both. -/
theorem merge_le (hac : a.Le c) (hbc : b.Le c) : (a.merge b).Le c := by
  intro region
  rw [get_merge]
  split
  · exact hbc region
  · exact hac region

/-- Clocks with positive counters that agree everywhere are equal. -/
theorem Positive.eq_of_get (ha : a.Positive) (hb : b.Positive) (hget : ∀ region, a.get region = b.get region) :
    a = b := by
  have hregions : ∀ {d : VectorClock}, d.Positive → ∀ region, region ∈ d.regions ↔ 0 < d.get region := by
    intro d hd region
    refine ⟨hd region, fun hpos => ?_⟩
    by_contra hmem
    rw [d.get_eq_zero region hmem] at hpos
    exact UInt64.lt_irrefl _ hpos
  refine VectorClock.ext (Finset.ext fun region => ?_) (funext hget)
  rw [hregions ha, hregions hb, hget region]

/-- On clocks with positive counters `happens_before_or_equal` is the pointwise order. -/
theorem Positive.happensBeforeOrEqual_iff (ha : a.Positive) (hb : b.Positive) :
    a.happensBeforeOrEqual b = true ↔ a.Le b := by
  unfold happensBeforeOrEqual
  rw [Bool.or_eq_true, decide_eq_true_eq]
  constructor
  · rintro (rfl | h)
    · exact Le.refl a
    · exact le_of_happensBefore h
  · intro hle
    by_cases hlt : ∃ region, a.get region < b.get region
    · exact .inr (happensBefore_of_lt ⟨hle, hlt⟩)
    · left
      refine ha.eq_of_get hb (Le.antisymm hle fun region => ?_)
      exact UInt64.not_lt.mp fun h => hlt ⟨region, h⟩

/-! ### `merge`, for any clocks -/

/-- The join is commutative. -/
theorem merge_comm (a b : VectorClock) : a.merge b = b.merge a := by
  refine VectorClock.ext (Finset.union_comm _ _) (funext fun region => ?_)
  exact UInt64.le_antisymm (merge_le (le_merge_right b a) (le_merge_left b a) region)
    (merge_le (le_merge_right a b) (le_merge_left a b) region)

/-- And associative. -/
theorem merge_assoc (a b c : VectorClock) : (a.merge b).merge c = a.merge (b.merge c) := by
  refine VectorClock.ext (Finset.union_assoc _ _ _) (funext fun region => UInt64.le_antisymm ?_ ?_)
  · refine merge_le (merge_le (le_merge_left _ _) ?_) ?_ region
    · exact (le_merge_left b c).trans (le_merge_right _ _)
    · exact (le_merge_right b c).trans (le_merge_right _ _)
  · refine merge_le ?_ (merge_le ?_ (le_merge_right _ _)) region
    · exact (le_merge_left a b).trans (le_merge_left _ _)
    · exact (le_merge_right a b).trans (le_merge_left _ _)

/-- A clock joined with itself is itself. -/
theorem merge_self (a : VectorClock) : a.merge a = a :=
  VectorClock.ext (Finset.union_self _) (funext fun region =>
    UInt64.le_antisymm (merge_le (Le.refl a) (Le.refl a) region) (le_merge_left a a region))

end VectorClock

/-! ## The four answers -/

/-- What each answer of `compare_clocks` says, by the tests that the type offers for it. -/
def Ordered (a b : VectorClock) : CausalOrder → Prop
  | .before => a.happensBefore b = true
  | .after => b.happensBefore a = true
  | .concurrent => a.isConcurrent b = true
  | .equal => a = b

variable {a b c : VectorClock}

/-- `After` is `Before`, seen from the other side. -/
theorem compareClocks_eq_after : compareClocks a b = .after ↔ b.happensBefore a = true := by
  unfold compareClocks
  by_cases heq : a = b
  · subst heq
    simp [VectorClock.happensBefore_irrefl]
  · by_cases hab : a.happensBefore b = true
    · simp [heq, hab, VectorClock.happensBefore_asymm hab]
    · simp [heq, hab]

/-- `Equal` is equality of the clocks. -/
theorem compareClocks_eq_equal : compareClocks a b = .equal ↔ a = b := by
  unfold compareClocks
  by_cases heq : a = b
  · simp [heq]
  · simp only [heq, if_false, iff_false]
    split
    · simp
    · split <;> simp

/-- The answer of `compare_clocks` is the one that holds. -/
theorem ordered_iff_compareClocks (a b : VectorClock) (order : CausalOrder) :
    Ordered a b order ↔ compareClocks a b = order := by
  cases order with
  | before => exact compareClocks_eq_before.symm
  | after => exact compareClocks_eq_after.symm
  | equal => exact compareClocks_eq_equal.symm
  | concurrent =>
      rw [compareClocks_eq_concurrent]
      show a.isConcurrent b = true ↔ _
      unfold VectorClock.isConcurrent
      simp only [Bool.and_eq_true, Bool.not_eq_true', decide_eq_true_eq, Bool.not_eq_true]
      exact ⟨fun h => ⟨h.2, h.1.1, h.1.2⟩, fun h => ⟨⟨h.2.1, h.2.2⟩, h.1⟩⟩

/-- **The algebra of vector clocks.** For any three clocks a program has built with fewer than 2^64 increments:
`happens_before` is irreflexive and transitive; `Before` one way is `After` the other way; exactly one of the four
answers holds, and it is the one `compare_clocks` gives; and `merge` is commutative, associative, idempotent and the
least upper bound for `happens_before_or_equal`. -/
theorem clock_algebra {pool : ClockPool} (hpool : clockRuns.Reachable (fun _ _ => True) pool)
    (hincrements : pool.increments < 2 ^ 64) (ha : a ∈ pool.clocks) (hb : b ∈ pool.clocks) (hc : c ∈ pool.clocks) :
    ¬ a.happensBefore a = true ∧
    (a.happensBefore b = true → b.happensBefore c = true → a.happensBefore c = true) ∧
    (compareClocks a b = .before ↔ compareClocks b a = .after) ∧
    (∃! order, Ordered a b order) ∧ Ordered a b (compareClocks a b) ∧
    a.merge b = b.merge a ∧ (a.merge b).merge c = a.merge (b.merge c) ∧ a.merge a = a ∧
    a.happensBeforeOrEqual (a.merge b) = true ∧ b.happensBeforeOrEqual (a.merge b) = true ∧
    (a.happensBeforeOrEqual c = true → b.happensBeforeOrEqual c = true →
      (a.merge b).happensBeforeOrEqual c = true) := by
  have hcounted := clocksCounted_of_reachable hpool hincrements
  have hpa := (hcounted a ha).1
  have hpb := (hcounted b hb).1
  have hpc := (hcounted c hc).1
  refine ⟨a.happensBefore_irrefl, VectorClock.happensBefore_trans, ?_, ?_, (ordered_iff_compareClocks a b _).mpr rfl,
    a.merge_comm b, a.merge_assoc b c, a.merge_self, ?_, ?_, ?_⟩
  · rw [compareClocks_eq_before, compareClocks_eq_after]
  · refine ⟨compareClocks a b, (ordered_iff_compareClocks a b _).mpr rfl, fun order horder => ?_⟩
    exact ((ordered_iff_compareClocks a b order).mp horder).symm
  · exact (hpa.happensBeforeOrEqual_iff (hpa.merge hpb)).mpr (a.le_merge_left b)
  · exact (hpb.happensBeforeOrEqual_iff (hpa.merge hpb)).mpr (a.le_merge_right b)
  · rw [hpa.happensBeforeOrEqual_iff hpc, hpb.happensBeforeOrEqual_iff hpc,
      (hpa.merge hpb).happensBeforeOrEqual_iff hpc]
    exact VectorClock.merge_le

/-- Two clocks that were incremented apart are joined above both. -/
theorem clock_algebra_two_regions :
    (VectorClock.new.tick "a").happensBeforeOrEqual ((VectorClock.new.tick "a").merge (VectorClock.new.tick "b")) = true ∧
    compareClocks (VectorClock.new.tick "a") (VectorClock.new.tick "b") = .concurrent := by
  have hnew : clockRuns.Run (fun _ _ => True) [⟨[.new], 0⟩, ⟨[], 0⟩] := .step (.init rfl) (a := .new) trivial rfl
  have htick := System.Run.step hnew (a := .tick 0 "a") trivial rfl
  have hpool := System.Run.step htick (a := .tick 1 "b") trivial rfl
  have hlaws := clock_algebra ⟨_, hpool⟩ (by decide) (a := VectorClock.new.tick "a") (b := VectorClock.new.tick "b")
    (c := VectorClock.new) (by simp) (by simp) (by simp)
  exact ⟨hlaws.2.2.2.2.2.2.2.2.1, by decide⟩

end WarmLogic.Federation
