/-
# WarmLogic.Execution.DependencyTracker — the tracker of `parallel.rs`, and when it reports a block as ready.

The tracker keeps, for each pending block, the dependencies that it still waits for. Those that were completed before the
block was registered are left out at once, the others are taken out as they complete.

Seen from outside it is simpler (`tracker_refines`): it might as well keep the dependencies as they were named and the set
of all completed blocks, and report a block at the first completion at which all of its dependencies are among them. A
block that waits for nothing is pending too, and is reported at the next completion of any block.
-/
import WarmLogic.Lib.Service
import Mathlib.Data.Finset.Basic

namespace WarmLogic.Execution

open WarmLogic.Lib

/-- `pending` lists the entries of the map, no two of one block. -/
structure DependencyTracker where
  pending : List (String × Finset String)
  completed : Finset String

namespace DependencyTracker

def new : DependencyTracker := ⟨[], ∅⟩

def register (t : DependencyTracker) (id : String) (deps : List String) : DependencyTracker :=
  let depSet := (deps.filter fun dep => dep ∉ t.completed).toFinset
  { t with pending := t.pending.filter (fun entry => entry.1 ≠ id) ++ [(id, depSet)] }

/-- The order of the list returned is that of the map, which may be any. -/
def complete (t : DependencyTracker) (id : String) : DependencyTracker × List String :=
  let pending := t.pending.map fun entry => (entry.1, entry.2.erase id)
  let ready := (pending.filter fun entry => entry.2 = ∅).map Prod.fst
  (⟨pending.filter fun entry => entry.1 ∉ ready, insert id t.completed⟩, ready)

end DependencyTracker

inductive TrackerCall where
  | register (id : String) (deps : List String)
  | complete (id : String)

def DependencyTracker.call (t : DependencyTracker) : TrackerCall → DependencyTracker × List String
  | .register id deps => (t.register id deps, [])
  | .complete id => t.complete id

/-! ## What the tracker is for -/

/-- The dependencies of each block that is not yet reported, as they were named, and all completed blocks. -/
structure Waiting where
  deps : String → Option (List String)
  completed : Finset String

namespace Waiting

def new : Waiting := ⟨fun _ => none, ∅⟩

/-- The block has not been reported, and all of its dependencies are completed. -/
def Ready (w : Waiting) (id : String) : Prop := ∃ deps, w.deps id = some deps ∧ ∀ dep ∈ deps, dep ∈ w.completed

open Classical in
/-- A completion is answered with all blocks that are ready then. -/
noncomputable def call (w : Waiting) : TrackerCall → Waiting × Set String
  | .register id deps => (⟨fun b => if b = id then some deps else w.deps b, w.completed⟩, ∅)
  | .complete id =>
      let w := { w with completed := insert id w.completed }
      (⟨fun b => if w.Ready b then none else w.deps b, w.completed⟩, {b | w.Ready b})

end Waiting

/-! ## The refinement -/

/-- Each entry has what is left of the dependencies that were named. -/
structure Tracks (t : DependencyTracker) (w : Waiting) : Prop where
  completed : t.completed = w.completed
  nodup : (t.pending.map Prod.fst).Nodup
  entries : ∀ id left, (id, left) ∈ t.pending ↔ ∃ deps, w.deps id = some deps ∧
    left = (deps.filter fun dep => dep ∉ w.completed).toFinset

theorem Tracks.register {t : DependencyTracker} {w : Waiting} (h : Tracks t w) (id : String) (deps : List String) :
    Tracks (t.register id deps) (w.call (.register id deps)).1 := by
  refine ⟨h.completed, ?_, fun b left => ?_⟩
  · show ((t.pending.filter _ ++ [_]).map Prod.fst).Nodup
    rw [List.map_append, List.nodup_append]
    refine ⟨h.nodup.sublist (List.filter_sublist.map _), List.nodup_singleton _, ?_⟩
    rintro a ha b hb rfl
    obtain ⟨entry, hentry, rfl⟩ := List.mem_map.mp ha
    have hne := of_decide_eq_true (List.mem_filter.mp hentry).2
    exact hne (List.mem_singleton.mp hb)
  · show (b, left) ∈ t.pending.filter _ ++ [(id, (deps.filter fun dep => dep ∉ t.completed).toFinset)] ↔
      ∃ deps', (if b = id then some deps else w.deps b) = some deps' ∧
        left = (deps'.filter fun dep => dep ∉ w.completed).toFinset
    rw [List.mem_append, List.mem_filter, List.mem_singleton, h.completed]
    by_cases hb : b = id
    · subst hb
      rw [if_pos rfl]
      constructor
      · rintro (⟨-, hne⟩ | heq)
        · exact absurd rfl (of_decide_eq_true hne)
        · exact ⟨deps, rfl, (Prod.mk.inj heq).2⟩
      · rintro ⟨deps', heq, rfl⟩
        obtain rfl := Option.some.inj heq
        exact .inr rfl
    · rw [if_neg hb, ← h.entries]
      constructor
      · rintro (⟨hmem, -⟩ | heq)
        · exact hmem
        · exact absurd (Prod.mk.inj heq).1 hb
      · exact fun hmem => .inl ⟨hmem, decide_eq_true hb⟩

/-- One dependency fewer is left when it completes. -/
theorem erase_left (deps : List String) (completed : Finset String) (id : String) :
    (deps.filter fun dep => dep ∉ completed).toFinset.erase id =
      (deps.filter fun dep => dep ∉ insert id completed).toFinset := by
  ext dep
  simp only [Finset.mem_erase, List.mem_toFinset, List.mem_filter, decide_eq_true_eq, Finset.mem_insert, not_or]
  exact ⟨fun ⟨hne, hmem, hout⟩ => ⟨hmem, hne, hout⟩, fun ⟨hmem, hne, hout⟩ => ⟨hne, hmem, hout⟩⟩

theorem left_eq_empty_iff {deps : List String} {completed : Finset String} :
    (deps.filter fun dep => dep ∉ completed).toFinset = ∅ ↔ ∀ dep ∈ deps, dep ∈ completed := by
  rw [List.toFinset_eq_empty_iff, List.filter_eq_nil_iff]
  exact forall₂_congr fun dep _ => by rw [decide_eq_true_eq, not_not]

open Classical in
/-- **A completion** reports the blocks that are ready, each once. -/
theorem Tracks.complete {t : DependencyTracker} {w : Waiting} (h : Tracks t w) (id : String) :
    Tracks (t.complete id).1 (w.call (.complete id)).1 ∧ (t.complete id).2.Nodup ∧
      ∀ b, b ∈ (t.complete id).2 ↔ b ∈ (w.call (.complete id)).2 := by
  -- what is pending once the dependency is taken out
  have hentries : ∀ b left, (b, left) ∈ t.pending.map (fun entry => (entry.1, entry.2.erase id)) ↔
      ∃ deps, w.deps b = some deps ∧ left = (deps.filter fun dep => dep ∉ insert id w.completed).toFinset := by
    intro b left
    rw [List.mem_map]
    constructor
    · rintro ⟨⟨b', left'⟩, hmem, heq⟩
      obtain ⟨rfl, rfl⟩ := Prod.mk.inj heq
      obtain ⟨deps, hdeps, rfl⟩ := (h.entries b' left').mp hmem
      exact ⟨deps, hdeps, erase_left deps w.completed id⟩
    · rintro ⟨deps, hdeps, rfl⟩
      exact ⟨(b, _), (h.entries b _).mpr ⟨deps, hdeps, rfl⟩, by rw [erase_left]⟩
  have hnodup : ((t.pending.map fun entry => (entry.1, entry.2.erase id)).map Prod.fst).Nodup := by
    rw [List.map_map]
    exact h.nodup
  have hready : ∀ b, b ∈ (t.complete id).2 ↔ Waiting.Ready { w with completed := insert id w.completed } b := by
    intro b
    show b ∈ ((t.pending.map _).filter _).map Prod.fst ↔ _
    rw [List.mem_map]
    constructor
    · rintro ⟨⟨b', left⟩, hmem, rfl⟩
      obtain ⟨hmem, hempty⟩ := List.mem_filter.mp hmem
      obtain ⟨deps, hdeps, rfl⟩ := (hentries b' left).mp hmem
      exact ⟨deps, hdeps, left_eq_empty_iff.mp (of_decide_eq_true hempty)⟩
    · rintro ⟨deps, hdeps, hall⟩
      refine ⟨(b, _), List.mem_filter.mpr ⟨(hentries b _).mpr ⟨deps, hdeps, rfl⟩, ?_⟩, rfl⟩
      exact decide_eq_true (left_eq_empty_iff.mpr hall)
  refine ⟨⟨?_, ?_, fun b left => ?_⟩, ?_, hready⟩
  · show insert id t.completed = insert id w.completed
    rw [h.completed]
  · exact hnodup.sublist (List.filter_sublist.map _)
  · show (b, left) ∈ (t.pending.map _).filter (fun entry => entry.1 ∉ (t.complete id).2) ↔
      ∃ deps, (if Waiting.Ready { w with completed := insert id w.completed } b then none else w.deps b) = some deps ∧ _
    rw [List.mem_filter, hentries, decide_eq_true_eq, hready]
    by_cases hb : Waiting.Ready { w with completed := insert id w.completed } b
    · rw [if_pos hb]
      exact iff_of_false (fun h => h.2 hb) fun ⟨_, h, _⟩ => by cases h
    · rw [if_neg hb]
      exact and_iff_left hb
  · exact hnodup.sublist (List.filter_sublist.map _)

/-- An answer lists a set, each element once. -/
def Lists (answer : List String) (blocks : Set String) : Prop := answer.Nodup ∧ ∀ b, b ∈ answer ↔ b ∈ blocks

/-- **The tracker reports exactly the blocks whose dependencies are all completed**: it answers every sequence of
registrations and completions as the waiting blocks with their dependencies as named and the set of all completed blocks
do. A block is reported once for each registration, and what it waited for may have been completed at any time before. -/
theorem tracker_refines (calls : List TrackerCall) :
    List.Forall₂ Lists (serve DependencyTracker.call .new calls).2 (serve Waiting.call .new calls).2 := by
  have hnew : Tracks .new .new := ⟨rfl, List.nodup_nil, fun id left =>
    iff_of_false List.not_mem_nil fun ⟨_, h, _⟩ => by cases h⟩
  have hstep : ∀ (t : DependencyTracker) (w : Waiting) (c : TrackerCall), Tracks t w → True →
      Tracks (t.call c).1 (w.call c).1 ∧ Lists (t.call c).2 (w.call c).2 := by
    intro t w c h _
    cases c with
    | register id deps => exact ⟨h.register id deps, List.nodup_nil, fun b => iff_of_false List.not_mem_nil fun h => h⟩
    | complete id => exact h.complete id
  exact (serve_simulates hstep (fun _ _ => trivial) hnew).2

end WarmLogic.Execution
