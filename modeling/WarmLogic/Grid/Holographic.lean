/-
# WarmLogic.Grid.Holographic — the holographic check of the state grid, and the verdict it returns.

`verify_holographic_consistency` of `merged_grid.rs` compares the shards with the roots registered for them, heals what
differs from the newest recovery marker of the shard, and returns whether the grid is consistent. The two `BTreeMap`s are
ordered maps; what the router prints about shards that stay broken is left out.

Two slips make the verdict wrong. The number of healed shards is compared with the number of ALL registered roots and not
with the number of shards that differed; and a shard counts as healed whatever root its marker carries. The exact condition
is `Decides` (`holographic_verdict_iff`). No sequence is ever lowered.

The loop over the shards that differ acts on each by itself: what a marker does to a shard depends on that shard and
its newest marker only (`healStep_spec`), so afterwards each has been raised or not (`foldl_healStep`). What the
verdict counts, and what is consistent, are then both statements about single shards, and the condition compares the
two.
-/
import Mathlib.Data.UInt
import WarmLogic.Lib.MapSum
import WarmLogic.Lib.Selection

namespace WarmLogic.Grid

open WarmLogic.Lib (nodup_toList)
open WarmLogic.Lib.Selection

/-! ## The grid -/

/-- `[u8; 32]`. -/
abbrev StateRoot := Vector UInt8 32

/-- `Shard`, as far as the check reads it. -/
structure Shard where
  shardId : UInt32
  stateRoot : StateRoot
  sequence : UInt64
  deriving DecidableEq

/-- `RecoveryMarker`. -/
structure RecoveryMarker where
  shardId : UInt32
  stateRoot : StateRoot
  sequence : UInt64
  signature : Vector UInt8 64
  deriving DecidableEq

/-- The shards by their ids. -/
abbrev ShardMap := Std.TreeMap UInt32 Shard

/-- `HolographicEngine`: the registered roots and the markers. -/
structure HolographicEngine where
  neighborRoots : Std.TreeMap UInt32 StateRoot
  recoveryMarkers : List RecoveryMarker
  reconciliationActive : Bool

/-- The fields of `StateGrid` that the check reads and writes. -/
structure StateGrid where
  shards : ShardMap
  holographicEngine : HolographicEngine

/-- `heal_shard_with_marker`. -/
def healShardWithMarker (shards : ShardMap) (marker : RecoveryMarker) : ShardMap × Bool :=
  match shards[marker.shardId]? with
  | some shard =>
      if shard.sequence < marker.sequence then
        (shards.insert marker.shardId { shard with stateRoot := marker.stateRoot, sequence := marker.sequence }, true)
      else (shards, false)
  | none => (shards, false)

/-- When the loop over the markers of a shard replaces the best one so far. -/
def Better (shardId : UInt32) (bestMarker : Option RecoveryMarker) (marker : RecoveryMarker) : Prop :=
  marker.shardId = shardId ∧ ∀ best ∈ bestMarker, best.sequence < marker.sequence

instance (shardId : UInt32) (bestMarker : Option RecoveryMarker) (marker : RecoveryMarker) :
    Decidable (Better shardId bestMarker marker) :=
  inferInstanceAs (Decidable (_ ∧ _))

/-- The loop over the markers of a shard. -/
def bestMarker (markers : List RecoveryMarker) (shardId : UInt32) : Option RecoveryMarker :=
  select (Better shardId) none markers

namespace StateGrid

/-- The neighbour roots that the shard of the same id does not have. -/
def corruptedShards (grid : StateGrid) : List UInt32 :=
  (grid.holographicEngine.neighborRoots.toList.filter fun p =>
    match grid.shards[p.1]? with
    | some shard => shard.stateRoot != p.2
    | none => false).map (·.1)

/-- One round of the healing loop, on the shards and `local_healed`. -/
def healStep (markers : List RecoveryMarker) (acc : ShardMap × List UInt32) (shardId : UInt32) :
    ShardMap × List UInt32 :=
  match bestMarker markers shardId with
  | some marker =>
      let healed := healShardWithMarker acc.1 marker
      (healed.1, if healed.2 then acc.2 ++ [shardId] else acc.2)
  | none => acc

/-- `verify_holographic_consistency`: the grid after it, and the verdict. -/
def verifyHolographicConsistency (grid : StateGrid) : StateGrid × Bool :=
  if grid.corruptedShards.isEmpty then (grid, true)
  else if !grid.holographicEngine.reconciliationActive then (grid, false)
  else
    let healed := grid.corruptedShards.foldl (healStep grid.holographicEngine.recoveryMarkers) (grid.shards, [])
    ({ grid with shards := healed.1 }, healed.2.length == grid.holographicEngine.neighborRoots.size)

/-! ## What the check should say -/

/-- Every shard with a registered root has this root. -/
def Consistent (grid : StateGrid) : Prop :=
  ∀ (id : UInt32) (shard : Shard) (root : StateRoot), grid.shards[id]? = some shard →
    grid.holographicEngine.neighborRoots[id]? = some root → shard.stateRoot = root

/-- No shard is lost, and none goes back in its sequence. -/
def NeverLowers (before after : StateGrid) : Prop :=
  ∀ (id : UInt32) (shard : Shard), before.shards[id]? = some shard →
    ∃ shard' : Shard, after.shards[id]? = some shard' ∧ shard.sequence ≤ shard'.sequence

/-- A shard that differs from the root registered for it. -/
def Corrupted (grid : StateGrid) (id : UInt32) : Prop :=
  ∃ shard root, grid.shards[id]? = some shard ∧ grid.holographicEngine.neighborRoots[id]? = some root ∧
    shard.stateRoot ≠ root

/-- The first marker of the shard whose sequence no other marker of it exceeds. -/
def newestMarker (grid : StateGrid) (id : UInt32) : Option RecoveryMarker :=
  grid.holographicEngine.recoveryMarkers.find? fun marker => marker.shardId = id ∧
    ∀ other ∈ grid.holographicEngine.recoveryMarkers, other.shardId = id → other.sequence ≤ marker.sequence

/-- There is a marker ahead of the shard. -/
def Healable (grid : StateGrid) (id : UInt32) : Prop :=
  ∃ shard marker, grid.shards[id]? = some shard ∧ grid.newestMarker id = some marker ∧ shard.sequence < marker.sequence

/-- The newest marker carries the root registered for the shard. -/
def MarkerAgrees (grid : StateGrid) (id : UInt32) : Prop :=
  ∃ marker, grid.newestMarker id = some marker ∧
    grid.holographicEngine.neighborRoots[id]? = some marker.stateRoot

/-- **The grids on which the verdict is right.** Nothing is healed, since reconciliation is off or no shard differs; or some
shard that differs cannot be healed; or, where all can be, every registered root differs from its shard exactly if
every marker used carries the registered root. -/
def Decides (grid : StateGrid) : Prop :=
  grid.holographicEngine.reconciliationActive = true → (∃ id, grid.Corrupted id) →
    (∀ id, grid.Corrupted id → grid.Healable id) →
      ((∀ id, id ∈ grid.holographicEngine.neighborRoots → grid.Corrupted id) ↔
        ∀ id, grid.Corrupted id → grid.MarkerAgrees id)

end StateGrid

/-! ## The best marker -/

/-- The loop over the markers, so far. -/
structure BestOf (markers : List RecoveryMarker) (id : UInt32) (best : Option RecoveryMarker) : Prop where
  none : best = none → ∀ m ∈ markers, m.shardId ≠ id
  some : ∀ w, best = some w → w.shardId = id ∧ (∀ m ∈ markers, m.shardId = id → m.sequence ≤ w.sequence) ∧
    ∃ pre post, markers = pre ++ w :: post ∧ ∀ m ∈ pre, m.shardId = id → m.sequence < w.sequence

/-- One marker more. -/
theorem BestOf.step {markers : List RecoveryMarker} {id : UInt32} {best : Option RecoveryMarker}
    (h : BestOf markers id best) (marker : RecoveryMarker) :
    BestOf (markers ++ [marker]) id (challenge (Better id) best marker) := by
  unfold challenge
  by_cases hbetter : Better id best marker
  · rw [if_pos hbetter]
    obtain ⟨hid, hahead⟩ := hbetter
    have hbelow : ∀ m ∈ markers, m.shardId = id → m.sequence < marker.sequence := by
      intro m hm hmid
      cases best with
      | none => exact absurd hmid (h.none rfl m hm)
      | some w => exact UInt64.lt_of_le_of_lt ((h.some w rfl).2.1 m hm hmid) (hahead w rfl)
    refine ⟨fun hnone => absurd hnone (Option.some_ne_none _), ?_⟩
    rintro w ⟨⟩
    refine ⟨hid, ?_, markers, [], rfl, hbelow⟩
    intro m hm hmid
    rcases List.mem_append.mp hm with hm | hm
    · exact UInt64.le_of_lt (hbelow m hm hmid)
    · rw [List.mem_singleton.mp hm]
      exact UInt64.le_refl _
  · rw [if_neg hbetter]
    constructor
    · intro hnone m hm hmid
      rcases List.mem_append.mp hm with hm | hm
      · exact h.none hnone m hm hmid
      · refine hbetter ⟨by rw [← List.mem_singleton.mp hm]; exact hmid, ?_⟩
        rw [hnone]
        exact fun _ hbest => absurd hbest (Option.not_mem_none _)
    · intro w hw
      obtain ⟨hid, hle, pre, post, hsplit, hpre⟩ := h.some w hw
      refine ⟨hid, ?_, pre, post ++ [marker], by rw [hsplit, List.append_assoc, List.cons_append], hpre⟩
      intro m hm hmid
      rcases List.mem_append.mp hm with hm | hm
      · exact hle m hm hmid
      · rw [List.mem_singleton.mp hm] at hmid ⊢
        by_contra hlt
        refine hbetter ⟨hmid, ?_⟩
        rw [hw]
        rintro _ ⟨⟩
        exact UInt64.not_le.mp hlt

/-- The whole loop. -/
theorem bestOf_bestMarker (markers : List RecoveryMarker) (id : UInt32) :
    BestOf markers id (bestMarker markers id) := by
  induction markers using List.reverseRecOn with
  | nil => exact ⟨fun _ _ hm => absurd hm List.not_mem_nil, fun _ hw => absurd hw.symm (Option.some_ne_none _)⟩
  | append_singleton markers marker ih =>
      unfold bestMarker at ih ⊢
      rw [select_append]
      exact ih.step marker

/-- **The loop finds the newest marker**, and among equals the first. -/
theorem bestMarker_eq (grid : StateGrid) (id : UInt32) :
    bestMarker grid.holographicEngine.recoveryMarkers id = grid.newestMarker id := by
  have hbest := bestOf_bestMarker grid.holographicEngine.recoveryMarkers id
  unfold StateGrid.newestMarker
  cases hfound : bestMarker grid.holographicEngine.recoveryMarkers id with
  | none =>
      symm
      rw [List.find?_eq_none]
      intro m hm hnewest
      exact hbest.none hfound m hm (of_decide_eq_true hnewest).1
  | some w =>
      obtain ⟨hid, hle, pre, post, hsplit, hpre⟩ := hbest.some w hfound
      symm
      rw [List.find?_eq_some_iff_append]
      refine ⟨decide_eq_true ⟨hid, hle⟩, pre, post, hsplit, fun m hm => ?_⟩
      rw [Bool.not_eq_true', decide_eq_false_iff_not]
      rintro ⟨hmid, hmle⟩
      have hw : w ∈ grid.holographicEngine.recoveryMarkers := by
        rw [hsplit]
        exact List.mem_append_right _ List.mem_cons_self
      exact absurd (hmle w hw hid) (UInt64.not_le.mpr (hpre m hm hmid))

/-! ## Healing -/

/-- A shard after a marker was tried on it. -/
def Shard.raise (shard : Shard) (marker : RecoveryMarker) : Shard :=
  if shard.sequence < marker.sequence then { shard with stateRoot := marker.stateRoot, sequence := marker.sequence }
  else shard

/-- A marker never lowers a sequence. -/
theorem Shard.sequence_le_raise (shard : Shard) (marker : RecoveryMarker) :
    shard.sequence ≤ (shard.raise marker).sequence := by
  unfold Shard.raise
  split
  · next h => exact UInt64.le_of_lt h
  · exact UInt64.le_refl _

/-- A marker changes its own shard alone. -/
theorem healShardWithMarker_lookup (shards : ShardMap) (marker : RecoveryMarker) (k : UInt32) :
    (healShardWithMarker shards marker).1[k]? =
      if k = marker.shardId then shards[k]?.map (·.raise marker) else shards[k]? := by
  by_cases hk : k = marker.shardId
  · subst hk
    rw [if_pos rfl]
    unfold healShardWithMarker Shard.raise
    cases hshard : shards[marker.shardId]? with
    | none => exact hshard
    | some shard =>
        dsimp only [Option.map_some]
        split
        · rw [Std.TreeMap.getElem?_insert, if_pos (by simp)]
        · exact hshard
  · rw [if_neg hk]
    unfold healShardWithMarker
    split
    · split
      · rw [Std.TreeMap.getElem?_insert, if_neg (by simpa using Ne.symm hk)]
      · rfl
    · rfl

/-- It heals exactly if it is ahead of the shard. -/
theorem healShardWithMarker_eq_true_iff (shards : ShardMap) (marker : RecoveryMarker) :
    (healShardWithMarker shards marker).2 = true ↔
      ∃ shard : Shard, shards[marker.shardId]? = some shard ∧ shard.sequence < marker.sequence := by
  unfold healShardWithMarker
  cases shards[marker.shardId]? with
  | none => simp
  | some shard =>
      dsimp only
      split <;> simp [*]

namespace StateGrid

variable {grid : StateGrid} {id : UInt32}

/-- The newest marker of a shard is for that shard. -/
theorem newestMarker_shardId {marker : RecoveryMarker} (h : grid.newestMarker id = some marker) :
    marker.shardId = id := by
  unfold newestMarker at h
  have hnewest := List.find?_some h
  exact (of_decide_eq_true hnewest).1

/-- A shard can be healed if its newest marker is ahead. -/
theorem healable_iff {marker : RecoveryMarker} (h : grid.newestMarker id = some marker) :
    grid.Healable id ↔ ∃ shard : Shard, grid.shards[id]? = some shard ∧ shard.sequence < marker.sequence := by
  unfold Healable
  rw [h]
  constructor
  · rintro ⟨shard, _, hshard, ⟨⟩, hlt⟩
    exact ⟨shard, hshard, hlt⟩
  · rintro ⟨shard, hshard, hlt⟩
    exact ⟨shard, marker, hshard, rfl, hlt⟩

/-- Else no marker is. -/
theorem not_healable (h : grid.newestMarker id = none) : ¬ grid.Healable id := by
  rintro ⟨_, _, -, hmarker, -⟩
  rw [h] at hmarker
  cases hmarker

/-- The shard of an id after its round of the loop. -/
def healedAt (grid : StateGrid) (id : UInt32) : Option Shard :=
  match grid.newestMarker id with
  | some marker => grid.shards[id]?.map (·.raise marker)
  | none => grid.shards[id]?

/-- With a marker, it is tried. -/
theorem healedAt_of_some {marker : RecoveryMarker} (h : grid.newestMarker id = some marker) :
    grid.healedAt id = grid.shards[id]?.map (·.raise marker) := by
  unfold healedAt
  rw [h]

/-- Without one the shard stays. -/
theorem healedAt_of_none (h : grid.newestMarker id = none) : grid.healedAt id = grid.shards[id]? := by
  unfold healedAt
  rw [h]

open scoped Classical in
/-- One round, on an id whose shard is still as it was. -/
theorem healStep_spec {acc : ShardMap × List UInt32} (hid : acc.1[id]? = grid.shards[id]?) :
    (∀ k : UInt32, (healStep grid.holographicEngine.recoveryMarkers acc id).1[k]? =
        if k = id then grid.healedAt k else acc.1[k]?) ∧
      (healStep grid.holographicEngine.recoveryMarkers acc id).2 =
        acc.2 ++ if grid.Healable id then [id] else [] := by
  unfold healStep
  rw [bestMarker_eq]
  cases hmarker : grid.newestMarker id with
  | none =>
      refine ⟨fun k => ?_, ?_⟩
      · by_cases hk : k = id
        · rw [if_pos hk, hk, healedAt_of_none hmarker, hid]
        · rw [if_neg hk]
      · rw [if_neg (not_healable hmarker), List.append_nil]
  | some marker =>
      have hshard := newestMarker_shardId hmarker
      refine ⟨fun k => ?_, ?_⟩
      · dsimp only
        rw [healShardWithMarker_lookup, hshard]
        by_cases hk : k = id
        · rw [if_pos hk, if_pos hk, hk, healedAt_of_some hmarker, hid]
        · rw [if_neg hk, if_neg hk]
      · have htrue := healShardWithMarker_eq_true_iff acc.1 marker
        rw [hshard, hid, ← healable_iff hmarker] at htrue
        dsimp only
        by_cases hheal : grid.Healable id
        · rw [if_pos (htrue.mpr hheal), if_pos hheal]
        · rw [if_neg (mt htrue.mp hheal), if_neg hheal, List.append_nil]

open scoped Classical in
variable (grid) in
/-- **The healing loop.** Each id has its own shard raised to its newest marker, and the ids that had a marker ahead are
recorded. -/
theorem foldl_healStep {ids : List UInt32} (hnodup : ids.Nodup) (acc : ShardMap × List UInt32)
    (hkeep : ∀ id ∈ ids, acc.1[id]? = grid.shards[id]?) :
    (∀ k : UInt32, (ids.foldl (healStep grid.holographicEngine.recoveryMarkers) acc).1[k]? =
        if k ∈ ids then grid.healedAt k else acc.1[k]?) ∧
      (ids.foldl (healStep grid.holographicEngine.recoveryMarkers) acc).2 =
        acc.2 ++ ids.filter fun id => grid.Healable id := by
  induction ids generalizing acc with
  | nil =>
      refine ⟨fun k => ?_, (List.append_nil _).symm⟩
      rw [if_neg List.not_mem_nil]
      rfl
  | cons id ids ih =>
      obtain ⟨hfresh, hnodup⟩ := List.nodup_cons.mp hnodup
      have hstep := healStep_spec (hkeep id List.mem_cons_self)
      have hkeep' : ∀ id' ∈ ids, (healStep grid.holographicEngine.recoveryMarkers acc id).1[id']? =
          grid.shards[id']? := by
        intro id' hid'
        rw [hstep.1, if_neg fun h => hfresh (by rwa [← h])]
        exact hkeep id' (List.mem_cons_of_mem _ hid')
      obtain ⟨hshards, hhealed⟩ := ih hnodup _ hkeep'
      rw [List.foldl_cons]
      refine ⟨fun k => ?_, ?_⟩
      · rw [hshards, hstep.1]
        by_cases hk : k = id
        · subst hk
          rw [if_neg hfresh, if_pos rfl, if_pos List.mem_cons_self]
        · rw [if_neg hk]
          simp only [List.mem_cons, hk, false_or]
      · rw [hhealed, hstep.2, List.append_assoc, List.filter_cons]
        split <;> simp [*]

/-! ## The shards that differ -/

/-- The shards that differ. -/
theorem mem_corruptedShards : id ∈ grid.corruptedShards ↔ grid.Corrupted id := by
  unfold corruptedShards Corrupted
  simp only [List.mem_map, List.mem_filter, Prod.exists, Std.TreeMap.mem_toList_iff_getElem?_eq_some]
  constructor
  · rintro ⟨k, root, ⟨hroot, hdiffers⟩, rfl⟩
    split at hdiffers
    · next shard hshard => exact ⟨shard, root, hshard, hroot, by simpa using hdiffers⟩
    · cases hdiffers
  · rintro ⟨shard, root, hshard, hroot, hne⟩
    refine ⟨id, root, ⟨hroot, ?_⟩, rfl⟩
    rw [hshard]
    simpa using hne

/-- Each is listed once. -/
theorem nodup_corruptedShards (grid : StateGrid) : grid.corruptedShards.Nodup := by
  unfold corruptedShards
  refine List.Pairwise.map _ ?_ (grid.holographicEngine.neighborRoots.distinct_keys_toList.filter _)
  intro p q hne hpq
  exact hne (by rw [hpq]; exact Std.ReflOrd.compare_self)

/-- They are no more than the registered roots. -/
theorem length_corruptedShards_le (grid : StateGrid) :
    grid.corruptedShards.length ≤ grid.holographicEngine.neighborRoots.size := by
  unfold corruptedShards
  rw [List.length_map, ← Std.TreeMap.length_toList]
  exact List.length_filter_le _ _

/-- All registered roots differ from their shards exactly if there are as many of these as of those. -/
theorem length_corruptedShards_eq_iff :
    grid.corruptedShards.length = grid.holographicEngine.neighborRoots.size ↔
      ∀ id, id ∈ grid.holographicEngine.neighborRoots → grid.Corrupted id := by
  have hlen : grid.corruptedShards.length = grid.holographicEngine.neighborRoots.size ↔
      ∀ p ∈ grid.holographicEngine.neighborRoots.toList, p.1 ∈ grid.corruptedShards := by
    rw [corruptedShards, List.length_map, ← Std.TreeMap.length_toList, List.length_filter_eq_length_iff]
    constructor
    · intro h p hp
      exact List.mem_map_of_mem (List.mem_filter.mpr ⟨hp, h p hp⟩)
    · intro h p hp
      obtain ⟨q, hq, hqp⟩ := List.mem_map.mp (h p hp)
      obtain ⟨hqmem, hdiffers⟩ := List.mem_filter.mp hq
      -- the same key, so the same root
      have hsame : q.2 = p.2 := by
        rw [← Prod.mk.eta (p := p), Std.TreeMap.mem_toList_iff_getElem?_eq_some] at hp
        rw [← Prod.mk.eta (p := q), Std.TreeMap.mem_toList_iff_getElem?_eq_some, hqp, hp] at hqmem
        exact (Option.some.inj hqmem).symm
      rwa [Prod.ext hqp hsame] at hdiffers
  rw [hlen]
  constructor
  · intro h id hid
    have hroot : (grid.holographicEngine.neighborRoots[id]?).isSome = true := Std.TreeMap.isSome_getElem?_iff_mem.mpr hid
    obtain ⟨root, hroot⟩ := Option.isSome_iff_exists.mp hroot
    exact mem_corruptedShards.mp (h (id, root) (Std.TreeMap.mem_toList_iff_getElem?_eq_some.mpr hroot))
  · rintro h ⟨id, root⟩ hp
    rw [Std.TreeMap.mem_toList_iff_getElem?_eq_some] at hp
    refine mem_corruptedShards.mpr (h id ?_)
    rw [Std.TreeMap.mem_iff_isSome_getElem?, hp]
    rfl

/-! ## The verdict -/

/-- The grid and the verdict, where shards differ and reconciliation is on. -/
theorem verify_of_corrupted (hne : grid.corruptedShards ≠ [])
    (hactive : grid.holographicEngine.reconciliationActive = true) :
    grid.verifyHolographicConsistency =
      let healed := grid.corruptedShards.foldl (healStep grid.holographicEngine.recoveryMarkers) (grid.shards, [])
      ({ grid with shards := healed.1 }, healed.2.length == grid.holographicEngine.neighborRoots.size) := by
  unfold verifyHolographicConsistency
  rw [if_neg (by simpa using hne), if_neg (by simp [hactive])]

/-- Some shard differs. -/
theorem corruptedShards_ne_nil_iff : grid.corruptedShards ≠ [] ↔ ∃ id, grid.Corrupted id := by
  simp only [← mem_corruptedShards]
  constructor
  · exact List.exists_mem_of_ne_nil _
  · rintro ⟨id, hid⟩
    exact List.ne_nil_of_mem hid

/-- The grid is consistent if none does. -/
theorem consistent_iff : grid.Consistent ↔ ¬ ∃ id, grid.Corrupted id := by
  unfold Consistent Corrupted
  constructor
  · rintro h ⟨id, shard, root, hshard, hroot, hne⟩
    exact hne (h id shard root hshard hroot)
  · intro h id shard root hshard hroot
    by_contra hne
    exact h ⟨id, shard, root, hshard, hroot, hne⟩

/-- The verdict after healing: everything registered differed, and all of it had a marker ahead. -/
theorem verdict_iff (hne : grid.corruptedShards ≠ [])
    (hactive : grid.holographicEngine.reconciliationActive = true) :
    grid.verifyHolographicConsistency.2 = true ↔ (∀ id, grid.Corrupted id → grid.Healable id) ∧
      ∀ id, id ∈ grid.holographicEngine.neighborRoots → grid.Corrupted id := by
  classical
  obtain ⟨-, hhealed⟩ := foldl_healStep grid grid.nodup_corruptedShards (grid.shards, []) fun _ _ => rfl
  rw [verify_of_corrupted hne hactive]
  dsimp only
  rw [hhealed, List.nil_append, beq_iff_eq, ← length_corruptedShards_eq_iff]
  have hall : (grid.corruptedShards.filter fun id => grid.Healable id).length = grid.corruptedShards.length ↔
      ∀ id, grid.Corrupted id → grid.Healable id := by
    rw [List.length_filter_eq_length_iff]
    simp only [mem_corruptedShards, decide_eq_true_eq]
  have hfewer := List.length_filter_le (fun id => decide (grid.Healable id)) grid.corruptedShards
  have hle := grid.length_corruptedShards_le
  rw [← hall]
  omega

/-- The shards after healing. -/
theorem verify_lookup (hne : grid.corruptedShards ≠ [])
    (hactive : grid.holographicEngine.reconciliationActive = true) (k : UInt32) :
    grid.verifyHolographicConsistency.1.shards[k]? =
      if k ∈ grid.corruptedShards then grid.healedAt k else grid.shards[k]? := by
  obtain ⟨hshards, -⟩ := foldl_healStep grid grid.nodup_corruptedShards (grid.shards, []) fun _ _ => rfl
  rw [verify_of_corrupted hne hactive]
  exact hshards k

/-- The check changes shards, not registered roots. -/
theorem verify_holographicEngine (grid : StateGrid) :
    grid.verifyHolographicConsistency.1.holographicEngine = grid.holographicEngine := by
  unfold verifyHolographicConsistency
  split
  · rfl
  · split <;> rfl

/-- **The grid after healing is consistent** exactly if every shard that differed had a marker ahead with the root
registered for it. -/
theorem consistent_after_iff (hne : grid.corruptedShards ≠ [])
    (hactive : grid.holographicEngine.reconciliationActive = true) :
    grid.verifyHolographicConsistency.1.Consistent ↔ (∀ id, grid.Corrupted id → grid.Healable id) ∧
      ∀ id, grid.Corrupted id → grid.MarkerAgrees id := by
  unfold Consistent
  rw [verify_holographicEngine]
  simp only [verify_lookup hne hactive]
  constructor
  · intro h
    rw [← forall_and]
    intro id
    rw [← imp_and]
    intro hcorrupted
    have ⟨shard, root, hshard, hroot, hdiffers⟩ := hcorrupted
    have hafter := fun shard' => h id shard' root
    rw [if_pos (mem_corruptedShards.mpr hcorrupted)] at hafter
    cases hmarker : grid.newestMarker id with
    | none =>
        rw [healedAt_of_none hmarker] at hafter
        exact absurd (hafter shard hshard hroot) hdiffers
    | some marker =>
        rw [healedAt_of_some hmarker, hshard] at hafter
        have hraised := hafter _ rfl hroot
        dsimp only [Shard.raise] at hraised
        by_cases hlt : shard.sequence < marker.sequence
        · rw [if_pos hlt] at hraised
          refine ⟨⟨shard, marker, hshard, hmarker, hlt⟩, marker, hmarker, ?_⟩
          rw [hroot, ← hraised]
        · rw [if_neg hlt] at hraised
          exact absurd hraised hdiffers
  · rintro ⟨hheal, hagree⟩ id shard' root hshard' hroot
    by_cases hcorrupted : grid.Corrupted id
    · rw [if_pos (mem_corruptedShards.mpr hcorrupted)] at hshard'
      obtain ⟨shard, marker, hshard, hmarker, hlt⟩ := hheal id hcorrupted
      obtain ⟨marker', hmarker', hroot'⟩ := hagree id hcorrupted
      rw [hmarker] at hmarker'
      cases hmarker'
      rw [healedAt_of_some hmarker, hshard, Option.map_some, Option.some_inj] at hshard'
      rw [hroot, Option.some_inj] at hroot'
      rw [← hshard', hroot', Shard.raise, if_pos hlt]
    · rw [if_neg (mt mem_corruptedShards.mp hcorrupted)] at hshard'
      by_contra hdiffers
      exact hcorrupted ⟨shard', root, hshard', hroot, hdiffers⟩

/-- **No sequence is lowered**, whatever is healed. -/
theorem neverLowers_verify (grid : StateGrid) : NeverLowers grid grid.verifyHolographicConsistency.1 := by
  have hsame : NeverLowers grid grid := fun _ shard hshard => ⟨shard, hshard, UInt64.le_refl _⟩
  by_cases hne : grid.corruptedShards = []
  · rw [verifyHolographicConsistency, if_pos (by simp [hne])]
    exact hsame
  · cases hactive : grid.holographicEngine.reconciliationActive with
    | false =>
        rw [verifyHolographicConsistency, if_neg (by simpa using hne), if_pos (by simp [hactive])]
        exact hsame
    | true =>
        intro id shard hshard
        rw [verify_lookup hne hactive]
        split
        · cases hmarker : grid.newestMarker id with
          | none =>
              rw [healedAt_of_none hmarker]
              exact hsame id shard hshard
          | some marker =>
              refine ⟨shard.raise marker, ?_, shard.sequence_le_raise marker⟩
              rw [healedAt_of_some hmarker, hshard, Option.map_some]
        · exact hsame id shard hshard

/-- **When the holographic check is truthful.** On every grid, the check returns true exactly if afterwards every shard
with a registered root has this root, and lowers no sequence, if and only if the grid is one that `Decides`. The part about
the sequences holds on every grid. -/
theorem holographic_verdict_iff (grid : StateGrid) :
    (((grid.verifyHolographicConsistency.2 = true ↔ grid.verifyHolographicConsistency.1.Consistent) ∧
        NeverLowers grid grid.verifyHolographicConsistency.1) ↔ grid.Decides) ∧
      NeverLowers grid grid.verifyHolographicConsistency.1 := by
  refine ⟨?_, neverLowers_verify grid⟩
  rw [and_iff_left (neverLowers_verify grid)]
  unfold Decides
  by_cases hne : grid.corruptedShards = []
  · have hnone : ¬ ∃ id, grid.Corrupted id := by
      rw [← corruptedShards_ne_nil_iff]
      exact not_not_intro hne
    rw [verifyHolographicConsistency, if_pos (by simp [hne]), consistent_iff]
    simp [hnone]
  · have hsome := corruptedShards_ne_nil_iff.mp hne
    cases hactive : grid.holographicEngine.reconciliationActive with
    | false =>
        rw [verifyHolographicConsistency, if_neg (by simpa using hne), if_pos (by simp [hactive]), consistent_iff]
        simp [hsome]
    | true =>
        rw [verdict_iff hne hactive, consistent_after_iff hne hactive, and_congr_right_iff]
        simp only [hsome, true_implies]

/-! ## The two slips -/

/-- A root of one byte, repeated. -/
def rootOf (byte : UInt8) : StateRoot := Vector.replicate 32 byte

/-- A marker for shard 0. -/
def markerOf (root : StateRoot) : RecoveryMarker := ⟨0, root, 1, Vector.replicate 64 0⟩

/-- The grid of `new`, with shard 0 alone, under registered roots and a marker. -/
def withMarker (neighborRoots : Std.TreeMap UInt32 StateRoot) (marked : StateRoot) : StateGrid where
  shards := (∅ : ShardMap).insert 0 ⟨0, rootOf 0, 0⟩
  holographicEngine := { neighborRoots, recoveryMarkers := [markerOf marked], reconciliationActive := true }

/-- The root registered for shard 0, and one for a shard that is not here. -/
def rootsOfTwo : Std.TreeMap UInt32 StateRoot := ((∅ : Std.TreeMap UInt32 StateRoot).insert 0 (rootOf 1)).insert 7 (rootOf 1)

/-- The root registered for shard 0 alone. -/
def rootsOfOne : Std.TreeMap UInt32 StateRoot := (∅ : Std.TreeMap UInt32 StateRoot).insert 0 (rootOf 1)

/-- Its one shard. -/
theorem withMarker_lookup (roots : Std.TreeMap UInt32 StateRoot) (marked : StateRoot) (k : UInt32) :
    (withMarker roots marked).shards[k]? = if k = 0 then some ⟨0, rootOf 0, 0⟩ else none := by
  unfold withMarker
  dsimp only
  rw [Std.TreeMap.getElem?_insert, Std.TreeMap.getElem?_emptyc]
  by_cases hk : k = 0
  · rw [if_pos hk, hk, if_pos (by decide)]
  · rw [if_neg hk, if_neg fun h => hk (Std.LawfulEqCmp.eq_of_compare h).symm]

/-- It differs from the root registered for it. -/
theorem corrupted_withMarker {roots : Std.TreeMap UInt32 StateRoot} {marked : StateRoot}
    (hroot : roots[(0 : UInt32)]? = some (rootOf 1)) (k : UInt32) : (withMarker roots marked).Corrupted k ↔ k = 0 := by
  constructor
  · rintro ⟨shard, root, hshard, -, -⟩
    rw [withMarker_lookup] at hshard
    by_contra hk
    rw [if_neg hk] at hshard
    cases hshard
  · rintro rfl
    refine ⟨⟨0, rootOf 0, 0⟩, rootOf 1, withMarker_lookup _ _ _, hroot, ?_⟩
    decide +kernel

/-- Its marker. -/
theorem newestMarker_withMarker (roots : Std.TreeMap UInt32 StateRoot) (marked : StateRoot) :
    (withMarker roots marked).newestMarker 0 = some (markerOf marked) := by
  unfold newestMarker withMarker
  simp [markerOf]

/-- It can be healed. -/
theorem healable_withMarker (roots : Std.TreeMap UInt32 StateRoot) (marked : StateRoot) :
    (withMarker roots marked).Healable 0 :=
  ⟨⟨0, rootOf 0, 0⟩, markerOf marked, withMarker_lookup _ _ _, newestMarker_withMarker _ _, show (0 : UInt64) < 1 by decide⟩

/-- **The verdict is wrong both ways.** With a root registered for a shard that is not here, shard 0 is healed to the root
registered for it, everything is consistent, and the verdict is false: the healed shards are counted against all
registered roots. And where the marker of shard 0 carries another root than the registered one, the shard gets that root and
the verdict is true. -/
theorem healing_verdict_wrong :
    (¬ ∀ grid : StateGrid,
      (grid.verifyHolographicConsistency.2 = true ↔ grid.verifyHolographicConsistency.1.Consistent) ∧
        NeverLowers grid grid.verifyHolographicConsistency.1) ∧
      ((withMarker rootsOfTwo (rootOf 1)).verifyHolographicConsistency.2 = false ∧
        (withMarker rootsOfTwo (rootOf 1)).verifyHolographicConsistency.1.Consistent) ∧
      ((withMarker rootsOfOne (rootOf 2)).verifyHolographicConsistency.2 = true ∧
        ¬ (withMarker rootsOfOne (rootOf 2)).verifyHolographicConsistency.1.Consistent) := by
  have htwo : rootsOfTwo[(0 : UInt32)]? = some (rootOf 1) := by
    rw [rootsOfTwo, Std.TreeMap.getElem?_insert, if_neg (by decide), Std.TreeMap.getElem?_insert_self]
  have hone : rootsOfOne[(0 : UInt32)]? = some (rootOf 1) := by simp [rootsOfOne]
  have hcorrupted : ∀ {roots marked}, roots[(0 : UInt32)]? = some (rootOf 1) →
      (withMarker roots marked).corruptedShards ≠ [] := fun h =>
    corruptedShards_ne_nil_iff.mpr ⟨0, (corrupted_withMarker h 0).mpr rfl⟩
  have hfalse : (withMarker rootsOfTwo (rootOf 1)).verifyHolographicConsistency.2 = false ∧
      (withMarker rootsOfTwo (rootOf 1)).verifyHolographicConsistency.1.Consistent := by
    refine ⟨?_, (consistent_after_iff (hcorrupted htwo) rfl).mpr ⟨?_, ?_⟩⟩
    · rw [← Bool.not_eq_true, verdict_iff (hcorrupted htwo) rfl]
      rintro ⟨-, hall⟩
      have h7 := (corrupted_withMarker htwo 7).mp (hall 7 (by simp [withMarker, rootsOfTwo]))
      exact absurd h7 (by decide)
    · intro k hk
      rw [(corrupted_withMarker htwo k).mp hk]
      exact healable_withMarker _ _
    · intro k hk
      rw [(corrupted_withMarker htwo k).mp hk]
      exact ⟨_, newestMarker_withMarker _ _, htwo⟩
  refine ⟨fun h => ?_, hfalse, ?_, ?_⟩
  · have htrue := (h (withMarker rootsOfTwo (rootOf 1))).1.mpr hfalse.2
    rw [hfalse.1] at htrue
    cases htrue
  · rw [verdict_iff (hcorrupted hone) rfl]
    simp only [corrupted_withMarker hone]
    refine ⟨?_, ?_⟩
    · rintro _ rfl
      exact healable_withMarker _ _
    · intro k hk
      rw [show (withMarker rootsOfOne (rootOf 2)).holographicEngine.neighborRoots = rootsOfOne from rfl, rootsOfOne,
        Std.TreeMap.mem_insert] at hk
      rcases hk with hk | hk
      · exact (Std.LawfulEqCmp.eq_of_compare hk).symm
      · exact absurd hk Std.TreeMap.not_mem_emptyc
  · rw [consistent_after_iff (hcorrupted hone) rfl]
    rintro ⟨-, hagree⟩
    obtain ⟨marker, hmarker, hroot⟩ := hagree 0 ((corrupted_withMarker hone 0).mpr rfl)
    rw [newestMarker_withMarker, Option.some_inj] at hmarker
    rw [← hmarker] at hroot
    exact absurd (hone.symm.trans hroot) (by decide +kernel)

end StateGrid

end WarmLogic.Grid
