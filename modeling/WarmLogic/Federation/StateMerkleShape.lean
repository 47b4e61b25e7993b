/-
# WarmLogic.Federation.StateMerkleShape — the key range that the root of the state's Merkle tree shows.

A node has the first key of its left child and the last key of its right one, which would be the range of a tree over
sorted leaves. But `build_tree_level` pops the pairs off the end of a level and pushes them on the next one, so every
other level stands in reverse order and its pairs have the greater keys on the left. The number of entries is right all
the same; the range is so only for one or two entries (`merkle_root_spans_iff`).
-/
import WarmLogic.Federation.StateMerkle
import Mathlib.Order.Bounds.Basic

namespace WarmLogic.Federation

open WarmLogic.Lib

variable {sha3 : List UInt8 → EntryHash} {m : MerkleEngine}

/-- The node goes from the smallest key of the state to the largest one. -/
def SpansKeys (state : StateMap) (node : MerkleNode) : Prop :=
  (∃ key, node.keyStart = some key ∧ IsLeast {key | key ∈ state} key) ∧
    ∃ key, node.keyEnd = some key ∧ IsGreatest {key | key ∈ state} key

/-! ## The fields of the root -/

/-- The root counts all entries. -/
theorem entryCount_buildTreeLevel (sha3 : List UInt8 → EntryHash) {entries : List StateEntry} (hne : entries ≠ []) :
    (buildTreeLevel sha3 (entries.map .leaf)).map (·.entryCount) = some entries.length := by
  have hnodes : ∀ l, (reduceBack (MerkleNode.internal sha3) l).map (·.entryCount) =
      reduceBack (· + ·) (l.map (·.entryCount)) := map_reduceBack fun _ _ => rfl
  have hones : (entries.map MerkleNode.leaf).map (·.entryCount) = List.replicate entries.length 1 := by
    rw [List.map_map]
    exact List.eq_replicate_iff.mpr ⟨List.length_map _, by simp [MerkleNode.leaf]⟩
  unfold buildTreeLevel
  rw [hnodes, hones, reduceBack_add, List.sum_replicate_nat, Nat.mul_one]
  rw [ne_eq, List.replicate_eq_nil_iff, List.length_eq_zero_iff]
  exact hne

/-- The first key of the root is the one that comes out at the left. -/
theorem keyStart_buildTreeLevel (sha3 : List UInt8 → EntryHash) (entries : List StateEntry) :
    (buildTreeLevel sha3 (entries.map .leaf)).map (·.keyStart) =
      reduceBack leftOf (entries.map fun entry => some entry.key) := by
  have hnodes : ∀ l, (reduceBack (MerkleNode.internal sha3) l).map (·.keyStart) =
      reduceBack leftOf (l.map (·.keyStart)) := map_reduceBack fun _ _ => rfl
  unfold buildTreeLevel
  rw [hnodes, List.map_map]
  rfl

/-! ## The sorted entries -/

/-- The keys of the sorted entries are those of the state. -/
theorem mem_keys {state : StateMap} (hkeys : KeysMatch state) {walk : List StateEntry} (hwalk : IsWalk state walk)
    {key : String} : key ∈ state ↔ ∃ entry ∈ sortByKey walk, entry.key = key := by
  rw [← Finmap.lookup_isSome, Option.isSome_iff_exists]
  constructor
  · rintro ⟨entry, hentry⟩
    exact ⟨entry, mem_sortByKey.mpr ((mem_walk hwalk).mpr ⟨key, hentry⟩), hkeys key entry hentry⟩
  · rintro ⟨entry, hmem, rfl⟩
    obtain ⟨key, hkey⟩ := (mem_walk hwalk).mp (mem_sortByKey.mp hmem)
    exact ⟨entry, (hkeys key entry hkey).symm ▸ hkey⟩

/-- The first of the sorted entries has the smallest key. -/
theorem isLeast_iff {state : StateMap} (hkeys : KeysMatch state) {walk rest : List StateEntry} {first : StateEntry}
    (hwalk : IsWalk state walk) (hsort : sortByKey walk = first :: rest) {key : String} :
    IsLeast {key | key ∈ state} key ↔ key = first.key := by
  have hfirst : IsLeast {key | key ∈ state} first.key := by
    refine ⟨(mem_keys hkeys hwalk).mpr ⟨first, hsort ▸ List.mem_cons_self, rfl⟩, fun other hother => ?_⟩
    obtain ⟨entry, hentry, rfl⟩ := (mem_keys hkeys hwalk).mp hother
    have hsorted := sortByKey_pairwise walk
    rw [hsort] at hsorted hentry
    rcases List.mem_cons.mp hentry with rfl | hentry
    · exact le_rfl
    · exact (List.pairwise_cons.mp hsorted).1 entry hentry
  exact ⟨fun h => h.unique hfirst, fun h => h ▸ hfirst⟩

/-- The last of the sorted entries has the largest key. -/
theorem isGreatest_last {state : StateMap} (hkeys : KeysMatch state) {walk : List StateEntry} {last : StateEntry}
    (hwalk : IsWalk state walk) (front : List StateEntry) (hsort : sortByKey walk = front ++ [last]) :
    IsGreatest {key | key ∈ state} last.key := by
  refine ⟨(mem_keys hkeys hwalk).mpr ⟨last, by simp [hsort], rfl⟩, fun other hother => ?_⟩
  obtain ⟨entry, hentry, rfl⟩ := (mem_keys hkeys hwalk).mp hother
  have hsorted := sortByKey_pairwise walk
  rw [hsort] at hsorted hentry
  rcases List.mem_append.mp hentry with hentry | hentry
  · exact (List.pairwise_append.mp hsorted).2.2 entry hentry last (List.mem_singleton_self last)
  · rw [List.mem_singleton.mp hentry]

/-! ## The law -/

/-- The tree over one or two entries shows their range. -/
theorem spansKeys_of_le_two {state : StateMap} (hkeys : KeysMatch state) {walk : List StateEntry}
    (hwalk : IsWalk state walk) (hlen : walk.length ≤ 2) {root : MerkleNode}
    (hroot : buildTreeLevel sha3 ((sortByKey walk).map .leaf) = some root) : SpansKeys state root := by
  have hlength := length_sortByKey walk
  unfold buildTreeLevel at hroot
  cases hsort : sortByKey walk with
  | nil =>
      rw [hsort] at hroot
      simp [reduceBack] at hroot
  | cons a rest =>
      have hleast := (isLeast_iff hkeys hwalk hsort).mpr rfl
      cases rest with
      | nil =>
          have hgreatest := isGreatest_last hkeys hwalk [] hsort
          rw [hsort, List.map_cons, List.map_nil, reduceBack] at hroot
          cases hroot
          exact ⟨⟨a.key, rfl, hleast⟩, a.key, rfl, hgreatest⟩
      | cons b rest =>
          have hnil : rest = [] := by
            rw [hsort, List.length_cons, List.length_cons] at hlength
            exact List.length_eq_zero_iff.mp (by omega)
          subst hnil
          have hgreatest := isGreatest_last hkeys hwalk [a] hsort
          rw [hsort, List.map_cons, List.map_cons, List.map_nil, reduceBack, List.reverse_cons, List.reverse_singleton,
            List.singleton_append, pairBack, pairBack, reduceBack] at hroot
          cases hroot
          exact ⟨⟨a.key, rfl, hleast⟩, b.key, rfl, hgreatest⟩

/-- With three entries or more the first key of the root is not the smallest one. -/
theorem not_spansKeys_of_three {state : StateMap} (hkeys : KeysMatch state) {walk : List StateEntry}
    (hwalk : IsWalk state walk) (hlen : 3 ≤ walk.length) {root : MerkleNode}
    (hroot : buildTreeLevel sha3 ((sortByKey walk).map .leaf) = some root) : ¬ SpansKeys state root := by
  rintro ⟨⟨key, hstart, hleast⟩, -⟩
  have hlength := length_sortByKey walk
  have hleft := keyStart_buildTreeLevel sha3 (sortByKey walk)
  rw [hroot, Option.map_some, hstart] at hleft
  have hnodup : ((sortByKey walk).map fun entry => some entry.key).Nodup := by
    have hsorted : ((sortByKey walk).map (·.key)).Nodup :=
      (((List.mergeSort_perm walk _).map (·.key)).nodup_iff).mpr (nodup_keys hkeys hwalk)
    have hmap : ((sortByKey walk).map fun entry => some entry.key) = ((sortByKey walk).map (·.key)).map some :=
      List.map_map.symm
    rw [hmap]
    exact hsorted.map (Option.some_injective _)
  refine reduceBack_leftOf_ne_head hnodup ?_ ?_
  · rw [List.length_map]
    omega
  · rw [← hleft, List.head?_map]
    cases hsort : sortByKey walk with
    | nil =>
        rw [hsort, List.length_nil] at hlength
        omega
    | cons a rest => rw [(isLeast_iff hkeys hwalk hsort).mp hleast, List.head?_cons, Option.map_some]

/-- Both cases together. -/
theorem spansKeys_iff {state : StateMap} (hkeys : KeysMatch state) {walk : List StateEntry} (hwalk : IsWalk state walk)
    {root : MerkleNode} (hroot : buildTreeLevel sha3 ((sortByKey walk).map .leaf) = some root) :
    SpansKeys state root ↔ walk.length ≤ 2 := by
  constructor
  · intro h
    by_contra hlen
    exact not_spansKeys_of_three hkeys hwalk (by omega) hroot h
  · intro hlen
    exact spansKeys_of_le_two hkeys hwalk hlen hroot

/-- **What the root of the state's Merkle tree shows.** In every reachable engine that holds entries, `build_merkle_tree`
returns a node that counts all of them; and its keys are the smallest and the largest one exactly if there are at most
two entries. -/
theorem merkle_root_spans_iff (hm : (merkleRuns sha3).Reachable (fun _ _ => True) m) {walk : List StateEntry}
    (hwalk : IsWalk m.engine.state walk) (hne : walk ≠ []) :
    ∃ root, (m.buildMerkleTree sha3 walk).2 = some root ∧ root.entryCount = walk.length ∧
      (root.entryCount = walk.length ∧ SpansKeys m.engine.state root ↔ walk.length ≤ 2) := by
  have hcached := cached_of_reachable hm
  have hsorted : sortByKey walk ≠ [] := by
    rw [← List.length_pos_iff, length_sortByKey]
    exact List.length_pos_of_ne_nil hne
  obtain ⟨root, hroot⟩ : ∃ root, buildTreeLevel sha3 ((sortByKey walk).map .leaf) = some root :=
    reduceBack_eq_some _ (by simpa using hsorted)
  have hcount := entryCount_buildTreeLevel sha3 hsorted
  rw [hroot, Option.map_some, Option.some_inj, length_sortByKey] at hcount
  refine ⟨root, (hcached.build hwalk).trans hroot, hcount, ?_⟩
  rw [and_iff_right hcount, spansKeys_iff hcached.keys.stored hwalk hroot]

/-- **Three entries, and the range is turned round**: over the keys `a`, `b` and `c` the root goes from `b` to `a`. -/
theorem three_keys_range_inverted :
    (merkleRuns scriptHash).Reachable (fun _ _ => True) threePuts ∧ IsWalk threePuts.engine.state threeEntries ∧
    ∃ root, (threePuts.buildMerkleTree scriptHash threeEntries).2 = some root ∧ root.entryCount = 3 ∧
      root.keyStart = some "b" ∧ root.keyEnd = some "a" ∧ ¬ SpansKeys threePuts.engine.state root := by
  have hcached := cached_of_reachable reachable_threePuts
  have hsort : sortByKey threeEntries = threeEntries := by
    apply List.mergeSort_of_pairwise
    decide +kernel
  have hbuilt := hcached.build isWalk_threePuts
  have htree : buildTreeLevel scriptHash ((sortByKey threeEntries).map .leaf) = some
      (.internal scriptHash (.internal scriptHash (.leaf threeEntries[1]) (.leaf threeEntries[2]))
        (.leaf threeEntries[0])) := by
    rw [hsort]
    simp [buildTreeLevel, threeEntries, reduceBack, pairBack]
  refine ⟨reachable_threePuts, isWalk_threePuts, _, hbuilt.trans htree, rfl, rfl, rfl, fun h => ?_⟩
  exact absurd ((spansKeys_iff hcached.keys.stored isWalk_threePuts htree).mp h) (by decide)

/-- An engine that has put the keys `b` and `a`, in this order. -/
def twoPuts : MerkleEngine :=
  ((MerkleEngine.new "a" .lastWriterWins).call scriptHash (.sync (.put "b" [2] 100 ["a"]))).call scriptHash
    (.sync (.put "a" [1] 200 ["a"]))

/-- They are in the order of their keys. -/
def twoEntries : List StateEntry :=
  [.new scriptHash "b" [2] ((VectorClock.new.increment "a").increment "a") "a" 100 ["a"],
   .new scriptHash "a" [1] (((VectorClock.new.increment "a").increment "a").increment "a") "a" 200 ["a"]]

/-- The root over two entries goes from the one to the other, whichever was put first. -/
theorem merkle_root_spans_iff_two_entries :
    ∃ root, (twoPuts.buildMerkleTree scriptHash twoEntries).2 = some root ∧ root.entryCount = 2 ∧
      SpansKeys twoPuts.engine.state root := by
  have hnew : (merkleRuns scriptHash).Run (fun _ _ => True) [.new "a" .lastWriterWins] :=
    .init ⟨"a", .lastWriterWins, rfl⟩
  have hone := System.Run.step hnew (a := .call (.sync (.put "b" [2] 100 ["a"]))) trivial rfl
  have hreach : (merkleRuns scriptHash).Reachable (fun _ _ => True) twoPuts :=
    ⟨_, .step hone (a := .call (.sync (.put "a" [1] 200 ["a"]))) trivial rfl⟩
  have hwalk : IsWalk twoPuts.engine.state twoEntries := by decide +kernel
  obtain ⟨root, hroot, hcount, hspans⟩ := merkle_root_spans_iff hreach hwalk (List.cons_ne_nil _ _)
  exact ⟨root, hroot, hcount, (hspans.mpr (by decide)).2⟩

end WarmLogic.Federation
