/-
# WarmLogic.Federation.StateMerkle — the Merkle root of the state, and what two equal roots say.

The tree of `federation/state_sync.rs` stands over the `hash` fields of the entries in the order of their keys. It is
built from the back, an odd first node is carried over, and the root is cached behind a dirty flag. The order in which
the state's map yields its entries is an argument (`walk`); the result does not depend on it.

A root binds the tree of the entry hashes (`nodeHash_eq_iff_matches`), up to an entry whose hash is that of an inner
node. It does not bind the contents: an entry hash is the hash of key, value, clock and timestamp run together without
lengths, the deletion flag is not in it, and a remote entry brings its hash along unchecked. It does bind them between
states whose entries can be told apart by their hashes (`TellsApart`), however many there are; and any two entries that
cannot be told apart make two states of one entry each with one root and different contents.

The cache is a matter of one invariant (`Cached`): a clean flag means that the stored root is the one the state has.
Every call that changes the state sets the flag, and a call that does not set it leaves the state as it is
(`state_eq_of_not_marksDirty`).

The root is treated in two steps. From roots to trees: with no collision among the strings hashed, equal roots mean
that the two trees match, node by node from the top, where a leaf of one may stand over a whole subtree of the other.
From trees to contents: if the entries can be told apart by their hashes, no leaf stands over a subtree, the shapes
are the same, the sorted entries have the same hashes one by one, and so the same is shown under the same keys.
-/
import WarmLogic.Federation.CausalRuns
import WarmLogic.Crypto.MerkleBinding
import Mathlib.Data.String.Basic

namespace WarmLogic.Federation

open WarmLogic.Lib WarmLogic.Crypto.MerkleTree

/-! ## Nodes and levels -/

/-- `MerkleNode`; a leaf keeps its key. -/
structure MerkleNode where
  hash : EntryHash
  left : Option EntryHash
  right : Option EntryHash
  keyStart : Option String
  keyEnd : Option String
  entryCount : Nat
  deriving DecidableEq

namespace MerkleNode

/-- A leaf has the hash of its entry. -/
def leaf (entry : StateEntry) : MerkleNode where
  hash := entry.hash
  left := none
  right := none
  keyStart := some entry.key
  keyEnd := some entry.key
  entryCount := 1

/-- An inner node has the hash of the two hashes run together. -/
def internal (sha3 : List UInt8 → EntryHash) (left right : MerkleNode) : MerkleNode where
  hash := sha3 (pairBytes left.hash right.hash)
  left := some left.hash
  right := some right.hash
  keyStart := left.keyStart
  keyEnd := right.keyEnd
  entryCount := left.entryCount + right.entryCount

end MerkleNode

/-- `build_tree_level`: pairs are popped off the end of the level, a last odd node is pushed as it is. -/
def buildTreeLevel (sha3 : List UInt8 → EntryHash) (nodes : List MerkleNode) : Option MerkleNode :=
  reduceBack (MerkleNode.internal sha3) nodes

/-- `entries.sort_by(|a, b| a.key.cmp(&b.key))`. -/
def sortByKey (walk : List StateEntry) : List StateEntry := walk.mergeSort fun a b => decide (a.key ≤ b.key)

/-- `walk` is an order in which the map yields its values. -/
def IsWalk (state : StateMap) (walk : List StateEntry) : Prop := (walk : Multiset StateEntry) = state.entries.map (·.2)

instance (state : StateMap) (walk : List StateEntry) : Decidable (IsWalk state walk) :=
  inferInstanceAs (Decidable (_ = _))

/-! ## The engine with its cached root -/

/-- `get`: the entry of a key, unless it is a deletion marker. -/
def StateSyncEngine.get (e : StateSyncEngine) (key : String) : Option StateEntry :=
  (e.state.lookup key).filter fun entry => !entry.deleted

/-- The engine with its fields `merkle_root` and `merkle_dirty`. -/
structure MerkleEngine where
  engine : StateSyncEngine
  merkleRoot : Option MerkleNode
  merkleDirty : Bool

namespace MerkleEngine

/-- `new`: no root, and the flag set. -/
def new (regionId : String) (strategy : ConflictStrategy) : MerkleEngine := ⟨.new regionId strategy, none, true⟩

/-- Where a call sets `merkle_dirty`. -/
def marksDirty (e : StateSyncEngine) : EngineOp → Bool
  | .sync (.put _ _ _ _) => true
  | .sync (.delete key _ _) => decide (key ∈ e.state)
  | .sync (.applyRemote entry) =>
      match e.state.lookup entry.key with
      | none => true
      | some localEntry =>
          match compareClocks localEntry.clock entry.clock with
          | .before => true
          | .after => false
          | .equal => false
          | .concurrent => e.strategy != .manual
  | .resolveConflict key _ => (e.conflicts.lookup key).isSome

/-- A call of the engine below, with the flag it sets. -/
def call (sha3 : List UInt8 → EntryHash) (m : MerkleEngine) (op : EngineOp) : MerkleEngine :=
  ⟨op.call sha3 m.engine, m.merkleRoot, m.merkleDirty || marksDirty m.engine op⟩

/-- `build_merkle_tree`: the stored root if the flag is clean, else a new one, which is stored. -/
def buildMerkleTree (sha3 : List UInt8 → EntryHash) (m : MerkleEngine) (walk : List StateEntry) :
    MerkleEngine × Option MerkleNode :=
  if !m.merkleDirty && m.merkleRoot.isSome then (m, m.merkleRoot)
  else if walk.isEmpty then (⟨m.engine, none, false⟩, none)
  else
    let root := buildTreeLevel sha3 ((sortByKey walk).map .leaf)
    (⟨m.engine, root, false⟩, root)

/-- `merkle_root_hash`. -/
def merkleRootHash (sha3 : List UInt8 → EntryHash) (m : MerkleEngine) (walk : List StateEntry) :
    MerkleEngine × Option EntryHash :=
  let built := m.buildMerkleTree sha3 walk
  (built.1, built.2.map (·.hash))

/-- `compare_merkle_roots`: false without a root of one's own. -/
def compareMerkleRoots (sha3 : List UInt8 → EntryHash) (m : MerkleEngine) (walk : List StateEntry)
    (otherRoot : EntryHash) : MerkleEngine × Bool :=
  let ours := m.merkleRootHash sha3 walk
  (ours.1, (ours.2.map fun ourRoot => decide (ourRoot = otherRoot)).getD false)

end MerkleEngine

/-- A call on the engine, or one that asks for the root. -/
inductive MerkleOp where
  | call (op : EngineOp)
  | buildMerkleTree (walk : List StateEntry)

/-- An engine from `new`, under any calls; the map yields its own entries. -/
def merkleRuns (sha3 : List UInt8 → EntryHash) : System MerkleEngine MerkleOp where
  init m := ∃ regionId strategy, m = .new regionId strategy
  step
    | .call op, m => some (m.call sha3 op)
    | .buildMerkleTree walk, m => if IsWalk m.engine.state walk then some (m.buildMerkleTree sha3 walk).1 else none

variable {sha3 : List UInt8 → EntryHash} {m : MerkleEngine}

/-! ## The walk does not matter -/

/-- A walk yields the entries of the state. -/
theorem mem_walk {state : StateMap} {walk : List StateEntry} (hwalk : IsWalk state walk) {entry : StateEntry} :
    entry ∈ walk ↔ ∃ key, state.lookup key = some entry := by
  rw [← Multiset.mem_coe, show (walk : Multiset StateEntry) = _ from hwalk, Multiset.mem_map]
  constructor
  · rintro ⟨⟨key, found⟩, hmem, rfl⟩
    exact ⟨key, Finmap.lookup_eq_some_iff.mpr hmem⟩
  · rintro ⟨key, hkey⟩
    exact ⟨⟨key, entry⟩, Finmap.lookup_eq_some_iff.mp hkey, rfl⟩

/-- Sorted entries are in the order of their keys. -/
theorem sortByKey_pairwise (walk : List StateEntry) : (sortByKey walk).Pairwise fun a b => a.key ≤ b.key := by
  have hsorted : (sortByKey walk).Pairwise fun a b => decide (a.key ≤ b.key) = true := by
    apply List.pairwise_mergeSort
    · intro a b c hab hbc
      rw [decide_eq_true_eq] at hab hbc ⊢
      exact hab.trans hbc
    · intro a b
      rw [Bool.or_eq_true, decide_eq_true_eq, decide_eq_true_eq]
      exact le_total a.key b.key
  exact hsorted.imp of_decide_eq_true

/-- Entries under their own keys, sorted by key, stand in one order only. -/
theorem sortByKey_eq {state : StateMap} (hkeys : KeysMatch state) {walk walk' : List StateEntry}
    (hwalk : IsWalk state walk) (hwalk' : IsWalk state walk') : sortByKey walk = sortByKey walk' := by
  have hperm : walk.Perm walk' := Multiset.coe_eq_coe.mp (Eq.trans hwalk (Eq.symm hwalk'))
  refine List.Perm.eq_of_pairwise ?_ (sortByKey_pairwise walk) (sortByKey_pairwise walk') ?_
  · intro a b ha hb hab hba
    obtain ⟨key, hkey⟩ := (mem_walk hwalk).mp ((List.mergeSort_perm walk _).mem_iff.mp ha)
    obtain ⟨key', hkey'⟩ := (mem_walk hwalk').mp ((List.mergeSort_perm walk' _).mem_iff.mp hb)
    have hsame : a.key = b.key := le_antisymm hab hba
    rw [hkeys key a hkey, hkeys key' b hkey'] at hsame
    subst hsame
    exact Option.some.inj (hkey.symm.trans hkey')
  · exact (List.mergeSort_perm walk _).trans (hperm.trans (List.mergeSort_perm walk' _).symm)

/-- The keys of the entries of a state are all different. -/
theorem nodup_keys {state : StateMap} (hkeys : KeysMatch state) {walk : List StateEntry} (hwalk : IsWalk state walk) :
    (walk.map (·.key)).Nodup := by
  have hmap : (state.entries.map (·.2)).map (·.key) = state.entries.map Sigma.fst := by
    rw [Multiset.map_map]
    refine Multiset.map_congr rfl fun x hx => ?_
    exact hkeys x.1 x.2 (Finmap.lookup_eq_some_iff.mpr hx)
  rw [← Multiset.coe_nodup, ← Multiset.map_coe, show (walk : Multiset StateEntry) = _ from hwalk, hmap]
  exact Multiset.nodup_keys.mpr state.nodupKeys

/-- A call that does not set the flag leaves the state as it is. -/
theorem state_eq_of_not_marksDirty {e : StateSyncEngine} {op : EngineOp}
    (h : MerkleEngine.marksDirty e op = false) : (op.call sha3 e).state = e.state := by
  match op with
  | .sync (.put _ _ _ _) => cases h
  | .sync (.delete key nowMs order) =>
      show (e.delete sha3 key nowMs order).1.state = e.state
      unfold StateSyncEngine.delete
      rw [if_pos (of_decide_eq_false h)]
  | .sync (.applyRemote entry) =>
      show (e.applyRemote entry).1.state = e.state
      rw [StateSyncEngine.applyRemote_state]
      unfold applied
      unfold MerkleEngine.marksDirty at h
      split
      · rename_i hnone
        simp [hnone] at h
      · rename_i localEntry hlocal
        simp only [hlocal] at h
        split
        · rename_i hbefore
          simp [hbefore] at h
        · rfl
        · rfl
        · rename_i hconcurrent
          simp only [hconcurrent, bne_eq_false_iff_eq] at h
          simp only [h]
  | .resolveConflict key chooseLocal =>
      show (e.resolveConflict key chooseLocal).1.state = e.state
      have hnone : e.conflicts.lookup key = none := by simpa [MerkleEngine.marksDirty] using h
      simp only [StateSyncEngine.resolveConflict, hnone]

/-- The invariant of the cache: keys as above, and a clean flag means that the stored root is that of the state. -/
structure Cached (sha3 : List UInt8 → EntryHash) (m : MerkleEngine) : Prop where
  keys : KeysOk m.engine
  fresh : m.merkleDirty = false → ∀ walk, IsWalk m.engine.state walk →
    m.merkleRoot = buildTreeLevel sha3 ((sortByKey walk).map .leaf)

/-- No entries, nothing to sort. -/
theorem sortByKey_nil : sortByKey [] = [] := by
  unfold sortByKey
  simp

/-- **What `build_merkle_tree` returns**, from the cache or not. -/
theorem Cached.build (h : Cached sha3 m) {walk : List StateEntry} (hwalk : IsWalk m.engine.state walk) :
    (m.buildMerkleTree sha3 walk).2 = buildTreeLevel sha3 ((sortByKey walk).map .leaf) := by
  unfold MerkleEngine.buildMerkleTree
  split
  · rename_i hclean
    simp only [Bool.and_eq_true, Bool.not_eq_true'] at hclean
    exact h.fresh hclean.1 walk hwalk
  · split
    · rename_i hempty
      rw [List.isEmpty_iff.mp hempty, sortByKey_nil]
      simp [buildTreeLevel, reduceBack]
    · rfl

/-- Building leaves the engine below as it is. -/
theorem buildMerkleTree_engine (m : MerkleEngine) (walk : List StateEntry) :
    (m.buildMerkleTree sha3 walk).1.engine = m.engine := by
  unfold MerkleEngine.buildMerkleTree
  split
  · rfl
  · split <;> rfl

/-- **The invariant of the cache holds in every run.** -/
theorem cached_of_reachable (h : (merkleRuns sha3).Reachable (fun _ _ => True) m) : Cached sha3 m := by
  refine System.Reachable.invariant (P := Cached sha3) ?_ ?_ h
  · rintro m ⟨regionId, strategy, rfl⟩
    exact ⟨keysOk_new regionId strategy, fun hdirty => absurd hdirty Bool.noConfusion⟩
  · intro m op m' hm _ hstep
    cases op with
    | call op =>
        cases hstep
        refine ⟨hm.keys.call, fun hdirty walk hwalk => ?_⟩
        replace hdirty : (m.merkleDirty || MerkleEngine.marksDirty m.engine op) = false := hdirty
        rw [Bool.or_eq_false_iff] at hdirty
        have hsame : (op.call sha3 m.engine).state = m.engine.state := state_eq_of_not_marksDirty hdirty.2
        exact hm.fresh hdirty.1 walk (hsame ▸ hwalk)
    | buildMerkleTree walk =>
        replace hstep : (if IsWalk m.engine.state walk then some (m.buildMerkleTree sha3 walk).1 else none) = some m' :=
          hstep
        split at hstep
        · rename_i hwalk
          cases hstep
          refine ⟨by rw [buildMerkleTree_engine]; exact hm.keys, fun hdirty walk' hwalk' => ?_⟩
          rw [buildMerkleTree_engine] at hwalk'
          have hroot : (m.buildMerkleTree sha3 walk).1.merkleRoot = (m.buildMerkleTree sha3 walk).2 := by
            unfold MerkleEngine.buildMerkleTree
            split
            · rfl
            · split <;> rfl
          rw [hroot, hm.build hwalk, sortByKey_eq hm.keys.stored hwalk hwalk']
        · cases hstep

/-! ## The tree of the entry hashes -/

/-- The shape of the tree, with the entry hashes at its leaves. -/
def hashTree (entries : List StateEntry) : Option (PairTree EntryHash) :=
  reduceBack .node (entries.map fun entry => .leaf entry.hash)

/-- The hash of a node. -/
def nodeHash (sha3 : List UInt8 → EntryHash) : PairTree EntryHash → EntryHash
  | .leaf hash => hash
  | .node l r => sha3 (pairBytes (nodeHash sha3 l) (nodeHash sha3 r))

/-- The strings hashed for the inner nodes. -/
def innerStrings (sha3 : List UInt8 → EntryHash) : PairTree EntryHash → List (List UInt8)
  | .leaf _ => []
  | .node l r => pairBytes (nodeHash sha3 l) (nodeHash sha3 r) :: (innerStrings sha3 l ++ innerStrings sha3 r)

/-- What is hashed for the root of some entries. -/
def rootStrings (sha3 : List UInt8 → EntryHash) (entries : List StateEntry) : List (List UInt8) :=
  ((hashTree entries).map (innerStrings sha3)).getD []

/-- The root hash of the source is the hash of this tree. -/
theorem buildTreeLevel_hash (sha3 : List UInt8 → EntryHash) (entries : List StateEntry) :
    (buildTreeLevel sha3 (entries.map .leaf)).map (·.hash) = (hashTree entries).map (nodeHash sha3) := by
  have hnodes : ∀ l, (reduceBack (MerkleNode.internal sha3) l).map (·.hash) =
      reduceBack (fun a b => sha3 (pairBytes a b)) (l.map (·.hash)) := map_reduceBack fun _ _ => rfl
  have htree : ∀ l, (reduceBack PairTree.node l).map (nodeHash sha3) =
      reduceBack (fun a b => sha3 (pairBytes a b)) (l.map (nodeHash sha3)) := map_reduceBack fun _ _ => rfl
  unfold buildTreeLevel hashTree
  rw [hnodes, htree, List.map_map, List.map_map]
  rfl

/-- **`Matches sha3 t u`** — the two trees have the same hashes at the same places, where an entry hash of one may
stand for an inner node of the other that has this hash. -/
inductive Matches (sha3 : List UInt8 → EntryHash) : PairTree EntryHash → PairTree EntryHash → Prop
  | leaf (hash : EntryHash) : Matches sha3 (.leaf hash) (.leaf hash)
  | node {l r l' r' : PairTree EntryHash} :
      Matches sha3 l l' → Matches sha3 r r' → Matches sha3 (.node l r) (.node l' r')
  | leafForNode (l r : PairTree EntryHash) : Matches sha3 (.leaf (nodeHash sha3 (.node l r))) (.node l r)
  | nodeForLeaf (l r : PairTree EntryHash) : Matches sha3 (.node l r) (.leaf (nodeHash sha3 (.node l r)))

/-- **A root binds the tree of the entry hashes**, and nothing more. -/
theorem nodeHash_eq_iff_matches {hashed : List (List UInt8)} (hcf : NoCollisions sha3 hashed)
    {t u : PairTree EntryHash} (ht : innerStrings sha3 t ⊆ hashed) (hu : innerStrings sha3 u ⊆ hashed) :
    nodeHash sha3 t = nodeHash sha3 u ↔ Matches sha3 t u := by
  constructor
  · intro h
    induction t generalizing u with
    | leaf hash =>
        cases u with
        | leaf hash' =>
            rw [show hash = hash' from h]
            exact .leaf hash'
        | node l' r' =>
            rw [show hash = _ from h]
            exact .leafForNode l' r'
    | node l r ihl ihr =>
        cases u with
        | leaf hash' =>
            rw [← show _ = hash' from h]
            exact .nodeForLeaf l r
        | node l' r' =>
            obtain ⟨htop, hbelow⟩ := List.cons_subset.mp ht
            obtain ⟨htop', hbelow'⟩ := List.cons_subset.mp hu
            obtain ⟨hl, hr⟩ := List.append_subset.mp hbelow
            obtain ⟨hl', hr'⟩ := List.append_subset.mp hbelow'
            obtain ⟨hleft, hright⟩ := pairBytes_inj (hcf _ htop _ htop' h)
            exact .node (ihl hl hl' hleft) (ihr hr hr' hright)
  · intro h
    clear ht hu
    induction h with
    | leaf hash => rfl
    | node _ _ ihl ihr =>
        show sha3 _ = sha3 _
        rw [ihl, ihr]
    | leafForNode l r => rfl
    | nodeForLeaf l r => rfl

/-- Trees of one shape that match are equal. -/
theorem Matches.eq_of_shape {t u : PairTree EntryHash} (h : Matches sha3 t u) (hshape : t.shape = u.shape) :
    t = u := by
  induction h with
  | leaf hash => rfl
  | node _ _ ihl ihr =>
      obtain ⟨hl, hr⟩ := PairTree.node.inj hshape
      rw [ihl hl, ihr hr]
  | leafForNode l r => cases hshape
  | nodeForLeaf l r => cases hshape

/-- A tree matches itself. -/
theorem Matches.refl (t : PairTree EntryHash) : Matches sha3 t t := by
  induction t with
  | leaf hash => exact .leaf hash
  | node l r ihl ihr => exact .node ihl ihr

/-- Trees that match are equal where no leaf of one has the hash of an inner node of the other. -/
theorem Matches.eq_of_apart {t u : PairTree EntryHash} {inner inner' : List EntryHash} (h : Matches sha3 t u)
    (ht : t.All (· ∉ inner')) (hu : u.All (· ∉ inner)) (hinner : ∀ s ∈ innerStrings sha3 t, sha3 s ∈ inner)
    (hinner' : ∀ s ∈ innerStrings sha3 u, sha3 s ∈ inner') : t = u := by
  induction h with
  | leaf hash => rfl
  | node _ _ ihl ihr =>
      have hbelow := fun s hs => hinner s (List.mem_cons_of_mem _ hs)
      have hbelow' := fun s hs => hinner' s (List.mem_cons_of_mem _ hs)
      rw [ihl ht.1 hu.1 (fun s hs => hbelow s (List.mem_append_left _ hs))
          fun s hs => hbelow' s (List.mem_append_left _ hs),
        ihr ht.2 hu.2 (fun s hs => hbelow s (List.mem_append_right _ hs))
          fun s hs => hbelow' s (List.mem_append_right _ hs)]
  | leafForNode l r => exact absurd (hinner' _ List.mem_cons_self) ht
  | nodeForLeaf l r => exact absurd (hinner _ List.mem_cons_self) hu

/-- Both lists have a tree, and the trees match. -/
def SameTree (sha3 : List UInt8 → EntryHash) (entries entries' : List StateEntry) : Prop :=
  ∃ t u, hashTree entries = some t ∧ hashTree entries' = some u ∧ Matches sha3 t u

/-- As many entries on both sides: the trees match exactly if the hashes are the same, one by one. -/
theorem sameTree_iff_of_length {entries entries' : List StateEntry} (hne : entries ≠ [])
    (hlen : entries.length = entries'.length) :
    SameTree sha3 entries entries' ↔ entries.map (·.hash) = entries'.map (·.hash) := by
  have hleaves : ∀ l : List StateEntry, hashTree l = reduceBack .node ((l.map (·.hash)).map .leaf) := by
    intro l
    rw [List.map_map]
    rfl
  constructor
  · rintro ⟨t, u, ht, hu, hmatch⟩
    have hshape : t.shape = u.shape := by
      have h := PairTree.shape_reduceBack (entries.map (·.hash))
      have h' := PairTree.shape_reduceBack (entries'.map (·.hash))
      rw [← hleaves, ht, List.length_map, hlen] at h
      rw [← hleaves, hu, List.length_map] at h'
      exact Option.some.inj (h.trans h'.symm)
    have heq := hmatch.eq_of_shape hshape
    rw [hleaves] at ht hu
    rw [heq, ← hu] at ht
    have hnode : ∀ a b c d : PairTree EntryHash, PairTree.node a b = .node c d → a = c ∧ b = d :=
      fun a b c d h => PairTree.node.inj h
    have hlists := reduceBack_injective hnode (by simpa using hlen) ht
    exact List.map_injective_iff.mpr (fun a b h => PairTree.leaf.inj h) hlists
  · intro h
    obtain ⟨t, ht⟩ : ∃ t, hashTree entries = some t := reduceBack_eq_some _ (by simpa using hne)
    refine ⟨t, t, ht, ?_, .refl t⟩
    rw [hleaves, ← h, ← hleaves, ht]

/-! ## Roots and contents -/

/-- Both engines answer `get` with the same values. -/
def SameContents (e e' : StateSyncEngine) : Prop := ∀ key, (e.get key).map (·.value) = (e'.get key).map (·.value)

/-- The string hashed for an entry: its fields run together. -/
def entryString (entry : StateEntry) (order : List String) : List UInt8 :=
  entry.key.toUTF8.toList ++ entry.value ++ entry.clock.toBytes order ++ leBytes 8 entry.timestampMs.toNat

/-- What `get` shows of an entry. -/
def shown (entry : StateEntry) : Option (String × List UInt8) :=
  if entry.deleted then none else some (entry.key, entry.value)

/-- What the tree takes for one: entries with the same hash, of which `get` shows different things. -/
def LookAlike (a b : StateEntry) : Prop := a.hash = b.hash ∧ shown a ≠ shown b

instance (a b : StateEntry) : Decidable (LookAlike a b) := inferInstanceAs (Decidable (_ ∧ _))

/-- No entry of one list is taken for something else of the other: not for another entry, and not for an inner node. -/
structure TellsApart (sha3 : List UInt8 → EntryHash) (entries entries' : List StateEntry) : Prop where
  noLookAlike : ∀ a ∈ entries, ∀ b ∈ entries', ¬ LookAlike a b
  noInner : ∀ a ∈ entries, a.hash ∉ (rootStrings sha3 entries').map sha3
  noInner' : ∀ b ∈ entries', b.hash ∉ (rootStrings sha3 entries).map sha3

/-- Sorting keeps the entries. -/
theorem mem_sortByKey {walk : List StateEntry} {entry : StateEntry} : entry ∈ sortByKey walk ↔ entry ∈ walk :=
  (List.mergeSort_perm walk _).mem_iff

/-- And their number. -/
theorem length_sortByKey (walk : List StateEntry) : (sortByKey walk).length = walk.length :=
  (List.mergeSort_perm walk _).length_eq

/-- `compare_merkle_roots` against the root of another engine says whether the trees match. -/
theorem compareMerkleRoots_iff {A B : MerkleEngine} (hA : Cached sha3 A) (hB : Cached sha3 B)
    {walkA walkB : List StateEntry} (hwalkA : IsWalk A.engine.state walkA) (hwalkB : IsWalk B.engine.state walkB)
    {hashed : List (List UInt8)} (hcf : NoCollisions sha3 hashed)
    (hstringsA : rootStrings sha3 (sortByKey walkA) ⊆ hashed)
    (hstringsB : rootStrings sha3 (sortByKey walkB) ⊆ hashed) :
    (∃ root, (B.merkleRootHash sha3 walkB).2 = some root ∧ (A.compareMerkleRoots sha3 walkA root).2 = true) ↔
      SameTree sha3 (sortByKey walkA) (sortByKey walkB) := by
  have hours : (A.merkleRootHash sha3 walkA).2 = (hashTree (sortByKey walkA)).map (nodeHash sha3) := by
    rw [← buildTreeLevel_hash, ← hA.build hwalkA]
    rfl
  have htheirs : (B.merkleRootHash sha3 walkB).2 = (hashTree (sortByKey walkB)).map (nodeHash sha3) := by
    rw [← buildTreeLevel_hash, ← hB.build hwalkB]
    rfl
  have hcompare : ∀ root, (A.compareMerkleRoots sha3 walkA root).2 = true ↔
      (A.merkleRootHash sha3 walkA).2 = some root := by
    intro root
    show ((A.merkleRootHash sha3 walkA).2.map fun ourRoot => decide (ourRoot = root)).getD false = true ↔ _
    cases (A.merkleRootHash sha3 walkA).2 with
    | none => simp
    | some ours => simp
  unfold SameTree
  cases htreeA : hashTree (sortByKey walkA) with
  | none => simp [hcompare, hours, htreeA]
  | some t =>
      cases htreeB : hashTree (sortByKey walkB) with
      | none => simp [htheirs, htreeB]
      | some u =>
          unfold rootStrings at hstringsA hstringsB
          rw [htreeA] at hstringsA
          rw [htreeB] at hstringsB
          have hmatch := nodeHash_eq_iff_matches hcf hstringsA hstringsB
          simp only [hcompare, hours, htheirs, htreeA, htreeB, Option.map_some, Option.some.injEq]
          constructor
          · rintro ⟨root, hu, ht⟩
            exact ⟨t, u, rfl, rfl, hmatch.mp (ht.trans hu.symm)⟩
          · rintro ⟨t', u', rfl, rfl, h⟩
            exact ⟨_, rfl, hmatch.mpr h⟩

theorem ne_nil_of_hashTree {entries : List StateEntry} {t : PairTree EntryHash} (h : hashTree entries = some t) :
    entries ≠ [] := by
  rintro rfl
  simp [hashTree, reduceBack] at h

/-- The tree of a list of entries has a leaf for each of them. -/
theorem size_hashTree {entries : List StateEntry} {t : PairTree EntryHash} (h : hashTree entries = some t) :
    t.size = entries.length := by
  have hcount := PairTree.size_reduceBack (l := entries.map (·.hash)) (by simpa using ne_nil_of_hashTree h)
  rw [List.map_map, List.length_map] at hcount
  exact Option.some.inj ((congrArg (Option.map PairTree.size) h).symm.trans hcount)

/-- Entries that are told apart have one tree only if they have the same hashes, in the same order. -/
theorem SameTree.hashes_eq {entries entries' : List StateEntry} (h : SameTree sha3 entries entries')
    (hapart : TellsApart sha3 entries entries') : entries.map (·.hash) = entries'.map (·.hash) := by
  have hsame := h
  obtain ⟨t, u, ht, hu, hmatch⟩ := h
  have hleaves : ∀ {l : List StateEntry} {t : PairTree EntryHash}, hashTree l = some t → ∀ inner : List EntryHash,
      (∀ a ∈ l, a.hash ∉ inner) → t.All (· ∉ inner) := by
    intro l t ht inner hl
    refine PairTree.all_reduceBack (fun leaf hleaf => ?_) ht
    obtain ⟨a, ha, rfl⟩ := List.mem_map.mp hleaf
    exact hl a ha
  have hstrings : ∀ {l : List StateEntry} {t : PairTree EntryHash}, hashTree l = some t →
      ∀ s ∈ innerStrings sha3 t, sha3 s ∈ (rootStrings sha3 l).map sha3 := by
    intro l t ht s hs
    unfold rootStrings
    rw [ht]
    exact List.mem_map_of_mem hs
  have heq := hmatch.eq_of_apart (hleaves ht _ hapart.noInner) (hleaves hu _ hapart.noInner') (hstrings ht) (hstrings hu)
  -- equal trees have as many leaves
  have hlen : entries.length = entries'.length := by rw [← size_hashTree ht, heq, size_hashTree hu]
  exact (sameTree_iff_of_length (ne_nil_of_hashTree ht) hlen).mp hsame

/-- Entry by entry the same hash, and no two that only look alike: then the same is shown. -/
theorem shown_eq_of_hashes {entries entries' : List StateEntry}
    (hhashes : entries.map (·.hash) = entries'.map (·.hash))
    (hlook : ∀ a ∈ entries, ∀ b ∈ entries', ¬ LookAlike a b) : entries.map shown = entries'.map shown := by
  induction entries generalizing entries' with
  | nil =>
      have hnil : entries' = [] := List.map_eq_nil_iff.mp hhashes.symm
      rw [hnil]
  | cons a entries ih =>
      cases entries' with
      | nil => cases hhashes
      | cons b entries' =>
          obtain ⟨hhead, htail⟩ := List.cons.inj hhashes
          have hsame : shown a = shown b := by
            by_contra hne
            exact hlook a List.mem_cons_self b List.mem_cons_self ⟨hhead, hne⟩
          have hrest := ih htail fun a ha b hb => hlook a (List.mem_cons_of_mem _ ha) b (List.mem_cons_of_mem _ hb)
          rw [List.map_cons, List.map_cons, hsame, hrest]

/-- An entry that shows something shows it under its own key. -/
theorem key_of_shown {entry : StateEntry} {key : String} {value : List UInt8} (h : shown entry = some (key, value)) :
    key = entry.key := by
  unfold shown at h
  split at h
  · cases h
  · exact (Prod.mk.inj (Option.some.inj h)).1.symm

/-- What `get` answers for a key is what the entry under the key shows. -/
theorem mem_shown_iff {state : StateMap} (hkeys : KeysMatch state) {walk : List StateEntry} (hwalk : IsWalk state walk)
    {key : String} {value : List UInt8} :
    (key, value) ∈ (sortByKey walk).filterMap shown ↔
      ((state.lookup key).filter fun entry => !entry.deleted).map (·.value) = some value := by
  rw [List.mem_filterMap]
  constructor
  · rintro ⟨entry, hentry, hshown⟩
    obtain ⟨key', hfound⟩ := (mem_walk hwalk).mp (mem_sortByKey.mp hentry)
    have hkey := hkeys key' entry hfound
    unfold shown at hshown
    split at hshown
    · cases hshown
    · next hlive =>
        obtain ⟨rfl, rfl⟩ := Prod.mk.inj (Option.some.inj hshown)
        rw [hkey, hfound, Option.filter_some, if_pos (by simpa using hlive)]
        rfl
  · intro h
    obtain ⟨entry, hfilter, rfl⟩ := Option.map_eq_some_iff.mp h
    obtain ⟨hfound, hlive⟩ := Option.filter_eq_some_iff.mp hfilter
    refine ⟨entry, mem_sortByKey.mpr ((mem_walk hwalk).mpr ⟨key, hfound⟩), ?_⟩
    unfold shown
    rw [if_neg (by simpa using hlive), hkeys key entry hfound]

/-- The keys shown come in order. -/
theorem shown_sorted (walk : List StateEntry) :
    ((sortByKey walk).filterMap shown).Pairwise fun p q => p.1 ≤ q.1 := by
  refine (sortByKey_pairwise walk).filterMap _ ?_
  rintro a b hab ⟨key, value⟩ hp ⟨key', value'⟩ hq
  rw [key_of_shown hp, key_of_shown hq]
  exact hab

/-- Nothing is shown twice, since no two entries have one key. -/
theorem shown_nodup {state : StateMap} (hkeys : KeysMatch state) {walk : List StateEntry} (hwalk : IsWalk state walk) :
    ((sortByKey walk).filterMap shown).Nodup := by
  have hnodup : ((sortByKey walk).map (·.key)).Nodup :=
    ((List.mergeSort_perm walk _).map (·.key)).nodup_iff.mpr (nodup_keys hkeys hwalk)
  refine (List.pairwise_map.mp hnodup).filterMap _ ?_
  rintro a b hab ⟨key, value⟩ hp ⟨key', value'⟩ hq heq
  apply hab
  rw [← key_of_shown hp, ← key_of_shown hq, (Prod.mk.inj heq).1]

/-- **The contents are what the sorted entries show.** -/
theorem sameContents_iff {e e' : StateSyncEngine} (hkeys : KeysMatch e.state) (hkeys' : KeysMatch e'.state)
    {walk walk' : List StateEntry} (hwalk : IsWalk e.state walk) (hwalk' : IsWalk e'.state walk') :
    SameContents e e' ↔ (sortByKey walk).filterMap shown = (sortByKey walk').filterMap shown := by
  have hget : ∀ key value, (e.get key).map (·.value) = some value ↔ (key, value) ∈ (sortByKey walk).filterMap shown :=
    fun key value => (mem_shown_iff hkeys hwalk).symm
  have hget' : ∀ key value, (e'.get key).map (·.value) = some value ↔
      (key, value) ∈ (sortByKey walk').filterMap shown := fun key value => (mem_shown_iff hkeys' hwalk').symm
  constructor
  · intro h
    have hmem : ∀ p, p ∈ (sortByKey walk).filterMap shown ↔ p ∈ (sortByKey walk').filterMap shown := by
      rintro ⟨key, value⟩
      rw [← hget, ← hget', h key]
    -- the two lists have the same members, one for a key and in the order of the keys
    refine ((List.perm_ext_iff_of_nodup (shown_nodup hkeys hwalk) (shown_nodup hkeys' hwalk')).mpr hmem).eq_of_pairwise
      ?_ (shown_sorted walk) (shown_sorted walk')
    rintro ⟨key, value⟩ ⟨key', value'⟩ hp hq hle hle'
    obtain rfl : key = key' := le_antisymm hle hle'
    have hvalue := (hget key value).mpr hp
    rw [(hget key value').mpr ((hmem _).mpr hq)] at hvalue
    rw [Option.some.inj hvalue]
  · intro h key
    apply Option.ext
    intro value
    rw [hget, hget', h]

/-- One entry is sorted. -/
theorem sortByKey_singleton (entry : StateEntry) : sortByKey [entry] = [entry] := by
  unfold sortByKey
  simp

/-- For one entry only its own string is hashed. -/
theorem rootStrings_singleton (entry : StateEntry) : rootStrings sha3 (sortByKey [entry]) = [] := by
  rw [sortByKey_singleton]
  simp [rootStrings, hashTree, reduceBack, innerStrings]

/-- **The conclusion of a comparison**: if the roots are equal, the contents are. -/
def RootsTell (sha3 : List UInt8 → EntryHash) (A B : MerkleEngine) (walkA walkB : List StateEntry) : Prop :=
  ∀ root, (B.merkleRootHash sha3 walkB).2 = some root → (A.compareMerkleRoots sha3 walkA root).2 = true →
    SameContents A.engine B.engine

/-- A new engine that has received one entry, with whatever hash this came. -/
def received (sha3 : List UInt8 → EntryHash) (entry : StateEntry) : MerkleEngine :=
  (MerkleEngine.new "a" .lastWriterWins).call sha3 (.sync (.applyRemote entry))

/-- It is the state of a run. -/
theorem reachable_received (sha3 : List UInt8 → EntryHash) (entry : StateEntry) :
    (merkleRuns sha3).Reachable (fun _ _ => True) (received sha3 entry) :=
  ⟨_, .step (.init ⟨"a", .lastWriterWins, rfl⟩) (a := .call (.sync (.applyRemote entry))) trivial rfl⟩

/-- Its one entry is its walk. -/
theorem isWalk_received (sha3 : List UInt8 → EntryHash) (entry : StateEntry) :
    IsWalk (received sha3 entry).engine.state [entry] := rfl

/-- **Two entries that look alike are enough**: of states of one entry each, the roots tell the contents exactly if the
two do not look alike. -/
theorem rootsTell_received_iff (sha3 : List UInt8 → EntryHash) (a b : StateEntry) :
    RootsTell sha3 (received sha3 a) (received sha3 b) [a] [b] ↔ ¬ LookAlike a b := by
  have hA := cached_of_reachable (reachable_received sha3 a)
  have hB := cached_of_reachable (reachable_received sha3 b)
  have hcf : NoCollisions sha3 [] := fun _ h => absurd h List.not_mem_nil
  have hroots := compareMerkleRoots_iff hA hB (isWalk_received sha3 a) (isWalk_received sha3 b) hcf
    (by rw [rootStrings_singleton]; exact List.nil_subset _) (by rw [rootStrings_singleton]; exact List.nil_subset _)
  have htree : SameTree sha3 (sortByKey [a]) (sortByKey [b]) ↔ a.hash = b.hash := by
    have hlen : [a].length = [b].length := rfl
    rw [sortByKey_singleton, sortByKey_singleton, sameTree_iff_of_length (List.cons_ne_nil a []) hlen]
    simp
  have hcontents : SameContents (received sha3 a).engine (received sha3 b).engine ↔ shown a = shown b := by
    rw [sameContents_iff hA.keys.stored hB.keys.stored (isWalk_received sha3 a) (isWalk_received sha3 b),
      sortByKey_singleton, sortByKey_singleton]
    cases hshown : shown a <;> cases hshown' : shown b <;> simp [hshown, hshown']
  unfold RootsTell LookAlike
  rw [not_and_not_right, ← htree, ← hroots, ← hcontents]
  constructor
  · rintro h ⟨root, hroot, hcompare⟩
    exact h root hroot hcompare
  · intro h root hroot hcompare
    exact h ⟨root, hroot, hcompare⟩

/-- **When equal roots mean equal contents.** For engines in any reachable states, when no two of the hashed strings
collide: they do if the entries of the one can be told apart from those of the other by their hashes, however many
there are on each side. This is sharp: any two entries that look alike make two states of one entry each whose equal
roots say nothing. Exactly, equality of the roots implies the same contents if it is not the case that the trees of the
entry hashes match and the sorted entries show different things. With as many entries on both sides the trees match
exactly if the hashes are the same in the order of the keys; and entries whose hash is that of their own fields have the
same hash exactly if these fields run together to one string. -/
theorem roots_bind_contents_iff {A B : MerkleEngine} (hA : (merkleRuns sha3).Reachable (fun _ _ => True) A)
    (hB : (merkleRuns sha3).Reachable (fun _ _ => True) B) {walkA walkB : List StateEntry}
    (hwalkA : IsWalk A.engine.state walkA) (hwalkB : IsWalk B.engine.state walkB)
    {hashed : List (List UInt8)} (hcf : NoCollisions sha3 hashed)
    (hstringsA : rootStrings sha3 (sortByKey walkA) ⊆ hashed)
    (hstringsB : rootStrings sha3 (sortByKey walkB) ⊆ hashed) :
    (TellsApart sha3 (sortByKey walkA) (sortByKey walkB) → RootsTell sha3 A B walkA walkB) ∧
    (∀ a b, RootsTell sha3 (received sha3 a) (received sha3 b) [a] [b] ↔ ¬ LookAlike a b) ∧
    (RootsTell sha3 A B walkA walkB ↔
      ¬ (SameTree sha3 (sortByKey walkA) (sortByKey walkB) ∧
        (sortByKey walkA).filterMap shown ≠ (sortByKey walkB).filterMap shown)) ∧
    (walkA ≠ [] → walkA.length = walkB.length →
      (SameTree sha3 (sortByKey walkA) (sortByKey walkB) ↔
        (sortByKey walkA).map (·.hash) = (sortByKey walkB).map (·.hash))) ∧
    ∀ a b order order', entryString a order ∈ hashed → entryString b order' ∈ hashed →
      a.hash = sha3 (entryString a order) → b.hash = sha3 (entryString b order') →
      (a.hash = b.hash ↔ entryString a order = entryString b order') := by
  have hcachedA := cached_of_reachable hA
  have hcachedB := cached_of_reachable hB
  have hroots := compareMerkleRoots_iff hcachedA hcachedB hwalkA hwalkB hcf hstringsA hstringsB
  have hcontents := sameContents_iff hcachedA.keys.stored hcachedB.keys.stored hwalkA hwalkB
  refine ⟨?_, rootsTell_received_iff sha3, ?_, ?_, ?_⟩
  · intro hapart root hroot hcompare
    have hhashes := (hroots.mp ⟨root, hroot, hcompare⟩).hashes_eq hapart
    have hshown := shown_eq_of_hashes hhashes hapart.noLookAlike
    have hmap : ∀ l : List StateEntry, l.filterMap shown = (l.map shown).filterMap id := fun l => by
      rw [List.filterMap_map, Function.id_comp]
    rw [hcontents, hmap, hmap, hshown]
  · rw [not_and_not_right, ← hroots, ← hcontents]
    constructor
    · rintro h ⟨root, hroot, hcompare⟩
      exact h root hroot hcompare
    · intro h root hroot hcompare
      exact h ⟨root, hroot, hcompare⟩
  · intro hne hlen
    apply sameTree_iff_of_length
    · rw [← List.length_pos_iff, length_sortByKey]
      exact List.length_pos_of_ne_nil hne
    · rw [length_sortByKey, length_sortByKey, hlen]
  · intro a b order order' ha hb hhash hhash'
    rw [hhash, hhash']
    exact ⟨hcf _ ha _ hb, fun h => by rw [h]⟩

/-- The entries of an engine of region `a` that has put the keys `a`, `b` and `c`. -/
def threeEntries : List StateEntry :=
  [.new scriptHash "a" [1] ((VectorClock.new.increment "a").increment "a") "a" 100 ["a"],
   .new scriptHash "b" [2] (((VectorClock.new.increment "a").increment "a").increment "a") "a" 200 ["a"],
   .new scriptHash "c" [3] ((((VectorClock.new.increment "a").increment "a").increment "a").increment "a") "a" 300 ["a"]]

/-- That engine. -/
def threePuts : MerkleEngine :=
  (((MerkleEngine.new "a" .lastWriterWins).call scriptHash (.sync (.put "a" [1] 100 ["a"]))).call scriptHash
    (.sync (.put "b" [2] 200 ["a"]))).call scriptHash (.sync (.put "c" [3] 300 ["a"]))

/-- It is the state of a run. -/
theorem reachable_threePuts : (merkleRuns scriptHash).Reachable (fun _ _ => True) threePuts := by
  have hnew : (merkleRuns scriptHash).Run (fun _ _ => True) [.new "a" .lastWriterWins] :=
    .init ⟨"a", .lastWriterWins, rfl⟩
  have hone := System.Run.step hnew (a := .call (.sync (.put "a" [1] 100 ["a"]))) trivial rfl
  have htwo := System.Run.step hone (a := .call (.sync (.put "b" [2] 200 ["a"]))) trivial rfl
  exact ⟨_, .step htwo (a := .call (.sync (.put "c" [3] 300 ["a"]))) trivial rfl⟩

/-- The order in which its map yields the entries. -/
theorem isWalk_threePuts : IsWalk threePuts.engine.state threeEntries := by decide +kernel

/-- An engine of another region that has received these entries in another order. -/
def mirrored : MerkleEngine :=
  (((MerkleEngine.new "b" .lastWriterWins).call scriptHash (.sync (.applyRemote threeEntries[2]))).call scriptHash
    (.sync (.applyRemote threeEntries[0]))).call scriptHash (.sync (.applyRemote threeEntries[1]))

/-- It is the state of a run. -/
theorem reachable_mirrored : (merkleRuns scriptHash).Reachable (fun _ _ => True) mirrored := by
  have hnew : (merkleRuns scriptHash).Run (fun _ _ => True) [.new "b" .lastWriterWins] :=
    .init ⟨"b", .lastWriterWins, rfl⟩
  have hone := System.Run.step hnew (a := .call (.sync (.applyRemote threeEntries[2]))) trivial rfl
  have htwo := System.Run.step hone (a := .call (.sync (.applyRemote threeEntries[0]))) trivial rfl
  exact ⟨_, .step htwo (a := .call (.sync (.applyRemote threeEntries[1]))) trivial rfl⟩

/-- They are in the order of their keys. -/
theorem sortByKey_threeEntries : sortByKey threeEntries = threeEntries := by
  apply List.mergeSort_of_pairwise
  decide +kernel

/-- The tree of the three: the first is carried over, the others are paired. -/
theorem hashTree_threeEntries : hashTree threeEntries = some
    (.node (.node (.leaf threeEntries[1].hash) (.leaf threeEntries[2].hash)) (.leaf threeEntries[0].hash)) := by
  simp [hashTree, threeEntries, reduceBack, pairBack]

/-- An engine of region `a` after one `put`. -/
def putOnce (key : String) (value : List UInt8) : MerkleEngine :=
  (MerkleEngine.new "a" .lastWriterWins).call scriptHash (.sync (.put key value 100 ["a"]))

/-- The entry it holds. -/
def entryOnce (key : String) (value : List UInt8) : StateEntry :=
  ((StateSyncEngine.new "a" .lastWriterWins).put scriptHash key value 100 ["a"]).2

/-- It is the state of a run. -/
theorem reachable_putOnce (key : String) (value : List UInt8) :
    (merkleRuns scriptHash).Reachable (fun _ _ => True) (putOnce key value) :=
  ⟨_, .step (.init ⟨"a", .lastWriterWins, rfl⟩) (a := .call (.sync (.put key value 100 ["a"]))) trivial rfl⟩

/-- Its one entry is its walk. -/
theorem isWalk_putOnce (key : String) (value : List UInt8) :
    IsWalk (putOnce key value).engine.state [entryOnce key value] := rfl

/-- Three entries put by one engine and received by another, in another order: the roots are equal. -/
theorem roots_bind_contents_iff_three_entries :
    TellsApart scriptHash (sortByKey threeEntries) (sortByKey threeEntries) ∧
    ∃ root, (mirrored.merkleRootHash scriptHash threeEntries).2 = some root ∧
      (threePuts.compareMerkleRoots scriptHash threeEntries root).2 = true ∧
      SameContents threePuts.engine mirrored.engine := by
  have hwalk : IsWalk mirrored.engine.state threeEntries := by decide +kernel
  have hstrings : rootStrings scriptHash (sortByKey threeEntries) = innerStrings scriptHash
      (.node (.node (.leaf threeEntries[1].hash) (.leaf threeEntries[2].hash)) (.leaf threeEntries[0].hash)) := by
    rw [sortByKey_threeEntries, rootStrings, hashTree_threeEntries]
    rfl
  have hcf : NoCollisions scriptHash (rootStrings scriptHash (sortByKey threeEntries)) := by
    rw [hstrings]
    unfold NoCollisions
    decide +kernel
  have happly := roots_bind_contents_iff reachable_threePuts reachable_mirrored isWalk_threePuts hwalk hcf
    (List.Subset.refl _) (List.Subset.refl _)
  have hapart : TellsApart scriptHash (sortByKey threeEntries) (sortByKey threeEntries) := by
    refine ⟨?_, ?_, ?_⟩
    · rw [sortByKey_threeEntries]
      decide +kernel
    · rw [hstrings, sortByKey_threeEntries]
      decide +kernel
    · rw [hstrings, sortByKey_threeEntries]
      decide +kernel
  obtain ⟨root, hroot, hcompare⟩ := (compareMerkleRoots_iff (cached_of_reachable reachable_threePuts)
    (cached_of_reachable reachable_mirrored) isWalk_threePuts hwalk hcf (List.Subset.refl _)
    (List.Subset.refl _)).mpr ⟨_, _, by rw [sortByKey_threeEntries, hashTree_threeEntries],
      by rw [sortByKey_threeEntries, hashTree_threeEntries], .refl _⟩
  exact ⟨hapart, root, hroot, hcompare, happly.1 hapart root hroot hcompare⟩

/-- **The key and the value of an entry are run together.** `put("ab", [])` and `put("a", b"b")` at the same time give
the same root, and there is no collision of hashes in it. -/
theorem resplit_key_same_root :
    ∃ A B walkA walkB root, (merkleRuns scriptHash).Reachable (fun _ _ => True) A ∧
      (merkleRuns scriptHash).Reachable (fun _ _ => True) B ∧ IsWalk A.engine.state walkA ∧
      IsWalk B.engine.state walkB ∧
      NoCollisions scriptHash (rootStrings scriptHash (sortByKey walkA) ++ rootStrings scriptHash (sortByKey walkB) ++
        walkA.map (entryString · ["a"]) ++ walkB.map (entryString · ["a"])) ∧
      (B.merkleRootHash scriptHash walkB).2 = some root ∧ (A.compareMerkleRoots scriptHash walkA root).2 = true ∧
      ¬ SameContents A.engine B.engine := by
  have hA := reachable_putOnce "ab" []
  have hB := reachable_putOnce "a" [98]
  have hcf : NoCollisions scriptHash (rootStrings scriptHash (sortByKey [entryOnce "ab" []]) ++
      rootStrings scriptHash (sortByKey [entryOnce "a" [98]]) ++
        [entryOnce "ab" []].map (entryString · ["a"]) ++ [entryOnce "a" [98]].map (entryString · ["a"])) := by
    rw [rootStrings_singleton, rootStrings_singleton]
    unfold NoCollisions
    decide +kernel
  have hroots := compareMerkleRoots_iff (cached_of_reachable hA) (cached_of_reachable hB) (isWalk_putOnce "ab" [])
    (isWalk_putOnce "a" [98]) hcf (by rw [rootStrings_singleton]; exact List.nil_subset _)
    (by rw [rootStrings_singleton]; exact List.nil_subset _)
  have hsame : SameTree scriptHash (sortByKey [entryOnce "ab" []]) (sortByKey [entryOnce "a" [98]]) := by
    rw [sortByKey_singleton, sortByKey_singleton]
    apply (sameTree_iff_of_length (List.cons_ne_nil _ _) (by simp)).mpr
    decide +kernel
  obtain ⟨root, hroot, hcompare⟩ := hroots.mpr hsame
  refine ⟨_, _, _, _, root, hA, hB, isWalk_putOnce "ab" [], isWalk_putOnce "a" [98], hcf, hroot, hcompare, ?_⟩
  intro hcontents
  exact absurd (hcontents "ab") (by decide +kernel)

/-! ## The cache -/

/-- A walk is empty if the state is. -/
theorem walk_eq_nil_iff {state : StateMap} {walk : List StateEntry} (hwalk : IsWalk state walk) :
    walk = [] ↔ state = ∅ := by
  constructor
  · rintro rfl
    apply Finmap.ext_lookup
    intro key
    rw [Finmap.lookup_empty]
    cases hfound : state.lookup key with
    | none => rfl
    | some entry => exact absurd ((mem_walk hwalk).mpr ⟨key, hfound⟩) List.not_mem_nil
  · rintro rfl
    apply List.eq_nil_iff_forall_not_mem.mpr
    intro entry hentry
    obtain ⟨key, hkey⟩ := (mem_walk hwalk).mp hentry
    rw [Finmap.lookup_empty] at hkey
    cases hkey

/-- **The cached tree is never stale.** In every reachable engine `build_merkle_tree` returns what it would compute from
the state alone, that is with the cache thrown away and under any other walk: nothing if the state is empty, and else
the tree over the entries in the order of their keys. -/
theorem build_merkle_tree_fresh (hm : (merkleRuns sha3).Reachable (fun _ _ => True) m) {walk walk' : List StateEntry}
    (hwalk : IsWalk m.engine.state walk) (hwalk' : IsWalk m.engine.state walk') :
    (m.buildMerkleTree sha3 walk).2 = ((MerkleEngine.mk m.engine none true).buildMerkleTree sha3 walk').2 ∧
      ((m.buildMerkleTree sha3 walk).2 = none ↔ m.engine.state = ∅) ∧
      (m.engine.state ≠ ∅ → (m.buildMerkleTree sha3 walk).2 = buildTreeLevel sha3 ((sortByKey walk').map .leaf)) := by
  have hcached := cached_of_reachable hm
  have hbuilt := hcached.build hwalk
  rw [sortByKey_eq hcached.keys.stored hwalk hwalk'] at hbuilt
  refine ⟨?_, ?_, fun _ => hbuilt⟩
  · -- an engine whose flag is raised has nothing cached to go wrong
    have hdirty : Cached sha3 (MerkleEngine.mk m.engine none true) := ⟨hcached.keys, fun h => Bool.noConfusion h⟩
    rw [hbuilt, hdirty.build hwalk']
  · rw [hbuilt, ← walk_eq_nil_iff hwalk']
    constructor
    · intro hnone
      by_contra hne
      have hsorted : (sortByKey walk').map MerkleNode.leaf ≠ [] := by
        simpa [sortByKey, ← List.length_eq_zero_iff] using hne
      obtain ⟨root, hroot⟩ := reduceBack_eq_some (MerkleNode.internal sha3) hsorted
      exact Option.some_ne_none root (hroot.symm.trans hnone)
    · rintro rfl
      rw [sortByKey_nil]
      simp [buildTreeLevel, reduceBack]

/-- An engine that has put one key and built its tree. -/
def builtOnce : MerkleEngine := ((putOnce "x" [1]).buildMerkleTree scriptHash [entryOnce "x" [1]]).1

/-- The tree of that one entry is cached. -/
theorem builtOnce_merkleRoot : builtOnce.merkleRoot = some (.leaf (entryOnce "x" [1])) := by
  show buildTreeLevel scriptHash ((sortByKey [entryOnce "x" [1]]).map .leaf) = _
  rw [sortByKey_singleton]
  simp [buildTreeLevel, reduceBack]

/-- An older write of the same key comes in, and is ignored. -/
def afterIgnored : MerkleEngine :=
  builtOnce.call scriptHash (.sync (.applyRemote (.new scriptHash "x" [7] .new "b" 50 [])))

/-- A second key is put. -/
def afterChange : MerkleEngine := afterIgnored.call scriptHash (.sync (.put "y" [2] 200 ["a"]))

/-- The entry that the second `put` makes. -/
def secondEntry : StateEntry := (afterIgnored.engine.put scriptHash "y" [2] 200 ["a"]).2

/-- The calls up to there. -/
theorem run_afterChange : ∃ past, (merkleRuns scriptHash).Run (fun _ _ => True) (afterChange :: afterIgnored :: past) := by
  obtain ⟨past, hput⟩ := reachable_putOnce "x" [1]
  have hstep : (merkleRuns scriptHash).step (.buildMerkleTree [entryOnce "x" [1]]) (putOnce "x" [1]) = some builtOnce :=
    if_pos (isWalk_putOnce "x" [1])
  have hbuilt := System.Run.step hput trivial hstep
  have hignored := System.Run.step hbuilt
    (a := .call (.sync (.applyRemote (.new scriptHash "x" [7] .new "b" 50 [])))) trivial rfl
  exact ⟨_, .step hignored (a := .call (.sync (.put "y" [2] 200 ["a"]))) trivial rfl⟩

/-- The remote entry leaves the cached tree in use; the second `put` leaves it behind the state, and another is built. -/
theorem build_merkle_tree_fresh_after_change :
    (afterIgnored.merkleDirty = false ∧ afterIgnored.merkleRoot.isSome = true ∧
      (afterIgnored.buildMerkleTree scriptHash [entryOnce "x" [1]]).2 =
        ((MerkleEngine.mk afterIgnored.engine none true).buildMerkleTree scriptHash [entryOnce "x" [1]]).2) ∧
    (afterChange.merkleRoot = some (.leaf (entryOnce "x" [1])) ∧
      (afterChange.buildMerkleTree scriptHash [secondEntry, entryOnce "x" [1]]).2 =
        ((MerkleEngine.mk afterChange.engine none true).buildMerkleTree scriptHash [entryOnce "x" [1], secondEntry]).2 ∧
      (afterChange.buildMerkleTree scriptHash [secondEntry, entryOnce "x" [1]]).2 =
        some (.internal scriptHash (.leaf (entryOnce "x" [1])) (.leaf secondEntry))) := by
  obtain ⟨past, hrun⟩ := run_afterChange
  have hignored : (merkleRuns scriptHash).Reachable (fun _ _ => True) afterIgnored := by
    cases hrun with
    | step hrun => exact ⟨_, hrun⟩
  have hone : IsWalk afterIgnored.engine.state [entryOnce "x" [1]] := by decide +kernel
  have htwo : IsWalk afterChange.engine.state [secondEntry, entryOnce "x" [1]] := by decide +kernel
  have htwo' : IsWalk afterChange.engine.state [entryOnce "x" [1], secondEntry] := by decide +kernel
  have hsort : sortByKey [entryOnce "x" [1], secondEntry] = [entryOnce "x" [1], secondEntry] := by
    apply List.mergeSort_of_pairwise
    decide +kernel
  have hfresh := build_merkle_tree_fresh ⟨_, hrun⟩ htwo htwo'
  have hstate : afterChange.engine.state ≠ ∅ := fun hempty =>
    absurd ((walk_eq_nil_iff htwo).mpr hempty) (List.cons_ne_nil _ _)
  refine ⟨⟨by decide +kernel, ?_, (build_merkle_tree_fresh hignored hone hone).1⟩, builtOnce_merkleRoot, hfresh.1, ?_⟩
  · exact Option.isSome_iff_exists.mpr ⟨_, builtOnce_merkleRoot⟩
  · rw [hfresh.2.2 hstate, hsort]
    simp [buildTreeLevel, reduceBack, pairBack]

end WarmLogic.Federation
