/-
# WarmLogic.Mesh.AntiEntropy — reconciliation by Merkle fingerprints, of `kernel/mesh/anti_entropy.py`.

A state is a dict from keys to hash strings. The tree stands over the hash strings in the order of their keys, a last
odd node is paired with itself, and the keys are in no hash. `reconcile` asks for the peer's root, then for its subtree
hashes, then for its records; the answers are those of `mesh/dht.py`, given from the peer's state by the same functions.
A request for the records of one subtree is answered with all records.

So either all of the peer's records are passed on, or none (`missesNothing_iff`). Which of the two is decided by the
fingerprints, and two states with the same hash strings in key order have the same ones, whatever their keys. Where the
hash strings are digests and both states have one size, nothing else looks alike: the keys are all that is overlooked
(`reconcile_complete_iff`).

Two comparisons decide: that of the roots, and that of the subtree hashes. The second adds nothing to the first, as
the root is computed from the subtree hashes in the same way as from the leaves (`reduce_subtreeHashes`). The root is
a fold of the hash strings in key order alone, so equal sequences have equal roots whatever the keys; and digests
without collisions give the sequence back (`rootHash_eq_iff`).
-/
import WarmLogic.Lib.PairTree
import Mathlib.Data.List.AList
import Mathlib.Data.String.Basic

namespace WarmLogic.Mesh.AntiEntropy

open WarmLogic.Lib

/-! ## The tree -/

/-- A dict from keys to hash strings. -/
abbrev LocalState := AList fun _ : String => String

/-- `MerkleNode`: a leaf with its key, or a node over two. -/
inductive MerkleNode where
  | leaf (hash : String) (dataKey : Option String)
  | inner (hash : String) (left right : MerkleNode)
  deriving DecidableEq

namespace MerkleNode

def hash : MerkleNode → String
  | .leaf hash _ => hash
  | .inner hash _ _ => hash

def dataKey : MerkleNode → Option String
  | .leaf _ dataKey => dataKey
  | .inner _ _ _ => none

/-- A node over two others; `sha256` yields hex. -/
def parent (sha256 : String → String) (left right : MerkleNode) : MerkleNode :=
  .inner (sha256 (left.hash ++ right.hash)) left right

/-- `_collect_at_depth`, so many levels down. The comparison of the children is that of dataclasses, field by field. -/
def collectAtDepth : MerkleNode → Nat → List String
  | node, 0 => [node.hash]
  | .leaf hash _, _ + 1 => [hash]
  | .inner _ left right, depth + 1 =>
      left.collectAtDepth depth ++ (if right ≠ left then right.collectAtDepth depth else [])

end MerkleNode

/-- `state.items()`. -/
def items (state : LocalState) : List (String × String) := state.entries.map fun entry => (entry.1, entry.2)

/-- `sorted(leaves, key=lambda x: x[0])`. -/
def sortedLeaves (state : LocalState) : List (String × String) := (items state).mergeSort fun a b => decide (a.1 ≤ b.1)

/-- The leaves, in the order of their keys. -/
def leafNodes (state : LocalState) : List MerkleNode := (sortedLeaves state).map fun leaf => .leaf leaf.2 (some leaf.1)

/-- `build`: the root over the leaves, or a node for the empty state. -/
def build (sha256 : String → String) (state : LocalState) : MerkleNode :=
  match reduce (MerkleNode.parent sha256) (leafNodes state) with
  | [] => .leaf (sha256 "EMPTY") none
  | root :: _ => root

/-- The hash of the root. -/
def rootHash (sha256 : String → String) (state : LocalState) : String := (build sha256 state).hash

/-- How far down the subtrees are compared. -/
def subtreeDepth : Nat := 4

/-- `get_subtree_hashes`. -/
def subtreeHashes (sha256 : String → String) (state : LocalState) : List String :=
  (build sha256 state).collectAtDepth subtreeDepth

/-! ## Reconciliation -/

/-- The hash at a position, or the empty text behind the end. -/
def hashAt (hashes : List String) (i : Nat) : String := (hashes[i]?).getD ""

def findDivergentSubtrees (localHashes remoteHashes : List String) : List Nat :=
  (List.range (max localHashes.length remoteHashes.length)).filter fun i => hashAt localHashes i ≠ hashAt remoteHashes i

/-- The answer of `handle_merkle_root_request`. -/
def merkleRootResponse (sha256 : String → String) (peer : LocalState) : String := rootHash sha256 peer

/-- The answer of `handle_subtree_hashes_request`. -/
def subtreeHashesResponse (sha256 : String → String) (peer : LocalState) : List String := subtreeHashes sha256 peer

/-- The answer of `handle_subtree_records_request`; the index is not looked at. -/
def subtreeRecordsResponse (peer : LocalState) (_subtreeIdx : Nat) : List (String × String) := items peer

/-- What `reconcile` passed to the callback, in order, how often that succeeded, and how often not. -/
structure Reconciled where
  passed : List (String × String)
  synced : Nat
  conflicts : Nat

/-- Nothing passed on. -/
def Reconciled.nothing : Reconciled := ⟨[], 0, 0⟩

/-- `reconcile`, with `applies` the answers of the callback `_apply_remote_record`. -/
def reconcile (sha256 : String → String) (applies : String × String → Bool) (localState peer : LocalState) : Reconciled :=
  if merkleRootResponse sha256 peer = rootHash sha256 localState then .nothing
  else
    let divergent := findDivergentSubtrees (subtreeHashes sha256 localState) (subtreeHashesResponse sha256 peer)
    if divergent = [] then .nothing
    else
      let passed := divergent.flatMap (subtreeRecordsResponse peer)
      ⟨passed, passed.countP applies, passed.countP fun record => !applies record⟩

/-- Each record of the peer that is missing locally, or has another hash there, was passed on. -/
def MissesNothing (localState peer : LocalState) (r : Reconciled) : Prop :=
  ∀ key hash, peer.lookup key = some hash → localState.lookup key ≠ some hash → (key, hash) ∈ r.passed

/-- The fingerprints tell the two states apart. -/
def Distinguished (sha256 : String → String) (localState peer : LocalState) : Prop :=
  rootHash sha256 localState ≠ rootHash sha256 peer ∧
    findDivergentSubtrees (subtreeHashes sha256 localState) (subtreeHashes sha256 peer) ≠ []

/-- An item is an entry of the dict. -/
theorem mem_items {state : LocalState} {key hash : String} : (key, hash) ∈ items state ↔ state.lookup key = some hash := by
  have hlookup : state.lookup key = some hash ↔ (⟨key, hash⟩ : Sigma fun _ : String => String) ∈ state.entries :=
    AList.mem_lookup_iff
  rw [hlookup, items]
  constructor
  · intro h
    obtain ⟨⟨k, v⟩, hmem, heq⟩ := List.mem_map.1 h
    cases heq
    exact hmem
  · intro h
    exact List.mem_map.2 ⟨_, h, rfl⟩

/-- States told apart: all records of the peer are passed on. -/
theorem passed_of_distinguished {sha256 : String → String} {applies : String × String → Bool}
    {localState peer : LocalState} (h : Distinguished sha256 localState peer) :
    (reconcile sha256 applies localState peer).passed =
      (findDivergentSubtrees (subtreeHashes sha256 localState) (subtreeHashes sha256 peer)).flatMap
        (subtreeRecordsResponse peer) := by
  have hroot : ¬ merkleRootResponse sha256 peer = rootHash sha256 localState := Ne.symm h.1
  unfold reconcile
  rw [if_neg hroot]
  exact congrArg Reconciled.passed (if_neg h.2)

/-- States not told apart: none is. -/
theorem passed_of_not_distinguished {sha256 : String → String} {applies : String × String → Bool}
    {localState peer : LocalState} (h : ¬ Distinguished sha256 localState peer) :
    (reconcile sha256 applies localState peer).passed = [] := by
  unfold reconcile
  by_cases hroot : merkleRootResponse sha256 peer = rootHash sha256 localState
  · rw [if_pos hroot]
    rfl
  · rw [if_neg hroot]
    have hdivergent : findDivergentSubtrees (subtreeHashes sha256 localState) (subtreeHashes sha256 peer) = [] :=
      not_not.1 fun hne => h ⟨Ne.symm hroot, hne⟩
    exact congrArg Reconciled.passed (if_pos hdivergent)

/-- The peer has no record that the local state lacks. -/
def NothingToMiss (localState peer : LocalState) : Prop :=
  ∀ key hash, peer.lookup key = some hash → localState.lookup key = some hash

/-- Reconciliation misses nothing if and only if the fingerprints tell the states apart, or there is nothing to miss. -/
theorem missesNothing_iff (sha256 : String → String) (applies : String × String → Bool)
    (localState peer : LocalState) :
    MissesNothing localState peer (reconcile sha256 applies localState peer) ↔
      Distinguished sha256 localState peer ∨ NothingToMiss localState peer := by
  by_cases hdist : Distinguished sha256 localState peer
  · refine iff_of_true (fun key hash hpeer _ => ?_) (.inl hdist)
    obtain ⟨idx, hidx⟩ := List.exists_mem_of_ne_nil _ hdist.2
    rw [passed_of_distinguished hdist]
    exact List.mem_flatMap.2 ⟨idx, hidx, mem_items.2 hpeer⟩
  · rw [or_iff_right hdist]
    unfold MissesNothing
    rw [passed_of_not_distinguished hdist]
    constructor
    · intro h key hash hpeer
      by_contra hne
      exact absurd (h key hash hpeer hne) List.not_mem_nil
    · intro h key hash hpeer hne
      exact absurd (h key hash hpeer) hne

/-! ## What the fingerprints see -/

/-- The hash strings in the order of their keys. -/
def hashesInOrder (state : LocalState) : List String := (sortedLeaves state).map (·.2)

/-- Two hashes, one behind the other, hashed. -/
def combine (sha256 : String → String) (a b : String) : String := sha256 (a ++ b)

/-- The leaves have the hash strings. -/
theorem map_hash_leafNodes (state : LocalState) : (leafNodes state).map MerkleNode.hash = hashesInOrder state := by
  rw [leafNodes, List.map_map, hashesInOrder]
  rfl

/-- The nodes above have the combined ones. -/
theorem map_hash_reduce (sha256 : String → String) (nodes : List MerkleNode) :
    (reduce (MerkleNode.parent sha256) nodes).map MerkleNode.hash =
      reduce (combine sha256) (nodes.map MerkleNode.hash) :=
  map_reduce (fun _ _ => rfl) nodes

/-- The root is computed from the hash strings alone. -/
theorem rootHash_eq (sha256 : String → String) (state : LocalState) :
    rootHash sha256 state = ((reduce (combine sha256) (hashesInOrder state)).head?).getD (sha256 "EMPTY") := by
  rw [← map_hash_leafNodes, ← map_hash_reduce]
  unfold rootHash build
  cases reduce (MerkleNode.parent sha256) (leafNodes state) <;> rfl

/-- **Keys leave no trace**: two states with the same hash strings in key order have one root. -/
theorem rootHash_congr (sha256 : String → String) {state state' : LocalState}
    (h : hashesInOrder state = hashesInOrder state') : rootHash sha256 state = rootHash sha256 state' := by
  rw [rootHash_eq, rootHash_eq, h]

/-- **What digests without collisions are like**: no digest is the beginning of that of another text. Digests of one
length that do not collide have this, and the argument below needs no more of their length. -/
def PrefixFree (sha256 : String → String) : Prop := ∀ s t, (sha256 s).toList <+: (sha256 t).toList → s = t

/-- Such digests are digests without collisions. -/
theorem PrefixFree.injective {sha256 : String → String} (h : PrefixFree sha256) : Function.Injective sha256 :=
  fun s t heq => h s t (heq ▸ List.prefix_refl _)

/-- The empty text is no digest: it begins every text. -/
theorem PrefixFree.ne_empty {sha256 : String → String} (h : PrefixFree sha256) (s : String) : sha256 s ≠ "" := by
  intro heq
  have hall : ∀ t, s = t := fun t => h s t (by rw [heq]; exact List.nil_prefix)
  exact absurd ((hall "a").symm.trans (hall "b")) (by decide)

/-- The text is the digest of something. -/
def IsDigestOf (sha256 : String → String) (hash : String) : Prop := ∃ t, hash = sha256 t

/-- Two digests, one behind the other, are read back from their own digest. -/
theorem combine_injectiveOn {sha256 : String → String} (h : PrefixFree sha256) {a b c d : String}
    (ha : IsDigestOf sha256 a) (hc : IsDigestOf sha256 c) (heq : combine sha256 a b = combine sha256 c d) :
    a = c ∧ b = d := by
  have happend := congrArg String.toList (h.injective heq)
  rw [String.toList_append, String.toList_append] at happend
  have hac : a = c := by
    obtain ⟨s, rfl⟩ := ha
    obtain ⟨t, rfl⟩ := hc
    have hleft : (sha256 s).toList <+: (sha256 t).toList ++ d.toList := ⟨b.toList, happend⟩
    rcases List.prefix_or_prefix_of_prefix hleft (List.prefix_append _ _) with hpre | hpre
    · rw [h s t hpre]
    · rw [h t s hpre]
  subst hac
  exact ⟨rfl, String.toList_inj.mp (List.append_cancel_left happend)⟩

/-- For states of one size whose hash strings are digests, and digests without collisions, nothing else makes two roots
equal. -/
theorem rootHash_eq_iff {sha256 : String → String} (hsha : PrefixFree sha256) {state state' : LocalState}
    (hstate : ∀ s ∈ hashesInOrder state, IsDigestOf sha256 s)
    (hstate' : ∀ s ∈ hashesInOrder state', IsDigestOf sha256 s)
    (hsize : (hashesInOrder state).length = (hashesInOrder state').length) :
    rootHash sha256 state = rootHash sha256 state' ↔ hashesInOrder state = hashesInOrder state' := by
  refine ⟨fun h => ?_, rootHash_congr sha256⟩
  by_cases hempty : hashesInOrder state = []
  · rw [hempty] at hsize ⊢
    exact (List.length_eq_zero_iff.mp hsize.symm).symm
  have hempty' : hashesInOrder state' ≠ [] := by
    intro hnil
    rw [hnil] at hsize
    exact hempty (List.length_eq_zero_iff.mp hsize)
  obtain ⟨root, hroot⟩ := reduce_eq_singleton (combine sha256) hempty
  obtain ⟨root', hroot'⟩ := reduce_eq_singleton (combine sha256) hempty'
  rw [rootHash_eq, rootHash_eq, hroot, hroot'] at h
  exact reduce_injectiveOn (S := IsDigestOf sha256) (fun a b => ⟨a ++ b, rfl⟩)
    (fun a b c d ha _ hc _ heq => combine_injectiveOn hsha ha hc heq) hstate hstate' hsize
    (hroot.trans ((congrArg (fun s => [s]) h).trans hroot'.symm))

/-! ## Subtree hashes -/

def collectAll (nodes : List MerkleNode) (depth : Nat) : List String := nodes.flatMap (·.collectAtDepth depth)

/-- One level up, what is collected one level deeper is the same: only an odd node that stands twice is skipped once. -/
theorem collectAll_pairWith (sha256 : String → String) {nodes : List MerkleNode} (h : nodes.Nodup) (depth : Nat) :
    collectAll (pairWith (MerkleNode.parent sha256) nodes) (depth + 1) = collectAll nodes depth := by
  fun_induction pairWith (MerkleNode.parent sha256) nodes with
  | case1 => rfl
  | case2 a => simp [collectAll, MerkleNode.parent, MerkleNode.collectAtDepth]
  | case3 a b rest ih =>
    obtain ⟨ha, hrest⟩ := List.nodup_cons.mp h
    have hne : b ≠ a := fun heq => ha (heq ▸ List.mem_cons_self)
    have hmore : collectAll (pairWith (MerkleNode.parent sha256) rest) (depth + 1) = collectAll rest depth :=
      ih (List.nodup_cons.mp hrest).2
    unfold collectAll at hmore ⊢
    rw [List.flatMap_cons, hmore, MerkleNode.parent, MerkleNode.collectAtDepth, if_pos hne, List.flatMap_cons,
      List.flatMap_cons, List.append_assoc]

/-- The hashes collected at any depth have the root of the nodes' own hashes. -/
def Collects (sha256 : String → String) (nodes : List MerkleNode) : Prop :=
  nodes.Nodup ∧ ∀ depth, reduce (combine sha256) (collectAll nodes depth) =
    reduce (combine sha256) (nodes.map MerkleNode.hash)

/-- At the leaves there is nothing to collect. -/
theorem collects_leafNodes (sha256 : String → String) (state : LocalState) : Collects sha256 (leafNodes state) := by
  constructor
  · have hkeys : ((leafNodes state).map MerkleNode.dataKey).Nodup := by
      have hperm : (sortedLeaves state).Perm (items state) := List.mergeSort_perm _ _
      have hitems : ((items state).map (·.1)).Nodup := by
        rw [items, List.map_map]
        exact state.nodupKeys
      have hkey : (leafNodes state).map MerkleNode.dataKey = ((sortedLeaves state).map Prod.fst).map some := by
        rw [leafNodes, List.map_map, List.map_map]
        rfl
      rw [hkey]
      exact ((hperm.map Prod.fst).nodup_iff.mpr hitems).map fun _ _ heq => Option.some.inj heq
    exact List.Nodup.of_map _ hkeys
  · intro depth
    -- leaves are collected at every depth
    have hleaf : ∀ leaf : String × String,
        (MerkleNode.leaf leaf.2 (some leaf.1)).collectAtDepth depth = [leaf.2] := by
      intro leaf
      cases depth <;> rfl
    have hcollect : collectAll (leafNodes state) depth = hashesInOrder state := by
      rw [collectAll, leafNodes, List.flatMap_map]
      simp only [hleaf]
      exact List.map_eq_flatMap.symm
    rw [hcollect, map_hash_leafNodes]

/-- **One level up**, the collected hashes pair up to the same root. -/
theorem collects_pairWith {sha256 : String → String} {nodes : List MerkleNode} (hmore : 1 < nodes.length)
    (h : Collects sha256 nodes) : Collects sha256 (pairWith (MerkleNode.parent sha256) nodes) := by
  refine ⟨nodup_pairWith (fun a b c d heq => (MerkleNode.inner.inj heq).2.1) h.1, fun depth => ?_⟩
  have hhash : (pairWith (MerkleNode.parent sha256) nodes).map MerkleNode.hash =
      pairWith (combine sha256) (nodes.map MerkleNode.hash) := by
    rw [map_pairWith, pairWith_map]
    rfl
  cases depth with
  | zero =>
    rw [collectAll]
    simp only [MerkleNode.collectAtDepth]
    rw [← List.map_eq_flatMap]
  | succ depth =>
    rw [collectAll_pairWith sha256 h.1, h.2 depth, hhash]
    exact reduce_of_lt (by rwa [List.length_map])

/-- **The subtree hashes determine the root.** -/
theorem reduce_subtreeHashes (sha256 : String → String) (state : LocalState) :
    reduce (combine sha256) (subtreeHashes sha256 state) = [rootHash sha256 state] := by
  have hcollects := reduce_of_pairWith (f := MerkleNode.parent sha256) (fun _ => collects_pairWith)
    (collects_leafNodes sha256 state)
  unfold subtreeHashes rootHash build
  by_cases hempty : leafNodes state = []
  · have hnil : reduce (MerkleNode.parent sha256) [] = [] := reduce_of_le (Nat.zero_le 1)
    rw [hempty, hnil]
    exact reduce_of_le (Nat.le_refl 1)
  · obtain ⟨root, hroot⟩ := reduce_eq_singleton (MerkleNode.parent sha256) hempty
    rw [hroot] at hcollects ⊢
    have hdepth := hcollects.2 subtreeDepth
    rw [collectAll, List.flatMap_singleton] at hdepth
    rw [hdepth]
    exact reduce_of_le (Nat.le_refl 1)

/-- No hash in a tree is the empty text. -/
def MerkleNode.NoBlank : MerkleNode → Prop
  | .leaf hash _ => hash ≠ ""
  | .inner hash left right => hash ≠ "" ∧ left.NoBlank ∧ right.NoBlank

/-- Its own hash is not. -/
theorem MerkleNode.NoBlank.hash_ne {node : MerkleNode} (h : node.NoBlank) : node.hash ≠ "" := by
  cases node with
  | leaf hash dataKey => exact h
  | inner hash left right => exact h.1

/-- Nor are those that are collected. -/
theorem MerkleNode.NoBlank.collectAtDepth {node : MerkleNode} (h : node.NoBlank) (depth : Nat) :
    "" ∉ node.collectAtDepth depth := by
  induction node generalizing depth with
  | leaf hash dataKey => cases depth <;> simpa [MerkleNode.collectAtDepth, MerkleNode.hash] using h.hash_ne.symm
  | inner hash left right ihLeft ihRight =>
    cases depth with
    | zero => simpa [MerkleNode.collectAtDepth, MerkleNode.hash] using h.1.symm
    | succ depth =>
      rw [MerkleNode.collectAtDepth, List.mem_append, not_or]
      refine ⟨ihLeft h.2.1 depth, ?_⟩
      split
      · exact ihRight h.2.2 depth
      · exact List.not_mem_nil

/-- The tree over digests has none. -/
theorem noBlank_build {sha256 : String → String} (hsha : ∀ s, sha256 s ≠ "") {state : LocalState}
    (hstate : "" ∉ hashesInOrder state) : (build sha256 state).NoBlank := by
  have hleaves : ∀ node ∈ leafNodes state, node.NoBlank := by
    intro node hnode
    obtain ⟨leaf, hleaf, rfl⟩ := List.mem_map.mp hnode
    intro hblank
    exact hstate (hblank ▸ List.mem_map.mpr ⟨leaf, hleaf, rfl⟩)
  have hroot := reduce_of_pairWith (f := MerkleNode.parent sha256) (P := fun nodes => ∀ node ∈ nodes, node.NoBlank)
    (fun nodes _ hnodes node hnode => by
      obtain ⟨a, ha, b, hb, rfl⟩ := mem_pairWith hnode
      exact ⟨hsha _, hnodes a ha, hnodes b hb⟩) hleaves
  unfold build
  split
  · exact hsha "EMPTY"
  · next root rest heq => exact hroot root (heq ▸ List.mem_cons_self)

/-- Without blanks, lists that diverge nowhere are equal. -/
theorem eq_of_not_divergent {localHashes remoteHashes : List String} (hlocal : "" ∉ localHashes)
    (hremote : "" ∉ remoteHashes) (h : findDivergentSubtrees localHashes remoteHashes = []) :
    localHashes = remoteHashes := by
  have hat : ∀ i, hashAt localHashes i = hashAt remoteHashes i := by
    intro i
    by_cases hi : i < max localHashes.length remoteHashes.length
    · by_contra hne
      have hmem : i ∈ findDivergentSubtrees localHashes remoteHashes := by
        simp only [findDivergentSubtrees, List.mem_filter, List.mem_range, decide_eq_true_eq]
        exact ⟨hi, hne⟩
      rw [h] at hmem
      cases hmem
    · rw [hashAt, hashAt, List.getElem?_eq_none (by omega), List.getElem?_eq_none (by omega)]
  have hblank : ∀ {hashes : List String} {s : String} {i : Nat}, "" ∉ hashes → hashes[i]? = some s → s ≠ "" := by
    rintro hashes s i hno hs rfl
    exact hno (List.mem_of_getElem? hs)
  apply List.ext_getElem?
  intro i
  have hi := hat i
  unfold hashAt at hi
  cases hl : localHashes[i]? with
  | none =>
    cases hr : remoteHashes[i]? with
    | none => rfl
    | some s =>
      rw [hl, hr] at hi
      exact absurd hi.symm (hblank hremote hr)
  | some s =>
    cases hr : remoteHashes[i]? with
    | none =>
      rw [hl, hr] at hi
      exact absurd hi (hblank hlocal hl)
    | some s' =>
      rw [hl, hr] at hi
      exact congrArg some hi

/-- **The second exit of `reconcile` adds nothing to the first**, where no hash is the empty text: what the roots tell
apart, the subtree hashes do. -/
theorem distinguished_iff {sha256 : String → String} (hsha : ∀ s, sha256 s ≠ "") {localState peer : LocalState}
    (hlocal : "" ∉ hashesInOrder localState) (hpeer : "" ∉ hashesInOrder peer) :
    Distinguished sha256 localState peer ↔ rootHash sha256 localState ≠ rootHash sha256 peer := by
  refine ⟨fun h => h.1, fun hroot => ⟨hroot, fun hnone => hroot ?_⟩⟩
  have hsubtrees : subtreeHashes sha256 localState = subtreeHashes sha256 peer :=
    eq_of_not_divergent ((noBlank_build hsha hlocal).collectAtDepth _) ((noBlank_build hsha hpeer).collectAtDepth _) hnone
  have heq := (reduce_subtreeHashes sha256 localState).symm.trans
    ((congrArg (reduce (combine sha256)) hsubtrees).trans (reduce_subtreeHashes sha256 peer))
  exact List.singleton_inj.mp heq

/-! ## Reconciliation and the two states -/

/-- **Reconciliation misses nothing if and only if** the fingerprints tell the states apart, or there is nothing to
miss. For two states of one size whose hash strings are digests, and digests without collisions, the first of these says
that the hash strings in key order differ. -/
theorem reconcile_complete_iff (sha256 : String → String) (applies : String × String → Bool)
    (localState peer : LocalState) :
    (MissesNothing localState peer (reconcile sha256 applies localState peer) ↔
      Distinguished sha256 localState peer ∨ NothingToMiss localState peer) ∧
    (PrefixFree sha256 → (∀ s ∈ hashesInOrder localState ++ hashesInOrder peer, IsDigestOf sha256 s) →
      (hashesInOrder localState).length = (hashesInOrder peer).length →
      (MissesNothing localState peer (reconcile sha256 applies localState peer) ↔
        hashesInOrder localState ≠ hashesInOrder peer ∨ NothingToMiss localState peer)) := by
  refine ⟨missesNothing_iff sha256 applies localState peer, fun hsha hdigests hsize => ?_⟩
  have hblank : "" ∉ hashesInOrder localState ++ hashesInOrder peer := by
    intro hmem
    obtain ⟨t, ht⟩ := hdigests "" hmem
    exact hsha.ne_empty t ht.symm
  have hroots := rootHash_eq_iff hsha (fun s hs => hdigests s (List.mem_append_left _ hs))
    (fun s hs => hdigests s (List.mem_append_right _ hs)) hsize
  rw [missesNothing_iff, distinguished_iff hsha.ne_empty (fun hmem => hblank (List.mem_append_left _ hmem))
    (fun hmem => hblank (List.mem_append_right _ hmem)), Ne, hroots]

/-- A text in which each character has a mark before it and the end has another. -/
def marked (s : String) : String := String.ofList (s.toList.flatMap (fun c => ['c', c]) ++ ['e'])

theorem prefixFree_marked : PrefixFree marked := by
  have hlists : ∀ s t : List Char,
      s.flatMap (fun c => ['c', c]) ++ ['e'] <+: t.flatMap (fun c => ['c', c]) ++ ['e'] → s = t := by
    intro s
    induction s with
    | nil =>
      intro t h
      cases t with
      | nil => rfl
      | cons c t => simp at h
    | cons c s ih =>
      intro t h
      cases t with
      | nil => simp at h
      | cons d t =>
        simp only [List.flatMap_cons, List.cons_append, List.nil_append, List.cons_prefix_cons] at h
        rw [h.2.1, ih t h.2.2]
  intro s t h
  rw [marked, marked, String.toList_ofList, String.toList_ofList] at h
  exact String.toList_inj.mp (hlists _ _ h)

/-- Three records, with the digest of the given text for the last one. -/
def threeRecords (text : String) : LocalState :=
  ⟨[⟨"a", marked "1"⟩, ⟨"b", marked "2"⟩, ⟨"c", marked text⟩], by simp [List.NodupKeys, List.keys]⟩

theorem hashesInOrder_threeRecords (text : String) :
    hashesInOrder (threeRecords text) = [marked "1", marked "2", marked text] := by
  have hsorted : sortedLeaves (threeRecords text) = items (threeRecords text) := by
    apply List.mergeSort_of_pairwise
    simp [items, threeRecords]
  rw [hashesInOrder, hsorted]
  rfl

/-- The peer has another hash under the last of three keys: all its records are passed on. -/
theorem reconcile_complete_iff_changed_hash :
    MissesNothing (threeRecords "3") (threeRecords "4")
        (reconcile marked (fun _ => true) (threeRecords "3") (threeRecords "4")) ∧
      ("c", marked "4") ∈ (reconcile marked (fun _ => true) (threeRecords "3") (threeRecords "4")).passed := by
  have hcomplete : MissesNothing (threeRecords "3") (threeRecords "4")
      (reconcile marked (fun _ => true) (threeRecords "3") (threeRecords "4")) := by
    refine ((reconcile_complete_iff marked (fun _ => true) (threeRecords "3") (threeRecords "4")).2 prefixFree_marked
      ?_ ?_).mpr (.inl ?_)
    · rw [hashesInOrder_threeRecords, hashesInOrder_threeRecords]
      simp only [List.cons_append, List.nil_append, List.forall_mem_cons]
      exact ⟨⟨_, rfl⟩, ⟨_, rfl⟩, ⟨_, rfl⟩, ⟨_, rfl⟩, ⟨_, rfl⟩, ⟨_, rfl⟩, by simp⟩
    · rw [hashesInOrder_threeRecords, hashesInOrder_threeRecords]
      rfl
    · rw [hashesInOrder_threeRecords, hashesInOrder_threeRecords]
      decide
  exact ⟨hcomplete, hcomplete "c" (marked "4") rfl (by decide)⟩

/-- Both are a single record, whose hash string is the root. -/
theorem renamed_key_missed :
    ¬ ∀ sha256 : String → String, Function.Injective sha256 → ∀ (applies : String × String → Bool)
        (localState peer : LocalState), MissesNothing localState peer (reconcile sha256 applies localState peer) := by
  intro hall
  have h := hall id Function.injective_id (fun _ => true) (AList.singleton "a" "h") (AList.singleton "b" "h") "b" "h"
    (by decide) (by decide)
  rw [passed_of_not_distinguished] at h
  · cases h
  · rintro ⟨hroot, -⟩
    refine hroot ?_
    have hsingle : ∀ key, rootHash id (AList.singleton key "h") = "h" := by
      intro key
      have hleaves : leafNodes (AList.singleton key "h") = [.leaf "h" (some key)] := by
        simp [leafNodes, sortedLeaves, items]
      unfold rootHash build
      rw [hleaves, reduce_of_le (by simp)]
      rfl
    rw [hsingle, hsingle]

end WarmLogic.Mesh.AntiEntropy
