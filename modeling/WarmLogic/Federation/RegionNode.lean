/-
# WarmLogic.Federation.RegionNode — the region synchronizer with its Merkle tree and the batches it creates.

A node is the synchronizer of `RegionSync` with what a batch is made of besides: the tree that keeps a hash for every
decision, with its root cached, and the order in which the dict of the decisions yields them. Each of its functions is that
of the synchronizer and puts what it stores into the tree as well (`reachable_synchronizer`), so the tree always has the
hashes of the stored decisions (`RegionNode.Inv`).

The root of a tree with one leaf is the hash of that leaf, as it is; of an empty tree it is the empty text. Only a tree
with two leaves or more has a root that the tree computes (`isDigest_rootHash_iff`).
-/
import WarmLogic.Crypto.Hex
import WarmLogic.Federation.RegionSync
import WarmLogic.Ledger.SovereignStore
import WarmLogic.Lib.PairTree
import Mathlib.Data.String.Basic

namespace WarmLogic.Federation.Region

open WarmLogic.Lib
open WarmLogic.Federation (hexEncode)
open WarmLogic.Ledger (utf8)

/-! ## The tree -/

/-- `StateMerkleTree`, with the hash of its `_root`. -/
structure StateMerkleTree where
  leaves : AList fun _ : String => String
  root : Option String
  dirty : Bool

/-- `hashlib.sha3_256(..).hexdigest()`. -/
def hexdigest (sha3 : List UInt8 → Vector UInt8 32) (bytes : List UInt8) : String := hexEncode (sha3 bytes).toList

/-- The text of a digest: 32 bytes in lower-case hex. -/
def IsDigest (hash : String) : Prop := ∃ bytes : List UInt8, bytes.length = 32 ∧ hash = hexEncode bytes

/-- What `hexdigest` returns is a digest. -/
theorem isDigest_hexdigest (sha3 : List UInt8 → Vector UInt8 32) (bytes : List UInt8) : IsDigest (hexdigest sha3 bytes) :=
  ⟨_, Vector.length_toList, rfl⟩

/-- The empty text is none. -/
theorem not_isDigest_empty : ¬ IsDigest "" := by
  rintro ⟨bytes, hlen, htext⟩
  have hdecode := congrArg Crypto.hexDecode htext
  rw [Crypto.hexDecode_hexEncode] at hdecode
  rw [← Option.some.inj hdecode] at hlen
  exact absurd hlen (by decide)

namespace StateMerkleTree

/-- A new tree: no leaves, no root. -/
def new : StateMerkleTree := ⟨∅, none, true⟩

/-- `add_decision`: the hash under its id, and the root is no longer known. -/
def addDecision (t : StateMerkleTree) (decisionId decisionHash : String) : StateMerkleTree :=
  { t with leaves := t.leaves.insert decisionId decisionHash, dirty := true }

/-- The hashes of the leaves, by id. -/
def sortedHashes (t : StateMerkleTree) : List String :=
  (t.leaves.entries.mergeSort fun a b => decide (a.1 ≤ b.1)).map (·.2)

/-- `_build_tree`: the hash of the last node that is left. -/
def buildTree (sha3 : List UInt8 → Vector UInt8 32) (t : StateMerkleTree) : Option String :=
  if t.leaves.entries = [] then none
  else (reduce (fun left right => hexdigest sha3 (utf8 (left ++ right))) t.sortedHashes).head?

/-- `root_hash`, with the tree that it leaves. -/
def rootHash (sha3 : List UInt8 → Vector UInt8 32) (t : StateMerkleTree) : StateMerkleTree × String :=
  let t := if t.dirty then { t with root := t.buildTree sha3, dirty := false } else t
  (t, t.root.getD "")

variable {sha3 : List UInt8 → Vector UInt8 32} {t : StateMerkleTree}

/-- The cached root is the root. -/
def Cached (sha3 : List UInt8 → Vector UInt8 32) (t : StateMerkleTree) : Prop :=
  t.dirty = false → t.root = t.buildTree sha3

/-- A new leaf makes the cache dirty, so there is nothing to check. -/
theorem cached_addDecision (decisionId decisionHash : String) : (t.addDecision decisionId decisionHash).Cached sha3 :=
  fun h => absurd h.symm Bool.false_ne_true

/-- Asking for the root leaves the leaves. -/
theorem leaves_rootHash : (t.rootHash sha3).1.leaves = t.leaves := by
  unfold rootHash
  dsimp only
  split <;> rfl

/-- And leaves the root in the cache. -/
theorem cached_rootHash (h : t.Cached sha3) : (t.rootHash sha3).1.Cached sha3 := by
  unfold rootHash
  dsimp only
  split
  · exact fun _ => rfl
  · exact h

/-- The answer is the root of the leaves, from the cache or not. -/
theorem rootHash_eq (h : t.Cached sha3) : (t.rootHash sha3).2 = (t.buildTree sha3).getD "" := by
  unfold rootHash
  dsimp only
  split
  · rfl
  · next hclean => rw [h (Bool.eq_false_of_not_eq_true hclean)]

/-- As many hashes as leaves. -/
theorem length_sortedHashes (t : StateMerkleTree) : t.sortedHashes.length = t.leaves.entries.length := by
  rw [sortedHashes, List.length_map, (List.mergeSort_perm _ _).length_eq]

/-- **Roots that are digests**: those of two leaves or more, and that of one leaf whose hash is a digest. -/
theorem isDigest_buildTree_iff (sha3 : List UInt8 → Vector UInt8 32) (t : StateMerkleTree) :
    IsDigest ((t.buildTree sha3).getD "") ↔
      t.leaves.entries ≠ [] ∧ ∀ decisionId hash, t.leaves.entries = [⟨decisionId, hash⟩] → IsDigest hash := by
  have hlen := length_sortedHashes t
  unfold buildTree
  by_cases hempty : t.leaves.entries = []
  · rw [if_pos hempty]
    exact iff_of_false not_isDigest_empty fun h => h.1 hempty
  rw [if_neg hempty]
  rcases Nat.lt_or_ge 1 t.leaves.entries.length with hmany | hone
  · -- the last node has been computed
    refine iff_of_true ?_ ⟨hempty, fun decisionId hash h => absurd hmany (by simp [h])⟩
    have hne : t.sortedHashes ≠ [] := List.ne_nil_of_length_pos (by omega)
    obtain ⟨root, hroot⟩ := reduce_eq_singleton (fun left right => hexdigest sha3 (utf8 (left ++ right))) hne
    have hpair : ∀ hashes : List String,
        ∀ hash ∈ pairWith (fun left right => hexdigest sha3 (utf8 (left ++ right))) hashes, IsDigest hash := by
      intro hashes hash hmem
      obtain ⟨left, -, right, -, rfl⟩ := mem_pairWith hmem
      exact isDigest_hexdigest _ _
    have hall : ∀ hash ∈ reduce (fun left right => hexdigest sha3 (utf8 (left ++ right))) t.sortedHashes,
        IsDigest hash := by
      rw [reduce_of_lt (by omega)]
      exact reduce_of_pairWith (P := fun hashes => ∀ hash ∈ hashes, IsDigest hash) (fun l _ _ => hpair l) (hpair _)
    rw [hroot] at hall ⊢
    exact hall root List.mem_cons_self
  · -- the leaf itself
    obtain ⟨⟨decisionId, hash⟩, hleaf⟩ :=
      List.length_eq_one_iff.mp (Nat.le_antisymm hone (List.length_pos_of_ne_nil hempty))
    have hsorted : t.sortedHashes = [hash] := by
      rw [sortedHashes, hleaf, List.mergeSort_singleton]
      rfl
    rw [hsorted, reduce_of_le (l := [hash]) (Nat.le_refl 1)]
    constructor
    · intro hdigest
      refine ⟨hempty, fun decisionId' hash' h => ?_⟩
      have hsame := List.singleton_inj.mp (hleaf.symm.trans h)
      cases hsame
      exact hdigest
    · exact fun h => h.2 decisionId hash hleaf

end StateMerkleTree

/-! ## Nodes -/

/-- `SyncStatus`. -/
inductive SyncStatus
  | pending
  | inProgress
  | completed
  | failed
  | conflict
  deriving DecidableEq

/-- `SyncBatch`, over the decisions as a node has them or as they are read. Times are the 64 bits of a float. -/
structure SyncBatch (D : Type) where
  batchId : String
  sourceRegion : String
  targetRegion : String
  decisions : List D
  merkleRoot : String
  createdAt : UInt64
  status : SyncStatus

/-- The synchronizer, its tree, and the ids of its decisions in the order of the dict. -/
structure RegionNode extends RegionStateSynchronizer UInt64 where
  merkleTree : StateMerkleTree
  order : List String

/-- A dict keeps the place of a key that it has, and appends a new one. -/
def keyOrder (order : List String) (key : String) : List String := if key ∈ order then order else order ++ [key]

namespace RegionNode

open RegionStateSynchronizer (prefersRemote)

/-- `RegionStateSynchronizer` as it is made: nothing stored. -/
def new (localRegion nodeId : String) (strategy : ConflictResolution) : RegionNode where
  toRegionStateSynchronizer := .new localRegion nodeId strategy
  merkleTree := .new
  order := []

/-- `add_local_decision` at this time. -/
def addLocalDecision (sha3 : List UInt8 → Vector UInt8 32) (n : RegionNode) (decisionId : String) (payload : List UInt8)
    (signature : String) (now : UInt64) : RegionNode × SyncableDecision UInt64 :=
  let added := n.toRegionStateSynchronizer.addLocalDecision (hexdigest sha3) decisionId payload signature now
  ({ toRegionStateSynchronizer := added.1, merkleTree := n.merkleTree.addDecision decisionId added.2.decisionHash,
     order := keyOrder n.order decisionId }, added.2)

/-- Store a remote decision. -/
def store (n : RegionNode) (remote : SyncableDecision UInt64) : RegionNode where
  toRegionStateSynchronizer := n.toRegionStateSynchronizer.store remote
  merkleTree := n.merkleTree.addDecision remote.decisionId remote.decisionHash
  order := keyOrder n.order remote.decisionId

/-- Store a remote decision and merge its clock. -/
def adopt (n : RegionNode) (remote : SyncableDecision UInt64) : RegionNode where
  toRegionStateSynchronizer := n.toRegionStateSynchronizer.adopt remote
  merkleTree := n.merkleTree.addDecision remote.decisionId remote.decisionHash
  order := keyOrder n.order remote.decisionId

/-- `_resolve_conflict`, with `_resolve_conflict_lww`. -/
def resolveConflict (time : FloatOrder UInt64) (n : RegionNode) (localDecision remote : SyncableDecision UInt64) :
    RegionNode × Bool :=
  let n := { n with conflicts := n.conflicts ++ [(localDecision, remote)] }
  if prefersRemote time n.resolutionStrategy localDecision remote then (n.store remote, true) else (n, false)

/-- `_apply_remote_decision`. -/
def applyRemoteDecision (time : FloatOrder UInt64) (n : RegionNode) (remote : SyncableDecision UInt64) :
    RegionNode × Bool :=
  match n.decisions.lookup remote.decisionId with
  | none => (n.adopt remote, true)
  | some localDecision =>
      if localDecision.decisionHash = remote.decisionHash then (n, true)
      else if remote.vectorClock.happensBefore localDecision.vectorClock then (n, false)
      else if localDecision.vectorClock.happensBefore remote.vectorClock then (n.adopt remote, true)
      else n.resolveConflict time localDecision remote

/-- `receive_sync_batch`: the node, and the decisions that were applied. -/
def receiveSyncBatch (time : FloatOrder UInt64) (n : RegionNode) :
    List (SyncableDecision UInt64) → RegionNode × List (SyncableDecision UInt64)
  | [] => (n, [])
  | remote :: decisions =>
      let applied := n.applyRemoteDecision time remote
      let rest := applied.1.receiveSyncBatch time decisions
      (rest.1, if applied.2 then remote :: rest.2 else rest.2)

/-- The decisions that a batch takes up: all of them, or those of the ids that are there. -/
def decisionsToSync (n : RegionNode) (decisionIds : Option (List String)) : List (SyncableDecision UInt64) :=
  match decisionIds with
  | none => n.order.filterMap n.decisions.lookup
  | some ids => ids.filterMap n.decisions.lookup

/-- `create_sync_batch` at this time, with what `os.urandom(8)` returns. -/
def createSyncBatch (sha3 : List UInt8 → Vector UInt8 32) (n : RegionNode) (targetRegion : String)
    (decisionIds : Option (List String)) (urandom : Vector UInt8 8) (now : UInt64) :
    RegionNode × SyncBatch (SyncableDecision UInt64) :=
  let root := n.merkleTree.rootHash sha3
  ({ n with merkleTree := root.1 },
    { batchId := "sync-" ++ hexEncode urandom.toList, sourceRegion := n.localRegion, targetRegion,
      decisions := n.decisionsToSync decisionIds, merkleRoot := root.2, createdAt := now, status := .pending })

/-! ## The synchronizer below -/

variable {sha3 : List UInt8 → Vector UInt8 32} {time : FloatOrder UInt64}

/-- Resolving is that of the synchronizer. -/
theorem resolveConflict_synchronizer (n : RegionNode) (localDecision remote : SyncableDecision UInt64) :
    (n.resolveConflict time localDecision remote).1.toRegionStateSynchronizer =
        (n.toRegionStateSynchronizer.resolveConflict time localDecision remote).1 ∧
      (n.resolveConflict time localDecision remote).2 =
        (n.toRegionStateSynchronizer.resolveConflict time localDecision remote).2 := by
  unfold resolveConflict RegionStateSynchronizer.resolveConflict
  dsimp only
  split <;> exact ⟨rfl, rfl⟩

variable (time) in
/-- Receiving a decision is that of the synchronizer. -/
theorem applyRemoteDecision_synchronizer (n : RegionNode) (remote : SyncableDecision UInt64) :
    (n.applyRemoteDecision time remote).1.toRegionStateSynchronizer =
        (n.toRegionStateSynchronizer.applyRemoteDecision time remote).1 ∧
      (n.applyRemoteDecision time remote).2 = (n.toRegionStateSynchronizer.applyRemoteDecision time remote).2 := by
  unfold applyRemoteDecision RegionStateSynchronizer.applyRemoteDecision
  cases n.decisions.lookup remote.decisionId with
  | none => exact ⟨rfl, rfl⟩
  | some localDecision =>
      dsimp only
      split_ifs
      · exact ⟨rfl, rfl⟩
      · exact ⟨rfl, rfl⟩
      · exact ⟨rfl, rfl⟩
      · exact resolveConflict_synchronizer n localDecision remote

/-- Receiving a batch too. -/
theorem receiveSyncBatch_synchronizer (n : RegionNode) (decisions : List (SyncableDecision UInt64)) :
    (n.receiveSyncBatch time decisions).1.toRegionStateSynchronizer =
        (n.toRegionStateSynchronizer.receiveSyncBatch time decisions).1 ∧
      (n.receiveSyncBatch time decisions).2 = (n.toRegionStateSynchronizer.receiveSyncBatch time decisions).2 := by
  induction decisions generalizing n with
  | nil => exact ⟨rfl, rfl⟩
  | cons remote decisions ih =>
      obtain ⟨hnode, happlied⟩ := applyRemoteDecision_synchronizer time n remote
      obtain ⟨hrest, hlist⟩ := ih (n.applyRemoteDecision time remote).1
      rw [hnode] at hrest hlist
      refine ⟨hrest, ?_⟩
      rw [receiveSyncBatch, RegionStateSynchronizer.receiveSyncBatch]
      dsimp only
      rw [happlied, hlist]

/-! ## The invariant -/

end RegionNode

/-- A decision as the exchange of batches has them: ids and regions that fit a length of 16 bits, and for a signature none
or the hex text of one that fits. -/
structure SyncableDecision.InDomain (d : SyncableDecision UInt64) : Prop where
  decisionId : d.decisionId.utf8ByteSize ≤ 65535
  region : d.region.utf8ByteSize ≤ 65535
  signature : ∃ sig : List UInt8, sig.length ≤ 65535 ∧ d.signature = hexEncode sig

namespace RegionNode

/-- **The tree has the hashes of what is stored**, its cache is right, the order lists what is stored, and all of that is
in the domain. -/
structure Inv (sha3 : List UInt8 → Vector UInt8 32) (n : RegionNode) : Prop where
  leaves : ∀ decisionId, n.merkleTree.leaves.lookup decisionId = (n.decisions.lookup decisionId).map (·.decisionHash)
  cached : n.merkleTree.Cached sha3
  nodup : n.order.Nodup
  order : ∀ decisionId, decisionId ∈ n.order ↔ decisionId ∈ n.decisions
  inDomain : ∀ decisionId d, n.decisions.lookup decisionId = some d → d.InDomain
  localRegion : n.localRegion.utf8ByteSize ≤ 65535

/-- The keys after an insertion: those before, and the new one. -/
theorem mem_keyOrder {order : List String} {key other : String} :
    other ∈ keyOrder order key ↔ other = key ∨ other ∈ order := by
  unfold keyOrder
  split
  · next hmem => exact ⟨.inr, fun h => h.elim (fun heq => heq ▸ hmem) id⟩
  · rw [List.mem_append, List.mem_singleton, Or.comm]

/-- No key is listed twice. -/
theorem nodup_keyOrder {order : List String} (h : order.Nodup) (key : String) : (keyOrder order key).Nodup := by
  unfold keyOrder
  split
  · exact h
  · next hmem => exact List.nodup_append_comm.mp (List.nodup_cons.mpr ⟨hmem, h⟩)

/-- **The step lemma**: a decision in the domain is stored, and its hash put into the tree. -/
theorem Inv.insert {n : RegionNode} (h : n.Inv sha3) {s : RegionStateSynchronizer UInt64} {decisionId : String}
    {d : SyncableDecision UInt64} (hd : d.InDomain) (hdecisions : s.decisions = n.decisions.insert decisionId d)
    (hregion : s.localRegion = n.localRegion) :
    Inv sha3 { toRegionStateSynchronizer := s, merkleTree := n.merkleTree.addDecision decisionId d.decisionHash,
               order := keyOrder n.order decisionId } where
  leaves other := by
    show (n.merkleTree.leaves.insert decisionId d.decisionHash).lookup other = (s.decisions.lookup other).map _
    rw [hdecisions]
    by_cases hid : other = decisionId
    · rw [hid, AList.lookup_insert, AList.lookup_insert]
      rfl
    · rw [AList.lookup_insert_ne hid, AList.lookup_insert_ne hid, h.leaves]
  cached := StateMerkleTree.cached_addDecision decisionId d.decisionHash
  nodup := nodup_keyOrder h.nodup decisionId
  order other := by
    show other ∈ keyOrder n.order decisionId ↔ other ∈ s.decisions
    rw [hdecisions, mem_keyOrder, AList.mem_insert, h.order]
  inDomain other stored hstored := by
    have hlookup : s.decisions.lookup other = some stored := hstored
    rw [hdecisions] at hlookup
    by_cases hid : other = decisionId
    · rw [hid, AList.lookup_insert] at hlookup
      exact Option.some.inj hlookup ▸ hd
    · rw [AList.lookup_insert_ne hid] at hlookup
      exact h.inDomain other stored hlookup
  localRegion := by
    show s.localRegion.utf8ByteSize ≤ 65535
    rw [hregion]
    exact h.localRegion

/-- A new node has nothing stored, and no leaves. -/
theorem inv_new {localRegion : String} (h : localRegion.utf8ByteSize ≤ 65535) (nodeId : String)
    (strategy : ConflictResolution) : (new localRegion nodeId strategy).Inv sha3 where
  leaves _ := rfl
  cached h := absurd h.symm Bool.false_ne_true
  nodup := List.nodup_nil
  order decisionId := iff_of_false List.not_mem_nil (AList.notMem_empty decisionId)
  inDomain _ _ hlookup := absurd hlookup.symm (Option.some_ne_none _)
  localRegion := h

/-- A local decision is in the domain if what it is made from is. -/
theorem inv_addLocalDecision {n : RegionNode} (h : n.Inv sha3) {decisionId : String} {signature : String}
    (hid : decisionId.utf8ByteSize ≤ 65535)
    (hsig : ∃ sig : List UInt8, sig.length ≤ 65535 ∧ signature = hexEncode sig) (payload : List UInt8) (now : UInt64) :
    (n.addLocalDecision sha3 decisionId payload signature now).1.Inv sha3 :=
  h.insert ⟨hid, h.localRegion, hsig⟩ rfl rfl

/-- A remote decision is stored as it came, or not at all. -/
theorem inv_applyRemoteDecision {n : RegionNode} (h : n.Inv sha3) {remote : SyncableDecision UInt64}
    (hremote : remote.InDomain) : (n.applyRemoteDecision time remote).1.Inv sha3 := by
  unfold applyRemoteDecision
  split
  · exact h.insert hremote rfl rfl
  · split_ifs
    · exact h
    · exact h
    · exact h.insert hremote rfl rfl
    · unfold resolveConflict
      dsimp only
      split
      · exact h.insert hremote rfl rfl
      · exact ⟨h.leaves, h.cached, h.nodup, h.order, h.inDomain, h.localRegion⟩

/-- A batch is received decision by decision. -/
theorem inv_receiveSyncBatch {n : RegionNode} (h : n.Inv sha3) {decisions : List (SyncableDecision UInt64)}
    (hdecisions : ∀ d ∈ decisions, d.InDomain) : (n.receiveSyncBatch time decisions).1.Inv sha3 := by
  induction decisions generalizing n with
  | nil => exact h
  | cons remote decisions ih =>
      obtain ⟨hremote, hrest⟩ := List.forall_mem_cons.mp hdecisions
      exact ih (inv_applyRemoteDecision h hremote) hrest

/-- Creating a batch changes the cache alone. -/
theorem inv_createSyncBatch {n : RegionNode} (h : n.Inv sha3) (targetRegion : String)
    (decisionIds : Option (List String)) (urandom : Vector UInt8 8) (now : UInt64) :
    (n.createSyncBatch sha3 targetRegion decisionIds urandom now).1.Inv sha3 where
  leaves decisionId := by
    show ((n.merkleTree.rootHash sha3).1.leaves.lookup decisionId) = _
    rw [StateMerkleTree.leaves_rootHash]
    exact h.leaves decisionId
  cached := StateMerkleTree.cached_rootHash h.cached
  nodup := h.nodup
  order := h.order
  inDomain := h.inDomain
  localRegion := h.localRegion

/-- The leaves of the tree are the stored decisions. -/
theorem Inv.leaves_perm {n : RegionNode} (h : n.Inv sha3) :
    n.merkleTree.leaves.entries.Perm (n.decisions.entries.map fun e => ⟨e.1, e.2.decisionHash⟩) := by
  have hkeys : (n.decisions.entries.map fun e => (⟨e.1, e.2.decisionHash⟩ : Sigma fun _ : String => String)).NodupKeys := by
    have hnodup := n.decisions.nodupKeys
    rwa [List.NodupKeys, List.keys, List.map_map]
  refine List.lookup_ext n.merkleTree.leaves.nodupKeys hkeys fun decisionId hash => ?_
  have hleaf : n.merkleTree.leaves.entries.dlookup decisionId = (n.decisions.lookup decisionId).map (·.decisionHash) :=
    h.leaves decisionId
  rw [hleaf, Option.mem_def, Option.map_eq_some_iff, List.mem_dlookup_iff hkeys, List.mem_map]
  constructor
  · rintro ⟨d, hd, rfl⟩
    exact ⟨⟨decisionId, d⟩, AList.mem_lookup_iff.mp hd, rfl⟩
  · rintro ⟨⟨other, d⟩, hmem, heq⟩
    cases heq
    exact ⟨d, AList.mem_lookup_iff.mpr hmem, rfl⟩

/-- **Roots of batches that are digests**: something is stored, and if it is one decision, then its hash is a digest. -/
theorem isDigest_rootHash_iff {n : RegionNode} (h : n.Inv sha3) :
    IsDigest (n.merkleTree.rootHash sha3).2 ↔
      n.decisions.entries ≠ [] ∧ ∀ decisionId d, n.decisions.entries = [⟨decisionId, d⟩] → IsDigest d.decisionHash := by
  rw [StateMerkleTree.rootHash_eq h.cached, StateMerkleTree.isDigest_buildTree_iff]
  have hperm := h.leaves_perm
  have hempty : n.merkleTree.leaves.entries = [] ↔ n.decisions.entries = [] := by
    rw [← List.length_eq_zero_iff, hperm.length_eq, List.length_map, List.length_eq_zero_iff]
  refine and_congr (not_congr hempty) ⟨fun hone decisionId d hd => ?_, fun hone decisionId hash hleaf => ?_⟩
  · rw [hd, List.map_singleton] at hperm
    exact hone decisionId d.decisionHash (List.perm_singleton.mp hperm)
  · rw [hleaf] at hperm
    have hsingle := List.singleton_perm.mp hperm
    obtain ⟨⟨other, d⟩, hd, heq⟩ := List.map_eq_singleton_iff.mp hsingle.symm
    cases heq
    exact hone other d hd

end RegionNode

/-! ## Runs -/

/-- A call on a node. -/
inductive NodeOp
  | addLocalDecision (decisionId : String) (payload : List UInt8) (signature : String) (now : UInt64)
  | receiveSyncBatch (decisions : List (SyncableDecision UInt64))
  | createSyncBatch (targetRegion : String) (decisionIds : Option (List String)) (urandom : Vector UInt8 8) (now : UInt64)

/-- The node after a call. -/
def NodeOp.call (sha3 : List UInt8 → Vector UInt8 32) (time : FloatOrder UInt64) (n : RegionNode) : NodeOp → RegionNode
  | .addLocalDecision decisionId payload signature now => (n.addLocalDecision sha3 decisionId payload signature now).1
  | .receiveSyncBatch decisions => (n.receiveSyncBatch time decisions).1
  | .createSyncBatch targetRegion decisionIds urandom now =>
      (n.createSyncBatch sha3 targetRegion decisionIds urandom now).1

/-- One node under any calls, from a new one in a region whose name fits. -/
def nodeRuns (sha3 : List UInt8 → Vector UInt8 32) (time : FloatOrder UInt64) : System RegionNode NodeOp where
  init n := ∃ localRegion nodeId strategy, localRegion.utf8ByteSize ≤ 65535 ∧ n = .new localRegion nodeId strategy
  step op n := some (op.call sha3 time n)

/-- What a call brings in is in the domain. -/
def NodeOp.InDomain (op : NodeOp) : Prop :=
  (∀ decisionId payload signature now, op = .addLocalDecision decisionId payload signature now →
    decisionId.utf8ByteSize ≤ 65535 ∧ ∃ sig : List UInt8, sig.length ≤ 65535 ∧ signature = hexEncode sig) ∧
  ∀ decisions, op = .receiveSyncBatch decisions → ∀ d ∈ decisions, d.InDomain

variable {sha3 : List UInt8 → Vector UInt8 32} {time : FloatOrder UInt64} {n : RegionNode}

/-- **The run lemma**: every node that runs in the domain has the hashes of its decisions in its tree. -/
theorem inv_of_reachable (h : (nodeRuns sha3 time).Reachable (fun op _ => op.InDomain) n) : n.Inv sha3 := by
  refine System.Reachable.invariant (P := RegionNode.Inv sha3) ?_ ?_ h
  · rintro n ⟨localRegion, nodeId, strategy, hregion, rfl⟩
    exact RegionNode.inv_new hregion nodeId strategy
  · intro n op n' hn hop hstep
    cases hstep
    cases op with
    | addLocalDecision decisionId payload signature now =>
        obtain ⟨hid, hsig⟩ := hop.1 _ _ _ _ rfl
        exact RegionNode.inv_addLocalDecision hn hid hsig payload now
    | receiveSyncBatch decisions => exact RegionNode.inv_receiveSyncBatch hn (hop.2 _ rfl)
    | createSyncBatch targetRegion decisionIds urandom now => exact RegionNode.inv_createSyncBatch hn _ _ _ _

/-- **A node runs as its synchronizer does**, to which the creation of a batch is no step. -/
theorem reachable_synchronizer (h : (nodeRuns sha3 time).Reachable (fun _ _ => True) n) :
    (synchronizerRuns (hexdigest sha3) time).Reachable (fun _ _ => True) n.toRegionStateSynchronizer := by
  refine System.Reachable.invariant (P := fun n : RegionNode =>
    (synchronizerRuns (hexdigest sha3) time).Reachable (fun _ _ => True) n.toRegionStateSynchronizer) ?_ ?_ h
  · rintro n ⟨localRegion, nodeId, strategy, -, rfl⟩
    exact ⟨[], .init ⟨localRegion, nodeId, strategy, rfl⟩⟩
  · rintro n op n' ⟨past, hrun⟩ - hstep
    cases hstep
    cases op with
    | addLocalDecision decisionId payload signature now =>
        exact ⟨_, .step (a := .addLocalDecision decisionId payload signature now) hrun trivial rfl⟩
    | receiveSyncBatch decisions =>
        refine ⟨_, .step (a := .receiveSyncBatch decisions) hrun trivial (congrArg some ?_)⟩
        exact (RegionNode.receiveSyncBatch_synchronizer n decisions).1.symm
    | createSyncBatch targetRegion decisionIds urandom now => exact ⟨past, hrun⟩

end WarmLogic.Federation.Region
