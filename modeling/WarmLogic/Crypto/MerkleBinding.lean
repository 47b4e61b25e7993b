/-
# WarmLogic.Crypto.MerkleBinding — what a Merkle root and a verified proof bind.

The shape behind a root is a perfect tree over the items in which the last node of an odd level stands twice
(`padTree`). Neither the number of items nor the length of a proof enters the hashes, and a leaf is hashed like an
inner node. So an accepted proof binds an item to its number exactly if it is as long as the tree is deep and the
number is below the number of items; and two lists have one root exactly if they have one padded tree
(`merkle_binding_iff`). Items of 64 bytes can pass for inner nodes, so the exactness across depths is for lists
without them.

An accepted proof is followed from the root down. The last step of `verify_proof` compares the root with a hash, so
without a collision the string it hashed is that of the root of the tree, its halves are the hashes of the two
children, and one of them is the hash the step before ended with (`walk_sound`). As long as the proof is shorter than
the tree is deep this ends at an inner node, which is why the length of a proof and the number of the item have to be
right; beyond that nothing can go wrong.
-/
import WarmLogic.Crypto.Merkle

namespace WarmLogic.Crypto.MerkleTree

open WarmLogic.Lib WarmLogic.Lib.PairTree
open WarmLogic.Federation (hexEncode)

variable {sha3 : List UInt8 → Digest}

/-! ## The tree behind a root -/

/-- The perfect tree over the items that `get_root` hashes, a last odd node standing twice; none for no items. -/
def padTree (items : List (List UInt8)) : List (PairTree (List UInt8)) := reduce .node (items.map .leaf)

/-- The hash of a node. -/
def digest (sha3 : List UInt8 → Digest) : PairTree (List UInt8) → Digest
  | .leaf x => sha3 x
  | .node l r => combine sha3 (digest sha3 l) (digest sha3 r)

/-- The string hashed for a node. -/
def top (sha3 : List UInt8 → Digest) : PairTree (List UInt8) → List UInt8
  | .leaf x => x
  | .node l r => pairBytes (digest sha3 l) (digest sha3 r)

/-- The strings hashed for a node and all below it. -/
def inputs (sha3 : List UInt8 → Digest) : PairTree (List UInt8) → List (List UInt8)
  | .leaf x => [x]
  | .node l r => pairBytes (digest sha3 l) (digest sha3 r) :: (inputs sha3 l ++ inputs sha3 r)

/-- The hash of a node is that of its string. -/
theorem digest_eq (sha3 : List UInt8 → Digest) (t : PairTree (List UInt8)) : digest sha3 t = sha3 (top sha3 t) := by
  cases t <;> rfl

/-- The string of a node is among those of the node. -/
theorem top_mem_inputs (sha3 : List UInt8 → Digest) (t : PairTree (List UInt8)) : top sha3 t ∈ inputs sha3 t := by
  cases t <;> exact List.mem_cons_self

/-- The strings of a child are among those of the node. -/
theorem inputs_child (t : PairTree (List UInt8)) (right : Bool) : inputs sha3 (t.child right) ⊆ inputs sha3 t := by
  cases t with
  | leaf x => exact List.Subset.refl _
  | node l r =>
      cases right with
      | false => exact List.subset_cons_of_subset _ (List.subset_append_left _ _)
      | true => exact List.subset_cons_of_subset _ (List.subset_append_right _ _)

/-- And so are those of every node below. -/
theorem inputs_sub (t : PairTree (List UInt8)) (k i : Nat) : inputs sha3 (t.sub k i) ⊆ inputs sha3 t := by
  induction k generalizing i with
  | zero => exact List.Subset.refl _
  | succ k ih => exact List.Subset.trans (inputs_child _ _) (ih (i / 2))

/-- Two digests are 64 bytes. -/
theorem length_pairBytes (a b : Digest) : (pairBytes a b).length = 64 := by
  simp [pairBytes]

/-- Which are the two. -/
theorem pairBytes_inj {a b c d : Digest} (h : pairBytes a b = pairBytes c d) : a = c ∧ b = d := by
  obtain ⟨h1, h2⟩ := List.append_inj h (by simp)
  exact ⟨Vector.toList_inj.mp h1, Vector.toList_inj.mp h2⟩

/-- No leaf passes for a pair of digests. -/
def NoPair (t : PairTree (List UInt8)) : Prop := t.All fun x => x.length ≠ 64

/-- **A digest binds its tree**, among trees of one depth, and among all trees without 64-byte leaves. -/
theorem digest_injective {hashed : List (List UInt8)} (hcf : NoCollisions sha3 hashed) {d d' : Nat}
    {t u : PairTree (List UInt8)} (ht : Perfect d t) (hu : Perfect d' u) (hts : inputs sha3 t ⊆ hashed)
    (hus : inputs sha3 u ⊆ hashed) (hdepth : d = d' ∨ NoPair t ∧ NoPair u) (h : digest sha3 t = digest sha3 u) :
    t = u := by
  induction ht generalizing d' u with
  | leaf x =>
      rw [digest_eq sha3 u] at h
      have hxu : x = top sha3 u := hcf x (hts List.mem_cons_self) _ (hus (top_mem_inputs sha3 u)) h
      cases hu with
      | leaf y => rw [hxu]; rfl
      | node hl hr =>
          -- the leaf holds two digests
          rcases hdepth with hd | ⟨hx, -⟩
          · exact nomatch hd
          · rw [hxu] at hx
            exact absurd (length_pairBytes _ _) hx
  | @node d l r hl hr ihl ihr =>
      rw [digest_eq sha3 u] at h
      have hxu : pairBytes (digest sha3 l) (digest sha3 r) = top sha3 u :=
        hcf _ (hts List.mem_cons_self) _ (hus (top_mem_inputs sha3 u)) h
      cases hu with
      | leaf y =>
          rcases hdepth with hd | ⟨-, hy⟩
          · exact nomatch hd
          · have hlen := length_pairBytes (digest sha3 l) (digest sha3 r)
            rw [hxu] at hlen
            exact absurd hlen hy
      | @node d' l' r' hl' hr' =>
          obtain ⟨hleft, hright⟩ := pairBytes_inj hxu
          obtain ⟨htl, htr⟩ := List.append_subset.mp (List.cons_subset.mp hts).2
          obtain ⟨hul, hur⟩ := List.append_subset.mp (List.cons_subset.mp hus).2
          have hl2 : d = d' ∨ NoPair l ∧ NoPair l' := hdepth.imp Nat.succ.inj fun hp => ⟨hp.1.1, hp.2.1⟩
          have hr2 : d = d' ∨ NoPair r ∧ NoPair r' := hdepth.imp Nat.succ.inj fun hp => ⟨hp.1.2, hp.2.2⟩
          rw [ihl hl' htl hul hl2 hleft, ihr hr' htr hur hr2 hright]

/-! ## From the lists to the tree -/

/-- The first layer has the hashes of the items. -/
theorem leaves_ofItems (sha3 : List UInt8 → Digest) (items : List (List UInt8)) :
    (ofItems sha3 items).leaves = items.map sha3 := by
  have key : ∀ (t : MerkleTree), (items.foldl (addLeaf sha3) t).leaves = t.leaves ++ items.map sha3 := by
    induction items with
    | nil => simp
    | cons x items ih =>
        intro t
        rw [List.foldl_cons, ih]
        simp [addLeaf]
  exact key new

/-- The layers above are those of the tree. -/
theorem climb_eq (items : List (List UInt8)) :
    climb sha3 (items.map sha3) = (padTree items).map (digest sha3) := by
  unfold climb padTree
  rw [map_reduce (fun l r => rfl), List.map_map]
  rfl

/-- The root is the hash of the padded tree. -/
theorem getRoot_eq (items : List (List UInt8)) :
    getRoot sha3 (ofItems sha3 items) =
      match padTree items with
      | [] => ""
      | t :: _ => hexEncode (digest sha3 t).toList := by
  unfold getRoot
  rw [leaves_ofItems, climb_eq]
  cases padTree items <;> rfl

/-- The tree's strings are those `get_root` hashes. -/
theorem inputs_reduce (sha3 : List UInt8 → Digest) (l : List (PairTree (List UInt8))) :
    ∀ t ∈ reduce .node l, inputs sha3 t ⊆ l.flatMap (inputs sha3) ++ climbInputs sha3 (l.map (digest sha3)) := by
  induction l using reduce_induction (f := PairTree.node) with
  | done l hle =>
      intro t ht x hx
      rw [reduce_of_le hle] at ht
      exact List.mem_append_left _ (List.mem_flatMap.mpr ⟨t, ht, hx⟩)
  | pair l hlt ih =>
      intro t ht x hx
      rw [reduce_of_lt hlt] at ht
      rw [climbInputs, if_pos (by rwa [List.length_map])]
      have hnext : (pairWith PairTree.node l).map (digest sha3) = nextLevel sha3 (l.map (digest sha3)) := by
        rw [map_pairWith, nextLevel, pairWith_map]
        rfl
      have htops : pairWith pairBytes (l.map (digest sha3)) = (pairWith PairTree.node l).map (top sha3) := by
        rw [map_pairWith, pairWith_map]
        rfl
      rw [htops]
      rcases List.mem_append.mp (ih t ht hx) with hmem | hmem
      · -- a string of one of the paired trees: its top, or a string of one of its sides
        obtain ⟨u, hu, hxu⟩ := List.mem_flatMap.mp hmem
        obtain ⟨a, ha, b, hb, rfl⟩ := mem_pairWith hu
        rcases List.mem_cons.mp hxu with rfl | hxu
        · exact List.mem_append_right _ (List.mem_append_left _ (List.mem_map.mpr ⟨_, hu, rfl⟩))
        · rcases List.mem_append.mp hxu with h | h
          · exact List.mem_append_left _ (List.mem_flatMap.mpr ⟨a, ha, h⟩)
          · exact List.mem_append_left _ (List.mem_flatMap.mpr ⟨b, hb, h⟩)
      · rw [hnext] at hmem
        exact List.mem_append_right _ (List.mem_append_right _ hmem)

/-- The strings of the padded tree are those hashed for the root. -/
theorem inputs_padTree {items : List (List UInt8)} {t : PairTree (List UInt8)} (ht : t ∈ padTree items) :
    inputs sha3 t ⊆ rootInputs sha3 items := by
  have h := inputs_reduce sha3 (items.map PairTree.leaf) t ht
  rw [List.map_map] at h
  have hflat : (items.map PairTree.leaf).flatMap (inputs sha3) = items := by
    simp [List.flatMap_map, inputs]
  rw [hflat] at h
  exact h

/-- The padded tree is perfect. -/
theorem perfect_padTree {items : List (List UInt8)} {t : PairTree (List UInt8)} (ht : t ∈ padTree items) :
    Perfect (Nat.clog 2 items.length) t := by
  have hleaf : ∀ t ∈ items.map PairTree.leaf, Perfect 0 t := by
    intro t ht
    obtain ⟨x, -, rfl⟩ := List.mem_map.mp ht
    exact .leaf x
  have h := perfect_reduce hleaf t ht
  rwa [Nat.zero_add, List.length_map] at h

/-- If no item passes for a pair of digests, no leaf does. -/
theorem noPair_padTree {items : List (List UInt8)} (h : ∀ x ∈ items, x.length ≠ 64)
    {t : PairTree (List UInt8)} (ht : t ∈ padTree items) : NoPair t := by
  refine all_reduce ?_ t ht
  intro t ht
  obtain ⟨x, hx, rfl⟩ := List.mem_map.mp ht
  exact h x hx

/-- Below a number of an item stands that item. -/
theorem sub_padTree {items : List (List UInt8)} {t : PairTree (List UInt8)} (ht : padTree items = [t]) {i : Nat}
    {x : List UInt8} (hx : items[i]? = some x) : t.sub (Nat.clog 2 items.length) i = .leaf x := by
  have hi : i < (items.map PairTree.leaf).length := by
    rw [List.length_map]
    exact (List.getElem?_eq_some_iff.mp hx).1
  have h := sub_reduce ht hi
  rw [List.getElem?_map, hx, List.length_map] at h
  exact (Option.some.inj h).symm

/-! ## The walk of a proof -/

/-- **An accepted walk descends the tree**: what it started from is the hash of the node that the index leads to, as
many steps below the root as the proof is long. -/
theorem walk_sound {hashed : List (List UInt8)} (hcf : NoCollisions sha3 hashed) {d : Nat} {t : PairTree (List UInt8)}
    (ht : Perfect d t) (hts : inputs sha3 t ⊆ hashed) {proof : List String} {current : Digest} {index : Nat}
    (hws : walkInputs sha3 current index proof ⊆ hashed) (hlen : proof.length ≤ d ∨ NoPair t)
    (h : walk sha3 current index proof = some (digest sha3 t)) :
    proof.length ≤ d ∧ current = digest sha3 (t.sub proof.length index) := by
  induction proof generalizing current index with
  | nil => exact ⟨Nat.zero_le d, Option.some.inj h⟩
  | cons s proof ih =>
      obtain ⟨sibling, hs, hwalk⟩ := Option.bind_eq_some_iff.mp h
      simp only [walkInputs, hs, List.cons_subset] at hws
      have hlen' : proof.length ≤ d ∨ NoPair t := hlen.imp_left fun hle => Nat.le_of_succ_le hle
      obtain ⟨hle, hup⟩ := ih hws.2 hlen' hwalk
      -- the string hashed on the way up is the one hashed for the node above
      rw [digest_eq sha3 (t.sub _ _)] at hup
      have hmem := hts (inputs_sub t proof.length (index / 2) (top_mem_inputs sha3 _))
      have hbytes := hcf _ hws.1 _ hmem hup
      have hperf : Perfect (d - proof.length) (t.sub proof.length (index / 2)) :=
        Perfect.sub (by rwa [Nat.sub_add_cancel hle]) _
      have hstep64 : (stepBytes current sibling index).length = 64 := by
        unfold stepBytes
        split <;> exact length_pairBytes _ _
      cases hsub : t.sub proof.length (index / 2) with
      | leaf x =>
          rw [hsub] at hperf hbytes
          have hd := hperf.eq_zero
          rcases hlen with hshort | hno
          · rw [List.length_cons] at hshort
            omega
          · have hx : NoPair (PairTree.leaf x) := hsub ▸ hno.sub proof.length (index / 2)
            rw [hbytes] at hstep64
            exact absurd hstep64 hx
      | node l r =>
          rw [hsub] at hperf hbytes
          have hd := hperf.pos
          refine ⟨by rw [List.length_cons]; omega, ?_⟩
          rw [List.length_cons, sub, hsub, child]
          unfold stepBytes at hbytes
          by_cases hbit : index % 2 = 1
          · rw [if_pos hbit] at hbytes
            rw [if_pos (beq_iff_eq.mpr hbit)]
            exact (pairBytes_inj hbytes).2
          · rw [if_neg hbit] at hbytes
            rw [if_neg (mt beq_iff_eq.mp hbit)]
            exact (pairBytes_inj hbytes).1

/-- When `verify_proof` accepts. -/
theorem verifyProof_eq_true {data : List UInt8} {proof : List String} {root : String} {index : Nat} :
    verifyProof sha3 data proof root index = true ↔
      root ≠ "" ∧ ∃ current, walk sha3 (sha3 data) index proof = some current ∧ hexEncode current.toList = root := by
  unfold verifyProof
  by_cases hroot : root = ""
  · simp [hroot]
  · rw [if_neg (mt String.isEmpty_iff.mp hroot)]
    cases walk sha3 (sha3 data) index proof with
    | none => simp
    | some current => simp [hroot]

/-- Different digests are different texts. -/
theorem hexDigest_injective {a b : Digest} (h : hexEncode a.toList = hexEncode b.toList) : a = b :=
  Vector.toList_inj.mp (hexEncode_injective h)

/-- None of which is empty. -/
theorem hexDigest_ne_empty (d : Digest) : hexEncode d.toList ≠ "" := by
  intro h
  have hdec := hexDecode_hexEncode d.toList
  rw [h] at hdec
  have hlen := congrArg List.length (Option.some.inj (show some [] = some d.toList from hdec))
  rw [Vector.length_toList] at hlen
  exact nomatch hlen

/-- **What an accepted proof says**: its data is the string hashed for the node it leads to. -/
theorem top_of_verifyProof {items : List (List UInt8)} {t : PairTree (List UInt8)} (ht : padTree items = [t])
    {data : List UInt8} {proof : List String} {index : Nat}
    (hcf : NoCollisions sha3 (rootInputs sha3 items ++ proofInputs sha3 data proof index))
    (hlen : proof.length = Nat.clog 2 items.length ∨ ∀ x ∈ items, x.length ≠ 64)
    (hv : verifyProof sha3 data proof (getRoot sha3 (ofItems sha3 items)) index = true) :
    proof.length ≤ Nat.clog 2 items.length ∧ data = top sha3 (t.sub proof.length index) := by
  have hmem : t ∈ padTree items := by rw [ht]; exact List.mem_cons_self
  obtain ⟨-, current, hwalk, hroot⟩ := verifyProof_eq_true.mp hv
  rw [getRoot_eq, ht] at hroot
  rw [hexDigest_injective hroot] at hwalk
  have hts : inputs sha3 t ⊆ rootInputs sha3 items ++ proofInputs sha3 data proof index :=
    List.Subset.trans (inputs_padTree hmem) (List.subset_append_left _ _)
  have hws : proofInputs sha3 data proof index ⊆ rootInputs sha3 items ++ proofInputs sha3 data proof index :=
    List.subset_append_right _ _
  have hsound := walk_sound hcf (perfect_padTree hmem) hts (List.cons_subset.mp hws).2
    (hlen.imp Nat.le_of_eq fun h => noPair_padTree h hmem) hwalk
  refine ⟨hsound.1, ?_⟩
  have hdigest := hsound.2
  rw [digest_eq sha3 (t.sub _ _)] at hdigest
  exact hcf _ (hws List.mem_cons_self) _ (hts (inputs_sub t _ _ (top_mem_inputs sha3 _))) hdigest

/-- **Membership, exactly.** -/
theorem verifyProof_binds {items : List (List UInt8)} (hne : items ≠ []) {data : List UInt8} {proof : List String}
    {index : Nat} (hcf : NoCollisions sha3 (rootInputs sha3 items ++ proofInputs sha3 data proof index))
    (hlen : proof.length = Nat.clog 2 items.length ∨ ∀ x ∈ items, x.length ≠ 64)
    (hv : verifyProof sha3 data proof (getRoot sha3 (ofItems sha3 items)) index = true) :
    items[index]? = some data ↔ proof.length = Nat.clog 2 items.length ∧ index < items.length := by
  obtain ⟨t, ht⟩ := reduce_eq_singleton PairTree.node (l := items.map PairTree.leaf) (by simpa using hne)
  obtain ⟨hle, hdata⟩ := top_of_verifyProof ht hcf hlen hv
  have hmem : t ∈ padTree items := by rw [padTree, ht]; exact List.mem_cons_self
  constructor
  · intro hitem
    obtain ⟨hi, hget⟩ := List.getElem?_eq_some_iff.mp hitem
    refine ⟨?_, hi⟩
    rcases hlen with heq | hno
    · exact heq
    · -- a shorter proof leads to an inner node, and the data would be 64 bytes long
      by_contra hshort
      have hperf : Perfect (Nat.clog 2 items.length - proof.length) (t.sub proof.length index) :=
        Perfect.sub (by rw [Nat.sub_add_cancel hle]; exact perfect_padTree hmem) _
      cases hsub : t.sub proof.length index with
      | leaf x =>
          rw [hsub] at hperf
          have hd := hperf.eq_zero
          omega
      | node l r =>
          rw [hsub] at hdata
          exact hno data (hget ▸ List.getElem_mem hi) (hdata ▸ length_pairBytes _ _)
  · rintro ⟨heq, hi⟩
    have hitem : items[index]? = some items[index] := List.getElem?_eq_getElem hi
    rw [heq, sub_padTree ht hitem] at hdata
    rw [hitem, hdata]
    rfl

/-! ## Roots -/

/-- **Two lists have one root exactly if they have one padded tree.** -/
theorem getRoot_eq_iff {items items' : List (List UInt8)}
    (hcf : NoCollisions sha3 (rootInputs sha3 items ++ rootInputs sha3 items'))
    (hdepth : Nat.clog 2 items.length = Nat.clog 2 items'.length ∨
      (∀ x ∈ items, x.length ≠ 64) ∧ ∀ x ∈ items', x.length ≠ 64) :
    getRoot sha3 (ofItems sha3 items) = getRoot sha3 (ofItems sha3 items') ↔ padTree items = padTree items' := by
  have hone : ∀ items : List (List UInt8), padTree items = [] ∨ ∃ t, padTree items = [t] := by
    intro items
    by_cases hne : items = []
    · left
      rw [hne]
      exact reduce_of_le (Nat.zero_le 1)
    · right
      exact reduce_eq_singleton PairTree.node (by simpa using hne)
  rw [getRoot_eq, getRoot_eq]
  rcases hone items with h | ⟨t, h⟩ <;> rcases hone items' with h' | ⟨u, h'⟩ <;> rw [h, h']
  · exact iff_of_true rfl rfl
  · exact iff_of_false (fun e => hexDigest_ne_empty _ e.symm) (by simp)
  · exact iff_of_false (fun e => hexDigest_ne_empty _ e) (by simp)
  · have ht : t ∈ padTree items := by rw [h]; exact List.mem_cons_self
    have hu : u ∈ padTree items' := by rw [h']; exact List.mem_cons_self
    constructor
    · intro hroot
      have htu : t = u := digest_injective hcf (perfect_padTree ht) (perfect_padTree hu)
        (List.Subset.trans (inputs_padTree ht) (List.subset_append_left _ _))
        (List.Subset.trans (inputs_padTree hu) (List.subset_append_right _ _))
        (hdepth.imp_right fun hno => ⟨noPair_padTree hno.1 ht, noPair_padTree hno.2 hu⟩)
        (hexDigest_injective hroot)
      rw [htu]
    · intro htu
      cases htu
      rfl

/-- Items that have one padded tree, and are as many, are the same. -/
theorem padTree_injective {items items' : List (List UInt8)} (hlen : items.length = items'.length)
    (h : padTree items = padTree items') : items = items' := by
  have hleaf := reduce_injective (by simpa using hlen) h
  exact List.map_injective_iff.mpr (fun x y e => PairTree.leaf.inj e) hleaf

/-! ## Honest proofs -/

/-- A sibling is decoded to the digest it was written from. -/
theorem decodeSibling_hex (d : Digest) : decodeSibling (hexEncode d.toList) = some d := by
  unfold decodeSibling
  rw [hexDecode_hexEncode, Option.bind_some, dif_pos Vector.length_toList]
  rfl

/-- The siblings of a node lead to the root, one for each level. -/
theorem walk_siblings (sha3 : List UInt8 → Digest) (level : List Digest) {i : Nat} {current : Digest} (h : level[i]? = some current) :
    (∃ root, climb sha3 level = [root] ∧
      walk sha3 current i ((siblings sha3 level i).map fun d => hexEncode d.toList) = some root) ∧
    (siblings sha3 level i).length = Nat.clog 2 level.length := by
  induction level using reduce_induction (f := combine sha3) generalizing i current with
  | done level hle =>
      obtain ⟨hi, hget⟩ := List.getElem?_eq_some_iff.mp h
      obtain ⟨root, rfl⟩ := List.length_eq_one_iff.mp (show level.length = 1 by omega)
      have hz : i = 0 := by
        rw [List.length_singleton] at hi
        omega
      subst hz
      rw [siblings, if_neg (by simp), climb, reduce_of_le hle, Nat.clog_of_right_le_one hle]
      exact ⟨⟨root, rfl, h.symm⟩, rfl⟩
  | pair level hlt ih =>
      obtain ⟨hi, -⟩ := List.getElem?_eq_some_iff.mp h
      obtain ⟨a, b, hup, hget, hpart⟩ := getElem?_pairWith (f := combine sha3) hi
      obtain ⟨⟨root, hroot, hwalk⟩, hlen⟩ := ih hup
      have hstep : sha3 (stepBytes current (if i % 2 = 1 then a else b) i) = combine sha3 a b := by
        rw [Option.some.inj (h.symm.trans hget), stepBytes, combine]
        split <;> rfl
      rw [siblings, if_pos hlt, hpart]
      refine ⟨⟨root, ?_, ?_⟩, ?_⟩
      · rw [climb, reduce_of_lt hlt]
        exact hroot
      · rw [Option.toList_some, List.singleton_append, List.map_cons, walk, decodeSibling_hex, Option.bind_some, hstep]
        exact hwalk
      · rw [Option.toList_some, List.singleton_append, List.length_cons, nextLevel, hlen, length_pairWith, ← clog_half hlt]

/-- **Every item has an accepted proof, as long as the tree is deep.** -/
theorem verifyProof_getProof (sha3 : List UInt8 → Digest) {items : List (List UInt8)} {i : Nat} {x : List UInt8} (h : items[i]? = some x) :
    verifyProof sha3 x (getProof sha3 (ofItems sha3 items) i) (getRoot sha3 (ofItems sha3 items)) i = true ∧
      (getProof sha3 (ofItems sha3 items) i).length = Nat.clog 2 items.length := by
  obtain ⟨hi, -⟩ := List.getElem?_eq_some_iff.mp h
  have hleaf : (items.map sha3)[i]? = some (sha3 x) := by rw [List.getElem?_map, h, Option.map_some]
  obtain ⟨⟨root, hroot, hwalk⟩, hlen⟩ := walk_siblings sha3 (items.map sha3) hleaf
  have hproof : getProof sha3 (ofItems sha3 items) i =
      (siblings sha3 (items.map sha3) i).map fun d => hexEncode d.toList := by
    rw [getProof, leaves_ofItems, if_neg (by rw [List.length_map]; omega)]
  have hrootHex : getRoot sha3 (ofItems sha3 items) = hexEncode root.toList := by
    rw [getRoot, leaves_ofItems, hroot]
  rw [hproof, hrootHex, List.length_map, hlen, List.length_map]
  exact ⟨verifyProof_eq_true.mpr ⟨hexDigest_ne_empty root, root, hwalk, rfl⟩, rfl⟩

/-- **Completeness: the proof made for an item is accepted**, whatever the hash function, for every number of items. -/
theorem honest_proofs_verify (sha3 : List UInt8 → Digest) {items : List (List UInt8)} {i : Nat} (h : i < items.length) :
    verifyProof sha3 items[i] (getProof sha3 (ofItems sha3 items) i) (getRoot sha3 (ofItems sha3 items)) i = true :=
  (verifyProof_getProof sha3 (List.getElem?_eq_getElem h)).1

/-- With one constant hash for everything the last of five items still has its proof. -/
theorem honest_proofs_verify_constant_hash :
    verifyProof (fun _ => Vector.replicate 32 7) [5]
      (getProof (fun _ => Vector.replicate 32 7) (ofItems (fun _ => Vector.replicate 32 7) [[1], [2], [3], [4], [5]]) 4)
      (getRoot (fun _ => Vector.replicate 32 7) (ofItems (fun _ => Vector.replicate 32 7) [[1], [2], [3], [4], [5]]))
      4 = true :=
  honest_proofs_verify (fun _ => Vector.replicate 32 7) (show 4 < [[1], [2], [3], [4], [5]].length by decide)

/-! ## The law -/

/-- **What Merkle membership and roots bind, exactly.** Where no two strings hashed by the calls collide: an accepted
proof shows the item with its number if and only if it is as long as the tree is deep and the number is one of an
item; and two different lists have different roots if and only if their padded trees differ, as those of lists of
equal length do. Across lengths both are for items that are not 64 bytes long, as two digests are. -/
theorem merkle_binding_iff (sha3 : List UInt8 → Digest) :
    (∀ (items : List (List UInt8)) (data : List UInt8) (proof : List String) (index : Nat), items ≠ [] →
      NoCollisions sha3 (rootInputs sha3 items ++ proofInputs sha3 data proof index) →
      (proof.length = Nat.clog 2 items.length ∨ ∀ x ∈ items, x.length ≠ 64) →
      verifyProof sha3 data proof (getRoot sha3 (ofItems sha3 items)) index = true →
      (index < (ofItems sha3 items).len ∧ items[index]? = some data ↔
        proof.length = Nat.clog 2 items.length ∧ index < items.length)) ∧
    ∀ items items' : List (List UInt8),
      NoCollisions sha3 (rootInputs sha3 items ++ rootInputs sha3 items') →
      (items.length = items'.length → items ≠ items' →
        getRoot sha3 (ofItems sha3 items) ≠ getRoot sha3 (ofItems sha3 items')) ∧
      (Nat.clog 2 items.length = Nat.clog 2 items'.length ∨
          (∀ x ∈ items, x.length ≠ 64) ∧ (∀ x ∈ items', x.length ≠ 64) →
        ((items ≠ items' → getRoot sha3 (ofItems sha3 items) ≠ getRoot sha3 (ofItems sha3 items')) ↔
          (items ≠ items' → padTree items ≠ padTree items'))) := by
  refine ⟨?_, ?_⟩
  · intro items data proof index hne hcf hlen hv
    have hcount : (ofItems sha3 items).len = items.length := by rw [len, leaves_ofItems, List.length_map]
    rw [← verifyProof_binds hne hcf hlen hv, hcount]
    constructor
    · exact fun h => h.2
    · exact fun h => ⟨(List.getElem?_eq_some_iff.mp h).1, h⟩
  · intro items items' hcf
    refine ⟨?_, ?_⟩
    · intro hlen hne hroot
      exact hne (padTree_injective hlen ((getRoot_eq_iff hcf (.inl (by rw [hlen]))).mp hroot))
    · intro hdepth
      rw [Ne, Ne, Ne, getRoot_eq_iff hcf hdepth]

/-- A stand-in for SHA3-256 on short strings: the length and the first bytes. -/
def shortHash (x : List UInt8) : Digest := Vector.ofFn fun i => (UInt8.ofNat x.length :: x).getD i 0

/-- Strings with different hashes do not collide. -/
theorem noCollisions_of_pairwise {sha3 : List UInt8 → Digest} {hashed all : List (List UInt8)}
    (hsub : ∀ x ∈ hashed, x ∈ all) (h : all.Pairwise fun x y => sha3 x ≠ sha3 y) : NoCollisions sha3 hashed := by
  have hsymm : Std.Symm fun x y => sha3 x ≠ sha3 y := ⟨fun _ _ hne => hne.symm⟩
  intro x hx y hy heq
  by_contra hne
  exact h.forall (hsub x hx) (hsub y hy) hne heq

/-- The strings hashed for the root of three items. -/
theorem shortHash_rootInputs :
    (rootInputs shortHash [[1], [2], [3]]).Pairwise fun x y => shortHash x ≠ shortHash y := by
  decide +kernel

/-- The honest proof of the third of three items: accepted, and bound to the item. -/
theorem third_item_bound :
    verifyProof shortHash [3] (getProof shortHash (ofItems shortHash [[1], [2], [3]]) 2)
        (getRoot shortHash (ofItems shortHash [[1], [2], [3]])) 2 = true ∧
      2 < (ofItems shortHash [[1], [2], [3]]).len ∧ ([[1], [2], [3]] : List (List UInt8))[2]? = some [3] := by
  have hitem : ([[1], [2], [3]] : List (List UInt8))[2]? = some [3] := rfl
  obtain ⟨hv, hlen⟩ := verifyProof_getProof shortHash hitem
  refine ⟨hv, ?_⟩
  refine ((merkle_binding_iff shortHash).1 [[1], [2], [3]] [3] _ 2 (by simp) ?_ (.inl hlen) hv).mpr ⟨hlen, by simp⟩
  exact noCollisions_of_pairwise (by decide +kernel) shortHash_rootInputs

/-- Two digests pass as an item with the empty proof, and repeating a last odd item keeps the root. -/
theorem digests_pass_and_padding_collides :
    (¬ ∀ (sha3 : List UInt8 → Digest) (items : List (List UInt8)) (data : List UInt8) (proof : List String) (index : Nat),
      items ≠ [] → NoCollisions sha3 (rootInputs sha3 items ++ proofInputs sha3 data proof index) →
      verifyProof sha3 data proof (getRoot sha3 (ofItems sha3 items)) index = true →
      index < (ofItems sha3 items).len ∧ items[index]? = some data) ∧
    ¬ ∀ (sha3 : List UInt8 → Digest) (items items' : List (List UInt8)),
      NoCollisions sha3 (rootInputs sha3 items ++ rootInputs sha3 items') → items ≠ items' →
      getRoot sha3 (ofItems sha3 items) ≠ getRoot sha3 (ofItems sha3 items') := by
  refine ⟨?_, ?_⟩
  · intro h
    have hbad := (h shortHash [[1], [2]] (pairBytes (shortHash [1]) (shortHash [2])) [] 0 (by simp)
      (by unfold NoCollisions; decide +kernel) (by decide +kernel)).2
    exact absurd hbad (by decide +kernel)
  · intro h
    refine h shortHash [[1], [2], [3]] [[1], [2], [3], [3]] ?_ (by simp) ?_
    · exact noCollisions_of_pairwise (by decide +kernel) shortHash_rootInputs
    · decide +kernel

end WarmLogic.Crypto.MerkleTree
