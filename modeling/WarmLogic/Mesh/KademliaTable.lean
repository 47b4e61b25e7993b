/-
# WarmLogic.Mesh.KademliaTable — the routing table with replacement caches, of `dht.rs`.

The table has a bucket for every length of a prefix shared with the local id, and beside each bucket a cache of contacts
that wait for a place in it. A contact that is seen goes to the tail of its bucket, or to the cache if the bucket is
full; a node that fails three times leaves, and the last contact in the cache takes its place.

A bucket with a waiting contact is always full (`SlotOk.full`), so the branch that finds room in a bucket never meets a
cached contact. But a waiting contact that is seen again is put into the cache a second time, beside the entry that was
just moved to the tail. `ids_nodup` shows that nothing else makes a node appear twice, and `seen_twice_listed_twice`
that two evictions later it stands twice in the bucket.

A call that indexes past the end of a vector panics, and the model returns `none` for it (`prefixLen`, `place`,
`promote`): an id shorter than the local one runs out of bytes in `bucket_index` if it agrees with it so far.
`table_sound` shows that no call on an id of the local id's length does so, whatever was called before.

The count of failures is a byte that is incremented before it is compared, so it could overflow; the invariant keeps
it at one or two, since a node whose count reaches three is removed together with its count.

The proofs treat one bucket and the cache beside it as a unit (`SlotOk`, `SlotNodup`): every call touches at most one
such slot (`Change`), and what a call does to a slot is one of two functions, `seen` and `left`. The facts about slots
are proved for these two, and carried to the table once.
-/
import WarmLogic.Lib.Nearest
import WarmLogic.Lib.Run
import Mathlib.Data.List.AList
import Mathlib.Data.UInt

namespace WarmLogic.Mesh.Kademlia

open WarmLogic.Lib

/-! ## The table -/

/-- The constants of `dht.rs`. -/
def kParam : Nat := 20

/-- `KEY_SIZE`, in bytes. -/
def keySize : Nat := 32

/-- `REPLACEMENT_CACHE_SIZE`. -/
def replacementCacheSize : Nat := 5

/-- `MAX_FAILURES`. -/
def maxFailures : UInt8 := 3

/-- `Contact`: the id is a byte vector of any length, as it comes from Python. -/
structure Contact where
  id : List UInt8
  address : String
  port : UInt16
  deriving DecidableEq

/-- `xor_distance`: `zip` stops at the shorter of the two. -/
def Contact.xorDistance (c : Contact) (target : List UInt8) : List UInt8 := List.zipWith (· ^^^ ·) c.id target

/-- `RoutingTable`: 256 buckets, 256 caches, and a count of failures for some nodes. -/
structure RoutingTable where
  localId : List UInt8
  buckets : List (List Contact)
  replacementCaches : List (List Contact)
  failureCounts : AList fun _ : List UInt8 => UInt8

/-- `u8::leading_zeros` of a byte that is not zero. -/
def leadingZeros (x : UInt8) : Nat := 7 - x.toNat.log2

/-- The loop of `bucket_index`: the bits both ids start with. `none`: the loop indexes past the end of the target. -/
def prefixLen : List UInt8 → List UInt8 → Option Nat
  | [], _ => some 0
  | _ :: _, [] => none
  | a :: localId, b :: targetId =>
      if a ^^^ b = 0 then (prefixLen localId targetId).map (8 + ·) else some (leadingZeros (a ^^^ b))

/-- `bucket_index`: an id that agrees with the local one everywhere falls in the last bucket. -/
def bucketIndex (localId targetId : List UInt8) : Option Nat :=
  (prefixLen localId targetId).map fun prefixLen => if keySize * 8 ≤ prefixLen then keySize * 8 - 1 else prefixLen

/-- `position`, `remove` and `push`: the first contact with the id goes to the tail. -/
def toTail (id : List UInt8) (contacts : List Contact) : List Contact :=
  match contacts.find? fun c => c.id = id with
  | none => contacts
  | some c => (contacts.eraseP fun c => c.id = id) ++ [c]

/-- The oldest of a full cache makes room. -/
def trim (cache : List Contact) : List Contact := if replacementCacheSize ≤ cache.length then cache.drop 1 else cache

namespace RoutingTable

/-- `new`: empty buckets and caches. -/
def new (localId : List UInt8) : RoutingTable where
  localId := localId
  buckets := List.replicate (keySize * 8) []
  replacementCaches := List.replicate (keySize * 8) []
  failureCounts := ∅

/-- `len`. -/
def len (t : RoutingTable) : Nat := (t.buckets.map List.length).sum

/-- One bucket replaced. -/
def setBucket (t : RoutingTable) (idx : Nat) (bucket : List Contact) : RoutingTable :=
  { t with buckets := t.buckets.set idx bucket }

/-- One cache replaced. -/
def setCache (t : RoutingTable) (idx : Nat) (cache : List Contact) : RoutingTable :=
  { t with replacementCaches := t.replacementCaches.set idx cache }

/-- The count of a node is dropped. -/
def clearFailures (t : RoutingTable) (nodeId : List UInt8) : RoutingTable :=
  { t with failureCounts := t.failureCounts.erase nodeId }

/-- `update` behind the search for the index. -/
def place (t : RoutingTable) (idx : Nat) (contact : Contact) : RoutingTable :=
  match t.buckets[idx]? with
  | none => t
  | some bucket =>
      if bucket.any fun c => c.id = contact.id then t.setBucket idx (toTail contact.id bucket)
      else
        match t.replacementCaches[idx]? with
        | none => t
        | some cache =>
            let cache := toTail contact.id cache
            if bucket.length < kParam then (t.setCache idx cache).setBucket idx (bucket ++ [contact])
            -- the contact is pushed whether or not the cache has it
            else t.setCache idx (trim cache ++ [contact])

/-- `update`: the local node is skipped, and any contact that is seen loses its count of failures. -/
def update (t : RoutingTable) (contact : Contact) : Option RoutingTable :=
  if contact.id = t.localId then some t
  else (bucketIndex t.localId contact.id).map fun idx => (t.clearFailures contact.id).place idx contact

/-- `evict_node` behind the search for the index. -/
def promote (t : RoutingTable) (idx : Nat) (nodeId : List UInt8) : RoutingTable :=
  match t.buckets[idx]? with
  | none => t
  | some bucket =>
      if bucket.any fun c => c.id = nodeId then
        let bucket := bucket.eraseP fun c => c.id = nodeId
        match t.replacementCaches[idx]? with
        | none => t.setBucket idx bucket
        | some cache => (t.setCache idx cache.dropLast).setBucket idx (bucket ++ cache.getLast?.toList)
      else t

/-- `evict_node`, which forgets the failures of the node whether or not it was in the table. -/
def evictNode (t : RoutingTable) (nodeId : List UInt8) : Option RoutingTable :=
  (bucketIndex t.localId nodeId).map fun idx => (t.promote idx nodeId).clearFailures nodeId

/-- `record_failure`; `none` also where the count, a byte, would overflow. -/
def recordFailure (t : RoutingTable) (nodeId : List UInt8) : Option (RoutingTable × Bool) :=
  let count := (t.failureCounts.lookup nodeId).getD 0
  if count = 255 then none
  else
    let t := { t with failureCounts := t.failureCounts.insert nodeId (count + 1) }
    if maxFailures ≤ count + 1 then (t.evictNode nodeId).map fun t => (t, true) else some (t, false)

/-- `remove`. -/
def remove (t : RoutingTable) (nodeId : List UInt8) : Option RoutingTable := t.evictNode nodeId

/-- `find_closest`: the contacts of all buckets, sorted, a stable sort. -/
def findClosest (t : RoutingTable) (targetId : List UInt8) : List Contact :=
  (t.buckets.flatten.mergeSort fun a b => decide (a.xorDistance targetId ≤ b.xorDistance targetId)).take kParam

end RoutingTable

/-- A call on the table. -/
inductive TableOp where
  | update (contact : Contact)
  | recordFailure (nodeId : List UInt8)
  | remove (nodeId : List UInt8)

/-- The table after it; `none` would be a panic. -/
def TableOp.run (t : RoutingTable) : TableOp → Option RoutingTable
  | .update contact => t.update contact
  | .recordFailure nodeId => (t.recordFailure nodeId).map (·.1)
  | .remove nodeId => t.remove nodeId

/-- A table and the calls on it. A call that panics has no next state. -/
def tableSystem : System RoutingTable TableOp where
  init t := ∃ localId, t = .new localId
  step op t := op.run t

/-! ## One bucket and its cache -/

/-- A contact is seen: what becomes of its bucket and of the cache beside it. -/
def seen (contact : Contact) (bucket cache : List Contact) : List Contact × List Contact :=
  if bucket.any fun c => c.id = contact.id then (toTail contact.id bucket, cache)
  else
    let cache := toTail contact.id cache
    if bucket.length < kParam then (bucket ++ [contact], cache)
    else (bucket, trim cache ++ [contact])

/-- A node leaves: what becomes of its bucket and of the cache beside it. -/
def left (nodeId : List UInt8) (bucket cache : List Contact) : List Contact × List Contact :=
  if bucket.any fun c => c.id = nodeId then
    ((bucket.eraseP fun c => c.id = nodeId) ++ cache.getLast?.toList, cache.dropLast)
  else (bucket, cache)

/-- A contact of this id is there. -/
theorem any_id_iff {id : List UInt8} {contacts : List Contact} :
    (contacts.any fun c => c.id = id) = true ↔ ∃ c ∈ contacts, c.id = id := by
  simp

/-- Moving to the tail loses nothing and adds nothing. -/
theorem toTail_perm (id : List UInt8) (contacts : List Contact) : (toTail id contacts).Perm contacts := by
  unfold toTail
  split
  · exact .refl _
  · next c hfind =>
      obtain ⟨hid, front, back, rfl, hfront⟩ := List.find?_eq_some_iff_append.mp hfind
      have herase : ((front ++ c :: back).eraseP fun c => c.id = id) = front ++ back := by
        rw [List.eraseP_append_right _ fun x hx => by simpa using hfront x hx]
        simp [of_decide_eq_true hid]
      rw [herase, List.append_assoc]
      exact .append_left front List.perm_append_comm

/-- Without one nothing is moved. -/
theorem toTail_of_not_mem {id : List UInt8} {contacts : List Contact} (h : ∀ c ∈ contacts, c.id ≠ id) :
    toTail id contacts = contacts := by
  have hnone : (contacts.find? fun c => c.id = id) = none := List.find?_eq_none.mpr fun c hc => by simpa using h c hc
  unfold toTail
  rw [hnone]

/-- Trimming only drops. -/
theorem trim_sublist (cache : List Contact) : (trim cache).Sublist cache := by
  unfold trim
  split
  · exact List.drop_sublist 1 cache
  · exact List.Sublist.refl cache

/-- And makes room for one. -/
theorem trim_length {cache : List Contact} (h : cache.length ≤ replacementCacheSize) :
    (trim cache).length < replacementCacheSize := by
  unfold trim
  split
  · rw [List.length_drop]
    simp only [replacementCacheSize] at *
    omega
  · omega

/-- A contact that leaves its bucket: the newest of the cache takes its place. -/
theorem left_of_mem {nodeId : List UInt8} {bucket : List Contact} (cache : List Contact)
    (h : (bucket.any fun c => c.id = nodeId) = true) :
    left nodeId bucket cache
      = ((bucket.eraseP fun c => c.id = nodeId) ++ cache.getLast?.toList, cache.dropLast) := if_pos h

/-- A contact that is not in it leaves nothing. -/
theorem left_of_not_mem {nodeId : List UInt8} {bucket : List Contact} (cache : List Contact)
    (h : ¬(bucket.any fun c => c.id = nodeId) = true) : left nodeId bucket cache = (bucket, cache) := if_neg h

/-- The one who leaves is replaced by the last of the cache, and nobody else moves. -/
theorem left_perm (nodeId : List UInt8) (bucket cache : List Contact) :
    ((left nodeId bucket cache).1 ++ (left nodeId bucket cache).2).Perm
      ((bucket.eraseP fun c => c.id = nodeId) ++ cache) := by
  unfold left
  split
  · rcases List.eq_nil_or_concat cache with rfl | ⟨front, last, hcache⟩
    · simp
    · rw [List.concat_eq_append] at hcache
      subst hcache
      simp only [List.getLast?_append, List.getLast?_singleton, Option.some_or, Option.toList_some,
        List.dropLast_concat, List.append_assoc]
      exact .append_left _ List.perm_append_comm
  · next hany =>
      rw [List.eraseP_of_forall_not fun c hc hid => hany (any_id_iff.mpr ⟨c, hc, by simpa using hid⟩)]

/-- **What holds of a bucket with its cache.** Only a full bucket has contacts waiting for it. That holds because a
contact is put into the cache only when the bucket is full, and because a node that leaves a bucket with a waiting
contact is replaced at once by the last of them; so a bucket with contacts waiting never shrinks. -/
structure SlotOk (localId : List UInt8) (idx : Nat) (bucket cache : List Contact) : Prop where
  room : bucket.length ≤ kParam
  waiting : cache.length ≤ replacementCacheSize
  full : cache ≠ [] → bucket.length = kParam
  placed : ∀ c ∈ bucket ++ cache, c.id ≠ localId ∧ bucketIndex localId c.id = some idx

section Slot

variable {localId : List UInt8} {idx : Nat} {bucket cache : List Contact} {contact : Contact}

/-- An empty bucket and an empty cache. -/
theorem SlotOk.empty : SlotOk localId idx [] [] where
  room := Nat.zero_le _
  waiting := Nat.zero_le _
  full h := absurd rfl h
  placed _ hc := absurd hc List.not_mem_nil

/-- A contact that is seen goes to the bucket, or to the cache. -/
theorem SlotOk.seen (h : SlotOk localId idx bucket cache) (hself : contact.id ≠ localId)
    (hidx : bucketIndex localId contact.id = some idx) :
    SlotOk localId idx (seen contact bucket cache).1 (seen contact bucket cache).2 := by
  have hcache := toTail_perm contact.id cache
  unfold Kademlia.seen
  split
  · -- known: its bucket is only rearranged
    have hbucket := toTail_perm contact.id bucket
    refine ⟨hbucket.length_eq ▸ h.room, h.waiting, fun hne => hbucket.length_eq ▸ h.full hne, fun c hc => ?_⟩
    exact h.placed c ((hbucket.append_right cache).mem_iff.mp hc)
  · split
    · -- there is room, so nobody waits
      next hroom =>
        have hnil : cache = [] := by
          by_contra hne
          have := h.full hne
          omega
        have htail : toTail contact.id cache = [] := by
          rw [hnil] at hcache ⊢
          exact List.perm_nil.mp hcache
        rw [htail]
        refine ⟨?_, Nat.zero_le _, fun hne => absurd rfl hne, fun c hc => ?_⟩
        · rw [List.length_append, List.length_singleton]
          exact hroom
        · rw [List.append_nil] at hc
          rcases List.mem_append.mp hc with hc | hc
          · exact h.placed c (List.mem_append_left cache hc)
          · rw [List.mem_singleton.mp hc]
            exact ⟨hself, hidx⟩
    · next hroom =>
        have hfull : bucket.length = kParam := Nat.le_antisymm h.room (Nat.not_lt.mp hroom)
        refine ⟨h.room, ?_, fun _ => hfull, fun c hc => ?_⟩
        · have hlen := trim_length (hcache.length_eq ▸ h.waiting)
          rw [List.length_append, List.length_singleton]
          omega
        · rcases List.mem_append.mp hc with hc | hc
          · exact h.placed c (List.mem_append_left cache hc)
          · rcases List.mem_append.mp hc with hc | hc
            · apply h.placed c
              apply List.mem_append_right bucket
              exact hcache.mem_iff.mp ((trim_sublist _).subset hc)
            · rw [List.mem_singleton.mp hc]
              exact ⟨hself, hidx⟩

/-- A contact that leaves. -/
theorem SlotOk.left (h : SlotOk localId idx bucket cache) (nodeId : List UInt8) :
    SlotOk localId idx (left nodeId bucket cache).1 (left nodeId bucket cache).2 := by
  have hplaced : ∀ c ∈ (Kademlia.left nodeId bucket cache).1 ++ (Kademlia.left nodeId bucket cache).2,
      c.id ≠ localId ∧ bucketIndex localId c.id = some idx := by
    intro c hc
    have hmem := (left_perm nodeId bucket cache).mem_iff.mp hc
    apply h.placed c
    rcases List.mem_append.mp hmem with hmem | hmem
    · exact List.mem_append_left cache (List.mem_of_mem_eraseP hmem)
    · exact List.mem_append_right bucket hmem
  by_cases hany : (bucket.any fun c => c.id = nodeId) = true
  · rw [left_of_mem cache hany] at hplaced ⊢
    obtain ⟨c, hc, hid⟩ := any_id_iff.mp hany
    have herase : (bucket.eraseP fun c => c.id = nodeId).length = bucket.length - 1 :=
      List.length_eraseP_of_mem hc (by simpa using hid)
    have hpos : 0 < bucket.length := List.length_pos_of_mem hc
    have hroom := h.room
    rcases List.eq_nil_or_concat cache with rfl | ⟨front, last, hcache⟩
    · refine ⟨?_, Nat.zero_le _, fun hne => absurd rfl hne, hplaced⟩
      simp only [List.getLast?_nil, Option.toList_none, List.append_nil]
      omega
    · rw [List.concat_eq_append] at hcache
      subst hcache
      have hfull := h.full (by simp)
      have hwaiting := h.waiting
      have hlen : ((bucket.eraseP fun c => c.id = nodeId) ++ (front ++ [last]).getLast?.toList).length
          = bucket.length := by
        simp only [List.getLast?_append, List.getLast?_singleton, Option.some_or, Option.toList_some,
          List.length_append, List.length_singleton]
        omega
      refine ⟨hlen ▸ hroom, ?_, fun _ => hlen.trans hfull, hplaced⟩
      rw [List.dropLast_concat]
      show front.length ≤ replacementCacheSize
      rw [List.length_append, List.length_singleton] at hwaiting
      omega
  · rw [left_of_not_mem cache hany]
    exact h

/-- The ids of a bucket and of its cache are all different. A contact that is seen breaks this exactly if it waits in
the cache: it is not in the bucket, so it is appended to the cache as if it were new. -/
def SlotNodup (bucket cache : List Contact) : Prop := ((bucket ++ cache).map Contact.id).Nodup

/-- Ids stay distinct, if the contact waits nowhere. -/
theorem SlotNodup.seen (h : SlotNodup bucket cache) (hok : SlotOk localId idx bucket cache)
    (hfresh : ∀ c ∈ cache, c.id ≠ contact.id) :
    SlotNodup (seen contact bucket cache).1 (seen contact bucket cache).2 := by
  unfold SlotNodup Kademlia.seen
  split
  · exact (((toTail_perm contact.id bucket).append_right cache).map Contact.id).nodup_iff.mpr h
  · next hany =>
      have hnew : ∀ c ∈ bucket, c.id ≠ contact.id := fun c hc hid => hany (any_id_iff.mpr ⟨c, hc, hid⟩)
      rw [toTail_of_not_mem hfresh]
      split
      · next hroom =>
          have hnil : cache = [] := by
            by_contra hne
            have := hok.full hne
            omega
          subst hnil
          simp only [SlotNodup, List.append_nil] at h
          rw [List.append_nil, List.map_append, List.map_singleton]
          refine h.append (List.nodup_singleton _) fun id hid hid' => ?_
          obtain ⟨c, hc, rfl⟩ := List.mem_map.mp hid
          exact hnew c hc (List.mem_singleton.mp hid')
      · have hsub : (bucket ++ trim cache).Sublist (bucket ++ cache) := .append_left (trim_sublist cache) bucket
        rw [← List.append_assoc, List.map_append, List.map_singleton]
        refine (h.sublist (hsub.map Contact.id)).append (List.nodup_singleton _) fun id hid hid' => ?_
        obtain ⟨c, hc, rfl⟩ := List.mem_map.mp hid
        rcases List.mem_append.mp (hsub.subset hc) with hc | hc
        · exact hnew c hc (List.mem_singleton.mp hid')
        · exact hfresh c hc (List.mem_singleton.mp hid')

/-- And when one leaves. -/
theorem SlotNodup.left (h : SlotNodup bucket cache) (nodeId : List UInt8) :
    SlotNodup (left nodeId bucket cache).1 (left nodeId bucket cache).2 := by
  unfold SlotNodup
  rw [((left_perm nodeId bucket cache).map Contact.id).nodup_iff]
  exact h.sublist (((List.eraseP_sublist).append_right cache).map Contact.id)

end Slot

/-! ## The whole table -/

/-- An index is below the number of buckets. -/
theorem bucketIndex_lt {localId targetId : List UInt8} {idx : Nat} (h : bucketIndex localId targetId = some idx) :
    idx < keySize * 8 := by
  obtain ⟨n, -, rfl⟩ := Option.map_eq_some_iff.mp h
  have hpos : 0 < keySize := by decide
  split <;> omega

/-- A list with one element set to what it was. -/
theorem set_same {α : Type} {xs : List α} {i : Nat} {x : α} (h : xs[i]? = some x) : xs.set i x = xs := by
  obtain ⟨hi, rfl⟩ := List.getElem?_eq_some_iff.mp h
  exact List.set_getElem_self hi

namespace RoutingTable

/-- The table with one bucket and the cache beside it replaced. -/
def withSlot (t : RoutingTable) (idx : Nat) (slot : List Contact × List Contact) : RoutingTable :=
  { t with buckets := t.buckets.set idx slot.1, replacementCaches := t.replacementCaches.set idx slot.2 }

/-- A property of every bucket with the cache beside it. -/
def Slots (t : RoutingTable) (P : Nat → List Contact → List Contact → Prop) : Prop :=
  ∀ (idx : Nat) (bucket cache : List Contact),
    t.buckets[idx]? = some bucket → t.replacementCaches[idx]? = some cache → P idx bucket cache

section Table

variable {t t' : RoutingTable} {idx : Nat} {bucket cache : List Contact}

/-- A table with one slot set to what it was. -/
theorem withSlot_same (hb : t.buckets[idx]? = some bucket) (hc : t.replacementCaches[idx]? = some cache) :
    t.withSlot idx (bucket, cache) = t := by
  have hbuckets : t.buckets.set idx bucket = t.buckets := set_same hb
  have hcaches : t.replacementCaches.set idx cache = t.replacementCaches := set_same hc
  show { t with buckets := t.buckets.set idx bucket, replacementCaches := t.replacementCaches.set idx cache } = t
  rw [hbuckets, hcaches]

/-- `place`, slot by slot. -/
theorem place_eq (contact : Contact) (hb : t.buckets[idx]? = some bucket)
    (hc : t.replacementCaches[idx]? = some cache) :
    t.place idx contact = t.withSlot idx (seen contact bucket cache) := by
  have hbuckets : t.buckets.set idx bucket = t.buckets := set_same hb
  have hcaches : t.replacementCaches.set idx cache = t.replacementCaches := set_same hc
  unfold place seen
  simp only [hb, hc]
  split
  · simp only [setBucket, withSlot, hcaches]
  · split
    · rfl
    · simp only [setCache, withSlot, hbuckets]

/-- `promote`, slot by slot. -/
theorem promote_eq (nodeId : List UInt8) (hb : t.buckets[idx]? = some bucket)
    (hc : t.replacementCaches[idx]? = some cache) :
    t.promote idx nodeId = t.withSlot idx (left nodeId bucket cache) := by
  unfold promote left
  simp only [hb, hc]
  split
  · rfl
  · exact (withSlot_same hb hc).symm

/-- A property of every slot, with one slot changed. -/
theorem Slots.withSlot {P : Nat → List Contact → List Contact → Prop} {slot : List Contact × List Contact}
    (h : t.Slots P) (hslot : P idx slot.1 slot.2) : (t.withSlot idx slot).Slots P := by
  intro i bucket cache hb hc
  have hb : (t.buckets.set idx slot.1)[i]? = some bucket := hb
  have hc : (t.replacementCaches.set idx slot.2)[i]? = some cache := hc
  by_cases hi : idx = i
  · subst hi
    have hlen := (List.getElem?_eq_some_iff.mp hb).1
    have hlen' := (List.getElem?_eq_some_iff.mp hc).1
    rw [List.length_set] at hlen hlen'
    rw [List.getElem?_set_self hlen] at hb
    rw [List.getElem?_set_self hlen'] at hc
    rw [← Option.some.inj hb, ← Option.some.inj hc]
    exact hslot
  · rw [List.getElem?_set_ne hi] at hb hc
    exact h i bucket cache hb hc

/-- **What holds of the table between calls.** A count of failures never comes near the end of its byte: the third
failure removes the node, and a node that is seen or removed loses its count. The slots are kept because a call
touches one of them, and that one as `SlotOk.seen` and `SlotOk.left` say. -/
structure Inv (t : RoutingTable) : Prop where
  buckets : t.buckets.length = keySize * 8
  caches : t.replacementCaches.length = keySize * 8
  slots : t.Slots fun idx bucket cache => SlotOk t.localId idx bucket cache
  counts : ∀ id n, t.failureCounts.lookup id = some n → n = 1 ∨ n = 2

/-- Every index that the table computes has a bucket and a cache. -/
theorem Inv.slot (h : t.Inv) (hidx : idx < keySize * 8) :
    ∃ bucket cache, t.buckets[idx]? = some bucket ∧ t.replacementCaches[idx]? = some cache :=
  ⟨_, _, List.getElem?_eq_getElem (h.buckets ▸ hidx), List.getElem?_eq_getElem (h.caches ▸ hidx)⟩

/-- What one step does: the counts apart, it touches at most one bucket and the cache beside it. -/
inductive Change (t : RoutingTable) : TableOp → RoutingTable → Prop
  | none {op : TableOp} {counts} : Change t op { t with failureCounts := counts }
  | seen {contact : Contact} {counts} {idx : Nat} {bucket cache : List Contact} :
      contact.id ≠ t.localId → bucketIndex t.localId contact.id = some idx → t.buckets[idx]? = some bucket →
      t.replacementCaches[idx]? = some cache →
      Change t (.update contact)
        { t.withSlot idx (seen contact bucket cache) with failureCounts := counts }
  | left {op : TableOp} {nodeId : List UInt8} {counts} {idx : Nat} {bucket cache : List Contact} :
      bucketIndex t.localId nodeId = some idx → t.buckets[idx]? = some bucket →
      t.replacementCaches[idx]? = some cache →
      Change t op { t.withSlot idx (left nodeId bucket cache) with failureCounts := counts }

/-- The only counts a step leaves are the old ones and a one or a two for the node that just failed. -/
def CountsStep (t t' : RoutingTable) : Prop :=
  ∀ id n, t'.failureCounts.lookup id = some n →
    t.failureCounts.lookup id = some n ∨ (n < maxFailures ∧ n = (t.failureCounts.lookup id).getD 0 + 1)

/-- What is counted after a count was dropped was counted before. -/
theorem lookup_of_erase {nodeId id : List UInt8} {counts : AList fun _ : List UInt8 => UInt8} {n : UInt8}
    (h : (counts.erase nodeId).lookup id = some n) : counts.lookup id = some n := by
  by_cases hid : id = nodeId
  · subst hid
    rw [AList.lookup_erase] at h
    cases h
  · rwa [AList.lookup_erase_ne hid] at h

/-- What `update` changes: one slot, and its count. -/
theorem update_change {contact : Contact} (h : t.Inv) (hrun : t.update contact = some t') :
    t.Change (.update contact) t' ∧ t.CountsStep t' := by
  unfold update at hrun
  split at hrun
  · obtain rfl := Option.some.inj hrun
    exact ⟨.none, fun _ _ hn => .inl hn⟩
  · next hself =>
      obtain ⟨idx, hidx, rfl⟩ := Option.map_eq_some_iff.mp hrun
      obtain ⟨bucket, cache, hb, hc⟩ := h.slot (bucketIndex_lt hidx)
      have hplace : (t.clearFailures contact.id).place idx contact
          = (t.clearFailures contact.id).withSlot idx (Kademlia.seen contact bucket cache) := place_eq contact hb hc
      rw [hplace]
      exact ⟨.seen hself hidx hb hc, fun id n hn => .inl (lookup_of_erase hn)⟩

/-- What an eviction changes. -/
theorem evictNode_change {nodeId : List UInt8} {counts : AList fun _ : List UInt8 => UInt8} (op : TableOp) (h : t.Inv)
    (hrun : { t with failureCounts := counts }.evictNode nodeId = some t') :
    t.Change op t' ∧ t'.failureCounts = counts.erase nodeId := by
  obtain ⟨idx, hidx, rfl⟩ := Option.map_eq_some_iff.mp hrun
  obtain ⟨bucket, cache, hb, hc⟩ := h.slot (bucketIndex_lt hidx)
  have hpromote : { t with failureCounts := counts }.promote idx nodeId
      = { t with failureCounts := counts }.withSlot idx (Kademlia.left nodeId bucket cache) := promote_eq nodeId hb hc
  rw [hpromote]
  exact ⟨.left hidx hb hc, rfl⟩

/-- What a failure changes: a count, and the slot of a node that failed too often. -/
theorem recordFailure_change {nodeId : List UInt8} {evicted : Bool} (h : t.Inv)
    (hrun : t.recordFailure nodeId = some (t', evicted)) :
    t.Change (.recordFailure nodeId) t' ∧ t.CountsStep t' := by
  unfold recordFailure at hrun
  simp only at hrun
  split at hrun
  · cases hrun
  · split at hrun
    · -- the third failure: what was counted is forgotten
      obtain ⟨after, hevict, hpair⟩ := Option.map_eq_some_iff.mp hrun
      obtain ⟨rfl, -⟩ := Prod.mk.inj hpair
      obtain ⟨hchange, hcounts⟩ := evictNode_change (.recordFailure nodeId) h hevict
      refine ⟨hchange, fun id n hn => .inl ?_⟩
      rw [hcounts] at hn
      by_cases hid : id = nodeId
      · subst hid
        rw [AList.lookup_erase] at hn
        cases hn
      · rwa [AList.lookup_erase_ne hid, AList.lookup_insert_ne hid] at hn
    · next hless =>
        obtain ⟨rfl, -⟩ := Prod.mk.inj (Option.some.inj hrun)
        refine ⟨.none, fun id n hn => ?_⟩
        by_cases hid : id = nodeId
        · subst hid
          rw [AList.lookup_insert] at hn
          obtain rfl := Option.some.inj hn
          exact .inr ⟨UInt8.not_le.mp hless, rfl⟩
        · rw [AList.lookup_insert_ne hid] at hn
          exact .inl hn

/-- **What a call changes.** -/
theorem run_change {op : TableOp} (h : t.Inv) (hrun : op.run t = some t') : t.Change op t' ∧ t.CountsStep t' := by
  cases op with
  | update contact => exact update_change h hrun
  | recordFailure nodeId =>
      obtain ⟨⟨after, evicted⟩, hfail, rfl⟩ := Option.map_eq_some_iff.mp hrun
      exact recordFailure_change h hfail
  | remove nodeId =>
      obtain ⟨hchange, hcounts⟩ := evictNode_change (.remove nodeId) h hrun
      refine ⟨hchange, fun id n hn => .inl (lookup_of_erase (hcounts ▸ hn))⟩

/-- No call changes the local id. -/
theorem Change.localId {op : TableOp} (h : t.Change op t') : t'.localId = t.localId := by
  cases h <;> rfl

/-- A new table is sound. -/
theorem Inv.new (localId : List UInt8) : (new localId).Inv where
  buckets := List.length_replicate
  caches := List.length_replicate
  slots idx bucket cache hb hc := by
    rw [List.eq_of_mem_replicate (List.mem_of_getElem? hb), List.eq_of_mem_replicate (List.mem_of_getElem? hc)]
    exact SlotOk.empty
  counts id n hn := by
    rw [show (RoutingTable.new localId).failureCounts = ∅ from rfl, AList.lookup_empty] at hn
    cases hn

/-- **The step lemma.** -/
theorem Inv.step {op : TableOp} (h : t.Inv) (hrun : op.run t = some t') : t'.Inv := by
  obtain ⟨hchange, hcounts⟩ := run_change h hrun
  have hcounted : ∀ id n, t'.failureCounts.lookup id = some n → n = 1 ∨ n = 2 := by
    intro id n hn
    rcases hcounts id n hn with hold | ⟨hless, hnext⟩
    · exact h.counts id n hold
    · cases hlook : t.failureCounts.lookup id with
      | none =>
          rw [hlook] at hnext
          exact .inl hnext
      | some old =>
          rw [hlook] at hnext
          rcases h.counts id old hlook with rfl | rfl
          · exact .inr hnext
          · -- a third failure is not counted, it evicts
            rw [hnext] at hless
            exact absurd hless (by decide)
  cases hchange with
  | none => exact ⟨h.buckets, h.caches, h.slots, hcounted⟩
  | seen hself hidx hb hc =>
      refine ⟨?_, ?_, h.slots.withSlot ((h.slots _ _ _ hb hc).seen hself hidx), hcounted⟩
      · exact List.length_set.trans h.buckets
      · exact List.length_set.trans h.caches
  | left hidx hb hc =>
      refine ⟨?_, ?_, h.slots.withSlot ((h.slots _ _ _ hb hc).left _), hcounted⟩
      · exact List.length_set.trans h.buckets
      · exact List.length_set.trans h.caches

end Table

end RoutingTable

/-- **The run lemma.** -/
theorem reachable_inv {ok : TableOp → RoutingTable → Prop} {t : RoutingTable} (h : tableSystem.Reachable ok t) : t.Inv := by
  refine h.invariant ?_ ?_
  · rintro t ⟨localId, rfl⟩
    exact .new localId
  · intro t op t' hinv _ hrun
    exact hinv.step hrun

/-- The id that a call computes an index from. -/
def TableOp.nodeId : TableOp → List UInt8
  | .update contact => contact.id
  | .recordFailure nodeId => nodeId
  | .remove nodeId => nodeId

/-- Where there is no panic. -/
theorem prefixLen_isSome {localId targetId : List UInt8} (h : localId.length ≤ targetId.length) :
    (prefixLen localId targetId).isSome := by
  induction localId generalizing targetId with
  | nil => rfl
  | cons a localId ih =>
      cases targetId with
      | nil => exact absurd h (by simp)
      | cons b targetId =>
          rw [prefixLen]
          split
          · rw [Option.isSome_map]
            exact ih (by simpa using h)
          · rfl

/-- For an id that is long enough there is a bucket, unless it is the local one. -/
theorem bucketIndex_isSome {localId targetId : List UInt8} (h : localId.length ≤ targetId.length) :
    (bucketIndex localId targetId).isSome := by
  rw [bucketIndex, Option.isSome_map]
  exact prefixLen_isSome h

/-- **In every run** the buckets and caches keep their bounds, each contact stands where its id says, contacts wait
only for full buckets, and no call on an id as long as the local one panics: the byte that counts failures never
overflows. A call acts on one slot, by a contact seen there or one that leaves it, and either keeps the bounds. -/
theorem table_sound {t : RoutingTable} (h : tableSystem.Reachable (fun _ _ => True) t) :
    t.Inv ∧ ∀ op : TableOp, t.localId.length ≤ op.nodeId.length → (op.run t).isSome := by
  have hinv := reachable_inv h
  refine ⟨hinv, fun op hlen => ?_⟩
  have hidx := bucketIndex_isSome hlen
  cases op with
  | update contact =>
      show (t.update contact).isSome
      unfold RoutingTable.update
      split
      · rfl
      · rwa [Option.isSome_map]
  | recordFailure nodeId =>
      show ((t.recordFailure nodeId).map _).isSome
      rw [Option.isSome_map]
      have hcount : (t.failureCounts.lookup nodeId).getD 0 ≠ 255 := by
        cases hlook : t.failureCounts.lookup nodeId with
        | none => decide
        | some n => rcases hinv.counts nodeId n hlook with rfl | rfl <;> decide
      unfold RoutingTable.recordFailure
      simp only [if_neg hcount]
      split
      · rw [Option.isSome_map]
        show (Option.map _ (bucketIndex t.localId nodeId)).isSome
        rwa [Option.isSome_map]
      · rfl
  | remove nodeId =>
      show (Option.map _ (bucketIndex t.localId nodeId)).isSome
      rwa [Option.isSome_map]

/-- The table of a node that has met these contacts, one after the other. -/
def metAll (localId : List UInt8) (contacts : List Contact) : RoutingTable :=
  contacts.foldl (fun t contact => (t.update contact).getD t) (.new localId)

/-- Updates of contacts are a run. -/
theorem metAll_reachable {ok : TableOp → RoutingTable → Prop} (localId : List UInt8) (contacts : List Contact)
    (hok : ∀ (n : Nat) (contact : Contact), contacts[n]? = some contact →
      ok (.update contact) (metAll localId (contacts.take n))) :
    tableSystem.Reachable ok (metAll localId contacts) := by
  -- on how many of them it has met
  have key : ∀ n, tableSystem.Reachable ok (metAll localId (contacts.take n)) := by
    intro n
    induction n with
    | zero => exact ⟨[], .init ⟨localId, rfl⟩⟩
    | succ n ih =>
        rw [List.take_add_one, metAll, List.foldl_append]
        cases hnext : contacts[n]? with
        | none => exact ih
        | some contact =>
            show tableSystem.Reachable ok (((metAll localId (contacts.take n)).update contact).getD _)
            cases hupdate : (metAll localId (contacts.take n)).update contact with
            | none => exact ih
            | some t' =>
                obtain ⟨past, hrun⟩ := ih
                exact ⟨_, .step (a := .update contact) hrun (hok n contact hnext) hupdate⟩
  have hall := key contacts.length
  rwa [List.take_length] at hall

/-- Twenty-one contacts of one bucket of the node `[0]`. -/
def crowd : List Contact := (List.range 21).map fun i => ⟨[UInt8.ofNat (128 + i)], "", 0⟩

/-- The table of the crowd is sound, and no call on it panics. -/
theorem table_sound_crowd :
    (metAll [0] crowd).Inv ∧ ∀ op : TableOp, 1 ≤ op.nodeId.length → (op.run (metAll [0] crowd)).isSome :=
  table_sound (metAll_reachable [0] crowd fun _ _ _ => trivial)

namespace RoutingTable

variable {t : RoutingTable} {idx : Nat} {bucket cache : List Contact}

/-- `update` of a contact, at its slot. -/
theorem update_slot (contact : Contact) (hself : contact.id ≠ t.localId)
    (hidx : bucketIndex t.localId contact.id = some idx) (hb : t.buckets[idx]? = some bucket)
    (hc : t.replacementCaches[idx]? = some cache) :
    ∃ t', t.update contact = some t' ∧ t'.localId = t.localId ∧
      t'.buckets[idx]? = some (seen contact bucket cache).1 ∧
      t'.replacementCaches[idx]? = some (seen contact bucket cache).2 := by
  refine ⟨(t.clearFailures contact.id).withSlot idx (seen contact bucket cache), ?_, rfl, ?_, ?_⟩
  · unfold update
    rw [if_neg hself, hidx]
    exact congrArg some (place_eq contact hb hc)
  · exact List.getElem?_set_self (List.getElem?_eq_some_iff.mp hb).1
  · exact List.getElem?_set_self (List.getElem?_eq_some_iff.mp hc).1

/-- `remove`, at its slot. -/
theorem remove_slot {nodeId : List UInt8} (hidx : bucketIndex t.localId nodeId = some idx)
    (hb : t.buckets[idx]? = some bucket) (hc : t.replacementCaches[idx]? = some cache) :
    ∃ t', t.remove nodeId = some t' ∧ t'.localId = t.localId ∧
      t'.buckets[idx]? = some (left nodeId bucket cache).1 ∧
      t'.replacementCaches[idx]? = some (left nodeId bucket cache).2 := by
  refine ⟨(t.withSlot idx (left nodeId bucket cache)).clearFailures nodeId, ?_, rfl, ?_, ?_⟩
  · unfold remove evictNode
    rw [hidx, ← promote_eq nodeId hb hc]
    rfl
  · exact List.getElem?_set_self (List.getElem?_eq_some_iff.mp hb).1
  · exact List.getElem?_set_self (List.getElem?_eq_some_iff.mp hc).1

end RoutingTable

/-! ## Who stands twice -/

/-- The contact that is seen does not wait in a cache. -/
def NotWaiting : TableOp → RoutingTable → Prop
  | .update contact, t => ∀ cache ∈ t.replacementCaches, ∀ c ∈ cache, c.id ≠ contact.id
  | _, _ => True

/-- Where no contact is met that waits, all ids stay distinct. -/
theorem slots_nodup {t : RoutingTable} (h : tableSystem.Reachable NotWaiting t) :
    t.Slots fun _ bucket cache => SlotNodup bucket cache := by
  have hboth : t.Inv ∧ t.Slots fun _ bucket cache => SlotNodup bucket cache := by
    refine h.invariant (P := fun t => t.Inv ∧ t.Slots fun _ bucket cache => SlotNodup bucket cache) ?_ ?_
    · rintro t ⟨localId, rfl⟩
      refine ⟨.new localId, fun idx bucket cache hb hc => ?_⟩
      rw [List.eq_of_mem_replicate (List.mem_of_getElem? hb), List.eq_of_mem_replicate (List.mem_of_getElem? hc)]
      exact List.nodup_nil
    · rintro t op t' ⟨hinv, hnodup⟩ hok hrun
      refine ⟨hinv.step hrun, ?_⟩
      cases (RoutingTable.run_change hinv hrun).1 with
      | none => exact hnodup
      | seen hself hidx hb hc =>
          have hfresh := hok _ (List.mem_of_getElem? hc)
          exact hnodup.withSlot ((hnodup _ _ _ hb hc).seen (hinv.slots _ _ _ hb hc) hfresh)
      | left hidx hb hc => exact hnodup.withSlot ((hnodup _ _ _ hb hc).left _)
  exact hboth.2

/-- What `find_closest` compares the ids by. -/
def nearer (targetId a b : List UInt8) : Bool :=
  decide (List.zipWith (· ^^^ ·) a targetId ≤ List.zipWith (· ^^^ ·) b targetId)

/-- Being nearer is transitive. -/
theorem nearer_trans (targetId a b c : List UInt8) (hab : nearer targetId a b = true) (hbc : nearer targetId b c = true) :
    nearer targetId a c = true :=
  decide_eq_true (List.le_trans (of_decide_eq_true hab) (of_decide_eq_true hbc))

/-- And total. -/
theorem nearer_total (targetId a b : List UInt8) : (nearer targetId a b || nearer targetId b a) = true := by
  rw [Bool.or_eq_true]
  exact (List.le_total _ _).imp decide_eq_true decide_eq_true

/-- Every bucket is one of the slots. -/
theorem RoutingTable.Inv.exists_slot {t : RoutingTable} (h : t.Inv) {bucket : List Contact} (hb : bucket ∈ t.buckets) :
    ∃ (idx : Nat) (cache : List Contact), t.buckets[idx]? = some bucket ∧ t.replacementCaches[idx]? = some cache := by
  obtain ⟨idx, hidx, rfl⟩ := List.mem_iff_getElem.mp hb
  obtain ⟨bucket, cache, hb, hc⟩ := h.slot (h.buckets ▸ hidx : idx < keySize * 8)
  exact ⟨idx, cache, List.getElem?_eq_getElem hidx, hc⟩

/-- Ids are distinct across buckets, as an id has one bucket. -/
theorem ids_nodup {t : RoutingTable} (hinv : t.Inv) (h : t.Slots fun _ bucket cache => SlotNodup bucket cache) :
    (t.buckets.flatten.map Contact.id).Nodup := by
  rw [List.map_flatten, List.nodup_flatten]
  constructor
  · intro ids hids
    obtain ⟨bucket, hb, rfl⟩ := List.mem_map.mp hids
    obtain ⟨idx, cache, hb, hc⟩ := hinv.exists_slot hb
    exact (h idx bucket cache hb hc).sublist ((List.sublist_append_left bucket cache).map Contact.id)
  · rw [List.pairwise_map, List.pairwise_iff_getElem]
    intro i j hi hj hij id hid hid'
    -- an id says which bucket it belongs to
    have hplace : ∀ (k : Nat) (hk : k < t.buckets.length), id ∈ (t.buckets[k]).map Contact.id →
        bucketIndex t.localId id = some k := by
      intro k hk hmem
      obtain ⟨c, hc, rfl⟩ := List.mem_map.mp hmem
      obtain ⟨bucket, cache, hb, hcache⟩ := hinv.slot (hinv.buckets ▸ hk : k < keySize * 8)
      obtain rfl := Option.some.inj ((List.getElem?_eq_getElem hk).symm.trans hb)
      exact ((hinv.slots k _ cache hb hcache).placed c (List.mem_append_left cache hc)).2
    have hsame := (hplace i hi hid).symm.trans (hplace j hj hid')
    have := Option.some.inj hsame
    omega

/-- **In every run in which no waiting contact is seen again**, `find_closest` answers with the twenty nearest of all
the nodes of the table, each once, and the local node is not among them. The ids of the table are then distinct, and
the answer is its contacts, sorted by distance and cut. -/
theorem find_closest_nearest {t : RoutingTable} (h : tableSystem.Reachable NotWaiting t) (targetId : List UInt8) :
    Nearest (nearer targetId) kParam ((t.findClosest targetId).map Contact.id) {id | id ∈ t.buckets.flatten.map Contact.id} ∧
      ∀ c ∈ t.findClosest targetId, c.id ≠ t.localId := by
  have hinv := reachable_inv h
  have hids : (t.findClosest targetId).map Contact.id
      = ((t.buckets.flatten.map Contact.id).mergeSort (nearer targetId)).take kParam := by
    rw [RoutingTable.findClosest, List.map_take]
    congr 1
    exact List.map_mergeSort fun a _ b _ => rfl
  refine ⟨?_, fun c hc => ?_⟩
  · rw [hids]
    exact Nearest.sort (nearer_trans targetId) (nearer_total targetId) (ids_nodup hinv (slots_nodup h))
  · obtain ⟨bucket, hb, hmem⟩ := List.mem_flatten.mp (List.mem_mergeSort.mp (List.mem_of_mem_take hc))
    obtain ⟨idx, cache, hb, hcache⟩ := hinv.exists_slot hb
    exact ((hinv.slots idx bucket cache hb hcache).placed c (List.mem_append_left cache hmem)).1

/-- Five contacts of the next bucket. -/
def village : List Contact := (List.range 5).map fun i => ⟨[UInt8.ofNat (64 + i)], "", 0⟩

/-- The twenty nearest of crowd and village, in the order of their distances. -/
def foundIds : List (List UInt8) :=
  [68, 66, 67, 64, 65, 134, 135, 132, 133, 130, 131, 128, 129, 142, 143, 140, 141, 138, 139, 136].map fun byte => [byte]

/-- The crowd leaves one contact waiting, the village none: twenty-five are ranked, and five are cut off. -/
theorem find_closest_nearest_crowd :
    Nearest (nearer [70]) kParam (((metAll [0] (crowd ++ village)).findClosest [70]).map Contact.id)
        {id | id ∈ (metAll [0] (crowd ++ village)).buckets.flatten.map Contact.id} ∧
      (∀ c ∈ (metAll [0] (crowd ++ village)).findClosest [70], c.id ≠ [0]) ∧
      ((metAll [0] (crowd ++ village)).findClosest [70]).map Contact.id = foundIds := by
  have hmet : ∀ n < (crowd ++ village).length, ∀ cache ∈ (metAll [0] ((crowd ++ village).take n)).replacementCaches,
      ∀ c ∈ cache, some c.id ≠ (crowd ++ village)[n]?.map Contact.id := by decide +kernel
  have hreach : tableSystem.Reachable NotWaiting (metAll [0] (crowd ++ village)) := by
    refine metAll_reachable [0] (crowd ++ village) fun n contact hcontact cache hcache c hc hid => ?_
    refine hmet n (List.getElem?_eq_some_iff.mp hcontact).1 cache hcache c hc ?_
    rw [hcontact, hid]
    rfl
  obtain ⟨hnearest, hself⟩ := find_closest_nearest hreach [70]
  refine ⟨hnearest, hself, ?_⟩
  have hids : (metAll [0] (crowd ++ village)).buckets.flatten.map Contact.id
      = (crowd.take 20 ++ village).map Contact.id := by decide +kernel
  rw [hids] at hnearest
  have hanti : ∀ a ∈ (crowd.take 20 ++ village).map Contact.id, ∀ b ∈ (crowd.take 20 ++ village).map Contact.id,
      nearer [70] a b = true → nearer [70] b a = true → a = b := by decide +kernel
  have hfound : Nearest (nearer [70]) kParam foundIds {id | id ∈ (crowd.take 20 ++ village).map Contact.id} := by
    decide +kernel
  exact hnearest.unique hanti hfound

/-- A waiting contact that is seen stays in its cache, as the last of what is kept. -/
theorem trim_toTail {id : List UInt8} {cache : List Contact} (h : ∃ w ∈ cache, w.id = id) :
    ∃ front w, trim (toTail id cache) = front ++ [w] ∧ w.id = id := by
  cases hfind : cache.find? fun c => c.id = id with
  | none =>
      obtain ⟨w, hw, hid⟩ := h
      exact absurd hid (by simpa using List.find?_eq_none.mp hfind w hw)
  | some w =>
      have hid : w.id = id := by simpa using List.find?_some hfind
      have htail : toTail id cache = (cache.eraseP fun c => c.id = id) ++ [w] := by
        unfold toTail
        rw [hfind]
      rw [htail]
      unfold trim
      split
      · next hfull =>
          rw [List.length_append, List.length_singleton] at hfull
          have hpos : 1 ≤ (cache.eraseP fun c => c.id = id).length := by
            simp only [replacementCacheSize] at hfull
            omega
          exact ⟨_, w, List.drop_append_of_le_length hpos, hid⟩
      · exact ⟨_, w, rfl, hid⟩

/-- A node that waits, with its bucket full of others, is put behind itself when it is seen again. -/
theorem seen_of_waits {contact : Contact} {bucket cache : List Contact} (hfull : bucket.length = kParam)
    (hwaits : ∃ w ∈ cache, w.id = contact.id) (hnew : ∀ c ∈ bucket, c.id ≠ contact.id) :
    ∃ front w, w.id = contact.id ∧ seen contact bucket cache = (bucket, front ++ [w] ++ [contact]) := by
  obtain ⟨front, w, htrim, hwid⟩ := trim_toTail hwaits
  refine ⟨front, w, hwid, ?_⟩
  have hany : ¬(bucket.any fun c => c.id = contact.id) = true := by
    intro hany
    obtain ⟨c, hmem, hid⟩ := any_id_iff.mp hany
    exact hnew c hmem hid
  unfold seen
  simp only [if_neg hany, if_neg (show ¬bucket.length < kParam from hfull ▸ Nat.lt_irrefl kParam), htrim]

/-- **A node can stand twice in its bucket.** In whatever reachable table it waits outside the bucket and is seen
again, it waits twice from then on, and as soon as two others have left the bucket it stands there twice. The cache is
searched by position and not by id, so the second copy is put behind the first; each removal moves the newest up. -/
theorem seen_twice_listed_twice {t : RoutingTable} (h : tableSystem.Reachable (fun _ _ => True) t) {idx : Nat}
    {bucket cache : List Contact} (hb : t.buckets[idx]? = some bucket) (hc : t.replacementCaches[idx]? = some cache)
    (contact a b : Contact) (hwaits : ∃ w ∈ cache, w.id = contact.id) (hnew : ∀ c ∈ bucket, c.id ≠ contact.id)
    (ha : a ∈ bucket) (hb' : b ∈ bucket) (hab : a.id ≠ b.id) :
    ∃ t₁ t₂ t₃ cache₁ bucket₃, t.update contact = some t₁ ∧ t₁.replacementCaches[idx]? = some cache₁ ∧
      2 ≤ (cache₁.map Contact.id).count contact.id ∧ t₁.remove a.id = some t₂ ∧ t₂.remove b.id = some t₃ ∧
      t₃.buckets[idx]? = some bucket₃ ∧ 2 ≤ (bucket₃.map Contact.id).count contact.id := by
  have hslot := (reachable_inv h).slots idx bucket cache hb hc
  obtain ⟨w, hw, hwid⟩ := hwaits
  obtain ⟨hself, hidx⟩ := hslot.placed w (List.mem_append_right bucket hw)
  rw [hwid] at hself hidx
  have hbidx : ∀ c ∈ bucket, bucketIndex t.localId c.id = some idx := fun c hc =>
    (hslot.placed c (List.mem_append_left cache hc)).2
  -- it is seen: the bucket is full, so it waits a second time, behind itself
  obtain ⟨front, w', hwid', hseen⟩ := seen_of_waits (hslot.full (List.ne_nil_of_mem hw)) ⟨w, hw, hwid⟩ hnew
  obtain ⟨t₁, hstep₁, hlocal₁, hb₁, hc₁⟩ := RoutingTable.update_slot contact hself hidx hb hc
  rw [hseen] at hb₁ hc₁
  have htwice : 2 ≤ ((front ++ [w'] ++ [contact]).map Contact.id).count contact.id := by
    simp only [List.map_append, List.map_singleton, List.count_append, hwid', List.count_singleton_self]
    omega
  -- two nodes leave, and it is promoted twice
  obtain ⟨t₂, hstep₂, hlocal₂, hb₂, hc₂⟩ := RoutingTable.remove_slot (hlocal₁ ▸ hbidx a ha) hb₁ hc₁
  have hleft : left a.id bucket (front ++ [w'] ++ [contact])
      = ((bucket.eraseP fun c => c.id = a.id) ++ [contact], front ++ [w']) := by
    rw [left_of_mem _ (any_id_iff.mpr ⟨a, ha, rfl⟩)]
    simp
  rw [hleft] at hb₂ hc₂
  have hstill : b ∈ (bucket.eraseP fun c => c.id = a.id) ++ [contact] :=
    List.mem_append_left _ ((List.mem_eraseP_of_neg (by simpa using Ne.symm hab)).mpr hb')
  obtain ⟨t₃, hstep₃, -, hb₃, -⟩ := RoutingTable.remove_slot (hlocal₂.trans hlocal₁ ▸ hbidx b hb') hb₂ hc₂
  refine ⟨t₁, t₂, t₃, _, _, hstep₁, hc₁, htwice, hstep₂, hstep₃, hb₃, ?_⟩
  rw [left_of_mem _ (any_id_iff.mpr ⟨b, hstill, rfl⟩)]
  have hkept : contact ∈ ((bucket.eraseP fun c => c.id = a.id) ++ [contact]).eraseP fun c => c.id = b.id := by
    refine (List.mem_eraseP_of_neg ?_).mpr (List.mem_append_right _ List.mem_cons_self)
    simpa using Ne.symm (hnew b hb')
  have hone : 1 ≤ ((((bucket.eraseP fun c => c.id = a.id) ++ [contact]).eraseP fun c => c.id = b.id).map
      Contact.id).count contact.id := List.one_le_count_iff.mpr (List.mem_map_of_mem hkept)
  simp only [List.getLast?_append, List.getLast?_singleton, Option.some_or, Option.toList_some, List.map_append,
    List.map_singleton, List.count_append, hwid', List.count_singleton_self] at hone ⊢
  omega

/-- The contact with the id 148 is met twice while its bucket is full, and then two others leave. -/
theorem seen_twice_listed_twice_crowd :
    ∃ t₁ t₂ t₃ cache₁ bucket₃, (metAll [0] crowd).update ⟨[148], "", 0⟩ = some t₁ ∧
      t₁.replacementCaches[0]? = some cache₁ ∧ 2 ≤ (cache₁.map Contact.id).count [148] ∧ t₁.remove [128] = some t₂ ∧
      t₂.remove [129] = some t₃ ∧ t₃.buckets[0]? = some bucket₃ ∧ 2 ≤ (bucket₃.map Contact.id).count [148] := by
  have hb : (metAll [0] crowd).buckets[0]? = some (crowd.take 20) := by decide +kernel
  have hc : (metAll [0] crowd).replacementCaches[0]? = some (crowd.drop 20) := by decide +kernel
  exact seen_twice_listed_twice (metAll_reachable [0] crowd fun _ _ _ => trivial) hb hc ⟨[148], "", 0⟩ ⟨[128], "", 0⟩
    ⟨[129], "", 0⟩ (by decide) (by decide) (by decide) (by decide) (by decide)

end WarmLogic.Mesh.Kademlia
