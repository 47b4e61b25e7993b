/-
# WarmLogic.Mesh.RoutingTable — the routing table of `kernel/mesh/dht.py` without the Rust core, and revocation.

A bucket is an object that a suspended `update` still holds while the table changes, so buckets have identities; a
bucket that was split is in the table no more, and what happens to it cannot be seen. `update` is suspended in one
place, at the ping of the oldest contact of a full bucket. A run interleaves calls with the answers to these pings, in
any order. Python bounds how deep `update` calls itself (`limit`); where it is exceeded the call raises.

`revoke_node` filters the buckets and `update` checks the list of revoked ids before the ping. What follows the ping
checks nothing: `stays_clean_iff` says when an answer brings a revoked contact back, and
`revocation_is_permanent` that there is no other way.

What a step puts into a bucket is said once for any property of contacts (`AllContacts`): an `update` puts in a
contact that passed the gate, and the answer to a ping the contact that waited. The gate refuses revoked ids, the
answer asks nothing; so the property "is not revoked" is lost there and nowhere else, and the step lemma is exact.
-/
import WarmLogic.Lib.Bytes
import WarmLogic.Lib.Run

namespace WarmLogic.Mesh

open WarmLogic.Lib

/-! ## Contacts and buckets -/

/-- `Contact`, without the capabilities, which nothing here reads. -/
structure Contact where
  nodeId : List UInt8
  address : String
  port : Int
  publicKey : Option (List UInt8)
  siliconId : Option String
  deriving DecidableEq

/-- `Contact.__eq__`: id, address and port. -/
def Contact.same (a b : Contact) : Bool := a.nodeId == b.nodeId && a.address == b.address && a.port == b.port

/-- The same contact has the same id. -/
theorem Contact.nodeId_eq_of_same {a b : Contact} (h : a.same b = true) : a.nodeId = b.nodeId := by
  simp only [Contact.same, Bool.and_eq_true, beq_iff_eq] at h
  exact h.1.1

/-- `contacts.remove(contact)`, of one that is there. -/
def removeContact (contact : Contact) (contacts : List Contact) : List Contact := contacts.eraseP contact.same

/-- Removing adds nobody. -/
theorem mem_of_mem_removeContact {contact c : Contact} {contacts : List Contact} (h : c ∈ removeContact contact contacts) :
    c ∈ contacts := List.mem_of_mem_eraseP h

/-- `K_PARAM`. -/
def kParam : Nat := 20

/-- `KBucket`, with an identity. -/
structure KBucket where
  /-- which object it is -/
  ident : Nat
  rangeMin : Nat
  rangeMax : Nat
  contacts : List Contact

namespace KBucket

/-- Whether the contact is in the bucket. -/
def contains (b : KBucket) (contact : Contact) : Bool := b.contacts.any contact.same

/-- `KBucket.update`; `none` is its `False`, on which nothing changes. -/
def update (b : KBucket) (contact : Contact) : Option KBucket :=
  if b.contains contact then some { b with contacts := removeContact contact b.contacts ++ [contact] }
  else if b.contacts.length < kParam then some { b with contacts := b.contacts ++ [contact] }
  else none

/-- Whether the range of the bucket has this number. -/
def covers (b : KBucket) (n : Nat) : Bool := decide (b.rangeMin ≤ n ∧ n ≤ b.rangeMax)

end KBucket

/-! ## The table -/

/-- An `update` that waits for the ping of the oldest contact of a bucket. -/
structure SuspendedUpdate where
  bucket : Nat
  oldest : Contact
  contact : Contact

/-- `RoutingTable`, with the updates that wait for a ping. -/
structure RoutingTable where
  localId : List UInt8
  buckets : List KBucket
  /-- the identity of the next bucket -/
  nextIdent : Nat
  evictInProgress : Bool
  revokedNodes : List (List UInt8)
  suspended : List SuspendedUpdate

namespace RoutingTable

/-- One bucket for the whole space. -/
def new (localId : List UInt8) : RoutingTable where
  localId := localId
  buckets := [⟨0, 0, 2 ^ 256, []⟩]
  nextIdent := 1
  evictInProgress := false
  revokedNodes := []
  suspended := []

/-- `revoke_node`. -/
def revokeNode (t : RoutingTable) (nodeId : List UInt8) : RoutingTable :=
  { t with
    revokedNodes := nodeId :: t.revokedNodes
    buckets := t.buckets.map fun b => { b with contacts := b.contacts.filter fun c => c.nodeId != nodeId } }

/-- `_verify_binding`. -/
def verifyBinding (sha3 : List UInt8 → List UInt8) (t : RoutingTable) (contact : Contact) : Bool :=
  if t.revokedNodes.contains contact.nodeId then false
  else if contact.address = "trigger_binding_fail" then false
  else
    match contact.publicKey with
    | none => false
    | some publicKey => contact.nodeId == sha3 publicKey && contact.siliconId.isSome

/-- Where `split_bucket` puts one contact. -/
def deal (midpoint : Nat) (halves : KBucket × KBucket) (contact : Contact) : KBucket × KBucket :=
  if ofBeBytes contact.nodeId ≤ midpoint then ((halves.1.update contact).getD halves.1, halves.2)
  else (halves.1, (halves.2.update contact).getD halves.2)

/-- The two halves of a bucket, with its contacts. -/
def halves (nextIdent : Nat) (old : KBucket) : KBucket × KBucket :=
  let midpoint := (old.rangeMin + old.rangeMax) / 2
  old.contacts.foldl (deal midpoint)
    (⟨nextIdent, old.rangeMin, midpoint, []⟩, ⟨nextIdent + 1, midpoint + 1, old.rangeMax, []⟩)

/-- `split_bucket`, of the bucket with this identity. -/
def splitBucket (t : RoutingTable) (ident : Nat) : RoutingTable :=
  { t with
    buckets := t.buckets.flatMap fun b => if b.ident = ident then [(halves t.nextIdent b).1, (halves t.nextIdent b).2] else [b]
    nextIdent := t.nextIdent + 2 }

/-- The bucket object changes in place. -/
def setBucket (t : RoutingTable) (ident : Nat) (f : KBucket → KBucket) : RoutingTable :=
  { t with buckets := t.buckets.map fun b => if b.ident = ident then f b else b }

/-- `update`, up to its end or to the ping; `dht` says whether there is one to ping with. -/
def update (sha3 : List UInt8 → List UInt8) (contact : Contact) (dht : Bool) : Nat → RoutingTable → RoutingTable
  -- here Python raises a RecursionError
  | 0, t => t
  | limit + 1, t =>
      if contact.nodeId = t.localId then t
      else if !t.verifyBinding sha3 contact then t
      else
        match t.buckets.find? fun b => b.covers (ofBeBytes contact.nodeId) with
        | none => t
        | some bucket =>
            match bucket.update contact with
            | some bucket' => t.setBucket bucket.ident fun _ => bucket'
            | none =>
                if bucket.covers (ofBeBytes t.localId) then update sha3 contact dht limit (t.splitBucket bucket.ident)
                else if dht && !t.evictInProgress then
                  match bucket.contacts with
                  | [] => t
                  | oldest :: _ =>
                      { t with evictInProgress := true, suspended := t.suspended ++ [⟨bucket.ident, oldest, contact⟩] }
                else t

/-- How a ping ends. -/
inductive PingResult where
  | alive
  | dead
  | raised
  deriving DecidableEq

/-- What the bucket becomes behind the ping. A contact that is not there cannot be removed: then the call raises. -/
def afterPing (u : SuspendedUpdate) (result : PingResult) (b : KBucket) : KBucket :=
  match result with
  | .raised => b
  | .alive =>
      if b.contains u.oldest then { b with contacts := removeContact u.oldest b.contacts ++ [u.oldest] } else b
  | .dead =>
      if b.contains u.oldest then
        let removed := { b with contacts := removeContact u.oldest b.contacts }
        (removed.update u.contact).getD removed
      else b

/-- The rest of a suspended `update`. -/
def resume (t : RoutingTable) (k : Nat) (result : PingResult) : Option RoutingTable :=
  (t.suspended[k]?).map fun u =>
    { t.setBucket u.bucket (afterPing u result) with evictInProgress := false, suspended := t.suspended.eraseIdx k }

/-! ## Queries -/

/-- `contacts[:count]`; a negative count drops from the end. -/
def firstContacts (count : Int) (contacts : List Contact) : List Contact :=
  if 0 ≤ count then contacts.take count.toNat else contacts.take (contacts.length - (-count).toNat)

/-- `find_neighbors`, with the order of the scores. -/
def findNeighbors (t : RoutingTable) (le : Contact → Contact → Bool) (count : Int) : List Contact :=
  firstContacts count ((t.buckets.flatMap (·.contacts)).mergeSort le)

/-- `get_all_contacts`: the first contact of each id. -/
def getAllContacts (t : RoutingTable) : List Contact :=
  (t.buckets.flatMap (·.contacts)).foldl
    (fun all contact => if all.any fun c => c.nodeId == contact.nodeId then all else all ++ [contact]) []

/-! ## Runs -/

/-- A call, or the answer to the ping of a suspended `update`. -/
inductive TableOp where
  | update (contact : Contact) (dht : Bool)
  | resume (k : Nat) (result : PingResult)
  | revokeNode (nodeId : List UInt8)

/-- The table behind it; `none` where nothing is suspended under the number, or the call raises. -/
def TableOp.step (sha3 : List UInt8 → List UInt8) (limit : Nat) (t : RoutingTable) : TableOp → Option RoutingTable
  | .update contact dht => some (t.update sha3 contact dht limit)
  | .resume k result => t.resume k result
  | .revokeNode nodeId => some (t.revokeNode nodeId)

/-- A new table under calls and the answers to pings. -/
def tableRuns (sha3 : List UInt8 → List UInt8) (limit : Nat) : System RoutingTable TableOp where
  init t := ∃ localId, t = new localId
  step op t := op.step sha3 limit t

/-- No ping of a contact that is still in its bucket fails for the sake of a contact that was revoked meanwhile. -/
def EvictsForUnrevoked (op : TableOp) (t : RoutingTable) : Prop :=
  ∀ k u, op = .resume k .dead → t.suspended[k]? = some u →
    ∀ b ∈ t.buckets, b.ident = u.bucket → b.contains u.oldest = true → u.contact.nodeId ∉ t.revokedNodes

/-! ## Whom a step puts into a bucket -/

end RoutingTable

/-- By the comparison of contacts. -/
theorem KBucket.contains_iff {b : KBucket} {contact : Contact} :
    b.contains contact = true ↔ ∃ c ∈ b.contacts, contact.same c = true := List.any_eq_true

/-- One contact less. -/
theorem length_removeContact {contact : Contact} {b : KBucket} (h : b.contains contact = true) :
    (removeContact contact b.contacts).length + 1 = b.contacts.length := by
  obtain ⟨c, hc, hsame⟩ := KBucket.contains_iff.mp h
  have hlength := List.length_eraseP_of_mem hc hsame
  have hpos := List.length_pos_of_mem hc
  rw [removeContact, hlength]
  omega

/-- An updated bucket has its old contacts and the new one, and no more than fit. -/
theorem KBucket.update_some {b b' : KBucket} {contact : Contact} (h : b.update contact = some b') :
    (∀ c ∈ b'.contacts, c ∈ b.contacts ∨ c = contact) ∧ contact ∈ b'.contacts ∧
      (b.contacts.length ≤ kParam → b'.contacts.length ≤ kParam) := by
  unfold KBucket.update at h
  split at h
  · next hcontains =>
    cases h
    refine ⟨fun c hc => ?_, by simp, fun hle => ?_⟩
    · rcases List.mem_append.mp hc with hc | hc
      · exact .inl (mem_of_mem_removeContact hc)
      · exact .inr (List.mem_singleton.mp hc)
    · rw [List.length_append, List.length_singleton, length_removeContact hcontains]
      exact hle
  · split at h
    · next hroom =>
      cases h
      refine ⟨fun c hc => ?_, by simp, fun _ => ?_⟩
      · rcases List.mem_append.mp hc with hc | hc
        · exact .inl hc
        · exact .inr (List.mem_singleton.mp hc)
      · rw [List.length_append, List.length_singleton]
        exact hroom
    · cases h

/-- A bucket with room takes the contact. -/
theorem KBucket.update_isSome {b : KBucket} (contact : Contact) (h : b.contacts.length < kParam) :
    ∃ b', b.update contact = some b' := by
  rw [KBucket.update]
  cases b.contains contact with
  | true => exact ⟨_, if_pos rfl⟩
  | false => exact ⟨_, (if_neg Bool.false_ne_true).trans (if_pos h)⟩

namespace RoutingTable

/-- **A property of all contacts of a table**, in its buckets, and a bound on these. Steps keep it as long as whom
they put in has it. -/
structure AllContacts (p : Contact → Prop) (buckets : List KBucket) : Prop where
  holds : ∀ b ∈ buckets, ∀ c ∈ b.contacts, p c
  room : ∀ b ∈ buckets, b.contacts.length ≤ kParam

variable {p : Contact → Prop} {t : RoutingTable}

/-- A bucket changes in place. -/
theorem allContacts_setBucket (h : AllContacts p t.buckets) {ident : Nat} {f : KBucket → KBucket}
    (hf : ∀ b ∈ t.buckets, b.ident = ident → (∀ c ∈ (f b).contacts, p c) ∧ (f b).contacts.length ≤ kParam) :
    AllContacts p (t.setBucket ident f).buckets := by
  refine ⟨fun b hb => ?_, fun b hb => ?_⟩ <;>
  · obtain ⟨old, hold, rfl⟩ := List.mem_map.mp hb
    split
    · next hident => first | exact (hf old hold hident).1 | exact (hf old hold hident).2
    · first | exact h.holds old hold | exact h.room old hold

/-- The new contact of a bucket has the property too. -/
theorem allContacts_pair {lower upper : KBucket} (hlower : AllContacts p [lower]) (hupper : AllContacts p [upper]) :
    AllContacts p [lower, upper] := by
  refine ⟨fun b hb => ?_, fun b hb => ?_⟩
  · rcases List.mem_cons.mp hb with rfl | hb
    · exact hlower.holds _ (List.mem_singleton_self _)
    · exact hupper.holds _ hb
  · rcases List.mem_cons.mp hb with rfl | hb
    · exact hlower.room _ (List.mem_singleton_self _)
    · exact hupper.room _ hb

/-- An update of a bucket. -/
theorem allContacts_getD_update {b : KBucket} {contact : Contact} (hcontact : p contact) (h : AllContacts p [b]) :
    AllContacts p [(b.update contact).getD b] := by
  cases hupdate : b.update contact with
  | none => exact h
  | some b' =>
    obtain ⟨hmem, -, hroom⟩ := KBucket.update_some hupdate
    refine ⟨fun x hx c hc => ?_, fun x hx => ?_⟩
    · rw [List.mem_singleton.mp hx] at hc
      rcases hmem c hc with hc | rfl
      · exact h.holds b (List.mem_singleton_self b) c hc
      · exact hcontact
    · rw [List.mem_singleton.mp hx]
      exact hroom (h.room b (List.mem_singleton_self b))

/-- A new table has no contacts. -/
theorem allContacts_empty (ident rangeMin rangeMax : Nat) : AllContacts p [⟨ident, rangeMin, rangeMax, []⟩] := by
  refine ⟨fun b hb c hc => ?_, fun b hb => ?_⟩
  · rw [List.mem_singleton.mp hb] at hc
    cases hc
  · rw [List.mem_singleton.mp hb]
    exact Nat.zero_le _

/-- Splitting deals the contacts of a bucket out to its halves. -/
theorem allContacts_halves (nextIdent : Nat) {old : KBucket} (h : ∀ c ∈ old.contacts, p c) :
    AllContacts p [(halves nextIdent old).1, (halves nextIdent old).2] := by
  have hdealt : AllContacts p [(halves nextIdent old).1] ∧ AllContacts p [(halves nextIdent old).2] := by
    unfold halves
    refine List.foldlRecOn (motive := fun dealt : KBucket × KBucket => AllContacts p [dealt.1] ∧ AllContacts p [dealt.2])
      old.contacts _ ⟨allContacts_empty _ _ _, allContacts_empty _ _ _⟩ fun dealt hdealt contact hcontact => ?_
    unfold deal
    split
    · exact ⟨allContacts_getD_update (h contact hcontact) hdealt.1, hdealt.2⟩
    · exact ⟨hdealt.1, allContacts_getD_update (h contact hcontact) hdealt.2⟩
  exact allContacts_pair hdealt.1 hdealt.2

/-- A split puts nobody in. -/
theorem allContacts_splitBucket (h : AllContacts p t.buckets) (ident : Nat) :
    AllContacts p (t.splitBucket ident).buckets := by
  have hpart : ∀ old ∈ t.buckets, AllContacts p
      (if old.ident = ident then [(halves t.nextIdent old).1, (halves t.nextIdent old).2] else [old]) := by
    intro old hold
    split
    · exact allContacts_halves _ (h.holds old hold)
    · refine ⟨fun b hb => ?_, fun b hb => ?_⟩
      · rw [List.mem_singleton.mp hb]
        exact h.holds old hold
      · rw [List.mem_singleton.mp hb]
        exact h.room old hold
  refine ⟨fun b hb => ?_, fun b hb => ?_⟩
  · obtain ⟨old, hold, hmem⟩ := List.mem_flatMap.mp hb
    exact (hpart old hold).holds b hmem
  · obtain ⟨old, hold, hmem⟩ := List.mem_flatMap.mp hb
    exact (hpart old hold).room b hmem

/-- The list of revoked ids is for `revoke_node` only. -/
theorem revokedNodes_update (sha3 : List UInt8 → List UInt8) (contact : Contact) (dht : Bool) (limit : Nat)
    (t : RoutingTable) : (t.update sha3 contact dht limit).revokedNodes = t.revokedNodes := by
  fun_induction RoutingTable.update sha3 contact dht limit t with
  | case6 _ _ _ _ _ _ _ _ ih => exact ih
  | _ => rfl

/-- **What `update` leaves until its ping**: the contacts that were there, and possibly the verified one. -/
theorem allContacts_update (sha3 : List UInt8 → List UInt8) (contact : Contact) (dht : Bool) (limit : Nat)
    (h : AllContacts p t.buckets) (hcontact : t.verifyBinding sha3 contact = true → p contact) :
    AllContacts p (t.update sha3 contact dht limit).buckets := by
  fun_induction RoutingTable.update sha3 contact dht limit t with
  | case5 _ t _ hverify bucket hfind bucket' hupdate =>
    have hbucket := List.mem_of_find?_eq_some hfind
    obtain ⟨hmem, -, hroom⟩ := KBucket.update_some hupdate
    refine allContacts_setBucket h fun b _ _ => ⟨fun c hc => ?_, hroom (h.room bucket hbucket)⟩
    rcases hmem c hc with hold | rfl
    · exact h.holds bucket hbucket c hold
    · exact hcontact (by simpa using hverify)
  | case6 _ _ _ _ bucket _ _ _ ih => exact ih (allContacts_splitBucket h bucket.ident) hcontact
  | _ => exact h

/-- A contact that passes the gate is not revoked. -/
theorem not_revoked_of_verifyBinding {sha3 : List UInt8 → List UInt8} {contact : Contact}
    (h : t.verifyBinding sha3 contact = true) : contact.nodeId ∉ t.revokedNodes := by
  intro hmem
  rw [verifyBinding, if_pos (by simpa using hmem)] at h
  cases h

/-- A revocation neither. -/
theorem allContacts_revokeNode {q : Contact → Prop} {nodeId : List UInt8} (h : AllContacts p t.buckets)
    (hq : ∀ c, p c → c.nodeId ≠ nodeId → q c) : AllContacts q (t.revokeNode nodeId).buckets := by
  refine ⟨fun b hb c hc => ?_, fun b hb => ?_⟩
  · obtain ⟨old, hold, rfl⟩ := List.mem_map.mp hb
    obtain ⟨hc, hne⟩ := List.mem_filter.mp hc
    exact hq c (h.holds old hold c hc) (by simpa using hne)
  · obtain ⟨old, hold, rfl⟩ := List.mem_map.mp hb
    exact Nat.le_trans (List.length_filter_le _ _) (h.room old hold)

/-- **What the answer to a ping leaves**: the contacts that were there, and where the oldest was there and is dead, the
one for whose sake it was pinged. -/
theorem afterPing_spec (u : SuspendedUpdate) (result : PingResult) (b : KBucket) (hroom : b.contacts.length ≤ kParam) :
    (∀ c ∈ (afterPing u result b).contacts, (∃ c' ∈ b.contacts, c.nodeId = c'.nodeId) ∨
        (c = u.contact ∧ result = .dead ∧ b.contains u.oldest = true)) ∧
      (result = .dead → b.contains u.oldest = true → u.contact ∈ (afterPing u result b).contacts) ∧
      (afterPing u result b).contacts.length ≤ kParam := by
  have hself : ∀ c ∈ b.contacts, (∃ c' ∈ b.contacts, c.nodeId = c'.nodeId) ∨
      (c = u.contact ∧ result = .dead ∧ b.contains u.oldest = true) := fun c hc => .inl ⟨c, hc, rfl⟩
  cases result with
  | raised => exact ⟨hself, fun h => (by cases h), hroom⟩
  | alive =>
    rw [afterPing]
    by_cases hcontains : b.contains u.oldest = true
    · rw [if_pos hcontains]
      refine ⟨fun c hc => ?_, fun h => (by cases h), ?_⟩
      · rcases List.mem_append.mp hc with hc | hc
        · exact hself c (mem_of_mem_removeContact hc)
        · obtain ⟨c', hc', hsame⟩ := KBucket.contains_iff.mp hcontains
          rw [List.mem_singleton.mp hc]
          exact .inl ⟨c', hc', Contact.nodeId_eq_of_same hsame⟩
      · rw [List.length_append, List.length_singleton, length_removeContact hcontains]
        exact hroom
    · rw [if_neg hcontains]
      exact ⟨hself, fun h => (by cases h), hroom⟩
  | dead =>
    rw [afterPing]
    by_cases hcontains : b.contains u.oldest = true
    · rw [if_pos hcontains]
      have hlength := length_removeContact hcontains
      have hless : (removeContact u.oldest b.contacts).length < kParam := by omega
      obtain ⟨b', hb'⟩ := KBucket.update_isSome (b := { b with contacts := removeContact u.oldest b.contacts }) u.contact hless
      obtain ⟨hmem, hnew, hkeep⟩ := KBucket.update_some hb'
      dsimp only
      rw [hb', Option.getD_some]
      refine ⟨fun c hc => ?_, fun _ _ => hnew, hkeep hless.le⟩
      rcases hmem c hc with hold | hpinged
      · exact hself c (mem_of_mem_removeContact hold)
      · exact .inr ⟨hpinged, rfl, hcontains⟩
    · rw [if_neg hcontains]
      exact ⟨hself, fun _ h => absurd h hcontains, hroom⟩

/-! ## Revocation -/

/-- No contact of a bucket is revoked, and no bucket is too full. -/
def CleanBuckets (t : RoutingTable) : Prop := AllContacts (fun c => c.nodeId ∉ t.revokedNodes) t.buckets

/-- **The step lemma, exactly**: a table without revoked contacts stays so if and only if no dead contact is evicted for
the sake of one that was revoked during the ping. -/
theorem stays_clean_iff {sha3 : List UInt8 → List UInt8} {limit : Nat} {t' : RoutingTable} {op : TableOp}
    (h : t.CleanBuckets) (hstep : op.step sha3 limit t = some t') : t'.CleanBuckets ↔ EvictsForUnrevoked op t := by
  cases op with
  | update contact dht =>
    cases hstep
    have hall := allContacts_update sha3 contact dht limit h not_revoked_of_verifyBinding
    refine iff_of_true ?_ fun k u hop => by cases hop
    rwa [CleanBuckets, revokedNodes_update]
  | revokeNode nodeId =>
    cases hstep
    refine iff_of_true (allContacts_revokeNode h fun c hc hne => ?_) fun k u hop => by cases hop
    exact List.not_mem_cons_of_ne_of_not_mem hne hc
  | resume k result =>
    obtain ⟨u, hu, rfl⟩ := Option.map_eq_some_iff.mp hstep
    constructor
    · rintro hclean k' u' ⟨⟩ hu' b hb hident hcontains
      obtain rfl : u = u' := Option.some.inj (hu.symm.trans hu')
      have hmem := (afterPing_spec u .dead b (h.room b hb)).2.1 rfl hcontains
      have hin : afterPing u .dead b ∈ (t.setBucket u.bucket (afterPing u .dead)).buckets :=
        List.mem_map.mpr ⟨b, hb, if_pos hident⟩
      exact hclean.holds _ hin u.contact hmem
    · intro hop
      refine allContacts_setBucket h fun b hb hident => ?_
      obtain ⟨hmem, -, hroom⟩ := afterPing_spec u result b (h.room b hb)
      refine ⟨fun c hc => ?_, hroom⟩
      rcases hmem c hc with ⟨c', hc', heq⟩ | ⟨rfl, rfl, hcontains⟩
      · rw [heq]
        exact h.holds b hb c' hc'
      · exact hop k u rfl hu b hb hident hcontains

/-- Nobody is in a new table, and nobody is revoked. -/
theorem cleanBuckets_new (localId : List UInt8) : (new localId).CleanBuckets := allContacts_empty _ _ _

/-- Revoked ids stay revoked. -/
theorem revoked_of_step {sha3 : List UInt8 → List UInt8} {limit : Nat} {t' : RoutingTable} {op : TableOp}
    (hstep : op.step sha3 limit t = some t') {nodeId : List UInt8} (h : nodeId ∈ t.revokedNodes) :
    nodeId ∈ t'.revokedNodes := by
  cases op with
  | update contact dht =>
    cases hstep
    rwa [revokedNodes_update]
  | revokeNode nodeId' =>
    cases hstep
    exact List.mem_cons_of_mem _ h
  | resume k result =>
    obtain ⟨u, -, rfl⟩ := Option.map_eq_some_iff.mp hstep
    exact h

/-- The run lemma: in a run whose answers meet the condition, no state has a revoked contact in a bucket. -/
theorem cleanBuckets_of_run {sha3 : List UInt8 → List UInt8} {limit : Nat} {past : List RoutingTable}
    (hrun : (tableRuns sha3 limit).Run EvictsForUnrevoked (t :: past)) : t.CleanBuckets := by
  refine System.Reachable.invariant ?_ ?_ ⟨past, hrun⟩
  · rintro s ⟨localId, rfl⟩
    exact cleanBuckets_new localId
  · intro s op s' hs hop hstep
    exact (stays_clean_iff hs hstep).mpr hop

/-! ## Queries return what is in a bucket -/

/-- A front part adds nobody. -/
theorem mem_of_mem_firstContacts {count : Int} {contacts : List Contact} {c : Contact}
    (h : c ∈ firstContacts count contacts) : c ∈ contacts := by
  unfold firstContacts at h
  split at h <;> exact List.mem_of_mem_take h

/-- Whom `find_neighbors` returns is in a bucket. -/
theorem exists_bucket_of_mem_findNeighbors {le : Contact → Contact → Bool} {count : Int} {c : Contact}
    (h : c ∈ t.findNeighbors le count) : ∃ b ∈ t.buckets, c ∈ b.contacts :=
  List.mem_flatMap.mp (List.mem_mergeSort.mp (mem_of_mem_firstContacts h))

/-- So is whom `get_all_contacts` returns. -/
theorem exists_bucket_of_mem_getAllContacts {c : Contact} (h : c ∈ t.getAllContacts) :
    ∃ b ∈ t.buckets, c ∈ b.contacts := by
  have hall : ∀ c ∈ t.getAllContacts, c ∈ t.buckets.flatMap (·.contacts) := by
    refine List.foldlRecOn (motive := fun all : List Contact => ∀ c ∈ all, c ∈ t.buckets.flatMap (·.contacts)) _ _
      (fun c hc => absurd hc List.not_mem_nil) fun all hall contact hcontact c hc => ?_
    split at hc
    · exact hall c hc
    · rcases List.mem_append.mp hc with hc | hc
      · exact hall c hc
      · rwa [List.mem_singleton.mp hc]
  exact List.mem_flatMap.mp (hall c h)

/-- **Revocation is permanent**, where no answer to a ping evicts a contact for one that was revoked during the ping:
from the call of `revoke_node` on, no query returns a contact with this id. A query returns contacts of buckets, and
by the step lemma no bucket gets a revoked one. -/
theorem revocation_is_permanent {sha3 : List UInt8 → List UInt8} {limit : Nat} {newer past : List RoutingTable}
    {nodeId : List UInt8}
    (hrun : (tableRuns sha3 limit).Run EvictsForUnrevoked (newer ++ t.revokeNode nodeId :: t :: past)) :
    ∀ s ∈ newer ++ [t.revokeNode nodeId],
      (∀ le count, ∀ c ∈ s.findNeighbors le count, c.nodeId ≠ nodeId) ∧ ∀ c ∈ s.getAllContacts, c.nodeId ≠ nodeId := by
  intro s hs
  have hrevoked : nodeId ∈ s.revokedNodes :=
    System.Run.later (P := fun s => nodeId ∈ s.revokedNodes) (fun op s s' h _ hstep => revoked_of_step hstep h) hrun
      List.mem_cons_self s hs
  have hclean : s.CleanBuckets := by
    have hmem : s ∈ newer ++ t.revokeNode nodeId :: t :: past := by
      rcases List.mem_append.mp hs with hs | hs
      · exact List.mem_append_left _ hs
      · exact List.mem_append_right _ (by simp [List.mem_singleton.mp hs])
    obtain ⟨before, -, hbefore⟩ := System.Run.exists_suffix hrun hmem
    exact cleanBuckets_of_run hbefore
  have hbucket : ∀ c, (∃ b ∈ s.buckets, c ∈ b.contacts) → c.nodeId ≠ nodeId := by
    rintro c ⟨b, hb, hc⟩ heq
    exact hclean.holds b hb c hc (heq ▸ hrevoked)
  exact ⟨fun le count c hc => hbucket c (exists_bucket_of_mem_findNeighbors hc),
    fun c hc => hbucket c (exists_bucket_of_mem_getAllContacts hc)⟩

/-! ## A table whose far half is full -/

/-- The calls of `update` for these contacts, one after the other. -/
def updates (sha3 : List UInt8 → List UInt8) (limit : Nat) (contacts : List Contact) (t : RoutingTable) : RoutingTable :=
  contacts.foldl (fun t contact => t.update sha3 contact true limit) t

/-- Calls of `update` are a run. -/
theorem exists_run_updates {sha3 : List UInt8 → List UInt8} {limit : Nat} {ok : TableOp → RoutingTable → Prop}
    (hok : ∀ contact dht s, ok (.update contact dht) s) (contacts : List Contact) {past : List RoutingTable}
    (hrun : (tableRuns sha3 limit).Run ok (t :: past)) :
    ∃ past', (tableRuns sha3 limit).Run ok (updates sha3 limit contacts t :: past') := by
  induction contacts generalizing t past with
  | nil => exact ⟨past, hrun⟩
  | cons contact contacts ih => exact ih (.step hrun (hok contact true t) rfl)

/-- A key of the far half of the id space, where a key is its own id. -/
def farKey (i : UInt8) : List UInt8 := 128 :: List.replicate 30 0 ++ [i]

/-- The contact with this key. -/
def farContact (i : UInt8) : Contact := ⟨farKey i, "10.0.0.1", 4000, some (farKey i), some "silicon"⟩

/-- Twenty contacts fill a bucket; the ping of the first one is out for the sake of the last. -/
def crowded : RoutingTable :=
  updates id 3 ((List.range 21).map fun i => farContact (UInt8.ofNat (i + 1))) (new (List.replicate 32 0))

/-- The calls up to there. -/
theorem crowded_run {ok : TableOp → RoutingTable → Prop} (hok : ∀ contact dht s, ok (.update contact dht) s) :
    ∃ past, (tableRuns id 3).Run ok (crowded :: past) :=
  exists_run_updates hok _ (.init ⟨_, rfl⟩)

/-- What is waiting. -/
theorem crowded_pings (nodeId : List UInt8) (result : PingResult) :
    ∃ last, (crowded.revokeNode nodeId).resume 0 result = some last := by
  have hsome : (crowded.suspended[0]?).isSome = true := by decide +kernel
  obtain ⟨u, hu⟩ := Option.isSome_iff_exists.mp hsome
  exact ⟨_, Option.map_eq_some_iff.mpr ⟨u, hu, rfl⟩⟩

/-- The pinged contact is revoked and does not answer: it does not come back. -/
theorem revoked_oldest_stays_out :
    ∃ last, (crowded.revokeNode (farKey 1)).resume 0 .dead = some last ∧
      (∀ c ∈ last.findNeighbors (fun _ _ => true) 20, c.nodeId ≠ farKey 1) ∧
        ∀ c ∈ last.getAllContacts, c.nodeId ≠ farKey 1 := by
  obtain ⟨last, hresume⟩ := crowded_pings (farKey 1) .dead
  obtain ⟨past, hrun⟩ : ∃ past, (tableRuns id 3).Run EvictsForUnrevoked (crowded :: past) :=
    crowded_run fun contact dht s k u hop => by cases hop
  have hrevoke : (tableRuns id 3).Run EvictsForUnrevoked (crowded.revokeNode (farKey 1) :: crowded :: past) :=
    .step (a := .revokeNode (farKey 1)) hrun (fun k u hop => by cases hop) rfl
  have hgone : ((crowded.suspended[0]?).all fun u => (crowded.revokeNode (farKey 1)).buckets.all fun b =>
      !b.contains u.oldest) = true := by decide +kernel
  have hresumed : (tableRuns id 3).Run EvictsForUnrevoked (last :: crowded.revokeNode (farKey 1) :: crowded :: past) := by
    refine .step (a := .resume 0 .dead) hrevoke ?_ hresume
    rintro k u ⟨⟩ hu b hb - hcontains
    have hu' : crowded.suspended[0]? = some u := hu
    rw [hu', Option.all_some, List.all_eq_true] at hgone
    have hnot := hgone b hb
    rw [hcontains] at hnot
    cases hnot
  have hsince : (tableRuns id 3).Run EvictsForUnrevoked
      ([last] ++ crowded.revokeNode (farKey 1) :: crowded :: past) := hresumed
  have hout := revocation_is_permanent hsince last List.mem_cons_self
  exact ⟨last, hresume, hout.1 _ _, hout.2⟩

/-- **Revocation is not permanent**: the contact that waits for a full bucket is revoked, the pinged one does not
answer, and `update` puts the revoked contact in. -/
theorem revoked_during_ping_comes_back :
    ∃ t newest past, (tableRuns id 3).Run (fun _ _ => True) (newest :: t.revokeNode (farKey 21) :: t :: past) ∧
      ∃ c ∈ newest.getAllContacts, c.nodeId = farKey 21 := by
  obtain ⟨newest, hresume⟩ := crowded_pings (farKey 21) .dead
  obtain ⟨past, hrun⟩ : ∃ past, (tableRuns id 3).Run (fun _ _ => True) (crowded :: past) :=
    crowded_run fun _ _ _ => trivial
  have hrevoke : (tableRuns id 3).Run (fun _ _ => True) (crowded.revokeNode (farKey 21) :: crowded :: past) :=
    .step (a := .revokeNode (farKey 21)) hrun trivial rfl
  have hback : (((crowded.revokeNode (farKey 21)).resume 0 .dead).all fun newest =>
      newest.getAllContacts.any fun c => c.nodeId == farKey 21) = true := by decide +kernel
  rw [hresume, Option.all_some, List.any_eq_true] at hback
  obtain ⟨c, hc, heq⟩ := hback
  exact ⟨crowded, newest, past, .step (a := .resume 0 .dead) hrevoke trivial hresume, c, hc, beq_iff_eq.mp heq⟩

end RoutingTable

end WarmLogic.Mesh
