/-
# WarmLogic.Mesh.RoutingInvariant — what every run of a routing table keeps, and when `update` comes to an end.

The ranges of the buckets tile the id space, the contacts lie where they belong, none is there twice and none is the local
node (`Sound`, kept by every step). `update` calls itself on halved buckets as long as the contact and the local id fall in
one full bucket; their integers are separated after at most 257 halvings (`finishes_of_separated`). The self-filter compares
ids as byte strings and the ranges compare integers: a local id that is longer than the 32 bytes of a contact's id can have
the integer of another id, and then twenty-one contacts with that id never come apart (`lookalike_never_finishes`).

Why a table stays sound: a bucket changes by `KBucket.update`, which keeps it sound if the contact lies in its range,
by losing contacts, or by a split. A split replaces a bucket by two whose ranges are its halves and deals its contacts
out to them, so the ranges tile the space as before. A suspended `update` remembers its bucket by identity, and new
buckets take new identities, so it never meets another bucket than its own.
-/
import WarmLogic.Mesh.RoutingTable
import WarmLogic.Lib.Tiling
import Mathlib.Data.List.Nodup

namespace WarmLogic.Mesh

open WarmLogic.Lib

/-! ## Contacts -/

/-- What a contact is the same by. -/
def Contact.key (c : Contact) : List UInt8 × String × Int := (c.nodeId, c.address, c.port)

/-- By key. -/
theorem Contact.same_iff {a b : Contact} : a.same b = true ↔ a.key = b.key := by
  simp [Contact.same, Contact.key, and_assoc]

/-- Removing a contact takes one key out. -/
theorem map_key_removeContact (contact : Contact) (contacts : List Contact) :
    (removeContact contact contacts).map Contact.key = (contacts.map Contact.key).erase contact.key := by
  unfold removeContact
  induction contacts with
  | nil => rfl
  | cons c contacts ih =>
      rw [List.map_cons, List.erase_cons]
      by_cases hsame : contact.same c = true
      · rw [List.eraseP_cons_of_pos hsame, if_pos (beq_iff_eq.mpr (Contact.same_iff.mp hsame).symm)]
      · have hne : ¬ (c.key == contact.key) = true := fun h => hsame (Contact.same_iff.mpr (beq_iff_eq.mp h).symm)
        rw [List.eraseP_cons_of_neg hsame, if_neg hne, List.map_cons, ih]

/-! ## Buckets -/

/-- A bucket holds no more than fit, each in its range, none twice, and not the local node. -/
structure KBucket.Sound (localId : List UInt8) (b : KBucket) : Prop where
  room : b.contacts.length ≤ kParam
  inRange : ∀ c ∈ b.contacts, b.covers (ofBeBytes c.nodeId) = true
  distinct : (b.contacts.map Contact.key).Nodup
  notLocal : ∀ c ∈ b.contacts, c.nodeId ≠ localId

namespace KBucket

variable {localId : List UInt8} {b b' : KBucket} {contact : Contact}

/-- A range has both its ends. -/
theorem covers_iff {n : Nat} : b.covers n = true ↔ b.rangeMin ≤ n ∧ n ≤ b.rangeMax := decide_eq_true_iff

/-- An update changes neither identity nor range. -/
theorem update_frame (h : b.update contact = some b') :
    b'.ident = b.ident ∧ b'.rangeMin = b.rangeMin ∧ b'.rangeMax = b.rangeMax := by
  unfold KBucket.update at h
  split_ifs at h <;> (cases h; exact ⟨rfl, rfl, rfl⟩)

/-- Moving a contact to the end keeps the contacts distinct; `contact` may be another object for the same contact. -/
theorem nodup_moved (h : (b.contacts.map Contact.key).Nodup) :
    ((removeContact contact b.contacts ++ [contact]).map Contact.key).Nodup := by
  rw [List.map_append, map_key_removeContact, List.map_singleton]
  exact List.nodup_append.mpr ⟨h.erase _, List.nodup_singleton _, fun k hk k' hk' he => by
    rw [List.mem_singleton.mp hk'] at he
    exact h.not_mem_erase (he ▸ hk)⟩

/-- Adding one that is not there keeps them distinct. -/
theorem nodup_added (h : (b.contacts.map Contact.key).Nodup) (hnew : b.contains contact = false) :
    ((b.contacts ++ [contact]).map Contact.key).Nodup := by
  rw [List.map_append, List.map_singleton]
  refine List.nodup_append.mpr ⟨h, List.nodup_singleton _, fun k hk k' hk' he => ?_⟩
  obtain ⟨c, hc, rfl⟩ := List.mem_map.mp hk
  rw [List.mem_singleton.mp hk'] at he
  have hcontains : b.contains contact = true := contains_iff.mpr ⟨c, hc, Contact.same_iff.mpr he.symm⟩
  exact Bool.false_ne_true (hnew.symm.trans hcontains)

/-- **`KBucket.update`** keeps a bucket sound, where the contact belongs into it. -/
theorem Sound.update (h : b.Sound localId) (hrange : b.covers (ofBeBytes contact.nodeId) = true)
    (hlocal : contact.nodeId ≠ localId) (hupdate : b.update contact = some b') : b'.Sound localId := by
  obtain ⟨-, hmin, hmax⟩ := update_frame hupdate
  obtain ⟨hmem, -, hroom⟩ := update_some hupdate
  have hcovers : ∀ n, b'.covers n = b.covers n := fun n => by rw [covers, covers, hmin, hmax]
  refine ⟨hroom h.room, fun c hc => ?_, ?_, fun c hc => ?_⟩
  · rw [hcovers]
    rcases hmem c hc with hc | rfl
    · exact h.inRange c hc
    · exact hrange
  · unfold KBucket.update at hupdate
    split_ifs at hupdate with hcontains
    · cases hupdate
      exact nodup_moved h.distinct
    · cases hupdate
      exact nodup_added h.distinct (Bool.not_eq_true _ ▸ hcontains)
  · rcases hmem c hc with hc | rfl
    · exact h.notLocal c hc
    · exact hlocal

/-- An empty bucket is sound. -/
theorem Sound.empty (localId : List UInt8) (ident rangeMin rangeMax : Nat) :
    (⟨ident, rangeMin, rangeMax, []⟩ : KBucket).Sound localId :=
  ⟨Nat.zero_le _, List.forall_mem_nil _, List.nodup_nil, List.forall_mem_nil _⟩

/-- Contacts may leave. -/
theorem Sound.sublist (h : b.Sound localId) {contacts : List Contact} (hsub : contacts.Sublist b.contacts) :
    { b with contacts := contacts }.Sound localId :=
  ⟨hsub.length_le.trans h.room, fun c hc => h.inRange c (hsub.subset hc), h.distinct.sublist (hsub.map _),
    fun c hc => h.notLocal c (hsub.subset hc)⟩

end KBucket

namespace RoutingTable

variable {t : RoutingTable}

/-! ## One step -/

/-- **The invariant of a table**: the ranges tile the space, every bucket is sound, identities are distinct and below
the next one, and a suspended `update` holds a contact for the bucket it waits for. -/
structure Sound (t : RoutingTable) : Prop where
  tiles : Tiles KBucket.rangeMin KBucket.rangeMax 0 t.buckets (2 ^ 256 + 1)
  bucket : ∀ b ∈ t.buckets, b.Sound t.localId
  idents : (t.buckets.map KBucket.ident).Nodup
  fresh : ∀ b ∈ t.buckets, b.ident < t.nextIdent
  waiting : ∀ u ∈ t.suspended, u.bucket < t.nextIdent ∧ u.contact.nodeId ≠ t.localId ∧
    ∀ b ∈ t.buckets, b.ident = u.bucket → b.covers (ofBeBytes u.contact.nodeId) = true

/-- A new table has one empty bucket for the whole space. -/
theorem Sound.new (localId : List UInt8) : (new localId).Sound where
  tiles := ⟨rfl, Nat.zero_le _, rfl⟩
  bucket := List.forall_mem_singleton.mpr (KBucket.Sound.empty localId 0 0 (2 ^ 256))
  idents := List.nodup_singleton 0
  fresh := List.forall_mem_singleton.mpr Nat.one_pos
  waiting := List.forall_mem_nil _

/-- Buckets are told apart by their identities. -/
theorem Sound.eq_of_ident (h : t.Sound) {b b' : KBucket} (hb : b ∈ t.buckets) (hb' : b' ∈ t.buckets)
    (hident : b.ident = b'.ident) : b = b' := List.inj_on_of_nodup_map h.idents hb hb' hident

/-- A bucket changes in place. -/
theorem Sound.setBucket (h : t.Sound) {ident : Nat} {f : KBucket → KBucket}
    (hframe : ∀ b ∈ t.buckets, b.ident = ident → (f b).ident = b.ident ∧ (f b).rangeMin = b.rangeMin ∧
      (f b).rangeMax = b.rangeMax)
    (hsound : ∀ b ∈ t.buckets, b.ident = ident → (f b).Sound t.localId) : (t.setBucket ident f).Sound := by
  have hkept : ∀ b ∈ t.buckets, (if b.ident = ident then f b else b).ident = b.ident ∧
      (if b.ident = ident then f b else b).rangeMin = b.rangeMin ∧
      (if b.ident = ident then f b else b).rangeMax = b.rangeMax := by
    intro b hb
    split_ifs with hident
    · exact hframe b hb hident
    · exact ⟨rfl, rfl, rfl⟩
  refine ⟨h.tiles.map fun b hb => (hkept b hb).2, List.forall_mem_map.mpr fun b hb => ?_, ?_,
    List.forall_mem_map.mpr fun b hb => ?_, fun u hu => ?_⟩
  · split_ifs with hident
    · exact hsound b hb hident
    · exact h.bucket b hb
  · have hsame : (t.setBucket ident f).buckets.map KBucket.ident = t.buckets.map KBucket.ident := by
      rw [RoutingTable.setBucket, List.map_map]
      exact List.map_congr_left fun b hb => (hkept b hb).1
    rw [hsame]
    exact h.idents
  · rw [(hkept b hb).1]
    exact h.fresh b hb
  · obtain ⟨hfresh, hlocal, hcovers⟩ := h.waiting u hu
    refine ⟨hfresh, hlocal, List.forall_mem_map.mpr fun b hb hident => ?_⟩
    obtain ⟨hi, hmin, hmax⟩ := hkept b hb
    rw [KBucket.covers, hmin, hmax]
    exact hcovers b hb (hi ▸ hident)

/-- The halves of a bucket: their identities and ranges, and the contacts that belong into them. -/
theorem halves_spec {localId : List UInt8} (nextIdent : Nat) {old : KBucket} (h : old.Sound localId) :
    ((halves nextIdent old).1.ident = nextIdent ∧ (halves nextIdent old).1.rangeMin = old.rangeMin ∧
      (halves nextIdent old).1.rangeMax = (old.rangeMin + old.rangeMax) / 2 ∧ (halves nextIdent old).1.Sound localId) ∧
    ((halves nextIdent old).2.ident = nextIdent + 1 ∧
      (halves nextIdent old).2.rangeMin = (old.rangeMin + old.rangeMax) / 2 + 1 ∧
      (halves nextIdent old).2.rangeMax = old.rangeMax ∧ (halves nextIdent old).2.Sound localId) := by
  unfold halves
  refine List.foldlRecOn (motive := fun dealt : KBucket × KBucket =>
    (dealt.1.ident = nextIdent ∧ dealt.1.rangeMin = old.rangeMin ∧
      dealt.1.rangeMax = (old.rangeMin + old.rangeMax) / 2 ∧ dealt.1.Sound localId) ∧
    (dealt.2.ident = nextIdent + 1 ∧ dealt.2.rangeMin = (old.rangeMin + old.rangeMax) / 2 + 1 ∧
      dealt.2.rangeMax = old.rangeMax ∧ dealt.2.Sound localId))
    old.contacts _ ⟨⟨rfl, rfl, rfl, .empty _ _ _ _⟩, rfl, rfl, rfl, .empty _ _ _ _⟩ fun dealt hdealt contact hcontact => ?_
  obtain ⟨⟨hident₁, hmin₁, hmax₁, hsound₁⟩, hident₂, hmin₂, hmax₂, hsound₂⟩ := hdealt
  obtain ⟨hmin, hmax⟩ := KBucket.covers_iff.mp (h.inRange contact hcontact)
  have hlocal := h.notLocal contact hcontact
  unfold deal
  split_ifs with hle
  · refine ⟨?_, hident₂, hmin₂, hmax₂, hsound₂⟩
    cases hupdate : dealt.1.update contact with
    | none => exact ⟨hident₁, hmin₁, hmax₁, hsound₁⟩
    | some b' =>
        obtain ⟨hi, hm, hM⟩ := KBucket.update_frame hupdate
        have hrange : dealt.1.covers (ofBeBytes contact.nodeId) = true := KBucket.covers_iff.mpr ⟨hmin₁ ▸ hmin, hmax₁ ▸ hle⟩
        exact ⟨hi.trans hident₁, hm.trans hmin₁, hM.trans hmax₁, hsound₁.update hrange hlocal hupdate⟩
  · refine ⟨⟨hident₁, hmin₁, hmax₁, hsound₁⟩, ?_⟩
    cases hupdate : dealt.2.update contact with
    | none => exact ⟨hident₂, hmin₂, hmax₂, hsound₂⟩
    | some b' =>
        obtain ⟨hi, hm, hM⟩ := KBucket.update_frame hupdate
        have hrange : dealt.2.covers (ofBeBytes contact.nodeId) = true :=
          KBucket.covers_iff.mpr ⟨by rw [hmin₂]; omega, hmax₂ ▸ hmax⟩
        exact ⟨hi.trans hident₂, hm.trans hmin₂, hM.trans hmax₂, hsound₂.update hrange hlocal hupdate⟩

/-- Every bucket behind a split is an old one or a half. -/
theorem mem_splitBucket {ident : Nat} {b : KBucket} (hb : b ∈ (t.splitBucket ident).buckets) :
    (b ∈ t.buckets ∧ b.ident ≠ ident) ∨
      ∃ old ∈ t.buckets, old.ident = ident ∧ (b = (halves t.nextIdent old).1 ∨ b = (halves t.nextIdent old).2) := by
  obtain ⟨old, hold, hmem⟩ := List.mem_flatMap.mp hb
  split_ifs at hmem with hident
  · refine .inr ⟨old, hold, hident, ?_⟩
    rwa [List.mem_cons, List.mem_singleton] at hmem
  · rw [List.mem_singleton.mp hmem]
    exact .inl ⟨hold, hident⟩

/-- Two new identities in the place of one. -/
theorem nodup_flatMap_fresh {idents : List Nat} {fresh : Nat} (h : idents.Nodup) (hfresh : ∀ i ∈ idents, i < fresh)
    (ident : Nat) : (idents.flatMap fun i => if i = ident then [fresh, fresh + 1] else [i]).Nodup := by
  refine List.nodup_flatMap.mpr ⟨fun i _ => ?_, List.Pairwise.imp_of_mem (fun hi hj hne => ?_) h⟩
  · split_ifs <;> simp
  · have hilt := hfresh _ hi
    have hjlt := hfresh _ hj
    intro x hx hx'
    simp only at hx hx'
    split_ifs at hx hx' with hieq hjeq hjeq
    · exact hne (hieq.trans hjeq.symm)
    all_goals
      simp only [List.mem_cons, List.not_mem_nil, or_false] at hx hx'
      omega

/-- **A split keeps the table sound.** -/
theorem Sound.splitBucket (h : t.Sound) (ident : Nat) : (t.splitBucket ident).Sound := by
  refine ⟨h.tiles.flatMap fun b hb => ?_, fun b hb => ?_, ?_, fun b hb => ?_, fun u hu => ?_⟩
  · have hbounds := (h.tiles.bounds.2 b hb).2.1
    split_ifs with hident
    · obtain ⟨⟨-, hmin₁, hmax₁, -⟩, -, hmin₂, hmax₂, -⟩ := halves_spec t.nextIdent (h.bucket b hb)
      refine ⟨hmin₁, ?_, ?_, ?_, ?_⟩
      · rw [hmax₁]; omega
      · rw [hmin₂, hmax₁]
      · rw [hmax₁, hmax₂]; omega
      · rw [hmax₂]; rfl
    · exact ⟨rfl, hbounds, rfl⟩
  · rcases mem_splitBucket hb with ⟨hb, -⟩ | ⟨old, hold, -, rfl | rfl⟩
    · exact h.bucket b hb
    · exact (halves_spec t.nextIdent (h.bucket old hold)).1.2.2.2
    · exact (halves_spec t.nextIdent (h.bucket old hold)).2.2.2.2
  · have hidents : (t.splitBucket ident).buckets.map KBucket.ident =
        (t.buckets.map KBucket.ident).flatMap fun i => if i = ident then [t.nextIdent, t.nextIdent + 1] else [i] := by
      rw [RoutingTable.splitBucket, List.map_flatMap, List.flatMap_map]
      refine List.flatMap_congr fun b hb => ?_
      have hhalves := halves_spec t.nextIdent (h.bucket b hb)
      split_ifs
      · rw [List.map_cons, List.map_singleton, hhalves.1.1, hhalves.2.1]
      · rfl
    rw [hidents]
    exact nodup_flatMap_fresh h.idents (List.forall_mem_map.mpr h.fresh) ident
  · rcases mem_splitBucket hb with ⟨hb, -⟩ | ⟨old, hold, -, rfl | rfl⟩
    · exact Nat.lt_add_right 2 (h.fresh b hb)
    · rw [(halves_spec t.nextIdent (h.bucket old hold)).1.1]
      exact Nat.lt_add_of_pos_right Nat.two_pos
    · rw [(halves_spec t.nextIdent (h.bucket old hold)).2.1]
      exact Nat.lt_succ_self _
  · obtain ⟨hfresh, hlocal, hcovers⟩ := h.waiting u hu
    refine ⟨Nat.lt_add_right 2 hfresh, hlocal, fun b hb hident => ?_⟩
    rcases mem_splitBucket hb with ⟨hb, -⟩ | ⟨old, hold, -, rfl | rfl⟩
    · exact hcovers b hb hident
    · rw [(halves_spec t.nextIdent (h.bucket old hold)).1.1] at hident
      exact absurd hident (Nat.ne_of_gt hfresh)
    · rw [(halves_spec t.nextIdent (h.bucket old hold)).2.1] at hident
      omega

/-- **`update`**, as far as it goes at once. -/
theorem Sound.update (h : t.Sound) (sha3 : List UInt8 → List UInt8) (contact : Contact) (dht : Bool) (limit : Nat) :
    (t.update sha3 contact dht limit).Sound := by
  fun_induction RoutingTable.update sha3 contact dht limit t with
  | case5 _ t hlocal _ bucket hfind bucket' hupdate =>
      have hbucket := List.mem_of_find?_eq_some hfind
      have hsame : ∀ b ∈ t.buckets, b.ident = bucket.ident → b = bucket := fun b hb => h.eq_of_ident hb hbucket
      refine h.setBucket (fun b hb hident => ?_) fun b _ _ => ?_
      · rw [hsame b hb hident]
        exact KBucket.update_frame hupdate
      · have hrange : bucket.covers (ofBeBytes contact.nodeId) = true :=
          List.find?_some (p := fun b : KBucket => b.covers (ofBeBytes contact.nodeId)) hfind
        exact (h.bucket bucket hbucket).update hrange hlocal hupdate
  | case6 _ t _ _ bucket _ _ _ ih => exact ih (h.splitBucket bucket.ident)
  | case8 _ t hlocal _ bucket hfind _ _ _ oldest rest hcontacts =>
      have hbucket := List.mem_of_find?_eq_some hfind
      refine ⟨h.tiles, h.bucket, h.idents, h.fresh, fun u hu => ?_⟩
      rcases List.mem_append.mp hu with hu | hu
      · exact h.waiting u hu
      · rw [List.mem_singleton.mp hu]
        refine ⟨h.fresh bucket hbucket, hlocal, fun b hb hident => ?_⟩
        rw [h.eq_of_ident hb hbucket hident]
        exact List.find?_some (p := fun b : KBucket => b.covers (ofBeBytes contact.nodeId)) hfind
  | _ => exact h

/-- What a ping leaves of the bucket. -/
theorem afterPing_sound {localId : List UInt8} {u : SuspendedUpdate} {b : KBucket} (h : b.Sound localId)
    (hrange : b.covers (ofBeBytes u.contact.nodeId) = true) (hlocal : u.contact.nodeId ≠ localId) (result : PingResult) :
    ((afterPing u result b).ident = b.ident ∧ (afterPing u result b).rangeMin = b.rangeMin ∧
      (afterPing u result b).rangeMax = b.rangeMax) ∧ (afterPing u result b).Sound localId := by
  unfold afterPing
  cases result with
  | raised => exact ⟨⟨rfl, rfl, rfl⟩, h⟩
  | alive =>
      dsimp only
      split_ifs with hcontains
      · -- the pinged contact goes to the end: this is what `KBucket.update` does with one that is there
        have hupdate : b.update u.oldest = some { b with contacts := removeContact u.oldest b.contacts ++ [u.oldest] } :=
          if_pos hcontains
        obtain ⟨c, hc, hsame⟩ := KBucket.contains_iff.mp hcontains
        have hid := Contact.nodeId_eq_of_same hsame
        exact ⟨⟨rfl, rfl, rfl⟩, h.update (hid ▸ h.inRange c hc) (hid ▸ h.notLocal c hc) hupdate⟩
      · exact ⟨⟨rfl, rfl, rfl⟩, h⟩
  | dead =>
      dsimp only
      split_ifs with hcontains
      · have hremoved : { b with contacts := removeContact u.oldest b.contacts }.Sound localId :=
          h.sublist (List.eraseP_sublist)
        cases hupdate : KBucket.update { b with contacts := removeContact u.oldest b.contacts } u.contact with
        | none => exact ⟨⟨rfl, rfl, rfl⟩, hremoved⟩
        | some b' =>
            obtain ⟨hident, hmin, hmax⟩ := KBucket.update_frame hupdate
            exact ⟨⟨hident, hmin, hmax⟩, hremoved.update hrange hlocal hupdate⟩
      · exact ⟨⟨rfl, rfl, rfl⟩, h⟩

/-- **The step lemma**: an update, the answer to a ping, and a revocation keep the table sound. -/
theorem Sound.step {sha3 : List UInt8 → List UInt8} {limit : Nat} {t' : RoutingTable} (h : t.Sound) {op : TableOp}
    (hstep : op.step sha3 limit t = some t') : t'.Sound := by
  cases op with
  | update contact dht =>
      cases hstep
      exact h.update sha3 contact dht limit
  | revokeNode nodeId =>
      cases hstep
      refine ⟨h.tiles.map fun b _ => ⟨rfl, rfl⟩, List.forall_mem_map.mpr fun b hb => ?_, ?_,
        List.forall_mem_map.mpr fun b hb => h.fresh b hb, fun u hu => ?_⟩
      · exact (h.bucket b hb).sublist List.filter_sublist
      · show ((t.buckets.map fun b : KBucket => _).map KBucket.ident).Nodup
        rw [List.map_map]
        exact h.idents
      · obtain ⟨hfresh, hlocal, hcovers⟩ := h.waiting u hu
        exact ⟨hfresh, hlocal, List.forall_mem_map.mpr fun b hb => hcovers b hb⟩
  | resume k result =>
      obtain ⟨u, hu, rfl⟩ := Option.map_eq_some_iff.mp hstep
      obtain ⟨-, hlocal, hcovers⟩ := h.waiting u (List.mem_of_getElem? hu)
      have hset : (t.setBucket u.bucket (afterPing u result)).Sound :=
        h.setBucket (fun b hb hident => (afterPing_sound (h.bucket b hb) (hcovers b hb hident) hlocal result).1)
          fun b hb hident => (afterPing_sound (h.bucket b hb) (hcovers b hb hident) hlocal result).2
      exact ⟨hset.tiles, hset.bucket, hset.idents, hset.fresh, fun v hv => hset.waiting v (List.eraseIdx_subset hv)⟩

/-- **The run lemma.** -/
theorem sound_of_reachable {sha3 : List UInt8 → List UInt8} {limit : Nat}
    (h : (tableRuns sha3 limit).Reachable (fun _ _ => True) t) : t.Sound := by
  refine h.invariant ?_ fun s op s' hs _ hstep => hs.step hstep
  rintro s ⟨localId, rfl⟩
  exact Sound.new localId

/-! ## The recursion -/

/-- The table on which `update` calls itself, where it does. -/
def recursesOn (sha3 : List UInt8 → List UInt8) (contact : Contact) (t : RoutingTable) : Option RoutingTable :=
  if contact.nodeId = t.localId then none
  else if !t.verifyBinding sha3 contact then none
  else
    (t.buckets.find? fun b => b.covers (ofBeBytes contact.nodeId)).bind fun bucket =>
      if (bucket.update contact).isNone && bucket.covers (ofBeBytes t.localId) then some (t.splitBucket bucket.ident)
      else none

/-- `update` comes to an end within this many calls of itself, the first included. -/
def finishes (sha3 : List UInt8 → List UInt8) (contact : Contact) : Nat → RoutingTable → Bool
  | 0, _ => false
  | depth + 1, t =>
      match t.recursesOn sha3 contact with
      | none => true
      | some t' => finishes sha3 contact depth t'

variable {sha3 : List UInt8 → List UInt8} {contact : Contact}

/-- Where `update` calls itself. -/
theorem update_of_recursesOn {t' : RoutingTable} (h : t.recursesOn sha3 contact = some t') (dht : Bool) (limit : Nat) :
    t.update sha3 contact dht (limit + 1) = t'.update sha3 contact dht limit := by
  unfold recursesOn at h
  split_ifs at h with hlocal hverify
  obtain ⟨bucket, hfind, hsplit⟩ := Option.bind_eq_some_iff.mp h
  split_ifs at hsplit with hcond
  obtain ⟨hnone, hcovers⟩ := (Bool.and_eq_true _ _).mp hcond
  cases hsplit
  rw [RoutingTable.update, if_neg hlocal, if_neg hverify, hfind]
  simp only [Option.isNone_iff_eq_none.mp hnone, if_pos hcovers]

/-- Elsewhere the depth does not matter. -/
theorem update_of_not_recursesOn (h : t.recursesOn sha3 contact = none) (dht : Bool) (limit : Nat) :
    t.update sha3 contact dht (limit + 1) = t.update sha3 contact dht 1 := by
  unfold recursesOn at h
  rw [RoutingTable.update, RoutingTable.update]
  by_cases hlocal : contact.nodeId = t.localId
  · rw [if_pos hlocal, if_pos hlocal]
  by_cases hverify : (!t.verifyBinding sha3 contact) = true
  · rw [if_neg hlocal, if_neg hlocal, if_pos hverify, if_pos hverify]
  rw [if_neg hlocal, if_neg hverify] at h
  rw [if_neg hlocal, if_neg hlocal, if_neg hverify, if_neg hverify]
  cases hfind : t.buckets.find? fun b => b.covers (ofBeBytes contact.nodeId) with
  | none => rfl
  | some bucket =>
      rw [hfind, Option.bind_some] at h
      cases hupdate : bucket.update contact with
      | some bucket' => simp only [hupdate]
      | none =>
          have hcovers : ¬ bucket.covers (ofBeBytes t.localId) = true := by
            intro hcovers
            rw [hupdate, hcovers] at h
            exact Option.some_ne_none _ h
          simp only [hupdate, if_neg hcovers]

/-- A call that comes to an end does not depend on how deep calls may go. -/
theorem update_of_finishes {depth : Nat} (h : t.finishes sha3 contact depth = true) (dht : Bool) {limit : Nat}
    (hlimit : depth ≤ limit) : t.update sha3 contact dht limit = t.update sha3 contact dht depth := by
  induction depth generalizing t limit with
  | zero => exact absurd h Bool.false_ne_true
  | succ depth ih =>
      obtain ⟨limit, rfl⟩ : ∃ n, limit = n + 1 := ⟨limit - 1, by omega⟩
      rw [finishes] at h
      cases hrec : t.recursesOn sha3 contact with
      | none => rw [update_of_not_recursesOn hrec dht limit, update_of_not_recursesOn hrec dht depth]
      | some t' =>
          rw [hrec] at h
          rw [update_of_recursesOn hrec, update_of_recursesOn hrec]
          exact ih h (Nat.le_of_succ_le_succ hlimit)

/-- The id of a contact that passes the gate is a hash. -/
theorem exists_publicKey_of_verifyBinding (h : t.verifyBinding sha3 contact = true) :
    ∃ publicKey, contact.nodeId = sha3 publicKey := by
  unfold verifyBinding at h
  split_ifs at h
  split at h
  · exact absurd h Bool.false_ne_true
  · next publicKey _ => exact ⟨publicKey, beq_iff_eq.mp ((Bool.and_eq_true _ _).mp h).1⟩

/-- No contact id but the local one has the integer of the local id. -/
def LocalIdUnique (sha3 : List UInt8 → List UInt8) (localId : List UInt8) : Prop :=
  ∀ publicKey, ofBeBytes (sha3 publicKey) = ofBeBytes localId → sha3 publicKey = localId

/-- So it is for every local id of 32 bytes. -/
theorem localIdUnique_of_length (hsha3 : ∀ x, (sha3 x).length = 32) {localId : List UInt8} (hlength : localId.length = 32) :
    LocalIdUnique sha3 localId := by
  intro publicKey h
  have hlengths : (sha3 publicKey).reverse.length = localId.reverse.length := by
    rw [List.length_reverse, List.length_reverse, hsha3, hlength]
  have hback := leBytes_ofLeBytes localId.reverse
  rw [← hlengths, show ofLeBytes localId.reverse = ofLeBytes (sha3 publicKey).reverse from h.symm, leBytes_ofLeBytes] at hback
  exact List.reverse_injective hback

/-- What `update` calls itself on, and why. -/
theorem recursesOn_some {t' : RoutingTable} (h : t.recursesOn sha3 contact = some t') :
    contact.nodeId ≠ t.localId ∧ t.verifyBinding sha3 contact = true ∧
      ∃ bucket ∈ t.buckets, bucket.covers (ofBeBytes contact.nodeId) = true ∧ bucket.covers (ofBeBytes t.localId) = true ∧
        t' = t.splitBucket bucket.ident := by
  unfold recursesOn at h
  split_ifs at h with hlocal hverify
  obtain ⟨bucket, hfind, hsplit⟩ := Option.bind_eq_some_iff.mp h
  split_ifs at hsplit with hcond
  refine ⟨hlocal, by simpa using hverify, bucket, List.mem_of_find?_eq_some hfind, ?_, ((Bool.and_eq_true _ _).mp hcond).2,
    (Option.some.inj hsplit).symm⟩
  exact List.find?_some (p := fun b : KBucket => b.covers (ofBeBytes contact.nodeId)) hfind

/-- **Halving.** Where the bucket of a contact spans fewer than `2 ^ k` ids, `update` ends within `k + 1` calls. -/
theorem finishes_of_width (h : t.Sound) (hunique : LocalIdUnique sha3 t.localId) (k : Nat)
    (hwidth : ∀ b ∈ t.buckets, b.covers (ofBeBytes contact.nodeId) = true → b.rangeMax - b.rangeMin < 2 ^ k) :
    t.finishes sha3 contact (k + 1) = true := by
  induction k generalizing t with
  | zero =>
      rw [finishes]
      cases hrec : t.recursesOn sha3 contact with
      | none => rfl
      | some t' =>
          -- a range of one id holds the contact's and the local one, which are then the same
          obtain ⟨hlocal, hverify, bucket, hbucket, hcontact, hlocalCovers, -⟩ := recursesOn_some hrec
          obtain ⟨publicKey, hid⟩ := exists_publicKey_of_verifyBinding hverify
          have hsmall := hwidth bucket hbucket hcontact
          obtain ⟨hmin, hmax⟩ := KBucket.covers_iff.mp hcontact
          obtain ⟨hmin', hmax'⟩ := KBucket.covers_iff.mp hlocalCovers
          have heq : ofBeBytes (sha3 publicKey) = ofBeBytes t.localId := by
            rw [← hid]
            omega
          exact absurd (hid.trans (hunique publicKey heq)) hlocal
  | succ k ih =>
      rw [finishes]
      cases hrec : t.recursesOn sha3 contact with
      | none => rfl
      | some t' =>
          obtain ⟨-, -, bucket, hbucket, hcontact, -, rfl⟩ := recursesOn_some hrec
          refine ih (h.splitBucket bucket.ident) hunique fun b hb hcovers => ?_
          have hsmall := hwidth bucket hbucket hcontact
          rw [Nat.pow_succ] at hsmall
          rcases mem_splitBucket hb with ⟨hb, hident⟩ | ⟨old, hold, hident, hhalf⟩
          · have hsame := h.tiles.eq_of_covers hb hbucket (KBucket.covers_iff.mp hcovers) (KBucket.covers_iff.mp hcontact)
            exact absurd (congrArg KBucket.ident hsame) hident
          · obtain rfl := h.eq_of_ident hold hbucket hident
            obtain ⟨⟨-, hmin₁, hmax₁, -⟩, -, hmin₂, hmax₂, -⟩ := halves_spec t.nextIdent (h.bucket old hold)
            rcases hhalf with rfl | rfl
            · rw [hmin₁, hmax₁]
              omega
            · rw [hmin₂, hmax₂]
              omega

/-- **`update` ends within 258 calls, the first included**, where no other id is mistaken for the local one: the two
ids differ, and after at most 257 halvings they lie in different buckets. -/
theorem finishes_of_unique (h : t.Sound) (hunique : LocalIdUnique sha3 t.localId) (contact : Contact) :
    t.finishes sha3 contact 258 = true := by
  refine finishes_of_width h hunique (256 + 1) fun b hb _ => ?_
  have hlast := (h.tiles.bounds.2 b hb).2.2
  rw [Nat.pow_succ]
  omega

/-! ## Every reachable table -/

/-- What a routing table is meant to be. -/
structure WellFormed (t : RoutingTable) : Prop where
  /-- the ranges are consecutive, from 0 to `2 ^ 256` -/
  consecutive : Tiles KBucket.rangeMin KBucket.rangeMax 0 t.buckets (2 ^ 256 + 1)
  disjoint : t.buckets.Pairwise fun b b' => b.rangeMax < b'.rangeMin
  covering : ∀ n ≤ 2 ^ 256, ∃ b ∈ t.buckets, b.covers n = true
  room : ∀ b ∈ t.buckets, b.contacts.length ≤ kParam
  inRange : ∀ b ∈ t.buckets, ∀ c ∈ b.contacts, b.covers (ofBeBytes c.nodeId) = true
  distinct : ((t.buckets.flatMap (·.contacts)).map Contact.key).Nodup
  notLocal : ∀ b ∈ t.buckets, ∀ c ∈ b.contacts, c.nodeId ≠ t.localId

/-- A sound table is what it is meant to be. -/
theorem Sound.wellFormed (h : t.Sound) : t.WellFormed where
  consecutive := h.tiles
  disjoint := h.tiles.disjoint
  covering n hn := by
    obtain ⟨b, hb, hcovers⟩ := h.tiles.exists_covers (Nat.zero_le n) (Nat.lt_succ_of_le hn)
    exact ⟨b, hb, KBucket.covers_iff.mpr hcovers⟩
  room b hb := (h.bucket b hb).room
  inRange b hb := (h.bucket b hb).inRange
  distinct := by
    rw [List.map_flatMap]
    refine List.nodup_flatMap.mpr ⟨fun b hb => (h.bucket b hb).distinct, ?_⟩
    refine h.tiles.disjoint.imp_of_mem fun hb hb' hlt k hk hk' => ?_
    -- the same contact in two buckets would be in both ranges
    obtain ⟨c, hc, rfl⟩ := List.mem_map.mp hk
    obtain ⟨c', hc', hkey⟩ := List.mem_map.mp hk'
    have hid : c'.nodeId = c.nodeId := congrArg Prod.fst hkey
    have hrange := KBucket.covers_iff.mp ((h.bucket _ hb).inRange c hc)
    have hrange' := KBucket.covers_iff.mp ((h.bucket _ hb').inRange c' hc')
    rw [hid] at hrange'
    omega
  notLocal b hb := (h.bucket b hb).notLocal

/-- **Every run.** Whatever the contacts, the answers to pings and the order of the calls, and however deep calls may go,
a table is well formed; and where the local id is not mistaken for another, `update` of any contact comes to an end within
258 calls, so that no deeper recursion changes what it does. -/
theorem routing_table_wellFormed (sha3 : List UInt8 → List UInt8) (limit : Nat) (t : RoutingTable)
    (h : (tableRuns sha3 limit).Reachable (fun _ _ => True) t) :
    t.WellFormed ∧ (LocalIdUnique sha3 t.localId → ∀ contact : Contact, t.finishes sha3 contact 258 = true ∧
      ∀ dht depth, 258 ≤ depth → t.update sha3 contact dht depth = t.update sha3 contact dht 258) := by
  have hsound := sound_of_reachable h
  refine ⟨hsound.wellFormed, fun hunique contact => ?_⟩
  have hfinishes := finishes_of_unique hsound hunique contact
  exact ⟨hfinishes, fun dht depth hdepth => update_of_finishes hfinishes dht hdepth⟩

/-- Digests of 32 bytes: the first 32 of the text. -/
def firstBytes (x : List UInt8) : List UInt8 := (x ++ List.replicate 32 0).take 32

/-- They have 32 bytes. -/
theorem length_firstBytes (x : List UInt8) : (firstBytes x).length = 32 := by simp [firstBytes]

/-- Updates leave the local id. -/
theorem localId_updates (sha3 : List UInt8 → List UInt8) (limit : Nat) (contacts : List Contact) (t : RoutingTable) :
    (updates sha3 limit contacts t).localId = t.localId := by
  have hone (t : RoutingTable) (contact : Contact) : (t.update sha3 contact true limit).localId = t.localId := by
    fun_induction RoutingTable.update sha3 contact true limit t with
    | case6 _ _ _ _ _ _ _ _ ih => exact ih
    | _ => rfl
  induction contacts generalizing t with
  | nil => rfl
  | cons contact contacts ih => exact (ih _).trans (hone t contact)

/-- Twenty-one contacts of the far half, in the table of a node of the near half. -/
theorem routing_table_wellFormed_split :
    (updates firstBytes 300 ((List.range 21).map fun i => farContact (UInt8.ofNat i)) (new (List.replicate 32 0))).WellFormed ∧
      (updates firstBytes 300 ((List.range 21).map fun i => farContact (UInt8.ofNat i))
        (new (List.replicate 32 0))).finishes firstBytes (farContact 21) 258 = true := by
  obtain ⟨past, hrun⟩ : ∃ past, (tableRuns firstBytes 300).Run (fun _ _ => True)
      (updates firstBytes 300 ((List.range 21).map fun i => farContact (UInt8.ofNat i)) (new (List.replicate 32 0)) :: past) :=
    exists_run_updates (fun _ _ _ => trivial) _ (.init ⟨_, rfl⟩)
  have hwell := routing_table_wellFormed firstBytes 300 _ ⟨past, hrun⟩
  refine ⟨hwell.1, (hwell.2 ?_ (farContact 21)).1⟩
  rw [localId_updates]
  exact localIdUnique_of_length length_firstBytes List.length_replicate

/-! ### A local id that is mistaken for another -/

/-- The contacts of one node at several ports. -/
def twin (port : Nat) : Contact := ⟨farKey 5, "10.0.0.1", port, some (farKey 5), some "silicon"⟩

/-- A local id of 33 bytes, with the integer of the twins' id. -/
def paddedId : List UInt8 := 0 :: farKey 5

/-- A bucket with the first twenty twins, in the range of which the local id and the twins' id fall. -/
structure Stuck (t : RoutingTable) : Prop where
  localId : t.localId = paddedId
  revokedNodes : t.revokedNodes = []
  bucket : ∃ b ∈ t.buckets, b.covers (ofBeBytes (farKey 5)) = true ∧ b.contacts = (List.range 20).map twin

/-- Distinct contacts that fit are all taken, in order. -/
theorem foldl_update_contacts (contacts : List Contact) (b : KBucket) (hroom : (b.contacts ++ contacts).length ≤ kParam)
    (hdistinct : ((b.contacts ++ contacts).map Contact.key).Nodup) :
    (contacts.foldl (fun b c => (b.update c).getD b) b).contacts = b.contacts ++ contacts := by
  induction contacts generalizing b with
  | nil => exact (List.append_nil _).symm
  | cons c contacts ih =>
      have hnew : ¬ b.contains c = true := by
        intro hcontains
        obtain ⟨x, hx, hsame⟩ := KBucket.contains_iff.mp hcontains
        rw [List.map_append, List.nodup_append] at hdistinct
        exact hdistinct.2.2 _ (List.mem_map_of_mem hx) _ (List.mem_map_of_mem List.mem_cons_self)
          (Contact.same_iff.mp hsame).symm
      have hfits : b.contacts.length < kParam := by
        rw [List.length_append, List.length_cons] at hroom
        omega
      have hupdate : b.update c = some { b with contacts := b.contacts ++ [c] } := (if_neg hnew).trans (if_pos hfits)
      rw [List.append_cons] at hroom hdistinct ⊢
      rw [List.foldl_cons, hupdate]
      exact ih _ hroom hdistinct

/-- Contacts of the lower half are dealt to it. -/
theorem foldl_deal_lower {midpoint : Nat} (contacts : List Contact) (dealt : KBucket × KBucket)
    (h : ∀ c ∈ contacts, ofBeBytes c.nodeId ≤ midpoint) :
    contacts.foldl (deal midpoint) dealt = (contacts.foldl (fun b c => (b.update c).getD b) dealt.1, dealt.2) := by
  induction contacts generalizing dealt with
  | nil => rfl
  | cons c contacts ih =>
      obtain ⟨hc, hcontacts⟩ := List.forall_mem_cons.mp h
      rw [List.foldl_cons, ih _ hcontacts, deal, if_pos hc, List.foldl_cons]

/-- And those of the upper half to that. -/
theorem foldl_deal_upper {midpoint : Nat} (contacts : List Contact) (dealt : KBucket × KBucket)
    (h : ∀ c ∈ contacts, ¬ ofBeBytes c.nodeId ≤ midpoint) :
    contacts.foldl (deal midpoint) dealt = (dealt.1, contacts.foldl (fun b c => (b.update c).getD b) dealt.2) := by
  induction contacts generalizing dealt with
  | nil => rfl
  | cons c contacts ih =>
      obtain ⟨hc, hcontacts⟩ := List.forall_mem_cons.mp h
      rw [List.foldl_cons, ih _ hcontacts, deal, if_neg hc, List.foldl_cons]

/-- A split leaves them together. -/
theorem Stuck.splitBucket (h : t.Stuck) (hsound : t.Sound) {bucket : KBucket} (hbucket : bucket ∈ t.buckets)
    (hcovers : bucket.covers (ofBeBytes (farKey 5)) = true) : (t.splitBucket bucket.ident).Stuck := by
  obtain ⟨b, hb, hbcovers, hcontacts⟩ := h.bucket
  obtain rfl := hsound.tiles.eq_of_covers hb hbucket (KBucket.covers_iff.mp hbcovers) (KBucket.covers_iff.mp hcovers)
  have hids : ∀ c ∈ b.contacts, c.nodeId = farKey 5 := by
    rw [hcontacts]
    exact List.forall_mem_map.mpr fun _ _ => rfl
  have hspec := halves_spec t.nextIdent (hsound.bucket b hb)
  have hkept (half : KBucket) (hempty : half.contacts = []) :
      (b.contacts.foldl (fun b c => (b.update c).getD b) half).contacts = (List.range 20).map twin := by
    have hroom := (hsound.bucket b hb).room
    have hdistinct := (hsound.bucket b hb).distinct
    rw [foldl_update_contacts, hempty, List.nil_append, hcontacts]
    · rwa [hempty]
    · rwa [hempty]
  have hmem (half : KBucket) (hhalf : half = (halves t.nextIdent b).1 ∨ half = (halves t.nextIdent b).2) :
      half ∈ (t.splitBucket b.ident).buckets := by
    refine List.mem_flatMap.mpr ⟨b, hb, ?_⟩
    rw [if_pos rfl, List.mem_cons, List.mem_singleton]
    exact hhalf
  obtain ⟨hmin, hmax⟩ := KBucket.covers_iff.mp hbcovers
  refine ⟨h.localId, h.revokedNodes, ?_⟩
  by_cases hle : ofBeBytes (farKey 5) ≤ (b.rangeMin + b.rangeMax) / 2
  · refine ⟨(halves t.nextIdent b).1, hmem _ (.inl rfl), KBucket.covers_iff.mpr ?_, ?_⟩
    · rw [hspec.1.2.1, hspec.1.2.2.1]
      exact ⟨hmin, hle⟩
    · rw [halves, foldl_deal_lower _ _ fun c hc => (hids c hc).symm ▸ hle]
      exact hkept _ rfl
  · refine ⟨(halves t.nextIdent b).2, hmem _ (.inr rfl), KBucket.covers_iff.mpr ?_, ?_⟩
    · rw [hspec.2.2.1, hspec.2.2.2.1]
      exact ⟨by omega, hmax⟩
    · rw [halves, foldl_deal_upper _ _ fun c hc => (hids c hc).symm ▸ hle]
      exact hkept _ rfl

/-- The twenty-first twin never comes to an end. -/
theorem Stuck.not_finishes (h : t.Stuck) (hsound : t.Sound) (depth : Nat) :
    t.finishes firstBytes (twin 20) depth = false := by
  induction depth generalizing t with
  | zero => rfl
  | succ depth ih =>
      obtain ⟨b, hb, hbcovers, hcontacts⟩ := h.bucket
      obtain ⟨bucket, hfind⟩ : ∃ bucket, (t.buckets.find? fun b => b.covers (ofBeBytes (twin 20).nodeId)) = some bucket := by
        refine Option.isSome_iff_exists.mp (List.find?_isSome.mpr ⟨b, hb, hbcovers⟩)
      have hbucket := List.mem_of_find?_eq_some hfind
      have hcovers : bucket.covers (ofBeBytes (farKey 5)) = true :=
        List.find?_some (p := fun b : KBucket => b.covers (ofBeBytes (twin 20).nodeId)) hfind
      obtain rfl := hsound.tiles.eq_of_covers hb hbucket (KBucket.covers_iff.mp hbcovers) (KBucket.covers_iff.mp hcovers)
      have hfull : b.update (twin 20) = none := by
        rw [KBucket.update, KBucket.contains, hcontacts, if_neg (by decide), if_neg (by decide)]
      have hlocalCovers : b.covers (ofBeBytes t.localId) = true := by
        rw [h.localId, show ofBeBytes paddedId = ofBeBytes (farKey 5) by decide +kernel]
        exact hbcovers
      have hrec : t.recursesOn firstBytes (twin 20) = some (t.splitBucket b.ident) := by
        have hverify : ¬ (!t.verifyBinding firstBytes (twin 20)) = true := by
          rw [verifyBinding, h.revokedNodes]
          decide
        rw [recursesOn, h.localId, if_neg (by decide), if_neg hverify, hfind, Option.bind_some, hfull, ← h.localId,
          hlocalCovers]
        rfl
      rw [finishes, hrec]
      exact ih (h.splitBucket hsound hb hbcovers) (hsound.splitBucket b.ident)

/-- **A longer local id.** The table of a node with 33 bytes for an id, and one contact too many of the node whose id is
the last 32 of them: `update` calls itself without end. -/
theorem lookalike_never_finishes :
    ¬ ∀ (sha3 : List UInt8 → List UInt8) (limit : Nat) (t : RoutingTable), (∀ x, (sha3 x).length = 32) →
      (tableRuns sha3 limit).Reachable (fun _ _ => True) t →
        ∀ contact : Contact, ∃ depth, t.finishes sha3 contact depth = true := by
  intro h
  obtain ⟨past, hrun⟩ : ∃ past, (tableRuns firstBytes 1).Run (fun _ _ => True)
      (updates firstBytes 1 ((List.range 20).map twin) (new paddedId) :: past) :=
    exists_run_updates (fun _ _ _ => trivial) _ (.init ⟨_, rfl⟩)
  have hstuck : (updates firstBytes 1 ((List.range 20).map twin) (new paddedId)).Stuck := by
    refine ⟨localId_updates _ _ _ _, by decide +kernel, ?_⟩
    have hbuckets : (updates firstBytes 1 ((List.range 20).map twin) (new paddedId)).buckets.any (fun b =>
        b.covers (ofBeBytes (farKey 5)) && decide (b.contacts = (List.range 20).map twin)) = true := by decide +kernel
    obtain ⟨b, hb, hcond⟩ := List.any_eq_true.mp hbuckets
    obtain ⟨hcovers, hcontacts⟩ := (Bool.and_eq_true _ _).mp hcond
    exact ⟨b, hb, hcovers, of_decide_eq_true hcontacts⟩
  obtain ⟨depth, hfinishes⟩ := h firstBytes 1 _ length_firstBytes ⟨past, hrun⟩ (twin 20)
  rw [hstuck.not_finishes (sound_of_reachable ⟨past, hrun⟩)] at hfinishes
  exact Bool.false_ne_true hfinishes

end RoutingTable

end WarmLogic.Mesh
