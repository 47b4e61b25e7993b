/-
# WarmLogic.Net.Reassembly — what the reassembly table returns, for any arrival order.

The session of a message is a collector of its pieces (`Lib.Collect`): `Tracks` ties a session to the set of the pieces it
holds, and `Follows` the sessions of a source to one collector per message. As long as no session is too old and the source
sends fragments of at most ten messages with distinct ids, the limit on sessions is never met, and a run of
`process_fragment` answers what the collectors do (`receiveAll_follows`), whatever other sources send.

So every order of all fragments delivers each message once (`reassembly_any_order`). With copies among them it depends: a
session is removed with the last fragment, and a copy that comes after that opens a new one, or delivers a message of one
fragment again (`reassembled_once_iff`).

Three facts carry it. A fragment is read back as it was made, and no two fragments of the source are the same
(`frag_inj`). A session with its pieces and a collector take a fragment alike, the last one included, with which both
are gone (`storeFragment_collects`). And what another source sends does not touch the sessions of this one, but for
dropping those that are too old. Everything about orders and copies is then said of collectors.
-/
import WarmLogic.Lib.Collect
import WarmLogic.Net.Fragmentation

namespace WarmLogic.Net.Fragmentation

open WarmLogic.Lib.Collect

variable {sha3 : List UInt8 → Vector UInt8 32}

/-! ## The pieces of a message -/

/-- What a sender gives to `fragment_message`. -/
structure Message where
  id : UInt32
  content : List UInt8
  highPriority : Bool
  deriving DecidableEq

namespace Message

/-- The number of fragments. -/
def count (m : Message) : Nat := if m.content.length ≤ maxFragmentPayload then 1 else divCeil m.content.length

/-- The payload of a fragment. -/
def piece (m : Message) (i : Nat) : List UInt8 := (m.content.drop (i * maxFragmentPayload)).take maxFragmentPayload

/-- A fragment. -/
def frag (sha3 : List UInt8 → Vector UInt8 32) (m : Message) (i : Nat) : List UInt8 :=
  fragment sha3 m.id m.highPriority (.ofNat i) (.ofNat m.count) (m.piece i)

/-- `fragment_message` accepts the message. -/
def Fragments (sha3 : List UInt8 → Vector UInt8 32) (m : Message) (frags : List (List UInt8)) : Prop :=
  fragmentMessage sha3 m.content m.id m.highPriority = .ok frags

variable {m : Message} {frags : List (List UInt8)}

/-- A message has a fragment, also an empty one. -/
theorem count_pos (m : Message) : 0 < m.count := by
  unfold count divCeil maxFragmentPayload
  split_ifs <;> omega

/-- The fragments have room for the message. -/
theorem length_le_count (m : Message) : m.content.length ≤ m.count * maxFragmentPayload := by
  unfold count divCeil maxFragmentPayload
  split_ifs <;> omega

/-- A message that is accepted is at most 600 pieces long. -/
theorem Fragments.length_le (h : m.Fragments sha3 frags) : m.content.length ≤ 7168 * 600 := by
  unfold Fragments fragmentMessage at h
  by_contra hlarge
  rw [if_pos (show maxFragmentPayload * maxFragmentsPerMessage.toNat < m.content.length from Nat.lt_of_not_le hlarge)] at h
  cases h

/-- And at most 600 of them. -/
theorem Fragments.count_le (h : m.Fragments sha3 frags) : m.count ≤ 600 := by
  have hlen := h.length_le
  unfold count divCeil maxFragmentPayload
  split_ifs <;> omega

/-- A small message is one fragment. -/
theorem fragments_small (hsmall : m.content.length ≤ maxFragmentPayload) : m.Fragments sha3 [m.frag sha3 0] := by
  have hcount : m.count = 1 := if_pos hsmall
  have hlarge : ¬ maxFragmentPayload * maxFragmentsPerMessage.toNat < m.content.length := by
    have hmax : maxFragmentPayload * maxFragmentsPerMessage.toNat = 7168 * 600 := rfl
    unfold maxFragmentPayload at hsmall
    omega
  unfold Fragments fragmentMessage
  rw [if_neg hlarge, if_pos hsmall, frag, hcount, piece, Nat.zero_mul, List.drop_zero, List.take_of_length_le hsmall]
  rfl

/-- **What `fragment_message` returns**: the fragments, in order. -/
theorem Fragments.eq (h : m.Fragments sha3 frags) : frags = (List.range m.count).map (m.frag sha3) := by
  by_cases hsmall : m.content.length ≤ maxFragmentPayload
  · have hcount : m.count = 1 := if_pos hsmall
    rw [hcount, List.range_one, List.map_singleton]
    exact Except.ok.inj (h.symm.trans (fragments_small hsmall))
  · have hcount : m.count = divCeil m.content.length := if_neg hsmall
    have hle := h.count_le
    have hlen : ¬ maxFragmentPayload * maxFragmentsPerMessage.toNat < m.content.length := Nat.not_lt.mpr h.length_le
    have htotal : (UInt16.ofNat (divCeil m.content.length)).toNat = divCeil m.content.length := by
      rw [UInt16.toNat_ofNat', Nat.mod_eq_of_lt (by omega)]
    unfold Fragments fragmentMessage at h
    rw [if_neg hlen, if_neg hsmall] at h
    cases h
    rw [htotal, hcount]
    apply List.map_congr_left
    intro i hi
    dsimp only
    rw [frag, hcount, piece, List.drop_take]
    congr 1
    rw [List.mem_range, divCeil, maxFragmentPayload] at hi
    by_cases hfull : i * maxFragmentPayload + maxFragmentPayload ≤ m.content.length
    · rw [Nat.min_eq_left hfull, Nat.add_sub_cancel_left]
    · have hall : (m.content.drop (i * maxFragmentPayload)).length ≤ maxFragmentPayload := by
        rw [List.length_drop]
        omega
      rw [Nat.min_eq_right (by omega), ← List.length_drop, List.take_length, List.take_of_length_le hall]

/-- **Every message of admissible size is fragmented.** -/
theorem fragments_of_length_le (h : m.content.length ≤ 7168 * 600) :
    m.Fragments sha3 ((List.range m.count).map (m.frag sha3)) := by
  have hlen : ¬ maxFragmentPayload * maxFragmentsPerMessage.toNat < m.content.length := Nat.not_lt.mpr h
  have hsome : ∃ frags, m.Fragments sha3 frags := by
    unfold Fragments fragmentMessage
    rw [if_neg hlen]
    split
    · exact ⟨_, rfl⟩
    · exact ⟨_, rfl⟩
  obtain ⟨frags, hfrags⟩ := hsome
  exact hfrags.eq ▸ hfrags

/-- What `fragment_message` returns has a fragment for each piece. -/
theorem Fragments.mem_iff (h : m.Fragments sha3 frags) {data : List UInt8} :
    data ∈ frags ↔ ∃ i < m.count, data = m.frag sha3 i := by
  rw [h.eq, List.mem_map]
  simp only [List.mem_range, eq_comm]

/-- Pieces in a row are the front of the message. -/
theorem flatten_take (m : Message) (k : Nat) :
    ((List.range k).map m.piece).flatten = m.content.take (k * maxFragmentPayload) := by
  induction k with
  | zero => simp
  | succ k ih =>
      rw [List.range_succ, List.map_append, List.flatten_append, ih, List.map_singleton, List.flatten_singleton, piece,
        Nat.succ_mul, List.take_add]

/-- **All pieces in a row are the message.** -/
theorem flatten_pieces (m : Message) : ((List.range m.count).map m.piece).flatten = m.content := by
  rw [flatten_take, List.take_of_length_le m.length_le_count]

end Message

/-! ## A fragment at the receiver -/

variable (sha3) in
/-- A fragment is a header with its fields, and the payload. -/
theorem fragment_eq (messageId : UInt32) (highPriority : Bool) (fragmentIndex totalFragments : UInt16)
    (payload : List UInt8) :
    ∃ h : FragmentHeader, fragment sha3 messageId highPriority fragmentIndex totalFragments payload = h.toBytes ++ payload ∧
      h.messageId = messageId ∧ h.fragmentIndex = fragmentIndex ∧ h.totalFragments = totalFragments ∧
      h.checksum = checksumOf sha3 payload := by
  cases highPriority with
  | false => exact ⟨_, rfl, rfl, rfl, rfl, rfl⟩
  | true => exact ⟨_, rfl, rfl, rfl, rfl, rfl⟩

variable (sha3) in
/-- **A fragment is read back**: its header, and a checksum that is right. -/
theorem fromBytes_frag {m : Message} {i : Nat} (hi : i < m.count) (hle : m.count ≤ 600) :
    ∃ h : FragmentHeader, FragmentHeader.fromBytes (m.frag sha3 i) = .ok h ∧
      (m.frag sha3 i).drop fragmentHeaderSize = m.piece i ∧ h.verifyChecksum sha3 (m.piece i) = true ∧
      h.messageId = m.id ∧ h.fragmentIndex.toNat = i ∧ h.totalFragments.toNat = m.count := by
  obtain ⟨h, hbytes, hid, hindex, htotal, hchecksum⟩ :=
    fragment_eq sha3 m.id m.highPriority (.ofNat i) (.ofNat m.count) (m.piece i)
  have hi' : h.fragmentIndex.toNat = i := by rw [hindex, UInt16.toNat_ofNat', Nat.mod_eq_of_lt (by omega)]
  have hcount : h.totalFragments.toNat = m.count := by rw [htotal, UInt16.toNat_ofNat', Nat.mod_eq_of_lt (by omega)]
  have hvalid : h.Valid := by
    refine ⟨?_, ?_, ?_⟩
    · intro hzero
      rw [hzero] at hcount
      exact absurd hcount.symm (Nat.ne_of_gt m.count_pos)
    · rw [UInt16.le_iff_toNat_le, hcount]
      exact hle
    · rw [UInt16.lt_iff_toNat_lt, hi', hcount]
      exact hi
  have hfrag : m.frag sha3 i = h.toBytes ++ m.piece i := hbytes
  refine ⟨h, ?_, ?_, ?_, hid, hi', hcount⟩
  · rw [hfrag, FragmentHeader.fromBytes_toBytes hvalid]
  · rw [hfrag, List.drop_left' (FragmentHeader.length_toBytes h)]
  · rw [FragmentHeader.verifyChecksum, hchecksum, beq_self_eq_true]

/-- Fragments of messages with different ids, or of different indices, differ. -/
theorem frag_inj {m m' : Message} {i i' : Nat} (hi : i < m.count) (hle : m.count ≤ 600) (hi' : i' < m'.count)
    (hle' : m'.count ≤ 600) (h : m.frag sha3 i = m'.frag sha3 i') : m.id = m'.id ∧ i = i' := by
  obtain ⟨_, hread, -, -, hid, hindex, -⟩ := fromBytes_frag sha3 hi hle
  obtain ⟨_, hread', -, -, hid', hindex', -⟩ := fromBytes_frag sha3 hi' hle'
  rw [h, hread'] at hread
  cases hread
  exact ⟨hid.symm.trans hid', hindex.symm.trans hindex'⟩

/-! ## A session and the pieces it holds -/

/-- The session of a message holds these pieces. -/
structure Holds (m : Message) (held : Finset Nat) (st : ReassemblyState) : Prop where
  total : st.totalFragments.toNat = m.count
  fragments : ∀ k : UInt16, st.fragments.lookup k = if k.toNat ∈ held then some (m.piece k.toNat) else none

namespace Holds

variable {m : Message} {held : Finset Nat} {st : ReassemblyState}

/-- Whether an index is there. -/
theorem mem_iff (h : Holds m held st) (k : UInt16) : k ∈ st.fragments ↔ k.toNat ∈ held := by
  rw [← AList.lookup_isSome, h.fragments]
  split_ifs with hk <;> simp [hk]

/-- As many fragments as pieces. -/
theorem length_eq (h : Holds m held st) (hparts : held ⊆ Finset.range m.count) (hle : m.count ≤ 600) :
    st.fragments.entries.length = held.card := by
  have hnodup : (st.fragments.keys.map UInt16.toNat).Nodup :=
    st.fragments.keys_nodup.map fun _ _ => UInt16.toNat_inj.mp
  have hset : (st.fragments.keys.map UInt16.toNat).toFinset = held := by
    ext i
    rw [List.mem_toFinset, List.mem_map]
    constructor
    · rintro ⟨k, hk, rfl⟩
      exact (h.mem_iff k).mp (AList.mem_keys.mpr hk)
    · intro hi
      have hlt := Finset.mem_range.mp (hparts hi)
      have hk : (UInt16.ofNat i).toNat = i := by rw [UInt16.toNat_ofNat', Nat.mod_eq_of_lt (by omega)]
      exact ⟨.ofNat i, AList.mem_keys.mp ((h.mem_iff _).mpr (by rwa [hk])), hk⟩
  rw [← hset, List.toFinset_card_of_nodup hnodup, List.length_map]
  exact (List.length_map _).symm

/-- One piece more. -/
theorem insert (h : Holds m held st) (index : UInt16) :
    Holds m (insert index.toNat held)
      { st with fragments := st.fragments.insert index (m.piece index.toNat) } := by
  refine ⟨h.total, fun k => ?_⟩
  by_cases hk : k = index
  · subst hk
    rw [AList.lookup_insert, if_pos (Finset.mem_insert_self _ _)]
  · rw [AList.lookup_insert_ne hk, h.fragments]
    have hne : k.toNat ≠ index.toNat := fun heq => hk (UInt16.toNat_inj.mp heq)
    simp only [Finset.mem_insert, hne, false_or]

/-- Complete when all pieces are held. -/
theorem isComplete_iff (h : Holds m held st) (hparts : held ⊆ Finset.range m.count) (hle : m.count ≤ 600) :
    st.isComplete = true ↔ held = Finset.range m.count := by
  rw [ReassemblyState.isComplete, beq_iff_eq, h.length_eq hparts hle, h.total]
  constructor
  · intro hcard
    exact Finset.eq_of_subset_of_card_le hparts (by rw [Finset.card_range, hcard])
  · rintro rfl
    exact Finset.card_range _

/-- **A complete session assembles to the message.** -/
theorem assemble (h : Holds m (Finset.range m.count) st) (hle : m.count ≤ 600) : st.assemble = some m.content := by
  have hcomplete := (h.isComplete_iff (Finset.Subset.refl _) hle).mpr rfl
  have hpieces : (List.range m.count).mapM (fun i => st.fragments.lookup (.ofNat i)) =
      some ((List.range m.count).map m.piece) := by
    apply WarmLogic.Lib.mapM_eq_map
    intro i hi
    have hlt := List.mem_range.mp hi
    have hk : (UInt16.ofNat i).toNat = i := by rw [UInt16.toNat_ofNat', Nat.mod_eq_of_lt (by omega)]
    rw [h.fragments, hk, if_pos (Finset.mem_range.mpr hlt)]
  rw [ReassemblyState.assemble, hcomplete, h.total, Bool.not_true, if_neg Bool.false_ne_true, hpieces, Option.map_some,
    m.flatten_pieces]

end Holds

/-! ## One fragment -/

/-- **How a session follows a collector**: none while nothing is held, else one that holds the pieces. -/
structure Tracks (m : Message) (held : Finset Nat) (entry : Option ReassemblyState) : Prop where
  none : held = ∅ → entry = none
  some : held ≠ ∅ → ∃ st, entry = some st ∧ Holds m held st

/-- There is a session exactly if something is held. -/
theorem Tracks.eq_none_iff {m : Message} {held : Finset Nat} {entry : Option ReassemblyState} (h : Tracks m held entry) :
    entry = .none ↔ held = ∅ := by
  constructor
  · intro hentry
    by_contra hne
    obtain ⟨st, hst, -⟩ := h.some hne
    rw [hentry] at hst
    cases hst
  · exact h.none

/-- The pieces of a message. -/
def pieces (m : Message) : Finset Nat := Finset.range m.count

/-- What the call for a fragment returns. -/
def answerOf (m : Message) (done : Bool) : Answer := .ok (if done then some m.content else none)

section Store

variable {Addr : Type} [DecidableEq Addr] {m : Message} {held : Finset Nat} {b : ReassemblyBuffer Addr} {i : Nat}

/-- A session that is new, or the one of the table, holds what is tracked. -/
theorem Tracks.holds {entry : Option ReassemblyState} (h : Tracks m held entry) {total : UInt16}
    (htotal : total.toNat = m.count) (highPriority : Bool) (now : Nat) :
    Holds m held (entry.getD (.new total highPriority now)) := by
  by_cases hheld : held = ∅
  · rw [h.none hheld, hheld]
    refine ⟨htotal, fun k => ?_⟩
    rw [if_neg (Finset.notMem_empty _)]
    exact AList.lookup_empty _
  · obtain ⟨st, rfl, hst⟩ := h.some hheld
    exact hst

/-- **A session and its collector take a fragment alike.** -/
theorem storeFragment_collects (key : Addr × UInt32) {session : ReassemblyState} (hholds : Holds m held session)
    (hparts : held ⊂ pieces m) (hle : m.count ≤ 600) (hi : i < m.count) {header : FragmentHeader}
    (hindex : header.fragmentIndex.toNat = i) (htotal : header.totalFragments.toNat = m.count) :
    (b.storeFragment key session header (m.piece i)).2 = answerOf m (collect (pieces m) held i).2 ∧
      Tracks m (collect (pieces m) held i).1
        ((b.storeFragment key session header (m.piece i)).1.sessions.lookup key) := by
  have hsame : session.totalFragments = header.totalFragments :=
    UInt16.toNat_inj.mp (hholds.total.trans htotal.symm)
  have hmem : header.fragmentIndex ∈ session.fragments ↔ i ∈ held := by rw [hholds.mem_iff, hindex]
  unfold ReassemblyBuffer.storeFragment collect
  dsimp only
  rw [if_neg (not_not_intro hsame)]
  by_cases hheld : i ∈ held
  · rw [if_pos (hmem.mpr hheld), if_pos hheld]
    refine ⟨rfl, fun hempty => absurd hheld ?_, fun _ => ⟨session, ?_, hholds⟩⟩
    · rw [show held = ∅ from hempty]
      exact Finset.notMem_empty i
    · exact AList.lookup_insert _
  · rw [if_neg (mt hmem.mp hheld), if_neg hheld]
    have hnext := hholds.insert header.fragmentIndex
    rw [hindex] at hnext
    have hsub : insert i held ⊆ Finset.range m.count :=
      Finset.insert_subset (Finset.mem_range.mpr hi) hparts.subset
    have hcomplete := hnext.isComplete_iff hsub hle
    by_cases hdone : insert i held = pieces m
    · rw [if_pos (hcomplete.mpr hdone), if_pos hdone]
      rw [show insert i held = Finset.range m.count from hdone] at hnext
      refine ⟨?_, fun _ => AList.lookup_erase _ _, fun hne => absurd rfl hne⟩
      exact congrArg Except.ok (hnext.assemble hle)
    · rw [if_neg (mt hcomplete.mp hdone), if_neg hdone]
      refine ⟨rfl, fun hempty => absurd hempty (Finset.insert_ne_empty i held), fun _ => ⟨_, ?_, hnext⟩⟩
      exact AList.lookup_insert _

end Store

/-! ## The sessions of a source -/

section Source

variable {Addr : Type} [DecidableEq Addr]

/-- **The invariant of a source**: for each of its messages the table holds the pieces that came since it was last
complete, never all of them, and it has no other sessions. -/
structure Follows (ms : List Message) (source : Addr) (b : ReassemblyBuffer Addr) (held : Message → Finset Nat) :
    Prop where
  tracks : ∀ m ∈ ms, Tracks m (held m) (b.sessions.lookup (source, m.id))
  parts : ∀ m ∈ ms, held m ⊂ pieces m
  others : ∀ id, (∀ m ∈ ms, m.id ≠ id) → b.sessions.lookup (source, id) = none

variable {ms : List Message} {source : Addr} {b b' : ReassemblyBuffer Addr} {held : Message → Finset Nat}

/-- Only the sessions of the source count. -/
theorem Follows.congr (h : Follows ms source b held)
    (hsame : ∀ id, b'.sessions.lookup (source, id) = b.sessions.lookup (source, id)) : Follows ms source b' held := by
  refine ⟨fun m hm => ?_, h.parts, fun id hid => ?_⟩
  · rw [hsame]
    exact h.tracks m hm
  · rw [hsame]
    exact h.others id hid

/-- Before anything came. -/
theorem follows_nil (hnone : ∀ id, b.sessions.lookup (source, id) = none) : Follows ms source b fun _ => ∅ where
  tracks m _ := ⟨fun _ => hnone m.id, fun hne => absurd rfl hne⟩
  parts m _ := Finset.empty_ssubset.mpr ⟨0, Finset.mem_range.mpr m.count_pos⟩
  others id _ := hnone id

/-- **The limit is never met**: without a session for one of ten messages there are at most nine. -/
theorem Follows.peerSessions_lt (h : Follows ms source b held) (hfew : ms.length ≤ 10) {m : Message} (hm : m ∈ ms)
    (hnew : (source, m.id) ∉ b.sessions) : b.peerSessions source < maxReassemblySessionsPerPeer := by
  have hnodup : ((b.sessions.keys.filter fun key => key.1 = source).map Prod.snd).Nodup := by
    apply (b.sessions.keys_nodup.filter _).map_on
    intro x hx y hy hxy
    exact Prod.ext ((of_decide_eq_true (List.mem_filter.mp hx).2).trans
      (of_decide_eq_true (List.mem_filter.mp hy).2).symm) hxy
  have hsub : (b.sessions.keys.filter fun key => key.1 = source).map Prod.snd ⊆ (ms.map (·.id)).erase m.id := by
    intro id hid
    obtain ⟨⟨source', id'⟩, hkey, rfl⟩ := List.mem_map.mp hid
    obtain ⟨hmem, hsource⟩ := List.mem_filter.mp hkey
    have hsource : source' = source := of_decide_eq_true hsource
    subst hsource
    have hkey : (source', id') ∈ b.sessions := AList.mem_keys.mpr hmem
    have hne : id' ≠ m.id := fun heq => hnew (heq ▸ hkey)
    rw [List.mem_erase_of_ne hne]
    by_contra hid'
    have hnone := h.others id' fun m' hm' heq => hid' (List.mem_map.mpr ⟨m', hm', heq⟩)
    exact AList.lookup_eq_none.mp hnone hkey
  have hlen := (hnodup.subperm hsub).length_le
  rw [List.length_map, List.length_erase_of_mem (List.mem_map_of_mem hm), List.length_map] at hlen
  have hpos : 0 < ms.length := List.length_pos_of_mem hm
  unfold ReassemblyBuffer.peerSessions maxReassemblySessionsPerPeer
  omega

variable (sha3) in
/-- **One fragment from the source.** -/
theorem Follows.processFragment (h : Follows ms source b held) (hfew : ms.length ≤ 10)
    (hids : ∀ m ∈ ms, ∀ m' ∈ ms, m.id = m'.id → m = m') (hle : ∀ m ∈ ms, m.count ≤ 600) {m : Message} (hm : m ∈ ms)
    {i : Nat} (hi : i < m.count) {now : Nat} (hexp : b.Unexpired source now) :
    (b.processFragment sha3 now source (m.frag sha3 i)).2 = answerOf m (collect (pieces m) (held m) i).2 ∧
      Follows ms source (b.processFragment sha3 now source (m.frag sha3 i)).1
        (Function.update held m (collect (pieces m) (held m) i).1) := by
  obtain ⟨header, hread, hpayload, hchecksum, hid, hindex, htotal⟩ := fromBytes_frag sha3 hi (hle m hm)
  unfold ReassemblyBuffer.processFragment
  rw [hread]
  dsimp only
  rw [hpayload, hchecksum, Bool.not_true, if_neg Bool.false_ne_true, hid]
  generalize hclean : ReassemblyBuffer.cleanupExpiredSessions _ now = cleaned
  have hfollows : Follows ms source cleaned held := by
    refine h.congr fun id => ?_
    rw [← hclean]
    exact ReassemblyBuffer.lookup_cleanup (b := { b with stats := _ }) hexp id
  have hroom : ¬ (maxReassemblySessionsPerPeer ≤ cleaned.peerSessions source ∧ (source, m.id) ∉ cleaned.sessions) :=
    fun hfull => absurd hfull.1 (Nat.not_le.mpr (hfollows.peerSessions_lt hfew hm hfull.2))
  rw [if_neg hroom]
  have hholds := (hfollows.tracks m hm).holds htotal header.isHighPriority now
  obtain ⟨hanswer, htracks⟩ := storeFragment_collects (b := cleaned) (source, m.id) hholds (h.parts m hm)
    (hle m hm) hi hindex htotal
  refine ⟨hanswer, ?_, ?_, ?_⟩
  · intro m' hm'
    by_cases hsame : m' = m
    · rw [hsame, Function.update_self]
      exact htracks
    · rw [Function.update_of_ne hsame, ReassemblyBuffer.storeFragment_lookup_ne]
      · exact hfollows.tracks m' hm'
      · exact fun hkey => hsame (hids m' hm' m hm (congrArg Prod.snd hkey))
  · intro m' hm'
    by_cases hsame : m' = m
    · rw [hsame, Function.update_self]
      exact collect_ssubset (h.parts m hm) (Finset.mem_range.mpr hi)
    · rw [Function.update_of_ne hsame]
      exact h.parts m' hm'
  · intro id hid'
    rw [ReassemblyBuffer.storeFragment_lookup_ne]
    · exact hfollows.others id hid'
    · exact fun hkey => hid' m hm (congrArg Prod.snd hkey).symm

/-- **A run of the table answers what the collectors do.** -/
theorem receiveAll_follows (hfew : ms.length ≤ 10) (hids : ∀ m ∈ ms, ∀ m' ∈ ms, m.id = m'.id → m = m')
    (hle : ∀ m ∈ ms, m.count ≤ 600) {calls : List (Datagram Addr)} (h : Follows ms source b held)
    (hexp : NoExpiry sha3 source b calls) {events : List (Message × Nat)}
    (hevents : ∀ e ∈ events, e.1 ∈ ms ∧ e.2 < e.1.count)
    (harrive : arrivals source calls = events.map fun e => e.1.frag sha3 e.2) :
    Follows ms source (receiveAll sha3 b calls).1 (collectMany pieces held events).1 ∧
      answersTo source (receiveAll sha3 b calls).2 =
        (collectMany pieces held events).2.map fun e => (e.1.1.frag sha3 e.1.2, answerOf e.1.1 e.2) := by
  induction calls generalizing b held events with
  | nil =>
      cases events with
      | nil => exact ⟨h, rfl⟩
      | cons e events => cases harrive
  | cons d calls ih =>
      obtain ⟨hnow, hlater⟩ := hexp
      unfold arrivals at ih harrive
      unfold answersTo at ih ⊢
      by_cases hsource : d.source = source
      · subst hsource
        rw [List.filter_cons, if_pos (decide_eq_true rfl), List.map_cons] at harrive
        cases events with
        | nil => cases harrive
        | cons e events =>
            obtain ⟨hdata, hrest⟩ := List.cons.inj harrive
            replace hdata : d.data = e.1.frag sha3 e.2 := hdata
            obtain ⟨⟨hm, hi⟩, hevents⟩ := List.forall_mem_cons.mp hevents
            obtain ⟨hanswer, hfollows⟩ := h.processFragment sha3 hfew hids hle hm hi hnow
            rw [← hdata] at hanswer hfollows
            obtain ⟨hend, hanswers⟩ := ih hfollows hlater hevents hrest
            refine ⟨hend, ?_⟩
            simp only [receiveAll, collectMany, List.filter_cons, decide_true, if_true, List.map_cons]
            rw [hanswers, hanswer, hdata]
      · rw [List.filter_cons, if_neg (by simpa using hsource)] at harrive
        have hsame : Follows ms source (b.processFragment sha3 d.now d.source d.data).1 held :=
          h.congr (ReassemblyBuffer.processFragment_foreign (Ne.symm hsource) hnow d.data)
        obtain ⟨hfollows, hanswers⟩ := ih hsame hlater hevents harrive
        refine ⟨hfollows, ?_⟩
        simp only [receiveAll, List.filter_cons, decide_eq_true_eq, if_neg hsource]
        exact hanswers

/-! ## Deliveries -/

/-- Datagrams of a source that are all fragments are events of the collectors. -/
theorem exists_events {l : List (List UInt8)} (h : ∀ data ∈ l, ∃ m ∈ ms, ∃ i < m.count, data = m.frag sha3 i) :
    ∃ events : List (Message × Nat), (∀ e ∈ events, e.1 ∈ ms ∧ e.2 < e.1.count) ∧
      l = events.map fun e => e.1.frag sha3 e.2 := by
  induction l with
  | nil => exact ⟨[], fun _ he => absurd he List.not_mem_nil, rfl⟩
  | cons data l ih =>
      obtain ⟨⟨m, hm, i, hi, rfl⟩, hl⟩ := List.forall_mem_cons.mp h
      obtain ⟨events, hevents, rfl⟩ := ih hl
      exact ⟨(m, i) :: events, List.forall_mem_cons.mpr ⟨⟨hm, hi⟩, hevents⟩, rfl⟩

/-- The content comes as often as the message is complete. -/
theorem delivered_map (m : Message) (l : List ((Message × Nat) × Bool)) (hl : ∀ e ∈ l, e.1.1 = m) :
    delivered (l.map fun e => (e.1.1.frag sha3 e.1.2, answerOf e.1.1 e.2)) =
      List.replicate ((l.map (·.2)).count true) m.content := by
  induction l with
  | nil => rfl
  | cons e l ih =>
      obtain ⟨he, hl⟩ := List.forall_mem_cons.mp hl
      have hrest := ih hl
      unfold delivered at hrest ⊢
      rw [List.map_cons, List.map_cons, List.filterMap_cons, hrest, he]
      cases e.2 with
      | false => rfl
      | true =>
          rw [List.count_cons_self, List.replicate_succ]
          rfl

/-- The answers to the fragments of one message, in a run. -/
theorem delivered_of_message {frags : Message → List (List UInt8)} (hfrags : ∀ m ∈ ms, m.Fragments sha3 (frags m))
    (hids : ∀ m ∈ ms, ∀ m' ∈ ms, m.id = m'.id → m = m') {events : List (Message × Nat)}
    (hevents : ∀ e ∈ events, e.1 ∈ ms ∧ e.2 < e.1.count) {m : Message} (hm : m ∈ ms) :
    delivered (((collectMany pieces held events).2.map fun e =>
        (e.1.1.frag sha3 e.1.2, answerOf e.1.1 e.2)).filter fun p => p.1 ∈ frags m) =
      List.replicate ((collectAll (pieces m) (held m) (ofKey m events)).2.count true) m.content := by
  have hfilter : ∀ e ∈ (collectMany pieces held events).2,
      decide (e.1.1.frag sha3 e.1.2 ∈ frags m) = decide (e.1.1 = m) := by
    intro e he
    have hmem : e.1 ∈ events := by
      rw [← collectMany_events pieces held events]
      exact List.mem_map_of_mem he
    obtain ⟨hem, hei⟩ := hevents e.1 hmem
    rw [decide_eq_decide, (hfrags m hm).mem_iff]
    constructor
    · rintro ⟨i, hi, heq⟩
      exact hids _ hem _ hm (frag_inj hei (hfrags _ hem).count_le hi (hfrags _ hm).count_le heq).1
    · rintro rfl
      exact ⟨e.1.2, hei, rfl⟩
  rw [List.filter_map, collectMany_proj]
  have hsame : ((collectMany pieces held events).2.filter
      ((fun p : List UInt8 × Answer => decide (p.1 ∈ frags m)) ∘
        fun e => (e.1.1.frag sha3 e.1.2, answerOf e.1.1 e.2))) =
      (collectMany pieces held events).2.filter fun e => e.1.1 = m := List.filter_congr hfilter
  rw [hsame, delivered_map m]
  intro e he
  exact of_decide_eq_true (List.mem_filter.mp he).2

/-- In a run over messages none of which is held in part at the end, no session is left. -/
theorem Follows.none_of_empty (h : Follows ms source b held) (hempty : ∀ m ∈ ms, held m = ∅) (id : UInt32) :
    b.sessions.lookup (source, id) = none := by
  by_cases hid : ∃ m ∈ ms, m.id = id
  · obtain ⟨m, hm, rfl⟩ := hid
    exact (h.tracks m hm).none (hempty m hm)
  · exact h.others id fun m hm heq => hid ⟨m, hm, heq⟩

/-- The indices that come of one message. -/
theorem mem_ofKey {events : List (Message × Nat)} {m : Message} {i : Nat} : i ∈ ofKey m events ↔ (m, i) ∈ events := by
  unfold ofKey
  rw [List.mem_map]
  constructor
  · rintro ⟨⟨m', i'⟩, he, rfl⟩
    obtain ⟨hmem, hkey⟩ := List.mem_filter.mp he
    rw [← show m' = m from of_decide_eq_true hkey]
    exact hmem
  · intro he
    exact ⟨(m, i), List.mem_filter.mpr ⟨he, decide_eq_true rfl⟩, rfl⟩

end Source

/-! ## Every fragment once, in any order -/

section AnyOrder

variable {Addr : Type} [DecidableEq Addr] {ms : List Message} {source : Addr} {b : ReassemblyBuffer Addr}

/-- A message has a piece. -/
theorem pieces_nonempty (m : Message) : (pieces m).Nonempty := ⟨0, Finset.mem_range.mpr m.count_pos⟩

/-- No two fragments of messages with distinct ids are the same. -/
theorem nodup_frags (hids : (ms.map (·.id)).Nodup) {frags : Message → List (List UInt8)}
    (hfrags : ∀ m ∈ ms, m.Fragments sha3 (frags m)) : (ms.flatMap frags).Nodup := by
  rw [List.nodup_flatMap]
  constructor
  · intro m hm
    rw [(hfrags m hm).eq]
    apply List.nodup_range.map_on
    intro i hi i' hi' heq
    exact (frag_inj (List.mem_range.mp hi) (hfrags m hm).count_le (List.mem_range.mp hi') (hfrags m hm).count_le heq).2
  · apply (List.Nodup.of_map _ hids).pairwise_of_forall_ne
    intro m hm m' hm' hne data hdata hdata'
    obtain ⟨i, hi, rfl⟩ := (hfrags m hm).mem_iff.mp hdata
    obtain ⟨i', hi', heq⟩ := (hfrags m' hm').mem_iff.mp hdata'
    exact hne (List.inj_on_of_nodup_map hids hm hm'
      (frag_inj hi (hfrags m hm).count_le hi' (hfrags m' hm').count_le heq).1)

/-- Distinct fragments of one message have distinct indices. -/
theorem nodup_ofKey {events : List (Message × Nat)} {m : Message} (h : events.Nodup) : (ofKey m events).Nodup := by
  apply (h.filter _).map_on
  intro e he e' he' heq
  exact Prod.ext ((of_decide_eq_true (List.mem_filter.mp he).2).trans
    (of_decide_eq_true (List.mem_filter.mp he').2).symm) heq

/-- The last of a sequence without copies has not come before. -/
theorem exists_last {l : List Nat} (hnodup : l.Nodup) (hne : l ≠ []) : ∃ pre last, l = pre ++ [last] ∧ last ∉ pre := by
  obtain ⟨pre, last, rfl⟩ := (List.eq_nil_or_concat l).resolve_left hne
  rw [List.concat_eq_append] at hnodup ⊢
  exact ⟨pre, last, rfl, fun hmem => (List.nodup_append.mp hnodup).2.2 last hmem last List.mem_cons_self rfl⟩

variable (sha3) in
/-- Where all the fragments of a message come, the indices that come are those of its pieces. -/
theorem mem_ofKey_iff (hinj : ∀ m ∈ ms, ∀ m' ∈ ms, m.id = m'.id → m = m') (hle : ∀ m ∈ ms, m.count ≤ 600)
    {events : List (Message × Nat)} (hevents : ∀ e ∈ events, e.1 ∈ ms ∧ e.2 < e.1.count) {m : Message} (hm : m ∈ ms)
    (hall : ∀ i < m.count, m.frag sha3 i ∈ events.map fun e => e.1.frag sha3 e.2) (i : Nat) :
    i ∈ ofKey m events ↔ i ∈ pieces m := by
  rw [mem_ofKey, pieces, Finset.mem_range]
  refine ⟨fun hmem => (hevents _ hmem).2, fun hi => ?_⟩
  obtain ⟨e, he, heq⟩ := List.mem_map.mp (hall i hi)
  obtain ⟨hem, hei⟩ := hevents e he
  obtain ⟨hid, hindex⟩ := frag_inj hei (hle _ hem) hi (hle m hm) heq
  rw [← hinj _ hem m hm hid, ← hindex]
  exact he

/-- **Fragments in any order, from anyone.** Let at most ten messages with distinct ids be fragmented, and let the datagrams
of a source be all their fragments, each once and in any order, among any datagrams of other sources, with no session of
the source becoming too old. Then each message is returned exactly once among the answers to its fragments, byte for byte,
no call of the source fails, no session of it is left, and its answers are those it gets without the other sources. -/
theorem reassembly_any_order (hfew : ms.length ≤ 10) (hids : (ms.map (·.id)).Nodup)
    {frags : Message → List (List UInt8)} (hfrags : ∀ m ∈ ms, m.Fragments sha3 (frags m))
    (hnone : ∀ id, b.sessions.lookup (source, id) = none) {calls : List (Datagram Addr)}
    (hexp : NoExpiry sha3 source b calls) (hperm : (arrivals source calls).Perm (ms.flatMap frags)) :
    (∀ m ∈ ms, delivered ((answersTo source (receiveAll sha3 b calls).2).filter fun p => p.1 ∈ frags m) = [m.content]) ∧
      (∀ p ∈ answersTo source (receiveAll sha3 b calls).2, ∃ message, p.2 = .ok message) ∧
      (∀ id, (receiveAll sha3 b calls).1.sessions.lookup (source, id) = none) ∧
      answersTo source (receiveAll sha3 b calls).2 =
        answersTo source (receiveAll sha3 b (calls.filter fun d => d.source = source)).2 := by
  have hinj : ∀ m ∈ ms, ∀ m' ∈ ms, m.id = m'.id → m = m' := fun m hm m' hm' h =>
    List.inj_on_of_nodup_map hids hm hm' h
  have hle : ∀ m ∈ ms, m.count ≤ 600 := fun m hm => (hfrags m hm).count_le
  have hcome : ∀ data ∈ arrivals source calls, ∃ m ∈ ms, ∃ i < m.count, data = m.frag sha3 i := by
    intro data hdata
    obtain ⟨m, hm, hmem⟩ := List.mem_flatMap.mp (hperm.mem_iff.mp hdata)
    exact ⟨m, hm, (hfrags m hm).mem_iff.mp hmem⟩
  obtain ⟨events, hevents, harrive⟩ := exists_events hcome
  obtain ⟨hfollows, hanswers⟩ := receiveAll_follows hfew hinj hle (follows_nil hnone) hexp hevents harrive
  -- each piece of each message once
  have hnodup : events.Nodup := by
    refine List.Nodup.of_map (fun e => e.1.frag sha3 e.2) ?_
    rw [← harrive, hperm.nodup_iff]
    exact nodup_frags hids hfrags
  have honce : ∀ m ∈ ms, (collectAll (pieces m) ∅ (ofKey m events)).2.count true = 1 ∧
      (collectAll (pieces m) ∅ (ofKey m events)).1 = ∅ := by
    intro m hm
    have hcover : ∀ i, i ∈ ofKey m events ↔ i ∈ pieces m := by
      refine mem_ofKey_iff sha3 hinj hle hevents hm fun i hi => ?_
      rw [← harrive]
      exact hperm.mem_iff.mpr (List.mem_flatMap.mpr ⟨m, hm, (hfrags m hm).mem_iff.mpr ⟨i, hi, rfl⟩⟩)
    obtain ⟨i, hi⟩ := pieces_nonempty m
    exact (once_iff ⟨i, hi⟩ hcover).mpr (exists_last (nodup_ofKey hnodup) (List.ne_nil_of_mem ((hcover i).mpr hi)))
  refine ⟨?_, ?_, ?_, answersTo_filter (.refl source b) hexp⟩
  · intro m hm
    rw [hanswers, delivered_of_message hfrags hinj hevents hm, (honce m hm).1]
    rfl
  · intro p hp
    rw [hanswers] at hp
    obtain ⟨e, -, rfl⟩ := List.mem_map.mp hp
    exact ⟨_, rfl⟩
  · refine hfollows.none_of_empty fun m hm => ?_
    have hproj := congrArg Prod.fst (collectMany_proj pieces (fun _ => ∅) events m)
    exact hproj.symm.trans (honce m hm).2

/-- Within the first timeout of the clock nothing is too old. -/
theorem noExpiry_of_le {calls : List (Datagram Addr)} (h : ∀ d ∈ calls, d.now ≤ b.timeout) :
    NoExpiry sha3 source b calls := by
  induction calls generalizing b with
  | nil => trivial
  | cons d calls ih =>
      obtain ⟨hd, hcalls⟩ := List.forall_mem_cons.mp h
      refine ⟨fun id st _ => ?_, ih ?_⟩
      · unfold ReassemblyState.isExpired
        rw [decide_eq_false_iff_not]
        omega
      · rwa [ReassemblyBuffer.processFragment_timeout]

/-- A hash function of the examples. -/
def zeroHash (_ : List UInt8) : Vector UInt8 32 := Vector.replicate 32 0

/-- A message of one fragment. -/
def greeting : Message := ⟨1, [104, 105], false⟩

/-- A message that does not fit into one fragment. -/
def letter : Message := ⟨2, List.replicate 7169 7, true⟩

/-- Its length. -/
theorem length_letter : letter.content.length = 7169 := List.length_replicate

/-- Two fragments. -/
theorem count_letter : letter.count = 2 := by
  rw [Message.count, length_letter]
  decide

/-- It is accepted. -/
theorem fragments_letter :
    letter.Fragments zeroHash [letter.frag zeroHash 0, letter.frag zeroHash 1] := by
  have hfrags : letter.Fragments zeroHash ((List.range letter.count).map (letter.frag zeroHash)) :=
    Message.fragments_of_length_le (by rw [length_letter]; decide)
  rwa [count_letter] at hfrags

/-- So is this one. -/
theorem fragments_greeting : greeting.Fragments zeroHash [greeting.frag zeroHash 0] :=
  Message.fragments_small (by decide)

/-- The calls, with those of source 2 among them. -/
def mixedCalls : List (Datagram Nat) :=
  [⟨0, 1, letter.frag zeroHash 1⟩, ⟨1, 2, greeting.frag zeroHash 0⟩, ⟨2, 1, greeting.frag zeroHash 0⟩, ⟨2, 2, [9]⟩,
    ⟨3, 1, letter.frag zeroHash 0⟩]

/-- The fragments of the two messages. -/
def fragsOf (m : Message) : List (List UInt8) := (List.range m.count).map (m.frag zeroHash)

/-- The one of the greeting. -/
theorem fragsOf_greeting : fragsOf greeting = [greeting.frag zeroHash 0] := rfl

/-- The two of the letter. -/
theorem fragsOf_letter : fragsOf letter = [letter.frag zeroHash 0, letter.frag zeroHash 1] := by
  rw [fragsOf, count_letter]
  rfl

/-- Two messages from source 1, the second fragment of the long one before its first and the other message between them,
with datagrams of source 2 among them. -/
theorem reassembly_any_order_two_messages :
    (∀ m ∈ [greeting, letter], delivered ((answersTo 1 (receiveAll zeroHash .new mixedCalls).2).filter fun p =>
        p.1 ∈ fragsOf m) = [m.content]) ∧
      (∀ p ∈ answersTo 1 (receiveAll zeroHash .new mixedCalls).2, ∃ message, p.2 = .ok message) ∧
      (∀ id, (receiveAll zeroHash .new mixedCalls).1.sessions.lookup (1, id) = none) ∧
      answersTo 1 (receiveAll zeroHash .new mixedCalls).2 =
        answersTo 1 (receiveAll zeroHash .new (mixedCalls.filter fun d => d.source = 1)).2 := by
  have hfrags : ∀ m ∈ [greeting, letter], m.Fragments zeroHash (fragsOf m) := by
    intro m hm
    rcases List.mem_cons.mp hm with rfl | hm
    · exact fragsOf_greeting ▸ fragments_greeting
    · obtain rfl := List.mem_singleton.mp hm
      exact fragsOf_letter ▸ fragments_letter
  have hperm : (arrivals 1 mixedCalls).Perm ([greeting, letter].flatMap fragsOf) := by
    rw [List.flatMap_cons, List.flatMap_cons, List.flatMap_nil, fragsOf_greeting, fragsOf_letter]
    exact (List.perm_append_comm : ([letter.frag zeroHash 1] ++
      [greeting.frag zeroHash 0, letter.frag zeroHash 0]).Perm _)
  exact reassembly_any_order (by decide) (by decide) hfrags (fun _ => rfl) (noExpiry_of_le (by decide)) hperm

end AnyOrder

/-! ## Copies -/

section Copies

variable {Addr : Type} [DecidableEq Addr] {source : Addr} {b : ReassemblyBuffer Addr}

/-- The datagrams of fragments of one message, by their indices. -/
theorem map_frag_ofKey {m : Message} {events : List (Message × Nat)} (hkey : ∀ e ∈ events, e.1 = m) :
    (events.map fun e => e.1.frag sha3 e.2) = (ofKey m events).map (m.frag sha3) := by
  rw [ofKey, List.filter_eq_self.mpr fun e he => decide_eq_true (hkey e he), List.map_map]
  exact List.map_congr_left fun e he => by rw [hkey e he]; rfl

/-- A repetition is one element if it is one long. -/
theorem replicate_eq_singleton_iff {α : Type} {n : Nat} {a : α} : List.replicate n a = [a] ↔ n = 1 := by
  rw [← List.replicate_one, List.replicate_inj]
  exact and_iff_left (.inr rfl)

/-- **When copies do no harm.** Let the datagrams of a source be the fragments of one message, each at least once, in any
order and with any copies, and no session of the source become too old. Then the message is returned exactly once and no
session for it is left if and only if the last datagram of the source is the first copy of its fragment: with the last
fragment the session is gone, and what comes after it finds nothing that would tell it for a copy. -/
theorem reassembled_once_iff {m : Message} {frags : List (List UInt8)} (hfrags : m.Fragments sha3 frags)
    (hnone : ∀ id, b.sessions.lookup (source, id) = none) {calls : List (Datagram Addr)}
    (hexp : NoExpiry sha3 source b calls) (hall : ∀ data, data ∈ arrivals source calls ↔ data ∈ frags) :
    (delivered (answersTo source (receiveAll sha3 b calls).2) = [m.content] ∧
        (receiveAll sha3 b calls).1.sessions.lookup (source, m.id) = none) ↔
      ∃ pre last, arrivals source calls = pre ++ [last] ∧ last ∉ pre := by
  have hle := hfrags.count_le
  have hinj : ∀ m₁ ∈ [m], ∀ m₂ ∈ [m], m₁.id = m₂.id → m₁ = m₂ := by
    intro m₁ hm₁ m₂ hm₂ _
    rw [List.mem_singleton.mp hm₁, List.mem_singleton.mp hm₂]
  have hcome : ∀ data ∈ arrivals source calls, ∃ m' ∈ [m], ∃ i < m'.count, data = m'.frag sha3 i := by
    intro data hdata
    exact ⟨m, List.mem_cons_self, hfrags.mem_iff.mp ((hall data).mp hdata)⟩
  obtain ⟨events, hevents, harrive⟩ := exists_events hcome
  have hkey : ∀ e ∈ events, e.1 = m := fun e he => List.mem_singleton.mp (hevents e he).1
  obtain ⟨hfollows, hanswers⟩ := receiveAll_follows (show [m].length ≤ 10 by simp) hinj (by simpa using hle)
    (follows_nil hnone) hexp hevents harrive
  have hproj := collectMany_proj pieces (fun _ => ∅) events m
  -- all events are of the one message
  have hsteps : ∀ e ∈ (collectMany pieces (fun _ => ∅) events).2, e.1.1 = m := by
    intro e he
    apply hkey
    rw [← collectMany_events pieces (fun _ => ∅) events]
    exact List.mem_map_of_mem he
  have hindices : arrivals source calls = (ofKey m events).map (m.frag sha3) := harrive.trans (map_frag_ofKey hkey)
  have hbound : ∀ i ∈ ofKey m events, i < m.count := fun i hi => (hevents _ (mem_ofKey.mp hi)).2
  have hcover : ∀ i, i ∈ ofKey m events ↔ i ∈ pieces m := by
    refine mem_ofKey_iff sha3 hinj (by simpa using hle) hevents List.mem_cons_self fun i hi => ?_
    rw [← harrive]
    exact (hall _).mpr (hfrags.mem_iff.mpr ⟨i, hi, rfl⟩)
  have hcount : ((collectMany pieces (fun _ => ∅) events).2.map (·.2)).count true =
      (collectAll (pieces m) ∅ (ofKey m events)).2.count true := by
    rw [hproj, List.filter_eq_self.mpr fun e he => decide_eq_true (hsteps e he)]
  have hheld : (collectMany pieces (fun _ => ∅) events).1 m = (collectAll (pieces m) ∅ (ofKey m events)).1 :=
    (congrArg Prod.fst hproj).symm
  have hgone := (hfollows.tracks m List.mem_cons_self).eq_none_iff
  rw [hheld] at hgone
  rw [hanswers, delivered_map m _ hsteps, hcount, replicate_eq_singleton_iff, hgone,
    once_iff (pieces_nonempty m) hcover, hindices]
  exact (exists_last_map_iff fun i hi i' hi' heq => (frag_inj (hbound i hi) hle (hbound i' hi') hle heq).2).symm

/-- The first fragment of two comes twice, then the second. -/
def copiedCalls : List (Datagram Nat) :=
  [⟨0, 1, letter.frag zeroHash 0⟩, ⟨1, 1, letter.frag zeroHash 0⟩, ⟨2, 1, letter.frag zeroHash 1⟩]

/-- A copy that comes before the message is complete is dropped, and the message is returned once. -/
theorem reassembled_once_iff_copy_before :
    delivered (answersTo 1 (receiveAll zeroHash .new copiedCalls).2) = [letter.content] ∧
      (receiveAll zeroHash .new copiedCalls).1.sessions.lookup (1, letter.id) = none := by
  have harrive : arrivals 1 copiedCalls =
      [letter.frag zeroHash 0, letter.frag zeroHash 0] ++ [letter.frag zeroHash 1] := rfl
  have hall : ∀ data, data ∈ arrivals 1 copiedCalls ↔ data ∈ [letter.frag zeroHash 0, letter.frag zeroHash 1] := by
    intro data
    rw [harrive]
    simp
  have hapart : letter.frag zeroHash 1 ∉ [letter.frag zeroHash 0, letter.frag zeroHash 0] := by
    intro hmem
    have heq : letter.frag zeroHash 1 = letter.frag zeroHash 0 := by simpa using hmem
    have hindex := (frag_inj (by rw [count_letter]; decide) (by rw [count_letter]; decide) (by rw [count_letter]; decide)
      (by rw [count_letter]; decide) heq).2
    exact absurd hindex (by decide)
  exact (reassembled_once_iff fragments_letter (fun _ => rfl) (noExpiry_of_le (by decide)) hall).mpr
    ⟨_, _, harrive, hapart⟩

/-- A message of one fragment, which comes twice. -/
def greetingCalls : List (Datagram Nat) := List.replicate 2 ⟨0, 1, greeting.frag zeroHash 0⟩

/-- **A copy is delivered again.** A message of one fragment that comes twice is returned twice. -/
theorem copy_delivered_again :
    ¬ ∀ (m : Message) (frags : List (List UInt8)) (b : ReassemblyBuffer Nat) (calls : List (Datagram Nat)),
      m.Fragments zeroHash frags → (∀ id, b.sessions.lookup (1, id) = none) → NoExpiry zeroHash 1 b calls →
      (∀ data, data ∈ arrivals 1 calls ↔ data ∈ frags) →
      delivered (answersTo 1 (receiveAll zeroHash b calls).2) = [m.content] ∧
        (receiveAll zeroHash b calls).1.sessions.lookup (1, m.id) = none := by
  intro h
  have hall : ∀ data, data ∈ arrivals 1 greetingCalls ↔ data ∈ [greeting.frag zeroHash 0] := by
    intro data
    show data ∈ [greeting.frag zeroHash 0, greeting.frag zeroHash 0] ↔ _
    simp
  obtain ⟨honce, -⟩ := h greeting _ .new greetingCalls fragments_greeting (fun _ => rfl)
    (noExpiry_of_le (by decide)) hall
  have htwice : delivered (answersTo 1 (receiveAll zeroHash .new greetingCalls).2) =
      [greeting.content, greeting.content] := by
    decide +kernel
  rw [htwice] at honce
  exact absurd honce (by decide)

end Copies

end WarmLogic.Net.Fragmentation
