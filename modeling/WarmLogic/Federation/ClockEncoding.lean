/-
# WarmLogic.Federation.ClockEncoding — a vector clock as bytes, and back.

`to_bytes` writes the number of entries as a `u32`, then each entry: the length of the region id as a `u16`, the id, the
counter. `from_bytes` reads by offsets into the slice, each read behind a check of its own; a read past the end would be
a panic, which is `none` here. It is the reader `readEntries` of what is left of the input (`fromBytesLoop_eq`), and
never panics. Since the number of entries is cut to 32 bits, the two are inverse up to 2^32 - 1 entries and not beyond
(`clock_bytes_round_trip_iff`).

The proof goes by way of `readEntries`, which reads from the front and has no offsets: it reads back an entry that was
written (`readEntries_entry`), so all of them in any order of the map (`readEntries_order`), and fails on a part of
them (`readEntries_cut`). An order of the map has each region once, so setting the entries gives the clock, whatever
the order.
-/
import WarmLogic.Federation.ClockAlgebra
import WarmLogic.Ledger.ReplicatedLedger
import Mathlib.Data.Fintype.BigOperators

namespace WarmLogic.Federation

open WarmLogic.Lib
open WarmLogic.Ledger (utf8 leadingSequence)

/-! ## `String::from_utf8` -/

/-- The text of its error: where the first malformed sequence is, and whether the input just ends in it. The fuel is the
number of bytes. -/
def utf8ErrorText : Nat → Nat → List UInt8 → String
  | 0, _, _ => ""
  | _, _, [] => ""
  | fuel + 1, index, b :: bs =>
      let (ok, len) := leadingSequence (b :: bs)
      if ok then utf8ErrorText fuel (index + len) ((b :: bs).drop len)
      else if len = (b :: bs).length ∧ 0xC2 ≤ b ∧ b ≤ 0xF4 then
        "incomplete utf-8 byte sequence from index " ++ toString index
      else "invalid utf-8 sequence of " ++ toString len ++ " bytes from index " ++ toString index

/-- `String::from_utf8`: the text, or the text of the error. -/
def fromUtf8 (bytes : List UInt8) : Except String String :=
  match String.fromUTF8? ⟨bytes.toArray⟩ with
  | some s => .ok s
  | none => .error (utf8ErrorText bytes.length 0 bytes)

example : fromUtf8 [0x61, 0xE2, 0x82] = .error "incomplete utf-8 byte sequence from index 1" := by decide +kernel
example : fromUtf8 [0x61, 0xFF, 0x62] = .error "invalid utf-8 sequence of 1 bytes from index 1" := by decide +kernel

/-! ## Reading a clock -/

/-- `clocks.insert(key, value)`. -/
def VectorClock.setEntry (c : VectorClock) (region : String) (value : UInt64) : VectorClock where
  regions := insert region c.regions
  get := Function.update c.get region value
  get_eq_zero r hr := by
    have hne : r ≠ region := fun h => hr (h ▸ Finset.mem_insert_self _ _)
    rw [Function.update_of_ne hne]
    exact c.get_eq_zero r fun h => hr (Finset.mem_insert_of_mem h)

/-- `&bytes[start..stop]`; `none` is the panic of a range that is not within the slice. -/
def sliceOf (bytes : List UInt8) (start stop : Nat) : Option (List UInt8) :=
  if start ≤ stop ∧ stop ≤ bytes.length then some ((bytes.drop start).take (stop - start)) else none

/-- The loop of `from_bytes`, for the entries that are left, at an offset. -/
def fromBytesLoop (bytes : List UInt8) : Nat → Nat → VectorClock → Option (Except String VectorClock)
  | 0, _, clocks => some (.ok clocks)
  | entries + 1, offset, clocks =>
      if bytes.length < offset + 2 then some (.error "Insufficient bytes for key length")
      else
        (sliceOf bytes offset (offset + 2)).bind fun field =>
          let keyLen := ofLeBytes field
          let offset := offset + 2
          if bytes.length < offset + keyLen + 8 then some (.error "Insufficient bytes for entry")
          else
            (sliceOf bytes offset (offset + keyLen)).bind fun keyBytes =>
              match fromUtf8 keyBytes with
              | .error err => some (.error err)
              | .ok key =>
                  let offset := offset + keyLen
                  (sliceOf bytes offset (offset + 8)).bind fun value =>
                    fromBytesLoop bytes entries (offset + 8) (clocks.setEntry key (UInt64.ofNat (ofLeBytes value)))

/-- `from_bytes`; `none` would be a panic. -/
def VectorClock.fromBytes (bytes : List UInt8) : Option (Except String VectorClock) :=
  if bytes.length < 4 then some (.error "Insufficient bytes for header")
  else (sliceOf bytes 0 4).bind fun header => fromBytesLoop bytes (ofLeBytes header) 4 .new

/-! ## The loop as a reader of what is left -/

/-- The entries at the front of the input; what comes after them is not looked at. -/
def readEntries : Nat → List UInt8 → VectorClock → Except String VectorClock
  | 0, _, clocks => .ok clocks
  | entries + 1, rest, clocks =>
      if rest.length < 2 then .error "Insufficient bytes for key length"
      else
        let keyLen := ofLeBytes (rest.take 2)
        if rest.length < 2 + keyLen + 8 then .error "Insufficient bytes for entry"
        else
          match fromUtf8 ((rest.drop 2).take keyLen) with
          | .error err => .error err
          | .ok key =>
              readEntries entries (rest.drop (2 + keyLen + 8))
                (clocks.setEntry key (UInt64.ofNat (ofLeBytes ((rest.drop (2 + keyLen)).take 8))))

/-- A range within the slice is what is left of the input, cut to its length. -/
theorem sliceOf_eq {bytes : List UInt8} {start len : Nat} (h : start + len ≤ bytes.length) :
    sliceOf bytes start (start + len) = some ((bytes.drop start).take len) := by
  unfold sliceOf
  rw [if_pos ⟨Nat.le_add_right _ _, h⟩, Nat.add_sub_cancel_left]

/-- **The loop reads what is left of the input**, and every slice it takes is within it. -/
theorem fromBytesLoop_eq {bytes : List UInt8} (entries : Nat) {offset : Nat} (h : offset ≤ bytes.length)
    (clocks : VectorClock) :
    fromBytesLoop bytes entries offset clocks = some (readEntries entries (bytes.drop offset) clocks) := by
  induction entries generalizing offset clocks with
  | zero => rfl
  | succ entries ih =>
      unfold fromBytesLoop readEntries
      rw [List.length_drop]
      by_cases hfield : bytes.length < offset + 2
      · rw [if_pos hfield, if_pos (by omega)]
      · rw [if_neg hfield, if_neg (by omega), sliceOf_eq (by omega), Option.bind_some]
        dsimp only
        generalize ofLeBytes ((bytes.drop offset).take 2) = keyLen
        by_cases hentry : bytes.length < offset + 2 + keyLen + 8
        · rw [if_pos hentry, if_pos (by omega)]
        · rw [if_neg hentry, if_neg (by omega), sliceOf_eq (by omega), Option.bind_some, List.drop_drop]
          cases fromUtf8 ((bytes.drop (offset + 2)).take keyLen) with
          | error err => rfl
          | ok key =>
              dsimp only
              rw [sliceOf_eq (by omega), Option.bind_some, ih (by omega), List.drop_drop, List.drop_drop]
              simp only [Nat.add_assoc]

/-- **`from_bytes` never reads outside its input.** -/
theorem fromBytes_eq (bytes : List UInt8) :
    VectorClock.fromBytes bytes =
      some (if bytes.length < 4 then .error "Insufficient bytes for header"
        else readEntries (ofLeBytes (bytes.take 4)) (bytes.drop 4) .new) := by
  unfold VectorClock.fromBytes
  by_cases h : bytes.length < 4
  · rw [if_pos h, if_pos h]
  · have hheader : sliceOf bytes 0 (0 + 4) = some ((bytes.drop 0).take 4) := sliceOf_eq (by omega)
    rw [if_neg h, if_neg h, hheader, Option.bind_some, List.drop_zero, fromBytesLoop_eq _ (by omega)]

/-! ## What was written -/

/-- The loop lists the bytes from its index on. -/
theorem toList_loop (bytes : ByteArray) (i : Nat) (r : List UInt8) :
    ByteArray.toList.loop bytes i r = r.reverse ++ bytes.data.toList.drop i := by
  fun_induction ByteArray.toList.loop bytes i r with
  | case1 i r hlt ih =>
      have hi : i < bytes.data.toList.length := by simpa using hlt
      rw [ih, List.reverse_cons, List.append_assoc, List.drop_eq_getElem_cons hi]
      have hget : bytes.get! i = bytes.data.toList[i] := by
        rw [Array.getElem_toList]
        exact getElem!_pos bytes.data i hlt
      rw [hget]
      rfl
  | case2 i r hge =>
      have hlen : bytes.data.toList.length ≤ i := by simpa using hge
      rw [List.drop_eq_nil_of_le hlen, List.append_nil]

/-- The bytes of a text, by the two ways of listing them. -/
theorem toList_toUTF8 (s : String) : s.toUTF8.toList = utf8 s := by
  show ByteArray.toList.loop s.toByteArray 0 [] = _
  rw [toList_loop]
  rfl

/-- As many bytes as the text has. -/
theorem length_utf8 (s : String) : (utf8 s).length = s.utf8ByteSize := Array.length_toList

/-- The bytes of a text are valid, and read back. -/
theorem fromUtf8_utf8 (s : String) : fromUtf8 (utf8 s) = .ok s := by
  have hs : String.fromUTF8? ⟨(utf8 s).toArray⟩ = some s := WarmLogic.Consensus.Borsh.fromUTF8?_eq_some.mpr rfl
  unfold fromUtf8
  rw [hs]

/-- The bytes of one entry. -/
def entryBytes (c : VectorClock) (region : String) : List UInt8 :=
  leBytes 2 region.utf8ByteSize ++ utf8 region ++ leBytes 8 (c.get region).toNat

/-- The encoding: the count, then entry by entry. -/
theorem toBytes_eq (c : VectorClock) (order : List String) :
    c.toBytes order = leBytes 4 c.regions.card ++ order.flatMap (entryBytes c) := by
  unfold VectorClock.toBytes entryBytes
  simp only [toList_toUTF8]

/-- Two bytes for the length, the id, eight for the counter. -/
theorem length_entryBytes (c : VectorClock) (region : String) :
    (entryBytes c region).length = 2 + region.utf8ByteSize + 8 := by
  unfold entryBytes
  rw [List.length_append, List.length_append, length_leBytes, length_leBytes, length_utf8]

variable {c : VectorClock} {region : String}

/-- The length field of an entry, also of one that is cut off behind it. -/
theorem ofLeBytes_take_entry (hid : region.utf8ByteSize ≤ 65535) {p rest : List UInt8}
    (hp : p <+: entryBytes c region ++ rest) (hlen : 2 ≤ p.length) : ofLeBytes (p.take 2) = region.utf8ByteSize := by
  have htake : p.take 2 = leBytes 2 region.utf8ByteSize := by
    obtain ⟨tail, htail⟩ := hp
    calc p.take 2 = (p ++ tail).take 2 := (List.take_append_of_le_length hlen).symm
      _ = leBytes 2 region.utf8ByteSize := by
        rw [htail, entryBytes, List.append_assoc, List.append_assoc]
        exact List.take_left' (length_leBytes 2 _)
  rw [htake, ofLeBytes_leBytes_of_lt]
  show _ < 65536
  omega

/-- An entry is read back. -/
theorem readEntries_entry (hid : region.utf8ByteSize ≤ 65535) (entries : Nat) (rest : List UInt8)
    (clocks : VectorClock) :
    readEntries (entries + 1) (entryBytes c region ++ rest) clocks =
      readEntries entries rest (clocks.setEntry region (c.get region)) := by
  have hlen : (entryBytes c region ++ rest).length = 2 + region.utf8ByteSize + 8 + rest.length := by
    rw [List.length_append, length_entryBytes]
  have hkey : (entryBytes c region ++ rest).drop 2 = utf8 region ++ (leBytes 8 (c.get region).toNat ++ rest) := by
    rw [entryBytes, List.append_assoc, List.append_assoc]
    exact List.drop_left' (length_leBytes 2 _)
  have hvalue : (entryBytes c region ++ rest).drop (2 + region.utf8ByteSize) =
      leBytes 8 (c.get region).toNat ++ rest := by
    rw [← List.drop_drop, hkey]
    exact List.drop_left' (length_utf8 region)
  have hrest : (entryBytes c region ++ rest).drop (2 + region.utf8ByteSize + 8) = rest :=
    List.drop_left' (length_entryBytes c region)
  rw [readEntries, if_neg (by omega), ofLeBytes_take_entry hid (List.prefix_refl _) (by omega)]
  dsimp only
  rw [if_neg (by omega), hkey, List.take_left' (length_utf8 region), fromUtf8_utf8, hvalue,
    List.take_left' (length_leBytes 8 _), hrest, ofLeBytes_leBytes_of_lt (c.get region).toNat_lt, UInt64.ofNat_toNat]

/-- The clock after the entries of some regions have been read. -/
def setEntries (c clocks : VectorClock) (order : List String) : VectorClock :=
  order.foldl (fun clocks region => clocks.setEntry region (c.get region)) clocks

/-- The entries of an order are all read back, whatever follows. -/
theorem readEntries_order {order : List String} (hids : ∀ region ∈ order, region.utf8ByteSize ≤ 65535)
    (rest : List UInt8) (clocks : VectorClock) :
    readEntries order.length (order.flatMap (entryBytes c) ++ rest) clocks = .ok (setEntries c clocks order) := by
  induction order generalizing clocks with
  | nil => rfl
  | cons region order ih =>
      obtain ⟨hid, hids⟩ := List.forall_mem_cons.mp hids
      rw [List.flatMap_cons, List.append_assoc, List.length_cons, readEntries_entry hid, ih hids]
      rfl

/-- **A cut in the entries is noticed**, wherever it is. -/
theorem readEntries_cut {order : List String} (hids : ∀ region ∈ order, region.utf8ByteSize ≤ 65535)
    {p : List UInt8} (hp : p <+: order.flatMap (entryBytes c)) (hlen : p.length < (order.flatMap (entryBytes c)).length)
    (clocks : VectorClock) : ∃ err, readEntries order.length p clocks = .error err := by
  induction order generalizing p clocks with
  | nil => exact absurd hlen (Nat.not_lt_zero _)
  | cons region order ih =>
      obtain ⟨hid, hids⟩ := List.forall_mem_cons.mp hids
      rw [List.flatMap_cons] at hp hlen
      by_cases hcut : p.length < (entryBytes c region).length
      · -- the cut is in this entry
        rw [length_entryBytes] at hcut
        rw [List.length_cons, readEntries]
        by_cases hfield : p.length < 2
        · rw [if_pos hfield]
          exact ⟨_, rfl⟩
        · rw [if_neg hfield, ofLeBytes_take_entry hid hp (by omega)]
          dsimp only
          rw [if_pos hcut]
          exact ⟨_, rfl⟩
      · obtain ⟨q, rfl⟩ := List.prefix_of_prefix_length_le (List.prefix_append _ _) hp (Nat.not_lt.mp hcut)
        rw [List.prefix_append_right_inj] at hp
        rw [List.length_append, List.length_append, Nat.add_lt_add_iff_left] at hlen
        rw [List.length_cons, readEntries_entry hid]
        exact ih hids hp hlen _

/-- The regions after the entries: those before, and those read. -/
theorem regions_setEntries (clocks : VectorClock) (order : List String) :
    (setEntries c clocks order).regions = clocks.regions ∪ order.toFinset := by
  induction order generalizing clocks with
  | nil => simp [setEntries]
  | cons region order ih =>
      show (setEntries c (clocks.setEntry region (c.get region)) order).regions = _
      rw [ih, List.toFinset_cons, Finset.union_insert]
      exact Finset.insert_union _ _ _

/-- The counters: those read where there are some, else those before. -/
theorem get_setEntries (clocks : VectorClock) (order : List String) (r : String) :
    (setEntries c clocks order).get r = if r ∈ order then c.get r else clocks.get r := by
  induction order generalizing clocks with
  | nil => rfl
  | cons region order ih =>
      show (setEntries c (clocks.setEntry region (c.get region)) order).get r = _
      rw [ih]
      show (if r ∈ order then c.get r else Function.update clocks.get region (c.get region) r) = _
      by_cases hmem : r ∈ order
      · rw [if_pos hmem, if_pos (List.mem_cons_of_mem _ hmem)]
      · rw [if_neg hmem]
        by_cases hr : r = region
        · subst hr
          rw [Function.update_self, if_pos List.mem_cons_self]
        · rw [Function.update_of_ne hr, if_neg]
          rw [List.mem_cons, not_or]
          exact ⟨hr, hmem⟩

/-! ## The round trip -/

/-- An order in which the map of the clock yields its regions. -/
structure IsOrder (c : VectorClock) (order : List String) : Prop where
  nodup : order.Nodup
  regions : order.toFinset = c.regions

/-- An order is as long as there are regions. -/
theorem IsOrder.length {order : List String} (h : IsOrder c order) : order.length = c.regions.card := by
  rw [← h.regions, List.toFinset_card_of_nodup h.nodup]

/-- And lists exactly these. -/
theorem IsOrder.mem {order : List String} (h : IsOrder c order) : region ∈ order ↔ region ∈ c.regions := by
  rw [← h.regions, List.mem_toFinset]

/-- All the entries give the clock. -/
theorem IsOrder.setEntries {order : List String} (h : IsOrder c order) : setEntries c .new order = c := by
  refine VectorClock.ext ?_ (funext fun r => ?_)
  · rw [regions_setEntries, h.regions]
    exact Finset.empty_union _
  · rw [get_setEntries]
    split
    · rfl
    · rename_i hmem
      exact (c.get_eq_zero r fun hr => hmem (h.mem.mpr hr)).symm

/-- Four bytes for the count, then the entries. -/
theorem length_toBytes (c : VectorClock) (order : List String) :
    (c.toBytes order).length = 4 + (order.flatMap (entryBytes c)).length := by
  rw [toBytes_eq, List.length_append, length_leBytes]

/-- `from_bytes` reads as many entries as the count of 32 bits says. -/
theorem fromBytes_toBytes {order : List String} (horder : IsOrder c order)
    (hids : ∀ region ∈ c.regions, region.utf8ByteSize ≤ 65535) :
    VectorClock.fromBytes (c.toBytes order) = some (.ok (setEntries c .new (order.take (c.regions.card % 2 ^ 32)))) := by
  have hcount : ofLeBytes ((c.toBytes order).take 4) = c.regions.card % 2 ^ 32 := by
    rw [toBytes_eq, List.take_left' (length_leBytes 4 _), ofLeBytes_leBytes, show 256 ^ 4 = 2 ^ 32 from rfl]
  have hentries : (c.toBytes order).drop 4 = order.flatMap (entryBytes c) := by
    rw [toBytes_eq]
    exact List.drop_left' (length_leBytes 4 _)
  have hfront : (order.take (c.regions.card % 2 ^ 32)).length = c.regions.card % 2 ^ 32 := by
    rw [List.length_take, horder.length]
    exact Nat.min_eq_left (Nat.mod_le _ _)
  have hfrontIds : ∀ r ∈ order.take (c.regions.card % 2 ^ 32), r.utf8ByteSize ≤ 65535 :=
    fun r hr => hids r (horder.mem.mp (List.mem_of_mem_take hr))
  have hread := readEntries_order (c := c) hfrontIds
    ((order.drop (c.regions.card % 2 ^ 32)).flatMap (entryBytes c)) .new
  rw [← List.flatMap_append, List.take_append_drop, hfront] at hread
  rw [fromBytes_eq, if_neg (by rw [length_toBytes]; omega), hcount, hentries, hread]

/-- The law of the encoding, for one clock and one order of its map: it is read back, and no part of it is taken for a
clock. -/
def RoundTrips (c : VectorClock) (order : List String) : Prop :=
  VectorClock.fromBytes (c.toBytes order) = some (.ok c) ∧
    ∀ p, p <+: c.toBytes order → p ≠ c.toBytes order → ∃ err, VectorClock.fromBytes p = some (.error err)

/-- A cut is noticed, in the header or behind it. -/
theorem fromBytes_cut {order : List String} (horder : IsOrder c order)
    (hids : ∀ region ∈ c.regions, region.utf8ByteSize ≤ 65535) (hcard : c.regions.card < 2 ^ 32) {p : List UInt8}
    (hp : p <+: c.toBytes order) (hne : p ≠ c.toBytes order) : ∃ err, VectorClock.fromBytes p = some (.error err) := by
  rw [fromBytes_eq]
  by_cases hheader : p.length < 4
  · rw [if_pos hheader]
    exact ⟨_, rfl⟩
  · have hlen : p.length < (c.toBytes order).length :=
      lt_of_le_of_ne hp.length_le fun h => hne (hp.eq_of_length h)
    rw [length_toBytes] at hlen
    rw [toBytes_eq] at hp
    obtain ⟨q, rfl⟩ := List.prefix_of_prefix_length_le (List.prefix_append _ _) hp
      (by rw [length_leBytes]; exact Nat.not_lt.mp hheader)
    rw [List.prefix_append_right_inj] at hp
    rw [List.length_append, length_leBytes] at hlen
    have hcount : ofLeBytes ((leBytes 4 c.regions.card ++ q).take 4) = order.length := by
      rw [List.take_left' (length_leBytes 4 _), ofLeBytes_leBytes_of_lt hcard, horder.length]
    obtain ⟨err, herr⟩ := readEntries_cut (fun r hr => hids r (horder.mem.mp hr)) hp (by omega) .new
    refine ⟨err, ?_⟩
    rw [if_neg hheader, hcount, List.drop_left' (length_leBytes 4 _), herr]

/-- **When a clock survives its encoding.** For every clock whose region ids have at most 65535 bytes and every order of
its map: the clock is read back from its bytes and every strict prefix of them is refused exactly if it has fewer than
2^32 regions; and on every byte string `from_bytes` returns, so it never reads outside of its input. -/
theorem clock_bytes_round_trip_iff (c : VectorClock) (hids : ∀ region ∈ c.regions, region.utf8ByteSize ≤ 65535)
    {order : List String} (horder : IsOrder c order) :
    (RoundTrips c order ↔ c.regions.card < 2 ^ 32) ∧
    ∀ bytes, ∃ result, VectorClock.fromBytes bytes = some result := by
  have hread := fromBytes_toBytes horder hids
  refine ⟨?_, fun bytes => ⟨_, fromBytes_eq bytes⟩⟩
  constructor
  · rintro ⟨hback, -⟩
    by_contra hcard
    rw [hread] at hback
    have hsame : setEntries c .new (order.take (c.regions.card % 2 ^ 32)) = c := by
      injection hback with hback
      injection hback
    -- the entries that are read are too few
    have hfew : c.regions.card ≤ c.regions.card % 2 ^ 32 := by
      calc c.regions.card = (order.take (c.regions.card % 2 ^ 32)).toFinset.card := by
            rw [← Finset.empty_union (List.toFinset _)]
            conv_lhs => rw [← hsame, regions_setEntries]
            rfl
        _ ≤ (order.take (c.regions.card % 2 ^ 32)).length := List.toFinset_card_le _
        _ ≤ c.regions.card % 2 ^ 32 := List.length_take_le _ _
    have hlt := Nat.mod_lt c.regions.card (Nat.two_pow_pos 32)
    omega
  · intro hcard
    refine ⟨?_, fun p hp hne => fromBytes_cut horder hids hcard hp hne⟩
    rw [hread, Nat.mod_eq_of_lt hcard, ← horder.length, List.take_length, horder.setEntries]

/-- Two ticks in one region and one in another. -/
def twoRegions : VectorClock := ((VectorClock.new.tick "a").tick "bc").tick "a"

/-- The clock is read back whichever region its map yields first. -/
theorem clock_bytes_round_trip_iff_two_regions :
    RoundTrips twoRegions ["a", "bc"] ∧ RoundTrips twoRegions ["bc", "a"] ∧
      VectorClock.fromBytes [2, 0, 0, 0, 2, 0, 0x62, 0x63, 1, 0, 0, 0, 0, 0, 0, 0, 1, 0, 0x61, 2, 0, 0, 0, 0, 0, 0, 0] =
        some (.ok twoRegions) := by
  have hids : ∀ region ∈ twoRegions.regions, region.utf8ByteSize ≤ 65535 := by decide
  have hab : IsOrder twoRegions ["a", "bc"] := ⟨by decide, by decide⟩
  have hba : IsOrder twoRegions ["bc", "a"] := ⟨by decide, by decide⟩
  have hlisted := (clock_bytes_round_trip_iff twoRegions hids hab).1
  have hother := (clock_bytes_round_trip_iff twoRegions hids hba).1
  have hbytes : twoRegions.toBytes ["bc", "a"] =
      [2, 0, 0, 0, 2, 0, 0x62, 0x63, 1, 0, 0, 0, 0, 0, 0, 0, 1, 0, 0x61, 2, 0, 0, 0, 0, 0, 0, 0] := by decide +kernel
  exact ⟨hlisted.mpr (by decide), hother.mpr (by decide), hbytes ▸ (hother.mpr (by decide)).1⟩

/-! ### Too many regions -/

/-- A region id for every choice of 32 letters. -/
def regionOf (letters : Fin 32 → Bool) : String :=
  String.ofList (List.ofFn fun i => if letters i then 'b' else 'a')

/-- Different choices are different ids. -/
theorem regionOf_injective : Function.Injective regionOf := by
  intro f g h
  have hlists := List.ofFn_injective (String.ofList_injective h)
  funext i
  have hletter := congrFun hlists i
  cases hf : f i <;> cases hg : g i <;> simp_all

/-- A text of `n` characters has at most `4 * n` bytes. -/
theorem utf8ByteSize_ofList_le (l : List Char) : (String.ofList l).utf8ByteSize ≤ 4 * l.length := by
  have hsize : (String.ofList l).utf8ByteSize = (l.flatMap String.utf8EncodeChar).length := by
    rw [← length_utf8]
    unfold utf8
    rw [String.toByteArray_ofList]
    unfold List.utf8Encode
    rw [List.toList_data_toByteArray]
  rw [hsize, List.length_flatMap]
  clear hsize
  induction l with
  | nil => exact Nat.le_refl _
  | cons ch l ih =>
      have hch := Char.utf8Size_le_four ch
      rw [List.map_cons, List.sum_cons, List.length_cons, String.length_utf8EncodeChar]
      omega

/-- **A clock of 2^32 regions is written with the count 0**, and read back as the empty clock. -/
theorem many_regions_read_as_none :
    ∃ c order, (∀ region ∈ c.regions, region.utf8ByteSize ≤ 65535) ∧ IsOrder c order ∧ c.regions.card = 2 ^ 32 ∧
      VectorClock.fromBytes (c.toBytes order) = some (.ok .new) ∧ c ≠ .new ∧ ¬ RoundTrips c order := by
  have hcard : (Finset.univ.image regionOf).card = 2 ^ 32 := by
    rw [Finset.card_image_of_injective _ regionOf_injective, Finset.card_univ, Fintype.card_fun, Fintype.card_bool,
      Fintype.card_fin]
  have hids : ∀ region ∈ Finset.univ.image regionOf, region.utf8ByteSize ≤ 65535 := by
    refine Finset.forall_mem_image.mpr fun letters _ => ?_
    have hle := utf8ByteSize_ofList_le (List.ofFn fun i : Fin 32 => if letters i then 'b' else 'a')
    rw [List.length_ofFn] at hle
    unfold regionOf
    omega
  generalize Finset.univ.image regionOf = regions at hcard hids
  have horder : IsOrder (VectorClock.withRegions regions.toList) regions.toList :=
    ⟨Finset.nodup_toList regions, rfl⟩
  have hfinset : (VectorClock.withRegions regions.toList).regions = regions := Finset.toList_toFinset regions
  have hne : VectorClock.withRegions regions.toList ≠ .new := by
    intro h
    have hempty := congrArg (fun c : VectorClock => c.regions.card) h
    rw [hfinset, hcard] at hempty
    exact absurd hempty (by decide)
  have hread := fromBytes_toBytes horder (hfinset.symm ▸ hids)
  rw [hfinset, hcard, Nat.mod_self, List.take_zero] at hread
  refine ⟨_, _, hfinset.symm ▸ hids, horder, by rw [hfinset, hcard], hread, hne, fun h => ?_⟩
  have hback := h.1
  rw [hread] at hback
  injection hback with hback
  injection hback with hback
  exact hne hback.symm

end WarmLogic.Federation
