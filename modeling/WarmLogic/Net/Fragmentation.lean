/-
# WarmLogic.Net.Fragmentation — `net/fragmentation.rs`: datagrams of a large message, and the table that reassembles them.

`fragment_message` cuts a message into pieces of 7 KB behind headers of twelve bytes, `process_fragment` collects the
pieces of a message in a session and returns the message with the last one. The sessions of all senders share one table;
a sender may have ten of them, and a session that is too old is dropped at the next datagram, whoever sent it.

SHA3-256 is the parameter `sha3`, an address is of any type, and a call of `process_fragment` reads the clock once (`now`,
in the unit of the timeout). The locks are not modelled: no call panics while it holds one.

Of the table a source sees its own sessions only: the limit counts them, a fragment finds or opens one of them, and
the clean-up drops others by their age. `Agree` says that two tables are the same to a source; calls from others keep
a table in agreement with itself, so a source gets the answers it would get alone (`answersTo_filter`).
-/
import Mathlib.Data.List.AList
import Mathlib.Data.UInt
import WarmLogic.Lib.FieldCodec

namespace WarmLogic.Net.Fragmentation

open WarmLogic.Lib

/-! ## Constants and errors -/

/-- `MAX_FRAGMENT_PAYLOAD`, 7 KB. -/
def maxFragmentPayload : Nat := 7168

/-- `FRAGMENT_HEADER_SIZE`. -/
def fragmentHeaderSize : Nat := 12

/-- `MAX_FRAGMENTS_PER_MESSAGE`. -/
def maxFragmentsPerMessage : UInt16 := 600

/-- `REASSEMBLY_TIMEOUT_SECS`. -/
def reassemblyTimeoutSecs : Nat := 30

/-- `MAX_REASSEMBLY_SESSIONS_PER_PEER`. -/
def maxReassemblySessionsPerPeer : Nat := 10

namespace Flags

/-- `flags::FIRST`. -/
def first : UInt8 := 0x01

/-- `flags::LAST`. -/
def last : UInt8 := 0x02

/-- `flags::HIGH_PRIORITY`. -/
def highPriority : UInt8 := 0x08

end Flags

/-- `FragmentError`, with what the texts are made of. -/
inductive FragmentError where
  | headerTooShort
  | invalidTotalFragments
  | tooManyFragments
  | invalidFragmentIndex
  | checksumMismatch
  | messageTooLarge
  | reassemblyTimeout
  | tooManySessions
  | duplicateFragment
  deriving DecidableEq

/-! ## Headers -/

/-- `FragmentHeader`. -/
structure FragmentHeader where
  messageId : UInt32
  fragmentIndex : UInt16
  totalFragments : UInt16
  flags : UInt8
  checksum : Vector UInt8 3
  deriving DecidableEq

/-- The first three bytes of the hash of a payload. -/
def checksumOf (sha3 : List UInt8 → Vector UInt8 32) (payload : List UInt8) : Vector UInt8 3 :=
  let hash := sha3 payload
  #v[hash.get 0, hash.get 1, hash.get 2]

namespace FragmentHeader

/-- The header of a fragment, with its flags and the checksum of its payload. -/
def new (sha3 : List UInt8 → Vector UInt8 32) (messageId : UInt32) (fragmentIndex totalFragments : UInt16)
    (payload : List UInt8) : FragmentHeader where
  messageId := messageId
  fragmentIndex := fragmentIndex
  totalFragments := totalFragments
  flags :=
    let flags : UInt8 := if fragmentIndex = 0 then 0 ||| Flags.first else 0
    -- `saturating_sub`
    if fragmentIndex.toNat = totalFragments.toNat - 1 then flags ||| Flags.last else flags
  checksum := checksumOf sha3 payload

/-- `to_bytes`: twelve bytes. -/
def toBytes (h : FragmentHeader) : List UInt8 :=
  beBytes 4 h.messageId.toNat ++ beBytes 2 h.fragmentIndex.toNat ++ beBytes 2 h.totalFragments.toNat ++ [h.flags] ++
    h.checksum.toList

/-- `from_bytes`; behind the check of the length every index is within `buf`. -/
def fromBytes (buf : List UInt8) : Except FragmentError FragmentHeader :=
  if buf.length < fragmentHeaderSize then .error .headerTooShort
  else
    let messageId := UInt32.ofNat (ofBeBytes (buf.take 4))
    let fragmentIndex := UInt16.ofNat (ofBeBytes ((buf.drop 4).take 2))
    let totalFragments := UInt16.ofNat (ofBeBytes ((buf.drop 6).take 2))
    let flags := buf.getD 8 0
    let checksum := #v[buf.getD 9 0, buf.getD 10 0, buf.getD 11 0]
    if totalFragments = 0 then .error .invalidTotalFragments
    else if maxFragmentsPerMessage < totalFragments then .error .tooManyFragments
    else if totalFragments ≤ fragmentIndex then .error .invalidFragmentIndex
    else .ok { messageId, fragmentIndex, totalFragments, flags, checksum }

/-- `verify_checksum`. -/
def verifyChecksum (sha3 : List UInt8 → Vector UInt8 32) (h : FragmentHeader) (payload : List UInt8) : Bool :=
  h.checksum == checksumOf sha3 payload

/-- `is_high_priority`. -/
def isHighPriority (h : FragmentHeader) : Bool := h.flags &&& Flags.highPriority != 0

end FragmentHeader

/-! ## Fragmenting -/

/-- One datagram: header, with its priority flag, and payload. -/
def fragment (sha3 : List UInt8 → Vector UInt8 32) (messageId : UInt32) (highPriority : Bool)
    (fragmentIndex totalFragments : UInt16) (payload : List UInt8) : List UInt8 :=
  let header := FragmentHeader.new sha3 messageId fragmentIndex totalFragments payload
  let header := if highPriority then { header with flags := header.flags ||| Flags.highPriority } else header
  header.toBytes ++ payload

/-- `message.len().div_ceil(MAX_FRAGMENT_PAYLOAD)`. -/
def divCeil (len : Nat) : Nat := (len + maxFragmentPayload - 1) / maxFragmentPayload

/-- `fragment_message`: the datagrams of a message, in order. -/
def fragmentMessage (sha3 : List UInt8 → Vector UInt8 32) (message : List UInt8) (messageId : UInt32)
    (highPriority : Bool) : Except FragmentError (List (List UInt8)) :=
  let maxMessageSize := maxFragmentPayload * maxFragmentsPerMessage.toNat
  if maxMessageSize < message.length then .error .messageTooLarge
  else if message.length ≤ maxFragmentPayload then .ok [fragment sha3 messageId highPriority 0 1 message]
  else
    let totalFragments := UInt16.ofNat (divCeil message.length)
    .ok ((List.range totalFragments.toNat).map fun i =>
      let start := i * maxFragmentPayload
      let stop := min (start + maxFragmentPayload) message.length
      fragment sha3 messageId highPriority (.ofNat i) totalFragments ((message.take stop).drop start))

/-! ## Reassembly -/

/-- `ReassemblyState`: the pieces that came, by their indices. -/
structure ReassemblyState where
  totalFragments : UInt16
  fragments : AList fun _ : UInt16 => List UInt8
  startedAt : Nat
  highPriority : Bool

namespace ReassemblyState

/-- A session before its first piece. -/
def new (totalFragments : UInt16) (highPriority : Bool) (now : Nat) : ReassemblyState where
  totalFragments := totalFragments
  fragments := ∅
  startedAt := now
  highPriority := highPriority

/-- `is_complete`. -/
def isComplete (s : ReassemblyState) : Bool := s.fragments.entries.length == s.totalFragments.toNat

/-- `is_expired`. -/
def isExpired (s : ReassemblyState) (timeout now : Nat) : Bool := timeout < now - s.startedAt

/-- `assemble`: the pieces in the order of their indices. -/
def assemble (s : ReassemblyState) : Option (List UInt8) :=
  if !s.isComplete then none
  else ((List.range s.totalFragments.toNat).mapM fun i => s.fragments.lookup (.ofNat i)).map List.flatten

end ReassemblyState

/-- The counters; they wrap, as in the release profile. -/
structure ReassemblyStats where
  fragmentsReceived : UInt64
  messagesReassembled : UInt64
  fragmentsTimeout : UInt64
  fragmentsChecksumFailed : UInt64
  fragmentsDuplicate : UInt64
  sessionsRejected : UInt64
  deriving DecidableEq

variable {Addr : Type} [DecidableEq Addr]

/-- The sessions, by source address and message id. -/
abbrev Sessions (Addr : Type) := AList fun _ : Addr × UInt32 => ReassemblyState

/-- The sessions that pass the test. -/
def Sessions.keep (p : ReassemblyState → Bool) (sessions : Sessions Addr) : Sessions Addr where
  entries := sessions.entries.filter fun e => p e.2
  nodupKeys := sessions.nodupKeys.sublist List.filter_sublist

/-- `ReassemblyBuffer`. -/
structure ReassemblyBuffer (Addr : Type) where
  sessions : Sessions Addr
  timeout : Nat
  stats : ReassemblyStats

/-- What a call of `process_fragment` returns. -/
abbrev Answer := Except FragmentError (Option (List UInt8))

namespace ReassemblyBuffer

/-- `with_timeout`. -/
def withTimeout (timeoutSecs : Nat) : ReassemblyBuffer Addr where
  sessions := ∅
  timeout := timeoutSecs
  stats := ⟨0, 0, 0, 0, 0, 0⟩

/-- `new`, with the timeout of the constant. -/
def new : ReassemblyBuffer Addr := withTimeout reassemblyTimeoutSecs

/-- `cleanup_expired_sessions`. -/
def cleanupExpiredSessions (b : ReassemblyBuffer Addr) (now : Nat) : ReassemblyBuffer Addr :=
  let sessions := Sessions.keep (fun s => !s.isExpired b.timeout now) b.sessions
  let expiredCount := UInt64.ofNat (b.sessions.entries.length - sessions.entries.length)
  { b with sessions, stats := { b.stats with fragmentsTimeout := b.stats.fragmentsTimeout + expiredCount } }

/-- The number of sessions of a source. -/
def peerSessions (b : ReassemblyBuffer Addr) (source : Addr) : Nat :=
  (b.sessions.keys.filter fun key => key.1 = source).length

/-- `process_fragment`, from the session of the fragment on. -/
def storeFragment (b : ReassemblyBuffer Addr) (key : Addr × UInt32) (session : ReassemblyState)
    (header : FragmentHeader) (payload : List UInt8) : ReassemblyBuffer Addr × Answer :=
  -- `entry(key).or_insert_with`
  let b := { b with sessions := b.sessions.insert key session }
  if session.totalFragments ≠ header.totalFragments then (b, .error .invalidTotalFragments)
  else if header.fragmentIndex ∈ session.fragments then
    ({ b with stats := { b.stats with fragmentsDuplicate := b.stats.fragmentsDuplicate + 1 } }, .ok none)
  else
    let session := { session with fragments := session.fragments.insert header.fragmentIndex payload }
    if session.isComplete then
      ({ b with
          sessions := b.sessions.erase key
          stats := { b.stats with messagesReassembled := b.stats.messagesReassembled + 1 } },
        .ok session.assemble)
    else ({ b with sessions := b.sessions.insert key session }, .ok none)

/-- `process_fragment`: sessions that are too old are dropped, then the datagram is read and its fragment stored. -/
def processFragment (sha3 : List UInt8 → Vector UInt8 32) (b : ReassemblyBuffer Addr) (now : Nat) (source : Addr)
    (data : List UInt8) : ReassemblyBuffer Addr × Answer :=
  match FragmentHeader.fromBytes data with
  | .error e => (b, .error e)
  | .ok header =>
      let payload := data.drop fragmentHeaderSize
      if !header.verifyChecksum sha3 payload then
        ({ b with stats := { b.stats with fragmentsChecksumFailed := b.stats.fragmentsChecksumFailed + 1 } },
          .error .checksumMismatch)
      else
        let b := { b with stats := { b.stats with fragmentsReceived := b.stats.fragmentsReceived + 1 } }
        let b := b.cleanupExpiredSessions now
        let key := (source, header.messageId)
        if maxReassemblySessionsPerPeer ≤ b.peerSessions source ∧ key ∉ b.sessions then
          ({ b with stats := { b.stats with sessionsRejected := b.stats.sessionsRejected + 1 } },
            .error .tooManySessions)
        else
          b.storeFragment key
            ((b.sessions.lookup key).getD (.new header.totalFragments header.isHighPriority now)) header payload

end ReassemblyBuffer

/-- A datagram that comes in, with the time. -/
structure Datagram (Addr : Type) where
  now : Nat
  source : Addr
  data : List UInt8
  deriving DecidableEq

/-- One call after another, with what each returns. -/
def receiveAll (sha3 : List UInt8 → Vector UInt8 32) :
    ReassemblyBuffer Addr → List (Datagram Addr) → ReassemblyBuffer Addr × List (Datagram Addr × Answer)
  | b, [] => (b, [])
  | b, d :: ds =>
      let step := b.processFragment sha3 d.now d.source d.data
      let rest := receiveAll sha3 step.1 ds
      (rest.1, (d, step.2) :: rest.2)

/-! ## Headers on the wire -/

namespace FragmentHeader

variable {h : FragmentHeader}

/-- Twelve bytes. -/
@[simp] theorem length_toBytes (h : FragmentHeader) : h.toBytes.length = fragmentHeaderSize := by
  simp [toBytes, fragmentHeaderSize]

/-- The header of a fragment that the receiver takes. -/
structure Valid (h : FragmentHeader) : Prop where
  total_pos : h.totalFragments ≠ 0
  total_le : h.totalFragments ≤ maxFragmentsPerMessage
  index_lt : h.fragmentIndex < h.totalFragments

/-- **A valid header is read back**, whatever follows it. -/
theorem fromBytes_toBytes (hvalid : h.Valid) (payload : List UInt8) : fromBytes (h.toBytes ++ payload) = .ok h := by
  have hlength : ¬ (h.toBytes ++ payload).length < fragmentHeaderSize := by
    rw [List.length_append, length_toBytes]
    omega
  have hid : ofBeBytes ((h.toBytes ++ payload).take 4) = h.messageId.toNat := by
    rw [toBytes]
    simp only [List.append_assoc]
    rw [List.take_left' (length_beBytes _ _)]
    exact ofBeBytes_beBytes_of_lt h.messageId.toNat_lt
  have hindex : ofBeBytes (((h.toBytes ++ payload).drop 4).take 2) = h.fragmentIndex.toNat := by
    rw [toBytes]
    simp only [List.append_assoc]
    rw [List.drop_left' (length_beBytes _ _), List.take_left' (length_beBytes _ _)]
    exact ofBeBytes_beBytes_of_lt h.fragmentIndex.toNat_lt
  have htotal : ofBeBytes (((h.toBytes ++ payload).drop 6).take 2) = h.totalFragments.toNat := by
    rw [toBytes, List.append_assoc, List.append_assoc, List.append_assoc, List.append_assoc, ← List.append_assoc,
      List.drop_left' (by simp), List.take_left' (length_beBytes _ _)]
    exact ofBeBytes_beBytes_of_lt h.totalFragments.toNat_lt
  have hrest : (h.toBytes ++ payload).drop 8 = h.flags :: (h.checksum.toList ++ payload) := by
    rw [toBytes, List.append_assoc, List.append_assoc, List.drop_left' (by simp)]
    rfl
  have hbyte : ∀ i, (h.toBytes ++ payload).getD (8 + i) 0 = (h.flags :: (h.checksum.toList ++ payload)).getD i 0 := by
    intro i
    rw [← hrest, List.getD_eq_getElem?_getD, List.getD_eq_getElem?_getD, List.getElem?_drop]
  unfold fromBytes
  rw [if_neg hlength]
  dsimp only
  rw [hid, hindex, htotal, hbyte 0, hbyte 1, hbyte 2, hbyte 3, UInt32.ofNat_toNat, UInt16.ofNat_toNat,
    UInt16.ofNat_toNat, if_neg hvalid.total_pos, if_neg (UInt16.not_lt.mpr hvalid.total_le),
    if_neg (UInt16.not_le.mpr hvalid.index_lt)]
  have hsum : ∀ i (hi : i < 3), (h.flags :: (h.checksum.toList ++ payload)).getD (i + 1) 0 = h.checksum[i] := by
    intro i hi
    rw [List.getD_cons_succ, List.getD_append _ _ _ _ (by simpa using hi), List.getD_eq_getElem _ _ (by simpa using hi),
      Vector.getElem_toList]
  have hchecksum : #v[h.checksum[0], h.checksum[1], h.checksum[2]] = h.checksum := by
    ext i hi
    obtain rfl | rfl | rfl : i = 0 ∨ i = 1 ∨ i = 2 := by omega
    · rfl
    · rfl
    · rfl
  rw [hsum 0 (by decide), hsum 1 (by decide), hsum 2 (by decide), hchecksum]
  rfl

end FragmentHeader

/-! ## The sessions after a call -/

/-- A session is kept if it passes. -/
theorem Sessions.lookup_keep (p : ReassemblyState → Bool) (sessions : Sessions Addr) (key : Addr × UInt32) :
    (Sessions.keep p sessions).lookup key = (sessions.lookup key).filter p := by
  ext st
  rw [← Option.mem_def, AList.mem_lookup_iff, Option.filter_eq_some_iff, ← Option.mem_def, AList.mem_lookup_iff]
  show _ ∈ sessions.entries.filter _ ↔ _
  rw [List.mem_filter]

namespace ReassemblyBuffer

variable {sha3 : List UInt8 → Vector UInt8 32} {b : ReassemblyBuffer Addr} {now : Nat} {source : Addr}
  {key : Addr × UInt32}

/-- No session of the source is too old. -/
def Unexpired (b : ReassemblyBuffer Addr) (source : Addr) (now : Nat) : Prop :=
  ∀ id st, b.sessions.lookup (source, id) = some st → st.isExpired b.timeout now = false

/-- The clean-up spares the sessions of a source that are not too old. -/
theorem lookup_cleanup (h : b.Unexpired source now) (id : UInt32) :
    (b.cleanupExpiredSessions now).sessions.lookup (source, id) = b.sessions.lookup (source, id) := by
  show (Sessions.keep _ b.sessions).lookup (source, id) = _
  rw [Sessions.lookup_keep]
  cases hfound : b.sessions.lookup (source, id) with
  | none => rfl
  | some st => rw [Option.filter_some, h id st hfound, Bool.not_false, if_pos rfl]

/-- Storing a fragment touches no other session. -/
theorem storeFragment_lookup_ne {session : ReassemblyState} {header : FragmentHeader} {payload : List UInt8}
    {key' : Addr × UInt32} (hne : key' ≠ key) :
    (b.storeFragment key session header payload).1.sessions.lookup key' = b.sessions.lookup key' := by
  unfold storeFragment
  dsimp only
  split_ifs
  · exact AList.lookup_insert_ne hne
  · exact AList.lookup_insert_ne hne
  · exact (AList.lookup_erase_ne hne).trans (AList.lookup_insert_ne hne)
  · exact (AList.lookup_insert_ne hne).trans (AList.lookup_insert_ne hne)

/-- No call changes the timeout. -/
theorem processFragment_timeout (b : ReassemblyBuffer Addr) (now : Nat) (source : Addr) (data : List UInt8) :
    (b.processFragment sha3 now source data).1.timeout = b.timeout := by
  unfold processFragment
  cases FragmentHeader.fromBytes data with
  | error e => rfl
  | ok header =>
      unfold storeFragment
      dsimp only
      split_ifs <;> rfl

/-- **Data from another source leaves the sessions of a source alone**, but for those that are too old. -/
theorem processFragment_foreign {source' : Addr} (hne : source ≠ source') (h : b.Unexpired source now)
    (data : List UInt8) (id : UInt32) :
    (b.processFragment sha3 now source' data).1.sessions.lookup (source, id) = b.sessions.lookup (source, id) := by
  unfold processFragment
  cases FragmentHeader.fromBytes data with
  | error e => rfl
  | ok header =>
      dsimp only
      split_ifs
      · rfl
      · exact lookup_cleanup (b := { b with stats := _ }) h id
      · rw [storeFragment_lookup_ne fun hkey => hne (congrArg Prod.fst hkey)]
        exact lookup_cleanup (b := { b with stats := _ }) h id

/-! ## What a source sees of the table -/

/-- The two tables are the same for a source. -/
structure Agree (source : Addr) (b b' : ReassemblyBuffer Addr) : Prop where
  timeout : b.timeout = b'.timeout
  lookup : ∀ id, b.sessions.lookup (source, id) = b'.sessions.lookup (source, id)

variable {b' : ReassemblyBuffer Addr}

/-- A table agrees with itself. -/
theorem Agree.refl (source : Addr) (b : ReassemblyBuffer Addr) : Agree source b b := ⟨rfl, fun _ => rfl⟩

/-- A session of the source is in both or in neither. -/
theorem Agree.mem_iff (h : Agree source b b') (id : UInt32) : (source, id) ∈ b.sessions ↔ (source, id) ∈ b'.sessions := by
  rw [← AList.lookup_isSome, ← AList.lookup_isSome, h.lookup]

/-- The source has as many in both. -/
theorem Agree.peerSessions (h : Agree source b b') : b.peerSessions source = b'.peerSessions source := by
  unfold ReassemblyBuffer.peerSessions
  apply List.Perm.length_eq
  rw [List.perm_ext_iff_of_nodup (b.sessions.keys_nodup.filter _) (b'.sessions.keys_nodup.filter _)]
  rintro ⟨source', id⟩
  rw [List.mem_filter, List.mem_filter, ← AList.mem_keys, ← AList.mem_keys, decide_eq_true_eq]
  constructor
  · rintro ⟨hmem, rfl⟩
    exact ⟨(h.mem_iff id).mp hmem, rfl⟩
  · rintro ⟨hmem, rfl⟩
    exact ⟨(h.mem_iff id).mpr hmem, rfl⟩

/-- They are too old in both or in neither. -/
theorem Agree.unexpired (h : Agree source b b') (hexp : b.Unexpired source now) : b'.Unexpired source now := by
  intro id st hst
  rw [← h.timeout]
  exact hexp id st (by rw [h.lookup, hst])

/-- The answer depends on the session alone, and so does what is stored. -/
theorem storeFragment_agree {session : ReassemblyState} {header : FragmentHeader} {payload : List UInt8}
    (h : Agree source b b') :
    (b.storeFragment key session header payload).2 = (b'.storeFragment key session header payload).2 ∧
      Agree source (b.storeFragment key session header payload).1 (b'.storeFragment key session header payload).1 := by
  have hinsert : ∀ (l l' : Sessions Addr) st, (∀ id, l.lookup (source, id) = l'.lookup (source, id)) →
      ∀ id, (l.insert key st).lookup (source, id) = (l'.insert key st).lookup (source, id) := by
    intro l l' st hl id
    by_cases hkey : (source, id) = key
    · rw [hkey, AList.lookup_insert, AList.lookup_insert]
    · rw [AList.lookup_insert_ne hkey, AList.lookup_insert_ne hkey, hl]
  have herase : ∀ l l' : Sessions Addr, (∀ id, l.lookup (source, id) = l'.lookup (source, id)) →
      ∀ id, (l.erase key).lookup (source, id) = (l'.erase key).lookup (source, id) := by
    intro l l' hl id
    by_cases hkey : (source, id) = key
    · rw [hkey, AList.lookup_erase, AList.lookup_erase]
    · rw [AList.lookup_erase_ne hkey, AList.lookup_erase_ne hkey, hl]
  unfold storeFragment
  dsimp only
  split_ifs
  · exact ⟨rfl, h.timeout, hinsert _ _ _ h.lookup⟩
  · exact ⟨rfl, h.timeout, hinsert _ _ _ h.lookup⟩
  · exact ⟨rfl, h.timeout, herase _ _ (hinsert _ _ _ h.lookup)⟩
  · exact ⟨rfl, h.timeout, hinsert _ _ _ (hinsert _ _ _ h.lookup)⟩

variable (now) in
/-- Cleaning up both keeps them in agreement. -/
theorem Agree.cleanup (h : Agree source b b') (hexp : b.Unexpired source now) :
    Agree source (b.cleanupExpiredSessions now) (b'.cleanupExpiredSessions now) := by
  refine ⟨h.timeout, fun id => ?_⟩
  rw [lookup_cleanup hexp, lookup_cleanup (h.unexpired hexp), h.lookup]

variable (sha3) in
/-- **A source gets the same answers from tables that are the same for it.** -/
theorem Agree.processFragment (h : Agree source b b') (hexp : b.Unexpired source now) (data : List UInt8) :
    (b.processFragment sha3 now source data).2 = (b'.processFragment sha3 now source data).2 ∧
      Agree source (b.processFragment sha3 now source data).1 (b'.processFragment sha3 now source data).1 := by
  unfold ReassemblyBuffer.processFragment
  cases FragmentHeader.fromBytes data with
  | error e => exact ⟨rfl, h⟩
  | ok header =>
      dsimp only
      by_cases hchecksum : (!header.verifyChecksum sha3 (data.drop fragmentHeaderSize)) = true
      · rw [if_pos hchecksum, if_pos hchecksum]
        exact ⟨rfl, h.timeout, h.lookup⟩
      · rw [if_neg hchecksum, if_neg hchecksum]
        have hcounted : Agree source
            { b with stats := { b.stats with fragmentsReceived := b.stats.fragmentsReceived + 1 } }
            { b' with stats := { b'.stats with fragmentsReceived := b'.stats.fragmentsReceived + 1 } } :=
          ⟨h.timeout, h.lookup⟩
        have hclean := hcounted.cleanup now hexp
        generalize ReassemblyBuffer.cleanupExpiredSessions { b with stats := _ } now = cleaned at hclean ⊢
        generalize ReassemblyBuffer.cleanupExpiredSessions { b' with stats := _ } now = cleaned' at hclean ⊢
        have hfull : (maxReassemblySessionsPerPeer ≤ cleaned.peerSessions source ∧
              (source, header.messageId) ∉ cleaned.sessions) ↔
            (maxReassemblySessionsPerPeer ≤ cleaned'.peerSessions source ∧
              (source, header.messageId) ∉ cleaned'.sessions) := by
          rw [hclean.peerSessions, hclean.mem_iff]
        by_cases hrejected : maxReassemblySessionsPerPeer ≤ cleaned.peerSessions source ∧
            (source, header.messageId) ∉ cleaned.sessions
        · rw [if_pos hrejected, if_pos (hfull.mp hrejected)]
          exact ⟨rfl, hclean.timeout, hclean.lookup⟩
        · rw [if_neg hrejected, if_neg (mt hfull.mpr hrejected), hclean.lookup]
          exact storeFragment_agree hclean

/-- A datagram from another source keeps them in agreement. -/
theorem Agree.foreign (h : Agree source b b') {source' : Addr} (hne : source ≠ source') (hexp : b.Unexpired source now)
    (data : List UInt8) : Agree source (b.processFragment sha3 now source' data).1 b' := by
  refine ⟨?_, fun id => ?_⟩
  · rw [processFragment_timeout, h.timeout]
  · rw [processFragment_foreign hne hexp, h.lookup]

end ReassemblyBuffer

/-! ## Runs -/

/-- At no call of the run is a session of the source too old. -/
def NoExpiry (sha3 : List UInt8 → Vector UInt8 32) (source : Addr) :
    ReassemblyBuffer Addr → List (Datagram Addr) → Prop
  | _, [] => True
  | b, d :: ds => b.Unexpired source d.now ∧ NoExpiry sha3 source (b.processFragment sha3 d.now d.source d.data).1 ds

/-- What came from a source. -/
def arrivals (source : Addr) (calls : List (Datagram Addr)) : List (List UInt8) :=
  (calls.filter fun d => d.source = source).map (·.data)

/-- What a source got, datagram by datagram. -/
def answersTo (source : Addr) (trace : List (Datagram Addr × Answer)) : List (List UInt8 × Answer) :=
  (trace.filter fun p => p.1.source = source).map fun p => (p.1.data, p.2)

/-- The messages among the answers. -/
def delivered (answers : List (List UInt8 × Answer)) : List (List UInt8) :=
  answers.filterMap fun p => p.2.toOption.join

/-- **Other sources make no difference**: a source gets the answers it would get without them. -/
theorem answersTo_filter {sha3 : List UInt8 → Vector UInt8 32} {source : Addr} {calls : List (Datagram Addr)}
    {b b' : ReassemblyBuffer Addr} (h : ReassemblyBuffer.Agree source b b') (hexp : NoExpiry sha3 source b calls) :
    answersTo source (receiveAll sha3 b calls).2 =
      answersTo source (receiveAll sha3 b' (calls.filter fun d => d.source = source)).2 := by
  induction calls generalizing b b' with
  | nil => rfl
  | cons d calls ih =>
      obtain ⟨hnow, hlater⟩ := hexp
      by_cases hsource : d.source = source
      · subst hsource
        obtain ⟨hanswer, hagree⟩ := h.processFragment sha3 hnow d.data
        have hrest := ih hagree hlater
        unfold answersTo at hrest ⊢
        simp only [receiveAll, List.filter_cons, decide_true, if_true, List.map_cons, hanswer, hrest]
      · have hrest := ih (h.foreign (Ne.symm hsource) hnow d.data) hlater
        unfold answersTo at hrest ⊢
        simp only [receiveAll, List.filter_cons, decide_eq_true_eq, if_neg hsource, hrest]

end WarmLogic.Net.Fragmentation
