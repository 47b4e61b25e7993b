/-
# WarmLogic.Consensus.RaftPureAppend — what an AppendEntries does to the log and the commit index of `RaftCore`.

The handler takes `prev_log_index` and `leader_commit` as they come. Three of its messages do harm:

  * a `prev_log_index` below -1 passes the comparison with the length and is used as an index;
  * with nothing in the log and nothing to append the bound of the commit index is -1, which `as usize` makes the
    greatest number there is;
  * a conflict cuts the log wherever it is, also below the commit index, and the message may be too short to fill it up.

`append_step_safe_iff` says that these are all, and `append_safety_of_run` is the property of runs without them.

The model keeps the commit index as the `i64` it is cast to, so the second kind shows as a commit index of -1 in an
empty log; `CommitInLog` excludes it with its first clause. The casts are the reason for the case distinction in
`Harmless`: a message that leaves something in the log cannot bring the commit index below zero.

The loop over the entries has three turns: skip an entry that is there with the same term, cut at the first one that
is not, and append whatever is left (`appendLoop_cons`). What it leaves of the old log depends on one thing only,
whether one of the entries conflicts. If none does, the log can only grow; if one does, the message ends the log, and
how far the log reaches is the length of the message (`length_appendLoop`).

A leader's log enters in one place. If the entries are a part of it, then what the follower shares with it up to the
commit index is still there after the step (`handleAppendEntries_keeps`), because a shared entry is never in conflict.
-/
import WarmLogic.Consensus.RaftPure
import WarmLogic.Consensus.RaftEvent
import WarmLogic.Lib.Run

namespace WarmLogic.Consensus.RaftPure

open WarmLogic.Lib

/-! ## The loop -/

/-- One of the entries stands against an entry of another term in the log. -/
def Conflict (log : List LogEntry) (currentIdx : Nat) (entries : List LogEntry) : Prop :=
  ∃ j < entries.length, ∃ x ∈ log[currentIdx + j]?, ∃ y ∈ entries[j]?, x.term ≠ y.term

instance (log : List LogEntry) (currentIdx : Nat) (entries : List LogEntry) :
    Decidable (Conflict log currentIdx entries) :=
  inferInstanceAs (Decidable (∃ j < entries.length, ∃ x ∈ log[currentIdx + j]?, ∃ y ∈ entries[j]?, x.term ≠ y.term))

/-- Behind the end of the log nothing is in the way. -/
theorem not_conflict_of_le {log : List LogEntry} {currentIdx : Nat} (h : log.length ≤ currentIdx)
    (entries : List LogEntry) : ¬ Conflict log currentIdx entries := by
  rintro ⟨j, -, x, hx, -⟩
  rw [List.getElem?_eq_none (by omega)] at hx
  cases hx

/-- The first entry conflicts, or a later one does. -/
theorem conflict_cons {log : List LogEntry} {currentIdx : Nat} (h : currentIdx < log.length) (entry : LogEntry)
    (entries : List LogEntry) :
    Conflict log currentIdx (entry :: entries) ↔
      log[currentIdx].term ≠ entry.term ∨ Conflict log (currentIdx + 1) entries := by
  constructor
  · rintro ⟨j, hj, x, hx, y, hy, hne⟩
    cases j with
    | zero =>
        rw [Nat.add_zero, List.getElem?_eq_getElem h] at hx
        cases hx
        cases hy
        exact .inl hne
    | succ j =>
        refine .inr ⟨j, Nat.lt_of_succ_lt_succ hj, x, ?_, y, hy, hne⟩
        rw [show currentIdx + 1 + j = currentIdx + (j + 1) by omega]
        exact hx
  · rintro (hne | ⟨j, hj, x, hx, y, hy, hne⟩)
    · exact ⟨0, Nat.succ_pos _, log[currentIdx], List.getElem?_eq_getElem h, entry, rfl, hne⟩
    · refine ⟨j + 1, Nat.succ_lt_succ hj, x, ?_, y, hy, hne⟩
      rw [show currentIdx + (j + 1) = currentIdx + 1 + j by omega]
      exact hx

/-- At the end of the log the loop appends. -/
theorem appendLoop_at_end (log entries : List LogEntry) :
    RaftCore.appendLoop log log.length entries = log ++ entries := by
  induction entries generalizing log with
  | nil => rw [RaftCore.appendLoop, List.append_nil]
  | cons entry entries ih =>
      rw [RaftCore.appendLoop, dif_neg (Nat.lt_irrefl _)]
      have h := ih (log ++ [entry])
      rw [List.length_append, List.length_singleton] at h
      rw [h, List.append_assoc, List.singleton_append]

/-- **The loop, turn by turn**: cut and append everything that is left; or skip; or append everything. -/
theorem appendLoop_cons {log : List LogEntry} {currentIdx : Nat} (hle : currentIdx ≤ log.length) (entry : LogEntry)
    (entries : List LogEntry) :
    (Conflict log currentIdx (entry :: entries) ∧ currentIdx < log.length ∧
        log[currentIdx]?.map (·.term) ≠ some entry.term ∧
        RaftCore.appendLoop log currentIdx (entry :: entries) = log.take currentIdx ++ (entry :: entries)) ∨
      (currentIdx < log.length ∧ (Conflict log currentIdx (entry :: entries) ↔ Conflict log (currentIdx + 1) entries) ∧
        RaftCore.appendLoop log currentIdx (entry :: entries) = RaftCore.appendLoop log (currentIdx + 1) entries) ∨
      (currentIdx = log.length ∧
        RaftCore.appendLoop log currentIdx (entry :: entries) = log ++ (entry :: entries)) := by
  by_cases hlt : currentIdx < log.length
  · by_cases hne : log[currentIdx].term ≠ entry.term
    · refine .inl ⟨(conflict_cons hlt entry entries).mpr (.inl hne), hlt, ?_, ?_⟩
      · rw [List.getElem?_eq_getElem hlt, Option.map_some]
        exact fun h => hne (Option.some.inj h)
      · rw [RaftCore.appendLoop, dif_pos hlt, if_pos hne]
        have hlen : (log.take currentIdx ++ [entry]).length = currentIdx + 1 := by
          rw [List.length_append, List.length_take_of_le hle, List.length_singleton]
        have hrest := appendLoop_at_end (log.take currentIdx ++ [entry]) entries
        rw [hlen] at hrest
        rw [hrest, List.append_assoc, List.singleton_append]
    · refine .inr (.inl ⟨hlt, ?_, ?_⟩)
      · rw [conflict_cons hlt]
        exact ⟨fun h => h.resolve_left hne, .inr⟩
      · rw [RaftCore.appendLoop, dif_pos hlt, if_neg hne]
  · obtain rfl : currentIdx = log.length := by omega
    exact .inr (.inr ⟨rfl, appendLoop_at_end log (entry :: entries)⟩)

/-- **The length behind the loop**: the message ends the log if it conflicts, and only adds to it if not. -/
theorem length_appendLoop (entries : List LogEntry) {log : List LogEntry} {currentIdx : Nat}
    (hle : currentIdx ≤ log.length) :
    (Conflict log currentIdx entries →
        (RaftCore.appendLoop log currentIdx entries).length = currentIdx + entries.length) ∧
      (¬ Conflict log currentIdx entries →
        (RaftCore.appendLoop log currentIdx entries).length = max log.length (currentIdx + entries.length)) := by
  induction entries generalizing currentIdx with
  | nil =>
      refine ⟨?_, fun _ => ?_⟩
      · rintro ⟨j, hj, -⟩
        cases hj
      · rw [RaftCore.appendLoop, List.length_nil]
        omega
  | cons entry entries ih =>
      rw [List.length_cons]
      rcases appendLoop_cons hle entry entries with ⟨hconf, -, -, heq⟩ | ⟨hlt, hiff, heq⟩ | ⟨hend, heq⟩
      · refine ⟨fun _ => ?_, fun hnot => absurd hconf hnot⟩
        rw [heq, List.length_append, List.length_take_of_le hle, List.length_cons]
      · obtain ⟨hconf, hnot⟩ := @ih (currentIdx + 1) hlt
        rw [heq, hiff]
        refine ⟨fun h => ?_, fun h => ?_⟩
        · rw [hconf h]
          omega
        · rw [hnot h]
          omega
      · refine ⟨fun h => absurd h (not_conflict_of_le (Nat.le_of_eq hend.symm) _), fun _ => ?_⟩
        rw [heq, List.length_append, List.length_cons]
        omega

/-- **What the leader has too, stays**: an entry of the log that stands at its place in the leader's log is there
behind the loop, if the loop does not cut or the message reaches the place. -/
theorem appendLoop_keeps {leaderLog : List LogEntry} {i : Nat} {x : LogEntry} (hleader : leaderLog[i]? = some x)
    (entries : List LogEntry) {log : List LogEntry} {currentIdx : Nat} (hle : currentIdx ≤ log.length)
    (hsent : entries <+: leaderLog.drop currentIdx) (hx : log[i]? = some x)
    (hreach : Conflict log currentIdx entries → i < currentIdx + entries.length) :
    (RaftCore.appendLoop log currentIdx entries)[i]? = some x := by
  induction entries generalizing currentIdx with
  | nil =>
      rw [RaftCore.appendLoop]
      exact hx
  | cons entry entries ih =>
      have hlt_i : i < log.length := (List.getElem?_eq_some_iff.mp hx).1
      rcases appendLoop_cons hle entry entries with ⟨hconf, hlt, hne, heq⟩ | ⟨hlt, hiff, heq⟩ | ⟨hend, heq⟩
      · rw [heq]
        by_cases hbelow : i < currentIdx
        · rw [List.getElem?_append_left (by rw [List.length_take_of_le hle]; exact hbelow),
            List.getElem?_take_of_lt hbelow]
          exact hx
        · -- the message carries the leader's entry for the place
          have hlast := hreach hconf
          rw [List.getElem?_append_right (by rw [List.length_take_of_le hle]; omega), List.length_take_of_le hle]
          obtain ⟨rest, hrest⟩ := hsent
          have hget : (entry :: entries)[i - currentIdx]? = (leaderLog.drop currentIdx)[i - currentIdx]? := by
            rw [← hrest, List.getElem?_append_left (by omega)]
          rw [hget, List.getElem?_drop, Nat.add_sub_cancel' (by omega), hleader]
      · rw [heq]
        refine ih hlt ?_ (fun hconf => ?_)
        · obtain ⟨rest, hrest⟩ := hsent
          refine ⟨rest, ?_⟩
          rw [← List.drop_drop, ← hrest]
          rfl
        · have := hreach (hiff.mpr hconf)
          rw [List.length_cons] at this
          omega
      · rw [heq, List.getElem?_append_left hlt_i]
        exact hx

/-! ## One message -/

/-- What can be asked of the commit index: it is a position of the log, and 0 where there is none. The handler keeps
it by bounding the commit index of a message by the new last position, and loses it where that bound is below the old
one. -/
structure CommitInLog (s : RaftCore) : Prop where
  empty : s.log = [] → s.commitIndex = 0
  nonneg : 0 ≤ s.commitIndex
  bounded : s.log ≠ [] → s.commitIndex ≤ (s.log.length : Int) - 1

/-- The message has the consistency check pass. -/
def Consistent (s : RaftCore) (request : AppendEntriesDTO) : Prop :=
  RaftEngine.prevMatches s.log request.prevLogIndex request.prevLogTerm = some true

instance (s : RaftCore) (request : AppendEntriesDTO) : Decidable (Consistent s request) :=
  inferInstanceAs (Decidable (_ = _))

/-- **The harmless messages**: of an older term; or with a previous index of -1 at least, and where it fits, not a
bare heartbeat of a commit on an empty log, and reaching beyond the commit index if a conflict cuts the log. A message
that fails the consistency check changes neither log nor commit index, so nothing else is asked of it. -/
def Harmless (s : RaftCore) (request : AppendEntriesDTO) : Prop :=
  ¬ request.term < s.currentTerm → -1 ≤ request.prevLogIndex ∧ (Consistent s request →
    (s.log = [] → request.entries = [] → request.leaderCommit ≤ 0) ∧
    (Conflict s.log (request.prevLogIndex + 1).toNat request.entries →
      s.commitIndex < request.prevLogIndex + 1 + request.entries.length))

instance (s : RaftCore) (request : AppendEntriesDTO) : Decidable (Harmless s request) :=
  inferInstanceAs (Decidable (_ → _ ∧ (_ → (_ → _ → _) ∧ (_ → _))))

/-- What a step is to keep. -/
structure StepSafe (s s' : RaftCore) : Prop where
  rises : s.commitIndex ≤ s'.commitIndex
  inLog : CommitInLog s'

@[simp] theorem log_observeTerm (s : RaftCore) (term : UInt64) : (s.observeTerm term).log = s.log := by
  unfold RaftCore.observeTerm
  split <;> rfl

@[simp] theorem commitIndex_observeTerm (s : RaftCore) (term : UInt64) :
    (s.observeTerm term).commitIndex = s.commitIndex := by
  unfold RaftCore.observeTerm
  split <;> rfl

/-- A message is of an older term before the handler looks at it or not at all. -/
theorem lt_observeTerm (s : RaftCore) (term : UInt64) :
    term < (s.observeTerm term).currentTerm ↔ term < s.currentTerm := by
  unfold RaftCore.observeTerm
  split
  · rename_i hgt
    exact ⟨fun h => absurd h (UInt64.lt_irrefl _), fun h => absurd (UInt64.lt_trans h hgt) (UInt64.lt_irrefl _)⟩
  · exact Iff.rfl

/-- The two cases in one bound: a truncated difference. -/
theorem commitInLog_iff {s : RaftCore} :
    CommitInLog s ↔ 0 ≤ s.commitIndex ∧ s.commitIndex ≤ ((s.log.length - 1 : Nat) : Int) := by
  have hnil : s.log = [] ↔ s.log.length = 0 := List.length_eq_zero_iff.symm
  constructor
  · rintro ⟨hempty, hnonneg, hbounded⟩
    refine ⟨hnonneg, ?_⟩
    by_cases h : s.log = []
    · rw [hempty h]
      omega
    · have := hbounded h
      rw [hnil] at h
      omega
  · rintro ⟨hnonneg, hle⟩
    refine ⟨fun h => ?_, hnonneg, fun h => ?_⟩
    · rw [hnil] at h
      omega
    · rw [ne_eq, hnil] at h
      omega

/-- Where the check passes the entries go into the log or to its end. -/
theorem le_length_of_consistent {s : RaftCore} {request : AppendEntriesDTO} (h : Consistent s request) :
    -1 ≤ request.prevLogIndex ∧ (request.prevLogIndex + 1).toNat ≤ s.log.length := by
  unfold Consistent RaftEngine.prevMatches at h
  split at h
  · omega
  · split at h
    · split at h
      · cases h
      · omega
    · cases h

/-- **What `handle_append_entries` does to log and commit index**: it panics; or leaves both; or runs the loop. -/
theorem handleAppendEntries_cases (s : RaftCore) (request : AppendEntriesDTO) :
    (¬ request.term < s.currentTerm ∧ request.prevLogIndex < -1 ∧ s.handleAppendEntries request = none) ∨
      (∃ s' reply, s.handleAppendEntries request = some (s', reply) ∧ s'.log = s.log ∧ s'.commitIndex = s.commitIndex ∧
        (¬ request.term < s.currentTerm → -1 ≤ request.prevLogIndex ∧ ¬ Consistent s request)) ∨
      (∃ s' reply, s.handleAppendEntries request = some (s', reply) ∧ ¬ request.term < s.currentTerm ∧
        Consistent s request ∧
        s'.log = RaftCore.appendLoop s.log (request.prevLogIndex + 1).toNat request.entries ∧
        s'.commitIndex =
          if request.leaderCommit > s.commitIndex then min request.leaderCommit ((s'.log.length : Int) - 1)
          else s.commitIndex) := by
  unfold RaftCore.handleAppendEntries
  dsimp only
  by_cases hold : request.term < s.currentTerm
  · rw [if_pos ((lt_observeTerm s request.term).mpr hold)]
    exact .inr (.inl ⟨_, _, rfl, log_observeTerm s _, commitIndex_observeTerm s _, fun h => absurd hold h⟩)
  · rw [if_neg (mt (lt_observeTerm s request.term).mp hold), log_observeTerm]
    cases hmatch : RaftEngine.prevMatches s.log request.prevLogIndex request.prevLogTerm with
    | none => exact .inl ⟨hold, RaftEngine.prevMatches_eq_none.mp hmatch, rfl⟩
    | some ok =>
        cases ok with
        | false =>
            refine .inr (.inl ⟨_, _, rfl, rfl, commitIndex_observeTerm s _, fun _ => ⟨?_, ?_⟩⟩)
            · by_contra hlt
              rw [RaftEngine.prevMatches_eq_none.mpr (by omega)] at hmatch
              cases hmatch
            · intro hcons
              unfold Consistent at hcons
              rw [hmatch] at hcons
              cases hcons
        | true =>
            refine .inr (.inr ⟨_, _, rfl, hold, hmatch, rfl, ?_⟩)
            dsimp only
            rw [commitIndex_observeTerm]

/-- The new log reaches beyond the old commit index, unless there is nothing at all. -/
theorem lt_length_of_reach {s s' : RaftCore} {request : AppendEntriesDTO} (hs : CommitInLog s)
    (hcons : Consistent s request)
    (hlog : s'.log = RaftCore.appendLoop s.log (request.prevLogIndex + 1).toNat request.entries)
    (hreach : Conflict s.log (request.prevLogIndex + 1).toNat request.entries →
      s.commitIndex < request.prevLogIndex + 1 + request.entries.length) :
    s.commitIndex < (s'.log.length : Int) ∨ (s.log = [] ∧ request.entries = [] ∧ s'.log.length = 0) := by
  obtain ⟨hprev, hle⟩ := le_length_of_consistent hcons
  obtain ⟨hconf, hnot⟩ := length_appendLoop request.entries hle
  rw [← hlog] at hconf hnot
  obtain ⟨hnonneg, hbound⟩ := commitInLog_iff.mp hs
  by_cases hc : Conflict s.log (request.prevLogIndex + 1).toNat request.entries
  · have hlast := hreach hc
    have hlen := hconf hc
    omega
  · have hmax := hnot hc
    by_cases hzero : s'.log.length = 0
    · exact .inr ⟨List.length_eq_zero_iff.mp (by omega), List.length_eq_zero_iff.mp (by omega), hzero⟩
    · omega

/-- **An accepted message is safe exactly when it is harmless.** -/
theorem accepted_safe_iff {s s' : RaftCore} {request : AppendEntriesDTO} (hs : CommitInLog s)
    (hcons : Consistent s request)
    (hlog : s'.log = RaftCore.appendLoop s.log (request.prevLogIndex + 1).toNat request.entries)
    (hcommit : s'.commitIndex =
      if request.leaderCommit > s.commitIndex then min request.leaderCommit ((s'.log.length : Int) - 1)
      else s.commitIndex) :
    StepSafe s s' ↔ (s.log = [] → request.entries = [] → request.leaderCommit ≤ 0) ∧
      (Conflict s.log (request.prevLogIndex + 1).toNat request.entries →
        s.commitIndex < request.prevLogIndex + 1 + request.entries.length) := by
  obtain ⟨hprev, hle⟩ := le_length_of_consistent hcons
  obtain ⟨hnonneg, hbound⟩ := commitInLog_iff.mp hs
  constructor
  · intro hsafe
    obtain ⟨hnonneg', hbound'⟩ := commitInLog_iff.mp hsafe.inLog
    have hrises := hsafe.rises
    refine ⟨fun hempty hnil => ?_, fun hc => ?_⟩
    · -- the log stays empty, and the bound of a new commit index is -1
      rw [hempty, hnil, RaftCore.appendLoop] at hlog
      rw [hlog, List.length_nil] at hcommit
      rw [hempty, List.length_nil] at hbound
      by_contra hlt
      rw [if_pos (by omega)] at hcommit
      omega
    · have hlen := (length_appendLoop request.entries hle).1 hc
      rw [← hlog] at hlen
      have hpos : 0 < request.entries.length := by
        obtain ⟨j, hj, -⟩ := hc
        omega
      omega
  · rintro ⟨hheartbeat, hreach⟩
    have hlen := lt_length_of_reach hs hcons hlog hreach
    -- a heartbeat on nothing brings no new commit index
    have hstill : s.log = [] → request.entries = [] → request.leaderCommit ≤ s.commitIndex := by
      intro hempty hnil
      have := hheartbeat hempty hnil
      omega
    have hrises : s.commitIndex ≤ s'.commitIndex := by
      rw [hcommit]
      split
      · rcases hlen with hlen | ⟨hempty, hnil, -⟩
        · omega
        · have := hstill hempty hnil
          omega
      · exact Int.le_refl _
    refine ⟨hrises, commitInLog_iff.mpr ⟨hnonneg.trans hrises, ?_⟩⟩
    rw [hcommit]
    split
    · omega
    · rcases hlen with hlen | ⟨hempty, -, -⟩
      · omega
      · rw [hempty, List.length_nil] at hbound
        omega

/-- **Exactly the harmless messages keep the commit index safe**, from a state in which it is. -/
theorem append_step_safe_iff {s : RaftCore} (hs : CommitInLog s) (request : AppendEntriesDTO) :
    (∃ s' reply, s.handleAppendEntries request = some (s', reply) ∧ StepSafe s s') ↔ Harmless s request := by
  rcases handleAppendEntries_cases s request with ⟨hnew, hprev, heq⟩ | ⟨s', reply, heq, hlog, hcommit, hrefused⟩ |
    ⟨s', reply, heq, hnew, hcons, hlog, hcommit⟩
  · rw [heq]
    refine ⟨fun ⟨_, _, h, _⟩ => absurd h (by simp), fun h => ?_⟩
    have := (h hnew).1
    omega
  · refine ⟨fun _ hnew => ⟨(hrefused hnew).1, fun hcons => absurd hcons (hrefused hnew).2⟩, fun _ => ?_⟩
    refine ⟨s', reply, heq, Int.le_of_eq hcommit.symm, commitInLog_iff.mpr ?_⟩
    rw [hlog, hcommit]
    exact commitInLog_iff.mp hs
  · have hprev := (le_length_of_consistent hcons).1
    have hsafe := accepted_safe_iff hs hcons hlog hcommit
    constructor
    · rintro ⟨t, _, ht, hstep⟩
      rw [heq] at ht
      cases ht
      exact fun _ => ⟨hprev, fun _ => hsafe.mp hstep⟩
    · intro h
      exact ⟨s', reply, heq, hsafe.mpr ((h hnew).2 hcons)⟩

/-- A harmless message of a leader keeps what the leader has too, up to the commit index. -/
theorem handleAppendEntries_keeps {s s' : RaftCore} {request : AppendEntriesDTO} {reply : AppendEntriesResponseDTO}
    (hharmless : Harmless s request) (hstep : s.handleAppendEntries request = some (s', reply))
    {leaderLog : List LogEntry}
    (hsent : request.entries <+: leaderLog.drop (request.prevLogIndex + 1).toNat) {i : Nat} {x : LogEntry}
    (hi : (i : Int) ≤ s.commitIndex) (hx : s.log[i]? = some x) (hleader : leaderLog[i]? = some x) :
    s'.log[i]? = some x := by
  rcases handleAppendEntries_cases s request with ⟨-, -, heq⟩ | ⟨t, _, heq, hlog, -⟩ | ⟨t, _, heq, hnew, hcons, hlog, -⟩
  · rw [heq] at hstep
    cases hstep
  · rw [heq] at hstep
    cases hstep
    rw [hlog]
    exact hx
  · rw [heq] at hstep
    cases hstep
    obtain ⟨hprev, hle⟩ := le_length_of_consistent hcons
    rw [hlog]
    refine appendLoop_keeps hleader request.entries hle hsent hx fun hc => ?_
    have := ((hharmless hnew).2 hcons).2 hc
    omega

/-! ## Runs -/

/-- The AppendEntries an event brings to the handler. A payload that does not parse is dropped before it. -/
def RaftEvent.appended (serde : Serde) : RaftEvent → Option AppendEntriesDTO
  | .rpc msg => if msg.rpcType = "AppendEntries" then serde.parseAppendEntries msg.payload else none
  | _ => none

/-- A new core, driven by any events. -/
def coreMachine (serde : Serde) : System RaftCore RaftEvent where
  init s := ∃ nodeId, s = RaftCore.new nodeId
  step event s := (s.handleEvent serde event).map (·.1)

/-- An election after the last term: the one other panic. -/
def RaftEvent.overflows (s : RaftCore) (event : RaftEvent) : Prop :=
  event = .tick true ∧ s.state ≠ .leader ∧ s.currentTerm.toNat + 1 = 2 ^ 64

instance (s : RaftCore) : ∀ event : RaftEvent, Decidable (event.overflows s)
  | .tick elapsed => decidable_of_iff (elapsed = true ∧ s.state ≠ .leader ∧ s.currentTerm.toNat + 1 = 2 ^ 64)
      (and_congr_left' ⟨fun h => by rw [h], RaftEvent.tick.inj⟩)
  | .rpc _ => isFalse fun h => RaftEvent.noConfusion h.1
  | .clientRequest _ => isFalse fun h => RaftEvent.noConfusion h.1
  | .adminCommand _ => isFalse fun h => RaftEvent.noConfusion h.1

/-- The guard: the AppendEntries of the event, if it brings one, is harmless, and no election overflows the term. -/
def HarmlessEvent (serde : Serde) (event : RaftEvent) (s : RaftCore) : Prop :=
  (∀ request ∈ event.appended serde, Harmless s request) ∧ ¬ event.overflows s

instance (serde : Serde) (event : RaftEvent) (s : RaftCore) : Decidable (HarmlessEvent serde event s) :=
  inferInstanceAs (Decidable ((∀ request ∈ event.appended serde, _) ∧ ¬ _))

/-- Up to the commit index, what stands in the log and in the log of the sending leader stays. Nothing is said about
entries that the leader does not have: a conflict may cut them. -/
def KeepsShared (serde : Serde) (event : RaftEvent) (s s' : RaftCore) : Prop :=
  ∀ request ∈ event.appended serde, ∀ leaderLog : List LogEntry,
    request.entries <+: leaderLog.drop (request.prevLogIndex + 1).toNat → ∀ (i : Nat) (x : LogEntry),
      (i : Int) ≤ s.commitIndex → s.log[i]? = some x → leaderLog[i]? = some x → s'.log[i]? = some x

/-- A request for a vote leaves log and commit index. -/
theorem log_handleRequestVote (s : RaftCore) (request : RequestVoteDTO) :
    (s.handleRequestVote request).1.log = s.log ∧ (s.handleRequestVote request).1.commitIndex = s.commitIndex := by
  unfold RaftCore.handleRequestVote
  dsimp only
  split
  · exact ⟨log_observeTerm s _, commitIndex_observeTerm s _⟩
  · exact ⟨log_observeTerm s _, commitIndex_observeTerm s _⟩

/-- A tick leaves log and commit index, or the election overflows the term. -/
theorem tick_cases (s : RaftCore) (elapsed : Bool) :
    (RaftEvent.overflows s (.tick elapsed) ∧ s.tick elapsed = none) ∨
      ¬ RaftEvent.overflows s (.tick elapsed) ∧ ∃ s', s.tick elapsed = some s' ∧ s'.log = s.log ∧
        s'.commitIndex = s.commitIndex := by
  unfold RaftCore.tick
  by_cases hfire : elapsed ∧ s.state ≠ .leader
  · rw [if_pos hfire]
    unfold RaftCore.startElection
    by_cases hlast : s.currentTerm.toNat + 1 = 2 ^ 64
    · rw [if_pos hlast]
      exact .inl ⟨⟨congrArg RaftEvent.tick hfire.1, hfire.2, hlast⟩, rfl⟩
    · rw [if_neg hlast]
      exact .inr ⟨fun h => hlast h.2.2, _, rfl, rfl, rfl⟩
  · rw [if_neg hfire]
    exact .inr ⟨fun h => hfire ⟨RaftEvent.tick.inj h.1, h.2.1⟩, s, rfl, rfl, rfl⟩

/-- A message does not overflow the term. -/
theorem RaftEvent.not_overflows_rpc (s : RaftCore) (msg : TextRPC) : ¬ RaftEvent.overflows s (.rpc msg) := by
  rintro ⟨h, -⟩
  cases h

/-- **What an event does**: it overflows the term; without an AppendEntries it leaves log and commit index; with one it
is the handler. -/
theorem handleEvent_cases (serde : Serde) (s : RaftCore) (event : RaftEvent) :
    (event.overflows s ∧ s.handleEvent serde event = none) ∨
      (event.appended serde = none ∧ ¬ event.overflows s ∧ ∃ s' reply, s.handleEvent serde event = some (s', reply) ∧
        s'.log = s.log ∧ s'.commitIndex = s.commitIndex) ∨
      ∃ request, event.appended serde = some request ∧ ¬ event.overflows s ∧
        (s.handleEvent serde event).map (·.1) = (s.handleAppendEntries request).map (·.1) := by
  cases event with
  | tick elapsed =>
      rcases tick_cases s elapsed with ⟨hover, hnone⟩ | ⟨hnot, s', hstep, hsame⟩
      · refine .inl ⟨hover, ?_⟩
        show (s.tick elapsed).map _ = none
        rw [hnone]
        rfl
      · refine .inr (.inl ⟨rfl, hnot, s', none, ?_, hsame⟩)
        show (s.tick elapsed).map _ = some (s', none)
        rw [hstep]
        rfl
  | clientRequest command =>
      refine .inr (.inl ⟨rfl, ?_, s, none, rfl, rfl, rfl⟩)
      rintro ⟨h, -⟩
      cases h
  | adminCommand command =>
      refine .inr (.inl ⟨rfl, ?_, s, none, rfl, rfl, rfl⟩)
      rintro ⟨h, -⟩
      cases h
  | rpc msg =>
      refine .inr ?_
      have hnot := RaftEvent.not_overflows_rpc s msg
      show ((if msg.rpcType = "AppendEntries" then serde.parseAppendEntries msg.payload else none) = none ∧ _ ∧
          ∃ s' reply, s.handleRpc serde msg = some (s', reply) ∧ s'.log = s.log ∧ s'.commitIndex = s.commitIndex) ∨
        ∃ request,
          (if msg.rpcType = "AppendEntries" then serde.parseAppendEntries msg.payload else none) = some request ∧ _ ∧
          (s.handleRpc serde msg).map (·.1) = (s.handleAppendEntries request).map (·.1)
      unfold RaftCore.handleRpc
      by_cases hvote : msg.rpcType = "RequestVote"
      · have hother : msg.rpcType ≠ "AppendEntries" := by
          rw [hvote]
          decide
        rw [if_neg hother, if_pos hvote]
        refine .inl ⟨rfl, hnot, ?_⟩
        cases serde.parseRequestVote msg.payload with
        | none => exact ⟨s, none, rfl, rfl, rfl⟩
        | some request => exact ⟨_, _, rfl, log_handleRequestVote s request⟩
      · rw [if_neg hvote]
        by_cases happend : msg.rpcType = "AppendEntries"
        · rw [if_pos happend, if_pos happend]
          cases serde.parseAppendEntries msg.payload with
          | none => exact .inl ⟨rfl, hnot, s, none, rfl, rfl, rfl⟩
          | some request =>
              refine .inr ⟨request, rfl, hnot, ?_⟩
              dsimp only
              cases s.handleAppendEntries request with
              | none => rfl
              | some r => rfl
        · rw [if_neg happend, if_neg happend]
          exact .inl ⟨rfl, hnot, s, none, rfl, rfl, rfl⟩

/-- **Exactly the harmless events are handled and keep the commit index safe.** -/
theorem event_step_safe_iff (serde : Serde) {s : RaftCore} (hs : CommitInLog s) (event : RaftEvent) :
    (∃ s', (coreMachine serde).step event s = some s' ∧ StepSafe s s') ↔ HarmlessEvent serde event s := by
  rcases handleEvent_cases serde s event with ⟨hover, hnone⟩ | ⟨hnone, hnot, s', reply, heq, hlog, hcommit⟩ |
    ⟨request, hrequest, hnot, heq⟩
  · refine ⟨fun ⟨s', hstep, _⟩ => ?_, fun hok => absurd hover hok.2⟩
    have hstep : (s.handleEvent serde event).map (·.1) = some s' := hstep
    rw [hnone] at hstep
    cases hstep
  · have hstep : (coreMachine serde).step event s = some s' := by
      show (s.handleEvent serde event).map (·.1) = some s'
      rw [heq]
      rfl
    refine ⟨fun _ => ⟨fun request hrequest => ?_, hnot⟩, fun _ => ⟨s', hstep, ?_, ?_⟩⟩
    · rw [hnone] at hrequest
      cases hrequest
    · rw [hcommit]
    · rw [commitInLog_iff, hlog, hcommit]
      exact commitInLog_iff.mp hs
  · have hguard : HarmlessEvent serde event s ↔ Harmless s request := by
      unfold HarmlessEvent
      rw [hrequest]
      refine ⟨fun h => h.1 request rfl, fun h => ⟨fun r hr => ?_, hnot⟩⟩
      cases hr
      exact h
    rw [hguard, ← append_step_safe_iff hs]
    show (∃ s', (s.handleEvent serde event).map (·.1) = some s' ∧ StepSafe s s') ↔ _
    rw [heq]
    constructor
    · rintro ⟨s', hstep, hsafe⟩
      obtain ⟨r, hr, rfl⟩ := Option.map_eq_some_iff.mp hstep
      exact ⟨r.1, r.2, hr, hsafe⟩
    · rintro ⟨s', reply, hstep, hsafe⟩
      rw [hstep]
      exact ⟨s', rfl, hsafe⟩

/-- An event with an AppendEntries is the handler. -/
theorem step_of_appended {serde : Serde} {event : RaftEvent} {request : AppendEntriesDTO}
    (h : event.appended serde = some request) (s : RaftCore) :
    (coreMachine serde).step event s = (s.handleAppendEntries request).map (·.1) := by
  rcases handleEvent_cases serde s event with ⟨⟨rfl, -⟩, -⟩ | ⟨hnone, -⟩ | ⟨request', hrequest, -, heq⟩
  · cases h
  · rw [hnone] at h
    cases h
  · obtain rfl : request' = request := Option.some.inj (hrequest.symm.trans h)
    exact heq

/-- **The run lemma** for the commit index. -/
theorem commitInLog_of_run {serde : Serde} {h : List RaftCore} (hr : (coreMachine serde).Run (HarmlessEvent serde) h) :
    ∀ s ∈ h, CommitInLog s := by
  refine hr.forall_mem ?_ ?_
  · rintro s ⟨nodeId, rfl⟩
    exact ⟨fun _ => rfl, Int.le_refl 0, fun hne => absurd rfl hne⟩
  · intro s event s' hs hok hstep
    obtain ⟨t, ht, hsafe⟩ := (event_step_safe_iff serde hs event).mpr hok
    rw [hstep] at ht
    cases ht
    exact hsafe.inLog

/-- **Append safety.** In every run of harmless events the commit index never decreases and is a position of the log
(0 on an empty one); and in each of its states a harmless event is handled without an access out of range, and removes
or replaces nothing up to the commit index that the sending leader has too. -/
theorem append_safety_of_run (serde : Serde) (h : List RaftCore)
    (hr : (coreMachine serde).Run (HarmlessEvent serde) h) :
    h.Pairwise (fun later earlier => earlier.commitIndex ≤ later.commitIndex) ∧ (∀ s ∈ h, CommitInLog s) ∧
      ∀ s ∈ h, ∀ event, HarmlessEvent serde event s →
        ∃ s' reply, s.handleEvent serde event = some (s', reply) ∧ KeepsShared serde event s s' := by
  refine ⟨?_, commitInLog_of_run hr, ?_⟩
  · refine hr.pairwise (R := fun later earlier => earlier.commitIndex ≤ later.commitIndex)
      (fun _ _ _ hab hbc => Int.le_trans hbc hab) ?_
    rintro event s s' ⟨past, hrun⟩ hok hstep
    obtain ⟨t, ht, hsafe⟩ :=
      (event_step_safe_iff serde (commitInLog_of_run hrun s List.mem_cons_self) event).mpr hok
    rw [hstep] at ht
    cases ht
    exact hsafe.rises
  · intro s hs event hok
    obtain ⟨s', hstep, -⟩ := (event_step_safe_iff serde (commitInLog_of_run hr s hs) event).mpr hok
    have hstep : (s.handleEvent serde event).map (·.1) = some s' := hstep
    obtain ⟨⟨t, reply⟩, heq, rfl⟩ := Option.map_eq_some_iff.mp hstep
    refine ⟨t, reply, heq, fun request hrequest leaderLog hsent i x hi hx hleader => ?_⟩
    rcases handleEvent_cases serde s event with ⟨hover, -⟩ | ⟨hnone, -⟩ | ⟨request', hrequest', -, hsame⟩
    · exact absurd hover hok.2
    · rw [hnone] at hrequest
      cases hrequest
    · obtain rfl : request' = request := Option.some.inj (hrequest'.symm.trans hrequest)
      rw [hstep] at hsame
      obtain ⟨⟨u, reply'⟩, hu, hut⟩ := Option.map_eq_some_iff.mp hsame.symm
      cases hut
      exact handleAppendEntries_keeps (hok.1 request' hrequest') hu hsent hi hx hleader

/-! ## Scripts -/

/-- An entry as `serde_json` writes it, for texts without a character that needs an escape. -/
def entryJson (e : LogEntry) : String :=
  "\x7b\"term\":" ++ toString e.term ++ ",\"data\":\"" ++ e.data ++ "\",\"signature\":\"" ++ e.signature ++
  "\",\"voter_id\":\"" ++ e.voterId ++ "\",\"cumulative_hash\":\"" ++ e.cumulativeHash ++
  "\",\"poseidon_hash\":\"" ++ e.poseidonHash ++ "\",\"zk_proof\":[" ++
  ",".intercalate (e.zkProof.map toString) ++ "],\"index\":" ++ toString e.index ++ "\x7d"

/-- A request as `serde_json` writes it. -/
def requestJson (r : AppendEntriesDTO) : String :=
  "\x7b\"term\":" ++ toString r.term ++ ",\"leader_id\":\"" ++ r.leaderId ++ "\",\"prev_log_index\":" ++
  toString r.prevLogIndex ++ ",\"prev_log_term\":" ++ toString r.prevLogTerm ++ ",\"entries\":[" ++
  ",".intercalate (r.entries.map entryJson) ++ "],\"leader_commit\":" ++ toString r.leaderCommit ++ "\x7d"

/-- A `serde_json` for the AppendEntries of one script. -/
def Serde.reading (requests : List AppendEntriesDTO) : Serde where
  parseRequestVote _ := none
  parseAppendEntries t := requests.find? fun r => requestJson r == t
  printVoteResponse _ := ""
  printAppendResponse _ := ""

/-- The delivery of the request. -/
def appendRpc (r : AppendEntriesDTO) : RaftEvent :=
  .rpc { rpcType := "AppendEntries", term := r.term, senderId := r.leaderId, targetId := some "n",
         payload := requestJson r, signature := "", poseidonHash := "" }

/-- An entry of a script, with texts that need no escape. -/
def commandEntry (term : UInt64) (data : String) (index : UInt64) : LogEntry where
  term := term
  data := data
  signature := ""
  voterId := "a"
  cumulativeHash := ""
  poseidonHash := ""
  zkProof := []
  index := index

/-- The first entry of leader `a`, and a commit index past the end. -/
def firstAppend : AppendEntriesDTO where
  term := 1
  leaderId := "a"
  prevLogIndex := -1
  prevLogTerm := 0
  entries := [commandEntry 1 "CMD:x" 0]
  leaderCommit := 1

/-- Two more entries of `a`, the first of them committed. -/
def secondAppend : AppendEntriesDTO where
  term := 1
  leaderId := "a"
  prevLogIndex := 0
  prevLogTerm := 1
  entries := [commandEntry 1 "CMD:y" 1, commandEntry 1 "CMD:z" 2]
  leaderCommit := 1

/-- The log of `b`, leader of term 2, which has another entry in the third place. -/
def rivalLog : List LogEntry := [commandEntry 1 "CMD:x" 0, commandEntry 1 "CMD:y" 1, commandEntry 2 "CMD:w" 2]

/-- `b` sends its whole log. -/
def rivalAppend : AppendEntriesDTO where
  term := 2
  leaderId := "b"
  prevLogIndex := -1
  prevLogTerm := 0
  entries := rivalLog
  leaderCommit := 0

/-- The three requests of the script. -/
def rivalScript : Serde := .reading [firstAppend, secondAppend, rivalAppend]

/-- A core has committed two of three entries when the next leader sends its log from the start: the message conflicts
with the third entry only, and the committed two stay. -/
theorem append_safety_of_run_rival : ∃ h, (coreMachine rivalScript).Run (HarmlessEvent rivalScript) h ∧
    (∃ s ∈ h.head?, s.log = rivalLog ∧ s.commitIndex = 1) ∧
    (h.Pairwise fun later earlier => earlier.commitIndex ≤ later.commitIndex) ∧ (∀ s ∈ h, CommitInLog s) ∧
    ∃ s ∈ h.tail.head?, s.log.map (·.data) = ["CMD:x", "CMD:y", "CMD:z"] ∧ s.commitIndex = 1 ∧
      ∃ s' reply, s.handleEvent rivalScript (appendRpc rivalAppend) = some (s', reply) ∧
        KeepsShared rivalScript (appendRpc rivalAppend) s s' := by
  obtain ⟨s, past, hrun, ⟨hlog, hcommit⟩, t, ht, hbefore, hok⟩ := System.exists_run_of_play (HarmlessEvent rivalScript)
    (P := fun s h => (s.log = rivalLog ∧ s.commitIndex = 1) ∧ ∃ t ∈ h.tail.head?,
      (t.log.map (·.data) = ["CMD:x", "CMD:y", "CMD:z"] ∧ t.commitIndex = 1) ∧
        HarmlessEvent rivalScript (appendRpc rivalAppend) t)
    (M := coreMachine rivalScript) (s := RaftCore.new "n") ⟨"n", rfl⟩
    [fun _ => appendRpc firstAppend, fun _ => appendRpc secondAppend, fun _ => appendRpc rivalAppend]
    (by decide +kernel)
  obtain ⟨hrises, hin, hstep⟩ := append_safety_of_run rivalScript _ hrun
  refine ⟨_, hrun, ⟨s, rfl, hlog, hcommit⟩, hrises, hin, t, ht, hbefore.1, hbefore.2, ?_⟩
  exact hstep t (List.mem_cons_of_mem _ (List.mem_of_mem_head? ht)) _ hok

/-- A heartbeat with a commit index, before the first entry. -/
def earlyCommit : AppendEntriesDTO where
  term := 1
  leaderId := "a"
  prevLogIndex := -1
  prevLogTerm := 0
  entries := []
  leaderCommit := 1

/-- The heartbeat makes the commit index of a new core the greatest `usize`. -/
theorem early_commit_passes_log : ¬ ∀ (serde : Serde) (h : List RaftCore),
    (coreMachine serde).Run (fun event s => ¬ event.overflows s) h →
      h.Pairwise (fun later earlier => earlier.commitIndex ≤ later.commitIndex) ∧ (∀ s ∈ h, CommitInLog s) ∧
      ∀ s ∈ h, ∀ event : RaftEvent, ¬ event.overflows s →
        ∃ s' reply, s.handleEvent serde event = some (s', reply) ∧ KeepsShared serde event s s' := by
  intro hall
  have hrequest : (appendRpc earlyCommit).appended (.reading [earlyCommit]) = some earlyCommit := by decide +kernel
  have hinit : (coreMachine (.reading [earlyCommit])).init (RaftCore.new "n") := ⟨"n", rfl⟩
  have hrun : (coreMachine (.reading [earlyCommit])).Run (fun event s => ¬ event.overflows s) _ :=
    .step (.init hinit) (RaftEvent.not_overflows_rpc _ _) (step_of_appended hrequest (RaftCore.new "n"))
  have hin := (hall _ _ hrun).2.1 _ List.mem_cons_self
  exact absurd hin.nonneg (by decide)

end WarmLogic.Consensus.RaftPure
