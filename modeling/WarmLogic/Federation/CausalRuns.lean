/-
# WarmLogic.Federation.CausalRuns — runs of the state engine with `resolve_conflict`: clock dominance and regressions.

The clock of the engine is meant to be at or above everything the engine holds, so that a local write supersedes what
its key held; and an entry should never give way to one that happened before it. Both are about whole runs: entries
come in with the clocks of other regions, under changed keys, or out of a conflict that was parked long ago. `Write`
says once which entries a call can put under which key, and the two results follow from it.

The counter of the own region is a `u64` that a remote entry can set to its last value; the next local write then
takes it back to 0 (`NoWrap` excludes that). Apart from it the dominance is kept by every call
(`engine_clock_dominates`), and an entry gives way to an older one in exactly two places (`regression_iff_stale`): a
parked snapshot is put back after the key went on, and `KeepBoth` files an entry over a newer one.

The invariant is `Coherent`. That what is stored stays below the engine's clock is because a remote entry's clock is
merged before the entry is stored, and a local entry carries the clock of the engine itself. For parked conflicts it
says also that the key holds the local entry still, or a later one; so resolving for the local entry is stale exactly
if the key went on. Both parts need that the clock never falls (`clock_le_call`), which is where the wrap of the own
counter would come in.
-/
import WarmLogic.Federation.ClockOrder
import WarmLogic.Federation.StateSync
import Mathlib.Data.UInt

namespace WarmLogic.Federation

open WarmLogic.Lib

/-! ## Resolving a parked conflict -/

/-- `supersedes`. -/
def StateEntry.supersedes (entry other : StateEntry) : Bool := other.clock.happensBefore entry.clock

/-- `resolve_local`: the conflict as marked, and the entry it names. -/
def Conflict.resolveLocal (c : Conflict) : Conflict × StateEntry :=
  ({ c with resolved := true, winner := some "local" }, c.localEntry)

/-- `resolve_remote`. -/
def Conflict.resolveRemote (c : Conflict) : Conflict × StateEntry :=
  ({ c with resolved := true, winner := some "remote" }, c.remote)

/-- `resolve_conflict`: the parked entry goes in, whatever the key holds by now. The marked conflict is dropped. -/
def StateSyncEngine.resolveConflict (e : StateSyncEngine) (key : String) (chooseLocal : Bool) :
    StateSyncEngine × Option StateEntry :=
  match e.conflicts.lookup key with
  | some conflict =>
      let winner := if chooseLocal then conflict.resolveLocal.2 else conflict.resolveRemote.2
      ({ e with conflicts := e.conflicts.erase key, state := e.state.insert key winner }, some winner)
  | none => (e, none)

/-- A call that changes the engine, `resolve_conflict` included. -/
inductive EngineOp where
  | sync (op : SyncOp)
  | resolveConflict (key : String) (chooseLocal : Bool)

/-- The engine after a call. -/
def EngineOp.call (sha3 : List UInt8 → EntryHash) (e : StateSyncEngine) : EngineOp → StateSyncEngine
  | .sync op => op.call sha3 e
  | .resolveConflict key chooseLocal => (e.resolveConflict key chooseLocal).1

/-- An engine from `new`, under any calls. -/
def engineRuns (sha3 : List UInt8 → EntryHash) : System StateSyncEngine EngineOp where
  init e := ∃ regionId strategy, e = .new regionId strategy
  step op e := some (op.call sha3 e)

/-! ## What a call writes -/

/-- The calls that advance the counter of the own region. -/
def Ticks (e : StateSyncEngine) : EngineOp → Prop
  | .sync (.put _ _ _ _) => True
  | .sync (.delete key _ _) => key ∈ e.state
  | .sync (.applyRemote _) => False
  | .resolveConflict _ _ => False

instance (e : StateSyncEngine) (op : EngineOp) : Decidable (Ticks e op) :=
  match op with
  | .sync (.put _ _ _ _) => isTrue trivial
  | .sync (.delete key _ _) => inferInstanceAs (Decidable (key ∈ e.state))
  | .sync (.applyRemote _) => isFalse id
  | .resolveConflict _ _ => isFalse id

/-- The call does not take the own counter from its last value back to 0. -/
def NoWrap (op : EngineOp) (e : StateSyncEngine) : Prop :=
  Ticks e op → e.clock.get e.regionId ≠ UInt64.ofNat (2 ^ 64 - 1)

instance (op : EngineOp) (e : StateSyncEngine) : Decidable (NoWrap op e) := inferInstanceAs (Decidable (_ → _))

/-- **`Write e op key entry`** — in `e`, the call `op` puts `entry` under `key`. -/
inductive Write (e : StateSyncEngine) : EngineOp → String → StateEntry → Prop
  /-- a local write or deletion, with the advanced clock -/
  | ticked {op : EngineOp} {key : String} {entry : StateEntry} (ticks : Ticks e op) (own : entry.key = key)
      (clock : entry.clock = e.clock.increment e.regionId) : Write e op key entry
  /-- a remote entry that is later than what the key holds, if it holds anything -/
  | accepted {entry : StateEntry}
      (later : ∀ found, e.state.lookup entry.key = some found → found.clock.happensBefore entry.clock = true) :
      Write e (.sync (.applyRemote entry)) entry.key entry
  /-- the last writer is the entry the key holds: it is written again -/
  | kept {entry found : StateEntry} (strategy : e.strategy ≠ .manual)
      (held : e.state.lookup entry.key = some found) : Write e (.sync (.applyRemote entry)) found.key found
  /-- the last writer is the remote entry -/
  | won {entry found : StateEntry} (strategy : e.strategy ≠ .manual)
      (held : e.state.lookup entry.key = some found)
      (concurrent : compareClocks found.clock entry.clock = .concurrent) :
      Write e (.sync (.applyRemote entry)) entry.key entry
  | filed {entry found : StateEntry} (strategy : e.strategy = .keepBoth)
      (held : e.state.lookup entry.key = some found)
      (concurrent : compareClocks found.clock entry.clock = .concurrent) :
      Write e (.sync (.applyRemote entry)) entry.conflictKey entry.renamed
  | resolved {key : String} {chooseLocal : Bool} {conflict : Conflict}
      (parked : e.conflicts.lookup key = some conflict) :
      Write e (.resolveConflict key chooseLocal) key (if chooseLocal then conflict.localEntry else conflict.remote)

variable {sha3 : List UInt8 → EntryHash} {e : StateSyncEngine} {op : EngineOp}

/-- A remote entry changes nothing, or is one of the writes above. -/
theorem applyRemote_writes (e : StateSyncEngine) (entry : StateEntry) :
    (e.applyRemote entry).1.state = e.state ∨
      ∃ key written, Write e (.sync (.applyRemote entry)) key written ∧
        (e.applyRemote entry).1.state = e.state.insert key written := by
  rw [StateSyncEngine.applyRemote_state]
  unfold applied
  split
  · rename_i hnone
    refine .inr ⟨_, _, .accepted fun found hfound => ?_, rfl⟩
    rw [hnone] at hfound
    cases hfound
  · rename_i found hfound
    split
    · rename_i hbefore
      refine .inr ⟨_, _, .accepted fun found' hfound' => ?_, rfl⟩
      rw [hfound] at hfound'
      cases hfound'
      exact compareClocks_eq_before.mp hbefore
    · exact .inl rfl
    · exact .inl rfl
    · rename_i hconcurrent
      split
      · rename_i hstrategy
        have hmanual : e.strategy ≠ .manual := by simp [hstrategy]
        split
        · exact .inr ⟨_, _, .kept hmanual hfound, rfl⟩
        · exact .inr ⟨_, _, .won hmanual hfound hconcurrent, rfl⟩
      · rename_i hstrategy
        have hmanual : e.strategy ≠ .manual := by simp [hstrategy]
        split
        · exact .inr ⟨_, _, .kept hmanual hfound, rfl⟩
        · exact .inr ⟨_, _, .won hmanual hfound hconcurrent, rfl⟩
      · exact .inl rfl
      · rename_i hstrategy
        exact .inr ⟨_, _, .filed hstrategy hfound hconcurrent, rfl⟩

/-- **One call changes the state by one write, or not at all.** -/
theorem call_writes (sha3 : List UInt8 → EntryHash) (e : StateSyncEngine) (op : EngineOp) :
    (op.call sha3 e).state = e.state ∨
      ∃ key entry, Write e op key entry ∧ (op.call sha3 e).state = e.state.insert key entry := by
  cases op with
  | sync op =>
      cases op with
      | put key value nowMs order =>
          refine .inr ⟨key, (e.put sha3 key value nowMs order).2, ?_, rfl⟩
          exact Write.ticked trivial rfl rfl
      | delete key nowMs order =>
          show (e.delete sha3 key nowMs order).1.state = _ ∨ _
          unfold StateSyncEngine.delete
          split
          · exact .inl rfl
          · rename_i hmem
            refine .inr ⟨key, .tombstone sha3 key (e.clock.increment e.regionId) e.regionId nowMs order, ?_, ?_⟩
            · exact Write.ticked (Decidable.not_not.mp hmem) rfl rfl
            · show (e.delete sha3 key nowMs order).1.state = _
              unfold StateSyncEngine.delete
              rw [if_neg hmem]
      | applyRemote entry => exact applyRemote_writes e entry
  | resolveConflict key chooseLocal =>
      show (e.resolveConflict key chooseLocal).1.state = _ ∨ _
      cases hparked : e.conflicts.lookup key with
      | none => exact .inl (by simp only [StateSyncEngine.resolveConflict, hparked])
      | some conflict =>
          refine .inr ⟨key, _, .resolved hparked, ?_⟩
          show (e.resolveConflict key chooseLocal).1.state = _
          simp only [StateSyncEngine.resolveConflict, hparked]
          rfl

/-! ## Clock and conflicts after a call -/

/-- A remote entry's clock is merged, whatever becomes of the entry. -/
theorem applyRemote_clock (e : StateSyncEngine) (entry : StateEntry) :
    (e.applyRemote entry).1.clock = e.clock.merge entry.clock := by
  unfold StateSyncEngine.applyRemote StateSyncEngine.handleConflict
  dsimp only
  repeat' split
  all_goals rfl

/-- A deletion advances the clock if there is something to delete. -/
theorem delete_clock (e : StateSyncEngine) (key : String) (nowMs : UInt64) (order : List String) :
    (e.delete sha3 key nowMs order).1.clock = if key ∈ e.state then e.clock.increment e.regionId else e.clock := by
  unfold StateSyncEngine.delete
  by_cases hmem : key ∈ e.state
  · simp [hmem]
  · simp [hmem]

/-- A call that ticks advances the own counter by one. -/
theorem call_clock_of_ticks (h : Ticks e op) : (op.call sha3 e).clock = e.clock.increment e.regionId := by
  match op, h with
  | .sync (.put _ _ _ _), _ => rfl
  | .sync (.delete key nowMs order), h => exact (delete_clock e key nowMs order).trans (if_pos h)

/-- The clock of the engine never falls. -/
theorem clock_le_call (h : NoWrap op e) : e.clock.Le (op.call sha3 e).clock := by
  by_cases hticks : Ticks e op
  · rw [call_clock_of_ticks hticks]
    exact VectorClock.le_increment (h hticks)
  · match op with
    | .sync (.put _ _ _ _) => exact absurd trivial hticks
    | .sync (.delete key nowMs order) =>
        rw [show ((EngineOp.sync (.delete key nowMs order)).call sha3 e).clock = e.clock from
          (delete_clock e key nowMs order).trans (if_neg hticks)]
        exact .refl _
    | .sync (.applyRemote entry) =>
        rw [show ((EngineOp.sync (.applyRemote entry)).call sha3 e).clock = _ from applyRemote_clock e entry]
        exact e.clock.le_merge_left entry.clock
    | .resolveConflict key chooseLocal =>
        rw [show ((EngineOp.resolveConflict key chooseLocal).call sha3 e).clock = e.clock by
          simp only [EngineOp.call, StateSyncEngine.resolveConflict]
          split <;> rfl]
        exact .refl _

/-- No call changes the strategy. -/
theorem call_strategy (sha3 : List UInt8 → EntryHash) (e : StateSyncEngine) (op : EngineOp) :
    (op.call sha3 e).strategy = e.strategy := by
  match op with
  | .sync (.put _ _ _ _) => rfl
  | .sync (.delete key nowMs order) =>
      show (e.delete sha3 key nowMs order).1.strategy = _
      unfold StateSyncEngine.delete
      split <;> rfl
  | .sync (.applyRemote entry) => exact StateSyncEngine.applyRemote_strategy e entry
  | .resolveConflict key chooseLocal =>
      simp only [EngineOp.call, StateSyncEngine.resolveConflict]
      split <;> rfl

/-- The remote entry `entry` meets a concurrent one under `Manual`: the two are parked under its key. -/
structure Parks (e : StateSyncEngine) (op : EngineOp) (key : String) (conflict : Conflict) (entry found : StateEntry) :
    Prop where
  op_eq : op = .sync (.applyRemote entry)
  strategy : e.strategy = .manual
  held : e.state.lookup entry.key = some found
  concurrent : compareClocks found.clock entry.clock = .concurrent
  key_eq : key = found.key
  conflict_eq : conflict = .new found entry

/-- A conflict that is parked after a call was parked before it, and not the one resolved, or is parked by it. -/
theorem call_parked {key : String} {conflict : Conflict}
    (h : (op.call sha3 e).conflicts.lookup key = some conflict) :
    (e.conflicts.lookup key = some conflict ∧ ∀ chooseLocal, op ≠ .resolveConflict key chooseLocal) ∨
      ∃ entry found, Parks e op key conflict entry found := by
  match op with
  | .sync (.put _ _ _ _) => exact .inl ⟨h, fun _ => by simp⟩
  | .sync (.delete key' nowMs order) =>
      have hsame : (e.delete sha3 key' nowMs order).1.conflicts = e.conflicts := by
        unfold StateSyncEngine.delete
        split <;> rfl
      exact .inl ⟨hsame ▸ h, fun _ => by simp⟩
  | .sync (.applyRemote entry) =>
      replace h : (e.applyRemote entry).1.conflicts.lookup key = some conflict := h
      unfold StateSyncEngine.applyRemote at h
      dsimp only at h
      split at h
      · rename_i found hfound
        split at h
        · exact .inl ⟨h, fun _ => by simp⟩
        · exact .inl ⟨h, fun _ => by simp⟩
        · exact .inl ⟨h, fun _ => by simp⟩
        · rename_i hconcurrent
          unfold StateSyncEngine.handleConflict at h
          dsimp only at h
          split at h
          · exact .inl ⟨h, fun _ => by simp⟩
          · exact .inl ⟨h, fun _ => by simp⟩
          · rename_i hmanual
            replace h : (e.conflicts.insert found.key (Conflict.new found entry)).lookup key = some conflict := h
            by_cases hkey : key = found.key
            · subst hkey
              rw [Finmap.lookup_insert] at h
              cases h
              exact .inr ⟨entry, found, rfl, hmanual, hfound, hconcurrent, rfl, rfl⟩
            · rw [Finmap.lookup_insert_of_ne _ hkey] at h
              exact .inl ⟨h, fun _ => by simp⟩
          · exact .inl ⟨h, fun _ => by simp⟩
      · exact .inl ⟨h, fun _ => by simp⟩
  | .resolveConflict key' chooseLocal =>
      simp only [EngineOp.call, StateSyncEngine.resolveConflict] at h
      split at h
      · have hne : key' ≠ key := by
          rintro rfl
          rw [Finmap.lookup_erase] at h
          cases h
        rw [Finmap.lookup_erase_ne (Ne.symm hne)] at h
        exact .inl ⟨h, fun _ => by simp [hne]⟩
      · rename_i hnone
        refine .inl ⟨h, fun _ heq => ?_⟩
        cases heq
        rw [h] at hnone
        cases hnone

/-! ## What every reachable engine keeps -/

/-- Every entry is under its own key, parked ones too. -/
structure KeysOk (e : StateSyncEngine) : Prop where
  stored : KeysMatch e.state
  parked : ∀ key conflict, e.conflicts.lookup key = some conflict →
    conflict.localEntry.key = key ∧ conflict.remote.key = key

/-- A write puts an entry under its own key. -/
theorem Write.key_eq {key : String} {entry : StateEntry} (h : KeysOk e) (hw : Write e op key entry) :
    entry.key = key := by
  cases hw with
  | ticked ticks own clock => exact own
  | accepted later => rfl
  | kept strategy held => rfl
  | won strategy held concurrent => rfl
  | filed strategy held concurrent => rfl
  | @resolved key chooseLocal conflict parked =>
      cases chooseLocal with
      | true => exact (h.parked _ _ parked).1
      | false => exact (h.parked _ _ parked).2

/-- So every call keeps the entries under their keys. -/
theorem KeysOk.call (h : KeysOk e) : KeysOk (op.call sha3 e) := by
  constructor
  · rcases call_writes sha3 e op with hsame | ⟨key, entry, hw, hins⟩
    · rw [hsame]
      exact h.stored
    · rw [hins, ← hw.key_eq h]
      exact h.stored.insert entry
  · intro key conflict hconflict
    rcases call_parked hconflict with ⟨hbefore, -⟩ | ⟨entry, found, hparks⟩
    · exact h.parked key conflict hbefore
    · obtain ⟨rfl, -, hheld, -, rfl, rfl⟩ := hparks
      exact ⟨rfl, (h.stored _ _ hheld).symm⟩

/-- A new engine has no entries. -/
theorem keysOk_new (regionId : String) (strategy : ConflictStrategy) : KeysOk (.new regionId strategy) := by
  constructor
  · intro key entry h
    cases h
  · intro key conflict h
    cases h

/-- A parked conflict: both entries are below the engine's clock, and the key holds the local entry still or a later
one. -/
structure Parked (e : StateSyncEngine) (key : String) (conflict : Conflict) : Prop where
  strategy : e.strategy = .manual
  local_le : conflict.localEntry.clock.Le e.clock
  remote_le : conflict.remote.clock.Le e.clock
  behind : ∃ held, e.state.lookup key = some held ∧
    (held = conflict.localEntry ∨ conflict.localEntry.clock.happensBefore held.clock = true)

/-- **The invariant of the runs**: what is stored is under its key and below the engine's clock, likewise what is
parked. A local write carries the engine's clock, a remote one is merged into it before it is stored, and the clock
never falls. -/
structure Coherent (e : StateSyncEngine) : Prop where
  keys : KeysOk e
  stored : ∀ key entry, e.state.lookup key = some entry → entry.clock.Le e.clock
  parked : ∀ key conflict, e.conflicts.lookup key = some conflict → Parked e key conflict

/-- A new engine holds and parks nothing. -/
theorem coherent_new (regionId : String) (strategy : ConflictStrategy) : Coherent (.new regionId strategy) := by
  refine ⟨keysOk_new regionId strategy, ?_, ?_⟩
  · intro key entry h
    cases h
  · intro key conflict h
    cases h

/-- What is below the engine's clock is superseded by what carries the advanced clock. -/
theorem happensBefore_increment {c : VectorClock} (hle : c.Le e.clock)
    (hlast : e.clock.get e.regionId ≠ UInt64.ofNat (2 ^ 64 - 1)) :
    c.happensBefore (e.clock.increment e.regionId) = true := by
  apply VectorClock.happensBefore_of_lt
  refine ⟨hle.trans (VectorClock.le_increment hlast), e.regionId, ?_⟩
  exact UInt64.lt_of_le_of_lt (hle e.regionId) (VectorClock.get_lt_increment hlast)

/-- **What a call writes is below the clock after the call.** -/
theorem Write.clock_le {key : String} {entry : StateEntry} (h : Coherent e) (hwrap : NoWrap op e)
    (hw : Write e op key entry) : entry.clock.Le (op.call sha3 e).clock := by
  have hremote : ∀ remote : StateEntry,
      remote.clock.Le ((EngineOp.sync (.applyRemote remote)).call sha3 e).clock := by
    intro remote
    rw [show ((EngineOp.sync (.applyRemote remote)).call sha3 e).clock = _ from applyRemote_clock e remote]
    exact e.clock.le_merge_right remote.clock
  cases hw with
  | ticked ticks own clock =>
      rw [clock, call_clock_of_ticks ticks]
      exact .refl _
  | accepted later => exact hremote entry
  | kept strategy held => exact (h.stored _ _ held).trans (clock_le_call hwrap)
  | won strategy held concurrent => exact hremote entry
  | @filed remote found strategy held concurrent => exact hremote remote
  | @resolved key chooseLocal conflict parked =>
      refine VectorClock.Le.trans ?_ (clock_le_call hwrap)
      cases chooseLocal with
      | true => exact (h.parked _ _ parked).local_le
      | false => exact (h.parked _ _ parked).remote_le

/-- A write under the key of a conflict that stays parked goes on from what the key held. -/
theorem Write.later {key : String} {entry held : StateEntry} (h : Coherent e)
    (hwrap : NoWrap op e) (hw : Write e op key entry) (hheld : e.state.lookup key = some held)
    (hmanual : e.strategy = .manual) (hnot : ∀ chooseLocal, op ≠ .resolveConflict key chooseLocal) :
    held.clock.happensBefore entry.clock = true := by
  cases hw with
  | ticked ticks own clock =>
      rw [clock]
      exact happensBefore_increment (h.stored key held hheld) (hwrap ticks)
  | accepted later => exact later held hheld
  | kept strategy _ => exact absurd hmanual strategy
  | won strategy _ _ => exact absurd hmanual strategy
  | filed strategy _ _ =>
      rw [hmanual] at strategy
      cases strategy
  | resolved parked => exact absurd rfl (hnot _)

/-- **The step lemma**: every call that does not wrap the own counter keeps the invariant. -/
theorem Coherent.call (h : Coherent e) (hwrap : NoWrap op e) : Coherent (op.call sha3 e) := by
  have hclock : e.clock.Le (op.call sha3 e).clock := clock_le_call hwrap
  refine ⟨h.keys.call, ?_, ?_⟩
  · intro key found hfound
    rcases call_writes sha3 e op with hsame | ⟨key', entry, hw, hins⟩
    · rw [hsame] at hfound
      exact (h.stored key found hfound).trans hclock
    · rw [hins] at hfound
      by_cases hkey : key = key'
      · rw [hkey, Finmap.lookup_insert] at hfound
        cases hfound
        exact hw.clock_le h hwrap
      · rw [Finmap.lookup_insert_of_ne _ hkey] at hfound
        exact (h.stored key found hfound).trans hclock
  · intro key conflict hconflict
    rcases call_parked hconflict with ⟨hbefore, hnot⟩ | ⟨entry, found, hparks⟩
    · obtain ⟨hmanual, hlocal, hremote, held, hheld, hbehind⟩ := h.parked key conflict hbefore
      refine ⟨(call_strategy sha3 e op).trans hmanual, hlocal.trans hclock, hremote.trans hclock, ?_⟩
      rcases call_writes sha3 e op with hsame | ⟨key', entry, hw, hins⟩
      · rw [hsame]
        exact ⟨held, hheld, hbehind⟩
      · rw [hins]
        by_cases hkey : key = key'
        · subst hkey
          have hlater := hw.later h hwrap hheld hmanual hnot
          refine ⟨entry, Finmap.lookup_insert _, .inr ?_⟩
          rcases hbehind with hsame | hbehind
          · rw [← hsame]
            exact hlater
          · exact VectorClock.happensBefore_trans hbehind hlater
        · rw [Finmap.lookup_insert_of_ne _ hkey]
          exact ⟨held, hheld, hbehind⟩
    · obtain ⟨rfl, hmanual, hheld, hconcurrent, rfl, rfl⟩ := hparks
      have hkey : found.key = entry.key := h.keys.stored _ _ hheld
      have hsame : (e.applyRemote entry).1.state = e.state := by
        rw [StateSyncEngine.applyRemote_state]
        unfold applied
        simp only [hheld, hconcurrent, hmanual]
      have hremote : entry.clock.Le (e.applyRemote entry).1.clock := by
        rw [applyRemote_clock]
        exact e.clock.le_merge_right entry.clock
      refine ⟨(call_strategy sha3 e _).trans hmanual, (h.stored _ _ hheld).trans hclock, hremote, found, ?_, .inl rfl⟩
      show (e.applyRemote entry).1.state.lookup found.key = some found
      rw [hsame, hkey, hheld]

/-- **The run lemma**, by induction on the calls. -/
theorem coherent_of_reachable (h : (engineRuns sha3).Reachable NoWrap e) : Coherent e := by
  refine System.Reachable.invariant (P := Coherent) ?_ ?_ h
  · rintro e ⟨regionId, strategy, rfl⟩
    exact coherent_new regionId strategy
  · rintro e op e' he hwrap ⟨⟩
    exact he.call hwrap

/-! ## Dominance -/

/-- **The engine's clock is above everything it holds.** In every state reached without an overflow of the own
counter, every stored and every parked entry is at or below the engine's clock, region by region; so the entry of the
next `put` or `delete` that does not overflow supersedes whatever its key holds. -/
theorem engine_clock_dominates (h : (engineRuns sha3).Reachable NoWrap e) :
    (∀ key entry, e.state.lookup key = some entry → ∀ region, entry.clock.get region ≤ e.clock.get region) ∧
    (∀ key conflict, e.conflicts.lookup key = some conflict → ∀ region,
      conflict.localEntry.clock.get region ≤ e.clock.get region ∧
        conflict.remote.clock.get region ≤ e.clock.get region) ∧
    (e.clock.get e.regionId ≠ UInt64.ofNat (2 ^ 64 - 1) → ∀ key old, e.state.lookup key = some old →
      (∀ value nowMs order, (e.put sha3 key value nowMs order).2.supersedes old = true) ∧
        ∀ nowMs order, ∃ tombstone,
          (e.delete sha3 key nowMs order).2 = some tombstone ∧ tombstone.supersedes old = true) := by
  have hcoh := coherent_of_reachable h
  refine ⟨hcoh.stored, fun key conflict hparked region => ?_, fun hlast key old hold => ?_⟩
  · have hp := hcoh.parked key conflict hparked
    exact ⟨hp.local_le region, hp.remote_le region⟩
  · have hbefore := happensBefore_increment (hcoh.stored key old hold) hlast
    refine ⟨fun _ _ _ => hbefore, fun nowMs order => ?_⟩
    have hmem : key ∈ e.state := Finmap.mem_of_lookup_eq_some hold
    refine ⟨.tombstone sha3 key (e.clock.increment e.regionId) e.regionId nowMs order, ?_, hbefore⟩
    unfold StateSyncEngine.delete
    rw [if_neg (not_not.mpr hmem)]

/-- SHA3-256 of the scripts below. -/
def scriptHash (data : List UInt8) : EntryHash := Vector.replicate 32 data.sum

/-- A first write of region `b`. -/
def writeOfB : StateEntry := .new scriptHash "x" [2] (VectorClock.new.increment "b") "b" 200 ["b"]

theorem engine_clock_dominates_after_remote :
    ∃ e, (engineRuns scriptHash).Reachable NoWrap e ∧ ∃ old, e.state.lookup "x" = some old ∧
      (e.put scriptHash "x" [3] 300 ["a", "b"]).2.supersedes old = true := by
  obtain ⟨e, past, hr, hstored, hlast⟩ := System.exists_run_of_play (M := engineRuns scriptHash) NoWrap
    (P := fun e _ => (e.state.lookup "x").isSome = true ∧ e.clock.get e.regionId ≠ UInt64.ofNat (2 ^ 64 - 1))
    ⟨"a", .manual, rfl⟩ [fun _ => .sync (.put "x" [1] 100 ["a"]), fun _ => .sync (.applyRemote writeOfB)]
    (by decide +kernel)
  obtain ⟨old, hold⟩ := Option.isSome_iff_exists.mp hstored
  exact ⟨e, ⟨past, hr⟩, old, hold, ((engine_clock_dominates ⟨past, hr⟩).2.2 hlast "x" old hold).1 _ _ _⟩

/-- An entry of another region whose clock has the counter of `a` at its last value. -/
def lastOfA : StateEntry :=
  .new scriptHash "x" [2] ⟨{"a"}, fun region => if region = "a" then UInt64.ofNat (2 ^ 64 - 1) else 0, by
    intro region hregion
    rw [if_neg (Finset.notMem_singleton.mp hregion)]⟩ "b" 200 ["a"]

/-- Two increments suffice to lose the dominance: `new`, then a `put` after an entry that brought the last value. The
entry that is there stays above the engine's clock, and the next `put` under its key does not supersede it. -/
theorem own_counter_wraps :
    ∃ e, (engineRuns scriptHash).Reachable (fun _ _ => True) e ∧ ∃ old, e.state.lookup "x" = some old ∧
      ¬ old.clock.get "a" ≤ e.clock.get "a" ∧ (e.put scriptHash "x" [3] 300 ["a"]).2.supersedes old = false := by
  obtain ⟨e, past, hr, hstate⟩ := System.exists_run_of_play (M := engineRuns scriptHash) (fun _ _ => True)
    (P := fun e _ => e.state.lookup "x" = some lastOfA ∧ ¬ lastOfA.clock.get "a" ≤ e.clock.get "a" ∧
      (e.put scriptHash "x" [3] 300 ["a"]).2.supersedes lastOfA = false)
    ⟨"a", .lastWriterWins, rfl⟩ [fun _ => .sync (.applyRemote lastOfA), fun _ => .sync (.put "y" [1] 100 ["a"])]
    (by decide +kernel)
  exact ⟨e, ⟨past, hr⟩, lastOfA, hstate⟩

/-! ## Regressions -/

/-- No key of `e` holds an entry in `e'` that happened before the one it held in `e`. -/
def Kept (e e' : StateSyncEngine) : Prop :=
  ∀ key old new, e.state.lookup key = some old → e'.state.lookup key = some new →
    ¬ new.clock.happensBefore old.clock = true

/-- The call brings back something stale: a concurrent entry that `KeepBoth` files where a later entry is, the parked
local entry of a key that does not hold it any more, or a parked remote entry that the key has gone past. -/
def Stale (e : StateSyncEngine) : EngineOp → Prop
  | .sync (.put _ _ _ _) => False
  | .sync (.delete _ _ _) => False
  | .sync (.applyRemote entry) =>
      e.strategy = .keepBoth ∧ ∃ found, e.state.lookup entry.key = some found ∧
        compareClocks found.clock entry.clock = .concurrent ∧
        ∃ filed, e.state.lookup entry.conflictKey = some filed ∧ entry.clock.happensBefore filed.clock = true
  | .resolveConflict key true =>
      ∃ conflict, e.conflicts.lookup key = some conflict ∧ e.state.lookup key ≠ some conflict.localEntry
  | .resolveConflict key false =>
      ∃ conflict, e.conflicts.lookup key = some conflict ∧
        ∃ held, e.state.lookup key = some held ∧ conflict.remote.clock.happensBefore held.clock = true

/-- A call that is not stale writes nothing that happened before what the key holds. -/
theorem Write.not_before {key : String} {entry old : StateEntry} (h : Coherent e) (hwrap : NoWrap op e)
    (hstale : ¬ Stale e op) (hw : Write e op key entry) (hold : e.state.lookup key = some old) :
    ¬ entry.clock.happensBefore old.clock = true := by
  cases hw with
  | ticked ticks own clock =>
      rw [clock]
      exact VectorClock.happensBefore_asymm (happensBefore_increment (h.stored key old hold) (hwrap ticks))
  | accepted later => exact VectorClock.happensBefore_asymm (later old hold)
  | kept strategy held =>
      -- the entry is written under its own key, which is the key it was found under
      rw [h.keys.stored _ _ held, held] at hold
      cases hold
      exact VectorClock.happensBefore_irrefl _
  | won strategy held concurrent =>
      rw [held] at hold
      cases hold
      exact (compareClocks_eq_concurrent.mp concurrent).2.2
  | filed strategy held concurrent =>
      intro hbefore
      exact hstale ⟨strategy, _, held, concurrent, old, hold, hbefore⟩
  | @resolved key chooseLocal conflict parked =>
      cases chooseLocal with
      | true =>
          have hsame : e.state.lookup key = some conflict.localEntry := by
            by_contra hne
            exact hstale ⟨conflict, parked, hne⟩
          rw [hsame] at hold
          cases hold
          exact VectorClock.happensBefore_irrefl _
      | false =>
          intro hbefore
          exact hstale ⟨conflict, parked, old, hold, hbefore⟩

/-- A stale call does bring an entry back behind a later one. -/
theorem Stale.regresses (h : Coherent e) (hstale : Stale e op) : ¬ Kept e (op.call sha3 e) := by
  intro hkept
  match op, hstale with
  | .sync (.applyRemote entry), ⟨hkeep, found, hfound, hconcurrent, filed, hfiled, hbefore⟩ =>
      refine hkept entry.conflictKey filed entry.renamed hfiled ?_ hbefore
      show (e.applyRemote entry).1.state.lookup entry.conflictKey = _
      rw [StateSyncEngine.applyRemote_state]
      unfold applied
      simp only [hfound, hconcurrent, hkeep]
      exact Finmap.lookup_insert _
  | .resolveConflict key true, ⟨conflict, hparked, hne⟩ =>
      obtain ⟨held, hheld, hbehind⟩ := (h.parked key conflict hparked).behind
      rcases hbehind with hsame | hbefore
      · rw [hheld, hsame] at hne
        exact hne rfl
      · refine hkept key held conflict.localEntry hheld ?_ hbefore
        simp only [EngineOp.call, StateSyncEngine.resolveConflict, hparked]
        exact Finmap.lookup_insert _
  | .resolveConflict key false, ⟨conflict, hparked, held, hheld, hbefore⟩ =>
      refine hkept key held conflict.remote hheld ?_ hbefore
      simp only [EngineOp.call, StateSyncEngine.resolveConflict, hparked]
      exact Finmap.lookup_insert _

/-- One call: no regression exactly if it is not stale. -/
theorem Coherent.kept_iff (h : Coherent e) (hwrap : NoWrap op e) : Kept e (op.call sha3 e) ↔ ¬ Stale e op := by
  constructor
  · intro hkept hstale
    exact hstale.regresses h hkept
  · intro hstale key old new hold hnew
    rcases call_writes sha3 e op with hsame | ⟨key', entry, hw, hins⟩
    · rw [hsame, hold] at hnew
      cases hnew
      exact VectorClock.happensBefore_irrefl _
    · rw [hins] at hnew
      by_cases hkey : key = key'
      · subst hkey
        rw [Finmap.lookup_insert] at hnew
        cases hnew
        exact hw.not_before h hwrap hstale hold
      · rw [Finmap.lookup_insert_of_ne _ hkey, hold] at hnew
        cases hnew
        exact VectorClock.happensBefore_irrefl _

/-- **No causal regression, unless a call brings back something stale.** In a run in which the own counter does not
overflow, and for every strategy: while no call is stale, no step replaces an entry by one that happened before it;
and from each state of the run the calls that do so are exactly the stale ones. -/
theorem regression_iff_stale {h : List StateSyncEngine} (hr : (engineRuns sha3).Run NoWrap h) :
    ((engineRuns sha3).Run (fun op e => NoWrap op e ∧ ¬ Stale e op) h → h.IsChain fun new old => Kept old new) ∧
      ∀ e ∈ h, ∀ op, NoWrap op e → (Kept e (op.call sha3 e) ↔ ¬ Stale e op) := by
  constructor
  · intro hfresh
    refine System.Run.invariant (P := fun h => h.IsChain fun new old => Kept old new) ?_ ?_ hfresh
    · intro e _
      exact .singleton e
    · rintro e past op e' hr ih ⟨hwrap, hstale⟩ ⟨⟩
      have hcoh : Coherent e := coherent_of_reachable ⟨past, hr.mono fun _ _ hok => hok.1⟩
      exact List.isChain_cons_cons.mpr ⟨(hcoh.kept_iff hwrap).mpr hstale, ih⟩
  · intro e he op hwrap
    obtain ⟨past, -, hpast⟩ := hr.exists_suffix he
    exact (coherent_of_reachable ⟨past, hpast⟩).kept_iff hwrap

/-- Region `a` has written `x` and parked the write of region `b` beside it. -/
def parkedAtX : StateSyncEngine :=
  (EngineOp.sync (.applyRemote writeOfB)).call scriptHash
    ((EngineOp.sync (.put "x" [1] 100 ["a"])).call scriptHash (.new "a" .manual))

/-- The calls up to there. -/
theorem run_parkedAtX :
    ∃ past, (engineRuns scriptHash).Run (fun op e => NoWrap op e ∧ ¬ Stale e op) (parkedAtX :: past) := by
  have hput : (engineRuns scriptHash).Run (fun op e => NoWrap op e ∧ ¬ Stale e op)
      [(EngineOp.sync (.put "x" [1] 100 ["a"])).call scriptHash (.new "a" .manual), .new "a" .manual] :=
    .step (.init ⟨"a", .manual, rfl⟩) (a := .sync (.put "x" [1] 100 ["a"])) ⟨by decide +kernel, id⟩ rfl
  have hstale : ¬ Stale ((EngineOp.sync (.put "x" [1] 100 ["a"])).call scriptHash (.new "a" .manual))
      (.sync (.applyRemote writeOfB)) := fun h => absurd h.1 (by decide +kernel)
  exact ⟨_, .step hput ⟨by decide +kernel, hstale⟩ rfl⟩

/-- A conflict that is resolved before its key goes on. -/
theorem regression_iff_stale_resolved_at_once :
    ∃ past, (engineRuns scriptHash).Run NoWrap
        ((EngineOp.resolveConflict "x" true).call scriptHash parkedAtX :: parkedAtX :: past) ∧
      Kept parkedAtX ((EngineOp.resolveConflict "x" true).call scriptHash parkedAtX) := by
  obtain ⟨past, hparked⟩ := run_parkedAtX
  have hstale : ¬ Stale parkedAtX (.resolveConflict "x" true) := by
    rintro ⟨conflict, hconflict, hne⟩
    have hheld : ∀ c ∈ parkedAtX.conflicts.lookup "x", parkedAtX.state.lookup "x" = some c.localEntry := by
      decide +kernel
    exact hne (hheld conflict hconflict)
  have hresolved := System.Run.step hparked ⟨by decide +kernel, hstale⟩ rfl
  have hrun := hresolved.mono fun _ _ hok => hok.1
  exact ⟨past, hrun, (List.isChain_cons_cons.mp ((regression_iff_stale hrun).1 hresolved)).1⟩

/-- The same engine after another write of the key. -/
def rewrittenX : StateSyncEngine := (EngineOp.sync (.put "x" [3] 300 ["a", "b"])).call scriptHash parkedAtX

/-- **A parked snapshot comes back behind a later write.** The conflict is parked, the key written once more, and the
conflict resolved for the local entry: the second write gives way to the first. -/
theorem parked_entry_regresses :
    ∃ past, (engineRuns scriptHash).Run (fun _ _ => True)
        ((EngineOp.resolveConflict "x" true).call scriptHash rewrittenX :: rewrittenX :: past) ∧
      ∃ old new, rewrittenX.state.lookup "x" = some old ∧
        ((EngineOp.resolveConflict "x" true).call scriptHash rewrittenX).state.lookup "x" = some new ∧
        new.clock.happensBefore old.clock = true := by
  obtain ⟨past, hparked⟩ := run_parkedAtX
  have hput : (engineRuns scriptHash).Run (fun _ _ => True) (rewrittenX :: parkedAtX :: past) :=
    .step (hparked.mono fun _ _ _ => trivial) trivial rfl
  have hany : ((rewrittenX.state.lookup "x").any fun old =>
      (((EngineOp.resolveConflict "x" true).call scriptHash rewrittenX).state.lookup "x").any fun new =>
        new.clock.happensBefore old.clock) = true := by
    decide +kernel
  obtain ⟨old, hold, hany⟩ := (Option.any_eq_true _ _).mp hany
  obtain ⟨new, hnew, hbefore⟩ := (Option.any_eq_true _ _).mp hany
  exact ⟨_, .step hput trivial rfl, old, new, hold, hnew, hbefore⟩

end WarmLogic.Federation
