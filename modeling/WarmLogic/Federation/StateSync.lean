/-
# WarmLogic.Federation.StateSync — the state synchronisation engine of `federation/state_sync.rs`, function by function.

The engine is one record; a method on `&mut self` is a function from the engine to the new engine and its result. A
`HashMap` is a finite map up to the order of its entries, so "the same state map" is equality. The wall clock a write
reads is an argument, and so is the order in which the clock of a new entry is walked when it is hashed; `sha3` is
SHA3-256. The Merkle cache, the peers and their sync times are not read by anything below and left out.

What `apply_remote` does to the state does not depend on region, clock or outbound queue of the engine: it is
`applied`, a function of the strategy, the state and the entry (`applyRemote_state`).
-/
import WarmLogic.Lib.Run
import WarmLogic.Federation.VectorClock
import Mathlib.Data.Finmap

namespace WarmLogic.Federation

open WarmLogic.Lib

/-! ## Entries and conflicts -/

/-- `[u8; 32]`. -/
abbrev EntryHash := Vector UInt8 32

/-- `SyncStatus`. -/
inductive SyncStatus where
  | pending
  | inProgress
  | completed
  | failed
  | conflict
  deriving DecidableEq

/-- `ConflictStrategy`. -/
inductive ConflictStrategy where
  | lastWriterWins
  | vectorClock
  | manual
  | keepBoth
  deriving DecidableEq

/-- `StateEntry`. -/
structure StateEntry where
  key : String
  value : List UInt8
  clock : VectorClock
  timestampMs : UInt64
  originRegion : String
  hash : EntryHash
  deleted : Bool
  deriving DecidableEq

/-- `compute_entry_hash`; `order` is the order in which the clock's map is walked. -/
def computeEntryHash (sha3 : List UInt8 → EntryHash) (key : String) (value : List UInt8) (clock : VectorClock)
    (timestamp : UInt64) (order : List String) : EntryHash :=
  sha3 (key.toUTF8.toList ++ value ++ clock.toBytes order ++ leBytes 8 timestamp.toNat)

namespace StateEntry

/-- A new entry, with its hash. -/
def new (sha3 : List UInt8 → EntryHash) (key : String) (value : List UInt8) (clock : VectorClock)
    (originRegion : String) (nowMs : UInt64) (order : List String) : StateEntry where
  key := key
  value := value
  clock := clock
  timestampMs := nowMs
  originRegion := originRegion
  hash := computeEntryHash sha3 key value clock nowMs order
  deleted := false

/-- A deletion marker. -/
def tombstone (sha3 : List UInt8 → EntryHash) (key : String) (clock : VectorClock) (originRegion : String)
    (nowMs : UInt64) (order : List String) : StateEntry where
  key := key
  value := []
  clock := clock
  timestampMs := nowMs
  originRegion := originRegion
  hash := computeEntryHash sha3 key [] clock nowMs order
  deleted := true

end StateEntry

/-- `hex::encode`. -/
def hexEncode (bytes : List UInt8) : String :=
  String.ofList (bytes.flatMap fun b => [Nat.digitChar (b.toNat / 16), Nat.digitChar (b.toNat % 16)])

/-- The first four bytes of an entry's hash, in hex. -/
def StateEntry.hashPrefix (entry : StateEntry) : String := hexEncode (entry.hash.toList.take 4)

/-- The key under which `KeepBoth` files an entry it does not let in. -/
def StateEntry.conflictKey (entry : StateEntry) : String := entry.key ++ "__conflict_" ++ entry.hashPrefix

/-- The entry it files there. -/
def StateEntry.renamed (entry : StateEntry) : StateEntry := { entry with key := entry.conflictKey }

/-- `Conflict`. -/
structure Conflict where
  id : String
  key : String
  localEntry : StateEntry
  remote : StateEntry
  resolved : Bool
  winner : Option String
  deriving DecidableEq

/-- A conflict that waits to be resolved. -/
def Conflict.new (localEntry remote : StateEntry) : Conflict where
  id := "CONFLICT-" ++ localEntry.hashPrefix ++ "-" ++ remote.hashPrefix
  key := localEntry.key
  localEntry := localEntry
  remote := remote
  resolved := false
  winner := none

/-! ## The engine -/

/-- `HashMap<String, StateEntry>`. -/
abbrev StateMap := Finmap (fun _ : String => StateEntry)

/-- `StateSyncEngine`. -/
structure StateSyncEngine where
  regionId : String
  clock : VectorClock
  state : StateMap
  outbound : List StateEntry
  conflicts : Finmap (fun _ : String => Conflict)
  strategy : ConflictStrategy

namespace StateSyncEngine

/-- `new`: no entries, no conflicts. -/
def new (regionId : String) (strategy : ConflictStrategy) : StateSyncEngine where
  regionId := regionId
  clock := VectorClock.new.increment regionId
  state := ∅
  outbound := []
  conflicts := ∅
  strategy := strategy

/-- `put`: tick, then write an entry with the new clock. -/
def put (sha3 : List UInt8 → EntryHash) (e : StateSyncEngine) (key : String) (value : List UInt8) (nowMs : UInt64)
    (order : List String) : StateSyncEngine × StateEntry :=
  let clock := e.clock.increment e.regionId
  let entry := StateEntry.new sha3 key value clock e.regionId nowMs order
  ({ e with clock := clock, state := e.state.insert key entry, outbound := e.outbound ++ [entry] }, entry)

/-- `delete`: nothing for an unknown key, else a tombstone. -/
def delete (sha3 : List UInt8 → EntryHash) (e : StateSyncEngine) (key : String) (nowMs : UInt64)
    (order : List String) : StateSyncEngine × Option StateEntry :=
  if key ∉ e.state then (e, none)
  else
    let clock := e.clock.increment e.regionId
    let entry := StateEntry.tombstone sha3 key clock e.regionId nowMs order
    ({ e with clock := clock, state := e.state.insert key entry, outbound := e.outbound ++ [entry] }, some entry)

/-- `handle_conflict`. The `VectorClock` strategy falls back to the last writer. -/
def handleConflict (e : StateSyncEngine) (localEntry remote : StateEntry) :
    StateSyncEngine × Except Conflict SyncStatus :=
  match e.strategy with
  | .lastWriterWins | .vectorClock =>
      let winner := if remote.timestampMs ≤ localEntry.timestampMs then localEntry else remote
      ({ e with state := e.state.insert winner.key winner }, .ok .completed)
  | .manual =>
      let conflict := Conflict.new localEntry remote
      ({ e with conflicts := e.conflicts.insert conflict.key conflict }, .error conflict)
  | .keepBoth =>
      ({ e with state := e.state.insert remote.conflictKey remote.renamed }, .ok .conflict)

/-- `apply_remote`: the clock is merged in any case; the entry is stored, passed over, or in conflict. -/
def applyRemote (e : StateSyncEngine) (entry : StateEntry) : StateSyncEngine × Except Conflict SyncStatus :=
  let e := { e with clock := e.clock.merge entry.clock }
  match e.state.lookup entry.key with
  | some localEntry =>
      match compareClocks localEntry.clock entry.clock with
      | .before => ({ e with state := e.state.insert entry.key entry }, .ok .completed)
      | .after => (e, .ok .completed)
      | .equal => (e, .ok .completed)
      | .concurrent => e.handleConflict localEntry entry
  | none => ({ e with state := e.state.insert entry.key entry }, .ok .completed)

/-- `get_delta`; the entries come in the order the state's map is walked, so as a multiset. -/
def getDelta (e : StateSyncEngine) (since : VectorClock) : Multiset StateEntry :=
  (e.state.entries.map (·.2)).filter fun entry => since.happensBefore entry.clock

/-- `apply_remote` for each entry of a list, results dropped. -/
def applyAll (e : StateSyncEngine) (entries : List StateEntry) : StateSyncEngine :=
  entries.foldl (fun e entry => (e.applyRemote entry).1) e

end StateSyncEngine

/-! ## What a remote entry does to the state -/

/-- The state after a remote entry, under a strategy. -/
def applied (strategy : ConflictStrategy) (state : StateMap) (entry : StateEntry) : StateMap :=
  match state.lookup entry.key with
  | none => state.insert entry.key entry
  | some localEntry =>
      match compareClocks localEntry.clock entry.clock with
      | .before => state.insert entry.key entry
      | .after => state
      | .equal => state
      | .concurrent =>
          match strategy with
          | .lastWriterWins | .vectorClock =>
              if entry.timestampMs ≤ localEntry.timestampMs then state.insert localEntry.key localEntry
              else state.insert entry.key entry
          | .manual => state
          | .keepBoth => state.insert entry.conflictKey entry.renamed

namespace StateSyncEngine

/-- The state an entry leaves depends on the strategy and the state before, and on nothing else of the engine. -/
theorem applyRemote_state (e : StateSyncEngine) (entry : StateEntry) :
    (e.applyRemote entry).1.state = applied e.strategy e.state entry := by
  unfold applyRemote applied
  dsimp only
  cases e.state.lookup entry.key with
  | none => rfl
  | some localEntry =>
      dsimp only
      cases compareClocks localEntry.clock entry.clock with
      | before => rfl
      | after => rfl
      | equal => rfl
      | concurrent =>
          unfold handleConflict
          dsimp only
          cases e.strategy with
          | lastWriterWins =>
              dsimp only
              split <;> rfl
          | vectorClock =>
              dsimp only
              split <;> rfl
          | manual => rfl
          | keepBoth => rfl

/-- The strategy stays. -/
theorem applyRemote_strategy (e : StateSyncEngine) (entry : StateEntry) :
    (e.applyRemote entry).1.strategy = e.strategy := by
  unfold applyRemote handleConflict
  dsimp only
  repeat' split
  all_goals rfl

/-- A whole list of entries, likewise. -/
theorem applyAll_state (e : StateSyncEngine) (entries : List StateEntry) :
    (e.applyAll entries).state = entries.foldl (applied e.strategy) e.state := by
  induction entries generalizing e with
  | nil => rfl
  | cons entry entries ih =>
      show ((e.applyRemote entry).1.applyAll entries).state = _
      rw [ih, applyRemote_strategy, applyRemote_state]
      rfl

end StateSyncEngine

/-! ## Runs, and the keys of the state -/

/-- A call on an engine, with what the wall clock and the walk over a new clock give. -/
inductive SyncOp where
  | put (key : String) (value : List UInt8) (nowMs : UInt64) (order : List String)
  | delete (key : String) (nowMs : UInt64) (order : List String)
  | applyRemote (entry : StateEntry)

/-- The engine after a call. -/
def SyncOp.call (sha3 : List UInt8 → EntryHash) (e : StateSyncEngine) : SyncOp → StateSyncEngine
  | .put key value nowMs order => (e.put sha3 key value nowMs order).1
  | .delete key nowMs order => (e.delete sha3 key nowMs order).1
  | .applyRemote entry => (e.applyRemote entry).1

/-- An engine from `new`, under any calls. -/
def syncEngine (sha3 : List UInt8 → EntryHash) : System StateSyncEngine SyncOp where
  init e := ∃ regionId strategy, e = .new regionId strategy
  step op e := some (op.call sha3 e)

/-- An engine some run reaches. -/
def Reached (sha3 : List UInt8 → EntryHash) (e : StateSyncEngine) : Prop :=
  (syncEngine sha3).Reachable (fun _ _ => True) e

/-- Every entry is stored under its own key. -/
def KeysMatch (state : StateMap) : Prop := ∀ k entry, state.lookup k = some entry → entry.key = k

/-- An entry under its own key. -/
theorem KeysMatch.insert {state : StateMap} (h : KeysMatch state) (entry : StateEntry) :
    KeysMatch (state.insert entry.key entry) := by
  intro k found hfound
  by_cases hk : k = entry.key
  · rw [hk, Finmap.lookup_insert] at hfound
    cases hfound
    exact hk.symm
  · rw [Finmap.lookup_insert_of_ne _ hk] at hfound
    exact h k found hfound

/-- A remote entry is stored under its own key, or filed under that of its renamed copy. -/
theorem KeysMatch.applied {state : StateMap} (h : KeysMatch state) (strategy : ConflictStrategy)
    (entry : StateEntry) : KeysMatch (applied strategy state entry) := by
  unfold Federation.applied
  split
  · exact h.insert entry
  · rename_i localEntry _
    split
    · exact h.insert entry
    · exact h
    · exact h
    · split
      · split
        · exact h.insert localEntry
        · exact h.insert entry
      · split
        · exact h.insert localEntry
        · exact h.insert entry
      · exact h
      · exact h.insert entry.renamed

/-- **Every engine keeps its entries under their keys.** -/
theorem Reached.keysMatch {sha3 : List UInt8 → EntryHash} {e : StateSyncEngine} (h : Reached sha3 e) :
    KeysMatch e.state := by
  refine System.Reachable.invariant (P := fun e => KeysMatch e.state) ?_ ?_ h
  · rintro e ⟨regionId, strategy, rfl⟩ k entry hentry
    cases hentry
  · rintro e op e' he - ⟨⟩
    cases op with
    | put key value nowMs order => exact he.insert (StateEntry.new sha3 key value _ _ nowMs order)
    | delete key nowMs order =>
        show KeysMatch (e.delete sha3 key nowMs order).1.state
        unfold StateSyncEngine.delete
        split
        · exact he
        · exact he.insert (StateEntry.tombstone sha3 key _ _ nowMs order)
    | applyRemote entry =>
        show KeysMatch (e.applyRemote entry).1.state
        rw [StateSyncEngine.applyRemote_state]
        exact he.applied e.strategy entry

end WarmLogic.Federation
