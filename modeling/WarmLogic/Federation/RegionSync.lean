/-
# WarmLogic.Federation.RegionSync — the region synchronizer of `kernel/federation/state_sync.py`, and what its clock dominates.

Clocks are dicts with integer values, a missing node counts as zero. A time is a float: comparisons are two functions
to `Bool`, so that one that is no number is not left out. The Merkle tree beside the decisions, the batches kept by id
and the callbacks play no part here, and are not modelled.

A remote decision is stored on four paths. Two of them merge its clock into the node's own; the two that resolve a
conflict do not. `clock_dominates` says that the node's clock dominates what it stores as long as no such winner brings
news, and `dominates_apply_iff` that a winner with news is exactly what breaks it.
-/
import WarmLogic.Lib.Run
import Mathlib.Data.List.AList
import Mathlib.Data.String.Basic

namespace WarmLogic.Federation.Region

open WarmLogic.Lib

/-! ## Clocks -/

/-- `VectorClock`, a dict. -/
structure VectorClock where
  clocks : AList fun _ : String => Int

namespace VectorClock

/-- `clocks.get(n, 0)`. -/
def get (c : VectorClock) (node : String) : Int := (c.clocks.lookup node).getD 0

/-- `increment`, of one node. -/
def increment (c : VectorClock) (nodeId : String) : VectorClock := ⟨c.clocks.insert nodeId (c.get nodeId + 1)⟩

/-- `merge`: the greater counter of each node. -/
def merge (c other : VectorClock) : VectorClock :=
  ⟨(c.clocks.keys ++ other.clocks.keys).foldl (fun m n => m.insert n (max (c.get n) (other.get n))) ∅⟩

/-- `happens_before`. -/
def happensBefore (c other : VectorClock) : Bool :=
  if c.clocks.keys = [] then !other.clocks.keys.isEmpty
  else
    let nodes := c.clocks.keys ++ other.clocks.keys
    nodes.all (fun n => decide (c.get n ≤ other.get n)) && nodes.any fun n => decide (c.get n < other.get n)

/-- Pointwise order, apart from the code's test. -/
def Le (c other : VectorClock) : Prop := ∀ n, c.get n ≤ other.get n

variable {a b c : VectorClock}

/-- A clock is at or below itself. -/
theorem Le.refl (c : VectorClock) : c.Le c := fun _ => Int.le_refl _

/-- The order is transitive. -/
theorem Le.trans (hab : a.Le b) (hbc : b.Le c) : a.Le c := fun n => Int.le_trans (hab n) (hbc n)

/-- A missing node counts as zero. -/
theorem get_of_not_mem {n : String} (h : n ∉ c.clocks.keys) : c.get n = 0 := by
  have : c.clocks.lookup n = none := AList.lookup_eq_none.2 h
  rw [get, this]
  rfl

/-- One counter is one higher. -/
theorem get_increment (c : VectorClock) (nodeId n : String) :
    (c.increment nodeId).get n = if n = nodeId then c.get nodeId + 1 else c.get n := by
  by_cases h : n = nodeId
  · rw [if_pos h, h, get, increment, AList.lookup_insert]
    rfl
  · rw [if_neg h, get, increment, AList.lookup_insert_ne h]
    rfl

/-- So the clock is. -/
theorem le_increment (c : VectorClock) (nodeId : String) : c.Le (c.increment nodeId) := by
  intro n
  rw [get_increment]
  split
  · next h => rw [h]; omega
  · exact Int.le_refl _

/-- What a loop over items leaves in a dict. -/
theorem lookup_foldl_insert (f : String → Int) (keys : List String) (m : AList fun _ : String => Int) (n : String) :
    (keys.foldl (fun m n => m.insert n (f n)) m).lookup n = if n ∈ keys then some (f n) else m.lookup n := by
  induction keys generalizing m with
  | nil => rfl
  | cons key keys ih =>
    rw [List.foldl_cons, ih]
    by_cases hmem : n ∈ keys
    · rw [if_pos hmem, if_pos (List.mem_cons_of_mem _ hmem)]
    · rw [if_neg hmem]
      by_cases hkey : n = key
      · rw [hkey, AList.lookup_insert, if_pos List.mem_cons_self]
      · rw [AList.lookup_insert_ne hkey, if_neg (by simp [hkey, hmem])]

/-- Merging is the pointwise maximum. -/
theorem get_merge (c other : VectorClock) (n : String) : (c.merge other).get n = max (c.get n) (other.get n) := by
  rw [get, merge, lookup_foldl_insert]
  by_cases hmem : n ∈ c.clocks.keys ++ other.clocks.keys
  · rw [if_pos hmem]
    rfl
  · rw [List.mem_append, not_or] at hmem
    rw [if_neg (by simpa using hmem), get_of_not_mem hmem.1, get_of_not_mem hmem.2, AList.lookup_empty]
    rfl

/-- A merged clock is above the first. -/
theorem le_merge_left (c other : VectorClock) : c.Le (c.merge other) := fun n => by
  rw [get_merge]
  exact Int.le_max_left _ _

/-- And above the second. -/
theorem le_merge_right (c other : VectorClock) : other.Le (c.merge other) := fun n => by
  rw [get_merge]
  exact Int.le_max_right _ _

/-- A clock that is dominated, and beaten somewhere by one with an entry there, happens before. -/
theorem happensBefore_of_le {n : String} (hle : a.Le b) (hn : n ∈ b.clocks.keys) (hlt : a.get n < b.get n) :
    a.happensBefore b = true := by
  unfold happensBefore
  split
  · cases hkeys : b.clocks.keys with
    | nil => simp [hkeys] at hn
    | cons => rfl
  · rw [Bool.and_eq_true, List.all_eq_true, List.any_eq_true]
    refine ⟨fun m _ => decide_eq_true (hle m), n, List.mem_append_right _ hn, decide_eq_true hlt⟩

/-- Whatever a clock dominates happens before its next tick. -/
theorem happensBefore_increment (h : a.Le c) (nodeId : String) : a.happensBefore (c.increment nodeId) = true := by
  refine happensBefore_of_le (n := nodeId) (h.trans (le_increment c nodeId)) ?_ ?_
  · rw [increment, AList.keys_insert]
    exact List.mem_cons_self
  · have := h nodeId
    rw [get_increment, if_pos rfl]
    omega

end VectorClock

/-! ## Decisions and synchronizers -/

/-- Comparison of floats. -/
structure FloatOrder (T : Type) where
  lt : T → T → Bool
  eq : T → T → Bool

/-- `ConflictResolution`. -/
inductive ConflictResolution where
  | lastWriterWins
  | vectorClock
  | manual
  deriving DecidableEq

/-- `SyncableDecision`. -/
structure SyncableDecision (T : Type) where
  decisionId : String
  region : String
  timestamp : T
  vectorClock : VectorClock
  decisionHash : String
  payload : List UInt8
  signature : String

/-- `RegionStateSynchronizer`. -/
structure RegionStateSynchronizer (T : Type) where
  localRegion : String
  nodeId : String
  resolutionStrategy : ConflictResolution
  decisions : AList fun _ : String => SyncableDecision T
  vectorClock : VectorClock
  conflicts : List (SyncableDecision T × SyncableDecision T)

variable {T : Type}

namespace RegionStateSynchronizer

/-- Nothing decided, nothing received. -/
def new (localRegion nodeId : String) (strategy : ConflictResolution) : RegionStateSynchronizer T where
  localRegion := localRegion
  nodeId := nodeId
  resolutionStrategy := strategy
  decisions := ∅
  vectorClock := ⟨∅⟩
  conflicts := []

/-- `add_local_decision` at this time. -/
def addLocalDecision (sha3 : List UInt8 → String) (s : RegionStateSynchronizer T) (decisionId : String)
    (payload : List UInt8) (signature : String) (now : T) : RegionStateSynchronizer T × SyncableDecision T :=
  let clock := s.vectorClock.increment s.nodeId
  let decision : SyncableDecision T :=
    { decisionId, region := s.localRegion, timestamp := now, vectorClock := clock, decisionHash := sha3 payload,
      payload, signature }
  ({ s with vectorClock := clock, decisions := s.decisions.insert decisionId decision }, decision)

/-- Whether the resolution of a conflict stores the remote decision: by time and then by region name, by time alone, or
never. -/
def prefersRemote (time : FloatOrder T) (strategy : ConflictResolution) (localDecision remote : SyncableDecision T) : Bool :=
  match strategy with
  | .lastWriterWins =>
      if time.eq remote.timestamp localDecision.timestamp then decide (localDecision.region < remote.region)
      else time.lt localDecision.timestamp remote.timestamp
  | .vectorClock => time.lt localDecision.timestamp remote.timestamp
  | .manual => false

/-- Store a remote decision. -/
def store (s : RegionStateSynchronizer T) (remote : SyncableDecision T) : RegionStateSynchronizer T :=
  { s with decisions := s.decisions.insert remote.decisionId remote }

/-- Store a remote decision and merge its clock. -/
def adopt (s : RegionStateSynchronizer T) (remote : SyncableDecision T) : RegionStateSynchronizer T :=
  { s.store remote with vectorClock := s.vectorClock.merge remote.vectorClock }

/-- `_resolve_conflict`, with `_resolve_conflict_lww`. -/
def resolveConflict (time : FloatOrder T) (s : RegionStateSynchronizer T) (localDecision remote : SyncableDecision T) :
    RegionStateSynchronizer T × Bool :=
  let s := { s with conflicts := s.conflicts ++ [(localDecision, remote)] }
  if prefersRemote time s.resolutionStrategy localDecision remote then (s.store remote, true) else (s, false)

/-- `_apply_remote_decision`, with its answer. -/
def applyRemoteDecision (time : FloatOrder T) (s : RegionStateSynchronizer T) (remote : SyncableDecision T) :
    RegionStateSynchronizer T × Bool :=
  match s.decisions.lookup remote.decisionId with
  | none => (s.adopt remote, true)
  | some localDecision =>
      if localDecision.decisionHash = remote.decisionHash then (s, true)
      else if remote.vectorClock.happensBefore localDecision.vectorClock then (s, false)
      else if localDecision.vectorClock.happensBefore remote.vectorClock then (s.adopt remote, true)
      else s.resolveConflict time localDecision remote

/-- `receive_sync_batch`: the synchronizer, and the decisions that were applied. -/
def receiveSyncBatch (time : FloatOrder T) (s : RegionStateSynchronizer T) :
    List (SyncableDecision T) → RegionStateSynchronizer T × List (SyncableDecision T)
  | [] => (s, [])
  | remote :: decisions =>
      let applied := s.applyRemoteDecision time remote
      let rest := applied.1.receiveSyncBatch time decisions
      (rest.1, if applied.2 then remote :: rest.2 else rest.2)

/-! ## What applying a decision can do -/

/-- The remote decision meets a different one under its id that neither precedes nor follows it. -/
def Conflicts (s : RegionStateSynchronizer T) (remote localDecision : SyncableDecision T) : Prop :=
  s.decisions.lookup remote.decisionId = some localDecision ∧ localDecision.decisionHash ≠ remote.decisionHash ∧
    remote.vectorClock.happensBefore localDecision.vectorClock = false ∧
      localDecision.vectorClock.happensBefore remote.vectorClock = false

/-- **The ways to apply a remote decision.** -/
theorem applyRemoteDecision_cases (time : FloatOrder T) (s : RegionStateSynchronizer T) (remote : SyncableDecision T) :
    (s.decisions.lookup remote.decisionId = none ∧ s.applyRemoteDecision time remote = (s.adopt remote, true)) ∨
    ∃ localDecision, s.decisions.lookup remote.decisionId = some localDecision ∧
      ((localDecision.decisionHash = remote.decisionHash ∧ s.applyRemoteDecision time remote = (s, true)) ∨
        (localDecision.decisionHash ≠ remote.decisionHash ∧
          remote.vectorClock.happensBefore localDecision.vectorClock = true ∧
            s.applyRemoteDecision time remote = (s, false)) ∨
        (localDecision.decisionHash ≠ remote.decisionHash ∧
          remote.vectorClock.happensBefore localDecision.vectorClock = false ∧
          localDecision.vectorClock.happensBefore remote.vectorClock = true ∧
            s.applyRemoteDecision time remote = (s.adopt remote, true)) ∨
        (s.Conflicts remote localDecision ∧
          s.applyRemoteDecision time remote = s.resolveConflict time localDecision remote)) := by
  unfold applyRemoteDecision
  cases hlookup : s.decisions.lookup remote.decisionId with
  | none => exact .inl ⟨rfl, rfl⟩
  | some localDecision =>
    refine .inr ⟨localDecision, rfl, ?_⟩
    simp only
    by_cases hhash : localDecision.decisionHash = remote.decisionHash
    · exact .inl ⟨hhash, if_pos hhash⟩
    rw [if_neg hhash]
    by_cases holder : remote.vectorClock.happensBefore localDecision.vectorClock = true
    · exact .inr (.inl ⟨hhash, holder, if_pos holder⟩)
    rw [if_neg holder]
    by_cases hnewer : localDecision.vectorClock.happensBefore remote.vectorClock = true
    · exact .inr (.inr (.inl ⟨hhash, Bool.eq_false_of_not_eq_true holder, hnewer, if_pos hnewer⟩))
    rw [if_neg hnewer]
    exact .inr (.inr (.inr ⟨⟨hlookup, hhash, Bool.eq_false_of_not_eq_true holder, Bool.eq_false_of_not_eq_true hnewer⟩,
      rfl⟩))

/-! ## Dominance -/

/-- The clock dominates the clock of every stored decision. -/
def Dominates (s : RegionStateSynchronizer T) : Prop :=
  ∀ decisionId decision, s.decisions.lookup decisionId = some decision → decision.vectorClock.Le s.vectorClock

/-- If the remote decision is stored as the winner of a conflict, the clock already dominates its clock. -/
def WinnerIsNoNews (time : FloatOrder T) (s : RegionStateSynchronizer T) (remote : SyncableDecision T) : Prop :=
  ∀ localDecision, s.Conflicts remote localDecision →
    prefersRemote time s.resolutionStrategy localDecision remote = true → remote.vectorClock.Le s.vectorClock

/-- A decision that is stored keeps dominance if its clock is dominated. -/
theorem dominates_store {s : RegionStateSynchronizer T} {clock : VectorClock}
    {conflicts : List (SyncableDecision T × SyncableDecision T)} {decision : SyncableDecision T} {decisionId : String}
    (h : s.Dominates) (hclock : s.vectorClock.Le clock) (hdecision : decision.vectorClock.Le clock) :
    Dominates { s with
      decisions := s.decisions.insert decisionId decision, vectorClock := clock, conflicts := conflicts } := by
  intro other stored hstored
  have hinsert : (s.decisions.insert decisionId decision).lookup other = some stored := hstored
  by_cases hid : other = decisionId
  · rw [hid, AList.lookup_insert] at hinsert
    cases hinsert
    exact hdecision
  · rw [AList.lookup_insert_ne hid] at hinsert
    exact (h other stored hinsert).trans hclock

/-- A decision whose clock is merged keeps it in any case. -/
theorem dominates_adopt {s : RegionStateSynchronizer T} (h : s.Dominates) (remote : SyncableDecision T) :
    (s.adopt remote).Dominates :=
  dominates_store h (VectorClock.le_merge_left _ _) (VectorClock.le_merge_right _ _)

/-- **The step lemma, exactly**: applying a remote decision keeps dominance if and only if it does not win a conflict
with a clock that brings news. -/
theorem dominates_apply_iff {time : FloatOrder T} {s : RegionStateSynchronizer T} (h : s.Dominates)
    (remote : SyncableDecision T) : (s.applyRemoteDecision time remote).1.Dominates ↔ s.WinnerIsNoNews time remote := by
  have noConflict : (∀ localDecision, ¬ s.Conflicts remote localDecision) → s.WinnerIsNoNews time remote :=
    fun hno localDecision hconflict => absurd hconflict (hno localDecision)
  rcases applyRemoteDecision_cases time s remote with ⟨hnone, heq⟩ | ⟨localDecision, hlocal, hcases⟩
  · rw [heq]
    refine iff_of_true (dominates_adopt h remote) (noConflict fun d hd => ?_)
    cases hnone.symm.trans hd.1
  have hsame : ∀ d, s.Conflicts remote d → d = localDecision := fun d hd => Option.some.inj (hd.1.symm.trans hlocal)
  rcases hcases with ⟨hhash, heq⟩ | ⟨-, holder, heq⟩ | ⟨-, -, hnewer, heq⟩ | ⟨hconflict, heq⟩
  · rw [heq]
    exact iff_of_true h (noConflict fun d hd => hd.2.1 (hsame d hd ▸ hhash))
  · rw [heq]
    exact iff_of_true h (noConflict fun d hd => Bool.false_ne_true (hd.2.2.1.symm.trans (hsame d hd ▸ holder)))
  · rw [heq]
    refine iff_of_true (dominates_adopt h remote) (noConflict fun d hd => ?_)
    exact Bool.false_ne_true (hd.2.2.2.symm.trans (hsame d hd ▸ hnewer))
  · rw [heq, resolveConflict]
    by_cases hprefers : prefersRemote time s.resolutionStrategy localDecision remote = true
    · simp only [if_pos hprefers]
      constructor
      · intro hdominates d _ _
        exact hdominates remote.decisionId remote (AList.lookup_insert _)
      · intro hwinner
        exact dominates_store h (VectorClock.Le.refl _) (hwinner localDecision hconflict hprefers)
    · simp only [if_neg hprefers]
      refine iff_of_true h fun d hd hd' => ?_
      rw [hsame d hd] at hd'
      exact absurd hd' hprefers

/-- Each decision of the batch meets the condition when its turn comes. -/
def BatchIsNoNews (time : FloatOrder T) (s : RegionStateSynchronizer T) : List (SyncableDecision T) → Prop
  | [] => True
  | remote :: decisions => s.WinnerIsNoNews time remote ∧ (s.applyRemoteDecision time remote).1.BatchIsNoNews time decisions

/-- A batch keeps it if each of its decisions does. -/
theorem dominates_receiveSyncBatch {time : FloatOrder T} {s : RegionStateSynchronizer T} (h : s.Dominates)
    {decisions : List (SyncableDecision T)} (hbatch : s.BatchIsNoNews time decisions) :
    (s.receiveSyncBatch time decisions).1.Dominates := by
  induction decisions generalizing s with
  | nil => exact h
  | cons remote decisions ih => exact ih ((dominates_apply_iff h remote).2 hbatch.1) hbatch.2

/-- A local decision carries the clock of its node. -/
theorem dominates_addLocalDecision {s : RegionStateSynchronizer T} (h : s.Dominates) (sha3 : List UInt8 → String)
    (decisionId : String) (payload : List UInt8) (signature : String) (now : T) :
    (s.addLocalDecision sha3 decisionId payload signature now).1.Dominates :=
  dominates_store h (VectorClock.le_increment _ _) (VectorClock.Le.refl _)

end RegionStateSynchronizer

open RegionStateSynchronizer

/-! ## Runs -/

/-- A call on the synchronizer. -/
inductive SyncOp (T : Type) where
  | addLocalDecision (decisionId : String) (payload : List UInt8) (signature : String) (now : T)
  | receiveSyncBatch (decisions : List (SyncableDecision T))

/-- The synchronizer after it. -/
def SyncOp.call (sha3 : List UInt8 → String) (time : FloatOrder T) (s : RegionStateSynchronizer T) :
    SyncOp T → RegionStateSynchronizer T
  | .addLocalDecision decisionId payload signature now => (s.addLocalDecision sha3 decisionId payload signature now).1
  | .receiveSyncBatch decisions => (s.receiveSyncBatch time decisions).1

/-- One synchronizer under any calls, from a new one. -/
def synchronizerRuns (sha3 : List UInt8 → String) (time : FloatOrder T) :
    System (RegionStateSynchronizer T) (SyncOp T) where
  init s := ∃ localRegion nodeId strategy, s = new localRegion nodeId strategy
  step op s := some (op.call sha3 time s)

/-- No batch lets a decision win a conflict whose clock brings news. -/
def NoNews (time : FloatOrder T) (op : SyncOp T) (s : RegionStateSynchronizer T) : Prop :=
  ∀ decisions, op = .receiveSyncBatch decisions → s.BatchIsNoNews time decisions

/-- **The clock dominates what is stored**, in every state of a run in which no winner of a conflict brings news; and
what is then decided locally happens after what it replaces. Every path that stores a decision merges its clock, but
for the two that resolve a conflict; and there the guard says it. -/
theorem clock_dominates (sha3 : List UInt8 → String) (time : FloatOrder T) (s : RegionStateSynchronizer T)
    (h : (synchronizerRuns sha3 time).Reachable (NoNews time) s) :
    s.Dominates ∧ ∀ decisionId payload signature now stored, s.decisions.lookup decisionId = some stored →
      stored.vectorClock.happensBefore (s.addLocalDecision sha3 decisionId payload signature now).2.vectorClock = true := by
  have hdominates : s.Dominates := by
    refine System.Reachable.invariant (P := Dominates) ?_ ?_ h
    · rintro s ⟨localRegion, nodeId, strategy, rfl⟩ decisionId decision hlookup
      cases hlookup
    · intro s op s' hs hok hstep
      cases hstep
      cases op with
      | addLocalDecision decisionId payload signature now => exact dominates_addLocalDecision hs sha3 _ _ _ _
      | receiveSyncBatch decisions => exact dominates_receiveSyncBatch hs (hok decisions rfl)
  refine ⟨hdominates, fun decisionId payload signature now stored hstored => ?_⟩
  exact VectorClock.happensBefore_increment (hdominates decisionId stored hstored) s.nodeId

/-- Times as natural numbers. -/
def natTime : FloatOrder Nat := ⟨fun a b => decide (a < b), fun a b => decide (a = b)⟩

/-- SHA3-256 in hex, as it is on the payloads `a` and `b`. -/
def sampleSha3 (payload : List UInt8) : String :=
  if payload = [97] then "80084bf2fba02475726feb2cab2d8215eab14bc6bdd8bfb2c8151257032ecd8b"
  else if payload = [98] then "b039179a8a4ce2c252aa6f2f25798251c19b75fc1508d9d511a191e0487d64a7"
  else ""

/-- A decision made first by `node` in its own region, with this payload and time. -/
def firstDecision (region node : String) (payload : List UInt8) (now : Nat) : SyncableDecision Nat :=
  ((new region node .lastWriterWins).addLocalDecision sampleSha3 "d" payload "" now).2

/-- A node that takes over a peer's decision, and could then replace it. -/
theorem dominates_after_adoption :
    ∃ s stored, (synchronizerRuns sampleSha3 natTime).Reachable (NoNews natTime) s ∧
      s.decisions.lookup "d" = some stored ∧ s.Dominates ∧
        stored.vectorClock.happensBefore (s.addLocalDecision sampleSha3 "d" [97] "" 3).2.vectorClock = true := by
  have hrun : (synchronizerRuns sampleSha3 natTime).Run (NoNews natTime) [_, new "eu" "n1" .lastWriterWins] :=
    .step (a := .receiveSyncBatch [firstDecision "us" "n2" [98] 5]) (.init ⟨_, _, _, rfl⟩) ?_ rfl
  · obtain ⟨hdominates, hafter⟩ := clock_dominates sampleSha3 natTime _ ⟨_, hrun⟩
    exact ⟨_, firstDecision "us" "n2" [98] 5, ⟨_, hrun⟩, rfl, hdominates, hafter "d" [97] "" 3 _ rfl⟩
  · rintro decisions ⟨⟩
    refine ⟨fun localDecision hconflict => ?_, trivial⟩
    cases hconflict.1

/-- A node whose own decision loses to a concurrent one from a peer: what it then decides does not follow that one. -/
theorem winner_not_dominated :
    (¬ ∀ s : RegionStateSynchronizer Nat, (synchronizerRuns sampleSha3 natTime).Reachable (fun _ _ => True) s →
        s.Dominates) ∧
      ¬ ∀ s : RegionStateSynchronizer Nat, (synchronizerRuns sampleSha3 natTime).Reachable (fun _ _ => True) s →
        ∀ decisionId payload signature now stored, s.decisions.lookup decisionId = some stored →
          stored.vectorClock.happensBefore
            (s.addLocalDecision sampleSha3 decisionId payload signature now).2.vectorClock = true := by
  have hrun : (synchronizerRuns sampleSha3 natTime).Run (fun _ _ => True) [_, new "eu" "n1" .lastWriterWins] :=
    .step (a := .addLocalDecision "d" [97] "" 3) (.init ⟨_, _, _, rfl⟩) trivial rfl
  have hrun₂ := System.Run.step hrun (a := .receiveSyncBatch [firstDecision "us" "n2" [98] 5]) trivial rfl
  constructor
  · intro hall
    exact absurd (hall _ ⟨_, hrun₂⟩ "d" (firstDecision "us" "n2" [98] 5) rfl "n2") (by decide)
  · intro hall
    exact absurd (hall _ ⟨_, hrun₂⟩ "d" [97] "" 7 (firstDecision "us" "n2" [98] 5) rfl) (by decide)

end WarmLogic.Federation.Region
