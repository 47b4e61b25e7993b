/-
# WarmLogic.Federation.LastWriter — what the two time-based strategies leave under a key, and what a delta misses.

Under `LastWriterWins` and `VectorClock` a remote entry meets only the entry stored under its own key. It takes the
place if it is causally after, or concurrent with a later timestamp. So the state splits into keys, and under each
key the entries are candidates for one place (`lookup_foldl_applied`); the results on `Selection` then say when
their order matters.

The same view settles delta sync. `get_delta` keeps the entries whose clock is causally after the WHOLE clock of the
asking engine, so an update of a region the asker has heard from, made before that region heard of the asker, is
left out. `delta_complete_iff` says which engines a delta brings up to date.
-/
import Mathlib.Data.UInt
import WarmLogic.Lib.Selection
import WarmLogic.Federation.StateSync

namespace WarmLogic.Federation

open WarmLogic.Lib WarmLogic.Lib.Selection

/-! ## One place a key -/

/-- The remote entry takes the place: it is free, or held by an entry that is causally before, or by a concurrent
one with an earlier timestamp. -/
def Replaces : Option StateEntry → StateEntry → Prop
  | none, _ => True
  | some l, entry =>
      l.clock.happensBefore entry.clock = true ∨
        (compareClocks l.clock entry.clock = .concurrent ∧ l.timestampMs < entry.timestampMs)

instance : ∀ (o : Option StateEntry) (entry : StateEntry), Decidable (Replaces o entry)
  | none, _ => .isTrue trivial
  | some _, _ => inferInstanceAs (Decidable (_ ∨ _))

theorem not_replaces_self (entry : StateEntry) : ¬ Replaces (some entry) entry := by
  rintro (hbefore | ⟨hconc, -⟩)
  · exact VectorClock.happensBefore_irrefl _ hbefore
  · exact (compareClocks_eq_concurrent.mp hconc).1 rfl

/-- The two strategies that let the timestamp decide. -/
def ByTime (strategy : ConflictStrategy) : Prop := strategy = .lastWriterWins ∨ strategy = .vectorClock

instance (strategy : ConflictStrategy) : Decidable (ByTime strategy) := inferInstanceAs (Decidable (_ ∨ _))

variable {strategy : ConflictStrategy} {state : StateMap}

/-- What a key holds after `insert`. -/
theorem lookup_insert_key (state : StateMap) (entry : StateEntry) (k : String) :
    (state.insert entry.key entry).lookup k = if entry.key = k then some entry else state.lookup k := by
  by_cases hk : k = entry.key
  · rw [hk, Finmap.lookup_insert, if_pos rfl]
  · rw [Finmap.lookup_insert_of_ne _ hk, if_neg (Ne.symm hk)]

/-- Storing again what is there changes nothing. -/
theorem insert_self_eq {l : StateEntry} (hl : state.lookup l.key = some l) : state.insert l.key l = state := by
  refine Finmap.ext_lookup fun k => ?_
  rw [lookup_insert_key]
  split
  · rename_i hk
    rw [← hk, hl]
  · rfl

/-- In the words of `compare_clocks`. -/
theorem replaces_iff {l entry : StateEntry} : Replaces (some l) entry ↔
    compareClocks l.clock entry.clock = .before ∨
      (compareClocks l.clock entry.clock = .concurrent ∧ l.timestampMs < entry.timestampMs) :=
  or_congr_left compareClocks_eq_before.symm

/-- A remote entry under a time-based strategy: stored if it replaces what its key holds, dropped otherwise. -/
theorem applied_byTime (hs : ByTime strategy) (hkeys : KeysMatch state) (entry : StateEntry) :
    applied strategy state entry =
      if Replaces (state.lookup entry.key) entry then state.insert entry.key entry else state := by
  unfold applied
  cases hl : state.lookup entry.key with
  | none => rfl
  | some l =>
      dsimp only
      cases hcmp : compareClocks l.clock entry.clock with
      | before => rw [if_pos (replaces_iff.mpr (.inl hcmp))]
      | after => simp [replaces_iff, hcmp]
      | equal => simp [replaces_iff, hcmp]
      | concurrent =>
          -- the entry kept on a tie is written back under its own key
          have hkeep : state.insert l.key l = state := insert_self_eq (by rw [hkeys entry.key l hl, hl])
          have htime : (if entry.timestampMs ≤ l.timestampMs then state.insert l.key l
              else state.insert entry.key entry) =
              if Replaces (some l) entry then state.insert entry.key entry else state := by
            rw [hkeep]
            simp [replaces_iff, hcmp, ite_not, ← UInt64.not_le]
          rcases hs with rfl | rfl
          · exact htime
          · exact htime

/-- **A remote entry under a time-based strategy** challenges the entry of its own key. -/
theorem lookup_applied (hs : ByTime strategy) (hkeys : KeysMatch state) (entry : StateEntry) (k : String) :
    (applied strategy state entry).lookup k =
      if entry.key = k then challenge Replaces (state.lookup k) entry else state.lookup k := by
  rw [applied_byTime hs hkeys]
  by_cases hk : entry.key = k
  · rw [if_pos hk, ← hk, challenge]
    split
    · exact Finmap.lookup_insert state
    · rfl
  · rw [if_neg hk]
    split
    · exact Finmap.lookup_insert_of_ne state (Ne.symm hk)
    · rfl

/-- **What a key holds after a list of entries**: the selection among the entries of that key. -/
theorem lookup_foldl_applied (hs : ByTime strategy) (hkeys : KeysMatch state) (entries : List StateEntry)
    (k : String) :
    (entries.foldl (applied strategy) state).lookup k =
      select Replaces (state.lookup k) (entries.filter fun entry => entry.key = k) := by
  induction entries generalizing state with
  | nil => rfl
  | cons entry entries ih =>
      rw [List.foldl_cons, ih (hkeys.applied strategy entry), lookup_applied hs hkeys]
      by_cases hk : entry.key = k
      · rw [if_pos hk, List.filter_cons, if_pos (decide_eq_true hk)]
        rfl
      · rw [if_neg hk, List.filter_cons, if_neg (by simpa using hk)]

/-! ## Order of arrival -/

/-- Every order of the entries of `S` leaves the same state. -/
def Converges (strategy : ConflictStrategy) (state : StateMap) (S : Finset StateEntry) : Prop :=
  ∀ l l', OrderOf S l → OrderOf S l' → l.foldl (applied strategy) state = l'.foldl (applied strategy) state

/-- The entries of a set for one key. -/
def forKey (S : Finset StateEntry) (k : String) : Finset StateEntry := S.filter fun entry => entry.key = k

/-- An order of the entries for one key is that part of an order of all. -/
theorem exists_order_forKey {S : Finset StateEntry} {k : String} {l : List StateEntry} (hl : OrderOf (forKey S k) l) :
    ∃ l', OrderOf S l' ∧ (l'.filter fun entry => entry.key = k) = l := by
  have hmem : ∀ entry ∈ l, entry ∈ S ∧ entry.key = k := fun entry h => Finset.mem_filter.mp (hl.mem_iff.mp h)
  obtain ⟨rest, horder⟩ := OrderOf.exists_append l hl.nodup fun entry h => (hmem entry h).1
  refine ⟨l ++ rest, horder, ?_⟩
  have hl' : (l.filter fun entry => decide (entry.key = k)) = l :=
    List.filter_eq_self.mpr fun entry h => decide_eq_true (hmem entry h).2
  have hrest : (rest.filter fun entry => decide (entry.key = k)) = [] := by
    refine List.filter_eq_nil_iff.mpr fun entry h hk => ?_
    have hmemS : entry ∈ S := horder.mem_iff.mp (List.mem_append_right _ h)
    have hfirst : entry ∈ l := hl.mem_iff.mpr (Finset.mem_filter.mpr ⟨hmemS, of_decide_eq_true hk⟩)
    exact (List.nodup_append.mp horder.nodup).2.2 entry hfirst entry h rfl
  rw [List.filter_append, hl', hrest, List.append_nil]

/-- A time-based strategy converges exactly when every key settles. -/
theorem converges_byTime_iff (hs : ByTime strategy) (hkeys : KeysMatch state) (S : Finset StateEntry) :
    Converges strategy state S ↔ ∀ k, Settles Replaces (state.lookup k) (forKey S k) := by
  constructor
  · intro hconv k
    refine (agree_iff not_replaces_self).mp fun l l' hl hl' => ?_
    obtain ⟨m, hm, hml⟩ := exists_order_forKey hl
    obtain ⟨m', hm', hml'⟩ := exists_order_forKey hl'
    have heq := congrArg (Finmap.lookup k) (hconv m m' hm hm')
    rw [lookup_foldl_applied hs hkeys, lookup_foldl_applied hs hkeys, hml, hml'] at heq
    exact heq
  · intro hsettles l l' hl hl'
    refine Finmap.ext_lookup fun k => ?_
    rw [lookup_foldl_applied hs hkeys, lookup_foldl_applied hs hkeys]
    exact (hsettles k).agree _ _ (hl.filter _) (hl'.filter _)

/-! ## Delta sync -/

/-- `e` holds, under every key of `e₀`, an entry that is not causally before the one of `e₀`. -/
def CaughtUp (e₀ e : StateSyncEngine) : Prop :=
  ∀ k a, e₀.state.lookup k = some a →
    ∃ b, e.state.lookup k = some b ∧ ¬ b.clock.happensBefore a.clock = true

/-- The entries of a delta: those of the state that are after the given clock. -/
theorem mem_getDelta {e : StateSyncEngine} {since : VectorClock} {entry : StateEntry} (hkeys : KeysMatch e.state) :
    entry ∈ e.getDelta since ↔
      e.state.lookup entry.key = some entry ∧ since.happensBefore entry.clock = true := by
  unfold StateSyncEngine.getDelta
  rw [Multiset.mem_filter, Multiset.mem_map]
  refine and_congr_left fun _ => ?_
  constructor
  · rintro ⟨⟨k, found⟩, hmem, rfl⟩
    have hlook := Finmap.lookup_eq_some_iff.mpr hmem
    have hk : found.key = k := hkeys k found hlook
    dsimp only
    rw [hk]
    exact hlook
  · intro hlook
    exact ⟨⟨entry.key, entry⟩, Finmap.lookup_eq_some_iff.mp hlook, rfl⟩

/-- A challenged key never ends before the challenger. -/
theorem challenge_replaces_not_before (o : Option StateEntry) (a : StateEntry) :
    ∃ b, challenge Replaces o a = some b ∧ ¬ b.clock.happensBefore a.clock = true := by
  unfold challenge
  split
  · exact ⟨a, rfl, VectorClock.happensBefore_irrefl _⟩
  · rename_i hno
    cases o with
    | none => exact absurd trivial hno
    | some b => exact ⟨b, rfl, fun hbefore => hno (.inl hbefore)⟩

/-- What `B` holds under a key of `A` once it applied a delta of `A`, in whatever order. -/
theorem lookup_applyAll_delta {A B : StateSyncEngine} (hA : KeysMatch A.state) (hB : KeysMatch B.state)
    (hlww : B.strategy = .lastWriterWins) {since : VectorClock} {order : List StateEntry}
    (horder : (order : Multiset StateEntry) = A.getDelta since) {k : String} {a : StateEntry}
    (ha : A.state.lookup k = some a) :
    (B.applyAll order).state.lookup k =
      if since.happensBefore a.clock = true then challenge Replaces (B.state.lookup k) a
      else B.state.lookup k := by
  have hmem : ∀ entry, entry ∈ order ↔
      A.state.lookup entry.key = some entry ∧ since.happensBefore entry.clock = true := by
    intro entry
    rw [← mem_getDelta hA, ← horder, Multiset.mem_coe]
  have honly : ∀ entry ∈ order.filter (fun entry => decide (entry.key = k)), entry = a := by
    intro entry hentry
    obtain ⟨hin, hk⟩ := List.mem_filter.mp hentry
    have hlook := ((hmem entry).mp hin).1
    rw [of_decide_eq_true hk, ha] at hlook
    exact (Option.some.inj hlook).symm
  have hak : a.key = k := hA k a ha
  rw [StateSyncEngine.applyAll_state, lookup_foldl_applied (.inl hlww) hB]
  split
  · rename_i hafter
    refine select_of_forall_eq (not_replaces_self a) honly (List.mem_filter.mpr ⟨?_, decide_eq_true hak⟩)
    exact (hmem a).mpr ⟨by rw [hak]; exact ha, hafter⟩
  · rename_i hnot
    refine select_of_not_beats fun entry hentry _ => hnot ?_
    rw [← honly entry hentry]
    exact ((hmem entry).mp (List.mem_filter.mp hentry).1).2

/-- **When a delta is complete.** After `B` applied the delta for its own clock, in whatever order, it is caught up
with `A` exactly when every entry of `A` is after the clock of `B`, or `B` already held one under that key that is
not before it. -/
theorem delta_complete_iff (sha3 : List UInt8 → EntryHash) (A B : StateSyncEngine) (hA : Reached sha3 A)
    (hB : Reached sha3 B) (hlww : B.strategy = .lastWriterWins) (order : List StateEntry)
    (horder : (order : Multiset StateEntry) = A.getDelta B.clock) :
    CaughtUp A (B.applyAll order) ↔
      ∀ k a, A.state.lookup k = some a → B.clock.happensBefore a.clock = true ∨
        ∃ b, B.state.lookup k = some b ∧ ¬ b.clock.happensBefore a.clock = true := by
  have hlook := fun k a ha => lookup_applyAll_delta hA.keysMatch hB.keysMatch hlww horder (k := k) (a := a) ha
  constructor
  · intro hcaught k a ha
    by_cases hafter : B.clock.happensBefore a.clock = true
    · exact .inl hafter
    · right
      have hb := hcaught k a ha
      rw [hlook k a ha, if_neg hafter] at hb
      exact hb
  · intro hcond k a ha
    rw [hlook k a ha]
    split
    · exact challenge_replaces_not_before _ a
    · rename_i hnot
      exact (hcond k a ha).resolve_left hnot

/-! ### Two regions -/

/-- A stand-in for SHA3-256 to run scripts with: the sum of the bytes, in every place. -/
def scriptEntrySha3 (data : List UInt8) : EntryHash := Vector.replicate 32 data.sum

/-- The engine of a region after some calls. -/
def engineAfter (regionId : String) (strategy : ConflictStrategy) (ops : List SyncOp) : StateSyncEngine :=
  ops.foldl (fun e op => op.call scriptEntrySha3 e) (.new regionId strategy)

theorem reached_engineAfter (regionId : String) (strategy : ConflictStrategy) (ops : List SyncOp) :
    Reached scriptEntrySha3 (engineAfter regionId strategy ops) := by
  have hrun : ∀ (ops : List SyncOp) (e : StateSyncEngine), Reached scriptEntrySha3 e →
      Reached scriptEntrySha3 (ops.foldl (fun e op => op.call scriptEntrySha3 e) e) := by
    intro ops
    induction ops with
    | nil =>
        intro e he
        exact he
    | cons op ops ih =>
        rintro e ⟨past, hr⟩
        exact ih _ ⟨e :: past, .step hr trivial rfl⟩
  exact hrun ops _ ⟨[], .init ⟨regionId, strategy, rfl⟩⟩

/-- The entry a fresh engine of a region writes first. -/
def firstPut (regionId key : String) (value : List UInt8) (nowMs : UInt64) : StateEntry :=
  ((StateSyncEngine.new regionId .lastWriterWins).put scriptEntrySha3 key value nowMs [regionId]).2

/-- A statement about every key of a state, as one about its entries. -/
theorem forall_lookup_iff {P : String → StateEntry → Prop} :
    (∀ k a, state.lookup k = some a → P k a) ↔ ∀ x ∈ state.entries, P x.1 x.2 := by
  constructor
  · intro h x hx
    exact h x.1 x.2 (Finmap.lookup_eq_some_iff.mpr hx)
  · intro h k a hk
    exact h ⟨k, a⟩ (Finmap.lookup_eq_some_iff.mp hk)

/-- Region `b` wrote `x`; region `a` took it over and wrote `y`. The delta for `b` is the entry of `y`, and enough. -/
theorem delta_complete_iff_after_exchange :
    CaughtUp (engineAfter "a" .lastWriterWins
        [.applyRemote (firstPut "b" "x" [1] 100), .put "y" [2] 200 ["a", "b"]])
      ((engineAfter "b" .lastWriterWins [.put "x" [1] 100 ["b"]]).applyAll
        [((engineAfter "a" .lastWriterWins [.applyRemote (firstPut "b" "x" [1] 100)]).put scriptEntrySha3 "y" [2] 200
          ["a", "b"]).2]) := by
  refine (delta_complete_iff scriptEntrySha3 _ _ (reached_engineAfter _ _ _) (reached_engineAfter _ _ _)
    (by decide +kernel) _ (by decide +kernel)).mpr (forall_lookup_iff.mpr ?_)
  decide +kernel

/-- Region `b` took over the first write of `x` by region `a` and nothing else; the delta for it does not have the
second one, for `a` has not heard of `b`. -/
theorem delta_misses_second_put : ¬ ∀ (sha3 : List UInt8 → EntryHash) (A B : StateSyncEngine), Reached sha3 A →
    Reached sha3 B → B.strategy = .lastWriterWins → ∀ order : List StateEntry,
    (order : Multiset StateEntry) = A.getDelta B.clock → CaughtUp A (B.applyAll order) := by
  intro hall
  have hcaught := hall scriptEntrySha3 _ _
    (reached_engineAfter "a" .lastWriterWins [.put "x" [1] 100 ["a"], .put "x" [2] 200 ["a"]])
    (reached_engineAfter "b" .lastWriterWins [.applyRemote (firstPut "a" "x" [1] 100)]) (by decide +kernel) []
    (by decide +kernel)
  obtain ⟨b, hb, hnot⟩ := hcaught "x" (((engineAfter "a" .lastWriterWins [.put "x" [1] 100 ["a"]]).put
    scriptEntrySha3 "x" [2] 200 ["a"]).2) (by decide +kernel)
  have hfirst : b = firstPut "a" "x" [1] 100 := by
    refine Option.some.inj (hb.symm.trans ?_)
    decide +kernel
  rw [hfirst] at hnot
  exact hnot (by decide +kernel)

end WarmLogic.Federation
