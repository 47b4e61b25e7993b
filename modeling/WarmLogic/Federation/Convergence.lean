/-
# WarmLogic.Federation.Convergence — for which sets of entries two engines end with the same state.

The module the source opens with promises eventual consistency. Two engines with the same strategy and state that
apply the same entries in different orders need not agree: two concurrent writes with the same timestamp are
decided for whichever came first (`equal_timestamps_diverge`), the combination of causal order and timestamps is not
transitive, and `KeepBoth` files what it happens to meet. `eventual_consistency_iff` states for which entries they
do agree: exactly for the time-based strategies, and for `KeepBoth` up to collisions of conflict keys.
-/
import WarmLogic.Federation.KeepBoth

namespace WarmLogic.Federation

open WarmLogic.Lib WarmLogic.Lib.Selection

/-- Whatever the orders in which two engines apply the entries of `S`, their states are the same. -/
def SameEnd (e e' : StateSyncEngine) (S : Finset StateEntry) : Prop :=
  ∀ l l', OrderOf S l → OrderOf S l' → (e.applyAll l).state = (e'.applyAll l').state

theorem sameEnd_iff_converges {e e' : StateSyncEngine} (hstrategy : e'.strategy = e.strategy)
    (hstate : e'.state = e.state) {S : Finset StateEntry} : SameEnd e e' S ↔ Converges e.strategy e.state S := by
  unfold SameEnd Converges
  simp only [StateSyncEngine.applyAll_state, hstrategy, hstate]

/-- **Eventual consistency.** Under a time-based strategy two engines agree on a set of entries exactly when every key
settles. Under `KeepBoth` they agree when the entries of every key are chained and what is filed goes apart, and only
when they are chained if conflict keys collide with nothing. -/
theorem eventual_consistency_iff (sha3 : List UInt8 → EntryHash) (e e' : StateSyncEngine) (he : Reached sha3 e)
    (hstrategy : e'.strategy = e.strategy) (hstate : e'.state = e.state) (S : Finset StateEntry) :
    (ByTime e.strategy →
      (SameEnd e e' S ↔ ∀ k, Settles Replaces (e.state.lookup k) (forKey S k))) ∧
    (e.strategy = .keepBoth →
      ((∀ k, Chained (e.state.lookup k) (forKey S k)) → FiledApart e.state S → SameEnd e e' S) ∧
      (FreshConflictKeys e.state S → SameEnd e e' S → ∀ k, Chained (e.state.lookup k) (forKey S k))) := by
  rw [sameEnd_iff_converges hstrategy hstate]
  refine ⟨fun htime => converges_byTime_iff htime he.keysMatch S, fun hkeep => ?_⟩
  rw [hkeep]
  exact ⟨fun hch hap => hap.converges hch, fun hfresh hconv => hfresh.chained hconv⟩

/-! ### Three sets of two writes -/

/-- The writes of `x` by regions `a` and `b`, each unaware of the other, with the given timestamps. -/
def twoWriters (timeA timeB : UInt64) : Finset StateEntry :=
  {firstPut "a" "x" [1] timeA, firstPut "b" "x" [2] timeB}

/-- Two writes of `x` by region `a`, one after the other. -/
def twoVersions : Finset StateEntry :=
  {firstPut "a" "x" [1] 100,
    ((engineAfter "a" .lastWriterWins [.put "x" [1] 100 ["a"]]).put scriptEntrySha3 "x" [2] 200 ["a"]).2}

/-- Two entries for `x` settle or are chained key by key as soon as they do under `x`. -/
theorem forall_key_of_x {P : String → Finset StateEntry → Prop} {S : Finset StateEntry}
    (hS : ∀ entry ∈ S, entry.key = "x") (hx : P "x" S) (hempty : ∀ k, P k ∅) : ∀ k, P k (forKey S k) := by
  intro k
  by_cases hk : k = "x"
  · rw [hk, forKey, Finset.filter_true_of_mem hS]
    exact hx
  · rw [forKey, Finset.filter_false_of_mem fun entry hentry h => hk (h.symm.trans (hS entry hentry))]
    exact hempty k

/-- Different timestamps decide two concurrent writes, and `KeepBoth` lets a second version in. -/
theorem eventual_consistency_iff_two_writes :
    SameEnd (engineAfter "c" .lastWriterWins []) (engineAfter "d" .lastWriterWins []) (twoWriters 100 200) ∧
      SameEnd (engineAfter "c" .keepBoth []) (engineAfter "d" .keepBoth []) twoVersions := by
  refine ⟨?_, ?_⟩
  · refine ((eventual_consistency_iff scriptEntrySha3 _ (engineAfter "d" .lastWriterWins [])
      (reached_engineAfter "c" .lastWriterWins []) rfl rfl (twoWriters 100 200)).1 (by decide)).mpr (forall_key_of_x (by decide +kernel) (.inr ?_) ?_)
    · exact ⟨firstPut "b" "x" [2] 200, .of_beats_all (by decide +kernel) (by decide +kernel) trivial
        (by decide +kernel)⟩
    · exact fun k => .inl fun x hx => absurd hx (Finset.notMem_empty x)
  · have hapart : FiledApart (engineAfter "c" .keepBoth []).state twoVersions := ⟨by decide +kernel, by decide +kernel⟩
    refine ((eventual_consistency_iff scriptEntrySha3 _ (engineAfter "d" .keepBoth [])
      (reached_engineAfter "c" .keepBoth []) rfl rfl twoVersions).2 rfl).1 (forall_key_of_x (by decide +kernel) ?_ ?_)
      hapart
    · refine ⟨.inr ?_, by decide +kernel, by decide +kernel⟩
      decide +kernel
    · intro k
      exact ⟨.inl fun u hu => absurd hu (Finset.notMem_empty u), fun u hu => absurd hu (Finset.notMem_empty u),
        fun x hx => absurd hx (Finset.notMem_empty x)⟩

/-- An entry that `put` or `delete` returned on some engine. -/
def Produced (sha3 : List UInt8 → EntryHash) (entry : StateEntry) : Prop :=
  ∃ e, Reached sha3 e ∧
    ((∃ key value nowMs order, entry = (e.put sha3 key value nowMs order).2) ∨
      ∃ key nowMs order, (e.delete sha3 key nowMs order).2 = some entry)

theorem produced_firstPut (regionId key : String) (value : List UInt8) (nowMs : UInt64) :
    Produced scriptEntrySha3 (firstPut regionId key value nowMs) :=
  ⟨.new regionId .lastWriterWins, reached_engineAfter regionId .lastWriterWins [], .inl ⟨key, value, nowMs, [regionId], rfl⟩⟩

/-- Two concurrent writes with the same timestamp: the one that came first stays. -/
theorem equal_timestamps_diverge : ¬ ∀ (sha3 : List UInt8 → EntryHash) (e e' : StateSyncEngine), Reached sha3 e →
    Reached sha3 e' → e'.strategy = e.strategy → e.strategy ≠ .manual → e'.state = e.state →
    ∀ S : Finset StateEntry, (∀ entry ∈ S, Produced sha3 entry) → SameEnd e e' S := by
  intro hall
  have hsame := hall scriptEntrySha3 _ _ (reached_engineAfter "c" .lastWriterWins [])
    (reached_engineAfter "d" .lastWriterWins []) rfl (by decide) rfl (twoWriters 100 100) (by
      intro entry hentry
      rcases Finset.mem_insert.mp hentry with rfl | hentry
      · exact produced_firstPut "a" "x" [1] 100
      · rw [Finset.mem_singleton.mp hentry]
        exact produced_firstPut "b" "x" [2] 100)
  have heq := hsame [firstPut "a" "x" [1] 100, firstPut "b" "x" [2] 100]
    [firstPut "b" "x" [2] 100, firstPut "a" "x" [1] 100] ⟨by decide +kernel, by decide +kernel⟩
    ⟨by decide +kernel, by decide +kernel⟩
  exact absurd heq (by decide +kernel)

end WarmLogic.Federation
