/-
# WarmLogic.Federation.RemoteVersions — an entry that comes twice, and the versions `KeepBoth` is to keep.

A remote entry that comes a second time changes nothing, under any strategy and in any state
(`apply_remote_idempotent`): what it meets is itself, or the same holder that decided the first time.

`KeepBoth` keeps the holder of a key and files a concurrent entry under a key of its own. That key is in the space of
all keys and has four bytes of a hash, so it may be in use: by an entry whose hash begins alike, or by an entry of
that name. `HasRoom` is what a call must find for nothing to be lost, and `keepBoth_keeps_versions_iff` says that it
is no more than that.

Why room is enough: a call with room either finds its key free, or files its entry under a free key, or changes
nothing, and so touches no other entry (`HasRoom.keeps`). Why it is needed takes the whole run, as an entry could be
lost by one call and come back by a later one. `origin` says where each entry of the state comes from, so a call
without room is one whose own entry is missing afterwards, or one that overwrote an entry of another key: a version is
lost there.
-/
import WarmLogic.Federation.ClockAlgebra
import WarmLogic.Federation.KeepBoth

namespace WarmLogic.Federation

open WarmLogic.Lib WarmLogic.Lib.Selection

variable {state : StateMap} {strategy : ConflictStrategy} {x : StateEntry}

/-! ## An entry that comes twice -/

/-- A conflict key is longer than its key. -/
theorem conflictKey_ne_key (entry : StateEntry) : entry.conflictKey ≠ entry.key := by
  intro h
  have hlen := congrArg String.length h
  unfold StateEntry.conflictKey at hlen
  rw [String.length_append, String.length_append] at hlen
  have hmark : "__conflict_".length = 11 := rfl
  omega

/-- The conflict table after an entry: under `Manual` a conflict is noted under the key of the holder. -/
def noted (strategy : ConflictStrategy) (state : StateMap) (conflicts : Finmap (fun _ : String => Conflict))
    (entry : StateEntry) : Finmap (fun _ : String => Conflict) :=
  match state.lookup entry.key with
  | none => conflicts
  | some l =>
      if strategy = .manual ∧ compareClocks l.clock entry.clock = .concurrent then
        conflicts.insert l.key (Conflict.new l entry)
      else conflicts

/-- What `apply_remote` leaves of the engine, field by field. -/
theorem applyRemote_eq (e : StateSyncEngine) (entry : StateEntry) :
    (e.applyRemote entry).1 =
      { e with
        clock := e.clock.merge entry.clock
        state := applied e.strategy e.state entry
        conflicts := noted e.strategy e.state e.conflicts entry } := by
  unfold StateSyncEngine.applyRemote applied noted
  dsimp only
  cases e.state.lookup entry.key with
  | none => rfl
  | some l =>
      dsimp only
      cases compareClocks l.clock entry.clock with
      | before => simp
      | after => simp
      | equal => simp
      | concurrent =>
          unfold StateSyncEngine.handleConflict
          dsimp only
          cases e.strategy with
          | lastWriterWins =>
              simp only [reduceCtorEq, false_and, if_false]
              split <;> rfl
          | vectorClock =>
              simp only [reduceCtorEq, false_and, if_false]
              split <;> rfl
          | manual => simp [Conflict.new]
          | keepBoth => simp

/-- What an entry that meets the holder `l` makes the state store, if anything. -/
def stored (strategy : ConflictStrategy) (l entry : StateEntry) : Option StateEntry :=
  match compareClocks l.clock entry.clock with
  | .before => some entry
  | .after => none
  | .equal => none
  | .concurrent =>
      match strategy with
      | .lastWriterWins | .vectorClock => if entry.timestampMs ≤ l.timestampMs then some l else some entry
      | .manual => none
      | .keepBoth => some entry.renamed

/-- What is stored depends on the holder of the key only. -/
theorem applied_of_lookup {l : StateEntry} (hl : state.lookup x.key = some l) (strategy : ConflictStrategy) :
    applied strategy state x = (stored strategy l x).elim state fun y => state.insert y.key y := by
  unfold applied stored
  rw [hl]
  dsimp only
  cases compareClocks l.clock x.clock with
  | before => rfl
  | after => rfl
  | equal => rfl
  | concurrent =>
      cases strategy with
      | lastWriterWins =>
          dsimp only
          split <;> rfl
      | vectorClock =>
          dsimp only
          split <;> rfl
      | manual => rfl
      | keepBoth => rfl

/-- What is stored is the entry, the holder, or the entry under its conflict key. -/
theorem stored_cases {l y : StateEntry} (h : stored strategy l x = some y) : y = x ∨ y = l ∨ y = x.renamed := by
  unfold stored at h
  repeat' split at h
  all_goals cases h
  all_goals simp

/-- An entry that meets itself stores nothing. -/
theorem stored_self (strategy : ConflictStrategy) (x : StateEntry) : stored strategy x x = none := by
  unfold stored
  rw [compareClocks_eq_equal.mpr rfl]

/-- So an entry that holds its key changes nothing. -/
theorem applied_of_held (strategy : ConflictStrategy) (h : state.lookup x.key = some x) :
    applied strategy state x = state := by
  rw [applied_of_lookup h, stored_self]
  rfl

/-- The state after the second time is the state after the first. -/
theorem applied_idempotent (strategy : ConflictStrategy) (state : StateMap) (x : StateEntry) :
    applied strategy (applied strategy state x) x = applied strategy state x := by
  cases hl : state.lookup x.key with
  | none =>
      have hfirst : applied strategy state x = state.insert x.key x := by
        rw [applied, hl]
      rw [hfirst]
      exact applied_of_held strategy (Finmap.lookup_insert state)
  | some l =>
      have hfirst := applied_of_lookup hl strategy
      cases hy : stored strategy l x with
      | none =>
          rw [hy] at hfirst
          rw [show applied strategy state x = state from hfirst]
          exact hfirst
      | some y =>
          rw [hy] at hfirst
          rw [show applied strategy state x = state.insert y.key y from hfirst]
          by_cases hyx : y = x
          · subst hyx
            exact applied_of_held strategy (Finmap.lookup_insert state)
          · -- the holder is still there, so the second time stores the same entry again
            have hheld : (state.insert y.key y).lookup x.key = some l := by
              rw [lookup_insert_key, hl]
              split
              · rename_i hkey
                rcases stored_cases hy with h | h | h
                · exact absurd h hyx
                · rw [h]
                · rw [h] at hkey
                  exact absurd hkey (conflictKey_ne_key x)
              · rfl
            rw [applied_of_lookup hheld, hy]
            exact Finmap.insert_insert state

/-- Only `Manual` notes conflicts. -/
theorem noted_of_ne_manual (h : strategy ≠ .manual) (state : StateMap) (conflicts : Finmap (fun _ : String => Conflict))
    (x : StateEntry) : noted strategy state conflicts x = conflicts := by
  unfold noted
  split
  · rfl
  · exact if_neg fun hc => h hc.1

/-- An entry that holds its key is no conflict. -/
theorem noted_of_held (strategy : ConflictStrategy) (h : state.lookup x.key = some x)
    (conflicts : Finmap (fun _ : String => Conflict)) : noted strategy state conflicts x = conflicts := by
  unfold noted
  rw [h]
  exact if_neg fun hc => (compareClocks_eq_concurrent.mp hc.2).1 rfl

/-- Under `Manual` the state is left as it is, or the entry holds its key afterwards. -/
theorem applied_manual_cases (state : StateMap) (x : StateEntry) :
    applied .manual state x = state ∨ (applied .manual state x).lookup x.key = some x := by
  cases hl : state.lookup x.key with
  | none =>
      right
      rw [applied, hl]
      exact Finmap.lookup_insert state
  | some l =>
      rw [applied_of_lookup hl, stored]
      cases compareClocks l.clock x.clock with
      | before => exact .inr (Finmap.lookup_insert state)
      | after => exact .inl rfl
      | equal => exact .inl rfl
      | concurrent => exact .inl rfl

/-- Noting the same conflict again changes nothing. -/
theorem noted_noted (strategy : ConflictStrategy) (state : StateMap) (conflicts : Finmap (fun _ : String => Conflict))
    (x : StateEntry) : noted strategy state (noted strategy state conflicts x) x = noted strategy state conflicts x := by
  unfold noted
  cases state.lookup x.key with
  | none => rfl
  | some l =>
      dsimp only
      split
      · exact Finmap.insert_insert conflicts
      · rfl

/-- The conflict table after the second time is that after the first. -/
theorem noted_idempotent (strategy : ConflictStrategy) (state : StateMap)
    (conflicts : Finmap (fun _ : String => Conflict)) (x : StateEntry) :
    noted strategy (applied strategy state x) (noted strategy state conflicts x) x =
      noted strategy state conflicts x := by
  by_cases hmanual : strategy = .manual
  · subst hmanual
    rcases applied_manual_cases state x with hsame | hheld
    · rw [hsame]
      exact noted_noted .manual state conflicts x
    · exact noted_of_held .manual hheld _
  · rw [noted_of_ne_manual hmanual]

/-- **An entry that comes twice in a row is applied once**: state, clock and conflict table are those after the first
time, in every state, under every strategy. The second time the entry meets itself, or the holder that decided the
first time. -/
theorem apply_remote_idempotent (e : StateSyncEngine) (entry : StateEntry) :
    ((e.applyRemote entry).1.applyRemote entry).1.state = (e.applyRemote entry).1.state ∧
      ((e.applyRemote entry).1.applyRemote entry).1.clock = (e.applyRemote entry).1.clock ∧
      ((e.applyRemote entry).1.applyRemote entry).1.conflicts = (e.applyRemote entry).1.conflicts := by
  rw [applyRemote_eq, applyRemote_eq]
  refine ⟨applied_idempotent e.strategy e.state entry, ?_, noted_idempotent e.strategy e.state e.conflicts entry⟩
  show (e.clock.merge entry.clock).merge entry.clock = e.clock.merge entry.clock
  rw [VectorClock.merge_assoc, VectorClock.merge_self]

/-! ## The versions `KeepBoth` keeps -/

/-- The entry is in the state: under its key, or filed under its conflict key. -/
def Retrievable (state : StateMap) (x : StateEntry) : Prop :=
  state.lookup x.key = some x ∨ state.lookup x.conflictKey = some x.renamed

instance (state : StateMap) (x : StateEntry) : Decidable (Retrievable state x) := inferInstanceAs (Decidable (_ ∨ _))

/-- What a call must find: the key is free; or its holder is not before the entry, and the entry is in the state
already, or it is concurrent with the holder and its conflict key is free. -/
def HasRoom (state : StateMap) (x : StateEntry) : Prop :=
  ∀ l ∈ state.lookup x.key,
    ¬ Supersedes (some l) x ∧ (Retrievable state x ∨ (Clashes (some l) x ∧ x.conflictKey ∉ state))

instance (state : StateMap) (x : StateEntry) : Decidable (HasRoom state x) :=
  inferInstanceAs (Decidable (∀ l ∈ state.lookup x.key, _))

/-- Every entry of the first state is where it was in the second. -/
def Keeps (state after : StateMap) : Prop := ∀ k y, state.lookup k = some y → after.lookup k = some y

/-- An entry put where nothing was touches no other. -/
theorem keeps_insert {k : String} {y : StateEntry} (h : state.lookup k = none ∨ state.lookup k = some y) :
    Keeps state (state.insert k y) := by
  intro k' z hz
  by_cases hk : k' = k
  · subst hk
    rw [hz] at h
    rcases h with h | h
    · cases h
    · rw [Finmap.lookup_insert, h]
  · rw [Finmap.lookup_insert_of_ne _ hk, hz]

/-- What is in the state stays there as long as all entries do. -/
theorem Retrievable.mono {after : StateMap} (h : Retrievable state x) (hkeeps : Keeps state after) :
    Retrievable after x :=
  h.imp (hkeeps _ _) (hkeeps _ _)

/-- **A call with room loses nothing**: all entries stay, and its own is in the state. -/
theorem HasRoom.keeps (h : HasRoom state x) :
    Keeps state (applied .keepBoth state x) ∧ Retrievable (applied .keepBoth state x) x := by
  rw [applied_keepBoth]
  cases hl : state.lookup x.key with
  | none =>
      rw [if_neg (show ¬ Clashes none x from id), if_pos (show Supersedes none x from trivial)]
      exact ⟨keeps_insert (.inl hl), .inl (Finmap.lookup_insert state)⟩
  | some l =>
      obtain ⟨hnot, hroom⟩ := h l hl
      by_cases hclash : Clashes (some l) x
      · -- filed: the conflict key is free, or holds this very entry
        have hslot : state.lookup x.conflictKey = none ∨ state.lookup x.conflictKey = some x.renamed := by
          rcases hroom with (hheld | hfiled) | ⟨-, hfree⟩
          · rw [hl] at hheld
            cases hheld
            exact absurd rfl (compareClocks_eq_concurrent.mp hclash).1
          · exact .inr hfiled
          · exact .inl (Finmap.lookup_eq_none.mpr hfree)
        rw [if_pos hclash]
        exact ⟨keeps_insert hslot, .inr (Finmap.lookup_insert state)⟩
      · rw [if_neg hclash, if_neg hnot]
        refine ⟨fun _ _ hy => hy, ?_⟩
        rcases hroom with hheld | ⟨hconc, -⟩
        · exact hheld
        · exact absurd hconc hclash

namespace StateSyncEngine

/-- The state after the first `i` entries of a list. -/
def stateAfter (e : StateSyncEngine) (l : List StateEntry) (i : Nat) : StateMap := (e.applyAll (l.take i)).state

variable {e : StateSyncEngine} {l : List StateEntry}

/-- One call more. -/
theorem stateAfter_succ (hs : e.strategy = .keepBoth) {i : Nat} (hi : i < l.length) :
    e.stateAfter l (i + 1) = applied .keepBoth (e.stateAfter l i) l[i] := by
  unfold stateAfter
  rw [applyAll_state, applyAll_state, List.take_succ_eq_append_getElem hi, List.foldl_append, hs]
  rfl

end StateSyncEngine

/-- The entries for a key are concurrent with each other and with the local entry of the key. -/
structure MutuallyConcurrent (e : StateSyncEngine) (l : List StateEntry) : Prop where
  withLocal : ∀ x ∈ l, ∀ y, e.state.lookup x.key = some y → compareClocks y.clock x.clock = .concurrent
  pairwise : l.Pairwise fun x y => x.key = y.key → compareClocks x.clock y.clock = .concurrent

/-- After any number of the calls every entry that came is in the state, and no call touches an entry of a key that
is not its own. -/
structure NoVersionLost (e : StateSyncEngine) (l : List StateEntry) : Prop where
  versions : ∀ i, ∀ x ∈ l.take i, Retrievable (e.stateAfter l i) x
  unrelated : ∀ i, ∀ hi : i < l.length, ∀ k y, k ≠ l[i].key →
    (e.stateAfter l i).lookup k = some y → (e.stateAfter l (i + 1)).lookup k = some y

variable {e : StateSyncEngine} {l : List StateEntry}

/-- The first `i + 1` entries are the first `i` and the next. -/
theorem mem_take_succ {i : Nat} (hi : i < l.length) : x ∈ l.take (i + 1) ↔ x ∈ l.take i ∨ x = l[i] := by
  rw [List.take_succ_eq_append_getElem hi, List.mem_append, List.mem_singleton]

/-- An entry that clashes has met a holder of its key. -/
theorem Clashes.exists_holder {o : Option StateEntry} (h : Clashes o x) : ∃ g, o = some g ∧ g ≠ x := by
  cases o with
  | none => exact absurd h id
  | some g =>
      refine ⟨g, rfl, ?_⟩
      rintro rfl
      exact (compareClocks_eq_concurrent.mp h).1 rfl

/-- Calls with room: all that was in the state at any time, the local entries too, stays there. -/
theorem keeps_of_room (hs : e.strategy = .keepBoth)
    (hroom : ∀ i, ∀ hi : i < l.length, HasRoom (e.stateAfter l i) l[i]) (i : Nat) :
    Keeps e.state (e.stateAfter l i) ∧ ∀ x ∈ l.take i, Retrievable (e.stateAfter l i) x := by
  induction i with
  | zero => exact ⟨fun _ _ h => h, fun _ hx => absurd hx List.not_mem_nil⟩
  | succ i ih =>
      obtain ⟨hlocal, hversions⟩ := ih
      by_cases hi : i < l.length
      · obtain ⟨hkeeps, hnew⟩ := (hroom i hi).keeps
        rw [StateSyncEngine.stateAfter_succ hs hi]
        refine ⟨fun k y hy => hkeeps k y (hlocal k y hy), fun x hx => ?_⟩
        rcases (mem_take_succ hi).mp hx with hx | rfl
        · exact (hversions x hx).mono hkeeps
        · exact hnew
      · -- there is no further call
        have hall : l.take (i + 1) = l.take i := by
          rw [List.take_of_length_le (by omega), List.take_of_length_le (by omega)]
        unfold StateSyncEngine.stateAfter at hlocal hversions ⊢
        rw [hall]
        exact ⟨hlocal, hversions⟩

/-- The entries of a key that came before are concurrent with the next one. -/
theorem MutuallyConcurrent.earlier (hl : MutuallyConcurrent e l) {i : Nat} (hi : i < l.length) {z : StateEntry}
    (hz : z ∈ l.take i) (hkey : z.key = l[i].key) : compareClocks z.clock l[i].clock = .concurrent := by
  have hsplit := hl.pairwise
  rw [← List.take_append_drop i l, List.drop_eq_getElem_cons hi] at hsplit
  exact (List.pairwise_append.mp hsplit).2.2 z hz l[i] List.mem_cons_self hkey

/-- An entry that came is filed, and the holder of its key is another one. -/
def FiledAt (e : StateSyncEngine) (l : List StateEntry) (i : Nat) (k : String) (z : StateEntry) : Prop :=
  z ∈ l.take i ∧ z.conflictKey = k ∧ ∃ g, (e.stateAfter l i).lookup z.key = some g ∧ g ≠ z

/-- A filed entry stays filed. -/
theorem FiledAt.succ (hs : e.strategy = .keepBoth) (hl : MutuallyConcurrent e l) (h : NoVersionLost e l) {i : Nat}
    (hi : i < l.length) {k : String} {z : StateEntry} (hz : FiledAt e l i k z) : FiledAt e l (i + 1) k z := by
  obtain ⟨hmem, hk, g, hg, hne⟩ := hz
  refine ⟨(mem_take_succ hi).mpr (.inl hmem), hk, ?_⟩
  by_cases hkey : z.key = l[i].key
  · -- a call for the same key: the holder stays, or it is the entry of the call
    have hconc := hl.earlier hi hmem hkey
    rw [StateSyncEngine.stateAfter_succ hs hi, lookup_applied_keepBoth fun _ => hkey ▸ conflictKey_ne_key l[i],
      if_pos hkey.symm, hg, challenge]
    split
    · refine ⟨l[i], rfl, fun heq => ?_⟩
      rw [heq] at hconc
      exact (compareClocks_eq_concurrent.mp hconc).1 rfl
    · exact ⟨g, rfl, hne⟩
  · exact ⟨g, h.unrelated i hi z.key g hkey hg, hne⟩

/-- Where an entry of the state comes from: the first state, a call for its key, or a filing. -/
def Origin (e : StateSyncEngine) (l : List StateEntry) (i : Nat) (k : String) (y : StateEntry) : Prop :=
  e.state.lookup k = some y ∨ (y ∈ l.take i ∧ y.key = k) ∨ ∃ z, FiledAt e l i k z ∧ z.renamed = y

/-- An entry keeps its origin from call to call. -/
theorem Origin.succ (hs : e.strategy = .keepBoth) (hl : MutuallyConcurrent e l) (h : NoVersionLost e l) {i : Nat}
    (hi : i < l.length) {k : String} {y : StateEntry} (ho : Origin e l i k y) : Origin e l (i + 1) k y := by
  rcases ho with hlocal | ⟨hmem, hkey⟩ | ⟨z, hz, hren⟩
  · exact .inl hlocal
  · exact .inr (.inl ⟨(mem_take_succ hi).mpr (.inl hmem), hkey⟩)
  · exact .inr (.inr ⟨z, hz.succ hs hl h hi, hren⟩)

/-- What a call files comes from that call, and the holder it met stays. -/
theorem origin_filed (hs : e.strategy = .keepBoth) {i : Nat} (hi : i < l.length)
    (hclash : Clashes ((e.stateAfter l i).lookup l[i].key) l[i]) :
    Origin e l (i + 1) l[i].conflictKey l[i].renamed := by
  obtain ⟨g, hg, hne⟩ := hclash.exists_holder
  refine .inr (.inr ⟨l[i], ⟨(mem_take_succ hi).mpr (.inr rfl), rfl, g, ?_, hne⟩, rfl⟩)
  rw [StateSyncEngine.stateAfter_succ hs hi, applied_keepBoth, if_pos hclash,
    Finmap.lookup_insert_of_ne _ (conflictKey_ne_key l[i]).symm, hg]

/-- **Every entry of the state has an origin**, as long as nothing was lost. -/
theorem origin (hs : e.strategy = .keepBoth) (hl : MutuallyConcurrent e l) (h : NoVersionLost e l) {i : Nat}
    (hi : i ≤ l.length) {k : String} {y : StateEntry} (hy : (e.stateAfter l i).lookup k = some y) :
    Origin e l i k y := by
  induction i generalizing k y with
  | zero => exact .inl hy
  | succ i ih =>
      have hlt : i < l.length := hi
      have hold : (e.stateAfter l i).lookup k = some y → Origin e l (i + 1) k y :=
        fun hbefore => (ih (Nat.le_of_lt hlt) hbefore).succ hs hl h hlt
      rw [StateSyncEngine.stateAfter_succ hs hlt, applied_keepBoth] at hy
      split at hy
      · rename_i hclash
        by_cases hk : k = l[i].conflictKey
        · subst hk
          rw [Finmap.lookup_insert] at hy
          cases hy
          exact origin_filed hs hlt hclash
        · rw [Finmap.lookup_insert_of_ne _ hk] at hy
          exact hold hy
      · split at hy
        · rw [lookup_insert_key] at hy
          split at hy
          · rename_i hk
            cases hy
            exact .inr (.inl ⟨(mem_take_succ hlt).mpr (.inr rfl), hk⟩)
          · exact hold hy
        · exact hold hy

/-- The holder of a key is never before an entry that comes for it. -/
theorem not_supersedes_holder (hs : e.strategy = .keepBoth) (hl : MutuallyConcurrent e l) (h : NoVersionLost e l)
    {i : Nat} (hi : i < l.length) {y : StateEntry} (hy : (e.stateAfter l i).lookup l[i].key = some y) :
    ¬ Supersedes (some y) l[i] := by
  intro hsup
  have hnot : compareClocks y.clock l[i].clock ≠ .concurrent :=
    fun hconc => (compareClocks_eq_concurrent.mp hconc).2.1 hsup
  rcases origin hs hl h (Nat.le_of_lt hi) hy with hlocal | ⟨hmem, hkey⟩ | ⟨z, ⟨hmem, hck, g, hg, hne⟩, hren⟩
  · exact hnot (hl.withLocal l[i] (List.getElem_mem hi) y hlocal)
  · exact hnot (hl.earlier hi hmem hkey)
  · -- the holder is a filed version, which the call would overwrite
    have hafter : e.stateAfter l (i + 1) = (e.stateAfter l i).insert l[i].key l[i] := by
      rw [StateSyncEngine.stateAfter_succ hs hi, applied_keepBoth, hy,
        if_neg (show ¬ Clashes (some y) l[i] from hnot), if_pos hsup]
    have hzkey : z.key ≠ l[i].key := fun heq => conflictKey_ne_key z (hck.trans heq.symm)
    rcases h.versions (i + 1) z ((mem_take_succ hi).mpr (.inl hmem)) with hheld | hfiled
    · rw [h.unrelated i hi z.key g hzkey hg] at hheld
      exact hne (Option.some.inj hheld)
    · rw [hafter, hck, Finmap.lookup_insert] at hfiled
      rw [Option.some.inj hfiled, hren] at hsup
      exact not_supersedes_self y hsup

/-- **`KeepBoth` loses no version exactly where every call has room.** A call with room touches no other entry. After
a call without it an entry is missing, or the one in its place was. -/
theorem keepBoth_keeps_versions_iff (e : StateSyncEngine) (hs : e.strategy = .keepBoth) (l : List StateEntry)
    (hl : MutuallyConcurrent e l) :
    NoVersionLost e l ↔ ∀ i, ∀ hi : i < l.length, HasRoom (e.stateAfter l i) l[i] := by
  constructor
  · intro h i hi y hy
    have hsup := not_supersedes_holder hs hl h hi hy
    have hstep := StateSyncEngine.stateAfter_succ hs hi
    rw [applied_keepBoth, show (e.stateAfter l i).lookup l[i].key = some y from hy] at hstep
    refine ⟨hsup, ?_⟩
    by_cases hclash : Clashes (some y) l[i]
    · rw [if_pos hclash] at hstep
      cases hg : (e.stateAfter l i).lookup l[i].conflictKey with
      | none => exact .inr ⟨hclash, Finmap.lookup_eq_none.mp hg⟩
      | some g =>
          -- what stands under the conflict key is overwritten, so it was this very entry
          have hkept := h.unrelated i hi _ g (conflictKey_ne_key l[i]) hg
          rw [hstep, Finmap.lookup_insert] at hkept
          exact .inl (.inr (hg.trans hkept.symm))
    · rw [if_neg hclash, if_neg hsup] at hstep
      have hin := h.versions (i + 1) l[i] ((mem_take_succ hi).mpr (.inr rfl))
      rw [hstep] at hin
      exact .inl hin
  · intro hroom
    refine ⟨fun i => (keeps_of_room hs hroom i).2, fun i hi k y _ hy => ?_⟩
    rw [StateSyncEngine.stateAfter_succ hs hi]
    exact (hroom i hi).keeps.1 k y hy

/-- Region `a` wrote the keys in this order. -/
def keepBothEngine (keys : List String) : StateSyncEngine :=
  engineAfter "a" .keepBoth (keys.map fun key => .put key [1] 1738243200000 ["a"])

/-- The first write of key `k` in another region. -/
def remoteWrite (region : String) (value : List UInt8) (nowMs : UInt64) (hash : EntryHash) : StateEntry where
  key := "k"
  value := value
  clock := (VectorClock.new.increment region).increment region
  timestampMs := nowMs
  originRegion := region
  hash := hash
  deleted := false

/-- Two writes with their SHA3-256 hashes, which begin with the same four bytes. -/
def earlierVersion : StateEntry :=
  remoteWrite "b" [2] 1738243285616 #v[253, 115, 49, 19, 75, 16, 204, 79, 34, 197, 213, 44, 40, 233, 217, 99, 46, 27,
    133, 236, 141, 221, 107, 180, 244, 79, 217, 56, 126, 5, 60, 62]

/-- The second of them. -/
def laterVersion : StateEntry :=
  remoteWrite "c" [3] 1738243202638 #v[253, 115, 49, 19, 151, 44, 193, 125, 33, 215, 220, 181, 212, 130, 224, 229, 138,
    216, 50, 84, 86, 253, 98, 178, 99, 127, 129, 209, 132, 120, 52, 154]

/-- Writes of regions that have not heard of each other are concurrent. -/
theorem mutuallyConcurrent_writes : MutuallyConcurrent (keepBothEngine ["k"]) [earlierVersion, laterVersion] where
  withLocal := by
    show ∀ x ∈ [earlierVersion, laterVersion], ∀ y ∈ (keepBothEngine ["k"]).state.lookup x.key, _
    decide +kernel
  pairwise := by decide +kernel

/-- Where the second write has another hash all three versions stay. -/
theorem keepBoth_keeps_two_writes :
    NoVersionLost (keepBothEngine ["k"]) [earlierVersion, { laterVersion with hash := Vector.replicate 32 7 }] :=
  (keepBoth_keeps_versions_iff (keepBothEngine ["k"]) (by decide +kernel) _
    { withLocal := by
        show ∀ x ∈ [earlierVersion, { laterVersion with hash := Vector.replicate 32 7 }],
          ∀ y ∈ (keepBothEngine ["k"]).state.lookup x.key, _
        decide +kernel
      pairwise := by decide +kernel }).mpr (by decide +kernel)

/-- The second of two filed versions takes the place of the first, whose value is nowhere then; and a filing overwrites
a key that is spelled like a conflict key. -/
theorem keepBoth_loses_version :
    (¬ ∀ (e : StateSyncEngine) (l : List StateEntry), e.strategy = .keepBoth → MutuallyConcurrent e l →
      ∀ x ∈ l, ∃ k y, (e.applyAll l).state.lookup k = some y ∧ y.value = x.value) ∧
    ¬ ∀ (e : StateSyncEngine) (l : List StateEntry), e.strategy = .keepBoth → MutuallyConcurrent e l →
      ∀ k y, (∀ x ∈ l, x.key ≠ k) → e.state.lookup k = some y → (e.applyAll l).state.lookup k = some y := by
  refine ⟨fun h => ?_, fun h => ?_⟩
  · obtain ⟨k, y, hy, hvalue⟩ := h _ _ (by decide +kernel) mutuallyConcurrent_writes earlierVersion List.mem_cons_self
    have hnone : ∀ k a, ((keepBothEngine ["k"]).applyAll [earlierVersion, laterVersion]).state.lookup k = some a →
        a.value ≠ earlierVersion.value := by
      rw [forall_lookup_iff]
      decide +kernel
    exact hnone k y hy hvalue
  · have hconc : MutuallyConcurrent (keepBothEngine ["k", "k__conflict_fd733113"]) [earlierVersion] :=
      { withLocal := by
          show ∀ x ∈ [earlierVersion], ∀ y ∈ (keepBothEngine ["k", "k__conflict_fd733113"]).state.lookup x.key, _
          decide +kernel
        pairwise := List.pairwise_singleton _ _ }
    have hbefore : ((keepBothEngine ["k", "k__conflict_fd733113"]).state.lookup "k__conflict_fd733113").map (·.value) =
        some [1] := by decide +kernel
    have hafter : (((keepBothEngine ["k", "k__conflict_fd733113"]).applyAll [earlierVersion]).state.lookup
        "k__conflict_fd733113").map (·.value) = some [2] := by decide +kernel
    obtain ⟨y, hy, hvalue⟩ := Option.map_eq_some_iff.mp hbefore
    rw [h _ _ (by decide +kernel) hconc _ y (by decide +kernel) hy, Option.map_some, hvalue] at hafter
    exact absurd hafter (by decide)

end WarmLogic.Federation
