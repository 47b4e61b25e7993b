/-
# WarmLogic.Kernel.FailedCommit — What a commit leaves behind that an error of the system interrupts.

`commit` updates the memory last, so an error on the way leaves the memory alone; but it leaves the log too. Once the whole
text of the new state is in the log, whatever fails after that, the next start rolls the failed commit forward
(`load_failed_behind_log`). And the caller may have handed over the very object that is the current state, in which tick
and hash are already set. `failed_commit_iff` says exactly when a failed commit has no effect.

The three parts of `NoEffect` fail at different places. The memory is lost if the caller handed the current state
over. A restart loads something else if the whole log had been written, or if the files and the memory did not agree
before. A later commit that returns puts both right again, whatever was tried before (`load_committed`), so that part
never fails.
-/
import WarmLogic.Kernel.CrashRuns
import Mathlib.Logic.Relation

namespace WarmLogic.Kernel

open WarmLogic.Lib

variable {sha256 : List Char → List Char} {m m' : TransactionManager} {new : NewState} {s : Dict} {k : Nat}
  {torn : Option Nat}

/-! ## No effect -/

/-- One call of `commit` that got as far as the files: it returned, or one of its effects failed. -/
inductive Attempt (sha256 : List Char → List Char) : TransactionManager → TransactionManager → Prop where
  | returns {m m' : TransactionManager} {new : NewState} (h : m.commit sha256 new = some m') : Attempt sha256 m m'
  | fails {m m' : TransactionManager} {new : NewState} {s : Dict} {k : Nat} {torn : Option Nat}
      (hs : m.linked sha256 new = some s) (hk : k < (commitEffects s m.disk).length)
      (h : m.commitFails sha256 new k torn = some m') : Attempt sha256 m m'

/-- A failed commit has had no effect: `get_state` returns what it returned, a restart loads just that, and a later commit
that returns, after whatever else was tried, is what a restart after it loads. -/
structure NoEffect (sha256 : List Char → List Char) (m m' : TransactionManager) : Prop where
  memory : m'.currentState = m.currentState
  restart : (loadInitialState m'.disk).2 = some m.currentState.value
  later : ∀ m₁ new m₂, Relation.ReflTransGen (Attempt sha256) m' m₁ → m₁.commit sha256 new = some m₂ →
    (loadInitialState m₂.disk).2 = some m₂.currentState.value

/-! ## When that is so -/

/-- What the files give for a state when there is no log: the state file, or else the backup, or else genesis. -/
def StateGives (d : Disk File) (s : Dict) : Prop :=
  match d .state with
  | none => s = genesisState
  | some text =>
      match Json.loads text with
      | some v => v = s.value
      | none =>
          match d .backup with
          | some text => Json.loads text = some s.value
          | none => s = genesisState

/-- A log with this state, or no log that parses and files with this state. -/
def FilesGive (d : Disk File) (s : Dict) : Prop :=
  (∃ text, d .wal = some text ∧ Json.loads text = some s.value) ∨ (NoLog d ∧ StateGives d s)

/-- The failures without effect: the caller handed over a dict of its own; the log was being written, and not all of it
had been; and the files agreed with the memory, up to the log if that was opened. -/
structure Harmless (m : TransactionManager) (new : NewState) (s : Dict) (k : Nat) (torn : Option Nat) : Prop where
  other : new ≠ .own
  inLog : k = 0
  untouched : torn = none → FilesGive m.disk m.currentState
  opened : ∀ n, torn = some n → n < s.value.dumps.length ∧ StateGives m.disk m.currentState

/-- What a start loads for a state, from its file. -/
theorem loadState_iff {d : Disk File} {s : Dict} : (loadState d).2 = some s.value ↔ StateGives d s := by
  have genesis : some genesisState.value = some s.value ↔ s = genesisState := by
    rw [Option.some.injEq]
    exact ⟨fun h => (Dict.value_injective h).symm, fun h => by rw [h]⟩
  unfold loadState StateGives
  cases d .state with
  | none => exact genesis
  | some text =>
    simp only
    cases Json.loads text with
    | some v => simp only [Option.some.injEq]
    | none =>
      simp only
      cases d .backup with
      | none => exact genesis
      | some backup => exact Iff.rfl

/-- And with the log. -/
theorem loadInitialState_iff {d : Disk File} {s : Dict} :
    (loadInitialState d).2 = some s.value ↔ FilesGive d s := by
  by_cases hlog : NoLog d
  · rw [loadInitialState_noLog hlog, loadState_iff]
    refine ⟨fun h => .inr ⟨hlog, h⟩, ?_⟩
    rintro (⟨text, hwal, hloads⟩ | ⟨-, h⟩)
    · rw [hlog text hwal] at hloads
      cases hloads
    · exact h
  · have hlog' := hlog
    unfold NoLog at hlog'
    push Not at hlog'
    obtain ⟨text, hwal, hne⟩ := hlog'
    obtain ⟨v, hv⟩ := Option.ne_none_iff_exists'.1 hne
    have hload : (loadInitialState d).2 = some v := by
      unfold loadInitialState
      rw [hwal]
      simp only [hv]
    rw [hload]
    constructor
    · intro h
      exact .inl ⟨text, hwal, hv.trans h⟩
    · rintro (⟨text', hwal', hloads⟩ | ⟨hno, -⟩)
      · cases hwal.symm.trans hwal'
        exact hv.symm.trans hloads
      · exact absurd hno hlog

/-! ## What a failure leaves -/

/-- A commit that fails, by the effect at which it does. -/
theorem commitFails_eq (hs : m.linked sha256 new = some s) (h : m.commitFails sha256 new k torn = some m') :
    m'.disk = cut (commitEffects s m.disk) k torn m.disk ∧
      m'.currentState = new.linkedInPlace m.currentState s := by
  unfold TransactionManager.commitFails at h
  rw [hs] at h
  cases h
  exact ⟨rfl, rfl⟩

/-- It can fail at each of its effects. -/
theorem commitFails_isSome (hs : m.linked sha256 new = some s) (k : Nat) (torn : Option Nat) :
    ∃ m', m.commitFails sha256 new k torn = some m' := by
  unfold TransactionManager.commitFails
  rw [hs]
  exact ⟨_, rfl⟩

/-- There is more than one. -/
theorem one_lt_commitEffects (s : Dict) (d : Disk File) : 1 < (commitEffects s d).length := by
  simp [commitEffects]

/-- A linked state is another than the one it is linked to. -/
theorem linked_ne (hs : m.linked sha256 new = some s) : s ≠ m.currentState := by
  obtain ⟨dict, hlink⟩ := linked_eq hs
  exact link_ne hlink

/-- The memory stays, unless the caller handed over the current state itself. -/
theorem memory_iff (hs : m.linked sha256 new = some s) (h : m.commitFails sha256 new k torn = some m') :
    m'.currentState = m.currentState ↔ new ≠ .own := by
  rw [(commitFails_eq hs h).2]
  cases new with
  | own => simp [NewState.linkedInPlace, linked_ne hs]
  | other dict => simp [NewState.linkedInPlace]

/-- **A commit that fails behind its log is rolled forward** by the next start, though it raised. -/
theorem load_failed_behind_log (hs : m.linked sha256 new = some s)
    (hk : k + 1 < (commitEffects s m.disk).length) (h : m.commitFails sha256 new (k + 1) torn = some m') :
    (loadInitialState m'.disk).2 = some s.value := by
  have hwal : m'.disk .wal = some s.value.dumps := by
    rw [(commitFails_eq hs h).1, commitEffects, cut_succ]
    -- only the last effect removes the log, and that one is not behind the failure
    have hlast : k ≤ (atomicWrite s.value m.disk).length := by
      rw [commitEffects, List.length_cons, List.length_append, List.length_singleton] at hk
      omega
    have hlog : (Effect.write File.wal s.value.dumps).apply m.disk .wal = some s.value.dumps := by simp [Effect.apply]
    rcases Nat.lt_or_eq_of_le hlast with hlt | rfl
    · rw [cut_append_lt hlt, (atomicWrite_cut _ _ _ _ _).1, hlog]
    · rw [cut_append_ge (Nat.le_refl _), Nat.sub_self, cut_unlink, (atomicWrite_perform _ _ _).2, hlog]
  rw [loadInitialState_log hwal]

/-- A failure within the log: a start finds the new state if all of it was written, else what was there before. -/
theorem load_failed_in_log (hs : m.linked sha256 new = some s) {n : Nat}
    (h : m.commitFails sha256 new 0 (some n) = some m') :
    (loadInitialState m'.disk).2 = if n < s.value.dumps.length then (loadState m.disk).2 else some s.value := by
  have hdisk : m'.disk = Function.update m.disk .wal (some (s.value.dumps.take n)) := (commitFails_eq hs h).1
  have hwal : m'.disk .wal = some (s.value.dumps.take n) := by simp [hdisk]
  split
  · next hn =>
    have hno : NoLog m'.disk := by
      intro text htext
      cases hwal.symm.trans htext
      exact loads_torn s hn
    rw [loadInitialState_noLog hno]
    have hstate : m'.disk .state = m.disk .state := by simp [hdisk]
    have hbackup : m'.disk .backup = m.disk .backup := by simp [hdisk]
    unfold loadState
    rw [hstate, hbackup]
  · next hn =>
    rw [List.take_of_length_le (Nat.le_of_not_lt hn)] at hwal
    rw [loadInitialState_log hwal]

/-- A failure before the log leaves the files. -/
theorem load_failed_untouched (hs : m.linked sha256 new = some s) (h : m.commitFails sha256 new 0 none = some m') :
    m'.disk = m.disk := (commitFails_eq hs h).1

/-- Whatever was tried before, a commit that returns is what a restart loads. -/
theorem load_committed (h : m.commit sha256 new = some m') :
    (loadInitialState m'.disk).2 = some m'.currentState.value := by
  obtain ⟨s, -, rfl⟩ := Option.map_eq_some_iff.1 h
  exact loadInitialState_committed s m.disk m.disk

/-- A restart after a failed commit loads the current state in these cases and no others. -/
theorem restart_iff (hs : m.linked sha256 new = some s) (hk : k < (commitEffects s m.disk).length)
    (h : m.commitFails sha256 new k torn = some m') :
    (loadInitialState m'.disk).2 = some m.currentState.value ↔
      k = 0 ∧ (torn = none → FilesGive m.disk m.currentState) ∧
        ∀ n, torn = some n → n < s.value.dumps.length ∧ StateGives m.disk m.currentState := by
  have hne : ¬ some s.value = some m.currentState.value := fun heq =>
    linked_ne hs (Dict.value_injective (Option.some.inj heq))
  cases k with
  | succ k =>
    rw [load_failed_behind_log hs hk h]
    simp [hne]
  | zero =>
    cases torn with
    | none =>
      rw [load_failed_untouched hs h, loadInitialState_iff]
      simp
    | some n =>
      rw [load_failed_in_log hs h]
      by_cases hn : n < s.value.dumps.length
      · rw [if_pos hn, loadState_iff]
        simp [hn]
      · rw [if_neg hn]
        simp [hne, hn]

/-- **A failed commit has no effect exactly when** the caller handed over a dict of its own, the failure fell on the
writing of the log before all of it was written, and the files gave the current state: with the log if it was not even
opened, else without it. -/
theorem failed_commit_iff (hs : m.linked sha256 new = some s) (hk : k < (commitEffects s m.disk).length)
    (h : m.commitFails sha256 new k torn = some m') : NoEffect sha256 m m' ↔ Harmless m new s k torn := by
  constructor
  · intro hno
    obtain ⟨hlog, huntouched, hopened⟩ := (restart_iff hs hk h).1 hno.restart
    exact ⟨(memory_iff hs h).1 hno.memory, hlog, huntouched, hopened⟩
  · intro hharmless
    refine ⟨(memory_iff hs h).2 hharmless.other, (restart_iff hs hk h).2 ?_, fun m₁ new m₂ _ hc => load_committed hc⟩
    exact ⟨hharmless.inLog, hharmless.untouched, hharmless.opened⟩

/-- The text of a state is longer than one character. -/
theorem two_le_length_dumps (s : Dict) : 2 ≤ s.value.dumps.length := by
  unfold Dict.value Json.dumps
  cases s.pairs with
  | nil => exact Nat.le_refl 2
  | cons pair pairs =>
    rw [Json.text]
    simp only [List.length_append, List.length_cons, Json.newline]
    omega

/-- The files of a commit agree with the memory behind it, also without the log. -/
theorem stateGives_of_commit (h : m.commit sha256 new = some m') : StateGives m'.disk m'.currentState := by
  have hload := load_committed h
  obtain ⟨s, -, rfl⟩ := Option.map_eq_some_iff.1 h
  have hno : NoLog (perform (commitEffects s m.disk) m.disk) := .of_none (commitEffects_perform s m.disk m.disk).1
  rw [loadInitialState_noLog hno] at hload
  exact loadState_iff.1 hload

/-- The second commit, on the files of the first, when all that gets into the log is one character. -/
theorem failed_commit_iff_second :
    ∃ m s m', TransactionManager.commit sampleSha256 ⟨genesisState, fun _ => none⟩ (.other genesisState) = some m ∧
      m.disk .state = some m.currentState.value.dumps ∧
      m.linked sampleSha256 (.other genesisState) = some s ∧
      m.commitFails sampleSha256 (.other genesisState) 0 (some 1) = some m' ∧
      m'.disk .wal = some (s.value.dumps.take 1) ∧ NoEffect sampleSha256 m m' := by
  obtain ⟨m, hm⟩ : ∃ m, TransactionManager.commit sampleSha256 ⟨genesisState, fun _ => none⟩ (.other genesisState) =
      some m := ⟨_, rfl⟩
  obtain ⟨s, hs⟩ : ∃ s, m.linked sampleSha256 (.other genesisState) = some s := by
    obtain ⟨s₁, hs₁, rfl⟩ := Option.map_eq_some_iff.1 hm
    cases hs₁
    exact ⟨_, rfl⟩
  obtain ⟨m', hm'⟩ := commitFails_isSome hs 0 (some 1)
  have hdisk : m'.disk = Function.update m.disk .wal (some (s.value.dumps.take 1)) := (commitFails_eq hs hm').1
  refine ⟨m, s, m', hm, ?_, hs, hm', by simp [hdisk], (failed_commit_iff hs (one_lt_commitEffects s _).le hm').2 ?_⟩
  · obtain ⟨s₁, -, rfl⟩ := Option.map_eq_some_iff.1 hm
    exact (commitEffects_perform s₁ _ _).2
  · refine ⟨by simp, rfl, by simp, fun n hn => ⟨?_, stateGives_of_commit hm⟩⟩
    obtain rfl : 1 = n := Option.some.inj hn
    exact two_le_length_dumps s

/-- The first commit of all, when the temporary file cannot be written: it raises, and the next start loads it. -/
theorem failed_commit_rolled_forward :
    ¬ ∀ (sha256 : List Char → List Char) (m m' : TransactionManager) (new : NewState) (s : Dict) (k : Nat)
        (torn : Option Nat), m.linked sha256 new = some s → k < (commitEffects s m.disk).length →
        m.commitFails sha256 new k torn = some m' → NoEffect sha256 m m' := by
  intro hall
  obtain ⟨s, hs⟩ : ∃ s, TransactionManager.linked sampleSha256 ⟨genesisState, fun _ => none⟩ (.other genesisState) = some s :=
    ⟨_, rfl⟩
  obtain ⟨m', hm'⟩ := commitFails_isSome hs 1 (some 0)
  have hlength := one_lt_commitEffects s fun _ => none
  have hno := hall _ _ m' _ s 1 (some 0) hs hlength hm'
  have hload := load_failed_behind_log hs hlength hm'
  exact linked_ne hs (Dict.value_injective (Option.some.inj (hload.symm.trans hno.restart)))

end WarmLogic.Kernel
