/-
# WarmLogic.Kernel.CrashRuns — Commits and recovery under crashes.

A process runs a manager until it crashes: while it is idle, inside a commit, or while it starts. The machine keeps, beside
the files and the memory, what a caller knows: the last state that was committed (by a commit that returned, or by a
start that returned it), the state of a commit that a crash interrupted since, and whether any commit has returned.

The invariant is about the files only. The state file has one of the two states, and the log is unusable or has the
interrupted one (`Recoverable`). Commit and recovery end in the same effects, so one lemma about these
(`rollForward_cut`) serves a crash in either.

Why one lemma serves both: a commit writes its log and then rolls it forward, and so does a start that finds a log. A
cut in writing the log leaves an unusable log and the old files, a cut behind that a log with the new state, which the
next start rolls forward again. Rolling forward twice is rolling forward once.
-/
import WarmLogic.Kernel.Transaction
import WarmLogic.Lib.Run

namespace WarmLogic.Kernel

open WarmLogic.Lib

/-! ## The machine -/

/-- The files, the memory while a process runs, and what a caller knows. -/
structure CrashState where
  disk : Disk File
  /-- `current_state` of the process, while it runs -/
  memory : Option Dict
  /-- the last state committed -/
  last : Dict
  /-- the state of the commit that was interrupted since -/
  pending : Option Dict
  /-- whether a commit has returned -/
  completed : Bool

/-- What a process does, and where a crash falls. -/
inductive CrashOp where
  | start
  | crashInStart (k : Nat) (torn : Option Nat)
  | commit (new : NewState)
  | crashInCommit (new : NewState) (k : Nat) (torn : Option Nat)
  | crash

/-- `none`: the operation is not possible in this state. -/
def CrashState.step (sha256 : List Char → List Char) (op : CrashOp) (s : CrashState) : Option CrashState :=
  match op, s.memory with
  | .start, none =>
      (TransactionManager.start s.disk).map fun m =>
        { s with disk := m.disk, memory := some m.currentState, last := m.currentState, pending := none }
  | .crashInStart k torn, none => some { s with disk := cut (loadInitialState s.disk).1 k torn s.disk }
  | .commit new, some current =>
      (TransactionManager.commit sha256 ⟨current, s.disk⟩ new).map fun m =>
        { disk := m.disk, memory := some m.currentState, last := m.currentState, pending := none, completed := true }
  | .crashInCommit new k torn, some current =>
      (TransactionManager.linked sha256 ⟨current, s.disk⟩ new).map fun t =>
        { s with disk := cut (commitEffects t s.disk) k torn s.disk, memory := none, pending := some t }
  | .crash, some _ => some { s with memory := none }
  | _, _ => none

/-- The runs that begin in an empty directory. -/
def crashRuns (sha256 : List Char → List Char) : System CrashState CrashOp where
  init s := s = ⟨fun _ => none, none, genesisState, none, false⟩
  step := CrashState.step sha256

/-! ## The invariant -/

/-- The state file has this state; where there is none, it is the genesis state. -/
def StateFile (d : Disk File) (s : Dict) : Prop :=
  d .state = some s.value.dumps ∨ (d .state = none ∧ s = genesisState)

/-- What a start reads from it. -/
theorem StateFile.load {d : Disk File} {s : Dict} (h : StateFile d s) : loadState d = ([], some s.value) := by
  rcases h with htext | ⟨hnone, rfl⟩
  · exact loadState_text htext
  · unfold loadState
    rw [hnone]

/-- Only this file counts. -/
theorem StateFile.congr {d d' : Disk File} {s : Dict} (h : StateFile d s) (heq : d' .state = d .state) :
    StateFile d' s := by
  unfold StateFile at h ⊢
  rwa [heq]

/-- What can be loaded is the last state or the interrupted one. -/
structure Recoverable (d : Disk File) (last : Dict) (pending : Option Dict) : Prop where
  state : ∃ s, (s = last ∨ pending = some s) ∧ StateFile d s
  log : NoLog d ∨ ∃ w, pending = some w ∧ d .wal = some w.value.dumps

/-- A state of a manager: a tick and a hash, and a tick that has moved once a commit has returned. -/
structure Aged (completed : Bool) (s : Dict) : Prop where
  tick : ∃ t, s.tick = some t ∧ 0 ≤ t ∧ (completed = true → 1 ≤ t)
  hash : ∃ h, s.prevHash = some h

/-- **The invariant**: the files can be recovered to the last state or the interrupted one, and the memory, where a
process runs, has the last one. A commit first puts the new state beside the old, in the log, and only then over it;
so a crash finds one of the two in any case. -/
structure CrashInv (s : CrashState) : Prop where
  /-- a process that runs has the last state in memory, and the files have just that -/
  up : ∀ current, s.memory = some current →
    current = s.last ∧ s.pending = none ∧ s.disk .wal = none ∧ StateFile s.disk s.last
  down : s.memory = none → Recoverable s.disk s.last s.pending
  last : Aged s.completed s.last
  pending : ∀ t, s.pending = some t → Aged true t

/-- A state that was committed is a state of a manager at any time. -/
theorem Aged.mono {b : Bool} {s : Dict} (h : Aged true s) : Aged b s := by
  obtain ⟨⟨t, ht, hpos, hone⟩, hhash⟩ := h
  exact ⟨⟨t, ht, hpos, fun _ => hone rfl⟩, hhash⟩

/-- Genesis is the state before any commit. -/
theorem Aged.genesis : Aged false genesisState :=
  ⟨⟨0, rfl, by decide, by decide⟩, _, rfl⟩

/-- Once a commit has returned, a state is not genesis. -/
theorem Aged.ne_genesis {s : Dict} (h : Aged true s) : s ≠ genesisState := by
  rintro rfl
  obtain ⟨⟨t, ht, -, hone⟩, -⟩ := h
  have : (0 : Int) = t := Option.some.inj ht
  have := hone rfl
  omega

variable {sha256 : List Char → List Char}

/-- A linked state has a hash. -/
theorem link_prevHash {current new s : Dict} (h : link sha256 current new = some s) : ∃ hash, s.prevHash = some hash := by
  unfold link at h
  obtain ⟨prevHash, -, h⟩ := Option.bind_eq_some_iff.1 h
  obtain ⟨t, -, h⟩ := Option.bind_eq_some_iff.1 h
  obtain ⟨data, -, h⟩ := Option.bind_eq_some_iff.1 h
  cases h
  refine ⟨sha256 (prevHash ++ data.dumpsSorted), ?_⟩
  unfold Dict.prevHash
  rw [Dict.get_set, if_pos rfl]

/-- A state linked to a state of a manager is one, with a later tick. -/
theorem Aged.link {b : Bool} {current new s : Dict} (h : Aged b current) (hs : Kernel.link sha256 current new = some s) :
    Aged true s := by
  obtain ⟨⟨t, ht, hpos, -⟩, -⟩ := h
  obtain ⟨t', ht', hs'⟩ := link_tick hs
  obtain rfl : t = t' := Option.some.inj (ht.symm.trans ht')
  exact ⟨⟨t + 1, hs', by omega, fun _ => by omega⟩, link_prevHash hs⟩

/-- Only a state without data cannot be linked to a state of a manager. -/
theorem Aged.link_isSome {b : Bool} {current : Dict} (h : Aged b current) (new : Dict) :
    (Kernel.link sha256 current new).isSome ↔ (new.get dataKey).isSome := by
  obtain ⟨⟨t, ht, -⟩, hash, hhash⟩ := h
  have hne : ¬ tickKey = dataKey := by decide
  unfold Kernel.link
  simp only [hhash, ht, Option.bind_eq_bind, Option.bind_some, Dict.get_set, if_neg hne]
  cases new.get dataKey <;> simp

/-- A commit links the dict it was given, or the current state itself. -/
theorem linked_eq {m : TransactionManager} {new : NewState} {s : Dict} (h : m.linked sha256 new = some s) :
    ∃ dict, link sha256 m.currentState dict = some s := by
  cases new with
  | own => exact ⟨m.currentState, h⟩
  | other dict => exact ⟨dict, h⟩

/-! ### What a crash leaves -/

/-- A crash in a commit leaves the last state or the new one. -/
theorem recoverable_commit {d : Disk File} {last s : Dict} (hwal : d .wal = none) (hstate : StateFile d last) (k : Nat)
    (torn : Option Nat) : Recoverable (cut (commitEffects s d) k torn d) last (some s) := by
  unfold commitEffects
  cases k with
  | zero =>
    cases torn with
    | none => exact ⟨⟨last, .inl rfl, hstate⟩, .inl (.of_none hwal)⟩
    | some n =>
      have hfile : (cut (.write .wal s.value.dumps :: (atomicWrite s.value d ++ [.unlink .wal])) 0 (some n) d) .wal =
          some (s.value.dumps.take n) := by simp [cut]
      refine ⟨⟨last, .inl rfl, hstate.congr (by simp [cut])⟩, ?_⟩
      by_cases hn : n < s.value.dumps.length
      · left
        intro text htext
        rw [hfile] at htext
        cases htext
        exact loads_torn s hn
      · right
        refine ⟨s, rfl, ?_⟩
        rw [hfile, List.take_of_length_le (Nat.le_of_not_lt hn)]
  | succ k =>
    rw [cut_succ]
    have hlog : (Effect.write File.wal s.value.dumps).apply d .wal = some s.value.dumps := by simp [Effect.apply]
    have hsame : (Effect.write File.wal s.value.dumps).apply d .state = d .state := by simp [Effect.apply]
    rcases rollForward_cut s.value d _ k torn with ⟨hw, hs | hs⟩ | ⟨hw, hs⟩
    · exact ⟨⟨last, .inl rfl, hstate.congr (hs.trans hsame)⟩, .inr ⟨s, rfl, hw.trans hlog⟩⟩
    · exact ⟨⟨s, .inr rfl, .inl hs⟩, .inr ⟨s, rfl, hw.trans hlog⟩⟩
    · exact ⟨⟨s, .inr rfl, .inl hs⟩, .inl (.of_none hw)⟩

/-- A crash in a start leaves what could be loaded before. -/
theorem Recoverable.start {d : Disk File} {last : Dict} {pending : Option Dict} (h : Recoverable d last pending) (k : Nat)
    (torn : Option Nat) : Recoverable (cut (loadInitialState d).1 k torn d) last pending := by
  obtain ⟨⟨s, hs, hstate⟩, hlog⟩ := h
  rcases hlog with hno | ⟨w, hw, hwal⟩
  · unfold loadInitialState
    split
    · rw [hstate.load]
      exact ⟨⟨s, hs, by cases k <;> exact hstate⟩, .inl (by cases k <;> exact hno)⟩
    · next text htext =>
      rw [hno text htext, hstate.load]
      cases k with
      | zero => exact ⟨⟨s, hs, by rw [cut_unlink]; exact hstate⟩, .inl (by rw [cut_unlink]; exact hno)⟩
      | succ k =>
        rw [cut_succ]
        have hgone : cut [] k torn ((Effect.unlink File.wal).apply d) = (Effect.unlink File.wal).apply d := by
          cases k <;> rfl
        rw [hgone]
        exact ⟨⟨s, hs, hstate.congr (by simp [Effect.apply])⟩, .inl (.of_none (by simp [Effect.apply]))⟩
  · rw [loadInitialState_log hwal]
    rcases rollForward_cut w.value d d k torn with ⟨hw', hs' | hs'⟩ | ⟨hw', hs'⟩
    · exact ⟨⟨s, hs, hstate.congr hs'⟩, .inr ⟨w, hw, hw'.trans hwal⟩⟩
    · exact ⟨⟨w, .inr hw, .inl hs'⟩, .inr ⟨w, hw, hw'.trans hwal⟩⟩
    · exact ⟨⟨w, .inr hw, .inl hs'⟩, .inl (.of_none hw')⟩

/-- A start that completes loads the last state or the interrupted one, and the files then have just that. -/
theorem Recoverable.load {d : Disk File} {last : Dict} {pending : Option Dict} (h : Recoverable d last pending) :
    ∃ s, (s = last ∨ pending = some s) ∧ (loadInitialState d).2 = some s.value ∧
      perform (loadInitialState d).1 d .wal = none ∧ StateFile (perform (loadInitialState d).1 d) s := by
  obtain ⟨⟨s, hs, hstate⟩, hlog⟩ := h
  rcases hlog with hno | ⟨w, hw, hwal⟩
  · refine ⟨s, hs, by rw [loadInitialState_noLog hno, hstate.load], ?_⟩
    unfold loadInitialState
    split
    · next hnone =>
      rw [hstate.load]
      exact ⟨hnone, hstate⟩
    · next text htext =>
      rw [hno text htext, hstate.load]
      exact ⟨by simp [Effect.apply], hstate.congr (by simp [Effect.apply])⟩
  · rw [loadInitialState_log hwal]
    have hdone := rollForward_perform w.value d d
    exact ⟨w, .inr hw, rfl, hdone.1, .inl hdone.2⟩

/-- What a start returns. -/
theorem start_eq {d : Disk File} {s : Dict} (h : (loadInitialState d).2 = some s.value) :
    TransactionManager.start d = some ⟨s, perform (loadInitialState d).1 d⟩ := by
  unfold TransactionManager.start
  split
  · next pairs hpairs =>
    have : Json.obj pairs = s.value := Option.some.inj (hpairs.symm.trans h)
    obtain rfl : pairs = s.pairs := Json.obj.inj this
    rfl
  · next hno => exact absurd h (hno s.pairs)

/-! ### Every step keeps it -/

/-- **The step lemma**: every commit and start, completed or crashed, keeps the invariant. -/
theorem CrashInv.step {op : CrashOp} {s s' : CrashState} (h : CrashInv s) (hstep : s.step sha256 op = some s') :
    CrashInv s' := by
  unfold CrashState.step at hstep
  split at hstep
  · next hmem =>
    -- a start
    obtain ⟨t, ht, hload, hwal, hstate⟩ := (h.down hmem).load
    rw [start_eq hload] at hstep
    cases hstep
    have haged : Aged s.completed t := by
      rcases ht with rfl | ht
      · exact h.last
      · exact (h.pending t ht).mono
    exact ⟨fun _ hc => ⟨(Option.some.inj hc).symm, rfl, hwal, hstate⟩, by simp, haged, by simp⟩
  · next k torn hmem =>
    cases hstep
    exact ⟨fun c hc => absurd (hmem.symm.trans hc) (by simp), fun _ => (h.down hmem).start k torn, h.last, h.pending⟩
  · next new current hmem =>
    -- a commit that returns
    obtain ⟨m, hm, hs'⟩ := Option.map_eq_some_iff.1 hstep
    obtain ⟨t, ht, rfl⟩ := Option.map_eq_some_iff.1 hm
    obtain ⟨dict, hlink⟩ := linked_eq ht
    obtain ⟨rfl, -⟩ := h.up current hmem
    have hfiles := commitEffects_perform t s.disk s.disk
    cases hs'
    exact ⟨fun _ hc => ⟨(Option.some.inj hc).symm, rfl, hfiles.1, .inl hfiles.2⟩, by simp, h.last.link hlink, by simp⟩
  · next new k torn current hmem =>
    -- a commit that a crash interrupts
    obtain ⟨t, ht, rfl⟩ := Option.map_eq_some_iff.1 hstep
    obtain ⟨dict, hlink⟩ := linked_eq ht
    obtain ⟨rfl, -, hwal, hstate⟩ := h.up current hmem
    exact ⟨by simp, fun _ => recoverable_commit hwal hstate k torn, h.last, by simpa using h.last.link hlink⟩
  · next current hmem =>
    cases hstep
    obtain ⟨-, hpending, hwal, hstate⟩ := h.up current hmem
    exact ⟨by simp, fun _ => ⟨⟨s.last, .inl rfl, hstate⟩, .inl (.of_none hwal)⟩, h.last, h.pending⟩
  · cases hstep

/-- **The run lemma.** -/
theorem crashInv_reachable {ok : CrashOp → CrashState → Prop} {s : CrashState}
    (h : (crashRuns sha256).Reachable ok s) : CrashInv s := by
  refine h.invariant (P := CrashInv) ?_ fun s op s' hs _ hstep => hs.step hstep
  rintro s rfl
  have hfile : StateFile (fun _ => none) genesisState := .inr ⟨rfl, rfl⟩
  exact ⟨by simp, fun _ => ⟨⟨genesisState, .inl rfl, hfile⟩, .inl (.of_none rfl)⟩, Aged.genesis, by simp⟩

/-! ## Crash atomicity -/

/-- A process that runs commits every state that has data. -/
theorem commit_defined_iff {s : CrashState} (h : (crashRuns sha256).Reachable (fun _ _ => True) s) {current : Dict}
    (hup : s.memory = some current) (new : Dict) :
    (s.step sha256 (.commit (.other new))).isSome ↔ (new.get dataKey).isSome := by
  have hinv := crashInv_reachable h
  obtain ⟨rfl, -⟩ := hinv.up current hup
  unfold CrashState.step
  rw [hup]
  simp only [TransactionManager.commit, TransactionManager.linked, Option.isSome_map]
  exact hinv.last.link_isSome new

/-- **A crash leaves the last state or the interrupted one.** Whatever was committed, and wherever crashes fell, in
commits and in recoveries from them, a start that is now made completes, and it loads the last state committed or the
state of the commit that was interrupted; the genesis state it loads only before any commit has returned. -/
theorem load_last_or_interrupted {s : CrashState} (h : (crashRuns sha256).Reachable (fun _ _ => True) s)
    (hdown : s.memory = none) :
    ∃ t : Dict, (loadInitialState s.disk).2 = some t.value ∧ (t = s.last ∨ s.pending = some t) ∧
      (s.completed = true → t ≠ genesisState) := by
  have hinv := crashInv_reachable h
  obtain ⟨t, ht, hload, -⟩ := (hinv.down hdown).load
  refine ⟨t, hload, ht, fun hcompleted => ?_⟩
  have haged : Aged true t := by
    rcases ht with rfl | ht
    · exact hcompleted ▸ hinv.last
    · exact hinv.pending t ht
  exact haged.ne_genesis

/-- The digests of the two texts that the run below hashes. -/
def sampleSha256 (text : List Char) : List Char :=
  if List.replicate 64 '0' <+: text then
    "5508d2b710e64bc470079e1b211d9c58e21011e59d0559e422345dc19d659a75".toList
  else "853949e7eb1e5998f3b794db7ba59d0c5ddb8659d41320ad850dc5d7884f69d1".toList

/-- A run: the second commit is interrupted while its log is removed, and the recovery from that while it writes. -/
theorem load_last_or_interrupted_twice :
    ∃ s : CrashState, (crashRuns sampleSha256).Reachable (fun _ _ => True) s ∧ s.memory = none ∧ s.completed = true ∧
      s.pending.isSome ∧ ∃ t : Dict, (loadInitialState s.disk).2 = some t.value ∧ (t = s.last ∨ s.pending = some t) ∧
        t ≠ genesisState := by
  have h₀ : (crashRuns sampleSha256).Run (fun _ _ => True) [⟨fun _ => none, none, genesisState, none, false⟩] := .init rfl
  have h₁ := System.Run.step (a := .start) h₀ trivial rfl
  have h₂ := System.Run.step (a := .commit (.other genesisState)) h₁ trivial rfl
  have h₃ := System.Run.step (a := .crashInCommit (.other genesisState) 4 none) h₂ trivial rfl
  have h₄ := System.Run.step (a := .crashInStart 1 (some 5)) h₃ trivial rfl
  obtain ⟨t, hload, ht, hgenesis⟩ := load_last_or_interrupted ⟨_, h₄⟩ rfl
  exact ⟨_, ⟨_, h₄⟩, rfl, rfl, rfl, t, hload, ht, hgenesis rfl⟩

end WarmLogic.Kernel
