/-
# WarmLogic.Kernel.Transaction — The transaction manager of `kernel/transaction.py` and the files it keeps.

A manager holds the current state in memory and keeps it in `state.json`. A commit links the new state to the current
one, writes it to the log `state.wal`, copies `state.json` to `state.bak`, writes `state.tmp`, renames that to
`state.json` and removes the log. A manager that starts rolls a log forward that parses, discards one that does not,
and then reads `state.json`.

What commit and recovery do to the files is a list of effects, so that one can be interrupted anywhere. The directory is
taken to belong to one manager at a time, and a dict not to be changed by its caller once it is committed.
`hashlib.sha256(text.encode()).hexdigest()` is the parameter `sha256`.
-/
import WarmLogic.Lib.Files
import WarmLogic.Lib.JsonWellFormed

namespace WarmLogic.Kernel

open WarmLogic.Lib

/-! ## States -/

/-- A state: a dict of JSON values, with strings as keys. -/
@[ext] structure Dict where
  pairs : List (List Char × Json)
  wf : Json.Wf (.obj pairs)

namespace Dict

def value (s : Dict) : Json := .obj s.pairs

/-- `s.get(key)`. -/
def get (s : Dict) (key : List Char) : Option Json := Json.getItem s.pairs key

/-- `s[key] = v`. -/
def set (s : Dict) (key : List Char) (v : Json) (hv : v.Wf) : Dict := ⟨Json.setItem s.pairs key v, s.wf.setItem key hv⟩

theorem value_wf (s : Dict) : s.value.Wf := s.wf

theorem value_injective : Function.Injective value := by
  intro s t h
  exact Dict.ext (Json.obj.inj h)

theorem get_set (s : Dict) (key key' : List Char) (v : Json) (hv : v.Wf) :
    (s.set key v hv).get key' = if key = key' then some v else s.get key' := by
  obtain ⟨pairs, wf⟩ := s
  show Json.getItem (Json.setItem pairs key v) key' = if key = key' then some v else Json.getItem pairs key'
  clear wf
  unfold Json.getItem
  induction pairs with
  | nil => by_cases h : key = key' <;> simp [Json.setItem, h]
  | cons pair pairs ih =>
    unfold Json.setItem
    by_cases hk : pair.1 = key
    · by_cases h : key = key' <;> simp [hk, h]
    · by_cases hk' : pair.1 = key'
      · have h : ¬ key = key' := fun h => hk (hk'.trans h.symm)
        rw [if_neg hk, if_neg h, List.find?_cons_of_pos (by simpa using hk'), List.find?_cons_of_pos (by simpa using hk')]
      · simpa [hk, hk'] using ih

end Dict

def tickKey : List Char := ['t', 'i', 'c', 'k']

def hashKey : List Char := ['h', 'a', 's', 'h']

def dataKey : List Char := ['d', 'a', 't', 'a']

/-- `current_state["tick"]`; in every state of a manager it is an int. -/
def Dict.tick (s : Dict) : Option Int :=
  match s.get tickKey with
  | some (.int t) => some t
  | _ => none

/-- `current_state.get("hash", "")`; in every state of a manager it is a string. -/
def Dict.prevHash (s : Dict) : Option (List Char) :=
  match s.get hashKey with
  | some (.str h) => some h
  | some _ => none
  | none => some []

/-- `_genesis_state`. -/
def genesisState : Dict where
  pairs := [(tickKey, .int 0), (hashKey, .str (List.replicate 64 '0')), (dataKey, .obj [])]
  wf := by
    refine .obj (by decide) fun pair hp => ?_
    simp only [List.mem_cons, List.not_mem_nil, or_false] at hp
    rcases hp with rfl | rfl | rfl
    · exact .int 0
    · exact .str _
    · exact .obj List.nodup_nil (by simp)

/-! ## Files -/

inductive File where
  | state
  | wal
  | backup
  | tmp
  deriving DecidableEq

/-- `_atomic_write`. -/
def atomicWrite (state : Json) (d : Disk File) : List (Effect File) :=
  -- backup existing
  (match d .state with
    | some text => [.write .backup text]
    | none => []) ++
  [.write .tmp state.dumps, .replace .tmp .state]

/-- `_load_initial_state`, behind the log: its effects, and what it returns; `none` where it raises. -/
def loadState (d : Disk File) : List (Effect File) × Option Json :=
  match d .state with
  | none => ([], some genesisState.value)
  | some text =>
      match Json.loads text with
      | some loaded => ([], some loaded)
      | none =>
          -- state corrupt
          match d .backup with
          | some text => ([.write .state text], Json.loads text)
          | none => ([], some genesisState.value)

/-- `_load_initial_state`. -/
def loadInitialState (d : Disk File) : List (Effect File) × Option Json :=
  match d .wal with
  | none => loadState d
  | some text =>
      match Json.loads text with
      | some walState => (atomicWrite walState d ++ [.unlink .wal], some walState)
      | none =>
          -- log corrupt
          (.unlink .wal :: (loadState d).1, (loadState d).2)

theorem loadState_wf {d : Disk File} {v : Json} (h : (loadState d).2 = some v) : v.Wf := by
  unfold loadState at h
  split at h
  · cases h
    exact genesisState.value_wf
  · split at h
    · next hloads =>
      cases h
      exact Json.loads_wf hloads
    · split at h
      · exact Json.loads_wf h
      · cases h
        exact genesisState.value_wf

/-- Whatever is loaded is a JSON value that can be written again. -/
theorem loadInitialState_wf {d : Disk File} {v : Json} (h : (loadInitialState d).2 = some v) : v.Wf := by
  unfold loadInitialState at h
  split at h
  · exact loadState_wf h
  · split at h
    · next hloads =>
      cases h
      exact Json.loads_wf hloads
    · exact loadState_wf h

/-! ## The manager -/

structure TransactionManager where
  currentState : Dict
  disk : Disk File

/-- `TransactionManager(storage_dir)`; `none` where the load raises, or finds a value that is no dict. -/
def TransactionManager.start (d : Disk File) : Option TransactionManager :=
  match h : (loadInitialState d).2 with
  | some (.obj pairs) => some ⟨⟨pairs, loadInitialState_wf h⟩, perform (loadInitialState d).1 d⟩
  | _ => none

/-- What the caller hands to `commit`: a dict of its own, or the very object that `get_state` returned. -/
inductive NewState where
  | own
  | other (s : Dict)

/-- What the current state has become once the dict that was handed over is linked, in place. -/
def NewState.linkedInPlace (new : NewState) (current s : Dict) : Dict :=
  match new with
  | .own => s
  | .other _ => current

variable (sha256 : List Char → List Char)

/-- What `commit` makes of the new state before it touches a file: the next tick, and the hash over the previous hash
and the data. `none` where a key is missing. -/
def link (current new : Dict) : Option Dict := do
  let prevHash ← current.prevHash
  let tick ← current.tick
  let new := new.set tickKey (.int (tick + 1)) (.int _)
  let data ← new.get dataKey
  return new.set hashKey (.str (sha256 (prevHash ++ data.dumpsSorted))) (.str _)

/-- What `commit` does to the files for a linked state. -/
def commitEffects (s : Dict) (d : Disk File) : List (Effect File) :=
  .write .wal s.value.dumps :: (atomicWrite s.value d ++ [.unlink .wal])

namespace TransactionManager

/-- The state that a commit is about to write. -/
def linked (m : TransactionManager) : NewState → Option Dict
  | .own => link sha256 m.currentState m.currentState
  | .other s => link sha256 m.currentState s

/-- `commit`, when every step succeeds; `none` where it raises before it touches a file. -/
def commit (m : TransactionManager) (new : NewState) : Option TransactionManager :=
  (m.linked sha256 new).map fun s => ⟨s, perform (commitEffects s m.disk) m.disk⟩

/-- `commit`, when an error of the system interrupts its `k`-th effect: the memory is not updated, but tick and hash have
been set in the dict that the caller handed over. -/
def commitFails (m : TransactionManager) (new : NewState) (k : Nat) (torn : Option Nat) : Option TransactionManager :=
  (m.linked sha256 new).map fun s => ⟨new.linkedInPlace m.currentState s, cut (commitEffects s m.disk) k torn m.disk⟩

end TransactionManager

/-! ## What linking does -/

variable {sha256}

theorem link_tick {current new s : Dict} (h : link sha256 current new = some s) :
    ∃ t, current.tick = some t ∧ s.tick = some (t + 1) := by
  unfold link at h
  obtain ⟨prevHash, -, h⟩ := Option.bind_eq_some_iff.1 h
  obtain ⟨t, ht, h⟩ := Option.bind_eq_some_iff.1 h
  obtain ⟨data, -, h⟩ := Option.bind_eq_some_iff.1 h
  cases h
  have hne : ¬ hashKey = tickKey := by decide
  refine ⟨t, ht, ?_⟩
  unfold Dict.tick
  rw [Dict.get_set, if_neg hne, Dict.get_set, if_pos rfl]

/-- A linked state is never the state it is linked to. -/
theorem link_ne {current new s : Dict} (h : link sha256 current new = some s) : s ≠ current := by
  rintro rfl
  obtain ⟨t, ht, ht'⟩ := link_tick h
  rw [ht] at ht'
  have := Option.some.inj ht'
  omega

/-! ## What the effects do to the files -/

/-- Only the rename that ends an atomic write touches the state file, and nothing in it touches the log. -/
theorem atomicWrite_split (v : Json) (d : Disk File) :
    ∃ es, atomicWrite v d = es ++ [.replace .tmp .state] ∧ (∀ e ∈ es, ¬ e.Touches .state ∧ ¬ e.Touches .wal) ∧
      ∀ d', perform es d' .tmp = some v.dumps := by
  unfold atomicWrite
  cases d .state with
  | none => exact ⟨[.write .tmp v.dumps], rfl, by simp [Effect.Touches], fun d' => by simp [Effect.apply]⟩
  | some text =>
    exact ⟨[.write .backup text, .write .tmp v.dumps], rfl, by simp [Effect.Touches], fun d' => by simp [Effect.apply]⟩

theorem atomicWrite_perform (v : Json) (d d' : Disk File) :
    perform (atomicWrite v d) d' .state = some v.dumps ∧ perform (atomicWrite v d) d' .wal = d' .wal := by
  obtain ⟨es, heq, huntouched, htmp⟩ := atomicWrite_split v d
  have hwal : perform es d' .wal = d' .wal := by
    rw [← cut_of_length_le (Nat.le_refl es.length) none d']
    exact cut_untouched (fun e he => (huntouched e he).2) _ _ _
  rw [heq, perform_append]
  simp [Effect.apply, htmp, hwal]

/-- An atomic write that is interrupted has put the new state into the state file, or left it as it was. -/
theorem atomicWrite_cut (v : Json) (d d' : Disk File) (k : Nat) (torn : Option Nat) :
    cut (atomicWrite v d) k torn d' .wal = d' .wal ∧
      (cut (atomicWrite v d) k torn d' .state = d' .state ∨ cut (atomicWrite v d) k torn d' .state = some v.dumps) := by
  obtain ⟨es, heq, huntouched, htmp⟩ := atomicWrite_split v d
  by_cases hdone : (atomicWrite v d).length ≤ k
  · rw [cut_of_length_le hdone]
    exact ⟨(atomicWrite_perform v d d').2, .inr (atomicWrite_perform v d d').1⟩
  · rw [heq] at hdone ⊢
    rw [List.length_append, List.length_singleton] at hdone
    -- up to the rename, neither file is touched
    have before : ∀ f, (∀ e ∈ es, ¬ e.Touches f) → cut (es ++ [.replace .tmp .state]) k torn d' f = d' f := by
      intro f hf
      by_cases hk : k < es.length
      · rw [cut_append_lt hk]
        exact cut_untouched hf k torn d'
      · obtain rfl : k = es.length := by omega
        have hstop : cut [Effect.replace File.tmp File.state] 0 torn (perform es d') = perform es d' := by
          cases torn <;> rfl
        rw [cut_append_ge (Nat.le_refl _), Nat.sub_self, hstop, ← cut_of_length_le (Nat.le_refl es.length) none d']
        exact cut_untouched hf _ _ _
    exact ⟨before .wal fun e he => (huntouched e he).2, .inl (before .state fun e he => (huntouched e he).1)⟩

/-- Rolling forward, from the files as they are: when it is interrupted, the log is still there, or the state file has
the new state. -/
theorem rollForward_cut (v : Json) (d d' : Disk File) (k : Nat) (torn : Option Nat) :
    let d'' := cut (atomicWrite v d ++ [.unlink .wal]) k torn d'
    (d'' .wal = d' .wal ∧ (d'' .state = d' .state ∨ d'' .state = some v.dumps)) ∨
      (d'' .wal = none ∧ d'' .state = some v.dumps) := by
  intro d''
  by_cases hk : k < (atomicWrite v d).length
  · have heq : d'' = cut (atomicWrite v d) k torn d' := cut_append_lt hk _ torn d'
    rw [heq]
    exact .inl (atomicWrite_cut v d d' k torn)
  · have heq : d'' = cut [.unlink .wal] (k - (atomicWrite v d).length) torn (perform (atomicWrite v d) d') :=
      cut_append_ge (Nat.le_of_not_lt hk) _ torn d'
    have hdone := atomicWrite_perform v d d'
    rw [heq]
    cases k - (atomicWrite v d).length with
    | zero =>
      rw [cut_unlink]
      exact .inl ⟨hdone.2, .inr hdone.1⟩
    | succ j =>
      right
      rw [cut_succ]
      cases j <;> simp [cut, Effect.apply, hdone.1]

theorem rollForward_perform (v : Json) (d d' : Disk File) :
    perform (atomicWrite v d ++ [.unlink .wal]) d' .wal = none ∧
      perform (atomicWrite v d ++ [.unlink .wal]) d' .state = some v.dumps := by
  rw [perform_append]
  simp [Effect.apply, (atomicWrite_perform v d d').1]

/-- After a commit, whatever the files were before, there is no log and the state file has the new state. -/
theorem commitEffects_perform (s : Dict) (d d' : Disk File) :
    perform (commitEffects s d) d' .wal = none ∧ perform (commitEffects s d) d' .state = some s.value.dumps :=
  rollForward_perform s.value d _

/-! ## What is loaded -/

/-- There is no log, or none that parses. -/
def NoLog (d : Disk File) : Prop := ∀ text, d .wal = some text → Json.loads text = none

theorem NoLog.of_none {d : Disk File} (h : d .wal = none) : NoLog d := by
  intro text htext
  rw [h] at htext
  cases htext

/-- Without a log, the rest of the load decides. -/
theorem loadInitialState_noLog {d : Disk File} (h : NoLog d) : (loadInitialState d).2 = (loadState d).2 := by
  unfold loadInitialState
  split
  · rfl
  · next text htext => rw [h text htext]

/-- The text of a state in the log is rolled forward. -/
theorem loadInitialState_log {d : Disk File} {s : Dict} (h : d .wal = some s.value.dumps) :
    loadInitialState d = (atomicWrite s.value d ++ [.unlink .wal], some s.value) := by
  unfold loadInitialState
  rw [h]
  simp only [Json.loads_dumps s.value_wf]

theorem loadState_text {d : Disk File} {s : Dict} (h : d .state = some s.value.dumps) :
    loadState d = ([], some s.value) := by
  unfold loadState
  rw [h]
  simp only [Json.loads_dumps s.value_wf]

/-- A commit is durable: a manager that starts on the files it leaves loads the state it wrote. -/
theorem loadInitialState_committed (s : Dict) (d d' : Disk File) :
    (loadInitialState (perform (commitEffects s d) d')).2 = some s.value := by
  obtain ⟨hwal, hstate⟩ := commitEffects_perform s d d'
  rw [loadInitialState_noLog (.of_none hwal), loadState_text hstate]

/-- A strict prefix of the text of a state does not parse. -/
theorem loads_torn (s : Dict) {n : Nat} (h : n < s.value.dumps.length) : Json.loads (s.value.dumps.take n) = none := by
  refine Json.loads_strict_prefix s.wf (List.take_prefix n _) fun heq => ?_
  have := congrArg List.length heq
  rw [List.length_take] at this
  have hlen : s.value.dumps.length = (Json.dumps (.obj s.pairs)).length := rfl
  omega

end WarmLogic.Kernel
