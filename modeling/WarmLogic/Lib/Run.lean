/-
# WarmLogic.Lib.Run — operation-labelled machines, their runs with history, and the invariant rule.

A `System` is a state machine driven by operations; an operation may be undefined in a state (`none`: the
modelled code panics there, so the run has no such step). A `Run` keeps the WHOLE history, newest state
first, because several properties below speak about what was true "at some earlier point". Every run is
taken under a guard `ok` on the operation and the state BEFORE it; the unrestricted runs are those of
`fun _ _ => True`.
-/
import Mathlib.Data.List.Basic

namespace WarmLogic.Lib

universe u v

/-- A machine whose steps are named by operations; `none` means the operation has no next state. -/
structure System (σ : Type u) (α : Type v) where
  init : σ → Prop
  step : α → σ → Option σ

namespace System

variable {σ : Type u} {α : Type v} {M : System σ α} {ok ok' : α → σ → Prop}

/-- **`M.Run ok h`** — `h` lists the states of a run, newest first, every step of which met `ok`. -/
inductive Run (M : System σ α) (ok : α → σ → Prop) : List σ → Prop
  | init {s : σ} : M.init s → Run M ok [s]
  | step {s s' : σ} {past : List σ} {a : α} :
      Run M ok (s :: past) → ok a s → M.step a s = some s' → Run M ok (s' :: s :: past)

/-- A state is reachable when some run ends in it. -/
def Reachable (M : System σ α) (ok : α → σ → Prop) (s : σ) : Prop :=
  ∃ past, M.Run ok (s :: past)

/-- **The invariant rule, over histories.** What holds of every initial one-state history and is kept by
every guarded step holds of every run. -/
theorem Run.invariant {P : List σ → Prop} (hinit : ∀ s, M.init s → P [s])
    (hstep : ∀ s past a s', M.Run ok (s :: past) → P (s :: past) → ok a s →
      M.step a s = some s' → P (s' :: s :: past)) :
    ∀ {h : List σ}, M.Run ok h → P h := by
  intro h hr
  induction hr with
  | init hs => exact hinit _ hs
  | step hr hok hs ih => exact hstep _ _ _ _ hr ih hok hs

/-- The invariant rule for a predicate on the current state and the history it ends. -/
theorem Run.invariant_head {P : σ → List σ → Prop} (hinit : ∀ s, M.init s → P s [s])
    (hstep : ∀ s past a s', M.Run ok (s :: past) → P s (s :: past) → ok a s →
      M.step a s = some s' → P s' (s' :: s :: past)) {s : σ} {past : List σ}
    (hr : M.Run ok (s :: past)) : P s (s :: past) := by
  have key : ∀ {h : List σ}, M.Run ok h → ∀ t ∈ h.head?, P t h := by
    intro h hr
    refine Run.invariant (P := fun h => ∀ t ∈ h.head?, P t h) ?_ ?_ hr
    · rintro s hs t ⟨⟩
      exact hinit _ hs
    · rintro s past a s' hr ih hok hs t ⟨⟩
      exact hstep s past a _ hr (ih s rfl) hok hs
  exact key hr s rfl

/-- The invariant rule for a predicate on the current state alone. -/
theorem Reachable.invariant {P : σ → Prop} (hinit : ∀ s, M.init s → P s)
    (hstep : ∀ s a s', P s → ok a s → M.step a s = some s' → P s') {s : σ}
    (h : M.Reachable ok s) : P s := by
  obtain ⟨past, hr⟩ := h
  exact Run.invariant_head (P := fun s _ => P s) hinit
    (fun s _ a s' _ hs hok hstep' => hstep s a s' hs hok hstep') hr

/-- What a run had done by an earlier state is a run too. -/
theorem Run.suffix {h : List σ} (hr : M.Run ok h) {s : σ} {past : List σ} (hs : s :: past <:+ h) :
    M.Run ok (s :: past) := by
  induction hr with
  | init hinit =>
      rcases List.suffix_cons_iff.mp hs with heq | hnil
      · rw [heq]
        exact .init hinit
      · exact absurd (List.suffix_nil.mp hnil) (by simp)
  | step hr hok hstep ih =>
      rcases List.suffix_cons_iff.mp hs with heq | hs
      · rw [heq]
        exact .step hr hok hstep
      · exact ih hs

/-- Every state of a run is reachable, by the part of the run up to it. -/
theorem Run.exists_suffix {h : List σ} (hr : M.Run ok h) {s : σ} (hs : s ∈ h) :
    ∃ past, s :: past <:+ h ∧ M.Run ok (s :: past) := by
  obtain ⟨newer, past, rfl⟩ := List.append_of_mem hs
  have hsuf : s :: past <:+ newer ++ s :: past := List.suffix_append newer (s :: past)
  exact ⟨past, hsuf, hr.suffix hsuf⟩

/-- **The rule for what stays**: a property that every guarded step keeps holds from the state of a run that has it on. -/
theorem Run.later {P : σ → Prop} (hkeep : ∀ a s s', P s → ok a s → M.step a s = some s' → P s') {newer past : List σ}
    {s : σ} (hr : M.Run ok (newer ++ s :: past)) (hs : P s) : ∀ t ∈ newer ++ [s], P t := by
  induction newer with
  | nil =>
      intro t ht
      rwa [List.mem_singleton.mp ht]
  | cons last newer ih =>
      cases newer with
      | nil =>
          cases hr with
          | step hr hok hstep =>
              have hall := ih hr
              exact List.forall_mem_cons.mpr ⟨hkeep _ s last hs hok hstep, hall⟩
      | cons before newer =>
          cases hr with
          | step hr hok hstep =>
              have hall := ih hr
              have hbefore : P before := hall before List.mem_cons_self
              exact List.forall_mem_cons.mpr ⟨hkeep _ before last hbefore hok hstep, hall⟩

/-- **The rule for what only moves one way**: a transitive relation of every next state to the one before it relates
every later state of a run to every earlier one. -/
theorem Run.pairwise {R : σ → σ → Prop} (htrans : ∀ a b c, R a b → R b c → R a c)
    (hstep : ∀ a s s', M.Reachable ok s → ok a s → M.step a s = some s' → R s' s) {h : List σ} (hr : M.Run ok h) :
    h.Pairwise R := by
  induction hr with
  | init _ => exact List.pairwise_singleton R _
  | step hr hok hs ih =>
      have hlast := hstep _ _ _ ⟨_, hr⟩ hok hs
      refine List.pairwise_cons.mpr ⟨fun t ht => ?_, ih⟩
      rcases List.mem_cons.mp ht with rfl | ht
      · exact hlast
      · exact htrans _ _ _ hlast ((List.pairwise_cons.mp ih).1 t ht)

/-- The invariant rule for every state of a run. -/
theorem Run.forall_mem {P : σ → Prop} (hinit : ∀ s, M.init s → P s)
    (hstep : ∀ s a s', P s → ok a s → M.step a s = some s' → P s') {h : List σ} (hr : M.Run ok h) : ∀ s ∈ h, P s := by
  intro s hs
  obtain ⟨past, -, hrun⟩ := hr.exists_suffix hs
  exact Reachable.invariant hinit hstep ⟨past, hrun⟩

/-- A weaker guard admits more runs. -/
theorem Run.mono (hok : ∀ a s, ok a s → ok' a s) {h : List σ} (hr : M.Run ok h) : M.Run ok' h := by
  induction hr with
  | init hs => exact .init hs
  | step _ ha hs ih => exact .step ih (hok _ _ ha) hs

/-- A condition that every step of the guarded runs meets anyway may stand in the guard. -/
theorem Run.strengthen (hok : ∀ a s s', M.Reachable ok s → ok a s → M.step a s = some s' → ok' a s) {h : List σ}
    (hr : M.Run ok h) : M.Run ok' h := by
  induction hr with
  | init hs => exact .init hs
  | step hr ha hs ih => exact .step ih (hok _ _ _ ⟨_, hr⟩ ha hs) hs

/-- Play a script, whose operations may look at the state they meet, behind a history. `none` as soon as the
guard fails or an operation has no next state. -/
def play (M : System σ α) (ok : α → σ → Prop) [∀ a s, Decidable (ok a s)] :
    List (σ → α) → List σ → Option (List σ)
  | [], h => some h
  | _ :: _, [] => none
  | f :: fs, s :: past =>
      if ok (f s) s then (M.step (f s) s).bind fun s' => M.play ok fs (s' :: s :: past) else none

/-- A script played behind a run is a run. -/
theorem Run.play [∀ a s, Decidable (ok a s)] {fs : List (σ → α)} {h h' : List σ} (hr : M.Run ok h)
    (hp : M.play ok fs h = some h') : M.Run ok h' := by
  induction fs generalizing h with
  | nil =>
      cases hp
      exact hr
  | cons f fs ih =>
      cases h with
      | nil => cases hp
      | cons s past =>
          unfold System.play at hp
          split at hp
          · rename_i hok
            obtain ⟨s', hs, hp⟩ := Option.bind_eq_some_iff.mp hp
            exact ih (.step hr hok hs) hp
          · cases hp

/-- A script whose evaluation ends in a state and history with `P` exhibits a run with `P`. -/
theorem exists_run_of_play (ok : α → σ → Prop) [∀ a s, Decidable (ok a s)] {P : σ → List σ → Prop}
    [∀ s h, Decidable (P s h)] {s : σ} (hs : M.init s) (fs : List (σ → α))
    (hp : ((M.play ok fs [s]).any fun h => h.head?.any fun t => decide (P t h)) = true) :
    ∃ t past, M.Run ok (t :: past) ∧ P t (t :: past) := by
  cases hplay : M.play ok fs [s] with
  | none =>
      rw [hplay] at hp
      cases hp
  | some h =>
      rw [hplay] at hp
      cases h with
      | nil => cases hp
      | cons t past => exact ⟨t, past, Run.play (.init hs) hplay, of_decide_eq_true hp⟩

end System

end WarmLogic.Lib
