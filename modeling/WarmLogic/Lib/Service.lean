/-
# WarmLogic.Lib.Service — components that answer calls, and simulation between two of them.

A component is a step from a state and a call to the next state and an answer; `serve` runs it on a sequence of calls.
`serve_simulates` is the simulation rule: a relation between two components that every call keeps, under which they answer
alike, relates their states after every sequence of calls, and their answers one by one.
-/
import Mathlib.Data.List.Forall2

namespace WarmLogic.Lib

variable {σ τ α β γ : Type}

/-- The state after the calls, and the answers in their order. -/
def serve (step : σ → α → σ × β) : σ → List α → σ × List β
  | s, [] => (s, [])
  | s, call :: calls => ((serve step (step s call).1 calls).1, (step s call).2 :: (serve step (step s call).1 calls).2)

/-- **The simulation rule.** -/
theorem serve_simulates {R : σ → τ → Prop} {Q : β → γ → Prop} {ok : α → Prop} {step : σ → α → σ × β}
    {step' : τ → α → τ × γ}
    (hstep : ∀ s t call, R s t → ok call → R (step s call).1 (step' t call).1 ∧ Q (step s call).2 (step' t call).2)
    {s : σ} {t : τ} {calls : List α} (hok : ∀ call ∈ calls, ok call) (h : R s t) :
    R (serve step s calls).1 (serve step' t calls).1 ∧ List.Forall₂ Q (serve step s calls).2 (serve step' t calls).2 := by
  induction calls generalizing s t with
  | nil => exact ⟨h, .nil⟩
  | cons call calls ih =>
      obtain ⟨hcall, hcalls⟩ := List.forall_mem_cons.mp hok
      obtain ⟨hnext, hanswer⟩ := hstep s t call h hcall
      obtain ⟨hlast, hanswers⟩ := ih hcalls hnext
      exact ⟨hlast, .cons hanswer hanswers⟩

/-- The simulation rule where the answers are the same. -/
theorem serve_eq {R : σ → τ → Prop} {ok : α → Prop} {step : σ → α → σ × β} {step' : τ → α → τ × β}
    (hstep : ∀ s t call, R s t → ok call → R (step s call).1 (step' t call).1 ∧ (step s call).2 = (step' t call).2)
    {s : σ} {t : τ} {calls : List α} (hok : ∀ call ∈ calls, ok call) (h : R s t) :
    R (serve step s calls).1 (serve step' t calls).1 ∧ (serve step s calls).2 = (serve step' t calls).2 := by
  obtain ⟨hlast, hanswers⟩ := serve_simulates hstep hok h
  exact ⟨hlast, List.forall₂_eq_eq_eq ▸ hanswers⟩

end WarmLogic.Lib
