/-
# WarmLogic.Lib.Files — Files, what a program does to them in order, and what is left when it is interrupted.

A disk gives each file its text. An effect writes a text to a file, renames a file or removes one. Effects reach the
disk in program order. An interruption, by a crash or by an error of the system, falls on one effect: those before it
are done and those after it are not. A rename or a removal that is interrupted is not done; a write may have put any
prefix of its text into the file, or not have opened it yet.
-/
import Mathlib.Data.List.Basic
import Mathlib.Logic.Function.Basic

namespace WarmLogic.Lib

universe u

/-- The text of each file; `none` where there is no such file. -/
abbrev Disk (F : Type u) := F → Option (List Char)

inductive Effect (F : Type u) where
  | write (f : F) (text : List Char)
  | replace (source target : F)
  | unlink (f : F)

variable {F : Type u} [DecidableEq F]

def Effect.apply : Effect F → Disk F → Disk F
  | .write f text, d => Function.update d f (some text)
  | .replace source target, d => Function.update (Function.update d target (d source)) source none
  | .unlink f, d => Function.update d f none

/-- All effects, in order. -/
def perform : List (Effect F) → Disk F → Disk F
  | [], d => d
  | e :: es, d => perform es (e.apply d)

/-- The effects, interrupted at the `k`-th; `torn` is how much of a write had reached its file, once it was opened. -/
def cut : List (Effect F) → Nat → Option Nat → Disk F → Disk F
  | [], _, _, d => d
  | .write f text :: _, 0, some n, d => Function.update d f (some (text.take n))
  | _ :: _, 0, _, d => d
  | e :: es, k + 1, torn, d => cut es k torn (e.apply d)

@[simp] theorem perform_nil (d : Disk F) : perform [] d = d := rfl

@[simp] theorem perform_cons (e : Effect F) (es : List (Effect F)) (d : Disk F) :
    perform (e :: es) d = perform es (e.apply d) := rfl

theorem perform_append (es es' : List (Effect F)) (d : Disk F) : perform (es ++ es') d = perform es' (perform es d) := by
  induction es generalizing d with
  | nil => rfl
  | cons e es ih => exact ih (e.apply d)

@[simp] theorem cut_succ (e : Effect F) (es : List (Effect F)) (k : Nat) (torn : Option Nat) (d : Disk F) :
    cut (e :: es) (k + 1) torn d = cut es k torn (e.apply d) := by
  cases e <;> rfl

/-- Interrupted behind the last effect, all are done. -/
theorem cut_of_length_le {es : List (Effect F)} {k : Nat} (h : es.length ≤ k) (torn : Option Nat) (d : Disk F) :
    cut es k torn d = perform es d := by
  induction es generalizing k d with
  | nil => cases k <;> rfl
  | cons e es ih =>
    obtain ⟨k, rfl⟩ : ∃ j, k = j + 1 := ⟨k - 1, by rw [List.length_cons] at h; omega⟩
    rw [cut_succ, perform_cons]
    exact ih (Nat.le_of_succ_le_succ h) _

theorem cut_append_lt {es : List (Effect F)} {k : Nat} (h : k < es.length) (es' : List (Effect F)) (torn : Option Nat)
    (d : Disk F) : cut (es ++ es') k torn d = cut es k torn d := by
  induction es generalizing k d with
  | nil => exact absurd h (Nat.not_lt_zero k)
  | cons e es ih =>
    cases k with
    | zero => cases e <;> cases torn <;> rfl
    | succ k =>
      rw [List.cons_append, cut_succ, cut_succ]
      exact ih (Nat.lt_of_succ_lt_succ h) _

theorem cut_append_ge {es : List (Effect F)} {k : Nat} (h : es.length ≤ k) (es' : List (Effect F)) (torn : Option Nat)
    (d : Disk F) : cut (es ++ es') k torn d = cut es' (k - es.length) torn (perform es d) := by
  induction es generalizing k d with
  | nil => rfl
  | cons e es ih =>
    obtain ⟨k, rfl⟩ : ∃ j, k = j + 1 := ⟨k - 1, by rw [List.length_cons] at h; omega⟩
    rw [List.cons_append, cut_succ, ih (Nat.le_of_succ_le_succ h), List.length_cons, Nat.add_sub_add_right]
    rfl

/-- An interrupted removal is not done. -/
theorem cut_unlink (f : F) (torn : Option Nat) (d : Disk F) : cut [.unlink f] 0 torn d = d := by
  cases torn <;> rfl

/-- The files that an effect changes. -/
def Effect.Touches (f : F) : Effect F → Prop
  | .write g _ => g = f
  | .replace source target => source = f ∨ target = f
  | .unlink g => g = f

theorem Effect.apply_untouched {e : Effect F} {f : F} (h : ¬ e.Touches f) (d : Disk F) : e.apply d f = d f := by
  cases e with
  | write g text => exact Function.update_of_ne (Ne.symm h) _ _
  | replace source target =>
    rw [Effect.Touches, not_or] at h
    rw [Effect.apply, Function.update_of_ne (Ne.symm h.1), Function.update_of_ne (Ne.symm h.2)]
  | unlink g => exact Function.update_of_ne (Ne.symm h) _ _

/-- What no effect touches stays, however the effects are interrupted. -/
theorem cut_untouched {es : List (Effect F)} {f : F} (h : ∀ e ∈ es, ¬ e.Touches f) (k : Nat) (torn : Option Nat)
    (d : Disk F) : cut es k torn d f = d f := by
  induction es generalizing k d with
  | nil => cases k <;> rfl
  | cons e es ih =>
    have he := h e List.mem_cons_self
    cases k with
    | zero =>
      cases e with
      | write g text =>
        cases torn with
        | none => rfl
        | some n => exact Function.update_of_ne (Ne.symm he) _ _
      | replace source target => cases torn <;> rfl
      | unlink g => cases torn <;> rfl
    | succ k =>
      rw [cut_succ, ih (fun e' he' => h e' (List.mem_cons_of_mem _ he')), Effect.apply_untouched he]

end WarmLogic.Lib
