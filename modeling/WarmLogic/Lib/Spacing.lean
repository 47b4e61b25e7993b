/-
# WarmLogic.Lib.Spacing — how many events fit into an interval when their windows are spread apart.

Events carry the start of the window they fell into. Two windows are the same or start at least `width` apart, and one
window takes no more than `m` events. Then `n` widths, however they lie, take no more than `n * m`
(`Spaced.length_le`): the widths cut the interval into `n` cells, and no cell meets two windows.
-/
import Mathlib.Data.List.Basic
import Mathlib.Data.List.Pairwise
import Mathlib.Tactic.Ring

namespace WarmLogic.Lib

universe u

variable {α : Type u}

/-- A list whose elements fall into `n` classes of at most `m` each has at most `n * m` elements. -/
theorem length_le_of_classes {l : List α} (f : α → Nat) {n m : Nat} (hlt : ∀ x ∈ l, f x < n)
    (hclass : ∀ i, (l.filter fun x => f x = i).length ≤ m) : l.length ≤ n * m := by
  induction n generalizing l with
  | zero =>
      cases l with
      | nil => exact Nat.zero_le _
      | cons x l => exact absurd (hlt x List.mem_cons_self) (Nat.not_lt_zero _)
  | succ n ih =>
      -- the last class, and the rest by induction
      have hrest : (l.filter fun x => ¬f x = n).length ≤ n * m := by
        refine ih (fun x hx => ?_) (fun i => ?_)
        · obtain ⟨hmem, hne⟩ := List.mem_filter.mp hx
          have hlt := hlt x hmem
          have hne : ¬f x = n := of_decide_eq_true hne
          omega
        · rw [List.filter_comm]
          exact (List.length_filter_le _ _).trans (hclass i)
      have hsplit : l.length = (l.filter fun x => f x = n).length + (l.filter fun x => ¬f x = n).length := by
        have := List.length_eq_length_filter_add (l := l) fun x => decide (f x = n)
        simpa using this
      have hlast := hclass n
      rw [hsplit]
      calc (l.filter fun x => f x = n).length + (l.filter fun x => ¬f x = n).length
          ≤ m + n * m := Nat.add_le_add hlast hrest
        _ = (n + 1) * m := by ring

/-- Events, newest first, whose windows do not overlap and take at most `m` each. -/
structure Spaced (start : α → Nat) (width m : Nat) (events : List α) : Prop where
  apart : events.Pairwise fun new old => start new = start old ∨ start old + width ≤ start new
  counted : ∀ w, (events.filter fun e => start e = w).length ≤ m

namespace Spaced

variable {start : α → Nat} {width m : Nat} {events : List α}

/-- No events. -/
theorem nil (start : α → Nat) (width m : Nat) : Spaced start width m [] := ⟨List.Pairwise.nil, fun _ => Nat.zero_le m⟩

/-- Some of the events. -/
theorem filter (h : Spaced start width m events) (p : α → Bool) : Spaced start width m (events.filter p) where
  apart := h.apart.filter p
  counted w := by
    rw [List.filter_comm]
    exact (List.length_filter_le _ _).trans (h.counted w)

/-- One more event, in the window of the newest ones or in one behind all others. -/
theorem cons (h : Spaced start width m events) {e : α}
    (hlate : ∀ old ∈ events, start e = start old ∨ start old + width ≤ start e)
    (hroom : (events.filter fun old => start old = start e).length < m) : Spaced start width m (e :: events) where
  apart := List.pairwise_cons.mpr ⟨hlate, h.apart⟩
  counted w := by
    by_cases hw : start e = w
    · subst hw
      rw [List.filter_cons, if_pos (decide_eq_true rfl)]
      exact hroom
    · rw [List.filter_cons_of_neg (by simpa using hw)]
      exact h.counted w

/-- Two events whose windows start in the same cell of the grid are in the same window. -/
theorem same_cell (h : Spaced start width m events) (hwidth : 0 < width) {offset : Nat}
    (hoffset : ∀ e ∈ events, offset ≤ start e + width) {x y : α} (hx : x ∈ events) (hy : y ∈ events)
    (hcell : (start x + width - offset) / width = (start y + width - offset) / width) : start x = start y := by
  -- a gap of one width moves on by at least one cell
  have hgap : ∀ a b : Nat, offset ≤ a + width → a + width ≤ b →
      (a + width - offset) / width ≠ (b + width - offset) / width := by
    intro a b ha hab heq
    have hle : a + width - offset + width ≤ b + width - offset := by omega
    have hdiv := Nat.div_le_div_right (c := width) hle
    rw [Nat.add_div_right _ hwidth] at hdiv
    omega
  have hrel : ∀ ⦃a⦄, a ∈ events → ∀ ⦃b⦄, b ∈ events →
      start a = start b ∨ start a + width ≤ start b ∨ start b + width ≤ start a := by
    apply List.Pairwise.forall_of_forall_of_flip
    · exact fun a _ => .inl rfl
    · exact h.apart.imp fun h => h.elim .inl fun h => .inr (.inr h)
    · exact h.apart.imp fun h => h.elim (fun h => .inl h.symm) fun h => .inr (.inl h)
  rcases hrel hx hy with heq | hlt | hlt
  · exact heq
  · exact absurd hcell (hgap _ _ (hoffset x hx) hlt)
  · exact absurd hcell.symm (hgap _ _ (hoffset y hy) hlt)

/-- **The bound.** Events whose windows start within `n` widths are at most `n * m`. -/
theorem length_le (h : Spaced start width m events) (hwidth : 0 < width) (offset n : Nat)
    (hfrom : ∀ e ∈ events, offset ≤ start e + width) (hto : ∀ e ∈ events, start e + width < offset + n * width) :
    events.length ≤ n * m := by
  apply length_le_of_classes fun e => (start e + width - offset) / width
  · intro e he
    have hto := hto e he
    have hfrom := hfrom e he
    rw [Nat.div_lt_iff_lt_mul hwidth]
    omega
  · intro i
    cases hcell : events.filter fun e => decide ((start e + width - offset) / width = i) with
    | nil => exact Nat.zero_le m
    | cons x rest =>
        have hin : ∀ y ∈ x :: rest, y ∈ events ∧ (start y + width - offset) / width = i := by
          intro y hy
          rw [← hcell] at hy
          exact ⟨(List.mem_filter.mp hy).1, of_decide_eq_true (List.mem_filter.mp hy).2⟩
        obtain ⟨hx, hxi⟩ := hin x List.mem_cons_self
        -- the cell holds one window only
        have hsub : (x :: rest).Sublist (events.filter fun e => start e = start x) := by
          have hall : (x :: rest).filter (fun e => decide (start e = start x)) = x :: rest := by
            rw [List.filter_eq_self]
            intro y hy
            obtain ⟨hmem, hyi⟩ := hin y hy
            exact decide_eq_true (h.same_cell hwidth hfrom hmem hx (hyi.trans hxi.symm))
          rw [← hall, ← hcell]
          exact List.Sublist.filter _ List.filter_sublist
        exact hsub.length_le.trans (h.counted (start x))

end Spaced

end WarmLogic.Lib
