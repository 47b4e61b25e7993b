/-
# WarmLogic.Lib.HashChain — lists of entries each of which holds the hash of the one before it.

An entry's hash is taken of its text, and the text has the hash before it in it. `Linked g l` says that `l` is such a
chain from `g`, and `tip g l` is the hash of its last entry.

Without collisions a tip determines the texts behind it, back to where the shorter of two chains begins
(`suffix_of_tip`). Only where no entry has the hash `g` that a chain began with, is the beginning fixed as well
(`texts_eq_of_tip`).
-/
import Mathlib.Data.List.Infix

namespace WarmLogic.Lib

/-- Entries with the hash that they hold, and what their own hash is taken of. -/
structure HashChain (Entry Text Hash : Type) where
  prevHash : Entry → Hash
  text : Entry → Text
  hash : Text → Hash
  prevHash_eq : ∀ {e e'}, text e = text e' → prevHash e = prevHash e'

namespace HashChain

variable {Entry Text Hash : Type} (C : HashChain Entry Text Hash)

def entryHash (e : Entry) : Hash := C.hash (C.text e)

/-- **`Linked g l`** — every entry holds the hash of the one before it, the first one `g`. -/
def Linked : Hash → List Entry → Prop
  | _, [] => True
  | g, e :: l => C.prevHash e = g ∧ Linked (C.entryHash e) l

/-- The hash of the last entry, `g` if there is none. -/
def tip : Hash → List Entry → Hash
  | g, [] => g
  | _, e :: l => tip (C.entryHash e) l

/-- No text of the one chain has the hash of a different text of the other. -/
def NoCollisions (l l' : List Entry) : Prop :=
  ∀ e ∈ l, ∀ e' ∈ l', C.entryHash e = C.entryHash e' → C.text e = C.text e'

variable {C} {g g' : Hash} {l l' : List Entry} {e : Entry}

theorem tip_concat (g : Hash) (l : List Entry) (e : Entry) : C.tip g (l ++ [e]) = C.entryHash e := by
  induction l generalizing g with
  | nil => rfl
  | cons d l ih => exact ih (C.entryHash d)

theorem linked_concat : C.Linked g (l ++ [e]) ↔ C.Linked g l ∧ C.prevHash e = C.tip g l := by
  induction l generalizing g with
  | nil =>
      show C.prevHash e = g ∧ True ↔ True ∧ C.prevHash e = g
      rw [and_comm]
  | cons d l ih =>
      show C.prevHash d = g ∧ C.Linked _ (l ++ [e]) ↔ (C.prevHash d = g ∧ C.Linked _ l) ∧ C.prevHash e = C.tip _ l
      rw [ih, and_assoc]

/-- Entries with the same texts are linked alike. -/
theorem linked_congr (h : l.map C.text = l'.map C.text) : C.Linked g l ↔ C.Linked g l' := by
  induction l generalizing l' g with
  | nil =>
      rw [List.map_nil, eq_comm, List.map_eq_nil_iff] at h
      rw [h]
  | cons e l ih =>
      cases l' with
      | nil => cases h
      | cons e' l' =>
          obtain ⟨htext, htexts⟩ := List.cons.inj h
          show C.prevHash e = g ∧ C.Linked (C.hash (C.text e)) l ↔ C.prevHash e' = g ∧ C.Linked (C.hash (C.text e')) l'
          rw [C.prevHash_eq htext, htext, ih htexts]

theorem tip_congr (h : l.map C.text = l'.map C.text) : C.tip g l = C.tip g l' := by
  induction l generalizing l' g with
  | nil =>
      rw [List.map_nil, eq_comm, List.map_eq_nil_iff] at h
      rw [h]
  | cons e l ih =>
      cases l' with
      | nil => cases h
      | cons e' l' =>
          obtain ⟨htext, htexts⟩ := List.cons.inj h
          show C.tip (C.hash (C.text e)) l = C.tip (C.hash (C.text e')) l'
          rw [htext, ih htexts]

/-- **A tip determines the texts behind it**, as far as the chain that ends in it goes: the induction takes the last
entries of both chains off, and the hashes that they hold are tips again. -/
theorem suffix_of_tip (hcf : C.NoCollisions l l') (hstart : ∀ e' ∈ l', C.entryHash e' ≠ g) (hl : C.Linked g l)
    (hl' : C.Linked g' l') (htip : C.tip g l = C.tip g' l') : l'.map C.text <:+ l.map C.text := by
  induction l' using List.reverseRecOn generalizing l with
  | nil => exact List.nil_suffix
  | append_singleton m' e' ih =>
      rw [tip_concat] at htip
      rcases List.eq_nil_or_concat l with rfl | ⟨m, e, rfl⟩
      · -- the longer chain would have come back to the start of the other
        exact absurd htip.symm (hstart e' (List.mem_append_right _ (List.mem_singleton_self e')))
      · rw [List.concat_eq_append] at hl hcf htip ⊢
        rw [tip_concat] at htip
        obtain ⟨hm, hprev⟩ := linked_concat.mp hl
        obtain ⟨hm', hprev'⟩ := linked_concat.mp hl'
        have htext : C.text e = C.text e' := hcf e (by simp) e' (by simp) htip
        have hback : C.tip g m = C.tip g' m' := by
          rw [← hprev, ← hprev']
          exact C.prevHash_eq htext
        have hsuffix := ih (fun d hd d' hd' => hcf d (List.mem_append_left _ hd) d' (List.mem_append_left _ hd'))
          (fun d hd => hstart d (List.mem_append_left _ hd)) hm hm' hback
        rw [List.map_append, List.map_append, List.map_singleton, List.map_singleton, htext]
        exact List.suffix_append_inj_of_length_eq rfl |>.mpr ⟨hsuffix, rfl⟩

/-- **Two chains from one start with one tip have the same texts**, if no entry has the hash that they start with. -/
theorem texts_eq_of_tip (hcf : C.NoCollisions l l') (hstart : ∀ e ∈ l ++ l', C.entryHash e ≠ g) (hl : C.Linked g l)
    (hl' : C.Linked g l') (htip : C.tip g l = C.tip g l') : l'.map C.text = l.map C.text := by
  have hsuffix := suffix_of_tip hcf (fun e he => hstart e (List.mem_append_right _ he)) hl hl' htip
  have hsuffix' := suffix_of_tip (fun e' he' e he h => (hcf e he e' he' h.symm).symm)
    (fun e he => hstart e (List.mem_append_left _ he)) hl' hl htip.symm
  exact hsuffix.eq_of_length_le hsuffix'.length_le

end HashChain

end WarmLogic.Lib
