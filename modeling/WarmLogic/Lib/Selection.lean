/-
# WarmLogic.Lib.Selection — one incumbent, candidates in any order, and when the order does not matter.

A register holds an incumbent (or nothing); candidates come one after the other, and each takes the place if it
beats the incumbent it meets. `beats` is any relation: it need be neither transitive nor total, and `beats none`
says who takes an empty place. If `beats` were a linear order the winner would be a maximum. In general the winner
can depend on the order, and `agree_iff` says exactly when it does not: nobody beats the incumbent, or one candidate
is beaten by none and beats everybody who can hold the place before it comes.
-/
import Mathlib.Data.Finset.Dedup
import Mathlib.Data.Finset.Basic
import Mathlib.Data.Finset.Lattice.Lemmas

namespace WarmLogic.Lib.Selection

universe u

variable {α : Type u}

/-! ## Orders of a set -/

/-- `l` lists the elements of `S`, each once. -/
structure OrderOf [DecidableEq α] (S : Finset α) (l : List α) : Prop where
  nodup : l.Nodup
  set : l.toFinset = S

namespace OrderOf

variable [DecidableEq α] {S : Finset α} {l : List α}

theorem mem_iff (h : OrderOf S l) {x : α} : x ∈ l ↔ x ∈ S := by
  rw [← h.set, List.mem_toFinset]

/-- What comes first may be prescribed. -/
theorem exists_append (first : List α) (hnodup : first.Nodup) (hsub : ∀ x ∈ first, x ∈ S) :
    ∃ rest, OrderOf S (first ++ rest) := by
  refine ⟨(S.filter (· ∉ first)).toList, ?_, ?_⟩
  · refine hnodup.append (Finset.nodup_toList _) fun x hx hx' => ?_
    exact (Finset.mem_filter.mp (Finset.mem_toList.mp hx')).2 hx
  · ext x
    rw [List.mem_toFinset, List.mem_append, Finset.mem_toList, Finset.mem_filter]
    constructor
    · rintro (hx | hx)
      · exact hsub x hx
      · exact hx.1
    · intro hx
      by_cases hfirst : x ∈ first
      · exact .inl hfirst
      · exact .inr ⟨hx, hfirst⟩

theorem exists_pair {x y : α} (hx : x ∈ S) (hy : y ∈ S) (hne : x ≠ y) : ∃ rest, OrderOf S (x :: y :: rest) :=
  exists_append [x, y] (by simpa using hne) (by simpa using ⟨hx, hy⟩)

/-- An order of a set orders every part of it. -/
theorem filter (h : OrderOf S l) (p : α → Prop) [DecidablePred p] : OrderOf (S.filter p) (l.filter fun x => p x) := by
  refine ⟨h.nodup.filter _, ?_⟩
  ext x
  simp only [List.mem_toFinset, List.mem_filter, decide_eq_true_eq, Finset.mem_filter, h.mem_iff]

end OrderOf

/-! ## Challenges -/

section Challenges

variable (beats : Option α → α → Prop)

/-- Incumbents that follow one another, each beating the one before; the last one stands at the end. -/
inductive Succession : Option α → List α → Option α → Prop
  | nil (o : Option α) : Succession o [] o
  | cons {o o' : Option α} {x : α} {xs : List α} :
      beats o x → Succession (some x) xs o' → Succession o (x :: xs) o'

/-- The last incumbent is the first one, or one of the successors. -/
theorem Succession.end_cases {beats : Option α → α → Prop} {o o' : Option α} {xs : List α}
    (h : Succession beats o xs o') : (xs = [] ∧ o' = o) ∨ ∃ x ∈ xs, o' = some x := by
  induction h with
  | nil o => exact .inl ⟨rfl, rfl⟩
  | @cons o o' x xs hb hs ih =>
      right
      rcases ih with ⟨-, rfl⟩ | ⟨y, hy, rfl⟩
      · exact ⟨x, List.mem_cons_self, rfl⟩
      · exact ⟨y, List.mem_cons_of_mem x hy, rfl⟩

variable [∀ o x, Decidable (beats o x)]

/-- A candidate takes the place if it beats the incumbent. -/
def challenge (o : Option α) (x : α) : Option α := if beats o x then some x else o

/-- The incumbent after candidates in a row. -/
def select (o : Option α) (l : List α) : Option α := l.foldl (challenge beats) o

variable {beats} {o o' : Option α} {w : α} {l xs : List α}

theorem select_cons_of_beats {x : α} (h : beats o x) : select beats o (x :: l) = select beats (some x) l := by
  rw [select, List.foldl_cons, challenge, if_pos h]
  rfl

theorem select_cons_of_not_beats {x : α} (h : ¬ beats o x) : select beats o (x :: l) = select beats o l := by
  rw [select, List.foldl_cons, challenge, if_neg h]
  rfl

theorem select_append (l l' : List α) : select beats o (l ++ l') = select beats (select beats o l) l' :=
  List.foldl_append

/-- An incumbent nobody beats stays. -/
theorem select_of_not_beats (h : ∀ x ∈ l, ¬ beats o x) : select beats o l = o := by
  induction l with
  | nil => rfl
  | cons x l ih =>
      obtain ⟨hx, hl⟩ := List.forall_mem_cons.mp h
      rw [select_cons_of_not_beats hx]
      exact ih hl

/-- One and the same candidate, however often it comes, challenges once. -/
theorem select_of_forall_eq {a : α} (hirrefl : ¬ beats (some a) a) (hall : ∀ x ∈ l, x = a) (hmem : a ∈ l) :
    select beats o l = challenge beats o a := by
  cases l with
  | nil => cases hmem
  | cons x l =>
      obtain ⟨rfl, hl⟩ := List.forall_mem_cons.mp hall
      by_cases hb : beats o x
      · rw [select_cons_of_beats hb, challenge, if_pos hb]
        exact select_of_not_beats fun y hy => by rw [hl y hy]; exact hirrefl
      · rw [select_cons_of_not_beats hb, challenge, if_neg hb]
        exact select_of_not_beats fun y hy => by rw [hl y hy]; exact hb

/-- Who neither holds the place nor comes cannot end up with it. -/
theorem select_ne (hw : w ∉ l) (ho : o ≠ some w) : select beats o l ≠ some w := by
  induction l generalizing o with
  | nil => exact ho
  | cons x l ih =>
      have hx : w ≠ x := List.ne_of_not_mem_cons hw
      have hl : w ∉ l := List.not_mem_of_not_mem_cons hw
      by_cases hb : beats o x
      · rw [select_cons_of_beats hb]
        exact ih hl fun h => hx (Option.some.inj h).symm
      · rw [select_cons_of_not_beats hb]
        exact ih hl ho

/-- The place passes along some of the candidates, in the order they come. -/
theorem exists_succession (beats : Option α → α → Prop) [∀ o x, Decidable (beats o x)] (o : Option α) (l : List α) :
    ∃ xs, xs.Sublist l ∧ Succession beats o xs (select beats o l) := by
  induction l generalizing o with
  | nil => exact ⟨[], .slnil, .nil o⟩
  | cons x l ih =>
      by_cases hb : beats o x
      · obtain ⟨xs, hsub, hs⟩ := ih (some x)
        rw [select_cons_of_beats hb]
        exact ⟨x :: xs, hsub.cons_cons x, .cons hb hs⟩
      · obtain ⟨xs, hsub, hs⟩ := ih o
        rw [select_cons_of_not_beats hb]
        exact ⟨xs, hsub.cons x, hs⟩

theorem Succession.select_eq (h : Succession beats o xs o') : select beats o xs = o' := by
  induction h with
  | nil o => rfl
  | cons hb _ ih =>
      rw [select_cons_of_beats hb]
      exact ih

/-! ## When the order does not matter -/

/-- Every order of the candidates in `S` ends with the same incumbent. -/
def Agree [DecidableEq α] (beats : Option α → α → Prop) [∀ o x, Decidable (beats o x)] (o : Option α)
    (S : Finset α) : Prop :=
  ∀ l l', OrderOf S l → OrderOf S l' → select beats o l = select beats o l'

/-- `w` wins the place: no candidate beats it, and it beats the incumbent and whoever can succeed to the place
before it comes. -/
structure Wins (beats : Option α → α → Prop) (o : Option α) (S : Finset α) (w : α) : Prop where
  mem : w ∈ S
  unbeaten : ∀ x ∈ S, ¬ beats (some w) x
  beatsAll : ∀ xs o', Succession beats o xs o' → xs.Nodup → (∀ x ∈ xs, x ∈ S ∧ x ≠ w) → beats o' w

/-- Who beats the incumbent and every other candidate, and is beaten by none, wins. -/
theorem Wins.of_beats_all {beats : Option α → α → Prop} {o : Option α} {S : Finset α} {w : α} (hmem : w ∈ S)
    (hunbeaten : ∀ x ∈ S, ¬ beats (some w) x) (hfirst : beats o w) (hall : ∀ x ∈ S, x ≠ w → beats (some x) w) :
    Wins beats o S w := by
  refine ⟨hmem, hunbeaten, fun xs o' hs _ hxs => ?_⟩
  rcases hs.end_cases with ⟨-, rfl⟩ | ⟨x, hx, rfl⟩
  · exact hfirst
  · exact hall x (hxs x hx).1 (hxs x hx).2

/-- Nobody beats the incumbent, or somebody wins. -/
def Settles (beats : Option α → α → Prop) (o : Option α) (S : Finset α) : Prop :=
  (∀ x ∈ S, ¬ beats o x) ∨ ∃ w, Wins beats o S w

variable [DecidableEq α] {S : Finset α}

/-- The winner holds the place at the end of every order. -/
theorem Wins.select_eq (h : Wins beats o S w) (hl : OrderOf S l) : select beats o l = some w := by
  obtain ⟨before, after, rfl⟩ := List.append_of_mem (hl.mem_iff.mpr h.mem)
  obtain ⟨xs, hsub, hs⟩ := exists_succession beats o before
  have hnodup := List.nodup_append.mp hl.nodup
  have hbeats : beats (select beats o before) w := by
    refine h.beatsAll xs _ hs (hnodup.1.sublist hsub) fun x hx => ⟨?_, ?_⟩
    · exact hl.mem_iff.mp (List.mem_append_left _ (hsub.subset hx))
    · exact hnodup.2.2 x (hsub.subset hx) w List.mem_cons_self
  rw [select_append, select_cons_of_beats hbeats]
  refine select_of_not_beats fun x hx => h.unbeaten x (hl.mem_iff.mp ?_)
  exact List.mem_append_right _ (List.mem_cons_of_mem w hx)

theorem Settles.agree (h : Settles beats o S) : Agree beats o S := by
  intro l l' hl hl'
  rcases h with hstays | ⟨w, hw⟩
  · rw [select_of_not_beats fun x hx => hstays x (hl.mem_iff.mp hx),
      select_of_not_beats fun x hx => hstays x (hl'.mem_iff.mp hx)]
  · rw [hw.select_eq hl, hw.select_eq hl']

/-! ### Whoever holds the place at the end of every order wins -/

/-- Every order of the candidates in `S` ends with `w`. -/
def EndsWith (beats : Option α → α → Prop) [∀ o x, Decidable (beats o x)] (o : Option α) (S : Finset α) (w : α) :
    Prop :=
  ∀ l, OrderOf S l → select beats o l = some w

namespace EndsWith

/-- Once `w` has come it holds the place, for it cannot come again. -/
theorem held (h : EndsWith beats o S w) (first : List α) {rest : List α} (horder : OrderOf S (first ++ rest))
    (hfirst : w ∈ first) : select beats o first = some w := by
  by_contra hne
  have hrest : w ∉ rest := fun hrest => (List.nodup_append.mp horder.nodup).2.2 w hfirst w hrest rfl
  have hlost : select beats (select beats o first) rest ≠ some w := select_ne hrest hne
  rw [← select_append] at hlost
  exact hlost (h _ horder)

/-- Where somebody beats the first incumbent, `w` does. -/
theorem beats_first (h : EndsWith beats o S w) (hw : w ∈ S) {x : α} (hx : x ∈ S) (hbx : beats o x) : beats o w := by
  by_contra hno
  have hne : w ≠ x := by
    rintro rfl
    exact hno hbx
  obtain ⟨rest, horder⟩ := OrderOf.exists_pair hw hx hne
  have hend : select beats o [w, x] = some w :=
    h.held [w, x] horder List.mem_cons_self
  rw [select_cons_of_not_beats hno, select_cons_of_beats hbx] at hend
  exact hne (Option.some.inj hend).symm

theorem unbeaten (h : EndsWith beats o S w) (hw : w ∈ S) (hself : beats o w) (hirrefl : ¬ beats (some w) w) :
    ∀ x ∈ S, ¬ beats (some w) x := by
  intro x hx hbx
  have hne : w ≠ x := by
    rintro rfl
    exact hirrefl hbx
  obtain ⟨rest, horder⟩ := OrderOf.exists_pair hw hx hne
  have hend : select beats o [w, x] = some w :=
    h.held [w, x] horder List.mem_cons_self
  rw [select_cons_of_beats hself, select_cons_of_beats hbx] at hend
  exact hne (Option.some.inj hend).symm

/-- Let the others come as they succeed to the place, and then `w`. -/
theorem beats_end (h : EndsWith beats o S w) (hw : w ∈ S) (hself : beats o w) (hs : Succession beats o xs o')
    (hnodup : xs.Nodup) (hxs : ∀ x ∈ xs, x ∈ S ∧ x ≠ w) : beats o' w := by
  by_contra hno
  have hfirst : (xs ++ [w]).Nodup := by
    refine hnodup.append (List.nodup_singleton w) fun x hx hx' => ?_
    exact (hxs x hx).2 (List.mem_singleton.mp hx')
  have hsub : ∀ x ∈ xs ++ [w], x ∈ S := by
    intro x hx
    rcases List.mem_append.mp hx with hx | hx
    · exact (hxs x hx).1
    · rw [List.mem_singleton.mp hx]
      exact hw
  obtain ⟨rest, horder⟩ := OrderOf.exists_append (xs ++ [w]) hfirst hsub
  have hend := h.held (xs ++ [w]) horder (List.mem_append_right _ List.mem_cons_self)
  rw [select_append, hs.select_eq, select_cons_of_not_beats hno] at hend
  rcases hs.end_cases with ⟨-, rfl⟩ | ⟨x, hx, rfl⟩
  · exact hno hself
  · exact (hxs x hx).2 (Option.some.inj hend)

end EndsWith

/-- If somebody beats the incumbent, orders that agree end with one of the candidates. -/
theorem Agree.exists_endsWith (h : Agree beats o S) {x : α} (hx : x ∈ S) (hbx : beats o x) :
    ∃ w ∈ S, EndsWith beats o S w := by
  obtain ⟨rest, horder⟩ := OrderOf.exists_append [x] (List.nodup_singleton x) (by simpa using hx)
  have hsel : select beats o ([x] ++ rest) = select beats (some x) rest := select_cons_of_beats hbx
  obtain ⟨xs, hsub, hs⟩ := exists_succession beats (some x) rest
  rcases hs.end_cases with ⟨-, hend⟩ | ⟨y, hy, hend⟩
  · exact ⟨x, hx, fun l hl => (h _ _ hl horder).trans (hsel.trans hend)⟩
  · refine ⟨y, ?_, fun l hl => (h _ _ hl horder).trans (hsel.trans hend)⟩
    exact horder.mem_iff.mp (List.mem_append_right _ (hsub.subset hy))

/-- **Agreement on every order.** -/
theorem agree_iff (hirrefl : ∀ x, ¬ beats (some x) x) : Agree beats o S ↔ Settles beats o S := by
  refine ⟨fun hagree => ?_, Settles.agree⟩
  by_cases hstays : ∀ x ∈ S, ¬ beats o x
  · exact .inl hstays
  · simp only [not_forall, not_not] at hstays
    obtain ⟨x, hx, hbx⟩ := hstays
    obtain ⟨w, hw, hends⟩ := hagree.exists_endsWith hx hbx
    have hself : beats o w := hends.beats_first hw hx hbx
    refine .inr ⟨w, hw, hends.unbeaten hw hself (hirrefl w), fun xs o' hs hnodup hxs => ?_⟩
    exact hends.beats_end hw hself hs hnodup hxs

end Challenges

end WarmLogic.Lib.Selection
