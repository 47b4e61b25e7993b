/-
# WarmLogic.Lib.R1cs — rank-one constraint systems over a field, read by a prover and by what they admit.

A synthesis allocates public inputs and private witnesses and enforces constraints `a * b = c` between linear
combinations of them. A variable stands for its value in the assignment under consideration, so that one program has two
readings: `prove` gives every variable the value that its closure computes, and `Yields` lets a prover choose each private
value as it likes and keeps only what the constraints keep. `Accepts` is the language of the system: the public inputs
that some private assignment satisfies, `accepts_iff`. The rules below follow a program statement by statement, in either
reading; they are what a circuit's completeness and soundness are proved with.

The gadgets are a parameter, `Gadgets`: programs for equalities, inequalities, products and truth values, each with the
two readings that a constraint library documents of it. A circuit is proved from these readings, so that what is proved
holds whichever constraints a library builds its gadgets from; `constraintGadgets` is one way to build them.
-/
import Mathlib.Algebra.Field.Basic

namespace WarmLogic.Lib

/-- A program that builds a constraint system. The closure of a value may fail. -/
inductive Synthesis (F α : Type) where
  | done (result : α)
  | input (value : Option F) (next : F → Synthesis F α)
  | witness (value : Option F) (next : F → Synthesis F α)
  | enforce (a b c : F) (next : Synthesis F α)
  | abort

namespace Synthesis

variable {F α β : Type}

/-- One program after another. -/
protected def bind : Synthesis F α → (α → Synthesis F β) → Synthesis F β
  | .done result, rest => rest result
  | .input value next, rest => .input value fun v => (next v).bind rest
  | .witness value next, rest => .witness value fun v => (next v).bind rest
  | .enforce a b c next, rest => .enforce a b c (next.bind rest)
  | .abort, _ => .abort

instance : Monad (Synthesis F) where
  pure := .done
  bind := Synthesis.bind

/-- A public input, which the prover sets to `value`. -/
def newInput (value : Option F) : Synthesis F F := .input value .done

/-- A private value, which the prover sets to `value`. -/
def newWitness (value : Option F) : Synthesis F F := .witness value .done

/-- The constraint `a * b = c`. -/
def enforceConstraint (a b c : F) : Synthesis F Unit := .enforce a b c (.done ())

/-! ## The two readings -/

/-- Whether the public inputs `x` and the private values `w` are an assignment of all variables that satisfies all
constraints. -/
def satisfies [Mul F] [DecidableEq F] : Synthesis F α → List F → List F → Bool
  | .done _, x, w => x.isEmpty && w.isEmpty
  | .input _ next, v :: x, w => (next v).satisfies x w
  | .input _ _, [], _ => false
  | .witness _ next, x, v :: w => (next v).satisfies x w
  | .witness _ _, _, [] => false
  | .enforce a b c next, x, w => decide (a * b = c) && next.satisfies x w
  | .abort, _, _ => false

/-- The public inputs that some private assignment satisfies. -/
def Accepts [Mul F] [DecidableEq F] (m : Synthesis F α) (x : List F) : Prop :=
  ∃ w, m.satisfies x w = true

/-- From the public inputs `x` the program can come to `a` with `rest` unread, under private values that satisfy its
constraints. -/
def Yields [Mul F] : Synthesis F α → List F → α → List F → Prop
  | .done result, x, a, rest => result = a ∧ x = rest
  | .input _ next, x, a, rest => ∃ v x', x = v :: x' ∧ (next v).Yields x' a rest
  | .witness _ next, x, a, rest => ∃ v, (next v).Yields x a rest
  | .enforce p q r next, x, a, rest => p * q = r ∧ next.Yields x a rest
  | .abort, _, _, _ => False

/-- The prover's run: its result and its public inputs, unless a closure fails or a constraint is violated. -/
def prove [Mul F] [DecidableEq F] : Synthesis F α → Option (α × List F)
  | .done result => some (result, [])
  | .input (some value) next => (next value).prove.map fun p => (p.1, value :: p.2)
  | .input none _ => none
  | .witness (some value) next => (next value).prove
  | .witness none _ => none
  | .enforce a b c next => if a * b = c then next.prove else none
  | .abort => none

/-- The prover comes to `a` with the public inputs `x`, and its assignment satisfies the constraints. -/
def Proves [Mul F] [DecidableEq F] (m : Synthesis F α) (a : α) (x : List F) : Prop :=
  m.prove = some (a, x)

/-- The program, run for its constraints only, has a satisfying assignment just when `P` holds, and the prover's own
assignment is then one. -/
def Enforces [Mul F] [DecidableEq F] (m : Synthesis F Unit) (P : Prop) : Prop :=
  (m.Accepts [] ↔ P) ∧ (m.Proves () [] ↔ P)

section Readings

variable [Mul F] [DecidableEq F]

/-- **The language of a system** is what its program yields when the public inputs are used up. -/
theorem accepts_iff {m : Synthesis F α} {x : List F} : m.Accepts x ↔ ∃ a, m.Yields x a [] := by
  induction m generalizing x with
  | done result =>
      constructor
      · rintro ⟨w, hw⟩
        have hx : x.isEmpty = true ∧ w.isEmpty = true := (Bool.and_eq_true _ _).mp hw
        exact ⟨result, rfl, List.isEmpty_iff.mp hx.1⟩
      · rintro ⟨a, -, rfl⟩
        exact ⟨[], rfl⟩
  | input value next ih =>
      constructor
      · rintro ⟨w, hw⟩
        match x, hw with
        | v :: x', hw =>
            obtain ⟨a, ha⟩ := (ih v).mp ⟨w, hw⟩
            exact ⟨a, v, x', rfl, ha⟩
      · rintro ⟨a, v, x', rfl, ha⟩
        obtain ⟨w, hw⟩ := (ih v).mpr ⟨a, ha⟩
        exact ⟨w, hw⟩
  | witness value next ih =>
      constructor
      · rintro ⟨w, hw⟩
        match w, hw with
        | v :: w', hw =>
            have hw' : (next v).satisfies x w' = true := by
              rw [satisfies] at hw
              exact hw
            obtain ⟨a, ha⟩ := (ih v).mp ⟨w', hw'⟩
            exact ⟨a, v, ha⟩
        | [], hw =>
            rw [satisfies] at hw
            cases hw
      · rintro ⟨a, v, ha⟩
        obtain ⟨w, hw⟩ := (ih v).mpr ⟨a, ha⟩
        exact ⟨v :: w, by rw [satisfies]; exact hw⟩
  | enforce p q r next ih =>
      constructor
      · rintro ⟨w, hw⟩
        obtain ⟨hpq, hnext⟩ := (Bool.and_eq_true _ _).mp hw
        obtain ⟨a, ha⟩ := ih.mp ⟨w, hnext⟩
        exact ⟨a, of_decide_eq_true hpq, ha⟩
      · rintro ⟨a, hpq, ha⟩
        obtain ⟨w, hw⟩ := ih.mpr ⟨a, ha⟩
        exact ⟨w, (Bool.and_eq_true _ _).mpr ⟨decide_eq_true hpq, hw⟩⟩
  | abort =>
      constructor
      · rintro ⟨w, hw⟩
        cases hw
      · rintro ⟨a, ha⟩
        exact ha.elim

/-- `Enforces`, by the two readings. -/
theorem enforces_iff {m : Synthesis F Unit} {P : Prop} :
    m.Enforces P ↔ (m.Yields [] () [] ↔ P) ∧ (m.Proves () [] ↔ P) := by
  unfold Enforces
  rw [accepts_iff]
  exact and_congr_left fun _ => iff_congr ⟨fun ⟨_, h⟩ => h, fun h => ⟨(), h⟩⟩ Iff.rfl

end Readings

/-! ## Sequencing -/

/-- Sequencing is that of the monad. -/
theorem bind_eq (m : Synthesis F α) (f : α → Synthesis F β) : m >>= f = m.bind f := rfl

/-- A program that only returns reads nothing. -/
theorem yields_pure [Mul F] {a b : α} {x rest : List F} :
    (pure a : Synthesis F α).Yields x b rest ↔ a = b ∧ x = rest := Iff.rfl

/-- And has no public inputs. -/
theorem proves_pure [Mul F] [DecidableEq F] {a b : α} {x : List F} :
    (pure a : Synthesis F α).Proves b x ↔ a = b ∧ x = [] := by
  show some (a, ([] : List F)) = some (b, x) ↔ _
  rw [Option.some_inj, Prod.mk.injEq]
  exact and_congr_right fun _ => eq_comm

/-- What a program in sequence yields goes through something its first part yields. -/
theorem yields_bind [Mul F] {m : Synthesis F α} {f : α → Synthesis F β} {b : β} {x rest : List F} :
    (m >>= f).Yields x b rest ↔ ∃ a x', m.Yields x a x' ∧ (f a).Yields x' b rest := by
  rw [bind_eq]
  induction m generalizing x with
  | done result =>
      constructor
      · exact fun h => ⟨result, x, ⟨rfl, rfl⟩, h⟩
      · rintro ⟨a, x', ⟨rfl, rfl⟩, h⟩
        exact h
  | input value next ih =>
      constructor
      · rintro ⟨v, x', hx, h⟩
        obtain ⟨a, y, hnext, hf⟩ := (ih v).mp h
        exact ⟨a, y, ⟨v, x', hx, hnext⟩, hf⟩
      · rintro ⟨a, y, ⟨v, x', hx, hnext⟩, hf⟩
        exact ⟨v, x', hx, (ih v).mpr ⟨a, y, hnext, hf⟩⟩
  | witness value next ih =>
      constructor
      · rintro ⟨v, h⟩
        obtain ⟨a, y, hnext, hf⟩ := (ih v).mp h
        exact ⟨a, y, ⟨v, hnext⟩, hf⟩
      · rintro ⟨a, y, ⟨v, hnext⟩, hf⟩
        exact ⟨v, (ih v).mpr ⟨a, y, hnext, hf⟩⟩
  | enforce p q r next ih =>
      constructor
      · rintro ⟨hpq, h⟩
        obtain ⟨a, y, hnext, hf⟩ := ih.mp h
        exact ⟨a, y, ⟨hpq, hnext⟩, hf⟩
      · rintro ⟨a, y, ⟨hpq, hnext⟩, hf⟩
        exact ⟨hpq, ih.mpr ⟨a, y, hnext, hf⟩⟩
  | abort =>
      constructor
      · exact fun h => h.elim
      · rintro ⟨a, y, h, -⟩
        exact h.elim

/-- The prover's run of a program in sequence is the run of its first part and then of its second. -/
theorem proves_bind [Mul F] [DecidableEq F] {m : Synthesis F α} {f : α → Synthesis F β} {b : β} {x : List F} :
    (m >>= f).Proves b x ↔ ∃ a y z, m.Proves a y ∧ (f a).Proves b z ∧ x = y ++ z := by
  rw [bind_eq]
  unfold Proves
  induction m generalizing x with
  | done result =>
      constructor
      · exact fun h => ⟨result, [], x, rfl, h, rfl⟩
      · rintro ⟨a, y, z, hy, hz, rfl⟩
        cases hy
        exact hz
  | input value next ih =>
      cases value with
      | none =>
          constructor
          · exact fun h => (by cases h)
          · rintro ⟨a, y, z, hy, -⟩
            cases hy
      | some v =>
          show ((next v).bind f).prove.map _ = _ ↔ _
          constructor
          · intro h
            obtain ⟨p, hp, heq⟩ := Option.map_eq_some_iff.mp h
            cases heq
            obtain ⟨a, y, z, hy, hz, hx⟩ := (ih v).mp hp
            refine ⟨a, v :: y, z, ?_, hz, by rw [hx]; rfl⟩
            show (next v).prove.map _ = _
            rw [hy]
            rfl
          · rintro ⟨a, y, z, hy, hz, rfl⟩
            obtain ⟨p, hp, heq⟩ := Option.map_eq_some_iff.mp hy
            cases heq
            rw [(ih v).mpr ⟨p.1, p.2, z, hp, hz, rfl⟩]
            rfl
  | witness value next ih =>
      cases value with
      | none =>
          constructor
          · exact fun h => (by cases h)
          · rintro ⟨a, y, z, hy, -⟩
            cases hy
      | some v => exact ih v
  | enforce p q r next ih =>
      show (if p * q = r then (next.bind f).prove else none) = _ ↔ ∃ a y z, (if p * q = r then _ else none) = _ ∧ _
      by_cases hpq : p * q = r
      · simp only [if_pos hpq]
        exact ih
      · simp only [if_neg hpq]
        constructor
        · exact fun h => (by cases h)
        · rintro ⟨a, y, z, hy, -⟩
          cases hy
  | abort =>
      constructor
      · exact fun h => (by cases h)
      · rintro ⟨a, y, z, hy, -⟩
        cases hy

/-- A result that is dropped changes nothing. -/
theorem yields_then_pure [Mul F] {m : Synthesis F Unit} {x rest : List F} {u : Unit} :
    (m >>= fun _ => pure ()).Yields x u rest ↔ m.Yields x u rest := by
  rw [yields_bind]
  constructor
  · rintro ⟨_, x', h, -, rfl⟩
    exact h
  · exact fun h => ⟨u, rest, h, rfl, rfl⟩

/-- In the prover's run too. -/
theorem proves_then_pure [Mul F] [DecidableEq F] {m : Synthesis F Unit} {x : List F} {u : Unit} :
    (m >>= fun _ => pure ()).Proves u x ↔ m.Proves u x := by
  rw [proves_bind]
  constructor
  · rintro ⟨_, y, z, h, hz, rfl⟩
    rw [(proves_pure.mp hz).2, List.append_nil]
    exact h
  · exact fun h => ⟨u, x, [], h, proves_pure.mpr ⟨rfl, rfl⟩, (List.append_nil x).symm⟩

/-! ## Single statements -/

section Statements

variable {f : F → Synthesis F β} {v : F} {o : Option F} {c : β} {x rest : List F} {p q r : F} {u : Unit}

/-- A public input is read. -/
theorem yields_newInput [Mul F] :
    (newInput o >>= f).Yields x c rest ↔ ∃ u x', x = u :: x' ∧ (f u).Yields x' c rest := Iff.rfl

/-- And is the next one. -/
theorem satisfies_newInput [Mul F] [DecidableEq F] {u : F} {w : List F} :
    (newInput o >>= f).satisfies (u :: x) w = (f u).satisfies x w := rfl

/-- A private value is the next private one. -/
theorem satisfies_newWitness [Mul F] [DecidableEq F] {u : F} {w : List F} :
    (newWitness o >>= f).satisfies x (u :: w) = (f u).satisfies x w := by
  show (Synthesis.witness o _).satisfies x (u :: w) = _
  rw [satisfies]
  rfl

/-- The prover sets a public input to its value. -/
theorem proves_newInput [Mul F] [DecidableEq F] :
    (newInput (some v) >>= f).Proves c x ↔ ∃ x', x = v :: x' ∧ (f v).Proves c x' := by
  show (f v).prove.map _ = _ ↔ _
  rw [Option.map_eq_some_iff]
  constructor
  · rintro ⟨p, hp, heq⟩
    cases heq
    exact ⟨p.2, rfl, hp⟩
  · rintro ⟨x', rfl, hf⟩
    exact ⟨(c, x'), hf, rfl⟩

/-- A private value may be any. -/
theorem yields_newWitness [Mul F] : (newWitness o >>= f).Yields x c rest ↔ ∃ u, (f u).Yields x c rest := Iff.rfl

/-- The prover sets it to its own. -/
theorem proves_newWitness [Mul F] [DecidableEq F] : (newWitness (some v) >>= f).Proves c x ↔ (f v).Proves c x := Iff.rfl

/-- A constraint is kept. -/
theorem yields_enforceConstraint [Mul F] : (enforceConstraint p q r).Yields x u rest ↔ p * q = r ∧ x = rest :=
  and_congr_right fun _ => and_iff_right rfl

/-- A constraint of the prover's run. -/
theorem proves_enforce [Mul F] [DecidableEq F] {m : Synthesis F β} :
    (Synthesis.enforce p q r m).Proves c x ↔ p * q = r ∧ m.Proves c x := by
  show (if p * q = r then m.prove else none) = some (c, x) ↔ _
  by_cases hpq : p * q = r
  · rw [if_pos hpq]
    exact ⟨fun h => ⟨hpq, h⟩, fun h => h.2⟩
  · rw [if_neg hpq]
    exact ⟨fun h => (by cases h), fun h => absurd h.1 hpq⟩

/-- And nothing but that. -/
theorem proves_enforceConstraint [Mul F] [DecidableEq F] :
    (enforceConstraint p q r).Proves u x ↔ p * q = r ∧ x = [] :=
  proves_enforce.trans (and_congr_right fun _ => proves_pure.trans (and_iff_right rfl))

end Statements

/-! ## Gadgets

What the standard gadgets of a constraint library enforce: equalities, inequalities, products and truth values. A truth
value is a field element that its constraints make 0 or 1.
-/

/-- A truth value as a field element. -/
def ofBool [Zero F] [One F] (b : Bool) : F := if b then 1 else 0

/-- **The gadgets of a constraint library, by what they enforce.** Each is a program that has the two readings stated with
it: any private values that satisfy its constraints, and the prover's own. -/
class Gadgets (F : Type) [Field F] [DecidableEq F] where
  /-- `a == b`. -/
  enforceEqual (a b : F) : Synthesis F Unit
  /-- `a != b`. -/
  enforceNotEqual (a b : F) : Synthesis F Unit
  /-- The product of two variables. -/
  mulVar (a b : F) : Synthesis F F
  /-- A private truth value. -/
  newBoolean (value : Bool) : Synthesis F F
  /-- Disjunction of truth values. -/
  orBoolean (a b : F) : Synthesis F F
  /-- The truth value is true. -/
  enforceTrue (a : F) : Synthesis F Unit
  enforceEqual_yields : ∀ {a b x u rest}, (enforceEqual a b).Yields x u rest ↔ a = b ∧ x = rest
  enforceEqual_proves : ∀ {a b u x}, (enforceEqual a b).Proves u x ↔ a = b ∧ x = []
  enforceNotEqual_yields : ∀ {a b x u rest}, (enforceNotEqual a b).Yields x u rest ↔ a ≠ b ∧ x = rest
  enforceNotEqual_proves : ∀ {a b u x}, (enforceNotEqual a b).Proves u x ↔ a ≠ b ∧ x = []
  mulVar_yields : ∀ {a b x v rest}, (mulVar a b).Yields x v rest ↔ v = a * b ∧ x = rest
  mulVar_proves : ∀ {a b v x}, (mulVar a b).Proves v x ↔ v = a * b ∧ x = []
  /-- The closure's value binds the prover only. -/
  newBoolean_yields : ∀ {t x v rest}, (newBoolean t).Yields x v rest ↔ (∃ s, v = ofBool s) ∧ x = rest
  newBoolean_proves : ∀ {t v x}, (newBoolean t).Proves v x ↔ v = ofBool t ∧ x = []
  orBoolean_yields : ∀ {s t x v rest},
    (orBoolean (ofBool s) (ofBool t)).Yields x v rest ↔ v = ofBool (s || t) ∧ x = rest
  orBoolean_proves : ∀ {s t v x}, (orBoolean (ofBool s) (ofBool t)).Proves v x ↔ v = ofBool (s || t) ∧ x = []
  enforceTrue_yields : ∀ {s x u rest}, (enforceTrue (ofBool s)).Yields x u rest ↔ s = true ∧ x = rest
  enforceTrue_proves : ∀ {s u x}, (enforceTrue (ofBool s)).Proves u x ↔ s = true ∧ x = []

section Rules

variable {f : F → Synthesis F β} {g : Unit → Synthesis F β} {c : β} {x rest : List F} {P : Prop} {v : F}

/-- A program that reads nothing and keeps a condition is that condition in front of what follows. -/
theorem yields_then [Mul F] {m : Synthesis F Unit} (h : ∀ {x u rest}, m.Yields x u rest ↔ P ∧ x = rest) :
    (m >>= g).Yields x c rest ↔ P ∧ (g ()).Yields x c rest := by
  rw [yields_bind]
  constructor
  · rintro ⟨_, x', hm, hg⟩
    obtain ⟨hP, rfl⟩ := h.mp hm
    exact ⟨hP, hg⟩
  · rintro ⟨hP, hg⟩
    exact ⟨(), x, h.mpr ⟨hP, rfl⟩, hg⟩

/-- In the prover's run too. -/
theorem proves_then [Mul F] [DecidableEq F] {m : Synthesis F Unit} (h : ∀ {u x}, m.Proves u x ↔ P ∧ x = []) :
    (m >>= g).Proves c x ↔ P ∧ (g ()).Proves c x := by
  rw [proves_bind]
  constructor
  · rintro ⟨_, y, z, hm, hg, rfl⟩
    obtain ⟨hP, rfl⟩ := h.mp hm
    exact ⟨hP, hg⟩
  · rintro ⟨hP, hg⟩
    exact ⟨(), [], x, h.mpr ⟨hP, rfl⟩, hg, rfl⟩

/-- One that comes to a value hands it on. -/
theorem yields_value [Mul F] {m : Synthesis F F} (h : ∀ {x w rest}, m.Yields x w rest ↔ w = v ∧ x = rest) :
    (m >>= f).Yields x c rest ↔ (f v).Yields x c rest := by
  rw [yields_bind]
  constructor
  · rintro ⟨w, x', hm, hf⟩
    obtain ⟨rfl, rfl⟩ := h.mp hm
    exact hf
  · exact fun hf => ⟨v, x, h.mpr ⟨rfl, rfl⟩, hf⟩

/-- In the prover's run too. -/
theorem proves_value [Mul F] [DecidableEq F] {m : Synthesis F F} (h : ∀ {w x}, m.Proves w x ↔ w = v ∧ x = []) :
    (m >>= f).Proves c x ↔ (f v).Proves c x := by
  rw [proves_bind]
  constructor
  · rintro ⟨w, y, z, hm, hf, rfl⟩
    obtain ⟨rfl, rfl⟩ := h.mp hm
    exact hf
  · exact fun hf => ⟨v, [], x, h.mpr ⟨rfl, rfl⟩, hf, rfl⟩

end Rules

namespace Gadgets

variable [Field F] [DecidableEq F] [Gadgets F] {f : F → Synthesis F β} {g : Unit → Synthesis F β} {a b : F} {s t : Bool}
  {c : β} {x rest : List F}

/-- Equal values go through. -/
theorem yields_enforceEqual : (enforceEqual a b >>= g).Yields x c rest ↔ a = b ∧ (g ()).Yields x c rest :=
  yields_then enforceEqual_yields

/-- In the prover's run too. -/
theorem proves_enforceEqual : (enforceEqual a b >>= g).Proves c x ↔ a = b ∧ (g ()).Proves c x :=
  proves_then enforceEqual_proves

/-- Different values go through. -/
theorem yields_enforceNotEqual : (enforceNotEqual a b >>= g).Yields x c rest ↔ a ≠ b ∧ (g ()).Yields x c rest :=
  yields_then enforceNotEqual_yields

/-- In the prover's run too. -/
theorem proves_enforceNotEqual : (enforceNotEqual a b >>= g).Proves c x ↔ a ≠ b ∧ (g ()).Proves c x :=
  proves_then enforceNotEqual_proves

/-- The product is the product. -/
theorem yields_mulVar : (mulVar a b >>= f).Yields x c rest ↔ (f (a * b)).Yields x c rest :=
  yields_value mulVar_yields

/-- In the prover's run too. -/
theorem proves_mulVar : (mulVar a b >>= f).Proves c x ↔ (f (a * b)).Proves c x :=
  proves_value mulVar_proves

/-- A truth value is 0 or 1, whatever its closure says. -/
theorem yields_newBoolean : (newBoolean t >>= f).Yields x c rest ↔ ∃ s : Bool, (f (ofBool s)).Yields x c rest := by
  rw [yields_bind]
  constructor
  · rintro ⟨v, x', hm, hf⟩
    obtain ⟨⟨s, rfl⟩, rfl⟩ := newBoolean_yields.mp hm
    exact ⟨s, hf⟩
  · rintro ⟨s, hf⟩
    exact ⟨ofBool s, x, newBoolean_yields.mpr ⟨⟨s, rfl⟩, rfl⟩, hf⟩

/-- In the prover's run it is the one of its closure. -/
theorem proves_newBoolean : (newBoolean t >>= f).Proves c x ↔ (f (ofBool t)).Proves c x :=
  proves_value newBoolean_proves

/-- On truth values this is disjunction. -/
theorem yields_orBoolean :
    (orBoolean (ofBool s) (ofBool t) >>= f).Yields x c rest ↔ (f (ofBool (s || t))).Yields x c rest :=
  yields_value orBoolean_yields

/-- In the prover's run too. -/
theorem proves_orBoolean :
    (orBoolean (ofBool s) (ofBool t) >>= f).Proves c x ↔ (f (ofBool (s || t))).Proves c x :=
  proves_value orBoolean_proves

/-- The truth value is true. -/
theorem yields_enforceTrue :
    (enforceTrue (ofBool s) >>= g).Yields x c rest ↔ s = true ∧ (g ()).Yields x c rest :=
  yields_then enforceTrue_yields

/-- In the prover's run too. -/
theorem proves_enforceTrue : (enforceTrue (ofBool s) >>= g).Proves c x ↔ s = true ∧ (g ()).Proves c x :=
  proves_then enforceTrue_proves

end Gadgets

/-! ## Gadgets from constraints -/

section Constraints

variable [Field F] {s t : Bool}

/-- A truth value satisfies the constraint of one. -/
theorem ofBool_mul (s : Bool) : (1 - ofBool s) * ofBool s = (0 : F) := by
  cases s
  · exact mul_zero _
  · show (1 - 1) * (1 : F) = 0
    rw [sub_self, zero_mul]

/-- And is the only kind of value that does. -/
theorem exists_ofBool {v : F} (h : (1 - v) * v = 0) : ∃ s, v = ofBool s := by
  rcases mul_eq_zero.mp h with h1 | h0
  · exact ⟨true, (sub_eq_zero.mp h1).symm⟩
  · exact ⟨false, h0⟩

/-- Disjunction is a product of negations. -/
theorem ofBool_or (s t : Bool) : (1 - ofBool s) * (1 - ofBool t) = (1 - ofBool (s || t) : F) := by
  cases s <;> cases t <;> simp [ofBool]

/-- True is 1. -/
theorem ofBool_eq_one : (1 - ofBool s) * 1 = (0 : F) ↔ s = true := by
  cases s <;> simp [ofBool]

/-- **Gadgets made of one constraint each**: an inequality by the inverse of the difference, a disjunction by the product of
the negations. -/
instance constraintGadgets [DecidableEq F] : Gadgets F where
  enforceEqual a b := enforceConstraint (a - b) 1 0
  enforceNotEqual a b := do
    let multiplier ← newWitness (if a - b = 0 then none else some (a - b)⁻¹)
    enforceConstraint (a - b) multiplier 1
  mulVar a b := do
    let product ← newWitness (some (a * b))
    enforceConstraint a b product
    pure product
  newBoolean value := do
    let bit ← newWitness (some (ofBool value))
    enforceConstraint (1 - bit) bit 0
    pure bit
  orBoolean a b := do
    let result ← newWitness (some (1 - (1 - a) * (1 - b)))
    enforceConstraint (1 - a) (1 - b) (1 - result)
    pure result
  enforceTrue a := enforceConstraint (1 - a) 1 0
  enforceEqual_yields := by
    intro a b x u rest
    rw [yields_enforceConstraint, mul_one, sub_eq_zero]
  enforceEqual_proves := by
    intro a b u x
    rw [proves_enforceConstraint, mul_one, sub_eq_zero]
  enforceNotEqual_yields := by
    intro a b x u rest
    rw [yields_newWitness]
    constructor
    · rintro ⟨m, h⟩
      obtain ⟨hm, hx⟩ := yields_enforceConstraint.mp h
      exact ⟨fun hab => by rw [hab, sub_self, zero_mul] at hm; exact zero_ne_one hm, hx⟩
    · rintro ⟨hab, hx⟩
      exact ⟨(a - b)⁻¹, yields_enforceConstraint.mpr ⟨mul_inv_cancel₀ (sub_ne_zero.mpr hab), hx⟩⟩
  enforceNotEqual_proves := by
    intro a b u x
    by_cases hab : a - b = 0
    · rw [if_pos hab]
      exact iff_of_false (fun h => by cases h) fun h => h.1 (sub_eq_zero.mp hab)
    · rw [if_neg hab, proves_newWitness, proves_enforceConstraint]
      exact and_congr_left fun _ => iff_of_true (mul_inv_cancel₀ hab) fun heq => hab (sub_eq_zero.mpr heq)
  mulVar_yields := by
    intro a b x v rest
    rw [yields_newWitness]
    constructor
    · rintro ⟨w, h⟩
      obtain ⟨hw, hpure⟩ := (yields_then yields_enforceConstraint).mp h
      obtain ⟨rfl, hx⟩ := yields_pure.mp hpure
      exact ⟨hw.symm, hx⟩
    · rintro ⟨rfl, hx⟩
      exact ⟨a * b, (yields_then yields_enforceConstraint).mpr ⟨rfl, yields_pure.mpr ⟨rfl, hx⟩⟩⟩
  mulVar_proves := by
    intro a b v x
    rw [proves_newWitness, proves_then proves_enforceConstraint, proves_pure, and_iff_right rfl, eq_comm]
  newBoolean_yields := by
    intro t x v rest
    rw [yields_newWitness]
    constructor
    · rintro ⟨w, h⟩
      obtain ⟨hw, hpure⟩ := (yields_then yields_enforceConstraint).mp h
      obtain ⟨rfl, hx⟩ := yields_pure.mp hpure
      exact ⟨exists_ofBool hw, hx⟩
    · rintro ⟨⟨s, rfl⟩, hx⟩
      exact ⟨ofBool s, (yields_then yields_enforceConstraint).mpr ⟨ofBool_mul s, yields_pure.mpr ⟨rfl, hx⟩⟩⟩
  newBoolean_proves := by
    intro t v x
    rw [proves_newWitness, proves_then proves_enforceConstraint, proves_pure, and_iff_right (ofBool_mul t), eq_comm]
  orBoolean_yields := by
    intro s t x v rest
    rw [yields_newWitness]
    constructor
    · rintro ⟨w, h⟩
      obtain ⟨hw, hpure⟩ := (yields_then yields_enforceConstraint).mp h
      obtain ⟨rfl, hx⟩ := yields_pure.mp hpure
      exact ⟨(sub_right_inj.mp ((ofBool_or s t).symm.trans hw)).symm, hx⟩
    · rintro ⟨rfl, hx⟩
      exact ⟨ofBool (s || t), (yields_then yields_enforceConstraint).mpr ⟨ofBool_or s t, yields_pure.mpr ⟨rfl, hx⟩⟩⟩
  orBoolean_proves := by
    intro s t v x
    rw [proves_newWitness, proves_then proves_enforceConstraint, proves_pure, sub_sub_cancel, and_iff_right rfl, ofBool_or,
      sub_sub_cancel, eq_comm]
  enforceTrue_yields := by
    intro s x u rest
    rw [yields_enforceConstraint, ofBool_eq_one]
  enforceTrue_proves := by
    intro s u x
    rw [proves_enforceConstraint, ofBool_eq_one]

end Constraints

end Synthesis

end WarmLogic.Lib
