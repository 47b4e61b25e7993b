/-
# WarmLogic.Lib.Chain — chains of a partial successor function, their cycles, and the walk that looks for one.

Every element has at most one successor, so from every element there is one chain. `Acyclic` says that no chain comes
back to where it started. Taking successors away keeps that (`Acyclic.mono`); giving an element another successor does
unless the chain of the new successor leads back to the element (`Acyclic.update`). `chase` is the usual check for the
latter: follow the chain and remember what was seen. In an acyclic graph it ends after as many rounds as there are
elements with a successor, and its answer is exact (`chase_spec`).
-/
import Mathlib.Logic.Relation
import Mathlib.Data.Finset.Card
import Mathlib.Data.List.Basic

namespace WarmLogic.Lib

variable {α : Type} {next next' : α → Option α}

/-- The chain of `a` comes to `b`, after one step or more. -/
def Leads (next : α → Option α) : α → α → Prop := Relation.TransGen fun a b => next a = some b

/-- No chain comes back. -/
def Acyclic (next : α → Option α) : Prop := ∀ a, ¬ Leads next a a

/-- One step, and then the rest of the chain. -/
theorem leads_iff {a b : α} : Leads next a b ↔ ∃ c, next a = some c ∧ (c = b ∨ Leads next c b) := by
  unfold Leads
  rw [Relation.TransGen.head'_iff]
  constructor
  · rintro ⟨c, hac, hcb⟩
    exact ⟨c, hac, (Relation.reflTransGen_iff_eq_or_transGen.mp hcb).imp_left Eq.symm⟩
  · rintro ⟨c, hac, hcb⟩
    exact ⟨c, hac, Relation.reflTransGen_iff_eq_or_transGen.mpr (hcb.imp_left Eq.symm)⟩

theorem not_leads_of_none {a b : α} (h : next a = none) : ¬ Leads next a b := by
  rw [leads_iff]
  rintro ⟨c, hac, -⟩
  rw [h] at hac
  cases hac

theorem acyclic_of_none (h : ∀ a, next a = none) : Acyclic next := fun a => not_leads_of_none (h a)

/-! ## Changing successors -/

/-- With fewer successors there are fewer chains. -/
theorem Acyclic.mono (h : Acyclic next) (hsub : ∀ a b, next' a = some b → next a = some b) : Acyclic next' :=
  fun a hcycle => h a (Relation.TransGen.mono hsub _ _ hcycle)

variable [DecidableEq α]

/-- What a chain of the changed graph does: it does not use the new step, or it comes by its start. -/
theorem leads_update {a b x y : α} (h : Leads (Function.update next a (some b)) x y) :
    Leads next x y ∨ (x = a ∨ Leads (Function.update next a (some b)) x a) ∧
      Leads (Function.update next a (some b)) a y := by
  induction h with
  | @single y hxy =>
      by_cases hx : x = a
      · subst hx
        exact .inr ⟨.inl rfl, .single hxy⟩
      · rw [Function.update_of_ne hx] at hxy
        exact .inl (.single hxy)
  | @tail y z hy hyz ih =>
      by_cases hya : y = a
      · subst hya
        exact .inr ⟨.inr hy, .single hyz⟩
      · rcases ih with hold | ⟨hxa, hay⟩
        · rw [Function.update_of_ne hya] at hyz
          exact .inl (.tail hold hyz)
        · exact .inr ⟨hxa, .tail hay hyz⟩

/-- Where the chain of `b` did not lead to `a`, it is not changed by the step from `a`. -/
theorem leads_of_leads_update {a b y : α} (hne : b ≠ a) (hnot : ¬ Leads next b a)
    (h : Leads (Function.update next a (some b)) b y) : Leads next b y := by
  induction h with
  | @single y hby =>
      rw [Function.update_of_ne hne] at hby
      exact .single hby
  | @tail y z _ hyz ih =>
      have hya : y ≠ a := by
        rintro rfl
        exact hnot ih
      rw [Function.update_of_ne hya] at hyz
      exact .tail ih hyz

/-- **A new successor whose chain does not lead back keeps the graph acyclic.** -/
theorem Acyclic.update (h : Acyclic next) {a b : α} (hne : b ≠ a) (hnot : ¬ Leads next b a) :
    Acyclic (Function.update next a (some b)) := by
  -- a cycle through `a` would come back to it from `b`
  have hthrough : ¬ Leads (Function.update next a (some b)) a a := by
    intro hcycle
    obtain ⟨c, hac, hca⟩ := leads_iff.mp hcycle
    rw [Function.update_self] at hac
    cases hac
    rcases hca with hba | hba
    · exact hne hba
    · exact hnot (leads_of_leads_update hne hnot hba)
  intro x hcycle
  rcases leads_update hcycle with hold | ⟨hxa, hax⟩
  · exact h x hold
  · rcases hxa with rfl | hxa
    · exact hthrough hcycle
    · exact hthrough (hax.trans hxa)

/-! ## The walk -/

/-- Follow the chain of `current` until it comes to `goal` or to something seen (`true`), or ends (`false`); `none`
when the rounds are used up. -/
def chase (next : α → Option α) (goal : α) : Nat → α → List α → Option Bool
  | 0, _, _ => none
  | rounds + 1, current, visited =>
      match next current with
      | none => some false
      | some following =>
          if following = goal ∨ following ∈ visited then some true
          else chase next goal rounds following (visited ++ [current])

/-- The walk from inside a chain; the elements seen all lead to the current one. -/
theorem chase_from (h : Acyclic next) {domain : Finset α} (hdomain : ∀ a, next a ≠ none → a ∈ domain) (goal : α)
    {rounds : Nat} {current : α} {visited : List α} (hnodup : visited.Nodup)
    (hseen : ∀ a ∈ visited, a ∈ domain ∧ Leads next a current) (hrounds : domain.card < rounds + visited.length) :
    ∃ found, chase next goal rounds current visited = some found ∧ (found = true ↔ Leads next current goal) := by
  induction rounds generalizing current visited with
  | zero =>
      -- more different elements were seen than there are
      have hsub : visited.toFinset ⊆ domain := fun a ha => (hseen a (List.mem_toFinset.mp ha)).1
      have hcard := Finset.card_le_card hsub
      rw [List.toFinset_card_of_nodup hnodup] at hcard
      omega
  | succ rounds ih =>
      unfold chase
      cases hnext : next current with
      | none =>
          refine ⟨false, rfl, ?_⟩
          exact iff_of_false Bool.false_ne_true (not_leads_of_none hnext)
      | some following =>
          dsimp only
          have hstep : Leads next current following := .single hnext
          have hleads : Leads next current goal ↔ following = goal ∨ Leads next following goal := by
            rw [leads_iff]
            simp [hnext]
          split
          · rename_i hstop
            rcases hstop with hgoal | hback
            · exact ⟨true, rfl, iff_of_true rfl (hleads.mpr (.inl hgoal))⟩
            · exact absurd (hstep.trans (hseen following hback).2) (h current)
          · rename_i hgo
            rw [not_or] at hgo
            have hnew : current ∉ visited := fun hmem => h current (hseen current hmem).2
            have hnodup' : (visited ++ [current]).Nodup := by
              refine List.nodup_append.mpr ⟨hnodup, List.nodup_singleton _, fun a ha b hb hab => ?_⟩
              rw [hab, List.mem_singleton.mp hb] at ha
              exact hnew ha
            have hseen' : ∀ a ∈ visited ++ [current], a ∈ domain ∧ Leads next a following := by
              intro a ha
              rcases List.mem_append.mp ha with ha | ha
              · exact ⟨(hseen a ha).1, (hseen a ha).2.trans hstep⟩
              · rw [List.mem_singleton.mp ha]
                exact ⟨hdomain current (by simp [hnext]), hstep⟩
            have hrounds' : domain.card < rounds + (visited ++ [current]).length := by
              rw [List.length_append, List.length_singleton]
              omega
            obtain ⟨found, hwalk, hfound⟩ := ih hnodup' hseen' hrounds'
            refine ⟨found, hwalk, hfound.trans ?_⟩
            rw [hleads]
            exact ⟨.inr, fun hor => hor.resolve_left hgo.1⟩

/-- **The walk ends and is exact**: with more rounds than elements that have a successor it says whether the chain
leads to the goal. -/
theorem chase_spec (h : Acyclic next) {domain : Finset α} (hdomain : ∀ a, next a ≠ none → a ∈ domain)
    (goal current : α) {rounds : Nat} (hrounds : domain.card < rounds) :
    ∃ found, chase next goal rounds current [] = some found ∧ (found = true ↔ Leads next current goal) :=
  chase_from h hdomain goal List.nodup_nil (fun a ha => absurd ha List.not_mem_nil) (by simpa using hrounds)

end WarmLogic.Lib
