/-
# WarmLogic.Consensus.BftLeader — the view and its leader along a run, and the view that has no next one.

Only `apply_new_view` writes the view, and it writes the leader of that view beside it, so the two agree in every
reachable state and the view never decreases. The view it accepts is any number above the current one that comes
with a long enough list of proofs, none of which is read: a single message can put the engine into view 2^64 - 1,
where the `view + 1` of three functions overflows. `view_and_leader_of_run` is about the runs without that message.

All public methods are in the machine here, those that only look included, because the result is about every call:
none but the two that install a view changes it, and both install the leader that goes with it. A view of 64 bits has
a last value, and the sums `view + 1` of `trigger_view_change`, `has_view_change_quorum` and `complete_view_change`
overflow in it; the guard says that nothing installs that view, and `hasNextView_step_iff` that nothing else leads
there.
-/
import WarmLogic.Consensus.BftNewView

namespace WarmLogic.Consensus.Bft

open WarmLogic.Lib

variable {δ : Type} {verifyRaw : String → String → String → Bool}

/-! ## Every public method -/

/-- The calls of `BftOp`, and the methods that only reset or look. -/
inductive EngineOp (δ : Type) where
  | call (op : BftOp δ)
  | resetViewChangeCounter
  | resetTimeout
  | hasViewChangeQuorum

/-- The engine after a call. -/
def EngineOp.run (verifyRaw : String → String → String → Bool) (e : BFTEngine δ) : EngineOp δ → BFTEngine δ
  | .call op => op.run verifyRaw e
  | .resetViewChangeCounter => e.resetViewChangeCounter
  | .resetTimeout => e.resetTimeout
  | .hasViewChangeQuorum => e

/-- The view has a next one: `view + 1` fits into 64 bits. -/
def HasNextView (e : BFTEngine δ) : Prop := e.view.toNat + 1 < 2 ^ 64

/-- The calls that evaluate `view + 1`: `process_view_change` only behind its check that the message is ahead. -/
def EngineOp.computesNextView (verifyRaw : String → String → String → Bool) (e : BFTEngine δ) : EngineOp δ → Prop
  | .call (.triggerViewChange _ _ _) => True
  | .call (.checkAndTriggerTimeout t _ _ _) => e.checkTimeout t = true
  | .call (.processViewChange msg pk) => ∃ b, (e.processViewChange verifyRaw msg pk).2 = .ok b
  | .call (.completeViewChange _ _) => True
  | .hasViewChangeQuorum => True
  | _ => False

/-- The call evaluates `view + 1` in the last view. -/
def EngineOp.overflows (verifyRaw : String → String → String → Bool) (e : BFTEngine δ) (op : EngineOp δ) : Prop :=
  op.computesNextView verifyRaw e ∧ ¬ HasNextView e

/-- An engine with validators, driven by any calls. -/
def ledEngine (verifyRaw : String → String → String → Bool) : System (BFTEngine δ) (EngineOp δ) where
  init e := ∃ q vs, vs ≠ [] ∧ e = BFTEngine.withValidators q vs
  step op e := some (op.run verifyRaw e)

/-! ## One call -/

instance (e : BFTEngine δ) (msg : NewViewMessage) : Decidable (PassesChecks e msg) :=
  decidable_of_iff (e.view < msg.view ∧ e.getLeaderForView msg.view = some msg.leaderId ∧
    e.quorumSize ≤ msg.viewChangeProofs.length) ⟨fun h => ⟨h.1, h.2.1, h.2.2⟩, fun h => ⟨h.1, h.2, h.3⟩⟩

instance (e : BFTEngine δ) (leaderId : String) : Decidable (Completes e leaderId) :=
  decidable_of_iff (e.view < e.view + 1 ∧ e.getLeaderForView (e.view + 1) = some leaderId ∧
    e.hasViewChangeQuorum = true) ⟨fun h => ⟨h.1, h.2.1, h.2.2⟩, fun h => ⟨h.1, h.2, h.3⟩⟩

/-- The NEW_VIEW message a call installs, if it installs one. -/
def EngineOp.installs (e : BFTEngine δ) : EngineOp δ → Option NewViewMessage
  | .call (.round (.applyNewView msg)) => if PassesChecks e msg then some msg else none
  | .call (.completeViewChange leaderId signature) =>
      if Completes e leaderId then some (e.newViewMessage leaderId signature) else none
  | _ => none

/-- The view, its leader and the validators it is chosen from are as they were. -/
structure SameView (e e' : BFTEngine δ) : Prop where
  view : e'.view = e.view
  leaderId : e'.leaderId = e.leaderId
  validators : e'.validators = e.validators

/-- What a call does to the view: nothing, or it installs a message that passed the checks. -/
inductive ViewStep (e e' : BFTEngine δ) : Option NewViewMessage → Prop
  | same (h : SameView e e') : ViewStep e e' none
  | installed (msg : NewViewMessage) (hpass : PassesChecks e msg)
      (heq : e' = e.installed msg (if e.exhausted then .failed else .completed)) : ViewStep e e' (some msg)

theorem SameView.refl (e : BFTEngine δ) : SameView e e := ⟨rfl, rfl, rfl⟩

/-- A vote path does not touch the view. -/
theorem SameView.recorded {e₀ e e' : BFTEngine δ} (h : SameView e₀ e) (hr : Recorded e e') : SameView e₀ e' := by
  cases hr with
  | same => exact h
  | vote _ _ _ => exact ⟨h.view, h.leaderId, h.validators⟩
  | anonymous _ _ _ => exact ⟨h.view, h.leaderId, h.validators⟩

theorem viewStep_applyNewView (e : BFTEngine δ) (msg : NewViewMessage) :
    ViewStep e (e.applyNewView msg).1 (if PassesChecks e msg then some msg else none) := by
  by_cases hpass : PassesChecks e msg
  · rw [applyNewView_passed hpass, if_pos hpass]
    refine .installed msg hpass ?_
    by_cases hex : e.exhausted
    · rw [if_pos hex, if_pos hex]
    · rw [if_neg hex, if_neg hex]
  · obtain ⟨err, heq⟩ := applyNewView_refused hpass
    rw [heq, if_neg hpass]
    exact .same (.refl e)

theorem viewStep_completeViewChange (e : BFTEngine δ) (leaderId signature : String) :
    ViewStep e (e.completeViewChange leaderId signature).1
      (if Completes e leaderId then some (e.newViewMessage leaderId signature) else none) := by
  rcases completeViewChange_split e leaderId signature with ⟨hnot, err, heq⟩ | ⟨hcomp, heq⟩
  · rw [heq, if_neg hnot]
    exact .same (.refl e)
  · rw [heq, if_pos hcomp]
    refine .installed _ (hcomp.passesChecks signature) ?_
    by_cases hex : e.exhausted
    · rw [if_pos hex, if_pos hex]
    · rw [if_neg hex, if_neg hex]

/-- **What one call does to the view.** -/
theorem viewStep_run (e : BFTEngine δ) (op : EngineOp δ) : ViewStep e (op.run verifyRaw e) (op.installs e) := by
  cases op with
  | resetViewChangeCounter => exact .same ⟨rfl, rfl, rfl⟩
  | resetTimeout => exact .same ⟨rfl, rfl, rfl⟩
  | hasViewChangeQuorum => exact .same (.refl e)
  | call op =>
      cases op with
      | triggerViewChange id sig now => exact .same ⟨rfl, rfl, rfl⟩
      | checkAndTriggerTimeout t id sig now =>
          refine .same ?_
          show SameView e (e.checkAndTriggerTimeout t id sig now).1
          unfold BFTEngine.checkAndTriggerTimeout
          split
          · exact ⟨rfl, rfl, rfl⟩
          · exact .refl e
      | updateActivity t => exact .same ⟨rfl, rfl, rfl⟩
      | processViewChange msg pk =>
          refine .same ?_
          show SameView e (e.processViewChange verifyRaw msg pk).1
          rcases processViewChange_cases verifyRaw e msg pk with ⟨-, heq⟩ | ⟨-, heq⟩
          · rw [heq]
            exact ⟨rfl, rfl, rfl⟩
          · rw [heq]
            exact .refl e
      | completeViewChange id sig => exact viewStep_completeViewChange e id sig
      | round op =>
          cases op with
          | startRound r => exact .same ⟨rfl, rfl, rfl⟩
          | propose b d => exact .same ⟨rfl, rfl, rfl⟩
          | castVote v => exact .same ((SameView.refl e).recorded (castVote_recorded e v))
          | castVoteVerified v pk => exact .same ((SameView.refl e).recorded (castVoteVerified_recorded verifyRaw e v pk))
          | castVotesBatch vs keys =>
              exact .same (castVotesBatch_induct (fun _ _ h hr => h.recorded hr) verifyRaw (SameView.refl e) vs keys)
          | castAnonymousVoteVerified v =>
              exact .same ((SameView.refl e).recorded (castAnonymousVoteVerified_recorded e v))
          | applyNewView m => exact viewStep_applyNewView e m
          | recordCommit r b => exact .same ⟨rfl, rfl, rfl⟩

theorem ViewStep.view_le {e e' : BFTEngine δ} {installs : Option NewViewMessage} (h : ViewStep e e' installs) :
    e.view ≤ e'.view := by
  cases h with
  | same h =>
      rw [h.view]
      exact UInt64.le_refl _
  | installed msg hpass heq =>
      rw [heq]
      exact UInt64.le_of_lt hpass.ahead

/-- The stored leader is the leader of the view. The constructor sets the leader of view 0, `apply_new_view` sets the
leader of the view it installs, and no other call touches view, leader or validators. -/
def LeaderOfView (e : BFTEngine δ) : Prop := e.leaderId = e.getLeaderForView e.view

theorem LeaderOfView.step {e e' : BFTEngine δ} {installs : Option NewViewMessage} (hl : LeaderOfView e)
    (h : ViewStep e e' installs) : LeaderOfView e' := by
  cases h with
  | same h =>
      unfold LeaderOfView BFTEngine.getLeaderForView at hl ⊢
      rw [h.view, h.leaderId, h.validators]
      exact hl
  | installed msg hpass heq =>
      rw [heq]
      exact hpass.leader.symm

/-- The first validator leads view 0. -/
theorem leaderOfView_withValidators (q : Nat) (vs : List String) :
    LeaderOfView (BFTEngine.withValidators q vs : BFTEngine δ) := by
  cases vs with
  | nil => rfl
  | cons v vs =>
      show some v = (v :: vs)[0 % (v :: vs).length]?
      rw [Nat.zero_mod]
      rfl

/-- The guard: no call installs the last view. -/
def InstallsNoLastView (op : EngineOp δ) (e : BFTEngine δ) : Prop :=
  ∀ msg ∈ op.installs e, msg.view.toNat + 1 < 2 ^ 64

/-- **A call leaves the engine below the last view exactly when it does not install that view.** -/
theorem hasNextView_step_iff {e : BFTEngine δ} (hnext : HasNextView e) (op : EngineOp δ) :
    HasNextView (op.run verifyRaw e) ↔ InstallsNoLastView op e := by
  have hstep : ViewStep e (op.run verifyRaw e) (op.installs e) := viewStep_run e op
  unfold InstallsNoLastView
  generalize op.installs e = installs at hstep ⊢
  generalize op.run verifyRaw e = e' at hstep ⊢
  cases hstep with
  | same h =>
      refine ⟨fun _ msg hmsg => (Option.not_mem_none msg hmsg).elim, fun _ => ?_⟩
      unfold HasNextView
      rw [h.view]
      exact hnext
  | installed msg hpass heq =>
      rw [heq]
      refine ⟨fun hbelow m hm => ?_, fun hall => hall msg rfl⟩
      cases hm
      exact hbelow

/-! ## Runs -/

/-- In every run, whatever it installs, the view never decreases and the stored leader is the one of the view. -/
theorem rising_and_led_of_run {ok : EngineOp δ → BFTEngine δ → Prop} {h : List (BFTEngine δ)}
    (hr : (ledEngine verifyRaw).Run ok h) :
    h.Pairwise (fun later earlier => earlier.view ≤ later.view) ∧ ∀ e ∈ h, LeaderOfView e := by
  refine ⟨hr.pairwise (R := fun later earlier => earlier.view ≤ later.view)
    (fun _ _ _ hab hbc => UInt64.le_trans hbc hab) ?_, hr.forall_mem ?_ ?_⟩
  · rintro op e e' - - ⟨⟩
    exact (viewStep_run e op).view_le
  · rintro e ⟨q, vs, -, rfl⟩
    exact leaderOfView_withValidators q vs
  · rintro e op e' hl - ⟨⟩
    exact hl.step (viewStep_run e op)

/-- **View and leader along a run.** The view never decreases, the stored leader is the one of the view, and in a run
that does not install the last view no call on any of its states overflows `view + 1`. Only a view above the current
one is installed, and its leader with it. -/
theorem view_and_leader_of_run (verifyRaw : String → String → String → Bool) (h : List (BFTEngine δ))
    (hr : (ledEngine verifyRaw).Run InstallsNoLastView h) :
    h.Pairwise (fun later earlier => earlier.view ≤ later.view) ∧ (∀ e ∈ h, e.leaderId = e.getLeaderForView e.view) ∧
      ∀ e ∈ h, ∀ op : EngineOp δ, ¬ op.overflows verifyRaw e := by
  obtain ⟨hrising, hled⟩ := rising_and_led_of_run hr
  refine ⟨hrising, hled, fun e he op hover => hover.2 ?_⟩
  refine hr.forall_mem (P := HasNextView) ?_ ?_ e he
  · rintro e ⟨q, vs, -, rfl⟩
    exact (by decide : (0 : UInt64).toNat + 1 < 2 ^ 64)
  · rintro e op e' hnext hok ⟨⟩
    exact (hasNextView_step_iff hnext op).mpr hok

instance (op : EngineOp δ) (e : BFTEngine δ) : Decidable (InstallsNoLastView op e) :=
  inferInstanceAs (Decidable (∀ msg ∈ op.installs e, msg.view.toNat + 1 < 2 ^ 64))

/-- A timeout of the only validator and the view it completes. -/
theorem view_and_leader_of_run_one_view_change : ∃ h : List (BFTEngine Unit),
    (ledEngine fun _ _ _ => true).Run InstallsNoLastView h ∧ (∃ e ∈ h, e.view = 1) ∧
      h.Pairwise (fun later earlier => earlier.view ≤ later.view) ∧
      (∀ e ∈ h, e.leaderId = e.getLeaderForView e.view) ∧
      ∀ e ∈ h, ∀ op : EngineOp Unit, ¬ op.overflows (fun _ _ _ => true) e := by
  obtain ⟨e, past, hr, hview⟩ := System.exists_run_of_play (M := ledEngine (δ := Unit) fun _ _ _ => true)
    InstallsNoLastView (P := fun e _ => e.view = 1) (s := BFTEngine.withValidators 1 ["a"])
    ⟨1, ["a"], by decide, rfl⟩
    [fun _ => .call (.triggerViewChange "a" "sig" 100), fun _ => .call (.completeViewChange "a" "sig"),
      fun _ => .hasViewChangeQuorum] (by decide +kernel)
  exact ⟨e :: past, hr, ⟨e, List.mem_cons_self, hview⟩, view_and_leader_of_run _ _ hr⟩

/-- One NEW_VIEW message of the right leader with an unread proof, and the next timeout overflows. -/
theorem last_view_overflows : ¬ ∀ h : List (BFTEngine Unit), (ledEngine fun _ _ _ => true).Run (fun _ _ => True) h →
    h.Pairwise (fun later earlier => earlier.view ≤ later.view) ∧ (∀ e ∈ h, e.leaderId = e.getLeaderForView e.view) ∧
      ∀ e ∈ h, ∀ op : EngineOp Unit, ¬ op.overflows (fun _ _ _ => true) e := by
  intro hall
  obtain ⟨e, past, hr, hview⟩ := System.exists_run_of_play (M := ledEngine (δ := Unit) fun _ _ _ => true)
    (fun _ _ => True) (P := fun e _ => e.view = 18446744073709551615) (s := BFTEngine.withValidators 1 ["a"])
    ⟨1, ["a"], by decide, rfl⟩
    [fun _ => .call (.round (.applyNewView (soloNewView 18446744073709551615)))] (by decide +kernel)
  refine (hall _ hr).2.2 e List.mem_cons_self (.call (.triggerViewChange "a" "sig" 100)) ⟨trivial, ?_⟩
  unfold HasNextView
  rw [hview]
  decide

end WarmLogic.Consensus.Bft
