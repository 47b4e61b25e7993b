/-
# WarmLogic.Consensus.BftBudget — the count of view changes against the views that were installed.

`consecutive_view_changes` is meant to count the views a node has entered since its last commit, and the status
`Failed` to say that there were more than ten of them, until somebody intervenes. Two functions add to the counter
and three assign the status:

  * a timeout that fires adds one for the attempt, and the view that follows adds one again;
  * `trigger_view_change` and a stored VIEW_CHANGE message set the status to `Pending`, over `Failed`;
  * the counter of 32 bits wraps.

`counted_step_iff` says that these calls, and no others, part the counter and the status from the history, and
`viewChange_budget_of_run` is the law for the runs without them.

The calls are sorted by what they do to counter and status (`Effect`): nothing, a mark as pending, a backoff, an
installed view, or a reset. For each kind the law is kept or not depending on the engine before the call alone, which
gives the guard of a run and the equivalence for one step; the invariant of a run is then the law itself.
-/
import WarmLogic.Consensus.BftLeader

namespace WarmLogic.Consensus.Bft

open WarmLogic.Lib

variable {δ : Type} {verifyRaw : String → String → String → Bool}

/-! ## The history of the installed views -/

/-- The calls that clear the counter. -/
def EngineOp.clears : EngineOp δ → Bool
  | .call (.round (.recordCommit _ _)) => true
  | .resetViewChangeCounter => true
  | _ => false

/-- The engine, the views it has entered since the counter was last cleared, and how often that happened. -/
structure Budget (δ : Type) where
  engine : BFTEngine δ
  installs : Nat
  clears : Nat

/-- One call, with the history kept beside it. -/
def Budget.step (verifyRaw : String → String → String → Bool) (op : EngineOp δ) (s : Budget δ) : Budget δ :=
  let engine := op.run verifyRaw s.engine
  { engine := engine
    installs := if op.clears then 0 else if engine.view ≠ s.engine.view then s.installs + 1 else s.installs
    clears := if op.clears then s.clears + 1 else s.clears }

/-- An engine from either constructor, with its history. -/
def budgeted (verifyRaw : String → String → String → Bool) : System (Budget δ) (EngineOp δ) where
  init s := ((∃ q, s.engine = BFTEngine.new q) ∨ ∃ q vs, s.engine = BFTEngine.withValidators q vs) ∧
    s.installs = 0 ∧ s.clears = 0
  step op s := some (s.step verifyRaw op)

/-- **The law**: the counter is the number of installed views, and `Failed` says that there are more than
`MAX_CONSECUTIVE_VIEW_CHANGES` of them. An installed view adds one to both sides, and the status is set by comparing
the counter with the maximum; a reset clears both sides together. -/
structure Counted (s : Budget δ) : Prop where
  counter : s.engine.consecutiveViewChanges.toNat = s.installs
  failed : s.engine.viewChangeStatus = .failed ↔ maxConsecutiveViewChanges.toNat < s.installs

/-! ## What a call does to the counter and the status -/

/-- What a call does to the counter and the status. -/
inductive Effect where
  | nothing
  | pending
  | backoff
  | install
  | clear
  deriving DecidableEq

instance (e : BFTEngine δ) (msg : ViewChangeMessage) (pk : String) : Decidable (Collects verifyRaw e msg pk) :=
  decidable_of_iff
    (e.view < msg.newView ∧ e.lastViewChangeTimestamp ≤ msg.timestampMs ∧
      (∀ m ∈ e.viewChangeMessages, ¬ (m.senderId = msg.senderId ∧ m.newView = msg.newView)) ∧
      e.viewChangeMessages.length < maxVotesPerRound ∧
      verifyRaw pk (toString msg.newView ++ ":" ++ msg.senderId) msg.signature = true)
    ⟨fun h => ⟨h.1, h.2.1, h.2.2.1, h.2.2.2.1, h.2.2.2.2⟩, fun h => ⟨h.1, h.2, h.3, h.4, h.5⟩⟩

/-- Which of the five a call is, in the state it meets. -/
def EngineOp.effect (verifyRaw : String → String → String → Bool) (e : BFTEngine δ) : EngineOp δ → Effect
  | .call (.round (.recordCommit _ _)) => .clear
  | .resetViewChangeCounter => .clear
  | .call (.triggerViewChange _ _ _) => .pending
  | .call (.processViewChange msg pk) => if Collects verifyRaw e msg pk then .pending else .nothing
  | .call (.checkAndTriggerTimeout t _ _ _) => if e.checkTimeout t then .backoff else .nothing
  | op => if (op.installs e).isSome then .install else .nothing

/-- The counter, the status and the view after a call of each kind. -/
inductive EffectStep (e e' : BFTEngine δ) : Bool → Effect → Prop
  | nothing (hview : e'.view = e.view) (hcount : e'.consecutiveViewChanges = e.consecutiveViewChanges)
      (hstatus : e'.viewChangeStatus = e.viewChangeStatus) : EffectStep e e' false .nothing
  | pending (hview : e'.view = e.view) (hcount : e'.consecutiveViewChanges = e.consecutiveViewChanges)
      (hstatus : e'.viewChangeStatus = .pending) : EffectStep e e' false .pending
  | backoff (halive : e.viewChangeStatus ≠ .failed) (hview : e'.view = e.view)
      (hcount : e'.consecutiveViewChanges =
        if e.consecutiveViewChanges = 4294967295 then e.consecutiveViewChanges else e.consecutiveViewChanges + 1) :
      EffectStep e e' false .backoff
  | install (hview : e'.view ≠ e.view) (hcount : e'.consecutiveViewChanges = e.consecutiveViewChanges + 1)
      (hstatus : e'.viewChangeStatus = if e.exhausted then .failed else .completed) : EffectStep e e' false .install
  | clear (hcount : e'.consecutiveViewChanges = 0) (hstatus : e'.viewChangeStatus = .normal) : EffectStep e e' true .clear

/-- A vote path touches none of the three. -/
theorem budget_recorded {e₀ e e' : BFTEngine δ}
    (h : e.view = e₀.view ∧ e.consecutiveViewChanges = e₀.consecutiveViewChanges ∧
      e.viewChangeStatus = e₀.viewChangeStatus) (hr : Recorded e e') :
    e'.view = e₀.view ∧ e'.consecutiveViewChanges = e₀.consecutiveViewChanges ∧
      e'.viewChangeStatus = e₀.viewChangeStatus := by
  cases hr with
  | same => exact h
  | vote _ _ _ => exact h
  | anonymous _ _ _ => exact h

theorem effectStep_of_recorded {e e' : BFTEngine δ} (hr : Recorded e e') : EffectStep e e' false .nothing := by
  obtain ⟨hview, hcount, hstatus⟩ := budget_recorded ⟨rfl, rfl, rfl⟩ hr
  exact .nothing hview hcount hstatus

/-- A call that installs what it may install. -/
theorem ViewStep.effectStep {e e' : BFTEngine δ} {installs : Option NewViewMessage} (h : ViewStep e e' installs)
    (hquiet : installs = none → e' = e) :
    EffectStep e e' false (if installs.isSome then .install else .nothing) := by
  cases h with
  | same _ =>
      rw [hquiet rfl]
      exact .nothing rfl rfl rfl
  | installed msg hpass heq =>
      refine .install ?_ ?_ ?_
      · rw [heq]
        exact (UInt64.ne_of_lt hpass.ahead).symm
      · rw [heq]
        rfl
      · rw [heq]
        rfl

theorem not_failed_of_checkTimeout {e : BFTEngine δ} {t : UInt64} (h : e.checkTimeout t = true) :
    e.viewChangeStatus ≠ .failed := by
  intro hfailed
  unfold BFTEngine.checkTimeout at h
  rw [if_pos hfailed] at h
  cases h

theorem effectStep_run (e : BFTEngine δ) (op : EngineOp δ) :
    EffectStep e (op.run verifyRaw e) op.clears (op.effect verifyRaw e) := by
  cases op with
  | resetViewChangeCounter => exact .clear rfl rfl
  | resetTimeout => exact .nothing rfl rfl rfl
  | hasViewChangeQuorum => exact .nothing rfl rfl rfl
  | call op =>
      cases op with
      | triggerViewChange id sig now => exact .pending rfl rfl rfl
      | checkAndTriggerTimeout t id sig now =>
          show EffectStep e (e.checkAndTriggerTimeout t id sig now).1 false
            (if e.checkTimeout t then .backoff else .nothing)
          unfold BFTEngine.checkAndTriggerTimeout
          by_cases hfires : e.checkTimeout t = true
          · rw [if_pos hfires, if_pos hfires]
            exact .backoff (not_failed_of_checkTimeout hfires) rfl rfl
          · rw [if_neg hfires, if_neg hfires]
            exact .nothing rfl rfl rfl
      | updateActivity t => exact .nothing rfl rfl rfl
      | processViewChange msg pk =>
          show EffectStep e (e.processViewChange verifyRaw msg pk).1 false
            (if Collects verifyRaw e msg pk then .pending else .nothing)
          rcases processViewChange_cases verifyRaw e msg pk with ⟨hc, heq⟩ | ⟨hc, heq⟩
          · rw [heq, if_pos hc]
            exact .pending rfl rfl rfl
          · rw [heq, if_neg hc]
            exact .nothing rfl rfl rfl
      | completeViewChange id sig =>
          refine (viewStep_completeViewChange e id sig).effectStep fun hnone => ?_
          rcases completeViewChange_split e id sig with ⟨-, err, heq⟩ | ⟨hcomp, -⟩
          · rw [heq]
          · rw [if_pos hcomp] at hnone
            cases hnone
      | round op =>
          cases op with
          | startRound r => exact .nothing rfl rfl rfl
          | propose b d => exact .nothing rfl rfl rfl
          | castVote v => exact effectStep_of_recorded (castVote_recorded e v)
          | castVoteVerified v pk => exact effectStep_of_recorded (castVoteVerified_recorded verifyRaw e v pk)
          | castVotesBatch vs keys =>
              obtain ⟨hview, hcount, hstatus⟩ := castVotesBatch_induct (fun _ _ => budget_recorded) verifyRaw (e := e)
                ⟨rfl, rfl, rfl⟩ vs keys
              exact .nothing hview hcount hstatus
          | castAnonymousVoteVerified v => exact effectStep_of_recorded (castAnonymousVoteVerified_recorded e v)
          | applyNewView m =>
              refine (viewStep_applyNewView e m).effectStep fun hnone => ?_
              by_cases hpass : PassesChecks e m
              · rw [if_pos hpass] at hnone
                cases hnone
              · obtain ⟨err, heq⟩ := applyNewView_refused hpass
                rw [heq]
          | recordCommit r b => exact .clear rfl rfl

/-! ## The law, call by call -/

/-- Which calls the law survives. -/
def Effect.keepsLaw (e : BFTEngine δ) : Effect → Prop
  | .nothing => True
  | .pending => e.viewChangeStatus ≠ .failed
  | .backoff => False
  | .install => e.consecutiveViewChanges.toNat + 1 < 2 ^ 32
  | .clear => True

/-- The guard: no timer fires; nothing is triggered and no message is stored while the status is `Failed`; and no
view is installed at the last value of the counter. -/
def WithinBudget (verifyRaw : String → String → String → Bool) (op : EngineOp δ) (s : Budget δ) : Prop :=
  (op.effect verifyRaw s.engine).keepsLaw s.engine

/-- Below its last value the counter is exhausted when it is about to pass the maximum. -/
theorem exhausted_iff_of_room {e : BFTEngine δ} (hroom : e.consecutiveViewChanges.toNat + 1 < 2 ^ 32) :
    e.exhausted ↔ maxConsecutiveViewChanges.toNat < e.consecutiveViewChanges.toNat + 1 := by
  have hexact : (e.consecutiveViewChanges + 1).toNat = e.consecutiveViewChanges.toNat + 1 := by
    rw [UInt32.toNat_add]
    exact Nat.mod_eq_of_lt hroom
  unfold BFTEngine.exhausted
  rw [UInt32.lt_iff_toNat_lt, hexact]

/-- Where the law holds and the status is not `Failed` the counter is small. -/
theorem Counted.le_ten {s : Budget δ} (hs : Counted s) (halive : s.engine.viewChangeStatus ≠ .failed) :
    s.engine.consecutiveViewChanges.toNat ≤ 10 := by
  rw [hs.counter]
  exact Nat.le_of_not_lt fun hlt => halive (hs.failed.mpr hlt)

/-- **Exactly the guarded calls keep the law.** -/
theorem counted_step_iff {s : Budget δ} (hs : Counted s) (op : EngineOp δ) :
    Counted (s.step verifyRaw op) ↔ WithinBudget verifyRaw op s := by
  have hstep : EffectStep s.engine (op.run verifyRaw s.engine) op.clears (op.effect verifyRaw s.engine) :=
    effectStep_run s.engine op
  unfold WithinBudget Budget.step
  generalize op.effect verifyRaw s.engine = effect at hstep ⊢
  generalize op.run verifyRaw s.engine = e' at hstep ⊢
  generalize op.clears = clears at hstep ⊢
  obtain ⟨hcounter, hfailed⟩ := id hs
  cases hstep with
  | nothing hview hcount hstatus =>
      refine ⟨fun _ => trivial, fun _ => ⟨?_, ?_⟩⟩
      · simpa [hview, hcount] using hcounter
      · simpa [hview, hstatus] using hfailed
  | pending hview hcount hstatus =>
      constructor
      · rintro ⟨-, hfailed'⟩ hfail
        have hstill := hfailed'.mpr (by simpa [hview] using hfailed.mp hfail)
        rw [hstatus] at hstill
        cases hstill
      · intro hnot
        refine ⟨by simpa [hview, hcount] using hcounter, ?_⟩
        rw [hstatus]
        refine ⟨fun h => absurd h (by decide), fun hlt => absurd (hfailed.mpr ?_) hnot⟩
        simpa [hview] using hlt
  | backoff halive hview hcount =>
      refine ⟨fun hcounted => ?_, False.elim⟩
      -- the engine had not failed, so the counter was small, and it has moved past the history
      have hle := hs.le_ten halive
      have hsmall : s.engine.consecutiveViewChanges ≠ 4294967295 := by
        intro heq
        rw [heq] at hle
        exact absurd hle (by decide)
      have hsame := hcounted.counter
      rw [hcount, if_neg hsmall, UInt32.toNat_add, hcounter] at hsame
      simp only [hview, ne_eq, not_true_eq_false, if_false, Bool.false_eq_true] at hsame
      have : (1 : UInt32).toNat = 1 := rfl
      omega
  | install hview hcount hstatus =>
      have hbound := s.engine.consecutiveViewChanges.toNat_lt
      have hnext : (s.engine.consecutiveViewChanges + 1).toNat = (s.installs + 1) % 2 ^ 32 := by
        rw [UInt32.toNat_add, hcounter]
        rfl
      show _ ↔ s.engine.consecutiveViewChanges.toNat + 1 < 2 ^ 32
      constructor
      · intro hcounted
        have hsame := hcounted.counter
        rw [hcount, hnext] at hsame
        simp only [hview, ne_eq, not_false_eq_true, if_true, Bool.false_eq_true, if_false] at hsame
        omega
      · intro hroom
        have hexact : (s.engine.consecutiveViewChanges + 1).toNat = s.installs + 1 := by omega
        refine ⟨?_, ?_⟩
        · rw [hcount, hexact]
          simp [hview]
        · have hex := exhausted_iff_of_room hroom
          rw [hcounter] at hex
          rw [hstatus]
          simp only [hview, ne_eq, not_false_eq_true, if_true, Bool.false_eq_true, if_false]
          rw [← hex]
          by_cases hexhausted : s.engine.exhausted
          · rw [if_pos hexhausted]
            exact ⟨fun _ => hexhausted, fun _ => rfl⟩
          · rw [if_neg hexhausted]
            exact ⟨fun h => absurd h (by decide), fun h => absurd h hexhausted⟩
  | clear hcount hstatus =>
      refine ⟨fun _ => trivial, fun _ => ⟨?_, ?_⟩⟩
      · rw [hcount]
        rfl
      · rw [hstatus]
        refine ⟨fun h => absurd h (by decide), fun hlt => ?_⟩
        exact absurd hlt (Nat.not_lt_zero _)

/-- The law holds of every state of a guarded run. -/
theorem counted_of_run {h : List (Budget δ)} (hr : (budgeted verifyRaw).Run (WithinBudget verifyRaw) h) :
    ∀ s ∈ h, Counted s := by
  refine hr.forall_mem ?_ ?_
  · rintro s ⟨hengine, hinstalls, -⟩
    -- both constructors start with the counter at 0 and the status `Normal`
    obtain ⟨q, vs, heq⟩ : ∃ q vs, s.engine = BFTEngine.withValidators q vs := by
      rcases hengine with ⟨q, heq⟩ | hvs
      · exact ⟨q, [], heq⟩
      · exact hvs
    refine ⟨?_, ?_⟩
    · rw [heq, hinstalls]
      rfl
    · rw [heq, hinstalls]
      exact ⟨fun h => absurd (show ViewChangeStatus.normal = .failed from h) (by decide), fun h => absurd h (by decide)⟩
  · rintro s op s' hs hok ⟨⟩
    exact (counted_step_iff hs op).mpr hok

/-- Between two clearings the number of installed views only grows. -/
theorem installs_of_run {ok : EngineOp δ → Budget δ → Prop} {h : List (Budget δ)}
    (hr : (budgeted verifyRaw).Run ok h) :
    h.Pairwise fun later earlier =>
      earlier.clears ≤ later.clears ∧ (later.clears = earlier.clears → earlier.installs ≤ later.installs) := by
  refine hr.pairwise (R := fun later earlier =>
    earlier.clears ≤ later.clears ∧ (later.clears = earlier.clears → earlier.installs ≤ later.installs)) ?_ ?_
  · rintro a b c ⟨hab, hab'⟩ ⟨hbc, hbc'⟩
    refine ⟨hbc.trans hab, fun heq => ?_⟩
    have hb : b.clears = c.clears := by omega
    exact (hbc' hb).trans (hab' (by omega))
  · rintro op s s' - - ⟨⟩
    dsimp only [Budget.step]
    cases op.clears with
    | true => exact ⟨Nat.le_succ _, fun heq => absurd heq (by simp)⟩
    | false =>
        refine ⟨Nat.le_refl _, fun _ => ?_⟩
        rw [if_neg Bool.false_ne_true]
        split
        · exact Nat.le_succ _
        · exact Nat.le_refl _

/-- **The budget of view changes.** In every guarded run the counter is the number of views installed since it was
last cleared, the status is `Failed` exactly while there are more than ten of them, and stays so until the counter is
cleared. -/
theorem viewChange_budget_of_run (verifyRaw : String → String → String → Bool) (h : List (Budget δ))
    (hr : (budgeted verifyRaw).Run (WithinBudget verifyRaw) h) :
    (∀ s ∈ h, s.engine.consecutiveViewChanges.toNat = s.installs ∧
      (s.engine.viewChangeStatus = .failed ↔ 10 < s.installs)) ∧
    h.Pairwise fun later earlier => later.clears = earlier.clears → earlier.engine.viewChangeStatus = .failed →
      later.engine.viewChangeStatus = .failed := by
  have hcounted := counted_of_run hr
  refine ⟨fun s hs => ⟨(hcounted s hs).counter, (hcounted s hs).failed⟩, ?_⟩
  refine (installs_of_run hr).imp_of_mem fun hlater hearlier hgrows hclears hfailed => ?_
  exact (hcounted _ hlater).failed.mpr (lt_of_lt_of_le ((hcounted _ hearlier).failed.mp hfailed) (hgrows.2 hclears))

instance (e : BFTEngine δ) : ∀ effect : Effect, Decidable (effect.keepsLaw e)
  | .nothing => .isTrue trivial
  | .pending => inferInstanceAs (Decidable (e.viewChangeStatus ≠ .failed))
  | .backoff => .isFalse id
  | .install => inferInstanceAs (Decidable (e.consecutiveViewChanges.toNat + 1 < 2 ^ 32))
  | .clear => .isTrue trivial

instance (op : EngineOp δ) (s : Budget δ) : Decidable (WithinBudget verifyRaw op s) :=
  inferInstanceAs (Decidable ((op.effect verifyRaw s.engine).keepsLaw s.engine))

/-- A fresh engine of one validator with an empty history. -/
def freshBudget : Budget Unit := ⟨BFTEngine.withValidators 1 ["a"], 0, 0⟩

/-- The calls that enter the views, one by one. -/
def entering (views : List UInt64) : List (Budget Unit → EngineOp Unit) :=
  views.map fun view _ => .call (.round (.applyNewView (soloNewView view)))

/-- Eleven views without a commit: the status is `Failed`, with eleven on the counter. -/
theorem viewChange_budget_of_run_eleven_views : ∃ h : List (Budget Unit),
    (budgeted fun _ _ _ => true).Run (WithinBudget fun _ _ _ => true) h ∧
      (∃ s ∈ h, s.installs = 11 ∧ s.engine.viewChangeStatus = .failed) ∧
      (∀ s ∈ h, s.engine.consecutiveViewChanges.toNat = s.installs ∧
        (s.engine.viewChangeStatus = .failed ↔ 10 < s.installs)) ∧
      h.Pairwise fun later earlier => later.clears = earlier.clears → earlier.engine.viewChangeStatus = .failed →
        later.engine.viewChangeStatus = .failed := by
  obtain ⟨s, past, hr, hs⟩ := System.exists_run_of_play (M := budgeted (δ := Unit) fun _ _ _ => true)
    (WithinBudget fun _ _ _ => true) (P := fun s _ => s.installs = 11 ∧ s.engine.viewChangeStatus = .failed)
    (s := freshBudget) ⟨.inr ⟨1, ["a"], rfl⟩, rfl, rfl⟩ (entering [1, 2, 3, 4, 5, 6, 7, 8, 9, 10, 11])
    (by decide +kernel)
  exact ⟨s :: past, hr, ⟨s, List.mem_cons_self, hs⟩, viewChange_budget_of_run _ _ hr⟩

/-- The calls of the view change protocol. -/
def EngineOp.isViewChange : EngineOp δ → Bool
  | .call op => op.isViewChange
  | _ => false

/-- A trigger behind the eleventh view: the engine has failed and is `Pending`. -/
theorem triggered_view_change_hides_failure : ¬ ∀ h : List (Budget Unit),
    (budgeted fun _ _ _ => true).Run (fun op _ => op.isViewChange = true) h →
      (∀ s ∈ h, s.engine.consecutiveViewChanges.toNat = s.installs ∧
        (s.engine.viewChangeStatus = .failed ↔ 10 < s.installs)) ∧
      h.Pairwise fun later earlier => later.clears = earlier.clears → earlier.engine.viewChangeStatus = .failed →
        later.engine.viewChangeStatus = .failed := by
  intro hall
  obtain ⟨s, past, hr, hs⟩ := System.exists_run_of_play (M := budgeted (δ := Unit) fun _ _ _ => true)
    (fun op _ => op.isViewChange = true) (P := fun s _ => 10 < s.installs ∧ s.engine.viewChangeStatus ≠ .failed)
    (s := freshBudget) ⟨.inr ⟨1, ["a"], rfl⟩, rfl, rfl⟩
    (entering [1, 2, 3, 4, 5, 6, 7, 8, 9, 10, 11] ++ [fun _ => .call (.triggerViewChange "a" "sig" 100)])
    (by decide +kernel)
  exact hs.2 (((hall _ hr).1 s List.mem_cons_self).2.mpr hs.1)

end WarmLogic.Consensus.Bft
