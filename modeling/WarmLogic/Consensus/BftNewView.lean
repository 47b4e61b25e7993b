/-
# WarmLogic.Consensus.BftNewView — the NEW_VIEW message a leader builds, and what a failed view change leaves behind.

`complete_view_change` takes the best report over ALL the messages it has collected and puts the FIRST `quorum_size`
of them into the message as proofs. A report that came in behind the quorum can win without being among the proofs;
`newView_selfConsistent_iff` says when the message is nevertheless what its proofs say.

`apply_new_view` checks the number of consecutive view changes after it has installed the view, so that one error is
returned for a view that is in place. `viewChange_errors_leave_state_iff` is the exact condition.

`max_by_key` keeps the last of several equal maxima, so which report wins depends on the order of arrival, and the
winner is characterised by position (`LastHighest`). The proofs are the first messages of the same list, so the winner
is among them unless a later message raised the round or repeated the highest one with another block.

The errors of the first three checks leave the engine as it was. The fourth counts view changes and is made behind the
writes; an operator that retries a failed call is then already in the new view.
-/
import WarmLogic.Consensus.BftCommitSurvival

namespace WarmLogic.Consensus.Bft

open WarmLogic.Lib

variable {δ : Type} {verifyRaw : String → String → String → Bool}

/-! ## The message against its own proofs -/

/-- The message is what its proofs say: they are `quorum_size` of the stored messages, all for its view, and it
announces the highest report among them, or the old round and no block where none of them reports. -/
structure SelfConsistent (e : BFTEngine δ) (m : NewViewMessage) : Prop where
  count : m.viewChangeProofs.length = e.quorumSize
  collected : m.viewChangeProofs.Sublist e.viewChangeMessages
  forView : ∀ p ∈ m.viewChangeProofs, p.newView = m.view
  announced :
    (∃ p ∈ m.viewChangeProofs, p.report = some (m.preparedBlock, m.startingRound) ∧
      ∀ q ∈ m.viewChangeProofs, ∀ b r, q.report = some (b, r) → r ≤ m.startingRound) ∨
    ((∀ p ∈ m.viewChangeProofs, p.report = none) ∧ m.preparedBlock = none ∧ m.startingRound = e.round)

/-- The last of the reports with the highest round. -/
def LastHighest (reports : List (Option String × UInt64)) (p : Option String × UInt64) : Prop :=
  (∀ q ∈ reports, q.2 ≤ p.2) ∧ (reports.filter fun q => q.2 == p.2).getLast? = some p

/-- The reports of the first `quorum_size` messages: those that become proofs. -/
def BFTEngine.includedReports (e : BFTEngine δ) : List (Option String × UInt64) :=
  (e.collected.take e.quorumSize).filterMap (·.report)

/-- Nothing that was collected behind the quorum changes the outcome: nobody reports; or the last highest report
is made by an included message too; or no included message reports, and the winner is the old round without a block. -/
def BestIncluded (e : BFTEngine δ) : Prop :=
  e.reports = [] ∨
    ∃ p, LastHighest e.reports p ∧ (p ∈ e.includedReports ∨ (e.includedReports = [] ∧ p = (none, e.round)))

theorem LastHighest.mem {reports : List (Option String × UInt64)} {p : Option String × UInt64}
    (h : LastHighest reports p) : p ∈ reports :=
  (List.mem_filter.mp (List.mem_of_getLast? h.2)).1

/-- There is one such report. -/
theorem LastHighest.unique {reports : List (Option String × UInt64)} {p p' : Option String × UInt64}
    (h : LastHighest reports p) (h' : LastHighest reports p') : p = p' := by
  have hround : p.2 = p'.2 := UInt64.le_antisymm (h'.1 p h.mem) (h.1 p' h'.mem)
  have hlast := h.2
  rw [hround, h'.2] at hlast
  exact (Option.some.inj hlast).symm

theorem includedReports_subset (e : BFTEngine δ) : ∀ p ∈ e.includedReports, p ∈ e.reports := by
  intro p hp
  obtain ⟨m, hm, hreport⟩ := List.mem_filterMap.mp hp
  exact List.mem_filterMap.mpr ⟨m, List.mem_of_mem_take hm, hreport⟩

theorem includedReports_eq_nil {e : BFTEngine δ} :
    e.includedReports = [] ↔ ∀ m ∈ e.collected.take e.quorumSize, m.report = none :=
  List.filterMap_eq_nil_iff

/-- `complete_view_change` succeeds with a quorum only. -/
theorem quorum_of_completeViewChange_ok {e : BFTEngine δ} {leaderId signature : String} {m : NewViewMessage}
    (h : (e.completeViewChange leaderId signature).2 = .ok m) : e.quorumSize ≤ e.collected.length := by
  unfold BFTEngine.completeViewChange at h
  dsimp only at h
  split at h
  · cases h
  · split at h
    · cases h
    · rename_i hquorum
      have hquorum : e.hasViewChangeQuorum = true := by simpa using hquorum
      exact of_decide_eq_true hquorum

/-- With a quorum the proofs are as many as they should be. -/
theorem length_newViewMessage_proofs {e : BFTEngine δ} (h : e.quorumSize ≤ e.collected.length)
    (leaderId signature : String) : (e.newViewMessage leaderId signature).viewChangeProofs.length = e.quorumSize := by
  show (e.collected.take e.quorumSize).length = e.quorumSize
  rw [List.length_take, Nat.min_eq_left h]

/-- What the message announces, when somebody reports and when nobody does. -/
theorem newViewMessage_announced (e : BFTEngine δ) (leaderId signature : String) :
    (e.reports = [] ∧ (e.newViewMessage leaderId signature).preparedBlock = none ∧
        (e.newViewMessage leaderId signature).startingRound = e.round) ∨
      LastHighest e.reports ((e.newViewMessage leaderId signature).preparedBlock,
        (e.newViewMessage leaderId signature).startingRound) := by
  have hannounced : ((e.newViewMessage leaderId signature).preparedBlock,
      (e.newViewMessage leaderId signature).startingRound) =
      (BFTEngine.maxByRound e.reports).getD (none, e.round) := rfl
  cases hbest : BFTEngine.maxByRound e.reports with
  | none =>
      rw [hbest] at hannounced
      refine .inl ⟨?_, (Prod.mk.inj hannounced).1, (Prod.mk.inj hannounced).2⟩
      cases hreports : e.reports with
      | nil => rfl
      | cons p ps =>
          rw [hreports] at hbest
          cases hbest
  | some p =>
      rw [hbest] at hannounced
      rw [hannounced]
      exact .inr (maxByRound_spec hbest)

/-- The last field of `SelfConsistent`, over the reports. -/
theorem announced_iff (e : BFTEngine δ) (leaderId signature : String) :
    ((∃ p ∈ (e.newViewMessage leaderId signature).viewChangeProofs,
        p.report = some ((e.newViewMessage leaderId signature).preparedBlock,
          (e.newViewMessage leaderId signature).startingRound) ∧
        ∀ q ∈ (e.newViewMessage leaderId signature).viewChangeProofs, ∀ b r, q.report = some (b, r) →
          r ≤ (e.newViewMessage leaderId signature).startingRound) ∨
      ((∀ p ∈ (e.newViewMessage leaderId signature).viewChangeProofs, p.report = none) ∧
        (e.newViewMessage leaderId signature).preparedBlock = none ∧
        (e.newViewMessage leaderId signature).startingRound = e.round)) ↔ BestIncluded e := by
  have hincluded : ∀ p, p ∈ e.includedReports ↔
      ∃ m ∈ (e.newViewMessage leaderId signature).viewChangeProofs, m.report = some p := fun p => List.mem_filterMap
  constructor
  · intro h
    rcases newViewMessage_announced e leaderId signature with ⟨hnone, -⟩ | hbest
    · exact .inl hnone
    · refine .inr ⟨_, hbest, ?_⟩
      rcases h with ⟨p, hp, hreport, -⟩ | ⟨hnone, hblock, hround⟩
      · exact .inl ((hincluded _).mpr ⟨p, hp, hreport⟩)
      · rw [hblock, hround]
        exact .inr ⟨includedReports_eq_nil.mpr hnone, rfl⟩
  · rintro (hnone | ⟨p, hp, hcase⟩)
    · -- nobody reports, so no proof does
      rcases newViewMessage_announced e leaderId signature with ⟨-, hold⟩ | hbest
      · refine .inr ⟨includedReports_eq_nil.mp ?_, hold⟩
        exact List.eq_nil_iff_forall_not_mem.mpr fun p hp => by
          have hmem := includedReports_subset e p hp
          rw [hnone] at hmem
          cases hmem
      · have hmem := hbest.mem
        rw [hnone] at hmem
        cases hmem
    · have hbest : LastHighest e.reports ((e.newViewMessage leaderId signature).preparedBlock,
          (e.newViewMessage leaderId signature).startingRound) := by
        rcases newViewMessage_announced e leaderId signature with ⟨hnone, -⟩ | hbest
        · have hmem := hp.mem
          rw [hnone] at hmem
          cases hmem
        · exact hbest
      cases hp.unique hbest
      rcases hcase with hin | ⟨hnone, heq⟩
      · obtain ⟨m, hm, hreport⟩ := (hincluded _).mp hin
        refine .inl ⟨m, hm, hreport, fun q hq b r hqr => ?_⟩
        exact hbest.1 (b, r) (includedReports_subset e _ ((hincluded _).mpr ⟨q, hq, hqr⟩))
      · exact .inr ⟨includedReports_eq_nil.mp hnone, (Prod.mk.inj heq).1, (Prod.mk.inj heq).2⟩

/-- **When a NEW_VIEW message is what its proofs say**: exactly when nothing collected behind the quorum
decided it. -/
theorem newView_selfConsistent_iff (e : BFTEngine δ) (leaderId signature : String) (m : NewViewMessage)
    (h : (e.completeViewChange leaderId signature).2 = .ok m) : SelfConsistent e m ↔ BestIncluded e := by
  have hquorum := quorum_of_completeViewChange_ok h
  obtain rfl := completeViewChange_ok h
  rw [← announced_iff e leaderId signature]
  constructor
  · exact fun hs => hs.announced
  · intro hannounced
    refine ⟨length_newViewMessage_proofs hquorum leaderId signature, ?_, ?_, hannounced⟩
    · exact (List.take_sublist _ _).trans List.filter_sublist
    · intro p hp
      exact beq_iff_eq.mp (List.mem_filter.mp (List.mem_of_mem_take hp)).2

/-- A VIEW_CHANGE message for view 1 that reports `round`. -/
def reporting (senderId block : String) (round timestampMs : UInt64) : ViewChangeMessage :=
  { newView := 1, senderId := senderId, lastPreparedRound := some round, lastPreparedBlock := some block,
    signature := "sig_" ++ senderId, timestampMs := timestampMs }

/-- The engine of three validators and quorum two that has processed the messages. -/
def trioAfter (msgs : List ViewChangeMessage) : BFTEngine Unit :=
  msgs.foldl (fun e msg => (e.processViewChange (fun _ _ _ => true) msg "pk").1)
    (BFTEngine.withValidators 2 ["a", "b", "c"])

/-- The third message repeats a round below the best of the first two. -/
theorem newView_selfConsistent_iff_best_in_front :
    let e := trioAfter [reporting "a" "block_x" 5 100, reporting "b" "block_y" 3 200, reporting "c" "block_z" 4 300]
    ∃ m, (e.completeViewChange "b" "sig").2 = .ok m ∧ SelfConsistent e m := by
  intro e
  have hok : (e.completeViewChange "b" "sig").2 = .ok (e.newViewMessage "b" "sig") := by decide +kernel
  refine ⟨_, hok, (newView_selfConsistent_iff e "b" "sig" _ hok).mpr (.inr ⟨(some "block_x", 5), ⟨?_, ?_⟩, .inl ?_⟩)⟩
  · decide +kernel
  · decide +kernel
  · decide +kernel

/-- Three messages for a quorum of two, the last with the highest report. -/
def lateReport : BFTEngine Unit :=
  trioAfter [reporting "a" "block_x" 5 100, reporting "b" "block_y" 3 200, reporting "c" "block_z" 9 300]

/-- The message announces the third report without a proof of it. -/
theorem newView_announces_unproven_report : ¬ ∀ (e : BFTEngine Unit) (leaderId signature : String) (m : NewViewMessage),
    (e.completeViewChange leaderId signature).2 = .ok m → SelfConsistent e m := by
  intro hall
  have hok : (lateReport.completeViewChange "b" "sig").2 = .ok (lateReport.newViewMessage "b" "sig") := by
    decide +kernel
  have hproofs : ∀ p ∈ (lateReport.newViewMessage "b" "sig").viewChangeProofs, p.report ≠
      some ((lateReport.newViewMessage "b" "sig").preparedBlock, (lateReport.newViewMessage "b" "sig").startingRound) := by
    decide +kernel
  have hblock : (lateReport.newViewMessage "b" "sig").preparedBlock ≠ none := by decide +kernel
  rcases (hall lateReport "b" "sig" _ hok).announced with ⟨p, hp, hreport, -⟩ | ⟨-, hnone, -⟩
  · exact hproofs p hp hreport
  · exact hblock hnone

/-! ## What an error leaves -/

/-- The fields a view change rewrites are as they were. -/
structure Untouched (e e' : BFTEngine δ) : Prop where
  view : e'.view = e.view
  leaderId : e'.leaderId = e.leaderId
  round : e'.round = e.round
  currentProposal : e'.currentProposal = e.currentProposal
  votes : e'.votes = e.votes
  anonymousVotes : e'.anonymousVotes = e.anonymousVotes
  nullifiers : e'.nullifiers = e.nullifiers
  viewChangeMessages : e'.viewChangeMessages = e.viewChangeMessages

theorem Untouched.refl (e : BFTEngine δ) : Untouched e e := ⟨rfl, rfl, rfl, rfl, rfl, rfl, rfl, rfl⟩

/-- An error comes with the fields as they were. -/
def ErrorLeavesState {α : Type} (e : BFTEngine δ) (result : BFTEngine δ × Except BftError α) : Prop :=
  ∀ err, result.2 = .error err → Untouched e result.1

/-- The three checks `apply_new_view` makes before it writes. -/
structure PassesChecks (e : BFTEngine δ) (msg : NewViewMessage) : Prop where
  ahead : e.view < msg.view
  leader : e.getLeaderForView msg.view = some msg.leaderId
  proofs : e.quorumSize ≤ msg.viewChangeProofs.length

/-- The count the fourth check finds, behind the writes. -/
def BFTEngine.exhausted (e : BFTEngine δ) : Prop := maxConsecutiveViewChanges < e.consecutiveViewChanges + 1

instance (e : BFTEngine δ) : Decidable e.exhausted :=
  inferInstanceAs (Decidable (maxConsecutiveViewChanges < e.consecutiveViewChanges + 1))

/-- A message that fails a check is refused, and nothing is written. -/
theorem applyNewView_refused {e : BFTEngine δ} {msg : NewViewMessage} (h : ¬ PassesChecks e msg) :
    ∃ err, e.applyNewView msg = (e, .error err) := by
  unfold BFTEngine.applyNewView
  split
  · exact ⟨_, rfl⟩
  · rename_i hview
    split
    · exact ⟨_, rfl⟩
    · rename_i hleader
      split
      · exact ⟨_, rfl⟩
      · rename_i hproofs
        exact absurd ⟨UInt64.not_le.mp hview, not_not.mp hleader, Nat.le_of_not_lt hproofs⟩ h

/-- A message that passes is installed, and the count decides between success and an error. -/
theorem applyNewView_passed {e : BFTEngine δ} {msg : NewViewMessage} (h : PassesChecks e msg) :
    e.applyNewView msg =
      if e.exhausted then (e.installed msg .failed, .error .tooManyConsecutiveViewChanges)
      else (e.installed msg .completed, .ok ()) := by
  unfold BFTEngine.applyNewView
  rw [if_neg (UInt64.not_le.mpr h.ahead), if_neg (not_not.mpr h.leader), if_neg (Nat.not_lt.mpr h.proofs)]
  rfl

/-- **When `apply_new_view` fails without a trace**: unless the message passes the checks and the count is
exhausted. -/
theorem errorLeavesState_applyNewView (e : BFTEngine δ) (msg : NewViewMessage) :
    ErrorLeavesState e (e.applyNewView msg) ↔ ¬ (PassesChecks e msg ∧ e.exhausted) := by
  by_cases hpass : PassesChecks e msg
  · rw [applyNewView_passed hpass]
    by_cases hex : e.exhausted
    · rw [if_pos hex]
      refine ⟨fun hleaves => ?_, fun hnot => absurd ⟨hpass, hex⟩ hnot⟩
      -- the view has moved
      have hview : msg.view = e.view := (hleaves _ rfl).view
      have hahead := hpass.ahead
      rw [hview] at hahead
      exact absurd hahead (UInt64.lt_irrefl _)
    · rw [if_neg hex]
      refine ⟨fun _ hboth => hex hboth.2, fun _ err herr => ?_⟩
      cases herr
  · obtain ⟨err, heq⟩ := applyNewView_refused hpass
    rw [heq]
    exact ⟨fun _ hboth => hpass hboth.1, fun _ _ _ => Untouched.refl e⟩

/-- What `complete_view_change` asks of the engine before it applies its own message, which then passes. -/
structure Completes (e : BFTEngine δ) (leaderId : String) : Prop where
  ahead : e.view < e.view + 1
  leader : e.getLeaderForView (e.view + 1) = some leaderId
  quorum : e.hasViewChangeQuorum = true

theorem Completes.passesChecks {e : BFTEngine δ} {leaderId : String} (h : Completes e leaderId) (signature : String) :
    PassesChecks e (e.newViewMessage leaderId signature) := by
  have hquorum : e.quorumSize ≤ e.collected.length := of_decide_eq_true h.quorum
  exact ⟨h.ahead, h.leader, (length_newViewMessage_proofs hquorum leaderId signature).ge⟩

/-- `complete_view_change` fails with the engine as it is, or hands on what `apply_new_view` makes of its message. -/
theorem completeViewChange_split (e : BFTEngine δ) (leaderId signature : String) :
    (¬ Completes e leaderId ∧ ∃ err, e.completeViewChange leaderId signature = (e, .error err)) ∨
      (Completes e leaderId ∧
        e.completeViewChange leaderId signature =
          if e.exhausted then
            (e.installed (e.newViewMessage leaderId signature) .failed, .error .tooManyConsecutiveViewChanges)
          else
            (e.installed (e.newViewMessage leaderId signature) .completed,
              .ok (e.newViewMessage leaderId signature))) := by
  -- behind the leader and the quorum stands a call of `apply_new_view`
  have hcall (hleader : e.getLeaderForView (e.view + 1) = some leaderId) (hquorum : e.hasViewChangeQuorum = true) :
      e.completeViewChange leaderId signature =
        ((e.applyNewView (e.newViewMessage leaderId signature)).1,
          (e.applyNewView (e.newViewMessage leaderId signature)).2.map fun _ => e.newViewMessage leaderId signature) := by
    unfold BFTEngine.completeViewChange
    dsimp only
    rw [if_neg (not_not.mpr hleader), hquorum]
    cases hresult : e.applyNewView (e.newViewMessage leaderId signature) with
    | mk e' answer =>
        erw [hresult]
        cases answer with
        | ok _ => rfl
        | error err => rfl
  by_cases hleader : e.getLeaderForView (e.view + 1) = some leaderId
  · by_cases hquorum : e.hasViewChangeQuorum = true
    · rw [hcall hleader hquorum]
      by_cases hahead : e.view < e.view + 1
      · have hcomp : Completes e leaderId := ⟨hahead, hleader, hquorum⟩
        refine .inr ⟨hcomp, ?_⟩
        rw [applyNewView_passed (hcomp.passesChecks signature)]
        by_cases hex : e.exhausted
        · rw [if_pos hex, if_pos hex]
          rfl
        · rw [if_neg hex, if_neg hex]
          rfl
      · have hrefused : ¬ PassesChecks e (e.newViewMessage leaderId signature) := fun hpass => hahead hpass.ahead
        obtain ⟨err, heq⟩ := applyNewView_refused hrefused
        rw [heq]
        exact .inl ⟨fun hcomp => hahead hcomp.ahead, err, rfl⟩
    · refine .inl ⟨fun hcomp => hquorum hcomp.quorum, .insufficientViewChangeQuorum, ?_⟩
      unfold BFTEngine.completeViewChange
      dsimp only
      rw [if_neg (not_not.mpr hleader), Bool.eq_false_iff.mpr hquorum]
      rfl
  · refine .inl ⟨fun hcomp => hleader hcomp.leader, .invalidLeader (e.getLeaderForView (e.view + 1)) leaderId, ?_⟩
    unfold BFTEngine.completeViewChange
    dsimp only
    rw [if_pos hleader]

/-- **When `complete_view_change` fails without a trace**: unless it gets as far as its message and the count is
exhausted. -/
theorem errorLeavesState_completeViewChange (e : BFTEngine δ) (leaderId signature : String) :
    ErrorLeavesState e (e.completeViewChange leaderId signature) ↔ ¬ (Completes e leaderId ∧ e.exhausted) := by
  rcases completeViewChange_split e leaderId signature with ⟨hnot, err, heq⟩ | ⟨hcomp, heq⟩
  · rw [heq]
    exact ⟨fun _ hboth => hnot hboth.1, fun _ _ _ => Untouched.refl e⟩
  · rw [heq]
    by_cases hex : e.exhausted
    · rw [if_pos hex]
      refine ⟨fun hleaves => ?_, fun hnot => absurd ⟨hcomp, hex⟩ hnot⟩
      have hview : e.view + 1 = e.view := (hleaves _ rfl).view
      have hahead := hcomp.ahead
      rw [hview] at hahead
      exact absurd hahead (UInt64.lt_irrefl _)
    · rw [if_neg hex]
      refine ⟨fun _ hboth => hex hboth.2, fun _ err herr => ?_⟩
      cases herr

/-- **Which errors of a view change leave the engine alone**: all but those of an exhausted count that follows the
other checks, in `apply_new_view` and in `complete_view_change`. -/
theorem viewChange_errors_leave_state_iff (e : BFTEngine δ) :
    (∀ msg, ErrorLeavesState e (e.applyNewView msg) ↔ ¬ (PassesChecks e msg ∧ e.exhausted)) ∧
      ∀ leaderId signature,
        ErrorLeavesState e (e.completeViewChange leaderId signature) ↔ ¬ (Completes e leaderId ∧ e.exhausted) :=
  ⟨errorLeavesState_applyNewView e, errorLeavesState_completeViewChange e⟩

/-- The NEW_VIEW message of the only validator for `view`. -/
def soloNewView (view : UInt64) : NewViewMessage :=
  { view := view, leaderId := "a", viewChangeProofs := [reporting "a" "block" 1 100], preparedBlock := some "block",
    startingRound := 1, signature := "sig" }

/-- An engine of one validator that has entered view after view without a commit. -/
def soloAfter (views : List UInt64) : BFTEngine Unit :=
  views.foldl (fun e view => (e.applyNewView (soloNewView view)).1) (BFTEngine.withValidators 1 ["a"])

/-- The eleventh view is refused and entered. -/
theorem refused_new_view_is_installed : ¬ ∀ e : BFTEngine Unit,
    (∀ msg, ErrorLeavesState e (e.applyNewView msg)) ∧
      ∀ leaderId signature, ErrorLeavesState e (e.completeViewChange leaderId signature) := by
  intro hall
  have herr : ((soloAfter [1, 2, 3, 4, 5, 6, 7, 8, 9, 10]).applyNewView (soloNewView 11)).2 =
      .error .tooManyConsecutiveViewChanges := by decide +kernel
  have hview := ((hall _).1 _ _ herr).view
  exact absurd hview (by decide +kernel)

end WarmLogic.Consensus.Bft
