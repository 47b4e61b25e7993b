/-
# WarmLogic.Consensus.BftViewChange — what a view change quorum and a NEW_VIEW certificate are worth.

Three properties of the view change of `consensus/bft.rs`, and the exact line at which each stops holding.

  * `has_view_change_quorum` counts MESSAGES. `process_view_change` stores one message of a sender and view;
    `trigger_view_change` appends without that check, so a node whose timer fires twice counts twice. The count is
    a count of nodes in every run in which a node triggers once a view (`quorumOfNodes_of_fresh_senders`).
  * `apply_new_view` counts the proofs of a NEW_VIEW message and reads none of them. `newView_genuine_iff` says
    which of the accepted messages carry a certificate.
  * `process_view_change` compares every message with the timestamp of the last one it stored, whoever sent it.
    So the order of delivery matters, and `viewChange_quorum_any_order_iff` says for which sets it does not.

The third part rests on one observation: in whatever order messages come, the ones with the greatest timestamp are
never refused for being old. So the order that loses most is the one that delivers these first, since every other
message is older than the watermark from then on; a set of messages makes a quorum in every order exactly if the
senders of its latest messages do, or if it needs none. Delivered in the order of their timestamps, all messages pass.

Nothing is assumed of the verification of signatures; that the messages of a set are signed is a condition on them.
-/
import WarmLogic.Consensus.BftVoteSet
import Mathlib.Data.Set.Finite.Basic
import Mathlib.Data.Finset.Max

namespace WarmLogic.Consensus.Bft

open WarmLogic.Lib

variable {δ : Type} {verifyRaw : String → String → String → Bool}

/-! ## A quorum of nodes -/

/-- The senders of the messages `has_view_change_quorum` counts. -/
def BFTEngine.collectedSenders (e : BFTEngine δ) : Finset String := (e.collected.map (·.senderId)).toFinset

/-- A quorum of messages for the next view is a quorum of senders. -/
def QuorumOfNodes (e : BFTEngine δ) : Prop :=
  e.hasViewChangeQuorum = true → e.quorumSize ≤ e.collectedSenders.card

/-- The guard: a node that triggers a view change has no message for the next view among the stored ones. -/
def FreshSender : BftOp δ → BFTEngine δ → Prop
  | .triggerViewChange id _ _, e => id ∉ e.collectedSenders
  | .checkAndTriggerTimeout t id _ _, e => e.checkTimeout t = true → id ∉ e.collectedSenders
  | _, _ => True

/-- A sender has at most one stored message for a view. `process_view_change` looks for an earlier one before it
stores; `trigger_view_change` does not, so there the guard asks for it; and a new view clears the messages. -/
def OncePerView (e : BFTEngine δ) : Prop :=
  (e.viewChangeMessages.map fun m => (m.senderId, m.newView)).Nodup

theorem mem_collectedSenders {e : BFTEngine δ} {id : String} :
    id ∈ e.collectedSenders ↔ ∃ m ∈ e.viewChangeMessages, m.newView = e.view + 1 ∧ m.senderId = id := by
  simp only [BFTEngine.collectedSenders, BFTEngine.collected, List.mem_toFinset, List.mem_map, List.mem_filter,
    beq_iff_eq, and_assoc]

/-- With one message a sender the messages for the next view are as many as their senders. -/
theorem OncePerView.card_collectedSenders {e : BFTEngine δ} (h : OncePerView e) :
    e.collectedSenders.card = e.collected.length := by
  have hpairs : (e.collected.map fun m => (m.senderId, m.newView)).Nodup :=
    h.sublist (List.filter_sublist.map _)
  have hids : (e.collected.map (·.senderId)).Nodup := by
    refine List.Nodup.map_on ?_ (List.Nodup.of_map _ hpairs)
    intro m hm m' hm' hid
    -- both are for the next view, so the pairs agree
    have hview : m.newView = m'.newView := by
      rw [beq_iff_eq.mp (List.mem_filter.mp hm).2, beq_iff_eq.mp (List.mem_filter.mp hm').2]
    exact List.inj_on_of_nodup_map hpairs hm hm' (Prod.ext hid hview)
  unfold BFTEngine.collectedSenders
  rw [List.toFinset_card_of_nodup hids, List.length_map]

theorem OncePerView.quorumOfNodes {e : BFTEngine δ} (h : OncePerView e) : QuorumOfNodes e := by
  intro hq
  rw [h.card_collectedSenders]
  exact of_decide_eq_true hq

/-- One more message, of a sender without one for that view. -/
theorem OncePerView.append {e e' : BFTEngine δ} (h : OncePerView e) {msg : ViewChangeMessage}
    (hmsgs : e'.viewChangeMessages = e.viewChangeMessages ++ [msg])
    (hfirst : ∀ m ∈ e.viewChangeMessages, ¬ (m.senderId = msg.senderId ∧ m.newView = msg.newView)) :
    OncePerView e' := by
  unfold OncePerView
  rw [hmsgs]
  refine nodup_map_snoc h fun hold => ?_
  obtain ⟨m, hm, hpair⟩ := List.mem_map.mp hold
  exact hfirst m hm (Prod.mk.inj hpair)

theorem OncePerView.congr {e e' : BFTEngine δ} (h : OncePerView e)
    (hmsgs : e'.viewChangeMessages = e.viewChangeMessages) : OncePerView e' := by
  unfold OncePerView
  rw [hmsgs]
  exact h

theorem OncePerView.applyNewView {e : BFTEngine δ} (h : OncePerView e) (msg : NewViewMessage) :
    OncePerView (e.applyNewView msg).1 := by
  rcases applyNewView_cases e msg with heq | ⟨-, -, -, status, heq⟩
  · rw [heq]
    exact h
  · rw [heq]
    exact List.nodup_nil

theorem OncePerView.triggerViewChange {e : BFTEngine δ} (h : OncePerView e) {id : String}
    (hfresh : id ∉ e.collectedSenders) (sig : String) (now : UInt64) :
    OncePerView (e.triggerViewChange id sig now).1 := by
  refine h.append rfl ?_
  rintro m hm ⟨hid, hview⟩
  exact hfresh (mem_collectedSenders.mpr ⟨m, hm, hview, hid⟩)

/-- A vote path does not touch the view change messages. -/
theorem OncePerView.recorded {e e' : BFTEngine δ} (h : OncePerView e) (hr : Recorded e e') : OncePerView e' := by
  cases hr with
  | same => exact h
  | vote _ _ _ => exact h.congr rfl
  | anonymous _ _ _ => exact h.congr rfl

theorem OncePerView.round {e : BFTEngine δ} (h : OncePerView e) (op : Op δ) : OncePerView (op.run verifyRaw e) := by
  cases op with
  | startRound r => exact h.congr rfl
  | propose b d => exact h.congr rfl
  | castVote v => exact h.recorded (castVote_recorded e v)
  | castVoteVerified v pk => exact h.recorded (castVoteVerified_recorded verifyRaw e v pk)
  | castVotesBatch vs keys => exact castVotesBatch_induct (fun _ _ h hr => h.recorded hr) verifyRaw h vs keys
  | castAnonymousVoteVerified v => exact h.recorded (castAnonymousVoteVerified_recorded e v)
  | applyNewView m => exact h.applyNewView m
  | recordCommit r b => exact h.congr rfl

/-- One guarded operation keeps one message a sender and view. -/
theorem OncePerView.step {e : BFTEngine δ} (h : OncePerView e) {op : BftOp δ} (hok : FreshSender op e) :
    OncePerView (op.run verifyRaw e) := by
  cases op with
  | round op => exact h.round op
  | triggerViewChange id sig now => exact h.triggerViewChange hok sig now
  | checkAndTriggerTimeout t id sig now =>
      show OncePerView (e.checkAndTriggerTimeout t id sig now).1
      unfold BFTEngine.checkAndTriggerTimeout
      split
      · rename_i hfires
        exact (h.triggerViewChange (hok hfires) sig now).congr rfl
      · exact h
  | updateActivity t => exact h.congr rfl
  | processViewChange msg pk =>
      show OncePerView (e.processViewChange verifyRaw msg pk).1
      rcases processViewChange_cases verifyRaw e msg pk with ⟨hc, heq⟩ | ⟨-, heq⟩
      · rw [heq]
        exact h.append rfl hc.first
      · rw [heq]
        exact h
  | completeViewChange id sig =>
      show OncePerView (e.completeViewChange id sig).1
      rcases completeViewChange_cases e id sig with heq | ⟨-, -, heq⟩
      · rw [heq]
        exact h
      · rw [heq]
        exact h.applyNewView _

/-- **A view change quorum is a quorum of nodes** in every run in which a node triggers a view change only while it
has no message for that view. The messages of a view are counted, and under the guard no node has two. -/
theorem quorumOfNodes_of_fresh_senders (verifyRaw : String → String → String → Bool) (e : BFTEngine δ)
    (h : (bftEngine verifyRaw).Reachable FreshSender e) : QuorumOfNodes e := by
  refine OncePerView.quorumOfNodes (System.Reachable.invariant ?_ ?_ h)
  · rintro s (⟨q, rfl⟩ | ⟨q, vs, rfl⟩)
    · exact List.nodup_nil
    · exact List.nodup_nil
  · rintro s op s' hs hok ⟨⟩
    exact hs.step hok

instance : ∀ (op : BftOp δ) (e : BFTEngine δ), Decidable (FreshSender op e)
  | .triggerViewChange id _ _, e => inferInstanceAs (Decidable (id ∉ e.collectedSenders))
  | .checkAndTriggerTimeout t id _ _, e =>
      inferInstanceAs (Decidable (e.checkTimeout t = true → id ∉ e.collectedSenders))
  | .round _, _ => .isTrue trivial
  | .updateActivity _, _ => .isTrue trivial
  | .processViewChange _ _, _ => .isTrue trivial
  | .completeViewChange _ _, _ => .isTrue trivial

/-- A VIEW_CHANGE message for view 1 without a report. -/
def viewOneMessage (senderId : String) (timestampMs : UInt64) : ViewChangeMessage :=
  { newView := 1, senderId := senderId, lastPreparedRound := none, lastPreparedBlock := none,
    signature := "sig_" ++ senderId, timestampMs := timestampMs }

/-- A timeout of `a` and a message of `b` make the quorum of two, and `a`'s second timer finds it made. -/
theorem quorumOfNodes_of_fresh_senders_two_nodes : ∃ e : BFTEngine Unit,
    (bftEngine fun _ _ _ => true).Reachable FreshSender e ∧ e.hasViewChangeQuorum = true ∧ QuorumOfNodes e := by
  obtain ⟨e, past, hr, hq⟩ := System.exists_run_of_play (M := bftEngine (δ := Unit) fun _ _ _ => true) FreshSender
    (P := fun e _ => e.hasViewChangeQuorum = true) (s := BFTEngine.new 2) (.inl ⟨2, rfl⟩)
    [fun _ => .updateActivity 1000, fun _ => .checkAndTriggerTimeout 7000 "a" "sig_a" 7000,
      fun _ => .processViewChange (viewOneMessage "b" 7100) "pk_b",
      fun _ => .checkAndTriggerTimeout 7200 "a" "sig_a" 7200] (by decide +kernel)
  exact ⟨e, ⟨past, hr⟩, hq, quorumOfNodes_of_fresh_senders _ e ⟨past, hr⟩⟩

/-- The calls of the view change protocol, without those that only drive a round. -/
def BftOp.isViewChange : BftOp δ → Bool
  | .triggerViewChange _ _ _ => true
  | .checkAndTriggerTimeout _ _ _ _ => true
  | .processViewChange _ _ => true
  | .completeViewChange _ _ => true
  | .round (.applyNewView _) => true
  | .round (.recordCommit _ _) => true
  | _ => false

/-- One node that triggers twice is a quorum of two. -/
theorem repeated_trigger_is_no_quorum_of_nodes : ¬ ∀ e : BFTEngine Unit,
    (bftEngine fun _ _ _ => true).Reachable (fun op _ => op.isViewChange = true) e → QuorumOfNodes e := by
  intro hall
  obtain ⟨e, past, hr, hq⟩ := System.exists_run_of_play (M := bftEngine (δ := Unit) fun _ _ _ => true)
    (fun op _ => op.isViewChange = true)
    (P := fun e _ => e.hasViewChangeQuorum = true ∧ ¬ e.quorumSize ≤ e.collectedSenders.card)
    (s := BFTEngine.new 2) (.inl ⟨2, rfl⟩)
    [fun _ => .triggerViewChange "a" "sig_a" 100, fun _ => .triggerViewChange "a" "sig_a" 200] (by decide +kernel)
  exact hq.2 (hall e ⟨past, hr⟩ hq.1)

/-! ## Genuine certificates -/

/-- The proofs of a NEW_VIEW message that are for the view it announces. -/
def NewViewMessage.matchingProofs (msg : NewViewMessage) : List ViewChangeMessage :=
  msg.viewChangeProofs.filter (fun m => m.newView == msg.view)

/-- **A NEW_VIEW message carries a certificate**: a quorum of its proofs are for the announced view and of different
senders; and if any proof for that view reports a prepared round, the announced pair is one of these reports and none
of them is higher. -/
structure Genuine (quorumSize : Nat) (msg : NewViewMessage) : Prop where
  quorum : ∃ S : Finset ViewChangeMessage, quorumSize ≤ S.card ∧
    (∀ m ∈ S, m ∈ msg.viewChangeProofs ∧ m.newView = msg.view) ∧
    ∀ m ∈ S, ∀ m' ∈ S, m.senderId = m'.senderId → m = m'
  highest : (∃ m ∈ msg.matchingProofs, m.report ≠ none) →
    (∃ m ∈ msg.matchingProofs, m.report = some (msg.preparedBlock, msg.startingRound)) ∧
    ∀ m ∈ msg.matchingProofs, ∀ b r, m.report = some (b, r) → r ≤ msg.startingRound

/-- The senders of the matching proofs. -/
def NewViewMessage.matchingSenders (msg : NewViewMessage) : Finset String :=
  (msg.matchingProofs.map (·.senderId)).toFinset

/-- A report that does not exceed `round`, or none. -/
def ViewChangeMessage.reportsAtMost (round : UInt64) (m : ViewChangeMessage) : Bool :=
  m.lastPreparedRound.all (fun r => decide (r ≤ round))

theorem mem_matchingProofs {msg : NewViewMessage} {m : ViewChangeMessage} :
    m ∈ msg.matchingProofs ↔ m ∈ msg.viewChangeProofs ∧ m.newView = msg.view := by
  rw [NewViewMessage.matchingProofs, List.mem_filter, beq_iff_eq]

theorem mem_matchingSenders {msg : NewViewMessage} {id : String} :
    id ∈ msg.matchingSenders ↔ ∃ m ∈ msg.matchingProofs, m.senderId = id := by
  rw [NewViewMessage.matchingSenders, List.mem_toFinset, List.mem_map]

theorem report_eq_none {m : ViewChangeMessage} : m.report = none ↔ m.lastPreparedRound.isNone = true := by
  rw [ViewChangeMessage.report, Option.map_eq_none_iff, Option.isNone_iff_eq_none]

theorem reportsAtMost_iff {m : ViewChangeMessage} {round : UInt64} :
    m.reportsAtMost round = true ↔ ∀ b r, m.report = some (b, r) → r ≤ round := by
  unfold ViewChangeMessage.reportsAtMost ViewChangeMessage.report
  cases m.lastPreparedRound with
  | none => simp
  | some r => simp

/-- Different senders of a quorum are as many matching senders. -/
theorem Genuine.card_le {quorumSize : Nat} {msg : NewViewMessage} (h : Genuine quorumSize msg) :
    quorumSize ≤ msg.matchingSenders.card := by
  obtain ⟨S, hquorum, hproofs, hdistinct⟩ := h.quorum
  have hinj : Set.InjOn (fun m : ViewChangeMessage => m.senderId) S := fun m hm m' hm' => hdistinct m hm m' hm'
  calc quorumSize ≤ S.card := hquorum
    _ = (S.image (·.senderId)).card := (Finset.card_image_of_injOn hinj).symm
    _ ≤ msg.matchingSenders.card := by
        refine Finset.card_le_card fun id hid => ?_
        obtain ⟨m, hm, rfl⟩ := Finset.mem_image.mp hid
        exact mem_matchingSenders.mpr ⟨m, mem_matchingProofs.mpr (hproofs m hm), rfl⟩

/-- One matching proof for every matching sender. -/
theorem exists_representatives (msg : NewViewMessage) :
    ∃ S : Finset ViewChangeMessage, S.card = msg.matchingSenders.card ∧
      (∀ m ∈ S, m ∈ msg.viewChangeProofs ∧ m.newView = msg.view) ∧
      ∀ m ∈ S, ∀ m' ∈ S, m.senderId = m'.senderId → m = m' := by
  obtain ⟨u, hup, hbij⟩ := Set.exists_subset_bijOn {m | m ∈ msg.matchingProofs} ViewChangeMessage.senderId
  have hfin : u.Finite := msg.matchingProofs.finite_toSet.subset hup
  have hids : hfin.toFinset.image ViewChangeMessage.senderId = msg.matchingSenders := by
    ext id
    have hid := Set.ext_iff.mp hbij.image_eq id
    simp only [Set.mem_image, Set.mem_ofPred_eq] at hid
    rw [Finset.mem_image, mem_matchingSenders]
    simp only [hfin.mem_toFinset, hid]
  have hinj : Set.InjOn ViewChangeMessage.senderId hfin.toFinset := by
    rw [hfin.coe_toFinset]
    exact hbij.injOn
  refine ⟨hfin.toFinset, ?_, fun m hm => mem_matchingProofs.mp (hup (hfin.mem_toFinset.mp hm)),
    fun m hm m' hm' hid => hinj hm hm' hid⟩
  rw [← hids, Finset.card_image_of_injOn hinj]

/-- **When an accepted NEW_VIEW message carries a certificate.** Exactly if its proofs for the announced view are of a
quorum of senders and either report nothing at all, or report the announced pair and nothing above it. -/
theorem newView_genuine_iff (e : BFTEngine δ) (msg : NewViewMessage) : (e.applyNewView msg).2 = .ok () →
    (Genuine e.quorumSize msg ↔
      e.quorumSize ≤ msg.matchingSenders.card ∧
      (msg.matchingProofs.all (·.lastPreparedRound.isNone) = true ∨
        (msg.matchingProofs.any (·.report == some (msg.preparedBlock, msg.startingRound)) = true ∧
          msg.matchingProofs.all (·.reportsAtMost msg.startingRound) = true))) := by
  intro _
  rw [List.all_eq_true, List.any_eq_true, List.all_eq_true]
  simp only [← report_eq_none, reportsAtMost_iff, beq_iff_eq]
  constructor
  · intro h
    refine ⟨h.card_le, ?_⟩
    by_cases hreports : ∃ m ∈ msg.matchingProofs, m.report ≠ none
    · exact .inr (h.highest hreports)
    · refine .inl fun m hm => ?_
      by_contra hreport
      exact hreports ⟨m, hm, hreport⟩
  · rintro ⟨hcard, hreports⟩
    obtain ⟨S, hS, hproofs, hdistinct⟩ := exists_representatives msg
    refine ⟨⟨S, hcard.trans_eq hS.symm, hproofs, hdistinct⟩, fun ⟨m, hm, hreport⟩ => ?_⟩
    rcases hreports with hsilent | hpair
    · exact absurd (hsilent m hm) hreport
    · exact hpair

/-- The report of `block` at `round` in a message for view 1. -/
def viewOneReport (senderId block : String) (round : UInt64) : ViewChangeMessage :=
  { viewOneMessage senderId 0 with lastPreparedRound := some round, lastPreparedBlock := some block }

/-- A NEW_VIEW message of `b`, the leader of view 1, that announces `block_x` at round 7. -/
def viewOneInstall (proofs : List ViewChangeMessage) : NewViewMessage :=
  { view := 1, leaderId := "b", viewChangeProofs := proofs, preparedBlock := some "block_x", startingRound := 7,
    signature := "sig_b" }

/-- Three nodes with a quorum of two. -/
def trio : BFTEngine Unit := .withValidators 2 ["a", "b", "c"]

/-- The message of the leader with three proofs: `a` reports the announced pair, and twice, and `c` an older block. -/
def reportedInstall : NewViewMessage :=
  viewOneInstall [viewOneReport "a" "block_x" 7, viewOneReport "c" "block_y" 3, viewOneReport "a" "block_x" 7]

/-- Two senders report, and the announced pair is the higher of their reports. -/
theorem newView_genuine_iff_two_senders :
    (trio.applyNewView reportedInstall).2 = .ok () ∧ Genuine trio.quorumSize reportedInstall :=
  ⟨by decide +kernel, (newView_genuine_iff trio _ (by decide +kernel)).mpr ⟨by decide +kernel, .inr (by decide +kernel)⟩⟩

/-- One proof of one sender, given twice, installs a block nobody reported. -/
theorem newView_of_one_proof_twice : ¬ ∀ (e : BFTEngine Unit) (msg : NewViewMessage),
    (e.applyNewView msg).2 = .ok () → Genuine e.quorumSize msg := by
  intro hall
  have hgenuine := hall trio (viewOneInstall [viewOneReport "a" "block_y" 3, viewOneReport "a" "block_y" 3])
    (by decide +kernel)
  exact absurd hgenuine.card_le (by decide +kernel)

/-! ## The order of delivery -/

section Delivery

variable {keys : String → String}

/-- Hand messages to `process_view_change`, one after the other, each with its sender's public key. -/
def deliver (verifyRaw : String → String → String → Bool) (keys : String → String) (e : BFTEngine δ)
    (msgs : List ViewChangeMessage) : BFTEngine δ :=
  msgs.foldl (fun e m => (e.processViewChange verifyRaw m (keys m.senderId)).1) e

/-- What a delivery of `msgs` can have done to the engine. -/
structure Delivered (msgs : List ViewChangeMessage) (e e' : BFTEngine δ) : Prop where
  view : e'.view = e.view
  quorumSize : e'.quorumSize = e.quorumSize
  grows : e.viewChangeMessages <+: e'.viewChangeMessages
  mem : ∀ m ∈ e'.viewChangeMessages, m ∈ e.viewChangeMessages ∨ m ∈ msgs
  watermark : e'.lastViewChangeTimestamp = e.lastViewChangeTimestamp ∨
    ∃ m ∈ msgs, e'.lastViewChangeTimestamp = m.timestampMs
  once : OncePerView e → OncePerView e'

theorem Delivered.refl (e : BFTEngine δ) : Delivered [] e e :=
  ⟨rfl, rfl, List.prefix_rfl, fun _ hm => .inl hm, .inl rfl, id⟩

theorem Delivered.trans {msgs msgs' : List ViewChangeMessage} {e e' e'' : BFTEngine δ} (h : Delivered msgs e e')
    (h' : Delivered msgs' e' e'') : Delivered (msgs ++ msgs') e e'' := by
  refine ⟨h'.view.trans h.view, h'.quorumSize.trans h.quorumSize, h.grows.trans h'.grows, ?_, ?_,
    fun ho => h'.once (h.once ho)⟩
  · intro m hm
    rcases h'.mem m hm with hm | hm
    · rcases h.mem m hm with hm | hm
      · exact .inl hm
      · exact .inr (List.mem_append_left _ hm)
    · exact .inr (List.mem_append_right _ hm)
  · rcases h'.watermark with heq | ⟨m, hm, heq⟩
    · rcases h.watermark with heq' | ⟨m, hm, heq'⟩
      · exact .inl (heq.trans heq')
      · exact .inr ⟨m, List.mem_append_left _ hm, heq.trans heq'⟩
    · exact .inr ⟨m, List.mem_append_right _ hm, heq⟩

theorem delivered_processViewChange (verifyRaw : String → String → String → Bool) (e : BFTEngine δ)
    (msg : ViewChangeMessage) (pk : String) :
    Delivered [msg] e (e.processViewChange verifyRaw msg pk).1 := by
  rcases processViewChange_cases verifyRaw e msg pk with ⟨hc, heq⟩ | ⟨-, heq⟩
  · rw [heq]
    refine ⟨rfl, rfl, List.prefix_append _ _, fun m hm => List.mem_append.mp hm, ?_, fun ho => ?_⟩
    · exact .inr ⟨msg, List.mem_singleton_self msg, rfl⟩
    · exact ho.append rfl hc.first
  · rw [heq]
    exact ⟨rfl, rfl, List.prefix_rfl, fun _ hm => .inl hm, .inl rfl, id⟩

theorem delivered_deliver (verifyRaw : String → String → String → Bool) (keys : String → String) (e : BFTEngine δ)
    (msgs : List ViewChangeMessage) : Delivered msgs e (deliver verifyRaw keys e msgs) := by
  induction msgs generalizing e with
  | nil => exact .refl e
  | cons msg msgs ih => exact (delivered_processViewChange verifyRaw e msg (keys msg.senderId)).trans (ih _)

theorem deliver_append (e : BFTEngine δ) (msgs msgs' : List ViewChangeMessage) :
    deliver verifyRaw keys e (msgs ++ msgs') = deliver verifyRaw keys (deliver verifyRaw keys e msgs) msgs' :=
  List.foldl_append

/-- Messages none of which would be stored leave no trace. -/
theorem deliver_refused {e : BFTEngine δ} {msgs : List ViewChangeMessage}
    (h : ∀ m ∈ msgs, ¬ Collects verifyRaw e m (keys m.senderId)) : deliver verifyRaw keys e msgs = e := by
  induction msgs with
  | nil => rfl
  | cons msg msgs ih =>
      obtain ⟨hmsg, hmsgs⟩ := List.forall_mem_cons.mp h
      have heq : (e.processViewChange verifyRaw msg (keys msg.senderId)).1 = e := by
        rcases processViewChange_cases verifyRaw e msg (keys msg.senderId) with ⟨hc, -⟩ | ⟨-, heq⟩
        · exact absurd hc hmsg
        · exact heq
      show deliver verifyRaw keys (e.processViewChange verifyRaw msg (keys msg.senderId)).1 msgs = e
      rw [heq]
      exact ih hmsgs

/-- A signed message for the next view. -/
def ForNextView (verifyRaw : String → String → String → Bool) (keys : String → String) (e : BFTEngine δ)
    (m : ViewChangeMessage) : Prop :=
  m.newView = e.view + 1 ∧ m.signedBy verifyRaw (keys m.senderId)

instance {e : BFTEngine δ} {m : ViewChangeMessage} : Decidable (ForNextView verifyRaw keys e m) :=
  inferInstanceAs (Decidable (_ ∧ verifyRaw _ _ _ = true))

/-- A signed message that is not older than the watermark it meets leaves its sender among those collected, or
there was no room for it. -/
theorem sender_collected {e : BFTEngine δ} {m : ViewChangeMessage} (hwrap : e.view < e.view + 1)
    (hm : ForNextView verifyRaw keys e m) (htime : e.lastViewChangeTimestamp ≤ m.timestampMs) :
    maxVotesPerRound ≤ e.viewChangeMessages.length ∨
      m.senderId ∈ (e.processViewChange verifyRaw m (keys m.senderId)).1.collectedSenders := by
  rcases processViewChange_cases verifyRaw e m (keys m.senderId) with ⟨-, heq⟩ | ⟨hrefused, heq⟩
  · rw [heq]
    exact .inr (mem_collectedSenders.mpr ⟨m, List.mem_append_right _ (List.mem_singleton_self m), hm.1, rfl⟩)
  · rw [heq]
    by_cases hroom : maxVotesPerRound ≤ e.viewChangeMessages.length
    · exact .inl hroom
    · -- the one check left is the one for a message of the same sender
      right
      by_contra hsender
      refine hrefused ⟨?_, htime, ?_, Nat.not_le.mp hroom, hm.2⟩
      · rw [hm.1]
        exact hwrap
      · rintro m' hm' ⟨hid, hview⟩
        exact hsender (mem_collectedSenders.mpr ⟨m', hm', hview.trans hm.1, hid⟩)

theorem Delivered.collectedSenders_subset {msgs : List ViewChangeMessage} {e e' : BFTEngine δ}
    (h : Delivered msgs e e') : e.collectedSenders ⊆ e'.collectedSenders := by
  intro id hid
  obtain ⟨m, hm, hview, hsender⟩ := mem_collectedSenders.mp hid
  refine mem_collectedSenders.mpr ⟨m, h.grows.subset hm, ?_, hsender⟩
  rw [h.view]
  exact hview

/-- The same for a message anywhere in a delivery. -/
theorem sender_collected_of_deliver {e : BFTEngine δ} {before after : List ViewChangeMessage}
    {m : ViewChangeMessage} (hwrap : e.view < e.view + 1) (hm : ForNextView verifyRaw keys e m)
    (htime : (deliver verifyRaw keys e before).lastViewChangeTimestamp ≤ m.timestampMs) :
    maxVotesPerRound ≤ (deliver verifyRaw keys e (before ++ m :: after)).viewChangeMessages.length ∨
      m.senderId ∈ (deliver verifyRaw keys e (before ++ m :: after)).collectedSenders := by
  have hbefore := delivered_deliver verifyRaw keys e before
  have hview := hbefore.view
  have hsplit : deliver verifyRaw keys e (before ++ m :: after) = deliver verifyRaw keys
      ((deliver verifyRaw keys e before).processViewChange verifyRaw m (keys m.senderId)).1 after := by
    rw [deliver_append]
    rfl
  rw [hsplit]
  generalize deliver verifyRaw keys e before = e₁ at hview htime
  have hafter := delivered_deliver verifyRaw keys
    (e₁.processViewChange verifyRaw m (keys m.senderId)).1 after
  have hstep := delivered_processViewChange verifyRaw e₁ m (keys m.senderId)
  have hm₁ : ForNextView verifyRaw keys e₁ m := ⟨by rw [hview]; exact hm.1, hm.2⟩
  rcases sender_collected (by rw [hview]; exact hwrap) hm₁ htime with hfull | hid
  · left
    have := (hstep.grows.trans hafter.grows).length_le
    omega
  · exact .inr (hafter.collectedSenders_subset hid)

/-- Delivered to an engine without messages, every stored message is for the next view. -/
theorem Delivered.collected_eq {msgs : List ViewChangeMessage} {e e' : BFTEngine δ} (h : Delivered msgs e e')
    (hempty : e.viewChangeMessages = []) (hnext : ∀ m ∈ msgs, m.newView = e.view + 1) :
    e'.collected = e'.viewChangeMessages := by
  refine List.filter_eq_self.mpr fun m hm => beq_iff_eq.mpr ?_
  rw [h.view]
  rcases h.mem m hm with hm | hm
  · rw [hempty] at hm
    cases hm
  · exact hnext m hm

/-- As many senders as the quorum asks for, each collected unless there was no room, are a quorum: a full
collection is one too. -/
theorem Delivered.quorum {msgs : List ViewChangeMessage} {e e' : BFTEngine δ} (h : Delivered msgs e e')
    (hempty : e.viewChangeMessages = []) (hnext : ∀ m ∈ msgs, m.newView = e.view + 1)
    (hlimit : e.quorumSize ≤ maxVotesPerRound) {ids : Finset String} (hids : e.quorumSize ≤ ids.card)
    (hcollected : ∀ id ∈ ids, maxVotesPerRound ≤ e'.viewChangeMessages.length ∨ id ∈ e'.collectedSenders) :
    e'.hasViewChangeQuorum = true := by
  have hcount : e'.collected.length = e'.viewChangeMessages.length := by
    rw [h.collected_eq hempty hnext]
  suffices hq : e.quorumSize ≤ e'.collected.length by
    refine decide_eq_true ?_
    rw [h.quorumSize]
    exact hq
  by_cases hfull : maxVotesPerRound ≤ e'.viewChangeMessages.length
  · omega
  · have hsub : ids ⊆ e'.collectedSenders := fun id hid => (hcollected id hid).resolve_left hfull
    calc e.quorumSize ≤ ids.card := hids
      _ ≤ e'.collectedSenders.card := Finset.card_le_card hsub
      _ ≤ (e'.collected.map (·.senderId)).length := List.toFinset_card_le _
      _ = e'.collected.length := List.length_map _

/-- The senders whose message carries the timestamp `t`. -/
def sendersAt (S : Finset ViewChangeMessage) (t : UInt64) : Finset String :=
  (S.filter fun m => m.timestampMs = t).image (·.senderId)

/-- The greatest timestamp passes wherever its messages stand, so a quorum of senders that carry it is
collected in any order. -/
theorem quorum_of_latest {e : BFTEngine δ} {order : List ViewChangeMessage} {t : UInt64}
    (hlimit : e.quorumSize ≤ maxVotesPerRound) (hempty : e.viewChangeMessages = [])
    (hvalid : ∀ m ∈ order, ForNextView verifyRaw keys e m) (hwrap : e.view < e.view + 1)
    (hfloor : e.lastViewChangeTimestamp ≤ t) (hlatest : ∀ m ∈ order, m.timestampMs ≤ t)
    (hquorum : e.quorumSize ≤ (sendersAt order.toFinset t).card) :
    (deliver verifyRaw keys e order).hasViewChangeQuorum = true := by
  refine (delivered_deliver verifyRaw keys e order).quorum hempty (fun m hm => (hvalid m hm).1) hlimit hquorum ?_
  intro id hid
  obtain ⟨m, hm, rfl⟩ := Finset.mem_image.mp hid
  obtain ⟨hmem, htime⟩ := Finset.mem_filter.mp hm
  obtain ⟨before, after, rfl⟩ := List.append_of_mem (List.mem_toFinset.mp hmem)
  refine sender_collected_of_deliver hwrap (hvalid m (by simp)) ?_
  rw [htime]
  rcases (delivered_deliver verifyRaw keys e before).watermark with heq | ⟨m', hm', heq⟩
  · rw [heq]
    exact hfloor
  · rw [heq]
    exact hlatest m' (List.mem_append_left _ hm')

/-- Messages in the order of their timestamps all pass. -/
theorem quorum_of_sorted {e : BFTEngine δ} {order : List ViewChangeMessage}
    (hlimit : e.quorumSize ≤ maxVotesPerRound) (hempty : e.viewChangeMessages = [])
    (hvalid : ∀ m ∈ order, ForNextView verifyRaw keys e m) (hwrap : e.view < e.view + 1)
    (hfloor : ∀ m ∈ order, e.lastViewChangeTimestamp ≤ m.timestampMs)
    (hsorted : order.Pairwise fun m m' => m.timestampMs ≤ m'.timestampMs)
    (hquorum : e.quorumSize ≤ (order.toFinset.image (·.senderId)).card) :
    (deliver verifyRaw keys e order).hasViewChangeQuorum = true := by
  refine (delivered_deliver verifyRaw keys e order).quorum hempty (fun m hm => (hvalid m hm).1) hlimit hquorum ?_
  intro id hid
  obtain ⟨m, hm, rfl⟩ := Finset.mem_image.mp hid
  obtain ⟨before, after, rfl⟩ := List.append_of_mem (List.mem_toFinset.mp hm)
  refine sender_collected_of_deliver hwrap (hvalid m (by simp)) ?_
  rcases (delivered_deliver verifyRaw keys e before).watermark with heq | ⟨m', hm', heq⟩
  · rw [heq]
    exact hfloor m (by simp)
  · rw [heq]
    exact (List.pairwise_append.mp hsorted).2.2 m' hm' m List.mem_cons_self

/-- The order that loses most: the latest messages first. Every older one is then refused. -/
theorem deliver_latest_first {e : BFTEngine δ} {latest older : List ViewChangeMessage} {t : UInt64}
    (hempty : e.viewChangeMessages = []) (hvalid : ∀ m ∈ latest, ForNextView verifyRaw keys e m)
    (hwrap : e.view < e.view + 1) (hfloor : e.lastViewChangeTimestamp ≤ t) (hne : latest ≠ [])
    (hlatest : ∀ m ∈ latest, m.timestampMs = t) (holder : ∀ m ∈ older, m.timestampMs < t) :
    deliver verifyRaw keys e (latest ++ older) = deliver verifyRaw keys e latest := by
  rw [deliver_append]
  refine deliver_refused fun m hm hc => ?_
  have hrecent := hc.recent
  suffices hmark : (deliver verifyRaw keys e latest).lastViewChangeTimestamp = t by
    rw [hmark] at hrecent
    exact absurd (holder m hm) (UInt64.not_lt.mpr hrecent)
  obtain ⟨first, rest, rfl⟩ := List.exists_cons_of_ne_nil hne
  have hfirst := hvalid first List.mem_cons_self
  have htime := hlatest first List.mem_cons_self
  -- the first of them meets an empty collection and sets the watermark
  have hstored : (e.processViewChange verifyRaw first (keys first.senderId)).1 = e.stored first := by
    rcases processViewChange_cases verifyRaw e first (keys first.senderId) with ⟨-, heq⟩ | ⟨hrefused, -⟩
    · exact heq
    · refine absurd ⟨by rw [hfirst.1]; exact hwrap, by rw [htime]; exact hfloor, ?_, ?_, hfirst.2⟩ hrefused
      · rw [hempty]
        exact fun _ hm => absurd hm List.not_mem_nil
      · rw [hempty]
        decide
  show (deliver verifyRaw keys (e.processViewChange verifyRaw first (keys first.senderId)).1 rest).lastViewChangeTimestamp = t
  rw [hstored]
  rcases (delivered_deliver verifyRaw keys (e.stored first) rest).watermark
    with heq | ⟨m', hm', heq⟩
  · exact heq.trans htime
  · exact heq.trans (hlatest m' (List.mem_cons_of_mem _ hm'))

/-- A quorum among the stored messages is one among the messages delivered. -/
theorem Delivered.quorum_le {msgs : List ViewChangeMessage} {e e' : BFTEngine δ} (h : Delivered msgs e e')
    (hempty : e.viewChangeMessages = []) (hquorum : e'.hasViewChangeQuorum = true) :
    e.quorumSize ≤ (msgs.toFinset.image (·.senderId)).card := by
  have honce : OncePerView e' := h.once (by rw [OncePerView, hempty]; exact List.nodup_nil)
  rw [← h.quorumSize]
  refine (honce.quorumOfNodes hquorum).trans (Finset.card_le_card fun id hid => ?_)
  obtain ⟨m, hm, -, rfl⟩ := mem_collectedSenders.mp hid
  rcases h.mem m hm with hm | hm
  · rw [hempty] at hm
    cases hm
  · exact Finset.mem_image.mpr ⟨m, List.mem_toFinset.mpr hm, rfl⟩

/-- Where nothing is stored only the empty quorum is reached. -/
theorem quorumSize_eq_zero_of_refused {e : BFTEngine δ} {msgs : List ViewChangeMessage}
    (hempty : e.viewChangeMessages = []) (hrefused : ∀ m ∈ msgs, ¬ Collects verifyRaw e m (keys m.senderId))
    (hquorum : (deliver verifyRaw keys e msgs).hasViewChangeQuorum = true) : e.quorumSize = 0 := by
  rw [deliver_refused hrefused] at hquorum
  have hle := (Delivered.refl e).quorum_le hempty hquorum
  simpa using hle

/-- An order of a set that starts with its latest messages. -/
theorem exists_latest_first {S : Finset ViewChangeMessage} (hne : S.Nonempty) :
    ∃ top ∈ S, ∃ latest older : List ViewChangeMessage, (∀ m ∈ S, m.timestampMs ≤ top.timestampMs) ∧
      (latest ++ older).Nodup ∧ (latest ++ older).toFinset = S ∧
      latest.toFinset = S.filter (fun m => m.timestampMs = top.timestampMs) ∧
      ∀ m ∈ older, m.timestampMs < top.timestampMs := by
  obtain ⟨top, htop, hmax⟩ := S.exists_max_image (fun m => m.timestampMs.toNat) hne
  refine ⟨top, htop, (S.filter fun m => m.timestampMs = top.timestampMs).toList,
    (S.filter fun m => ¬ m.timestampMs = top.timestampMs).toList, ?_, ?_, ?_, Finset.toList_toFinset _, ?_⟩
  · exact fun m hm => UInt64.le_iff_toNat_le.mpr (hmax m hm)
  · refine (Finset.nodup_toList _).append (Finset.nodup_toList _) fun m hm hm' => ?_
    exact (Finset.mem_filter.mp (Finset.mem_toList.mp hm')).2 (Finset.mem_filter.mp (Finset.mem_toList.mp hm)).2
  · rw [List.toFinset_append, Finset.toList_toFinset, Finset.toList_toFinset, Finset.filter_union_filter_not_eq]
  · intro m hm
    obtain ⟨hm, htime⟩ := Finset.mem_filter.mp (Finset.mem_toList.mp hm)
    have hle := hmax m hm
    have hne := mt UInt64.toNat_inj.mp htime
    exact UInt64.lt_iff_toNat_lt.mpr (by omega)

/-- A quorum after the order that loses most: the latest messages alone make it. -/
theorem latest_of_quorum {e : BFTEngine δ} {latest older : List ViewChangeMessage} {top : ViewChangeMessage}
    (hempty : e.viewChangeMessages = []) (hvalid : ∀ m ∈ latest ++ older, ForNextView verifyRaw keys e m)
    (hmax : ∀ m ∈ latest ++ older, m.timestampMs ≤ top.timestampMs) (htop : top ∈ latest)
    (hlatest : ∀ m ∈ latest, m.timestampMs = top.timestampMs) (holder : ∀ m ∈ older, m.timestampMs < top.timestampMs)
    (hquorum : (deliver verifyRaw keys e (latest ++ older)).hasViewChangeQuorum = true) (hzero : e.quorumSize ≠ 0) :
    e.view < e.view + 1 ∧ e.lastViewChangeTimestamp ≤ top.timestampMs ∧
      e.quorumSize ≤ (latest.toFinset.image (·.senderId)).card := by
  by_cases hwrap : e.view < e.view + 1
  · by_cases hfloor : e.lastViewChangeTimestamp ≤ top.timestampMs
    · refine ⟨hwrap, hfloor, ?_⟩
      rw [deliver_latest_first hempty (fun m hm => hvalid m (List.mem_append_left _ hm)) hwrap hfloor
        (List.ne_nil_of_mem htop) hlatest holder] at hquorum
      exact (delivered_deliver verifyRaw keys e latest).quorum_le hempty hquorum
    · -- every message is older than what the engine has seen
      refine absurd (quorumSize_eq_zero_of_refused hempty (fun m hm hc => hfloor ?_) hquorum) hzero
      exact UInt64.le_trans hc.recent (hmax m hm)
  · -- the next view has wrapped around, so no message is ahead of the engine
    refine absurd (quorumSize_eq_zero_of_refused hempty (fun m hm hc => hwrap ?_) hquorum) hzero
    rw [← (hvalid m hm).1]
    exact hc.ahead

/-- A set of messages delivered in any order: the exact condition, from the order that loses most. -/
theorem quorum_every_order_iff {e : BFTEngine δ} {S : Finset ViewChangeMessage}
    (hlimit : e.quorumSize ≤ maxVotesPerRound) (hempty : e.viewChangeMessages = [])
    (hvalid : ∀ m ∈ S, ForNextView verifyRaw keys e m)
    (hsenders : e.quorumSize ≤ (S.image (·.senderId)).card) :
    (∀ order : List ViewChangeMessage, order.Nodup → order.toFinset = S →
        (deliver verifyRaw keys e order).hasViewChangeQuorum = true) ↔
      e.quorumSize = 0 ∨ (e.view < e.view + 1 ∧ ∃ top ∈ S, e.lastViewChangeTimestamp ≤ top.timestampMs ∧
        (∀ m ∈ S, m.timestampMs ≤ top.timestampMs) ∧
        e.quorumSize ≤ (sendersAt S top.timestampMs).card) := by
  constructor
  · intro hall
    by_cases hzero : e.quorumSize = 0
    · exact .inl hzero
    have hne : S.Nonempty := by
      rw [Finset.nonempty_iff_ne_empty]
      rintro rfl
      exact hzero (by simpa using hsenders)
    obtain ⟨top, htop, latest, older, hmax, hnodup, hset, hlatest, holder⟩ := exists_latest_first hne
    have hmem : ∀ m ∈ latest ++ older, m ∈ S := fun m hm => by
      rw [← hset]
      exact List.mem_toFinset.mpr hm
    have hmemLatest : ∀ m, m ∈ latest ↔ m ∈ S ∧ m.timestampMs = top.timestampMs := fun m => by
      rw [← List.mem_toFinset, hlatest, Finset.mem_filter]
    obtain ⟨hwrap, hfloor, hquorum⟩ := latest_of_quorum hempty (fun m hm => hvalid m (hmem m hm))
      (fun m hm => hmax m (hmem m hm)) ((hmemLatest top).mpr ⟨htop, rfl⟩) (fun m hm => ((hmemLatest m).mp hm).2)
      holder (hall _ hnodup hset) hzero
    rw [hlatest] at hquorum
    exact .inr ⟨hwrap, top, htop, hfloor, hmax, hquorum⟩
  · rintro (hzero | ⟨hwrap, top, htop, hfloor, hlatest, hquorum⟩) order hnodup rfl
    · refine decide_eq_true ?_
      rw [(delivered_deliver verifyRaw keys e order).quorumSize, hzero]
      exact Nat.zero_le _
    · exact quorum_of_latest hlimit hempty (fun m hm => hvalid m (List.mem_toFinset.mpr hm)) hwrap hfloor
        (fun m hm => hlatest m (List.mem_toFinset.mpr hm)) hquorum

/-- **Which sets of messages reach the quorum in any order, and which order always does.** Every order of delivery
ends with a quorum exactly when `quorum_size` distinct senders carry the greatest timestamp of the set and the
engine has not seen a later one; the order of the timestamps always ends with a quorum. -/
theorem viewChange_quorum_any_order_iff (verifyRaw : String → String → String → Bool) (keys : String → String)
    (e : BFTEngine δ) (S : Finset ViewChangeMessage) (hlimit : e.quorumSize ≤ 100)
    (hempty : e.viewChangeMessages = []) (hvalid : ∀ m ∈ S, ForNextView verifyRaw keys e m)
    (hsenders : e.quorumSize ≤ (S.image (·.senderId)).card) :
    ((∀ order : List ViewChangeMessage, order.Nodup → order.toFinset = S →
        (deliver verifyRaw keys e order).hasViewChangeQuorum = true) ↔
      e.quorumSize = 0 ∨ (e.view < e.view + 1 ∧ ∃ top ∈ S, e.lastViewChangeTimestamp ≤ top.timestampMs ∧
        (∀ m ∈ S, m.timestampMs ≤ top.timestampMs) ∧
        e.quorumSize ≤ (sendersAt S top.timestampMs).card)) ∧
    (e.view < e.view + 1 → (∀ m ∈ S, e.lastViewChangeTimestamp ≤ m.timestampMs) →
      ∀ order : List ViewChangeMessage, order.Nodup → order.toFinset = S →
        order.Pairwise (fun m m' => m.timestampMs ≤ m'.timestampMs) →
        (deliver verifyRaw keys e order).hasViewChangeQuorum = true) := by
  refine ⟨quorum_every_order_iff hlimit hempty hvalid hsenders, ?_⟩
  rintro hwrap hfloor order - rfl hsorted
  exact quorum_of_sorted hlimit hempty (fun m hm => hvalid m (List.mem_toFinset.mpr hm)) hwrap
    (fun m hm => hfloor m (List.mem_toFinset.mpr hm)) hsorted hsenders

/-- The fresh engine of quorum two and a message of each of two nodes: both orders reach the quorum. -/
theorem viewChange_quorum_any_order_iff_equal_clocks :
    (∀ m ∈ ({viewOneMessage "a" 100, viewOneMessage "c" 100} : Finset ViewChangeMessage),
        ForNextView (fun _ _ _ => true) id trio m) ∧
      ∀ order : List ViewChangeMessage, order.Nodup →
        order.toFinset = {viewOneMessage "a" 100, viewOneMessage "c" 100} →
        (deliver (fun _ _ _ => true) id trio order).hasViewChangeQuorum = true := by
  refine ⟨by decide +kernel, ?_⟩
  have hset := (viewChange_quorum_any_order_iff (fun _ _ _ => true) id trio
    {viewOneMessage "a" 100, viewOneMessage "c" 100} (by decide) rfl (by decide +kernel) (by decide +kernel)).1
  refine hset.mpr (.inr ⟨by decide, viewOneMessage "a" 100, by decide +kernel, by decide, by decide +kernel, ?_⟩)
  decide +kernel

/-- The later of two messages, delivered first, shuts out the other. -/
theorem viewChange_quorum_lost_to_order : ¬ ∀ (verifyRaw : String → String → String → Bool) (keys : String → String)
    (e : BFTEngine Unit) (S : Finset ViewChangeMessage), e.quorumSize ≤ 100 → e.viewChangeMessages = [] →
    (∀ m ∈ S, ForNextView verifyRaw keys e m) → e.quorumSize ≤ (S.image (·.senderId)).card →
    ∀ order : List ViewChangeMessage, order.Nodup → order.toFinset = S →
      (deliver verifyRaw keys e order).hasViewChangeQuorum = true := by
  intro hall
  have hquorum := hall (fun _ _ _ => true) id trio {viewOneMessage "a" 200, viewOneMessage "c" 100} (by decide) rfl
    (by decide +kernel) (by decide +kernel) [viewOneMessage "a" 200, viewOneMessage "c" 100] (by decide +kernel)
    (by decide +kernel)
  exact absurd hquorum (by decide +kernel)

end Delivery

end WarmLogic.Consensus.Bft
