/-
# WarmLogic.Net.PropagatorViewChange — what a view change of the block propagation engine carries, collects and reports.

Three links of one chain, and what each is worth.

* NEW_VIEW: the proofs are checked one by one for their signatures, and their number against the quorum. Neither
  their senders nor their target view are looked at, and the announced round and block are taken as they come.
* Collection: the first message of a view change decides which view is collected for, and starting one's own view
  change starts the collection again with only the own message, which is not checked against the quorum.
* Report: `initiate_view_change` reports the pending block in state `Prepared`; `process_vote` takes a block through
  that state to `Committed` within one call, so there is never one to report.

The three properties are independent of one another and each is exact: a condition on the message for the first, on
the order of the messages for the second, and for the third the statement that it holds only where nothing is to be
reported. Their failures add up: a block that a quorum voted for is not reported, so the leader of the next view
starts at round 0 without it, and a NEW_VIEW message that says so is accepted.

`max_by_key` returns the last of the elements with the greatest key; `LastMax` says that of a list by position, and
both leaders' computations are stated with it.
-/
import WarmLogic.Net.PropagatorPending

namespace WarmLogic.Net

open WarmLogic.Lib BlockPropagator

/-! ## The last of the greatest -/

/-- `x` stands in the list, nothing before it has a greater key, and everything after it a smaller one. -/
def LastMax {α : Type} (key : α → UInt64) (l : List α) (x : α) : Prop :=
  ∃ before after, l = before ++ x :: after ∧ (∀ y ∈ before, key y ≤ key x) ∧ ∀ y ∈ after, key y < key x

section MaxByKey

variable {α : Type} {key : α → UInt64}

theorem maxByKey_snoc (l : List α) (x : α) :
    maxByKey key (l ++ [x]) =
      match maxByKey key l with
      | none => some x
      | some b => if key b ≤ key x then some x else some b := by
  unfold maxByKey
  rw [List.foldl_append]
  rfl

theorem maxByKey_eq_none {l : List α} : maxByKey key l = none ↔ l = [] := by
  constructor
  · intro h
    rcases l.eq_nil_or_concat with hnil | ⟨l, x, rfl⟩
    · exact hnil
    · rw [List.concat_eq_append, maxByKey_snoc] at h
      split at h
      · cases h
      · split at h
        · cases h
        · cases h
  · rintro rfl
    rfl

theorem LastMax.mem {l : List α} {x : α} (h : LastMax key l x) : x ∈ l := by
  obtain ⟨before, after, rfl, -, -⟩ := h
  exact List.mem_append_right _ List.mem_cons_self

theorem lastMax_singleton (x : α) : LastMax key [x] x :=
  ⟨[], [], rfl, fun _ hz => absurd hz List.not_mem_nil, fun _ hz => absurd hz List.not_mem_nil⟩

/-- An element that is at least as great takes over. -/
theorem LastMax.snoc_of_le {l : List α} {x y : α} (h : LastMax key l x) (hle : key x ≤ key y) :
    LastMax key (l ++ [y]) y := by
  obtain ⟨before, after, rfl, hbefore, hafter⟩ := h
  refine ⟨before ++ x :: after, [], rfl, fun z hz => ?_, fun _ hz => absurd hz List.not_mem_nil⟩
  rcases List.mem_append.mp hz with hz | hz
  · exact UInt64.le_trans (hbefore z hz) hle
  · rcases List.mem_cons.mp hz with rfl | hz
    · exact hle
    · exact UInt64.le_trans (UInt64.le_of_lt (hafter z hz)) hle

/-- A smaller one does not. -/
theorem LastMax.snoc_of_lt {l : List α} {x y : α} (h : LastMax key l x) (hlt : key y < key x) :
    LastMax key (l ++ [y]) x := by
  obtain ⟨before, after, rfl, hbefore, hafter⟩ := h
  refine ⟨before, after ++ [y], by simp, hbefore, fun z hz => ?_⟩
  rcases List.mem_append.mp hz with hz | hz
  · exact hafter z hz
  · rw [List.mem_singleton.mp hz]
    exact hlt

theorem lastMax_of_maxByKey {l : List α} {x : α} (h : maxByKey key l = some x) : LastMax key l x := by
  induction l using List.reverseRecOn generalizing x with
  | nil => cases h
  | append_singleton l y ih =>
      rw [maxByKey_snoc] at h
      split at h
      · rename_i hnone
        cases h
        rw [maxByKey_eq_none.mp hnone]
        exact lastMax_singleton y
      · rename_i b hb
        split at h
        · rename_i hle
          cases h
          exact (ih hb).snoc_of_le hle
        · rename_i hlt
          cases h
          exact (ih hb).snoc_of_lt (UInt64.not_le.mp hlt)

/-- `max_by_key` returns the last of the elements with the greatest key. -/
theorem maxByKey_eq_some {l : List α} {x : α} : maxByKey key l = some x ↔ LastMax key l x := by
  refine ⟨lastMax_of_maxByKey, ?_⟩
  rintro ⟨before, after, rfl, hbefore, hafter⟩
  -- from the right: the elements after `x` are passed over, then `x` wins against what stands before it
  induction after using List.reverseRecOn with
  | nil =>
      rw [maxByKey_snoc]
      split
      · rfl
      · rename_i b hb
        rw [if_pos (hbefore b (lastMax_of_maxByKey hb).mem)]
  | append_singleton after y ih =>
      rw [← List.cons_append, ← List.append_assoc, maxByKey_snoc,
        ih fun z hz => hafter z (List.mem_append_left _ hz)]
      have hlt := hafter y (List.mem_append_right _ (List.mem_singleton_self _))
      exact if_neg (UInt64.not_le.mpr hlt)

end MaxByKey

/-! ## NEW_VIEW certificates -/

/-- The rounds the messages report as prepared, with their blocks. -/
def reports (messages : List P2PViewChange) : List (UInt64 × Option BlockHash) :=
  messages.filterMap fun m => m.lastPreparedRound.map fun r => (r, m.lastPreparedBlock)

/-- The starting round and the prepared block `complete_view_change` computes from the messages of its tracker. -/
def computedStart (messages : List P2PViewChange) : UInt64 × Option BlockHash :=
  let prepared := maxByKey (·.1) (reports messages)
  ((prepared.map (·.1 + 1)).getD 0, prepared.bind (·.2))

/-- The NEW_VIEW message of `complete_view_change` carries the messages of its tracker and what it computed of them. -/
theorem completeViewChange_announces {p p' : BlockPropagator} {signFn : List UInt8 → List UInt8} {msg : P2PNewView}
    (h : p.completeViewChange signFn = (p', .ok msg)) :
    ∃ t, p.viewChange = some t ∧ msg.view = t.targetView ∧ msg.viewChangeProofs = t.messages ∧
      (msg.startingRound, msg.preparedBlock) = computedStart t.messages := by
  unfold completeViewChange at h
  split at h
  · cases h
  rename_i t ht
  split at h
  · cases h
  split at h
  · cases h
  split at h
  · cases h
  cases h
  exact ⟨t, ht, rfl, rfl, rfl⟩

namespace BlockPropagator

variable {p : BlockPropagator} {msg : P2PNewView} {verifyFn : List UInt8 → List UInt8 → NodeId → Bool}

/-- `m` has a proof in the message: its view change for exactly this view, with a signature that verifies. -/
def Proves (verifyFn : List UInt8 → List UInt8 → NodeId → Bool) (msg : P2PNewView) (m : NodeId) : Prop :=
  ∃ vc ∈ msg.viewChangeProofs, vc.senderId = m ∧ vc.newView = msg.view ∧
    verifyFn (viewChangeSignData vc) vc.signature m = true

/-- **A genuine NEW_VIEW.** At least a quorum of distinct validators prove the view change, and the announced round
and block are those computed from the proofs. -/
structure GenuineNewView (p : BlockPropagator) (verifyFn : List UInt8 → List UInt8 → NodeId → Bool)
    (msg : P2PNewView) : Prop where
  proved : ∃ S : Finset NodeId, p.quorum ≤ S.card ∧ ∀ m ∈ S, m ∈ p.validators ∧ Proves verifyFn msg m
  computed : (msg.startingRound, msg.preparedBlock) = computedStart msg.viewChangeProofs

/-- The validators among the senders of the proofs that are for the message's own view. -/
def viewSenders (p : BlockPropagator) (msg : P2PNewView) : Finset NodeId :=
  ((msg.viewChangeProofs.filter fun vc => vc.newView = msg.view ∧ p.validators.contains vc.senderId).map
    (·.senderId)).toFinset

/-- The message announces the round after the highest one reported and the block last reported with it; and round 0
and no block, if none is reported. -/
def AnnouncesHighest (msg : P2PNewView) : Prop :=
  (reports msg.viewChangeProofs = [] ∧ msg.startingRound = 0 ∧ msg.preparedBlock = none) ∨
    ∃ x, LastMax (·.1) (reports msg.viewChangeProofs) x ∧ msg.startingRound = x.1 + 1 ∧ msg.preparedBlock = x.2

theorem mem_viewSenders {m : NodeId} :
    m ∈ p.viewSenders msg ↔
      m ∈ p.validators ∧ ∃ vc ∈ msg.viewChangeProofs, vc.senderId = m ∧ vc.newView = msg.view := by
  simp only [viewSenders, List.mem_toFinset, List.mem_map, List.mem_filter, decide_eq_true_eq, List.contains_iff_mem]
  constructor
  · rintro ⟨vc, ⟨hmem, hview, hval⟩, rfl⟩
    exact ⟨hval, vc, hmem, rfl, hview⟩
  · rintro ⟨hval, vc, hmem, rfl, hview⟩
    exact ⟨vc, ⟨hmem, hview, hval⟩, rfl⟩

/-- `process_new_view` returns `Ok` exactly if its checks pass. -/
theorem processNewView_ok_iff :
    (p.processNewView msg verifyFn).2 = .ok () ↔ p.acceptsNewView msg verifyFn := by
  rcases processNewView_spec p msg verifyFn with ⟨hno, e, heq⟩ | ⟨hyes, heq⟩
  · rw [heq]
    exact iff_of_false (by rintro ⟨⟩) hno
  · rw [heq]
    exact iff_of_true rfl hyes

/-- In an accepted message the senders of the proofs for its own view prove it. -/
theorem proves_iff (hok : (p.processNewView msg verifyFn).2 = .ok ()) {m : NodeId} :
    m ∈ p.validators ∧ Proves verifyFn msg m ↔ m ∈ p.viewSenders msg := by
  have hall := (processNewView_ok_iff.mp hok).2.2.2
  rw [List.all_eq_true] at hall
  rw [mem_viewSenders]
  refine and_congr_right fun _ => ⟨?_, ?_⟩
  · rintro ⟨vc, hmem, hm, hview, -⟩
    exact ⟨vc, hmem, hm, hview⟩
  · rintro ⟨vc, hmem, rfl, hview⟩
    exact ⟨vc, hmem, rfl, hview, hall vc hmem⟩

theorem computedStart_iff :
    (msg.startingRound, msg.preparedBlock) = computedStart msg.viewChangeProofs ↔ AnnouncesHighest msg := by
  unfold computedStart AnnouncesHighest
  cases hbest : maxByKey (·.1) (reports msg.viewChangeProofs) with
  | none =>
      have hnil := maxByKey_eq_none.mp hbest
      constructor
      · intro h
        exact .inl ⟨hnil, (Prod.mk.inj h).1, (Prod.mk.inj h).2⟩
      · rintro (⟨-, hround, hblock⟩ | ⟨x, hx, -⟩)
        · exact Prod.ext hround hblock
        · rw [maxByKey_eq_some.mpr hx] at hbest
          cases hbest
  | some x =>
      have hx := maxByKey_eq_some.mp hbest
      constructor
      · intro h
        exact .inr ⟨x, hx, (Prod.mk.inj h).1, (Prod.mk.inj h).2⟩
      · rintro (⟨hnil, -⟩ | ⟨y, hy, hround, hblock⟩)
        · rw [maxByKey_eq_none.mpr hnil] at hbest
          cases hbest
        · rw [maxByKey_eq_some.mpr hy] at hbest
          cases hbest
          exact Prod.ext hround hblock

/-- A leader that made the message with `complete_view_change` announces what its messages report. -/
theorem announcesHighest_of_completed {leader leader' : BlockPropagator} {signFn : List UInt8 → List UInt8}
    (h : leader.completeViewChange signFn = (leader', .ok msg)) : AnnouncesHighest msg := by
  obtain ⟨t, -, -, hproofs, hstart⟩ := completeViewChange_announces h
  rw [← hproofs] at hstart
  exact computedStart_iff.mp hstart

/-- **When an accepted NEW_VIEW is genuine.** Exactly when the proofs for its own view name a quorum of distinct
validators, and the highest round reported in the proofs is the one announced, with its block; the second is so for every
message that `complete_view_change` made, at any leader. -/
theorem accepted_new_view_genuine_iff (p : BlockPropagator) (msg : P2PNewView)
    (verifyFn : List UInt8 → List UInt8 → NodeId → Bool) (hok : (p.processNewView msg verifyFn).2 = .ok ()) :
    (p.GenuineNewView verifyFn msg ↔ p.quorum ≤ (p.viewSenders msg).card ∧ AnnouncesHighest msg) ∧
      ∀ (leader leader' : BlockPropagator) (signFn : List UInt8 → List UInt8),
        leader.completeViewChange signFn = (leader', .ok msg) → AnnouncesHighest msg := by
  refine ⟨?_, fun _ _ _ => announcesHighest_of_completed⟩
  constructor
  · rintro ⟨⟨S, hcard, hS⟩, hcomputed⟩
    have hsub : S ⊆ p.viewSenders msg := fun m hm => (proves_iff hok).mp (hS m hm)
    exact ⟨hcard.trans (Finset.card_le_card hsub), computedStart_iff.mp hcomputed⟩
  · rintro ⟨hcard, hhighest⟩
    exact ⟨⟨p.viewSenders msg, hcard, fun m hm => (proves_iff hok).mpr hm⟩, computedStart_iff.mpr hhighest⟩

/-! ### One proof, three times -/

/-- A NEW_VIEW message of node 2 for view 1 with the view change messages of the nodes `ns`. -/
def newViewOf (ns : List UInt8) : P2PNewView :=
  let msg : P2PNewView :=
    { view := 1, leaderId := makeNodeId 2, viewChangeProofs := ns.map (scriptViewChange 1), startingRound := 0,
      preparedBlock := none, signature := [] }
  { msg with signature := scriptSign (makeNodeId 2) (newViewSignData msg) }

theorem accepted_new_view_genuine_iff_three_senders :
    (quartet.processNewView (newViewOf [1, 2, 3]) scriptVerify).2 = .ok () ∧
      quartet.GenuineNewView scriptVerify (newViewOf [1, 2, 3]) :=
  have hok : (quartet.processNewView (newViewOf [1, 2, 3]) scriptVerify).2 = .ok () := by decide +kernel
  ⟨hok, (accepted_new_view_genuine_iff quartet (newViewOf [1, 2, 3]) scriptVerify hok).1.mpr
    ⟨by decide +kernel, .inl ⟨rfl, rfl, rfl⟩⟩⟩

/-- The new leader's own view change message, three times over, passes for the proofs of a quorum. -/
theorem new_view_of_one_sender : ¬ ∀ (p : BlockPropagator) (msg : P2PNewView)
    (verifyFn : List UInt8 → List UInt8 → NodeId → Bool),
    (p.processNewView msg verifyFn).2 = .ok () → p.GenuineNewView verifyFn msg := by
  intro h
  have hok : (quartet.processNewView (newViewOf [2, 2, 2]) scriptVerify).2 = .ok () := by decide +kernel
  obtain ⟨S, hcard, hS⟩ := (h _ _ _ hok).proved
  have hsub : S ⊆ quartet.viewSenders (newViewOf [2, 2, 2]) := fun m hm => (proves_iff hok).mp (hS m hm)
  have hone : (quartet.viewSenders (newViewOf [2, 2, 2])).card < quartet.quorum := by decide +kernel
  have := Finset.card_le_card hsub
  omega

end BlockPropagator

/-! ## Collecting view change messages -/

namespace ViewChangeTracker

/-- Messages handed to a tracker one after another. -/
def collect (quorum : Nat) (t : ViewChangeTracker) (msgs : List P2PViewChange) : ViewChangeTracker :=
  msgs.foldl (fun t m => (t.addMessage m quorum).1) t

/-- The senders of messages for a view. -/
def sendersFor (view : UInt64) (msgs : List P2PViewChange) : Finset NodeId :=
  ((msgs.filter fun m => m.newView = view).map (·.senderId)).toFinset

/-- Those the tracker has no message of yet. -/
def newSenders (t : ViewChangeTracker) (msgs : List P2PViewChange) : Finset NodeId :=
  sendersFor t.targetView msgs \ (t.messages.map (·.senderId)).toFinset

variable {t : ViewChangeTracker} {quorum : Nat}

theorem mem_sendersFor {view : UInt64} {msgs : List P2PViewChange} {id : NodeId} :
    id ∈ sendersFor view msgs ↔ ∃ m ∈ msgs, m.senderId = id ∧ m.newView = view := by
  simp only [sendersFor, List.mem_toFinset, List.mem_map, List.mem_filter, decide_eq_true_eq]
  constructor
  · rintro ⟨m, ⟨hm, hview⟩, hid⟩
    exact ⟨m, hm, hid, hview⟩
  · rintro ⟨m, hm, hid, hview⟩
    exact ⟨m, ⟨hm, hview⟩, hid⟩

theorem sendersFor_cons (view : UInt64) (m : P2PViewChange) (msgs : List P2PViewChange) :
    sendersFor view (m :: msgs) =
      if m.newView = view then insert m.senderId (sendersFor view msgs) else sendersFor view msgs := by
  unfold sendersFor
  split
  · rename_i h
    rw [List.filter_cons_of_pos (by simpa using h), List.map_cons, List.toFinset_cons]
  · rename_i h
    rw [List.filter_cons_of_neg (by simpa using h)]

/-- A message of another view or of a sender the tracker has is dropped; any other is kept, and may be the one that
completes the quorum. -/
theorem addMessage_cases (t : ViewChangeTracker) (m : P2PViewChange) (quorum : Nat) :
    ((m.newView = t.targetView → m.senderId ∈ t.messages.map (·.senderId)) ∧ (t.addMessage m quorum).1 = t) ∨
    (m.newView = t.targetView ∧ m.senderId ∉ t.messages.map (·.senderId) ∧
      (t.addMessage m quorum).1 =
        { t with
          messages := t.messages ++ [m]
          state := if quorum ≤ t.messages.length + 1 ∧ t.state = .collecting then .waitingNewView else t.state }) := by
  unfold addMessage
  by_cases hview : m.newView = t.targetView
  · rw [if_neg (by simpa using hview)]
    by_cases hdup : m.senderId ∈ t.messages.map (·.senderId)
    · rw [if_pos (by simpa using hdup)]
      exact .inl ⟨fun _ => hdup, rfl⟩
    · rw [if_neg (by simpa using hdup)]
      refine .inr ⟨hview, hdup, ?_⟩
      simp only [List.length_append, List.length_singleton]
      split
      · rfl
      · rfl
  · rw [if_pos hview]
    exact .inl ⟨fun h => absurd h hview, rfl⟩

theorem collect_targetView (msgs : List P2PViewChange) : (t.collect quorum msgs).targetView = t.targetView := by
  induction msgs generalizing t with
  | nil => rfl
  | cons m msgs ih =>
      show ((t.addMessage m quorum).1.collect quorum msgs).targetView = _
      rw [ih]
      rcases addMessage_cases t m quorum with ⟨-, heq⟩ | ⟨-, -, heq⟩
      · rw [heq]
      · rw [heq]

/-- A message that is dropped brings no new sender. -/
theorem newSenders_cons_old {m : P2PViewChange}
    (hold : m.newView = t.targetView → m.senderId ∈ t.messages.map (·.senderId)) (msgs : List P2PViewChange) :
    t.newSenders (m :: msgs) = t.newSenders msgs := by
  unfold newSenders
  rw [sendersFor_cons]
  split
  · rename_i hview
    rw [Finset.insert_sdiff_of_mem _ (List.mem_toFinset.mpr (hold hview))]
  · rfl

/-- The sender of a message that is kept is new, and no more so once its message is in. -/
theorem card_newSenders_cons_new {m : P2PViewChange} (hview : m.newView = t.targetView)
    (hnew : m.senderId ∉ t.messages.map (·.senderId)) (state : ViewChangeState) (msgs : List P2PViewChange) :
    (t.newSenders (m :: msgs)).card =
      (newSenders { t with messages := t.messages ++ [m], state := state } msgs).card + 1 := by
  have hsplit : t.newSenders (m :: msgs) =
      insert m.senderId (newSenders { t with messages := t.messages ++ [m], state := state } msgs) := by
    ext id
    simp only [newSenders, sendersFor_cons, if_pos hview, Finset.mem_sdiff, Finset.mem_insert, List.map_append,
      List.map_singleton, List.toFinset_append, Finset.mem_union, List.mem_toFinset, List.mem_singleton]
    by_cases hid : id = m.senderId
    · simp only [hid, true_or, true_and, iff_true]
      exact hnew
    · simp [hid]
  rw [hsplit, Finset.card_insert_of_notMem]
  simp [newSenders]

/-- **When a collection is complete.** Exactly if it was, or if it gets a new sender and has, with all new senders,
a quorum. -/
theorem collect_waiting_iff (msgs : List P2PViewChange) :
    (t.collect quorum msgs).state = .waitingNewView ↔
      t.state = .waitingNewView ∨ (t.state = .collecting ∧ (t.newSenders msgs).Nonempty ∧
        quorum ≤ t.messages.length + (t.newSenders msgs).card) := by
  induction msgs generalizing t with
  | nil =>
      refine ⟨fun h => .inl h, ?_⟩
      rintro (h | ⟨-, ⟨id, hid⟩, -⟩)
      · exact h
      · obtain ⟨m, hm, -⟩ := mem_sendersFor.mp (Finset.mem_sdiff.mp hid).1
        exact absurd hm List.not_mem_nil
  | cons m msgs ih =>
      show ((t.addMessage m quorum).1.collect quorum msgs).state = _ ↔ _
      rw [ih]
      rcases addMessage_cases t m quorum with ⟨hold, heq⟩ | ⟨hview, hnew, heq⟩
      · rw [heq, newSenders_cons_old hold]
      rw [heq, ← Finset.card_pos, ← Finset.card_pos, List.length_append, List.length_singleton,
        card_newSenders_cons_new hview hnew
          (if quorum ≤ t.messages.length + 1 ∧ t.state = .collecting then .waitingNewView else t.state)]
      by_cases hquorum : quorum ≤ t.messages.length + 1 ∧ t.state = .collecting
      · rw [if_pos hquorum]
        exact iff_of_true (.inl rfl) (.inr ⟨hquorum.2, Nat.succ_pos _, by omega⟩)
      · -- short of the quorum: what is missing still has to come
        rw [if_neg hquorum]
        refine or_congr_right (and_congr_right fun hcollecting => ?_)
        have hlt : ¬ quorum ≤ t.messages.length + 1 := fun hle => hquorum ⟨hle, hcollecting⟩
        constructor
        · rintro ⟨-, hle⟩
          exact ⟨Nat.succ_pos _, by omega⟩
        · rintro ⟨-, hle⟩
          exact ⟨by omega, by omega⟩

end ViewChangeTracker

/-- The messages of a view change in the order they are processed: received ones only, or received ones before and
after the node starts its own view change. -/
inductive Collection where
  | received (msgs : List P2PViewChange)
  | started (before : List P2PViewChange) (timestampMs : UInt64) (signFn : List UInt8 → List UInt8)
      (after : List P2PViewChange)

namespace BlockPropagator

/-- Received messages handed to `process_view_change` one after another. -/
def receive (verifyFn : List UInt8 → List UInt8 → NodeId → Bool) (p : BlockPropagator) (msgs : List P2PViewChange) :
    BlockPropagator :=
  msgs.foldl (fun p m => (p.processViewChange m verifyFn).1) p

/-- The engine after a whole collection. -/
def process (verifyFn : List UInt8 → List UInt8 → NodeId → Bool) (p : BlockPropagator) : Collection → BlockPropagator
  | .received msgs => p.receive verifyFn msgs
  | .started before timestampMs signFn after =>
      (((p.receive verifyFn before).initiateViewChange timestampMs signFn).1).receive verifyFn after

end BlockPropagator

namespace Collection

open ViewChangeTracker (sendersFor)

/-- All messages received. -/
def messages : Collection → List P2PViewChange
  | .received msgs => msgs
  | .started before _ _ after => before ++ after

/-- The validators whose message for the next view is in the collection, the node itself included if it starts its own
view change. -/
def senders (p : BlockPropagator) : Collection → Finset NodeId
  | .received msgs => sendersFor (p.view + 1) msgs
  | .started before _ _ after =>
      sendersFor (p.view + 1) (before ++ after) ∪ if p.validators.contains p.nodeId then {p.nodeId} else ∅

/-- **A collection that suffices.** No view change is active, every message received is a validator's and verifies, and
a quorum of validators has a message for the next view. -/
structure Ready (verifyFn : List UInt8 → List UInt8 → NodeId → Bool) (p : BlockPropagator) (c : Collection) : Prop where
  idle : p.viewChange = none
  valid : ∀ m ∈ c.messages, m.senderId ∈ p.validators ∧ verifyFn (viewChangeSignData m) m.signature m.senderId = true
  quorum : p.quorum ≤ (c.senders p).card

/-- **The order that works.** Without an own view change, the first message is for the next view; with one, enough
other validators have their message for the next view after it, and at least one. -/
def InTime (p : BlockPropagator) : Collection → Prop
  | .received msgs => ∃ m ∈ msgs.head?, m.newView = p.view + 1
  | .started _ _ _ after =>
      (sendersFor (p.view + 1) after \ {p.nodeId}).Nonempty ∧
        p.quorum ≤ 1 + (sendersFor (p.view + 1) after \ {p.nodeId}).card

end Collection

section Collected

variable {p : BlockPropagator} {verifyFn : List UInt8 → List UInt8 → NodeId → Bool} {t : ViewChangeTracker}
  {msgs : List P2PViewChange}

theorem processViewChange_valid {m : P2PViewChange} (hval : m.senderId ∈ p.validators)
    (hsig : verifyFn (viewChangeSignData m) m.signature m.senderId = true) :
    (p.processViewChange m verifyFn).1 =
      { p with viewChange := some ((p.viewChange.getD (.new m.newView m.timestampMs)).addMessage m p.quorum).1 } := by
  unfold BlockPropagator.processViewChange
  rw [if_neg (by simpa using hval), if_neg (by simpa using hsig)]

/-- Valid messages go to the tracker there is. -/
theorem receive_tracked (ht : p.viewChange = some t)
    (hvalid : ∀ m ∈ msgs, m.senderId ∈ p.validators ∧
      verifyFn (viewChangeSignData m) m.signature m.senderId = true) :
    p.receive verifyFn msgs = { p with viewChange := some (t.collect p.quorum msgs) } := by
  induction msgs generalizing p t with
  | nil =>
      show p = _
      rw [ViewChangeTracker.collect, List.foldl_nil, ← ht]
  | cons m msgs ih =>
      obtain ⟨⟨hval, hsig⟩, hrest⟩ := List.forall_mem_cons.mp hvalid
      show (p.processViewChange m verifyFn).1.receive verifyFn msgs = _
      rw [processViewChange_valid hval hsig, ht]
      exact ih (p := { p with viewChange := some _ }) rfl hrest

/-- The first valid message opens a tracker for its own view. -/
theorem receive_idle {m : P2PViewChange} (hidle : p.viewChange = none)
    (hvalid : ∀ m' ∈ m :: msgs, m'.senderId ∈ p.validators ∧
      verifyFn (viewChangeSignData m') m'.signature m'.senderId = true) :
    p.receive verifyFn (m :: msgs) =
      { p with viewChange := some ((ViewChangeTracker.new m.newView m.timestampMs).collect p.quorum (m :: msgs)) } := by
  obtain ⟨⟨hval, hsig⟩, hrest⟩ := List.forall_mem_cons.mp hvalid
  show (p.processViewChange m verifyFn).1.receive verifyFn msgs = _
  rw [processViewChange_valid hval hsig, hidle]
  exact receive_tracked (p := { p with viewChange := some _ }) rfl hrest

/-- Received messages touch nothing but the tracker. -/
theorem receive_rest (verifyFn : List UInt8 → List UInt8 → NodeId → Bool) (p : BlockPropagator)
    (msgs : List P2PViewChange) : ∃ vc, p.receive verifyFn msgs = { p with viewChange := vc } := by
  induction msgs generalizing p with
  | nil => exact ⟨p.viewChange, rfl⟩
  | cons m msgs ih =>
      show ∃ vc, (p.processViewChange m verifyFn).1.receive verifyFn msgs = _
      obtain ⟨vc, hvc⟩ := ih (p.processViewChange m verifyFn).1
      refine ⟨vc, ?_⟩
      rw [hvc]
      unfold BlockPropagator.processViewChange
      split
      · rfl
      split
      · rfl
      rfl

end Collected

/-- A tracker waits for the NEW_VIEW message of the view. -/
def WaitsFor (p : BlockPropagator) (view : UInt64) : Prop :=
  ∃ t, p.viewChange = some t ∧ t.targetView = view ∧ t.state = .waitingNewView

theorem quorum_pos (p : BlockPropagator) : 1 ≤ p.quorum := Nat.le_add_left 1 _

/-- **When a collection ends in `WaitingNewView`.** Exactly if its order is one that works. -/
theorem collected_waits_iff (verifyFn : List UInt8 → List UInt8 → NodeId → Bool) (p : BlockPropagator) (c : Collection)
    (hc : c.Ready verifyFn p) : WaitsFor (p.process verifyFn c) (p.view + 1) ↔ c.InTime p := by
  cases c with
  | received msgs =>
      cases msgs with
      | nil => exact absurd (hc.quorum.trans_eq Finset.card_empty) (Nat.not_le.mpr (quorum_pos p))
      | cons m msgs =>
          show WaitsFor (p.receive verifyFn (m :: msgs)) _ ↔ ∃ m' ∈ some m, m'.newView = p.view + 1
          rw [receive_idle hc.idle hc.valid]
          constructor
          · rintro ⟨t, ⟨⟩, htarget, -⟩
            rw [ViewChangeTracker.collect_targetView] at htarget
            exact ⟨m, rfl, htarget⟩
          · rintro ⟨_, ⟨⟩, hview⟩
            refine ⟨_, rfl, ?_, ?_⟩
            · rw [ViewChangeTracker.collect_targetView]
              exact hview
            · rw [ViewChangeTracker.collect_waiting_iff]
              -- a fresh tracker has no messages, so all senders are new
              have hnew : (ViewChangeTracker.new m.newView m.timestampMs).newSenders (m :: msgs) =
                  ViewChangeTracker.sendersFor (p.view + 1) (m :: msgs) := by
                rw [← hview]
                exact Finset.sdiff_empty
              rw [hnew]
              refine .inr ⟨rfl, Finset.card_pos.mp (Nat.lt_of_lt_of_le (quorum_pos p) hc.quorum), ?_⟩
              exact hc.quorum.trans (Nat.le_add_left _ _)
  | started before timestampMs signFn after =>
      obtain ⟨vc, hvc⟩ := receive_rest verifyFn p before
      have hvalid : ∀ m ∈ after, m.senderId ∈ p.validators ∧
          verifyFn (viewChangeSignData m) m.signature m.senderId = true :=
        fun m hm => hc.valid m (List.mem_append_right _ hm)
      show WaitsFor ((((p.receive verifyFn before).initiateViewChange timestampMs signFn).1).receive verifyFn after) _ ↔ _
      rw [hvc, receive_tracked (p := (BlockPropagator.initiateViewChange { p with viewChange := vc } timestampMs signFn).1)
        rfl hvalid]
      constructor
      · rintro ⟨t, ⟨⟩, -, hwaits⟩
        rcases (ViewChangeTracker.collect_waiting_iff after).mp hwaits with h | ⟨-, hne, hle⟩
        · cases h
        · exact ⟨hne, hle⟩
      · rintro ⟨hne, hle⟩
        refine ⟨_, rfl, ?_, ?_⟩
        · rw [ViewChangeTracker.collect_targetView]
          rfl
        · exact (ViewChangeTracker.collect_waiting_iff after).mpr (.inr ⟨rfl, hne, hle⟩)

/-! ### Messages that come before one's own -/

/-- The messages of nodes 2 and 3 for view 1 come after the first node started its own view change. -/
def ownFirst : Collection :=
  .started [] 1000 (scriptSign (makeNodeId 1)) [scriptViewChange 1 2, scriptViewChange 1 3]

/-- The same messages come before it. -/
def ownLast : Collection :=
  .started [scriptViewChange 1 2, scriptViewChange 1 3] 1000 (scriptSign (makeNodeId 1)) []

theorem ownFirst_ready : ownFirst.Ready scriptVerify quartet := ⟨rfl, by decide +kernel, by decide +kernel⟩

theorem ownLast_ready : ownLast.Ready scriptVerify quartet := ⟨rfl, by decide +kernel, by decide +kernel⟩

theorem collected_waits_iff_own_first :
    ownFirst.Ready scriptVerify quartet ∧ WaitsFor (quartet.process scriptVerify ownFirst) 1 :=
  ⟨ownFirst_ready, (collected_waits_iff scriptVerify quartet ownFirst ownFirst_ready).mpr
    ⟨⟨makeNodeId 2, by decide +kernel⟩, by decide +kernel⟩⟩

/-- Two messages and then the own one make a quorum of three, but only the own one is kept. -/
theorem own_view_change_discards : ¬ ∀ (verifyFn : List UInt8 → List UInt8 → NodeId → Bool) (p : BlockPropagator)
    (c : Collection), c.Ready verifyFn p → WaitsFor (p.process verifyFn c) (p.view + 1) := by
  intro hall
  obtain ⟨t, ht, -, hstate⟩ := hall scriptVerify quartet ownLast ownLast_ready
  have hcollecting : ((quartet.process scriptVerify ownLast).viewChange.map (·.state)) = some .collecting := by
    decide +kernel
  rw [ht, Option.map_some, hstate] at hcollecting
  cases hcollecting

/-! ## Reporting prepared blocks -/

variable {sha3 : List UInt8 → BlockHash}

/-- A node, and the slots and hashes of the blocks that reached their quorum through `process_vote`. -/
structure QuorumLog where
  node : BlockPropagator
  reached : List (Slot × BlockHash)

/-- The slot and the hash of the block whose quorum a call completes. -/
def PropagatorOp.reaches (p : BlockPropagator) : PropagatorOp → Option (Slot × BlockHash)
  | .processVote vote verifyFn => (p.completed vote verifyFn).map fun b => (vote.slot, b.proposal.blockHash)
  | _ => none

/-- The engine under any calls, with the blocks that reached their quorum. -/
def quorumPropagator (sha3 : List UInt8 → BlockHash) : System QuorumLog PropagatorOp where
  init s := (∃ nodeId validators, s.node = .new nodeId validators) ∧ s.reached = []
  step op s := some { node := op.call sha3 s.node, reached := (op.reaches s.node).toList ++ s.reached }

/-- The message reports a block that reached its quorum in the view of the slot `k`, at its round or a later one. -/
def Reports (reached : List (Slot × BlockHash)) (k : Slot) (msg : P2PViewChange) : Prop :=
  ∃ round hash, msg.lastPreparedRound = some round ∧ k.2 ≤ round ∧ msg.lastPreparedBlock = some hash ∧
    ((k.1, round), hash) ∈ reached

/-- **The report that is due.** Every block of the current view that reached its quorum is reported, itself or a
later one, and a leader that collected the message starts above its round. -/
def ReportsReached (s : QuorumLog) (msg : P2PViewChange) : Prop :=
  ∀ k hash, (k, hash) ∈ s.reached → k.1 = s.node.view →
    Reports s.reached k msg ∧ ∀ t : ViewChangeTracker, msg ∈ t.messages → k.2 < t.startingRound

/-- A view change message of some engine, in some state of some run. -/
def Initiated (sha3 : List UInt8 → BlockHash) (msg : P2PViewChange) : Prop :=
  ∃ s, (quorumPropagator sha3).Reachable (fun _ _ => True) s ∧ ∃ timestampMs signFn,
    msg = (s.node.initiateViewChange timestampMs signFn).2

/-- No pending block is in state `Prepared`: a vote that prepares its block commits it in the same call. -/
theorem reachable_not_prepared {s : QuorumLog} (hr : (quorumPropagator sha3).Reachable (fun _ _ => True) s) :
    AllPending (fun _ b => b.state ≠ .prepared) s.node := by
  refine System.Reachable.invariant (P := fun s => AllPending (fun _ b => b.state ≠ .prepared) s.node) ?_ ?_ hr
  · rintro s ⟨⟨nodeId, validators, hnode⟩, -⟩
    rw [hnode]
    exact allPending_new nodeId validators
  · rintro s op s' hs - ⟨⟩
    refine hs.call op ?_ ?_ ?_
    · intro proposal timestampMs h
      cases h
    · -- a vote that does not complete the quorum leaves the state
      rintro vote verifyFn b - - hb hno
      rcases addVote_cases b vote s.node.quorum with ⟨-, heq⟩ | ⟨-, ⟨-, -, heq⟩ | ⟨-, heq⟩⟩
      · rw [heq]
        exact hb
      · rw [heq] at hno
        cases hno
      · rw [heq]
        exact hb
    · rintro vote verifyFn b - - - - h
      cases h

theorem lastPrepared_eq_none {p : BlockPropagator} (hp : AllPending (fun _ b => b.state ≠ .prepared) p) :
    p.lastPrepared = none := by
  unfold BlockPropagator.lastPrepared
  rw [maxByKey_eq_none, List.filter_eq_nil_iff]
  intro b hb
  obtain ⟨⟨k, b⟩, hmem, rfl⟩ := List.mem_map.mp hb
  have hstate := hp k b (AList.mem_lookup_iff.mpr hmem)
  simp [hstate]

theorem Initiated.reports_nothing {msg : P2PViewChange} (hmsg : Initiated sha3 msg) : msg.lastPreparedRound = none := by
  obtain ⟨s, hr, timestampMs, signFn, rfl⟩ := hmsg
  show s.node.lastPrepared.map _ = none
  rw [lastPrepared_eq_none (reachable_not_prepared hr)]
  rfl

theorem startingRound_of_none {t : ViewChangeTracker} (h : ∀ m ∈ t.messages, m.lastPreparedRound = none) :
    t.startingRound = 0 := by
  have hnil : t.messages.filterMap (fun m => m.lastPreparedRound.map fun r => (r, m.lastPreparedBlock)) = [] := by
    rw [List.filterMap_eq_nil_iff]
    intro m hm
    rw [h m hm]
    rfl
  unfold ViewChangeTracker.startingRound
  rw [hnil]
  rfl

/-- **No quorum-backed block is ever reported.** In every state of every run the report that is due is made only
if there is nothing to report; and a leader whose messages all come from such engines starts at round 0. -/
theorem quorum_block_never_reported (sha3 : List UInt8 → BlockHash) (s : QuorumLog)
    (hr : (quorumPropagator sha3).Reachable (fun _ _ => True) s) (timestampMs : UInt64)
    (signFn : List UInt8 → List UInt8) :
    (ReportsReached s (s.node.initiateViewChange timestampMs signFn).2 ↔ ∀ x ∈ s.reached, x.1.1 ≠ s.node.view) ∧
      ∀ t : ViewChangeTracker, (∀ m ∈ t.messages, Initiated sha3 m) → t.startingRound = 0 := by
  have hnone : (s.node.initiateViewChange timestampMs signFn).2.lastPreparedRound = none :=
    Initiated.reports_nothing ⟨s, hr, timestampMs, signFn, rfl⟩
  refine ⟨⟨?_, ?_⟩, ?_⟩
  · rintro hrep ⟨k, hash⟩ hmem hview
    obtain ⟨⟨round, -, hsome, -⟩, -⟩ := hrep k hash hmem hview
    rw [hnone] at hsome
    cases hsome
  · intro hno k hash hmem hview
    exact absurd hview (hno (k, hash) hmem)
  · intro t ht
    exact startingRound_of_none fun m hm => (ht m hm).reports_nothing

/-! ### A committed block that is not reported -/

/-- The second of four validators with a block that reached its quorum in round 0, at the end of a run. -/
theorem exists_reached : ∃ s past, (quorumPropagator scriptSha3).Run (fun _ _ => True) (s :: past) ∧
    ∃ x ∈ s.reached, x.1.1 = s.node.view :=
  System.exists_run_of_play (M := quorumPropagator scriptSha3) (fun _ _ => True)
    (P := fun s _ => ∃ x ∈ s.reached, x.1.1 = s.node.view) (s := ⟨secondOfFour, []⟩) ⟨⟨_, _, rfl⟩, rfl⟩
    ((fun _ => deliver 0 [1]) ::
      [1, 3, 4].map fun n _ => .processVote (ballot n (scriptProposal 0 [1])) scriptVerify) (by decide +kernel)

theorem quorum_block_never_reported_round_zero : ∃ s, (quorumPropagator scriptSha3).Reachable (fun _ _ => True) s ∧
    (∃ x ∈ s.reached, x.1.1 = s.node.view) ∧
    ¬ ReportsReached s (s.node.initiateViewChange 1000 (scriptSign (makeNodeId 2))).2 := by
  obtain ⟨s, past, hr, x, hx, hview⟩ := exists_reached
  refine ⟨s, ⟨past, hr⟩, ⟨x, hx, hview⟩, fun hrep => ?_⟩
  exact (quorum_block_never_reported scriptSha3 s ⟨past, hr⟩ 1000 (scriptSign (makeNodeId 2))).1.mp hrep x hx hview

/-- The block of round 0 reached its quorum, and the view change message that follows reports nothing. -/
theorem committed_block_not_reported : ¬ ∀ (sha3 : List UInt8 → BlockHash) (s : QuorumLog),
    (quorumPropagator sha3).Reachable (fun _ _ => True) s → ∀ timestampMs signFn,
      ReportsReached s (s.node.initiateViewChange timestampMs signFn).2 := by
  intro hall
  obtain ⟨s, past, hr, ⟨k, hash⟩, hx, hview⟩ := exists_reached
  obtain ⟨⟨round, -, hsome, -⟩, -⟩ := hall scriptSha3 s ⟨past, hr⟩ 1000 id k hash hx hview
  rw [Initiated.reports_nothing ⟨s, ⟨past, hr⟩, 1000, id, rfl⟩] at hsome
  cases hsome

end WarmLogic.Net
