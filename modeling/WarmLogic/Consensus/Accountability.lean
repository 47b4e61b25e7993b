/-
# WarmLogic.Consensus.Accountability — whom a network of BFT engines accuses of conflicting view changes.

Every node runs an engine and a detector. It hands each VIEW_CHANGE message it receives to `check_view_change`, and
clears the history of the detector when its own `apply_new_view` succeeds. Messages of honest nodes are those their
engines made, delivered at any time, in any order and any number of times; the others are arbitrary.

The history belongs to the receiver, and the views in it to the senders. A sender that installs a view and asks for
the next one, while the receiver still waits for the NEW_VIEW message of the first, has sent two messages for
different views "in the same view change round" of the receiver, and is accused. `honest_unaccused_iff` says when this
does not happen: if and only if between two installations of a receiver the messages of one honest sender that reach
it are all for one view. `honest_unaccused_in_step` is the case the protocol aims at: every message arrives while its
receiver is in the view it was sent from.

The three records beside the nodes are ghosts: what was sent, what each node heard since it last installed a view, and
what was found. They make the result an equivalence. In one direction an accusation of an honest sender had a cause,
two messages for different views that the accuser heard, at a state of the run at which both were heard; in the other,
two such messages are an accusation, because the detector compares every message with the one it has.

No bound on the number of nodes, honest or not, is used, and no quorum: accountability of this kind is a property of
one receiver and one sender.
-/
import WarmLogic.Consensus.BftVoteSet
import WarmLogic.Consensus.Byzantine

namespace WarmLogic.Consensus.Byzantine

open WarmLogic.Lib WarmLogic.Consensus.Bft

variable {δ : Type}

/-! ## The network -/

/-- The VIEW_CHANGE message a call makes. -/
def emitted (e : BFTEngine δ) : BftOp δ → Option ViewChangeMessage
  | .triggerViewChange senderId signature nowMs => some (e.triggerViewChange senderId signature nowMs).2
  | .checkAndTriggerTimeout currentTimeMs senderId signature nowMs =>
      (e.checkAndTriggerTimeout currentTimeMs senderId signature nowMs).2
  | _ => none

/-- The call runs `apply_new_view`, and that succeeds. -/
def installs (e : BFTEngine δ) : BftOp δ → Bool
  | .round (.applyNewView msg) => (e.applyNewView msg).2.isOk
  | .completeViewChange leaderId signature => (e.completeViewChange leaderId signature).2.isOk
  | _ => false

/-- The nodes with their engines and detectors, and three records of what happened: the messages sent, the messages a
node received since it last installed a view, and the violations found, each with the node that found it. -/
structure Network (δ : Type) where
  engine : String → BFTEngine δ
  detector : String → ByzantineDetector
  sent : List ViewChangeMessage
  heard : String → List ViewChangeMessage
  accused : List (String × ByzantineViolation)

/-- A call on a node's engine, or a message that reaches a node. -/
inductive NetworkOp (δ : Type) where
  | call (node : String) (op : BftOp δ)
  | receive (node : String) (msg : ViewChangeMessage)

namespace Network

/-- A node calls its engine, and clears its history if it installed a view. -/
def call (verifyRaw : String → String → String → Bool) (s : Network δ) (node : String) (op : BftOp δ) : Network δ :=
  { engine := Function.update s.engine node (op.run verifyRaw (s.engine node))
    detector :=
      if installs (s.engine node) op then
        Function.update s.detector node (s.detector node).clearViewChangeHistory
      else s.detector
    sent := (emitted (s.engine node) op).toList ++ s.sent
    heard := if installs (s.engine node) op then Function.update s.heard node [] else s.heard
    accused := s.accused }

/-- A node hands a message to its detector. -/
def receive (s : Network δ) (node : String) (msg : ViewChangeMessage) : Network δ :=
  { engine := s.engine
    detector := Function.update s.detector node ((s.detector node).checkViewChange msg).1
    sent := s.sent
    heard := Function.update s.heard node (s.heard node ++ [msg])
    accused := (((s.detector node).checkViewChange msg).2.map fun violation => (node, violation)).toList ++ s.accused }

end Network

/-- The network: honest nodes make messages in their own name, and a message in the name of an honest node was made
by it. -/
def network (verifyRaw : String → String → String → Bool) (honest : Finset String) :
    System (Network δ) (NetworkOp δ) where
  init s :=
    (∀ node, (∃ q, s.engine node = .new q) ∨ ∃ q vs, s.engine node = .withValidators q vs) ∧
      (∀ node, s.detector node = .new) ∧ s.sent = [] ∧ (∀ node, s.heard node = []) ∧ s.accused = []
  step op s :=
    match op with
    | .call node op =>
        if node ∈ honest ∧ ∀ msg ∈ emitted (s.engine node) op, msg.senderId = node then some (s.call verifyRaw node op)
        else none
    | .receive node msg =>
        if node ∈ honest ∧ (msg.senderId ∈ honest → msg ∈ s.sent) then some (s.receive node msg) else none

/-- Some honest node is accused of conflicting view changes. -/
def HonestAccused (honest : Finset String) (s : Network δ) : Prop :=
  ∃ node, ∃ senderId ∈ honest, ∃ view1 view2, (node, .conflictingViewChange senderId view1 view2) ∈ s.accused

/-- **One view a sender.** What a node heard of an honest sender since it last installed a view is for one view. -/
def OneView (honest : Finset String) (s : Network δ) : Prop :=
  ∀ node, ∀ m ∈ s.heard node, ∀ m' ∈ s.heard node, m.senderId ∈ honest → m'.senderId = m.senderId →
    m.newView = m'.newView

/-! ## What the history of a detector holds -/

/-- The view recorded for a sender. -/
def ByzantineDetector.viewOf (d : ByzantineDetector) (senderId : String) : Option UInt64 :=
  (d.viewChangeHistory.lookup senderId).map (·.1)

/-- The view of the first message of a sender. -/
def firstView (msgs : List ViewChangeMessage) (senderId : String) : Option UInt64 :=
  (msgs.find? fun m => m.senderId = senderId).map (·.newView)

/-- A message is accused if another view is recorded for its sender, and else recorded. -/
theorem checkViewChange_cases (d : ByzantineDetector) (msg : ViewChangeMessage) :
    (∃ view, d.viewOf msg.senderId = some view ∧ view ≠ msg.newView ∧
      (d.checkViewChange msg).2 = some (.conflictingViewChange msg.senderId view msg.newView) ∧
      (d.checkViewChange msg).1.viewChangeHistory = d.viewChangeHistory) ∨
    ((∀ view ∈ d.viewOf msg.senderId, view = msg.newView) ∧ (d.checkViewChange msg).2 = none ∧
      ∀ senderId, (d.checkViewChange msg).1.viewOf senderId =
        if senderId = msg.senderId then some msg.newView else d.viewOf senderId) := by
  have hrecorded : ∀ senderId,
      ((d.viewChangeHistory.insert msg.senderId (msg.newView, msg.signature)).lookup senderId).map (·.1) =
        if senderId = msg.senderId then some msg.newView else d.viewOf senderId := by
    intro senderId
    split
    · rename_i hid
      rw [hid, AList.lookup_insert]
      rfl
    · rename_i hid
      rw [AList.lookup_insert_ne hid]
      rfl
  unfold ByzantineDetector.checkViewChange ByzantineDetector.viewOf
  cases hprev : d.viewChangeHistory.lookup msg.senderId with
  | none => exact .inr ⟨fun view hview => absurd hview (Option.not_mem_none _), rfl, hrecorded⟩
  | some prev =>
      by_cases hview : prev.1 = msg.newView
      · right
        simp only [hview, ne_eq, not_true_eq_false, if_false]
        refine ⟨?_, trivial, hrecorded⟩
        rintro view ⟨⟩
        exact hview
      · left
        simp only [hview, ne_eq, not_false_eq_true, if_true]
        exact ⟨prev.1, rfl, hview, rfl, trivial⟩

/-- A message gives its sender a view, unless there is one. -/
theorem checkViewChange_viewOf (d : ByzantineDetector) (msg : ViewChangeMessage) (senderId : String) :
    (d.checkViewChange msg).1.viewOf senderId =
      (d.viewOf senderId).or (if senderId = msg.senderId then some msg.newView else none) := by
  rcases checkViewChange_cases d msg with ⟨view, hview, -, -, hkeep⟩ | ⟨hsame, -, hrec⟩
  · rw [ByzantineDetector.viewOf, hkeep, ← ByzantineDetector.viewOf]
    by_cases hid : senderId = msg.senderId
    · rw [hid, hview, Option.some_or]
    · rw [if_neg hid, Option.or_none]
  · rw [hrec]
    split
    · rename_i hid
      rw [hid]
      cases hold : d.viewOf msg.senderId with
      | none => rfl
      | some view => rw [hsame view hold, Option.some_or]
    · rw [Option.or_none]

/-- What a message is accused of: the other view recorded for its sender. -/
theorem checkViewChange_eq_some {d : ByzantineDetector} {msg : ViewChangeMessage} {violation : ByzantineViolation} :
    (d.checkViewChange msg).2 = some violation ↔ ∃ view, d.viewOf msg.senderId = some view ∧ view ≠ msg.newView ∧
      violation = .conflictingViewChange msg.senderId view msg.newView := by
  rcases checkViewChange_cases d msg with ⟨view, hview, hne, hsome, -⟩ | ⟨hsame, hnone, -⟩
  · rw [hsome, hview]
    constructor
    · rintro ⟨⟩
      exact ⟨view, rfl, hne, rfl⟩
    · rintro ⟨_, ⟨⟩, -, rfl⟩
      rfl
  · rw [hnone]
    refine iff_of_false (Option.some_ne_none _).symm ?_
    rintro ⟨view, hview, hne, -⟩
    exact hne (hsame view hview)

theorem firstView_snoc (msgs : List ViewChangeMessage) (msg : ViewChangeMessage) (senderId : String) :
    firstView (msgs ++ [msg]) senderId =
      (firstView msgs senderId).or (if senderId = msg.senderId then some msg.newView else none) := by
  unfold firstView
  rw [List.find?_append, Option.map_or, List.find?_singleton]
  congr 1
  by_cases h : senderId = msg.senderId
  · simp [h]
  · simp [h, Ne.symm h]

theorem firstView_of_mem {msgs : List ViewChangeMessage} {m : ViewChangeMessage} (hm : m ∈ msgs) :
    ∃ f ∈ msgs, f.senderId = m.senderId ∧ firstView msgs m.senderId = some f.newView := by
  unfold firstView
  cases hf : msgs.find? fun x => x.senderId = m.senderId with
  | none => exact absurd (List.find?_eq_none.mp hf m hm) (by simp)
  | some f => exact ⟨f, List.mem_of_find?_eq_some hf, by simpa using List.find?_some hf, rfl⟩

theorem exists_of_firstView {msgs : List ViewChangeMessage} {senderId : String} {view : UInt64}
    (h : firstView msgs senderId = some view) : ∃ f ∈ msgs, f.senderId = senderId ∧ f.newView = view := by
  obtain ⟨f, hf, hview⟩ := Option.map_eq_some_iff.mp h
  exact ⟨f, List.mem_of_find?_eq_some hf, by simpa using List.find?_some hf, hview⟩

/-! ## Every run -/

/-- **The invariant.** A node's history holds the view of the first message it heard of each sender, because an
agreeing message overwrites its entry with the same view and a conflicting one leaves it alone; every message heard
that is for another view was accused, at the moment it arrived; and every accusation had two such messages. An
installation clears history and record of the node together, and leaves the accusations. -/
structure AccountInv (s : Network δ) (h : List (Network δ)) : Prop where
  first : ∀ node senderId, (s.detector node).viewOf senderId = firstView (s.heard node) senderId
  found : ∀ node, ∀ m ∈ s.heard node, ∀ view ∈ firstView (s.heard node) m.senderId, view ≠ m.newView →
    (node, .conflictingViewChange m.senderId view m.newView) ∈ s.accused
  cause : ∀ node senderId view1 view2, (node, .conflictingViewChange senderId view1 view2) ∈ s.accused →
    ∃ t ∈ h, ∃ m ∈ t.heard node, ∃ m' ∈ t.heard node, m.senderId = senderId ∧ m'.senderId = senderId ∧
      m.newView ≠ m'.newView

section Step

variable {verifyRaw : String → String → String → Bool} {s : Network δ} {past : List (Network δ)}

/-- A node that installs a view has heard nothing yet; nobody else notices. -/
theorem Network.call_heard (s : Network δ) (node : String) (op : BftOp δ) (n : String) :
    (s.call verifyRaw node op).heard n = if n = node ∧ installs (s.engine node) op then [] else s.heard n := by
  cases hinst : installs (s.engine node) op with
  | false => simp [Network.call, hinst]
  | true => simp [Network.call, hinst, Function.update_apply]

theorem Network.call_viewOf (s : Network δ) (node : String) (op : BftOp δ) (n senderId : String) :
    ((s.call verifyRaw node op).detector n).viewOf senderId =
      if n = node ∧ installs (s.engine node) op then none else (s.detector n).viewOf senderId := by
  cases hinst : installs (s.engine node) op with
  | false => simp [Network.call, hinst]
  | true =>
      by_cases hn : n = node
      · simp [Network.call, hinst, hn, ByzantineDetector.viewOf, ByzantineDetector.clearViewChangeHistory]
      · simp [Network.call, hinst, hn]

theorem Network.receive_heard (s : Network δ) (node : String) (msg : ViewChangeMessage) (n : String) :
    (s.receive node msg).heard n = if n = node then s.heard n ++ [msg] else s.heard n := by
  show Function.update s.heard node (s.heard node ++ [msg]) n = _
  rw [Function.update_apply]
  split
  · rename_i hn
    rw [hn]
  · rfl

/-- A message that was heard before it, or the message itself at its receiver. -/
theorem Network.mem_receive_heard {node n : String} {msg m : ViewChangeMessage} :
    m ∈ (s.receive node msg).heard n ↔ m ∈ s.heard n ∨ n = node ∧ m = msg := by
  rw [Network.receive_heard]
  split
  · rename_i hn
    rw [List.mem_append, List.mem_singleton, and_iff_right hn]
  · rename_i hn
    exact ⟨.inl, fun h => h.resolve_right fun h => hn h.1⟩

theorem Network.receive_viewOf (s : Network δ) (node : String) (msg : ViewChangeMessage) (n senderId : String) :
    ((s.receive node msg).detector n).viewOf senderId =
      if n = node then ((s.detector n).viewOf senderId).or (if senderId = msg.senderId then some msg.newView else none)
      else (s.detector n).viewOf senderId := by
  show (Function.update s.detector node ((s.detector node).checkViewChange msg).1 n).viewOf senderId = _
  rw [Function.update_apply]
  split
  · rename_i hn
    rw [hn, checkViewChange_viewOf]
  · rfl

/-- What is accused when a message arrives: what was accused before, or what the detector says of it. -/
theorem Network.mem_receive_accused {node n : String} {msg : ViewChangeMessage} {violation : ByzantineViolation} :
    (n, violation) ∈ (s.receive node msg).accused ↔ (n, violation) ∈ s.accused ∨
      n = node ∧ ((s.detector node).checkViewChange msg).2 = some violation := by
  show _ ∈ (((s.detector node).checkViewChange msg).2.map fun violation => (node, violation)).toList ++ s.accused ↔ _
  rw [List.mem_append, Option.mem_toList, Option.map_eq_some_iff, or_comm]
  refine or_congr_right ⟨?_, ?_⟩
  · rintro ⟨v, hv, ⟨⟩⟩
    exact ⟨rfl, hv⟩
  · rintro ⟨rfl, hv⟩
    exact ⟨violation, hv, rfl⟩

/-- What was the cause of an accusation stays its cause. -/
theorem AccountInv.cause_cons (hi : AccountInv s (s :: past)) (s' : Network δ) {n senderId : String}
    {view1 view2 : UInt64} (hacc : (n, .conflictingViewChange senderId view1 view2) ∈ s.accused) :
    ∃ t ∈ s' :: s :: past, ∃ m ∈ t.heard n, ∃ m' ∈ t.heard n, m.senderId = senderId ∧ m'.senderId = senderId ∧
      m.newView ≠ m'.newView := by
  obtain ⟨t, ht, hm⟩ := hi.cause n senderId view1 view2 hacc
  exact ⟨t, List.mem_cons_of_mem _ ht, hm⟩

/-- A node that did not install a view keeps what it heard; one that did starts afresh. -/
theorem AccountInv.call (hi : AccountInv s (s :: past)) (node : String) (op : BftOp δ) :
    AccountInv (s.call verifyRaw node op) (s.call verifyRaw node op :: s :: past) := by
  refine ⟨?_, ?_, fun n senderId view1 view2 hacc => hi.cause_cons _ hacc⟩
  · intro n senderId
    rw [Network.call_viewOf, Network.call_heard]
    split
    · rfl
    · exact hi.first n senderId
  · intro n
    rw [Network.call_heard]
    split
    · exact fun m hm => absurd hm List.not_mem_nil
    · exact hi.found n

theorem AccountInv.receive (hi : AccountInv s (s :: past)) (node : String) (msg : ViewChangeMessage) :
    AccountInv (s.receive node msg) (s.receive node msg :: s :: past) := by
  have hfirst : ∀ n senderId, ((s.receive node msg).detector n).viewOf senderId =
      firstView ((s.receive node msg).heard n) senderId := by
    intro n senderId
    rw [Network.receive_viewOf, Network.receive_heard, hi.first]
    split
    · rw [firstView_snoc]
    · rfl
  refine ⟨hfirst, ?_, ?_⟩
  · intro n m hm view hview hne
    rw [Option.mem_def, ← hfirst, Network.receive_viewOf, hi.first] at hview
    refine Network.mem_receive_accused.mpr ?_
    rcases Network.mem_receive_heard.mp hm with hm | ⟨hn, heq⟩
    · -- an earlier message: its sender was in the history
      left
      obtain ⟨f, -, -, hf⟩ := firstView_of_mem hm
      rw [hf, Option.some_or, ite_self] at hview
      exact hi.found n m hm view (hf.trans hview) hne
    · right
      rw [heq] at hview hne ⊢
      rw [if_pos hn, if_pos rfl, ← hi.first, hn] at hview
      refine ⟨hn, checkViewChange_eq_some.mpr ⟨view, ?_, hne, rfl⟩⟩
      -- a view of its own is the message's, which is not another one
      exact (Option.or_eq_some_iff.mp hview).resolve_right fun h => hne (Option.some.inj h.2).symm
  · intro n senderId view1 view2 hacc
    rcases Network.mem_receive_accused.mp hacc with hacc | ⟨hn, hacc⟩
    · exact hi.cause_cons _ hacc
    · -- the new accusation: the recorded message and this one
      obtain ⟨view, hview, hne, ⟨⟩⟩ := checkViewChange_eq_some.mp hacc
      rw [hi.first, ← hn] at hview
      obtain ⟨f, hf, hid, hfview⟩ := exists_of_firstView hview
      refine ⟨_, List.mem_cons_self, f, Network.mem_receive_heard.mpr (.inl hf), msg,
        Network.mem_receive_heard.mpr (.inr ⟨hn, rfl⟩), hid, rfl, ?_⟩
      rw [hfview]
      exact hne

end Step

/-- What a step of the network does. -/
theorem network_step {verifyRaw : String → String → String → Bool} {honest : Finset String} {op : NetworkOp δ}
    {s s' : Network δ} (h : (network verifyRaw honest).step op s = some s') :
    (∃ node ∈ honest, ∃ o, op = .call node o ∧ s' = s.call verifyRaw node o) ∨
      ∃ node ∈ honest, ∃ msg, op = .receive node msg ∧ (msg.senderId ∈ honest → msg ∈ s.sent) ∧
        s' = s.receive node msg := by
  cases op with
  | call node o =>
      rw [network] at h
      dsimp only at h
      split at h
      · rename_i hok
        cases h
        exact .inl ⟨node, hok.1, o, rfl, rfl⟩
      · cases h
  | receive node msg =>
      rw [network] at h
      dsimp only at h
      split at h
      · rename_i hok
        cases h
        exact .inr ⟨node, hok.1, msg, rfl, hok.2, rfl⟩
      · cases h

theorem run_accountInv {verifyRaw : String → String → String → Bool} {honest : Finset String}
    {ok : NetworkOp δ → Network δ → Prop} {s : Network δ} {past : List (Network δ)}
    (hr : (network verifyRaw honest).Run ok (s :: past)) : AccountInv s (s :: past) := by
  refine System.Run.invariant_head (P := AccountInv) ?_ ?_ hr
  · rintro s ⟨-, hdet, -, hheard, hacc⟩
    refine ⟨?_, ?_, ?_⟩
    · intro node senderId
      rw [hdet, hheard]
      rfl
    · intro node m hm
      rw [hheard] at hm
      exact absurd hm List.not_mem_nil
    · intro node senderId view1 view2 hmem
      rw [hacc] at hmem
      exact absurd hmem List.not_mem_nil
  · rintro s past op s' - hi - hstep
    rcases network_step hstep with ⟨node, -, o, -, rfl⟩ | ⟨node, -, msg, -, -, rfl⟩
    · exact hi.call node o
    · exact hi.receive node msg

/-- An accusation of an honest node takes two of its messages for different views. -/
theorem unaccused_of_oneView {verifyRaw : String → String → String → Bool} {honest : Finset String}
    {ok : NetworkOp δ → Network δ → Prop} {h : List (Network δ)} (hr : (network verifyRaw honest).Run ok h)
    (hone : ∀ s ∈ h, OneView honest s) : ∀ s ∈ h, ¬ HonestAccused honest s := by
  rintro s hs ⟨node, senderId, hhonest, view1, view2, hacc⟩
  obtain ⟨past, hsuf, hrun⟩ := hr.exists_suffix hs
  obtain ⟨t, ht, m, hm, m', hm', hid, hid', hne⟩ := (run_accountInv hrun).cause node senderId view1 view2 hacc
  exact hne (hone t (hsuf.subset ht) node m hm m' hm' (hid ▸ hhonest) (hid'.trans hid.symm))

/-- **When no honest node is accused.** In every run, exactly if between two installations of a node the messages of
one honest sender that reach it are all for one view. -/
theorem honest_unaccused_iff (verifyRaw : String → String → String → Bool) (honest : Finset String)
    (h : List (Network δ)) (hr : (network verifyRaw honest).Run (fun _ _ => True) h) :
    (∀ s ∈ h, ¬ HonestAccused honest s) ↔ ∀ s ∈ h, OneView honest s := by
  refine ⟨?_, unaccused_of_oneView hr⟩
  intro hno s hs node m hm m' hm' hhonest hsame
  obtain ⟨past, -, hrun⟩ := hr.exists_suffix hs
  have hi := run_accountInv hrun
  obtain ⟨f, -, -, hfirst⟩ := firstView_of_mem hm
  -- a message for another view than the first would have been accused
  have hview : ∀ x ∈ s.heard node, x.senderId = m.senderId → f.newView = x.newView := by
    intro x hx hid
    by_contra hne
    refine hno s hs ⟨node, m.senderId, hhonest, f.newView, x.newView, ?_⟩
    rw [← hid] at hfirst ⊢
    exact hi.found node x hx f.newView hfirst hne
  exact (hview m hm rfl).symm.trans (hview m' hm' hsame)

/-! ## Messages that arrive in step -/

/-- A message of an honest sender arrives while the receiver is in the view it was sent from; and a call that changes
the view is one whose `apply_new_view` succeeds. -/
def InStep (verifyRaw : String → String → String → Bool) (honest : Finset String) : NetworkOp δ → Network δ → Prop
  | .call node op, s =>
      installs (s.engine node) op = false → (op.run verifyRaw (s.engine node)).view = (s.engine node).view
  | .receive node msg, s => msg.senderId ∈ honest → msg.newView = (s.engine node).view + 1

/-- What was heard of honest senders is for the next view of the receiver. -/
def HeardNext (honest : Finset String) (s : Network δ) : Prop :=
  ∀ node, ∀ m ∈ s.heard node, m.senderId ∈ honest → m.newView = (s.engine node).view + 1

theorem HeardNext.oneView {honest : Finset String} {s : Network δ} (hs : HeardNext honest s) : OneView honest s := by
  intro node m hm m' hm' hhonest hsame
  rw [hs node m hm hhonest, hs node m' hm' (hsame ▸ hhonest)]

theorem HeardNext.step {verifyRaw : String → String → String → Bool} {honest : Finset String} {op : NetworkOp δ}
    {s s' : Network δ} (hs : HeardNext honest s) (hok : InStep verifyRaw honest op s)
    (hstep : (network verifyRaw honest).step op s = some s') : HeardNext honest s' := by
  rcases network_step hstep with ⟨node, -, o, rfl, rfl⟩ | ⟨node, -, msg, rfl, -, rfl⟩
  · intro n m hm hhonest
    rw [Network.call_heard] at hm
    split at hm
    · exact absurd hm List.not_mem_nil
    rename_i hkept
    show m.newView = (Function.update s.engine node (o.run verifyRaw (s.engine node)) n).view + 1
    by_cases hn : n = node
    · subst hn
      have hview : (o.run verifyRaw (s.engine n)).view = (s.engine n).view :=
        hok (Bool.eq_false_iff.mpr fun hinst => hkept ⟨rfl, hinst⟩)
      rw [Function.update_self, hview]
      exact hs n m hm hhonest
    · rw [Function.update_of_ne hn]
      exact hs n m hm hhonest
  · intro n m hm hhonest
    show m.newView = (s.engine n).view + 1
    rcases Network.mem_receive_heard.mp hm with hm | ⟨rfl, rfl⟩
    · exact hs n m hm hhonest
    · exact hok hhonest

theorem run_oneView {verifyRaw : String → String → String → Bool} {honest : Finset String} {h : List (Network δ)}
    (hr : (network verifyRaw honest).Run (InStep verifyRaw honest) h) : ∀ s ∈ h, OneView honest s := by
  intro s hs
  obtain ⟨past, -, hrun⟩ := hr.exists_suffix hs
  refine (System.Reachable.invariant (P := HeardNext honest) ?_ ?_ ⟨past, hrun⟩).oneView
  · rintro s ⟨-, -, -, hheard, -⟩ node m hm
    rw [hheard] at hm
    exact absurd hm List.not_mem_nil
  · intro s op s' hs hok hstep
    exact hs.step hok hstep

/-- **In step, no honest node is accused.** -/
theorem honest_unaccused_in_step (verifyRaw : String → String → String → Bool) (honest : Finset String)
    (h : List (Network δ)) (hr : (network verifyRaw honest).Run (InStep verifyRaw honest) h) :
    ∀ s ∈ h, ¬ HonestAccused honest s := unaccused_of_oneView hr (run_oneView hr)

/-! ### A late NEW_VIEW -/

instance (verifyRaw : String → String → String → Bool) (honest : Finset String) (op : NetworkOp δ) (s : Network δ) :
    Decidable (InStep verifyRaw honest op s) :=
  match op with
  | .call _ _ => inferInstanceAs (Decidable (_ → _))
  | .receive _ _ => inferInstanceAs (Decidable (_ → _))

/-- Three fresh nodes with a quorum of two. -/
def freshTrio : Network Unit where
  engine _ := .withValidators 2 ["a", "b", "c"]
  detector _ := .new
  sent := []
  heard _ := []
  accused := []

theorem freshTrio_init : (network (fun _ _ _ => true) {"a", "b", "c"}).init freshTrio :=
  ⟨fun _ => .inr ⟨2, ["a", "b", "c"], rfl⟩, fun _ => rfl, rfl, fun _ => rfl, rfl⟩

/-- The VIEW_CHANGE message of a node for a view. -/
def requestOf (node : String) (view : UInt64) : ViewChangeMessage := ⟨view, node, none, none, "sig", 1⟩

/-- The NEW_VIEW message of `b` for view 1. -/
def viewOne : NewViewMessage := ⟨1, "b", [requestOf "b" 1, requestOf "a" 1], none, 0, "sig"⟩

/-- Nodes `a` and `b` ask for view 1, and `b` leads into it. -/
def intoViewOne : List (Network Unit → NetworkOp Unit) :=
  [fun _ => .call "a" (.triggerViewChange "a" "sig" 1), fun _ => .call "b" (.triggerViewChange "b" "sig" 1),
    fun _ => .receive "b" (requestOf "a" 1), fun _ => .call "b" (.processViewChange (requestOf "a" 1) "pk"),
    fun _ => .call "b" (.completeViewChange "b" "sig"), fun _ => .call "a" (.round (.applyNewView viewOne))]

/-- Node `c` gets the message of `a` for view 1, then the NEW_VIEW message, then the message of `a` for view 2. -/
theorem honest_unaccused_iff_in_step : ∃ (s : Network Unit) (past : List (Network Unit)),
    (network (fun _ _ _ => true) {"a", "b", "c"}).Run (fun _ _ => True) (s :: past) ∧
      s.heard "c" = [requestOf "a" 2] ∧ ∀ t ∈ s :: past, ¬ HonestAccused {"a", "b", "c"} t := by
  obtain ⟨s, past, hr, hheard⟩ := System.exists_run_of_play (M := network (fun _ _ _ => true) {"a", "b", "c"})
    (InStep (fun _ _ _ => true) {"a", "b", "c"}) (P := fun s _ => s.heard "c" = [requestOf "a" 2]) freshTrio_init
    (intoViewOne ++ [fun _ => .receive "c" (requestOf "a" 1), fun _ => .call "c" (.round (.applyNewView viewOne)),
      fun _ => .call "a" (.triggerViewChange "a" "sig" 1), fun _ => .receive "c" (requestOf "a" 2)]) (by decide +kernel)
  have hrun : (network (fun _ _ _ => true) {"a", "b", "c"}).Run (fun _ _ => True) (s :: past) :=
    hr.mono fun _ _ _ => trivial
  exact ⟨s, past, hrun, hheard, (honest_unaccused_iff (fun _ _ _ => true) _ _ hrun).mpr (run_oneView hr)⟩

/-- The NEW_VIEW message does not reach `c` in time, and `c` accuses `a`, which did nothing wrong. -/
theorem late_new_view_accuses_honest : ¬ ∀ (verifyRaw : String → String → String → Bool) (honest : Finset String)
    (h : List (Network Unit)), (network verifyRaw honest).Run (fun _ _ => True) h →
    ∀ s ∈ h, ¬ HonestAccused honest s := by
  intro hall
  obtain ⟨s, past, hr, hacc⟩ := System.exists_run_of_play (M := network (fun _ _ _ => true) {"a", "b", "c"})
    (fun _ _ => True) (P := fun s _ => ("c", .conflictingViewChange "a" 1 2) ∈ s.accused) freshTrio_init
    (intoViewOne ++ [fun _ => .call "a" (.triggerViewChange "a" "sig" 1), fun _ => .receive "c" (requestOf "a" 1),
      fun _ => .receive "c" (requestOf "a" 2)]) (by decide +kernel)
  exact hall _ _ _ hr s List.mem_cons_self ⟨"c", "a", by decide, 1, 2, hacc⟩

end WarmLogic.Consensus.Byzantine
