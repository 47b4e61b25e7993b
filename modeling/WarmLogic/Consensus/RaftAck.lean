/-
# WarmLogic.Consensus.RaftAck — what a leader may conclude from `match_index`.

A follower answers an accepted AppendEntries with the length of its WHOLE log. With entries in the message
that is the length the leader had, since the log was just made equal to the leader's. Without entries the log
may reach past everything the leader showed it, with entries of an older term the leader never had: then the
answer claims too much. `overReports` is that case, and in runs without it every match index is sound.

The bookkeeping is only about the past: `Acked` speaks of some state of the history at which the peer held the prefix,
and a peer may lose it again in a later term. That is enough for the commit rule, which needs a majority that held the
entry in the leader's term at some moment (`RaftSafety`), and it is all that an acknowledgement can mean in a network
that delivers late.

A leader starts a term with every match index at -1 and lets an index rise only by an answer of its own term, so what
it holds is always backed by an answer it received as the leader that it is now.
-/
import WarmLogic.Consensus.RaftLogMatching

namespace WarmLogic.Consensus

open WarmLogic.Lib

namespace RaftEngine

/-- The message is an AppendEntries without entries that passes the term and consistency checks, on a node
whose log goes on behind the leader's last position with a last entry of another term. -/
def overReports (e : RaftEngine) (rpc : RaftRPC) : Bool :=
  match rpc.payload with
  | .appendEntries prev pt _ _ (some []) _ =>
      decide (e.currentTerm ≤ rpc.term) && prevMatches e.log prev pt == some true
        && decide (prev + 1 < e.log.length) && e.lastLogTerm != rpc.term
  | _ => false

theorem lastLogTerm_of_not_overReports {e : RaftEngine} {rpc : RaftRPC} {prev : Int} {pt : UInt64}
    {ph pp : String} {lc : Int} (h : e.overReports rpc = false)
    (hp : rpc.payload = .appendEntries prev pt ph pp (some []) lc) (hle : e.currentTerm ≤ rpc.term)
    (hm : prevMatches e.log prev pt = some true) (hlt : prev + 1 < e.log.length) :
    e.lastLogTerm = rpc.term := by
  by_contra hne
  rw [overReports, hp] at h
  simp [hle, hm, hlt, hne] at h

/-! ## What a call does to acknowledgements -/

/-- The acknowledgement side of a call: a confirmation is sent for an accepted message, with the last position of the
log behind it; and a match index of a leader is an old one, -1, or the index of an answer of its term. -/
structure AckStep (e : RaftEngine) (m : Option RaftRPC) (e' : RaftEngine) (outs : List RaftRPC) :
    Prop where
  replies : ∀ o ∈ outs, ∀ i, o.payload = .appendResponse true i →
    o.senderId = e.nodeId ∧ o.term = e'.currentTerm ∧ i = (e'.log.length : Int) - 1 ∧
      ∃ rpc ∈ m, ∃ prev pt es lc, Accepts e rpc e' prev pt es lc
  matchIndex : e'.state = .leader → ∀ p ∈ e.peers, ∀ i, e'.matchIndex.lookup p = some i →
    (e.state = .leader ∧ e'.term = e.term ∧ e.matchIndex.lookup p = some i) ∨ i = -1 ∨
    ∃ rpc ∈ m, rpc.payload = .appendResponse true i ∧ rpc.senderId = p ∧ rpc.term = e'.currentTerm

variable {env : Env} {e e' : RaftEngine} {m : Option RaftRPC} {outs : List RaftRPC}

/-- A call that confirms nothing and leaves the match indices alone. -/
theorem AckStep.of_same (hstate : e'.state ≠ .leader ∨ (e.state = .leader ∧ e'.term = e.term))
    (hmatch : e'.matchIndex = e.matchIndex)
    (houts : ∀ o ∈ outs, ∀ i, o.payload ≠ .appendResponse true i) : AckStep e m e' outs := by
  constructor
  · intro o ho i hp
    exact absurd hp (houts o ho i)
  · intro hl p _ i hi
    rcases hstate with h | ⟨h, ht⟩
    · exact absurd hl h
    · rw [hmatch] at hi
      exact .inl ⟨h, ht, hi⟩

theorem not_confirm_of_negative {o : RaftRPC} (h : Negative o) (i : Int) :
    o.payload ≠ .appendResponse true i := by
  intro hp
  rcases h with h | ⟨i, h⟩ <;> rw [h] at hp <;> cases hp

theorem Observed.leader_or {t T : UInt64} {S : RaftState} {V : Option String}
    (h : Observed e t T S V) : S ≠ .leader ∨ (e.state = .leader ∧ T.toNat = e.term) := by
  rcases h.state_or with h | ⟨h1, h2⟩
  · left
    rw [h]
    decide
  · by_cases hl : e.state = .leader
    · exact .inr ⟨hl, h2⟩
    · exact .inl (h1 ▸ hl)

/-- A new leader starts every peer at -1. -/
theorem lookup_foldl_insert {α : Type} (a : α) {ps : List String} {p : String} (hp : p ∈ ps)
    (mp : StringMap α) : (ps.foldl (fun mp q => mp.insert q a) mp).lookup p = some a := by
  have hkeep : ∀ (qs : List String) (mp : StringMap α), mp.lookup p = some a →
      (qs.foldl (fun mp q => mp.insert q a) mp).lookup p = some a := by
    intro qs
    induction qs with
    | nil => intro mp h; exact h
    | cons q qs ih =>
        intro mp h
        apply ih
        by_cases hq : p = q
        · rw [hq, AList.lookup_insert]
        · rw [AList.lookup_insert_ne hq]
          exact h
  induction ps generalizing mp with
  | nil => cases hp
  | cons q ps ih =>
      rcases List.mem_cons.mp hp with rfl | hp
      · exact hkeep ps _ (AList.lookup_insert mp)
      · exact ih hp _

theorem Event.ackStep (h : Event env e m e' outs) : AckStep e m e' outs := by
  cases h with
  | idle =>
      by_cases hl : e.state = .leader
      · exact .of_same (.inr ⟨hl, rfl⟩) rfl (by simp)
      · exact .of_same (.inl hl) rfl (by simp)
  | campaign _ _ houts =>
      refine .of_same (.inl (by simp)) rfl ?_
      intro o ho i hp
      rw [(houts o ho).2.2] at hp
      cases hp
  | solo _ _ hpeers =>
      constructor
      · intro o ho
        cases ho
      · intro _ p hp
        rw [hpeers] at hp
        cases hp
  | heartbeat hl houts =>
      refine .of_same (.inr ⟨hl, rfl⟩) rfl ?_
      intro o ho i hp
      obtain ⟨p, ⟨next, -, ph, pp, rfl⟩, rfl⟩ := houts o ho
      cases hp
  | propose hl _ => exact .of_same (.inr ⟨hl, rfl⟩) rfl (by simp)
  | snapshot =>
      by_cases hl : e.state = .leader
      · exact .of_same (.inr ⟨hl, rfl⟩) rfl (by simp)
      · exact .of_same (.inl hl) rfl (by simp)
  | observe ho houts =>
      exact .of_same ho.leader_or rfl (fun o hmem => not_confirm_of_negative (houts o hmem))
  | grant _ ho _ _ _ _ _ _ hp =>
      refine .of_same ho.leader_or rfl ?_
      intro o hmem i hpo
      rw [List.mem_singleton] at hmem
      rw [hmem, hp] at hpo
      cases hpo
  | follow _ _ houts =>
      exact .of_same (.inl (by simp)) rfl (fun o hmem => not_confirm_of_negative (houts o hmem))
  | accept hpay ho hT hmatch hf _ ht hs _ hp =>
      subst hf
      constructor
      · intro o hmem i hpo
        rw [List.mem_singleton] at hmem
        subst hmem
        rw [hp] at hpo
        cases hpo
        -- the answer reports the length of the follower's own log
        exact ⟨hs, ht, rfl, _, rfl, _, _, _, _, ⟨_, _, hpay⟩, hT ▸ ho.le, hT, hmatch, rfl⟩
      · intro hl
        cases hl
  | count _ hs _ => exact .of_same (.inl (by rw [hs]; decide)) rfl (by simp)
  | win _ _ _ _ =>
      constructor
      · intro o ho
        cases ho
      · -- a new leader knows nothing: every match index is -1
        intro _ p hp i hi
        have hinit := lookup_foldl_insert (-1 : Int) hp e.matchIndex
        exact .inr (.inl (Option.some.inj (hi.symm.trans hinit)))
  | @ack rpc i ni d mach f g hp hl ht hf hg _ =>
      -- one peer's index is overwritten, without a comparison with the old one
      subst hg
      subst hf
      constructor
      · intro o ho
        cases ho
      · intro _ p _ j hj
        have hj : (e.matchIndex.insert rpc.senderId i).lookup p = some j := hj
        by_cases hps : p = rpc.senderId
        · rw [hps, AList.lookup_insert] at hj
          cases hj
          exact .inr (.inr ⟨rpc, rfl, hp, hps.symm, ht⟩)
        · rw [AList.lookup_insert_ne hps] at hj
          exact .inl ⟨hl, rfl, hj⟩

end RaftEngine

/-! ## The invariant -/

/-- No delivered message makes a follower report more than the leader showed it. -/
def NoOverReport : ClusterOp → Cluster → Prop
  | .deliver n rpc, s => (s.node n).overReports rpc = false
  | _, _ => True

instance : ∀ op s, Decidable (NoOverReport op s)
  | .deliver n rpc, s => inferInstanceAs (Decidable ((s.node n).overReports rpc = false))
  | .tick .., _ => inferInstanceAs (Decidable True)
  | .propose .., _ => inferInstanceAs (Decidable True)
  | .snapshot .., _ => inferInstanceAs (Decidable True)

/-- At some state of the history `p` was in term `T` with a log that starts like one led in `T` by then, as
far as position `i`. -/
def Acked (members : Finset String) (h : List Cluster) (p : String) (T : Nat) (i : Int) : Prop :=
  ∃ t past, t :: past <:+ h ∧ (t.node p).term = T ∧ ∃ l, Led members (t :: past) T l ∧
    i + 1 ≤ l.length ∧ (t.node p).log.take (i + 1).toNat = l.take (i + 1).toNat

theorem Acked.mono {members : Finset String} {h h' : List Cluster} (hsub : h <:+ h') {p : String}
    {T : Nat} {i : Int} (ha : Acked members h p T i) : Acked members h' p T i := by
  obtain ⟨t, past, hs, hrest⟩ := ha
  exact ⟨t, past, hs.trans hsub, hrest⟩

/-- **The acknowledgement invariant** of a state `s` and the history `h` it ends. An answer is sent at the moment the
peer has the log it reports: with entries in the message that log is led, and without them it is as far as the
leader's position, unless the follower over-reports. A match index is copied from such an answer. -/
structure AckInv (members : Finset String) (s : Cluster) (h : List Cluster) : Prop where
  replies : ∀ o ∈ s.net, ∀ i, o.payload = .appendResponse true i →
    Acked members h o.senderId o.term.toNat i
  matchIndex : ∀ n ∈ members, (s.node n).state = .leader → ∀ p ∈ (s.node n).peers, ∀ i,
    (s.node n).matchIndex.lookup p = some i → 0 ≤ i → Acked members h p (s.node n).term i

section Step

variable {env : Env} {members : Finset String} {s : Cluster} {past : List Cluster} {n : String}
  {m : Option RaftRPC} {e' : RaftEngine} {outs : List RaftRPC}

/-- The log that comes out of an accepted message is a prefix of a log led in the message's term, unless the
message had no entries and the log went on in another term. -/
theorem LogInv.isPrefix_of_accepts (hi : LogInv members s (s :: past)) (hn : n ∈ members)
    {rpc : RaftRPC} (hrpc : rpc ∈ s.net) {prev : Int} {pt : UInt64} {es : List LogEntry} {lc : Int}
    (hacc : RaftEngine.Accepts (s.node n) rpc e' prev pt es lc)
    (hno : (s.node n).overReports rpc = false) :
    ∃ l, Led members (s :: past) rpc.term.toNat l ∧ e'.log <+: l := by
  obtain ⟨ph, pp, hp⟩ := hacc.payload
  obtain ⟨l, k, hled, hk, hprev, hes, htake, hlen, hstored⟩ := hi.accepted hn hrpc hacc
  rw [hacc.log_eq]
  by_cases hnil : es = []
  · rw [hnil, storedLog_nil]
    -- the message shows the leader's whole log, `k` entries
    have hkl : l.length ≤ k := by
      rw [hnil] at hes
      exact List.drop_eq_nil_iff.mp hes.symm
    by_cases hlonger : k < (s.node n).log.length
    · have hlast : (s.node n).lastLogTerm = rpc.term :=
        RaftEngine.lastLogTerm_of_not_overReports hno (hnil ▸ hp) hacc.le_term hacc.prevMatches
          (by omega)
      have hne : (s.node n).log ≠ [] := List.ne_nil_of_length_pos (by omega)
      obtain ⟨l', hl', hpre⟩ := (hi.good n hn).backed.isPrefix_led hne
      refine ⟨l', ?_, hpre⟩
      rw [lastTerm_log, hlast] at hl'
      exact hl'
    · refine ⟨l, hled, ?_⟩
      rw [List.take_of_length_le (by omega)] at htake
      rw [htake]
      exact List.take_prefix _ _
  · exact ⟨l, hled, by rw [hstored hnil]⟩

/-- **One call keeps the acknowledgement invariant**, if it does not over-report. -/
theorem AckInv.put (ha : AckInv members s (s :: past)) (hi : LogInv members s (s :: past))
    (hc : Configured members n (s.node n)) (hn : n ∈ members) (hm : ∀ rpc ∈ m, s.Addressed n rpc)
    (hno : ∀ rpc ∈ m, (s.node n).overReports rpc = false) (hpeers : e'.peers = (s.node n).peers)
    (hst : RaftEngine.AckStep (s.node n) m e' outs) :
    AckInv members (s.put n e' outs) (s.put n e' outs :: s :: past) := by
  have hmono : ∀ {p T i}, Acked members (s :: past) p T i →
      Acked members (s.put n e' outs :: s :: past) p T i := fun h => h.mono (List.suffix_cons _ _)
  constructor
  · intro o ho i hp
    rcases List.mem_append.mp ho with ho | ho
    · obtain ⟨hs, ht, hi', rpc, hrpc, prev, pt, es, lc, hacc⟩ := hst.replies o ho i hp
      obtain ⟨l, hled, hpre⟩ := hi.isPrefix_of_accepts hn (hm rpc hrpc).1 hacc (hno rpc hrpc)
      rw [hs, hc.nodeId, ht, hacc.term_eq]
      refine ⟨_, _, List.suffix_refl _, ?_, l, hled.mono (List.subset_cons_self _ _), ?_, ?_⟩
      · rw [Cluster.put_node_self, RaftEngine.term, hacc.term_eq]
      · have := hpre.length_le
        omega
      · rw [Cluster.put_node_self, show (i + 1).toNat = e'.log.length by omega, List.take_length]
        exact List.prefix_iff_eq_take.mp hpre
    · exact hmono (ha.replies o ho i hp)
  · refine Cluster.forall_put (P := fun _ e => e.state = .leader → ∀ p ∈ e.peers, ∀ i,
      e.matchIndex.lookup p = some i → 0 ≤ i →
        Acked members (s.put n e' outs :: s :: past) p e.term i) ?_ ?_
    · intro hl p hp i hlook hpos
      rw [hpeers] at hp
      rcases hst.matchIndex hl p hp i hlook with ⟨hl', hT, hlook'⟩ | rfl | ⟨rpc, hrpc, hpay, rfl, hT⟩
      · rw [hT]
        exact hmono (ha.matchIndex n hn hl' p hp i hlook' hpos)
      · omega
      · have := ha.replies rpc (hm rpc hrpc).1 i hpay
        rw [hT] at this
        exact hmono this
    · intro k hk hl p hp i hlook hpos
      exact hmono (ha.matchIndex k hk hl p hp i hlook hpos)

end Step

/-! ## Match-index soundness -/

section Runs

variable {env : Env} {members : Finset String} {ok : ClusterOp → Cluster → Prop}
  (hsteady : ∀ op s, ok op s → Steady env op s) (hreport : ∀ op s, ok op s → NoOverReport op s)

include hsteady hreport in
theorem ackInv_run {s : Cluster} {past : List Cluster}
    (hr : (cluster env members).Run ok (s :: past)) : AckInv members s (s :: past) := by
  refine System.Run.invariant_head (P := AckInv members) ?_ ?_ hr
  · rintro s ⟨hnet, hfresh⟩
    refine ⟨by simp [hnet], fun n hn hl => ?_⟩
    rw [(hfresh n hn).justStarted.state] at hl
    cases hl
  · intro s past op s' hr ha hok hstep
    have hkeep : ∀ op s, ok op s → KeepsPeers env op s := fun op s h => (hsteady op s h).1
    obtain ⟨n, m, e', outs, hmv, rfl⟩ := steady_step (hsteady op s hok) hstep
    have hc := configured_reachable hkeep ⟨past, hr⟩ n hmv.mem
    refine ha.put (logInv_run hsteady hr) hc hmv.mem hmv.addressed ?_ hmv.event.peers_eq
      hmv.event.ackStep
    intro rpc hrpc
    have hguard := hreport op s hok
    rw [hmv.op_eq hrpc] at hguard
    exact hguard

end Runs

/-- Every match index a leader holds for a peer is backed by a moment in the leader's term at which the peer
held the leader's log up to there. -/
def MatchIndexSound (members : Finset String) (s : Cluster) (h : List Cluster) : Prop :=
  ∀ n ∈ members, (s.node n).state = .leader → ∀ p ∈ (s.node n).peers, ∀ m,
    (s.node n).matchIndex.lookup p = some m → 0 ≤ m →
    m < (s.node n).log.length ∧ ∃ t ∈ h, (t.node p).currentTerm = (s.node n).currentTerm ∧
      (t.node p).log.take (m + 1).toNat = (s.node n).log.take (m + 1).toNat

/-- **Match-index soundness.** In every plain run without an over-reporting delivery, every match index is sound in
every state. A positive answer reports a position up to which the logs of leader and peer were the same, unless it
over-reports. -/
theorem matchIndex_sound {env : Env} {members : Finset String} {s : Cluster} {past : List Cluster}
    (hr : (cluster env members).Run (fun op s => Plain op s ∧ NoOverReport op s) (s :: past)) :
    MatchIndexSound members s (s :: past) := by
  intro n hn hl p hp m hlook hpos
  have hr := run_steady (fun _ _ h => h.1) hr
  have hi := logInv_run (fun _ _ h => h.2) hr
  have ha := ackInv_run (fun _ _ h => h.2) (fun _ _ h => h.1.2) hr
  obtain ⟨t, pt, hsuf, hterm, l, hled, hlen, htake⟩ := ha.matchIndex n hn hl p hp m hlook hpos
  -- the leader's log still starts with everything it led in this term
  obtain ⟨ext, hext, -⟩ := hi.leads n hn hl l (hled.mono hsuf.subset)
  refine ⟨?_, t, hsuf.subset List.mem_cons_self, UInt64.toNat_inj.mp hterm, ?_⟩
  · rw [hext, List.length_append]
    push_cast
    omega
  · rw [htake, hext, List.take_append_of_le_length (by omega)]

/-- Leader `a` has counted the acknowledgement of `b` for position 0, and it is sound. -/
theorem matchIndex_sound_trio : ∃ s past,
    (cluster scriptEnv trio).Run (fun op s => Plain op s ∧ NoOverReport op s) (s :: past) ∧
    (s.node "a").state = .leader ∧ (s.node "a").matchIndex.lookup "b" = some 0 ∧
    MatchIndexSound trio s (s :: past) := by
  obtain ⟨s, past, hr, hl, hm⟩ := System.exists_run_of_play
    (fun op s => Plain op s ∧ NoOverReport op s)
    (P := fun s _ => (s.node "a").state = .leader ∧ (s.node "a").matchIndex.lookup "b" = some 0)
    trioStart_init [timeout "a", deliverNth "b" 0, deliverNth "a" 2, clientPropose "a" "TARGET:1",
      timeout "a", deliverNth "b" 3, deliverNth "a" 5] (by decide +kernel)
  exact ⟨s, past, hr, hl, hm, matchIndex_sound hr⟩

/-- **A heartbeat makes a follower report entries the leader never had.** All three hold `TARGET:1` of term 1;
`b`, leader of term 2, appends two entries that reach nobody; `c`, leader of term 3, sends `b` a heartbeat,
and `b` answers with the length of its own log. `c` then has match index 2 for `b`, and its own entries at
positions 1 and 2 were never in `b`'s log. -/
theorem matchIndex_unsound_after_heartbeat :
    ¬ ∀ (env : Env) (members : Finset String) (s : Cluster) (past : List Cluster),
      (cluster env members).Run Plain (s :: past) → MatchIndexSound members s (s :: past) := by
  intro hall
  obtain ⟨s, past, hr, hl, hpeer, hlook, hno⟩ := System.exists_run_of_play Plain
    (P := fun s h => (s.node "c").state = .leader ∧ "b" ∈ (s.node "c").peers ∧
      (s.node "c").matchIndex.lookup "b" = some 2 ∧
      ∀ t ∈ h, (t.node "b").log.take 3 ≠ (s.node "c").log.take 3)
    trioStart_init [
      timeout "a", deliverNth "b" 0, deliverNth "a" 2, clientPropose "a" "TARGET:1", timeout "a",
      deliverNth "b" 3, deliverNth "c" 3,
      timeout "b", deliverNth "c" 7, deliverNth "b" 9, clientPropose "b" "TARGET:2",
      clientPropose "b" "TARGET:3",
      timeout "c", deliverNth "a" 10, deliverNth "c" 12, timeout "c", deliverNth "b" 13,
      deliverNth "c" 15, clientPropose "c" "TARGET:4", clientPropose "c" "TARGET:5"]
    (by decide +kernel)
  obtain ⟨-, t, ht, -, htake⟩ := hall scriptEnv trio s past hr "c" (by decide) hl "b" hpeer 2 hlook
    (by decide)
  exact hno t ht htake

end WarmLogic.Consensus
