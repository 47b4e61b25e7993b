/-
# WarmLogic.Consensus.RaftCompleteness — what a majority held survives every later election.

`Held members h v T p`: at some state of the history `v` was in term `T`, its log started with `p`, and `p`
was by then part of a log led in `T`. A voter testifies for a candidate by the log it compared; what it had
held is still in that log, or was cut by a leader in between that did not have it. `Lib.LeaderLog` turns these
testimonies into leader completeness.

One branch of the source breaks the chain of custody: an AppendEntries with entries truncates even when the
log already contains them, so a delayed message of the SAME leader cuts entries the node has acknowledged.
`cutsOwnTerm` is that case.

The argument in the order of the file. A call's effect on an election is read off the outcomes of `RaftEvent`
(`BallotStep`): a request describes the log of its sender, a grant was made after comparing that description with the
voter's own log, and nobody's ballot has a vote that was not granted in the candidate's term. Held prefixes are facts
about the history, which only grows; so the invariant never loses one, and a step has to say what becomes of them in
the one node that moved. Terms rise, so no voter can come to hold something in a term that it has left.

A voter testifies at the moment of its grant, when it is in the candidate's term and has the log it compared. From
then on the testimony stands by itself (`Testifies.put`), whatever the voter does: that is why it can be kept for a
message in the network and for a name in a ballot alike.

`members` is fixed here. What happens when a list of members is installed is the subject of `RaftMembership`.
-/
import WarmLogic.Consensus.RaftAck

namespace WarmLogic.Consensus

open WarmLogic.Lib

namespace RaftEngine

/-- The message is an AppendEntries with entries that passes the term and consistency checks, on a node whose
log goes on behind the message's last entry and ends in an entry of the message's own term. -/
def cutsOwnTerm (e : RaftEngine) (rpc : RaftRPC) : Bool :=
  match rpc.payload with
  | .appendEntries prev pt _ _ (some (x :: es)) _ =>
      decide (e.currentTerm ≤ rpc.term) && prevMatches e.log prev pt == some true
        && decide (prev + 1 + (x :: es).length < e.log.length) && e.lastLogTerm == rpc.term
  | _ => false

/-- An append that cuts entries off, and none of its own term, meets a log that ends in another term. -/
theorem lastLogTerm_of_not_cutsOwnTerm {e : RaftEngine} {rpc : RaftRPC} {prev : Int} {pt : UInt64}
    {ph pp : String} {es : List LogEntry} {lc : Int} (h : e.cutsOwnTerm rpc = false)
    (hp : rpc.payload = .appendEntries prev pt ph pp (some es) lc) (hes : es ≠ [])
    (hle : e.currentTerm ≤ rpc.term) (hm : prevMatches e.log prev pt = some true)
    (hlt : prev + 1 + es.length < e.log.length) : e.lastLogTerm ≠ rpc.term := by
  intro heq
  cases es with
  | nil => exact hes rfl
  | cons x es =>
      rw [cutsOwnTerm, hp] at h
      simp only [hle, decide_true, hm, beq_self_eq_true, Bool.true_and, hlt, heq] at h
      cases h

/-! ## What a call does to an election -/

/-- The election side of a call, as far as logs are concerned. -/
structure BallotStep (e : RaftEngine) (m : Option RaftRPC) (e' : RaftEngine) (outs : List RaftRPC) :
    Prop where
  requests : ∀ o ∈ outs, ∀ i t, o.payload = .requestVote i t →
    o.senderId = e.nodeId ∧ o.term = e'.currentTerm ∧ i = e'.lastLogIndex ∧ t = e'.lastLogTerm
  grants : ∀ o ∈ outs, o.payload = .voteResponse true → ∃ rpc ∈ m, ∃ i t,
    rpc.payload = .requestVote i t ∧ o.senderId = e.nodeId ∧ o.targetId = some rpc.senderId ∧
    o.term = rpc.term ∧ rpc.term = e'.currentTerm ∧ e'.log = e.log ∧
    (e.lastLogTerm < t ∨ t = e.lastLogTerm ∧ e.lastLogIndex ≤ i)
  votes : e'.state ≠ .follower → e.state ≠ .leader → ∀ v ∈ e'.votesReceived,
    (e.term < e'.term ∧ v = e.nodeId) ∨
    (e.state = .candidate ∧ e'.term = e.term ∧ (v ∈ e.votesReceived ∨
      ∃ rpc ∈ m, rpc.payload = .voteResponse true ∧ rpc.senderId = v ∧ rpc.term = e'.currentTerm))
  candidate : e'.state = .candidate → e.state ≠ .leader

variable {env : Env} {e e' : RaftEngine} {m : Option RaftRPC} {outs : List RaftRPC}

/-- A call that requests no vote and leaves ballot and candidacy alone. -/
theorem BallotStep.of_state
    (hstate : e'.state = .follower ∨ (e'.state = e.state ∧ e'.term = e.term))
    (hvotes : e'.votesReceived = e.votesReceived)
    (hrequests : ∀ o ∈ outs, ∀ i t, o.payload ≠ .requestVote i t)
    (hgrants : ∀ o ∈ outs, o.payload = .voteResponse true → ∃ rpc ∈ m, ∃ i t,
      rpc.payload = .requestVote i t ∧ o.senderId = e.nodeId ∧ o.targetId = some rpc.senderId ∧
      o.term = rpc.term ∧ rpc.term = e'.currentTerm ∧ e'.log = e.log ∧
      (e.lastLogTerm < t ∨ t = e.lastLogTerm ∧ e.lastLogIndex ≤ i)) : BallotStep e m e' outs := by
  refine ⟨fun o ho i t hp => absurd hp (hrequests o ho i t), hgrants, ?_, ?_⟩
  · intro hne hnl v hv
    rcases hstate with h | ⟨h, ht⟩
    · exact absurd h hne
    · rw [hvotes] at hv
      refine .inr ⟨?_, ht, .inl hv⟩
      rw [h] at hne
      cases hs : e.state with
      | follower => exact absurd hs hne
      | candidate => rfl
      | leader => exact absurd hs hnl
  · intro hc
    rcases hstate with h | ⟨h, -⟩
    · exact absurd (hc.symm.trans h) (by decide)
    · rw [← h, hc]
      decide

/-- A call that sends no election message and leaves ballot and candidacy alone. -/
theorem BallotStep.of_same
    (hstate : e'.state = .follower ∨ (e'.state = e.state ∧ e'.term = e.term))
    (hvotes : e'.votesReceived = e.votesReceived)
    (houts : ∀ o ∈ outs, o.payload ≠ .voteResponse true ∧ ∀ i t, o.payload ≠ .requestVote i t) :
    BallotStep e m e' outs :=
  .of_state hstate hvotes (fun o ho => (houts o ho).2) (fun o ho hp => absurd hp (houts o ho).1)

/-- A counted vote, whether it makes a leader or not. -/
theorem BallotStep.of_counted {rpc : RaftRPC} (hp : rpc.payload = .voteResponse true) (hs : e.state = .candidate)
    (ht : rpc.term = e.currentTerm) (hterm : e'.currentTerm = e.currentTerm)
    (hvotes : e'.votesReceived = insert rpc.senderId e.votesReceived) : BallotStep e (some rpc) e' [] := by
  constructor
  · intro o ho
    cases ho
  · intro o ho
    cases ho
  · intro _ _ v hv
    have hsame : e'.term = e.term := congrArg UInt64.toNat hterm
    rw [hvotes] at hv
    rcases Finset.mem_insert.mp hv with rfl | hv
    · exact .inr ⟨hs, hsame, .inr ⟨rpc, rfl, hp, rfl, ht.trans hterm.symm⟩⟩
    · exact .inr ⟨hs, hsame, .inl hv⟩
  · intro _
    rw [hs]
    decide

/-- A refusal is neither a vote nor a request for one. -/
theorem not_ballot_of_negative {o : RaftRPC} (h : Negative o) :
    o.payload ≠ .voteResponse true ∧ ∀ i t, o.payload ≠ .requestVote i t := by
  refine ⟨not_grant_of_negative h, fun i t hp => ?_⟩
  rcases h with h | ⟨i, h⟩ <;> rw [h] at hp <;> cases hp

/-- Every event is such a step. -/
theorem Event.ballotStep (h : Event env e m e' outs) : BallotStep e m e' outs := by
  cases h with
  | idle => exact .of_same (.inr ⟨rfl, rfl⟩) rfl (by simp)
  | campaign hne hmax houts =>
      have hterm : (e.currentTerm + 1).toNat = e.term + 1 := toNat_succ hmax
      constructor
      · intro o ho i t hp
        obtain ⟨ht, hs, hpay⟩ := houts o ho
        rw [hpay] at hp
        cases hp
        exact ⟨hs, ht, rfl, rfl⟩
      · intro o ho hp
        rw [(houts o ho).2.2] at hp
        cases hp
      · intro _ _ v hv
        left
        refine ⟨?_, Finset.mem_singleton.mp hv⟩
        show e.term < (e.currentTerm + 1).toNat
        omega
      · intro _
        exact hne
  | solo _ hmax _ =>
      have hterm : (e.currentTerm + 1).toNat = e.term + 1 := toNat_succ hmax
      constructor
      · intro o ho
        cases ho
      · intro o ho
        cases ho
      · intro _ _ v hv
        left
        refine ⟨?_, Finset.mem_singleton.mp hv⟩
        show e.term < (e.currentTerm + 1).toNat
        omega
      · intro hc
        cases hc
  | heartbeat _ houts =>
      refine .of_same (.inr ⟨rfl, rfl⟩) rfl ?_
      intro o ho
      obtain ⟨p, ⟨next, -, ph, pp, rfl⟩, rfl⟩ := houts o ho
      simp [createRpc]
  | propose _ _ => exact .of_same (.inr ⟨rfl, rfl⟩) rfl (by simp)
  | snapshot => exact .of_same (.inr ⟨rfl, rfl⟩) rfl (by simp)
  | observe ho houts =>
      exact .of_same ho.state_or rfl (fun o hmem => not_ballot_of_negative (houts o hmem))
  | grant hrpc ho hT _ hlog ht hs htgt hp =>
      refine .of_state ho.state_or rfl ?_ ?_
      · intro o hmem i t hpo
        rw [List.mem_singleton] at hmem
        rw [hmem, hp] at hpo
        cases hpo
      · intro o hmem _
        rw [List.mem_singleton] at hmem
        subst hmem
        exact ⟨_, rfl, _, _, hrpc, hs, htgt, ht.trans hT, hT.symm, rfl, hlog⟩
  | follow _ _ houts =>
      exact .of_same (.inl rfl) rfl (fun o hmem => not_ballot_of_negative (houts o hmem))
  | accept _ _ _ _ hf _ _ _ _ hp =>
      subst hf
      refine .of_same (.inl rfl) rfl ?_
      intro o hmem
      rw [List.mem_singleton] at hmem
      rw [hmem, hp]
      simp
  | count hp hs ht => exact .of_counted hp hs ht rfl rfl
  | win hp hs ht _ => exact .of_counted hp hs ht rfl rfl
  | ack _ _ _ hf hg _ =>
      subst hg
      subst hf
      exact .of_same (.inr ⟨rfl, rfl⟩) rfl (by simp)

end RaftEngine

/-! ## Held prefixes -/

/-- No delivered message cuts entries of its own term. In an honest run such a message is one that was overtaken by a
later message of the same leader. -/
def NoStaleCut : ClusterOp → Cluster → Prop
  | .deliver n rpc, s => (s.node n).cutsOwnTerm rpc = false
  | _, _ => True

instance : ∀ op s, Decidable (NoStaleCut op s)
  | .deliver n rpc, s => inferInstanceAs (Decidable ((s.node n).cutsOwnTerm rpc = false))
  | .tick .., _ => inferInstanceAs (Decidable True)
  | .propose .., _ => inferInstanceAs (Decidable True)
  | .snapshot .., _ => inferInstanceAs (Decidable True)

/-- In the state that ends the history: `v` is in term `T`, and `p` starts its log and a log led in `T`. The second
half is what an acknowledgement stands for: the entries came from the leader of the term. -/
def HoldsNow (members : Finset String) (t : Cluster) (h : List Cluster) (v : String) (T : Nat)
    (p : List LogEntry) : Prop :=
  (t.node v).term = T ∧ p <+: (t.node v).log ∧ ∃ l, Led members h T l ∧ p <+: l

/-- At some state of the history `v` held `p` in term `T`. -/
def Held (members : Finset String) (h : List Cluster) (v : String) (T : Nat) (p : List LogEntry) : Prop :=
  ∃ t past, t :: past <:+ h ∧ HoldsNow members t (t :: past) v T p

/-- A history that goes on keeps what was held. -/
theorem Held.mono {members : Finset String} {h h' : List Cluster} (hsub : h <:+ h') {v : String}
    {T : Nat} {p : List LogEntry} (hh : Held members h v T p) : Held members h' v T p := by
  obtain ⟨t, past, hs, hrest⟩ := hh
  exact ⟨t, past, hs.trans hsub, hrest⟩

/-- What starts a held prefix is held. -/
theorem Held.of_prefix {members : Finset String} {h : List Cluster} {v : String} {T : Nat} {p q : List LogEntry}
    (hh : Held members h v T p) (hq : q <+: p) : Held members h v T q := by
  obtain ⟨t, past, hs, hT, hlog, l, hled, hl⟩ := hh
  exact ⟨t, past, hs, hT, hq.trans hlog, l, hled, hq.trans hl⟩

/-- What was held was part of a leader's log. -/
theorem Held.led {members : Finset String} {h : List Cluster} {v : String} {T : Nat}
    {p : List LogEntry} (hh : Held members h v T p) : ∃ l, Led members h T l ∧ p <+: l := by
  obtain ⟨t, past, hs, -, -, l, hl, hp⟩ := hh
  exact ⟨l, hl.mono hs.subset, hp⟩

/-- It is held now, or it was before. -/
theorem held_cons {members : Finset String} {s : Cluster} {h : List Cluster} {v : String} {T : Nat}
    {p : List LogEntry} (hh : Held members (s :: h) v T p) :
    HoldsNow members s (s :: h) v T p ∨ Held members h v T p := by
  obtain ⟨t, past, hs, hrest⟩ := hh
  rcases List.suffix_cons_iff.mp hs with heq | hs
  · cases heq
    exact .inl hrest
  · exact .inr ⟨t, past, hs, hrest⟩

/-- `v` is past its vote of term `T`, and testifies for the candidate log `L`. -/
def Testifies (members : Finset String) (s : Cluster) (h : List Cluster) (v : String) (T : Nat)
    (L : List LogEntry) : Prop :=
  T ≤ (s.node v).term ∧ Testimony entryTerm (Led members h) (Held members h v) T L

/-! ## The invariant -/

/-- **The custody invariant** of a state `s` and the history `h` it ends.

* `kept`: what `v` held is still the start of its log, or a leader of a later term without it cut it away. An accepted
  message is the only thing that cuts, and it turns the log into one led in a term that is not smaller; in the same
  term that log holds the prefix, because both are led in it and the message is no stale cut.
* `requests`, `grants`, `ballots`: as long as the candidate is still running, a request describes it, a grant is a
  testimony for it, and so is each name in its ballot. A candidate does not touch its log, so what was compared with
  its request is its log.
* `elected`: whoever led a term was elected with a log that a majority testifies for. It becomes true at the moment a
  candidate's ballot is a majority, and is about the history from then on. -/
structure CustodyInv (members : Finset String) (s : Cluster) (h : List Cluster) : Prop where
  kept : ∀ v ∈ members, ∀ T p, Held members h v T p → T ≤ (s.node v).term ∧
    (p <+: (s.node v).log ∨
      ∃ T₁ l, T < T₁ ∧ T₁ ≤ (s.node v).term ∧ Led members h T₁ l ∧ ¬ p <+: l)
  requests : ∀ o ∈ s.net, ∀ i t, o.payload = .requestVote i t →
    o.term.toNat ≤ (s.node o.senderId).term ∧
    (o.term.toNat = (s.node o.senderId).term → (s.node o.senderId).state = .candidate →
      i = (s.node o.senderId).lastLogIndex ∧ t = (s.node o.senderId).lastLogTerm)
  grants : ∀ o ∈ s.net, o.payload = .voteResponse true → ∃ c, o.targetId = some c ∧
    o.term.toNat ≤ (s.node c).term ∧
    (o.term.toNat = (s.node c).term → (s.node c).state = .candidate →
      (∀ l, ¬ Led members h (s.node c).term l) →
      Testifies members s h o.senderId (s.node c).term (s.node c).log)
  ballots : ∀ n ∈ members, (s.node n).state = .candidate →
    (∀ l, ¬ Led members h (s.node n).term l) → ∀ v ∈ (s.node n).votesReceived,
    Testifies members s h v (s.node n).term (s.node n).log
  elected : ∀ T l, Led members h T l → ∃ L, L <+: l ∧ Backed entryTerm (Led members h) L ∧
    lastTerm entryTerm L < T ∧ ∃ Q, MajorityOf members Q ∧ ∀ v ∈ Q, Testifies members s h v T L

/-- At the start there is nothing to keep. -/
theorem custodyInv_init {env : Env} {members : Finset String} {s : Cluster}
    (h : (cluster env members).init s) : CustodyInv members s [s] := by
  have hnone := not_led_init h
  constructor
  · intro v _ T p hh
    obtain ⟨l, hl, -⟩ := hh.led
    exact absurd hl (hnone T l)
  · intro o ho
    rw [h.1] at ho
    cases ho
  · intro o ho
    rw [h.1] at ho
    cases ho
  · intro n hn hc
    rw [(h.2 n hn).justStarted.state] at hc
    cases hc
  · intro T l hl
    exact absurd hl (hnone T l)

section Step

variable {env : Env} {members : Finset String} {s : Cluster} {past : List Cluster} {n : String}
  {m : Option RaftRPC} {e' : RaftEngine} {outs : List RaftRPC}

/-- **A prefix in custody of its leader survives an accepted message.** What starts the log and a log led in
the message's term still starts the log afterwards, unless the message cuts its own term. -/
theorem LogInv.survives (hi : LogInv members s (s :: past)) (hn : n ∈ members) {rpc : RaftRPC}
    (hrpc : rpc ∈ s.net) {prev : Int} {pt : UInt64} {es : List LogEntry} {lc : Int}
    (hacc : RaftEngine.Accepts (s.node n) rpc e' prev pt es lc)
    (hno : (s.node n).cutsOwnTerm rpc = false) {q l₀ : List LogEntry} (hq : q <+: (s.node n).log)
    (hled₀ : Led members (s :: past) rpc.term.toNat l₀) (hql : q <+: l₀) : q <+: e'.log := by
  obtain ⟨ph, pp, hp⟩ := hacc.payload
  obtain ⟨l, k, hled, hk, hprev, hes, -, -, hstored⟩ := hi.accepted hn hrpc hacc
  rw [hacc.log_eq]
  by_cases hnil : es = []
  · rw [hnil, storedLog_nil]
    exact hq
  · rw [hstored hnil]
    rcases hi.chained.comparable hled₀ hled hql (List.prefix_refl l) with h | h
    · exact h
    · -- the message's log ends inside `q`: then the log goes on with an entry of the message's term
      by_contra hnot
      have hlt : l.length < q.length := by
        rcases Nat.lt_or_ge l.length q.length with hlt | hge
        · exact hlt
        · exact absurd (by rw [h.eq_of_length_le hge]) hnot
      have hterm : entryTerm q[l.length] = rpc.term.toNat :=
        hi.chained.term_of_longer hled hled₀ hql (List.getElem?_eq_getElem hlt)
      have hmem : q[l.length] ∈ (s.node n).log := hq.subset (List.getElem_mem hlt)
      have hge := (hi.good n hn).sorted.le_lastTerm hmem
      have hle := (hi.good n hn).lastTerm_le
      have hrpcle : (s.node n).term ≤ rpc.term.toNat := UInt64.le_iff_toNat_le.mp hacc.le_term
      have hlast : (s.node n).lastLogTerm = rpc.term := by
        apply UInt64.toNat_inj.mp
        have hconv := lastTerm_log (s.node n)
        omega
      refine RaftEngine.lastLogTerm_of_not_cutsOwnTerm hno hp hnil hacc.le_term hacc.prevMatches ?_ hlast
      have hlog := hq.length_le
      have hlen : es.length = l.length - k := by rw [hes, List.length_drop]
      omega

/-- Terms only rise. -/
theorem term_le_put (hst : (s.node n).term ≤ e'.term) (v : String) :
    (s.node v).term ≤ ((s.put n e' outs).node v).term := by
  by_cases hvn : v = n
  · rw [hvn, Cluster.put_node_self]
    exact hst
  · rw [Cluster.put_node_of_ne _ _ _ hvn]

/-- A testimony stands: the voter can hold nothing new in an earlier term. -/
theorem Testifies.put (hterm : (s.node n).term ≤ e'.term) {v : String} {T : Nat} {L : List LogEntry}
    (ht : Testifies members s (s :: past) v T L) :
    Testifies members (s.put n e' outs) (s.put n e' outs :: s :: past) v T L := by
  obtain ⟨hT, lv, hb, hs, hup, hkept⟩ := ht
  have hle : T ≤ ((s.put n e' outs).node v).term := hT.trans (term_le_put hterm v)
  refine ⟨hle, lv, hb.mono fun _ _ h => h.put, hs, hup, ?_⟩
  intro T₀ p hlt hheld
  rcases held_cons hheld with ⟨hnow, -⟩ | hheld
  · omega
  · rcases hkept T₀ p hlt hheld with h | ⟨T₁, l, h1, h2, hl, hno⟩
    · exact .inl h
    · exact .inr ⟨T₁, l, h1, h2, hl.put, hno⟩

/-- **A fresh testimony.** The acting node votes with its old log, in a term nobody has led. -/
theorem CustodyInv.testifies (hcu : CustodyInv members s (s :: past))
    (hi : LogInv members s (s :: past)) (hn : n ∈ members) (hterm : (s.node n).term ≤ e'.term)
    {L : List LogEntry} (hup : UpToDate entryTerm L (s.node n).log)
    (hnew : (s.node n).term < e'.term ∨ ∀ l, ¬ Led members (s :: past) e'.term l) :
    Testifies members (s.put n e' outs) (s.put n e' outs :: s :: past) n e'.term L := by
  refine ⟨by rw [Cluster.put_node_self], (s.node n).log, (hi.good n hn).backed.mono fun _ _ h => h.put,
    (hi.good n hn).sorted, hup, ?_⟩
  intro T p hlt hheld
  rcases held_cons hheld with ⟨hnow, -⟩ | hheld
  · rw [Cluster.put_node_self] at hnow
    omega
  · rcases (hcu.kept n hn T p hheld).2 with h | ⟨T₁, l, h1, h2, hl, hno⟩
    · exact .inl h
    · refine .inr ⟨T₁, l, h1, ?_, hl.put, hno⟩
      rcases hnew with hnew | hnew
      · omega
      · have hne : T₁ ≠ e'.term := by
          rintro rfl
          exact hnew l hl
        omega

/-- Custody of the acting node's log. -/
theorem CustodyInv.kept_put (hcu : CustodyInv members s (s :: past))
    (hi : LogInv members s (s :: past)) (hn : n ∈ members) (hm : ∀ rpc ∈ m, s.Addressed n rpc)
    (hno : ∀ rpc ∈ m, (s.node n).cutsOwnTerm rpc = false)
    (hst : RaftEngine.LogStep env (s.node n) m e' outs) {T : Nat} {p : List LogEntry}
    (hheld : Held members (s :: past) n T p) :
    T ≤ e'.term ∧ (p <+: e'.log ∨ ∃ T₁ l, T < T₁ ∧ T₁ ≤ e'.term ∧ Led members (s :: past) T₁ l ∧
      ¬ p <+: l) := by
  have hterm := hst.term_le
  obtain ⟨hT, hkept⟩ := hcu.kept n hn T p hheld
  refine ⟨hT.trans hterm, ?_⟩
  rcases hkept with hpre | ⟨T₁, l, h1, h2, hrest⟩
  · rcases hst.log with hlog | hl | ⟨rpc, hrpc, prev, pt, es, lc, hacc⟩
    · rw [hlog]
      exact .inl hpre
    · left
      rcases hst.leader hl with ⟨-, -, hlog | ⟨x, -, hlog⟩⟩ | ⟨hlog, -⟩
      · rw [hlog]
        exact hpre
      · rw [hlog]
        exact hpre.trans (List.prefix_append _ _)
      · rw [hlog]
        exact hpre
    · have hrpcT : rpc.term.toNat = e'.term := by rw [RaftEngine.term, hacc.term_eq]
      by_cases hsame : T = e'.term
      · -- the leader of the term itself: it does not take back what it shipped
        obtain ⟨l₀, hl₀, hpl₀⟩ := hheld.led
        rw [hsame, ← hrpcT] at hl₀
        exact .inl (hi.survives hn (hm rpc hrpc).1 hacc (hno rpc hrpc) hpre hl₀ hpl₀)
      · -- a later leader: it had `p`, or it is the one that cut it
        obtain ⟨l, k, hled, -, -, -, -, -, hstored⟩ := hi.accepted hn (hm rpc hrpc).1 hacc
        by_cases hnil : es = []
        · rw [hacc.log_eq, hnil, storedLog_nil]
          exact .inl hpre
        · rw [hacc.log_eq, hstored hnil]
          by_cases hpl : p <+: l
          · exact .inl hpl
          · rw [hrpcT] at hled
            exact .inr ⟨e'.term, l, by omega, le_refl _, hled, hpl⟩
  · exact .inr ⟨T₁, l, h1, by omega, hrest⟩

/-- A node that is a candidate in a term it had reached before was that candidate before, with that log. -/
theorem candidate_before_put (hst : RaftEngine.LogStep env (s.node n) m e' outs) {c : String} {t : Nat}
    (hle : t ≤ (s.node c).term) (heq : t = ((s.put n e' outs).node c).term)
    (hcand : ((s.put n e' outs).node c).state = .candidate) :
    t = (s.node c).term ∧ (s.node c).state = .candidate ∧
      ((s.put n e' outs).node c).log = (s.node c).log := by
  by_cases hcn : c = n
  · subst hcn
    rw [Cluster.put_node_self] at heq hcand ⊢
    have hterm := hst.term_le
    obtain ⟨hlog, hbefore⟩ := hst.candidate hcand
    exact ⟨by omega, hbefore (by omega), hlog⟩
  · rw [Cluster.put_node_of_ne _ _ _ hcn] at heq hcand ⊢
    exact ⟨heq, hcand, rfl⟩

/-- A log is up to date with itself. -/
theorem UpToDate.refl (log : List LogEntry) : UpToDate entryTerm log log := .inr ⟨rfl, le_refl _⟩

/-- The comparison of `handle_request_vote` is the one of `Lib.LeaderLog`. -/
theorem upToDate_of_compare {c e : RaftEngine}
    (h : e.lastLogTerm < c.lastLogTerm ∨
      c.lastLogTerm = e.lastLogTerm ∧ e.lastLogIndex ≤ c.lastLogIndex) :
    UpToDate entryTerm c.log e.log := by
  rcases h with h | ⟨h, hidx⟩
  · left
    rw [lastTerm_log, lastTerm_log]
    exact UInt64.lt_iff_toNat_lt.mp h
  · right
    rw [lastTerm_log, lastTerm_log, h]
    unfold RaftEngine.lastLogIndex at hidx
    exact ⟨rfl, by omega⟩

/-- What a node held stays in its log, or was cut by a later leader: every node. -/
theorem CustodyInv.kept_all (hcu : CustodyInv members s (s :: past))
    (hi : LogInv members s (s :: past)) (hn : n ∈ members) (hm : ∀ rpc ∈ m, s.Addressed n rpc)
    (hno : ∀ rpc ∈ m, (s.node n).cutsOwnTerm rpc = false)
    (hst : RaftEngine.LogStep env (s.node n) m e' outs) {v : String} (hv : v ∈ members) {T : Nat}
    {p : List LogEntry} (hheld : Held members (s.put n e' outs :: s :: past) v T p) :
    T ≤ ((s.put n e' outs).node v).term ∧ (p <+: ((s.put n e' outs).node v).log ∨
      ∃ T₁ l, T < T₁ ∧ T₁ ≤ ((s.put n e' outs).node v).term ∧
        Led members (s.put n e' outs :: s :: past) T₁ l ∧ ¬ p <+: l) := by
  rcases held_cons hheld with ⟨hT, hpre, -⟩ | hpast
  · exact ⟨by omega, .inl hpre⟩
  · have hold : T ≤ ((s.put n e' outs).node v).term ∧ (p <+: ((s.put n e' outs).node v).log ∨
        ∃ T₁ l, T < T₁ ∧ T₁ ≤ ((s.put n e' outs).node v).term ∧ Led members (s :: past) T₁ l ∧
          ¬ p <+: l) := by
      by_cases hvn : v = n
      · subst hvn
        rw [Cluster.put_node_self]
        exact hcu.kept_put hi hn hm hno hst hpast
      · rw [Cluster.put_node_of_ne _ _ _ hvn]
        exact hcu.kept v hv T p hpast
    obtain ⟨hT, hpre | ⟨T₁, l, h1, h2, hl, hnot⟩⟩ := hold
    · exact ⟨hT, .inl hpre⟩
    · exact ⟨hT, .inr ⟨T₁, l, h1, h2, hl.put, hnot⟩⟩

/-- The votes of the acting node, when it is running for a term nobody has led. -/
theorem CustodyInv.votes_self (hcu : CustodyInv members s (s :: past))
    (hi : LogInv members s (s :: past)) (hc : Configured members n (s.node n)) (hn : n ∈ members)
    (hm : ∀ rpc ∈ m, s.Addressed n rpc) (hst : RaftEngine.LogStep env (s.node n) m e' outs)
    (hbs : RaftEngine.BallotStep (s.node n) m e' outs) (hne : e'.state ≠ .follower)
    (hnl : (s.node n).state ≠ .leader)
    (hunled : (s.node n).state = .candidate → e'.term = (s.node n).term →
      ∀ l, ¬ Led members (s :: past) e'.term l) (hlog : e'.log = (s.node n).log) (v : String)
    (hv : v ∈ e'.votesReceived) :
    Testifies members (s.put n e' outs) (s.put n e' outs :: s :: past) v e'.term e'.log := by
  rw [hlog]
  rcases hbs.votes hne hnl v hv with ⟨hlt, rfl⟩ | ⟨hcand, hsame, hold | ⟨rpc, hrpc, hp, rfl, ht⟩⟩
  · rw [hc.nodeId]
    exact hcu.testifies hi hn hst.term_le (UpToDate.refl _) (.inl hlt)
  · have hunled' := hunled hcand hsame
    rw [hsame] at hunled' ⊢
    exact (hcu.ballots n hn hcand hunled' v hold).put hst.term_le
  · have hunled' := hunled hcand hsame
    obtain ⟨hnet, hto⟩ := hm rpc hrpc
    obtain ⟨c, htgt, -, hgrant⟩ := hcu.grants rpc hnet hp
    rw [htgt] at hto
    rcases hto with hto | hto
    · cases hto
    · cases hto
      have hT : rpc.term.toNat = (s.node n).term := by
        rw [ht]
        exact hsame
      rw [hsame] at hunled' ⊢
      exact (hgrant hT hcand hunled').put hst.term_le

/-- A request still describes the candidate that sent it. -/
theorem CustodyInv.requests_put (hcu : CustodyInv members s (s :: past))
    (hc : Configured members n (s.node n)) (hst : RaftEngine.LogStep env (s.node n) m e' outs)
    (hbs : RaftEngine.BallotStep (s.node n) m e' outs) (o : RaftRPC) (ho : o ∈ outs ++ s.net) (i : Int)
    (t : UInt64) (hp : o.payload = .requestVote i t) :
    o.term.toNat ≤ ((s.put n e' outs).node o.senderId).term ∧
      (o.term.toNat = ((s.put n e' outs).node o.senderId).term →
        ((s.put n e' outs).node o.senderId).state = .candidate →
        i = ((s.put n e' outs).node o.senderId).lastLogIndex ∧
          t = ((s.put n e' outs).node o.senderId).lastLogTerm) := by
  rcases List.mem_append.mp ho with ho | ho
  · obtain ⟨hs, ht, hidx, hlt⟩ := hbs.requests o ho i t hp
    rw [hs, hc.nodeId, Cluster.put_node_self, ht]
    exact ⟨le_refl _, fun _ _ => ⟨hidx, hlt⟩⟩
  · obtain ⟨hle, hsame⟩ := hcu.requests o ho i t hp
    refine ⟨hle.trans (term_le_put hst.term_le _), fun heq hcand => ?_⟩
    obtain ⟨heq', hcand', hlog⟩ := candidate_before_put hst hle heq hcand
    obtain ⟨hidx, hlt⟩ := hsame heq' hcand'
    rw [RaftEngine.lastLogIndex, RaftEngine.lastLogTerm, hlog]
    exact ⟨hidx, hlt⟩

/-- A granted vote in the network is a testimony for its candidate, as long as that one is running. -/
theorem CustodyInv.grants_put (hcu : CustodyInv members s (s :: past))
    (hi : LogInv members s (s :: past)) (hc : Configured members n (s.node n)) (hn : n ∈ members)
    (hm : ∀ rpc ∈ m, s.Addressed n rpc) (hst : RaftEngine.LogStep env (s.node n) m e' outs)
    (hbs : RaftEngine.BallotStep (s.node n) m e' outs) (o : RaftRPC) (ho : o ∈ outs ++ s.net)
    (hp : o.payload = .voteResponse true) :
    ∃ c, o.targetId = some c ∧ o.term.toNat ≤ ((s.put n e' outs).node c).term ∧
      (o.term.toNat = ((s.put n e' outs).node c).term →
        ((s.put n e' outs).node c).state = .candidate →
        (∀ l, ¬ Led members (s.put n e' outs :: s :: past) ((s.put n e' outs).node c).term l) →
        Testifies members (s.put n e' outs) (s.put n e' outs :: s :: past) o.senderId
          ((s.put n e' outs).node c).term ((s.put n e' outs).node c).log) := by
  rcases List.mem_append.mp ho with ho | ho
  · -- granted just now, by the acting node, to a request that was in the network
    obtain ⟨rpc, hrpc, i, t, hpay, hs, htgt, hot, hrt, -, hcmp⟩ := hbs.grants o ho hp
    obtain ⟨hle, hsame⟩ := hcu.requests rpc (hm rpc hrpc).1 i t hpay
    refine ⟨rpc.senderId, htgt, ?_, ?_⟩
    · rw [hot]
      exact hle.trans (term_le_put hst.term_le _)
    · intro heq hcand hunled
      rw [hot] at heq
      obtain ⟨heq', hcand', hlog'⟩ := candidate_before_put hst hle heq hcand
      obtain ⟨rfl, rfl⟩ := hsame heq' hcand'
      have hT : rpc.term.toNat = e'.term := by rw [hrt]; rfl
      rw [hs, hc.nodeId, hlog', ← heq, hT]
      rw [← heq, hT] at hunled
      exact hcu.testifies hi hn hst.term_le (upToDate_of_compare hcmp)
        (.inr fun l hl => hunled l hl.put)
  · obtain ⟨c, htgt, hle, htest⟩ := hcu.grants o ho hp
    refine ⟨c, htgt, hle.trans (term_le_put hst.term_le _), ?_⟩
    intro heq hcand hunled
    obtain ⟨heq', hcand', hlog⟩ := candidate_before_put hst hle heq hcand
    rw [← heq, hlog]
    rw [← heq] at hunled
    have hold := htest heq' hcand' fun l hl => hunled l (Led.put (heq' ▸ hl))
    rw [← heq'] at hold
    exact hold.put hst.term_le

/-- An election that was won stays documented. -/
theorem CustodyInv.elected_old (hcu : CustodyInv members s (s :: past))
    (hterm : (s.node n).term ≤ e'.term) {T : Nat} {l : List LogEntry}
    (hl : Led members (s :: past) T l) :
    ∃ L, L <+: l ∧ Backed entryTerm (Led members (s.put n e' outs :: s :: past)) L ∧
      lastTerm entryTerm L < T ∧ ∃ Q, MajorityOf members Q ∧ ∀ v ∈ Q,
        Testifies members (s.put n e' outs) (s.put n e' outs :: s :: past) v T L := by
  obtain ⟨L, hLl, hLb, hlast, Q, hQ, htest⟩ := hcu.elected T l hl
  exact ⟨L, hLl, hLb.mono fun _ _ h => h.put, hlast, Q, hQ, fun v hv => (htest v hv).put hterm⟩

/-- **One call keeps the custody invariant**, if it does not cut its own term. -/
theorem CustodyInv.put (hcu : CustodyInv members s (s :: past)) (hi : LogInv members s (s :: past))
    (hc : Configured members n (s.node n)) (hn : n ∈ members) (hm : ∀ rpc ∈ m, s.Addressed n rpc)
    (hno : ∀ rpc ∈ m, (s.node n).cutsOwnTerm rpc = false)
    (hst : RaftEngine.LogStep env (s.node n) m e' outs)
    (hbs : RaftEngine.BallotStep (s.node n) m e' outs)
    (huniq : e'.state = .leader → ∀ c l, LedBy members (s :: past) e'.term c l → c = n)
    (hquorum : e'.state = .leader → MajorityOf members e'.votesReceived) :
    CustodyInv members (s.put n e' outs) (s.put n e' outs :: s :: past) := by
  refine ⟨fun v hv T p hheld => hcu.kept_all hi hn hm hno hst hv hheld, hcu.requests_put hc hst hbs,
    hcu.grants_put hi hc hn hm hst hbs, ?_, ?_⟩
  · apply Cluster.forall_put (P := fun _ e => e.state = .candidate →
      (∀ l, ¬ Led members (s.put n e' outs :: s :: past) e.term l) → ∀ v ∈ e.votesReceived,
      Testifies members (s.put n e' outs) (s.put n e' outs :: s :: past) v e.term e.log)
    · intro hcand hunled
      exact hcu.votes_self hi hc hn hm hst hbs (by rw [hcand]; decide) (hbs.candidate hcand)
        (fun _ _ l hl => hunled l hl.put) (hst.candidate hcand).1
    · intro k hk hcand hunled v hv
      exact (hcu.ballots k hk hcand (fun l hl => hunled l hl.put) v hv).put hst.term_le
  · rintro T l ⟨c, hl⟩
    rcases ledBy_put hl with hl | ⟨-, hlead, rfl, rfl⟩
    · exact hcu.elected_old hst.term_le ⟨c, hl⟩
    · rcases hst.leader hlead with ⟨hl', hsame, hgrow⟩ | ⟨hlog, hnl, hfresh⟩
      · -- still the same leader: the election it won before
        obtain ⟨L, hLl, hrest⟩ := hcu.elected_old hst.term_le
          ⟨n, hn, s, List.mem_cons_self, hl', rfl, rfl⟩
        refine ⟨L, ?_, by rw [hsame]; exact hrest⟩
        rcases hgrow with hlog | ⟨x, -, hlog⟩
        · rw [hlog]
          exact hLl
        · rw [hlog]
          exact hLl.trans (List.prefix_append _ _)
      · -- it wins now, with the votes it has
        have hunled := hi.not_led_of_fresh hst (huniq hlead) hfresh
        refine ⟨e'.log, List.prefix_refl _, ?_, ?_, e'.votesReceived, hquorum hlead,
          hcu.votes_self hi hc hn hm hst hbs (by rw [hlead]; decide) hnl (fun _ _ => hunled) hlog⟩
        · rw [hlog]
          exact (hi.good n hn).backed.mono fun _ _ h => h.put
        · rw [hlog]
          rcases hfresh with hlt | ⟨hcand, hsame⟩
          · have := (hi.good n hn).lastTerm_le
            omega
          · rw [hsame]
            exact hi.candidate n hn hcand

end Step

/-! ## Leader completeness of the cluster -/

section Runs

variable {env : Env} {members : Finset String} {ok : ClusterOp → Cluster → Prop}
  (hsteady : ∀ op s, ok op s → Steady env op s) (hcut : ∀ op s, ok op s → NoStaleCut op s)

include hsteady hcut

/-- **The run lemma.** -/
theorem custodyInv_run {s : Cluster} {past : List Cluster}
    (hr : (cluster env members).Run ok (s :: past)) : CustodyInv members s (s :: past) := by
  refine System.Run.invariant_head (P := CustodyInv members) (fun _ h => custodyInv_init h) ?_ hr
  intro s past op s' hr hcu hok hstep
  have hkeep : ∀ op s, ok op s → KeepsPeers env op s := fun op s h => (hsteady op s h).1
  have hr' := System.Run.step hr hok hstep
  obtain ⟨n, m, e', outs, hmv, rfl⟩ := steady_step (hsteady op s hok) hstep
  have hc := configured_reachable hkeep ⟨past, hr⟩ n hmv.mem
  refine hcu.put (logInv_run hsteady hr) hc hmv.mem hmv.addressed ?_ hmv.event.logStep
    hmv.event.ballotStep ?_ ?_
  · intro rpc hrpc
    have hguard := hcut op s hok
    rw [hmv.op_eq hrpc] at hguard
    exact hguard
  · rintro hl c l ⟨hcm, t, ht, h1, h2, -⟩
    exact leader_unique_put hkeep hr' hmv.mem hl ht hcm h1 h2
  · intro hl
    have hq := (electionInv_run hkeep hr').quorum n hmv.mem
    rw [Cluster.put_node_self] at hq
    exact hq hl

/-- **Leader completeness.** In a steady run without a stale cut, what a majority held in a term, up to an
entry of that term, is a prefix of every log led in a later term. -/
theorem committed_isPrefix_led {s : Cluster} {past : List Cluster}
    (hr : (cluster env members).Run ok (s :: past)) {T T' : Nat} {p l : List LogEntry}
    (hcom : Committed entryTerm members (Held members (s :: past)) T p) (hT : T < T')
    (hl : Led members (s :: past) T' l) : p <+: l := by
  have hcu := custodyInv_run hsteady hcut hr
  refine hcom.isPrefix_led (logInv_run hsteady hr).chained ?_ hT hl
  intro T l hl
  obtain ⟨L, hLl, hLb, hlast, Q, hQ, htest⟩ := hcu.elected T l hl
  exact ⟨L, hLl, hLb, hlast, Q, hQ, fun v hv => (htest v hv).2⟩

end Runs

end WarmLogic.Consensus
