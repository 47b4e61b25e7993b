/-
# WarmLogic.Consensus.RaftSafety — committed entries are durable, and applied entries agree.

A prefix is `Safe` when a majority held it (`Lib.LeaderLog.Committed`) in a term the node has reached. A node's
log up to its commit index is safe, and so is the part of a leader's log that the `leader_commit` of an
AppendEntries covers; every call to the state machine is for an entry of a safe prefix. Safe prefixes are
comparable, which is state machine safety, and no accepted message takes one away, which is durability. Both
hold in the runs without the two deliveries named in `RaftAck` and `RaftCompleteness`. Durability also survives
reconfigurations that are proposed, replicated and committed by an old list but never installed, and snapshots
that prune nothing: the quorum of a joint configuration contains one of the list in force (`Lasting`).

Two theorems, for two kinds of runs. State machine safety is about calls of the machine by different members at
different times; it asks for orderly runs, in which no reconfiguration is proposed and no snapshot taken, because an
index of the machine is a position of the log only there. Durability is about one member and one step, and has the
weaker condition.

What makes them non-trivial is that a commit index is a number that a follower is told. It is worth something only
with the log that the leader had when it sent it, so the invariant keeps for every message in the network the log it
was cut from (`CommitShipped`), and for every member that the log up to its commit index is safe. The leader's own
rule is the usual one, an entry of its own term that a quorum holds, and the only place where majorities enter.

Both deliveries that the runs exclude do occur in the code as it is, and each has its run here: a message that was
overtaken cuts a committed entry, and two members apply different data at one index.
-/
import WarmLogic.Consensus.RaftCompleteness

namespace WarmLogic.Consensus

open WarmLogic.Lib

/-! ## What a call does to commit and apply -/

namespace RaftEngine

/-- The applied index follows the commit index, and new calls are for the entries in between. -/
structure AppliedFrom (e e' : RaftEngine) : Prop where
  lastApplied : e'.lastApplied = max e.lastApplied e'.commitIndex
  calls : ∀ c ∈ e'.calls, c ∈ e.calls ∨ ∃ i : Int, e.lastApplied < i ∧ i ≤ e'.lastApplied ∧
    c.1 = i.toNat ∧ ∃ x, e'.getEntry c.1 = some x ∧ x.data = c.2

/-- The commit side of a call: quiet, an accepted message, or an acknowledgement counted by a leader. -/
inductive CommitStep (e : RaftEngine) (m : Option RaftRPC) (e' : RaftEngine) : Prop
  | quiet : e'.commitIndex = e.commitIndex → e'.lastApplied = e.lastApplied → e'.calls = e.calls →
      e.log <+: e'.log → CommitStep e m e'
  | accept {rpc : RaftRPC} {prev : Int} {pt : UInt64} {es : List LogEntry} {lc : Int} :
      rpc ∈ m → Accepts e rpc e' prev pt es lc →
      e'.commitIndex = followIndex e.commitIndex lc e'.log e.lastSnapshotIndex →
      AppliedFrom e e' → CommitStep e m e'
  | ack : e'.state = .leader → e'.log = e.log →
      (e'.commitIndex = e.commitIndex ∨ ∃ k : Nat, e'.commitIndex = k ∧ e.commitIndex < k ∧
        k < e'.log.length ∧ e'.log[k]?.map (·.term) = some e'.currentTerm ∧ e'.hasCommittedAt k) →
      AppliedFrom e e' → CommitStep e m e'

variable {env : Env} {e e' : RaftEngine} {m : Option RaftRPC} {outs : List RaftRPC}

theorem Event.commitStep (h : Event env e m e' outs) : CommitStep e m e' := by
  cases h with
  | propose _ _ => exact .quiet rfl rfl rfl (List.prefix_append _ _)
  | accept hpay ho hT hmatch hf happ _ _ _ _ =>
      subst hf
      exact .accept rfl ⟨⟨_, _, hpay⟩, hT ▸ ho.le, hT, hmatch, rfl⟩ rfl ⟨rfl, happ.new⟩
  | @ack rpc i ni d mach f g hp hl _ hf hg happ =>
      refine .ack ?_ ?_ ?_ ⟨?_, ?_⟩
      · subst hg hf
        exact hl
      · subst hg hf
        rfl
      · have hcommit : g.commitIndex
            = ((f.commitScan f.log.length).map Int.ofNat).getD f.commitIndex := by rw [hg]
        cases hscan : f.commitScan f.log.length with
        | none =>
            left
            rw [hscan, hf] at hcommit
            exact hcommit
        | some k =>
            right
            rw [hscan] at hcommit
            obtain ⟨h1, h2, h3, h4⟩ := commitScan_eq_some hscan
            refine ⟨k, hcommit, ?_⟩
            subst hg hf
            exact ⟨h1, h2, h3, h4⟩
      · subst hg hf
        rfl
      · subst hg hf
        exact happ.new
  | _ => exact .quiet rfl rfl rfl (List.prefix_refl _)

theorem Event.lastSnapshotIndex_eq (h : Event env e m e' outs) :
    e'.lastSnapshotIndex = e.lastSnapshotIndex := by
  cases h with
  | accept _ _ _ _ hf =>
      subst hf
      rfl
  | ack _ _ _ hf hg =>
      subst hg hf
      rfl
  | _ => rfl

end RaftEngine

/-! ## Safe prefixes -/

section Safe

variable {members : Finset String} {h h' : List Cluster} {T T' : Nat} {p q : List LogEntry}

theorem committed_mono (hsub : h <:+ h') (hc : Committed entryTerm members (Held members h) T p) :
    Committed entryTerm members (Held members h') T p := by
  obtain ⟨Q, hQ, hheld⟩ := hc.majority
  exact ⟨hc.ne_nil, hc.last, hc.sorted, Q, hQ, fun v hv => (hheld v hv).mono hsub⟩

/-- A committed prefix was led. -/
theorem committed_led (hc : Committed entryTerm members (Held members h) T p) :
    ∃ l, Led members h T l ∧ p <+: l := by
  obtain ⟨Q, hQ, hheld⟩ := hc.majority
  obtain ⟨v, -, hv, -⟩ := hQ.inter hQ
  exact (hheld v hv).led

/-- `q` is empty or part of what was committed in a term up to `T`. -/
def Safe (members : Finset String) (h : List Cluster) (T : Nat) (q : List LogEntry) : Prop :=
  q = [] ∨ ∃ T₀ p, T₀ ≤ T ∧ Committed entryTerm members (Held members h) T₀ p ∧ q <+: p

theorem Safe.mono (hsub : h <:+ h') (hT : T ≤ T') (hs : Safe members h T q) :
    Safe members h' T' q := by
  rcases hs with hs | ⟨T₀, p, hle, hc, hq⟩
  · exact .inl hs
  · exact .inr ⟨T₀, p, hle.trans hT, committed_mono hsub hc, hq⟩

/-- What leader completeness says, for the history `h`: a log led in a later term starts with what was committed. -/
def Complete (members : Finset String) (h : List Cluster) : Prop :=
  ∀ T T' p l, Committed entryTerm members (Held members h) T p → T < T' → Led members h T' l → p <+: l

/-- **Safe prefixes agree.** -/
theorem Safe.comparable (hcomp : Complete members h) (hchain : Chained entryTerm (Led members h))
    (hp : Safe members h T p) (hq : Safe members h T' q) : p <+: q ∨ q <+: p := by
  rcases hp with rfl | ⟨T₁, p₁, -, hc₁, hp₁⟩
  · exact .inl (List.nil_prefix)
  rcases hq with rfl | ⟨T₂, p₂, -, hc₂, hp₂⟩
  · exact .inr (List.nil_prefix)
  obtain ⟨l₁, hl₁, hpl₁⟩ := committed_led hc₁
  obtain ⟨l₂, hl₂, hpl₂⟩ := committed_led hc₂
  rcases Nat.lt_trichotomy T₁ T₂ with hlt | rfl | hlt
  · exact List.prefix_or_prefix_of_prefix (hp₁.trans (hcomp T₁ T₂ p₁ l₂ hc₁ hlt hl₂))
      (hp₂.trans hpl₂)
  · exact hchain.comparable hl₁ hl₂ (hp₁.trans hpl₁) (hp₂.trans hpl₂)
  · exact List.prefix_or_prefix_of_prefix (hp₁.trans hpl₁)
      (hp₂.trans (hcomp T₂ T₁ p₂ l₁ hc₂ hlt hl₁))

end Safe

/-! ## The invariant -/

/-- The commit bookkeeping of one node: the indices are in order and inside the log, the log is safe up to the commit
index, and every call of the machine was for an entry of some safe prefix. -/
structure NodeCommit (members : Finset String) (h : List Cluster) (e : RaftEngine) : Prop where
  snapshot : e.lastSnapshotIndex = -1
  low : -1 ≤ e.lastApplied
  applied : e.lastApplied ≤ e.commitIndex
  high : e.commitIndex < e.log.length
  safe : Safe members h e.term (e.log.take (e.commitIndex + 1).toNat)
  calls : ∀ c ∈ e.calls, ∃ q, Safe members h e.term q ∧ ∃ x, q[c.1]? = some x ∧ x.data = c.2

/-- The `leader_commit` of a message covers a safe part of the log it was cut from. -/
def CommitShipped (members : Finset String) (h : List Cluster) (m : RaftRPC) : Prop :=
  ∀ prev pt ph pp es lc, m.payload = .appendEntries prev pt ph pp es lc →
    ∃ l k, Led members h m.term.toNat l ∧ k ≤ l.length ∧ prev = (k : Int) - 1 ∧
      es = some (l.drop k) ∧ -1 ≤ lc ∧ lc < l.length ∧
      Safe members h m.term.toNat (l.take (lc + 1).toNat)

/-- **The commit invariant** of a state `s` and the history `h` it ends. A step moves a commit index in two ways only.
A follower takes over the index of a message it accepted, whose log it then has, and the message says that this log is
safe up to there; a leader counts acknowledgements of a position of its own term, and a quorum of them makes
everything up to that position committed. Safe prefixes stay safe in a longer history, and by leader completeness no
message that is accepted later disagrees with them (`CommitInv.kept`). -/
structure CommitInv (members : Finset String) (s : Cluster) (h : List Cluster) : Prop where
  node : ∀ n ∈ members, NodeCommit members h (s.node n)
  sent : ∀ m ∈ s.net, CommitShipped members h m

section Step

variable {env : Env} {members : Finset String} {s : Cluster} {past : List Cluster} {n : String}
  {m : Option RaftRPC} {e' : RaftEngine} {outs : List RaftRPC}

/-- **An accepted message takes no committed entry away.** -/
theorem CommitInv.kept (hci : CommitInv members s (s :: past)) (hi : LogInv members s (s :: past))
    (hcomp : Complete members (s :: past)) (hn : n ∈ members) {rpc : RaftRPC} (hrpc : rpc ∈ s.net)
    {prev : Int} {pt : UInt64} {es : List LogEntry} {lc : Int}
    (hacc : RaftEngine.Accepts (s.node n) rpc e' prev pt es lc)
    (hno : (s.node n).cutsOwnTerm rpc = false) :
    (s.node n).log.take ((s.node n).commitIndex + 1).toNat <+: e'.log := by
  have hle : (s.node n).term ≤ rpc.term.toNat := UInt64.le_iff_toNat_le.mp hacc.le_term
  rcases (hci.node n hn).safe with hnil | ⟨T₀, p, hT₀, hc, hq⟩
  · rw [hnil]
    exact List.nil_prefix
  · rcases Nat.lt_or_ge T₀ rpc.term.toNat with hlt | hge
    · -- committed in an earlier term: the leader of the message has it
      obtain ⟨l, k, hled, -, -, -, -, -, hstored⟩ := hi.accepted hn hrpc hacc
      rw [hacc.log_eq]
      by_cases hnil : es = []
      · rw [hnil, storedLog_nil]
        exact List.take_prefix _ _
      · rw [hstored hnil]
        exact hq.trans (hcomp _ _ p l hc hlt hled)
    · -- committed in the message's own term
      have hsame : T₀ = rpc.term.toNat := by omega
      obtain ⟨l₀, hl₀, hpl₀⟩ := committed_led hc
      rw [hsame] at hl₀
      exact hi.survives hn hrpc hacc hno (List.take_prefix _ _) hl₀ (hq.trans hpl₀)

/-- The log a message was cut from is determined by where it was cut and what it carries. -/
theorem led_unique_of_drop (hi : LogInv members s (s :: past)) {T k : Nat} {l l' : List LogEntry}
    (hl : Led members (s :: past) T l) (hl' : Led members (s :: past) T l') (hk : k ≤ l.length)
    (hk' : k ≤ l'.length) (hdrop : l.drop k = l'.drop k) : l = l' := by
  have hlen : l.length = l'.length := by
    have := congrArg List.length hdrop
    rw [List.length_drop, List.length_drop] at this
    omega
  rcases hi.chained.comparable hl hl' (List.prefix_refl l) (List.prefix_refl l') with h | h
  · exact h.eq_of_length hlen
  · exact (h.eq_of_length hlen.symm).symm

/-- **A follower's commit index after an accepted message** covers a safe part of its new log. -/
theorem CommitInv.follow (hci : CommitInv members s (s :: past)) (hi : LogInv members s (s :: past))
    (hcomp : Complete members (s :: past)) (hn : n ∈ members) {rpc : RaftRPC} (hrpc : rpc ∈ s.net)
    {prev : Int} {pt : UInt64} {es : List LogEntry} {lc : Int}
    (hacc : RaftEngine.Accepts (s.node n) rpc e' prev pt es lc)
    (hno : (s.node n).cutsOwnTerm rpc = false)
    (hcommit : e'.commitIndex
      = RaftEngine.followIndex (s.node n).commitIndex lc e'.log (s.node n).lastSnapshotIndex) :
    (s.node n).commitIndex ≤ e'.commitIndex ∧ e'.commitIndex < e'.log.length ∧
      Safe members (s :: past) e'.term (e'.log.take (e'.commitIndex + 1).toNat) := by
  have hnode := hci.node n hn
  have hkept := hci.kept hi hcomp hn hrpc hacc hno
  have hT : e'.term = rpc.term.toNat := by rw [RaftEngine.term, hacc.term_eq]
  have hle : (s.node n).term ≤ e'.term := by
    rw [hT]
    exact UInt64.le_iff_toNat_le.mp hacc.le_term
  obtain ⟨ph, pp, hp⟩ := hacc.payload
  obtain ⟨l, k, hled, hk, hprev, hes, htake, hlen, hstored⟩ := hi.accepted hn hrpc hacc
  obtain ⟨l', k', hled', hk', hprev', hes', hlow, hhigh, hsafe⟩ := hci.sent rpc hrpc _ _ _ _ _ _ hp
  -- both descriptions of the message speak of one log
  have hkk : k = k' := by omega
  subst hkk
  have hll : l' = l := by
    refine led_unique_of_drop hi hled' hled hk' hk ?_
    rw [← hes]
    exact (Option.some.inj hes').symm
  subst hll
  have hlow' := hnode.low
  have happ' := hnode.applied
  rw [RaftEngine.followIndex, hnode.snapshot] at hcommit
  by_cases hlc : lc > (s.node n).commitIndex
  · rw [if_pos hlc] at hcommit
    -- the leader's commit index lies inside what the follower now has
    have hagree : lc < e'.log.length ∧ e'.log.take (lc + 1).toNat = l'.take (lc + 1).toNat := by
      rw [hacc.log_eq]
      by_cases hnil : es = []
      · have hkl : l'.length ≤ k := by
          rw [hnil] at hes
          exact List.drop_eq_nil_iff.mp hes.symm
        rw [hnil, storedLog_nil]
        refine ⟨by omega, ?_⟩
        have := congrArg (List.take (lc + 1).toNat) htake
        rwa [List.take_take, List.take_take, Nat.min_eq_left (by omega)] at this
      · rw [hstored hnil]
        exact ⟨hhigh, rfl⟩
    have heq : e'.commitIndex = lc := by omega
    rw [heq, hagree.2, hT]
    exact ⟨by omega, hagree.1, hsafe⟩
  · rw [if_neg hlc] at hcommit
    rw [hcommit]
    have hlen' := hkept.length_le
    have hhigh' := hnode.high
    rw [List.length_take] at hlen'
    refine ⟨le_refl _, by omega, ?_⟩
    have heq : e'.log.take ((s.node n).commitIndex + 1).toNat
        = (s.node n).log.take ((s.node n).commitIndex + 1).toNat := by
      have := List.prefix_iff_eq_take.mp hkept
      rw [List.length_take, Nat.min_eq_left (by omega)] at this
      exact this.symm
    rw [heq]
    exact hnode.safe.mono (List.suffix_refl _) hle

/-- The names that count for a position are the node itself and those whose match index reaches it. -/
theorem mem_matchVotes {e : RaftEngine} {k : Int} {v : String} (h : v ∈ e.matchVotes k) :
    v = e.nodeId ∨ ∃ i, e.matchIndex.lookup v = some i ∧ k ≤ i := by
  rcases Finset.mem_insert.mp h with h | h
  · exact .inl h
  · right
    obtain ⟨⟨w, i⟩, hmem, rfl⟩ := List.mem_map.mp (List.mem_toFinset.mp h)
    obtain ⟨hentry, hle⟩ := List.mem_filter.mp hmem
    exact ⟨i, AList.mem_lookup_iff.mpr hentry, of_decide_eq_true hle⟩

/-- An acknowledged position is held, with everything the leader has up to there. -/
theorem Acked.held {h : List Cluster} (hi : LogInv members s h) (hn : n ∈ members)
    (hl : (s.node n).state = .leader) {v : String} {i : Int} {k : Nat}
    (ha : Acked members h v (s.node n).term i) (hki : (k : Int) ≤ i) :
    Held members h v (s.node n).term ((s.node n).log.take (k + 1)) := by
  obtain ⟨t, pt, hsuf, hterm, l, hled, hlen, htake⟩ := ha
  obtain ⟨ext, hext, -⟩ := hi.leads n hn hl l (hled.mono hsuf.subset)
  have hp : (s.node n).log.take (k + 1) = l.take (k + 1) := by
    rw [hext, List.take_append_of_le_length (by omega)]
  rw [hp]
  refine ⟨t, pt, hsuf, hterm, ?_, l, hled, List.take_prefix _ _⟩
  have hcut := congrArg (List.take (k + 1)) htake
  rw [List.take_take, List.take_take, Nat.min_eq_left (by omega)] at hcut
  rw [← hcut]
  exact List.take_prefix _ _

/-- **The leader's commit rule commits**: a position of its own term that a quorum acknowledged. -/
theorem committed_of_hasCommittedAt {h : List Cluster} (hi : LogInv members s h)
    (ha : AckInv members s h) (hc : Configured members n (s.node n)) (hn : n ∈ members)
    (hhead : Held members h n (s.node n).term (s.node n).log) (hl : (s.node n).state = .leader)
    {k : Nat} (hterm : (s.node n).log[k]?.map (·.term) = some (s.node n).currentTerm)
    (hquorum : (s.node n).hasCommittedAt k) :
    Committed entryTerm members (Held members h) (s.node n).term ((s.node n).log.take (k + 1)) := by
  obtain ⟨x, hx, hxt⟩ := Option.map_eq_some_iff.mp hterm
  have hk : k < (s.node n).log.length := (List.getElem?_eq_some_iff.mp hx).1
  have hsnoc : (s.node n).log.take (k + 1) = (s.node n).log.take k ++ [x] := by
    rw [List.take_add_one, hx]
    rfl
  refine ⟨?_, ?_, (hi.good n hn).sorted.sublist (List.take_sublist _ _), ?_⟩
  · rw [hsnoc]
    simp
  · rw [hsnoc, lastTerm_snoc]
    exact congrArg UInt64.toNat hxt
  · refine ⟨_, (hc.majority hn (RaftEngine.listQuorum_of_hasQuorum hquorum)).restrict, ?_⟩
    intro v hv
    obtain ⟨hvotes, hmem⟩ := Finset.mem_inter.mp hv
    -- the leader holds its own log, and a peer what it acknowledged
    have hself : Held members h n (s.node n).term ((s.node n).log.take (k + 1)) := hhead.of_prefix (List.take_prefix _ _)
    rcases mem_matchVotes hvotes with rfl | ⟨i, hlook, hki⟩
    · rw [hc.nodeId]
      exact hself
    · by_cases hvn : v = n
      · rw [hvn]
        exact hself
      · have hpeer : v ∈ (s.node n).peers := by
          rw [← List.mem_toFinset, hc.peers]
          exact Finset.mem_erase.mpr ⟨hvn, hmem⟩
        exact (ha.matchIndex n hn hl v hpeer i hlook (by omega)).held hi hn hl hki

/-- Calls after a commit index moved: each for an entry of the safe part of the log. -/
theorem calls_safe {h : List Cluster} {e : RaftEngine} (hsnap : e'.lastSnapshotIndex = -1)
    (hlow : -1 ≤ e.lastApplied) (happ : RaftEngine.AppliedFrom e e')
    (happlied : e.lastApplied ≤ e'.commitIndex)
    (hsafe : Safe members h e'.term (e'.log.take (e'.commitIndex + 1).toNat))
    (hold : ∀ c ∈ e.calls, ∃ q, Safe members h e'.term q ∧ ∃ x, q[c.1]? = some x ∧ x.data = c.2) :
    ∀ c ∈ e'.calls, ∃ q, Safe members h e'.term q ∧ ∃ x, q[c.1]? = some x ∧ x.data = c.2 := by
  intro c hc
  rcases happ.calls c hc with hc | ⟨i, hi, hle, hidx, x, hget, hdata⟩
  · exact hold c hc
  · refine ⟨_, hsafe, x, ?_, hdata⟩
    rw [RaftEngine.getEntry, hsnap, if_neg (by omega)] at hget
    rw [happ.lastApplied] at hle
    rw [List.getElem?_take_of_lt (by omega)]
    rw [show ((c.1 : Int) - -1 - 1).toNat = c.1 by omega] at hget
    exact hget

theorem NodeCommit.mono {h h' : List Cluster} {e : RaftEngine} (hsub : h <:+ h') (hc : NodeCommit members h e) :
    NodeCommit members h' e := by
  refine ⟨hc.snapshot, hc.low, hc.applied, hc.high, hc.safe.mono hsub (le_refl _), fun c hcall => ?_⟩
  obtain ⟨q, hq, hrest⟩ := hc.calls c hcall
  exact ⟨q, hq.mono hsub (le_refl _), hrest⟩

/-- A leader's commit index moves over a safe part of its log. -/
theorem CommitInv.ack (hci : CommitInv members s (s :: past)) (hn : n ∈ members)
    (hi' : LogInv members (s.put n e' outs) (s.put n e' outs :: s :: past))
    (ha' : AckInv members (s.put n e' outs) (s.put n e' outs :: s :: past))
    (hc' : Configured members n e') (hterm_le : (s.node n).term ≤ e'.term) (hl : e'.state = .leader)
    (hlog : e'.log = (s.node n).log)
    (hcommit : e'.commitIndex = (s.node n).commitIndex ∨
      ∃ k : Nat, e'.commitIndex = k ∧ (s.node n).commitIndex < k ∧ k < e'.log.length ∧
        e'.log[k]?.map (·.term) = some e'.currentTerm ∧ e'.hasCommittedAt k) :
    (s.node n).commitIndex ≤ e'.commitIndex ∧ e'.commitIndex < e'.log.length ∧
      Safe members (s.put n e' outs :: s :: past) e'.term (e'.log.take (e'.commitIndex + 1).toNat) := by
  have hnode := hci.node n hn
  rcases hcommit with hsame | ⟨k, hk, hlt, hkl, hterm, hquorum⟩
  · rw [hsame, hlog]
    exact ⟨le_refl _, hnode.high, hnode.safe.mono (List.suffix_cons _ _) hterm_le⟩
  · refine ⟨by omega, by omega, .inr ⟨e'.term, e'.log.take (k + 1), le_refl _, ?_, ?_⟩⟩
    · have hheld : Held members (s.put n e' outs :: s :: past) n e'.term e'.log :=
        ⟨_, _, List.suffix_refl _, by rw [Cluster.put_node_self],
          by rw [Cluster.put_node_self], e'.log, ⟨n, ledBy_self hn hl⟩, List.prefix_refl _⟩
      have hcom := committed_of_hasCommittedAt (n := n) (k := k) hi' ha'
      rw [Cluster.put_node_self] at hcom
      exact hcom hc' hn hheld hl hterm hquorum
    · rw [hk, show ((k : Int) + 1).toNat = k + 1 by omega]

/-- The commit bookkeeping of the acting node. -/
theorem CommitInv.node_self (hci : CommitInv members s (s :: past)) (hi : LogInv members s (s :: past))
    (hcomp : Complete members (s :: past)) (hn : n ∈ members) (hm : ∀ rpc ∈ m, s.Addressed n rpc)
    (hno : ∀ rpc ∈ m, (s.node n).cutsOwnTerm rpc = false)
    (hi' : LogInv members (s.put n e' outs) (s.put n e' outs :: s :: past))
    (ha' : AckInv members (s.put n e' outs) (s.put n e' outs :: s :: past))
    (hc' : Configured members n e') (hst : RaftEngine.LogStep env (s.node n) m e' outs)
    (hcs : RaftEngine.CommitStep (s.node n) m e')
    (hsnap : e'.lastSnapshotIndex = (s.node n).lastSnapshotIndex) :
    NodeCommit members (s.put n e' outs :: s :: past) e' := by
  have hsuf : (s :: past) <:+ (s.put n e' outs :: s :: past) := List.suffix_cons _ _
  have hnode := hci.node n hn
  have hsnap' : e'.lastSnapshotIndex = -1 := hsnap.trans hnode.snapshot
  have hcalls : ∀ c ∈ (s.node n).calls, ∃ q,
      Safe members (s.put n e' outs :: s :: past) e'.term q ∧ ∃ x, q[c.1]? = some x ∧ x.data = c.2 := by
    intro c hc
    obtain ⟨q, hq, hrest⟩ := hnode.calls c hc
    exact ⟨q, hq.mono hsuf hst.term_le, hrest⟩
  have hlow := hnode.low
  have happlied := hnode.applied
  have hhigh := hnode.high
  cases hcs with
  | quiet h1 h2 h3 hpre =>
      have hlen := hpre.length_le
      refine ⟨hsnap', by omega, by omega, by omega, ?_, ?_⟩
      · rw [h1]
        obtain ⟨rest, hrest⟩ := hpre
        rw [← hrest, List.take_append_of_le_length (by omega)]
        exact hnode.safe.mono hsuf hst.term_le
      · rw [h3]
        exact hcalls
  | accept hrpc hacc hcommit happ =>
      obtain ⟨hmono, hlt, hsafe⟩ :=
        hci.follow hi hcomp hn (hm _ hrpc).1 hacc (hno _ hrpc) hcommit
      have hsafe' := hsafe.mono hsuf (le_refl _)
      have hla := happ.lastApplied
      exact ⟨hsnap', by omega, by omega, hlt, hsafe',
        calls_safe hsnap' hlow happ (by omega) hsafe' hcalls⟩
  | ack hl hlog hcommit happ =>
      obtain ⟨hmono, hlt, hsafe⟩ := hci.ack hn hi' ha' hc' hst.term_le hl hlog hcommit
      have hla := happ.lastApplied
      exact ⟨hsnap', by omega, by omega, hlt, hsafe,
        calls_safe hsnap' hlow happ (by omega) hsafe hcalls⟩

/-- **One call keeps the commit invariant.** -/
theorem CommitInv.put (hci : CommitInv members s (s :: past)) (hi : LogInv members s (s :: past))
    (hcomp : Complete members (s :: past)) (hn : n ∈ members) (hm : ∀ rpc ∈ m, s.Addressed n rpc)
    (hno : ∀ rpc ∈ m, (s.node n).cutsOwnTerm rpc = false)
    (hi' : LogInv members (s.put n e' outs) (s.put n e' outs :: s :: past))
    (ha' : AckInv members (s.put n e' outs) (s.put n e' outs :: s :: past))
    (hc' : Configured members n e') (hst : RaftEngine.LogStep env (s.node n) m e' outs)
    (hcs : RaftEngine.CommitStep (s.node n) m e')
    (hsnap : e'.lastSnapshotIndex = (s.node n).lastSnapshotIndex) :
    CommitInv members (s.put n e' outs) (s.put n e' outs :: s :: past) := by
  have hsuf : (s :: past) <:+ (s.put n e' outs :: s :: past) := List.suffix_cons _ _
  have hnode := hci.node n hn
  constructor
  · apply Cluster.forall_put (P := fun _ e => NodeCommit members (s.put n e' outs :: s :: past) e)
    · exact hci.node_self hi hcomp hn hm hno hi' ha' hc' hst hcs hsnap
    · intro k hk
      exact (hci.node k hk).mono hsuf
  · intro o ho prev pt ph pp es lc hp
    rcases List.mem_append.mp ho with ho | ho
    · obtain ⟨hl, -, p, ⟨next, hnext, ph', pp', rfl⟩, rfl⟩ := hst.sent o ho prev pt ph pp es lc hp
      simp only [RaftEngine.createRpc, RpcPayload.appendEntries.injEq] at hp
      obtain ⟨rfl, -, -, -, rfl, rfl⟩ := hp
      have hlow := hnode.low
      have happlied := hnode.applied
      refine ⟨(s.node n).log, next, ?_, hnext, rfl, rfl, by omega, hnode.high, ?_⟩
      · exact Led.put ⟨n, hn, s, List.mem_cons_self, hl, rfl, rfl⟩
      · exact hnode.safe.mono hsuf (le_refl _)
    · obtain ⟨l, k, hled, h1, h2, h3, h4, h5, hsafe⟩ := hci.sent o ho prev pt ph pp es lc hp
      exact ⟨l, k, hled.put, h1, h2, h3, h4, h5, hsafe.mono hsuf (le_refl _)⟩

end Step

/-! ## State machine safety and commit durability -/

/-- The runs in which committed entries last: no list is installed, no log is pruned, and no delivery
over-reports or cuts its own term. -/
def Lasting (env : Env) (op : ClusterOp) (s : Cluster) : Prop :=
  Steady env op s ∧ NoOverReport op s ∧ NoStaleCut op s

instance (env : Env) (op : ClusterOp) (s : Cluster) : Decidable (Lasting env op s) :=
  inferInstanceAs (Decidable (_ ∧ _))

/-- The same without any reconfiguration or snapshot. -/
def Orderly (op : ClusterOp) (s : Cluster) : Prop := Plain op s ∧ NoOverReport op s ∧ NoStaleCut op s

instance (op : ClusterOp) (s : Cluster) : Decidable (Orderly op s) := inferInstanceAs (Decidable (_ ∧ _))

section Runs

variable {env : Env} {members : Finset String}

theorem Orderly.lasting {h : List Cluster} (hr : (cluster env members).Run Orderly h) :
    (cluster env members).Run (Lasting env) h :=
  (run_steady (fun _ _ h => h.1) hr).mono fun _ _ ⟨hok, hsteady⟩ => ⟨hsteady, hok.2⟩

theorem complete_run {s : Cluster} {past : List Cluster}
    (hr : (cluster env members).Run (Lasting env) (s :: past)) : Complete members (s :: past) :=
  fun _ _ _ _ hcom hT hl => committed_isPrefix_led (fun _ _ h => h.1) (fun _ _ h => h.2.2) hr hcom hT hl

theorem commitInv_run {s : Cluster} {past : List Cluster}
    (hr : (cluster env members).Run (Lasting env) (s :: past)) : CommitInv members s (s :: past) := by
  refine System.Run.invariant_head (P := CommitInv members) ?_ ?_ hr
  · rintro s ⟨hnet, hfresh⟩
    refine ⟨fun n hn => ?_, by simp [hnet]⟩
    have hstart := (hfresh n hn).justStarted
    refine ⟨hstart.lastSnapshotIndex, by simp [hstart.lastApplied],
      by simp [hstart.lastApplied, hstart.commitIndex], by simp [hstart.commitIndex, hstart.log], ?_,
      by simp [hstart.calls]⟩
    rw [hstart.log]
    exact .inl List.take_nil
  · intro s past op s' hr hci hok hstep
    have hr' := System.Run.step hr hok hstep
    obtain ⟨n, m, e', outs, hmv, rfl⟩ := steady_step hok.1 hstep
    have hc' := configured_reachable (fun _ _ h => h.1.1) ⟨_, hr'⟩ n hmv.mem
    rw [Cluster.put_node_self] at hc'
    refine hci.put (logInv_run (fun _ _ h => h.1) hr) (complete_run hr) hmv.mem hmv.addressed ?_
      (logInv_run (fun _ _ h => h.1) hr') (ackInv_run (fun _ _ h => h.1) (fun _ _ h => h.2.1) hr')
      hc' hmv.event.logStep hmv.event.commitStep hmv.event.lastSnapshotIndex_eq
    intro rpc hrpc
    have hguard := hok.2.2
    rw [hmv.op_eq hrpc] at hguard
    exact hguard

end Runs

/-- No two calls of `StateMachine::apply` that members made up to any states of the history have one index and
different data. -/
def AppliedAgree (members : Finset String) (h : List Cluster) : Prop :=
  ∀ s ∈ h, ∀ t ∈ h, ∀ a ∈ members, ∀ b ∈ members, ∀ i d d',
    (i, d) ∈ (s.node a).calls → (i, d') ∈ (t.node b).calls → d = d'

/-- **State machine safety.** In every orderly run all members apply the same data at the same index. A member applies
committed entries only, and two members have the same committed entries as far as both have any. -/
theorem state_machine_safety {env : Env} {members : Finset String} {h : List Cluster}
    (hr : (cluster env members).Run Orderly h) : AppliedAgree members h := by
  intro s hs t ht a ha b hb i d d' hd hd'
  have hr := Orderly.lasting hr
  obtain ⟨ps, hsufs, hrs⟩ := hr.exists_suffix hs
  obtain ⟨pt, hsuft, hrt⟩ := hr.exists_suffix ht
  obtain ⟨q, hq, x, hx, hxd⟩ := ((commitInv_run hrs).node a ha).calls _ hd
  obtain ⟨q', hq', y, hy, hyd⟩ := ((commitInv_run hrt).node b hb).calls _ hd'
  obtain ⟨head, past, rfl⟩ : ∃ x xs, h = x :: xs := List.exists_cons_of_ne_nil (List.ne_nil_of_mem hs)
  -- both entries stand in safe prefixes, one of which continues the other
  have hxy : x = y := by
    have hget : ∀ {q q' : List LogEntry} {x y : LogEntry}, q <+: q' → q[i]? = some x →
        q'[i]? = some y → x = y := by
      rintro q q' x y ⟨rest, rfl⟩ hx hy
      rw [List.getElem?_append_left (List.getElem?_eq_some_iff.mp hx).1, hx] at hy
      exact Option.some.inj hy
    rcases (hq.mono hsufs (le_refl _)).comparable (complete_run hr)
      (logInv_run (fun _ _ h => h.1) hr).chained (hq'.mono hsuft (le_refl _)) with hpre | hpre
    · exact hget hpre hx hy
    · exact (hget hpre hy hx).symm
  exact hxd.symm.trans ((congrArg LogEntry.data hxy).trans hyd)

/-- Both `a` and `b` have applied the entry at index 0. -/
theorem state_machine_safety_trio : ∃ h, (cluster scriptEnv trio).Run Orderly h ∧
    (∃ s ∈ h, (0, "TARGET:1") ∈ (s.node "a").calls ∧ (0, "TARGET:1") ∈ (s.node "b").calls) ∧
    AppliedAgree trio h := by
  obtain ⟨s, past, hr, hcalls⟩ := System.exists_run_of_play Orderly
    (P := fun s _ => (0, "TARGET:1") ∈ (s.node "a").calls ∧ (0, "TARGET:1") ∈ (s.node "b").calls)
    trioStart_init [timeout "a", deliverNth "b" 0, deliverNth "a" 2, clientPropose "a" "TARGET:1",
      timeout "a", deliverNth "b" 3, deliverNth "a" 5, timeout "a", deliverNth "b" 7]
    (by decide +kernel)
  exact ⟨_, hr, ⟨s, List.mem_cons_self, hcalls⟩, state_machine_safety hr⟩

/-- **Two nodes apply different data at index 1.** Leader `a` sends `[1]` and then `[1, 2]`; `b` takes the
second message first, and `a` commits and applies `2` on its acknowledgement. Then the first message arrives
at `b` and cuts `2` out again; `b` is elected by `c` and commits `3` in its place. -/
theorem apply_disagrees_after_stale_append :
    ¬ ∀ (env : Env) (members : Finset String) (h : List Cluster),
      (cluster env members).Run Plain h → AppliedAgree members h := by
  intro hall
  obtain ⟨s, past, hr, ha, hb⟩ := System.exists_run_of_play Plain
    (P := fun s _ => (1, "TARGET:2") ∈ (s.node "a").calls ∧ (1, "TARGET:3") ∈ (s.node "b").calls)
    trioStart_init [
      timeout "a", deliverNth "b" 0, deliverNth "a" 2, clientPropose "a" "TARGET:1", timeout "a",
      clientPropose "a" "TARGET:2", timeout "a", deliverNth "b" 5, deliverNth "a" 7, deliverNth "b" 3,
      timeout "b", deliverNth "c" 9, deliverNth "b" 11, clientPropose "b" "TARGET:3", timeout "b",
      deliverNth "c" 12, deliverNth "b" 14, timeout "b", deliverNth "c" 15, deliverNth "b" 17]
    (by decide +kernel)
  exact absurd (hall scriptEnv trio _ hr s List.mem_cons_self s List.mem_cons_self "a" (by decide) "b"
    (by decide) 1 _ _ ha hb) (by decide)

/-- What a step may not do to the committed part of a log. -/
structure CommitDurable (e e' : RaftEngine) : Prop where
  kept : ∀ i : Nat, (i : Int) ≤ e.commitIndex → e'.log[i]? = e.log[i]?
  mono : e.commitIndex ≤ e'.commitIndex
  bounded : e'.commitIndex ≤ e'.lastLogIndex

/-- **Commit durability.** No step of a lasting run removes or changes an entry up to a member's commit index, and the
commit index neither decreases nor passes the last entry. What is committed is in the log of a quorum, so every later
leader has it and no append cuts it off. -/
theorem commit_durability {env : Env} {members : Finset String} {s s' : Cluster} {past : List Cluster}
    (hr : (cluster env members).Run (Lasting env) (s' :: s :: past)) {n : String} (hn : n ∈ members) :
    CommitDurable (s.node n) (s'.node n) := by
  have hhigh := ((commitInv_run hr).node n hn).high
  cases hr with
  | step hr hok hstep =>
      have hci := commitInv_run hr
      have hi := logInv_run (fun _ _ h => h.1) hr
      have hold := hci.node n hn
      obtain ⟨k, m, e', outs, hmv, rfl⟩ := steady_step hok.1 hstep
      have key : (s.node n).log.take ((s.node n).commitIndex + 1).toNat
            <+: ((s.put k e' outs).node n).log ∧
          (s.node n).commitIndex ≤ ((s.put k e' outs).node n).commitIndex := by
        by_cases hnk : n = k
        · subst hnk
          rw [Cluster.put_node_self]
          cases hmv.event.commitStep with
          | quiet h1 _ _ hpre => exact ⟨(List.take_prefix _ _).trans hpre, by omega⟩
          | accept hrpc hacc hcommit _ =>
              have hguard := hok.2.2
              rw [hmv.op_eq hrpc] at hguard
              exact ⟨hci.kept hi (complete_run hr) hn (hmv.addressed _ hrpc).1 hacc hguard,
                (hci.follow hi (complete_run hr) hn (hmv.addressed _ hrpc).1 hacc hguard hcommit).1⟩
          | ack _ hlog hcommit _ =>
              refine ⟨hlog ▸ List.take_prefix _ _, ?_⟩
              rcases hcommit with h | ⟨j, h, hlt, -⟩ <;> omega
        · rw [Cluster.put_node_of_ne _ _ _ hnk]
          exact ⟨List.take_prefix _ _, le_refl _⟩
      refine ⟨fun i hi' => ?_, key.2, by rw [RaftEngine.lastLogIndex]; omega⟩
      have hlen := hold.high
      obtain ⟨rest, hrest⟩ := key.1
      rw [← hrest, List.getElem?_append_left (by rw [List.length_take]; omega),
        List.getElem?_take_of_lt (by omega)]

/-- Leader `a` has applied the entry at index 0, taken a snapshot that prunes nothing (it has no directory to put
it in), and proposed to go on with `b` and `d` alone. A heartbeat brings `b` that proposal, which stays pending,
and moves its commit index to 0. -/
theorem commit_durability_trio : ∃ s' s past,
    (cluster scriptEnv trio).Run (Lasting scriptEnv) (s' :: s :: past) ∧ (s.node "b").commitIndex = -1 ∧
    (s'.node "b").commitIndex = 0 ∧ (s'.node "b").pendingPeers = some ["b", "d"] ∧
    CommitDurable (s.node "b") (s'.node "b") := by
  obtain ⟨s', past, hr, ⟨hc', hpend⟩, hc⟩ := System.exists_run_of_play (Lasting scriptEnv)
    (P := fun s' h => ((s'.node "b").commitIndex = 0 ∧ (s'.node "b").pendingPeers = some ["b", "d"]) ∧
      ∃ s ∈ h.tail.head?, (s.node "b").commitIndex = -1)
    trioStart_init [timeout "a", deliverNth "b" 0, deliverNth "a" 2, clientPropose "a" "TARGET:1",
      timeout "a", deliverNth "b" 3, deliverNth "a" 5, fun _ => .snapshot "a" "S",
      clientPropose "a" "CONF:b,d", timeout "a", deliverNth "b" 6]
    (by decide +kernel)
  obtain ⟨s, hs, hc⟩ := hc
  cases past with
  | nil => cases hs
  | cons t past =>
      cases hs
      exact ⟨s', s, past, hr, hc, hc', hpend, commit_durability hr (by decide)⟩

/-- **A delayed AppendEntries cuts a committed entry.** Leader `a` sends `[1]` and then `[1, 2]`; `b` takes the
second, learns from a heartbeat that both are committed, and then receives the first. -/
theorem stale_append_cuts_committed_entry :
    ¬ ∀ (env : Env) (members : Finset String) (s s' : Cluster) (past : List Cluster),
      (cluster env members).Run Plain (s' :: s :: past) → ∀ n ∈ members,
        CommitDurable (s.node n) (s'.node n) := by
  intro hall
  obtain ⟨s', past, hr, hnone, hc⟩ := System.exists_run_of_play Plain
    (P := fun s' h => (s'.node "b").log[1]? = none ∧ ∃ s ∈ h.tail.head?,
      (s.node "b").commitIndex = 1 ∧ (s.node "b").log[1]? ≠ none)
    trioStart_init [timeout "a", deliverNth "b" 0, deliverNth "a" 2, clientPropose "a" "TARGET:1",
      timeout "a", clientPropose "a" "TARGET:2", timeout "a", deliverNth "b" 5, deliverNth "a" 7,
      timeout "a", deliverNth "b" 9, deliverNth "b" 3]
    (by decide +kernel)
  obtain ⟨s, hs, hcommit, hsome⟩ := hc
  cases past with
  | nil => cases hs
  | cons t past =>
      cases hs
      have hkept := (hall scriptEnv trio s s' past hr "b" (by decide)).kept 1 (by omega)
      exact hsome (hkept.symm.trans hnone)

end WarmLogic.Consensus
