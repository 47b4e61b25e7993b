/-
# WarmLogic.Consensus.RaftLogMatching — the logs of the cluster are backed by leaders, and therefore match.

`Led members h T l` is the history's record of leadership: at some state of `h` a member was the leader of
term `T` with log `l`. This instantiates `Lib.LeaderLog`. The truncation in `handle_append_entries` is
unconditional, but it does not hurt matching: an accepted AppendEntries with entries turns the follower's log
into EXACTLY the log the leader had when it sent the message, and one without entries leaves it alone.

The order of the proof: a call's effect on the log is one of three, read off the outcomes of `RaftEvent` (`LogStep`):
the log is unchanged, a leader appended to its own, or the entries of a message were accepted. An AppendEntries in the
network was cut out of a log led in its term (`Shipped`), since heartbeats carry everything from a position on.
Passing the consistency check puts the follower's log in step with the leader's up to the cut
(`take_eq_of_prevMatches`), because the term in front of the cut is that of an entry which its leader's log
determines.

That nobody else ever led the acting node's term is an assumption of the step (`LogInv.put`); `RaftElection` supplies
it for whole runs, so the two invariants are proved one after the other and not together.
-/
import WarmLogic.Lib.LeaderLog
import WarmLogic.Consensus.RaftElection

namespace WarmLogic.Consensus

open WarmLogic.Lib

/-- The term of an entry as a number. -/
def entryTerm (x : LogEntry) : Nat := x.term.toNat

/-- `last_log_term` is the last term in the sense of `Lib.LeaderLog`. -/
theorem lastTerm_log (e : RaftEngine) : lastTerm entryTerm e.log = e.lastLogTerm.toNat := by
  rw [RaftEngine.lastLogTerm, lastTerm]
  cases e.log.getLast? <;> rfl

/-- Member `c` was the leader of term `T`, with log `l`, at some state of the history. -/
def LedBy (members : Finset String) (h : List Cluster) (T : Nat) (c : String) (l : List LogEntry) :
    Prop :=
  c ∈ members ∧ ∃ s ∈ h, (s.node c).state = .leader ∧ (s.node c).term = T ∧ (s.node c).log = l

/-- Some member was the leader of term `T` with log `l`, at some state of the history. -/
def Led (members : Finset String) (h : List Cluster) (T : Nat) (l : List LogEntry) : Prop :=
  ∃ c, LedBy members h T c l

/-- A history that goes on has the same leaders before. -/
theorem Led.mono {members : Finset String} {h h' : List Cluster} (hsub : h ⊆ h') {T : Nat}
    {l : List LogEntry} (hl : Led members h T l) : Led members h' T l := by
  obtain ⟨c, hc, s, hs, hrest⟩ := hl
  exact ⟨c, hc, s, hsub hs, hrest⟩

/-! ## What a call does to the log -/

namespace RaftEngine

/-- The call accepted the entries of a message. -/
structure Accepts (e : RaftEngine) (rpc : RaftRPC) (e' : RaftEngine) (prev : Int) (pt : UInt64)
    (es : List LogEntry) (lc : Int) : Prop where
  payload : ∃ ph pp, rpc.payload = .appendEntries prev pt ph pp (some es) lc
  le_term : e.currentTerm ≤ rpc.term
  term_eq : e'.currentTerm = rpc.term
  prevMatches : prevMatches e.log prev pt = some true
  log_eq : e'.log = storedLog e.log prev es

/-- The log side of a call. A candidate never changes its log, a leader only appends an entry of its term, and a call
that makes a leader leaves the log alone; every other change of a log is an accepted message. -/
structure LogStep (env : Env) (e : RaftEngine) (m : Option RaftRPC) (e' : RaftEngine)
    (outs : List RaftRPC) : Prop where
  term_le : e.term ≤ e'.term
  candidate : e'.state = .candidate → e'.log = e.log ∧ (e'.term = e.term → e.state = .candidate)
  leader : e'.state = .leader →
    (e.state = .leader ∧ e'.term = e.term ∧
      (e'.log = e.log ∨ ∃ x, entryTerm x = e.term ∧ e'.log = e.log ++ [x])) ∨
    (e'.log = e.log ∧ e.state ≠ .leader ∧ (e.term < e'.term ∨ (e.state = .candidate ∧ e'.term = e.term)))
  log : e'.log = e.log ∨ e'.state = .leader ∨ ∃ rpc ∈ m, ∃ prev pt es lc, Accepts e rpc e' prev pt es lc
  sent : ∀ o ∈ outs, ∀ prev pt ph pp es lc, o.payload = .appendEntries prev pt ph pp es lc →
    e.state = .leader ∧ e' = e ∧ ∃ p, Heartbeat e p ∧ o = e.createRpc env p none

variable {env : Env} {e e' : RaftEngine} {m : Option RaftRPC} {outs : List RaftRPC}

/-- A call that leaves the log alone and wins no election. -/
theorem LogStep.of_same_log (hterm : e.term ≤ e'.term) (hlog : e'.log = e.log)
    (hstate : e'.state = .follower ∨ (e'.state = e.state ∧ e'.term = e.term))
    (hsent : ∀ o ∈ outs, ∀ prev pt ph pp es lc, o.payload ≠ .appendEntries prev pt ph pp es lc) :
    LogStep env e m e' outs := by
  constructor
  · exact hterm
  · intro hc
    refine ⟨hlog, fun _ => ?_⟩
    rcases hstate with h | ⟨h, -⟩
    · exact absurd (hc.symm.trans h) (by decide)
    · exact h.symm.trans hc
  · intro hl
    rcases hstate with h | ⟨h, ht⟩
    · exact absurd (hl.symm.trans h) (by decide)
    · exact .inl ⟨h.symm.trans hl, ht, .inl hlog⟩
  · exact .inl hlog
  · intro o ho prev pt ph pp es lc hp
    exact absurd hp (hsent o ho prev pt ph pp es lc)

/-- A refusal is no append. -/
theorem not_append_of_negative {o : RaftRPC} (h : Negative o) (prev : Int) (pt : UInt64)
    (ph pp : String) (es : Option (List LogEntry)) (lc : Int) :
    o.payload ≠ .appendEntries prev pt ph pp es lc := by
  intro hp
  rcases h with h | ⟨i, h⟩ <;> rw [h] at hp <;> cases hp

/-- Observing a term keeps the state, or makes a follower. -/
theorem Observed.state_or {t T : UInt64} {S : RaftState} {V : Option String}
    (h : Observed e t T S V) : S = .follower ∨ (S = e.state ∧ T.toNat = e.term) := by
  rcases h.state_cases with h | ⟨h1, h2⟩
  · exact .inl h
  · exact .inr ⟨h2, by rw [h1]; rfl⟩

/-- **Every event is a step of logs.** -/
theorem Event.logStep (h : Event env e m e' outs) : LogStep env e m e' outs := by
  cases h with
  | idle => exact .of_same_log (le_refl _) rfl (.inr ⟨rfl, rfl⟩) (by simp)
  | campaign _ hmax houts =>
      have hterm : (e.currentTerm + 1).toNat = e.term + 1 := toNat_succ hmax
      constructor
      · show e.term ≤ (e.currentTerm + 1).toNat
        omega
      · intro _
        refine ⟨rfl, fun hsame => ?_⟩
        have : (e.currentTerm + 1).toNat = e.term := hsame
        omega
      · intro hl
        cases hl
      · exact .inl rfl
      · intro o ho prev pt ph pp es lc hp
        rw [(houts o ho).2.2] at hp
        cases hp
  | solo hne hmax _ =>
      -- a leader at once, of a term it enters now
      have hterm : (e.currentTerm + 1).toNat = e.term + 1 := toNat_succ hmax
      have hlt : e.term < (e.currentTerm + 1).toNat := by omega
      constructor
      · exact Nat.le_of_lt hlt
      · intro hc
        cases hc
      · intro _
        exact .inr ⟨rfl, hne, .inl hlt⟩
      · exact .inl rfl
      · intro o ho
        cases ho
  | heartbeat hl houts =>
      constructor
      · exact le_refl _
      · intro hc
        exact absurd (hl.symm.trans hc) (by decide)
      · intro _
        exact .inl ⟨hl, rfl, .inl rfl⟩
      · exact .inl rfl
      · intro o ho prev pt ph pp es lc _
        exact ⟨hl, rfl, houts o ho⟩
  | propose hl hx =>
      constructor
      · exact le_refl _
      · intro hc
        exact absurd (hl.symm.trans hc) (by decide)
      · intro _
        exact .inl ⟨hl, rfl, .inr ⟨_, congrArg UInt64.toNat hx, rfl⟩⟩
      · exact .inr (.inl hl)
      · intro o ho
        cases ho
  | snapshot => exact .of_same_log (le_refl _) rfl (.inr ⟨rfl, rfl⟩) (by simp)
  | observe ho houts =>
      exact .of_same_log ho.le_toNat rfl ho.state_or
        (fun o hmem => not_append_of_negative (houts o hmem))
  | grant _ ho _ _ _ _ _ _ hp =>
      refine .of_same_log ho.le_toNat rfl ho.state_or ?_
      intro o hmem prev pt ph pp es lc hpo
      rw [List.mem_singleton] at hmem
      rw [hmem, hp] at hpo
      cases hpo
  | follow ho _ houts =>
      exact .of_same_log ho.le_toNat rfl (.inl rfl)
        (fun o hmem => not_append_of_negative (houts o hmem))
  | accept hpay ho hT hmatch hf _ _ _ _ hp =>
      -- the only event that can take entries away
      subst hf
      constructor
      · exact ho.le_toNat
      · intro hc
        cases hc
      · intro hl
        cases hl
      · exact .inr (.inr ⟨_, rfl, _, _, _, _, ⟨_, _, hpay⟩, hT ▸ ho.le, hT, hmatch, rfl⟩)
      · intro o hmem prev pt ph pp es lc hpo
        rw [List.mem_singleton] at hmem
        rw [hmem, hp] at hpo
        cases hpo
  | count _ _ _ => exact .of_same_log (le_refl _) rfl (.inr ⟨rfl, rfl⟩) (by simp)
  | win _ hs _ _ =>
      -- the log stays; what is new is that it is led
      constructor
      · exact le_refl _
      · intro hc
        cases hc
      · intro _
        exact .inr ⟨rfl, by rw [hs]; decide, .inr ⟨hs, rfl⟩⟩
      · exact .inl rfl
      · intro o ho
        cases ho
  | ack _ _ _ hf hg _ =>
      subst hg
      subst hf
      exact .of_same_log (le_refl _) rfl (.inr ⟨rfl, rfl⟩) (by simp)

end RaftEngine

/-! ## Messages transport led logs -/

/-- An AppendEntries is cut out of a log led in its term, and names the term in front of the cut. -/
def Shipped (led : Nat → List LogEntry → Prop) (m : RaftRPC) : Prop :=
  ∀ prev pt ph pp es lc, m.payload = .appendEntries prev pt ph pp es lc →
    ∃ l k, led m.term.toNat l ∧ k ≤ l.length ∧ prev = (k : Int) - 1 ∧ es = some (l.drop k) ∧
      ∀ x, 0 < k → l[k - 1]? = some x → x.term = pt

/-- What was shipped of a leader's log is so of more leaders. -/
theorem Shipped.mono {led led' : Nat → List LogEntry → Prop} (hled : ∀ T l, led T l → led' T l)
    {m : RaftRPC} (h : Shipped led m) : Shipped led' m := by
  intro prev pt ph pp es lc hp
  obtain ⟨l, k, hl, hrest⟩ := h prev pt ph pp es lc hp
  exact ⟨l, k, hled _ _ hl, hrest⟩

/-- A heartbeat ships a piece of its sender's log. -/
theorem shipped_heartbeat {env : Env} {led : Nat → List LogEntry → Prop} {e : RaftEngine}
    {p : RpcPayload} (hp : e.Heartbeat p) (hled : led e.term e.log) :
    Shipped led (e.createRpc env p none) := by
  obtain ⟨next, hnext, ph', pp', rfl⟩ := hp
  intro prev pt ph pp es lc hpay
  simp only [RaftEngine.createRpc, RpcPayload.appendEntries.injEq] at hpay
  obtain ⟨rfl, rfl, -, -, rfl, -⟩ := hpay
  refine ⟨e.log, next, hled, hnext, rfl, rfl, ?_⟩
  intro x hpos hx
  rw [if_neg (by omega), hx]
  rfl

section Accept

variable {led : Nat → List LogEntry → Prop} {log l : List LogEntry} {k : Nat} {pt : UInt64}

/-- **Passing the consistency check** puts the follower's log in step with the leader's, up to the cut. -/
theorem take_eq_of_prevMatches (hc : Chained entryTerm led) (hlog : Backed entryTerm led log)
    (hl : Backed entryTerm led l) (hk : k ≤ l.length)
    (hpt : ∀ x, 0 < k → l[k - 1]? = some x → x.term = pt)
    (hm : RaftEngine.prevMatches log ((k : Int) - 1) pt = some true) :
    log.take k = l.take k ∧ k ≤ log.length := by
  cases k with
  | zero => exact ⟨by simp, Nat.zero_le _⟩
  | succ j =>
      have hcast : ((j + 1 : Nat) : Int) - 1 = (j : Int) := by push_cast; ring
      unfold RaftEngine.prevMatches at hm
      rw [hcast, if_neg (by omega)] at hm
      split at hm
      · rename_i hlt
        rw [if_neg (by omega), Int.toNat_natCast] at hm
        have hj : j < log.length := by omega
        have hx : l[j]? = some l[j] := List.getElem?_eq_getElem (by omega)
        have hy : log[j]? = some log[j] := List.getElem?_eq_getElem hj
        have hterm : log[j].term = l[j].term := by
          rw [hy] at hm
          have : log[j].term = pt := by simpa using hm
          rw [this, hpt _ (by omega) hx]
        exact ⟨hlog.take_eq hc hl hy hx (congrArg UInt64.toNat hterm), hj⟩
      · cases hm

/-- **Accepting entries** makes the follower's log the log the leader had. -/
theorem storedLog_eq (htake : log.take k = l.take k) (hk : k ≤ log.length) (hne : l.drop k ≠ []) :
    RaftEngine.storedLog log ((k : Int) - 1) (l.drop k) = l := by
  unfold RaftEngine.storedLog
  rw [if_neg (by simpa [List.isEmpty_iff] using hne)]
  have hfront : (if (log.length : Int) > (k : Int) - 1 + 1 then log.take ((k : Int) - 1 + 1).toNat
      else log) = log.take k := by
    split
    · rw [show ((k : Int) - 1 + 1).toNat = k by omega]
    · rw [List.take_of_length_le (by omega)]
  rw [hfront, htake, List.take_append_drop]

/-- Without entries nothing is stored. -/
theorem storedLog_nil (prev : Int) : RaftEngine.storedLog log prev [] = log := by
  rw [RaftEngine.storedLog, if_pos (by rfl)]

end Accept

/-! ## The invariant -/

/-- A log a node of term `T` may have: every entry stands where a leader of its term had it (`backed`), terms do not
fall, and none is later than the node's own. -/
structure GoodLog (led : Nat → List LogEntry → Prop) (T : Nat) (log : List LogEntry) : Prop where
  backed : Backed entryTerm led log
  sorted : Sorted entryTerm log
  bound : ∀ x ∈ log, entryTerm x ≤ T

/-- A good log stays good when time goes on. -/
theorem GoodLog.mono {led led' : Nat → List LogEntry → Prop} {T T' : Nat} {log : List LogEntry}
    (h : GoodLog led T log) (hled : ∀ T l, led T l → led' T l) (hT : T ≤ T') : GoodLog led' T' log :=
  ⟨h.backed.mono hled, h.sorted, fun x hx => (h.bound x hx).trans hT⟩

/-- A leader's own entry leaves it good. -/
theorem GoodLog.snoc {led : Nat → List LogEntry → Prop} {T : Nat} {log : List LogEntry}
    (h : GoodLog led T log) {x : LogEntry} (hx : entryTerm x = T) (hled : led T (log ++ [x])) :
    GoodLog led T (log ++ [x]) := by
  refine ⟨h.backed.snoc (hx ▸ hled), h.sorted.snoc fun y hy => ?_, ?_⟩
  · rw [hx]
    exact h.bound y hy
  · intro y hy
    rcases List.mem_append.mp hy with hy | hy
    · exact h.bound y hy
    · rw [List.mem_singleton.mp hy, hx]

/-- Its last term is not above the bound. -/
theorem GoodLog.lastTerm_le {led : Nat → List LogEntry → Prop} {T : Nat} {log : List LogEntry}
    (h : GoodLog led T log) : lastTerm entryTerm log ≤ T := by
  unfold lastTerm
  cases hx : log.getLast? with
  | none => exact Nat.zero_le T
  | some x => exact h.bound x (List.mem_of_getLast? hx)

/-- **The log invariant** of a state `s` and the history `h` it ends.

* `leads`: a leader's log extends every log led in its term before, since a leader only appends and there is one a
  term.
* `chained`, `goodLed`: a led log is itself backed by leaders. It was the log of a candidate, hence good, and grew by
  entries of its own term.
* `good`: a log stays good when its leader appends to it, and an accepted message replaces it by a led log.
* `candidate`: a candidate ran for a term beyond all entries it has, and does not touch its log while it runs.
* `former`: terms do not fall, and a leader does not become a candidate of the term it led.
* `sent`: heartbeats are cut out of the leader's log, which is led from that moment on. -/
structure LogInv (members : Finset String) (s : Cluster) (h : List Cluster) : Prop where
  leads : ∀ n ∈ members, (s.node n).state = .leader → ∀ l, Led members h (s.node n).term l →
    Grows entryTerm (s.node n).term l (s.node n).log
  chained : Chained entryTerm (Led members h)
  good : ∀ n ∈ members, GoodLog (Led members h) (s.node n).term (s.node n).log
  candidate : ∀ n ∈ members, (s.node n).state = .candidate →
    lastTerm entryTerm (s.node n).log < (s.node n).term
  goodLed : ∀ T l, Led members h T l → GoodLog (Led members h) T l
  former : ∀ T c l, LedBy members h T c l →
    T < (s.node c).term ∨ (T = (s.node c).term ∧ (s.node c).state ≠ .candidate)
  sent : ∀ m ∈ s.net, Shipped (Led members h) m

/-- Nobody has led in the initial history. -/
theorem not_led_init {env : Env} {members : Finset String} {s : Cluster}
    (h : (cluster env members).init s) (T : Nat) (l : List LogEntry) : ¬ Led members [s] T l := by
  rintro ⟨c, hc, t, ht, hl, -⟩
  rw [List.mem_singleton] at ht
  rw [ht, (h.2 c hc).justStarted.state] at hl
  cases hl

/-- At the start there are no entries. -/
theorem logInv_init {env : Env} {members : Finset String} {s : Cluster}
    (h : (cluster env members).init s) : LogInv members s [s] := by
  have hnone := not_led_init h
  obtain ⟨hnet, hfresh⟩ := h
  constructor
  · intro n _ _ l hl
    exact absurd hl (hnone _ l)
  · intro T l l' hl
    exact absurd hl (hnone T l)
  · intro n hn
    rw [(hfresh n hn).justStarted.log]
    exact ⟨backed_nil, List.Pairwise.nil, by simp⟩
  · intro n hn hc
    rw [(hfresh n hn).justStarted.state] at hc
    cases hc
  · intro T l hl
    exact absurd hl (hnone T l)
  · intro T c l hl
    exact absurd ⟨c, hl⟩ (hnone T l)
  · intro m hm
    rw [hnet] at hm
    cases hm

section Step

variable {env : Env} {members : Finset String} {s : Cluster} {past : List Cluster} {n : String}
  {m : Option RaftRPC} {e' : RaftEngine} {outs : List RaftRPC}

/-- Leadership in the longer history is old, or that of the acting node now. -/
theorem ledBy_put {T : Nat} {c : String} {l : List LogEntry}
    (hl : LedBy members (s.put n e' outs :: s :: past) T c l) :
    LedBy members (s :: past) T c l ∨ (c = n ∧ e'.state = .leader ∧ e'.term = T ∧ e'.log = l) := by
  obtain ⟨hc, t, ht, h1, h2, h3⟩ := hl
  rcases List.mem_cons.mp ht with rfl | ht
  · by_cases hcn : c = n
    · subst hcn
      rw [Cluster.put_node_self] at h1 h2 h3
      exact .inr ⟨rfl, h1, h2, h3⟩
    · rw [Cluster.put_node_of_ne _ _ _ hcn] at h1 h2 h3
      exact .inl ⟨hc, s, List.mem_cons_self, h1, h2, h3⟩
  · exact .inl ⟨hc, t, ht, h1, h2, h3⟩

/-- A leader leads with its own log. -/
theorem ledBy_self (hn : n ∈ members) (hl : e'.state = .leader) :
    LedBy members (s.put n e' outs :: s :: past) e'.term n e'.log := by
  refine ⟨hn, _, List.mem_cons_self, ?_⟩
  rw [Cluster.put_node_self]
  exact ⟨hl, rfl, rfl⟩

/-- What an accepted message does to a log, told in led logs. -/
theorem LogInv.accepted (hi : LogInv members s (s :: past)) (hn : n ∈ members) {rpc : RaftRPC}
    (hrpc : rpc ∈ s.net) {prev : Int} {pt : UInt64} {es : List LogEntry} {lc : Int}
    (hacc : RaftEngine.Accepts (s.node n) rpc e' prev pt es lc) :
    ∃ l k, Led members (s :: past) rpc.term.toNat l ∧ k ≤ l.length ∧ prev = (k : Int) - 1 ∧
      es = l.drop k ∧ (s.node n).log.take k = l.take k ∧ k ≤ (s.node n).log.length ∧
      (es ≠ [] → RaftEngine.storedLog (s.node n).log prev es = l) := by
  obtain ⟨ph, pp, hp⟩ := hacc.payload
  obtain ⟨l, k, hl, hk, rfl, hes, hpt⟩ := hi.sent rpc hrpc prev pt ph pp (some es) lc hp
  cases hes
  obtain ⟨htake, hlen⟩ := take_eq_of_prevMatches hi.chained (hi.good n hn).backed
    (hi.goodLed _ l hl).backed hk hpt hacc.prevMatches
  exact ⟨l, k, hl, hk, rfl, rfl, htake, hlen, storedLog_eq htake hlen⟩

/-- A term is new to the leader that has just won it: nobody led it before. -/
theorem LogInv.not_led_of_fresh (hi : LogInv members s (s :: past))
    (hst : RaftEngine.LogStep env (s.node n) m e' outs)
    (huniq : ∀ c l, LedBy members (s :: past) e'.term c l → c = n)
    (hfresh : (s.node n).term < e'.term ∨
      ((s.node n).state = .candidate ∧ e'.term = (s.node n).term)) :
    ∀ l, ¬ Led members (s :: past) e'.term l := by
  rintro l ⟨c, hled⟩
  have hcn := huniq c l hled
  subst hcn
  have hterm := hst.term_le
  rcases hi.former _ c l hled with h | ⟨h, hne⟩
  · omega
  · rcases hfresh with h' | ⟨hcand, -⟩
    · omega
    · exact hne hcand

/-- A step of a node leaves who led before. -/
theorem Led.put {T : Nat} {l : List LogEntry} (h : Led members (s :: past) T l) :
    Led members (s.put n e' outs :: s :: past) T l :=
  h.mono (List.subset_cons_self _ _)

/-- The acting node, if it leads, extends every log led in its term so far. -/
theorem LogInv.grows_self (hi : LogInv members s (s :: past)) (hn : n ∈ members)
    (hst : RaftEngine.LogStep env (s.node n) m e' outs) (hl : e'.state = .leader)
    (huniq : ∀ c l, LedBy members (s :: past) e'.term c l → c = n) {l : List LogEntry}
    (hled : Led members (s :: past) e'.term l) : Grows entryTerm e'.term l e'.log := by
  rcases hst.leader hl with ⟨hold, hterm, hlog⟩ | ⟨-, -, hfresh⟩
  · rw [hterm] at hled ⊢
    have hgrow := hi.leads n hn hold l hled
    rcases hlog with hlog | ⟨x, hx, hlog⟩
    · rw [hlog]
      exact hgrow
    · rw [hlog]
      exact hgrow.snoc hx
  · exact absurd hled (hi.not_led_of_fresh hst huniq hfresh l)

/-- The acting node's new log is a good one: unchanged, grown by its leader, or taken over from one. -/
theorem LogInv.good_self (hi : LogInv members s (s :: past)) (hn : n ∈ members)
    (hm : ∀ rpc ∈ m, s.Addressed n rpc) (hst : RaftEngine.LogStep env (s.node n) m e' outs) :
    GoodLog (Led members (s.put n e' outs :: s :: past)) e'.term e'.log := by
  have hold : GoodLog (Led members (s.put n e' outs :: s :: past)) e'.term (s.node n).log :=
    (hi.good n hn).mono (fun _ _ h => h.put) hst.term_le
  rcases hst.log with hlog | hl | ⟨rpc, hrpc, prev, pt, es, lc, hacc⟩
  · rw [hlog]
    exact hold
  · rcases hst.leader hl with ⟨-, hterm, hlog | ⟨x, hx, hlog⟩⟩ | ⟨hlog, -⟩
    · rw [hlog]
      exact hold
    · have hself : Led members (s.put n e' outs :: s :: past) e'.term e'.log := ⟨n, ledBy_self hn hl⟩
      rw [hlog] at hself ⊢
      exact hold.snoc (hx.trans hterm.symm) hself
    · rw [hlog]
      exact hold
  · obtain ⟨l, k, hled, -, -, -, -, -, hstored⟩ := hi.accepted hn (hm rpc hrpc).1 hacc
    by_cases hes : es = []
    · rw [hacc.log_eq, hes, storedLog_nil]
      exact hold
    · rw [hacc.log_eq, hstored hes, RaftEngine.term, hacc.term_eq]
      exact (hi.goodLed _ l hled).mono (fun _ _ h => h.put) (le_refl _)

/-- A candidate's log ends before its term. -/
theorem LogInv.candidate_self (hi : LogInv members s (s :: past)) (hn : n ∈ members)
    (hst : RaftEngine.LogStep env (s.node n) m e' outs) (hc : e'.state = .candidate) :
    lastTerm entryTerm e'.log < e'.term := by
  obtain ⟨hlog, hcand⟩ := hst.candidate hc
  have hle := hst.term_le
  rw [hlog]
  by_cases hsame : e'.term = (s.node n).term
  · have := hi.candidate n hn (hcand hsame)
    omega
  · have := (hi.good n hn).lastTerm_le
    omega

/-- Who led a term has left it, or is no candidate in it. -/
theorem LogInv.former_put (hi : LogInv members s (s :: past))
    (hst : RaftEngine.LogStep env (s.node n) m e' outs) (T : Nat) (c : String) (l : List LogEntry)
    (hl : LedBy members (s.put n e' outs :: s :: past) T c l) :
    T < ((s.put n e' outs).node c).term ∨
      (T = ((s.put n e' outs).node c).term ∧ ((s.put n e' outs).node c).state ≠ .candidate) := by
  rcases ledBy_put hl with hl | ⟨rfl, hlead, hT, -⟩
  · have hform := hi.former T c l hl
    by_cases hcn : c = n
    · subst hcn
      rw [Cluster.put_node_self]
      have hle := hst.term_le
      rcases hform with h | ⟨h, hne⟩
      · exact .inl (by omega)
      · by_cases hsame : e'.term = (s.node c).term
        · exact .inr ⟨by omega, fun hc => hne ((hst.candidate hc).2 hsame)⟩
        · exact .inl (by omega)
    · rw [Cluster.put_node_of_ne _ _ _ hcn]
      exact hform
  · rw [Cluster.put_node_self]
    exact .inr ⟨hT.symm, by rw [hlead]; decide⟩

/-- **One call keeps the log invariant**, given that no one else ever led the acting node's term. -/
theorem LogInv.put (hi : LogInv members s (s :: past)) (hn : n ∈ members)
    (hm : ∀ rpc ∈ m, s.Addressed n rpc) (hst : RaftEngine.LogStep env (s.node n) m e' outs)
    (huniq : e'.state = .leader → ∀ c l, LedBy members (s :: past) e'.term c l → c = n)
    (huniq' : ∀ k ∈ members, k ≠ n → (s.node k).state = .leader → e'.state = .leader →
      (s.node k).term ≠ e'.term) :
    LogInv members (s.put n e' outs) (s.put n e' outs :: s :: past) := by
  have hgood := hi.good_self hn hm hst
  refine ⟨?_, ?_, ?_, ?_, ?_, hi.former_put hst, ?_⟩
  · intro k hk hkl l hled
    by_cases hkn : k = n
    · subst hkn
      rw [Cluster.put_node_self] at hkl hled ⊢
      obtain ⟨c, hled⟩ := hled
      rcases ledBy_put hled with hled | ⟨-, -, -, rfl⟩
      · exact hi.grows_self hn hst hkl (huniq hkl) ⟨c, hled⟩
      · exact .refl _
    · rw [Cluster.put_node_of_ne _ _ _ hkn] at hkl hled ⊢
      obtain ⟨c, hled⟩ := hled
      rcases ledBy_put hled with hled | ⟨-, hl, hT, -⟩
      · exact hi.leads k hk hkl l ⟨c, hled⟩
      · exact absurd hT.symm (huniq' k hk hkn hkl hl)
  · -- two logs of one term: both old, or one of them is the acting leader's present log
    rintro T l l' ⟨c, hl⟩ ⟨c', hl'⟩
    rcases ledBy_put hl with hl | ⟨-, hlead, rfl, rfl⟩
    · rcases ledBy_put hl' with hl' | ⟨-, hlead, rfl, rfl⟩
      · exact hi.chained T l l' ⟨c, hl⟩ ⟨c', hl'⟩
      · exact .inl (hi.grows_self hn hst hlead (huniq hlead) ⟨c, hl⟩)
    · rcases ledBy_put hl' with hl' | ⟨-, -, -, rfl⟩
      · exact .inr (hi.grows_self hn hst hlead (huniq hlead) ⟨c', hl'⟩)
      · exact .inl (.refl _)
  · apply Cluster.forall_put (P := fun _ e =>
      GoodLog (Led members (s.put n e' outs :: s :: past)) e.term e.log) hgood
    intro k hk
    exact (hi.good k hk).mono (fun _ _ h => h.put) (le_refl _)
  · exact Cluster.forall_put (P := fun _ e => e.state = .candidate → lastTerm entryTerm e.log < e.term)
      (hi.candidate_self hn hst) hi.candidate
  · rintro T l ⟨c, hl⟩
    rcases ledBy_put hl with hl | ⟨-, -, rfl, rfl⟩
    · exact (hi.goodLed T l ⟨c, hl⟩).mono (fun _ _ h => h.put) (le_refl _)
    · exact hgood
  · intro o ho
    rcases List.mem_append.mp ho with ho | ho
    · intro prev pt ph pp es lc hp
      obtain ⟨hl, -, p, hbeat, rfl⟩ := hst.sent o ho prev pt ph pp es lc hp
      have hled : Led members (s.put n e' outs :: s :: past) (s.node n).term (s.node n).log :=
        Led.put ⟨n, hn, s, List.mem_cons_self, hl, rfl, rfl⟩
      exact shipped_heartbeat hbeat hled prev pt ph pp es lc hp
    · exact (hi.sent o ho).mono fun _ _ h => h.put

end Step

/-! ## Log matching -/

section Runs

variable {env : Env} {members : Finset String} {ok : ClusterOp → Cluster → Prop}
  (hsteady : ∀ op s, ok op s → Steady env op s)

include hsteady

/-- **The run lemma.** -/
theorem logInv_run {s : Cluster} {past : List Cluster}
    (hr : (cluster env members).Run ok (s :: past)) : LogInv members s (s :: past) := by
  refine System.Run.invariant_head (P := LogInv members) (fun _ h => logInv_init h) ?_ hr
  intro s past op s' hr hi hok hstep
  have hkeep : ∀ op s, ok op s → KeepsPeers env op s := fun op s h => (hsteady op s h).1
  have hr' := System.Run.step hr hok hstep
  obtain ⟨n, m, e', outs, hmv, rfl⟩ := steady_step (hsteady op s hok) hstep
  refine hi.put hmv.mem hmv.addressed hmv.event.logStep ?_ ?_
  · rintro hl c l ⟨hc, t, ht, h1, h2, -⟩
    exact leader_unique_put hkeep hr' hmv.mem hl ht hc h1 h2
  · intro k hk hkn hkl hl hterm
    exact hkn (leader_unique_put hkeep hr' hmv.mem hl List.mem_cons_self hk hkl hterm)

end Runs

/-- **Log matching.** In every reachable state of a plain cluster, two logs with entries of one term at one position
hold the same entries there and at every earlier position. Both entries come from the one leader of their term, and
both logs up to there are fronts of its log. -/
theorem log_matching {env : Env} {members : Finset String} {s : Cluster}
    (h : (cluster env members).Reachable Plain s) {a b : String} (ha : a ∈ members) (hb : b ∈ members)
    {i : Nat} {x y : LogEntry} (hx : (s.node a).log[i]? = some x) (hy : (s.node b).log[i]? = some y)
    (hterm : x.term = y.term) : ∀ j ≤ i, (s.node a).log[j]? = (s.node b).log[j]? := by
  obtain ⟨past, hr⟩ := h
  have hi := logInv_run (fun _ _ h => h.2) (run_steady (fun _ _ h => h) hr)
  have htake := (hi.good a ha).backed.take_eq hi.chained (hi.good b hb).backed hx hy
    (congrArg UInt64.toNat hterm)
  intro j hj
  have hget : ∀ log : List LogEntry, log[j]? = (log.take (i + 1))[j]? := by
    intro log
    rw [List.getElem?_take_of_lt (by omega)]
  rw [hget (s.node a).log, hget (s.node b).log, htake]

/-- Leader `a` has replicated two entries to `b`: equal terms at position 1, hence equal logs up to there. -/
theorem log_matching_trio : ∃ s, (cluster scriptEnv trio).Reachable Plain s ∧
    (s.node "a").log.length = 2 ∧ ∀ j ≤ 1, (s.node "a").log[j]? = (s.node "b").log[j]? := by
  obtain ⟨s, past, hr, hlen, x, hx, y, hy, hterm⟩ := System.exists_run_of_play Plain
    (P := fun s _ => (s.node "a").log.length = 2 ∧ ∃ x ∈ (s.node "a").log[1]?,
      ∃ y ∈ (s.node "b").log[1]?, x.term = y.term)
    trioStart_init [timeout "a", deliverNth "b" 0, deliverNth "a" 2, clientPropose "a" "TARGET:1",
      clientPropose "a" "TARGET:2", timeout "a", deliverNth "b" 3] (by decide +kernel)
  exact ⟨s, ⟨past, hr⟩, hlen, log_matching ⟨past, hr⟩ (by decide) (by decide) hx hy hterm⟩

end WarmLogic.Consensus
