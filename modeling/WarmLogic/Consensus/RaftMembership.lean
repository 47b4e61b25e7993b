/-
# WarmLogic.Consensus.RaftMembership — one pending slot for every reconfiguration in flight.

`pending_peers` is meant to be the list of the last uncommitted `CONF:` entry, and committing a `CONF:` entry is
meant to make its list the peers. The engine keeps ONE slot for all of them and never recomputes it from the
log: a leader looks only at the index its scan stopped at, a follower takes the slot at the first `CONF:` entry
it passes, cutting the log leaves the slot as it is, and entries sent again fill it again. `CleanReconfiguration`
names the calls in which none of this shows; in every run of such calls slot and peers are right.

Two lists have to be kept apart in reading this: what the slot holds, and what it should hold (`lastConf` of the
uncommitted entries). The first is a field, the second is a function of log and commit index, so the invariant is an
equation, and each kind of call has one condition under which both sides move together: storing entries
(`CleanStore`), following a leader's commit index (`CleanFollow`), and committing as a leader (`CleanCommit`). Each of
the three is about positions of `CONF:` entries only.

For a leader the condition is that it commits a `CONF:` entry as the last of an advance, since the scan stops at the
highest position a quorum holds and looks there and nowhere else. For a follower it is that an advance does not
separate two uncommitted `CONF:` entries: the slot holds the later list, and the loop installs it at the earlier one.

Snapshots are left out of the calls: they shift positions against indices, and then `get_entry` at a position is not
the entry at that position.
-/
import WarmLogic.Consensus.Cluster

namespace WarmLogic.Consensus

open WarmLogic.Lib

/-! ## The `CONF:` entries of a list -/

/-- The member list of the last `CONF:` entry. -/
def lastConf (es : List LogEntry) : Option (List String) :=
  (es.filterMap fun x => confPeers x.data).getLast?

@[simp] theorem lastConf_nil : lastConf [] = none := rfl

/-- Of one entry. -/
theorem lastConf_singleton (x : LogEntry) : lastConf [x] = confPeers x.data := by
  unfold lastConf
  cases h : confPeers x.data with
  | none => simp [h]
  | some L => simp [h]

/-- Of two parts the last one that has any. -/
theorem lastConf_append (es fs : List LogEntry) :
    lastConf (es ++ fs) = (lastConf fs).or (lastConf es) := by
  simp only [lastConf, List.filterMap_append, List.getLast?_append]

/-- A CONF: entry is one that gives peers. -/
theorem isConf_eq_isSome (data : String) : isConf data = (confPeers data).isSome := by
  simp only [isConf, confPeers, Option.isSome_map]

instance (es : List LogEntry) : Decidable (NoConf es) :=
  inferInstanceAs (Decidable (∀ x ∈ es, isConf x.data = false))

/-- There is none exactly if no entry is one. -/
theorem lastConf_eq_none {es : List LogEntry} : lastConf es = none ↔ NoConf es := by
  unfold lastConf NoConf
  rw [List.getLast?_eq_none_iff, List.filterMap_eq_nil_iff]
  refine forall₂_congr fun x _ => ?_
  rw [isConf_eq_isSome]
  exact Option.isSome_eq_false_iff.trans Option.isNone_iff_eq_none |>.symm

/-- The slot after a follower stored `es`, by the last `CONF:` entry among them. -/
theorem pendingAfter_eq (pending : Option (List String)) (es : List LogEntry) :
    RaftEngine.pendingAfter pending es = (lastConf es).or pending := by
  unfold RaftEngine.pendingAfter
  induction es generalizing pending with
  | nil => rfl
  | cons x es ih =>
      rw [List.foldl_cons, ih, ← List.singleton_append, lastConf_append, lastConf_singleton]
      cases confPeers x.data with
      | none => rw [Option.or_none]
      | some L => rw [Option.or_assoc, Option.some_or]

/-- What lies behind `a`, split at a later position. -/
theorem drop_eq_segment_append {α : Type} (l : List α) {a b : Nat} (h : a ≤ b) :
    l.drop a = (l.take b).drop a ++ l.drop b := by
  rw [List.drop_take]
  calc l.drop a = (l.drop a).take (b - a) ++ (l.drop a).drop (b - a) := (List.take_append_drop _ _).symm
    _ = (l.drop a).take (b - a) ++ l.drop b := by rw [List.drop_drop, Nat.add_sub_of_le h]

namespace RaftEngine

variable {env : Env} {e e' f : RaftEngine}

/-! ## What the slot and the peers should be -/

/-- The entries behind the commit index. -/
def uncommitted (e : RaftEngine) : List LogEntry := e.log.drop (e.commitIndex + 1).toNat

/-- The slot holds the list of the last uncommitted `CONF:` entry, and nothing if there is none. -/
def PendingExact (e : RaftEngine) : Prop := e.pendingPeers = lastConf e.uncommitted

/-- The entries the call from `e` to `e'` committed. -/
def newlyCommitted (e e' : RaftEngine) : List LogEntry :=
  (e'.log.take (e'.commitIndex + 1).toNat).drop (e.commitIndex + 1).toNat

/-- The peers are the list of the last `CONF:` entry the call committed, if it committed one. -/
def InstallsCommitted (e e' : RaftEngine) : Prop :=
  e.commitIndex < e'.commitIndex → ∀ L, lastConf (newlyCommitted e e') = some L → e'.peers = L

/-- Both, over a history. -/
structure MembershipAgreement (h : List RaftEngine) : Prop where
  pending : ∀ e ∈ h, e.PendingExact
  peers : ∀ e' e past, e' :: e :: past <:+ h → InstallsCommitted e e'

/-! ## One member and its calls -/

/-- A node as `new` makes it on a directory without a snapshot, or on none. -/
def Booted (env : Env) (e : RaftEngine) : Prop :=
  ∃ n peers key keys storage machine, (∀ s ∈ storage, s.snapshotFile = none) ∧
    e = { new env n peers key storage machine with peerKeys := keys }

/-- One member under any calls, snapshots apart. -/
def member (env : Env) : System RaftEngine EngineOp where
  init := Booted env
  step op e := (op.call env e).map (·.1)

/-! ## The calls that keep one slot enough -/

/-- Up to the highest position a quorum holds there is no uncommitted `CONF:` entry, or that position is one and
no further one follows. -/
def CleanCommit (e : RaftEngine) : Prop :=
  ∀ n < e.log.length, e.Committable n → (∀ k < e.log.length, n < k → ¬ e.Committable k) →
    NoConf ((e.log.take (n + 1)).drop (e.commitIndex + 1).toNat) ∨
      (∃ x ∈ e.log[n]?, isConf x.data = true) ∧ NoConf (e.log.drop (n + 1))

instance (e : RaftEngine) : Decidable e.CleanCommit :=
  inferInstanceAs (Decidable (∀ n < e.log.length, _ → (∀ k < e.log.length, _ → _) → _))

/-- The entries bring an uncommitted `CONF:` entry, or neither they nor the uncommitted entries they replace hold
one. -/
def CleanStore (e : RaftEngine) (prevLogIndex : Int) (entries : List LogEntry) : Prop :=
  entries = [] ∨ ¬ NoConf (entries.drop (e.commitIndex - prevLogIndex).toNat) ∨
    NoConf entries ∧ NoConf (e.log.drop (max prevLogIndex e.commitIndex + 1).toNat)

instance (e : RaftEngine) (prevLogIndex : Int) (entries : List LogEntry) :
    Decidable (e.CleanStore prevLogIndex entries) :=
  inferInstanceAs (Decidable (_ ∨ _ ∨ _))

/-- The leader's commit index does not fall between two uncommitted `CONF:` entries of the log. -/
def CleanFollow (commitIndex : Int) (log : List LogEntry) (leaderCommit : Int) : Prop :=
  NoConf ((log.take (leaderCommit + 1).toNat).drop (commitIndex + 1).toNat) ∨
    NoConf (log.drop (leaderCommit + 1).toNat)

instance (commitIndex : Int) (log : List LogEntry) (leaderCommit : Int) :
    Decidable (CleanFollow commitIndex log leaderCommit) :=
  inferInstanceAs (Decidable (_ ∨ _))

/-- The condition on a message, by its payload; one that is refused is free. -/
def CleanRpc (env : Env) (e : RaftEngine) (term : UInt64) (senderId : String) : RpcPayload → Prop
  | .appendEntries prevLogIndex prevLogTerm _ _ (some entries) leaderCommit =>
      e.currentTerm ≤ term → prevMatches e.log prevLogIndex prevLogTerm = some true →
      (entries = [] ∨ verifyChain env (prevLogIndex + 1).toNat (e.chainStart prevLogIndex).1
        (e.chainStart prevLogIndex).2 entries = true) →
      e.CleanStore prevLogIndex entries ∧
        CleanFollow e.commitIndex (storedLog e.log prevLogIndex entries) leaderCommit
  | .appendResponse true lastLogIndex =>
      e.state = .leader → term = e.currentTerm → (e.acknowledged senderId lastLogIndex).CleanCommit
  | _ => True

instance (env : Env) (e : RaftEngine) (term : UInt64) (senderId : String) :
    ∀ p, Decidable (CleanRpc env e term senderId p)
  | .appendEntries _ _ _ _ (some _) _ => inferInstanceAs (Decidable (_ → _ → (_ ∨ _) → _ ∧ _))
  | .appendResponse true _ => inferInstanceAs (Decidable (_ → _ → _))
  | .appendEntries _ _ _ _ none _ => inferInstanceAs (Decidable True)
  | .appendResponse false _ => inferInstanceAs (Decidable True)
  | .requestVote .. => inferInstanceAs (Decidable True)
  | .voteResponse _ => inferInstanceAs (Decidable True)
  | .malformed => inferInstanceAs (Decidable True)

/-- **The calls in which one slot is enough.** Ticks are always among them; a proposal of a list needs the commit
index to be inside the log, which it is unless a leader told the node otherwise. -/
def CleanReconfiguration (env : Env) : EngineOp → RaftEngine → Prop
  | .tick _, _ => True
  | .propose data _, e => e.state = .leader → isConf data = true → e.commitIndex < e.log.length
  | .rpc m, e => e.badSignature env m = false → e.CleanRpc env m.term m.senderId m.payload

instance (env : Env) : ∀ op e, Decidable (CleanReconfiguration env op e)
  | .tick _, _ => inferInstanceAs (Decidable True)
  | .propose _ _, _ => inferInstanceAs (Decidable (_ → _ → _))
  | .rpc _, _ => inferInstanceAs (Decidable (_ → _))

/-! ## What a call leaves alone -/

/-- The two engines agree on everything a reconfiguration reads or writes. -/
structure SameMembership (e e' : RaftEngine) : Prop where
  log : e'.log = e.log
  commitIndex : e'.commitIndex = e.commitIndex
  pendingPeers : e'.pendingPeers = e.pendingPeers
  peers : e'.peers = e.peers
  lastSnapshotIndex : e'.lastSnapshotIndex = e.lastSnapshotIndex

/-- The membership of a node is its own. -/
theorem SameMembership.refl (e : RaftEngine) : SameMembership e e := ⟨rfl, rfl, rfl, rfl, rfl⟩

/-- Two parts of a call that leave it. -/
theorem SameMembership.trans (h : SameMembership e e') (h' : SameMembership e' f) : SameMembership e f :=
  ⟨h'.log.trans h.log, h'.commitIndex.trans h.commitIndex, h'.pendingPeers.trans h.pendingPeers,
    h'.peers.trans h.peers, h'.lastSnapshotIndex.trans h.lastSnapshotIndex⟩

/-- A term that is seen leaves it. -/
theorem SameMembership.observeTerm (e : RaftEngine) (t : UInt64) : SameMembership e (e.observeTerm t) := by
  obtain ⟨T, S, V, l, st, -, heq⟩ := observeTerm_eq e t
  rw [heq]
  exact ⟨rfl, rfl, rfl, rfl, rfl⟩

/-- Applying entries does. -/
theorem SameMembership.advanceAppliedIndex (env : Env) (e : RaftEngine) :
    SameMembership e (e.advanceAppliedIndex env) := by
  obtain ⟨m, d, heq, -⟩ := advanceAppliedIndex_eq env e
  rw [heq]
  exact ⟨rfl, rfl, rfl, rfl, rfl⟩

/-- A request for a vote does. -/
theorem SameMembership.handleRequestVote (env : Env) (e : RaftEngine) (term : UInt64) (c : String)
    (i : Int) (t : UInt64) : SameMembership e (e.handleRequestVote env term c i t).1 := by
  unfold RaftEngine.handleRequestVote
  dsimp only
  split
  · exact ⟨rfl, rfl, rfl, rfl, rfl⟩
  · exact .refl e

/-- And the answer to one. -/
theorem SameMembership.handleVoteResponse (e : RaftEngine) (term : UInt64) (c : String)
    (granted : Bool) : SameMembership e (e.handleVoteResponse term c granted) := by
  unfold RaftEngine.handleVoteResponse
  split
  · exact .refl e
  · split
    · unfold countVote
      dsimp only
      split
      · exact ⟨rfl, rfl, rfl, rfl, rfl⟩
      · exact ⟨rfl, rfl, rfl, rfl, rfl⟩
    · exact .refl e

/-- **And a tick.** -/
theorem SameMembership.handleTick {elapsed : Bool} {outs : List RaftRPC}
    (h : e.handleTick env elapsed = some (e', outs)) : SameMembership e e' := by
  unfold RaftEngine.handleTick at h
  split at h
  · cases h
    exact .refl e
  · split at h
    · obtain ⟨ps, -, hout⟩ := Option.map_eq_some_iff.mp h
      cases hout
      exact .refl e
    · unfold startElection at h
      split at h
      · cases h
      · dsimp only at h
        split at h
        · cases h
          exact ⟨rfl, rfl, rfl, rfl, rfl⟩
        · cases h
          exact ⟨rfl, rfl, rfl, rfl, rfl⟩

/-! ## The invariant -/

/-- The slot is exact, and without a snapshot indices are positions. A clean call changes slot and uncommitted entries
together: a proposal appends one entry and fills the slot with its list; entries that are stored either bring a later
list or replace none; and an advance that passes a `CONF:` entry passes all of them, which empties both. -/
structure MembershipInv (e : RaftEngine) : Prop where
  pending : e.PendingExact
  low : -1 ≤ e.commitIndex
  noSnapshot : e.lastSnapshotIndex = -1

/-- What a call has to establish. -/
structure MembershipStep (e e' : RaftEngine) : Prop where
  inv : MembershipInv e'
  installs : InstallsCommitted e e'

/-- The invariant is about the membership alone. -/
theorem MembershipInv.congr (hi : MembershipInv e) (h : SameMembership e e') : MembershipInv e' := by
  refine ⟨?_, by rw [h.commitIndex]; exact hi.low, by rw [h.lastSnapshotIndex]; exact hi.noSnapshot⟩
  unfold PendingExact uncommitted
  rw [h.pendingPeers, h.log, h.commitIndex]
  exact hi.pending

/-- A call that does not move the commit index installs nothing. -/
theorem installsCommitted_of_eq (h : e'.commitIndex = e.commitIndex) : InstallsCommitted e e' := by
  intro hlt
  omega

/-- A call that leaves it is a step. -/
theorem MembershipInv.step_of_same (hi : MembershipInv e) (h : SameMembership e e') :
    MembershipStep e e' :=
  ⟨hi.congr h, installsCommitted_of_eq h.commitIndex⟩

/-- A step may be preceded and followed by anything that leaves the membership alone. -/
theorem MembershipStep.congr {d : RaftEngine} (hs : MembershipStep e e') (hd : SameMembership d e)
    (hf : SameMembership e' f) : MembershipStep d f := by
  refine ⟨hs.inv.congr hf, ?_⟩
  intro hlt L hL
  rw [hf.peers]
  apply hs.installs
  · rw [hf.commitIndex] at hlt
    rw [hd.commitIndex]
    exact hlt
  · unfold newlyCommitted at hL ⊢
    rwa [hf.log, hf.commitIndex, ← hd.commitIndex] at hL

/-! ## Leaving joint consensus -/

/-- Without a snapshot an index is a position in the log. -/
theorem getEntry_of_noSnapshot (hs : e.lastSnapshotIndex = -1) (i : Nat) : e.getEntry i = e.log[i]? := by
  unfold getEntry
  rw [if_neg (by omega), hs]
  congr 1
  omega

/-- The position holds a `CONF:` entry. -/
def ConfAt (log : List LogEntry) (i : Nat) : Prop := ∃ x ∈ log[i]?, isConf x.data = true

/-- The slot was taken: it is empty, and what it held are the peers; the rest is as before. -/
structure Finalized (e e' : RaftEngine) : Prop where
  log : e'.log = e.log
  commitIndex : e'.commitIndex = e.commitIndex
  lastSnapshotIndex : e'.lastSnapshotIndex = e.lastSnapshotIndex
  pendingPeers : e'.pendingPeers = none
  peers : ∀ L, e.pendingPeers = some L → e'.peers = L

/-- An entry that is no CONF: entry installs nothing. -/
theorem finalizeAt_of_not_confAt (hs : e.lastSnapshotIndex = -1) {i : Nat} (h : ¬ ConfAt e.log i) :
    e.finalizeAt i = e := by
  unfold finalizeAt
  rw [getEntry_of_noSnapshot hs]
  split
  · rfl
  · rename_i x hx
    exact if_neg fun hconf => h ⟨x, hx, hconf⟩

/-- One that is installs what is pending. -/
theorem finalizeAt_of_confAt (hs : e.lastSnapshotIndex = -1) {i : Nat} (h : ConfAt e.log i) :
    Finalized e (e.finalizeAt i) := by
  obtain ⟨x, hx, hconf⟩ := h
  unfold finalizeAt
  rw [getEntry_of_noSnapshot hs, hx]
  dsimp only
  rw [if_pos hconf]
  cases hp : e.pendingPeers with
  | none => exact ⟨rfl, rfl, rfl, hp, fun L hL => by rw [hp] at hL; cases hL⟩
  | some pending => exact ⟨rfl, rfl, rfl, rfl, fun L hL => by rw [hp] at hL; exact Option.some.inj hL⟩

/-- The follower's loop over the indices it passed: the first `CONF:` entry takes the slot, the later ones find
it empty. -/
theorem finalizeLoop_of_not_confAt (f : Nat → Nat) (is : List Nat) (hs : e.lastSnapshotIndex = -1)
    (h : ∀ i ∈ is, ¬ ConfAt e.log (f i)) : is.foldl (fun acc i => acc.finalizeAt (f i)) e = e := by
  induction is with
  | nil => rfl
  | cons i is ih =>
      rw [List.foldl_cons, finalizeAt_of_not_confAt hs (h i List.mem_cons_self)]
      exact ih fun j hj => h j (List.mem_cons_of_mem _ hj)

/-- Nothing pending, nothing to install. -/
theorem finalizeLoop_of_pending_none (f : Nat → Nat) (is : List Nat) (h : e.pendingPeers = none) :
    is.foldl (fun acc i => acc.finalizeAt (f i)) e = e := by
  induction is with
  | nil => rfl
  | cons i is ih =>
      rw [List.foldl_cons, finalizeAt_of_pending_none h]
      exact ih

/-- A loop that comes by a CONF: entry installs what is pending. -/
theorem finalizeLoop_of_confAt (f : Nat → Nat) {is : List Nat} (hs : e.lastSnapshotIndex = -1)
    (h : ∃ i ∈ is, ConfAt e.log (f i)) :
    Finalized e (is.foldl (fun acc i => acc.finalizeAt (f i)) e) := by
  induction is with
  | nil =>
      obtain ⟨i, hi, -⟩ := h
      cases hi
  | cons i is ih =>
      rw [List.foldl_cons]
      -- the first `CONF:` entry decides; behind it the loop does nothing
      by_cases hi : ConfAt e.log (f i)
      · have hfin := finalizeAt_of_confAt hs hi
        rw [finalizeLoop_of_pending_none f is hfin.pendingPeers]
        exact hfin
      · rw [finalizeAt_of_not_confAt hs hi]
        obtain ⟨j, hj, hconf⟩ := h
        rcases List.mem_cons.mp hj with rfl | hj
        · exact absurd hconf hi
        · exact ih ⟨j, hj, hconf⟩

/-! ## Moving the commit index -/

/-- A segment without a `CONF:` entry has none at any of its positions. -/
theorem noConf_segment {log : List LogEntry} {a b : Nat} :
    NoConf ((log.take b).drop a) ↔ ∀ i, a ≤ i → i < b → ¬ ConfAt log i := by
  constructor
  · rintro h i ha hb ⟨x, hx, hconf⟩
    have hmem : x ∈ (log.take b).drop a := by
      rw [List.mem_iff_getElem?]
      refine ⟨i - a, ?_⟩
      rw [List.getElem?_drop, Nat.add_sub_of_le ha, List.getElem?_take_of_lt hb]
      exact hx
    rw [h x hmem] at hconf
    cases hconf
  · intro h x hx
    obtain ⟨i, hi⟩ := List.mem_iff_getElem?.mp hx
    rw [List.getElem?_drop] at hi
    have hb : a + i < b := by
      by_contra hge
      rw [List.getElem?_eq_none (by rw [List.length_take]; omega)] at hi
      cases hi
    rw [List.getElem?_take_of_lt hb] at hi
    by_contra hconf
    exact h (a + i) (Nat.le_add_right a i) hb ⟨x, hi, by simpa using hconf⟩

/-- **An advance of the commit index.** Either it passes no `CONF:` entry and the slot stays, or it passes all
the uncommitted ones and the slot is taken. -/
theorem MembershipInv.advance (hi : MembershipInv e) {n : Nat} (hlt : e.commitIndex < n)
    (hlog : f.log = e.log) (hcommit : f.commitIndex = n) (hsnap : f.lastSnapshotIndex = -1)
    (h : NoConf ((e.log.take (n + 1)).drop (e.commitIndex + 1).toNat) ∧
        f.pendingPeers = e.pendingPeers ∨
      NoConf (e.log.drop (n + 1)) ∧ f.pendingPeers = none ∧ ∀ L, e.pendingPeers = some L → f.peers = L) :
    MembershipStep e f := by
  have hlow := hi.low
  have hn : (f.commitIndex + 1).toNat = n + 1 := by omega
  -- the slot was exact for what is now committed and what is still not
  have hsplit : e.pendingPeers = (lastConf (e.log.drop (n + 1))).or
      (lastConf ((e.log.take (n + 1)).drop (e.commitIndex + 1).toNat)) := by
    rw [hi.pending, uncommitted, drop_eq_segment_append e.log (show (e.commitIndex + 1).toNat ≤ n + 1 by omega),
      lastConf_append]
  have hnew : newlyCommitted e f = (e.log.take (n + 1)).drop (e.commitIndex + 1).toNat := by
    rw [newlyCommitted, hn, hlog]
  rcases h with ⟨hseg, hpend⟩ | ⟨hrest, hpend, hpeers⟩
  · have hnone := lastConf_eq_none.mpr hseg
    refine ⟨⟨?_, by omega, hsnap⟩, ?_⟩
    · rw [PendingExact, uncommitted, hn, hlog, hpend, hsplit, hnone, Option.or_none]
    · intro _ L hL
      rw [hnew, hnone] at hL
      cases hL
  · have hnone := lastConf_eq_none.mpr hrest
    rw [hnone, Option.none_or] at hsplit
    refine ⟨⟨?_, by omega, hsnap⟩, ?_⟩
    · rw [PendingExact, uncommitted, hn, hlog, hpend, hnone]
    · intro _ L hL
      rw [hnew] at hL
      exact hpeers L (hsplit.trans hL)

/-- **Committing as leader**, where it passes no CONF: entry but the last. -/
theorem MembershipInv.updateCommitIndex (hi : MembershipInv e) (hclean : e.CleanCommit) :
    MembershipStep e e.updateCommitIndex := by
  unfold RaftEngine.updateCommitIndex
  cases hscan : e.commitScan e.log.length with
  | none => exact hi.step_of_same (.refl e)
  | some n =>
      obtain ⟨hlt, hlen, hterm, hquorum⟩ := commitScan_eq_some hscan
      dsimp only
      have hs : ({ e with commitIndex := (n : Int) } : RaftEngine).lastSnapshotIndex = -1 := hi.noSnapshot
      have hclean := hclean n hlen ⟨hlt, hterm, hquorum⟩ (not_committable_of_commitScan hscan)
      -- only the entry at `n` itself is looked at
      by_cases hconf : ConfAt e.log n
      · have hfin := finalizeAt_of_confAt (e := { e with commitIndex := (n : Int) }) hs hconf
        refine hi.advance hlt hfin.log hfin.commitIndex (hfin.lastSnapshotIndex.trans hs) (.inr ⟨?_, ?_⟩)
        · rcases hclean with hseg | ⟨-, hrest⟩
          · exact absurd hconf (noConf_segment.mp hseg n (by omega) (by omega))
          · exact hrest
        · exact ⟨hfin.pendingPeers, hfin.peers⟩
      · rw [finalizeAt_of_not_confAt hs hconf]
        refine hi.advance hlt rfl rfl hs (.inl ⟨?_, rfl⟩)
        rcases hclean with hseg | ⟨hat, -⟩
        · exact hseg
        · exact absurd hat hconf

/-- The follower's advance to `n`, with its loop over the indices behind the old commit index. -/
theorem MembershipInv.finalizeLoop (hi : MembershipInv e) {n : Nat} (hlt : e.commitIndex < n)
    (hclean : NoConf ((e.log.take (n + 1)).drop (e.commitIndex + 1).toNat) ∨ NoConf (e.log.drop (n + 1))) :
    MembershipStep e ((List.range ((n : Int) - e.commitIndex).toNat).foldl
      (fun acc (i : Nat) => acc.finalizeAt (e.commitIndex + 1 + i).toNat) { e with commitIndex := n }) := by
  have hlow := hi.low
  have hs : ({ e with commitIndex := (n : Int) } : RaftEngine).lastSnapshotIndex = -1 := hi.noSnapshot
  by_cases hseg : NoConf ((e.log.take (n + 1)).drop (e.commitIndex + 1).toNat)
  · rw [finalizeLoop_of_not_confAt (fun i : Nat => (e.commitIndex + 1 + i).toNat) _ hs ?_]
    · exact hi.advance hlt rfl rfl hs (.inl ⟨hseg, rfl⟩)
    · intro i hrange
      rw [List.mem_range] at hrange
      exact noConf_segment.mp hseg _ (by omega) (by omega)
  · have hpassed : ∃ i ∈ List.range ((n : Int) - e.commitIndex).toNat,
        ConfAt e.log (e.commitIndex + 1 + (i : Int)).toNat := by
      rw [noConf_segment] at hseg
      push Not at hseg
      obtain ⟨i, hle, hlt', hconf⟩ := hseg
      refine ⟨i - (e.commitIndex + 1).toNat, List.mem_range.mpr (by omega), ?_⟩
      rw [show (e.commitIndex + 1 + ((i - (e.commitIndex + 1).toNat : Nat) : Int)).toNat = i by omega]
      exact hconf
    have hfin := finalizeLoop_of_confAt (e := { e with commitIndex := (n : Int) })
      (fun i : Nat => (e.commitIndex + 1 + i).toNat) hs hpassed
    exact hi.advance hlt hfin.log hfin.commitIndex (hfin.lastSnapshotIndex.trans hs)
      (.inr ⟨hclean.resolve_left hseg, hfin.pendingPeers, hfin.peers⟩)

/-- Past the end of the log the leader's commit index counts as the last position. -/
theorem cleanFollow_min {c lc : Int} {log : List LogEntry} {n : Nat}
    (hn : (n : Int) = min lc ((log.length : Int) - 1)) (h : CleanFollow c log lc) :
    NoConf ((log.take (n + 1)).drop (c + 1).toNat) ∨ NoConf (log.drop (n + 1)) := by
  rcases le_total lc ((log.length : Int) - 1) with hle | hle
  · rw [CleanFollow, show (lc + 1).toNat = n + 1 by omega] at h
    exact h
  · right
    rw [List.drop_eq_nil_of_le (by omega)]
    intro x hx
    cases hx

/-- **Following a commit**, likewise. -/
theorem MembershipInv.followCommit (hi : MembershipInv e) (lc : Int)
    (hclean : CleanFollow e.commitIndex e.log lc) : MembershipStep e (e.followCommit lc) := by
  have hlow := hi.low
  have hsnap := hi.noSnapshot
  unfold RaftEngine.followCommit
  split
  · rename_i hlc
    dsimp only
    by_cases hshort : (e.log.length : Int) - 1 ≤ e.commitIndex
    · -- the log ends at or in front of the commit index: nothing is passed, nothing is uncommitted
      have hmin : min lc ((e.log.length : Int) - 1 + e.lastSnapshotIndex + 1)
          = (e.log.length : Int) - 1 := by omega
      have hzero : ((e.log.length : Int) - 1 - e.commitIndex).toNat = 0 := by omega
      have hempty : e.uncommitted = [] := List.drop_eq_nil_of_le (by omega)
      rw [hmin, hzero, List.range_zero, List.foldl_nil]
      refine ⟨⟨?_, by dsimp only; omega, hsnap⟩, fun hlt => by dsimp only at hlt; omega⟩
      rw [PendingExact, uncommitted]
      dsimp only
      rw [hi.pending, hempty, List.drop_eq_nil_of_le (by omega)]
    · obtain ⟨n, hn⟩ : ∃ n : Nat, (n : Int) = min lc ((e.log.length : Int) - 1) :=
        ⟨(min lc ((e.log.length : Int) - 1)).toNat, by omega⟩
      rw [show min lc ((e.log.length : Int) - 1 + e.lastSnapshotIndex + 1) = n by omega]
      exact hi.finalizeLoop (by omega) (cleanFollow_min hn hclean)
  · exact hi.step_of_same (.refl e)

/-! ## Growing and cutting the log -/

/-- **Storing entries** makes the last of their lists pending. -/
theorem MembershipInv.storeEntries (hi : MembershipInv e) (env : Env) {prev : Int} {es : List LogEntry}
    (hprev : -1 ≤ prev) (hlen : prev < e.log.length) (hne : es ≠ []) (hclean : e.CleanStore prev es) :
    MembershipInv (e.storeEntries env prev es) := by
  have hlow := hi.low
  refine ⟨?_, hi.low, hi.noSnapshot⟩
  -- what is uncommitted afterwards: the kept part of it, and the new entries behind the commit index
  have hafter : (e.storeEntries env prev es).uncommitted
      = (e.log.take (prev + 1).toNat).drop (e.commitIndex + 1).toNat
        ++ es.drop (e.commitIndex - prev).toNat := by
    have hlog : (e.storeEntries env prev es).log = e.log.take (prev + 1).toNat ++ es := by
      unfold RaftEngine.storeEntries
      dsimp only
      split
      · rfl
      · rw [List.take_of_length_le (by omega)]
    have hkeep : (e.log.take (prev + 1).toNat).length = (prev + 1).toNat := by
      rw [List.length_take]
      omega
    rw [uncommitted, hlog]
    show List.drop (e.commitIndex + 1).toNat _ = _
    rw [List.drop_append, hkeep]
    congr 2
    omega
  have hslot : (e.storeEntries env prev es).pendingPeers = (lastConf es).or (lastConf e.uncommitted) := by
    rw [← hi.pending]
    exact pendingAfter_eq e.pendingPeers es
  rw [PendingExact, hafter, hslot, lastConf_append]
  rcases hclean with hnil | hfresh | ⟨hes, hcut⟩
  · exact absurd hnil hne
  · -- an uncommitted `CONF:` entry arrives, and it is the last one of the message
    obtain ⟨L, hL⟩ := Option.ne_none_iff_exists'.mp (mt lastConf_eq_none.mp hfresh)
    have hlast : lastConf es = some L := by
      rw [← List.take_append_drop (e.commitIndex - prev).toNat es, lastConf_append, hL, Option.some_or]
    rw [hlast, hL, Option.some_or, Option.some_or]
  · have hnew : lastConf (es.drop (e.commitIndex - prev).toNat) = none :=
      lastConf_eq_none.mpr fun x hx => hes x (List.mem_of_mem_drop hx)
    rw [lastConf_eq_none.mpr hes, hnew, Option.none_or, Option.none_or, uncommitted]
    have hcut' := lastConf_eq_none.mpr hcut
    -- the cut is in the uncommitted part, or it takes all of it
    rcases le_total e.commitIndex prev with hle | hle
    · rw [drop_eq_segment_append e.log (show (e.commitIndex + 1).toNat ≤ (prev + 1).toNat by omega),
        lastConf_append]
      rw [max_eq_left hle] at hcut'
      rw [hcut', Option.none_or]
    · rw [max_eq_right hle] at hcut'
      rw [hcut', List.drop_eq_nil_of_le (by rw [List.length_take]; omega), lastConf_nil]

/-- **A proposal** may be such an entry. -/
theorem MembershipInv.propose (hi : MembershipInv e) (env : Env) (data : String) (zkProof : List UInt8)
    (hclean : e.state = .leader → isConf data = true → e.commitIndex < e.log.length) :
    MembershipStep e (e.propose env data zkProof).1 := by
  have hlow := hi.low
  unfold RaftEngine.propose
  split
  · exact hi.step_of_same (.refl e)
  · rename_i hl
    split
    · exact hi.step_of_same (.refl e)
    · refine ⟨⟨?_, hi.low, hi.noSnapshot⟩, installsCommitted_of_eq rfl⟩
      have hpend := hi.pending
      have hdata : (e.proposedEntry env data zkProof).data = data := rfl
      unfold PendingExact uncommitted at hpend ⊢
      dsimp only
      rw [List.drop_append, lastConf_append, ← hpend]
      cases hconf : confPeers data with
      | none =>
          have hnone : lastConf ([e.proposedEntry env data zkProof].drop
              ((e.commitIndex + 1).toNat - e.log.length)) = none := by
            rw [lastConf_eq_none]
            intro x hx
            rw [List.mem_singleton.mp (List.mem_of_mem_drop hx), isConf_eq_isSome, hdata, hconf]
            rfl
          rw [hnone, Option.none_or]
      | some L =>
          have hin := hclean (not_not.mp hl) (by rw [isConf_eq_isSome, hconf]; rfl)
          rw [show (e.commitIndex + 1).toNat - e.log.length = 0 by omega, List.drop_zero,
            lastConf_singleton, hdata, hconf, Option.some_or]

/-! ## Every call -/

/-- A previous entry that matches is in the log. -/
theorem range_of_prevMatches {log : List LogEntry} {prev : Int} {pt : UInt64}
    (h : prevMatches log prev pt = some true) : -1 ≤ prev ∧ prev < log.length := by
  unfold prevMatches at h
  split at h
  · omega
  · split at h
    · split at h
      · cases h
      · omega
    · cases h

/-- An append to a follower: entries are stored, then a commit is followed. -/
theorem MembershipInv.appendAsFollower (hi : MembershipInv e) {l : String} {prev : Int} {pt : UInt64}
    {es : Option (List LogEntry)} {lc : Int} {out : Option RaftRPC}
    (hclean : ∀ es', es = some es' → prevMatches e.log prev pt = some true →
      (es' = [] ∨ verifyChain env (prev + 1).toNat (e.chainStart prev).1 (e.chainStart prev).2 es' = true) →
      e.CleanStore prev es' ∧ CleanFollow e.commitIndex (storedLog e.log prev es') lc)
    (h : e.appendAsFollower env l prev pt es lc = some (e', out)) : MembershipStep e e' := by
  unfold RaftEngine.appendAsFollower at h
  split at h
  · cases h
  · cases h
    exact hi.step_of_same (.refl e)
  · rename_i hmatch
    split at h
    · cases h
      exact hi.step_of_same (.refl e)
    · rename_i es'
      dsimp only at h
      split at h
      · cases h
        exact hi.step_of_same (.refl e)
      · rename_i hchain
        obtain ⟨hstore, hfollow⟩ := hclean es' rfl hmatch (by
          rcases es' with _ | ⟨x, es'⟩
          · exact .inl rfl
          · exact .inr (by simpa using hchain))
        obtain ⟨hprev, hlen⟩ := range_of_prevMatches hmatch
        cases h
        -- storing keeps the slot exact and commits nothing, following commits, applying reads only
        have hstored : MembershipInv (if es'.isEmpty then e else e.storeEntries env prev es') ∧
            (if es'.isEmpty then e else e.storeEntries env prev es').commitIndex = e.commitIndex ∧
            (if es'.isEmpty then e else e.storeEntries env prev es').log = storedLog e.log prev es' := by
          unfold storedLog
          split
          · exact ⟨hi, rfl, rfl⟩
          · rename_i hne
            exact ⟨hi.storeEntries env hprev hlen (by simpa using hne) hstore, rfl, rfl⟩
        obtain ⟨hinv, hcommit, hlog⟩ := hstored
        have hstep := hinv.followCommit lc (by rw [hcommit, hlog]; exact hfollow)
        have hdone := hstep.congr (.refl _) (SameMembership.advanceAppliedIndex env _)
        refine ⟨hdone.inv, ?_⟩
        have hinst := hdone.installs
        unfold InstallsCommitted newlyCommitted at hinst ⊢
        rw [hcommit] at hinst
        exact hinst

/-- The answer to an append may let the leader commit. -/
theorem MembershipInv.handleAppendResponse (hi : MembershipInv e) (env : Env) {term : UInt64} {c : String}
    {success : Bool} {i : Int}
    (hclean : success = true → e.state = .leader → term = e.currentTerm → (e.acknowledged c i).CleanCommit) :
    MembershipStep e (e.handleAppendResponse env term c success i) := by
  unfold RaftEngine.handleAppendResponse
  split
  · exact hi.step_of_same (.refl e)
  · rename_i hguard
    push Not at hguard
    split
    · rename_i hsuccess
      have hack : SameMembership e (e.acknowledged c i) := ⟨rfl, rfl, rfl, rfl, rfl⟩
      exact ((hi.congr hack).updateCommitIndex (hclean hsuccess hguard.1 hguard.2)).congr hack
        (SameMembership.advanceAppliedIndex env _)
    · exact hi.step_of_same ⟨rfl, rfl, rfl, rfl, rfl⟩

/-- An append to a node of any role. -/
theorem MembershipInv.handleAppendEntries (hi : MembershipInv e) {term : UInt64} {l : String} {prev : Int}
    {pt : UInt64} {ph pp : String} {es : Option (List LogEntry)} {lc : Int} {out : Option RaftRPC}
    (hclean : e.CleanRpc env term l (.appendEntries prev pt ph pp es lc))
    (h : (e.observeTerm term).handleAppendEntries env term l prev pt es lc = some (e', out)) :
    MembershipStep e e' := by
  obtain ⟨T, S, V, l', st, hobs, heq⟩ := observeTerm_eq e term
  rw [heq] at h
  unfold RaftEngine.handleAppendEntries at h
  split at h
  · cases h
    exact hi.step_of_same ⟨rfl, rfl, rfl, rfl, rfl⟩
  · rename_i hterm
    have hT : e.currentTerm ≤ term := by
      cases hobs with
      | same _ => exact UInt64.not_lt.mp hterm
      | raised hlt => exact UInt64.le_of_lt hlt
    have hsame : SameMembership e { e with
        currentTerm := T, state := .follower, votedFor := V, leaderId := some l, storage := st } :=
      ⟨rfl, rfl, rfl, rfl, rfl⟩
    refine (MembershipInv.appendAsFollower (hi.congr hsame) ?_ h).congr hsame (.refl e')
    intro es' hes hmatch hchain
    subst hes
    exact hclean hT hmatch hchain

/-- **Any message.** -/
theorem MembershipInv.handleRpc (hi : MembershipInv e) {m : RaftRPC} {out : Option RaftRPC}
    (hclean : CleanReconfiguration env (.rpc m) e) (h : e.handleRpc env m = some (e', out)) :
    MembershipStep e e' := by
  unfold RaftEngine.handleRpc at h
  split at h
  · cases h
    exact hi.step_of_same (.refl e)
  · rename_i hsig
    have hclean := hclean (Bool.eq_false_iff.mpr hsig)
    have ho := SameMembership.observeTerm e m.term
    unfold dispatch at h
    split at h
    · cases h
      exact hi.step_of_same (ho.trans (.handleRequestVote env _ _ _ _ _))
    · rename_i hp
      rw [hp] at hclean
      exact hi.handleAppendEntries hclean h
    · cases h
      exact hi.step_of_same (ho.trans (.handleVoteResponse _ _ _ _))
    · rename_i success i hp
      rw [hp] at hclean
      cases h
      refine ((hi.congr ho).handleAppendResponse env ?_).congr ho (.refl _)
      intro hsuccess hl hterm
      subst hsuccess
      -- a leader after observing the term has observed its own
      have hle : m.term ≤ e.currentTerm := by
        by_contra hgt
        rw [observeTerm_state_of_lt (UInt64.not_le.mp hgt)] at hl
        cases hl
      rw [observeTerm_of_le hle] at hl hterm ⊢
      exact hclean hl hterm
    · cases h
      exact hi.step_of_same ho

/-- **One call.** A clean call keeps the slot exact and installs what it commits. -/
theorem MembershipInv.step (hi : MembershipInv e) {op : EngineOp} (hclean : CleanReconfiguration env op e)
    (h : (member env).step op e = some e') : MembershipStep e e' := by
  obtain ⟨⟨e'', outs⟩, hcall, rfl⟩ := Option.map_eq_some_iff.mp h
  cases op with
  | tick elapsed => exact hi.step_of_same (SameMembership.handleTick hcall)
  | propose data zkProof =>
      cases hcall
      exact hi.propose env data zkProof hclean
  | rpc m =>
      obtain ⟨⟨f, out⟩, hrpc, hout⟩ := Option.map_eq_some_iff.mp hcall
      cases hout
      exact hi.handleRpc hclean hrpc

/-! ## Every run -/

/-- Starting on a directory without a snapshot leaves the volatile fields as they are. -/
theorem boot_of_no_snapshot (env : Env) (e : RaftEngine) {s : RaftStorage} (h : s.snapshotFile = none) :
    (boot env e s).pendingPeers = e.pendingPeers ∧ (boot env e s).commitIndex = e.commitIndex ∧
      (boot env e s).lastSnapshotIndex = e.lastSnapshotIndex := by
  unfold boot
  cases s.verifyWalIntegrity env with
  | none =>
      simp only [h]
      exact ⟨trivial, trivial, trivial⟩
  | some offset =>
      have hcut : (s.recoverFromCorruption offset).snapshotFile = none := h
      simp only [RaftStorage.appendLog, hcut]
      exact ⟨trivial, trivial, trivial⟩

/-- A node that booted without CONF: entries has nothing pending. -/
theorem Booted.inv (h : Booted env e) (hlog : NoConf e.log) : MembershipInv e := by
  obtain ⟨n, peers, key, keys, storage, machine, hsnap, rfl⟩ := h
  have hnew : (new env n peers key storage machine).pendingPeers = none ∧
      (new env n peers key storage machine).commitIndex = -1 ∧
      (new env n peers key storage machine).lastSnapshotIndex = -1 := by
    cases storage with
    | none => exact ⟨rfl, rfl, rfl⟩
    | some s => exact boot_of_no_snapshot env (blank n peers key machine) (hsnap s rfl)
  obtain ⟨hpend, hcommit, hidx⟩ := hnew
  refine ⟨?_, by dsimp only; omega, hidx⟩
  unfold PendingExact
  dsimp only
  rw [hpend]
  exact (lastConf_eq_none.mpr fun x hx => hlog x (List.mem_of_mem_drop hx)).symm

/-- **Membership agreement.** In every run of clean calls from a log without `CONF:` entries, the slot holds the
list of the last uncommitted `CONF:` entry in every state, and every call that commits `CONF:` entries leaves the
list of the last of them as the peers. -/
theorem membership_agreement {env : Env} {h : List RaftEngine}
    (hr : (member env).Run (CleanReconfiguration env) h) (hstart : ∀ e₀ ∈ h.getLast?, NoConf e₀.log) :
    MembershipAgreement h := by
  have key : (∀ e₀ ∈ h.getLast?, NoConf e₀.log) → (∀ e ∈ h, MembershipInv e) ∧
      ∀ e' e past, e' :: e :: past <:+ h → InstallsCommitted e e' := by
    refine System.Run.invariant (P := fun h => (∀ e₀ ∈ h.getLast?, NoConf e₀.log) →
      (∀ e ∈ h, MembershipInv e) ∧ ∀ e' e past, e' :: e :: past <:+ h → InstallsCommitted e e') ?_ ?_ hr
    · intro s hs hstart
      refine ⟨fun e he => ?_, fun e' e past hsuf => ?_⟩
      · rw [List.mem_singleton.mp he]
        exact hs.inv (hstart s rfl)
      · have := hsuf.length_le
        simp at this
    · intro s past op s' _ ih hclean hstep hstart
      rw [List.getLast?_cons_cons] at hstart
      obtain ⟨hinv, hinst⟩ := ih hstart
      have hnext := (hinv s List.mem_cons_self).step hclean hstep
      refine ⟨fun e he => ?_, fun e' e older hsuf => ?_⟩
      · rcases List.mem_cons.mp he with rfl | he
        · exact hnext.inv
        · exact hinv e he
      · rcases List.suffix_cons_iff.mp hsuf with heq | hsuf
        · cases heq
          exact hnext.installs
        · exact hinst e' e older hsuf
  obtain ⟨hinv, hinst⟩ := key hstart
  exact ⟨fun e he => (hinv e he).pending, hinst⟩

/-! ## A leader that reconfigures -/

/-- `a` with the one peer `b`, just started. -/
def pairStart : RaftEngine := new scriptEnv "a" ["b"] "" none none

/-- It booted so. -/
theorem pairStart_booted : Booted scriptEnv pairStart :=
  ⟨"a", ["b"], "", ∅, none, none, (by intro s hs; cases hs), rfl⟩

/-- A message of `b` in term 1. -/
def fromB (payload : RpcPayload) (_ : RaftEngine) : EngineOp :=
  .rpc { term := 1, senderId := "b", targetId := some "a", payload := payload, signature := "",
         poseidonHash := zeroHash }

/-- A client's proposal. -/
def proposal (data : String) (_ : RaftEngine) : EngineOp := .propose data []

/-- `a` is elected and proposes `b,c`; `b` acknowledges that entry and a later one, each for itself. -/
theorem membership_agreement_stepwise : ∃ h, (member scriptEnv).Run (CleanReconfiguration scriptEnv) h ∧
    (∃ e ∈ h, e.pendingPeers = some ["b", "c"]) ∧ (∃ e ∈ h.head?, e.peers = ["b", "c"] ∧ e.commitIndex = 1) ∧
    MembershipAgreement h := by
  obtain ⟨e, past, hr, hend, hpend, hstart⟩ := System.exists_run_of_play (CleanReconfiguration scriptEnv)
    (M := member scriptEnv) (P := fun e h => (e.peers = ["b", "c"] ∧ e.commitIndex = 1) ∧
      (∃ f ∈ h, f.pendingPeers = some ["b", "c"]) ∧ ∀ e₀ ∈ h.getLast?, NoConf e₀.log)
    pairStart_booted [fun _ => .tick true, fromB (.voteResponse true), proposal "CONF:b,c",
      fromB (.appendResponse true 0), proposal "TARGET:1", fromB (.appendResponse true 1)]
    (by decide +kernel)
  exact ⟨_, hr, hpend, ⟨e, rfl, hend⟩, membership_agreement hr hstart⟩

/-- **A leader commits over a `CONF:` entry.** `a` proposes `b,c` and one entry more before `b` acknowledges
both: the scan stops at the second entry, `b,c` never becomes the peer list, and the slot stays full. -/
theorem commit_passes_reconfiguration :
    ¬ ∀ (env : Env) (h : List RaftEngine), (member env).Run (fun _ _ => True) h →
      (∀ e₀ ∈ h.getLast?, NoConf e₀.log) → MembershipAgreement h := by
  intro hall
  obtain ⟨e, past, hr, hwrong, hstart⟩ := System.exists_run_of_play (fun _ _ => True)
    (M := member scriptEnv) (P := fun e h =>
      (e.peers = ["b"] ∧ e.pendingPeers = some ["b", "c"] ∧ e.uncommitted = []) ∧
      ∀ e₀ ∈ h.getLast?, NoConf e₀.log)
    pairStart_booted [fun _ => .tick true, fromB (.voteResponse true), proposal "CONF:b,c",
      proposal "TARGET:1", fromB (.appendResponse true 1)]
    (by decide +kernel)
  have hexact := (hall scriptEnv _ hr hstart).pending e List.mem_cons_self
  rw [PendingExact, hwrong.2.1, hwrong.2.2] at hexact
  cases hexact

end RaftEngine

end WarmLogic.Consensus
