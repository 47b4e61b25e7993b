/-
# WarmLogic.Governance.LockedStake — the locks of the voters against the history of their votes.

A vote that is accepted leaves a lock: its stake, and the epoch at which it is free again. The locks are filtered when
they are read and dropped when the epoch advances. `LockHistory` puts the accepted votes beside the engine, with their
unlock epochs as natural numbers, the largest total stake that was ever set, and the number of epochs that have passed;
over whole runs the locked stake of a voter is the sum over these votes and within that total (`locks_accounted`).

Why the invariant holds: a vote is checked against the total less what its voter has locked, and what is locked is, by
the invariant itself, the sum over the history; a purge drops what no later epoch would read (`holding_holding`). It
needs that no unlock epoch leaves the range of `u64`. An unlock epoch is at most 60 past the current one, so that takes
`2 ^ 64 - 60` epochs; there a lock is free before it was ever held (`overflowing_lock_is_free`).
-/
import WarmLogic.Governance.VotingClose

namespace WarmLogic.Governance.Voting

open WarmLogic.Lib
open WarmLogic.Ledger (Bytes)

variable {sha3 : Bytes → Id} {e e' : ConvictionVotingEngine}

/-! ## Votes and their history -/

/-- A vote that was accepted: who, how much, and the end of the voting plus the lock period. -/
structure AcceptedVote where
  voterId : Id
  stake : UInt64
  unlockEpoch : Nat
  deriving DecidableEq

/-- The vote that a call casts, if it is one that is accepted. -/
def accepted (e : ConvictionVotingEngine) : VotingOp → Option AcceptedVote
  | .vote proposalId voterId direction stake conviction =>
      match (e.vote proposalId voterId direction stake conviction).2 with
      | .error _ => none
      | .ok _ => (e.proposals.lookup proposalId).map fun p =>
          { voterId := voterId
            stake := stake
            unlockEpoch :=
              p.votingStartEpoch.toNat + p.proposalType.votingPeriod.toNat + conviction.lockPeriod.toNat }
  | _ => none

/-- How often a call advances the epoch. -/
def VotingOp.advances : VotingOp → Nat
  | .advanceEpoch => 1
  | _ => 0

/-- An engine, the votes it has accepted, the largest total stake it has had and the calls of `advance_epoch`. -/
structure LockHistory where
  engine : ConvictionVotingEngine
  votes : List AcceptedVote
  largestTotal : UInt64
  advances : Nat

/-- A new engine under any calls, with its history. -/
def lockRuns (sha3 : Bytes → Id) : System LockHistory VotingOp where
  init s := s = ⟨.new, [], 0, 0⟩
  step op s := (op.call sha3 s.engine).map fun e =>
    { engine := e
      votes := s.votes ++ (accepted s.engine op).toList
      largestTotal := max s.largestTotal e.totalStake
      advances := s.advances + op.advances }

/-- The stake of the votes of one voter that are not free at an epoch. -/
def stakeLocked (votes : List AcceptedVote) (voterId : Id) (epoch : Nat) : Nat :=
  ((votes.filter fun a => a.voterId = voterId ∧ epoch < a.unlockEpoch).map fun a => a.stake.toNat).sum

/-- What `get_locked_stake` says is the sum over the history; the sum is a `u64`, and within the largest total. -/
structure LocksAccounted (s : LockHistory) : Prop where
  equal : ∀ voterId, (s.engine.getLockedStake voterId).toNat =
    stakeLocked s.votes voterId s.engine.currentEpoch.toNat
  fits : ∀ voterId, stakeLocked s.votes voterId s.engine.currentEpoch.toNat < 2 ^ 64
  bounded : ∀ voterId, stakeLocked s.votes voterId s.engine.currentEpoch.toNat ≤ s.largestTotal.toNat

/-- No epoch overflows in the call: neither the current one, nor the unlock epoch of a vote with a stake. -/
def EpochsFit (op : VotingOp) (s : LockHistory) : Prop :=
  (op = .advanceEpoch → s.engine.currentEpoch.toNat + 1 < 2 ^ 64) ∧
    ∀ a ∈ accepted s.engine op, 0 < a.stake → a.unlockEpoch < 2 ^ 64

/-! ## What a call does to the locks -/

/-- The outcomes of `vote`: an error, or the vote recorded and its lock added. -/
theorem vote_cases (e : ConvictionVotingEngine) (id voterId : Id) (direction : VoteDirection) (stake : UInt64)
    (conviction : Conviction) :
    (∃ err, e.vote id voterId direction stake conviction = (e, .error err)) ∨
      ∃ p, e.proposals.lookup id = some p ∧ stake ≤ saturatingSub e.totalStake (e.getLockedStake voterId) ∧
        e.vote id voterId direction stake conviction =
          ({ e with
              proposals := e.proposals.insert id (p.withVote (recorded e voterId direction stake conviction))
              lockedStakes := Function.update e.lockedStakes voterId
                (e.lockedStakes voterId ++ [(p.votingEnd + conviction.lockPeriod, stake)]) }, .ok ()) := by
  unfold ConvictionVotingEngine.vote
  split
  · exact .inl ⟨_, rfl⟩
  · rename_i havailable
    split
    · exact .inl ⟨_, rfl⟩
    · rename_i p hp
      dsimp only
      split
      · exact .inl ⟨_, rfl⟩
      · rename_i p' hcast
        obtain ⟨-, -, -, rfl⟩ := accepts_of_castVote hcast
        exact .inr ⟨p, hp, UInt64.not_lt.mp havailable, rfl⟩

/-- A delegation leaves locks and epoch. -/
theorem delegate_locks {delegator target : Id} {stake : UInt64} {conviction : Conviction} {expiresEpoch : UInt64}
    {result : Except String Unit} (h : e.delegate delegator target stake conviction expiresEpoch = some (e', result)) :
    e'.lockedStakes = e.lockedStakes ∧ e'.currentEpoch = e.currentEpoch := by
  unfold ConvictionVotingEngine.delegate at h
  split at h
  · cases h
    exact ⟨rfl, rfl⟩
  · obtain ⟨cycle, -, h⟩ := Option.map_eq_some_iff.mp h
    cases cycle <;> cases h <;> exact ⟨rfl, rfl⟩

/-- **`LockChange e op e'`** — what a call does to the locks: nothing, the purge of a new epoch, or one more lock. -/
inductive LockChange (e : ConvictionVotingEngine) : VotingOp → ConvictionVotingEngine → Prop
  | kept {op : VotingOp} {e' : ConvictionVotingEngine} (locks : e'.lockedStakes = e.lockedStakes)
      (epoch : e'.currentEpoch = e.currentEpoch) (none : accepted e op = none) : LockChange e op e'
  | advanced : LockChange e .advanceEpoch e.advanceEpoch
  | locked {op : VotingOp} {e' : ConvictionVotingEngine} {p : Proposal} {voterId : Id} {stake : UInt64}
      {conviction : Conviction} (available : stake ≤ saturatingSub e.totalStake (e.getLockedStake voterId))
      (locks : e'.lockedStakes = Function.update e.lockedStakes voterId
        (e.lockedStakes voterId ++ [(p.votingEnd + conviction.lockPeriod, stake)]))
      (epoch : e'.currentEpoch = e.currentEpoch) (total : e'.totalStake = e.totalStake)
      (one : accepted e op = some ⟨voterId, stake,
        p.votingStartEpoch.toNat + p.proposalType.votingPeriod.toNat + conviction.lockPeriod.toNat⟩) :
      LockChange e op e'

/-- **The inversion of a call**, as far as locks go. -/
theorem call_locks {op : VotingOp} (hstep : op.call sha3 e = some e') : LockChange e op e' := by
  cases op with
  | setTotalStake stake =>
      cases hstep
      exact .kept rfl rfl rfl
  | advanceEpoch =>
      cases hstep
      exact .advanced
  | submitProposal proposalType proposer title description actionHash =>
      cases hstep
      exact .kept rfl rfl rfl
  | secondProposal proposalId seconder =>
      cases hstep
      unfold ConvictionVotingEngine.secondProposal
      split
      · exact .kept rfl rfl rfl
      · split
        · exact .kept rfl rfl rfl
        · exact .kept rfl rfl rfl
  | vote proposalId voterId direction stake conviction =>
      cases hstep
      rcases vote_cases e proposalId voterId direction stake conviction with ⟨err, hcall⟩ | ⟨p, hp, havailable, hcall⟩
      · exact .kept (by rw [hcall]) (by rw [hcall]) (by simp only [accepted, hcall])
      · refine .locked (p := p) havailable (by rw [hcall]) (by rw [hcall]) (by rw [hcall]) ?_
        simp only [accepted, hcall, hp, Option.map_some]
  | delegate delegator target stake conviction expiresEpoch =>
      obtain ⟨⟨after, result⟩, hcall, rfl⟩ := Option.map_eq_some_iff.mp hstep
      obtain ⟨hlocks, hepoch⟩ := delegate_locks hcall
      exact .kept hlocks hepoch rfl
  | undelegate delegator =>
      cases hstep
      unfold ConvictionVotingEngine.undelegate
      split
      · exact .kept rfl rfl rfl
      · exact .kept rfl rfl rfl
  | finalizeProposal proposalId =>
      cases hstep
      unfold ConvictionVotingEngine.finalizeProposal
      split
      · exact .kept rfl rfl rfl
      · split
        · exact .kept rfl rfl rfl
        · exact .kept rfl rfl rfl

/-! ## Sums over locks and over the history -/

/-- The lock that an accepted vote leaves. -/
def AcceptedVote.lock (a : AcceptedVote) : UInt64 × UInt64 := (UInt64.ofNat a.unlockEpoch, a.stake)

/-- The locks that hold at an epoch. -/
def holding (epoch : UInt64) (locks : List (UInt64 × UInt64)) : List (UInt64 × UInt64) :=
  locks.filter fun lock => decide (epoch < lock.1)

/-- Locks of two lists. -/
theorem holding_append (epoch : UInt64) (locks more : List (UInt64 × UInt64)) :
    holding epoch (locks ++ more) = holding epoch locks ++ holding epoch more := List.filter_append locks more

/-- What holds later holds now: a purge drops no lock that a later epoch would still read. -/
theorem holding_holding {epoch later : UInt64} (h : epoch ≤ later) (locks : List (UInt64 × UInt64)) :
    holding later (holding epoch locks) = holding later locks := by
  unfold holding
  rw [List.filter_filter]
  refine List.filter_congr fun lock _ => ?_
  by_cases hlater : later < lock.1
  · simp [hlater, UInt64.lt_of_le_of_lt h hlater]
  · simp [hlater]

/-- The sum of 64 bits is the sum, up to its wraps. -/
theorem toNat_sum (l : List UInt64) : l.sum.toNat = (l.map UInt64.toNat).sum % 2 ^ 64 := by
  induction l with
  | nil => rfl
  | cons x l ih => rw [List.sum_cons, List.map_cons, List.sum_cons, UInt64.toNat_add, ih, Nat.add_mod_mod]

/-- Votes of two lists. -/
theorem stakeLocked_append (votes more : List AcceptedVote) (voterId : Id) (epoch : Nat) :
    stakeLocked (votes ++ more) voterId epoch = stakeLocked votes voterId epoch + stakeLocked more voterId epoch := by
  unfold stakeLocked
  rw [List.filter_append, List.map_append, List.sum_append]

/-- One vote. -/
theorem stakeLocked_singleton (a : AcceptedVote) (voterId : Id) (epoch : Nat) :
    stakeLocked [a] voterId epoch = if a.voterId = voterId ∧ epoch < a.unlockEpoch then a.stake.toNat else 0 := by
  unfold stakeLocked
  rw [List.filter_singleton]
  by_cases h : a.voterId = voterId ∧ epoch < a.unlockEpoch
  · simp [h]
  · simp only [h, decide_false, if_false]
    rfl

/-- A later epoch finds less locked. -/
theorem stakeLocked_le {epoch later : Nat} (h : epoch ≤ later) (votes : List AcceptedVote) (voterId : Id) :
    stakeLocked votes voterId later ≤ stakeLocked votes voterId epoch := by
  induction votes with
  | nil => exact Nat.le_refl _
  | cons a votes ih =>
      rw [← List.singleton_append, stakeLocked_append, stakeLocked_append, stakeLocked_singleton, stakeLocked_singleton]
      refine Nat.add_le_add ?_ ih
      split
      · rename_i hlater
        rw [if_pos ⟨hlater.1, by omega⟩]
      · exact Nat.zero_le _

/-- One lock. -/
theorem sum_holding_singleton (lock : UInt64 × UInt64) (epoch : UInt64) :
    ((holding epoch [lock]).map fun lock => lock.2.toNat).sum = if epoch < lock.1 then lock.2.toNat else 0 := by
  unfold holding
  by_cases h : epoch < lock.1
  · simp [h]
  · simp [h]

/-- A lock is read as its vote says, unless its epoch does not fit and there is a stake in it. -/
theorem lock_eq {a : AcceptedVote} (hfits : 0 < a.stake → a.unlockEpoch < 2 ^ 64) (epoch : UInt64) :
    (if epoch < a.lock.1 then a.lock.2.toNat else 0) = if epoch.toNat < a.unlockEpoch then a.stake.toNat else 0 := by
  by_cases hstake : 0 < a.stake
  · have hread : epoch < a.lock.1 ↔ epoch.toNat < a.unlockEpoch := by
      show epoch < UInt64.ofNat a.unlockEpoch ↔ _
      rw [UInt64.lt_iff_toNat_lt, UInt64.toNat_ofNat_of_lt' (hfits hstake)]
    rw [if_congr hread rfl rfl]
    rfl
  · have hzero : a.stake.toNat = 0 := by
      rw [UInt64.lt_iff_toNat_lt] at hstake
      exact Nat.eq_zero_of_not_pos hstake
    rw [show a.lock.2.toNat = 0 from hzero, hzero, ite_self, ite_self]

/-- Where no unlock epoch of a positive stake overflows, the locks sum up to what the history says. -/
theorem sum_holding {votes : List AcceptedVote} (hfits : ∀ a ∈ votes, 0 < a.stake → a.unlockEpoch < 2 ^ 64)
    (voterId : Id) (epoch : UInt64) :
    ((holding epoch ((votes.filter fun a => a.voterId = voterId).map AcceptedVote.lock)).map fun lock =>
      lock.2.toNat).sum = stakeLocked votes voterId epoch.toNat := by
  induction votes with
  | nil => rfl
  | cons a votes ih =>
      obtain ⟨ha, hvotes⟩ := List.forall_mem_cons.mp hfits
      rw [← List.singleton_append, stakeLocked_append, stakeLocked_singleton, ← ih hvotes, List.singleton_append]
      by_cases hvoter : a.voterId = voterId
      · have hkeep : (a :: votes).filter (fun a => a.voterId = voterId) =
            a :: votes.filter fun a => a.voterId = voterId := List.filter_cons_of_pos (decide_eq_true hvoter)
        rw [hkeep, List.map_cons, ← List.singleton_append, holding_append, List.map_append,
          List.sum_append, sum_holding_singleton, lock_eq ha]
        simp only [hvoter, true_and]
      · have hskip : (a :: votes).filter (fun a => a.voterId = voterId) = votes.filter fun a => a.voterId = voterId :=
          List.filter_cons_of_neg (by simpa using hvoter)
        rw [hskip, if_neg fun h => hvoter h.1, Nat.zero_add]

/-! ## The invariant -/

/-- **The invariant of the locks**: those that hold are those of the history, whose unlock epochs fit, and no voter
has more locked than the largest total. The last part lets the sums not wrap, so what `vote` compares with the total
is the sum over the history, and a vote that passes keeps the last part. -/
structure LocksKept (s : LockHistory) : Prop where
  locks : ∀ voterId, holding s.engine.currentEpoch (s.engine.lockedStakes voterId) =
    holding s.engine.currentEpoch ((s.votes.filter fun a => a.voterId = voterId).map AcceptedVote.lock)
  fits : ∀ a ∈ s.votes, 0 < a.stake → a.unlockEpoch < 2 ^ 64
  total : s.engine.totalStake.toNat ≤ s.largestTotal.toNat
  bounded : ∀ voterId, stakeLocked s.votes voterId s.engine.currentEpoch.toNat ≤ s.largestTotal.toNat

/-- The invariant says what the result does. -/
theorem LocksKept.accounted {s : LockHistory} (h : LocksKept s) : LocksAccounted s := by
  have hfits : ∀ voterId, stakeLocked s.votes voterId s.engine.currentEpoch.toNat < 2 ^ 64 :=
    fun voterId => Nat.lt_of_le_of_lt (h.bounded voterId) s.largestTotal.toNat_lt
  refine ⟨fun voterId => ?_, hfits, h.bounded⟩
  have hsum := sum_holding h.fits voterId s.engine.currentEpoch
  rw [← h.locks voterId] at hsum
  have hread : s.engine.getLockedStake voterId =
      ((holding s.engine.currentEpoch (s.engine.lockedStakes voterId)).map Prod.snd).sum := rfl
  have hmap : ∀ locks : List (UInt64 × UInt64),
      (locks.map Prod.snd).map UInt64.toNat = locks.map fun lock => lock.2.toNat := fun locks => List.map_map
  rw [hread, toNat_sum, hmap, hsum, Nat.mod_eq_of_lt (hfits voterId)]

/-- A new engine has no locks and no votes. -/
theorem locksKept_init : LocksKept ⟨.new, [], 0, 0⟩ :=
  ⟨fun _ => rfl, fun _ ha => absurd ha List.not_mem_nil, Nat.le_refl _, fun _ => Nat.le_refl _⟩

/-- The larger of two numbers. -/
theorem toNat_max (a b : UInt64) : (max a b).toNat = max a.toNat b.toNat := by
  rw [Nat.max_def]
  show (if a ≤ b then b else a).toNat = _
  simp only [UInt64.le_iff_toNat_le]
  split <;> rfl

/-- What `vote` has checked: the stake and what is locked are within the total together, or the stake is 0. -/
theorem available_le {total locked stake : UInt64} (h : stake ≤ saturatingSub total locked) :
    locked.toNat + stake.toNat ≤ total.toNat ∨ stake.toNat = 0 := by
  rw [UInt64.le_iff_toNat_le, toNat_saturatingSub] at h
  omega

/-- A new epoch drops the locks that no longer hold. -/
theorem LocksKept.advance {s : LockHistory} (h : LocksKept s) (hfit : s.engine.currentEpoch.toNat + 1 < 2 ^ 64)
    (total : UInt64) (advances : Nat) (htotal : s.largestTotal.toNat ≤ total.toNat) :
    LocksKept ⟨s.engine.advanceEpoch, s.votes, total, advances⟩ := by
  have hnext : (s.engine.currentEpoch + 1).toNat = s.engine.currentEpoch.toNat + 1 := by
    rw [UInt64.toNat_add]
    exact Nat.mod_eq_of_lt hfit
  have hle : s.engine.currentEpoch ≤ s.engine.currentEpoch + 1 := by
    rw [UInt64.le_iff_toNat_le, hnext]
    exact Nat.le_succ _
  refine ⟨fun voterId => ?_, h.fits, h.total.trans htotal, fun voterId => ?_⟩
  · show holding (s.engine.currentEpoch + 1) (holding (s.engine.currentEpoch + 1) (s.engine.lockedStakes voterId)) =
      holding (s.engine.currentEpoch + 1) _
    rw [holding_holding (UInt64.le_refl _), ← holding_holding hle, h.locks voterId, holding_holding hle]
  · show stakeLocked s.votes voterId (s.engine.currentEpoch + 1).toNat ≤ _
    rw [hnext]
    exact (stakeLocked_le (Nat.le_succ _) s.votes voterId).trans ((h.bounded voterId).trans htotal)

/-- The unlock epoch of a lock is the one of its vote, as a `u64`. -/
theorem ofNat_unlockEpoch (p : Proposal) (conviction : Conviction) :
    UInt64.ofNat (p.votingStartEpoch.toNat + p.proposalType.votingPeriod.toNat + conviction.lockPeriod.toNat) =
      p.votingEnd + conviction.lockPeriod := by
  unfold Proposal.votingEnd
  rw [UInt64.ofNat_add, UInt64.ofNat_add, UInt64.ofNat_toNat, UInt64.ofNat_toNat, UInt64.ofNat_toNat]

/-- The lock a vote leaves, and the vote in the history. -/
theorem LocksKept.locks_vote {s : LockHistory} (h : LocksKept s) (p : Proposal) (voterId : Id) (stake : UInt64)
    (conviction : Conviction) (other : Id) :
    holding s.engine.currentEpoch (Function.update s.engine.lockedStakes voterId
        (s.engine.lockedStakes voterId ++ [(p.votingEnd + conviction.lockPeriod, stake)]) other) =
      holding s.engine.currentEpoch (((s.votes ++ [(⟨voterId, stake, p.votingStartEpoch.toNat +
        p.proposalType.votingPeriod.toNat + conviction.lockPeriod.toNat⟩ : AcceptedVote)]).filter
          fun a => a.voterId = other).map AcceptedVote.lock) := by
  rw [List.filter_append, List.map_append, holding_append, ← h.locks other]
  by_cases hother : other = voterId
  · subst hother
    rw [Function.update_self, holding_append, ← ofNat_unlockEpoch]
    simp [AcceptedVote.lock]
  · rw [Function.update_of_ne hother]
    have hskip : ¬ voterId = other := fun heq => hother heq.symm
    simp [hskip, holding]

/-- A vote that is available keeps its voter within the total. -/
theorem LocksKept.bounded_vote {s : LockHistory} (h : LocksKept s) {a : AcceptedVote}
    (havailable : a.stake ≤ saturatingSub s.engine.totalStake (s.engine.getLockedStake a.voterId)) (other : Id) :
    stakeLocked (s.votes ++ [a]) other s.engine.currentEpoch.toNat ≤ s.largestTotal.toNat := by
  rw [stakeLocked_append, stakeLocked_singleton]
  split
  · rename_i hcounts
    rw [← hcounts.1]
    rcases available_le havailable with hle | hzero
    · rw [h.accounted.equal a.voterId] at hle
      exact hle.trans h.total
    · rw [hzero]
      exact h.bounded a.voterId
  · exact h.bounded other

/-- **A step keeps the locks and the history together**, if no epoch overflows in it. -/
theorem locksKept_step {s s' : LockHistory} {op : VotingOp} (h : LocksKept s) (hfit : EpochsFit op s)
    (hstep : (lockRuns sha3).step op s = some s') : LocksKept s' := by
  obtain ⟨e', hcall, rfl⟩ := Option.map_eq_some_iff.mp hstep
  have hmax : s.largestTotal.toNat ≤ (max s.largestTotal e'.totalStake).toNat := by
    rw [toNat_max]
    exact Nat.le_max_left _ _
  have htotal : e'.totalStake.toNat ≤ (max s.largestTotal e'.totalStake).toNat := by
    rw [toNat_max]
    exact Nat.le_max_right _ _
  cases call_locks hcall with
  | kept locks epoch none =>
      rw [none, Option.toList_none, List.append_nil]
      refine ⟨fun voterId => ?_, h.fits, htotal, fun voterId => ?_⟩
      · dsimp only
        rw [epoch, locks]
        exact h.locks voterId
      · dsimp only
        rw [epoch]
        exact (h.bounded voterId).trans hmax
  | advanced =>
      show LocksKept ⟨s.engine.advanceEpoch, s.votes ++ [], _, _⟩
      rw [List.append_nil]
      exact h.advance (hfit.1 rfl) _ _ hmax
  | @locked _ _ p voterId stake conviction available locks epoch total one =>
      have hnew := hfit.2 _ one
      rw [one, Option.toList_some]
      refine ⟨fun other => ?_, ?_, htotal, fun other => ?_⟩
      · dsimp only
        rw [epoch, locks]
        exact h.locks_vote p voterId stake conviction other
      · exact List.forall_mem_append.mpr ⟨h.fits, List.forall_mem_singleton.mpr hnew⟩
      · dsimp only
        rw [epoch]
        exact (h.bounded_vote available other).trans hmax

/-! ## How far the epochs get -/

/-- The epoch is the number of advances, and no voting has started after it. -/
structure EpochsCounted (s : LockHistory) : Prop where
  counted : s.engine.currentEpoch.toNat = s.advances
  started : ∀ id p, s.engine.proposals.lookup id = some p → p.votingStartEpoch ≤ s.engine.currentEpoch

/-- A voting takes 28 epochs at most. -/
theorem votingPeriod_le (proposalType : ProposalType) : proposalType.votingPeriod.toNat ≤ 28 := by
  cases proposalType <;> decide

/-- A lock lasts 32 at most. -/
theorem lockPeriod_le (conviction : Conviction) : conviction.lockPeriod.toNat ≤ 32 := by
  cases conviction <;> decide

/-- A vote is free again at most 60 epochs after the one it is cast in. -/
theorem unlockEpoch_le {s : LockHistory} (h : EpochsCounted s) {op : VotingOp} {a : AcceptedVote}
    (ha : a ∈ accepted s.engine op) : a.unlockEpoch ≤ s.advances + 60 := by
  cases op with
  | vote proposalId voterId direction stake conviction =>
      unfold accepted at ha
      dsimp only at ha
      split at ha
      · cases ha
      · obtain ⟨p, hp, rfl⟩ := Option.map_eq_some_iff.mp ha
        have hstart := UInt64.le_iff_toNat_le.mp (h.started _ p hp)
        have hperiod := votingPeriod_le p.proposalType
        have hlock := lockPeriod_le conviction
        rw [h.counted] at hstart
        dsimp only
        omega
  | _ => cases ha

/-- So up to 60 epochs before the end no epoch overflows. -/
theorem epochsFit_of_counted {s s' : LockHistory} {op : VotingOp} (h : EpochsCounted s)
    (hstep : (lockRuns sha3).step op s = some s') (hlate : s'.advances < 2 ^ 64 - 60) : EpochsFit op s := by
  obtain ⟨e', -, rfl⟩ := Option.map_eq_some_iff.mp hstep
  have hnow : s.advances + op.advances < 2 ^ 64 - 60 := hlate
  refine ⟨fun hop => ?_, fun a ha _ => ?_⟩
  · rw [h.counted]
    omega
  · have := unlockEpoch_le h ha
    omega

/-- A proposal that is written has not started later than now. -/
theorem ProposalWrite.started {op : VotingOp} {id : Id} {p : Proposal} (hw : ProposalWrite sha3 e op id p)
    (h : ∀ id p, e.proposals.lookup id = some p → p.votingStartEpoch ≤ e.currentEpoch) :
    p.votingStartEpoch ≤ e.currentEpoch := by
  cases hw with
  | submitted proposalType proposer title description actionHash fresh id_eq =>
      rw [fresh]
      exact UInt64.zero_le
  | amended held amends votes start =>
      rcases start with hsame | hnow
      · rw [hsame]
        exact h _ _ held
      · rw [hnow]
        exact UInt64.le_refl _
  | @voted id voterId direction stake conviction old held accepts => exact h id old held

/-- An advance that does not wrap around is one epoch more, and no other call moves the epoch. -/
theorem call_currentEpoch {op : VotingOp} (hstep : op.call sha3 e = some e')
    (hfit : op = .advanceEpoch → e.currentEpoch.toNat + 1 < 2 ^ 64) :
    e'.currentEpoch.toNat = e.currentEpoch.toNat + op.advances := by
  cases op with
  | advanceEpoch =>
      cases hstep
      show (e.currentEpoch + 1).toNat = e.currentEpoch.toNat + 1
      rw [UInt64.toNat_add]
      exact Nat.mod_eq_of_lt (hfit rfl)
  | _ =>
      cases call_locks hstep with
      | kept locks epoch none => exact congrArg UInt64.toNat epoch
      | locked available locks epoch total one => exact congrArg UInt64.toNat epoch

/-- Both are kept by every call. -/
theorem EpochsCounted.step {s s' : LockHistory} {op : VotingOp} (h : EpochsCounted s)
    (hstep : (lockRuns sha3).step op s = some s') (hfit : EpochsFit op s) : EpochsCounted s' := by
  obtain ⟨e', hcall, rfl⟩ := Option.map_eq_some_iff.mp hstep
  have hepoch := call_currentEpoch hcall hfit.1
  have hle : s.engine.currentEpoch ≤ e'.currentEpoch := by
    rw [UInt64.le_iff_toNat_le, hepoch]
    exact Nat.le_add_right _ _
  refine ⟨?_, forall_proposals_call hcall ?_ ?_⟩
  · dsimp only
    rw [hepoch, h.counted]
  · exact fun id p hp => UInt64.le_trans (h.started id p hp) hle
  · exact fun id p hw => UInt64.le_trans (hw.started h.started) hle

/-- **The locked stake is the stake of the votes that are not free yet.** In every run of the engine, whatever is voted,
submitted again, advanced or set: up to `2 ^ 64 - 60` epochs, `get_locked_stake` is the sum over the accepted votes
whose end of voting plus lock period is past the current epoch, the sum fits a `u64`, and it is not above the largest
total stake that was set. -/
theorem locks_accounted (sha3 : Bytes → Id) {h : List LockHistory}
    (hrun : (lockRuns sha3).Run (fun _ _ => True) h) : ∀ s ∈ h, s.advances < 2 ^ 64 - 60 → LocksAccounted s := by
  intro s hs hearly
  have hkept : s.advances < 2 ^ 64 - 60 → EpochsCounted s ∧ LocksKept s := by
    refine System.Run.forall_mem (P := fun s => s.advances < 2 ^ 64 - 60 → EpochsCounted s ∧ LocksKept s) ?_ ?_ hrun s hs
    · rintro s rfl -
      exact ⟨⟨rfl, fun id p hp => by cases hp⟩, locksKept_init⟩
    · -- the state before is at most as many advances away, so the invariant held there
      intro s op s' ih _ hstep hlate
      have hbefore : s.advances ≤ s'.advances := by
        obtain ⟨e', -, rfl⟩ := Option.map_eq_some_iff.mp hstep
        exact Nat.le_add_right _ _
      obtain ⟨hcounted, hlocks⟩ := ih (Nat.lt_of_le_of_lt hbefore hlate)
      have hfit := epochsFit_of_counted hcounted hstep hlate
      exact ⟨hcounted.step hstep hfit, locksKept_step hlocks hfit hstep⟩
  exact (hkept hearly).2.accounted

/-- The second proposal of the scripts, by the same proposer under another title. -/
def otherId : Id := scriptSha3 (idString (account 0) "u" 0)

/-- One account votes on two proposals with 60 and 40 of 100, locked for one epoch and for two. At epoch 4 the first
lock is free and 40 are still held, and they are what the history says. -/
theorem locks_accounted_two_votes :
    ∃ s past, (lockRuns scriptSha3).Run (fun _ _ => True) (s :: past) ∧ s.advances = 4 ∧
      (s.votes.map fun a => (a.stake.toNat, a.unlockEpoch)) = [(60, 4), (40, 5)] ∧
      stakeLocked s.votes (account 2) 4 = 40 ∧ (s.engine.getLockedStake (account 2)).toNat = 40 := by
  obtain ⟨s, past, hrun, hadvances, hvotes, hlocked, hepoch⟩ := System.exists_run_of_play (M := lockRuns scriptSha3)
    (fun _ _ => True)
    (P := fun s _ => s.advances = 4 ∧ (s.votes.map fun a => (a.stake.toNat, a.unlockEpoch)) = [(60, 4), (40, 5)] ∧
      stakeLocked s.votes (account 2) 4 = 40 ∧ s.engine.currentEpoch.toNat = 4) rfl
    [fun _ => .setTotalStake 100, fun _ => .submitProposal .emergency (account 0) "t" "d" (account 9),
      fun _ => .submitProposal .emergency (account 0) "u" "d" (account 9), fun _ => .secondProposal scriptId (account 1),
      fun _ => .secondProposal otherId (account 1), fun _ => .vote scriptId (account 2) .aye 60 .locked1x,
      fun _ => .vote otherId (account 2) .nay 40 .locked2x, fun _ => .advanceEpoch, fun _ => .advanceEpoch,
      fun _ => .advanceEpoch, fun _ => .advanceEpoch] (by decide +kernel)
  have hsum := (locks_accounted scriptSha3 hrun _ List.mem_cons_self (by omega)).equal (account 2)
  rw [hepoch, hlocked] at hsum
  exact ⟨s, past, hrun, hadvances, hvotes, hlocked, hsum⟩

/-! ## The end of the epochs -/

/-- A history without votes, at an epoch; the total stake is 100. -/
def idleAt (epoch : Nat) : LockHistory :=
  ⟨{ ConvictionVotingEngine.new with totalStake := 100, currentEpoch := UInt64.ofNat epoch }, [], 100, epoch⟩

/-- An engine may do nothing for any number of epochs. -/
theorem run_idle (sha3 : Bytes → Id) (epoch : Nat) :
    ∃ past, (lockRuns sha3).Run (fun _ _ => True) (idleAt epoch :: past) := by
  induction epoch with
  | zero => exact ⟨_, .step (.init rfl) (a := .setTotalStake 100) trivial rfl⟩
  | succ epoch ih =>
      obtain ⟨past, hrun⟩ := ih
      have hstep : (lockRuns sha3).step .advanceEpoch (idleAt epoch) = some (idleAt (epoch + 1)) := by
        unfold idleAt
        rw [UInt64.ofNat_add]
        rfl
      exact ⟨_, .step hrun (a := .advanceEpoch) trivial hstep⟩

/-- **A lock whose epoch overflows is free at once.** Four epochs before the end of `u64` a voter votes with all of the
stake and a lock of one epoch: the lock is recorded for epoch 0, and the same account has nothing locked. -/
theorem overflowing_lock_is_free :
    ∃ s past, (lockRuns scriptSha3).Run (fun _ _ => True) (s :: past) ∧
      s.engine.getLockedStake (account 2) = 0 ∧ stakeLocked s.votes (account 2) s.engine.currentEpoch.toNat = 100 ∧
      ¬ LocksAccounted s := by
  obtain ⟨past, hidle⟩ := run_idle scriptSha3 (2 ^ 64 - 4)
  have hsubmit := System.Run.step hidle (a := .submitProposal .emergency (account 0) "t" "d" (account 9)) trivial rfl
  have hsecond := System.Run.step hsubmit
    (a := .secondProposal (scriptSha3 (idString (account 0) "t" (UInt64.ofNat (2 ^ 64 - 4)))) (account 1)) trivial rfl
  have hvote := System.Run.step hsecond (a := .vote
    (scriptSha3 (idString (account 0) "t" (UInt64.ofNat (2 ^ 64 - 4)))) (account 2) .aye 100 .locked1x) trivial rfl
  refine ⟨_, _, hvote, ?_, ?_, fun haccounted => ?_⟩
  · decide +kernel
  · decide +kernel
  · exact absurd (haccounted.equal (account 2)) (by decide +kernel)

end WarmLogic.Governance.Voting
