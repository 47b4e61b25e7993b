/-
# WarmLogic.Governance.VotingClose — the last epoch of a vote, and what the early bonus is worth at it.

`cast_vote` refuses once the epoch is past the end of the voting, `finalize` as long as it is before it. At the end
itself both go through: a vote that comes before the finalization counts, the same vote after it is refused, and the
two orders can give different outcomes (`vote_finalize_overlap_iff`).

The early bonus is a ratio of what is left of the voting to what was left when the vote was cast, both taken at the
epoch of the tally. Nothing is left at any epoch at which `finalize` goes through, so the tally it uses knows no bonus
(`no_bonus_when_final`); before that the ratio is greater for the LATER of two votes.
-/
import WarmLogic.Governance.VotingRuns
import Mathlib.Algebra.Order.Field.Rat
import Mathlib.Tactic.Positivity

namespace WarmLogic.Governance.Voting

open WarmLogic.Lib

variable {p p' : Proposal} {vote : Vote} {epoch : UInt64}

/-! ## When the two calls go through -/

/-- The status that the tally of an epoch gives. -/
def Proposal.verdict (p : Proposal) (epoch : UInt64) : ProposalStatus :=
  if (p.tally epoch).quorumMet && (p.tally epoch).thresholdMet then .passed else .rejected

/-- At a threshold the rounding decides: 2747 of 4100 is 0.67, and with the multiplier 0.1 just below it. -/
example :
    ({ Proposal.new scriptSha3 .emergency (account 0) "t" "d" (account 9) 0 4100 with
        votes := [⟨account 2, .aye, 2747, .none, 0, []⟩, ⟨account 3, .nay, 1353, .none, 0, []⟩] }).verdict 3 = .rejected ∧
      ({ Proposal.new scriptSha3 .emergency (account 0) "t" "d" (account 9) 0 4100 with
        votes := [⟨account 2, .aye, 2747, .locked1x, 0, []⟩, ⟨account 3, .nay, 1353, .locked1x, 0, []⟩] }).verdict 3 =
          .passed := by
  decide +kernel

/-- The proposal with one more vote. -/
def Proposal.withVote (p : Proposal) (vote : Vote) : Proposal := { p with votes := p.votes ++ [vote] }

/-- The account has voted on the proposal. -/
def HasVoted (p : Proposal) (voterId : Id) : Prop := ∃ v ∈ p.votes, v.voterId = voterId

instance (p : Proposal) (voterId : Id) : Decidable (HasVoted p voterId) :=
  inferInstanceAs (Decidable (∃ v ∈ p.votes, v.voterId = voterId))

theorem finalize_eq_ok_iff :
    p.finalize epoch = .ok p' ↔
      p.status = .voting ∧ p.votingEnd ≤ epoch ∧ p' = { p with status := p.verdict epoch } := by
  unfold Proposal.finalize
  constructor
  · intro h
    split at h
    · cases h
    · rename_i hstatus
      split at h
      · cases h
      · rename_i hended
        cases h
        exact ⟨not_not.mp hstatus, UInt64.not_lt.mp hended, rfl⟩
  · rintro ⟨hstatus, hended, rfl⟩
    rw [if_neg (not_not.mpr hstatus), if_neg (UInt64.not_lt.mpr hended)]
    rfl

theorem castVote_eq_ok_iff :
    p.castVote vote epoch = .ok p' ↔
      p.status = .voting ∧ epoch ≤ p.votingEnd ∧ ¬ HasVoted p vote.voterId ∧ p' = p.withVote vote := by
  constructor
  · intro h
    obtain ⟨hstatus, hopen, hfirst, rfl⟩ := accepts_of_castVote h
    exact ⟨hstatus, hopen, fun ⟨v, hv, heq⟩ => hfirst v hv heq, rfl⟩
  · rintro ⟨hstatus, hopen, hfirst, rfl⟩
    exact castVote_eq hstatus hopen fun v hv heq => hfirst ⟨v, hv, heq⟩

theorem finalize_succeeds_iff :
    (∃ p', p.finalize epoch = .ok p') ↔ p.status = .voting ∧ p.votingEnd ≤ epoch := by
  simp only [finalize_eq_ok_iff]
  exact ⟨fun ⟨_, hstatus, hended, _⟩ => ⟨hstatus, hended⟩, fun ⟨hstatus, hended⟩ => ⟨_, hstatus, hended, rfl⟩⟩

theorem castVote_accepts_iff :
    (∃ p', p.castVote vote epoch = .ok p') ↔
      p.status = .voting ∧ epoch ≤ p.votingEnd ∧ ¬ HasVoted p vote.voterId := by
  simp only [castVote_eq_ok_iff]
  constructor
  · rintro ⟨_, hstatus, hopen, hfirst, -⟩
    exact ⟨hstatus, hopen, hfirst⟩
  · rintro ⟨hstatus, hopen, hfirst⟩
    exact ⟨_, hstatus, hopen, hfirst, rfl⟩

/-! ## Both in one epoch -/

/-- The proposal after a call to `cast_vote`; a refused vote leaves it as it was. -/
def Proposal.afterVote (p : Proposal) (vote : Vote) (epoch : UInt64) : Proposal :=
  match p.castVote vote epoch with
  | .ok p => p
  | .error _ => p

/-- The proposal after a call to `finalize`. -/
def Proposal.afterFinalize (p : Proposal) (epoch : UInt64) : Proposal :=
  match p.finalize epoch with
  | .ok p => p
  | .error _ => p

/-- `finalize` goes through and `cast_vote` would still have taken the vote. -/
def Overlap (p : Proposal) (vote : Vote) (epoch : UInt64) : Prop :=
  (∃ p', p.finalize epoch = .ok p') ∧ ∃ p', p.castVote vote epoch = .ok p'

/-- The outcome is the same whether the vote or the finalization comes first. -/
def SameOutcome (p : Proposal) (vote : Vote) (epoch : UInt64) : Prop :=
  ((p.afterVote vote epoch).afterFinalize epoch).status = ((p.afterFinalize epoch).afterVote vote epoch).status

theorem afterFinalize_of_ended (hstatus : p.status = .voting) (hended : p.votingEnd ≤ epoch) :
    p.afterFinalize epoch = { p with status := p.verdict epoch } := by
  unfold Proposal.afterFinalize
  rw [finalize_eq_ok_iff.mpr ⟨hstatus, hended, rfl⟩]

theorem afterVote_of_accepted (hstatus : p.status = .voting) (hopen : epoch ≤ p.votingEnd)
    (hfirst : ¬ HasVoted p vote.voterId) : p.afterVote vote epoch = p.withVote vote := by
  unfold Proposal.afterVote
  rw [castVote_eq_ok_iff.mpr ⟨hstatus, hopen, hfirst, rfl⟩]

theorem afterFinalize_of_refused (h : ¬ ∃ p', p.finalize epoch = .ok p') : p.afterFinalize epoch = p := by
  unfold Proposal.afterFinalize
  cases hcall : p.finalize epoch with
  | error err => rfl
  | ok p' => exact absurd ⟨p', hcall⟩ h

theorem afterVote_of_refused (h : ¬ ∃ p', p.castVote vote epoch = .ok p') : p.afterVote vote epoch = p := by
  unfold Proposal.afterVote
  cases hcall : p.castVote vote epoch with
  | error err => rfl
  | ok p' => exact absurd ⟨p', hcall⟩ h

/-- A vote after the finalization is refused, whatever the verdict was. -/
theorem afterVote_afterFinalize (hstatus : p.status = .voting) (hended : p.votingEnd ≤ epoch) :
    ((p.afterFinalize epoch).afterVote vote epoch).status = p.verdict epoch := by
  rw [afterFinalize_of_ended hstatus hended, afterVote_of_refused]
  rw [castVote_accepts_iff]
  rintro ⟨hvoting, -⟩
  have hverdict : p.verdict epoch ≠ .voting := by
    unfold Proposal.verdict
    split <;> decide
  exact hverdict hvoting

/-- An accepted vote moves neither the status nor the end of the voting. -/
theorem afterVote_status (p : Proposal) (vote : Vote) (epoch : UInt64) :
    (p.afterVote vote epoch).status = p.status ∧ (p.afterVote vote epoch).votingEnd = p.votingEnd := by
  by_cases haccepts : ∃ p', p.castVote vote epoch = .ok p'
  · obtain ⟨hstatus, hopen, hfirst⟩ := castVote_accepts_iff.mp haccepts
    rw [afterVote_of_accepted hstatus hopen hfirst]
    exact ⟨rfl, rfl⟩
  · rw [afterVote_of_refused haccepts]
    exact ⟨rfl, rfl⟩

theorem sameOutcome_of_refused (hrefused : ¬ ∃ p', p.castVote vote epoch = .ok p') (hstatus : p.status = .voting) :
    SameOutcome p vote epoch := by
  unfold SameOutcome
  rw [afterVote_of_refused hrefused]
  by_cases hended : p.votingEnd ≤ epoch
  · rw [afterVote_afterFinalize hstatus hended, afterFinalize_of_ended hstatus hended]
  · have hnot : ¬ ∃ p', p.finalize epoch = .ok p' := fun h => hended (finalize_succeeds_iff.mp h).2
    rw [afterFinalize_of_refused hnot, afterVote_of_refused hrefused]

theorem sameOutcome_of_running (hrunning : ¬ p.votingEnd ≤ epoch) : SameOutcome p vote epoch := by
  have hnot : ¬ ∃ p', p.finalize epoch = .ok p' := fun h => hrunning (finalize_succeeds_iff.mp h).2
  have hnot' : ¬ ∃ p', (p.afterVote vote epoch).finalize epoch = .ok p' := by
    intro h
    have hended := (finalize_succeeds_iff.mp h).2
    rw [(afterVote_status p vote epoch).2] at hended
    exact hrunning hended
  unfold SameOutcome
  rw [afterFinalize_of_refused hnot, afterFinalize_of_refused hnot']

/-- Where both go through, the two orders agree exactly if the vote does not turn the verdict. -/
theorem sameOutcome_iff_verdict (hstatus : p.status = .voting) (hend : epoch = p.votingEnd)
    (hfirst : ¬ HasVoted p vote.voterId) :
    SameOutcome p vote epoch ↔ (p.withVote vote).verdict epoch = p.verdict epoch := by
  have hopen : epoch ≤ p.votingEnd := UInt64.le_of_eq hend
  have hended : p.votingEnd ≤ epoch := UInt64.le_of_eq hend.symm
  have hended' : (p.withVote vote).votingEnd ≤ epoch := hended
  unfold SameOutcome
  rw [afterVote_afterFinalize hstatus hended, afterVote_of_accepted hstatus hopen hfirst,
    afterFinalize_of_ended (p := p.withVote vote) hstatus hended']

theorem overlap_iff (hstatus : p.status = .voting) :
    Overlap p vote epoch ↔ epoch = p.votingEnd ∧ ¬ HasVoted p vote.voterId := by
  unfold Overlap
  rw [finalize_succeeds_iff, castVote_accepts_iff]
  constructor
  · rintro ⟨⟨-, hended⟩, -, hopen, hfirst⟩
    exact ⟨UInt64.le_antisymm hopen hended, hfirst⟩
  · rintro ⟨rfl, hfirst⟩
    exact ⟨⟨hstatus, UInt64.le_refl _⟩, hstatus, UInt64.le_refl _, hfirst⟩

/-- **When voting and finalizing overlap.** For every proposal in voting, every vote and every epoch: that not both
calls go through, and that the outcome does not depend on their order, holds exactly when the epoch is not the end of
the voting or the voter has already voted. The outcome alone is the same also where the late vote does not turn the
verdict. -/
theorem vote_finalize_overlap_iff (p : Proposal) (hstatus : p.status = .voting) (vote : Vote) (epoch : UInt64) :
    ((¬ Overlap p vote epoch ∧ SameOutcome p vote epoch) ↔ (epoch = p.votingEnd → HasVoted p vote.voterId)) ∧
    (SameOutcome p vote epoch ↔ (epoch = p.votingEnd → ¬ HasVoted p vote.voterId →
      (p.withVote vote).verdict epoch = p.verdict epoch)) := by
  have hsame : (epoch = p.votingEnd → HasVoted p vote.voterId) → SameOutcome p vote epoch := by
    intro h
    by_cases hended : p.votingEnd ≤ epoch
    · refine sameOutcome_of_refused (fun haccepts => ?_) hstatus
      obtain ⟨-, hopen, hfirst⟩ := castVote_accepts_iff.mp haccepts
      exact hfirst (h (UInt64.le_antisymm hopen hended))
    · exact sameOutcome_of_running hended
  refine ⟨?_, ?_⟩
  · rw [overlap_iff hstatus, not_and, not_not]
    exact ⟨fun h => h.1, fun h => ⟨h, hsame h⟩⟩
  · constructor
    · intro h hend hfirst
      exact (sameOutcome_iff_verdict hstatus hend hfirst).mp h
    · intro h
      by_cases hlate : epoch = p.votingEnd → HasVoted p vote.voterId
      · exact hsame hlate
      · rw [Classical.not_imp] at hlate
        exact (sameOutcome_iff_verdict hstatus hlate.1 hlate.2).mpr (h hlate.1 hlate.2)

/-- The proposal of the scripts at its last epoch: account 2 has voted for it with half of the stake. -/
def lastEpoch : ConvictionVotingEngine :=
  (openForVotes.vote scriptId (account 2) .aye 50 .locked1x).1.advanceEpoch.advanceEpoch.advanceEpoch

/-- The vote that account 3 casts at that epoch, against it and with all of the stake. -/
def lateVote : Vote := ⟨account 3, .nay, 100, .locked1x, 3, []⟩

theorem reachable_lastEpoch : (votingRuns scriptSha3).Reachable (fun _ _ => True) lastEpoch := by
  have htotal : (votingRuns scriptSha3).Run (fun _ _ => True) [.setTotalStake .new 100, .new] :=
    .step (.init rfl) (a := .setTotalStake 100) trivial rfl
  have hsubmit := System.Run.step htotal (a := .submitProposal .emergency (account 0) "t" "d" (account 9)) trivial rfl
  have hsecond := System.Run.step hsubmit (a := .secondProposal scriptId (account 1)) trivial rfl
  have hvote := System.Run.step hsecond (a := .vote scriptId (account 2) .aye 50 .locked1x) trivial rfl
  have hone := System.Run.step hvote (a := .advanceEpoch) trivial rfl
  have htwo := System.Run.step hone (a := .advanceEpoch) trivial rfl
  exact ⟨_, .step htwo (a := .advanceEpoch) trivial rfl⟩

/-- The proposal that stands there, as `lastEpoch` holds it. -/
theorem lastEpoch_proposal :
    ∃ p, lastEpoch.proposals.lookup scriptId = some p ∧ p.status = .voting ∧ lastEpoch.currentEpoch = p.votingEnd ∧
      ¬ HasVoted p (account 3) ∧ p.verdict 3 = .passed ∧ (p.withVote lateVote).verdict 3 = .rejected := by
  have hany : (lastEpoch.proposals.lookup scriptId).any (fun p => decide (p.status = .voting ∧
      lastEpoch.currentEpoch = p.votingEnd ∧ ¬ HasVoted p (account 3) ∧ p.verdict 3 = .passed ∧
        (p.withVote lateVote).verdict 3 = .rejected)) = true := by
    decide +kernel
  obtain ⟨p, hp, hall⟩ := (Option.any_eq_true _ _).mp hany
  exact ⟨p, hp, of_decide_eq_true hall⟩

/-- **At the last epoch the order decides.** Account 3 votes against a proposal that would pass, with all of the stake
there is: if the vote comes first the proposal is rejected, if the finalization comes first it passes and the vote is
refused. -/
theorem late_vote_decides :
    (votingRuns scriptSha3).Reachable (fun _ _ => True) lastEpoch ∧
    ∃ p, lastEpoch.proposals.lookup scriptId = some p ∧ p.status = .voting ∧
      Overlap p lateVote lastEpoch.currentEpoch ∧ ¬ SameOutcome p lateVote lastEpoch.currentEpoch ∧
      ((lastEpoch.vote scriptId (account 3) .nay 100 .locked1x).1.finalizeProposal scriptId).2 = .ok .rejected ∧
      (lastEpoch.finalizeProposal scriptId).2 = .ok .passed ∧
      ((lastEpoch.finalizeProposal scriptId).1.vote scriptId (account 3) .nay 100 .locked1x).2 =
        .error "Proposal not in voting period" := by
  obtain ⟨p, hp, hstatus, hend, hfirst, hwithout, hwith⟩ := lastEpoch_proposal
  have hepoch : lastEpoch.currentEpoch = 3 := by decide +kernel
  refine ⟨reachable_lastEpoch, p, hp, hstatus, (overlap_iff hstatus).mpr ⟨hend, hfirst⟩, ?_, ?_, ?_, ?_⟩
  · rw [sameOutcome_iff_verdict hstatus hend hfirst, hepoch, hwithout, hwith]
    decide
  · decide +kernel
  · decide +kernel
  · decide +kernel

/-- One epoch before the end the late vote is just a vote. -/
theorem vote_finalize_overlap_iff_before_end :
    ¬ Overlap { Proposal.new scriptSha3 .emergency (account 0) "t" "d" (account 9) 0 100 with status := .voting }
        lateVote 2 ∧
      SameOutcome { Proposal.new scriptSha3 .emergency (account 0) "t" "d" (account 9) 0 100 with status := .voting }
        lateVote 2 :=
  (vote_finalize_overlap_iff _ rfl lateVote 2).1.mpr fun hend => absurd hend (by decide +kernel)

/-! ## The early bonus, over exact rationals

The formulas of the source with its decimal constants, and no rounding: whether the bonus tells two votes apart is then a
question about the formula, not about its last bits. -/

/-- `multiplier`, exactly. -/
def Conviction.exactMultiplier : Conviction → ℚ
  | .none => 1 / 10
  | .locked1x => 1
  | .locked2x => 2
  | .locked3x => 3
  | .locked4x => 4
  | .locked5x => 5
  | .locked6x => 6

/-- `stake * conviction_multiplier`: the power of a vote without the bonus. -/
def Vote.basePower (v : Vote) : ℚ := v.stake.toNat * v.conviction.exactMultiplier

/-- The factor `early_bonus`. -/
def Vote.earlyBonus (v : Vote) (epoch votingEnd : UInt64) : ℚ :=
  if 0 < saturatingSub votingEnd v.castEpoch then
    1 + 2 / 10 * ((saturatingSub votingEnd epoch).toNat / (saturatingSub votingEnd v.castEpoch).toNat)
  else 1

/-- `voting_power`, exactly. -/
def Vote.exactPower (v : Vote) (epoch votingEnd : UInt64) : ℚ := v.basePower * v.earlyBonus epoch votingEnd

/-- The power of the votes in one direction, exactly. -/
def Proposal.exactPower (p : Proposal) (epoch : UInt64) (direction : VoteDirection) : ℚ :=
  ((p.votes.filter fun v => v.direction = direction).map fun v => v.exactPower epoch p.votingEnd).sum

theorem toNat_saturatingSub (a b : UInt64) : (saturatingSub a b).toNat = a.toNat - b.toNat := by
  unfold saturatingSub
  split
  · rename_i h
    exact UInt64.toNat_sub_of_le _ _ h
  · rename_i h
    rw [UInt64.le_iff_toNat_le] at h
    rw [Nat.sub_eq_zero_of_le (by omega)]
    rfl

theorem basePower_pos {v : Vote} (h : 0 < v.stake) : 0 < v.basePower := by
  have hstake : 0 < v.stake.toNat := UInt64.lt_iff_toNat_lt.mp h
  have hmult : 0 < v.conviction.exactMultiplier := by
    cases v.conviction <;> decide +kernel
  unfold Vote.basePower
  positivity

/-- Once the voting has ended nothing remains of it, and the factor is one. -/
theorem earlyBonus_of_ended (v : Vote) {votingEnd : UInt64} (h : votingEnd ≤ epoch) :
    v.earlyBonus epoch votingEnd = 1 := by
  have hzero : (saturatingSub votingEnd epoch).toNat = 0 := by
    rw [toNat_saturatingSub]
    exact Nat.sub_eq_zero_of_le (UInt64.le_iff_toNat_le.mp h)
  unfold Vote.earlyBonus
  rw [hzero, Nat.cast_zero, zero_div, mul_zero, add_zero, ite_self]

/-- While the voting runs, of two votes that have been cast the later one has the greater factor: as much remains for
both, out of a shorter time. -/
theorem earlyBonus_lt_of_running {v v' : Vote} {votingEnd : UInt64} (hrunning : epoch < votingEnd)
    (hearlier : v.castEpoch < v'.castEpoch) (hcast : v'.castEpoch ≤ epoch) :
    v.earlyBonus epoch votingEnd < v'.earlyBonus epoch votingEnd := by
  rw [UInt64.lt_iff_toNat_lt] at hrunning hearlier
  rw [UInt64.le_iff_toNat_le] at hcast
  have hduration : ∀ w : Vote, w.castEpoch.toNat < votingEnd.toNat → 0 < saturatingSub votingEnd w.castEpoch := by
    intro w hw
    rw [UInt64.lt_iff_toNat_lt, toNat_saturatingSub]
    exact Nat.sub_pos_of_lt hw
  have hremaining : (0 : ℚ) < (saturatingSub votingEnd epoch).toNat := by
    rw [toNat_saturatingSub]
    exact_mod_cast Nat.sub_pos_of_lt hrunning
  have hshort : (0 : ℚ) < (saturatingSub votingEnd v'.castEpoch).toNat := by
    rw [toNat_saturatingSub]
    exact_mod_cast Nat.sub_pos_of_lt (by omega : v'.castEpoch.toNat < votingEnd.toNat)
  have hlonger : ((saturatingSub votingEnd v'.castEpoch).toNat : ℚ) < (saturatingSub votingEnd v.castEpoch).toNat := by
    rw [toNat_saturatingSub, toNat_saturatingSub]
    exact_mod_cast (by omega : votingEnd.toNat - v'.castEpoch.toNat < votingEnd.toNat - v.castEpoch.toNat)
  have hratio := div_lt_div_of_pos_left hremaining hshort hlonger
  unfold Vote.earlyBonus
  rw [if_pos (hduration v (by omega)), if_pos (hduration v' (by omega))]
  linarith

/-- The powers that a finalization adds up carry no bonus. -/
theorem exactPower_of_ended (hended : p.votingEnd ≤ epoch) (direction : VoteDirection) :
    p.exactPower epoch direction = ((p.votes.filter fun v => v.direction = direction).map (·.basePower)).sum := by
  unfold Proposal.exactPower Vote.exactPower
  congr 1
  refine List.map_congr_left fun v _ => ?_
  rw [earlyBonus_of_ended v hended, mul_one]

/-- The same in `f64`: nothing remains, zero divided by the duration is zero, and the factor is `1.0`. -/
theorem votingPower_of_ended (v : Vote) {votingEnd : UInt64} (h : votingEnd ≤ epoch) :
    v.votingPower epoch votingEnd = v.stake.toFloat * v.conviction.multiplier * 1.0 := by
  have hzero : saturatingSub votingEnd epoch = 0 := by
    apply UInt64.toNat_inj.mp
    rw [toNat_saturatingSub]
    exact Nat.sub_eq_zero_of_le (UInt64.le_iff_toNat_le.mp h)
  unfold Vote.votingPower
  dsimp only
  rw [hzero, Binary64.toFloat_zero]
  split
  · rename_i hduration
    rw [Binary64.zero_div_toFloat hduration]
    have hfactor : (1.0 + 0.2 * 0 : Float) = 1.0 := by decide +kernel
    rw [hfactor]
  · rfl

/-- **Where a proposal is finalized there is no early bonus.** At every epoch at which `finalize` goes through, two
votes of equal stake and conviction have the same power, so the earlier one never has more, and the powers of the tally
are the sums of `stake * conviction_multiplier`; the powers in `f64` are the same as well. At an epoch before the end,
when both votes are cast, it is the earlier one that has less. -/
theorem no_bonus_when_final (hfinal : p.finalize epoch = .ok p') {v v' : Vote} (hstake : v.stake = v'.stake)
    (hpositive : 0 < v.stake) (hconviction : v.conviction = v'.conviction) (hearlier : v.castEpoch < v'.castEpoch) :
    ¬ v'.exactPower epoch p.votingEnd < v.exactPower epoch p.votingEnd ∧
    v.exactPower epoch p.votingEnd = v'.exactPower epoch p.votingEnd ∧
    (∀ direction, p.exactPower epoch direction =
      ((p.votes.filter fun v => v.direction = direction).map fun v =>
        (v.stake.toNat * v.conviction.exactMultiplier : ℚ)).sum) ∧
    v.votingPower epoch p.votingEnd = v'.votingPower epoch p.votingEnd ∧
    ∀ now, v'.castEpoch ≤ now → now < p.votingEnd →
      v.exactPower now p.votingEnd < v'.exactPower now p.votingEnd := by
  obtain ⟨-, hended, -⟩ := finalize_eq_ok_iff.mp hfinal
  have hbase : v.basePower = v'.basePower := by
    unfold Vote.basePower
    rw [hstake, hconviction]
  have hequal : v.exactPower epoch p.votingEnd = v'.exactPower epoch p.votingEnd := by
    unfold Vote.exactPower
    rw [earlyBonus_of_ended v hended, earlyBonus_of_ended v' hended, hbase]
  have hequal' : v.votingPower epoch p.votingEnd = v'.votingPower epoch p.votingEnd := by
    rw [votingPower_of_ended v hended, votingPower_of_ended v' hended, hstake, hconviction]
  refine ⟨fun h => absurd hequal (ne_of_gt h), hequal, exactPower_of_ended hended, hequal',
    fun now hcast hrunning => ?_⟩
  unfold Vote.exactPower
  rw [hbase]
  exact mul_lt_mul_of_pos_left (earlyBonus_lt_of_running hrunning hearlier hcast) (hbase ▸ basePower_pos hpositive)

/-- A proposal on which two accounts voted with the same stake, one at the first epoch and one at the last but one. -/
def earlyAndLate : Proposal :=
  { Proposal.new scriptSha3 .emergency (account 0) "t" "d" (account 9) 0 100 with
    status := .voting
    votes := [⟨account 2, .aye, 50, .locked1x, 0, []⟩, ⟨account 3, .nay, 50, .locked1x, 2, []⟩] }

/-- **The earlier of the two votes counts no more**, at any epoch at which that proposal can be finalized. -/
theorem early_vote_counts_no_more :
    (∃ p', earlyAndLate.finalize 3 = .ok p') ∧
    ∃ v ∈ earlyAndLate.votes, ∃ v' ∈ earlyAndLate.votes, v.stake = v'.stake ∧ 0 < v.stake ∧
      v.conviction = v'.conviction ∧ v.castEpoch < v'.castEpoch ∧
      ¬ v'.exactPower 3 earlyAndLate.votingEnd < v.exactPower 3 earlyAndLate.votingEnd := by
  refine ⟨finalize_succeeds_iff.mpr (by decide), ⟨account 2, .aye, 50, .locked1x, 0, []⟩, by decide +kernel,
    ⟨account 3, .nay, 50, .locked1x, 2, []⟩, by decide +kernel, rfl, by decide, rfl, by decide, ?_⟩
  decide +kernel

/-- The two votes at the epoch before the end and at the end. -/
theorem no_bonus_when_final_two_votes :
    ¬ (Vote.mk (account 3) .nay 50 .locked1x 2 []).exactPower 3 earlyAndLate.votingEnd <
        (Vote.mk (account 2) .aye 50 .locked1x 0 []).exactPower 3 earlyAndLate.votingEnd ∧
    (Vote.mk (account 2) .aye 50 .locked1x 0 []).exactPower 2 earlyAndLate.votingEnd <
        (Vote.mk (account 3) .nay 50 .locked1x 2 []).exactPower 2 earlyAndLate.votingEnd := by
  have hfinal : earlyAndLate.finalize 3 = .ok { earlyAndLate with status := earlyAndLate.verdict 3 } :=
    finalize_eq_ok_iff.mpr ⟨rfl, by decide, rfl⟩
  have hstake : (Vote.mk (account 2) .aye 50 .locked1x 0 []).stake = (Vote.mk (account 3) .nay 50 .locked1x 2 []).stake :=
    rfl
  have hlaw := no_bonus_when_final hfinal hstake (by decide) rfl (by decide)
  exact ⟨hlaw.1, hlaw.2.2.2.2 2 (by decide) (by decide)⟩

end WarmLogic.Governance.Voting
