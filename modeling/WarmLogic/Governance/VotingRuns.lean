/-
# WarmLogic.Governance.VotingRuns — what runs of the voting engine do to its proposals.

Two things one would like to rely on, and when one can. The stake voted on a proposal should not exceed the stake that
is eligible; but `vote` compares a stake with the total of the system less what this one voter has locked, so several
voters can each state all of it (`stake_bounded_iff`). And a proposal should not be lost; but its id is the hash of
proposer, title and epoch only, and a second submission with these puts a fresh proposal over the first
(`submission_keeps_iff`). `ProposalWrite` says once which proposal a call can write under which id.

Why a register bounds the stakes: a voter votes once on a proposal and with its share at most, so the votes on a
proposal are of different accounts, and their stakes add up to no more than the shares of these accounts
(`Shared.stakeCast_le`). Without a register the code has no such bound: what it checks is a bound for one voter. Why a
submission can only lose the proposal of its own id: the proposals are kept under their ids (`IdsMatch`), and the
hashed string gives proposer, title and epoch back.
-/
import WarmLogic.Governance.Delegation
import WarmLogic.Lib.Binary64
import Mathlib.Algebra.BigOperators.Group.Finset.Piecewise
import Mathlib.Algebra.Order.BigOperators.Group.Finset
import Mathlib.Tactic.Linarith

namespace WarmLogic.Governance.Voting

open WarmLogic.Lib
open WarmLogic.Ledger (Bytes utf8 utf8_inj)

variable {sha3 : Bytes → Id} {e e' : ConvictionVotingEngine}

/-! ## What a call writes -/

/-- The fields of a proposal that are given once and for all. -/
structure Amends (old new : Proposal) : Prop where
  id : new.id = old.id
  proposalType : new.proposalType = old.proposalType
  proposer : new.proposer = old.proposer
  title : new.title = old.title
  description : new.description = old.description
  actionHash : new.actionHash = old.actionHash
  createdEpoch : new.createdEpoch = old.createdEpoch
  totalEligibleStake : new.totalEligibleStake = old.totalEligibleStake

/-- A second amends the proposal. -/
theorem addSecond_amends {p p' : Proposal} {seconder : Id} (h : p.addSecond seconder = .ok p') :
    Amends p p' ∧ p'.votes = p.votes ∧ p'.votingStartEpoch = p.votingStartEpoch := by
  unfold Proposal.addSecond at h
  dsimp only at h
  split at h
  · cases h
  · split at h
    · cases h
    · split at h
      · cases h
      · cases h
        split
        · exact ⟨⟨rfl, rfl, rfl, rfl, rfl, rfl, rfl, rfl⟩, rfl, rfl⟩
        · exact ⟨⟨rfl, rfl, rfl, rfl, rfl, rfl, rfl, rfl⟩, rfl, rfl⟩

/-- So does the end of its voting. -/
theorem finalize_amends {p p' : Proposal} {epoch : UInt64} (h : p.finalize epoch = .ok p') :
    Amends p p' ∧ p'.votes = p.votes ∧ p'.votingStartEpoch = p.votingStartEpoch := by
  unfold Proposal.finalize at h
  split at h
  · cases h
  · split at h
    · cases h
    · cases h
      exact ⟨⟨rfl, rfl, rfl, rfl, rfl, rfl, rfl, rfl⟩, rfl, rfl⟩

/-- The checks of `vote` and `cast_vote`, on a proposal. -/
structure Accepts (e : ConvictionVotingEngine) (p : Proposal) (voterId : Id) (stake : UInt64) : Prop where
  available : stake ≤ saturatingSub e.totalStake (e.getLockedStake voterId)
  status : p.status = .voting
  open_ : e.currentEpoch ≤ p.votingEnd
  first : ∀ v ∈ p.votes, v.voterId ≠ voterId

/-- The vote that is recorded. -/
def recorded (e : ConvictionVotingEngine) (voterId : Id) (direction : VoteDirection) (stake : UInt64)
    (conviction : Conviction) : Vote := ⟨voterId, direction, stake, conviction, e.currentEpoch, []⟩

/-- A vote on a proposal in its voting, by a new voter, is added. -/
theorem castVote_eq {p : Proposal} {vote : Vote} {epoch : UInt64} (hstatus : p.status = .voting)
    (hopen : epoch ≤ p.votingEnd) (hfirst : ∀ v ∈ p.votes, v.voterId ≠ vote.voterId) :
    p.castVote vote epoch = .ok { p with votes := p.votes ++ [vote] } := by
  unfold Proposal.castVote
  have hany : ¬ (p.votes.any fun v => v.voterId == vote.voterId) = true := by
    rw [List.any_eq_true]
    rintro ⟨v, hv, heq⟩
    exact hfirst v hv (beq_iff_eq.mp heq)
  rw [if_neg (not_not.mpr hstatus), if_neg (UInt64.not_lt.mpr hopen), if_neg hany]

/-- A vote that is recorded has passed the checks. -/
theorem accepts_of_castVote {p p' : Proposal} {vote : Vote} {epoch : UInt64} (h : p.castVote vote epoch = .ok p') :
    p.status = .voting ∧ epoch ≤ p.votingEnd ∧ (∀ v ∈ p.votes, v.voterId ≠ vote.voterId) ∧
      p' = { p with votes := p.votes ++ [vote] } := by
  unfold Proposal.castVote at h
  split at h
  · cases h
  · rename_i hstatus
    split at h
    · cases h
    · rename_i hopen
      split at h
      · cases h
      · rename_i hany
        cases h
        refine ⟨not_not.mp hstatus, UInt64.not_lt.mp hopen, ?_, rfl⟩
        intro v hv heq
        exact hany (List.any_eq_true.mpr ⟨v, hv, beq_iff_eq.mpr heq⟩)

/-- **`ProposalWrite sha3 e op id p`** — in `e`, the call `op` puts `p` under `id`. -/
inductive ProposalWrite (sha3 : Bytes → Id) (e : ConvictionVotingEngine) : VotingOp → Id → Proposal → Prop
  /-- a fresh proposal, under its own id -/
  | submitted (proposalType : ProposalType) (proposer : Id) (title description : String) (actionHash : Id) {id : Id}
      {p : Proposal}
      (fresh : p = .new sha3 proposalType proposer title description actionHash e.currentEpoch e.totalStake)
      (id_eq : id = p.id) :
      ProposalWrite sha3 e (.submitProposal proposalType proposer title description actionHash) id p
  /-- a second, with which the voting may start, or the end of the voting -/
  | amended {op : VotingOp} {id : Id} {old p : Proposal} (held : e.proposals.lookup id = some old)
      (amends : Amends old p) (votes : p.votes = old.votes)
      (start : p.votingStartEpoch = old.votingStartEpoch ∨ p.votingStartEpoch = e.currentEpoch) :
      ProposalWrite sha3 e op id p
  | voted {id voterId : Id} {direction : VoteDirection} {stake : UInt64} {conviction : Conviction} {old : Proposal}
      (held : e.proposals.lookup id = some old) (accepts : Accepts e old voterId stake) :
      ProposalWrite sha3 e (.vote id voterId direction stake conviction) id
        { old with votes := old.votes ++ [recorded e voterId direction stake conviction] }

/-- A vote writes its proposal, or nothing. -/
theorem vote_writes (e : ConvictionVotingEngine) (id voterId : Id) (direction : VoteDirection) (stake : UInt64)
    (conviction : Conviction) :
    (e.vote id voterId direction stake conviction).1.proposals = e.proposals ∨
      ∃ p, ProposalWrite sha3 e (.vote id voterId direction stake conviction) id p ∧
        (e.vote id voterId direction stake conviction).1.proposals = e.proposals.insert id p := by
  unfold ConvictionVotingEngine.vote
  split
  · exact .inl rfl
  · rename_i havailable
    split
    · exact .inl rfl
    · rename_i old hold
      dsimp only
      split
      · exact .inl rfl
      · rename_i p hcast
        obtain ⟨hstatus, hopen, hfirst, rfl⟩ := accepts_of_castVote hcast
        exact .inr ⟨_, .voted hold ⟨UInt64.not_lt.mp havailable, hstatus, hopen, hfirst⟩, rfl⟩

/-- **One call changes the proposals by one write, or not at all.** -/
theorem call_proposals {op : VotingOp} (hstep : op.call sha3 e = some e') :
    e'.proposals = e.proposals ∨
      ∃ id p, ProposalWrite sha3 e op id p ∧ e'.proposals = e.proposals.insert id p := by
  cases op with
  | setTotalStake stake =>
      cases hstep
      exact .inl rfl
  | advanceEpoch =>
      cases hstep
      exact .inl rfl
  | submitProposal proposalType proposer title description actionHash =>
      cases hstep
      exact .inr ⟨_, _, .submitted proposalType proposer title description actionHash rfl rfl, rfl⟩
  | secondProposal proposalId seconder =>
      cases hstep
      unfold ConvictionVotingEngine.secondProposal
      split
      · exact .inl rfl
      · rename_i old hold
        split
        · exact .inl rfl
        · rename_i p hsecond
          obtain ⟨hamends, hvotes, hstart⟩ := addSecond_amends hsecond
          refine .inr ⟨_, _, .amended hold ?_ ?_ ?_, rfl⟩
          · split
            · exact ⟨hamends.1, hamends.2, hamends.3, hamends.4, hamends.5, hamends.6, hamends.7, hamends.8⟩
            · exact hamends
          · split
            · exact hvotes
            · exact hvotes
          · split
            · exact .inr rfl
            · exact .inl hstart
  | vote proposalId voterId direction stake conviction =>
      cases hstep
      exact (vote_writes e proposalId voterId direction stake conviction).imp_right fun ⟨p, hp⟩ => ⟨proposalId, p, hp⟩
  | delegate delegator target stake conviction expiresEpoch =>
      obtain ⟨⟨after, result⟩, hcall, rfl⟩ := Option.map_eq_some_iff.mp hstep
      exact .inl (delegate_rest hcall).1
  | undelegate delegator =>
      cases hstep
      exact .inl (undelegate_rest e delegator).1
  | finalizeProposal proposalId =>
      cases hstep
      unfold ConvictionVotingEngine.finalizeProposal
      split
      · exact .inl rfl
      · rename_i old hold
        split
        · exact .inl rfl
        · rename_i p hfinal
          obtain ⟨hamends, hvotes, hstart⟩ := finalize_amends hfinal
          exact .inr ⟨_, _, .amended hold hamends hvotes (.inl hstart), rfl⟩

/-- What holds of every proposal and of every write of a call holds of every proposal after it. -/
theorem forall_proposals_call {op : VotingOp} (hstep : op.call sha3 e = some e') {P : Id → Proposal → Prop}
    (h : ∀ id p, e.proposals.lookup id = some p → P id p) (hw : ∀ id p, ProposalWrite sha3 e op id p → P id p) :
    ∀ id p, e'.proposals.lookup id = some p → P id p := by
  intro id p hp
  rcases call_proposals hstep with hsame | ⟨id', p', hwrite, hins⟩
  · rw [hsame] at hp
    exact h id p hp
  · rw [hins] at hp
    by_cases hid : id = id'
    · rw [hid, Finmap.lookup_insert] at hp
      cases hp
      rw [hid]
      exact hw id' p hwrite
    · rw [Finmap.lookup_insert_of_ne _ hid] at hp
      exact h id p hp

/-! ## The stake voted on a proposal -/

/-- What the votes on a proposal add up to. -/
def stakeCast (p : Proposal) : Nat := (p.votes.map fun v => v.stake.toNat).sum

/-- On no proposal is more voted than is eligible. -/
def StakeBounded (e : ConvictionVotingEngine) : Prop :=
  ∀ id p, e.proposals.lookup id = some p → stakeCast p ≤ p.totalEligibleStake.toNat

/-- The call is not one that sets the total stake. -/
def FixedTotal : VotingOp → Prop
  | .setTotalStake _ => False
  | _ => True

/-- A vote that passes the checks of the source and takes the stake voted on its proposal above the eligible one. -/
def Overdraws (e : ConvictionVotingEngine) : VotingOp → Prop
  | .vote id voterId _ stake _ =>
      ∃ p, e.proposals.lookup id = some p ∧ Accepts e p voterId stake ∧
        p.totalEligibleStake.toNat < stakeCast p + stake.toNat
  | _ => False

/-- An engine with its total stake set, under any calls. -/
def votingRunsWith (sha3 : Bytes → Id) (total : UInt64) : System ConvictionVotingEngine VotingOp where
  init e := e = ConvictionVotingEngine.new.setTotalStake total
  step op e := op.call sha3 e

/-- One vote more adds its stake. -/
theorem stakeCast_append (p : Proposal) (vote : Vote) :
    stakeCast { p with votes := p.votes ++ [vote] } = stakeCast p + vote.stake.toNat := by
  simp [stakeCast]

/-- A saturating sum is not above the sum. -/
theorem saturatingAdd_le (a b : UInt64) : (saturatingAdd a b).toNat ≤ a.toNat + b.toNat := by
  unfold saturatingAdd
  split
  · rw [UInt64.toNat_add]
    exact Nat.mod_le _ _
  · rename_i h
    have hlast : (UInt64.ofNat (2 ^ 64 - 1)).toNat = 2 ^ 64 - 1 := by decide
    omega

/-- The saturating sum of `tally` is not above the sum. -/
theorem totalStakeVoted_le (p : Proposal) : p.totalStakeVoted.toNat ≤ stakeCast p := by
  have hfold : ∀ (votes : List Vote) (total : UInt64),
      (votes.foldl (fun total v => saturatingAdd total v.stake) total).toNat ≤
        total.toNat + (votes.map fun v => v.stake.toNat).sum := by
    intro votes
    induction votes with
    | nil =>
        intro total
        simp
    | cons v votes ih =>
        intro total
        have hrest := ih (saturatingAdd total v.stake)
        have hfirst := saturatingAdd_le total v.stake
        simp only [List.foldl_cons, List.map_cons, List.sum_cons]
        omega
  have h := hfold p.votes 0
  rwa [show (0 : UInt64).toNat = 0 from rfl, Nat.zero_add] at h

/-- Conversion and division round, but not across 1: the turnout stays a ratio. -/
theorem turnout_le_one {p : Proposal} (h : stakeCast p ≤ p.totalEligibleStake.toNat) (epoch : UInt64) :
    (p.tally epoch).turnout ≤ 1 := by
  have hvoted := (totalStakeVoted_le p).trans h
  unfold Proposal.tally
  dsimp only
  split
  · rename_i hpos
    exact Binary64.toFloat_div_toFloat_le_one hpos (UInt64.le_iff_toNat_le.mpr hvoted)
  · decide +kernel

/-- A write leaves the stake of its proposal within the eligible one, unless it is a vote that overdraws. -/
theorem ProposalWrite.bounded {op : VotingOp} {id : Id} {p : Proposal} (hw : ProposalWrite sha3 e op id p)
    (h : StakeBounded e) (hover : ¬ Overdraws e op) : stakeCast p ≤ p.totalEligibleStake.toNat := by
  cases hw with
  | submitted proposalType proposer title description actionHash fresh id_eq =>
      rw [fresh]
      exact Nat.zero_le _
  | amended held amends votes start =>
      unfold stakeCast
      rw [votes, amends.totalEligibleStake]
      exact h _ _ held
  | voted held accepts =>
      rw [stakeCast_append]
      by_contra hlt
      exact hover ⟨_, held, accepts, Nat.not_le.mp hlt⟩

/-- **The step lemma**: a call with a fixed total keeps the bound, unless it is a vote that overdraws. -/
theorem stakeBounded_step {op : VotingOp} (h : StakeBounded e) (hstep : op.call sha3 e = some e')
    (hover : ¬ Overdraws e op) : StakeBounded e' :=
  forall_proposals_call hstep h fun _ _ hw => hw.bounded h hover

/-- A vote that overdraws is recorded. -/
theorem not_stakeBounded_of_overdraws {op : VotingOp} (hstep : op.call sha3 e = some e') (hover : Overdraws e op) :
    ¬ StakeBounded e' := by
  match op, hover with
  | .vote id voterId direction stake conviction, ⟨p, hp, haccepts, hlt⟩ =>
      cases hstep
      intro hbounded
      have hcast : p.castVote (recorded e voterId direction stake conviction) e.currentEpoch = .ok _ :=
        castVote_eq haccepts.status haccepts.open_ haccepts.first
      have hlookup : (e.vote id voterId direction stake conviction).1.proposals.lookup id =
          some { p with votes := p.votes ++ [recorded e voterId direction stake conviction] } := by
        unfold recorded at hcast ⊢
        unfold ConvictionVotingEngine.vote
        rw [if_neg (UInt64.not_lt.mpr haccepts.available)]
        simp only [hp, hcast]
        exact Finmap.lookup_insert _
      have hle := hbounded id _ hlookup
      rw [stakeCast_append] at hle
      exact Nat.not_lt.mpr hle hlt

/-! ### Stakes out of a register -/

/-- The stakes that votes state are those of a register of accounts. -/
def WithinRegister (share : Id → Nat) : VotingOp → Prop
  | .vote _ voterId _ stake _ => stake.toNat ≤ share voterId
  | _ => True

/-- The votes on a proposal are of different accounts, each with its share at most. -/
structure Shared (share : Id → Nat) (p : Proposal) : Prop where
  different : (p.votes.map (·.voterId)).Nodup
  within : ∀ v ∈ p.votes, v.stake.toNat ≤ share v.voterId

/-- **Votes of different accounts within their shares** add up to the total at most. -/
theorem Shared.stakeCast_le {share : Id → Nat} {total : Nat} (hshare : ∀ s : Finset Id, ∑ a ∈ s, share a ≤ total)
    {p : Proposal} (h : Shared share p) : stakeCast p ≤ total := by
  calc stakeCast p ≤ (p.votes.map fun v => share v.voterId).sum := List.sum_le_sum h.within
    _ = ((p.votes.map (·.voterId)).map share).sum := by rw [List.map_map]; rfl
    _ = ∑ a ∈ (p.votes.map (·.voterId)).toFinset, share a := (List.sum_toFinset share h.different).symm
    _ ≤ total := hshare _

/-- A write keeps the votes of its proposal within the shares. -/
theorem ProposalWrite.shared {share : Id → Nat} {op : VotingOp} {id : Id} {p : Proposal}
    (hw : ProposalWrite sha3 e op id p) (h : ∀ id p, e.proposals.lookup id = some p → Shared share p)
    (hop : WithinRegister share op) : Shared share p := by
  cases hw with
  | submitted proposalType proposer title description actionHash fresh id_eq =>
      rw [fresh]
      exact ⟨List.nodup_nil, fun v hv => absurd hv List.not_mem_nil⟩
  | amended held amends votes start =>
      have hold := h _ _ held
      exact ⟨votes ▸ hold.different, votes ▸ hold.within⟩
  | @voted id voterId direction stake conviction old held accepts =>
      have hold := h _ _ held
      constructor
      · rw [List.map_append, List.nodup_append]
        refine ⟨hold.different, List.nodup_singleton _, fun a ha b hb hab => ?_⟩
        obtain ⟨v, hv, rfl⟩ := List.mem_map.mp ha
        rw [List.mem_singleton.mp hb] at hab
        exact accepts.first v hv hab
      · intro v hv
        rcases List.mem_append.mp hv with hv | hv
        · exact hold.within v hv
        · rw [List.mem_singleton.mp hv]
          exact hop

/-- What a run with a fixed total keeps, if its stakes are out of a register. -/
structure Registered (share : Id → Nat) (total : UInt64) (e : ConvictionVotingEngine) : Prop where
  total_eq : e.totalStake = total
  eligible : ∀ id p, e.proposals.lookup id = some p → p.totalEligibleStake = total
  shared : ∀ id p, e.proposals.lookup id = some p → Shared share p

/-- A call that does not set the total leaves it. -/
theorem call_totalStake {op : VotingOp} (hop : FixedTotal op) (hstep : op.call sha3 e = some e') :
    e'.totalStake = e.totalStake := by
  cases op with
  | setTotalStake stake => exact hop.elim
  | advanceEpoch =>
      cases hstep
      rfl
  | submitProposal proposalType proposer title description actionHash =>
      cases hstep
      rfl
  | secondProposal proposalId seconder =>
      cases hstep
      exact (secondProposal_rest e proposalId seconder).2
  | vote proposalId voterId direction stake conviction =>
      cases hstep
      exact (vote_rest e proposalId voterId direction stake conviction).2
  | delegate delegator target stake conviction expiresEpoch =>
      obtain ⟨⟨after, result⟩, hcall, rfl⟩ := Option.map_eq_some_iff.mp hstep
      exact (delegate_rest hcall).2
  | undelegate delegator =>
      cases hstep
      exact (undelegate_rest e delegator).2
  | finalizeProposal proposalId =>
      cases hstep
      exact (finalizeProposal_rest e proposalId).2

/-- **The step lemma for stakes out of a register.** -/
theorem Registered.step {share : Id → Nat} {total : UInt64} (h : Registered share total e) {op : VotingOp}
    (hfixed : FixedTotal op) (hop : WithinRegister share op) (hstep : op.call sha3 e = some e') :
    Registered share total e' := by
  refine ⟨(call_totalStake hfixed hstep).trans h.total_eq, ?_, ?_⟩
  · refine forall_proposals_call hstep h.eligible fun id p hw => ?_
    cases hw with
    | submitted proposalType proposer title description actionHash fresh id_eq =>
        rw [fresh]
        exact h.total_eq
    | amended held amends votes start => exact amends.totalEligibleStake.trans (h.eligible _ _ held)
    | @voted id voterId direction stake conviction old held accepts => exact h.eligible id old held
  · exact forall_proposals_call hstep h.shared fun id p hw => hw.shared h.shared hop

/-! ### The result -/

/-- **When the voted stake is bounded.** In every run with a fixed total stake: as long as no accepted vote overdraws
its proposal, the stakes of the votes on each proposal sum to at most its eligible stake and the turnout is at most 1;
from each state in which that holds, exactly the calls that overdraw end it; and it holds throughout if the votes state
no more than the shares of a register that sums to at most the total. -/
theorem stake_bounded_iff (sha3 : Bytes → Id) (total : UInt64) :
    (∀ h, (votingRunsWith sha3 total).Run (fun op e => FixedTotal op ∧ ¬ Overdraws e op) h →
      ∀ e ∈ h, ∀ id p, e.proposals.lookup id = some p →
        stakeCast p ≤ p.totalEligibleStake.toNat ∧ ∀ epoch, (p.tally epoch).turnout ≤ 1) ∧
    (∀ e op e', StakeBounded e → op.call sha3 e = some e' → (StakeBounded e' ↔ ¬ Overdraws e op)) ∧
    ∀ share : Id → Nat, (∀ s : Finset Id, ∑ a ∈ s, share a ≤ total.toNat) →
      ∀ h, (votingRunsWith sha3 total).Run (fun op _ => FixedTotal op ∧ WithinRegister share op) h →
      ∀ e ∈ h, StakeBounded e := by
  refine ⟨fun h hrun e he => ?_, fun e op e' hbounded hstep => ?_, fun share hshare h hrun e he => ?_⟩
  · obtain ⟨past, -, hpast⟩ := hrun.exists_suffix he
    have hbounded : StakeBounded e := by
      refine System.Reachable.invariant (P := StakeBounded) ?_ ?_ ⟨past, hpast⟩
      · rintro e rfl id p hp
        cases hp
      · intro e op e' he hok hstep
        exact stakeBounded_step he hstep hok.2
    exact fun id p hp => ⟨hbounded id p hp, turnout_le_one (hbounded id p hp)⟩
  · constructor
    · intro hafter hover
      exact not_stakeBounded_of_overdraws hstep hover hafter
    · exact stakeBounded_step hbounded hstep
  · obtain ⟨past, -, hpast⟩ := hrun.exists_suffix he
    have hregistered : Registered share total e := by
      refine System.Reachable.invariant (P := Registered share total) ?_ ?_ ⟨past, hpast⟩
      · rintro e rfl
        refine ⟨rfl, ?_, ?_⟩
        · intro id p hp
          cases hp
        · intro id p hp
          cases hp
      · intro e op e' he hok hstep
        exact he.step hok.1 hok.2 hstep
    intro id p hp
    rw [hregistered.eligible id p hp]
    exact (hregistered.shared id p hp).stakeCast_le hshare

/-- The id of the proposal of the scripts. -/
def scriptId : Id := scriptSha3 (idString (account 0) "t" 0)

/-- The proposal of the scripts, submitted and seconded; the total stake is 100. -/
def openForVotes : ConvictionVotingEngine :=
  (((ConvictionVotingEngine.new.setTotalStake 100).submitProposal scriptSha3 .emergency (account 0) "t" "d"
    (account 9)).1.secondProposal scriptId (account 1)).1

/-- The run to it, under any guard that lets submissions and seconds through. -/
theorem run_openForVotes (ok : VotingOp → ConvictionVotingEngine → Prop)
    (hsubmit : ∀ proposalType proposer title description actionHash e,
      ok (.submitProposal proposalType proposer title description actionHash) e)
    (hsecond : ∀ proposalId seconder e, ok (.secondProposal proposalId seconder) e) :
    ∃ past, (votingRunsWith scriptSha3 100).Run ok (openForVotes :: past) :=
  ⟨_, .step (.step (.init rfl) (a := .submitProposal .emergency (account 0) "t" "d" (account 9))
    (hsubmit _ _ _ _ _ _) rfl) (a := .secondProposal scriptId (account 1)) (hsecond _ _ _) rfl⟩

/-- Account 2 holds 60 of the stake and account 3 the other 40. -/
def twoShares (a : Id) : Nat := if a = account 2 then 60 else if a = account 3 then 40 else 0

/-- The shares add up to the total. -/
theorem sum_twoShares_le (s : Finset Id) : ∑ a ∈ s, twoShares a ≤ 100 := by
  have hsplit : ∀ a, twoShares a = (if a = account 2 then 60 else 0) + if a = account 3 then 40 else 0 := by
    intro a
    unfold twoShares
    by_cases h : a = account 2
    · have hne : account 2 ≠ account 3 := by decide +kernel
      simp [h, hne]
    · simp [h]
  simp only [hsplit, Finset.sum_add_distrib, Finset.sum_ite_eq']
  split <;> split <;> decide

/-- The proposal of the scripts after the votes of both accounts, each with all it holds. -/
def bothVoted : ConvictionVotingEngine :=
  ((openForVotes.vote scriptId (account 2) .aye 60 .none).1.vote scriptId (account 3) .nay 40 .none).1

/-- Nothing overdraws where no proposal under the id has less left than the stake. -/
theorem not_overdraws_of_lookup {id voterId : Id} {direction : VoteDirection} {stake : UInt64} {conviction : Conviction}
    (h : (e.proposals.lookup id).any (fun p => decide (p.totalEligibleStake.toNat < stakeCast p + stake.toNat)) = false) :
    ¬ Overdraws e (.vote id voterId direction stake conviction) := by
  rintro ⟨p, hp, -, hlt⟩
  rw [hp] at h
  exact absurd hlt (of_decide_eq_false h)

/-- Two accounts vote with all of the stake between them: what is voted is the eligible stake, and the turnout is 1. -/
theorem stake_bounded_iff_two_accounts :
    (∃ past, (votingRunsWith scriptSha3 100).Run (fun op e => FixedTotal op ∧ ¬ Overdraws e op) (bothVoted :: past) ∧
      ∀ id p, bothVoted.proposals.lookup id = some p →
        stakeCast p ≤ p.totalEligibleStake.toNat ∧ ∀ epoch, (p.tally epoch).turnout ≤ 1) ∧
    ∃ past, (votingRunsWith scriptSha3 100).Run (fun op _ => FixedTotal op ∧ WithinRegister twoShares op)
        (bothVoted :: past) ∧
      StakeBounded bothVoted := by
  have hfixed : ∀ voterId direction stake, FixedTotal (.vote scriptId voterId direction stake .none) :=
    fun _ _ _ => trivial
  constructor
  · obtain ⟨past, hopen⟩ := run_openForVotes (fun op e => FixedTotal op ∧ ¬ Overdraws e op)
      (fun _ _ _ _ _ _ => ⟨trivial, fun h => h⟩) (fun _ _ _ => ⟨trivial, fun h => h⟩)
    have hfirst := System.Run.step hopen (a := .vote scriptId (account 2) .aye 60 .none)
      ⟨hfixed _ _ _, not_overdraws_of_lookup (by decide +kernel)⟩ rfl
    have hsecond := System.Run.step hfirst (a := .vote scriptId (account 3) .nay 40 .none)
      ⟨hfixed _ _ _, not_overdraws_of_lookup (by decide +kernel)⟩ rfl
    exact ⟨_, hsecond, (stake_bounded_iff scriptSha3 100).1 _ hsecond _ List.mem_cons_self⟩
  · obtain ⟨past, hopen⟩ := run_openForVotes (fun op _ => FixedTotal op ∧ WithinRegister twoShares op)
      (fun _ _ _ _ _ _ => ⟨trivial, trivial⟩) (fun _ _ _ => ⟨trivial, trivial⟩)
    have hwithin : WithinRegister twoShares (.vote scriptId (account 2) .aye 60 .none) ∧
        WithinRegister twoShares (.vote scriptId (account 3) .nay 40 .none) := by
      show (60 : UInt64).toNat ≤ twoShares (account 2) ∧ (40 : UInt64).toNat ≤ twoShares (account 3)
      decide +kernel
    have hfirst := System.Run.step hopen (a := .vote scriptId (account 2) .aye 60 .none) ⟨hfixed _ _ _, hwithin.1⟩ rfl
    have hsecond := System.Run.step hfirst (a := .vote scriptId (account 3) .nay 40 .none) ⟨hfixed _ _ _, hwithin.2⟩ rfl
    exact ⟨_, hsecond, (stake_bounded_iff scriptSha3 100).2.2 _ sum_twoShares_le _ hsecond _ List.mem_cons_self⟩

/-- **Two voters can each vote with all the stake there is.** -/
theorem stake_voted_twice :
    ∃ past, (votingRunsWith scriptSha3 100).Run (fun op _ => FixedTotal op)
        (((openForVotes.vote scriptId (account 2) .aye 100 .none).1.vote scriptId (account 3) .aye 100 .none).1 :: past) ∧
      ∃ p, ((openForVotes.vote scriptId (account 2) .aye 100 .none).1.vote scriptId (account 3) .aye 100
          .none).1.proposals.lookup scriptId = some p ∧
        ¬ stakeCast p ≤ p.totalEligibleStake.toNat ∧ ¬ (p.tally 0).turnout ≤ 1 := by
  obtain ⟨past, hopen⟩ := run_openForVotes (fun op _ => FixedTotal op) (fun _ _ _ _ _ _ => trivial)
    (fun _ _ _ => trivial)
  have hfixed : ∀ voter, FixedTotal (.vote scriptId voter .aye 100 .none) := fun _ => trivial
  have hfirst := System.Run.step hopen (hfixed (account 2)) rfl
  have hany : (((openForVotes.vote scriptId (account 2) .aye 100 .none).1.vote scriptId (account 3) .aye 100
      .none).1.proposals.lookup scriptId).any (fun p => decide (¬ stakeCast p ≤ p.totalEligibleStake.toNat ∧
        ¬ (p.tally 0).turnout ≤ 1)) = true := by
    decide +kernel
  obtain ⟨p, hp, hover⟩ := (Option.any_eq_true _ _).mp hany
  exact ⟨_, .step hfirst (hfixed (account 3)) rfl, p, hp, of_decide_eq_true hover⟩

/-! ## Submissions over existing proposals -/

/-- What `submit_proposal` is given. -/
structure Submission where
  proposalType : ProposalType
  proposer : Id
  title : String
  description : String
  actionHash : Id
  deriving DecidableEq

/-- The engine after a submission. -/
def Submission.applyTo (sha3 : Bytes → Id) (s : Submission) (e : ConvictionVotingEngine) : ConvictionVotingEngine :=
  (e.submitProposal sha3 s.proposalType s.proposer s.title s.description s.actionHash).1

/-- The id it gets, at an epoch. -/
def Submission.id (sha3 : Bytes → Id) (s : Submission) (epoch : UInt64) : Id := sha3 (idString s.proposer s.title epoch)

/-- The framing of the hashed string gives its parts back: the proposer has 32 bytes, the epoch the last 8. -/
theorem idString_inj {proposer proposer' : Id} {title title' : String} {epoch epoch' : UInt64} :
    idString proposer title epoch = idString proposer' title' epoch' ↔
      proposer = proposer' ∧ title = title' ∧ epoch = epoch' := by
  constructor
  · intro h
    unfold idString at h
    obtain ⟨hfront, hepoch⟩ := List.append_inj' h (by simp)
    obtain ⟨hproposer, htitle⟩ := List.append_inj hfront (by simp)
    refine ⟨Vector.toList_inj.mp hproposer, utf8_inj.mp htitle, ?_⟩
    have hnat := congrArg ofLeBytes hepoch
    have hlt : ∀ n : UInt64, n.toNat < 256 ^ 8 := fun n => n.toNat_lt
    rw [ofLeBytes_leBytes_of_lt (hlt _), ofLeBytes_leBytes_of_lt (hlt _)] at hnat
    exact UInt64.toNat_inj.mp hnat
  · rintro ⟨rfl, rfl, rfl⟩
    rfl

/-- Every proposal is under the id its proposer, title and epoch give. -/
def IdsMatch (sha3 : Bytes → Id) (e : ConvictionVotingEngine) : Prop :=
  ∀ id p, e.proposals.lookup id = some p → id = sha3 (idString p.proposer p.title p.createdEpoch)

/-- **Every proposal stays under its id**, as no call changes proposer, title or epoch. -/
theorem idsMatch_of_reachable (h : (votingRuns sha3).Reachable (fun _ _ => True) e) : IdsMatch sha3 e := by
  refine System.Reachable.invariant (P := IdsMatch sha3) ?_ ?_ h
  · rintro e rfl id p hp
    cases hp
  · intro e op e' he _ hstep
    refine forall_proposals_call hstep he fun id p hw => ?_
    cases hw with
    | submitted proposalType proposer title description actionHash fresh id_eq =>
        rw [id_eq, fresh]
        rfl
    | amended held amends votes start =>
        rw [amends.proposer, amends.title, amends.createdEpoch]
        exact he _ _ held
    | @voted id voterId direction stake conviction old held accepts => exact he id old held

/-- The parts of a proposal that a submission must not touch are the same. -/
structure SameRecord (p p' : Proposal) : Prop where
  proposalType : p'.proposalType = p.proposalType
  actionHash : p'.actionHash = p.actionHash
  description : p'.description = p.description
  seconds : p'.seconds = p.seconds
  votes : p'.votes = p.votes
  status : p'.status = p.status

/-- No existing proposal is lost or altered. -/
def KeepsProposals (e e' : ConvictionVotingEngine) : Prop :=
  ∀ id p, e.proposals.lookup id = some p → ∃ p', e'.proposals.lookup id = some p' ∧ SameRecord p p'

/-- There is a proposal with the proposer, the title and the epoch of the submission, and it is not still as this
submission would make it. -/
def Overwrites (s : Submission) (e : ConvictionVotingEngine) : Prop :=
  ∃ id p, e.proposals.lookup id = some p ∧ p.proposer = s.proposer ∧ p.title = s.title ∧
    p.createdEpoch = e.currentEpoch ∧
    ¬ (p.proposalType = s.proposalType ∧ p.actionHash = s.actionHash ∧ p.description = s.description ∧
      p.seconds = [] ∧ p.votes = [] ∧ p.status = .pending)

/-- The string of the submission collides with that of no existing proposal. -/
def CollisionFree (sha3 : Bytes → Id) (s : Submission) (e : ConvictionVotingEngine) : Prop :=
  ∀ id p, e.proposals.lookup id = some p →
    sha3 (idString s.proposer s.title e.currentEpoch) = sha3 (idString p.proposer p.title p.createdEpoch) →
    idString s.proposer s.title e.currentEpoch = idString p.proposer p.title p.createdEpoch

/-- A submission keeps the others, so it is about the proposal of its own id. -/
theorem keepsProposals_iff (hids : IdsMatch sha3 e) {s : Submission} (hcf : CollisionFree sha3 s e) :
    KeepsProposals e (s.applyTo sha3 e) ↔ ¬ Overwrites s e := by
  have hlookup : ∀ id, id ≠ s.id sha3 e.currentEpoch → (s.applyTo sha3 e).proposals.lookup id = e.proposals.lookup id :=
    fun id hid => Finmap.lookup_insert_of_ne _ hid
  have hfresh : (s.applyTo sha3 e).proposals.lookup (s.id sha3 e.currentEpoch) = some (Proposal.new sha3 s.proposalType
      s.proposer s.title s.description s.actionHash e.currentEpoch e.totalStake) := Finmap.lookup_insert _
  constructor
  · rintro hkeeps ⟨id, p, hp, hproposer, htitle, hepoch, hdiffers⟩
    have hid : id = s.id sha3 e.currentEpoch := by
      rw [hids id p hp, hproposer, htitle, hepoch]
      rfl
    obtain ⟨p', hp', hsame⟩ := hkeeps id p hp
    rw [hid, hfresh] at hp'
    cases hp'
    exact hdiffers ⟨hsame.proposalType.symm, hsame.actionHash.symm, hsame.description.symm, hsame.seconds.symm,
      hsame.votes.symm, hsame.status.symm⟩
  · intro hover id p hp
    by_cases hid : id = s.id sha3 e.currentEpoch
    · -- the same id: the same proposer, title and epoch
      obtain ⟨hproposer, htitle, hepoch⟩ := idString_inj.mp (hcf id p hp (hid.symm.trans (hids id p hp)))
      have hpristine : p.proposalType = s.proposalType ∧ p.actionHash = s.actionHash ∧
          p.description = s.description ∧ p.seconds = [] ∧ p.votes = [] ∧ p.status = .pending := by
        by_contra hdiffers
        exact hover ⟨id, p, hp, hproposer.symm, htitle.symm, hepoch.symm, hdiffers⟩
      obtain ⟨htype, haction, hdescription, hseconds, hvotes, hstatus⟩ := hpristine
      refine ⟨_, by rw [hid]; exact hfresh, ?_⟩
      exact ⟨htype.symm, haction.symm, hdescription.symm, hseconds.symm, hvotes.symm, hstatus.symm⟩
    · exact ⟨p, by rw [hlookup id hid, hp], ⟨rfl, rfl, rfl, rfl, rfl, rfl⟩⟩

/-- **When a submission keeps the proposals.** In every reachable engine, SHA3-256 without a collision among the strings
at hand: a submission leaves every existing proposal as it is exactly if it does not overwrite one, i.e. unless its
proposer, title and epoch are those of a proposal with another type, action or description, or one that has moved on
since; and of two different submissions the ids differ exactly if not only type, description and action differ. -/
theorem submission_keeps_iff (h : (votingRuns sha3).Reachable (fun _ _ => True) e) (s : Submission)
    (hcf : CollisionFree sha3 s e) :
    (KeepsProposals e (s.applyTo sha3 e) ↔ ¬ Overwrites s e) ∧
    ∀ (s' : Submission) (epoch epoch' : UInt64),
      (s.id sha3 epoch = s'.id sha3 epoch' →
        idString s.proposer s.title epoch = idString s'.proposer s'.title epoch') →
      ((s ≠ s' ∨ epoch ≠ epoch' → s.id sha3 epoch ≠ s'.id sha3 epoch') ↔
        (s.proposer = s'.proposer → s.title = s'.title → epoch = epoch' → s = s')) := by
  refine ⟨keepsProposals_iff (idsMatch_of_reachable h) hcf, ?_⟩
  intro s' epoch epoch' hpair
  have hid : s.id sha3 epoch = s'.id sha3 epoch' ↔ s.proposer = s'.proposer ∧ s.title = s'.title ∧ epoch = epoch' := by
    rw [← idString_inj]
    exact ⟨hpair, fun hstrings => congrArg sha3 hstrings⟩
  constructor
  · intro hdiffer hproposer htitle hepoch
    by_contra hne
    exact hdiffer (.inl hne) (hid.mpr ⟨hproposer, htitle, hepoch⟩)
  · intro hsame hne heq
    obtain ⟨hproposer, htitle, hepoch⟩ := hid.mp heq
    rcases hne with hne | hne
    · exact hne (hsame hproposer htitle hepoch)
    · exact hne hepoch

/-- The proposal of the scripts with a vote on it. -/
def votedOn : ConvictionVotingEngine := (openForVotes.vote scriptId (account 2) .aye 40 .none).1

/-- It is the state of a run. -/
theorem reachable_votedOn : (votingRuns scriptSha3).Reachable (fun _ _ => True) votedOn := by
  have htotal : (votingRuns scriptSha3).Run (fun _ _ => True) [.setTotalStake .new 100, .new] :=
    .step (.init rfl) (a := .setTotalStake 100) trivial rfl
  have hsubmit := System.Run.step htotal (a := .submitProposal .emergency (account 0) "t" "d" (account 9)) trivial rfl
  have hsecond := System.Run.step hsubmit (a := .secondProposal scriptId (account 1)) trivial rfl
  exact ⟨_, .step hsecond (a := .vote scriptId (account 2) .aye 40 .none) trivial rfl⟩

/-- A submission with another title keeps the proposal that is voted on. -/
theorem submission_keeps_iff_other_title :
    KeepsProposals votedOn (Submission.applyTo scriptSha3 ⟨.spending, account 0, "u", "d", account 9⟩ votedOn) := by
  refine ((submission_keeps_iff reachable_votedOn _ ?_).1).mpr ?_
  · intro id p hp heq
    have hdiffer : ∀ x ∈ votedOn.proposals.entries, scriptSha3 (idString (account 0) "u" votedOn.currentEpoch) ≠
        scriptSha3 (idString x.2.proposer x.2.title x.2.createdEpoch) := by
      decide +kernel
    exact absurd heq (hdiffer ⟨id, p⟩ (Finmap.lookup_eq_some_iff.mp hp))
  · rintro ⟨id, p, hp, -, htitle, -⟩
    have hdiffer : ∀ x ∈ votedOn.proposals.entries, x.2.title ≠ "u" := by
      decide +kernel
    exact hdiffer ⟨id, p⟩ (Finmap.lookup_eq_some_iff.mp hp) htitle

/-- **A submission replaces a proposal that is voted on.** Proposer, title and epoch are the same, the type and the
action are others: the id is the same, and the vote, the second and the status are gone. -/
theorem submission_overwrites_votes :
    (votingRuns scriptSha3).Reachable (fun _ _ => True) votedOn ∧
    CollisionFree scriptSha3 ⟨.constitutional, account 0, "t", "e", account 8⟩ votedOn ∧
    ∃ p p', votedOn.proposals.lookup scriptId = some p ∧
      (Submission.applyTo scriptSha3 ⟨.constitutional, account 0, "t", "e", account 8⟩ votedOn).proposals.lookup scriptId =
        some p' ∧
      p.proposalType = .emergency ∧ p.status = .voting ∧ p.votes ≠ [] ∧
      p'.proposalType = .constitutional ∧ p'.status = .pending ∧ p'.votes = [] := by
  refine ⟨reachable_votedOn, ?_, ?_⟩
  · intro id p hp _
    have hsame : ∀ x ∈ votedOn.proposals.entries, idString (account 0) "t" votedOn.currentEpoch =
        idString x.2.proposer x.2.title x.2.createdEpoch := by
      decide +kernel
    exact hsame ⟨id, p⟩ (Finmap.lookup_eq_some_iff.mp hp)
  · have hany : ((votedOn.proposals.lookup scriptId).any fun p =>
        ((Submission.applyTo scriptSha3 ⟨.constitutional, account 0, "t", "e", account 8⟩
          votedOn).proposals.lookup scriptId).any fun p' =>
            decide (p.proposalType = .emergency ∧ p.status = .voting ∧ p.votes ≠ [] ∧
              p'.proposalType = .constitutional ∧ p'.status = .pending ∧ p'.votes = [])) = true := by
      decide +kernel
    obtain ⟨p, hp, hany⟩ := (Option.any_eq_true _ _).mp hany
    obtain ⟨p', hp', hall⟩ := (Option.any_eq_true _ _).mp hany
    exact ⟨p, p', hp, hp', of_decide_eq_true hall⟩

end WarmLogic.Governance.Voting
