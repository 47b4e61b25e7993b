/-
# WarmLogic.Governance.Delegation — the delegations of the voting engine stay without cycles.

Every account delegates to at most one other, so the delegations are a partial successor function (`delegateOf`) and the
check of `delegate` is a walk along its chains. Its answer is exact only on graphs without cycles, and there are only
such graphs because its answer is exact: `delegations_acyclic` proves the two together over whole runs. An overwritten
delegation is a changed successor, a revoked or expired one is a successor less.
-/
import WarmLogic.Governance.Voting

namespace WarmLogic.Governance.Voting

open WarmLogic.Lib
open WarmLogic.Ledger (Bytes)

variable {sha3 : Bytes → Id} {e e' : ConvictionVotingEngine}

/-- What is retained under a key: the value, if it passes. -/
theorem lookup_retain {β : Type} (keep : β → Bool) (m : Finmap (fun _ : Id => β)) (account : Id) :
    (retain keep m).lookup account = (m.lookup account).filter keep := by
  have hmem : ∀ value, (retain keep m).lookup account = some value ↔ (m.lookup account).filter keep = some value := by
    intro value
    rw [Finmap.lookup_eq_some_iff, Option.filter_eq_some_iff, Finmap.lookup_eq_some_iff]
    exact Multiset.mem_filter
  exact Option.ext hmem

/-! ## What a call does to the delegations -/

/-- The accounts that delegate are the keys of the map. -/
theorem mem_keys_of_delegateOf {account : Id} (h : e.delegateOf account ≠ none) : account ∈ e.delegations.keys := by
  rw [Finmap.mem_keys, ← Finmap.lookup_isSome]
  cases hlookup : e.delegations.lookup account with
  | none =>
      unfold ConvictionVotingEngine.delegateOf at h
      rw [hlookup] at h
      exact absurd rfl h
  | some d => rfl

/-- In a graph without cycles the check ends and is exact, however many rounds above its bound it is given. -/
theorem wouldCreateCycle_spec (h : Acyclic e.delegateOf) (origin target : Id) {rounds : Nat}
    (hrounds : e.delegations.keys.card < rounds) :
    ∃ cycle, chase e.delegateOf origin rounds target [] = some cycle ∧ (cycle = true ↔ Leads e.delegateOf target origin) :=
  chase_spec h (fun _ ha => mem_keys_of_delegateOf ha) origin target hrounds

/-- A delegation changes the delegate of one account. -/
theorem delegateOf_insert (e : ConvictionVotingEngine) (account : Id) (d : Delegation) :
    ConvictionVotingEngine.delegateOf { e with delegations := e.delegations.insert account d } =
      Function.update e.delegateOf account (some d.delegate) := by
  funext other
  unfold ConvictionVotingEngine.delegateOf
  by_cases hother : other = account
  · subst hother
    rw [Function.update_self, Finmap.lookup_insert]
    rfl
  · rw [Function.update_of_ne hother, Finmap.lookup_insert_of_ne _ hother]

/-- The outcomes of `delegate` to another account, where there are no cycles. -/
theorem delegate_cases (h : Acyclic e.delegateOf) {delegator target : Id} (hne : delegator ≠ target) (stake : UInt64)
    (conviction : Conviction) (expiresEpoch : UInt64) :
    (Leads e.delegateOf target delegator ∧
        e.delegate delegator target stake conviction expiresEpoch = some (e, .error "Delegation would create cycle")) ∨
      (¬ Leads e.delegateOf target delegator ∧
        e.delegate delegator target stake conviction expiresEpoch =
          some ({ e with
            delegations :=
              e.delegations.insert delegator ⟨delegator, target, stake, conviction, e.currentEpoch, expiresEpoch⟩ },
            .ok ())) := by
  obtain ⟨cycle, hwalk, hcycle⟩ := wouldCreateCycle_spec h delegator target (Nat.lt_succ_self _)
  have hcheck : e.wouldCreateCycle delegator target = some cycle := hwalk
  unfold ConvictionVotingEngine.delegate
  rw [if_neg hne, hcheck]
  cases cycle with
  | true => exact .inl ⟨hcycle.mp rfl, rfl⟩
  | false => exact .inr ⟨fun hleads => Bool.false_ne_true (hcycle.mpr hleads), rfl⟩

/-! ### What a call leaves alone -/

/-- A second leaves delegations and total. -/
theorem secondProposal_rest (e : ConvictionVotingEngine) (proposalId seconder : Id) :
    (e.secondProposal proposalId seconder).1.delegations = e.delegations ∧
      (e.secondProposal proposalId seconder).1.totalStake = e.totalStake := by
  unfold ConvictionVotingEngine.secondProposal
  repeat' split
  all_goals exact ⟨rfl, rfl⟩

/-- So does a vote. -/
theorem vote_rest (e : ConvictionVotingEngine) (proposalId voterId : Id) (direction : VoteDirection) (stake : UInt64)
    (conviction : Conviction) :
    (e.vote proposalId voterId direction stake conviction).1.delegations = e.delegations ∧
      (e.vote proposalId voterId direction stake conviction).1.totalStake = e.totalStake := by
  unfold ConvictionVotingEngine.vote
  dsimp only
  repeat' split
  all_goals exact ⟨rfl, rfl⟩

/-- So does the end of a voting. -/
theorem finalizeProposal_rest (e : ConvictionVotingEngine) (proposalId : Id) :
    (e.finalizeProposal proposalId).1.delegations = e.delegations ∧
      (e.finalizeProposal proposalId).1.totalStake = e.totalStake := by
  unfold ConvictionVotingEngine.finalizeProposal
  repeat' split
  all_goals exact ⟨rfl, rfl⟩

/-- A revocation leaves proposals and total. -/
theorem undelegate_rest (e : ConvictionVotingEngine) (delegator : Id) :
    (e.undelegate delegator).1.proposals = e.proposals ∧ (e.undelegate delegator).1.totalStake = e.totalStake := by
  unfold ConvictionVotingEngine.undelegate
  split <;> exact ⟨rfl, rfl⟩

/-- So does a delegation. -/
theorem delegate_rest {delegator target : Id} {stake : UInt64} {conviction : Conviction} {expiresEpoch : UInt64}
    {result : Except String Unit} (h : e.delegate delegator target stake conviction expiresEpoch = some (e', result)) :
    e'.proposals = e.proposals ∧ e'.totalStake = e.totalStake := by
  unfold ConvictionVotingEngine.delegate at h
  split at h
  · cases h
    exact ⟨rfl, rfl⟩
  · obtain ⟨cycle, -, h⟩ := Option.map_eq_some_iff.mp h
    cases cycle with
    | true =>
        cases h
        exact ⟨rfl, rfl⟩
    | false =>
        cases h
        exact ⟨rfl, rfl⟩

/-- Delegates are read off the map. -/
theorem delegateOf_congr (h : e'.delegations = e.delegations) : e'.delegateOf = e.delegateOf := by
  unfold ConvictionVotingEngine.delegateOf
  rw [h]

/-- A call other than a successful `delegate` gives no account another delegate. -/
theorem call_delegateOf {op : VotingOp} (hstep : op.call sha3 e = some e') :
    (∀ a b, e'.delegateOf a = some b → e.delegateOf a = some b) ∨
      ∃ delegator target stake conviction expiresEpoch,
        op = .delegate delegator target stake conviction expiresEpoch := by
  cases op with
  | setTotalStake stake =>
      cases hstep
      exact .inl fun _ _ h => h
  | advanceEpoch =>
      cases hstep
      refine .inl fun a b h => ?_
      obtain ⟨d, hd, rfl⟩ := Option.map_eq_some_iff.mp h
      replace hd : (retain _ e.delegations).lookup a = some d := hd
      rw [lookup_retain, Option.filter_eq_some_iff] at hd
      exact Option.map_eq_some_iff.mpr ⟨d, hd.1, rfl⟩
  | submitProposal proposalType proposer title description actionHash =>
      cases hstep
      exact .inl fun _ _ h => h
  | secondProposal proposalId seconder =>
      cases hstep
      rw [delegateOf_congr (secondProposal_rest e proposalId seconder).1]
      exact .inl fun _ _ h => h
  | vote proposalId voterId direction stake conviction =>
      cases hstep
      rw [delegateOf_congr (vote_rest e proposalId voterId direction stake conviction).1]
      exact .inl fun _ _ h => h
  | delegate delegator target stake conviction expiresEpoch =>
      exact .inr ⟨delegator, target, stake, conviction, expiresEpoch, rfl⟩
  | undelegate delegator =>
      cases hstep
      refine .inl fun a b h => ?_
      unfold ConvictionVotingEngine.undelegate at h
      split at h
      · exact h
      · obtain ⟨d, hd, rfl⟩ := Option.map_eq_some_iff.mp h
        replace hd : (e.delegations.erase delegator).lookup a = some d := hd
        by_cases ha : a = delegator
        · rw [ha, Finmap.lookup_erase] at hd
          cases hd
        · rw [Finmap.lookup_erase_ne ha] at hd
          exact Option.map_eq_some_iff.mpr ⟨d, hd, rfl⟩
  | finalizeProposal proposalId =>
      cases hstep
      rw [delegateOf_congr (finalizeProposal_rest e proposalId).1]
      exact .inl fun _ _ h => h

/-! ## Over runs -/

/-- **The step lemma**: a delegation that would close a cycle is refused, since the check is exact; every other call
takes delegations away or leaves them. -/
theorem acyclic_step (h : Acyclic e.delegateOf) {op : VotingOp} (hstep : op.call sha3 e = some e') :
    Acyclic e'.delegateOf := by
  rcases call_delegateOf hstep with hsub | ⟨delegator, target, stake, conviction, expiresEpoch, rfl⟩
  · exact h.mono hsub
  · replace hstep : (e.delegate delegator target stake conviction expiresEpoch).map (·.1) = some e' := hstep
    by_cases hne : delegator = target
    · unfold ConvictionVotingEngine.delegate at hstep
      rw [if_pos hne] at hstep
      cases hstep
      exact h
    · rcases delegate_cases h hne stake conviction expiresEpoch with ⟨-, hcall⟩ | ⟨hnot, hcall⟩
      · rw [hcall] at hstep
        cases hstep
        exact h
      · rw [hcall] at hstep
        cases hstep
        rw [delegateOf_insert]
        exact h.update (Ne.symm hne) hnot

/-- **The run lemma.** -/
theorem acyclic_of_reachable (h : (votingRuns sha3).Reachable (fun _ _ => True) e) : Acyclic e.delegateOf := by
  refine System.Reachable.invariant (P := fun e => Acyclic e.delegateOf) ?_ ?_ h
  · rintro e rfl
    exact acyclic_of_none fun _ => rfl
  · intro e op e' he _ hstep
    exact acyclic_step he hstep

/-- **The delegations stay acyclic.** In every reachable engine: following the delegations of an account never comes
back to it; the loop of `would_create_cycle` ends, after no more rounds than there are delegations and one, with the
answer to whether the target's chain leads to the origin; and so `delegate` to another account is rejected exactly
when it does, and then changes nothing. -/
theorem delegations_acyclic (h : (votingRuns sha3).Reachable (fun _ _ => True) e) :
    (∀ account, ¬ Leads e.delegateOf account account) ∧
    (∀ origin target rounds, e.delegations.keys.card < rounds →
      ∃ cycle, chase e.delegateOf origin rounds target [] = some cycle ∧
        (cycle = true ↔ Leads e.delegateOf target origin)) ∧
    ∀ delegator target stake conviction expiresEpoch, delegator ≠ target →
      ∃ after result, e.delegate delegator target stake conviction expiresEpoch = some (after, result) ∧
        ((∃ err, result = .error err) ↔ Leads e.delegateOf target delegator) ∧
        ((∃ err, result = .error err) → result = .error "Delegation would create cycle" ∧ after = e) := by
  have hacyclic := acyclic_of_reachable h
  refine ⟨hacyclic, fun origin target rounds => wouldCreateCycle_spec hacyclic origin target, ?_⟩
  intro delegator target stake conviction expiresEpoch hne
  rcases delegate_cases hacyclic hne stake conviction expiresEpoch with ⟨hleads, hcall⟩ | ⟨hnot, hcall⟩
  · exact ⟨_, _, hcall, iff_of_true ⟨_, rfl⟩ hleads, fun _ => ⟨rfl, rfl⟩⟩
  · refine ⟨_, _, hcall, iff_of_false ?_ hnot, ?_⟩
    · rintro ⟨err, herr⟩
      cases herr
    · rintro ⟨err, herr⟩
      cases herr

/-- SHA3-256 of the scripts. -/
def scriptSha3 (data : Bytes) : Id := Vector.replicate 32 data.sum

/-- An account of the scripts. -/
def account (n : UInt8) : Id := Vector.replicate 32 n

/-- The first delegates to the second and the second to the third; the third cannot delegate to the first. -/
theorem delegations_acyclic_chain_of_three :
    ∃ e, (votingRuns scriptSha3).Reachable (fun _ _ => True) e ∧
      ∃ after err, e.delegate (account 3) (account 1) 5 .none 0 = some (after, .error err) := by
  obtain ⟨e, past, hr, hfirst, hsecond⟩ := System.exists_run_of_play (M := votingRuns scriptSha3) (fun _ _ => True)
    (P := fun e _ => e.delegateOf (account 1) = some (account 2) ∧ e.delegateOf (account 2) = some (account 3)) rfl
    [fun _ => .delegate (account 1) (account 2) 5 .none 0, fun _ => .delegate (account 2) (account 3) 5 .none 0]
    (by decide +kernel)
  have hleads : Leads e.delegateOf (account 1) (account 3) := .tail (.single hfirst) hsecond
  obtain ⟨after, result, hcall, hiff, -⟩ := (delegations_acyclic ⟨past, hr⟩).2.2 (account 3) (account 1) 5 .none 0
    (by decide +kernel)
  obtain ⟨err, rfl⟩ := hiff.mpr hleads
  exact ⟨e, ⟨past, hr⟩, after, err, hcall⟩

end WarmLogic.Governance.Voting
