/-
# WarmLogic.Consensus.Equivocation — what `check_vote` reports, over any sequence of votes and clears.

The history maps a voter and a round to one block hash. An agreeing vote overwrites its entry, a conflicting one leaves
it alone; so the block hash in it is that of the first vote of the voter for the round since the last clear, however the
votes of others came in between (`Remembers`). `equivocation_reported_iff` follows, and with it that nobody is reported
who voted for one block in each round (`reported_names_two_votes`).

`check_vote` returns the violation and puts it among the pending ones, so what a run reports and what is pending
afterwards are the same list, behind what was pending before (`pendingViolations_runHistory`). Signatures are in the
history and are never compared.
-/
import WarmLogic.Consensus.Byzantine

namespace WarmLogic.Consensus.Byzantine

open WarmLogic.Consensus.Bft

/-! ## Sequences of calls -/

/-- A call on the vote history. -/
inductive HistoryCall where
  | checkVote (vote : Vote)
  | clearRoundHistory

/-- Calls one after another, with the violations they report. -/
def runHistory (d : ByzantineDetector) : List HistoryCall → ByzantineDetector × List ByzantineViolation
  | [] => (d, [])
  | .checkVote vote :: calls =>
      let (d, violation) := d.checkVote vote
      let (d, violations) := runHistory d calls
      (d, violation.toList ++ violations)
  | .clearRoundHistory :: calls => runHistory d.clearRoundHistory calls

/-- The votes since the last clear; `votes` are those before the calls. -/
def votesSinceClear (votes : List Vote) : List HistoryCall → List Vote
  | [] => votes
  | .checkVote vote :: calls => votesSinceClear (votes ++ [vote]) calls
  | .clearRoundHistory :: calls => votesSinceClear [] calls

/-- The first vote of a voter for a round. -/
def firstVote (votes : List Vote) (voterId : String) (round : UInt64) : Option Vote :=
  votes.find? fun vote => vote.voterId = voterId ∧ vote.round = round

/-- The violation of a vote behind a first one. -/
def equivocation (first vote : Vote) : ByzantineViolation :=
  .equivocationDetected vote.voterId vote.round first.blockHash vote.blockHash

/-! ## One call -/

/-- **What the history remembers**: the block hash of the first vote of each voter for each round. An entry is written
when its key has none, or over one with the same block hash; a conflicting vote writes nothing; and clearing the
history forgets the votes with it. -/
def Remembers (d : ByzantineDetector) (votes : List Vote) : Prop :=
  ∀ voterId round,
    (d.voteHistory.lookup (voterId, round)).map Prod.fst = (firstVote votes voterId round).map (·.blockHash)

theorem firstVote_append_singleton (votes : List Vote) (vote : Vote) (voterId : String) (round : UInt64) :
    firstVote (votes ++ [vote]) voterId round =
      (firstVote votes voterId round).or (if vote.voterId = voterId ∧ vote.round = round then some vote else none) := by
  unfold firstVote
  rw [List.find?_append, List.find?_singleton]
  simp only [decide_eq_true_eq]

/-- **What a vote does**: it conflicts with its entry, and is reported; or it does not, and is recorded. -/
theorem checkVote_cases (d : ByzantineDetector) (vote : Vote) :
    (∃ prev : String × String, d.voteHistory.lookup (vote.voterId, vote.round) = some prev ∧ prev.1 ≠ vote.blockHash ∧
      d.checkVote vote =
        ({ d with pendingViolations :=
            d.pendingViolations ++ [.equivocationDetected vote.voterId vote.round prev.1 vote.blockHash] },
          some (.equivocationDetected vote.voterId vote.round prev.1 vote.blockHash))) ∨
    ((∀ prev : String × String, d.voteHistory.lookup (vote.voterId, vote.round) = some prev → prev.1 = vote.blockHash) ∧
      d.checkVote vote =
        ({ d with voteHistory :=
            d.voteHistory.insert (vote.voterId, vote.round) (vote.blockHash, vote.signature) }, none)) := by
  unfold ByzantineDetector.checkVote
  dsimp only
  split
  · next prevBlock prevSig hprev =>
    by_cases hne : prevBlock ≠ vote.blockHash
    · exact .inl ⟨(prevBlock, prevSig), hprev, hne, if_pos hne⟩
    · refine .inr ⟨fun prev hprev' => ?_, if_neg hne⟩
      rw [hprev] at hprev'
      cases hprev'
      exact not_not.mp hne
  · next hprev =>
    refine .inr ⟨fun prev hprev' => ?_, rfl⟩
    rw [hprev] at hprev'
    cases hprev'

/-- A vote is reported against what the history has for its voter and round. -/
theorem checkVote_reports (d : ByzantineDetector) (vote : Vote) (violation : ByzantineViolation) :
    (d.checkVote vote).2 = some violation ↔
      ∃ prevBlock, (d.voteHistory.lookup (vote.voterId, vote.round)).map Prod.fst = some prevBlock ∧
        prevBlock ≠ vote.blockHash ∧
          violation = .equivocationDetected vote.voterId vote.round prevBlock vote.blockHash := by
  rcases checkVote_cases d vote with ⟨prev, hprev, hne, hcall⟩ | ⟨hagree, hcall⟩
  · rw [hcall, hprev]
    constructor
    · rintro ⟨⟩
      exact ⟨prev.1, rfl, hne, rfl⟩
    · rintro ⟨_, ⟨⟩, _, rfl⟩
      rfl
  · rw [hcall]
    constructor
    · intro h
      cases h
    · rintro ⟨prevBlock, hprev, hne, -⟩
      obtain ⟨prev, hentry, rfl⟩ := Option.map_eq_some_iff.mp hprev
      exact absurd (hagree prev hentry) hne

/-- What a vote makes of the block hashes in the history: it adds its own where its key has none. -/
theorem lookup_checkVote (d : ByzantineDetector) (vote : Vote) (voterId : String) (round : UInt64) :
    ((d.checkVote vote).1.voteHistory.lookup (voterId, round)).map Prod.fst =
      ((d.voteHistory.lookup (voterId, round)).map Prod.fst).or
        (if vote.voterId = voterId ∧ vote.round = round then some vote.blockHash else none) := by
  by_cases hkey : vote.voterId = voterId ∧ vote.round = round
  · obtain ⟨rfl, rfl⟩ := hkey
    rw [if_pos ⟨rfl, rfl⟩]
    rcases checkVote_cases d vote with ⟨prev, hprev, -, hcall⟩ | ⟨hagree, hcall⟩
    · rw [hcall, hprev]
      rfl
    · rw [hcall, AList.lookup_insert]
      cases hprev : d.voteHistory.lookup (vote.voterId, vote.round) with
      | none => rfl
      | some prev => exact congrArg some (hagree prev hprev).symm
  · rw [if_neg hkey, Option.or_none]
    rcases checkVote_cases d vote with ⟨prev, -, -, hcall⟩ | ⟨-, hcall⟩
    · rw [hcall]
    · have hne : (voterId, round) ≠ (vote.voterId, vote.round) := by
        rintro ⟨⟩
        exact hkey ⟨rfl, rfl⟩
      rw [hcall, AList.lookup_insert_ne hne]

/-- The pending violations behind a vote. -/
theorem pendingViolations_checkVote (d : ByzantineDetector) (vote : Vote) :
    (d.checkVote vote).1.pendingViolations = d.pendingViolations ++ (d.checkVote vote).2.toList := by
  rcases checkVote_cases d vote with ⟨prev, -, -, hcall⟩ | ⟨-, hcall⟩
  · rw [hcall]
    rfl
  · rw [hcall]
    exact (List.append_nil _).symm

theorem Remembers.checkVote {d : ByzantineDetector} {votes : List Vote} (h : Remembers d votes) (vote : Vote) :
    Remembers (d.checkVote vote).1 (votes ++ [vote]) := by
  intro voterId round
  rw [lookup_checkVote, h voterId round, firstVote_append_singleton]
  cases firstVote votes voterId round with
  | some first => rfl
  | none =>
    show (if _ then _ else _) = Option.map _ (if _ then _ else _)
    split <;> rfl

theorem Remembers.cleared (d : ByzantineDetector) : Remembers d.clearRoundHistory [] := fun voterId round => by
  rw [show d.clearRoundHistory.voteHistory = ∅ from rfl, AList.lookup_empty]
  rfl

/-- **One vote, exactly**: it is reported if and only if it conflicts with the first vote of its voter for its round. -/
theorem Remembers.reports_iff {d : ByzantineDetector} {votes : List Vote} (h : Remembers d votes) (vote : Vote)
    (violation : ByzantineViolation) :
    (d.checkVote vote).2 = some violation ↔
      ∃ first, firstVote votes vote.voterId vote.round = some first ∧ first.blockHash ≠ vote.blockHash ∧
        violation = equivocation first vote := by
  rw [checkVote_reports, h vote.voterId vote.round]
  constructor
  · rintro ⟨prevBlock, hfirst, hne, rfl⟩
    obtain ⟨first, hfirst', rfl⟩ := Option.map_eq_some_iff.mp hfirst
    exact ⟨first, hfirst', hne, rfl⟩
  · rintro ⟨first, hfirst, hne, rfl⟩
    exact ⟨first.blockHash, Option.map_eq_some_iff.mpr ⟨first, hfirst, rfl⟩, hne, rfl⟩

/-! ## All calls -/

theorem Remembers.run {d : ByzantineDetector} {votes : List Vote} (h : Remembers d votes) (calls : List HistoryCall) :
    Remembers (runHistory d calls).1 (votesSinceClear votes calls) := by
  induction calls generalizing d votes with
  | nil => exact h
  | cons call calls ih =>
    cases call with
    | checkVote vote => exact ih (h.checkVote vote)
    | clearRoundHistory => exact ih (Remembers.cleared d)

/-- The pending violations grow by what is reported, and by nothing else. -/
theorem pendingViolations_runHistory (d : ByzantineDetector) (calls : List HistoryCall) :
    (runHistory d calls).1.pendingViolations = d.pendingViolations ++ (runHistory d calls).2 := by
  induction calls generalizing d with
  | nil => exact (List.append_nil _).symm
  | cons call calls ih =>
    cases call with
    | checkVote vote =>
      show (runHistory (d.checkVote vote).1 calls).1.pendingViolations = _
      rw [ih, pendingViolations_checkVote, List.append_assoc]
      rfl
    | clearRoundHistory => exact ih d.clearRoundHistory

theorem mem_firstVote {votes : List Vote} {voterId : String} {round : UInt64} {first : Vote}
    (h : firstVote votes voterId round = some first) : first ∈ votes ∧ first.voterId = voterId ∧ first.round = round := by
  have hkey := List.find?_some h
  simp only [decide_eq_true_eq] at hkey
  exact ⟨List.mem_of_find?_eq_some h, hkey⟩

/-- **Nobody is reported without cause**: behind each report there are two votes of the voter for the round, with the
two block hashes of the report. -/
theorem reported_names_two_votes {d : ByzantineDetector} {votes : List Vote} (h : Remembers d votes)
    {calls : List HistoryCall} {violation : ByzantineViolation} (hreported : violation ∈ (runHistory d calls).2) :
    ∃ first vote : Vote, (first ∈ votes ∨ .checkVote first ∈ calls) ∧ .checkVote vote ∈ calls ∧
      first.voterId = vote.voterId ∧ first.round = vote.round ∧ first.blockHash ≠ vote.blockHash ∧
        violation = equivocation first vote := by
  induction calls generalizing d votes with
  | nil => cases hreported
  | cons call calls ih =>
    cases call with
    | checkVote vote =>
      rcases List.mem_append.mp hreported with hnow | hlater
      · obtain ⟨first, hfirst, hne, rfl⟩ := (h.reports_iff vote violation).mp (Option.mem_toList.mp hnow)
        obtain ⟨hmem, hvoter, hround⟩ := mem_firstVote hfirst
        exact ⟨first, vote, .inl hmem, List.mem_cons_self, hvoter, hround, hne, rfl⟩
      · obtain ⟨first, vote', hfirst, hvote', hrest⟩ := ih (h.checkVote vote) hlater
        refine ⟨first, vote', ?_, List.mem_cons_of_mem _ hvote', hrest⟩
        rcases hfirst with hfirst | hfirst
        · rcases List.mem_append.mp hfirst with hfirst | hfirst
          · exact .inl hfirst
          · rw [List.mem_singleton.mp hfirst]
            exact .inr List.mem_cons_self
        · exact .inr (List.mem_cons_of_mem _ hfirst)
    | clearRoundHistory =>
      obtain ⟨first, vote', hfirst, hvote', hrest⟩ := ih (Remembers.cleared d) hreported
      refine ⟨first, vote', .inr ?_, List.mem_cons_of_mem _ hvote', hrest⟩
      rcases hfirst with hfirst | hfirst
      · cases hfirst
      · exact List.mem_cons_of_mem _ hfirst

/-- **Equivocation.** Behind any calls a vote is reported if and only if its block hash differs from that of the first
vote of its voter for its round since the last clear; and the pending violations are those that were there, and the
reported ones behind them. -/
theorem equivocation_reported_iff :
    (∀ (calls : List HistoryCall) (vote : Vote) (violation : ByzantineViolation),
      ((runHistory .new calls).1.checkVote vote).2 = some violation ↔
        ∃ first, firstVote (votesSinceClear [] calls) vote.voterId vote.round = some first ∧
          first.blockHash ≠ vote.blockHash ∧ violation = equivocation first vote) ∧
    ∀ (d : ByzantineDetector) (calls : List HistoryCall),
      (runHistory d calls).1.pendingViolations = d.pendingViolations ++ (runHistory d calls).2 :=
  ⟨fun calls vote violation => ((Remembers.cleared .new).run calls).reports_iff vote violation,
    pendingViolations_runHistory⟩

end WarmLogic.Consensus.Byzantine
