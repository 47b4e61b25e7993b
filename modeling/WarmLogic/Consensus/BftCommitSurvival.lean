/-
# WarmLogic.Consensus.BftCommitSurvival — when a recorded commit survives a view change.

`record_commit` overwrites one pair, the last committed round and block. `trigger_view_change` reports that pair
(unless the round is 0: the source uses round 0 for "none"), `complete_view_change` starts the new view at the
highest reported round with the block of the LAST message that reports it, and where nobody reports anything at the
leader's own round with no block. Nothing on this path compares the outcome with what the node has committed.

So a commit at round 0 is lost in the very next view (`commit_at_round_zero_lost`). `commits_survive` is the
exact rule: commits are recorded in the order of their rounds, and what an honest leader has collected carries the
last of them. A message of the node itself that reports the commit carries it, unless a later one reports another
block for the same round.

The node of a run keeps a journal beside its engine: the commits it recorded, the messages it made, and the new views
it entered that an honest leader built. A new view is honest if it is the message that `complete_view_change` of some
engine returned, of an engine with any messages in it; nothing is assumed of the senders of those. The property is
about every such view, at the moment it was entered, against all commits that were recorded by then.

The condition is on the leader's collected messages, before they are used: that the node's own report is among them,
or that something at least as high is. Where the node has reported its commit and no later message contradicts it,
this is the case (`Reported.survivable`).
-/
import WarmLogic.Consensus.BftViewChange

namespace WarmLogic.Consensus.Bft

open WarmLogic.Lib

variable {δ : Type} {verifyRaw : String → String → String → Bool}

/-! ## The choice of `complete_view_change` -/

/-- The running best of `maxByRound` ends at a highest report, and at the last of those. -/
theorem foldl_maxByRound (best : Option String × UInt64) (ps : List (Option String × UInt64)) :
    (∀ q ∈ best :: ps, q.2 ≤ (ps.foldl (fun best q => if best.2 ≤ q.2 then q else best) best).2) ∧
      ((best :: ps).filter fun q =>
        q.2 == (ps.foldl (fun best q => if best.2 ≤ q.2 then q else best) best).2).getLast? =
        some (ps.foldl (fun best q => if best.2 ≤ q.2 then q else best) best) := by
  induction ps generalizing best with
  | nil => simp
  | cons q ps ih =>
      rw [List.foldl_cons]
      by_cases hle : best.2 ≤ q.2
      · -- `q` takes over: whatever matches behind it is still the last
        rw [if_pos hle]
        obtain ⟨hmax, hlast⟩ := ih q
        refine ⟨?_, ?_⟩
        · rw [List.forall_mem_cons]
          exact ⟨UInt64.le_trans hle (hmax q List.mem_cons_self), hmax⟩
        · rw [List.filter_cons]
          split
          · rw [List.getLast?_cons, hlast]
            rfl
          · exact hlast
      · -- `best` stays: `q` is below it and matches nothing
        rw [if_neg hle]
        obtain ⟨hmax, hlast⟩ := ih best
        have hbest := hmax best List.mem_cons_self
        have hlt : q.2 < best.2 := UInt64.not_le.mp hle
        refine ⟨?_, ?_⟩
        · rw [List.forall_mem_cons, List.forall_mem_cons]
          refine ⟨hbest, ?_, fun x hx => hmax x (List.mem_cons_of_mem _ hx)⟩
          exact UInt64.le_of_lt (UInt64.lt_of_lt_of_le hlt hbest)
        · rw [List.filter_cons] at hlast ⊢
          rw [List.filter_cons_of_neg (a := q)]
          · exact hlast
          · intro heq
            rw [← beq_iff_eq.mp heq] at hbest
            exact hle hbest

theorem maxByRound_spec {l : List (Option String × UInt64)} {p : Option String × UInt64}
    (h : BFTEngine.maxByRound l = some p) :
    (∀ q ∈ l, q.2 ≤ p.2) ∧ (l.filter fun q => q.2 == p.2).getLast? = some p := by
  cases l with
  | nil => cases h
  | cons best ps =>
      cases h
      exact foldl_maxByRound best ps

/-- The reports among the messages a leader has collected, in the order they came in. -/
def BFTEngine.reports (leader : BFTEngine δ) : List (Option String × UInt64) :=
  leader.collected.filterMap (·.report)

/-- What `leader` has collected carries the commit of block `h` at round `r`: a report above `r`; or none above,
and the last report of `r` is of `h`; or no report at all, and a leader past `r`. -/
def Carries (r : UInt64) (h : String) (leader : BFTEngine δ) : Prop :=
  (∃ p ∈ leader.reports, r < p.2) ∨
    ((∀ p ∈ leader.reports, p.2 ≤ r) ∧ (leader.reports.filter fun p => p.2 == r).getLast? = some (some h, r)) ∨
    (leader.reports = [] ∧ r < leader.round)

instance {r : UInt64} {h : String} {leader : BFTEngine δ} : Decidable (Carries r h leader) :=
  inferInstanceAs (Decidable (_ ∨ _ ∨ _))

/-- A carried commit is what the NEW_VIEW message announces, or it announces a later round. -/
theorem Carries.announced {r : UInt64} {h : String} {leader : BFTEngine δ} (hc : Carries r h leader)
    (leaderId signature : String) :
    r < (leader.newViewMessage leaderId signature).startingRound ∨
      ((leader.newViewMessage leaderId signature).startingRound = r ∧
        (leader.newViewMessage leaderId signature).preparedBlock = some h) := by
  show r < ((BFTEngine.maxByRound leader.reports).getD (none, leader.round)).2 ∨
    (((BFTEngine.maxByRound leader.reports).getD (none, leader.round)).2 = r ∧
      ((BFTEngine.maxByRound leader.reports).getD (none, leader.round)).1 = some h)
  cases hbest : BFTEngine.maxByRound leader.reports with
  | none =>
      have hnone : leader.reports = [] := by
        cases hrep : leader.reports with
        | nil => rfl
        | cons p ps =>
            rw [hrep] at hbest
            cases hbest
      rcases hc with ⟨p, hp, -⟩ | ⟨-, hlast⟩ | ⟨-, hround⟩
      · rw [hnone] at hp
        cases hp
      · rw [hnone] at hlast
        cases hlast
      · exact .inl hround
  | some best =>
      obtain ⟨hmax, hlastBest⟩ := maxByRound_spec hbest
      rcases hc with ⟨p, hp, hlt⟩ | ⟨hle, hlast⟩ | ⟨hnone, -⟩
      · exact .inl (UInt64.lt_of_lt_of_le hlt (hmax p hp))
      · -- `r` is reported and nothing is above it, so the best report is the last of round `r`
        have hmem : (some h, r) ∈ leader.reports := (List.mem_filter.mp (List.mem_of_getLast? hlast)).1
        have hbestMem : best ∈ leader.reports := (List.mem_filter.mp (List.mem_of_getLast? hlastBest)).1
        have hround : best.2 = r := UInt64.le_antisymm (hle best hbestMem) (hmax _ hmem)
        rw [hround, hlast] at hlastBest
        cases hlastBest
        exact .inr ⟨rfl, rfl⟩
      · rw [hnone] at hbest
        cases hbest

/-- The usual way a commit is carried: the node's own message, which reports it, is among those collected, and no
later one reports another block for that round. -/
theorem carries_of_own_report {leader : BFTEngine δ} {r : UInt64} {h : String} {before after : List ViewChangeMessage}
    {own : ViewChangeMessage} (hown : leader.collected = before ++ own :: after) (hreport : own.report = some (some h, r))
    (hafter : ∀ m ∈ after, ∀ p ∈ m.report, p.2 = r → p.1 = some h) : Carries r h leader := by
  have hreports : leader.reports = before.filterMap (·.report) ++ (some h, r) :: after.filterMap (·.report) := by
    unfold BFTEngine.reports
    rw [hown, List.filterMap_append, List.filterMap_cons_some hreport]
  by_cases habove : ∃ p ∈ leader.reports, r < p.2
  · exact .inl habove
  · refine .inr (.inl ⟨fun p hp => UInt64.not_lt.mp fun hlt => habove ⟨p, hp, hlt⟩, ?_⟩)
    have hself : ((some h, r).2 == r) = true := beq_self_eq_true _
    rw [hreports, List.filter_append, List.filter_cons, if_pos hself, List.getLast?_append, List.getLast?_cons]
    -- a later report of the round is of the same block
    cases hlast : ((after.filterMap (·.report)).filter fun p => p.2 == r).getLast? with
    | none => rfl
    | some p =>
        obtain ⟨hp, hpr⟩ := List.mem_filter.mp (List.mem_of_getLast? hlast)
        obtain ⟨m, hm, hmr⟩ := List.mem_filterMap.mp hp
        have hround : p.2 = r := beq_iff_eq.mp hpr
        have hblock : p = (some h, r) := Prod.ext (hafter m hm p hmr hround) hround
        rw [hblock]
        rfl

/-! ## Runs with their commits and honest new views -/

/-- A new view an honest leader built: the commits of the node by then, and where it left the node. -/
structure Install where
  commits : List (UInt64 × String)
  round : UInt64
  proposal : Option String

/-- The node, the commits it recorded, the VIEW_CHANGE messages it made, and the honest new views it entered. -/
structure Journal (δ : Type) where
  engine : BFTEngine δ
  commits : List (UInt64 × String)
  sent : List ViewChangeMessage
  installs : List Install

/-- The calls of the engine, and a NEW_VIEW message that `leader`'s own `complete_view_change` returned. -/
inductive JournalOp (δ : Type) where
  | call (op : BftOp δ)
  | install (leader : BFTEngine δ) (leaderId signature : String)

/-- The commit a call records. -/
def BftOp.commit : BftOp δ → List (UInt64 × String)
  | .round (.recordCommit r h) => [(r, h)]
  | _ => []

/-- The VIEW_CHANGE message of this node that a call makes. -/
def BftOp.ownMessage (e : BFTEngine δ) : BftOp δ → List ViewChangeMessage
  | .triggerViewChange id sig now => [(e.triggerViewChange id sig now).2]
  | .checkAndTriggerTimeout t id sig now => (e.checkAndTriggerTimeout t id sig now).2.toList
  | _ => []

/-- Among the messages `leader` has collected is one this node made. -/
def Journal.heardBy (s : Journal δ) (leader : BFTEngine δ) : Bool := s.sent.any (fun m => leader.collected.contains m)

/-- Note a new view of `leader` that moved the node to `engine`; one built without a message of this node is not
noted. -/
def Journal.note (s : Journal δ) (leader engine : BFTEngine δ) : List Install :=
  if engine.view ≠ s.engine.view ∧ s.heardBy leader = true then
    ⟨s.commits, engine.round, engine.currentProposal⟩ :: s.installs
  else s.installs

def Journal.step (verifyRaw : String → String → String → Bool) : JournalOp δ → Journal δ → Option (Journal δ)
  | .call op, s =>
      let engine := op.run verifyRaw s.engine
      some
        { engine := engine
          commits := op.commit ++ s.commits
          sent := op.ownMessage s.engine ++ s.sent
          installs :=
            match op with
            | .completeViewChange _ _ => s.note s.engine engine
            | _ => s.installs }
  | .install leader leaderId signature, s =>
      match (leader.completeViewChange leaderId signature).2 with
      | .error _ => none
      | .ok msg =>
          let engine := (s.engine.applyNewView msg).1
          some { s with engine := engine, installs := s.note leader engine }

/-- Every run of an engine from either constructor, with its journal. -/
def journalled (verifyRaw : String → String → String → Bool) : System (Journal δ) (JournalOp δ) where
  init s := ((∃ q, s.engine = BFTEngine.new q) ∨ ∃ q vs, s.engine = BFTEngine.withValidators q vs) ∧
    s.commits = [] ∧ s.sent = [] ∧ s.installs = []
  step := Journal.step verifyRaw

/-- The node did not lose a commit: it is not at the round of one with another proposal, nor before it. -/
def Install.Keeps (x : Install) : Prop :=
  ∀ c ∈ x.commits, ¬ (x.round = c.1 ∧ x.proposal ≠ some c.2) ∧ ¬ x.round < c.1

/-- The guard on a new view of `leader` that was built with a message of this node. -/
def CarriesLast (s : Journal δ) (leader : BFTEngine δ) : Prop :=
  s.heardBy leader = true →
    ∀ h ∈ s.engine.lastCommittedBlock, Carries s.engine.lastCommittedRound h leader

/-- The guard: commits are recorded in the order of their rounds, one block a round, and the messages an honest
new view is built from carry the last commit. -/
def Survivable : JournalOp δ → Journal δ → Prop
  | .call (.round (.recordCommit r h)), s =>
      s.engine.lastCommittedRound < r ∨
        (s.engine.lastCommittedRound = r ∧ ∀ b ∈ s.engine.lastCommittedBlock, b = h)
  | .call (.completeViewChange _ _), s => CarriesLast s s.engine
  | .install leader _ _, s => CarriesLast s leader
  | _, _ => True

/-- What `leader` has collected holds a message of this node that reports its last commit, and no later message
reports another block for that round. -/
def ReportsLast (s : Journal δ) (leader : BFTEngine δ) : Prop :=
  s.heardBy leader = true → ∀ h ∈ s.engine.lastCommittedBlock,
    ∃ i < leader.collected.length, ∃ own ∈ leader.collected[i]?, own ∈ s.sent ∧
      own.report = some (some h, s.engine.lastCommittedRound) ∧
      ∀ m ∈ leader.collected.drop (i + 1), ∀ p ∈ m.report, p.2 = s.engine.lastCommittedRound → p.1 = some h

theorem ReportsLast.carriesLast {s : Journal δ} {leader : BFTEngine δ} (h : ReportsLast s leader) :
    CarriesLast s leader := by
  intro hheard b hb
  obtain ⟨i, hi, own, hown, -, hreport, hafter⟩ := h hheard b hb
  have hget : leader.collected[i] = own := Option.some.inj ((List.getElem?_eq_getElem hi).symm.trans hown)
  have hsplit : leader.collected = leader.collected.take i ++ own :: leader.collected.drop (i + 1) := by
    rw [← hget, ← List.drop_eq_getElem_cons hi, List.take_append_drop]
  exact carries_of_own_report hsplit hreport hafter

/-- The guard in terms of the node's own message: what an honest new view is built from holds one that reports the
last commit. `trigger_view_change` makes such a message once a commit is recorded at a round other than 0. -/
def Reported : JournalOp δ → Journal δ → Prop
  | .call (.completeViewChange _ _), s => ReportsLast s s.engine
  | .install leader _ _, s => ReportsLast s leader
  | op, s => Survivable op s

theorem Reported.survivable {s : Journal δ} {op : JournalOp δ} (h : Reported op s) : Survivable op s := by
  cases op with
  | install leader leaderId signature => exact ReportsLast.carriesLast h
  | call op =>
      cases op with
      | completeViewChange id sig => exact ReportsLast.carriesLast h
      | _ => exact h

/-! ## The invariant -/

/-- The last commit is on record, and every other one is of an earlier round; nothing was lost so far. Only
`record_commit` touches the pair that the engine remembers, and under the guard it moves forward. A new view starts at
the last commit or beyond it, because what the leader collected carries that commit; and what was noted before does
not change. -/
structure Kept (s : Journal δ) : Prop where
  last : ∀ c ∈ s.commits, ∃ h, s.engine.lastCommittedBlock = some h ∧
    (c.1 < s.engine.lastCommittedRound ∨ c = (s.engine.lastCommittedRound, h))
  installs : ∀ x ∈ s.installs, x.Keeps

/-- The two engines remember the same last commit. -/
def SameCommit (e e' : BFTEngine δ) : Prop :=
  e'.lastCommittedRound = e.lastCommittedRound ∧ e'.lastCommittedBlock = e.lastCommittedBlock

theorem sameCommit_applyNewView (e : BFTEngine δ) (msg : NewViewMessage) : SameCommit e (e.applyNewView msg).1 := by
  rcases applyNewView_cases e msg with h | ⟨-, -, -, status, h⟩
  · rw [h]
    exact ⟨rfl, rfl⟩
  · rw [h]
    exact ⟨rfl, rfl⟩

theorem SameCommit.recorded {e₀ e e' : BFTEngine δ} (h : SameCommit e₀ e) (hr : Recorded e e') : SameCommit e₀ e' := by
  cases hr with
  | same => exact h
  | vote _ _ _ => exact h
  | anonymous _ _ _ => exact h

/-- Only `record_commit` writes the last commit. -/
theorem sameCommit_run (e : BFTEngine δ) (op : BftOp δ) (hop : op.commit = []) :
    SameCommit e (op.run verifyRaw e) := by
  have hself : SameCommit e e := ⟨rfl, rfl⟩
  cases op with
  | round op =>
      cases op with
      | startRound r => exact hself
      | propose b d => exact hself
      | castVote v => exact hself.recorded (castVote_recorded e v)
      | castVoteVerified v pk => exact hself.recorded (castVoteVerified_recorded verifyRaw e v pk)
      | castVotesBatch vs keys =>
          exact castVotesBatch_induct (fun _ _ h hr => h.recorded hr) verifyRaw hself vs keys
      | castAnonymousVoteVerified v => exact hself.recorded (castAnonymousVoteVerified_recorded e v)
      | applyNewView m => exact sameCommit_applyNewView e m
      | recordCommit r h => cases hop
  | triggerViewChange id sig now => exact hself
  | checkAndTriggerTimeout t id sig now =>
      show SameCommit e (e.checkAndTriggerTimeout t id sig now).1
      unfold BFTEngine.checkAndTriggerTimeout
      split
      · exact hself
      · exact hself
  | updateActivity t => exact hself
  | processViewChange msg pk =>
      show SameCommit e (e.processViewChange verifyRaw msg pk).1
      rcases processViewChange_cases verifyRaw e msg pk with ⟨-, h⟩ | ⟨-, h⟩
      · rw [h]
        exact hself
      · rw [h]
        exact hself
  | completeViewChange id sig =>
      show SameCommit e (e.completeViewChange id sig).1
      rcases completeViewChange_cases e id sig with h | ⟨-, -, h⟩
      · rw [h]
        exact hself
      · rw [h]
        exact sameCommit_applyNewView e _

/-- `complete_view_change` returns the message it built. -/
theorem completeViewChange_ok {leader : BFTEngine δ} {leaderId signature : String} {msg : NewViewMessage}
    (h : (leader.completeViewChange leaderId signature).2 = .ok msg) :
    msg = leader.newViewMessage leaderId signature := by
  unfold BFTEngine.completeViewChange at h
  dsimp only at h
  split at h
  · cases h
  · split at h
    · cases h
    · split at h
      · cases h
        rfl
      · cases h

/-- A new view of `leader` that the node applied is noted as one that keeps its commits. -/
theorem Kept.note {s : Journal δ} (hs : Kept s) {leader : BFTEngine δ} (hcarry : CarriesLast s leader)
    (leaderId signature : String) :
    ∀ x ∈ s.note leader (s.engine.applyNewView (leader.newViewMessage leaderId signature)).1, x.Keeps := by
  intro x hx
  unfold Journal.note at hx
  split at hx
  · rename_i hmoved
    rcases List.mem_cons.mp hx with rfl | hx
    · rcases applyNewView_cases s.engine (leader.newViewMessage leaderId signature) with h | ⟨-, -, -, status, h⟩
      · exact absurd (congrArg BFTEngine.view h) hmoved.1
      · intro c hc
        obtain ⟨b, hblock, hc⟩ := hs.last c hc
        have hann := (hcarry hmoved.2 b hblock).announced leaderId signature
        rw [h]
        show ¬ ((leader.newViewMessage leaderId signature).startingRound = c.1 ∧
          (leader.newViewMessage leaderId signature).preparedBlock ≠ some c.2) ∧
          ¬ (leader.newViewMessage leaderId signature).startingRound < c.1
        generalize leader.newViewMessage leaderId signature = msg at hann
        rcases hc with hlt | rfl
        · -- a commit before the last one: the view starts past its round
          have hpast : c.1 < msg.startingRound := by
            rcases hann with hlater | ⟨heq, -⟩
            · exact UInt64.lt_trans hlt hlater
            · rw [heq]
              exact hlt
          exact ⟨fun heq => UInt64.ne_of_lt hpast heq.1.symm, UInt64.not_lt.mpr (UInt64.le_of_lt hpast)⟩
        · rcases hann with hlater | ⟨heq, hprop⟩
          · exact ⟨fun heq => UInt64.ne_of_lt hlater heq.1.symm, UInt64.not_lt.mpr (UInt64.le_of_lt hlater)⟩
          · exact ⟨fun hne => hne.2 hprop, by rw [heq]; exact UInt64.lt_irrefl _⟩
    · exact hs.installs x hx
  · exact hs.installs x hx

/-- Where the last commit is untouched, the record still ends in it. -/
theorem Kept.last_of_same {s : Journal δ} (hs : Kept s) {e' : BFTEngine δ} (h : SameCommit s.engine e') :
    ∀ c ∈ s.commits, ∃ b, e'.lastCommittedBlock = some b ∧
      (c.1 < e'.lastCommittedRound ∨ c = (e'.lastCommittedRound, b)) := by
  rw [h.1, h.2]
  exact hs.last

theorem Kept.recordCommit {s : Journal δ} (hs : Kept s) {r : UInt64} {h : String}
    (hok : Survivable (.call (.round (.recordCommit r h))) s) :
    ∀ c ∈ (r, h) :: s.commits, ∃ b, some h = some b ∧ (c.1 < r ∨ c = (r, b)) := by
  rw [List.forall_mem_cons]
  refine ⟨⟨h, rfl, .inr rfl⟩, fun c hc => ⟨h, rfl, ?_⟩⟩
  obtain ⟨b, hblock, hc⟩ := hs.last c hc
  rcases hok with hlt | ⟨rfl, hsame⟩
  · left
    rcases hc with hc | rfl
    · exact UInt64.lt_trans hc hlt
    · exact hlt
  · rw [← hsame b hblock]
    exact hc

/-- One guarded step keeps the record and every noted view. -/
theorem Kept.step {s s' : Journal δ} {op : JournalOp δ} (hs : Kept s) (hok : Survivable op s)
    (hstep : (journalled verifyRaw).step op s = some s') : Kept s' := by
  cases op with
  | install leader leaderId signature =>
      simp only [journalled, Journal.step] at hstep
      split at hstep
      · cases hstep
      · rename_i msg hmsg
        cases hstep
        rw [completeViewChange_ok hmsg]
        exact ⟨hs.last_of_same (sameCommit_applyNewView _ _), hs.note hok leaderId signature⟩
  | call op =>
      cases hstep
      by_cases hcommit : op.commit = []
      · refine ⟨?_, ?_⟩
        · dsimp only
          rw [hcommit]
          exact hs.last_of_same (sameCommit_run s.engine op hcommit)
        · cases op with
          | completeViewChange id sig =>
              show ∀ x ∈ s.note s.engine (s.engine.completeViewChange id sig).1, x.Keeps
              rcases completeViewChange_cases s.engine id sig with h | ⟨-, -, h⟩
              · rw [h, Journal.note, if_neg (fun hmoved => hmoved.1 rfl)]
                exact hs.installs
              · rw [h]
                exact hs.note hok id sig
          | _ => exact hs.installs
      · cases op with
        | round op =>
            cases op with
            | recordCommit r h => exact ⟨hs.recordCommit hok, hs.installs⟩
            | _ => exact absurd rfl hcommit
        | _ => exact absurd rfl hcommit

/-- **Commits survive view changes** in every run in which they are recorded in the order of their rounds and the
messages an honest leader builds a new view from carry the last of them; they carry it where one of the node's own
reports it. -/
theorem commits_survive (verifyRaw : String → String → String → Bool) (s : Journal δ) :
    ((journalled verifyRaw).Reachable Survivable s → ∀ x ∈ s.installs, x.Keeps) ∧
      ((journalled verifyRaw).Reachable Reported s → ∀ x ∈ s.installs, x.Keeps) := by
  have hkept : (journalled verifyRaw).Reachable Survivable s → Kept s := by
    refine System.Reachable.invariant ?_ ?_
    · rintro s ⟨-, hcommits, -, hinstalls⟩
      refine ⟨?_, ?_⟩
      · rw [hcommits]
        exact fun _ hc => absurd hc List.not_mem_nil
      · rw [hinstalls]
        exact fun _ hx => absurd hx List.not_mem_nil
    · intro s op s' hs hok hstep
      exact hs.step hok hstep
  refine ⟨fun h => (hkept h).installs, ?_⟩
  rintro ⟨past, hr⟩
  exact (hkept ⟨past, hr.mono fun _ _ => Reported.survivable⟩).installs

/-! ### Two runs -/

instance {s : Journal δ} {leader : BFTEngine δ} : Decidable (CarriesLast s leader) :=
  inferInstanceAs (Decidable (s.heardBy leader = true → ∀ h ∈ s.engine.lastCommittedBlock, Carries _ h leader))

instance : ∀ (op : JournalOp δ) (s : Journal δ), Decidable (Survivable op s)
  | .call (.round (.recordCommit r h)), s =>
      inferInstanceAs (Decidable (_ < r ∨ (_ = r ∧ ∀ b ∈ s.engine.lastCommittedBlock, b = h)))
  | .call (.completeViewChange _ _), s => inferInstanceAs (Decidable (CarriesLast s s.engine))
  | .install leader _ _, s => inferInstanceAs (Decidable (CarriesLast s leader))
  | .call (.round (.startRound _)), _ => .isTrue trivial
  | .call (.round (.propose _ _)), _ => .isTrue trivial
  | .call (.round (.castVote _)), _ => .isTrue trivial
  | .call (.round (.castVoteVerified _ _)), _ => .isTrue trivial
  | .call (.round (.castVotesBatch _ _)), _ => .isTrue trivial
  | .call (.round (.castAnonymousVoteVerified _)), _ => .isTrue trivial
  | .call (.round (.applyNewView _)), _ => .isTrue trivial
  | .call (.triggerViewChange _ _ _), _ => .isTrue trivial
  | .call (.checkAndTriggerTimeout _ _ _ _), _ => .isTrue trivial
  | .call (.updateActivity _), _ => .isTrue trivial
  | .call (.processViewChange _ _), _ => .isTrue trivial

instance {s : Journal δ} {leader : BFTEngine δ} : Decidable (ReportsLast s leader) :=
  inferInstanceAs (Decidable (s.heardBy leader = true → ∀ h ∈ s.engine.lastCommittedBlock,
    ∃ i < leader.collected.length, ∃ own ∈ leader.collected[i]?, own ∈ s.sent ∧
      own.report = some (some h, s.engine.lastCommittedRound) ∧
      ∀ m ∈ leader.collected.drop (i + 1), ∀ p ∈ m.report, p.2 = s.engine.lastCommittedRound → p.1 = some h))

instance : ∀ (op : JournalOp δ) (s : Journal δ), Decidable (Reported op s)
  | .call (.completeViewChange _ _), s => inferInstanceAs (Decidable (ReportsLast s s.engine))
  | .install leader _ _, s => inferInstanceAs (Decidable (ReportsLast s leader))
  | .call (.round op), s => inferInstanceAs (Decidable (Survivable (.call (.round op)) s))
  | .call (.triggerViewChange _ _ _), _ => .isTrue trivial
  | .call (.checkAndTriggerTimeout _ _ _ _), _ => .isTrue trivial
  | .call (.updateActivity _), _ => .isTrue trivial
  | .call (.processViewChange _ _), _ => .isTrue trivial

instance {x : Install} : Decidable x.Keeps :=
  inferInstanceAs (Decidable (∀ c ∈ x.commits, ¬ (x.round = c.1 ∧ x.proposal ≠ some c.2) ∧ ¬ x.round < c.1))

/-- The second of the three nodes, before any call. -/
def trioJournal : Journal Unit := ⟨trio, [], [], []⟩

theorem trioJournal_init : (journalled fun _ _ _ => true).init trioJournal :=
  ⟨.inr ⟨2, ["a", "b", "c"], rfl⟩, rfl, rfl, rfl⟩

/-- Block `block_x` is committed at round 3, node `a` is behind at round 2, and `b` leads into view 1. -/
theorem commits_survive_round_three : ∃ s : Journal Unit, (journalled fun _ _ _ => true).Reachable Reported s ∧
    (∃ x ∈ s.installs, x.commits = [(3, "block_x"), (1, "block_v")] ∧ x.round = 3) ∧ ∀ x ∈ s.installs, x.Keeps := by
  obtain ⟨s, past, hr, hx⟩ := System.exists_run_of_play (M := journalled (δ := Unit) fun _ _ _ => true) Reported
    (P := fun s _ => ∃ x ∈ s.installs, x.commits = [(3, "block_x"), (1, "block_v")] ∧ x.round = 3) trioJournal_init
    [fun _ => .call (.round (.recordCommit 1 "block_v")), fun _ => .call (.round (.recordCommit 3 "block_x")),
      fun _ => .call (.triggerViewChange "b" "sig_b" 100),
      fun _ => .call (.processViewChange (viewOneReport "a" "block_w" 2) "pk_a"),
      fun _ => .call (.completeViewChange "b" "sig_b")] (by decide +kernel)
  exact ⟨s, ⟨past, hr⟩, hx, (commits_survive _ s).2 ⟨past, hr⟩⟩

/-- The same with the commit at round 0: nobody reports it, and view 1 starts at round 0 without a proposal. -/
theorem commit_at_round_zero_lost : ¬ ∀ s : Journal Unit,
    (journalled fun _ _ _ => true).Reachable (fun _ _ => True) s → ∀ x ∈ s.installs, x.Keeps := by
  intro hall
  obtain ⟨s, past, hr, hx⟩ := System.exists_run_of_play (M := journalled (δ := Unit) fun _ _ _ => true)
    (fun _ _ => True) (P := fun s _ => ∃ x ∈ s.installs, ¬ x.Keeps) trioJournal_init
    [fun _ => .call (.round (.recordCommit 0 "block_x")), fun _ => .call (.triggerViewChange "b" "sig_b" 100),
      fun _ => .call (.processViewChange (viewOneMessage "a" 100) "pk_a"),
      fun _ => .call (.completeViewChange "b" "sig_b")] (by decide +kernel)
  obtain ⟨x, hmem, hlost⟩ := hx
  exact hlost (hall s ⟨past, hr⟩ x hmem)

end WarmLogic.Consensus.Bft
