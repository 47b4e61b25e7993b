/-
# WarmLogic.Kernel.ServiceQuorum — service registration by quorum, of `kernel/ops/service_registry.py`.

A dict is an association list with distinct keys. Where the source raises, a call stops and keeps what it did so far.
Voters are identified by whatever JSON value a peer sends: a text, or some other key that Python can hash (`Key`; its
equality is that of dict keys), for which the call records the vote and then raises while it prints. An id that cannot
be hashed, and a vote for a proposal whose id is no text, touch nothing that a commit reads. The contacts of the routing
table are a number.

`on_receive_proposal` takes the id that comes with a proposal, and forgets nothing but the proposal when it commits:
the votes stay. `commits_are_quorum_decisions` says that no more than that goes wrong.
-/
import WarmLogic.Lib.Json
import WarmLogic.Lib.Run
import Mathlib.Data.List.AList
import Mathlib.Data.Finset.Card

namespace WarmLogic.Kernel

open WarmLogic.Lib

/-- A dict from texts to JSON values. -/
abbrev JsonDict := List (List Char × Json)

/-- Python's `bool(v)`. A float is zero when its mantissa has no other digit. -/
def truthy : Json → Bool
  | .null => false
  | .bool b => b
  | .int n => n != 0
  | .float literal => (literal.takeWhile fun c => c != 'e' && c != 'E').any fun c => decide (49 ≤ c.toNat ∧ c.toNat ≤ 57)
  | .str s => !s.isEmpty
  | .arr items => !items.isEmpty
  | .obj pairs => !pairs.isEmpty

/-- The text that `json.dumps` makes of a dict's key; `none` where the value cannot be a key. -/
def keyText : Json → Option (List Char)
  | .null => some "null".toList
  | .bool true => some "true".toList
  | .bool false => some "false".toList
  | .int n => some (Json.intText n)
  | .float literal => some literal
  | .str s => some s
  | .arr _ => none
  | .obj _ => none

inductive VoterId (Key : Type) where
  | text (id : List Char)
  | other (key : Key)
  deriving DecidableEq

namespace ServiceQuorum

/-! ## The registry -/

/-- What a node knows apart from the registry: SHA-256 in hex, its own id, the number of its contacts, and whether the
store is open. -/
structure Node where
  sha256 : List Char → List Char
  nodeId : List Char
  contacts : Nat
  connected : Bool

variable {Key : Type} [DecidableEq Key]

/-- The votes for one proposal. -/
abbrev Votes (Key : Type) [DecidableEq Key] := AList fun _ : VoterId Key => Json

/-- `ServiceQuorum`, with the row `marketplace.providers` of its store. -/
structure Registry (Key : Type) [DecidableEq Key] where
  votes : AList fun _ : List Char => Votes Key
  proposals : AList fun _ : List Char => JsonDict
  providers : Option JsonDict

/-- A service that was stored: for which proposal, what, and the votes for the proposal at that moment. -/
structure Commit (Key : Type) [DecidableEq Key] where
  proposalId : List Char
  data : JsonDict
  votes : Votes Key

/-- `self.votes[proposal_id]`, empty before the first vote. -/
def Registry.votesFor (s : Registry Key) (proposalId : List Char) : Votes Key := (s.votes.lookup proposalId).getD ∅

/-- `sum(1 for v in votes.values() if v)`. -/
def yesVotes (votes : Votes Key) : Nat := votes.entries.countP fun entry => truthy entry.2

/-- `total_peers * 2 // 3 + 1`. -/
def Node.threshold (node : Node) : Nat := (node.contacts + 1) * 2 / 3 + 1

/-- The provider's id and the data that `_commit_service` stores for a proposal; `none` where it raises. -/
def storedEntry (proposal : JsonDict) : Option (List Char × JsonDict) :=
  match Json.getItem proposal "data".toList with
  | some (.obj data) =>
      let nodeId :=
        match Json.getItem data "node_id".toList with
        | some v => if truthy v then some v else Json.getItem proposal "proposer_id".toList
        | none => Json.getItem proposal "proposer_id".toList
      (nodeId.bind keyText).map fun key => (key, data)
  | _ => none

/-- `_commit_service`. -/
def commitService (node : Node) (s : Registry Key) (proposalId : List Char) : Registry Key × List (Commit Key) :=
  match s.proposals.lookup proposalId with
  | none => (s, [])
  | some proposal =>
      let popped := { s with proposals := s.proposals.erase proposalId }
      match storedEntry proposal with
      | none => (popped, [])
      | some (nodeId, data) =>
          if node.connected then
            ({ popped with providers := some (Json.setItem (s.providers.getD []) nodeId (.obj data)) },
              [⟨proposalId, data, s.votesFor proposalId⟩])
          else (popped, [])

def Registry.recordVote (s : Registry Key) (voterId : VoterId Key) (proposalId : List Char) (vote : Json) : Registry Key :=
  { s with votes := s.votes.insert proposalId ((s.votesFor proposalId).insert voterId vote) }

def onReceiveVote (node : Node) (s : Registry Key) (voterId : VoterId Key) (proposalId : List Char) (vote : Json) :
    Registry Key × List (Commit Key) :=
  let s := s.recordVote voterId proposalId vote
  match voterId with
  -- the call raises while it prints the first characters of the id
  | .other _ => (s, [])
  | .text _ =>
      if node.threshold ≤ yesVotes (s.votesFor proposalId) ∧ proposalId ∈ s.proposals then commitService node s proposalId
      else (s, [])

def castVote (node : Node) (s : Registry Key) (proposalId : List Char) (vote : Bool) : Registry Key × List (Commit Key) :=
  onReceiveVote node s (.text node.nodeId) proposalId (.bool vote)

/-- `hashlib.sha256(json.dumps(service_data, sort_keys=True).encode()).hexdigest()`. -/
def Node.idOf (node : Node) (serviceData : JsonDict) : List Char := node.sha256 (Json.dumpsSorted (.obj serviceData))

/-- The proposal that `propose_service` stores and broadcasts. -/
def Node.ownProposal (node : Node) (serviceData : JsonDict) : JsonDict :=
  [("type".toList, .str "SERVICE_REGISTRATION_PROPOSAL".toList), ("proposal_id".toList, .str (node.idOf serviceData)),
    ("data".toList, .obj serviceData), ("proposer_id".toList, .str node.nodeId)]

def Registry.store (s : Registry Key) (proposalId : List Char) (proposal : JsonDict) : Registry Key :=
  { s with proposals := s.proposals.insert proposalId proposal }

def proposeService (node : Node) (s : Registry Key) (serviceData : JsonDict) : Registry Key × List (Commit Key) :=
  castVote node (s.store (node.idOf serviceData) (node.ownProposal serviceData)) (node.idOf serviceData) true

/-- The id that comes with a proposal; `none` where it is falsy, or no text, at which the call raises. -/
def proposalIdOf (proposal : JsonDict) : Option (List Char) :=
  match Json.getItem proposal "proposal_id".toList with
  | some (.str proposalId) => if proposalId = [] then none else some proposalId
  | _ => none

def onReceiveProposal (node : Node) (s : Registry Key) (proposal : JsonDict) : Registry Key × List (Commit Key) :=
  match proposalIdOf proposal with
  | none => (s, [])
  | some proposalId =>
      if proposalId ∈ s.proposals then (s, []) else castVote node (s.store proposalId proposal) proposalId true

/-! ## Runs -/

inductive Op (Key : Type) where
  | proposeService (serviceData : JsonDict)
  | onReceiveProposal (proposal : JsonDict)
  | onReceiveVote (voterId : VoterId Key) (proposalId : List Char) (vote : Json)

/-- The registry and all that it has stored, the newest last. -/
structure Trace (Key : Type) [DecidableEq Key] where
  registry : Registry Key
  committed : List (Commit Key)

def Op.call (node : Node) (s : Registry Key) : Op Key → Registry Key × List (Commit Key)
  | .proposeService serviceData => ServiceQuorum.proposeService node s serviceData
  | .onReceiveProposal proposal => ServiceQuorum.onReceiveProposal node s proposal
  | .onReceiveVote voterId proposalId vote => ServiceQuorum.onReceiveVote node s voterId proposalId vote

/-- The registry under all calls, from one without votes and proposals. -/
def system (Key : Type) [DecidableEq Key] (node : Node) : System (Trace Key) (Op Key) where
  init t := t.registry.votes = ∅ ∧ t.registry.proposals = ∅ ∧ t.committed = []
  step op t := some ⟨(op.call node t.registry).1, t.committed ++ (op.call node t.registry).2⟩

/-- The proposal that a call stores, and under which id. -/
def Op.stores (node : Node) (s : Registry Key) : Op Key → Option (List Char × JsonDict)
  | .proposeService serviceData => some (node.idOf serviceData, node.ownProposal serviceData)
  | .onReceiveProposal proposal =>
      (proposalIdOf proposal).bind fun proposalId =>
        if proposalId ∈ s.proposals then none else some (proposalId, proposal)
  | .onReceiveVote _ _ _ => none

/-- A call stores no proposal whose id is not the hash of its data, and none under an id that was committed before.
Proposals that no commit could store do not count. -/
def StoresFreshHash (node : Node) (op : Op Key) (t : Trace Key) : Prop :=
  ∀ proposalId proposal, op.stores node t.registry = some (proposalId, proposal) →
    ∀ nodeId data, storedEntry proposal = some (nodeId, data) →
      proposalId = node.idOf data ∧ proposalId ∉ t.committed.map (·.proposalId)

/-- What a quorum decision is: on the data whose hash is voted on, by enough distinct voters whose current vote is
yes, and once. -/
structure QuorumDecisions (node : Node) (committed : List (Commit Key)) : Prop where
  hashed : ∀ c ∈ committed, c.proposalId = node.idOf c.data
  quorum : ∀ c ∈ committed, ∃ voters : Finset (VoterId Key), 2 * (node.contacts + 1) / 3 + 1 ≤ voters.card ∧
    ∀ voterId ∈ voters, ∃ vote, c.votes.lookup voterId = some vote ∧ truthy vote = true
  once : (committed.map (·.proposalId)).Nodup

/-! ## What a call can do -/

/-- What is pending in `s'` was pending in `s`. -/
def Pends (s s' : Registry Key) : Prop :=
  ∀ p proposal, s'.proposals.lookup p = some proposal → s.proposals.lookup p = some proposal

theorem pends_erase (s : Registry Key) (proposalId : List Char) (providers : Option JsonDict) :
    Pends s ⟨s.votes, s.proposals.erase proposalId, providers⟩ := by
  intro p proposal hp
  by_cases heq : p = proposalId
  · rw [heq, AList.lookup_erase] at hp
    cases hp
  · rwa [AList.lookup_erase_ne heq] at hp

/-- A call committed the pending proposal `proposalId`, which is no longer pending, with these votes for it. -/
structure Commits (s s' : Registry Key) (votes : Votes Key) (proposalId : List Char) (committed : List (Commit Key)) :
    Prop where
  entry : ∃ proposal nodeId data, s.proposals.lookup proposalId = some proposal ∧
    storedEntry proposal = some (nodeId, data) ∧ committed = [⟨proposalId, data, votes⟩]
  gone : s'.proposals.lookup proposalId = none

theorem commitService_cases (node : Node) (s : Registry Key) (proposalId : List Char) :
    Pends s (commitService node s proposalId).1 ∧
      ((commitService node s proposalId).2 = [] ∨
        Commits s (commitService node s proposalId).1 (s.votesFor proposalId) proposalId
          (commitService node s proposalId).2) := by
  unfold commitService
  cases hlookup : s.proposals.lookup proposalId with
  | none => exact ⟨fun _ _ hp => hp, .inl rfl⟩
  | some proposal =>
    cases hentry : storedEntry proposal with
    | none =>
      simp only [hentry]
      exact ⟨pends_erase s proposalId s.providers, .inl trivial⟩
    | some entry =>
      obtain ⟨nodeId, data⟩ := entry
      simp only [hentry]
      by_cases hconnected : node.connected = true
      · rw [if_pos hconnected]
        refine ⟨pends_erase s proposalId _, .inr ⟨⟨proposal, nodeId, data, hlookup, hentry, rfl⟩, ?_⟩⟩
        exact AList.lookup_erase _ _
      · rw [if_neg hconnected]
        exact ⟨pends_erase s proposalId s.providers, .inl rfl⟩

/-- **A vote** can commit only the proposal it is for, when that is pending and has enough votes. -/
theorem onReceiveVote_cases (node : Node) (s : Registry Key) (voterId : VoterId Key) (proposalId : List Char) (vote : Json) :
    Pends s (onReceiveVote node s voterId proposalId vote).1 ∧
      ((onReceiveVote node s voterId proposalId vote).2 = [] ∨ ∃ votes, node.threshold ≤ yesVotes votes ∧
        Commits s (onReceiveVote node s voterId proposalId vote).1 votes proposalId
          (onReceiveVote node s voterId proposalId vote).2) := by
  cases voterId with
  | other key => exact ⟨fun _ _ hp => hp, .inl rfl⟩
  | text id =>
    show Pends s (ite _ _ _ : _ × _).1 ∧ ((ite _ _ _ : _ × _).2 = [] ∨ ∃ votes, _ ∧
      Commits s (ite _ _ _ : _ × _).1 votes proposalId (ite _ _ _ : _ × _).2)
    split
    · next hquorum =>
      obtain ⟨hpends, hcommits⟩ := commitService_cases node (s.recordVote (.text id) proposalId vote) proposalId
      refine ⟨hpends, hcommits.imp_right fun h => ⟨_, hquorum.1, h.entry, h.gone⟩⟩
    · exact ⟨fun _ _ hp => hp, .inl rfl⟩

/-- **A call** stores at most one proposal, and then it commits at most one that is pending. -/
theorem call_cases (node : Node) (s : Registry Key) (op : Op Key) :
    ∃ s₁ : Registry Key, (s₁.proposals = s.proposals ∨ ∃ p proposal, op.stores node s = some (p, proposal) ∧
        s₁.proposals = s.proposals.insert p proposal) ∧
      Pends s₁ (op.call node s).1 ∧
      ((op.call node s).2 = [] ∨ ∃ votes p, node.threshold ≤ yesVotes votes ∧
        Commits s₁ (op.call node s).1 votes p (op.call node s).2) := by
  cases op with
  | proposeService serviceData =>
    obtain ⟨hpends, hcommits⟩ := onReceiveVote_cases node (s.store (node.idOf serviceData) (node.ownProposal serviceData))
      (.text node.nodeId) (node.idOf serviceData) (.bool true)
    refine ⟨s.store (node.idOf serviceData) (node.ownProposal serviceData), .inr ⟨_, _, rfl, rfl⟩, hpends, ?_⟩
    exact hcommits.imp_right fun ⟨votes, h⟩ => ⟨votes, _, h⟩
  | onReceiveVote voterId proposalId vote =>
    obtain ⟨hpends, hcommits⟩ := onReceiveVote_cases node s voterId proposalId vote
    exact ⟨s, .inl rfl, hpends, hcommits.imp_right fun ⟨votes, h⟩ => ⟨votes, _, h⟩⟩
  | onReceiveProposal proposal =>
    have hnothing : ∃ s₁ : Registry Key, (s₁.proposals = s.proposals ∨ ∃ p proposal',
        (Op.onReceiveProposal proposal : Op Key).stores node s = some (p, proposal') ∧
          s₁.proposals = s.proposals.insert p proposal') ∧ Pends s₁ s ∧
        (([] : List (Commit Key)) = [] ∨ ∃ votes p, node.threshold ≤ yesVotes votes ∧ Commits s₁ s votes p []) :=
      ⟨s, .inl rfl, fun _ _ hp => hp, .inl rfl⟩
    simp only [Op.call, ServiceQuorum.onReceiveProposal]
    cases hid : proposalIdOf proposal with
    | none => exact hnothing
    | some proposalId =>
      simp only
      by_cases hpending : proposalId ∈ s.proposals
      · rw [if_pos hpending]
        exact hnothing
      · rw [if_neg hpending]
        obtain ⟨hpends, hcommits⟩ := onReceiveVote_cases node (s.store proposalId proposal) (.text node.nodeId)
          proposalId (.bool true)
        refine ⟨s.store proposalId proposal, .inr ⟨proposalId, proposal, ?_, rfl⟩, hpends, ?_⟩
        · simp [Op.stores, hid, hpending]
        · exact hcommits.imp_right fun ⟨votes, h⟩ => ⟨votes, _, h⟩

/-! ## Quorum decisions -/

/-- The number of true entries of a dict is a number of distinct keys. -/
theorem exists_yesVoters (votes : Votes Key) : ∃ voters : Finset (VoterId Key), voters.card = yesVotes votes ∧
    ∀ voterId ∈ voters, ∃ vote, votes.lookup voterId = some vote ∧ truthy vote = true := by
  have hnodup : ((votes.entries.filter fun entry => truthy entry.2).map Sigma.fst).Nodup :=
    List.Nodup.sublist (List.filter_sublist.map _) votes.nodupKeys
  refine ⟨((votes.entries.filter fun entry => truthy entry.2).map Sigma.fst).toFinset, ?_, ?_⟩
  · rw [List.toFinset_card_of_nodup hnodup, List.length_map, yesVotes, List.countP_eq_length_filter]
  · intro voterId hmem
    obtain ⟨⟨k, vote⟩, hentry, rfl⟩ := List.mem_map.1 (List.mem_toFinset.1 hmem)
    obtain ⟨hin, htrue⟩ := List.mem_filter.1 hentry
    exact ⟨vote, AList.mem_lookup_iff.2 hin, htrue⟩

theorem threshold_eq (node : Node) : node.threshold = 2 * (node.contacts + 1) / 3 + 1 := by
  rw [Node.threshold, Nat.mul_comm]

/-- Each pending proposal that could be stored has the hash of its data for its id, and was not committed before. -/
def PendingFresh (node : Node) (t : Trace Key) : Prop :=
  ∀ p proposal nodeId data, t.registry.proposals.lookup p = some proposal → storedEntry proposal = some (nodeId, data) →
    p = node.idOf data ∧ p ∉ t.committed.map (·.proposalId)

/-- What a call stores keeps the pending proposals fresh. -/
theorem fresh_of_stores {node : Node} {op : Op Key} {t : Trace Key} (hop : StoresFreshHash node op t)
    (hfresh : PendingFresh node t) {s₁ : Registry Key} (hs₁ : s₁.proposals = t.registry.proposals ∨ ∃ p proposal,
      op.stores node t.registry = some (p, proposal) ∧ s₁.proposals = t.registry.proposals.insert p proposal)
    {p : List Char} {proposal : JsonDict} {nodeId : List Char} {data : JsonDict}
    (hp : s₁.proposals.lookup p = some proposal) (hentry : storedEntry proposal = some (nodeId, data)) :
    p = node.idOf data ∧ p ∉ t.committed.map (·.proposalId) := by
  rcases hs₁ with heq | ⟨p', proposal', hstores, heq⟩
  · exact hfresh p proposal nodeId data (heq ▸ hp) hentry
  · rw [heq] at hp
    by_cases hsame : p = p'
    · rw [hsame, AList.lookup_insert] at hp
      cases hp
      exact hsame ▸ hop p' _ hstores nodeId data hentry
    · rw [AList.lookup_insert_ne hsame] at hp
      exact hfresh p proposal nodeId data hp hentry

/-- The step lemma: a call that stores only fresh proposals keeps both the decisions and the freshness. -/
theorem decisions_step {node : Node} {op : Op Key} {t : Trace Key} (hop : StoresFreshHash node op t)
    (hfresh : PendingFresh node t) (hdecisions : QuorumDecisions node t.committed) :
    PendingFresh node ⟨(op.call node t.registry).1, t.committed ++ (op.call node t.registry).2⟩ ∧
      QuorumDecisions node (t.committed ++ (op.call node t.registry).2) := by
  obtain ⟨s₁, hs₁, hpends, hcommits⟩ := call_cases node t.registry op
  have hfresh₁ := @fresh_of_stores _ _ node op t hop hfresh s₁ hs₁
  rcases hcommits with hnone | ⟨votes, p, hquorum, ⟨proposal, nodeId, data, hp, hentry, hcommit⟩, hgone⟩
  · rw [hnone, List.append_nil]
    exact ⟨fun p proposal nodeId data hp hentry => hfresh₁ (hpends p proposal hp) hentry, hdecisions⟩
  · obtain ⟨hhash, hnew⟩ := hfresh₁ hp hentry
    rw [hcommit]
    refine ⟨fun p' proposal' nodeId' data' hp' hentry' => ?_, ?_, ?_, ?_⟩
    · obtain ⟨hhash', hnew'⟩ := hfresh₁ (hpends p' proposal' hp') hentry'
      refine ⟨hhash', fun hmem => ?_⟩
      rw [List.map_append, List.mem_append] at hmem
      rcases hmem with hold | hlast
      · exact hnew' hold
      · -- what is committed is no longer pending
        rw [List.mem_singleton.1 hlast, hgone] at hp'
        cases hp'
    · intro c hc
      rcases List.mem_append.1 hc with hold | hlast
      · exact hdecisions.hashed c hold
      · rw [List.mem_singleton.1 hlast]
        exact hhash
    · intro c hc
      rcases List.mem_append.1 hc with hold | hlast
      · exact hdecisions.quorum c hold
      · rw [List.mem_singleton.1 hlast]
        obtain ⟨voters, hcard, hvoters⟩ := exists_yesVoters votes
        refine ⟨voters, ?_, hvoters⟩
        rw [hcard, ← threshold_eq]
        exact hquorum
    · rw [List.map_append, List.map_singleton]
      exact List.nodup_append.2 ⟨hdecisions.once, List.nodup_singleton _, fun a ha b hb => by
        rw [List.mem_singleton.1 hb]
        rintro rfl
        exact hnew ha⟩

/-- **Commits are quorum decisions**, in every run whose calls store only fresh proposals: whatever is voted on, by
whom and in which order. A commit counts the votes of distinct voters, and for a proposal that was fresh when it was
stored all of these are for it. -/
theorem commits_are_quorum_decisions (node : Node) (t : Trace Key)
    (h : (system Key node).Reachable (StoresFreshHash node) t) : QuorumDecisions node t.committed := by
  refine (System.Reachable.invariant (P := fun t => PendingFresh node t ∧ QuorumDecisions node t.committed)
    ?_ ?_ h).2
  · rintro t ⟨-, hproposals, hcommitted⟩
    refine ⟨fun p proposal _ _ hp => ?_, ?_, ?_, ?_⟩
    · rw [hproposals, AList.lookup_empty] at hp
      cases hp
    · simp [hcommitted]
    · simp [hcommitted]
    · simp [hcommitted]
  · rintro t op t' ⟨hfresh, hdecisions⟩ hop hstep
    cases hstep
    exact decisions_step hop hfresh hdecisions

/-- SHA-256 of `{}`, in hex. -/
def emptyDictDigest : List Char := "44136fa355b3678a1146ad16f7e8649e94fb4fc21fe77e8310c060f61caaff8a".toList

/-- A node with so many contacts; its hash function is as SHA-256 on the text of an empty dict. -/
def sampleNode (contacts : Nat) : Node :=
  ⟨fun text => if text = ['{', '}'] then emptyDictDigest else [], "aa".toList, contacts, true⟩

theorem sampleNode_idOf (contacts : Nat) : (sampleNode contacts).idOf [] = emptyDictDigest := by
  have htext : Json.dumpsSorted (.obj []) = ['{', '}'] := by
    simp [Json.dumpsSorted, Json.dumpsPairs, Json.joined]
  rw [Node.idOf, htext]
  rfl

def noVotes : Trace Unit := ⟨⟨∅, ∅, none⟩, []⟩

/-- A peer's proposal of an empty dict, under this id. -/
def peerProposal (proposalId : List Char) : JsonDict :=
  [("proposal_id".toList, .str proposalId), ("data".toList, .obj []), ("proposer_id".toList, .str "bb".toList)]

/-- With one contact, the vote of the proposer completes the quorum. -/
theorem commits_after_peer_vote :
    ∃ t : Trace Unit, (system Unit (sampleNode 1)).Reachable (StoresFreshHash (sampleNode 1)) t ∧
      t.committed.length = 1 ∧ QuorumDecisions (sampleNode 1) t.committed := by
  have hrun : (system Unit (sampleNode 1)).Run (StoresFreshHash (sampleNode 1)) [_, noVotes] :=
    .step (a := .onReceiveProposal (peerProposal emptyDictDigest)) (.init ⟨rfl, rfl, rfl⟩) ?_ rfl
  · have hrun₂ := System.Run.step hrun (a := .onReceiveVote (.text "bb".toList) emptyDictDigest (.bool true))
      (fun p proposal hp => by cases hp) rfl
    exact ⟨_, ⟨_, hrun₂⟩, by decide, commits_are_quorum_decisions _ _ ⟨_, hrun₂⟩⟩
  · intro p proposal hp nodeId data hentry
    cases hp
    cases hentry
    exact ⟨(sampleNode_idOf 1).symm, List.not_mem_nil⟩

/-- A proposal is committed under an id that is no hash of its data, and a proposal that is made again is committed
again. Without contacts, the node's own vote is the quorum. -/
theorem misnamed_and_repeated_commits :
    (¬ ∀ (node : Node) (t : Trace Unit), (system Unit node).Reachable (fun _ _ => True) t →
        ∀ c ∈ t.committed, c.proposalId = node.idOf c.data) ∧
      ¬ ∀ (node : Node) (t : Trace Unit), (system Unit node).Reachable (fun _ _ => True) t →
        (t.committed.map (·.proposalId)).Nodup := by
  constructor
  · intro hall
    have hrun : (system Unit (sampleNode 0)).Run (fun _ _ => True) [_, noVotes] :=
      .step (a := .onReceiveProposal (peerProposal "x".toList)) (.init ⟨rfl, rfl, rfl⟩) trivial rfl
    have hid := hall (sampleNode 0) _ ⟨_, hrun⟩ ⟨"x".toList, [], _⟩ (List.mem_singleton.2 rfl)
    rw [sampleNode_idOf] at hid
    exact absurd hid (by decide)
  · intro hall
    have hrun : (system Unit (sampleNode 0)).Run (fun _ _ => True) [_, noVotes] :=
      .step (a := .onReceiveProposal (peerProposal emptyDictDigest)) (.init ⟨rfl, rfl, rfl⟩) trivial rfl
    have hrun₂ := System.Run.step hrun (a := .onReceiveProposal (peerProposal emptyDictDigest)) trivial rfl
    exact absurd (hall (sampleNode 0) _ ⟨_, hrun₂⟩) (by decide)

end ServiceQuorum

end WarmLogic.Kernel
