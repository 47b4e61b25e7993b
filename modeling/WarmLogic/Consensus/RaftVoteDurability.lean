/-
# WarmLogic.Consensus.RaftVoteDurability — one vote a term, across crashes.

A running engine votes once a term: the vote is forgotten only with the term. Across a restart it is what `meta.bin`
says, and a grant is ANSWERED before the worker has written it. So the promise holds exactly as far as the worker got:
the invariant says that every vote ever granted is remembered by the file or still in the queue, and a crash breaks it
only by losing a queued vote the file does not remember.

The order matters in two places. `handle_request_vote` puts the metadata in the queue and returns the answer, so an
answer can be on its way while the file still has the old vote; and the queue is worked off in order, so what the file
will say last is what the engine says now. The invariant follows the metadata from the file through the queue to the
engine as one chain in which no vote is forgotten within a term.

The condition on a restart is stated on the directory as it is then: whatever vote is still in the queue must be
remembered by the file too. A restart after a flush always meets it, and so does one that loses nothing but older
terms.
-/
import WarmLogic.Consensus.Cluster
import WarmLogic.Consensus.StoredNode

namespace WarmLogic.Consensus

open WarmLogic.Lib

/-! ## What metadata remember -/

/-- A node with these metadata gives no vote of term `term` to anyone but `c`. -/
def RaftMetadata.Remembers (m : RaftMetadata) (term : UInt64) (c : String) : Prop :=
  term < m.currentTerm ∨ term = m.currentTerm ∧ m.votedFor = some c

instance (m : RaftMetadata) (term : UInt64) (c : String) : Decidable (m.Remembers term c) :=
  inferInstanceAs (Decidable (_ ∨ _ ∧ _))

theorem RaftMetadata.Remembers.keeps {m m' : RaftMetadata} {term : UInt64} {c : String}
    (h : m.Remembers term c) (hk : m.Keeps m') : m'.Remembers term c := by
  rcases h with hlt | ⟨heq, hv⟩
  · rcases hk with hlt' | ⟨heq', -⟩
    · exact .inl (UInt64.lt_trans hlt hlt')
    · exact .inl (heq' ▸ hlt)
  · rcases hk with hlt' | ⟨heq', hv'⟩
    · exact .inl (heq ▸ hlt')
    · refine .inr ⟨heq.trans heq', ?_⟩
      rcases hv' with hv' | hv'
      · rw [hv] at hv'
        cases hv'
      · exact hv'.trans hv

/-- In the term of the metadata only the vote itself is remembered. -/
theorem RaftMetadata.Remembers.votedFor {m : RaftMetadata} {term : UInt64} {c : String} (h : m.Remembers term c)
    (hterm : term = m.currentTerm) : m.votedFor = some c := by
  rcases h with hlt | ⟨-, hv⟩
  · rw [hterm] at hlt
    exact absurd hlt (UInt64.lt_irrefl _)
  · exact hv

/-- The file on disk remembers the vote. -/
def RaftStorage.OnDisk (st : RaftStorage) (term : UInt64) (c : String) : Prop :=
  ∃ m ∈ st.metaFile, m.Remembers term c

instance (st : RaftStorage) (term : UInt64) (c : String) : Decidable (st.OnDisk term c) :=
  inferInstanceAs (Decidable (∃ m ∈ st.metaFile, m.Remembers term c))

namespace StoredNode

variable {env : Env} {s s' : StoredNode}

/-- **No two grants of one term go to different candidates.** -/
def GrantsOnce (s : StoredNode) : Prop :=
  ∀ m ∈ s.sent, ∀ m' ∈ s.sent, m.payload = .voteResponse true → m'.payload = .voteResponse true →
    m.term = m'.term → m.targetId = m'.targetId

instance (s : StoredNode) : Decidable s.GrantsOnce :=
  inferInstanceAs (Decidable (∀ m ∈ s.sent, ∀ m' ∈ s.sent, _))

/-- **The condition.** A restart loses no vote: every queued one is remembered by the file too. -/
def NoVoteLost : NodeOp → StoredNode → Prop
  | .restart _ _ _, s => ∀ st ∈ s.engine.storage, ∀ m ∈ metasOf st.queue, ∀ c ∈ m.votedFor,
      st.OnDisk m.currentTerm c
  | _, _ => True

instance : ∀ op s, Decidable (NoVoteLost op s)
  | .restart _ _ _, s => inferInstanceAs (Decidable (∀ st ∈ s.engine.storage, ∀ m ∈ metasOf st.queue, _))
  | .call _, _ => inferInstanceAs (Decidable True)
  | .startElection, _ => inferInstanceAs (Decidable True)
  | .sendHeartbeats, _ => inferInstanceAs (Decidable True)
  | .advanceAppliedIndex, _ => inferInstanceAs (Decidable True)
  | .registerPeerKey _ _, _ => inferInstanceAs (Decidable True)
  | .saveSnapshot _, _ => inferInstanceAs (Decidable True)
  | .work, _ => inferInstanceAs (Decidable True)

/-- An engine as `new` makes it on any directory. -/
def Opened (env : Env) (e : RaftEngine) : Prop :=
  ∃ n peers key wal metaFile snapshotFile machine,
    e = RaftEngine.new env n peers key (some (RaftStorage.tryNew wal metaFile snapshotFile)) machine

/-! ## The invariant -/

/-- Every grant is on disk or queued, and from the file through the queue to the engine no vote is forgotten. A grant
is put in the queue by the call that makes it (`GrantIn`), the worker moves it to the file, and a later command of the
queue cannot forget it within its term. Two grants of one term are therefore both remembered by the engine's own
metadata, which name one candidate (`once`). -/
structure VotesBacked (s : StoredNode) (st : RaftStorage) : Prop where
  storage : s.engine.storage = some st
  chain : (st.metaFile.toList ++ metasOf st.queue ++ [s.engine.metadata]).Pairwise RaftMetadata.Keeps
  backed : ∀ m ∈ s.sent, m.payload = .voteResponse true → ∃ c, m.targetId = some c ∧
    (st.OnDisk m.term c ∨ ∃ q ∈ metasOf st.queue, q.currentTerm = m.term ∧ q.votedFor = some c)
  once : s.GrantsOnce

/-- The engine forgets no vote of the file or of the queue. -/
theorem VotesBacked.keeps {st : RaftStorage} (h : VotesBacked s st) :
    ∀ q ∈ st.metaFile.toList ++ metasOf st.queue, q.Keeps s.engine.metadata := by
  intro q hq
  exact (List.pairwise_append.mp h.chain).2.2 q hq _ (List.mem_singleton_self _)

/-- The engine remembers every vote it granted. -/
theorem VotesBacked.remembers {st : RaftStorage} (h : VotesBacked s st) {m : RaftRPC} (hm : m ∈ s.sent)
    (hv : m.payload = .voteResponse true) : ∃ c, m.targetId = some c ∧ s.engine.metadata.Remembers m.term c := by
  obtain ⟨c, htarget, hback⟩ := h.backed m hm hv
  refine ⟨c, htarget, ?_⟩
  rcases hback with ⟨q, hq, hrem⟩ | ⟨q, hq, hterm, hvote⟩
  · exact hrem.keeps (h.keeps q (List.mem_append_left _ (Option.mem_toList.mpr hq)))
  · have hrem : q.Remembers m.term c := .inr ⟨hterm.symm, hvote⟩
    exact hrem.keeps (h.keeps q (List.mem_append_right _ hq))

/-! ## One lemma per step -/

/-- What a call saves, and where it ends, go on with the chain of file and queue. -/
theorem VotesBacked.chain_extend {st : RaftStorage} (h : VotesBacked s st) {ms : List RaftMetadata} {m' : RaftMetadata}
    (hchain : (s.engine.metadata :: ms).Pairwise RaftMetadata.Keeps)
    (hend : ∀ a ∈ s.engine.metadata :: ms, a.Keeps m') :
    (st.metaFile.toList ++ metasOf st.queue ++ (ms ++ [m'])).Pairwise RaftMetadata.Keeps := by
  rw [List.pairwise_append]
  refine ⟨(List.pairwise_append.mp h.chain).1, ?_, ?_⟩
  · rw [List.pairwise_append]
    refine ⟨hchain.of_cons, List.pairwise_singleton _ _, ?_⟩
    intro a ha b hb
    rw [List.mem_singleton.mp hb]
    exact hend a (List.mem_cons_of_mem _ ha)
  · intro a ha b hb
    refine (h.keeps a ha).trans ?_
    rcases List.mem_append.mp hb with hb | hb
    · exact (List.pairwise_cons.mp hchain).1 b hb
    · rw [List.mem_singleton.mp hb]
      exact hend _ List.mem_cons_self

/-- New grants are the vote of the last metadata in their own term; with the old votes remembered there, no two differ. -/
theorem VotesBacked.once_extend {st : RaftStorage} (h : VotesBacked s st) {m' : RaftMetadata} {outs : List RaftRPC}
    (hkeeps : s.engine.metadata.Keeps m')
    (hgrant : ∀ m ∈ outs, m.payload = .voteResponse true →
      ∃ c, m.targetId = some c ∧ m.term = m'.currentTerm ∧ m'.votedFor = some c) :
    GrantsOnce { s with sent := outs ++ s.sent } := by
  have hrem : ∀ m ∈ outs ++ s.sent, m.payload = .voteResponse true →
      ∃ c, m.targetId = some c ∧ m'.Remembers m.term c := by
    intro m hm hv
    rcases List.mem_append.mp hm with hm | hm
    · obtain ⟨c, htarget, hterm, hvote⟩ := hgrant m hm hv
      exact ⟨c, htarget, .inr ⟨hterm, hvote⟩⟩
    · obtain ⟨c, htarget, hrem⟩ := h.remembers hm hv
      exact ⟨c, htarget, hrem.keeps hkeeps⟩
  intro a ha b hb hv hv' hterm
  by_cases hnew : a ∈ outs ∨ b ∈ outs
  · have hnow : a.term = m'.currentTerm := by
      rcases hnew with hnew | hnew
      · obtain ⟨c, -, ht, -⟩ := hgrant a hnew hv
        exact ht
      · obtain ⟨c, -, ht, -⟩ := hgrant b hnew hv'
        exact hterm.trans ht
    obtain ⟨c, htarget, hc⟩ := hrem a ha hv
    obtain ⟨c', htarget', hc'⟩ := hrem b hb hv'
    have hsame : some c = some c' := (hc.votedFor hnow).symm.trans (hc'.votedFor (hterm.symm.trans hnow))
    rw [htarget, htarget', hsame]
  · push Not at hnew
    exact h.once a ((List.mem_append.mp ha).resolve_left hnew.1) b
      ((List.mem_append.mp hb).resolve_left hnew.2) hv hv' hterm

theorem VotesBacked.method {st : RaftStorage} (h : VotesBacked s st) {op : NodeOp} {cmds : List StorageCommand}
    {e : RaftEngine} {outs : List RaftRPC} (hw : RaftEngine.Wrote (op.cut env s.engine) cmds e)
    (hgrant : ∀ m ∈ outs, RaftEngine.GrantIn e cmds m) :
    ∃ st', VotesBacked { s with engine := e, sent := outs ++ s.sent } st' := by
  obtain ⟨w, hst⟩ := hw.exists_storage h.storage
  have hchain := hw.chain
  have hlast := hw.last
  rw [NodeOp.cut_metadata] at hchain hlast
  have hend := RaftEngine.keeps_last hchain hlast
  refine ⟨_, hst, ?_, ?_, ?_⟩
  · dsimp only
    rw [metasOf_append, ← List.append_assoc, List.append_assoc _ (metasOf cmds)]
    exact h.chain_extend hchain hend
  · intro m hm hv
    dsimp only
    rw [metasOf_append]
    rcases List.mem_append.mp hm with hm | hm
    · obtain ⟨c, htarget, hterm, hvote, hmem⟩ := hgrant m hm hv
      exact ⟨c, htarget, .inr ⟨e.metadata, List.mem_append_right _ hmem, hterm.symm, hvote⟩⟩
    · obtain ⟨c, htarget, hback⟩ := h.backed m hm hv
      refine ⟨c, htarget, ?_⟩
      rcases hback with hdisk | ⟨q, hq, hq'⟩
      · exact .inl hdisk
      · exact .inr ⟨q, List.mem_append_left _ hq, hq'⟩
  · refine h.once_extend (hend _ List.mem_cons_self) fun m hm hv => ?_
    obtain ⟨c, htarget, hterm, hvote, -⟩ := hgrant m hm hv
    exact ⟨c, htarget, hterm, hvote⟩

/-- The invariant reads the metadata of file and queue, and nothing else of the storage. -/
theorem VotesBacked.congr {st st' : RaftStorage} (h : VotesBacked s st) {e : RaftEngine} {pruned : List LogEntry}
    (hst : e.storage = some st') (hfile : st'.metaFile = st.metaFile) (hqueue : metasOf st'.queue = metasOf st.queue)
    (hmeta : e.metadata = s.engine.metadata) : VotesBacked { s with engine := e, pruned := pruned } st' where
  storage := hst
  chain := by
    dsimp only
    rw [hfile, hqueue, hmeta]
    exact h.chain
  backed := by
    unfold RaftStorage.OnDisk
    rw [hfile, hqueue]
    exact h.backed
  once := h.once

theorem VotesBacked.snapshot {st : RaftStorage} (h : VotesBacked s st) {snap : RaftSnapshot} {n : Nat} :
    ∃ st', VotesBacked { s with
      engine := s.engine.snapshotted snap n st, pruned := s.pruned ++ s.engine.log.take n } st' := by
  refine ⟨st.enqueue [.snapshot snap], h.congr rfl rfl ?_ rfl⟩
  exact (metasOf_append st.queue [.snapshot snap]).trans (List.append_nil _)

/-- What the worker does to the metadata: nothing, or the first queued ones replace those of the file. -/
theorem work_metadata (env : Env) (st : RaftStorage) (rest : List StorageCommand) (cmd : StorageCommand) :
    metasOf (RaftStorage.work env { st with queue := rest } cmd).queue = metasOf rest ∧
      ((RaftStorage.work env { st with queue := rest } cmd).metaFile = st.metaFile ∧
          metasOf (cmd :: rest) = metasOf rest ∨
        ∃ m, (RaftStorage.work env { st with queue := rest } cmd).metaFile = some m ∧
          metasOf (cmd :: rest) = m :: metasOf rest) := by
  cases cmd with
  | append x =>
      unfold RaftStorage.work
      dsimp only
      split
      · exact ⟨rfl, .inl ⟨rfl, rfl⟩⟩
      · exact ⟨rfl, .inl ⟨rfl, rfl⟩⟩
  | saveMeta term votedFor peers => exact ⟨rfl, .inr ⟨_, rfl, rfl⟩⟩
  | snapshot snap => exact ⟨rfl, .inl ⟨rfl, rfl⟩⟩

theorem VotesBacked.work {st : RaftStorage} (h : VotesBacked s st) {cmd : StorageCommand}
    {rest : List StorageCommand} (hq : st.queue = cmd :: rest) :
    VotesBacked { s with engine := { s.engine with
      storage := some (RaftStorage.work env { st with queue := rest } cmd) } }
      (RaftStorage.work env { st with queue := rest } cmd) := by
  obtain ⟨hrest, ⟨hfile, hmetas⟩ | ⟨m, hfile, hmetas⟩⟩ := work_metadata env st rest cmd
  · refine h.congr (e := { s.engine with storage := _ }) rfl hfile ?_ rfl
    rw [hrest, hq, hmetas]
  · have hchain := h.chain
    rw [hq, hmetas, List.append_assoc, List.pairwise_append] at hchain
    refine ⟨rfl, ?_, ?_, h.once⟩
    · rw [hrest, hfile]
      exact hchain.2.1
    · intro r hr hv
      obtain ⟨c, htarget, hback⟩ := h.backed r hr hv
      refine ⟨c, htarget, ?_⟩
      unfold RaftStorage.OnDisk
      rw [hrest, hfile]
      rcases hback with ⟨q, hq', hrem⟩ | ⟨q, hq', hterm, hvote⟩
      · -- remembered by the old file, so by what replaces it
        have hk : q.Keeps m := hchain.2.2 q (Option.mem_toList.mpr hq') m List.mem_cons_self
        exact .inl ⟨m, rfl, hrem.keeps hk⟩
      · rw [hq, hmetas] at hq'
        rcases List.mem_cons.mp hq' with rfl | hq'
        · exact .inl ⟨q, rfl, .inr ⟨hterm.symm, hvote⟩⟩
        · exact .inr ⟨q, hq', hterm, hvote⟩

/-- What `new` reads back: the file stays, nothing about metadata is queued, and term and vote are the file's. -/
theorem new_metadata (env : Env) (n : String) (peers : List String) (key : String) {st : RaftStorage}
    (hq : metasOf st.queue = []) (machine : Option (List (Nat × String))) :
    ∃ st', (RaftEngine.new env n peers key (some st) machine).storage = some st' ∧
      st'.metaFile = st.metaFile ∧ metasOf st'.queue = [] ∧
      ∀ m ∈ st.metaFile, m.Keeps (RaftEngine.new env n peers key (some st) machine).metadata := by
  have hkeeps : ∀ st' : RaftStorage, st'.metaFile = st.metaFile → ∀ e log, ∀ m ∈ st.metaFile,
      m.Keeps ((RaftEngine.loaded e st' log).metadata) := by
    intro st' hfile e log m hm
    unfold RaftEngine.loaded RaftEngine.metadata RaftStorage.loadMetadata
    rw [hfile, Option.mem_def.mp hm]
    exact .inr ⟨rfl, .inr rfl⟩
  unfold RaftEngine.new
  dsimp only
  cases hv : st.verifyWalIntegrity env with
  | none =>
      rw [RaftEngine.boot_of_verified hv, RaftEngine.onSnapshot_storage, RaftEngine.onSnapshot_metadata]
      exact ⟨st, rfl, rfl, hq, hkeeps st rfl _ _⟩
  | some offset =>
      obtain ⟨x, hboot⟩ := RaftEngine.boot_of_breach hv (RaftEngine.blank n peers key machine)
      rw [hboot, RaftEngine.onSnapshot_storage, RaftEngine.onSnapshot_metadata]
      refine ⟨_, rfl, rfl, ?_, hkeeps ((st.recoverFromCorruption offset).appendLog x) rfl _
        ((st.recoverFromCorruption offset).loadLog env ++ [x])⟩
      exact (metasOf_append st.queue [.append x]).trans (by rw [hq]; rfl)

theorem VotesBacked.restart {st : RaftStorage} (h : VotesBacked s st) (peers : List String) (key : String)
    (machine : Option (List (Nat × String))) (hok : NoVoteLost (.restart peers key machine) s) :
    ∃ st', VotesBacked { s with
      engine := RaftEngine.new env s.engine.nodeId peers key (s.engine.storage.map (·.reopen)) machine
      pruned := [] } st' := by
  rw [h.storage, Option.map_some]
  obtain ⟨st', hst, hfile, hqueue, hkeeps⟩ :=
    new_metadata env s.engine.nodeId peers key (show metasOf st.reopen.queue = [] from rfl) machine
  refine ⟨st', hst, ?_, ?_, h.once⟩
  · rw [hfile, hqueue, List.append_nil, List.pairwise_append]
    refine ⟨?_, List.pairwise_singleton _ _, ?_⟩
    · exact (List.pairwise_append.mp (List.pairwise_append.mp h.chain).1).1
    · intro a ha b hb
      rw [List.mem_singleton.mp hb]
      exact hkeeps a (Option.mem_toList.mp ha)
  · intro m hm hv
    obtain ⟨c, htarget, hback⟩ := h.backed m hm hv
    refine ⟨c, htarget, .inl ?_⟩
    unfold RaftStorage.OnDisk
    rw [hfile]
    rcases hback with hdisk | ⟨q, hq, hterm, hvote⟩
    · exact hdisk
    · -- lost with the queue, but the file remembers it
      have hdisk := hok st h.storage q hq c hvote
      rw [hterm] at hdisk
      exact hdisk

/-! ## Every run -/

theorem VotesBacked.opened {e : RaftEngine} (h : Opened env e) (hs : s.engine = e) (hsent : s.sent = []) :
    ∃ st, VotesBacked s st := by
  obtain ⟨n, peers, key, wal, metaFile, snapshotFile, machine, rfl⟩ := h
  obtain ⟨st, hst, hfile, hqueue, hkeeps⟩ := new_metadata env n peers key
    (show metasOf (RaftStorage.tryNew wal metaFile snapshotFile).queue = [] from rfl) machine
  refine ⟨st, hs ▸ hst, ?_, ?_, ?_⟩
  · rw [hs, hfile, hqueue, List.append_nil, List.pairwise_append]
    refine ⟨?_, List.pairwise_singleton _ _, ?_⟩
    · cases (RaftStorage.tryNew wal metaFile snapshotFile).metaFile with
      | none => exact .nil
      | some m => exact List.pairwise_singleton _ _
    · intro a ha b hb
      rw [List.mem_singleton.mp hb]
      exact hkeeps a (Option.mem_toList.mp ha)
  · intro m hm
    rw [hsent] at hm
    cases hm
  · intro m hm
    rw [hsent] at hm
    cases hm

/-- **One vote a term, across crashes.** From any directory, in every run in which no restart loses a vote that the
file does not remember, a node never grants its vote of one term to two candidates. A vote is in the metadata before
it is sent, and what a restart reads back forgets none that was sent. -/
theorem grants_once (env : Env) (s : StoredNode) (past : List StoredNode)
    (hr : (storedNode env (Opened env)).Run NoVoteLost (s :: past)) : s.GrantsOnce := by
  have hinv : ∃ st, VotesBacked s st := by
    refine System.Run.invariant_head (P := fun s _ => ∃ st, VotesBacked s st) ?_ ?_ hr
    · rintro s ⟨hopen, hsent, -⟩
      exact VotesBacked.opened hopen rfl hsent
    · rintro s past op s' - ⟨st, hi⟩ hok hstep
      cases stepBy_cases hstep with
      | method hw _ hgrant _ => exact hi.method hw hgrant
      | snapshot hst _ =>
          rw [hi.storage] at hst
          cases hst
          exact hi.snapshot
      | work hst hq =>
          rw [hi.storage] at hst
          cases hst
          exact ⟨_, hi.work hq⟩
      | restart => exact hi.restart _ _ _ hok
  obtain ⟨st, hi⟩ := hinv
  exact hi.once

/-- A vote request of term 1. -/
def ballot (candidate : String) : NodeOp :=
  .call (.rpc ⟨1, candidate, none, .requestVote (-1) 0, "", zeroHash⟩)

/-- A node on a fresh directory. -/
def freshNode : StoredNode :=
  ⟨RaftEngine.new scriptEnv "a" ["b", "c"] "" (some freshStorage) none, [], []⟩

theorem freshNode_init : (storedNode scriptEnv (Opened scriptEnv)).init freshNode :=
  ⟨⟨"a", ["b", "c"], "", none, none, none, none, rfl⟩, rfl, rfl⟩

/-- The worker is done before the crash: the second candidate is refused, and the first gets its vote again. -/
theorem grants_once_flushed : ∃ (s : StoredNode) (past : List StoredNode),
    (storedNode scriptEnv (Opened scriptEnv)).Run NoVoteLost (s :: past) ∧
      s.sent.map (·.payload) = [.voteResponse true, .voteResponse false, .voteResponse true] ∧ s.GrantsOnce := by
  obtain ⟨s, past, hr, h⟩ := System.exists_run_of_play NoVoteLost
    (P := fun s _ => s.sent.map (·.payload) = [.voteResponse true, .voteResponse false, .voteResponse true])
    freshNode_init [fun _ => ballot "b", fun _ => .work, fun _ => .work, fun _ => .restart ["b", "c"] "" none,
      fun _ => ballot "c", fun _ => ballot "b"] (by decide +kernel)
  exact ⟨s, past, hr, h, grants_once scriptEnv s past hr⟩

/-- The answer is out, the worker has not written the vote: after the crash the node votes again in term 1, for
another candidate. -/
theorem grants_twice_after_crash : ¬ ∀ (env : Env) (s : StoredNode) (past : List StoredNode),
    (storedNode env (Opened env)).Run (fun _ _ => True) (s :: past) → s.GrantsOnce := by
  intro hall
  obtain ⟨s, past, hr, h⟩ := System.exists_run_of_play (fun _ _ => True) (P := fun s _ => ¬ s.GrantsOnce)
    freshNode_init [fun _ => ballot "b", fun _ => .restart ["b", "c"] "" none, fun _ => ballot "c"] (by decide +kernel)
  exact h (hall scriptEnv s past hr)

end StoredNode

end WarmLogic.Consensus
