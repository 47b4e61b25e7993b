/-
# WarmLogic.Consensus.RaftRestart — the engine before and after a restart.

A restart reads the log from `wal.bin` and the snapshot index from `snapshot.bin`. A snapshot drops the entries before
it from the log in memory, but no one drops their records: the WAL only grows. So after a restart `get_entry` counts
from the snapshot index into a log that still starts at the beginning, and every index is off by what was dropped.

The invariant of this module says what the flushed directory holds at any time: the WAL shows the dropped entries
followed by the log, one chain that passes the boot, and the other two files show metadata and snapshot index of the
engine. From it the result is exact: a restart gives the same engine back if and only if no snapshot has dropped an
entry since the engine was built.

A WAL that does not verify at the boot is cut at the first record that breaks the chain, and an entry is added about
it; so the condition on a run has to make sure that what the WAL holds verifies. Three things can break it. An entry
that is hashed with another position than the one the boot counts to does not verify, which happens to a proposal
behind a snapshot that dropped entries. An AppendEntries that stores its entries anywhere but at the end of the log
cuts the WAL first, by positions that a snapshot has shifted. And an empty list of members in the metadata is read as
no list at all, whereupon the node takes the list it is started with.

`EngineOp.Kept` excludes exactly that, call by call, in terms of the engine before the call; snapshots are free, and
so are restarts that wait for the flush. Under it the result is an equivalence and not only an implication: a snapshot
that dropped an entry is enough to make the engine after the restart a different one, because `get_entry` of the new
engine reads one of the dropped entries where the old one reads the first that was kept.
-/
import WarmLogic.Consensus.StoredNode
import WarmLogic.Consensus.WalAcceptance

namespace WarmLogic.Consensus

open WarmLogic.Lib

/-! ## Flushing -/

namespace RaftStorage

variable {env : Env} {st : RaftStorage}

/-- What a command writes does not depend on the queue behind it. -/
theorem work_queue (env : Env) (st : RaftStorage) (q : List StorageCommand) (cmd : StorageCommand) :
    work env { st with queue := q } cmd = { work env st cmd with queue := q } := by
  cases cmd with
  | append x =>
      unfold work
      dsimp only
      cases env.codec.encode x <;> rfl
  | saveMeta term votedFor peers => rfl
  | snapshot snap => rfl

/-- Commands do not fill the queue. -/
theorem foldl_work_queue (env : Env) (st : RaftStorage) (cmds : List StorageCommand) (hq : st.queue = []) :
    (cmds.foldl (work env) st).queue = [] := by
  induction cmds generalizing st with
  | nil => exact hq
  | cons cmd cmds ih =>
      rw [List.foldl_cons]
      refine ih _ ?_
      rw [← queue_nil_eq hq, work_queue]

/-- Flushed, it is empty. -/
theorem flush_queue (env : Env) (st : RaftStorage) : (st.flush env).queue = [] :=
  foldl_work_queue env _ st.queue rfl

/-- What is enqueued is written behind the rest. -/
theorem flush_enqueue (env : Env) (st : RaftStorage) (cmds : List StorageCommand) :
    (st.enqueue cmds).flush env = cmds.foldl (work env) (st.flush env) := by
  unfold flush enqueue
  rw [List.foldl_append]

/-- What the worker has done already, a flush need not do. -/
theorem flush_work {cmd : StorageCommand} {rest : List StorageCommand} (hq : st.queue = cmd :: rest) :
    (work env { st with queue := rest } cmd).flush env = st.flush env := by
  unfold flush
  rw [hq, List.foldl_cons, work_queue env st rest cmd, work_queue env st [] cmd]

/-- The metadata file has the last metadata that were written. -/
theorem foldl_work_metaFile (env : Env) (st : RaftStorage) (cmds : List StorageCommand) :
    (cmds.foldl (work env) st).metaFile = (metasOf cmds).getLast?.or st.metaFile := by
  induction cmds generalizing st with
  | nil => rfl
  | cons cmd cmds ih =>
      rw [List.foldl_cons, ih]
      cases cmd with
      | append x =>
          have hfile : (work env st (.append x)).metaFile = st.metaFile := by
            unfold work
            dsimp only
            cases env.codec.encode x <;> rfl
          rw [hfile]
          rfl
      | saveMeta term votedFor peers =>
          have hmetas : metasOf (.saveMeta term votedFor peers :: cmds) = ⟨term, votedFor, peers⟩ :: metasOf cmds := rfl
          have hfile : (work env st (.saveMeta term votedFor peers)).metaFile = some ⟨term, votedFor, peers⟩ := rfl
          rw [hmetas, hfile, List.getLast?_cons]
          cases (metasOf cmds).getLast? <;> rfl
      | snapshot snap => rfl

/-- The snapshot file stays without a snapshot command. -/
theorem foldl_work_snapshotFile (env : Env) (st : RaftStorage) {cmds : List StorageCommand}
    (h : snapshotsOf cmds = []) : (cmds.foldl (work env) st).snapshotFile = st.snapshotFile := by
  induction cmds generalizing st with
  | nil => rfl
  | cons cmd cmds ih =>
      rw [List.foldl_cons]
      cases cmd with
      | append x =>
          rw [ih _ h]
          unfold work
          dsimp only
          cases env.codec.encode x <;> rfl
      | saveMeta term votedFor peers => exact ih _ h
      | snapshot snap => cases h

end RaftStorage

/-! ## Hashes of a log in two parts -/

/-- The hashes of a log in two parts. -/
theorem tipHashes_append (sha pos : String) (l es : List LogEntry) :
    tipHashes sha pos (l ++ es) = tipHashes (tipHashes sha pos l).1 (tipHashes sha pos l).2 es := by
  induction l generalizing sha pos with
  | nil => rfl
  | cons x l ih => rw [List.cons_append, tipHashes_cons, tipHashes_cons, ih]

namespace RaftEngine

variable {env : Env} {e e' : RaftEngine}

/-- The hashes the next entry of the log refers to. -/
def tip (e : RaftEngine) : String × String := e.tipAt e.log.length

/-- The tip of an engine, over its log. -/
theorem tip_eq (e : RaftEngine) : e.tip = tipHashes e.lastSnapshotCumHash e.lastSnapshotPosHash e.log := by
  unfold tip tipAt
  rw [List.take_length]

/-- The hashes a snapshot takes over lead to the same tip. -/
theorem SnapshotAt.tipHashes_drop {snap : RaftSnapshot} {n : Nat} (h : e.SnapshotAt snap n) :
    tipHashes snap.cumulativeHash snap.poseidonHash (e.log.drop n) = e.tip := by
  cases n with
  | zero =>
      obtain ⟨hc, hp⟩ := h.same rfl
      rw [hc, hp, List.drop_zero, tip_eq]
  | succ k =>
      obtain ⟨x, hx, hc, hp⟩ := h.tip k rfl
      have hlast : (e.log.take (k + 1)).getLast? = some x := by
        rw [List.getLast?_take, if_neg (by omega), Nat.add_sub_cancel, hx]
        rfl
      have hfront : tipHashes e.lastSnapshotCumHash e.lastSnapshotPosHash (e.log.take (k + 1))
          = (snap.cumulativeHash, snap.poseidonHash) := by
        unfold tipHashes
        rw [hlast, hc, hp]
      rw [tip_eq, ← List.take_append_drop (k + 1) e.log, tipHashes_append, hfront, List.take_append_drop]

/-! ## The property -/

/-- The engine rebuilt from its flushed directory. -/
def restarted (env : Env) (e : RaftEngine) (peers : List String) (privateKey : String)
    (stateMachine : Option (List (Nat × String))) : RaftEngine :=
  new env e.nodeId peers privateKey (e.storage.map fun st => (st.flush env).reopen) stateMachine

/-- Everything a restart has to give back: the entries behind the last snapshot, its index, and the metadata. What the
protocol rebuilds anyway, such as the state of an election or the indices of the peers, is not among them. -/
structure SameEngine (e e' : RaftEngine) : Prop where
  entries : ∀ i : Nat, e.lastSnapshotIndex < i → e'.getEntry i = e.getEntry i
  lastSnapshotIndex : e'.lastSnapshotIndex = e.lastSnapshotIndex
  currentTerm : e'.currentTerm = e.currentTerm
  votedFor : e'.votedFor = e.votedFor
  peers : e'.peers = e.peers

/-- **A restart, with the member list the engine was first built with, gives the same engine back.** -/
def RestartsFaithfully (env : Env) (peers : List String) (e : RaftEngine) : Prop :=
  ∀ privateKey stateMachine, SameEngine e (e.restarted env peers privateKey stateMachine)

/-! ## The condition -/

/-- The position a call hashes its first entry with. -/
def EngineOp.position (e : RaftEngine) : EngineOp → Nat
  | .propose _ _ => (e.lastSnapshotIndex + e.log.length + 1).toNat
  | _ => e.log.length

/-- What the message brings goes behind the last entry of the log. -/
def RpcAtEnd (env : Env) (e : RaftEngine) (m : RaftRPC) : RpcPayload → Prop
  | .appendEntries prevLogIndex prevLogTerm prevLogHash prevPoseidonHash entries leaderCommit =>
      e.rpcOffered env m (.appendEntries prevLogIndex prevLogTerm prevLogHash prevPoseidonHash entries leaderCommit)
        ≠ [] → (e.log.length : Int) ≤ prevLogIndex + 1
  | _ => True

/-- What the call brings goes behind the last entry of the log; only a message can bring something elsewhere. -/
def EngineOp.AtEnd (env : Env) (e : RaftEngine) : EngineOp → Prop
  | .rpc m => e.RpcAtEnd env m m.payload
  | _ => True

/-- The calls whose entries the WAL keeps and the boot takes back: they go to the end of the log, they are ready for
the boot, and no empty member list is installed. A `CONF:` entry with an empty list may be appended and wait. -/
structure EngineOp.Kept (env : Env) (ps : List String) (e : RaftEngine) (op : EngineOp) : Prop where
  atEnd : op.AtEnd env e
  ready : BootReady env (op.position e) e.tip.2 (op.offered env e)
  members : op.installed env e = some [] → ps = []

instance (env : Env) (e : RaftEngine) (m : RaftRPC) : ∀ p, Decidable (e.RpcAtEnd env m p)
  | .appendEntries _ _ _ _ _ _ => inferInstanceAs (Decidable (_ → _))
  | .requestVote _ _ => inferInstanceAs (Decidable True)
  | .voteResponse _ => inferInstanceAs (Decidable True)
  | .appendResponse _ _ => inferInstanceAs (Decidable True)
  | .malformed => inferInstanceAs (Decidable True)

instance (env : Env) (e : RaftEngine) : ∀ op, Decidable (EngineOp.AtEnd env e op)
  | .rpc m => inferInstanceAs (Decidable (e.RpcAtEnd env m m.payload))
  | .tick _ => inferInstanceAs (Decidable True)
  | .propose _ _ => inferInstanceAs (Decidable True)

instance (env : Env) (ps : List String) (e : RaftEngine) (op : EngineOp) : Decidable (op.Kept env ps e) :=
  decidable_of_iff (op.AtEnd env e ∧ BootReady env (op.position e) e.tip.2 (op.offered env e) ∧
      (op.installed env e = some [] → ps = []))
    ⟨fun h => ⟨h.1, h.2.1, h.2.2⟩, fun h => ⟨h.atEnd, h.ready, h.members⟩⟩

end RaftEngine

namespace StoredNode

open RaftEngine

/-- **The condition on a step.** Snapshots are free; a restart waits for the flush and takes the member list of the
first start. -/
def KeepsWal (env : Env) (ps : List String) : NodeOp → StoredNode → Prop
  | .call op, s => op.Kept env ps s.engine
  | .restart peers _ _, s => peers = ps ∧ ∀ st ∈ s.engine.storage, st.queue.isEmpty
  | _, _ => True

instance (env : Env) (ps : List String) : ∀ op s, Decidable (KeepsWal env ps op s)
  | .call op, s => inferInstanceAs (Decidable (op.Kept env ps s.engine))
  | .restart _ _ _, s => inferInstanceAs (Decidable (_ ∧ ∀ st ∈ s.engine.storage, st.queue.isEmpty))
  | .startElection, _ => inferInstanceAs (Decidable True)
  | .sendHeartbeats, _ => inferInstanceAs (Decidable True)
  | .advanceAppliedIndex, _ => inferInstanceAs (Decidable True)
  | .registerPeerKey _ _, _ => inferInstanceAs (Decidable True)
  | .saveSnapshot _, _ => inferInstanceAs (Decidable True)
  | .work, _ => inferInstanceAs (Decidable True)

/-! ## The invariant -/

/-- **What the flushed directory holds.** The worker writes what is queued, in order, and nothing but an accepted
message that cuts the log goes past the queue; under the condition on calls there is none. So after a flush the WAL
shows the dropped entries followed by the log (`written`), which is one hash chain from the start (`chain`, `tip`): an
entry that is added refers to the last hash, which is that of the last entry, or of the snapshot if the log is empty.
The metadata file holds what was queued last, which is what the engine has (`Wrote.last`). The last clauses are about
the first start: a snapshot index of -1 means that nothing was ever dropped. -/
structure Synced (env : Env) (ps : List String) (s : StoredNode) (st : RaftStorage) : Prop where
  storage : s.engine.storage = some st
  written : Written env (st.flush env) (s.pruned ++ s.engine.log)
  fits : ∀ x ∈ s.pruned ++ s.engine.log, FitsRecord env x
  chain : firstBroken env (s.pruned ++ s.engine.log) zeroHash zeroHash = none
  tip : s.engine.tip = tipHashes zeroHash zeroHash (s.pruned ++ s.engine.log)
  /-- The metadata are those of the file, or were never saved. -/
  metaFile : (st.flush env).metaFile = some s.engine.metadata ∨
    (st.flush env).metaFile = none ∧ s.engine.metadata = ⟨0, none, ps⟩
  peers : s.engine.peers = [] → ps = []
  snapshotFile : (((st.flush env).snapshotFile.map fun p => (p.lastIncludedIndex : Int)).getD (-1))
    = s.engine.lastSnapshotIndex
  initial : s.engine.lastSnapshotIndex = -1 → s.engine.lastSnapshotCumHash = zeroHash
  nonempty : s.engine.lastSnapshotIndex ≠ -1 → s.pruned ++ s.engine.log ≠ []

variable {env : Env} {ps : List String} {s : StoredNode} {st : RaftStorage}

/-! ## Calls -/

/-- A call at the end of the log cuts nothing. -/
theorem cut_eq_of_atEnd {op : EngineOp} {e : RaftEngine} (h : op.AtEnd env e) : op.cut env e = e := by
  cases op with
  | tick _ => rfl
  | propose _ _ => rfl
  | rpc m =>
      have hcut : ∀ p, e.RpcAtEnd env m p → e.rpcCut env m p = e := by
        intro p hp
        cases p with
        | appendEntries prev pt ph pp entries lc =>
            refine if_neg ?_
            rintro ⟨hne, hgt⟩
            have := hp hne
            omega
        | _ => rfl
      exact hcut m.payload h

/-- A proposal refers to the last hash by construction. -/
theorem proposedEntry_link (env : Env) {e : RaftEngine} (hlow : -1 ≤ e.lastSnapshotIndex)
    (hinit : e.lastSnapshotIndex = -1 → e.lastSnapshotCumHash = zeroHash) (data : String) (zkProof : List UInt8) :
    env.sha256 (linkText (e.proposedEntry env data zkProof) (e.lastSnapshotIndex + e.log.length + 1).toNat e.tip.1)
      = (e.proposedEntry env data zkProof).cumulativeHash := by
  rw [tip_eq]
  unfold proposedEntry tipHashes
  cases e.log.getLast? with
  | some last => rfl
  | none =>
      by_cases h0 : 0 ≤ e.lastSnapshotIndex
      · simp only [h0, if_true]
        rfl
      · simp only [h0, if_false, hinit (by omega)]
        rfl

/-- What a message brings to the end of the log starts there, and has passed the acceptance from the last hash. -/
theorem verifyChain_of_rpcOffered {e : RaftEngine} {m : RaftRPC} (hne : e.tip.1 ≠ "") :
    ∀ p, e.RpcAtEnd env m p → e.rpcOffered env m p = [] ∨
      ∃ pos, verifyChain env e.log.length e.tip.1 pos (e.rpcOffered env m p) = true := by
  intro p hend
  by_cases hnil : e.rpcOffered env m p = []
  · exact .inl hnil
  right
  cases p with
  | appendEntries prev pt ph pp entries lc =>
      have hlast := hend hnil
      unfold rpcOffered at hnil ⊢
      dsimp only at hnil ⊢
      split at hnil
      · exact absurd rfl hnil
      rename_i hbad
      rw [if_neg hbad]
      cases entries with
      | none => exact absurd rfl hnil
      | some es =>
          unfold taken at hnil ⊢
          dsimp only at hnil ⊢
          split at hnil
          · rename_i hacc
            rw [if_pos hacc]
            obtain ⟨-, hmatch, hchain⟩ := hacc
            have hpos : (prev + 1).toNat = e.log.length := by
              unfold prevMatches at hmatch
              split at hmatch
              · omega
              · split at hmatch
                · split at hmatch
                  · cases hmatch
                  · omega
                · cases hmatch
            have hstart := chainStart_eq_tipAt hmatch (by rw [hpos]; exact hne)
            rw [hstart, hpos] at hchain
            exact ⟨_, hchain⟩
          · exact absurd rfl hnil
  | _ => exact absurd rfl hnil

/-- The snapshot index is -1 or more. -/
theorem Synced.low (h : Synced env ps s st) : -1 ≤ s.engine.lastSnapshotIndex := by
  rw [← h.snapshotFile]
  cases (st.flush env).snapshotFile with
  | none => exact le_refl _
  | some p =>
      simp only [Option.map_some, Option.getD_some]
      omega

/-- **The entries of such a call continue the chain the boot reads.** -/
theorem Synced.firstBroken_offered (hsha : ∀ t, env.sha256 t ≠ "") (h : Synced env ps s st) {op : EngineOp}
    (hok : op.Kept env ps s.engine) :
    firstBroken env (op.offered env s.engine) s.engine.tip.1 s.engine.tip.2 = none := by
  have hready := hok.ready
  cases op with
  | tick _ => rfl
  | propose data zkProof =>
      unfold EngineOp.offered EngineOp.position at hready
      unfold EngineOp.offered
      dsimp only at hready ⊢
      split
      · rename_i hcond
        rw [if_pos hcond] at hready
        obtain ⟨-, hidx, hstuck, -⟩ := hready
        refine firstBroken_cons_eq_none.mpr ⟨?_, hstuck, rfl⟩
        rw [hidx]
        exact proposedEntry_link env h.low h.initial data zkProof
      · rfl
  | rpc m =>
      have hne : s.engine.tip.1 ≠ "" := by
        rw [h.tip]
        exact tipHashes_ne_empty hsha (by decide) h.chain
      rcases verifyChain_of_rpcOffered hne m.payload hok.atEnd with hnil | ⟨pos, hchain⟩
      · have hoff : (EngineOp.rpc m).offered env s.engine = [] := hnil
        rw [hoff]
        rfl
      · exact firstBroken_of_bootReady hchain hready

/-- A method keeps the directory in step. -/
theorem Synced.method (h : Synced env ps s st) {cmds : List StorageCommand} {e : RaftEngine} {outs : List RaftRPC}
    (hw : Wrote s.engine cmds e) (hfits : ∀ x ∈ appendsOf cmds, FitsRecord env x)
    (hchain : firstBroken env (appendsOf cmds) s.engine.tip.1 s.engine.tip.2 = none)
    (hpeers : e.peers = [] → ps = []) :
    ∃ st', Synced env ps { s with engine := e, sent := outs ++ s.sent } st' := by
  have hlog : s.pruned ++ e.log = s.pruned ++ s.engine.log ++ appendsOf cmds := by
    rw [hw.log, List.append_assoc]
  have htip : e.tip = tipHashes s.engine.tip.1 s.engine.tip.2 (appendsOf cmds) := by
    rw [tip_eq, tip_eq, hw.log, hw.lastSnapshotCumHash, hw.lastSnapshotPosHash, tipHashes_append]
  refine ⟨st.enqueue cmds, ?_, ?_, ?_, ?_, ?_, ?_, hpeers, ?_, ?_, ?_⟩
  · rw [hw.storage, h.storage]
    rfl
  · rw [RaftStorage.flush_enqueue]
    dsimp only
    rw [hlog]
    exact h.written.foldl cmds
  · dsimp only
    rw [hlog]
    intro x hx
    rcases List.mem_append.mp hx with hx | hx
    · exact h.fits x hx
    · exact hfits x hx
  · dsimp only
    rw [hlog, firstBroken_append, ← h.tip]
    exact ⟨h.chain, hchain⟩
  · dsimp only
    rw [hlog, htip, h.tip]
    exact (tipHashes_append zeroHash zeroHash _ _).symm
  · rw [RaftStorage.flush_enqueue, RaftStorage.foldl_work_metaFile]
    have hlast := hw.last
    rw [List.getLast?_cons] at hlast
    cases hm : (metasOf cmds).getLast? with
    | none =>
        rw [hm, Option.getD_none] at hlast
        rw [Option.none_or, ← Option.some.inj hlast]
        exact h.metaFile
    | some m =>
        rw [hm, Option.getD_some] at hlast
        rw [Option.some_or, hlast]
        exact .inl rfl
  · rw [RaftStorage.flush_enqueue, RaftStorage.foldl_work_snapshotFile env _ hw.noSnapshot, h.snapshotFile]
    exact hw.lastSnapshotIndex.symm
  · intro hi
    dsimp only at hi ⊢
    rw [hw.lastSnapshotIndex] at hi
    rw [hw.lastSnapshotCumHash]
    exact h.initial hi
  · intro hi
    dsimp only at hi ⊢
    rw [hw.lastSnapshotIndex] at hi
    rw [hlog]
    exact List.append_ne_nil_of_left_ne_nil (h.nonempty hi) _

/-- A snapshot moves the boundary between what was dropped and the log; the WAL shows both. -/
theorem Synced.snapshot (h : Synced env ps s st) {snap : RaftSnapshot} {n : Nat}
    (hsnap : s.engine.SnapshotAt snap n) :
    ∃ st', Synced env ps { s with
      engine := s.engine.snapshotted snap n st, pruned := s.pruned ++ s.engine.log.take n } st' := by
  have hlog : s.pruned ++ s.engine.log.take n ++ s.engine.log.drop n = s.pruned ++ s.engine.log := by
    rw [List.append_assoc, List.take_append_drop]
  have hindex := hsnap.index
  have hlow := h.low
  have htip := hsnap.tipHashes_drop
  refine ⟨st.enqueue [.snapshot snap], rfl, ?_, ?_, ?_, ?_, ?_, h.peers, ?_, ?_, ?_⟩
  · rw [RaftStorage.flush_enqueue]
    unfold snapshotted
    dsimp only
    rw [hlog]
    exact ⟨h.written.holds, h.written.zeros, h.written.offset⟩
  · unfold snapshotted
    dsimp only
    rw [hlog]
    exact h.fits
  · unfold snapshotted
    dsimp only
    rw [hlog]
    exact h.chain
  · rw [tip_eq]
    unfold snapshotted
    dsimp only
    rw [hlog, htip]
    exact h.tip
  · rw [RaftStorage.flush_enqueue]
    exact h.metaFile
  · rw [RaftStorage.flush_enqueue]
    unfold snapshotted RaftStorage.work
    simp only [List.foldl_cons, List.foldl_nil, Option.map_some, Option.getD_some]
    split <;> rfl
  · intro hi
    unfold snapshotted at hi
    dsimp only at hi
    omega
  · intro _
    unfold snapshotted
    dsimp only
    rw [hlog]
    cases n with
    | zero => exact h.nonempty (by omega)
    | succ k =>
        obtain ⟨x, hx, -⟩ := hsnap.tip k rfl
        refine List.append_ne_nil_of_right_ne_nil _ fun hnil => ?_
        rw [hnil] at hx
        cases hx

/-- **A command of the worker** keeps disk and queue together at the log. -/
theorem Synced.work (h : Synced env ps s st) {cmd : StorageCommand} {rest : List StorageCommand}
    (hq : st.queue = cmd :: rest) :
    Synced env ps { s with engine := { s.engine with
      storage := some (RaftStorage.work env { st with queue := rest } cmd) } }
      (RaftStorage.work env { st with queue := rest } cmd) := by
  have hflush : (RaftStorage.work env { st with queue := rest } cmd).flush env = st.flush env :=
    RaftStorage.flush_work hq
  refine ⟨rfl, ?_, h.fits, h.chain, h.tip, ?_, h.peers, ?_, h.initial, h.nonempty⟩
  · rw [hflush]
    exact h.written
  · rw [hflush]
    exact h.metaFile
  · rw [hflush]
    exact h.snapshotFile

/-! ## The restart -/

/-- The flushed directory, opened again. -/
theorem Synced.reopen (h : Synced env ps s st) :
    Shows env (st.flush env).reopen (s.pruned ++ s.engine.log) false ∧
      (st.flush env).reopen.verifyWalIntegrity env = none := by
  have hshows : Shows env (st.flush env) (s.pruned ++ s.engine.log) false :=
    ⟨st.flush_queue env, h.fits, h.written.holds, h.written.zeros, h.written.offset⟩
  have hverify : (st.flush env).reopen.verifyWalIntegrity env = none := by
    have hpass : BootPasses env (s.pruned ++ s.engine.log) zeroHash zeroHash := by
      rw [← List.append_nil (s.pruned ++ s.engine.log)]
      exact (bootPasses_append h.fits).mpr ⟨h.chain, trivial⟩
    exact h.written.verify_iff.mpr hpass
  have hboot := hshows.boot
  rw [h.chain] at hboot
  have hopened : WalOp.onStorage env (st.flush env) .boot = (st.flush env).reopen := by
    have hv : RaftStorage.verifyWalIntegrity env (RaftStorage.tryNew (some (st.flush env).wal)
        (st.flush env).metaFile (st.flush env).snapshotFile) = none := hverify
    simp only [WalOp.onStorage, hv]
    rfl
  rw [← hopened]
  exact ⟨hboot, hopened ▸ hverify⟩

/-- **What a restart makes of the flushed directory**: the log is the WAL, dropped entries included. -/
theorem Synced.new_eq (h : Synced env ps s st) (n key : String) (machine : Option (List (Nat × String))) :
    new env n ps key (some (st.flush env).reopen) machine
      = ((blank n ps key machine).loaded (st.flush env).reopen (s.pruned ++ s.engine.log)).onSnapshot
        (st.flush env).snapshotFile := by
  obtain ⟨hshows, hverify⟩ := h.reopen
  have hboot := boot_of_verified hverify (blank n ps key machine)
  rw [hshows.loadLog] at hboot
  exact hboot

/-- Metadata and snapshot index come back, and the log as the WAL has it. -/
structure Restored (s : StoredNode) (e : RaftEngine) : Prop where
  metadata : e.metadata = s.engine.metadata
  log : e.log = s.pruned ++ s.engine.log
  lastSnapshotIndex : e.lastSnapshotIndex = s.engine.lastSnapshotIndex

/-- **A restart** from a flushed disk restores what the node had. -/
theorem Synced.restored (h : Synced env ps s st) (n key : String) (machine : Option (List (Nat × String))) :
    Restored s (new env n ps key (some (st.flush env).reopen) machine) := by
  rw [h.new_eq]
  refine ⟨?_, ?_, ?_⟩
  · rw [onSnapshot_metadata]
    unfold loaded RaftEngine.metadata RaftStorage.loadMetadata
    have hfile : (st.flush env).reopen.metaFile = (st.flush env).metaFile := rfl
    rw [hfile]
    rcases h.metaFile with hm | ⟨hm, heq⟩
    · rw [hm]
      dsimp only
      have hpeers : (if s.engine.metadata.peers.isEmpty = true then ps else s.engine.metadata.peers)
          = s.engine.peers := by
        split
        · rename_i hnil
          have hnil' : s.engine.peers = [] := List.isEmpty_iff.mp hnil
          rw [hnil', h.peers hnil']
        · rfl
      exact congrArg (RaftMetadata.mk _ _) hpeers
    · rw [hm]
      exact heq.symm
  · rw [onSnapshot_log]
    rfl
  · rw [← h.snapshotFile]
    cases (st.flush env).snapshotFile <;> rfl

/-- A log that verifies is kept as it is. -/
theorem new_storage {env : Env} {st : RaftStorage} (h : st.verifyWalIntegrity env = none) (n : String)
    (peers : List String) (key : String) (machine : Option (List (Nat × String))) :
    (new env n peers key (some st) machine).storage = some st := by
  unfold new
  dsimp only
  rw [boot_of_verified h, onSnapshot_storage]
  rfl

/-- A directory without a snapshot leaves the initial hash. -/
theorem onSnapshot_initial {e : RaftEngine} {o : Option RaftSnapshot}
    (h : (e.onSnapshot o).lastSnapshotIndex = -1) : e.onSnapshot o = e := by
  cases o with
  | none => rfl
  | some snap =>
      have hi : ((snap.lastIncludedIndex : Int)) = -1 := h
      omega

/-- The node after a restart is in step again: nothing is dropped from a log that is the whole WAL. -/
theorem Synced.restart (h : Synced env ps s st) (n key : String) (machine : Option (List (Nat × String)))
    (sent : List RaftRPC) :
    Synced env ps ⟨new env n ps key (some (st.flush env).reopen) machine, sent, []⟩ (st.flush env).reopen := by
  obtain ⟨hshows, hverify⟩ := h.reopen
  obtain ⟨hmeta, hlog, hidx⟩ := h.restored n key machine
  have hflush : (st.flush env).reopen.flush env = (st.flush env).reopen := flush_of_idle env rfl
  have hnew := h.new_eq n key machine
  have hinit : (new env n ps key (some (st.flush env).reopen) machine).lastSnapshotIndex = -1 →
      new env n ps key (some (st.flush env).reopen) machine
        = (blank n ps key machine).loaded (st.flush env).reopen (s.pruned ++ s.engine.log) := by
    intro hi
    rw [hnew] at hi ⊢
    exact onSnapshot_initial hi
  have hpeers : (new env n ps key (some (st.flush env).reopen) machine).peers = s.engine.peers :=
    congrArg RaftMetadata.peers hmeta
  refine ⟨new_storage hverify n ps key machine, ?_, ?_, ?_, ?_, ?_, ?_, ?_, ?_, ?_⟩
  · rw [hflush, List.nil_append, hlog]
    exact ⟨hshows.holds, hshows.zeros, hshows.offset⟩
  · rw [List.nil_append, hlog]
    exact h.fits
  · rw [List.nil_append, hlog]
    exact h.chain
  · rw [List.nil_append, tip_eq]
    dsimp only
    by_cases hi : (new env n ps key (some (st.flush env).reopen) machine).lastSnapshotIndex = -1
    · rw [hinit hi]
      rfl
    · -- the log is not empty, so it alone decides
      rw [hidx] at hi
      have hne := h.nonempty hi
      rw [← hlog] at hne
      unfold tipHashes
      cases hl : (new env n ps key (some (st.flush env).reopen) machine).log.getLast? with
      | none => exact absurd (List.getLast?_eq_none_iff.mp hl) hne
      | some x => rfl
  · rw [hflush, hmeta]
    exact h.metaFile
  · rw [hpeers]
    exact h.peers
  · rw [hflush, hidx, ← h.snapshotFile]
    rfl
  · intro hi
    dsimp only at hi ⊢
    rw [hinit hi]
    rfl
  · intro hi
    dsimp only at hi ⊢
    rw [hidx] at hi
    rw [List.nil_append, hlog]
    exact h.nonempty hi

/-! ## Every run -/

/-- An engine as `new` makes it on a fresh directory. -/
def Fresh (env : Env) (ps : List String) (e : RaftEngine) : Prop :=
  ∃ n key machine, e = new env n ps key (some freshStorage) machine

/-- The fresh directory is one that a node without entries has just been restarted on. -/
theorem Synced.fresh {e : RaftEngine} (h : Fresh env ps e) (sent : List RaftRPC) :
    Synced env ps ⟨e, sent, []⟩ freshStorage := by
  obtain ⟨n, key, machine, rfl⟩ := h
  have hblank : Synced env ps ⟨{ blank n ps key machine with storage := some freshStorage }, [], []⟩ freshStorage := by
    refine ⟨rfl, written_fresh env, ?_, rfl, rfl, .inr ⟨rfl, rfl⟩, fun hp => hp, rfl, fun _ => rfl, ?_⟩
    · intro x hx
      cases hx
    · intro hi
      exact absurd rfl hi
  exact hblank.restart n key machine sent

/-- **The step lemma.** -/
theorem Synced.step (hsha : ∀ t, env.sha256 t ≠ "") (h : Synced env ps s st) {op : NodeOp} {s' : StoredNode}
    (hok : KeepsWal env ps op s) (hstep : NodeStep env s op s') : ∃ st', Synced env ps s' st' := by
  cases hstep with
  | method hw happ _ hinstall =>
      cases op with
      | call op =>
          have hcut : NodeOp.cut env s.engine (.call op) = s.engine := cut_eq_of_atEnd hok.atEnd
          have hoff : NodeOp.offered env s.engine (.call op) = op.offered env s.engine := rfl
          rw [hcut] at hw
          rw [hoff] at happ
          refine h.method hw ?_ ?_ ?_
          · rw [happ]
            exact hok.ready.fits
          · rw [happ]
            exact h.firstBroken_offered hsha hok
          · intro hnil
            rcases hinstall with hsame | hinstalled
            · exact h.peers (hsame.symm.trans hnil)
            · exact hok.members (hinstalled.trans (congrArg some hnil))
      | _ =>
          have hnil := happ.trans (show NodeOp.offered env s.engine _ = [] from rfl)
          refine h.method hw ?_ ?_ ?_
          · rw [hnil]
            intro x hx
            cases hx
          · rw [hnil]
            rfl
          · intro hempty
            rcases hinstall with hsame | hinstalled
            · exact h.peers (hsame.symm.trans hempty)
            · cases hinstalled
  | snapshot hst hsnap =>
      rw [h.storage] at hst
      cases hst
      exact h.snapshot hsnap
  | work hst hq =>
      rw [h.storage] at hst
      cases hst
      exact ⟨_, h.work hq⟩
  | restart =>
      obtain ⟨rfl, hidle⟩ := hok
      have hflush : st.flush env = st := flush_of_idle env (List.isEmpty_iff.mp (hidle st h.storage))
      rw [h.storage, Option.map_some, ← hflush]
      exact ⟨_, h.restart _ _ _ _⟩

/-- **When a restart gives the engine back.** In every run whose calls extend the log with entries the boot takes
back, from a fresh directory: the rebuilt engine has the same entries above the same snapshot index, the same term,
vote and peers, if and only if no snapshot has dropped an entry since the engine was built. -/
theorem restarts_faithfully_iff (env : Env) (hsha : ∀ t, env.sha256 t ≠ "") (ps : List String) (s : StoredNode)
    (past : List StoredNode) (hr : (storedNode env (Fresh env ps)).Run (KeepsWal env ps) (s :: past)) :
    s.engine.RestartsFaithfully env ps ↔ s.pruned = [] := by
  have hinv : ∃ st, Synced env ps s st := by
    refine System.Run.invariant_head (P := fun s _ => ∃ st, Synced env ps s st) ?_ ?_ hr
    · rintro ⟨e, sent, pruned⟩ ⟨hfresh, -, hpruned⟩
      dsimp only at hfresh hpruned
      subst hpruned
      exact ⟨_, .fresh hfresh sent⟩
    · rintro s past op s' - ⟨st, hi⟩ hok hstep
      exact hi.step hsha hok (stepBy_cases hstep)
  obtain ⟨st, hi⟩ := hinv
  have hrestart : ∀ key machine, Restored s (s.engine.restarted env ps key machine) := by
    intro key machine
    unfold restarted
    rw [hi.storage, Option.map_some]
    exact hi.restored s.engine.nodeId key machine
  have hlow := hi.low
  constructor
  · intro hsame
    obtain ⟨-, hlog, hidx⟩ := hrestart "" none
    have hentries := (hsame "" none).entries
    have hall : s.pruned ++ s.engine.log = s.engine.log := by
      refine List.ext_getElem? fun j => ?_
      -- the entry at position `j` behind the snapshot
      have hj := hentries (s.engine.lastSnapshotIndex + 1 + j).toNat (by omega)
      unfold getEntry at hj
      rw [hidx, hlog, if_neg (by omega), if_neg (by omega)] at hj
      have hpos : (((s.engine.lastSnapshotIndex + 1 + (j : Int)).toNat : Int) - s.engine.lastSnapshotIndex - 1).toNat
          = j := by omega
      rw [hpos] at hj
      exact hj
    have hlen := congrArg List.length hall
    rw [List.length_append] at hlen
    exact List.eq_nil_of_length_eq_zero (by omega)
  · intro hnil key machine
    obtain ⟨hmeta, hlog, hidx⟩ := hrestart key machine
    rw [hnil, List.nil_append] at hlog
    refine ⟨?_, hidx, congrArg RaftMetadata.currentTerm hmeta, congrArg RaftMetadata.votedFor hmeta,
      congrArg RaftMetadata.peers hmeta⟩
    intro i _
    unfold getEntry
    rw [hidx, hlog]

/-- A single node on a fresh directory. -/
def soloNode : StoredNode := ⟨new scriptEnv "a" [] "" (some freshStorage) none, [], []⟩

/-- It is a start of the runs. -/
theorem soloNode_init : (storedNode scriptEnv (Fresh scriptEnv [])).init soloNode := ⟨⟨"a", "", none, rfl⟩, rfl, rfl⟩

/-- It leads and commits a first entry. -/
def soloScript : List (StoredNode → NodeOp) :=
  [fun _ => .startElection, fun _ => .call (.propose "LAND:1" []),
    fun _ => .call (.rpc ⟨1, "a", none, .appendResponse true 0, "", zeroHash⟩)]

/-- A restart in between, a second entry, and everything is there again. -/
theorem restarts_faithfully_iff_solo : ∃ (s : StoredNode) (past : List StoredNode),
    (storedNode scriptEnv (Fresh scriptEnv [])).Run (KeepsWal scriptEnv []) (s :: past) ∧
      s.engine.log.length = 2 ∧ s.engine.RestartsFaithfully scriptEnv [] := by
  obtain ⟨s, past, hr, hlen, hpruned⟩ := System.exists_run_of_play (KeepsWal scriptEnv [])
    (P := fun (s : StoredNode) _ => s.engine.log.length = 2 ∧ s.pruned = []) soloNode_init
    (soloScript ++ [fun _ => .work, fun _ => .work, fun _ => .restart [] "" none, fun _ => .startElection,
      fun _ => .call (.propose "LAND:2" [])]) (by decide +kernel)
  exact ⟨s, past, hr, hlen, (restarts_faithfully_iff scriptEnv scriptEnv_sha256_ne [] s past hr).mpr hpruned⟩

/-- A snapshot of the only entry: before the restart there is nothing at index 1, after it the entry of index 0. -/
theorem restart_shifts_log : ¬ ∀ (env : Env) (ps : List String) (s : StoredNode) (past : List StoredNode),
    (storedNode env (Fresh env ps)).Run (fun _ _ => True) (s :: past) → s.engine.RestartsFaithfully env ps := by
  intro hall
  obtain ⟨s, past, hr, hidx, hentry⟩ := System.exists_run_of_play (fun _ _ => True)
    (P := fun (s : StoredNode) _ => s.engine.lastSnapshotIndex = 0 ∧
      (s.engine.restarted scriptEnv [] "" none).getEntry 1 ≠ s.engine.getEntry 1) soloNode_init
    (soloScript ++ [fun _ => .saveSnapshot "LAND:1"]) (by decide +kernel)
  exact hentry ((hall scriptEnv [] s past hr "" none).entries 1 (by omega))

end StoredNode

end WarmLogic.Consensus
