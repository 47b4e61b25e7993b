/-
# WarmLogic.Federation.RegionConvergence — when region synchronizers that have received everything hold the same.

Any number of synchronizers decide, make batches of what they hold, and receive batches that were made, in any order
and any number of times. Beside the nodes the run keeps the decisions ever made and those that reached each node.

Which of two decisions is kept is settled pair by pair: by causal order, else by time (and region). The pairs need not
fit together. Two decisions with one time do not replace each other, a clock that ran late makes a cycle of three, a
decision with the hash of the stored one is not compared at all, and a local decision replaces what is stored in any
case. `synchronizers_converge` excludes exactly that: the decisions of an id are ranked by replacement, and a local
decision ranks above the one it replaces.

That this is enough is one invariant, `InOrder`: every node stores under each id a decision that tops all those of the
id that have reached it. Receiving keeps it because the better of two is stored and a ranking is total on what was
made (`Settled.applyRemoteDecision`), deciding keeps it because the new decision ranks above the old. Once everything
has reached every node, all of them store a top of the same decisions, and two tops of a ranking have the same hash.
-/
import WarmLogic.Federation.RegionSync
import WarmLogic.Lib.Ranking
import Mathlib.Data.List.Induction

namespace WarmLogic.Federation.Region

open WarmLogic.Lib RegionStateSynchronizer

variable {T : Type}

/-! ## Replacement -/

/-- `b` replaces `a` where it is received and `a` is stored under its id: the hashes differ, and `b` does not precede
`a`, and it follows it or is preferred to it. -/
def Replaces (time : FloatOrder T) (strategy : ConflictResolution) (a b : SyncableDecision T) : Prop :=
  a.decisionHash ≠ b.decisionHash ∧ b.vectorClock.happensBefore a.vectorClock = false ∧
    (a.vectorClock.happensBefore b.vectorClock = true ∨ prefersRemote time strategy a b = true)

instance (time : FloatOrder T) (strategy : ConflictResolution) (a b : SyncableDecision T) :
    Decidable (Replaces time strategy a b) := inferInstanceAs (Decidable (_ ∧ _))

variable {time : FloatOrder T} {s : RegionStateSynchronizer T} {remote : SyncableDecision T}

/-- A remote decision leaves the strategy. -/
theorem strategy_applyRemoteDecision (time : FloatOrder T) (s : RegionStateSynchronizer T) (remote : SyncableDecision T) :
    (s.applyRemoteDecision time remote).1.resolutionStrategy = s.resolutionStrategy := by
  rcases applyRemoteDecision_cases time s remote with ⟨-, heq⟩ | ⟨localDecision, -, ⟨-, heq⟩ | ⟨-, -, heq⟩ | ⟨-, -, -, heq⟩ |
    ⟨-, heq⟩⟩ <;> rw [heq]
  · rfl
  · rfl
  · rw [resolveConflict]
    split <;> rfl

/-- Other ids are not touched. -/
theorem lookup_applyRemoteDecision_ne {decisionId : String} (h : decisionId ≠ remote.decisionId) :
    (s.applyRemoteDecision time remote).1.decisions.lookup decisionId = s.decisions.lookup decisionId := by
  have hinsert : (s.decisions.insert remote.decisionId remote).lookup decisionId = s.decisions.lookup decisionId :=
    AList.lookup_insert_ne h
  rcases applyRemoteDecision_cases time s remote with ⟨-, heq⟩ | ⟨localDecision, -, ⟨-, heq⟩ | ⟨-, -, heq⟩ | ⟨-, -, -, heq⟩ |
    ⟨-, heq⟩⟩ <;> rw [heq]
  · exact hinsert
  · exact hinsert
  · rw [resolveConflict]
    split
    · exact hinsert
    · rfl

/-- **What is stored after a remote decision**: it, where nothing was stored or what was stored is replaced. -/
theorem lookup_applyRemoteDecision (time : FloatOrder T) (s : RegionStateSynchronizer T) (remote : SyncableDecision T) :
    (s.decisions.lookup remote.decisionId = none ∧
      (s.applyRemoteDecision time remote).1.decisions.lookup remote.decisionId = some remote) ∨
    ∃ stored, s.decisions.lookup remote.decisionId = some stored ∧
      (s.applyRemoteDecision time remote).1.decisions.lookup remote.decisionId =
        some (if Replaces time s.resolutionStrategy stored remote then remote else stored) := by
  have hinsert : (s.decisions.insert remote.decisionId remote).lookup remote.decisionId = some remote := AList.lookup_insert _
  rcases applyRemoteDecision_cases time s remote with ⟨hnone, heq⟩ | ⟨stored, hstored, hcases⟩
  · rw [heq]
    exact .inl ⟨hnone, hinsert⟩
  refine .inr ⟨stored, hstored, ?_⟩
  rcases hcases with ⟨hhash, heq⟩ | ⟨-, holder, heq⟩ | ⟨hhash, holder, hnewer, heq⟩ |
    ⟨⟨-, hhash, holder, hnewer⟩, heq⟩
  · rw [heq, if_neg fun h => h.1 hhash, hstored]
  · rw [heq, if_neg fun h => Bool.false_ne_true (h.2.1.symm.trans holder), hstored]
  · rw [heq, if_pos ⟨hhash, holder, .inl hnewer⟩]
    exact hinsert
  · rw [heq, resolveConflict]
    by_cases hprefers : prefersRemote time s.resolutionStrategy stored remote = true
    · simp only [if_pos hprefers]
      rw [if_pos ⟨hhash, holder, .inr hprefers⟩]
      exact hinsert
    · simp only [if_neg hprefers]
      rw [if_neg fun h => h.2.2.elim (fun hn => Bool.false_ne_true (hnewer.symm.trans hn)) hprefers]
      exact hstored

/-! ## What a node has settled on -/

/-- The decisions of an id among those made. -/
def ofId (made : List (SyncableDecision T)) (decisionId : String) (d : SyncableDecision T) : Prop :=
  d ∈ made ∧ d.decisionId = decisionId

/-- For each id, replacement ranks the decisions made. -/
def RanksAll (time : FloatOrder T) (strategy : ConflictResolution) (made : List (SyncableDecision T)) : Prop :=
  ∀ decisionId, Ranked (Replaces time strategy) SyncableDecision.decisionHash (ofId made decisionId)

/-- Under the id of each decision that reached it, the node stores one that tops all of them. -/
structure Settled (time : FloatOrder T) (strategy : ConflictResolution) (seen : List (SyncableDecision T))
    (s : RegionStateSynchronizer T) : Prop where
  stored : ∀ decisionId d, s.decisions.lookup decisionId = some d → ofId seen decisionId d
  covers : ∀ d ∈ seen, (s.decisions.lookup d.decisionId).isSome
  tops : ∀ decisionId d, s.decisions.lookup decisionId = some d →
    Tops (Replaces time strategy) SyncableDecision.decisionHash (ofId seen decisionId) d

variable {strategy : ConflictResolution} {made seen : List (SyncableDecision T)}

/-- A node that stores `d` under its id, leaving the others, is settled with `d`, if `d` tops what came before. -/
theorem Settled.insert (h : Settled time strategy seen s) {s' : RegionStateSynchronizer T} {r d : SyncableDecision T}
    (hid : d.decisionId = r.decisionId) (hmem : d = r ∨ d ∈ seen)
    (hlookup : s'.decisions.lookup r.decisionId = some d)
    (hothers : ∀ decisionId, decisionId ≠ r.decisionId → s'.decisions.lookup decisionId = s.decisions.lookup decisionId)
    (htops : Tops (Replaces time strategy) SyncableDecision.decisionHash (ofId (r :: seen) r.decisionId) d) :
    Settled time strategy (r :: seen) s' := by
  have hseen : ∀ {decisionId x}, ofId seen decisionId x → ofId (r :: seen) decisionId x :=
    fun hx => ⟨List.mem_cons_of_mem _ hx.1, hx.2⟩
  refine ⟨fun decisionId x hx => ?_, fun x hx => ?_, fun decisionId x hx => ?_⟩
  · by_cases hsame : decisionId = r.decisionId
    · rw [hsame, hlookup] at hx
      cases hx
      refine ⟨?_, hid.trans hsame.symm⟩
      rcases hmem with rfl | hmem
      · exact List.mem_cons_self
      · exact List.mem_cons_of_mem _ hmem
    · rw [hothers decisionId hsame] at hx
      exact hseen (h.stored decisionId x hx)
  · by_cases hsame : x.decisionId = r.decisionId
    · rw [hsame, hlookup]
      rfl
    · rw [hothers _ hsame]
      rcases List.mem_cons.1 hx with rfl | hx
      · exact absurd rfl hsame
      · exact h.covers x hx
  · by_cases hsame : decisionId = r.decisionId
    · rw [hsame, hlookup] at hx
      cases hx
      exact hsame ▸ htops
    · rw [hothers decisionId hsame] at hx
      intro y hy
      have hyseen : ofId seen decisionId y := by
        rcases List.mem_cons.1 hy.1 with rfl | hmem
        · exact absurd hy.2.symm hsame
        · exact ⟨hmem, hy.2⟩
      exact h.tops decisionId x hx y hyseen

/-- What tops the seen decisions of an id tops one more that it has the hash of or replaces. -/
theorem tops_cons {r d : SyncableDecision T}
    (h : Tops (Replaces time strategy) SyncableDecision.decisionHash (ofId seen r.decisionId) d)
    (hr : r.decisionHash = d.decisionHash ∨ Replaces time strategy r d) :
    Tops (Replaces time strategy) SyncableDecision.decisionHash (ofId (r :: seen) r.decisionId) d := by
  intro x hx
  rcases List.mem_cons.1 hx.1 with rfl | hmem
  · exact hr
  · exact h x ⟨hmem, hx.2⟩

/-- A node with nothing under an id has seen nothing of it. -/
theorem Settled.none_seen (h : Settled time strategy seen s) {decisionId : String}
    (hnone : s.decisions.lookup decisionId = none) (d : SyncableDecision T) : ¬ ofId seen decisionId d := by
  rintro ⟨hmem, rfl⟩
  have := h.covers d hmem
  rw [hnone] at this
  cases this

/-- **Receiving a decision**, once the decisions made are ranked, leaves the node settled. -/
theorem Settled.applyRemoteDecision (h : Settled time s.resolutionStrategy seen s)
    (hranked : RanksAll time s.resolutionStrategy made) (hseen : ∀ d ∈ seen, d ∈ made) (hremote : remote ∈ made) :
    Settled time s.resolutionStrategy (remote :: seen) (s.applyRemoteDecision time remote).1 := by
  have hothers : ∀ decisionId, decisionId ≠ remote.decisionId →
      (s.applyRemoteDecision time remote).1.decisions.lookup decisionId = s.decisions.lookup decisionId :=
    fun _ hne => lookup_applyRemoteDecision_ne hne
  rcases lookup_applyRemoteDecision time s remote with ⟨hnone, hlookup⟩ | ⟨stored, hstored, hlookup⟩
  · refine h.insert rfl (.inl rfl) hlookup hothers (tops_cons (fun d hd => ?_) (.inl rfl))
    exact absurd hd (h.none_seen hnone d)
  · have hrank := hranked remote.decisionId
    have hof := h.stored _ _ hstored
    have htops := h.tops _ _ hstored
    have hmade : ofId made remote.decisionId stored := ⟨hseen _ hof.1, hof.2⟩
    by_cases hreplaces : Replaces time s.resolutionStrategy stored remote
    · rw [if_pos hreplaces] at hlookup
      refine h.insert rfl (.inl rfl) hlookup hothers (tops_cons ?_ (.inl rfl))
      exact hrank.tops_of_replaces (fun d hd => ⟨hseen d hd.1, hd.2⟩) hmade ⟨hremote, rfl⟩ htops (.inr hreplaces)
    · rw [if_neg hreplaces] at hlookup
      refine h.insert hof.2 (.inr hof.1) hlookup hothers (tops_cons htops ?_)
      by_cases hhash : remote.decisionHash = stored.decisionHash
      · exact .inl hhash
      · exact .inr (hrank.replaces_of_not hmade ⟨hremote, rfl⟩ (Ne.symm hhash) hreplaces)

/-- So does a batch. -/
theorem strategy_receiveSyncBatch (time : FloatOrder T) (s : RegionStateSynchronizer T)
    (batch : List (SyncableDecision T)) : (s.receiveSyncBatch time batch).1.resolutionStrategy = s.resolutionStrategy := by
  induction batch generalizing s with
  | nil => rfl
  | cons remote batch ih => exact (ih _).trans (strategy_applyRemoteDecision time s remote)

/-- Receiving a batch of decisions made leaves the node settled. -/
theorem Settled.receiveSyncBatch {batch : List (SyncableDecision T)} (h : Settled time s.resolutionStrategy seen s)
    (hranked : RanksAll time s.resolutionStrategy made) (hseen : ∀ d ∈ seen, d ∈ made) (hbatch : ∀ d ∈ batch, d ∈ made) :
    Settled time s.resolutionStrategy (batch.reverse ++ seen) (s.receiveSyncBatch time batch).1 := by
  induction batch generalizing s seen with
  | nil => exact h
  | cons remote batch ih =>
    have hremote := hbatch remote List.mem_cons_self
    have happly := h.applyRemoteDecision hranked hseen hremote
    have hstrategy := strategy_applyRemoteDecision time s remote
    rw [← hstrategy] at happly hranked ⊢
    have hrest := ih happly hranked (fun d hd => ?_) fun d hd => hbatch d (List.mem_cons_of_mem _ hd)
    · rwa [List.reverse_cons, List.append_assoc]
    · rcases List.mem_cons.1 hd with rfl | hd
      · exact hremote
      · exact hseen d hd

/-- **Deciding locally** leaves the node settled, if the decision ranks above the one it replaces. -/
theorem Settled.addLocalDecision (h : Settled time strategy seen s) {sha3 : List UInt8 → String} {decisionId : String}
    {payload : List UInt8} {signature : String} {now : T} {made : List (SyncableDecision T)}
    (hranked : RanksAll time strategy made) (hseen : ∀ d ∈ seen, d ∈ made)
    (hmade : (s.addLocalDecision sha3 decisionId payload signature now).2 ∈ made)
    (habove : ∀ stored, s.decisions.lookup decisionId = some stored →
      stored.decisionHash = (s.addLocalDecision sha3 decisionId payload signature now).2.decisionHash ∨
        Replaces time strategy stored (s.addLocalDecision sha3 decisionId payload signature now).2) :
    Settled time strategy ((s.addLocalDecision sha3 decisionId payload signature now).2 :: seen)
      (s.addLocalDecision sha3 decisionId payload signature now).1 := by
  refine h.insert (r := (s.addLocalDecision sha3 decisionId payload signature now).2) rfl (.inl rfl)
    (AList.lookup_insert _) (fun other hne => AList.lookup_insert_ne hne) (tops_cons ?_ (.inl rfl))
  cases hstored : s.decisions.lookup decisionId with
  | none => exact fun d hd => absurd hd (h.none_seen hstored d)
  | some stored =>
    have hof := h.stored _ _ hstored
    exact (hranked decisionId).tops_of_replaces (fun d hd => ⟨hseen d hd.1, hd.2⟩) ⟨hseen _ hof.1, hof.2⟩ ⟨hmade, rfl⟩
      (h.tops _ _ hstored) (habove stored hstored)

/-! ## Clusters -/

section Clusters

variable {ι : Type} [DecidableEq ι]

/-- The synchronizers, the batches made, and as history the decisions made and those that reached each node. -/
structure Cluster (ι T : Type) where
  nodes : ι → RegionStateSynchronizer T
  batches : List (List (SyncableDecision T))
  made : List (SyncableDecision T)
  reached : ι → List (SyncableDecision T)

/-- A step of the cluster: decide, make a batch, or receive one. -/
inductive ClusterOp (ι T : Type) where
  | addLocalDecision (node : ι) (decisionId : String) (payload : List UInt8) (signature : String) (now : T)
  /-- with these ids; without any, the source takes all that are stored -/
  | createSyncBatch (node : ι) (decisionIds : List String)
  /-- the batch that was made as number `number` -/
  | receiveSyncBatch (node : ι) (number : Nat)

/-- The decisions of `create_sync_batch`. -/
def batchOf (s : RegionStateSynchronizer T) (decisionIds : List String) : List (SyncableDecision T) :=
  decisionIds.filterMap fun decisionId => s.decisions.lookup decisionId

/-- What a step does, and what it adds to the history. -/
def ClusterOp.step (sha3 : List UInt8 → String) (time : FloatOrder T) (c : Cluster ι T) :
    ClusterOp ι T → Option (Cluster ι T)
  | .addLocalDecision node decisionId payload signature now =>
      let (s, decision) := (c.nodes node).addLocalDecision sha3 decisionId payload signature now
      some { c with
        nodes := Function.update c.nodes node s
        made := decision :: c.made
        reached := Function.update c.reached node (decision :: c.reached node) }
  | .createSyncBatch node decisionIds => some { c with batches := c.batches ++ [batchOf (c.nodes node) decisionIds] }
  | .receiveSyncBatch node number =>
      (c.batches[number]?).map fun batch =>
        { c with
          nodes := Function.update c.nodes node ((c.nodes node).receiveSyncBatch time batch).1
          reached := Function.update c.reached node (batch.reverse ++ c.reached node) }

/-- New synchronizers of one strategy, with distinct node ids. -/
def clusterRuns (ι : Type) [DecidableEq ι] (sha3 : List UInt8 → String) (time : FloatOrder T)
    (strategy : ConflictResolution) : System (Cluster ι T) (ClusterOp ι T) where
  init c := (∀ i, ∃ localRegion nodeId, c.nodes i = new localRegion nodeId strategy) ∧
    (Function.Injective fun i => (c.nodes i).nodeId) ∧ c.batches = [] ∧ c.made = [] ∧ c.reached = fun _ => []
  step op c := op.step sha3 time c

/-- A local decision leaves the decisions of each id ranked, and ranks above the one it replaces. -/
def DecidesInOrder (sha3 : List UInt8 → String) (time : FloatOrder T) (strategy : ConflictResolution)
    (op : ClusterOp ι T) (c : Cluster ι T) : Prop :=
  ∀ node decisionId payload signature now, op = .addLocalDecision node decisionId payload signature now →
    RanksAll time strategy (((c.nodes node).addLocalDecision sha3 decisionId payload signature now).2 :: c.made) ∧
      ∀ stored, (c.nodes node).decisions.lookup decisionId = some stored →
        stored.decisionHash = ((c.nodes node).addLocalDecision sha3 decisionId payload signature now).2.decisionHash ∨
          Replaces time strategy stored ((c.nodes node).addLocalDecision sha3 decisionId payload signature now).2

/-- Every node has received every decision, or made it. -/
def AllReached (c : Cluster ι T) : Prop := ∀ i, ∀ d ∈ c.made, d ∈ c.reached i

/-- All nodes hold the same decision hash under every id. -/
def SameHashes (c : Cluster ι T) : Prop :=
  ∀ i j decisionId, ((c.nodes i).decisions.lookup decisionId).map (·.decisionHash) =
    ((c.nodes j).decisions.lookup decisionId).map (·.decisionHash)

/-- What holds in all runs that decide in order. -/
structure InOrder (time : FloatOrder T) (strategy : ConflictResolution) (c : Cluster ι T) : Prop where
  strategy_eq : ∀ i, (c.nodes i).resolutionStrategy = strategy
  ranked : RanksAll time strategy c.made
  batches_made : ∀ batch ∈ c.batches, ∀ d ∈ batch, d ∈ c.made
  reached_made : ∀ i, ∀ d ∈ c.reached i, d ∈ c.made
  settled : ∀ i, Settled time strategy (c.reached i) (c.nodes i)

/-- New synchronizers store nothing, and nothing has reached them. -/
theorem inOrder_init {sha3 : List UInt8 → String} {c : Cluster ι T} (h : (clusterRuns ι sha3 time strategy).init c) :
    InOrder time strategy c := by
  obtain ⟨hnew, -, hbatches, hmade, hreached⟩ := h
  have hempty : ∀ i decisionId, (c.nodes i).decisions.lookup decisionId = none := by
    intro i decisionId
    obtain ⟨localRegion, nodeId, hi⟩ := hnew i
    rw [hi]
    rfl
  refine ⟨fun i => ?_, fun decisionId => ⟨?_, ?_, ?_⟩, ?_, fun i => ?_, fun i => ⟨?_, ?_, ?_⟩⟩
  · obtain ⟨localRegion, nodeId, hi⟩ := hnew i
    rw [hi]
    rfl
  · intro a b ha
    rw [hmade] at ha
    cases ha.1
  · intro a b ha
    rw [hmade] at ha
    cases ha.1
  · intro a b c ha
    rw [hmade] at ha
    cases ha.1
  · simp [hbatches]
  · simp [hreached]
  · intro decisionId d hd
    rw [hempty] at hd
    cases hd
  · simp [hreached]
  · intro decisionId d hd
    rw [hempty] at hd
    cases hd

/-- One node changed, with what has reached it. -/
theorem InOrder.update {c : Cluster ι T} (h : InOrder time strategy c) {made' seen' : List (SyncableDecision T)} {node : ι}
    {s' : RegionStateSynchronizer T} (hstrategy : s'.resolutionStrategy = strategy) (hranked : RanksAll time strategy made')
    (hmade : ∀ d ∈ c.made, d ∈ made') (hseen : ∀ d ∈ seen', d ∈ made') (hsettled : Settled time strategy seen' s') :
    InOrder time strategy ⟨Function.update c.nodes node s', c.batches, made', Function.update c.reached node seen'⟩ := by
  refine ⟨fun i => ?_, hranked, fun batch hb d hd => hmade d (h.batches_made batch hb d hd), fun i => ?_, fun i => ?_⟩
  · by_cases hi : i = node
    · simpa only [hi, Function.update_self] using hstrategy
    · simpa only [Function.update_of_ne hi] using h.strategy_eq i
  · by_cases hi : i = node
    · simpa only [hi, Function.update_self] using hseen
    · simpa only [Function.update_of_ne hi] using fun d hd => hmade d (h.reached_made i d hd)
  · by_cases hi : i = node
    · simpa only [hi, Function.update_self] using hsettled
    · simpa only [Function.update_of_ne hi] using h.settled i

/-- **The step lemma**: a step that decides in order keeps the invariant. A batch that is received was made by a node
from what it held, so it brings decisions that were made. -/
theorem inOrder_step {sha3 : List UInt8 → String} {c c' : Cluster ι T} {op : ClusterOp ι T} (h : InOrder time strategy c)
    (hop : DecidesInOrder sha3 time strategy op c) (hstep : op.step sha3 time c = some c') : InOrder time strategy c' := by
  cases op with
  | addLocalDecision node decisionId payload signature now =>
    obtain ⟨hranked, habove⟩ := hop _ _ _ _ _ rfl
    have hsettled := (h.settled node).addLocalDecision hranked
      (fun d hd => List.mem_cons_of_mem _ (h.reached_made node d hd)) List.mem_cons_self habove
    cases hstep
    refine h.update (h.strategy_eq node) hranked (fun d hd => List.mem_cons_of_mem _ hd) (fun d hd => ?_) hsettled
    rcases List.mem_cons.1 hd with rfl | hd
    · exact List.mem_cons_self
    · exact List.mem_cons_of_mem _ (h.reached_made node d hd)
  | createSyncBatch node decisionIds =>
    cases hstep
    refine ⟨h.strategy_eq, h.ranked, fun batch hb d hd => ?_, h.reached_made, h.settled⟩
    rcases List.mem_append.1 hb with hb | hb
    · exact h.batches_made batch hb d hd
    · rw [List.mem_singleton.1 hb] at hd
      obtain ⟨decisionId, -, hlookup⟩ := List.mem_filterMap.1 hd
      exact h.reached_made node d ((h.settled node).stored decisionId d hlookup).1
  | receiveSyncBatch node number =>
    obtain ⟨batch, hbatch, rfl⟩ := Option.map_eq_some_iff.1 hstep
    have hmade := h.batches_made batch (List.mem_of_getElem? hbatch)
    have hstrategy := h.strategy_eq node
    have hsettled : Settled time strategy (batch.reverse ++ c.reached node)
        ((c.nodes node).receiveSyncBatch time batch).1 := by
      have hnode := h.settled node
      have hranked := h.ranked
      rw [← hstrategy] at hnode hranked ⊢
      exact hnode.receiveSyncBatch hranked (h.reached_made node) hmade
    refine h.update ((strategy_receiveSyncBatch time _ batch).trans hstrategy) h.ranked (fun d hd => hd) (fun d hd => ?_)
      hsettled
    rcases List.mem_append.1 hd with hd | hd
    · exact hmade d (List.mem_reverse.1 hd)
    · exact h.reached_made node d hd

omit [DecidableEq ι] in
/-- Nodes that have received everything have settled on the same. -/
theorem InOrder.sameHashes {c : Cluster ι T} (h : InOrder time strategy c) (hall : AllReached c) : SameHashes c := by
  -- what one node stores reached the other, which then stores something too
  have hstored : ∀ i j decisionId d, (c.nodes i).decisions.lookup decisionId = some d →
      ∃ d', (c.nodes j).decisions.lookup decisionId = some d' := by
    intro i j decisionId d hd
    obtain ⟨hmem, rfl⟩ := (h.settled i).stored decisionId d hd
    exact Option.isSome_iff_exists.1 ((h.settled j).covers d (hall j d (h.reached_made i d hmem)))
  intro i j decisionId
  cases hi : (c.nodes i).decisions.lookup decisionId with
  | none =>
    cases hj : (c.nodes j).decisions.lookup decisionId with
    | none => rfl
    | some d =>
      obtain ⟨d', hd'⟩ := hstored j i decisionId d hj
      cases hi.symm.trans hd'
  | some d =>
    obtain ⟨d', hd'⟩ := hstored i j decisionId d hi
    rw [hd']
    obtain ⟨hmem, hid⟩ := (h.settled i).stored decisionId d hi
    obtain ⟨hmem', hid'⟩ := (h.settled j).stored decisionId d' hd'
    have hmade := h.reached_made i d hmem
    have hmade' := h.reached_made j d' hmem'
    exact congrArg some ((h.ranked decisionId).agree ⟨hmade, hid⟩ ⟨hmade', hid'⟩ ((h.settled i).tops decisionId d hi)
      ((h.settled j).tops decisionId d' hd') ⟨hall j d hmade, hid⟩ ⟨hall i d' hmade', hid'⟩)

/-- **Region synchronizers converge**, in every run that decides in order: once everything has reached every node, all
hold the same hashes. Each node stores a top of what has reached it, and a ranking has one top up to its hash. -/
theorem synchronizers_converge (sha3 : List UInt8 → String) (time : FloatOrder T) (strategy : ConflictResolution)
    (c : Cluster ι T) (h : (clusterRuns ι sha3 time strategy).Reachable (DecidesInOrder sha3 time strategy) c)
    (hall : AllReached c) : SameHashes c := by
  have horder : InOrder time strategy c :=
    System.Reachable.invariant (P := InOrder time strategy) (fun c hc => inOrder_init hc)
      (fun c op c' hc hop hstep => inOrder_step hc hop hstep) h
  exact horder.sameHashes hall

end Clusters

/-! ## Two nodes -/

/-- One decision is ranked. -/
theorem ranksAll_singleton (time : FloatOrder T) (strategy : ConflictResolution) (a : SyncableDecision T) :
    RanksAll time strategy [a] := by
  intro decisionId
  refine ⟨fun x y _ _ hxy => hxy.1, fun x y hx hy hne => ?_, fun x y z hx hy _ hxy => ?_⟩
  · rw [List.mem_singleton.1 hx.1, List.mem_singleton.1 hy.1] at hne
    exact absurd rfl hne
  · rw [List.mem_singleton.1 hx.1, List.mem_singleton.1 hy.1] at hxy
    exact absurd rfl hxy.1

/-- Two are if one replaces the other, and not the other way round. -/
theorem ranksAll_pair {a b : SyncableDecision T} (hab : Replaces time strategy a b) (hba : ¬ Replaces time strategy b a) :
    RanksAll time strategy [b, a] := by
  have hcases : ∀ {decisionId x}, ofId [b, a] decisionId x → x = b ∨ x = a := fun hx => by simpa using hx.1
  have hself : ∀ x, ¬ Replaces time strategy x x := fun x hx => hx.1 rfl
  intro decisionId
  refine ⟨fun x y _ _ hxy => hxy.1, fun x y hx hy hne => ?_, fun x y z hx hy hz hxy hyz => ?_⟩
  · rcases hcases hx with rfl | rfl <;> rcases hcases hy with rfl | rfl
    · exact absurd rfl hne
    · exact .inr hab
    · exact .inl hab
    · exact absurd rfl hne
  · -- only the older decision is replaced, and nothing replaces the other
    rcases hcases hx with rfl | rfl <;> rcases hcases hy with rfl | rfl
    · exact absurd hxy (hself _)
    · exact absurd hxy hba
    · rcases hcases hz with rfl | rfl
      · exact absurd hyz (hself _)
      · exact absurd hyz hba
    · exact absurd hxy (hself _)

/-- A node in each of two regions. -/
def pair (strategy : ConflictResolution) : Cluster Bool Nat where
  nodes
    | false => new "eu" "n1" strategy
    | true => new "us" "n2" strategy
  batches := []
  made := []
  reached _ := []

/-- Two new nodes. -/
theorem pair_init (strategy : ConflictResolution) : (clusterRuns Bool sampleSha3 natTime strategy).init (pair strategy) := by
  refine ⟨fun i => ?_, ?_, rfl, rfl, rfl⟩
  · cases i
    · exact ⟨"eu", "n1", rfl⟩
    · exact ⟨"us", "n2", rfl⟩
  · intro i j hij
    have hne : ("n1" : String) ≠ "n2" := by decide
    cases i <;> cases j
    · rfl
    · exact absurd hij hne
    · exact absurd hij hne.symm
    · rfl

/-- Both decide on `d`, at these times, and send each other what they decided. -/
def exchange (first second : Nat) : List (ClusterOp Bool Nat) :=
  [.addLocalDecision false "d" [97] "" first, .addLocalDecision true "d" [98] "" second,
    .createSyncBatch false ["d"], .createSyncBatch true ["d"], .receiveSyncBatch true 0, .receiveSyncBatch false 1]

/-- Then the first node, whose clock is behind, decides again. -/
def secondThoughts : List (ClusterOp Bool Nat) :=
  [.addLocalDecision false "d" [97] "" 7, .createSyncBatch false ["d"], .receiveSyncBatch true 2]

/-- The cluster after calls that all have a next state. -/
def after (c : Cluster Bool Nat) (ops : List (ClusterOp Bool Nat)) : Cluster Bool Nat :=
  ops.foldl (fun c op => (op.step sampleSha3 natTime c).getD c) c

/-- Each of the calls meets the guard when its turn comes, and has a next state. -/
def Admits (ok : ClusterOp Bool Nat → Cluster Bool Nat → Prop) (c : Cluster Bool Nat) : List (ClusterOp Bool Nat) → Prop
  | [] => True
  | op :: ops => ok op c ∧ (op.step sampleSha3 natTime c).isSome = true ∧ Admits ok (after c [op]) ops

/-- Calls that are admitted lead to a state of a run. -/
theorem reachable_after {strategy : ConflictResolution} {ok : ClusterOp Bool Nat → Cluster Bool Nat → Prop}
    {c : Cluster Bool Nat} (hc : (clusterRuns Bool sampleSha3 natTime strategy).Reachable ok c)
    {ops : List (ClusterOp Bool Nat)} (hops : Admits ok c ops) :
    (clusterRuns Bool sampleSha3 natTime strategy).Reachable ok (after c ops) := by
  induction ops generalizing c with
  | nil => exact hc
  | cons op ops ih =>
    obtain ⟨hop, hsome, hrest⟩ := hops
    obtain ⟨past, hrun⟩ := hc
    obtain ⟨c', hc'⟩ := Option.isSome_iff_exists.1 hsome
    have hafter : after c [op] = c' := by
      show (op.step sampleSha3 natTime c).getD c = c'
      rw [hc']
      rfl
    exact ih ⟨_, hrun.step hop (hc'.trans (congrArg some hafter.symm))⟩ hrest

/-- What the two nodes decide first, under one strategy or the other. -/
def decisionOf (strategy : ConflictResolution) (node : Bool) (now : Nat) : SyncableDecision Nat :=
  (((pair strategy).nodes node).addLocalDecision sampleSha3 "d" (if node then [98] else [97]) "" now).2

/-- After an exchange both have both decisions. -/
theorem allReached_exchange (strategy : ConflictResolution) (first second : Nat) :
    AllReached (after (pair strategy) (exchange first second)) := by
  intro i d hd
  have hmade : d ∈ [decisionOf strategy true second, decisionOf strategy false first] := hd
  cases i with
  | false =>
    show d ∈ [decisionOf strategy true second, decisionOf strategy false first]
    exact hmade
  | true =>
    show d ∈ [decisionOf strategy false first, decisionOf strategy true second]
    simpa [or_comm] using hmade

/-- Times that differ rank the decisions of an exchange. -/
theorem exchange_converges :
    SameHashes (after (pair .lastWriterWins) (exchange 3 5)) := by
  refine synchronizers_converge sampleSha3 natTime .lastWriterWins _ (reachable_after ⟨[], .init (pair_init _)⟩ ?_)
    (allReached_exchange .lastWriterWins 3 5)
  refine ⟨?_, rfl, ?_, rfl, ?_, rfl, ?_, rfl, ?_, rfl, ?_, rfl, trivial⟩
  · rintro node decisionId payload signature now ⟨⟩
    exact ⟨ranksAll_singleton _ _ _, fun stored hstored => by cases hstored⟩
  · rintro node decisionId payload signature now ⟨⟩
    refine ⟨ranksAll_pair (a := decisionOf .lastWriterWins false 3) (b := decisionOf .lastWriterWins true 5) ?_ ?_,
      fun stored hstored => by cases hstored⟩
    · decide
    · decide
  all_goals
    rintro node decisionId payload signature now ⟨⟩

/-- Two decisions with equal times stay where they were made; and a node whose clock is behind keeps a decision of its
own that no other node takes over. -/
theorem equal_times_and_late_clock_diverge :
    (¬ ∀ c : Cluster Bool Nat, (clusterRuns Bool sampleSha3 natTime .vectorClock).Reachable (fun _ _ => True) c →
        AllReached c → SameHashes c) ∧
      ¬ ∀ c : Cluster Bool Nat, (clusterRuns Bool sampleSha3 natTime .lastWriterWins).Reachable (fun _ _ => True) c →
        AllReached c → SameHashes c := by
  constructor
  · intro hall
    have hreach : (clusterRuns Bool sampleSha3 natTime .vectorClock).Reachable (fun _ _ => True)
        (after (pair .vectorClock) (exchange 5 5)) := reachable_after ⟨[], .init (pair_init _)⟩
      ⟨trivial, rfl, trivial, rfl, trivial, rfl, trivial, rfl, trivial, rfl, trivial, rfl, trivial⟩
    exact absurd (hall _ hreach (allReached_exchange .vectorClock 5 5) false true "d") (by decide)
  · intro hall
    have hreach : (clusterRuns Bool sampleSha3 natTime .lastWriterWins).Reachable (fun _ _ => True)
        (after (pair .lastWriterWins) (exchange 3 10 ++ secondThoughts)) := reachable_after ⟨[], .init (pair_init _)⟩
      ⟨trivial, rfl, trivial, rfl, trivial, rfl, trivial, rfl, trivial, rfl, trivial, rfl, trivial, rfl, trivial, rfl,
        trivial, rfl, trivial⟩
    refine absurd (hall _ hreach (fun i d hd => ?_) false true "d") (by decide)
    obtain ⟨third, hthird⟩ : ∃ third, third = ((((after (pair .lastWriterWins) (exchange 3 10)).nodes false).addLocalDecision
      sampleSha3 "d" [97] "" 7).2) := ⟨_, rfl⟩
    have hmade : d ∈ [third, decisionOf .lastWriterWins true 10, decisionOf .lastWriterWins false 3] := by
      rw [hthird]
      exact hd
    cases i with
    | false =>
      have hreached : d ∈ [third, decisionOf .lastWriterWins true 10, decisionOf .lastWriterWins false 3] := hmade
      rw [hthird] at hreached
      exact hreached
    | true =>
      have hreached : d ∈ [third, decisionOf .lastWriterWins false 3, decisionOf .lastWriterWins true 10] := by
        simp only [List.mem_cons] at hmade ⊢
        tauto
      rw [hthird] at hreached
      exact hreached

end WarmLogic.Federation.Region
