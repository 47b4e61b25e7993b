/-
# WarmLogic.Kernel.Zanzibar — the relation tuples of `kernel/zanzibar.py`, and their replication over the mesh.

The table is a list of rows, oldest first; its primary key spans six columns, and a key with a NULL clashes with no
other. `check` recurses on its depth. A tuple goes to the mesh as the JSON text of all its fields, and
`handle_zanzibar_tuple` of `mesh/dht.py` builds it anew from seven of the eight: `subject_relation` is left out.
`replicas_agree_iff` says for which tuples that cannot be seen in any decision.

A text column holds a text here: a peer's message with a number in one of them is not modelled, and no engine
broadcasts one. The signature check is the source's own stub.
-/
import WarmLogic.Lib.JsonRoundTrip
import WarmLogic.Lib.Reach
import Mathlib.Data.List.Induction

namespace WarmLogic.Kernel.Zanzibar

open WarmLogic.Lib

/-! ## The engine -/

structure RelationTuple where
  nspace : String
  objectId : String
  relation : String
  subjectNamespace : String
  subjectId : String
  subjectRelation : Option String
  authority : Option String
  signature : Option String
  deriving DecidableEq

/-- The table `relation_tuples`. -/
structure ZanzibarEngine where
  rows : List RelationTuple

/-- A database without rows. -/
def ZanzibarEngine.empty : ZanzibarEngine := ⟨[]⟩

def verifySignature (t : RelationTuple) : Bool :=
  match t.signature, t.authority with
  | some signature, some authority =>
      signature == "ROOT_AUTHORITY_SIG" && "did:warm:root:".toList.isPrefixOf authority.toList
  | _, _ => false

/-- Two rows clash on the primary key. In SQLite a NULL is distinct from every other. -/
def sameKey (t row : RelationTuple) : Bool :=
  t.nspace == row.nspace && t.objectId == row.objectId && t.relation == row.relation &&
    t.subjectNamespace == row.subjectNamespace && t.subjectId == row.subjectId &&
    (t.subjectRelation.isSome && t.subjectRelation == row.subjectRelation)

/-- `INSERT OR REPLACE`. -/
def insertOrReplace (rows : List RelationTuple) (t : RelationTuple) : List RelationTuple :=
  rows.filter (fun row => !sameKey t row) ++ [t]

/-- A text, or NULL. -/
def optional : Option String → Json
  | some s => .str s.toList
  | none => .null

/-- `asdict(t)`. -/
def asdict (t : RelationTuple) : List (List Char × Json) :=
  [("namespace".toList, .str t.nspace.toList), ("object_id".toList, .str t.objectId.toList),
    ("relation".toList, .str t.relation.toList), ("subject_namespace".toList, .str t.subjectNamespace.toList),
    ("subject_id".toList, .str t.subjectId.toList), ("subject_relation".toList, optional t.subjectRelation),
    ("authority".toList, optional t.authority), ("signature".toList, optional t.signature)]

/-- The message of `_replicate_to_mesh`. -/
def replicationMessage (t : RelationTuple) : List (List Char × Json) :=
  Json.setItem (asdict t) "type".toList (.str "ZANZIBAR_TUPLE".toList)

/-- What `_replicate_to_mesh` hands to the broadcast. -/
def replicateToMesh (t : RelationTuple) : List Char := Json.dumpsLine (.obj (replicationMessage t))

/-- What a call of `write_tuple` leaves: the engine, whether the tuple was accepted, and what was broadcast. -/
structure Written where
  engine : ZanzibarEngine
  accepted : Bool
  broadcast : List (List Char)

/-- `write_tuple`; `dht` says whether a mesh was given. -/
def ZanzibarEngine.writeTuple (e : ZanzibarEngine) (t : RelationTuple) (dht replicate : Bool) : Written :=
  if verifySignature t then
    { engine := ⟨insertOrReplace e.rows t⟩
      accepted := true
      broadcast := if replicate && dht then [replicateToMesh t] else [] }
  else { engine := e, accepted := false, broadcast := [] }

/-- The relation to ask for on a group: its own one, or the one asked for. -/
def nextRelation (relation : String) : Option String → String
  | some subjectRelation => if subjectRelation = "" then relation else subjectRelation
  | none => relation

/-- `check`, by the depth that is left. -/
def ZanzibarEngine.checkWithin (e : ZanzibarEngine) : Nat → String → String → String → String → Bool
  | 0, _, _, _, _ => false
  | depth + 1, nspace, objectId, relation, subjectId =>
      let onObject := e.rows.filter fun row => row.nspace == nspace && row.objectId == objectId && row.relation == relation
      onObject.any (fun row => row.subjectNamespace == "user" && row.subjectId == subjectId) ||
        onObject.any fun row => row.subjectNamespace != "user" &&
          e.checkWithin depth row.subjectNamespace row.subjectId (nextRelation relation row.subjectRelation) subjectId

/-- `check`: nothing is granted at depth zero or below. -/
def ZanzibarEngine.check (e : ZanzibarEngine) (nspace objectId relation subjectId : String) (depth : Int) : Bool :=
  e.checkWithin depth.toNat nspace objectId relation subjectId

/-! ## The receiver -/

/-- A field of a message that holds a text. -/
def textField (msg : List (List Char × Json)) (key : String) : Option String :=
  match Json.getItem msg key.toList with
  | some (.str s) => some (String.ofList s)
  | _ => none

/-- The tuple that `handle_zanzibar_tuple` builds; `none` where a required field is missing. The call names the five
positional fields, the authority and the signature. -/
def tupleOfMessage (msg : List (List Char × Json)) : Option RelationTuple := do
  let nspace ← textField msg "namespace"
  let objectId ← textField msg "object_id"
  let relation ← textField msg "relation"
  let subjectNamespace ← textField msg "subject_namespace"
  let subjectId ← textField msg "subject_id"
  return {
    nspace, objectId, relation, subjectNamespace, subjectId
    subjectRelation := none
    authority := textField msg "authority"
    signature := textField msg "signature" }

def handleZanzibarTuple (e : ZanzibarEngine) (msg : List (List Char × Json)) : ZanzibarEngine :=
  match tupleOfMessage msg with
  | some t => (e.writeTuple t false false).engine
  | none => e

/-- `datagram_received`, as far as it leads to `handle_zanzibar_tuple`. -/
def datagramReceived (e : ZanzibarEngine) (data : List Char) : ZanzibarEngine :=
  match Json.loads data with
  | some (.obj msg) => if textField msg "type" = some "ZANZIBAR_TUPLE" then handleZanzibarTuple e msg else e
  | _ => e

/-! ## The two engines of a replication -/

/-- Writes on the first engine, with a mesh and `replicate=True`: the engine and all that was broadcast. -/
def primary (writes : List RelationTuple) : ZanzibarEngine × List (List Char) :=
  writes.foldl (fun (e, sent) t => ((e.writeTuple t true true).engine, sent ++ (e.writeTuple t true true).broadcast))
    (.empty, [])

/-- Deliveries to the second engine. -/
def replica (deliveries : List (List Char)) : ZanzibarEngine := deliveries.foldl datagramReceived .empty

/-! ## What a decision reads -/

/-- The columns of a row that `check` reads. -/
structure Fact where
  nspace : String
  objectId : String
  relation : String
  subjectNamespace : String
  subjectId : String
  subjectRelation : Option String

def RelationTuple.fact (t : RelationTuple) : Fact :=
  ⟨t.nspace, t.objectId, t.relation, t.subjectNamespace, t.subjectId, t.subjectRelation⟩

namespace Fact

/-- What a fact grants: a relation on an object. -/
def object (f : Fact) : String × String × String := (f.nspace, f.objectId, f.relation)

/-- The relation on the group whose members it is granted to. -/
def group (f : Fact) : String × String × String := (f.subjectNamespace, f.subjectId, nextRelation f.relation f.subjectRelation)

/-- The fact as the receiver stores it. -/
def stripped (f : Fact) : Fact := { f with subjectRelation := none }

end Fact

/-- A fact grants `x` to this user. -/
def Grants (facts : Fact → Prop) (user : String) (x : String × String × String) : Prop :=
  ∃ f, facts f ∧ f.object = x ∧ f.subjectNamespace = "user" ∧ f.subjectId = user

/-- A fact grants `x` to whoever has `y`. -/
def Inherits (facts : Fact → Prop) (x y : String × String × String) : Prop :=
  ∃ f, facts f ∧ f.object = x ∧ f.subjectNamespace ≠ "user" ∧ f.group = y

/-- Some chain of at most so many group facts leads to a fact that names the user. -/
def Reaches (facts : Fact → Prop) (user : String) : Nat → String × String × String → Prop :=
  Within (Inherits facts) (Grants facts user)

/-- The facts of a table. -/
def ZanzibarEngine.facts (e : ZanzibarEngine) (f : Fact) : Prop := ∃ row ∈ e.rows, row.fact = f

theorem mem_onObject (rows : List RelationTuple) (row : RelationTuple) (nspace objectId relation : String) :
    (row ∈ rows.filter fun row => row.nspace == nspace && row.objectId == objectId && row.relation == relation) ↔
      row ∈ rows ∧ row.fact.object = (nspace, objectId, relation) := by
  simp [Fact.object, RelationTuple.fact, and_assoc]

theorem direct_iff (e : ZanzibarEngine) (nspace objectId relation user : String) :
    ((e.rows.filter fun row => row.nspace == nspace && row.objectId == objectId && row.relation == relation).any
        fun row => row.subjectNamespace == "user" && row.subjectId == user) = true ↔
      Grants e.facts user (nspace, objectId, relation) := by
  simp only [List.any_eq_true, mem_onObject, Bool.and_eq_true, beq_iff_eq]
  constructor
  · rintro ⟨row, ⟨hrow, hobject⟩, huser⟩
    exact ⟨row.fact, ⟨row, hrow, rfl⟩, hobject, huser⟩
  · rintro ⟨f, ⟨row, hrow, rfl⟩, hobject, huser⟩
    exact ⟨row, ⟨hrow, hobject⟩, huser⟩

/-- **The search decides reachability**: with depth `k + 1` left it finds the chains of at most `k` group facts. -/
theorem checkWithin_succ_iff (e : ZanzibarEngine) (depth : Nat) (nspace objectId relation user : String) :
    e.checkWithin (depth + 1) nspace objectId relation user = true ↔
      Reaches e.facts user depth (nspace, objectId, relation) := by
  induction depth generalizing nspace objectId relation with
  | zero =>
    rw [ZanzibarEngine.checkWithin, Bool.or_eq_true, direct_iff]
    simp [ZanzibarEngine.checkWithin, Reaches, Within]
  | succ depth ih =>
    rw [ZanzibarEngine.checkWithin, Bool.or_eq_true, direct_iff]
    refine or_congr Iff.rfl ?_
    simp only [List.any_eq_true, mem_onObject, Bool.and_eq_true, bne_iff_ne, ne_eq]
    constructor
    · rintro ⟨row, ⟨hrow, hobject⟩, hgroup, hcheck⟩
      obtain rfl : row.relation = relation := (Prod.mk.inj (Prod.mk.inj hobject).2).2
      exact ⟨row.fact.group, ⟨row.fact, ⟨row, hrow, rfl⟩, hobject, hgroup, rfl⟩, (ih _ _ _).1 hcheck⟩
    · rintro ⟨y, ⟨f, ⟨row, hrow, rfl⟩, hobject, hgroup, rfl⟩, hreach⟩
      obtain rfl : row.relation = relation := (Prod.mk.inj (Prod.mk.inj hobject).2).2
      exact ⟨row, ⟨hrow, hobject⟩, hgroup, (ih _ _ _).2 hreach⟩

/-- Two engines decide alike, at every depth, exactly when their facts reach alike. -/
theorem check_eq_iff (e₁ e₂ : ZanzibarEngine) :
    (∀ nspace objectId relation user depth,
        e₁.check nspace objectId relation user depth = e₂.check nspace objectId relation user depth) ↔
      ∀ user k x, Reaches e₁.facts user k x ↔ Reaches e₂.facts user k x := by
  constructor
  · intro h user k ⟨nspace, objectId, relation⟩
    have hk := h nspace objectId relation user ((k + 1 : Nat) : Int)
    unfold ZanzibarEngine.check at hk
    rw [Int.toNat_natCast] at hk
    rw [← checkWithin_succ_iff, ← checkWithin_succ_iff, hk]
  · intro h nspace objectId relation user depth
    unfold ZanzibarEngine.check
    cases depth.toNat with
    | zero => rfl
    | succ k =>
      apply Bool.eq_iff_iff.2
      rw [checkWithin_succ_iff, checkWithin_succ_iff]
      exact h user k _

/-! ## What the tables hold -/

/-- A keyed replace changes where a row came from, never which facts there are. -/
theorem facts_insertOrReplace (rows : List RelationTuple) (t : RelationTuple) (f : Fact) :
    ZanzibarEngine.facts ⟨insertOrReplace rows t⟩ f ↔ ZanzibarEngine.facts ⟨rows⟩ f ∨ t.fact = f := by
  unfold ZanzibarEngine.facts insertOrReplace
  constructor
  · rintro ⟨row, hrow, rfl⟩
    rcases List.mem_append.1 hrow with hrow | hrow
    · exact .inl ⟨row, (List.mem_filter.1 hrow).1, rfl⟩
    · rw [List.mem_singleton.1 hrow]
      exact .inr rfl
  · rintro (⟨row, hrow, rfl⟩ | rfl)
    · by_cases hkey : sameKey t row = true
      · -- the row that is replaced had the fact of the new one
        refine ⟨t, by simp, ?_⟩
        simp only [sameKey, Bool.and_eq_true, beq_iff_eq] at hkey
        simp [RelationTuple.fact, hkey]
      · exact ⟨row, by simp [hrow, hkey], rfl⟩
    · exact ⟨t, by simp, rfl⟩

theorem facts_writeTuple (e : ZanzibarEngine) {t : RelationTuple} (h : verifySignature t = true) (dht replicate : Bool)
    (f : Fact) : (e.writeTuple t dht replicate).engine.facts f ↔ e.facts f ∨ t.fact = f := by
  rw [ZanzibarEngine.writeTuple, if_pos h]
  exact facts_insertOrReplace e.rows t f

theorem writeTuple_rejected (e : ZanzibarEngine) {t : RelationTuple} (h : ¬ verifySignature t = true)
    (dht replicate : Bool) : e.writeTuple t dht replicate = ⟨e, false, []⟩ := if_neg h

/-- The first engine holds the facts of the accepted tuples, and their messages were broadcast. -/
theorem primary_spec (writes : List RelationTuple) :
    (∀ f, (primary writes).1.facts f ↔ ∃ t ∈ writes, verifySignature t = true ∧ t.fact = f) ∧
      ∀ m, m ∈ (primary writes).2 ↔ ∃ t ∈ writes, verifySignature t = true ∧ replicateToMesh t = m := by
  induction writes using List.reverseRecOn with
  | nil => simp [primary, ZanzibarEngine.facts, ZanzibarEngine.empty]
  | append_singleton writes t ih =>
    have hstep : primary (writes ++ [t]) = (((primary writes).1.writeTuple t true true).engine,
        (primary writes).2 ++ ((primary writes).1.writeTuple t true true).broadcast) := by
      simp [primary]
    rw [hstep]
    by_cases haccepted : verifySignature t = true
    · refine ⟨fun f => ?_, fun m => ?_⟩
      · rw [facts_writeTuple _ haccepted, ih.1]
        simp [or_and_right, exists_or, haccepted]
      · have hsent : ((primary writes).1.writeTuple t true true).broadcast = [replicateToMesh t] := by
          rw [ZanzibarEngine.writeTuple, if_pos haccepted]
          rfl
        rw [List.mem_append, ih.2, hsent, List.mem_singleton, @eq_comm _ m]
        simp [or_and_right, exists_or, haccepted]
    · rw [writeTuple_rejected _ haccepted]
      refine ⟨fun f => ?_, fun m => ?_⟩
      · rw [ih.1]
        simp [or_and_right, exists_or, haccepted]
      · rw [List.append_nil, ih.2]
        simp [or_and_right, exists_or, haccepted]

/-! ## The message -/

theorem replicationMessage_wf (t : RelationTuple) : Json.Wf (.obj (replicationMessage t)) := by
  have hoptional : ∀ s, Json.Wf (optional s) := by
    intro s
    cases s with
    | none => exact .null
    | some s => exact .str _
  refine .obj ?_ ?_
  · simp [replicationMessage, asdict, Json.setItem]
  · simp [replicationMessage, asdict, Json.setItem, Json.Wf.str, hoptional]

theorem loads_replicateToMesh (t : RelationTuple) :
    Json.loads (replicateToMesh t) = some (.obj (replicationMessage t)) :=
  Json.loads_dumpsLine (replicationMessage_wf t)

theorem textField_optional {msg : List (List Char × Json)} {key : String} {s : Option String}
    (h : Json.getItem msg key.toList = some (optional s)) : textField msg key = s := by
  unfold textField
  rw [h]
  cases s with
  | none => rfl
  | some s => simp [optional]

/-- **What arrives is the tuple without its subject relation.** -/
theorem tupleOfMessage_replicationMessage (t : RelationTuple) :
    tupleOfMessage (replicationMessage t) = some { t with subjectRelation := none } := by
  have field : ∀ key s : String, Json.getItem (replicationMessage t) key.toList = some (.str s.toList) →
      textField (replicationMessage t) key = some s := by
    intro key s h
    exact textField_optional (s := some s) h
  have hnspace := field "namespace" t.nspace rfl
  have hobject := field "object_id" t.objectId rfl
  have hrelation := field "relation" t.relation rfl
  have hsubjectNamespace := field "subject_namespace" t.subjectNamespace rfl
  have hsubject := field "subject_id" t.subjectId rfl
  have hauthority : textField (replicationMessage t) "authority" = t.authority := textField_optional rfl
  have hsignature : textField (replicationMessage t) "signature" = t.signature := textField_optional rfl
  unfold tupleOfMessage
  rw [hnspace, hobject, hrelation, hsubjectNamespace, hsubject, hauthority, hsignature]
  rfl

/-- A delivered message is written without verification of anything but its signature. -/
theorem datagramReceived_replicateToMesh (e : ZanzibarEngine) (t : RelationTuple) :
    datagramReceived e (replicateToMesh t) = (e.writeTuple { t with subjectRelation := none } false false).engine := by
  have htype : textField (replicationMessage t) "type" = some "ZANZIBAR_TUPLE" :=
    textField_optional (s := some "ZANZIBAR_TUPLE") rfl
  unfold datagramReceived
  rw [loads_replicateToMesh]
  show (if textField (replicationMessage t) "type" = some "ZANZIBAR_TUPLE" then _ else e) = _
  rw [if_pos htype, handleZanzibarTuple, tupleOfMessage_replicationMessage]

/-- The second engine holds, without their subject relations, the facts of the tuples whose messages arrived. -/
theorem replica_spec {deliveries : List (List Char)}
    (h : ∀ m ∈ deliveries, ∃ t, verifySignature t = true ∧ replicateToMesh t = m) (f : Fact) :
    (replica deliveries).facts f ↔
      ∃ t, verifySignature t = true ∧ replicateToMesh t ∈ deliveries ∧ t.fact.stripped = f := by
  induction deliveries using List.reverseRecOn with
  | nil => simp [replica, ZanzibarEngine.facts, ZanzibarEngine.empty]
  | append_singleton deliveries m ih =>
    have hearlier := ih fun m' hm' => h m' (List.mem_append_left _ hm')
    have hstep : replica (deliveries ++ [m]) = datagramReceived (replica deliveries) m := by simp [replica]
    -- whichever accepted tuple the message is of, that tuple is written
    have hwrite : ∀ t, verifySignature t = true → replicateToMesh t = m →
        ((replica (deliveries ++ [m])).facts f ↔ (replica deliveries).facts f ∨ t.fact.stripped = f) := by
      rintro t ht rfl
      rw [hstep, datagramReceived_replicateToMesh]
      exact facts_writeTuple _ (t := { t with subjectRelation := none }) ht false false f
    constructor
    · intro hfact
      obtain ⟨t₀, ht₀, hm⟩ := h m (by simp)
      rcases (hwrite t₀ ht₀ hm).1 hfact with hold | hnew
      · obtain ⟨t, ht, hmem, hf⟩ := hearlier.1 hold
        exact ⟨t, ht, List.mem_append_left _ hmem, hf⟩
      · exact ⟨t₀, ht₀, by simp [hm], hnew⟩
    · rintro ⟨t, ht, hmem, hf⟩
      rcases List.mem_append.1 hmem with hmem | hmem
      · obtain ⟨t₀, ht₀, hm⟩ := h m (by simp)
        exact (hwrite t₀ ht₀ hm).2 (.inl (hearlier.2 ⟨t, ht, hmem, hf⟩))
      · exact (hwrite t ht (List.mem_singleton.1 hmem)).2 (.inr hf)

/-! ## Which subject relations can be lost -/

/-- The facts of the tuples that the first engine accepts. -/
def acceptedFacts (writes : List RelationTuple) (f : Fact) : Prop :=
  ∃ t ∈ writes, verifySignature t = true ∧ t.fact = f

/-- Nothing hangs on the subject relation of a group fact: whoever it lets in through the group it names gets in through
another tuple on the object, read without its subject relation, and whoever has the object's own relation on the group
gets in already. Chains are chains of the given facts, and none of them becomes longer. -/
def Redundant (facts : Fact → Prop) (f : Fact) : Prop :=
  f.subjectNamespace ≠ "user" →
    (∀ user k, Reaches facts user k f.group → Grants facts user f.object ∨
      ∃ g, facts g ∧ g.object = f.object ∧ g.subjectNamespace ≠ "user" ∧ Reaches facts user k g.stripped.group) ∧
    ∀ user k, Reaches facts user k f.stripped.group → Reaches facts user (k + 1) f.object

/-- A subject relation that is missing, empty or the relation itself is not missed. -/
theorem redundant_of_group_eq {facts : Fact → Prop} {f : Fact} (hf : facts f) (h : f.group = f.stripped.group) :
    Redundant facts f := by
  refine fun hgroup => ⟨fun user k hreach => .inr ⟨f, hf, rfl, hgroup, h ▸ hreach⟩, fun user k hreach => ?_⟩
  exact .inr ⟨f.group, ⟨f, hf, rfl, hgroup, rfl⟩, h ▸ hreach⟩

/-- The chains of the facts and those of the stripped facts agree exactly when every subject relation is redundant. -/
theorem reaches_stripped_iff (facts : Fact → Prop) :
    (∀ user k x, Reaches facts user k x ↔ Reaches (fun f => ∃ g, facts g ∧ g.stripped = f) user k x) ↔
      ∀ f, facts f → Redundant facts f := by
  have hgrants : ∀ user x, Grants (fun f => ∃ g, facts g ∧ g.stripped = f) user x ↔ Grants facts user x := by
    intro user x
    constructor
    · rintro ⟨_, ⟨g, hg, rfl⟩, hobject, huser⟩
      exact ⟨g, hg, hobject, huser⟩
    · rintro ⟨g, hg, hobject, huser⟩
      exact ⟨g.stripped, ⟨g, hg, rfl⟩, hobject, huser⟩
  have hreaches : ∀ user k x, Reaches (fun f => ∃ g, facts g ∧ g.stripped = f) user k x ↔
      Within (Inherits fun f => ∃ g, facts g ∧ g.stripped = f) (Grants facts user) k x := fun user =>
    within_congr (fun _ _ => Iff.rfl) (hgrants user)
  simp only [hreaches]
  unfold Reaches
  rw [forall_congr' fun user => within_eq_iff]
  constructor
  · intro h f hf hgroup
    refine ⟨fun user k hreach => ?_, fun user k hreach => ?_⟩
    · rcases (h user).1 k f.object f.group ⟨f, hf, rfl, hgroup, rfl⟩ hreach with hgrant | ⟨z, hz, hwithin⟩
      · exact .inl hgrant
      · obtain ⟨_, ⟨g, hg, rfl⟩, hobject, hgroup', rfl⟩ := hz
        exact .inr ⟨g, hg, hobject, hgroup', hwithin⟩
    · exact (h user).2 k f.object f.stripped.group ⟨f.stripped, ⟨f, hf, rfl⟩, rfl, hgroup, rfl⟩ hreach
  · intro h user
    refine ⟨?_, ?_⟩
    · rintro k x y ⟨f, hf, rfl, hgroup, rfl⟩ hreach
      rcases (h f hf hgroup).1 user k hreach with hgrant | ⟨g, hg, hobject, hgroup', hwithin⟩
      · exact .inl hgrant
      · exact .inr ⟨g.stripped.group, ⟨g.stripped, ⟨g, hg, rfl⟩, hobject, hgroup', rfl⟩, hwithin⟩
    · rintro k x y ⟨_, ⟨f, hf, rfl⟩, rfl, hgroup, rfl⟩ hreach
      exact (h f hf hgroup).2 user k hreach

/-- The second engine holds the facts of the accepted tuples, stripped: which of the broadcast messages came twice, and in
which order, leaves no trace in them. -/
theorem replica_facts_iff (writes : List RelationTuple) (deliveries : List (List Char))
    (hdeliveries : ∀ m, m ∈ deliveries ↔ m ∈ (primary writes).2) (f : Fact) :
    (replica deliveries).facts f ↔ ∃ g, acceptedFacts writes g ∧ g.stripped = f := by
  have hsent := (primary_spec writes).2
  rw [replica_spec fun m hm => ?_]
  · constructor
    · rintro ⟨t, ht, hmem, rfl⟩
      -- two tuples of one message are the same up to what the message leaves out
      obtain ⟨t', ht', haccepted, hmessage⟩ := (hsent _).1 ((hdeliveries _).1 hmem)
      have hstripped : some (.obj (replicationMessage t')) = some (Json.obj (replicationMessage t)) := by
        rw [← loads_replicateToMesh, ← loads_replicateToMesh, hmessage]
      have htuple := congrArg tupleOfMessage (Json.obj.inj (Option.some.inj hstripped))
      rw [tupleOfMessage_replicationMessage, tupleOfMessage_replicationMessage] at htuple
      exact ⟨t'.fact, ⟨t', ht', haccepted, rfl⟩, congrArg RelationTuple.fact (Option.some.inj htuple)⟩
    · rintro ⟨_, ⟨t, ht, haccepted, rfl⟩, rfl⟩
      exact ⟨t, haccepted, (hdeliveries _).2 ((hsent _).2 ⟨t, ht, haccepted, rfl⟩), rfl⟩
  · obtain ⟨t, -, haccepted, hmessage⟩ := (hsent m).1 ((hdeliveries m).1 hm)
    exact ⟨t, haccepted, hmessage⟩

/-- So the two engines answer alike exactly if no subject relation of an accepted fact is missed. -/
theorem check_replica_iff (writes : List RelationTuple) (deliveries : List (List Char))
    (hdeliveries : ∀ m, m ∈ deliveries ↔ m ∈ (primary writes).2) :
    (∀ nspace objectId relation user depth, (primary writes).1.check nspace objectId relation user depth =
        (replica deliveries).check nspace objectId relation user depth) ↔
      ∀ f, acceptedFacts writes f → Redundant (acceptedFacts writes) f := by
  have hprimary : (primary writes).1.facts = acceptedFacts writes :=
    funext fun f => propext ((primary_spec writes).1 f)
  have hreplica : (replica deliveries).facts = fun f => ∃ g, acceptedFacts writes g ∧ g.stripped = f :=
    funext fun f => propext (replica_facts_iff writes deliveries hdeliveries f)
  rw [check_eq_iff, hprimary, hreplica]
  exact reaches_stripped_iff _

/-- The tuple names no other relation than its own: its subject is a user, or its subject relation is missing, empty or
the relation that is granted. -/
def RelationTuple.NamesOwnRelation (t : RelationTuple) : Prop :=
  t.subjectNamespace = "user" ∨ t.subjectRelation.getD "" = "" ∨ t.subjectRelation = some t.relation

theorem RelationTuple.NamesOwnRelation.redundant {t : RelationTuple} (h : t.NamesOwnRelation) {facts : Fact → Prop}
    (hfact : facts t.fact) : Redundant facts t.fact := by
  rcases h with huser | hown
  · exact fun hgroup => absurd huser hgroup
  · have hnext : nextRelation t.relation t.subjectRelation = t.relation := by
      cases hrelation : t.subjectRelation with
      | none => rfl
      | some subjectRelation =>
        rw [hrelation] at hown
        by_cases hempty : subjectRelation = ""
        · exact if_pos hempty
        · exact (if_neg hempty).trans (hown.elim (fun h => absurd h hempty) Option.some.inj)
    exact redundant_of_group_eq hfact (congrArg (fun relation => (t.subjectNamespace, t.subjectId, relation)) hnext)

/-- **Replication keeps every decision if and only if every subject relation is redundant**, and whenever no accepted
tuple names another relation than its own. The deliveries are the broadcast messages, each at least once, in any
order. -/
theorem replicas_agree_iff (writes : List RelationTuple) (deliveries : List (List Char))
    (hdeliveries : ∀ m, m ∈ deliveries ↔ m ∈ (primary writes).2) :
    ((∀ nspace objectId relation user depth, (primary writes).1.check nspace objectId relation user depth =
        (replica deliveries).check nspace objectId relation user depth) ↔
      ∀ f, acceptedFacts writes f → Redundant (acceptedFacts writes) f) ∧
    ((∀ t ∈ writes, verifySignature t = true → t.NamesOwnRelation) →
      ∀ nspace objectId relation user depth, (primary writes).1.check nspace objectId relation user depth =
        (replica deliveries).check nspace objectId relation user depth) := by
  have hiff := check_replica_iff writes deliveries hdeliveries
  refine ⟨hiff, fun hown => hiff.2 ?_⟩
  rintro f ⟨t, ht, haccepted, rfl⟩
  exact (hown t ht haccepted).redundant ⟨t, ht, haccepted, rfl⟩

/-- A tuple signed by the root authority. -/
def signed (nspace objectId relation subjectNamespace subjectId : String) (subjectRelation : Option String) : RelationTuple :=
  ⟨nspace, objectId, relation, subjectNamespace, subjectId, subjectRelation, some "did:warm:root:1", some "ROOT_AUTHORITY_SIG"⟩

/-- Viewers of a folder are viewers of its document, and so are those of a group; each group is asked for its viewers. -/
def inheritedViewers : List RelationTuple :=
  [signed "doc" "1" "viewer" "folder" "a" none, signed "doc" "1" "viewer" "group" "eng" (some "viewer"),
    signed "folder" "a" "viewer" "user" "alice" none, signed "group" "eng" "viewer" "user" "bob" (some "member")]

/-- The viewers of the folder and of the group may view the document, and the engines do not differ in any decision. -/
theorem replicas_agree_own_relations :
    (primary inheritedViewers).1.check "doc" "1" "viewer" "alice" 5 = true ∧
      (primary inheritedViewers).1.check "doc" "1" "viewer" "bob" 5 = true ∧
      ∀ nspace objectId relation user depth, (primary inheritedViewers).1.check nspace objectId relation user depth =
        (replica ((primary inheritedViewers).2.reverse ++ (primary inheritedViewers).2)).check nspace objectId relation user
          depth := by
  refine ⟨by decide, by decide, (replicas_agree_iff inheritedViewers _ fun m => by simp).2 ?_⟩
  intro t ht _
  simp only [inheritedViewers, List.mem_cons, List.not_mem_nil, or_false] at ht
  rcases ht with rfl | rfl | rfl | rfl
  · exact .inr (.inl rfl)
  · exact .inr (.inr rfl)
  · exact .inl rfl
  · exact .inl rfl

/-- Members of a group are viewers of the document. -/
def groupViewers : List RelationTuple :=
  [signed "doc" "1" "viewer" "group" "eng" (some "member"), signed "group" "eng" "member" "user" "alice" none]

/-- The member of a group who may view a document on the first engine may not on the second, which asks whether she is
a viewer of the group. -/
theorem group_member_lost :
    ¬ ∀ (writes : List RelationTuple) (deliveries : List (List Char)),
      (∀ m, m ∈ deliveries ↔ m ∈ (primary writes).2) →
      ∀ nspace objectId relation user depth, (primary writes).1.check nspace objectId relation user depth =
        (replica deliveries).check nspace objectId relation user depth := by
  intro hall
  have h := hall groupViewers [replicateToMesh (signed "doc" "1" "viewer" "group" "eng" (some "member")),
    replicateToMesh (signed "group" "eng" "member" "user" "alice" none)] (fun m => Iff.rfl) "doc" "1" "viewer" "alice" 5
  have hreplica : replica [replicateToMesh (signed "doc" "1" "viewer" "group" "eng" (some "member")),
      replicateToMesh (signed "group" "eng" "member" "user" "alice" none)] =
        ⟨[signed "doc" "1" "viewer" "group" "eng" none, signed "group" "eng" "member" "user" "alice" none]⟩ := by
    simp only [replica, List.foldl_cons, List.foldl_nil, datagramReceived_replicateToMesh]
    rfl
  rw [hreplica] at h
  exact absurd h (by decide)

end WarmLogic.Kernel.Zanzibar
