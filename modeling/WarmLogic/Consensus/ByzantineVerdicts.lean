/-
# WarmLogic.Consensus.ByzantineVerdicts — how often the detector slashes an actor for one kind of violation.

`process_violations` has a branch for each kind. Those of double votes and of conflicting view changes ask
`record_slash`, so an actor is judged once for each; the branch of invalid signatures does not, and judges every
recorded signature anew. `verdicts_distinct_iff` says so exactly: over a whole run no actor is judged twice for one
kind if and only if no voter is reported twice for an invalid signature before the last processing.

Signatures and the other kinds go separate ways in `process_violations`, so the outcome of a call is stated with the
two apart (`Outcome`): the verdicts on signatures are one for one the reports, and the other verdicts are recorded
under keys that were free. Outcomes of consecutive calls compose, since the record only grows. A run then judges an
actor twice for one kind exactly if the list of reported signers repeats a name.
-/
import WarmLogic.Consensus.Byzantine

namespace WarmLogic.Consensus.Byzantine

open WarmLogic.Consensus.Bft WarmLogic.Ledger RecordingEngine

/-! ## Runs of the detector -/

/-- A call on the detector that names a voter or a sender, or processes what was found. -/
inductive DetectorOp where
  | checkVote (vote : Vote)
  | checkViewChange (msg : ViewChangeMessage)
  | recordInvalidSignature (voterId voteHash : String)
  | processViolations (clock : Nat → UInt64)
  | clearRoundHistory
  | clearViewChangeHistory

/-- The detector after a call and the verdicts it returns; `none` where the source panics. -/
def DetectorOp.call (sha3 : List UInt8 → String) (d : ByzantineDetector) :
    DetectorOp → Option (ByzantineDetector × List SlashingVerdict)
  | .checkVote vote => some ((d.checkVote vote).1, [])
  | .checkViewChange msg => some ((d.checkViewChange msg).1, [])
  | .recordInvalidSignature voterId voteHash => some (d.recordInvalidSignature voterId voteHash, [])
  | .processViolations clock => d.processViolations sha3 clock
  | .clearRoundHistory => some (d.clearRoundHistory, [])
  | .clearViewChangeHistory => some (d.clearViewChangeHistory, [])

/-- Calls one after another, with all the verdicts they return. -/
def runCalls (sha3 : List UInt8 → String) (d : ByzantineDetector) :
    List DetectorOp → Option (ByzantineDetector × List SlashingVerdict)
  | [] => some (d, [])
  | op :: ops =>
      (op.call sha3 d).bind fun r => (runCalls sha3 r.1 ops).map fun r' => (r'.1, r.2 ++ r'.2)

/-- The call processes the pending violations. -/
def DetectorOp.isProcessing : DetectorOp → Bool
  | .processViolations _ => true
  | _ => false

/-- The voter a call reports for an invalid signature. -/
def DetectorOp.reported : DetectorOp → Option String
  | .recordInvalidSignature voterId _ => some voterId
  | _ => none

/-- The voters reported for an invalid signature before the last processing, once for each report. -/
def judgedSignatures : List DetectorOp → List String
  | [] => []
  | op :: ops => if (op :: ops).any (·.isProcessing) then op.reported.toList ++ judgedSignatures ops else []

/-- What a verdict is about. -/
def charge (v : SlashingVerdict) : String × Option ViolationType := (v.actor, v.violationType)

/-! ## What processing returns -/

/-- The verdict is on an invalid signature. -/
def isSignature (v : SlashingVerdict) : Bool := decide (v.violationType = some .invalidSignature)

/-- The voters of the invalid signatures among violations. -/
def signers (violations : List ByzantineViolation) : List String :=
  violations.filterMap fun
    | .invalidSignature voterId _ => some voterId
    | _ => none

theorem signers_append (violations violations' : List ByzantineViolation) :
    signers (violations ++ violations') = signers violations ++ signers violations' := List.filterMap_append

/-- **The outcome of processing.** One verdict for each reported signature; and every other verdict is recorded, under
a key that was not there before and differs from all others. -/
structure Outcome (before after : Finset String) (ids : List String) (verdicts : List SlashingVerdict) : Prop where
  signatures : (verdicts.filter isSignature).map (·.actor) = ids
  distinct : ((verdicts.filter fun v => !isSignature v).map fun v => slashKey v.actor v.violationType).Nodup
  recorded : ∀ v ∈ verdicts, isSignature v = false →
    slashKey v.actor v.violationType ∉ before ∧ slashKey v.actor v.violationType ∈ after
  grows : before ⊆ after

theorem Outcome.nil (keys : Finset String) : Outcome keys keys [] [] :=
  ⟨rfl, List.nodup_nil, fun _ hv => absurd hv List.not_mem_nil, Finset.Subset.refl _⟩

theorem Outcome.append {a b c : Finset String} {ids ids' : List String} {vs vs' : List SlashingVerdict}
    (h : Outcome a b ids vs) (h' : Outcome b c ids' vs') : Outcome a c (ids ++ ids') (vs ++ vs') := by
  refine ⟨?_, ?_, ?_, h.grows.trans h'.grows⟩
  · rw [List.filter_append, List.map_append, h.signatures, h'.signatures]
  · rw [List.filter_append, List.map_append, List.nodup_append]
    refine ⟨h.distinct, h'.distinct, ?_⟩
    -- what the first part recorded is there before the second begins
    intro key hkey key' hkey' heq
    obtain ⟨v, hv, rfl⟩ := List.mem_map.mp hkey
    obtain ⟨v', hv', rfl⟩ := List.mem_map.mp hkey'
    obtain ⟨hv, hsig⟩ := List.mem_filter.mp hv
    obtain ⟨hv', hsig'⟩ := List.mem_filter.mp hv'
    have hin := (h.recorded v hv (by simpa using hsig)).2
    have hout := (h'.recorded v' hv' (by simpa using hsig')).1
    exact hout (heq ▸ hin)
  · intro v hv hsig
    rcases List.mem_append.mp hv with hv | hv
    · obtain ⟨hnew, hin⟩ := h.recorded v hv hsig
      exact ⟨hnew, h'.grows hin⟩
    · obtain ⟨hnew, hin⟩ := h'.recorded v hv hsig
      exact ⟨fun hold => hnew (h.grows hold), hin⟩

/-- A verdict on an invalid signature. -/
theorem Outcome.signature (keys : Finset String) {v : SlashingVerdict} {id : String} (hid : v.actor = id)
    (hsig : isSignature v = true) : Outcome keys keys [id] [v] := by
  refine ⟨by simp [hsig, hid], by simp [hsig], ?_, Finset.Subset.refl _⟩
  intro w hw hno
  rw [List.mem_singleton.mp hw, hsig] at hno
  cases hno

/-- A verdict of another kind, if it passes `record_slash`. -/
theorem Outcome.recordedVerdict (e : RecordingEngine) {v : SlashingVerdict} (hsig : isSignature v = false) :
    Outcome e.slashedActors (ByzantineDetector.recorded e v).1.slashedActors []
      (ByzantineDetector.recorded e v).2.toList := by
  unfold ByzantineDetector.recorded recordSlash
  by_cases hkey : slashKey v.actor v.violationType ∈ e.slashedActors
  · simp only [hkey, if_true]
    exact .nil _
  · simp only [hkey, if_false]
    refine ⟨by simp [hsig], by simp [hsig], ?_, Finset.subset_insert _ _⟩
    intro w hw _
    rw [List.mem_singleton.mp hw]
    exact ⟨hkey, Finset.mem_insert_self _ _⟩

/-- The violations that name a voter or a sender. -/
def NamesActor : ByzantineViolation → Prop
  | .doubleAnonymousVote _ _ => False
  | .invalidZkProof _ => False
  | _ => True

theorem processViolation_outcome {sha3 : List UInt8 → String} {e e' : RecordingEngine} {now : UInt64}
    {violation : ByzantineViolation} {verdict : Option SlashingVerdict} (hnames : NamesActor violation)
    (h : ByzantineDetector.processViolation sha3 e now violation = some (e', verdict)) :
    Outcome e.slashedActors e'.slashedActors (signers [violation]) verdict.toList := by
  cases violation with
  | equivocationDetected voterId round blockHash1 blockHash2 =>
      obtain ⟨v, hv, h⟩ := Option.bind_eq_some_iff.mp h
      have hsig : isSignature v = false := by
        obtain ⟨short1, -, hv⟩ := Option.bind_eq_some_iff.mp hv
        obtain ⟨short2, -, hv⟩ := Option.bind_eq_some_iff.mp hv
        cases hv
        rfl
      have hout := Outcome.recordedVerdict e hsig
      rw [Option.some.inj h] at hout
      exact hout
  | conflictingViewChange senderId view1 view2 =>
      have hout := Outcome.recordedVerdict e
        (v := evaluateConflictingViewChange now senderId view1 view2) rfl
      rw [Option.some.inj h] at hout
      exact hout
  | invalidSignature voterId voteHash =>
      obtain ⟨short, -, h⟩ := Option.bind_eq_some_iff.mp h
      cases h
      exact Outcome.signature e.slashedActors rfl rfl
  | doubleAnonymousVote => exact absurd hnames id
  | invalidZkProof => exact absurd hnames id

theorem processAll_outcome {sha3 : List UInt8 → String} {clock : Nat → UInt64} {e e' : RecordingEngine}
    {violations : List ByzantineViolation} {verdicts : List SlashingVerdict}
    (hnames : ∀ violation ∈ violations, NamesActor violation)
    (h : ByzantineDetector.processAll sha3 clock e violations = some (e', verdicts)) :
    Outcome e.slashedActors e'.slashedActors (signers violations) verdicts := by
  induction violations generalizing clock e e' verdicts with
  | nil =>
      cases h
      exact .nil _
  | cons violation violations ih =>
      obtain ⟨hfirst, hrest⟩ := List.forall_mem_cons.mp hnames
      obtain ⟨⟨e₁, verdict⟩, hone, h⟩ := Option.bind_eq_some_iff.mp h
      obtain ⟨⟨e₂, verdicts'⟩, hall, h⟩ := Option.bind_eq_some_iff.mp h
      cases h
      have happ := (processViolation_outcome hfirst hone).append (ih hrest hall)
      rw [← signers_append] at happ
      exact happ

/-! ## Every run -/

/-- The signatures a run judges: those pending at its start and those reported in it before the last processing. -/
def judgedFrom (d : ByzantineDetector) (ops : List DetectorOp) : List String :=
  if ops.any (·.isProcessing) then signers d.pendingViolations ++ judgedSignatures ops else []

theorem judgedSignatures_of_none {ops : List DetectorOp} (h : ops.any (·.isProcessing) = false) :
    judgedSignatures ops = [] := by
  cases ops with
  | nil => rfl
  | cons op ops =>
      rw [judgedSignatures, h]
      rfl

/-- With nothing pending at its start, a run judges what is reported in it. -/
theorem judgedFrom_of_nil {d : ByzantineDetector} (hnil : d.pendingViolations = []) (ops : List DetectorOp) :
    judgedFrom d ops = judgedSignatures ops := by
  unfold judgedFrom
  split
  · rw [hnil]
    rfl
  · rename_i hno
    exact (judgedSignatures_of_none (by simpa using hno)).symm

/-- What a call that processes nothing adds to the pending violations. -/
structure Adds (op : DetectorOp) (d d' : ByzantineDetector) : Prop where
  slashed : d'.slashingEngine = d.slashingEngine
  signers : signers d'.pendingViolations = signers d.pendingViolations ++ op.reported.toList
  names : (∀ v ∈ d.pendingViolations, NamesActor v) → ∀ v ∈ d'.pendingViolations, NamesActor v

theorem Adds.same {op : DetectorOp} {d d' : ByzantineDetector} (hop : op.reported = none)
    (hengine : d'.slashingEngine = d.slashingEngine) (hpending : d'.pendingViolations = d.pendingViolations) :
    Adds op d d' := by
  refine ⟨hengine, ?_, ?_⟩
  · rw [hpending, hop, Option.toList_none, List.append_nil]
  · rw [hpending]
    exact id

theorem Adds.violation {op : DetectorOp} {d d' : ByzantineDetector} {violation : ByzantineViolation}
    (hpending : d'.pendingViolations = d.pendingViolations ++ [violation])
    (hengine : d'.slashingEngine = d.slashingEngine) (hop : op.reported.toList = Byzantine.signers [violation])
    (hnames : NamesActor violation) : Adds op d d' := by
  refine ⟨hengine, ?_, ?_⟩
  · rw [hpending, hop, signers_append]
  · intro h
    rw [hpending]
    exact List.forall_mem_append.mpr ⟨h, List.forall_mem_singleton.mpr hnames⟩

/-- What the call adds is judged with the rest, or not at all. -/
theorem Adds.judgedFrom {op : DetectorOp} {d d' : ByzantineDetector} (h : Adds op d d')
    (hop : op.isProcessing = false) (ops : List DetectorOp) :
    Byzantine.judgedFrom d (op :: ops) = Byzantine.judgedFrom d' ops := by
  unfold Byzantine.judgedFrom
  rw [h.signers, judgedSignatures, List.any_cons, hop, Bool.false_or]
  split
  · rw [List.append_assoc]
  · rfl

theorem call_adds {sha3 : List UInt8 → String} {op : DetectorOp} {d d' : ByzantineDetector}
    {verdicts : List SlashingVerdict} (hop : op.isProcessing = false) (h : op.call sha3 d = some (d', verdicts)) :
    verdicts = [] ∧ Adds op d d' := by
  cases op with
  | checkVote vote =>
      cases h
      refine ⟨rfl, ?_⟩
      unfold ByzantineDetector.checkVote
      dsimp only
      split
      · split
        · exact .violation rfl rfl rfl trivial
        · exact .same rfl rfl rfl
      · exact .same rfl rfl rfl
  | checkViewChange msg =>
      cases h
      refine ⟨rfl, ?_⟩
      unfold ByzantineDetector.checkViewChange
      dsimp only
      split
      · split
        · exact .violation rfl rfl rfl trivial
        · exact .same rfl rfl rfl
      · exact .same rfl rfl rfl
  | recordInvalidSignature voterId voteHash =>
      cases h
      exact ⟨rfl, .violation rfl rfl rfl trivial⟩
  | processViolations clock => cases hop
  | clearRoundHistory =>
      cases h
      exact ⟨rfl, .same rfl rfl rfl⟩
  | clearViewChangeHistory =>
      cases h
      exact ⟨rfl, .same rfl rfl rfl⟩

theorem runCalls_outcome {sha3 : List UInt8 → String} {ops : List DetectorOp} {d d' : ByzantineDetector}
    {verdicts : List SlashingVerdict} (hnames : ∀ v ∈ d.pendingViolations, NamesActor v)
    (h : runCalls sha3 d ops = some (d', verdicts)) :
    Outcome d.slashingEngine.slashedActors d'.slashingEngine.slashedActors (judgedFrom d ops) verdicts := by
  induction ops generalizing d verdicts with
  | nil =>
      cases h
      exact .nil _
  | cons op ops ih =>
      obtain ⟨⟨d₁, vs₁⟩, hcall, h⟩ := Option.bind_eq_some_iff.mp h
      obtain ⟨⟨d₂, vs₂⟩, hrun, h⟩ := Option.map_eq_some_iff.mp h
      cases h
      cases hop : op.isProcessing with
      | false =>
          obtain ⟨hnil, hadds⟩ := call_adds hop hcall
          rw [hadds.judgedFrom hop, hnil, ← hadds.slashed]
          exact ih (hadds.names hnames) hrun
      | true =>
          cases op with
          | processViolations clock =>
              obtain ⟨⟨e, vs⟩, hall, heq⟩ := Option.map_eq_some_iff.mp hcall
              cases heq
              have hfirst := processAll_outcome hnames hall
              have hout := ih (fun v hv => absurd hv List.not_mem_nil) hrun
              rw [judgedFrom_of_nil rfl] at hout
              exact hfirst.append hout
          | checkVote => cases hop
          | checkViewChange => cases hop
          | recordInvalidSignature => cases hop
          | clearRoundHistory => cases hop
          | clearViewChangeHistory => cases hop

/-- Verdicts of an outcome are distinct exactly if its signatures are. -/
theorem Outcome.charges_nodup_iff {a b : Finset String} {ids : List String} {verdicts : List SlashingVerdict}
    (h : Outcome a b ids verdicts) : (verdicts.map charge).Nodup ↔ ids.Nodup := by
  have hperm : ((verdicts.filter isSignature ++ verdicts.filter fun v => !isSignature v).map charge).Perm
      (verdicts.map charge) := (List.filter_append_perm isSignature verdicts).map charge
  rw [← hperm.nodup_iff, List.map_append, List.nodup_append]
  -- the verdicts on signatures, by their actors
  have hsig : ((verdicts.filter isSignature).map charge) = ids.map fun id => (id, some .invalidSignature) := by
    rw [← h.signatures, List.map_map]
    refine List.map_congr_left fun v hv => ?_
    have hv := (List.mem_filter.mp hv).2
    exact Prod.ext rfl (of_decide_eq_true hv)
  have hinj : Function.Injective fun id : String => (id, some ViolationType.invalidSignature) :=
    fun _ _ heq => (Prod.mk.inj heq).1
  rw [hsig, List.nodup_map_iff hinj]
  constructor
  · exact fun hall => hall.1
  · intro hids
    refine ⟨hids, ?_, ?_⟩
    · have hkeys := h.distinct
      rw [show (fun v : SlashingVerdict => slashKey v.actor v.violationType) =
        (fun c : String × Option ViolationType => slashKey c.1 c.2) ∘ charge from rfl, ← List.map_map] at hkeys
      exact hkeys.of_map
    · intro c hc c' hc' heq
      obtain ⟨id, -, rfl⟩ := List.mem_map.mp hc
      obtain ⟨v, hv, rfl⟩ := List.mem_map.mp hc'
      have hno := (List.mem_filter.mp hv).2
      have htype : v.violationType = some .invalidSignature := (congrArg Prod.snd heq).symm
      simp [isSignature, htype] at hno

/-- **At most one verdict for an actor and a kind of violation.** In every run from a new detector, exactly if no
voter is reported twice for an invalid signature before the last processing. Double votes are remembered by actor and
kind; invalid signatures are not, and each report is a verdict. -/
theorem verdicts_distinct_iff (sha3 : List UInt8 → String) (ops : List DetectorOp) (d : ByzantineDetector)
    (verdicts : List SlashingVerdict) (h : runCalls sha3 .new ops = some (d, verdicts)) :
    (verdicts.map charge).Nodup ↔ (judgedSignatures ops).Nodup := by
  have hout := runCalls_outcome (d := .new) (fun v hv => absurd hv List.not_mem_nil) h
  rw [judgedFrom_of_nil rfl] at hout
  exact hout.charges_nodup_iff

/-! ### One voter, two bad signatures -/

/-- A double vote of `mallory` in two rounds, processed after each, and one bad signature. -/
def scriptedCalls : List DetectorOp :=
  [.checkVote ⟨"mallory", "block_a", 1, "s1", none⟩, .checkVote ⟨"mallory", "block_b", 1, "s2", none⟩,
    .processViolations fun _ => 7, .clearRoundHistory,
    .checkVote ⟨"mallory", "block_c", 2, "s3", none⟩, .checkVote ⟨"mallory", "block_d", 2, "s4", none⟩,
    .recordInvalidSignature "mallory" "vote_1", .processViolations fun _ => 8]

/-- Two bad signatures of `mallory`, processed together. -/
def repeatedCalls : List DetectorOp :=
  [.recordInvalidSignature "mallory" "vote_1", .recordInvalidSignature "mallory" "vote_2",
    .processViolations fun _ => 7]

theorem verdicts_distinct_iff_two_kinds : ∃ d verdicts,
    runCalls (fun _ => "") .new scriptedCalls = some (d, verdicts) ∧ verdicts.length = 2 ∧
      (verdicts.map charge).Nodup := by
  have hrun : (runCalls (fun _ => "") .new scriptedCalls).map (·.2.length) = some 2 := by decide +kernel
  obtain ⟨⟨d, verdicts⟩, hcalls, hlen⟩ := Option.map_eq_some_iff.mp hrun
  exact ⟨d, verdicts, hcalls, hlen,
    (verdicts_distinct_iff (fun _ => "") scriptedCalls d verdicts hcalls).mpr (by decide +kernel)⟩

/-- Two reports of a bad signature give two verdicts on the same voter for the same violation. -/
theorem signature_slashed_twice : ¬ ∀ (sha3 : List UInt8 → String) (ops : List DetectorOp) (d : ByzantineDetector)
    (verdicts : List SlashingVerdict), runCalls sha3 .new ops = some (d, verdicts) →
    (verdicts.map charge).Nodup := by
  intro hall
  have hrun : (runCalls (fun _ => "") .new repeatedCalls).map (·.2.map charge) =
      some [("mallory", some .invalidSignature), ("mallory", some .invalidSignature)] := by decide +kernel
  obtain ⟨⟨d, verdicts⟩, hcalls, hcharges⟩ := Option.map_eq_some_iff.mp hrun
  have hnodup := hall _ _ d verdicts hcalls
  rw [show verdicts.map charge = _ from hcharges] at hnodup
  exact absurd hnodup (by decide)

end WarmLogic.Consensus.Byzantine
