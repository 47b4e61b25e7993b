/-
# WarmLogic.Drone.PqcCommand — `drone/pqc_command.rs`: a drone command is acted on once its signature has arrived.

A command opens a session; the signature comes in numbered chunks, of which the first under each number is kept; when
3309 bytes are there, they are put in order, cut and checked. The state of a session is a function of the calls since its
command (`Session`, `session_run`): it is still open, or one chunk completed it and the check decided then. Reordered and
repeated chunks of one signature are put together to it (`assembled_eq_of_parts`).

Why the check sees what `session_run` says: the map keeps the first chunk under each number and the counter their
lengths (`Gathered`), so the counter reaches 3309 with the chunk that completes the signature and no earlier, and the
check is made there, once. What comes after it changes nothing until the next command. A copy of a chunk, or another
under its number, is passed over, so the order of arrival does not matter as long as all chunks are parts of one
signature.
-/
import WarmLogic.Crypto.MlDsa
import WarmLogic.Lib.FirstWins

namespace WarmLogic.Drone.PqcCommand

open WarmLogic.Crypto WarmLogic.Lib.FirstWins
open WarmLogic.Federation (hexEncode)

/-- The report of the hardware, as far as the check looks at it. -/
structure HardwareReport where
  provider : String
  quote : String
  pcrHash : String
  deriving DecidableEq

/-- `HardwareAttestation::verify_report_raw`. -/
def verifyReportRaw (report : HardwareReport) : Bool × String :=
  if "KINETIC_ID".toList.isPrefixOf report.provider.toList || "KINETIC_TPM".toList.isPrefixOf report.provider.toList then
    (true, "VERIFICATION_SUCCESS: Validated [" ++ report.provider ++ "] PCR[" ++ report.pcrHash ++ "]")
  else (false, "VERIFICATION_FAILED: Unsupported Provider")

/-- Where the authenticator stands. -/
inductive AuthState (Cmd : Type)
  | idle
  | waitingForSignature (command : Cmd) (chunks : Std.TreeMap UInt16 (List UInt8)) (totalReceived expectedLen : Nat)
      (hardwareReport : Option HardwareReport)
  | verified (command : Cmd)
  | failed

/-- `PQCCommandAuthenticator`. -/
structure PQCCommandAuthenticator (Cmd : Type) where
  state : AuthState Cmd
  publicKey : String
  hardwareBindingRequired : Bool

variable {κ Cmd : Type} (dsa : MlDsa κ) (debug : Cmd → String)

namespace PQCCommandAuthenticator

/-- `new`, without hardware binding. -/
def new (publicKey : String) : PQCCommandAuthenticator Cmd := ⟨.idle, publicKey, false⟩

/-- `set_hardware_binding_required`. -/
def setHardwareBindingRequired (a : PQCCommandAuthenticator Cmd) (required : Bool) : PQCCommandAuthenticator Cmd :=
  { a with hardwareBindingRequired := required }

/-- `process_command`: a new command drops whatever session there was. -/
def processCommand (a : PQCCommandAuthenticator Cmd) (cmd : Cmd) : PQCCommandAuthenticator Cmd :=
  { a with state := .waitingForSignature cmd ∅ 0 3309 none }

/-- `set_hardware_report`: heard only while chunks are collected. -/
def setHardwareReport (a : PQCCommandAuthenticator Cmd) (report : HardwareReport) : PQCCommandAuthenticator Cmd × Bool :=
  match a.state with
  | .waitingForSignature command chunks totalReceived expectedLen _ =>
      ({ a with state := .waitingForSignature command chunks totalReceived expectedLen (some report) }, true)
  | _ => (a, false)

/-- `verify`; `debug` is the text `{:?}` gives for the command. -/
def verify (a : PQCCommandAuthenticator Cmd) : PQCCommandAuthenticator Cmd × Bool :=
  match a.state with
  | .waitingForSignature command chunks _ _ hardwareReport =>
      -- a missing report and one that does not pass fail alike
      if a.hardwareBindingRequired && !hardwareReport.any fun report => (verifyReportRaw report).1 then
        ({ a with state := .failed }, false)
      else
        let fullSig := chunks.toList.flatMap fun entry => entry.2
        let fullSig := if fullSig.length > 3309 then fullSig.take 3309 else fullSig
        let message := debug command
        let sigHex := hexEncode fullSig
        if a.publicKey = "WARM-TEST-BYPASS" then ({ a with state := .verified command }, true)
        else if dsa.verifyRaw a.publicKey message sigHex then ({ a with state := .verified command }, true)
        else ({ a with state := .failed }, false)
  | _ => (a, false)

/-- `append_signature_chunk`: only the first chunk under a number counts. -/
def appendSignatureChunk (a : PQCCommandAuthenticator Cmd) (seqnr : UInt16) (chunk : List UInt8) :
    PQCCommandAuthenticator Cmd × Bool :=
  match a.state with
  | .waitingForSignature command chunks totalReceived expectedLen hardwareReport =>
      if chunks[seqnr]?.isNone then
        let a : PQCCommandAuthenticator Cmd := { a with
          state := .waitingForSignature command (chunks.insert seqnr chunk) (totalReceived + chunk.length) expectedLen
            hardwareReport }
        if totalReceived + chunk.length ≥ expectedLen then a.verify dsa debug else (a, false)
      else (a, false)
  | _ => (a, false)

/-- `get_verified_command`. -/
def getVerifiedCommand (a : PQCCommandAuthenticator Cmd) : Option Cmd :=
  match a.state with
  | .verified cmd => some cmd
  | _ => none

end PQCCommandAuthenticator

/-! ## Runs -/

/-- A call on the authenticator. -/
inductive AuthCall (Cmd : Type)
  | processCommand (cmd : Cmd)
  | setHardwareReport (report : HardwareReport)
  | appendSignatureChunk (seqnr : UInt16) (chunk : List UInt8)

namespace AuthCall

/-- The authenticator after a call. -/
def run (a : PQCCommandAuthenticator Cmd) : AuthCall Cmd → PQCCommandAuthenticator Cmd
  | .processCommand cmd => a.processCommand cmd
  | .setHardwareReport report => (a.setHardwareReport report).1
  | .appendSignatureChunk seqnr chunk => (a.appendSignatureChunk dsa debug seqnr chunk).1

def isCommand : AuthCall Cmd → Bool
  | .processCommand _ => true
  | _ => false

def chunk? : AuthCall Cmd → Option (UInt16 × List UInt8)
  | .appendSignatureChunk seqnr chunk => some (seqnr, chunk)
  | _ => none

def report? : AuthCall Cmd → Option HardwareReport
  | .setHardwareReport report => some report
  | _ => none

end AuthCall

/-- And after calls in a row. -/
def runCalls (a : PQCCommandAuthenticator Cmd) (calls : List (AuthCall Cmd)) : PQCCommandAuthenticator Cmd :=
  calls.foldl (fun a call => call.run dsa debug a) a

/-- The chunks of a run, as they came. -/
def arrivals (calls : List (AuthCall Cmd)) : List (UInt16 × List UInt8) := calls.filterMap AuthCall.chunk?

/-- The last report of a run. -/
def lastReport (calls : List (AuthCall Cmd)) : Option HardwareReport := (calls.filterMap AuthCall.report?).getLast?

/-- The chunks first received under each number, in the order of the numbers. -/
def assembled (chunks : List (UInt16 × List UInt8)) : List UInt8 := (inOrder compare chunks).flatMap fun entry => entry.2

variable {dsa debug} {a : PQCCommandAuthenticator Cmd} {calls between : List (AuthCall Cmd)} {c : Cmd}

/-- The chunks of two runs in a row. -/
theorem arrivals_append (calls calls' : List (AuthCall Cmd)) : arrivals (calls ++ calls') = arrivals calls ++ arrivals calls' :=
  List.filterMap_append

/-- Two runs in a row. -/
theorem runCalls_append (calls calls' : List (AuthCall Cmd)) :
    runCalls dsa debug a (calls ++ calls') = runCalls dsa debug (runCalls dsa debug a calls) calls' :=
  List.foldl_append

/-- One call more. -/
theorem runCalls_concat (calls : List (AuthCall Cmd)) (call : AuthCall Cmd) :
    runCalls dsa debug a (calls ++ [call]) = call.run dsa debug (runCalls dsa debug a calls) :=
  List.foldl_append

/-- A report replaces the one before. -/
theorem lastReport_append_report (calls : List (AuthCall Cmd)) (report : HardwareReport) :
    lastReport (calls ++ [.setHardwareReport report]) = some report := by
  unfold lastReport
  rw [List.filterMap_append]
  exact List.getLast?_concat

/-- A chunk leaves it. -/
theorem lastReport_append_chunk (calls : List (AuthCall Cmd)) (seqnr : UInt16) (chunk : List UInt8) :
    lastReport (calls ++ [.appendSignatureChunk seqnr chunk]) = lastReport calls := by
  unfold lastReport
  rw [List.filterMap_append]
  exact congrArg List.getLast? (List.append_nil _)

/-! ## What a session holds -/

/-- An open session holds the first chunk under each number, their total length and the last report. -/
structure Gathered (between : List (AuthCall Cmd)) (chunks : Std.TreeMap UInt16 (List UInt8)) (totalReceived : Nat)
    (hardwareReport : Option HardwareReport) : Prop where
  chunks : ∀ k : UInt16, chunks[k]? = (arrivals between).lookup k
  total : totalReceived = (assembled (arrivals between)).length
  report : hardwareReport = lastReport between

/-- The chunk that brings the signature to 3309 bytes or more. -/
structure Completes (early : List (AuthCall Cmd)) (seqnr : UInt16) (chunk : List UInt8) : Prop where
  before : (assembled (arrivals early)).length < 3309
  after : 3309 ≤ (assembled (arrivals early ++ [(seqnr, chunk)])).length

/-- The check made then: what was assembled verifies for the command, and the last report is valid where one is required. -/
def Passes (dsa : MlDsa κ) (debug : Cmd → String) (publicKey : String) (required : Bool) (c : Cmd)
    (early : List (AuthCall Cmd)) (seqnr : UInt16) (chunk : List UInt8) : Prop :=
  (required = true → ∃ report, lastReport early = some report ∧ (verifyReportRaw report).1 = true) ∧
    dsa.verifyRaw publicKey (debug c) (hexEncode ((assembled (arrivals early ++ [(seqnr, chunk)])).take 3309)) = true

/-- The state of a session, from the calls since its command. -/
def Session (dsa : MlDsa κ) (debug : Cmd → String) (publicKey : String) (required : Bool) (c : Cmd)
    (between : List (AuthCall Cmd)) : AuthState Cmd → Prop
  | .idle => False
  | .waitingForSignature command chunks totalReceived expectedLen hardwareReport =>
      command = c ∧ expectedLen = 3309 ∧ totalReceived < 3309 ∧ Gathered between chunks totalReceived hardwareReport
  | .verified command =>
      command = c ∧ ∃ early seqnr chunk late, between = early ++ .appendSignatureChunk seqnr chunk :: late ∧
        Completes early seqnr chunk ∧ Passes dsa debug publicKey required c early seqnr chunk
  | .failed =>
      ∃ early seqnr chunk late, between = early ++ .appendSignatureChunk seqnr chunk :: late ∧
        Completes early seqnr chunk ∧ ¬ Passes dsa debug publicKey required c early seqnr chunk

/-- A first chunk under its number adds its length. -/
theorem length_assembled_append {chunks : List (UInt16 × List UInt8)} {seqnr : UInt16} (chunk : List UInt8)
    (h : chunks.lookup seqnr = none) :
    (assembled (chunks ++ [(seqnr, chunk)])).length = (assembled chunks).length + chunk.length := by
  have hperm : (inOrder compare (chunks ++ [(seqnr, chunk)])).Perm ((seqnr, chunk) :: inOrder compare chunks) :=
    inOrder_append_perm h
  unfold assembled
  rw [(hperm.flatMap_right fun entry => entry.2).length_eq, List.flatMap_cons, List.length_append, Nat.add_comm]

namespace Gathered

variable {chunks : Std.TreeMap UInt16 (List UInt8)} {totalReceived : Nat} {hardwareReport : Option HardwareReport}
  {seqnr : UInt16}

/-- In the order of the numbers, the map holds what was assembled. -/
theorem values (h : Gathered between chunks totalReceived hardwareReport) :
    (chunks.toList.flatMap fun entry => entry.2) = assembled (arrivals between) := by
  rw [toList_eq_inOrder h.chunks, assembled]

/-- A report is kept. -/
theorem setReport (h : Gathered between chunks totalReceived hardwareReport) (report : HardwareReport) :
    Gathered (between ++ [.setHardwareReport report]) chunks totalReceived (some report) := by
  have hsame : arrivals (between ++ [.setHardwareReport report]) = arrivals between := by
    rw [arrivals_append]
    exact List.append_nil _
  refine ⟨?_, ?_, (lastReport_append_report between report).symm⟩
  · rw [hsame]
    exact h.chunks
  · rw [hsame]
    exact h.total

/-- A copy, or another chunk under a number that is taken. -/
theorem late (h : Gathered between chunks totalReceived hardwareReport) (hseqnr : chunks[seqnr]?.isNone = false)
    (chunk : List UInt8) :
    Gathered (between ++ [.appendSignatureChunk seqnr chunk]) chunks totalReceived hardwareReport := by
  have hsome : ((arrivals between).lookup seqnr).isNone = false := by rwa [← h.chunks]
  obtain ⟨old, hold⟩ := Option.isSome_iff_exists.mp (Option.isNone_eq_false_iff.mp hsome)
  have harrivals : arrivals (between ++ [.appendSignatureChunk seqnr chunk]) = arrivals between ++ [(seqnr, chunk)] :=
    arrivals_append _ _
  refine ⟨fun k => ?_, ?_, h.report.trans (lastReport_append_chunk between seqnr chunk).symm⟩
  · rw [harrivals, h.chunks, lookup_append_singleton]
    by_cases hk : k = seqnr
    · rw [hk, hold, Option.some_or]
    · rw [if_neg hk, Option.or_none]
  · rw [harrivals, h.total]
    unfold assembled
    rw [inOrder_append_of_some (p := (seqnr, chunk)) hold]

/-- A chunk under a number that is free. -/
theorem first (h : Gathered between chunks totalReceived hardwareReport) (hseqnr : chunks[seqnr]?.isNone = true)
    (chunk : List UInt8) :
    Gathered (between ++ [.appendSignatureChunk seqnr chunk]) (chunks.insert seqnr chunk) (totalReceived + chunk.length)
      hardwareReport := by
  have hnone : (arrivals between).lookup seqnr = none := by
    rw [← h.chunks]
    exact Option.isNone_iff_eq_none.mp hseqnr
  have harrivals : arrivals (between ++ [.appendSignatureChunk seqnr chunk]) = arrivals between ++ [(seqnr, chunk)] :=
    arrivals_append _ _
  refine ⟨fun k => ?_, ?_, h.report.trans (lastReport_append_chunk between seqnr chunk).symm⟩
  · rw [harrivals]
    exact getElem?_insert_of_lookup (p := (seqnr, chunk)) h.chunks hnone k
  · rw [harrivals, length_assembled_append chunk hnone, h.total]

end Gathered

/-! ## One call, and a whole session -/

/-- No call changes key or configuration. -/
@[simp] theorem run_config (a : PQCCommandAuthenticator Cmd) (call : AuthCall Cmd) :
    (call.run dsa debug a).publicKey = a.publicKey ∧
      (call.run dsa debug a).hardwareBindingRequired = a.hardwareBindingRequired := by
  have hverify (a : PQCCommandAuthenticator Cmd) : (a.verify dsa debug).1.publicKey = a.publicKey ∧
      (a.verify dsa debug).1.hardwareBindingRequired = a.hardwareBindingRequired := by
    unfold PQCCommandAuthenticator.verify
    cases a.state <;> (dsimp only; try split_ifs) <;> exact ⟨rfl, rfl⟩
  cases call with
  | processCommand cmd => exact ⟨rfl, rfl⟩
  | setHardwareReport report =>
      unfold AuthCall.run PQCCommandAuthenticator.setHardwareReport
      cases a.state <;> exact ⟨rfl, rfl⟩
  | appendSignatureChunk seqnr chunk =>
      unfold AuthCall.run PQCCommandAuthenticator.appendSignatureChunk
      cases a.state with
      | waitingForSignature =>
          dsimp only
          split_ifs
          · exact hverify _
          · exact ⟨rfl, rfl⟩
          · exact ⟨rfl, rfl⟩
      | _ => exact ⟨rfl, rfl⟩

/-- The check is the one `Passes` states. -/
theorem verify_session {early : List (AuthCall Cmd)} {seqnr : UInt16} {chunk : List UInt8}
    {chunks : Std.TreeMap UInt16 (List UInt8)} {totalReceived : Nat} {hardwareReport : Option HardwareReport}
    (hkey : a.publicKey ≠ "WARM-TEST-BYPASS") (hstate : a.state = .waitingForSignature c chunks totalReceived 3309 hardwareReport)
    (hgathered : Gathered (early ++ [.appendSignatureChunk seqnr chunk]) chunks totalReceived hardwareReport)
    (hcompletes : Completes early seqnr chunk) :
    Session dsa debug a.publicKey a.hardwareBindingRequired c (early ++ [.appendSignatureChunk seqnr chunk])
      (a.verify dsa debug).1.state := by
  have hreport : hardwareReport = lastReport early := by rw [hgathered.report, lastReport_append_chunk]
  have hvalues : (chunks.toList.flatMap fun entry => entry.2) = assembled (arrivals early ++ [(seqnr, chunk)]) := by
    rw [hgathered.values, arrivals_append]
    rfl
  have hcut (sig : List UInt8) : (if sig.length > 3309 then sig.take 3309 else sig) = sig.take 3309 := by
    split_ifs with hlong
    · rfl
    · exact (List.take_of_length_le (Nat.le_of_not_lt hlong)).symm
  unfold PQCCommandAuthenticator.verify
  rw [hstate]
  simp only [hvalues, hcut, if_neg hkey]
  by_cases hbound : (a.hardwareBindingRequired && !hardwareReport.any fun report => (verifyReportRaw report).1) = true
  · rw [if_pos hbound]
    refine ⟨early, seqnr, chunk, [], rfl, hcompletes, fun hpasses => ?_⟩
    obtain ⟨hrequired, hinvalid⟩ := (Bool.and_eq_true _ _).mp hbound
    obtain ⟨report, hlast, hvalid⟩ := hpasses.1 hrequired
    rw [hreport, hlast, Option.any_some, hvalid] at hinvalid
    exact Bool.false_ne_true hinvalid
  · rw [if_neg hbound]
    have hvalid : a.hardwareBindingRequired = true → ∃ report, lastReport early = some report ∧ (verifyReportRaw report).1 = true := by
      intro hrequired
      rw [hrequired, Bool.true_and, Bool.not_eq_true', Bool.not_eq_false, Option.any_eq_true] at hbound
      obtain ⟨report, hmem, hok⟩ := hbound
      exact ⟨report, hreport.symm.trans hmem, hok⟩
    split_ifs with hverifies
    · exact ⟨rfl, early, seqnr, chunk, [], rfl, hcompletes, hvalid, hverifies⟩
    · exact ⟨early, seqnr, chunk, [], rfl, hcompletes, fun hpasses => hverifies hpasses.2⟩

/-- Once the check has decided, only a new command changes the state. -/
theorem run_state_of_closed {call : AuthCall Cmd} (hcall : call.isCommand = false)
    (hclosed : ∀ cmd chunks total expected report, a.state ≠ .waitingForSignature cmd chunks total expected report) :
    (call.run dsa debug a).state = a.state := by
  cases call with
  | processCommand cmd => exact nomatch hcall
  | setHardwareReport report =>
      show (a.setHardwareReport report).1.state = a.state
      unfold PQCCommandAuthenticator.setHardwareReport
      split
      · next hstate => exact absurd hstate (hclosed _ _ _ _ _)
      · rfl
  | appendSignatureChunk seqnr chunk =>
      show (a.appendSignatureChunk dsa debug seqnr chunk).1.state = a.state
      unfold PQCCommandAuthenticator.appendSignatureChunk
      split
      · next hstate => exact absurd hstate (hclosed _ _ _ _ _)
      · rfl

/-- A chunk after the check leaves the verified command. -/
theorem getVerifiedCommand_late {call : AuthCall Cmd} (hcall : call.isCommand = false)
    (h : a.getVerifiedCommand = some c) : (call.run dsa debug a).getVerifiedCommand = some c := by
  unfold PQCCommandAuthenticator.getVerifiedCommand at h ⊢
  split at h
  · next cmd hcmd =>
    rw [run_state_of_closed hcall fun _ _ _ _ _ he => nomatch hcmd.symm.trans he]
    simpa only [hcmd] using h
  · exact absurd h.symm (Option.some_ne_none c)

/-- What it says stays true. -/
theorem Session.late (h : Session dsa debug a.publicKey a.hardwareBindingRequired c between a.state) {call : AuthCall Cmd}
    (hcall : call.isCommand = false)
    (hclosed : ∀ cmd chunks total expected report, a.state ≠ .waitingForSignature cmd chunks total expected report) :
    Session dsa debug a.publicKey a.hardwareBindingRequired c (between ++ [call]) (call.run dsa debug a).state := by
  rw [run_state_of_closed hcall hclosed]
  cases hstate : a.state with
  | idle => exact (hstate ▸ h : Session _ _ _ _ _ _ .idle).elim
  | waitingForSignature cmd chunks total expected report => exact absurd hstate (hclosed cmd chunks total expected report)
  | verified command =>
      rw [hstate] at h
      obtain ⟨hcommand, early, seqnr, chunk, late, rfl, hdone⟩ := h
      exact ⟨hcommand, early, seqnr, chunk, late ++ [call], List.append_assoc _ _ _, hdone⟩
  | failed =>
      rw [hstate] at h
      obtain ⟨early, seqnr, chunk, late, rfl, hdone⟩ := h
      exact ⟨early, seqnr, chunk, late ++ [call], List.append_assoc _ _ _, hdone⟩

/-- **One call of a session.** -/
theorem Session.step (h : Session dsa debug a.publicKey a.hardwareBindingRequired c between a.state)
    (hkey : a.publicKey ≠ "WARM-TEST-BYPASS") {call : AuthCall Cmd}
    (hcall : call.isCommand = false) :
    Session dsa debug a.publicKey a.hardwareBindingRequired c (between ++ [call]) (call.run dsa debug a).state := by
  cases hstate : a.state with
  | waitingForSignature command chunks totalReceived expectedLen hardwareReport =>
      rw [hstate] at h
      obtain ⟨rfl, rfl, htotal, hgathered⟩ := h
      cases call with
      | processCommand cmd => exact nomatch hcall
      | setHardwareReport report =>
          unfold AuthCall.run PQCCommandAuthenticator.setHardwareReport
          rw [hstate]
          exact ⟨rfl, rfl, htotal, hgathered.setReport report⟩
      | appendSignatureChunk seqnr chunk =>
          unfold AuthCall.run PQCCommandAuthenticator.appendSignatureChunk
          simp only [hstate]
          by_cases hfree : chunks[seqnr]?.isNone = true
          · have hmore := hgathered.first hfree chunk
            rw [if_pos hfree]
            split_ifs with hfull
            · refine verify_session (a := { a with state := _ }) hkey rfl hmore ⟨?_, ?_⟩
              · rw [← hgathered.total]
                exact htotal
              · have htotal' := hmore.total
                rw [arrivals_append] at htotal'
                exact htotal' ▸ hfull
            · exact ⟨rfl, rfl, Nat.lt_of_not_le hfull, hmore⟩
          · rw [if_neg hfree, hstate]
            exact ⟨rfl, rfl, htotal, hgathered.late (Bool.not_eq_true _ ▸ hfree) chunk⟩
  | _ => exact h.late hcall fun _ _ _ _ _ he => nomatch hstate.symm.trans he

variable (dsa debug) in
/-- Nor do calls in a row. -/
theorem runCalls_config (a : PQCCommandAuthenticator Cmd) (calls : List (AuthCall Cmd)) :
    (runCalls dsa debug a calls).publicKey = a.publicKey ∧
      (runCalls dsa debug a calls).hardwareBindingRequired = a.hardwareBindingRequired := by
  induction calls generalizing a with
  | nil => exact ⟨rfl, rfl⟩
  | cons call calls ih =>
      obtain ⟨hkey, hrequired⟩ := ih (call.run dsa debug a)
      exact ⟨hkey.trans (run_config a call).1, hrequired.trans (run_config a call).2⟩

variable (dsa debug) in
/-- **A whole session.** The calls since the command determine the state. -/
theorem session_run (hkey : a.publicKey ≠ "WARM-TEST-BYPASS") (hbetween : ∀ call ∈ between, call.isCommand = false) :
    Session dsa debug a.publicKey a.hardwareBindingRequired c between
      (runCalls dsa debug (a.processCommand c) between).state := by
  induction between using List.reverseRecOn with
  | nil =>
      exact ⟨rfl, rfl, by decide, fun k => Std.TreeMap.getElem?_emptyc, by simp [assembled, arrivals], rfl⟩
  | append_singleton between call ih =>
      have hbefore := ih fun call hcall => hbetween call (List.mem_append_left _ hcall)
      have hsame : (runCalls dsa debug (a.processCommand c) between).publicKey = a.publicKey :=
        (runCalls_config dsa debug _ between).1
      have hsame' : (runCalls dsa debug (a.processCommand c) between).hardwareBindingRequired = a.hardwareBindingRequired :=
        (runCalls_config dsa debug _ between).2
      rw [← hsame, ← hsame'] at hbefore ⊢
      rw [runCalls_concat]
      exact hbefore.step (fun h => hkey (hsame.symm.trans h))
        (hbetween call (List.mem_append_right _ (List.mem_singleton_self call)))

/-- The last command of a run, if there is one. -/
theorem exists_last_command (calls : List (AuthCall Cmd)) :
    (∀ call ∈ calls, call.isCommand = false) ∨
      ∃ before c between, calls = before ++ .processCommand c :: between ∧ ∀ call ∈ between, call.isCommand = false := by
  induction calls using List.reverseRecOn with
  | nil => exact .inl (List.forall_mem_nil _)
  | append_singleton calls call ih =>
      cases hcall : call.isCommand with
      | true =>
          cases call with
          | processCommand c => exact .inr ⟨calls, c, [], rfl, List.forall_mem_nil _⟩
          | _ => exact nomatch hcall
      | false =>
          have hlast : ∀ x ∈ [call], x.isCommand = false := fun x hx => List.mem_singleton.mp hx ▸ hcall
          rcases ih with hnone | ⟨before, c, between, rfl, hbetween⟩
          · exact .inl (List.forall_mem_append.mpr ⟨hnone, hlast⟩)
          · exact .inr ⟨before, c, between ++ [call], List.append_assoc _ _ _, List.forall_mem_append.mpr ⟨hbetween, hlast⟩⟩

/-- Nothing is verified before a command. -/
theorem getVerifiedCommand_of_no_command (hidle : a.state = .idle) (h : ∀ call ∈ calls, call.isCommand = false) :
    (runCalls dsa debug a calls).getVerifiedCommand = none := by
  have hstate : (runCalls dsa debug a calls).state = .idle := by
    induction calls using List.reverseRecOn with
    | nil => exact hidle
    | append_singleton calls call ih =>
        have hbefore := ih fun x hx => h x (List.mem_append_left _ hx)
        rw [runCalls_concat]
        cases call with
        | processCommand c => exact nomatch h _ (List.mem_append_right _ (List.mem_singleton_self _))
        | setHardwareReport report => simp only [AuthCall.run, PQCCommandAuthenticator.setHardwareReport, hbefore]
        | appendSignatureChunk seqnr chunk => simp only [AuthCall.run, PQCCommandAuthenticator.appendSignatureChunk, hbefore]
  unfold PQCCommandAuthenticator.getVerifiedCommand
  rw [hstate]

/-! ## Chunks of one signature -/

/-- A part of a list whose pieces are as long, put together, as those of the whole. -/
theorem flatMap_filter_of_length {parts : List (UInt16 × List UInt8)} {keep : UInt16 × List UInt8 → Bool}
    (h : (parts.flatMap fun entry => entry.2).length ≤ ((parts.filter keep).flatMap fun entry => entry.2).length) :
    ((parts.filter keep).flatMap fun entry => entry.2) = parts.flatMap fun entry => entry.2 := by
  have hsub : ((parts.filter keep).flatMap fun entry => entry.2).Sublist (parts.flatMap fun entry => entry.2) := by
    rw [List.flatMap_def, List.flatMap_def]
    exact ((List.filter_sublist).map _).flatten
  exact hsub.eq_of_length_le h

/-- **The signature is put together** from its parts, in any order and with any copies, once 3309 bytes are there. -/
theorem assembled_eq_of_parts {parts chunks : List (UInt16 × List UInt8)} (hparts : parts.Pairwise fun p q => p.1 < q.1)
    (hsub : ∀ p ∈ chunks, p ∈ parts)
    (hlen : (parts.flatMap fun entry => entry.2).length ≤ (assembled chunks).length) :
    assembled chunks = parts.flatMap fun entry => entry.2 := by
  have hsorted : parts.Pairwise fun p q => compare p.1 q.1 = .lt := hparts.imp fun h => Std.compare_eq_lt.mpr h
  unfold assembled at hlen ⊢
  rw [inOrder_eq_filter hsorted hsub] at hlen ⊢
  exact flatMap_filter_of_length hlen

/-- Every part has come. -/
theorem assembled_of_all {parts chunks : List (UInt16 × List UInt8)} (hparts : parts.Pairwise fun p q => p.1 < q.1)
    (hsub : ∀ p ∈ chunks, p ∈ parts) (hall : ∀ p ∈ parts, p ∈ chunks) :
    assembled chunks = parts.flatMap fun entry => entry.2 := by
  have hsorted : parts.Pairwise fun p q => compare p.1 q.1 = .lt := hparts.imp fun h => Std.compare_eq_lt.mpr h
  unfold assembled
  rw [inOrder_eq_filter hsorted hsub, List.filter_eq_self.mpr]
  intro p hp
  rw [Option.isSome_iff_ne_none, ne_eq, List.lookup_eq_none_iff]
  intro hnone
  have := hnone p (hall p hp)
  rw [bne_self_eq_false] at this
  exact Bool.false_ne_true this

/-! ## The authenticator -/

/-- A run after which `c` may count as verified: it is the last command, and the check passed when its signature was there. -/
def Authenticated (dsa : MlDsa κ) (debug : Cmd → String) (publicKey : String) (required : Bool)
    (calls : List (AuthCall Cmd)) (c : Cmd) : Prop :=
  ∃ before early seqnr chunk late,
    calls = before ++ .processCommand c :: (early ++ .appendSignatureChunk seqnr chunk :: late) ∧
      (∀ call ∈ early ++ late, call.isCommand = false) ∧ Completes early seqnr chunk ∧
        Passes dsa debug publicKey required c early seqnr chunk

variable {publicKey : String} {required : Bool}

variable (dsa debug required) in
/-- The calls since the last command make its session. -/
theorem runCalls_session (hkey : publicKey ≠ "WARM-TEST-BYPASS") (before : List (AuthCall Cmd)) (c : Cmd)
    (hbetween : ∀ call ∈ between, call.isCommand = false) :
    Session dsa debug publicKey required c between (runCalls dsa debug
      ((PQCCommandAuthenticator.new publicKey).setHardwareBindingRequired required)
      (before ++ .processCommand c :: between)).state := by
  have hconfig := runCalls_config dsa debug ((PQCCommandAuthenticator.new publicKey).setHardwareBindingRequired required) before
  have hrun := session_run dsa debug (c := c) (fun h => hkey (hconfig.1.symm.trans h)) hbetween
  rw [hconfig.1, hconfig.2] at hrun
  rw [runCalls_append]
  exact hrun

/-- Soundness. -/
theorem authenticated_of_verified (hkey : publicKey ≠ "WARM-TEST-BYPASS")
    (hverified : (runCalls dsa debug ((PQCCommandAuthenticator.new publicKey).setHardwareBindingRequired required)
      calls).getVerifiedCommand = some c) : Authenticated dsa debug publicKey required calls c := by
  rcases exists_last_command calls with hnone | ⟨before, c', between, rfl, hbetween⟩
  · rw [getVerifiedCommand_of_no_command rfl hnone] at hverified
    exact absurd hverified.symm (Option.some_ne_none c)
  · have hstate := runCalls_session dsa debug required hkey before c' hbetween
    unfold PQCCommandAuthenticator.getVerifiedCommand at hverified
    split at hverified
    · next cmd hcmd =>
      rw [hcmd] at hstate
      obtain ⟨rfl, early, seqnr, chunk, late, rfl, hcompletes, hpasses⟩ := hstate
      obtain rfl := Option.some.inj hverified
      refine ⟨before, early, seqnr, chunk, late, rfl, fun call hcall => hbetween call ?_, hcompletes, hpasses⟩
      rw [List.mem_append, List.mem_cons]
      exact (List.mem_append.mp hcall).imp_right .inr
    · exact absurd hverified.symm (Option.some_ne_none c)

/-- Completeness, without hardware binding. -/
theorem verified_of_parts {rest : List (AuthCall Cmd)} {parts : List (UInt16 × List UInt8)}
    (hkey : publicKey ≠ "WARM-TEST-BYPASS") (before : List (AuthCall Cmd))
    (hverifies : dsa.verifyRaw publicKey (debug c) (hexEncode (parts.flatMap fun entry => entry.2)) = true)
    (hparts : parts.Pairwise fun p q => p.1 < q.1) (hrest : ∀ call ∈ rest, call.isCommand = false)
    (hchunks : ∀ p, p ∈ arrivals rest ↔ p ∈ parts) :
    (runCalls dsa debug ((PQCCommandAuthenticator.new publicKey).setHardwareBindingRequired false)
      (before ++ .processCommand c :: rest)).getVerifiedCommand = some c := by
  have hlen := dsa.length_of_verifyRaw hverifies
  have hall := assembled_of_all hparts (fun p hp => (hchunks p).mp hp) fun p hp => (hchunks p).mpr hp
  have hstate := runCalls_session dsa debug false hkey before c hrest
  unfold PQCCommandAuthenticator.getVerifiedCommand
  split
  · next cmd hcmd =>
    rw [hcmd] at hstate
    exact congrArg some hstate.1
  · next hother =>
    exfalso
    revert hstate
    generalize (runCalls dsa debug _ _).state = state at hother
    cases state with
    | idle => exact id
    | verified command => exact fun _ => hother command rfl
    | waitingForSignature command chunks total expected report =>
        -- every part has come, so the signature would have been complete
        rintro ⟨-, -, htotal, hgathered⟩
        rw [hgathered.total, hall, hlen] at htotal
        exact Nat.lt_irrefl _ htotal
    | failed =>
        -- what was assembled when it was complete is the signature, and it verifies
        rintro ⟨early, seqnr, chunk, late, rfl, hcompletes, hfails⟩
        have hsub : ∀ p ∈ arrivals early ++ [(seqnr, chunk)], p ∈ parts := by
          intro p hp
          refine (hchunks p).mp ?_
          rw [arrivals_append]
          rcases List.mem_append.mp hp with hp | hp
          · exact List.mem_append_left _ hp
          · exact List.mem_append_right _ (List.mem_singleton.mp hp ▸ List.mem_cons_self)
        have hsig := assembled_eq_of_parts hparts hsub (hlen ▸ hcompletes.after)
        refine hfails ⟨fun h => absurd h Bool.false_ne_true, ?_⟩
        rwa [hsig, ← hlen, List.take_length]

/-- **Sound, and complete in any order.** Under any key but the one the code lets pass, whatever the run: a command is
verified only if it is the last one, the first chunk under each number up to the one that brought 3309 bytes, put in order
and cut, verify for it, and the last report before was valid where one is required; and without hardware binding every
command whose signature arrives in numbered parts, in any order and with any copies, ends verified. -/
theorem authenticator_correct (dsa : MlDsa κ) (debug : Cmd → String) (publicKey : String) (required : Bool)
    (hkey : publicKey ≠ "WARM-TEST-BYPASS") :
    (∀ (calls : List (AuthCall Cmd)) (c : Cmd),
      (runCalls dsa debug ((PQCCommandAuthenticator.new publicKey).setHardwareBindingRequired required)
        calls).getVerifiedCommand = some c → Authenticated dsa debug publicKey required calls c) ∧
    (required = false → ∀ (before rest : List (AuthCall Cmd)) (c : Cmd) (parts : List (UInt16 × List UInt8)),
      dsa.verifyRaw publicKey (debug c) (hexEncode (parts.flatMap fun entry => entry.2)) = true →
      (parts.Pairwise fun p q => p.1 < q.1) → (∀ call ∈ rest, call.isCommand = false) →
      (∀ p, p ∈ arrivals rest ↔ p ∈ parts) →
      (runCalls dsa debug ((PQCCommandAuthenticator.new publicKey).setHardwareBindingRequired required)
        (before ++ .processCommand c :: rest)).getVerifiedCommand = some c) := by
  constructor
  · intro calls c hverified
    exact authenticated_of_verified hkey hverified
  · rintro rfl before rest c parts hverifies hparts hrest hchunks
    exact verified_of_parts hkey before hverifies hparts hrest hchunks

/-! ### One signature, and a chunk after it -/

/-- A scheme in which every key accepts the signatures that begin with a zero byte. -/
def zeroFirst : MlDsa Unit where
  tryFromBytes _ := some ()
  verify _ _ sig _ := sig.toList.head? == some 0

/-- A list of a given length of which nothing else is to be known. -/
@[irreducible] def filler (n : Nat) : List UInt8 := List.replicate n 7

@[simp] theorem length_filler (n : Nat) : (filler n).length = n := by
  unfold filler
  exact List.length_replicate

/-- The key of the scheme. -/
def zeroKey : String := hexEncode (0 :: filler 1951)

/-- It is not the key that is let pass. -/
theorem zeroKey_ne : zeroKey ≠ "WARM-TEST-BYPASS" := by
  intro h
  have hbytes := congrArg hexDecode h
  rw [zeroKey, hexDecode_hexEncode, show hexDecode "WARM-TEST-BYPASS" = none by decide] at hbytes
  exact Option.some_ne_none _ hbytes

/-- What it accepts. -/
theorem zeroFirst_verifyRaw (message : String) (b : UInt8) {rest : List UInt8} (h : rest.length = 3308) :
    zeroFirst.verifyRaw zeroKey message (hexEncode (b :: rest)) = (b == 0) := by
  have hsim : "WARM-KEY-SIM-".toList.isPrefixOf zeroKey.toList = false := by
    rw [zeroKey, hexEncode, String.toList_ofList, String.toList_ofList, List.flatMap_cons, List.cons_append,
      List.isPrefixOf_cons_cons]
    exact Bool.and_eq_false_imp.mpr fun e => absurd e (by decide)
  have hpk : ∃ pk, toArray? 1952 (0 :: filler 1951) = some pk :=
    ⟨_, dif_pos (by rw [List.length_cons, length_filler])⟩
  have hsig : ∃ sig, toArray? 3309 (b :: rest) = some sig ∧ sig.toList = b :: rest :=
    ⟨_, dif_pos (by rw [List.length_cons, h]), rfl⟩
  obtain ⟨pk, hpk⟩ := hpk
  obtain ⟨sig, hsig, hlist⟩ := hsig
  unfold MlDsa.verifyRaw
  rw [hsim, if_neg Bool.false_ne_true, hexDecode_hexEncode, zeroKey, hexDecode_hexEncode]
  simp only [Option.bind_eq_bind, Option.bind_some, hpk, hsig, Option.pure_def, Option.getD_some, zeroFirst, hlist,
    List.head?_cons, Option.some_beq_some]

/-- The signature in two parts, the second first and twice. -/
theorem authenticator_correct_two_parts :
    (runCalls zeroFirst (fun c : String => c)
      ((PQCCommandAuthenticator.new zeroKey).setHardwareBindingRequired false)
      ([] ++ .processCommand "arm" :: [.appendSignatureChunk 2 (filler 3308), .appendSignatureChunk 2 (filler 3308),
        .appendSignatureChunk 1 [0]])).getVerifiedCommand = some "arm" := by
  refine (authenticator_correct zeroFirst (fun c : String => c) zeroKey false zeroKey_ne).2 rfl [] _ "arm"
    [(1, [0]), (2, filler 3308)] ?_ ?_ ?_ ?_
  · rw [List.flatMap_cons, List.singleton_append, zeroFirst_verifyRaw _ 0 (by simp), beq_self_eq_true]
  · simp
  · simp [AuthCall.isCommand]
  · intro p
    simp [arrivals, AuthCall.chunk?]
    tauto

/-- Chunks that come after the check do not count: after one in front of the signature, the command is still verified. -/
theorem late_chunk_not_assembled :
    ¬ ∀ (dsa : MlDsa Unit) (debug : String → String) (publicKey : String) (required : Bool),
      publicKey ≠ "WARM-TEST-BYPASS" → ∀ (calls : List (AuthCall String)) (c : String),
        (runCalls dsa debug ((PQCCommandAuthenticator.new publicKey).setHardwareBindingRequired required)
          calls).getVerifiedCommand = some c →
        ∃ before between, calls = before ++ .processCommand c :: between ∧ (∀ call ∈ between, call.isCommand = false) ∧
          dsa.verifyRaw publicKey (debug c) (hexEncode ((assembled (arrivals between)).take 3309)) = true ∧
          (required = true → ∃ report, .setHardwareReport report ∈ between ∧ (verifyReportRaw report).1 = true) := by
  intro h
  have hbefore : (runCalls zeroFirst (fun c : String => c)
      ((PQCCommandAuthenticator.new zeroKey).setHardwareBindingRequired false)
      ([] ++ .processCommand "arm" :: [.appendSignatureChunk 1 (0 :: filler 3308)])).getVerifiedCommand = some "arm" := by
    refine verified_of_parts zeroKey_ne [] ?_ (List.pairwise_singleton _ ((1 : UInt16), 0 :: filler 3308)) ?_ ?_
    · rw [List.flatMap_cons, List.cons_append, zeroFirst_verifyRaw _ 0 (by simp), beq_self_eq_true]
    · simp [AuthCall.isCommand]
    · simp [arrivals, AuthCall.chunk?]
  have hafter : (runCalls zeroFirst (fun c : String => c)
      ((PQCCommandAuthenticator.new zeroKey).setHardwareBindingRequired false)
      (([] ++ .processCommand "arm" :: [.appendSignatureChunk 1 (0 :: filler 3308)]) ++
        [.appendSignatureChunk 0 [9]])).getVerifiedCommand = some "arm" := by
    rw [runCalls_concat]
    exact getVerifiedCommand_late rfl hbefore
  obtain ⟨before, between, hcalls, -, hverifies, -⟩ := h zeroFirst _ zeroKey false zeroKey_ne _ _ hafter
  rw [List.nil_append, List.cons_append, List.singleton_append] at hcalls
  cases before with
  | cons call before =>
      have hmem : AuthCall.processCommand "arm" ∈ before ++ .processCommand "arm" :: between :=
        List.mem_append_right _ List.mem_cons_self
      rw [← (List.cons.inj (hcalls.trans (List.cons_append ..))).2] at hmem
      simp at hmem
  | nil =>
      rw [← (List.cons.inj (hcalls.trans (List.nil_append _))).2] at hverifies
      have hall : assembled (arrivals ([.appendSignatureChunk 1 (0 :: filler 3308),
          .appendSignatureChunk 0 [9]] : List (AuthCall String))) = [((0 : UInt16), [(9 : UInt8)]), (1, 0 :: filler 3308)].flatMap fun entry => entry.2 := by
        refine assembled_of_all ?_ ?_ ?_ <;> simp [arrivals, AuthCall.chunk?]
      rw [hall, List.flatMap_cons, List.singleton_append, List.take_succ_cons, zeroFirst_verifyRaw _ _ (by simp)] at hverifies
      exact absurd hverifies (by decide)

end WarmLogic.Drone.PqcCommand
