/-
# WarmLogic.Kernel.ForensicAudit — the audit log of `kernel/infrastructure/audit.py`, and what its verifier accepts.

A text is a list of characters, the file `audit.jsonl` is one, and it is empty before the first call. The details of an
event are any Python value that `json.dumps` accepts, known by the two texts it makes of it; those of a JSON value are
`Dumped.ofJson`. SHA-256 and HMAC are functions of the texts they encode.

Each event carries a SHA-256 link to the one before and a HMAC under the key of the logger. `verify_chain` recomputes
the links and never looks at the HMAC, so whoever can compute SHA-256 can seal any events of his own
(`verifyChain_of_sealed`): whatever was logged, the verifier accepts a file that is no part of it
(`verification_never_exact`). What was logged with JSON details, untouched, it accepts (`untouched_valid`).
-/
import WarmLogic.Lib.JsonLines

namespace WarmLogic.Kernel.ForensicAudit

open WarmLogic.Lib (Json)
open WarmLogic.Lib.Json

/-! ## Events -/

/-- `AuditEventType`. -/
inductive AuditEventType where
  | systemStart
  | systemStop
  | authSuccess
  | authFailure
  | dataAccess
  | dataModify
  | dataDelete
  | adminAction
  | securityAlert
  | apiCall
  | vetoTriggered
  | configChange

/-- The text of a type. -/
def AuditEventType.value : AuditEventType → String
  | .systemStart => "system_start"
  | .systemStop => "system_stop"
  | .authSuccess => "auth_success"
  | .authFailure => "auth_failure"
  | .dataAccess => "data_access"
  | .dataModify => "data_modify"
  | .dataDelete => "data_delete"
  | .adminAction => "admin_action"
  | .securityAlert => "security_alert"
  | .apiCall => "api_call"
  | .vetoTriggered => "veto_triggered"
  | .configChange => "config_change"

/-- A Python value inside a dict, as `json.dumps` prints it: with `sort_keys=True`, and with `ensure_ascii=False`. -/
structure Dumped where
  sorted : List Char
  unicode : List Char

def Dumped.ofJson (v : Json) : Dumped := ⟨dumpsSorted v, dumpsUnicode v⟩

def Dumped.str (s : List Char) : Dumped := .ofJson (.str s)

/-- A dict with keys that are strings. -/
abbrev EventData := List (List Char × Dumped)

/-- `json.dumps(event_data, sort_keys=True)`. -/
def dumpsSortedDict (d : EventData) : List Char :=
  let sorted := (d.map fun pair => (pair.1, pair.2.sorted)).mergeSort fun a b => leChars a.1 b.1
  '{' :: joined (sorted.map fun pair => quote pair.1 ++ [':', ' '] ++ pair.2) ++ ['}']

/-- `json.dumps(event_data, ensure_ascii=False)`. -/
def dumpsUnicodeDict (d : EventData) : List Char :=
  '{' :: joined (d.map fun pair => (oneLine escapeUnicode).quote pair.1 ++ [':', ' '] ++ pair.2.unicode) ++ ['}']

/-! ## The logger -/

/-- What lies outside: hex SHA-256 of a text, hex HMAC-SHA-256 of a key and a text, and `str` of a list or dict. -/
structure Env where
  sha256 : List Char → List Char
  hmac : List Char → List Char → List Char
  reprContainer : Json → List Char

/-- `ForensicAuditLogger`, with its file. -/
structure ForensicAuditLogger where
  hmacKey : List Char
  counter : Nat
  previousHash : List Char
  /-- `audit.jsonl` -/
  file : List Char

/-- `"GENESIS"` -/
def genesis : List Char := "GENESIS".toList

def keyPreviousHash : List Char := "previous_hash".toList
def keyEventHash : List Char := "event_hash".toList
def keyHmac : List Char := "_hmac".toList

/-- The arguments of a call, with the time it reads. -/
structure LogCall where
  timestamp : List Char
  eventType : AuditEventType
  actor : List Char
  action : List Char
  target : List Char := []
  details : Option Dumped := none
  result : List Char := "success".toList

namespace ForensicAuditLogger

/-- A new logger and an empty file. -/
def new (hmacKey : List Char) : ForensicAuditLogger := ⟨hmacKey, 0, genesis, []⟩

/-- `f"AUD{counter:010d}"` -/
def generateId (counter : Nat) : List Char :=
  "AUD".toList ++ List.replicate (10 - (decimal counter).length) '0' ++ decimal counter

/-- `_compute_hash`. -/
def computeHash (env : Env) (previousHash : List Char) (eventData : EventData) : List Char :=
  (env.sha256 (previousHash ++ ':' :: dumpsSortedDict eventData)).take 32

/-- `_compute_hmac`. -/
def computeHmac (env : Env) (hmacKey data : List Char) : List Char := (env.hmac hmacKey data).take 16

/-- The dict that `log` starts with; `details or {}` is in it. -/
def eventData (l : ForensicAuditLogger) (call : LogCall) : EventData :=
  [("id".toList, .str (generateId (l.counter + 1))), ("timestamp".toList, .str call.timestamp),
    ("event_type".toList, .str call.eventType.value.toList), ("actor".toList, .str call.actor),
    ("action".toList, .str call.action), ("target".toList, .str call.target),
    ("details".toList, call.details.getD (.ofJson (.obj []))), ("result".toList, .str call.result),
    (keyPreviousHash, .str l.previousHash)]

/-- The line `_write_event` appends. -/
def writtenLine (env : Env) (hmacKey : List Char) (eventData : EventData) : List Char :=
  let tag := computeHmac env hmacKey (dumpsUnicodeDict eventData)
  dumpsUnicodeDict (eventData ++ [(keyHmac, .str tag)])

/-- `log`, with the fields of the event it returns. -/
def log (env : Env) (l : ForensicAuditLogger) (call : LogCall) : ForensicAuditLogger × EventData :=
  let data := l.eventData call
  let eventHash := computeHash env l.previousHash data
  let event := data ++ [(keyEventHash, .str eventHash)]
  ({ l with
      counter := l.counter + 1
      previousHash := eventHash
      file := l.file ++ (writtenLine env l.hmacKey event ++ ['\n']) }, event)

/-- A new logger behind a sequence of calls. -/
def logAll (env : Env) (l : ForensicAuditLogger) (calls : List LogCall) : ForensicAuditLogger :=
  calls.foldl (fun l call => (l.log env call).1) l

end ForensicAuditLogger

/-! ## The verifier -/

mutual

/-- `a == b`, of values that `json.loads` returned; a float is known by its literal. -/
def pyEq : Json → Json → Bool
  | .null, .null => true
  | .bool a, .bool b => a == b
  | .bool a, .int n => n == (if a then 1 else 0)
  | .int n, .bool b => n == (if b then 1 else 0)
  | .int m, .int n => m == n
  | .float a, .float b => a == b
  | .str s, .str t => s == t
  | .arr xs, .arr ys => pyEqItems xs ys
  | .obj ps, .obj qs => ps.length == qs.length && pyEqPairs ps qs
  | _, _ => false

def pyEqItems : List Json → List Json → Bool
  | [], [] => true
  | x :: xs, y :: ys => pyEq x y && pyEqItems xs ys
  | _, _ => false

def pyEqPairs : List (List Char × Json) → List (List Char × Json) → Bool
  | [], _ => true
  | (key, value) :: ps, qs =>
      (match getItem qs key with
        | some value' => pyEq value value'
        | none => false) && pyEqPairs ps qs

end

/-- A value inside an f-string. -/
def formatted (env : Env) : Json → List Char
  | .null => "None".toList
  | .bool b => if b then "True".toList else "False".toList
  | .int n => intText n
  | .float literal => literal
  | .str s => s
  | v => env.reprContainer v

inductive InvalidEvent where
  | brokenChain (line : Nat) (id : Json)
  | hashMismatch (line : Nat) (id : Json)
  /-- the text of the exception is left out -/
  | error (line : Nat)

/-- What `verify_chain` returns. -/
structure ChainReport where
  valid : Bool
  totalEvents : Nat
  validEvents : Nat
  invalidEvents : List InvalidEvent

/-- `event.get(key)` -/
def get (event : List (List Char × Json)) (key : List Char) : Json := (getItem event key).getD .null

/-- `event_copy` before its previous hash is set. -/
def withoutSeals (event : List (List Char × Json)) : List (List Char × Json) :=
  event.filter fun pair => pair.1 != keyEventHash && pair.1 != keyHmac

/-- One turn of the loop: what is invalid, whether the event counts as valid, and the next expected hash. -/
def verifyLine (env : Env) (expectedPrev : Json) (number : Nat) (line : List Char) : List InvalidEvent × Bool × Json :=
  match loads line with
  | some (.obj event) =>
      let previousHash := get event keyPreviousHash
      let storedHash := get event keyEventHash
      let eventCopy := setItem (withoutSeals event) keyPreviousHash previousHash
      let computedHash := (env.sha256 (formatted env previousHash ++ ':' :: dumpsSorted (.obj eventCopy))).take 32
      let linked := pyEq previousHash expectedPrev
      let sealed := pyEq storedHash (.str computedHash)
      let id := get event "id".toList
      ((if linked then [] else [.brokenChain number id]) ++ (if sealed then [] else [.hashMismatch number id]), sealed,
        storedHash)
  | _ => ([.error number], false, expectedPrev)

/-- The loop: the valid events, and what is invalid. -/
def verifyLines (env : Env) : Json → Nat → List (List Char) → Nat × List InvalidEvent
  | _, _, [] => (0, [])
  | expectedPrev, number, line :: lines =>
      let (invalid, sealed, next) := verifyLine env expectedPrev number line
      let (count, rest) := verifyLines env next (number + 1) lines
      (count + (if sealed then 1 else 0), invalid ++ rest)

/-- `verify_chain`. -/
def verifyChain (env : Env) (file : List Char) : ChainReport :=
  let lines := readLines file
  let (count, invalid) := verifyLines env (.str genesis) 1 lines
  { valid := invalid.isEmpty
    totalEvents := lines.length
    validEvents := count
    invalidEvents := invalid }

/-! ## Sealed files -/

/-- An event that points to a hash and carries the hash of what it holds; nothing in this depends on the key. -/
structure SealedEvent (env : Env) (prev : List Char) (event : List (List Char × Json)) (hash : List Char) : Prop where
  wf : Wf (.obj event)
  linked : getItem event keyPreviousHash = some (.str prev)
  hashed : getItem event keyEventHash = some (.str hash)
  hash_eq : hash = (env.sha256 (prev ++ ':' :: dumpsSorted (.obj (withoutSeals event)))).take 32

/-- Events that are sealed one behind the other. -/
inductive Sealed (env : Env) : List Char → List (List (List Char × Json)) → Prop where
  | nil (prev : List Char) : Sealed env prev []
  | cons {prev hash : List Char} {event : List (List Char × Json)} {events : List (List (List Char × Json))}
      (first : SealedEvent env prev event hash) (rest : Sealed env hash events) : Sealed env prev (event :: events)

/-- The file of events. -/
def fileOf (events : List (List (List Char × Json))) : List Char :=
  (events.map fun event => dumpsUnicode (.obj event)).flatMap fun line => line ++ ['\n']

/-- An item that is set to what it was. -/
theorem setItem_getItem {d : List (List Char × Json)} {key : List Char} {value : Json} (h : getItem d key = some value) :
    setItem d key value = d := by
  induction d with
  | nil => cases h
  | cons pair d ih =>
    obtain ⟨k, v⟩ := pair
    unfold setItem
    by_cases hk : k = key
    · have hv : v = value := by simpa [getItem, hk] using h
      rw [if_pos hk, hv]
    · have hd : getItem d key = some value := by simpa [getItem, hk] using h
      rw [if_neg hk, ih hd]

/-- Taking the seals off leaves the other items. -/
theorem getItem_withoutSeals (event : List (List Char × Json)) {key : List Char}
    (hkey : (key != keyEventHash && key != keyHmac) = true) : getItem (withoutSeals event) key = getItem event key := by
  unfold getItem withoutSeals
  rw [List.find?_filter]
  congr 2
  funext pair
  by_cases hk : pair.1 = key
  · simp [hk, hkey]
  · simp [hk]

/-- A sealed event passes behind the hash it points to. -/
theorem verifyLine_sealed {env : Env} {prev hash : List Char} {event : List (List Char × Json)}
    (h : SealedEvent env prev event hash) (number : Nat) :
    verifyLine env (.str prev) number (dumpsUnicode (.obj event) ++ ['\n']) = ([], true, .str hash) := by
  have hprev : get event keyPreviousHash = .str prev := by rw [get, h.linked]; rfl
  have hstored : get event keyEventHash = .str hash := by rw [get, h.hashed]; rfl
  have hcopy : setItem (withoutSeals event) keyPreviousHash (.str prev) = withoutSeals event :=
    setItem_getItem ((getItem_withoutSeals event (by decide)).trans h.linked)
  have hself : ∀ s, pyEq (.str s) (.str s) = true := fun s => by simp [pyEq]
  unfold verifyLine
  rw [loads_dumpsUnicode_line h.wf]
  simp only [hprev, hstored, hcopy, formatted, ← h.hash_eq, hself, if_true, List.append_nil]

/-- Sealed events pass, one behind the other. -/
theorem verifyLines_sealed {env : Env} {prev : List Char} {events : List (List (List Char × Json))}
    (h : Sealed env prev events) (number : Nat) :
    verifyLines env (.str prev) number (events.map fun event => dumpsUnicode (.obj event) ++ ['\n']) =
      (events.length, []) := by
  induction h generalizing number with
  | nil prev => rfl
  | cons first rest ih =>
    rw [List.map_cons, verifyLines, verifyLine_sealed first]
    simp only [ih, if_true, List.append_nil, List.length_cons]

/-- They can be written. -/
theorem Sealed.wf {env : Env} {prev : List Char} {events : List (List (List Char × Json))} (h : Sealed env prev events) :
    ∀ event ∈ events, Wf (.obj event) := by
  induction h with
  | nil prev => exact fun event hevent => absurd hevent List.not_mem_nil
  | cons first rest ih => exact List.forall_mem_cons.mpr ⟨first.wf, ih⟩

/-- What `readlines` makes of a file of events. -/
theorem readLines_fileOf {events : List (List (List Char × Json))} (h : ∀ event ∈ events, Wf (.obj event)) :
    readLines (fileOf events) = events.map fun event => dumpsUnicode (.obj event) ++ ['\n'] := by
  unfold fileOf
  rw [readLines_lines, List.map_map]
  · rfl
  · intro line hline
    obtain ⟨event, hevent, rfl⟩ := List.mem_map.mp hline
    exact visible_dumpsUnicode (h event hevent)

/-- **Whatever is sealed is accepted**, whoever sealed it: the verifier asks for no HMAC. -/
theorem verifyChain_of_sealed {env : Env} {events : List (List (List Char × Json))} (h : Sealed env genesis events) :
    verifyChain env (fileOf events) = ⟨true, events.length, events.length, []⟩ := by
  unfold verifyChain
  rw [readLines_fileOf h.wf]
  simp only [verifyLines_sealed h, List.length_map, List.isEmpty_nil]

/-! ## Files that nobody logged -/

/-- An event of one's own, with the link and the hash that the verifier asks for, and without a HMAC. -/
def sealEvent (env : Env) (prev : List Char) (body : List (List Char × Json)) : List (List Char × Json) × List Char :=
  let event := (keyPreviousHash, .str prev) :: body
  let hash := (env.sha256 (prev ++ ':' :: dumpsSorted (.obj event))).take 32
  (event ++ [(keyEventHash, .str hash)], hash)

/-- A chain of one's own. -/
def sealEvents (env : Env) : List Char → List (List (List Char × Json)) → List (List (List Char × Json))
  | _, [] => []
  | prev, body :: bodies => (sealEvent env prev body).1 :: sealEvents env (sealEvent env prev body).2 bodies

/-- A dict without the keys that sealing adds. -/
structure Unsealed (body : List (List Char × Json)) : Prop where
  wf : Wf (.obj body)
  fresh : ∀ key ∈ [keyPreviousHash, keyEventHash, keyHmac], key ∉ body.map (·.1)

/-- A dict without seals has none taken off. -/
theorem withoutSeals_eq_self {d : List (List Char × Json)} (hhash : keyEventHash ∉ d.map (·.1))
    (hmac : keyHmac ∉ d.map (·.1)) : withoutSeals d = d := by
  refine List.filter_eq_self.mpr fun pair hpair => ?_
  have hmem : pair.1 ∈ d.map (·.1) := List.mem_map_of_mem hpair
  have hne : pair.1 ≠ keyEventHash := fun heq => hhash (heq ▸ hmem)
  have hne' : pair.1 ≠ keyHmac := fun heq => hmac (heq ▸ hmem)
  simp [hne, hne']

/-- What is sealed without the key is sealed. -/
theorem sealEvent_sealed (env : Env) (prev : List Char) {body : List (List Char × Json)} (h : Unsealed body) :
    SealedEvent env prev (sealEvent env prev body).1 (sealEvent env prev body).2 := by
  obtain ⟨hprev, hhash, hmac⟩ : keyPreviousHash ∉ body.map (·.1) ∧ keyEventHash ∉ body.map (·.1) ∧
      keyHmac ∉ body.map (·.1) := ⟨h.fresh _ (by simp), h.fresh _ (by simp), h.fresh _ (by simp)⟩
  have hkeys : (body.map (·.1)).Nodup ∧ ∀ pair ∈ body, Wf pair.2 := by
    cases h.wf with
    | obj keys each => exact ⟨keys, each⟩
  have hne : keyPreviousHash ≠ keyEventHash ∧ keyPreviousHash ≠ keyHmac ∧ keyEventHash ≠ keyPreviousHash := by decide
  -- the event without its hash is what was hashed
  have hbody : withoutSeals (sealEvent env prev body).1 = (keyPreviousHash, .str prev) :: body := by
    have hkeep : withoutSeals ((keyPreviousHash, Json.str prev) :: body) = (keyPreviousHash, .str prev) :: body :=
      withoutSeals_eq_self (by simpa [hne.2.2] using hhash) (by simpa [Ne.symm hne.2.1] using hmac)
    show withoutSeals (((keyPreviousHash, Json.str prev) :: body) ++ [_]) = _
    rw [withoutSeals, List.filter_append]
    show withoutSeals _ ++ _ = _
    rw [hkeep]
    simp
  refine ⟨?_, ?_, ?_, by rw [hbody]; rfl⟩
  · refine .obj ?_ ?_
    · have hmap : (sealEvent env prev body).1.map (·.1) = (keyPreviousHash :: body.map (·.1)) ++ [keyEventHash] := by
        simp [sealEvent]
      rw [hmap]
      refine List.nodup_append.mpr ⟨List.nodup_cons.mpr ⟨hprev, hkeys.1⟩, by simp, ?_⟩
      rintro key hkey _ hlast rfl
      rw [List.mem_singleton.mp hlast] at hkey
      rcases List.mem_cons.mp hkey with heq | hkey
      · exact hne.2.2 heq
      · exact hhash hkey
    · intro pair hpair
      rcases List.mem_append.mp hpair with hpair | hpair
      · rcases List.mem_cons.mp hpair with rfl | hpair
        · exact .str _
        · exact hkeys.2 pair hpair
      · rw [List.mem_singleton.mp hpair]
        exact .str _
  · simp [sealEvent, getItem]
  · have hnone : (body.find? fun pair => pair.1 == keyEventHash) = none := by
      refine List.find?_eq_none.mpr fun pair hpair heq => hhash ?_
      exact List.mem_map.mpr ⟨pair, hpair, beq_iff_eq.mp heq⟩
    simp [sealEvent, getItem, hne.1, hnone]

/-- A chain of one's own is sealed. -/
theorem sealEvents_sealed (env : Env) (prev : List Char) {bodies : List (List (List Char × Json))}
    (h : ∀ body ∈ bodies, Unsealed body) : Sealed env prev (sealEvents env prev bodies) := by
  induction bodies generalizing prev with
  | nil => exact .nil prev
  | cons body bodies ih =>
    obtain ⟨hbody, hbodies⟩ := List.forall_mem_cons.mp h
    exact .cons (sealEvent_sealed env prev hbody) (ih _ hbodies)

/-! ## The untouched file -/

/-- A dict of JSON values, as `json.dumps` sees it. -/
def dumpedDict (pairs : List (List Char × Json)) : EventData := pairs.map fun pair => (pair.1, .ofJson pair.2)

/-- `json.dumps` of such a dict, sorted. -/
theorem dumpsSortedDict_dumped (pairs : List (List Char × Json)) :
    dumpsSortedDict (dumpedDict pairs) = dumpsSorted (.obj pairs) := by
  rw [dumpsSorted, dumpsPairs_eq_map, dumpsSortedDict, dumpedDict, List.map_map]
  rfl

/-- And as it is written to the file. -/
theorem dumpsUnicodeDict_dumped (pairs : List (List Char × Json)) :
    dumpsUnicodeDict (dumpedDict pairs) = dumpsUnicode (.obj pairs) := by
  rw [dumpsUnicode_obj, dumpsUnicodeDict, dumpedDict, List.map_map]
  rfl

/-- The dict of a call with JSON details. -/
def jsonEvent (l : ForensicAuditLogger) (call : LogCall) (details : Json) : List (List Char × Json) :=
  [("id".toList, .str (ForensicAuditLogger.generateId (l.counter + 1))), ("timestamp".toList, .str call.timestamp),
    ("event_type".toList, .str call.eventType.value.toList), ("actor".toList, .str call.actor),
    ("action".toList, .str call.action), ("target".toList, .str call.target), ("details".toList, details),
    ("result".toList, .str call.result), (keyPreviousHash, .str l.previousHash)]

/-- The details are a JSON value, if there are any. -/
def LogCall.JsonDetails (call : LogCall) : Prop := ∀ d ∈ call.details, ∃ v, Wf v ∧ d = .ofJson v

/-- **What a call with JSON details appends** is an event sealed behind the last one. -/
theorem log_sealed (env : Env) (l : ForensicAuditLogger) {call : LogCall} (h : call.JsonDetails) :
    ∃ event, SealedEvent env l.previousHash event (l.log env call).1.previousHash ∧
      (l.log env call).1.file = l.file ++ (dumpsUnicode (.obj event) ++ ['\n']) := by
  obtain ⟨v, hv, hdetails⟩ : ∃ v, Wf v ∧ call.details.getD (.ofJson (.obj [])) = .ofJson v := by
    cases hd : call.details with
    | none => exact ⟨.obj [], .obj List.nodup_nil fun pair hpair => absurd hpair List.not_mem_nil, rfl⟩
    | some d => exact h d hd
  have hdata : l.eventData call = dumpedDict (jsonEvent l call v) := by
    rw [ForensicAuditLogger.eventData, hdetails]
    rfl
  have hhash : (l.log env call).1.previousHash =
      (env.sha256 (l.previousHash ++ ':' :: dumpsSorted (.obj (jsonEvent l call v)))).take 32 := by
    show ForensicAuditLogger.computeHash env l.previousHash (l.eventData call) = _
    rw [ForensicAuditLogger.computeHash, hdata, dumpsSortedDict_dumped]
  generalize hnew : (l.log env call).1.previousHash = hash at hhash
  let hashed := jsonEvent l call v ++ [(keyEventHash, Json.str hash)]
  let tag := ForensicAuditLogger.computeHmac env l.hmacKey (dumpsUnicode (.obj hashed))
  have hfile : (l.log env call).1.file =
      l.file ++ (dumpsUnicode (.obj (hashed ++ [(keyHmac, .str tag)])) ++ ['\n']) := by
    have hline : l.eventData call ++ [(keyEventHash, Dumped.str (l.log env call).1.previousHash)] = dumpedDict hashed := by
      rw [hdata, hnew]
      simp [hashed, dumpedDict, Dumped.str]
    show l.file ++ (ForensicAuditLogger.writtenLine env l.hmacKey
      (l.eventData call ++ [(keyEventHash, Dumped.str (l.log env call).1.previousHash)]) ++ ['\n']) = _
    rw [hline, ForensicAuditLogger.writtenLine, dumpsUnicodeDict_dumped, ← dumpsUnicodeDict_dumped (hashed ++ _)]
    simp [dumpedDict, Dumped.str, tag]
  refine ⟨hashed ++ [(keyHmac, .str tag)], ⟨?_, rfl, rfl, ?_⟩, hfile⟩
  · refine .obj ?_ ?_
    · have hkeys : (hashed ++ [(keyHmac, Json.str tag)]).map (·.1) =
          ["id".toList, "timestamp".toList, "event_type".toList, "actor".toList, "action".toList, "target".toList,
            "details".toList, "result".toList, keyPreviousHash, keyEventHash, keyHmac] := rfl
      rw [hkeys]
      decide
    · intro pair hpair
      simp only [hashed, jsonEvent, List.cons_append, List.nil_append, List.mem_cons, List.not_mem_nil, or_false] at hpair
      rcases hpair with rfl | rfl | rfl | rfl | rfl | rfl | rfl | rfl | rfl | rfl | rfl
      all_goals first | exact hv | exact .str _
  · have hbody : withoutSeals (hashed ++ [(keyHmac, .str tag)]) = jsonEvent l call v := rfl
    rw [hbody, hhash]

/-- The file behind calls with JSON details. -/
theorem logAll_sealed (env : Env) (l : ForensicAuditLogger) {calls : List LogCall} (h : ∀ call ∈ calls, call.JsonDetails) :
    ∃ events, Sealed env l.previousHash events ∧ events.length = calls.length ∧
      (l.logAll env calls).file = l.file ++ fileOf events := by
  induction calls generalizing l with
  | nil => exact ⟨[], .nil _, rfl, (List.append_nil _).symm⟩
  | cons call calls ih =>
    obtain ⟨hcall, hcalls⟩ := List.forall_mem_cons.mp h
    obtain ⟨event, hevent, hfile⟩ := log_sealed env l hcall
    obtain ⟨events, hevents, hlength, hrest⟩ := ih (l.log env call).1 hcalls
    refine ⟨event :: events, .cons hevent hevents, congrArg _ hlength, ?_⟩
    show (((l.log env call).1).logAll env calls).file = _
    rw [hrest, hfile, fileOf, fileOf, List.map_cons, List.flatMap_cons, List.append_assoc]

/-- **The untouched log is accepted**, where the details were JSON values. -/
theorem untouched_valid (env : Env) (hmacKey : List Char) {calls : List LogCall} (h : ∀ call ∈ calls, call.JsonDetails) :
    verifyChain env ((ForensicAuditLogger.new hmacKey).logAll env calls).file =
      ⟨true, calls.length, calls.length, []⟩ := by
  obtain ⟨events, hsealed, hlength, hfile⟩ := logAll_sealed env (ForensicAuditLogger.new hmacKey) h
  rw [hfile, ← hlength]
  exact verifyChain_of_sealed hsealed

/-! ## Exactness -/

/-- **A file without new HMACs**: each line whose HMAC is the right one under the key is a line of the log. -/
def NoForgedHmac (env : Env) (hmacKey log file : List Char) : Prop :=
  ∀ line ∈ readLines file, ∀ event, loads line = some (.obj event) →
    getItem event keyHmac = some (.str (ForensicAuditLogger.computeHmac env hmacKey
      (dumpsUnicode (.obj (event.filter fun pair => pair.1 != keyHmac))))) → line ∈ readLines log

/-- **Verification is exact** for a sequence of calls: the log is accepted, and no file is that is not a prefix of it
and has no forged HMAC. -/
def VerificationExact (env : Env) (hmacKey : List Char) (calls : List LogCall) : Prop :=
  let log := ((ForensicAuditLogger.new hmacKey).logAll env calls).file
  (verifyChain env log).valid = true ∧
    ∀ file, NoForgedHmac env hmacKey log file → ¬ file <+: log → (verifyChain env file).valid = false

/-- A log is empty, or starts with an id. -/
theorem logAll_head (env : Env) (l : ForensicAuditLogger) (calls : List LogCall)
    (h : l.file = [] ∨ ['{', '"', 'i'] <+: l.file) :
    (l.logAll env calls).file = [] ∨ ['{', '"', 'i'] <+: (l.logAll env calls).file := by
  induction calls generalizing l with
  | nil => exact h
  | cons call calls ih =>
    refine ih _ (.inr ?_)
    show ['{', '"', 'i'] <+: l.file ++ (_ ++ ['\n'])
    rcases h with hnil | hhead
    · rw [hnil, List.nil_append]
      exact ⟨_, rfl⟩
    · exact hhead.trans (List.prefix_append _ _)

/-- A sealed file without HMACs has none that is forged. -/
theorem noForgedHmac_of_untagged {env : Env} {hmacKey log prev : List Char} {events : List (List (List Char × Json))}
    (h : Sealed env prev events) (huntagged : ∀ event ∈ events, getItem event keyHmac = none) :
    NoForgedHmac env hmacKey log (fileOf events) := by
  intro line hline event hloads htag
  rw [readLines_fileOf h.wf] at hline
  obtain ⟨event', hevent', rfl⟩ := List.mem_map.mp hline
  rw [loads_dumpsUnicode_line (h.wf event' hevent')] at hloads
  obtain rfl : event' = event := by simpa using hloads
  rw [huntagged event' hevent'] at htag
  cases htag

/-- **Verification is exact for no log at all.** Behind any calls, under any key, the verifier accepts one event that
was never logged. The log itself it accepts, where the details were JSON values. The links are plain SHA-256, which
anybody computes, and the HMAC is not asked for. -/
theorem verification_never_exact (env : Env) (hmacKey : List Char) (calls : List LogCall) :
    ¬ VerificationExact env hmacKey calls ∧
      ((∀ call ∈ calls, call.JsonDetails) →
        verifyChain env ((ForensicAuditLogger.new hmacKey).logAll env calls).file =
          ⟨true, calls.length, calls.length, []⟩) := by
  refine ⟨?_, untouched_valid env hmacKey⟩
  rintro ⟨-, hexact⟩
  have hunsealed : ∀ body ∈ [[]], Unsealed body := by
    intro body hbody
    rw [List.mem_singleton.mp hbody]
    exact ⟨.obj List.nodup_nil fun pair hpair => absurd hpair List.not_mem_nil, fun key _ => List.not_mem_nil⟩
  have hsealed : Sealed env genesis (sealEvents env genesis [[]]) := sealEvents_sealed env genesis hunsealed
  have huntagged : ∀ event ∈ sealEvents env genesis [[]], getItem event keyHmac = none := by
    intro event hevent
    rw [List.mem_singleton.mp hevent]
    rfl
  have hprefix : ¬ fileOf (sealEvents env genesis [[]]) <+: ((ForensicAuditLogger.new hmacKey).logAll env calls).file := by
    have hhead : ['{', '"', 'p'] <+: fileOf (sealEvents env genesis [[]]) := ⟨_, rfl⟩
    intro hpre
    rcases logAll_head env (ForensicAuditLogger.new hmacKey) calls (.inl rfl) with hnil | hid
    · rw [hnil] at hpre
      exact absurd (hhead.trans hpre) (by decide)
    · have hlen := List.prefix_of_prefix_length_le (hhead.trans hpre) hid (by decide)
      exact absurd hlen (by decide)
  have hno := hexact _ (noForgedHmac_of_untagged hsealed huntagged) hprefix
  rw [verifyChain_of_sealed hsealed] at hno
  cases hno

/-- Stand-ins for SHA-256 and HMAC on a concrete log. The digest of a text is the text, and its tag is the text behind
the key: no two texts collide, and no one makes a tag who does not have the key. -/
def plainEnv : Env where
  sha256 text := text
  hmac key data := key ++ data
  reprContainer _ := []

/-- Mallory deletes the users. -/
def deletion : LogCall where
  timestamp := "2026-01-01T00:00:00Z".toList
  eventType := .dataDelete
  actor := "mallory".toList
  action := "drop_table".toList
  target := "users".toList

/-- Her call alone, whose details are the empty dict, is accepted as it was logged; other files are accepted as well. -/
theorem verification_never_exact_deletion :
    ¬ VerificationExact plainEnv "secret".toList [deletion] ∧
      verifyChain plainEnv ((ForensicAuditLogger.new "secret".toList).logAll plainEnv [deletion]).file =
        ⟨true, 1, 1, []⟩ := by
  have hexact := verification_never_exact plainEnv "secret".toList [deletion]
  refine ⟨hexact.1, hexact.2 ?_⟩
  intro call hcall d hd
  rw [List.mem_singleton.mp hcall] at hd
  cases hd

/-- What Mallory puts in its place. -/
def innocence : List (List Char × Json) :=
  [("actor".toList, .str "alice".toList), ("action".toList, .str "drop_table".toList)]

/-- **A forged file passes**: the log says that Mallory did it, the file that Alice did. The file was made without the
key, and no collision of the digest has a part in it. -/
theorem forged_file_passes :
    (verifyChain plainEnv (fileOf (sealEvents plainEnv genesis [innocence]))).valid = true ∧
      NoForgedHmac plainEnv "secret".toList ((ForensicAuditLogger.new "secret".toList).logAll plainEnv [deletion]).file
        (fileOf (sealEvents plainEnv genesis [innocence])) ∧
      ¬ fileOf (sealEvents plainEnv genesis [innocence]) <+:
        ((ForensicAuditLogger.new "secret".toList).logAll plainEnv [deletion]).file := by
  have hunsealed : ∀ body ∈ [innocence], Unsealed body := by
    intro body hbody
    rw [List.mem_singleton.mp hbody]
    refine ⟨.obj (by decide) ?_, by decide⟩
    intro pair hpair
    simp only [innocence, List.mem_cons, List.not_mem_nil, or_false] at hpair
    rcases hpair with rfl | rfl <;> exact .str _
  have hsealed : Sealed plainEnv genesis (sealEvents plainEnv genesis [innocence]) :=
    sealEvents_sealed plainEnv genesis hunsealed
  have huntagged : ∀ event ∈ sealEvents plainEnv genesis [innocence], getItem event keyHmac = none := by
    intro event hevent
    rw [List.mem_singleton.mp hevent]
    rfl
  refine ⟨by rw [verifyChain_of_sealed hsealed], noForgedHmac_of_untagged hsealed huntagged, ?_⟩
  intro hpre
  have hhead : ['{', '"', 'p'] <+: fileOf (sealEvents plainEnv genesis [innocence]) := ⟨_, rfl⟩
  have hid : ['{', '"', 'i'] <+: ((ForensicAuditLogger.new "secret".toList).logAll plainEnv [deletion]).file := ⟨_, rfl⟩
  exact absurd (List.prefix_of_prefix_length_le (hhead.trans hpre) hid (by decide)) (by decide)

end WarmLogic.Kernel.ForensicAudit
