/-
# WarmLogic.Kernel.BlobStore — blobs in `kernel/sys/persistence.py`: `put_blob`, `get_blob`, and what reads a stored value.

A blob is stored as the text of its bytes in hex: bare in the Rust key-value store, quoted as JSON in SQLite. One function
reads both back and tries JSON first. A bare hex text may be empty or be the text of a JSON number, and then `get_blob`
takes it for a miss and asks SQLite. `blob_round_trip_iff` says for which bytes the blob comes back.

The rows of SQLite hold what `json.dumps` wrote; a text that is a number, which SQLite turns into one, `json.loads` turns
into one as well.

A hex text has only digits and the letters to `f`, so of all that JSON can begin with it can begin a number only, and
of a number it can have the integer and the exponent, with no sign, no fraction and no `E`. The lemmas on scanning
follow the number pattern of Python through such a text; what they leave is a text of digits, or digits with `e` and
digits (`scanNumber_hex`). Quoted in JSON the same text is a string, and comes back.
-/
import WarmLogic.Crypto.Hex
import WarmLogic.Lib.JsonRoundTrip
import Mathlib.Logic.Function.Basic

namespace WarmLogic.Kernel.BlobStore

open WarmLogic.Lib
open WarmLogic.Federation (hexEncode)
open WarmLogic.Crypto (fromHex fromHex_hexEncode)

/-! ## Python's texts -/

/-- `str.isspace` of one character. -/
def isSpace (c : Char) : Bool :=
  decide (9 ≤ c.toNat ∧ c.toNat ≤ 13) || decide (28 ≤ c.toNat ∧ c.toNat ≤ 32) || decide (8192 ≤ c.toNat ∧ c.toNat ≤ 8202) ||
    [133, 160, 5760, 8232, 8233, 8239, 8287, 12288].contains c.toNat

/-- `str.strip`. -/
def strip (s : List Char) : List Char := ((s.dropWhile isSpace).reverse.dropWhile isSpace).reverse

/-- `json.loads`, which raises on an int of more digits than `sys.get_int_max_str_digits()`, where there is such a limit.
`json.dumps` does not print one, so only a bare int can be too long. -/
def jsonLoads (maxStrDigits : Option Nat) (text : List Char) : Option Json :=
  match Json.loads text with
  | some (.int n) =>
      if maxStrDigits.any fun limit => decide (limit < (text.filter Json.isDigit).length) then none else some (.int n)
  | read => read

/-- `_deserialize_stored_value` of a text; `none` is `None`. -/
def deserializeStoredValue (maxStrDigits : Option Nat) (rawValue : List Char) : Option Json :=
  let text := strip rawValue
  if text = [] then none
  else
    match jsonLoads maxStrDigits text with
    | some .null => none
    | some value => some value
    | none => some (.str rawValue)

/-! ## The store -/

/-- `SovereignStore`: the Rust store, where it is used, and the metadata table of the SQLite connection, where it is open. -/
structure SovereignStore where
  rustStore : Option (String → Option (List Char))
  metadata : Option (String → Option (List Char))

/-- What `put_blob` takes. -/
inductive Blob
  | bytes (value : List UInt8)
  | text (value : List Char)

/-- `value.hex()` of bytes; a text as it is. -/
def Blob.toStore : Blob → List Char
  | .bytes value => (hexEncode value).toList
  | .text value => value

namespace SovereignStore

/-- `put_blob`. -/
def putBlob (s : SovereignStore) (key : String) (value : Blob) : SovereignStore :=
  match s.rustStore with
  | some store => { s with rustStore := some (Function.update store key (some value.toStore)) }
  | none =>
      { s with metadata := s.metadata.map fun rows => Function.update rows key (some (Json.dumpsLine (.str value.toStore))) }

/-- `set_meta` writes to both. -/
def setMeta (s : SovereignStore) (key : String) (value : Json) : SovereignStore where
  rustStore := s.rustStore.map fun store => Function.update store key (some (Json.dumpsLine value))
  metadata := s.metadata.map fun rows => Function.update rows key (some (Json.dumpsLine value))

/-- The bytes of a value that was read: of a text its bytes in hex, or else in UTF-8. -/
def toBytes : Json → Option (List UInt8)
  | .str text => some ((fromHex text).getD (String.ofList text).toUTF8.toList)
  | _ => none

/-- `get_blob`. -/
def getBlob (maxStrDigits : Option Nat) (s : SovereignStore) (key : String) : Option (List UInt8) :=
  let rustVal := (s.rustStore.bind fun store => store key).bind (deserializeStoredValue maxStrDigits)
  let valStr :=
    match rustVal with
    | some (.str text) => some (Json.str text)
    -- a value that is no text counts as a miss
    | _ => (s.metadata.bind fun rows => rows key).bind (deserializeStoredValue maxStrDigits)
  valStr.bind toBytes

end SovereignStore

/-- A write to the store. -/
inductive StoreOp
  | putBlob (key : String) (value : Blob)
  | setMeta (key : String) (value : Json)

/-- The key it is under. -/
def StoreOp.key : StoreOp → String
  | .putBlob key _ => key
  | .setMeta key _ => key

/-- The store after it. -/
def StoreOp.run (s : SovereignStore) : StoreOp → SovereignStore
  | .putBlob key value => s.putBlob key value
  | .setMeta key value => s.setMeta key value

/-- And after several. -/
def runOps (s : SovereignStore) (ops : List StoreOp) : SovereignStore := ops.foldl StoreOp.run s

/-! ## Hex texts that are JSON numbers -/

/-- `0|[1-9][0-9]*`. -/
def IsIntText (s : List Char) : Prop := s = ['0'] ∨ s ≠ [] ∧ s.head? ≠ some '0' ∧ ∀ d ∈ s, Json.isDigit d = true

/-- `e[0-9]+`. -/
def IsExpText (s : List Char) : Prop := ∃ digits, s = 'e' :: digits ∧ digits ≠ [] ∧ ∀ d ∈ digits, Json.isDigit d = true

/-- `json.loads` reads the text as a number: as an int, if it is not too long, or as a float. -/
def ReadAsNumber (maxStrDigits : Option Nat) (s : List Char) : Prop :=
  (IsIntText s ∧ ∀ limit ∈ maxStrDigits, s.length ≤ limit) ∨
    ∃ digits exp, s = digits ++ exp ∧ IsIntText digits ∧ IsExpText exp

/-- A digit that `.hex()` writes. -/
def IsHexDigit (c : Char) : Prop := ∃ n < 16, c = Nat.digitChar n

/-- A hex text has such digits only. -/
theorem isHexDigit_of_mem_hexEncode (bytes : List UInt8) : ∀ c ∈ (hexEncode bytes).toList, IsHexDigit c := by
  intro c h
  rw [hexEncode, String.toList_ofList] at h
  obtain ⟨b, -, hc⟩ := List.mem_flatMap.mp h
  have hlt := b.toNat_lt
  rcases List.mem_cons.mp hc with rfl | hc
  · exact ⟨_, by omega, rfl⟩
  · rw [List.mem_singleton.mp hc]
    exact ⟨_, by omega, rfl⟩

/-- Hex digits are neither white space nor anything that JSON has but in numbers. -/
theorem IsHexDigit.plain {c : Char} (h : IsHexDigit c) : isSpace c = false ∧ Json.isWs c = false ∧
    c ∉ ['"', '{', '[', 'n', 't', 'l', '-', '+', '.', 'E'] := by
  obtain ⟨n, hn, rfl⟩ := h
  have key : ∀ n < 16, isSpace (Nat.digitChar n) = false ∧ Json.isWs (Nat.digitChar n) = false ∧
      Nat.digitChar n ∉ ['"', '{', '[', 'n', 't', 'l', '-', '+', '.', 'E'] := by decide
  exact key n hn

variable {maxStrDigits : Option Nat} {s r digits exp : List Char}

/-- Digits in front are scanned. -/
theorem scanDigits_some (h : Json.scanDigits s = some (digits, r)) : s = digits ++ r ∧ IsIntText digits := by
  unfold Json.scanDigits at h
  split at h
  · exact absurd h.symm (Option.some_ne_none _)
  · next c t =>
    split_ifs at h with hzero hdigit
    · obtain ⟨rfl, rfl⟩ := Prod.mk.inj (Option.some.inj h)
      rw [hzero]
      exact ⟨rfl, .inl rfl⟩
    · obtain ⟨rfl, rfl⟩ := Prod.mk.inj (Option.some.inj h)
      refine ⟨List.takeWhile_append_dropWhile.symm, .inr ⟨?_, ?_, fun d hd => List.mem_takeWhile_imp hd⟩⟩
      · rw [List.takeWhile_cons_of_pos hdigit]
        exact List.cons_ne_nil _ _
      · rw [List.takeWhile_cons_of_pos hdigit]
        exact fun e => hzero (Option.some.inj e)

/-- As many as there are. -/
theorem scanDigits_append (hdigits : IsIntText digits) (hr : ∀ c ∈ r.head?, Json.isDigit c = false) :
    Json.scanDigits (digits ++ r) = some (digits, r) := by
  rcases hdigits with rfl | ⟨hne, hzero, hall⟩
  · rfl
  · obtain ⟨c, t, rfl⟩ := List.exists_cons_of_ne_nil hne
    have hstop : r.takeWhile Json.isDigit = [] ∧ r.dropWhile Json.isDigit = r := by
      cases r with
      | nil => exact ⟨rfl, rfl⟩
      | cons d r =>
          have hd : ¬ Json.isDigit d = true := by
            rw [hr d rfl]
            exact Bool.false_ne_true
          exact ⟨List.takeWhile_cons_of_neg hd, List.dropWhile_cons_of_neg hd⟩
    rw [List.cons_append, Json.scanDigits, if_neg fun e => hzero (congrArg some e), if_pos (hall c List.mem_cons_self),
      ← List.cons_append, List.takeWhile_append_of_pos hall, List.dropWhile_append_of_pos hall, hstop.1, hstop.2,
      List.append_nil]

/-- A hex text has no sign and no fraction. -/
theorem scan_hex (hhex : ∀ c ∈ s, IsHexDigit c) :
    Json.scanInt s = (Json.scanDigits s).map (fun (digits, r) => (false, digits, r)) ∧ Json.scanFrac s = ([], s) ∧
      Json.scanSign s = ([], s) := by
  have hnot (c : Char) (hc : c ∈ ['-', '+', '.']) (t : List Char) : s ≠ c :: t := by
    rintro rfl
    have hplain := (hhex c List.mem_cons_self).plain.2.2
    simp only [List.mem_cons, List.not_mem_nil, or_false] at hc
    rcases hc with rfl | rfl | rfl <;> exact absurd hplain (by decide)
  refine ⟨?_, ?_, ?_⟩
  · unfold Json.scanInt
    split
    · next t => exact absurd rfl (hnot '-' (by decide) t)
    · rfl
  · unfold Json.scanFrac
    split
    · next t => exact absurd rfl (hnot '.' (by decide) t)
    · rfl
  · unfold Json.scanSign
    split
    · next t => exact absurd rfl (hnot '+' (by decide) t)
    · next t => exact absurd rfl (hnot '-' (by decide) t)
    · rfl

/-- The exponent of a hex text. -/
theorem scanExp_hex (hhex : ∀ c ∈ s, IsHexDigit c) (h : Json.scanExp s = (exp, r)) :
    (exp = [] ∧ r = s) ∨ (IsExpText exp ∧ s = exp ++ r) := by
  cases s with
  | nil =>
      obtain ⟨rfl, rfl⟩ := Prod.mk.inj h
      exact .inl ⟨rfl, rfl⟩
  | cons c t =>
      rw [Json.scanExp, (scan_hex fun d hd => hhex d (List.mem_cons_of_mem c hd)).2.2] at h
      split_ifs at h with hexp
      · obtain ⟨rfl, rfl⟩ := Prod.mk.inj h
        obtain ⟨hletter, hsome⟩ := hexp
        have hc : c = 'e' := by
          refine hletter.resolve_right ?_
          rintro rfl
          exact absurd (hhex 'E' List.mem_cons_self).plain.2.2 (by decide)
        refine .inr ⟨⟨t.takeWhile Json.isDigit, by rw [hc]; rfl, hsome, fun d hd => List.mem_takeWhile_imp hd⟩, ?_⟩
        exact congrArg (c :: ·) List.takeWhile_append_dropWhile.symm
      · obtain ⟨rfl, rfl⟩ := Prod.mk.inj h
        exact .inl ⟨rfl, rfl⟩

/-- What the number pattern matches at the head of a hex text. -/
theorem scanNumber_hex (hhex : ∀ c ∈ s, IsHexDigit c) {v : Json} (h : Json.scanNumber s = some (v, r)) :
    ∃ matched, s = matched ++ r ∧ ((IsIntText matched ∧ ∃ n, v = .int n) ∨
      (v = .float matched ∧ ∃ digits exp, matched = digits ++ exp ∧ IsIntText digits ∧ IsExpText exp)) := by
  rw [Json.scanNumber, (scan_hex hhex).1, Option.map_map, Option.map_eq_some_iff] at h
  obtain ⟨⟨digits, tail⟩, hdigits, h⟩ := h
  obtain ⟨rfl, hint⟩ := scanDigits_some hdigits
  have htail : ∀ c ∈ tail, IsHexDigit c := fun c hc => hhex c (List.mem_append_right _ hc)
  cases hexp : Json.scanExp tail with
  | mk exp rest =>
      simp only [Function.comp, (scan_hex htail).2.1, hexp, true_and] at h
      rcases scanExp_hex htail hexp with ⟨rfl, rfl⟩ | ⟨hexpText, rfl⟩
      · obtain ⟨hv, rfl⟩ := Prod.mk.inj h
        exact ⟨digits, rfl, .inl ⟨hint, _, hv.symm⟩⟩
      · obtain ⟨ds, rfl, -⟩ := id hexpText
        obtain ⟨hv, rfl⟩ := Prod.mk.inj h
        refine ⟨digits ++ 'e' :: ds, (List.append_assoc _ _ _).symm, .inr ⟨?_, digits, _, rfl, hint, hexpText⟩⟩
        rw [← hv]
        simp

/-- And it does match these. -/
theorem scanNumber_intText (h : IsIntText s) (hhex : ∀ c ∈ s, IsHexDigit c) :
    Json.scanNumber s = some (.int (Json.ofDecimal s), []) := by
  have hdigits := scanDigits_append (r := []) h (by simp)
  rw [List.append_nil] at hdigits
  rw [Json.scanNumber, (scan_hex hhex).1, hdigits]
  rfl

/-- Of the second kind too. -/
theorem scanNumber_expText (hint : IsIntText digits) (hexp : IsExpText exp) (hhex : ∀ c ∈ digits ++ exp, IsHexDigit c) :
    Json.scanNumber (digits ++ exp) = some (.float (digits ++ exp), []) := by
  have hhexp : ∀ c ∈ exp, IsHexDigit c := fun c hc => hhex c (List.mem_append_right _ hc)
  obtain ⟨ds, rfl, hne, hall⟩ := id hexp
  have hdigits := scanDigits_append (r := 'e' :: ds) hint (by simp; decide)
  have htake : ds.takeWhile Json.isDigit = ds := List.takeWhile_eq_self_iff.mpr hall
  have hdrop : ds.dropWhile Json.isDigit = [] := List.dropWhile_eq_nil_iff.mpr hall
  have hscan : Json.scanExp ('e' :: ds) = ('e' :: ds, []) := by
    rw [Json.scanExp, (scan_hex fun c hc => hhexp c (List.mem_cons_of_mem _ hc)).2.2]
    simp only [htake, hdrop]
    rw [if_pos ⟨.inl trivial, hne⟩]
    rfl
  rw [Json.scanNumber, (scan_hex hhex).1, hdigits]
  simp only [Option.map_some, (scan_hex hhexp).2.1, hscan]
  simp

/-! ## Reading what was stored -/

/-- Nothing is skipped in front. -/
theorem skipWs_hex (hhex : ∀ c ∈ s, IsHexDigit c) : Json.skipWs s = s := by
  cases s with
  | nil => rfl
  | cons c t => exact Json.skipWs_cons (hhex c List.mem_cons_self).plain.2.1 t

/-- Of a hex text, JSON reads numbers only. -/
theorem loads_hex (hhex : ∀ c ∈ s, IsHexDigit c) {v : Json} :
    Json.loads s = some v ↔ Json.scanNumber s = some (v, []) := by
  have hnot (c : Char) (hc : c ∈ ['"', '{', '[', 'n', 't', 'l', '-', '+', '.', 'E']) : c ∉ s :=
    fun hmem => (hhex c hmem).plain.2.2 hc
  unfold Json.loads
  rw [skipWs_hex hhex, Option.bind_eq_some_iff]
  constructor
  · rintro ⟨⟨w, r⟩, honce, hend⟩
    cases Json.scanOnce_succ.mp honce with
    | str _ => exact absurd List.mem_cons_self (hnot '"' (by decide))
    | emptyObj _ => exact absurd List.mem_cons_self (hnot '{' (by decide))
    | obj _ _ => exact absurd List.mem_cons_self (hnot '{' (by decide))
    | emptyArr _ => exact absurd List.mem_cons_self (hnot '[' (by decide))
    | arr _ _ _ => exact absurd List.mem_cons_self (hnot '[' (by decide))
    | null _ => exact absurd List.mem_cons_self (hnot 'n' (by decide))
    | true _ => exact absurd List.mem_cons_self (hnot 't' (by decide))
    | false hliteral =>
        -- no hex text has the second letter of the word
        unfold Json.scanLiteral at hliteral
        split_ifs at hliteral with hword
        exact absurd (List.mem_cons_of_mem _ (hword.subset (by decide))) (hnot 'l' (by decide))
    | number hnumber =>
        obtain ⟨matched, rfl, -⟩ := scanNumber_hex hhex hnumber
        dsimp only at hend
        split_ifs at hend with hrest
        rw [skipWs_hex fun c hc => hhex c (List.mem_append_right _ hc)] at hrest
        rw [hnumber, hrest, ← Option.some.inj hend]
  · intro h
    exact ⟨(v, []), Json.scanOnce_of_number h _, if_pos rfl⟩

/-- **Which hex texts are read as JSON**: those that are numbers, and as numbers. -/
theorem jsonLoads_hex (hhex : ∀ c ∈ s, IsHexDigit c) :
    (ReadAsNumber maxStrDigits s → ∃ v, jsonLoads maxStrDigits s = some v ∧ v.IsNumber) ∧
      (¬ ReadAsNumber maxStrDigits s → jsonLoads maxStrDigits s = none) := by
  have hdigits (h : IsIntText s) : s.filter Json.isDigit = s := by
    rcases h with rfl | ⟨-, -, hall⟩
    · rfl
    · exact List.filter_eq_self.mpr hall
  constructor
  · rintro (⟨hint, hlimit⟩ | ⟨digits, exp, rfl, hint, hexp⟩)
    · refine ⟨.int (Json.ofDecimal s), ?_, trivial⟩
      have hshort : ¬ (maxStrDigits.any fun limit => decide (limit < s.length)) = true := by
        rw [Option.any_eq_true]
        rintro ⟨limit, hsome, hlt⟩
        exact Nat.not_lt.mpr (hlimit limit hsome) (of_decide_eq_true hlt)
      unfold jsonLoads
      rw [(loads_hex hhex).mpr (scanNumber_intText hint hhex)]
      simp only [hdigits hint, if_neg hshort]
    · refine ⟨.float (digits ++ exp), ?_, trivial⟩
      unfold jsonLoads
      rw [(loads_hex hhex).mpr (scanNumber_expText hint hexp hhex)]
  · intro hno
    unfold jsonLoads
    cases hloads : Json.loads s with
    | none => rfl
    | some v =>
        obtain ⟨matched, hmatched, hcases⟩ := scanNumber_hex hhex ((loads_hex hhex).mp hloads)
        rw [List.append_nil] at hmatched
        subst hmatched
        rcases hcases with ⟨hint, n, rfl⟩ | ⟨-, digits, exp, hs, hint, hexp⟩
        · have hlong : (maxStrDigits.any fun limit => decide (limit < s.length)) = true := by
            by_contra hshort
            refine hno (.inl ⟨hint, fun limit hlimit => Nat.not_lt.mp fun hlt => hshort ?_⟩)
            exact (Option.any_eq_true ..).mpr ⟨limit, hlimit, decide_eq_true hlt⟩
          simp only [hdigits hint, if_pos hlong]
        · exact absurd (.inr ⟨digits, exp, hs, hint, hexp⟩) hno

/-- `strip` does nothing to a text without white space at its ends. -/
theorem strip_of_ends (hhead : ∀ c ∈ s.head?, isSpace c = false) (hlast : ∀ c ∈ s.getLast?, isSpace c = false) :
    strip s = s := by
  have hkept {t : List Char} (h : ∀ c ∈ t.head?, isSpace c = false) : t.dropWhile isSpace = t := by
    cases t with
    | nil => rfl
    | cons c t =>
        refine List.dropWhile_cons_of_neg ?_
        rw [h c rfl]
        exact Bool.false_ne_true
  unfold strip
  rw [hkept hhead, hkept (by rwa [List.head?_reverse]), List.reverse_reverse]

variable (maxStrDigits) in
/-- A bare hex text is read back, unless it is empty or a number. -/
theorem deserializeStoredValue_hex (hhex : ∀ c ∈ s, IsHexDigit c) :
    ((s = [] ∨ ReadAsNumber maxStrDigits s) → ∀ text, deserializeStoredValue maxStrDigits s ≠ some (.str text)) ∧
      (¬ (s = [] ∨ ReadAsNumber maxStrDigits s) → deserializeStoredValue maxStrDigits s = some (.str s)) := by
  have hstrip : strip s = s :=
    strip_of_ends (fun c hc => (hhex c (List.mem_of_mem_head? hc)).plain.1)
      fun c hc => (hhex c (List.mem_of_getLast? hc)).plain.1
  unfold deserializeStoredValue
  rw [hstrip]
  dsimp only
  constructor
  · rintro (rfl | hnumber) text
    · exact (Option.some_ne_none _).symm
    · obtain ⟨v, hv, hisNumber⟩ := (jsonLoads_hex hhex).1 hnumber
      rw [hv]
      split_ifs
      · exact (Option.some_ne_none _).symm
      · cases v with
        | int n =>
            intro h
            cases h
        | float literal =>
            intro h
            cases h
        | _ => exact hisNumber.elim
  · intro hno
    obtain ⟨hne, hnot⟩ := not_or.mp hno
    rw [(jsonLoads_hex hhex).2 hnot]
    exact if_neg hne

/-- A quoted text is read back. -/
theorem deserializeStoredValue_quoted (s : List Char) :
    deserializeStoredValue maxStrDigits (Json.dumpsLine (.str s)) = some (.str s) := by
  have htext : Json.dumpsLine (.str s) = '"' :: (s.flatMap Json.escape ++ ['"']) := rfl
  have hstrip : strip (Json.dumpsLine (.str s)) = Json.dumpsLine (.str s) := by
    refine strip_of_ends (fun c hc => ?_) fun c hc => ?_
    · rw [htext, List.head?_cons, Option.mem_some_iff] at hc
      rw [← hc]
      decide
    · rw [htext, ← List.cons_append, List.getLast?_concat, Option.mem_some_iff] at hc
      rw [← hc]
      decide
  have hload : jsonLoads maxStrDigits (Json.dumpsLine (.str s)) = some (.str s) := by
    unfold jsonLoads
    rw [Json.loads_dumpsLine (.str s)]
  unfold deserializeStoredValue
  rw [hstrip]
  dsimp only
  rw [hload, if_neg (htext ▸ List.cons_ne_nil _ _)]

/-- A hex text is read as its bytes. -/
theorem toBytes_hexEncode (bytes : List UInt8) : SovereignStore.toBytes (.str (hexEncode bytes).toList) = some bytes := by
  rw [SovereignStore.toBytes, fromHex_hexEncode, Option.getD_some]

/-! ## Round trips -/

/-- What the Rust store has under a key. -/
def SovereignStore.stored (s : SovereignStore) (key : String) : Option (List Char) :=
  s.rustStore.bind fun store => store key

/-- What the SQLite row under a key has. -/
def SovereignStore.row (s : SovereignStore) (key : String) : Option (List Char) := s.metadata.bind fun rows => rows key

/-- The blob that the SQLite row under a key gives. -/
def SovereignStore.rowBlob (maxStrDigits : Option Nat) (s : SovereignStore) (key : String) : Option (List UInt8) :=
  ((s.row key).bind (deserializeStoredValue maxStrDigits)).bind toBytes

/-- An update of another key leaves what is there. -/
theorem map_update_other {table : Option (String → Option (List Char))} {key key' : String} (h : key' ≠ key)
    (text : List Char) : ((table.map fun rows => Function.update rows key' (some text)).bind fun rows => rows key) =
      table.bind fun rows => rows key := by
  cases table with
  | none => rfl
  | some rows => exact Function.update_of_ne h.symm _ _

/-- A write under another key leaves what is stored under a key. -/
theorem run_other {op : StoreOp} {key : String} (h : op.key ≠ key) (s : SovereignStore) :
    (op.run s).stored key = s.stored key ∧ (op.run s).row key = s.row key := by
  cases op with
  | setMeta key' value => exact ⟨map_update_other h _, map_update_other h _⟩
  | putBlob key' value =>
      rcases s with ⟨_ | store, metadata⟩
      · exact ⟨rfl, map_update_other h _⟩
      · exact ⟨Function.update_of_ne h.symm _ _, rfl⟩

/-- So do writes under other keys. -/
theorem runOps_other {later : List StoreOp} {key : String} (h : ∀ op ∈ later, op.key ≠ key) (s : SovereignStore) :
    (runOps s later).stored key = s.stored key ∧ (runOps s later).row key = s.row key := by
  induction later generalizing s with
  | nil => exact ⟨rfl, rfl⟩
  | cons op later ih =>
      obtain ⟨hop, hlater⟩ := List.forall_mem_cons.mp h
      obtain ⟨hstored, hrow⟩ := ih hlater (op.run s)
      obtain ⟨hstored', hrow'⟩ := run_other hop s
      exact ⟨hstored.trans hstored', hrow.trans hrow'⟩

variable (maxStrDigits) in
/-- `get_blob` looks at what is stored under the key, and if that is no text at the row under the key. -/
theorem getBlob_eq (s : SovereignStore) (key : String) :
    ((∃ text, (s.stored key).bind (deserializeStoredValue maxStrDigits) = some (.str text) ∧
        s.getBlob maxStrDigits key = SovereignStore.toBytes (.str text)) ∨
      (∀ text, (s.stored key).bind (deserializeStoredValue maxStrDigits) ≠ some (.str text)) ∧
        s.getBlob maxStrDigits key = s.rowBlob maxStrDigits key) := by
  unfold SovereignStore.getBlob
  dsimp only
  split
  · next text htext => exact .inl ⟨text, htext, rfl⟩
  · next hno => exact .inr ⟨hno, rfl⟩

/-- An empty hex text is that of no bytes. -/
theorem eq_nil_of_hexEncode {value : List UInt8} (h : (hexEncode value).toList = []) : value = [] := by
  have hback := fromHex_hexEncode value
  rw [h] at hback
  exact (Option.some.inj hback).symm

/-- On the SQLite backend every blob comes back. -/
theorem getBlob_sqlite (rows : String → Option (List Char)) (key : String) (value : List UInt8) {later : List StoreOp}
    (h : ∀ op ∈ later, op.key ≠ key) :
    (runOps (SovereignStore.putBlob ⟨none, some rows⟩ key (.bytes value)) later).getBlob maxStrDigits key = some value := by
  obtain ⟨hstored, hrow⟩ := runOps_other h (SovereignStore.putBlob ⟨none, some rows⟩ key (.bytes value))
  have hnone : (SovereignStore.putBlob ⟨none, some rows⟩ key (.bytes value)).stored key = none := rfl
  have htext : (SovereignStore.putBlob ⟨none, some rows⟩ key (.bytes value)).row key =
      some (Json.dumpsLine (.str (hexEncode value).toList)) := Function.update_self ..
  rcases getBlob_eq maxStrDigits (runOps _ later) key with ⟨text, hsome, -⟩ | ⟨-, hget⟩
  · rw [hstored, hnone] at hsome
    exact absurd hsome.symm (Option.some_ne_none _)
  · rw [hget, SovereignStore.rowBlob, hrow, htext, Option.bind_some, deserializeStoredValue_quoted, Option.bind_some,
      toBytes_hexEncode]

/-- On the Rust backend a blob comes back unless its hex text is empty or a number, and then if the row gives it. -/
theorem getBlob_rust (store : String → Option (List Char)) (metadata : Option (String → Option (List Char))) (key : String)
    (value : List UInt8) {later : List StoreOp} (h : ∀ op ∈ later, op.key ≠ key) :
    (runOps (SovereignStore.putBlob ⟨some store, metadata⟩ key (.bytes value)) later).getBlob maxStrDigits key = some value ↔
      ¬ (value = [] ∨ ReadAsNumber maxStrDigits (hexEncode value).toList) ∨
        SovereignStore.rowBlob maxStrDigits ⟨some store, metadata⟩ key = some value := by
  obtain ⟨hstored, hrow⟩ := runOps_other h (SovereignStore.putBlob ⟨some store, metadata⟩ key (.bytes value))
  have htext : (SovereignStore.putBlob ⟨some store, metadata⟩ key (.bytes value)).stored key =
      some (hexEncode value).toList := Function.update_self ..
  have hread := deserializeStoredValue_hex maxStrDigits (isHexDigit_of_mem_hexEncode value)
  have hempty : value = [] ↔ (hexEncode value).toList = [] := ⟨fun h => by rw [h]; rfl, eq_nil_of_hexEncode⟩
  rw [hempty]
  by_cases hmiss : (hexEncode value).toList = [] ∨ ReadAsNumber maxStrDigits (hexEncode value).toList
  · -- a miss: the row decides
    have hno := hread.1 hmiss
    rcases getBlob_eq maxStrDigits (runOps _ later) key with ⟨text, hsome, -⟩ | ⟨-, hget⟩
    · rw [hstored, htext, Option.bind_some] at hsome
      exact absurd hsome (hno text)
    · have hrow' : SovereignStore.rowBlob maxStrDigits (runOps (SovereignStore.putBlob ⟨some store, metadata⟩ key
          (.bytes value)) later) key = SovereignStore.rowBlob maxStrDigits ⟨some store, metadata⟩ key := by
        rw [SovereignStore.rowBlob, hrow]
        rfl
      rw [hget, hrow']
      exact ⟨.inr, fun h => h.resolve_left (not_not_intro hmiss)⟩
  · have hsome := hread.2 hmiss
    refine iff_of_true ?_ (.inl hmiss)
    rcases getBlob_eq maxStrDigits (runOps _ later) key with ⟨text, htext', hget⟩ | ⟨hno, -⟩
    · rw [hstored, htext, Option.bind_some, hsome] at htext'
      rw [hget, ← Option.some.inj htext', toBytes_hexEncode]
    · rw [hstored, htext, Option.bind_some] at hno
      exact absurd hsome (hno _)

/-- **Which blobs come back.** After `put_blob` of some bytes, and any writes under other keys, `get_blob` returns these
bytes on both backends if and only if their hex text is neither empty nor read as a JSON number, or the row that SQLite had
under the key before gives the bytes as well. -/
theorem blob_round_trip_iff (maxStrDigits : Option Nat) (store rows : String → Option (List Char))
    (metadata : Option (String → Option (List Char))) (key : String) (value : List UInt8) (later later' : List StoreOp)
    (h : ∀ op ∈ later, op.key ≠ key) (h' : ∀ op ∈ later', op.key ≠ key) :
    ((runOps (SovereignStore.putBlob ⟨some store, metadata⟩ key (.bytes value)) later).getBlob maxStrDigits key = some value ∧
      (runOps (SovereignStore.putBlob ⟨none, some rows⟩ key (.bytes value)) later').getBlob maxStrDigits key = some value) ↔
    ¬ (value = [] ∨ ReadAsNumber maxStrDigits (hexEncode value).toList) ∨
      SovereignStore.rowBlob maxStrDigits ⟨some store, metadata⟩ key = some value := by
  rw [getBlob_rust store metadata key value h]
  exact and_iff_left (getBlob_sqlite rows key value h')

/-- Two bytes whose hex text is no number, with a write to another key behind them. -/
theorem blob_round_trip_iff_cafe :
    ((runOps (SovereignStore.putBlob ⟨some fun _ => none, none⟩ "blob" (.bytes [202, 254]))
        [.setMeta "height" (.int 1)]).getBlob (some 4300) "blob" = some [202, 254] ∧
      (runOps (SovereignStore.putBlob ⟨none, some fun _ => none⟩ "blob" (.bytes [202, 254]))
        []).getBlob (some 4300) "blob" = some [202, 254]) := by
  refine (blob_round_trip_iff (some 4300) (fun _ => none) (fun _ => none) none "blob" [202, 254] [.setMeta "height" (.int 1)]
    [] (by simp [StoreOp.key]) (by simp)).mpr (.inl ?_)
  rintro (hempty | hnumber)
  · exact absurd hempty (List.cons_ne_nil _ _)
  · obtain ⟨v, hv, -⟩ := (jsonLoads_hex (isHexDigit_of_mem_hexEncode [202, 254])).1 hnumber
    have hnone : jsonLoads (some 4300) (hexEncode [202, 254]).toList = none := by decide
    exact Option.some_ne_none v (hv.symm.trans hnone)

/-- **Lost blobs**: the two bytes whose hex text is `1234`. -/
theorem numeric_blob_lost :
    ¬ ∀ (maxStrDigits : Option Nat) (store rows : String → Option (List Char))
      (metadata : Option (String → Option (List Char))) (key : String) (value : List UInt8) (later later' : List StoreOp),
      (∀ op ∈ later, op.key ≠ key) → (∀ op ∈ later', op.key ≠ key) →
      (runOps (SovereignStore.putBlob ⟨some store, metadata⟩ key (.bytes value)) later).getBlob maxStrDigits key = some value ∧
        (runOps (SovereignStore.putBlob ⟨none, some rows⟩ key (.bytes value)) later').getBlob maxStrDigits key = some value := by
  intro h
  have hboth := h (some 4300) (fun _ => none) (fun _ => none) (some fun _ => none) "blob" [18, 52] [] []
    (List.forall_mem_nil _) (List.forall_mem_nil _)
  exact absurd hboth.1 (by decide)

end WarmLogic.Kernel.BlobStore
