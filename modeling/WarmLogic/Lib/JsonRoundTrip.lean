/-
# WarmLogic.Lib.JsonRoundTrip — What `json.dumps` prints is read back, and no strict prefix of it is.

The scanner inverts the printer, in every layout: in front of any rest, it reads the printed value and stops where the
rest begins (`Wf.reads`). A strict prefix of a printed dict that parsed would, by stability, be read the same in front of the
missing end, and leave that end unread.

A layout is what `json.dumps` is called with: the separators, the indentation, and whether characters beyond ASCII are
escaped. The proofs never look at one of the three layouts in use, only at what they share: an escaped string is
undone by the scanner, and what stands between two members is a comma or a colon with whitespace around it
(`Layout.Readable`).

The induction is on the value. A number is the one case in which the rest matters, so the statement for every value is
about a rest that does not continue it (`Reads`), and a list hands to each of its members the separator that follows
it. Escapes are undone character by character: the letters of `ESCAPE_DCT` are those of `BACKSLASH`, other control
characters become four hexadecimal digits, and a character beyond the basic plane becomes a pair of surrogates.

That a strict prefix does not parse (`loads_strict_prefix`) is what makes a file that was cut off in the middle of a
write recognisable: every file that this development models as JSON is a dict at the top.
-/
import WarmLogic.Lib.JsonPrint
import WarmLogic.Lib.JsonScan
import Mathlib.Data.List.TakeWhile
import Mathlib.Tactic.IntervalCases

namespace WarmLogic.Lib

namespace Json

/-! ## Values that can be printed -/

/-- A value of Python's: a float is known by a float literal, and the keys of a dict are distinct. Integers and
strings need no condition, since every integer and every string has a text. -/
inductive Wf : Json → Prop where
  | null : Wf .null
  | bool (b : Bool) : Wf (.bool b)
  | int (n : Int) : Wf (.int n)
  | float {t : List Char} (literal : scanNumber t = some (.float t, [])) : Wf (.float t)
  | str (s : List Char) : Wf (.str s)
  | arr {items : List Json} (each : ∀ item ∈ items, Wf item) : Wf (.arr items)
  | obj {pairs : List (List Char × Json)} (keys : (pairs.map (·.1)).Nodup) (each : ∀ pair ∈ pairs, Wf pair.2) :
      Wf (.obj pairs)

/-! ## Decimal digits -/

/-- A digit is a digit. -/
theorem isDigit_digit {n : Nat} (h : n < 10) : isDigit (digit n) = true := by
  interval_cases n <;> decide

/-- Its code. -/
theorem toNat_digit {n : Nat} (h : n < 10) : (digit n).toNat = 48 + n := by
  interval_cases n <;> decide

/-- A number is written in digits. -/
theorem decimal_digits (n : Nat) : ∀ c ∈ decimal n, isDigit c = true := by
  induction n using decimal.induct with
  | case1 n h =>
    rw [decimal, if_pos h]
    simpa using isDigit_digit h
  | case2 n h ih =>
    rw [decimal, if_neg h]
    intro c hc
    rcases List.mem_append.1 hc with hc | hc
    · exact ih c hc
    · rw [List.mem_singleton.1 hc]
      exact isDigit_digit (by omega)

/-- And read back from them. -/
theorem ofDecimal_decimal (n : Nat) : ofDecimal (decimal n) = n := by
  induction n using decimal.induct with
  | case1 n h =>
    rw [decimal, if_pos h]
    simp [ofDecimal, toNat_digit h]
  | case2 n h ih =>
    rw [decimal, if_neg h]
    have hlast : (digit (n % 10)).toNat = 48 + n % 10 := toNat_digit (by omega)
    unfold ofDecimal at ih ⊢
    rw [List.foldl_append, ih]
    simp only [List.foldl_cons, List.foldl_nil, hlast]
    omega

/-- Only the number zero starts with the digit zero. -/
theorem decimal_head (n : Nat) : decimal n = ['0'] ∨ ∃ c t, decimal n = c :: t ∧ c ≠ '0' := by
  induction n using decimal.induct with
  | case1 n h =>
    rw [decimal, if_pos h]
    rcases Nat.eq_zero_or_pos n with rfl | hpos
    · exact .inl rfl
    · refine .inr ⟨digit n, [], rfl, fun hzero => ?_⟩
      have := congrArg Char.toNat hzero
      rw [toNat_digit h] at this
      have : 48 + n = 48 := this
      omega
  | case2 n h ih =>
    rw [decimal, if_neg h]
    rcases ih with hzero | ⟨c, t, hc, hne⟩
    · have := ofDecimal_decimal (n / 10)
      rw [hzero] at this
      have : 0 = n / 10 := this
      omega
    · exact .inr ⟨c, t ++ [digit (n % 10)], by rw [hc]; rfl, hne⟩

/-- Its digits are scanned to the end. -/
theorem scanDigits_decimal (n : Nat) : scanDigits (decimal n) = some (decimal n, []) := by
  rcases decimal_head n with hzero | ⟨c, t, hc, hne⟩
  · rw [hzero]
    rfl
  · have digits := decimal_digits n
    have hd : isDigit c = true := digits c (by rw [hc]; simp)
    rw [hc] at digits ⊢
    have all : (c :: t).takeWhile isDigit = c :: t := List.takeWhile_eq_self_iff.2 digits
    have none : (c :: t).dropWhile isDigit = [] := List.dropWhile_eq_nil_iff.2 digits
    simp only [scanDigits, if_neg hne, if_pos hd, all, none]

/-- An int is scanned with its sign. -/
theorem scanInt_intText (n : Int) : scanInt (intText n) = some (decide (n < 0), decimal n.natAbs, []) := by
  unfold intText
  split
  · next hneg => simp [scanInt, scanDigits_decimal, hneg]
  · next hpos =>
    unfold scanInt
    split
    · next r heq =>
      have := decimal_digits n.natAbs '-' (by rw [heq]; simp)
      exact absurd this (by decide)
    · simp [scanDigits_decimal, hpos]

/-- And read back. -/
theorem scanNumber_intText (n : Int) : scanNumber (intText n) = some (.int n, []) := by
  have hval : (if n < 0 then -(ofDecimal (decimal n.natAbs) : Int) else ofDecimal (decimal n.natAbs)) = n := by
    rw [ofDecimal_decimal]
    split <;> omega
  unfold scanNumber
  rw [scanInt_intText]
  simp [scanFrac, scanExp, hval]

/-! ## Printed strings -/

/-- A hex digit has its value. -/
theorem hexVal_hexDigit {n : Nat} (h : n < 16) : hexVal (hexDigit n) = some n := by
  interval_cases n <;> decide

/-- The four digits of an escape are read back. -/
theorem scanHex4_uEscape {n : Nat} (h : n < 65536) (rest : List Char) :
    scanHex4 ((uEscape n).drop 2 ++ rest) = some (n, rest) := by
  have hval : 4096 * (n / 4096 % 16) + 256 * (n / 256 % 16) + 16 * (n / 16 % 16) + n % 16 = n := by omega
  simp [scanHex4, uEscape, hexVal_hexDigit, Nat.mod_lt, hval]

/-- A character of the basic plane comes back from its escape. -/
theorem scanUnicode_uEscape {c : Char} (h : c.toNat < 65536) (rest : List Char) :
    scanUnicode ((uEscape c.toNat).drop 2 ++ rest) = some (c, rest) := by
  have hvalid : c.toNat < 55296 ∨ 57343 < c.toNat := by
    rcases c.valid with hlow | hhigh
    · exact .inl hlow
    · exact .inr hhigh.1
  have hhigh : ¬ (55296 ≤ c.toNat ∧ c.toNat ≤ 56319) := by omega
  have hlow : ¬ (56320 ≤ c.toNat ∧ c.toNat ≤ 57343) := by omega
  simp [scanUnicode, scanHex4_uEscape h, hhigh, hlow, Char.ofNat_toNat]

/-- Any other from its pair. -/
theorem scanUnicode_pair {c : Char} (h : 65536 ≤ c.toNat) (rest : List Char) :
    scanUnicode ((uEscape (55296 + (c.toNat - 65536) / 1024)).drop 2 ++
      (uEscape (56320 + (c.toNat - 65536) % 1024) ++ rest)) = some (c, rest) := by
  have hmax : c.toNat < 1114112 := by
    rcases c.valid with hlow | hhigh
    · exact Nat.lt_trans hlow (by decide)
    · exact hhigh.2
  obtain ⟨first, hfirst⟩ : ∃ first, 55296 + (c.toNat - 65536) / 1024 = first := ⟨_, rfl⟩
  obtain ⟨second, hsecond⟩ : ∃ second, 56320 + (c.toNat - 65536) % 1024 = second := ⟨_, rfl⟩
  rw [hfirst, hsecond]
  have hval : 65536 + (first - 55296) * 1024 + (second - 56320) = c.toNat := by omega
  have second_split : uEscape second ++ rest = '\\' :: 'u' :: ((uEscape second).drop 2 ++ rest) := rfl
  have in_first : 55296 ≤ first ∧ first ≤ 56319 := by omega
  have in_second : 56320 ≤ second ∧ second ≤ 57343 := by omega
  unfold scanUnicode
  simp only [scanHex4_uEscape (by omega : first < 65536), second_split, Option.bind_eq_bind, Option.bind_some,
    if_pos in_first, scanHex4_uEscape (by omega : second < 65536), if_pos in_second, hval, Char.ofNat_toNat]
  rfl

/-- A printed character stands for itself, or is a backslash and an escape that is read back. -/
def ReadBack (esc : Char → List Char) : Prop :=
  ∀ c, (esc c = [c] ∧ c ≠ '"' ∧ c ≠ '\\' ∧ ¬ c.toNat < 32) ∨
    ∃ e, esc c = '\\' :: e ∧ ∀ rest, scanEscape (e ++ rest) = some (c, rest)

/-- The escapes of `ESCAPE_DCT` are those of `BACKSLASH`. -/
theorem scanEscape_letter {c letter : Char} (h : escapeDct.lookup c = some letter) (rest : List Char) :
    scanEscape ([letter] ++ rest) = some (c, rest) := by
  have hmem : (c, letter) ∈ escapeDct := by
    obtain ⟨l₁, l₂, heq, -⟩ := List.lookup_eq_some_iff.1 h
    simp [heq]
  have hback : letter ≠ 'u' ∧ backslash.lookup letter = some c :=
    (by decide : ∀ p ∈ escapeDct, p.2 ≠ 'u' ∧ backslash.lookup p.2 = some p.1) _ hmem
  simp [scanEscape, hback]

/-- Quotes and backslashes are in `ESCAPE_DCT`. -/
theorem ne_of_lookup_none {c : Char} (h : escapeDct.lookup c = none) : c ≠ '"' ∧ c ≠ '\\' := by
  have hne : ∀ p ∈ escapeDct, c ≠ p.1 := fun p hp => by simpa using List.lookup_eq_none_iff.1 h p hp
  exact ⟨hne ('"', '"') (by simp [escapeDct]), hne ('\\', '\\') (by simp [escapeDct])⟩

/-- `ensure_ascii=True` writes what is read back. -/
theorem readBack_escape : ReadBack escape := by
  intro c
  unfold escape
  cases hdct : escapeDct.lookup c with
  | some letter => exact .inr ⟨[letter], rfl, scanEscape_letter hdct⟩
  | none =>
    have hne := ne_of_lookup_none hdct
    show (ite _ _ _ = [c] ∧ _) ∨ _
    split
    · next hprint => exact .inl ⟨rfl, hne.1, hne.2, by omega⟩
    · right
      simp only
      split
      · next hbmp =>
        refine ⟨'u' :: (uEscape c.toNat).drop 2, rfl, fun rest => ?_⟩
        simpa [scanEscape] using scanUnicode_uEscape hbmp rest
      · next hbmp =>
        refine ⟨'u' :: ((uEscape (55296 + (c.toNat - 65536) / 1024)).drop 2 ++
          uEscape (56320 + (c.toNat - 65536) % 1024)), rfl, fun rest => ?_⟩
        have := scanUnicode_pair (Nat.le_of_not_lt hbmp) rest
        simpa only [List.cons_append, List.append_assoc, scanEscape, if_true] using this

/-- So does `ensure_ascii=False`. -/
theorem readBack_escapeUnicode : ReadBack escapeUnicode := by
  intro c
  unfold escapeUnicode
  cases hdct : escapeDct.lookup c with
  | some letter => exact .inr ⟨[letter], rfl, scanEscape_letter hdct⟩
  | none =>
    have hne := ne_of_lookup_none hdct
    show (ite _ _ _ = [c] ∧ _) ∨ _
    split
    · next hcontrol =>
      right
      refine ⟨'u' :: (uEscape c.toNat).drop 2, rfl, fun rest => ?_⟩
      simpa [scanEscape] using scanUnicode_uEscape (Nat.lt_trans hcontrol (by decide)) rest
    · next hprint => exact .inl ⟨rfl, hne.1, hne.2, hprint⟩

section Strings

variable {esc : Char → List Char} (hesc : ReadBack esc)
include hesc

/-- One character of a string. -/
theorem scanString_esc (n : Nat) (c : Char) (rest : List Char) :
    scanString (n + 1) (esc c ++ rest) = (scanString n rest).map fun p => (c :: p.1, p.2) := by
  rcases hesc c with ⟨he, hquote, hback, hprint⟩ | ⟨e, he, hscan⟩
  · rw [he]
    simp only [List.cons_append, List.nil_append, scanString, if_neg hquote, if_neg hback, if_neg hprint]
    cases scanString n rest <;> rfl
  · rw [he]
    have hback : ('\\' : Char) ≠ '"' := by decide
    simp only [List.cons_append, scanString, if_neg hback, if_true, hscan]
    show (scanString n rest).bind _ = _
    cases scanString n rest <;> rfl

/-- A printed string is read up to its closing quote. -/
theorem scanString_flatMap (s rest : List Char) (n : Nat) (h : s.length < n) :
    scanString n (s.flatMap esc ++ '"' :: rest) = some (s, rest) := by
  induction s generalizing n with
  | nil =>
    obtain ⟨n, rfl⟩ := Nat.exists_eq_add_one_of_ne_zero (Nat.ne_of_gt h)
    rfl
  | cons c s ih =>
    obtain ⟨n, rfl⟩ := Nat.exists_eq_add_one_of_ne_zero (Nat.ne_of_gt (Nat.lt_of_le_of_lt (Nat.zero_le _) h))
    rw [List.flatMap_cons, List.append_assoc, scanString_esc hesc, ih n (by simpa using h)]
    rfl

/-- A written string is no shorter. -/
theorem length_le_flatMap (s : List Char) : s.length ≤ (s.flatMap esc).length := by
  induction s with
  | nil => simp
  | cons c s ih =>
    have hc : 1 ≤ (esc c).length := by
      rcases hesc c with ⟨he, -⟩ | ⟨e, he, -⟩ <;> simp [he]
    rw [List.flatMap_cons, List.length_append, List.length_cons]
    omega

/-- The length of the text is rounds enough. -/
theorem scanString_quoted (s rest : List Char) :
    scanString (s.flatMap esc ++ '"' :: rest).length (s.flatMap esc ++ '"' :: rest) = some (s, rest) := by
  apply scanString_flatMap hesc
  have := length_le_flatMap hesc s
  rw [List.length_append, List.length_cons]
  omega

end Strings

/-! ## The scanner inverts the printer -/

/-- White space is skipped. -/
theorem skipWs_ws {ws : List Char} (h : ∀ c ∈ ws, isWs c = true) (s : List Char) : skipWs (ws ++ s) = skipWs s :=
  List.dropWhile_append_of_pos h

/-- A new key goes to the end. -/
theorem setItem_fresh {d : List (List Char × Json)} {key : List Char} (h : key ∉ d.map (·.1)) (value : Json) :
    setItem d key value = d ++ [(key, value)] := by
  induction d with
  | nil => rfl
  | cons pair d ih =>
    simp only [List.map_cons, List.mem_cons, not_or] at h
    rw [setItem, if_neg (Ne.symm h.1), ih h.2]
    rfl

/-- `dict(pairs)` keeps pairs of distinct keys. -/
theorem ofPairs_nodup {pairs : List (List Char × Json)} (h : (pairs.map (·.1)).Nodup) : ofPairs pairs = pairs := by
  have onto : ∀ (d : List (List Char × Json)), ((d ++ pairs).map (·.1)).Nodup →
      pairs.foldl (fun d pair => setItem d pair.1 pair.2) d = d ++ pairs := by
    clear h
    induction pairs with
    | nil => simp
    | cons pair pairs ih =>
      intro d hd
      have hfresh : pair.1 ∉ d.map (·.1) := by
        rw [List.map_append, List.map_cons, List.nodup_append] at hd
        intro hmem
        exact hd.2.2 _ hmem _ (by simp) rfl
      rw [List.foldl_cons, setItem_fresh hfresh, ih _ (by simpa using hd)]
      simp
  exact onto [] h

/-- A layout that the scanner reads: its escapes are undone, and its separators are whitespace around a comma or a
colon. All three layouts of the code are readable. -/
structure Layout.Readable (L : Layout) : Prop where
  esc : ReadBack L.esc
  lead : ∀ level, ∀ c ∈ L.lead level, isWs c = true
  next : ∀ level, ∀ c ∈ L.next level, isWs c = true
  close : ∀ level, ∀ c ∈ L.close level, isWs c = true

/-- An indented line break is white space. -/
theorem isWs_newline (level : Nat) : ∀ c ∈ newline level, isWs c = true := by
  intro c hc
  rcases List.mem_cons.1 hc with rfl | hc
  · rfl
  · rw [List.eq_of_mem_replicate hc]
    rfl

/-- The indented layout can be read. -/
theorem readable_indented : indented.Readable :=
  ⟨readBack_escape, fun level => isWs_newline (level + 1), fun level => isWs_newline (level + 1), isWs_newline⟩

/-- So can that of one line. -/
theorem readable_oneLine {esc : Char → List Char} (h : ReadBack esc) : (oneLine esc).Readable :=
  ⟨h, fun _ c hc => absurd hc List.not_mem_nil, fun _ c hc => by rw [List.mem_singleton.1 hc]; rfl,
    fun _ c hc => absurd hc List.not_mem_nil⟩

/-- Whitespace continues no number. -/
theorem endsNumber_cons_ws {w : Char} (hw : isWs w = true) (s : List Char) : EndsNumber (w :: s) := by
  simp only [isWs, Bool.or_eq_true, beq_iff_eq] at hw
  rcases hw with ((rfl | rfl) | rfl) | rfl <;> simp [EndsNumber, isDigit]

/-- White space and a closing character end a number. -/
theorem endsNumber_ws {ws : List Char} (h : ∀ c ∈ ws, isWs c = true) {c : Char}
    (hc : isDigit c = false ∧ c ≠ '.' ∧ c ≠ 'e' ∧ c ≠ 'E') (s : List Char) : EndsNumber (ws ++ c :: s) := by
  cases ws with
  | nil => simpa [EndsNumber] using hc
  | cons w ws => exact endsNumber_cons_ws (h w List.mem_cons_self) _

/-- A number begins with no white space. -/
theorem not_isWs_of_number {c : Char} (h : c = '-' ∨ isDigit c = true) : isWs c = false ∧ c ≠ ']' := by
  refine ⟨Bool.eq_false_iff.2 fun hws => ?_, ?_⟩
  · simp only [isWs, Bool.or_eq_true, beq_iff_eq] at hws
    rcases hws with ((rfl | rfl) | rfl) | rfl <;> exact absurd h (by decide)
  · rintro rfl
    exact absurd h (by decide)

section Printed

variable {L : Layout} (hL : L.Readable)

/-- The scanner reads what the printer made of a value, in front of any rest that does not continue it. The rounds are
a lower bound, not a count, so that the members of one list can share them. -/
def Reads (L : Layout) (v : Json) : Prop :=
  ∀ (level n : Nat) (rest : List Char), (L.print level v).length ≤ n → (v.IsNumber → EndsNumber rest) →
    scanOnce n (L.print level v ++ rest) = some (v, rest)

/-- What is printed starts with no whitespace, and not with a closing bracket. -/
theorem print_head (L : Layout) {v : Json} (h : Wf v) (level : Nat) :
    ∃ c t, L.print level v = c :: t ∧ isWs c = false ∧ c ≠ ']' := by
  have number : ∀ {t r : List Char} {u : Json}, scanNumber t = some (u, r) →
      ∃ c t', t = c :: t' ∧ isWs c = false ∧ c ≠ ']' := by
    intro t r u ht
    obtain ⟨c, t', rfl, hc⟩ := scanNumber_head ht
    exact ⟨c, t', rfl, not_isWs_of_number hc⟩
  cases h with
  | null => exact ⟨_, _, by rw [Layout.print], by decide, by decide⟩
  | bool b => cases b <;> exact ⟨_, _, by rw [Layout.print], by decide, by decide⟩
  | int n =>
    rw [Layout.print]
    exact number (scanNumber_intText n)
  | float literal =>
    rw [Layout.print]
    exact number literal
  | str s => exact ⟨'"', s.flatMap L.esc ++ ['"'], by rw [Layout.print]; rfl, by decide, by decide⟩
  | @arr items each =>
    cases items with
    | nil => exact ⟨'[', [']'], by rw [Layout.print], by decide, by decide⟩
    | cons item items => exact ⟨'[', _, by rw [Layout.print]; rfl, by decide, by decide⟩
  | @obj pairs keys each =>
    cases pairs with
    | nil => exact ⟨'{', ['}'], by rw [Layout.print], by decide, by decide⟩
    | cons pair pairs => exact ⟨'{', _, by rw [Layout.print]; rfl, by decide, by decide⟩

/-- Nor does any printed value. -/
theorem skipWs_print (L : Layout) {v : Json} (h : Wf v) (level : Nat) (rest : List Char) :
    skipWs (L.print level v ++ rest) = L.print level v ++ rest := by
  obtain ⟨c, t, ht, hws, -⟩ := print_head L h level
  rw [ht, List.cons_append]
  exact skipWs_cons hws _

/-- A number that is printed is read. -/
theorem reads_number {v : Json} {t : List Char} (ht : ∀ level, L.print level v = t)
    (h : scanNumber t = some (v, [])) : Reads L v := by
  intro level n rest hn hrest
  rw [ht] at hn ⊢
  obtain ⟨c, t', hcons, -⟩ := scanNumber_head h
  obtain ⟨n, rfl⟩ : ∃ k, n = k + 1 := ⟨n - 1, by rw [hcons, List.length_cons] at hn; omega⟩
  exact scanOnce_of_number (scanNumber_append h (hrest (scanNumber_isNumber h))) n

include hL

/-- What follows an item ends a number. -/
theorem endsNumber_printItems (level : Nat) (items : List Json) (rest : List Char) :
    EndsNumber (L.printItems level items ++ rest) := by
  cases items with
  | nil =>
    rw [Layout.printItems, List.append_assoc]
    exact endsNumber_ws (hL.close level) (by decide) rest
  | cons item items => simp [Layout.printItems, EndsNumber, isDigit]

/-- So does what follows a pair. -/
theorem endsNumber_printPairs (level : Nat) (pairs : List (List Char × Json)) (rest : List Char) :
    EndsNumber (L.printPairs level pairs ++ rest) := by
  cases pairs with
  | nil =>
    rw [Layout.printPairs, List.append_assoc]
    exact endsNumber_ws (hL.close level) (by decide) rest
  | cons pair pairs =>
    obtain ⟨key, value⟩ := pair
    simp [Layout.printPairs, EndsNumber, isDigit]

/-- **A string is read back.** -/
theorem reads_str (s : List Char) : Reads L (.str s) := by
  intro level n rest hn _
  rw [Layout.print] at hn ⊢
  obtain ⟨n, rfl⟩ : ∃ k, n = k + 1 := ⟨n - 1, by simp [Layout.quote] at hn; omega⟩
  have htext : L.quote s ++ rest = '"' :: (s.flatMap L.esc ++ '"' :: rest) := by simp [Layout.quote]
  rw [htext]
  exact scanOnce_succ.2 (.str (scanString_quoted hL.esc s rest))

/-- The items of an array are read back, if each is. -/
theorem scanItems_printItems {item : Json} {items : List Json} (each : ∀ v ∈ item :: items, Wf v ∧ Reads L v)
    (level n : Nat) (rest : List Char) (hn : (L.print (level + 1) item ++ L.printItems level items).length ≤ n) :
    scanItems n (L.print (level + 1) item ++ (L.printItems level items ++ rest)) = some (item :: items, rest) := by
  induction items generalizing item n with
  | nil =>
    rw [List.length_append, Layout.printItems, List.length_append, List.length_singleton] at hn
    obtain ⟨n, rfl⟩ : ∃ k, n = k + 1 := ⟨n - 1, by omega⟩
    have hitem := (each item (by simp)).2 (level + 1) n (L.printItems level [] ++ rest) (by omega)
      fun _ => endsNumber_printItems hL level [] rest
    have hskip : skipWs (L.printItems level [] ++ rest) = ']' :: rest := by
      rw [Layout.printItems, List.append_assoc, skipWs_ws (hL.close level)]
      rfl
    exact scanItems_succ.2 ⟨item, _, hitem, .inl ⟨hskip, rfl⟩⟩
  | cons next items ih =>
    rw [List.length_append, Layout.printItems] at hn
    simp only [List.length_append, List.length_cons] at hn
    obtain ⟨n, rfl⟩ : ∃ k, n = k + 1 := ⟨n - 1, by omega⟩
    have hitem := (each item (by simp)).2 (level + 1) n (L.printItems level (next :: items) ++ rest) (by omega)
      fun _ => endsNumber_printItems hL level (next :: items) rest
    have hnext := ih (fun v hv => each v (List.mem_cons_of_mem _ hv)) n (by rw [List.length_append]; omega)
    have hsplit : L.printItems level (next :: items) ++ rest =
        ',' :: (L.next level ++ (L.print (level + 1) next ++ (L.printItems level items ++ rest))) := by
      rw [Layout.printItems]
      simp only [List.cons_append, List.append_assoc]
    have hskip := (congrArg skipWs hsplit).trans (skipWs_cons (by decide) _)
    refine scanItems_succ.2 ⟨item, _, hitem, .inr ⟨_, next :: items, hskip, ?_, rfl⟩⟩
    rw [skipWs_ws (hL.next level), skipWs_print L (each next (by simp)).1]
    exact hnext

/-- **An array is read back**, if its items are. -/
theorem reads_arr {items : List Json} (each : ∀ v ∈ items, Wf v ∧ Reads L v) : Reads L (.arr items) := by
  intro level n rest hn _
  cases items with
  | nil =>
    rw [Layout.print] at hn ⊢
    obtain ⟨n, rfl⟩ : ∃ k, n = k + 1 := ⟨n - 1, by simp at hn; omega⟩
    exact scanOnce_succ.2 (.emptyArr rfl)
  | cons item items =>
    rw [Layout.print] at hn ⊢
    simp only [List.cons_append, List.append_assoc, List.length_cons, List.length_append] at hn ⊢
    obtain ⟨n, rfl⟩ : ∃ k, n = k + 1 := ⟨n - 1, by omega⟩
    have hitems := scanItems_printItems hL each level n rest (by rw [List.length_append]; omega)
    obtain ⟨c, t, ht, hws, hc⟩ := print_head L (each item (by simp)).1 (level + 1)
    rw [ht, List.cons_append] at hitems ⊢
    exact scanOnce_succ.2 (.arr (by rw [skipWs_ws (hL.lead level), skipWs_cons hws]) hc hitems)

/-- The pairs of an object are read back, if each value is. -/
theorem scanPairs_printPairs {key : List Char} {value : Json} {pairs : List (List Char × Json)}
    (each : ∀ pair ∈ (key, value) :: pairs, Wf pair.2 ∧ Reads L pair.2) (level n : Nat) (rest : List Char)
    (hn : (L.print (level + 1) value ++ L.printPairs level pairs).length ≤ n) :
    scanPairs n (key.flatMap L.esc ++
        '"' :: ':' :: ' ' :: (L.print (level + 1) value ++ (L.printPairs level pairs ++ rest))) =
      some ((key, value) :: pairs, rest) := by
  induction pairs generalizing key value n with
  | nil =>
    rw [List.length_append, Layout.printPairs, List.length_append, List.length_singleton] at hn
    obtain ⟨n, rfl⟩ : ∃ k, n = k + 1 := ⟨n - 1, by omega⟩
    obtain ⟨hwf, hreads⟩ : Wf value ∧ Reads L value := each (key, value) (by simp)
    have hvalue := hreads (level + 1) n (L.printPairs level [] ++ rest) (by omega)
      fun _ => endsNumber_printPairs hL level [] rest
    have hspace := skipWs_print L hwf (level + 1) (L.printPairs level [] ++ rest)
    have hskip : skipWs (L.printPairs level [] ++ rest) = '}' :: rest := by
      rw [Layout.printPairs, List.append_assoc, skipWs_ws (hL.close level)]
      rfl
    rw [← hspace] at hvalue
    exact scanPairs_succ.2 ⟨key, _, _, value, _, scanString_quoted hL.esc key _, skipWs_cons (by decide) _, hvalue,
      .inl ⟨hskip, rfl⟩⟩
  | cons next pairs ih =>
    obtain ⟨key', value'⟩ := next
    rw [List.length_append, Layout.printPairs] at hn
    simp only [List.length_append, List.length_cons] at hn
    obtain ⟨n, rfl⟩ : ∃ k, n = k + 1 := ⟨n - 1, by omega⟩
    obtain ⟨hwf, hreads⟩ : Wf value ∧ Reads L value := each (key, value) (by simp)
    have hvalue := hreads (level + 1) n (L.printPairs level ((key', value') :: pairs) ++ rest) (by omega)
      fun _ => endsNumber_printPairs hL level _ rest
    have hspace := skipWs_print L hwf (level + 1) (L.printPairs level ((key', value') :: pairs) ++ rest)
    have hnext := ih (fun pair hp => each pair (List.mem_cons_of_mem _ hp)) n (by rw [List.length_append]; omega)
    have hsplit : L.printPairs level ((key', value') :: pairs) ++ rest = ',' :: (L.next level ++
        ('"' :: (key'.flatMap L.esc ++
          '"' :: ':' :: ' ' :: (L.print (level + 1) value' ++ (L.printPairs level pairs ++ rest))))) := by
      rw [Layout.printPairs, Layout.quote]
      simp only [List.cons_append, List.append_assoc, List.nil_append]
    rw [← hspace] at hvalue
    have hskip := (congrArg skipWs hsplit).trans (skipWs_cons (by decide) _)
    refine scanPairs_succ.2 ⟨key, _, _, value, _, scanString_quoted hL.esc key _, skipWs_cons (by decide) _, hvalue,
      .inr ⟨_, _, (key', value') :: pairs, hskip, ?_, hnext, rfl⟩⟩
    rw [skipWs_ws (hL.next level)]
    exact skipWs_cons (by decide) _

/-- **An object is read back**, if its keys are distinct and its values are. -/
theorem reads_obj {pairs : List (List Char × Json)} (keys : (pairs.map (·.1)).Nodup)
    (each : ∀ pair ∈ pairs, Wf pair.2 ∧ Reads L pair.2) : Reads L (.obj pairs) := by
  intro level n rest hn _
  rcases pairs with _ | ⟨⟨key, value⟩, pairs⟩
  · rw [Layout.print] at hn ⊢
    obtain ⟨n, rfl⟩ : ∃ k, n = k + 1 := ⟨n - 1, by simp at hn; omega⟩
    exact scanOnce_succ.2 (.emptyObj rfl)
  · rw [Layout.print, Layout.quote] at hn ⊢
    simp only [List.cons_append, List.append_assoc, List.nil_append, List.length_cons, List.length_append] at hn ⊢
    obtain ⟨n, rfl⟩ : ∃ k, n = k + 1 := ⟨n - 1, by omega⟩
    have hpairs := scanPairs_printPairs hL each level n rest (by rw [List.length_append]; omega)
    have hskip := (skipWs_ws (hL.lead level) _).trans (skipWs_cons (by decide : isWs '"' = false)
      (key.flatMap L.esc ++ '"' :: ':' :: ' ' :: (L.print (level + 1) value ++ (L.printPairs level pairs ++ rest))))
    have hobj := scanOnce_succ.2 (.obj hskip hpairs)
    rwa [ofPairs_nodup keys] at hobj

/-- **The scanner reads every printed value**, in any layout and in front of any rest. -/
theorem Wf.reads {v : Json} (h : Wf v) : Reads L v := by
  induction h with
  | null =>
    intro level n rest hn _
    rw [Layout.print] at hn ⊢
    obtain ⟨n, rfl⟩ : ∃ k, n = k + 1 := ⟨n - 1, by simp at hn; omega⟩
    simp [scanOnce, scanLiteral]
  | bool b =>
    intro level n rest hn _
    cases b <;>
    · rw [Layout.print] at hn ⊢
      obtain ⟨n, rfl⟩ : ∃ k, n = k + 1 := ⟨n - 1, by simp at hn; omega⟩
      simp [scanOnce, scanLiteral]
  | int n => exact reads_number (fun level => by rw [Layout.print]) (scanNumber_intText n)
  | float literal => exact reads_number (fun level => by rw [Layout.print]) literal
  | str s => exact reads_str hL s
  | arr each ih => exact reads_arr hL fun v hv => ⟨each v hv, ih v hv⟩
  | obj keys each ih => exact reads_obj hL keys fun pair hp => ⟨each pair hp, ih pair hp⟩

/-- **What a layout prints is read back**, with whitespace behind it or without. -/
theorem loads_print_ws {v : Json} (h : Wf v) {ws : List Char} (hws : ∀ c ∈ ws, isWs c = true) :
    loads (L.print 0 v ++ ws) = some v := by
  have hends : EndsNumber ws := by
    cases ws with
    | nil => exact EndsNumber.nil
    | cons w ws => exact endsNumber_cons_ws (hws w List.mem_cons_self) ws
  have hlen : (L.print 0 v).length ≤ (L.print 0 v ++ ws).length + 1 := by
    rw [List.length_append]
    omega
  have hread := h.reads hL 0 _ ws hlen fun _ => hends
  have hend : skipWs ws = [] := List.dropWhile_eq_nil_iff.mpr hws
  unfold loads
  rw [skipWs_print L h 0 ws, hread, Option.bind_some]
  exact if_pos hend

/-- What was printed loads, in any layout that can be read. -/
theorem loads_print {v : Json} (h : Wf v) : loads (L.print 0 v) = some v := by
  have hloads := loads_print_ws hL h (fun c (hc : c ∈ []) => absurd hc List.not_mem_nil)
  rwa [List.append_nil] at hloads

end Printed

/-- `dumps` is the indented layout. -/
theorem dumps_eq_print (v : Json) : dumps v = indented.print 0 v := text_eq_print 0 v

/-- `json.loads(json.dumps(v, indent=2))` is `v`. -/
theorem loads_dumps {v : Json} (h : Wf v) : loads (dumps v) = some v := by
  rw [dumps_eq_print]
  exact loads_print readable_indented h

/-- `json.loads(json.dumps(v))` is `v`. -/
theorem loads_dumpsLine {v : Json} (h : Wf v) : loads (dumpsLine v) = some v :=
  loads_print (readable_oneLine readBack_escape) h

/-- **No strict prefix of a printed dict parses.** -/
theorem loads_strict_prefix {pairs : List (List Char × Json)} (h : Wf (.obj pairs)) {p : List Char}
    (hp : p <+: dumps (.obj pairs)) (hne : p ≠ dumps (.obj pairs)) : loads p = none := by
  by_contra hsome
  obtain ⟨v, hv⟩ := Option.ne_none_iff_exists'.1 hsome
  obtain ⟨q, hq⟩ := hp
  unfold loads at hv
  obtain ⟨⟨u, r⟩, hscan, -⟩ := Option.bind_eq_some_iff.1 hv
  -- what parses starts like the whole text, with a brace
  obtain ⟨t, ht⟩ : ∃ t, dumps (.obj pairs) = '{' :: t := by
    unfold dumps
    cases pairs with
    | nil => exact ⟨_, by rw [text]⟩
    | cons pair pairs => exact ⟨_, by rw [text]; rfl⟩
  cases p with
  | nil =>
    rw [show skipWs [] = [] from rfl, scanOnce_nil] at hscan
    cases hscan
  | cons c p =>
    obtain rfl : c = '{' := by
      rw [ht] at hq
      exact (List.cons.inj hq).1
    rw [skipWs_cons (by decide)] at hscan
    have hnum : ¬ u.IsNumber := by
      cases scanOnce_succ.1 hscan with
      | emptyObj h => exact id
      | obj h hps => exact id
      | number h =>
        obtain ⟨c, t, hcons, hc⟩ := scanNumber_head h
        cases hcons
        exact absurd hc (by decide)
    -- by stability it would leave the missing end unread, but the scanner reads the whole text
    have hlong := (stable _).once hscan (Nat.le_add_right _ q.length) q fun hu => absurd hu hnum
    rw [hq] at hlong
    have hlen : (indented.print 0 (.obj pairs)).length ≤ ('{' :: p).length + 1 + q.length := by
      rw [← dumps_eq_print, ← hq, List.length_append]
      omega
    have hread := h.reads readable_indented 0 _ [] hlen fun _ => EndsNumber.nil
    rw [List.append_nil, ← dumps_eq_print, hlong] at hread
    have hnil : r ++ q = [] := (Prod.mk.inj (Option.some.inj hread)).2
    rw [(List.append_eq_nil_iff.1 hnil).2, List.append_nil] at hq
    exact hne hq

end Json

end WarmLogic.Lib
