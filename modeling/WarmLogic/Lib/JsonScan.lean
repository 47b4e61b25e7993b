/-
# WarmLogic.Lib.JsonScan — The JSON scanner is stable.

What the scanner read of a text it also reads when more text follows, and with more rounds, unless what it read is a
number that the next character could continue. Each part of the scanner has its `_append` lemma; `Stable` is the
statement for the three mutual functions, by induction on the rounds.

Why it holds: the scanner looks at most one character past what it reads, and only where it reads a number. A string
ends at its quote, a list and a dict at their bracket, a literal at its last letter; so only a number that stands at
the very end of the text can be read differently when more follows, and `EndsNumber` is the condition that it is not.

The rounds are the fuel of the model: `scan_once`, the members of a list and the pairs of a dict call each other, and
the scanner of the standard library has no bound on the depth. More rounds never change a result that there already
is, which is what makes `loads`, with as many rounds as the text has characters, the function without the bound.

The lemmas come in the order of the grammar: digits, integers, fractions, exponents and numbers; hexadecimal escapes,
escapes and strings; whitespace; then one equation for each of the mutual functions and one stability step for each.
Nothing here is about printing: `JsonRoundTrip` and `JsonWellFormed` are its two users.
-/
import WarmLogic.Lib.Json
import Mathlib.Tactic.Common

namespace WarmLogic.Lib

namespace Json

/-! ## Numbers -/

/-- No digit comes first. The empty rest is included, so that a number may stand at the end of a text. -/
def NoDigit (s : List Char) : Prop := ∀ c ∈ s.head?, isDigit c = false

/-- What comes first does not continue a number: no digit, no dot and no exponent. It is asked of what follows a
number, and holds in front of every comma, bracket and whitespace. -/
def EndsNumber (s : List Char) : Prop := ∀ c ∈ s.head?, isDigit c = false ∧ c ≠ '.' ∧ c ≠ 'e' ∧ c ≠ 'E'

/-- A number may stand at the end. -/
theorem EndsNumber.nil : EndsNumber [] := by simp [EndsNumber]

/-- What ends a number begins with no digit. -/
theorem EndsNumber.noDigit {s : List Char} (h : EndsNumber s) : NoDigit s := fun c hc => (h c hc).1

/-- The digits in front stay the same when more follows, as long as that begins with no digit. -/
theorem takeWhile_digits_append {s x : List Char} (h : NoDigit (s.dropWhile isDigit ++ x)) :
    (s ++ x).takeWhile isDigit = s.takeWhile isDigit ∧ (s ++ x).dropWhile isDigit = s.dropWhile isDigit ++ x := by
  induction s with
  | nil =>
    cases x with
    | nil => simp
    | cons c r => simp [h c (by simp)]
  | cons d s ih =>
    cases hd : isDigit d with
    | true =>
      rw [List.dropWhile_cons_of_pos hd] at h
      simp [hd, ih h]
    | false => simp [hd]

/-- So does what is scanned of them. -/
theorem scanDigits_append {s ds r x : List Char} (h : scanDigits s = some (ds, r)) (hx : NoDigit (r ++ x)) :
    scanDigits (s ++ x) = some (ds, r ++ x) := by
  cases s with
  | nil => simp [scanDigits] at h
  | cons c s =>
    simp only [List.cons_append, scanDigits] at h ⊢
    split at h
    · next hc =>
      rw [if_pos hc]
      simp only [Option.some.injEq, Prod.mk.injEq] at h ⊢
      exact ⟨h.1, by rw [h.2]⟩
    · next hc =>
      rw [if_neg hc]
      split at h
      · next hd =>
        rw [if_pos hd]
        simp only [Option.some.injEq, Prod.mk.injEq] at h ⊢
        obtain ⟨rfl, rfl⟩ := h
        exact takeWhile_digits_append hx
      · cases h

/-- The integer of a number, likewise. -/
theorem scanInt_append {s ds r x : List Char} {negative : Bool} (h : scanInt s = some (negative, ds, r))
    (hx : NoDigit (r ++ x)) : scanInt (s ++ x) = some (negative, ds, r ++ x) := by
  unfold scanInt at h
  split at h
  · next t =>
    simp only [Option.map_eq_some_iff, Prod.exists, Prod.mk.injEq] at h
    obtain ⟨ds', r', hd, rfl, rfl, rfl⟩ := h
    simp only [List.cons_append, scanInt, scanDigits_append hd hx, Option.map_some]
  · next hsign =>
    simp only [Option.map_eq_some_iff, Prod.exists, Prod.mk.injEq] at h
    obtain ⟨ds', r', hd, rfl, rfl, rfl⟩ := h
    unfold scanInt
    split
    · next t heq =>
      -- the sign would be the first character of `s` already
      cases s with
      | nil => simp [scanDigits] at hd
      | cons c s => exact absurd (by rw [(List.cons.inj heq).1]) (hsign s)
    · simp only [scanDigits_append hd hx, Option.map_some]

/-- Its fraction, if what follows is no point either. -/
theorem scanFrac_append {s r x f : List Char} (h : scanFrac s = (f, r)) (hx : NoDigit (r ++ x))
    (hdot : ∀ c ∈ (r ++ x).head?, c ≠ '.') :
    scanFrac (s ++ x) = (f, r ++ x) ∧ NoDigit (s ++ x) := by
  unfold scanFrac at h
  split at h
  · next t =>
    split at h
    · next hnone =>
      -- a dot without digits is not consumed
      simp only [Prod.mk.injEq] at h
      obtain ⟨-, rfl⟩ := h
      exact absurd rfl (hdot '.' (by simp))
    · next hsome =>
      simp only [Prod.mk.injEq] at h
      obtain ⟨rfl, rfl⟩ := h
      have := takeWhile_digits_append hx
      refine ⟨?_, fun c hc => ?_⟩
      · simp only [List.cons_append, scanFrac, this.1, this.2, if_neg hsome]
      · simp only [List.cons_append, List.head?_cons, Option.mem_some_iff] at hc
        rw [← hc]
        rfl
  · simp only [Prod.mk.injEq] at h
    obtain ⟨rfl, rfl⟩ := h
    refine ⟨?_, hx⟩
    unfold scanFrac
    split
    · next t heq => exact absurd rfl (hdot '.' (by simp [heq]))
    · rfl

/-- The sign of an exponent, if something follows it already. -/
theorem scanSign_append {s x : List Char} (h : (scanSign s).2 ≠ []) :
    scanSign (s ++ x) = ((scanSign s).1, (scanSign s).2 ++ x) := by
  cases s with
  | nil => simp [scanSign] at h
  | cons c s =>
    unfold scanSign
    split
    · next t heq =>
      obtain ⟨rfl, rfl⟩ := List.cons.inj heq
      rfl
    · next t heq =>
      obtain ⟨rfl, rfl⟩ := List.cons.inj heq
      rfl
    · next hplus hminus =>
      split
      · next t heq => exact absurd (by rw [(List.cons.inj heq).1]; rfl) (hplus (s ++ x))
      · next t heq => exact absurd (by rw [(List.cons.inj heq).1]; rfl) (hminus (s ++ x))
      · rfl

/-- The exponent. -/
theorem scanExp_append {s r x e : List Char} (h : scanExp s = (e, r)) (hx : EndsNumber (r ++ x)) :
    scanExp (s ++ x) = (e, r ++ x) ∧ NoDigit (s ++ x) ∧ ∀ c ∈ (s ++ x).head?, c ≠ '.' := by
  -- where nothing is consumed, what follows is what was there
  have unread : ∀ t : List Char, EndsNumber t → scanExp t = ([], t) ∧ NoDigit t ∧ ∀ c ∈ t.head?, c ≠ '.' := by
    intro t ht
    refine ⟨?_, ht.noDigit, fun c hc => (ht c hc).2.1⟩
    cases t with
    | nil => rfl
    | cons c t =>
      have := ht c (by simp)
      simp [scanExp, this.2.2.1, this.2.2.2]
  unfold scanExp at h
  split at h
  · next c s =>
    split at h
    · next hc =>
      simp only [Prod.mk.injEq] at h
      obtain ⟨rfl, rfl⟩ := h
      have digits := takeWhile_digits_append hx.noDigit
      have sign : scanSign (s ++ x) = ((scanSign s).1, (scanSign s).2 ++ x) := by
        apply scanSign_append
        intro hnil
        exact hc.2 (by rw [hnil]; rfl)
      have hfirst : isDigit c = false ∧ c ≠ '.' := by
        obtain rfl | rfl := hc.1 <;> decide
      refine ⟨?_, ?_, ?_⟩
      · simp only [List.cons_append, scanExp, sign, digits.1, digits.2, if_pos hc]
      · simpa [NoDigit] using hfirst.1
      · simpa using hfirst.2
    · simp only [Prod.mk.injEq] at h
      obtain ⟨rfl, rfl⟩ := h
      exact unread _ hx
  · simp only [Prod.mk.injEq] at h
    obtain ⟨rfl, rfl⟩ := h
    exact unread _ hx

/-- A number is read the same in front of anything that does not continue it. -/
theorem scanNumber_append {s r x : List Char} {v : Json} (h : scanNumber s = some (v, r)) (hx : EndsNumber (r ++ x)) :
    scanNumber (s ++ x) = some (v, r ++ x) := by
  unfold scanNumber at h ⊢
  simp only [Option.map_eq_some_iff, Prod.exists] at h
  obtain ⟨negative, ds, r₁, hint, h⟩ := h
  obtain ⟨f, r₂, hfrac⟩ : ∃ f r₂, scanFrac r₁ = (f, r₂) := ⟨_, _, rfl⟩
  obtain ⟨e, r₃, hexp⟩ : ∃ e r₃, scanExp r₂ = (e, r₃) := ⟨_, _, rfl⟩
  simp only [hfrac, hexp] at h
  have hr : r₃ = r := by split at h <;> exact (Prod.mk.inj h).2
  subst hr
  -- from the last part back to the first: each stops where it stopped
  have hexp' := scanExp_append hexp hx
  have hfrac' := scanFrac_append hfrac hexp'.2.1 hexp'.2.2
  rw [scanInt_append hint hfrac'.2]
  simp only [Option.map_some, hfrac'.1, hexp'.1, Option.some.injEq]
  split at h
  · next hnone => rw [if_pos hnone, (Prod.mk.inj h).1]
  · next hsome => rw [if_neg hsome, (Prod.mk.inj h).1]

/-- A number starts with a sign or a digit. -/
theorem scanNumber_head {s r : List Char} {v : Json} (h : scanNumber s = some (v, r)) :
    ∃ c t, s = c :: t ∧ (c = '-' ∨ isDigit c = true) := by
  unfold scanNumber scanInt at h
  split at h
  · next t => exact ⟨'-', t, rfl, .inl rfl⟩
  · cases s with
    | nil => simp [scanDigits] at h
    | cons c t =>
      refine ⟨c, t, rfl, .inr ?_⟩
      by_contra hc
      have hzero : c ≠ '0' := by
        rintro rfl
        exact hc (by decide)
      simp [scanDigits, hzero, hc] at h

/-! ## Strings -/

/-- Four hex digits are read whatever follows them. -/
theorem scanHex4_append {s r x : List Char} {n : Nat} (h : scanHex4 s = some (n, r)) :
    scanHex4 (s ++ x) = some (n, r ++ x) := by
  unfold scanHex4 at h
  split at h
  · next a b c d t =>
    simp only [List.cons_append, scanHex4]
    cases ha : hexVal a <;> cases hb : hexVal b <;> cases hc : hexVal c <;> cases hd : hexVal d <;>
      simp_all
  · cases h

/-- So is an escape of one character, or of a pair. -/
theorem scanUnicode_append {s r x : List Char} {c : Char} (h : scanUnicode s = some (c, r)) :
    scanUnicode (s ++ x) = some (c, r ++ x) := by
  unfold scanUnicode at h ⊢
  obtain ⟨⟨n, t⟩, hn, h⟩ := Option.bind_eq_some_iff.1 h
  rw [scanHex4_append hn]
  simp only [Option.bind_eq_bind, Option.bind_some] at h ⊢
  split at h
  · next hfirst =>
    rw [if_pos hfirst]
    split at h
    · next t' =>
      obtain ⟨⟨n', t''⟩, hn', h⟩ := Option.bind_eq_some_iff.1 h
      simp only [List.cons_append, scanHex4_append hn', Option.bind_some]
      split at h
      · next hsecond =>
        rw [if_pos hsecond]
        simp only [Option.pure_def, Option.some.injEq, Prod.mk.injEq] at h ⊢
        exact ⟨h.1, by rw [h.2]⟩
      · cases h
    · cases h
  · next hfirst =>
    rw [if_neg hfirst]
    split at h
    · cases h
    · next hsecond =>
      rw [if_neg hsecond]
      simp only [Option.pure_def, Option.some.injEq, Prod.mk.injEq] at h ⊢
      exact ⟨h.1, by rw [h.2]⟩

/-- And any other escape. -/
theorem scanEscape_append {s r x : List Char} {c : Char} (h : scanEscape s = some (c, r)) :
    scanEscape (s ++ x) = some (c, r ++ x) := by
  cases s with
  | nil => cases h
  | cons d s =>
    simp only [List.cons_append, scanEscape] at h ⊢
    split at h
    · next hu =>
      rw [if_pos hu]
      exact scanUnicode_append h
    · next hu =>
      rw [if_neg hu]
      simp only [Option.map_eq_some_iff, Prod.mk.injEq] at h ⊢
      obtain ⟨c', hlookup, rfl, rfl⟩ := h
      exact ⟨c', hlookup, rfl, rfl⟩

/-- A string is read the same in front of anything, and with more rounds. -/
theorem scanString_append {n : Nat} : ∀ {s t r : List Char}, scanString n s = some (t, r) →
    ∀ {m : Nat}, n ≤ m → ∀ x : List Char, scanString m (s ++ x) = some (t, r ++ x) := by
  induction n with
  | zero => intro s t r h; cases h
  | succ n ih =>
    intro s t r h m hm x
    obtain ⟨m, rfl⟩ := Nat.exists_eq_add_one_of_ne_zero (Nat.ne_of_gt (Nat.lt_of_lt_of_le (Nat.succ_pos n) hm))
    have hm : n ≤ m := Nat.le_of_succ_le_succ hm
    cases s with
    | nil => cases h
    | cons c s =>
      simp only [List.cons_append, scanString] at h ⊢
      split_ifs at h ⊢ with hquote hback hcontrol
      · cases h
        rfl
      · obtain ⟨⟨c', s'⟩, he, h⟩ := Option.bind_eq_some_iff.1 h
        obtain ⟨⟨t', r'⟩, hs, h⟩ := Option.bind_eq_some_iff.1 h
        rw [scanEscape_append he]
        show (scanString m (s' ++ x)).bind _ = _
        rw [ih hs hm x]
        cases h
        rfl
      · obtain ⟨⟨t', r'⟩, hs, h⟩ := Option.bind_eq_some_iff.1 h
        show (scanString m (s ++ x)).bind _ = _
        rw [ih hs hm x]
        cases h
        rfl

/-! ## Whitespace -/

/-- White space ends where it ended. -/
theorem skipWs_append {s r : List Char} {c : Char} (h : skipWs s = c :: r) (x : List Char) :
    skipWs (s ++ x) = c :: (r ++ x) := by
  induction s with
  | nil => simp [skipWs] at h
  | cons d s ih =>
    unfold skipWs at h ih ⊢
    cases hd : isWs d with
    | true =>
      rw [List.dropWhile_cons_of_pos hd] at h
      rw [List.cons_append, List.dropWhile_cons_of_pos hd]
      exact ih h
    | false =>
      rw [List.dropWhile_cons_of_neg (by simp [hd])] at h
      rw [List.cons_append, List.dropWhile_cons_of_neg (by simp [hd]), ← List.cons_append, h, List.cons_append]

/-- The same, if it was not all. -/
theorem skipWs_append_of_ne_nil {s : List Char} (h : skipWs s ≠ []) (x : List Char) :
    skipWs (s ++ x) = skipWs s ++ x := by
  obtain ⟨c, r, hc⟩ := List.exists_cons_of_ne_nil h
  rw [skipWs_append hc, hc, List.cons_append]

/-- In front of a comma or a closing bracket, with whitespace or without, a number ends. -/
theorem endsNumber_of_skipWs {s r : List Char} {c : Char} (h : skipWs s = c :: r)
    (hc : c = ',' ∨ c = '}' ∨ c = ']') (x : List Char) : EndsNumber (s ++ x) := by
  cases s with
  | nil => simp [skipWs] at h
  | cons d s =>
    intro e he
    simp only [List.cons_append, List.head?_cons, Option.mem_some_iff] at he
    subst he
    cases hd : isWs d with
    | true =>
      simp only [isWs, Bool.or_eq_true, beq_iff_eq] at hd
      rcases hd with ((rfl | rfl) | rfl) | rfl <;> decide
    | false =>
      unfold skipWs at h
      rw [List.dropWhile_cons_of_neg (by simp [hd])] at h
      obtain rfl := (List.cons.inj h).1
      rcases hc with rfl | rfl | rfl <;> decide

/-- Nothing is skipped in front of another character. -/
theorem skipWs_cons {c : Char} (h : isWs c = false) (s : List Char) : skipWs (c :: s) = c :: s :=
  List.dropWhile_cons_of_neg (by simp [h])

/-- Whether a value is a number: the one kind of value whose end is not marked in the text. -/
def IsNumber : Json → Prop
  | .int _ => True
  | .float _ => True
  | _ => False

/-- What is scanned as a number is one. -/
theorem scanNumber_isNumber {s r : List Char} {v : Json} (h : scanNumber s = some (v, r)) : v.IsNumber := by
  unfold scanNumber at h
  simp only [Option.map_eq_some_iff, Prod.exists] at h
  obtain ⟨negative, ds, r₁, -, h⟩ := h
  split at h <;>
  · rw [← (Prod.mk.inj h).1]
    trivial

/-! ## What the scanners read -/

/-- What `scan_once` can read, by what comes first, with so many rounds left for the members. -/
inductive Once (n : Nat) : List Char → Json → List Char → Prop where
  | str {s t r : List Char} (h : scanString s.length s = some (t, r)) : Once n ('"' :: s) (.str t) r
  | emptyObj {s r : List Char} (h : skipWs s = '}' :: r) : Once n ('{' :: s) (.obj []) r
  | obj {s s' r : List Char} {ps : List (List Char × Json)} (h : skipWs s = '"' :: s')
      (hps : scanPairs n s' = some (ps, r)) : Once n ('{' :: s) (.obj (ofPairs ps)) r
  | emptyArr {s r : List Char} (h : skipWs s = ']' :: r) : Once n ('[' :: s) (.arr []) r
  | arr {c : Char} {s s' r : List Char} {vs : List Json} (h : skipWs s = c :: s') (hc : c ≠ ']')
      (hvs : scanItems n (c :: s') = some (vs, r)) : Once n ('[' :: s) (.arr vs) r
  | null {s r : List Char} {v : Json} (h : scanLiteral ['u', 'l', 'l'] .null s = some (v, r)) : Once n ('n' :: s) v r
  | true {s r : List Char} {v : Json} (h : scanLiteral ['r', 'u', 'e'] (.bool true) s = some (v, r)) :
      Once n ('t' :: s) v r
  | false {s r : List Char} {v : Json} (h : scanLiteral ['a', 'l', 's', 'e'] (.bool false) s = some (v, r)) :
      Once n ('f' :: s) v r
  | number {s r : List Char} {v : Json} (h : scanNumber s = some (v, r)) : Once n s v r

/-- A value that begins like a number is that number. -/
theorem scanOnce_of_number {s r : List Char} {v : Json} (h : scanNumber s = some (v, r)) (n : Nat) :
    scanOnce (n + 1) s = some (v, r) := by
  obtain ⟨c, t, rfl, hc⟩ := scanNumber_head h
  -- neither a quote nor a bracket nor a word starts like that
  have other : ∀ d : Char, ¬ (d = '-' ∨ isDigit d = true) → c ≠ d := by
    rintro d hd rfl
    exact hd hc
  rw [scanOnce, if_neg (other _ (by decide)), if_neg (other _ (by decide)), if_neg (other _ (by decide)),
    if_neg (other _ (by decide)), if_neg (other _ (by decide)), if_neg (other _ (by decide))]
  exact h

/-- **What is scanned as a value**, in the cases of the first character. -/
theorem scanOnce_succ {n : Nat} {s r : List Char} {v : Json} : scanOnce (n + 1) s = some (v, r) ↔ Once n s v r := by
  constructor
  · intro h
    cases s with
    | nil => simp [scanOnce] at h
    | cons c s =>
      rw [scanOnce] at h
      by_cases hquote : c = '"'
      · rw [if_pos hquote] at h
        obtain ⟨⟨t, r'⟩, hs, heq⟩ := Option.map_eq_some_iff.1 h
        cases heq
        exact hquote ▸ .str hs
      rw [if_neg hquote] at h
      by_cases hbrace : c = '{'
      · rw [if_pos hbrace] at h
        split at h
        · cases h
        · next d s' hskip =>
          split_ifs at h with hclose hkey
          · cases h
            exact hbrace ▸ .emptyObj (hclose ▸ hskip)
          · obtain ⟨⟨ps, r'⟩, hps, heq⟩ := Option.map_eq_some_iff.1 h
            cases heq
            exact hbrace ▸ .obj (hkey ▸ hskip) hps
      rw [if_neg hbrace] at h
      by_cases hbracket : c = '['
      · rw [if_pos hbracket] at h
        split at h
        · cases h
        · next d s' hskip =>
          split_ifs at h with hclose
          · cases h
            exact hbracket ▸ .emptyArr (hclose ▸ hskip)
          · obtain ⟨⟨vs, r'⟩, hvs, heq⟩ := Option.map_eq_some_iff.1 h
            cases heq
            exact hbracket ▸ .arr hskip hclose (hskip ▸ hvs)
      rw [if_neg hbracket] at h
      by_cases hn : c = 'n'
      · rw [if_pos hn] at h
        exact hn ▸ .null h
      rw [if_neg hn] at h
      by_cases ht : c = 't'
      · rw [if_pos ht] at h
        exact ht ▸ .true h
      rw [if_neg ht] at h
      by_cases hf : c = 'f'
      · rw [if_pos hf] at h
        exact hf ▸ .false h
      rw [if_neg hf] at h
      exact .number h
  · intro h
    cases h with
    | str h => rw [scanOnce, if_pos rfl, h]; rfl
    | emptyObj h => rw [scanOnce, if_neg (by decide), if_pos rfl, h]; rfl
    | obj h hps => rw [scanOnce, if_neg (by decide), if_pos rfl, h]; simp [hps]
    | emptyArr h => rw [scanOnce, if_neg (by decide), if_neg (by decide), if_pos rfl, h]; rfl
    | arr h hc hvs => rw [scanOnce, if_neg (by decide), if_neg (by decide), if_pos rfl, h]; simp [hc, hvs]
    | null h => rw [scanOnce]; exact h
    | true h => rw [scanOnce]; exact h
    | false h => rw [scanOnce]; exact h
    | number h => exact scanOnce_of_number h n

/-- What is scanned as items: one and the end, or one, a comma and more. -/
theorem scanItems_succ {n : Nat} {s r : List Char} {vs : List Json} :
    scanItems (n + 1) s = some (vs, r) ↔ ∃ item r₁, scanOnce n s = some (item, r₁) ∧
      ((skipWs r₁ = ']' :: r ∧ vs = [item]) ∨
        ∃ r₂ vs', skipWs r₁ = ',' :: r₂ ∧ scanItems n (skipWs r₂) = some (vs', r) ∧ vs = item :: vs') := by
  rw [scanItems]
  constructor
  · intro h
    obtain ⟨⟨item, r₁⟩, hitem, h⟩ := Option.bind_eq_some_iff.1 h
    refine ⟨item, r₁, hitem, ?_⟩
    simp only at h
    split at h
    · cases h
    · next c r₂ hskip =>
      split_ifs at h with hclose hcomma
      · cases h
        exact .inl ⟨hclose ▸ hskip, rfl⟩
      · obtain ⟨⟨vs', r'⟩, hrest, heq⟩ := Option.map_eq_some_iff.1 h
        cases heq
        exact .inr ⟨r₂, vs', hcomma ▸ hskip, hrest, rfl⟩
  · rintro ⟨item, r₁, hitem, ⟨hskip, rfl⟩ | ⟨r₂, vs', hskip, hrest, rfl⟩⟩
    · simp [hitem, hskip]
    · simp [hitem, hskip, hrest]

/-- What is scanned as pairs. -/
theorem scanPairs_succ {n : Nat} {s r : List Char} {ps : List (List Char × Json)} :
    scanPairs (n + 1) s = some (ps, r) ↔ ∃ key r₁ r₂ value r₃, scanString s.length s = some (key, r₁) ∧
      skipWs r₁ = ':' :: r₂ ∧ scanOnce n (skipWs r₂) = some (value, r₃) ∧
      ((skipWs r₃ = '}' :: r ∧ ps = [(key, value)]) ∨
        ∃ r₄ r₅ ps', skipWs r₃ = ',' :: r₄ ∧ skipWs r₄ = '"' :: r₅ ∧ scanPairs n r₅ = some (ps', r) ∧
          ps = (key, value) :: ps') := by
  rw [scanPairs]
  constructor
  · intro h
    obtain ⟨⟨key, r₁⟩, hkey, h⟩ := Option.bind_eq_some_iff.1 h
    simp only at h
    split at h
    · cases h
    · next c r₂ hcolon =>
      split_ifs at h with hc
      obtain ⟨⟨value, r₃⟩, hvalue, h⟩ := Option.bind_eq_some_iff.1 h
      refine ⟨key, r₁, r₂, value, r₃, hkey, hc ▸ hcolon, hvalue, ?_⟩
      simp only at h
      split at h
      · cases h
      · next d r₄ hskip =>
        split_ifs at h with hclose hcomma
        · cases h
          exact .inl ⟨hclose ▸ hskip, rfl⟩
        · split at h
          · cases h
          · next e r₅ hnext =>
            split_ifs at h with hquote
            obtain ⟨⟨ps', r'⟩, hrest, heq⟩ := Option.map_eq_some_iff.1 h
            cases heq
            exact .inr ⟨r₄, r₅, ps', hcomma ▸ hskip, hquote ▸ hnext, hrest, rfl⟩
  · rintro ⟨key, r₁, r₂, value, r₃, hkey, hcolon, hvalue, ⟨hskip, rfl⟩ | ⟨r₄, r₅, ps', hskip, hnext, hrest, rfl⟩⟩
    · simp [hkey, hcolon, hvalue, hskip]
    · simp [hkey, hcolon, hvalue, hskip, hnext, hrest]

/-! ## The scanner is stable -/

/-- With so many rounds or more, each scanner reads what it read also in front of more text. The three are proved
together, because a member of a list is read by `scan_once`, which reads lists. -/
structure Stable (n : Nat) : Prop where
  once : ∀ {s r : List Char} {v : Json}, scanOnce n s = some (v, r) → ∀ {m : Nat}, n ≤ m → ∀ x : List Char,
    (v.IsNumber → EndsNumber (r ++ x)) → scanOnce m (s ++ x) = some (v, r ++ x)
  pairs : ∀ {s r : List Char} {ps : List (List Char × Json)}, scanPairs n s = some (ps, r) → ∀ {m : Nat}, n ≤ m →
    ∀ x : List Char, scanPairs m (s ++ x) = some (ps, r ++ x)
  items : ∀ {s r : List Char} {vs : List Json}, scanItems n s = some (vs, r) → ∀ {m : Nat}, n ≤ m →
    ∀ x : List Char, scanItems m (s ++ x) = some (vs, r ++ x)

/-- Nothing is scanned from nothing. -/
theorem scanOnce_nil (n : Nat) : scanOnce n [] = none := by
  cases n <;> simp [scanOnce]

/-- Nor are items. -/
theorem scanItems_nil (n : Nat) : scanItems n [] = none := by
  cases n <;> simp [scanItems, scanOnce_nil]

/-- A literal is read whatever follows it. -/
theorem scanLiteral_append {word s r : List Char} {u v : Json} (h : scanLiteral word u s = some (v, r))
    (x : List Char) : scanLiteral word u (s ++ x) = some (v, r ++ x) := by
  unfold scanLiteral at h ⊢
  split_ifs at h with hw
  obtain ⟨t, rfl⟩ := hw
  cases h
  simp

/-- A scanner that read something after whitespace was not at the end. -/
theorem skipWs_append_of_scan {α : Type} {scan : List Char → Option α} (hnil : scan [] = none) {s : List Char} {a : α}
    (h : scan (skipWs s) = some a) (x : List Char) : skipWs (s ++ x) = skipWs s ++ x := by
  apply skipWs_append_of_ne_nil
  intro hempty
  rw [hempty, hnil] at h
  cases h

/-- Items, once values of less fuel are stable. -/
theorem stable_items {n : Nat} (ih : Stable n) {s r : List Char} {vs : List Json}
    (h : scanItems (n + 1) s = some (vs, r)) {m : Nat} (hm : n ≤ m) (x : List Char) :
    scanItems (m + 1) (s ++ x) = some (vs, r ++ x) := by
  obtain ⟨item, r₁, hitem, hmore⟩ := scanItems_succ.1 h
  -- a comma or a bracket follows an item, which continues no number
  rcases hmore with ⟨hskip, hvs⟩ | ⟨r₂, vs', hskip, hrest, hvs⟩
  · have hitem' := ih.once hitem hm x fun _ => endsNumber_of_skipWs hskip (by decide) x
    exact scanItems_succ.2 ⟨item, r₁ ++ x, hitem', .inl ⟨skipWs_append hskip x, hvs⟩⟩
  · have hitem' := ih.once hitem hm x fun _ => endsNumber_of_skipWs hskip (by decide) x
    have hrest' := ih.items hrest hm x
    rw [← skipWs_append_of_scan (scanItems_nil n) hrest] at hrest'
    exact scanItems_succ.2 ⟨item, r₁ ++ x, hitem', .inr ⟨r₂ ++ x, vs', skipWs_append hskip x, hrest', hvs⟩⟩

/-- Pairs, once values of less fuel are. -/
theorem stable_pairs {n : Nat} (ih : Stable n) {s r : List Char} {ps : List (List Char × Json)}
    (h : scanPairs (n + 1) s = some (ps, r)) {m : Nat} (hm : n ≤ m) (x : List Char) :
    scanPairs (m + 1) (s ++ x) = some (ps, r ++ x) := by
  obtain ⟨key, r₁, r₂, value, r₃, hkey, hcolon, hvalue, hmore⟩ := scanPairs_succ.1 h
  have hkey' := scanString_append hkey (by simp : s.length ≤ (s ++ x).length) x
  have hspace := skipWs_append_of_scan (scanOnce_nil n) hvalue x
  rcases hmore with ⟨hskip, hps⟩ | ⟨r₄, r₅, ps', hskip, hnext, hrest, hps⟩
  · have hvalue' := ih.once hvalue hm x fun _ => endsNumber_of_skipWs hskip (by decide) x
    rw [← hspace] at hvalue'
    exact scanPairs_succ.2 ⟨key, r₁ ++ x, r₂ ++ x, value, r₃ ++ x, hkey', skipWs_append hcolon x, hvalue',
      .inl ⟨skipWs_append hskip x, hps⟩⟩
  · have hvalue' := ih.once hvalue hm x fun _ => endsNumber_of_skipWs hskip (by decide) x
    rw [← hspace] at hvalue'
    exact scanPairs_succ.2 ⟨key, r₁ ++ x, r₂ ++ x, value, r₃ ++ x, hkey', skipWs_append hcolon x, hvalue',
      .inr ⟨r₄ ++ x, r₅ ++ x, ps', skipWs_append hskip x, skipWs_append hnext x, ih.pairs hrest hm x, hps⟩⟩

/-- A value, once those of less fuel are. -/
theorem stable_once {n : Nat} (ih : Stable n) {s r : List Char} {v : Json}
    (h : scanOnce (n + 1) s = some (v, r)) {m : Nat} (hm : n ≤ m) (x : List Char)
    (hx : v.IsNumber → EndsNumber (r ++ x)) : scanOnce (m + 1) (s ++ x) = some (v, r ++ x) := by
  apply scanOnce_succ.2
  cases scanOnce_succ.1 h with
  | str h => exact .str (scanString_append h (by simp) x)
  | emptyObj h => exact .emptyObj (skipWs_append h x)
  | obj hskip hps => exact .obj (skipWs_append hskip x) (ih.pairs hps hm x)
  | emptyArr h => exact .emptyArr (skipWs_append h x)
  | arr hskip hc hvs => exact .arr (skipWs_append hskip x) hc (ih.items hvs hm x)
  | null h => exact .null (scanLiteral_append h x)
  | true h => exact .true (scanLiteral_append h x)
  | false h => exact .false (scanLiteral_append h x)
  | number h => exact .number (scanNumber_append h (hx (scanNumber_isNumber h)))

/-- **Scanning is stable**: more fuel and more input behind change nothing, by induction on the fuel. -/
theorem stable (n : Nat) : Stable n := by
  induction n with
  | zero =>
    refine ⟨fun h => ?_, fun h => ?_, fun h => ?_⟩
    · simp [scanOnce] at h
    · simp [scanPairs] at h
    · simp [scanItems] at h
  | succ n ih =>
    have succ : ∀ {m}, n + 1 ≤ m → ∃ k, m = k + 1 ∧ n ≤ k := fun {m} hm => ⟨m - 1, by omega, by omega⟩
    refine ⟨fun h m hm x hx => ?_, fun h m hm x => ?_, fun h m hm x => ?_⟩
    · obtain ⟨k, rfl, hk⟩ := succ hm
      exact stable_once ih h hk x hx
    · obtain ⟨k, rfl, hk⟩ := succ hm
      exact stable_pairs ih h hk x
    · obtain ⟨k, rfl, hk⟩ := succ hm
      exact stable_items ih h hk x

end Json

end WarmLogic.Lib
