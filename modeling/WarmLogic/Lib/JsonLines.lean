/-
# WarmLogic.Lib.JsonLines — files of JSON lines: what `readlines` makes of them, and what `json.loads` reads.

A value printed on one line has no character below the space, whatever its strings hold: `json.dumps` escapes those.
So a file of such lines is read line by line as it was written, in text mode too, and each line is read back.

`readlines` in text mode first turns every `"\r\n"` and every `"\r"` into `"\n"` and then cuts behind each `"\n"`: a
file is read back as the lines that were written only if no line holds one of these characters itself. The printer
escapes every control character inside a string, and on one line it prints none between the members either, so that
nothing has to be asked of the values (`Wf.visible`).

The proof goes over the printer once more, with `Visible` in the place of `Reads`: digits, signs, hexadecimal digits
and the punctuation of the layout are visible characters, and a string is visible character by character.
-/
import WarmLogic.Lib.JsonRoundTrip

namespace WarmLogic.Lib

namespace Json

/-! ## Lines -/

/-- Text mode: `"\r\n"` and `"\r"` are read as `"\n"`. The pair is matched before the single character, or it would
become two line breaks. -/
def universalNewlines : List Char → List Char
  | [] => []
  | '\r' :: '\n' :: s => '\n' :: universalNewlines s
  | c :: s => (if c = '\r' then '\n' else c) :: universalNewlines s

/-- Lines with their line breaks; only the last one may have none. -/
def splitLines : List Char → List (List Char)
  | [] => []
  | c :: s =>
      if c = '\n' then ['\n'] :: splitLines s
      else
        match splitLines s with
        | [] => [[c]]
        | line :: lines => (c :: line) :: lines

/-- `readlines` of a file in text mode. -/
def readLines (s : List Char) : List (List Char) := splitLines (universalNewlines s)

/-- Without control characters: every character comes after the space or is the space. In particular no line break is
among them, of either kind. -/
def Visible (s : List Char) : Prop := ∀ c ∈ s, 32 ≤ c.toNat

/-- No line break is visible. -/
theorem Visible.ne {s : List Char} (h : Visible s) {c : Char} (hc : c ∈ s) : c ≠ '\n' ∧ c ≠ '\r' :=
  ⟨fun heq => absurd (h c hc) (heq ▸ by decide), fun heq => absurd (h c hc) (heq ▸ by decide)⟩

/-- Two visible parts. -/
theorem Visible.append {s t : List Char} (hs : Visible s) (ht : Visible t) : Visible (s ++ t) := by
  intro c hc
  rcases List.mem_append.mp hc with hc | hc
  · exact hs c hc
  · exact ht c hc

/-- One more character. -/
theorem Visible.cons {c : Char} {s : List Char} (hc : 32 ≤ c.toNat) (hs : Visible s) : Visible (c :: s) := by
  intro d hd
  rcases List.mem_cons.mp hd with rfl | hd
  · exact hc
  · exact hs d hd

/-- Nothing. -/
theorem Visible.nil : Visible [] := fun _ hc => absurd hc List.not_mem_nil

/-- By computation. -/
theorem Visible.of_all {s : List Char} (h : (s.all fun c => decide (32 ≤ c.toNat)) = true) : Visible s :=
  fun c hc => of_decide_eq_true (List.all_eq_true.mp h c hc)

/-- A visible line keeps its end. -/
theorem universalNewlines_line {s : List Char} (h : Visible s) (rest : List Char) :
    universalNewlines (s ++ '\n' :: rest) = s ++ '\n' :: universalNewlines rest := by
  induction s with
  | nil =>
    rw [List.nil_append, universalNewlines, if_neg (by decide), List.nil_append]
    exact fun _ hr => absurd hr (by decide)
  | cons c s ih =>
    have hc := (h.ne List.mem_cons_self).2
    rw [List.cons_append, universalNewlines, if_neg hc, ih fun d hd => h d (List.mem_cons_of_mem c hd), List.cons_append]
    exact fun _ hr => absurd hr hc

/-- And is one line. -/
theorem splitLines_line {s : List Char} (h : Visible s) (rest : List Char) :
    splitLines (s ++ '\n' :: rest) = (s ++ ['\n']) :: splitLines rest := by
  induction s with
  | nil => rfl
  | cons c s ih =>
    have hc := (h.ne List.mem_cons_self).1
    rw [List.cons_append, splitLines, if_neg hc, ih fun d hd => h d (List.mem_cons_of_mem c hd)]
    rfl

/-- **A file of visible texts, one a line, is read as these lines.** -/
theorem readLines_lines {texts : List (List Char)} (h : ∀ s ∈ texts, Visible s) :
    readLines (texts.flatMap fun s => s ++ ['\n']) = texts.map fun s => s ++ ['\n'] := by
  induction texts with
  | nil => rfl
  | cons s texts ih =>
    obtain ⟨hs, htexts⟩ := List.forall_mem_cons.mp h
    have happend : (s :: texts).flatMap (fun s => s ++ ['\n']) = s ++ '\n' :: texts.flatMap fun s => s ++ ['\n'] := by
      rw [List.flatMap_cons, List.append_assoc]
      rfl
    rw [happend, readLines, universalNewlines_line hs, splitLines_line hs, List.map_cons]
    exact congrArg _ (ih htexts)

/-! ## Printed values are visible -/

/-- An escape is visible. -/
theorem toNat_uEscape {n : Nat} : Visible (uEscape n) := by
  have hdigit : ∀ k, k < 16 → 32 ≤ (hexDigit k).toNat := by decide
  refine .cons (by decide) (.cons (by decide) (.cons ?_ (.cons ?_ (.cons ?_ (.cons ?_ .nil))))) <;>
    exact hdigit _ (Nat.mod_lt _ (by decide))

/-- Escaping leaves nothing invisible. -/
theorem visible_escapeUnicode (c : Char) : Visible (escapeUnicode c) := by
  have hletter : ∀ p ∈ escapeDct, 32 ≤ p.2.toNat := by decide
  unfold escapeUnicode
  split
  · next letter h =>
    obtain ⟨s, t, heq, -⟩ := List.lookup_eq_some_iff.mp h
    have hmem : (c, letter) ∈ escapeDct := by
      rw [heq]
      simp
    exact .cons (by decide) (.cons (hletter _ hmem) .nil)
  · split
    · exact toNat_uEscape
    · next h => exact .cons (Nat.le_of_not_lt h) .nil

/-- A number is visible. -/
theorem visible_decimal (n : Nat) : Visible (decimal n) := by
  intro c hc
  have hdigit := decimal_digits n c hc
  simp only [isDigit, Bool.and_eq_true, decide_eq_true_eq] at hdigit
  omega

/-- So is an int. -/
theorem visible_intText (n : Int) : Visible (intText n) := by
  unfold intText
  split
  · exact .cons (by decide) (visible_decimal _)
  · exact visible_decimal _

/-- Digits are. -/
theorem visible_digits (s : List Char) : Visible (s.takeWhile isDigit) := by
  intro c hc
  have hdigit : isDigit c = true := List.mem_takeWhile_imp hc
  simp only [isDigit, Bool.and_eq_true, decide_eq_true_eq] at hdigit
  omega

/-- Those of a number that was scanned, too. -/
theorem visible_scanDigits {s ds r : List Char} (h : scanDigits s = some (ds, r)) : Visible ds := by
  unfold scanDigits at h
  split at h
  · cases h
  · split at h
    · cases h
      exact .cons (by decide) .nil
    · split at h
      · cases h
        exact visible_digits _
      · cases h

/-- Its integer. -/
theorem visible_scanInt {s ds r : List Char} {negative : Bool} (h : scanInt s = some (negative, ds, r)) : Visible ds := by
  unfold scanInt at h
  split at h
  all_goals
    simp only [Option.map_eq_some_iff, Prod.exists, Prod.mk.injEq] at h
    obtain ⟨ds', r', hd, -, rfl, -⟩ := h
    exact visible_scanDigits hd

/-- Its fraction. -/
theorem visible_scanFrac (s : List Char) : Visible (scanFrac s).1 := by
  unfold scanFrac
  split
  · split
    · exact .nil
    · exact .cons (by decide) (visible_digits _)
  · exact .nil

/-- Its exponent. -/
theorem visible_scanExp (s : List Char) : Visible (scanExp s).1 := by
  have hsign : ∀ r, Visible (scanSign r).1 := by
    intro r
    unfold scanSign
    split
    · exact .cons (by decide) .nil
    · exact .cons (by decide) .nil
    · exact .nil
  unfold scanExp
  split
  · next c r =>
    split
    · next h =>
      refine .cons ?_ ((hsign r).append (visible_digits _))
      rcases h.1 with rfl | rfl <;> decide
    · exact .nil
  · exact .nil

/-- The literal of a float is visible. -/
theorem visible_literal {s t r : List Char} (h : scanNumber s = some (.float t, r)) : Visible t := by
  unfold scanNumber at h
  simp only [Option.map_eq_some_iff, Prod.exists] at h
  obtain ⟨negative, ds, r', hint, h⟩ := h
  split at h
  · cases h
  · cases h
    refine (((?_ : Visible _).append (visible_scanInt hint)).append (visible_scanFrac _)).append (visible_scanExp _)
    cases negative
    · exact .nil
    · exact .cons (by decide) .nil

section

variable {esc : Char → List Char} (hesc : ∀ c, Visible (esc c))
include hesc

/-- A quoted string. -/
theorem visible_quote (s : List Char) : Visible ((oneLine esc).quote s) := by
  refine .cons (by decide) (Visible.append ?_ (.cons (by decide) .nil))
  intro c hc
  obtain ⟨d, -, hd⟩ := List.mem_flatMap.mp hc
  exact hesc d c hd

omit hesc in
/-- Items, if each is. -/
theorem visible_printItems {items : List Json} (each : ∀ item ∈ items, ∀ level, Visible ((oneLine esc).print level item))
    (level : Nat) : Visible ((oneLine esc).printItems level items) := by
  induction items with
  | nil => exact .cons (by decide) .nil
  | cons item items ih =>
    obtain ⟨hitem, hitems⟩ := List.forall_mem_cons.mp each
    exact .cons (by decide) (.cons (by decide) ((hitem (level + 1)).append (ih hitems)))

/-- Pairs, if each value is. -/
theorem visible_printPairs {pairs : List (List Char × Json)}
    (each : ∀ pair ∈ pairs, ∀ level, Visible ((oneLine esc).print level pair.2)) (level : Nat) :
    Visible ((oneLine esc).printPairs level pairs) := by
  induction pairs with
  | nil => exact .cons (by decide) .nil
  | cons pair pairs ih =>
    obtain ⟨hpair, hpairs⟩ := List.forall_mem_cons.mp each
    have hkey := visible_quote hesc pair.1
    have hcolon : Visible [':', ' '] := .cons (by decide) (.cons (by decide) .nil)
    exact .cons (by decide) (.cons (by decide) (((hkey.append hcolon).append (hpair (level + 1))).append (ih hpairs)))

/-- **A value on one line has no control characters.** -/
theorem Wf.visible {v : Json} (h : Wf v) : ∀ level, Visible ((oneLine esc).print level v) := by
  induction h with
  | null =>
    intro level
    rw [Layout.print]
    exact .of_all (by decide)
  | bool b =>
    intro level
    cases b
    · rw [Layout.print]
      exact .of_all (by decide)
    · rw [Layout.print]
      exact .of_all (by decide)
  | int n => intro level; rw [Layout.print]; exact visible_intText n
  | float literal => intro level; rw [Layout.print]; exact visible_literal literal
  | str s => intro level; rw [Layout.print]; exact visible_quote hesc s
  | @arr items each ih =>
    intro level
    cases items with
    | nil => rw [Layout.print]; exact .cons (by decide) (.cons (by decide) .nil)
    | cons item items =>
      obtain ⟨hitem, hitems⟩ := List.forall_mem_cons.mp ih
      rw [Layout.print]
      exact .cons (by decide) ((hitem (level + 1)).append (visible_printItems hitems level))
  | @obj pairs keys each ih =>
    intro level
    cases pairs with
    | nil => rw [Layout.print]; exact .cons (by decide) (.cons (by decide) .nil)
    | cons pair pairs =>
      obtain ⟨hpair, hpairs⟩ := List.forall_mem_cons.mp ih
      have hkey := visible_quote hesc pair.1
      have hcolon : Visible [':', ' '] := .cons (by decide) (.cons (by decide) .nil)
      rw [Layout.print]
      exact .cons (by decide) (((hkey.append hcolon).append (hpair (level + 1))).append (visible_printPairs hesc hpairs level))

end

/-- **A JSON line holds no line break.** -/
theorem visible_dumpsUnicode {v : Json} (h : Wf v) : Visible (dumpsUnicode v) := h.visible visible_escapeUnicode 0

/-- A line break behind a value does not matter to `json.loads`. -/
theorem loads_dumpsUnicode_line {v : Json} (h : Wf v) : loads (dumpsUnicode v ++ ['\n']) = some v :=
  loads_print_ws (readable_oneLine readBack_escapeUnicode) h (by simp [isWs])

end Json

end WarmLogic.Lib
