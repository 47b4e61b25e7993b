/-
# WarmLogic.Lib.JsonPrint — the layouts that `json.dumps` has, as one printer.

The calls of `json.dumps` differ in how a character is escaped (`ensure_ascii`) and in the whitespace between tokens
(`indent`). `Layout.print` takes both as parameters: `text`, the indented form, is one of its instances, and the
one-line forms `dumpsLine` and `dumpsUnicode` are others.
-/
import WarmLogic.Lib.Json

namespace WarmLogic.Lib

namespace Json

/-! ## The printer -/

/-- How a value is written: a character of a string, and the whitespace behind an opening bracket, behind a comma and
before a closing bracket of a level. -/
structure Layout where
  esc : Char → List Char
  lead : Nat → List Char
  next : Nat → List Char
  close : Nat → List Char

namespace Layout

/-- A string with its quotes. -/
def quote (L : Layout) (s : List Char) : List Char := '"' :: s.flatMap L.esc ++ ['"']

mutual

/-- A value on a level. -/
def print (L : Layout) (level : Nat) : Json → List Char
  | .null => ['n', 'u', 'l', 'l']
  | .bool true => ['t', 'r', 'u', 'e']
  | .bool false => ['f', 'a', 'l', 's', 'e']
  | .int n => intText n
  | .float literal => literal
  | .str s => L.quote s
  | .arr [] => ['[', ']']
  | .arr (item :: items) => '[' :: L.lead level ++ print L (level + 1) item ++ printItems L level items
  | .obj [] => ['{', '}']
  | .obj ((key, value) :: pairs) =>
      '{' :: L.lead level ++ L.quote key ++ [':', ' '] ++ print L (level + 1) value ++ printPairs L level pairs

/-- What follows an item of a list. -/
def printItems (L : Layout) (level : Nat) : List Json → List Char
  | [] => L.close level ++ [']']
  | item :: items => ',' :: L.next level ++ print L (level + 1) item ++ printItems L level items

/-- What follows a pair of a dict. -/
def printPairs (L : Layout) (level : Nat) : List (List Char × Json) → List Char
  | [] => L.close level ++ ['}']
  | (key, value) :: pairs =>
      ',' :: L.next level ++ L.quote key ++ [':', ' '] ++ print L (level + 1) value ++ printPairs L level pairs

end

end Layout

/-! ## The layouts of `json.dumps` -/

/-- One character inside a string under `ensure_ascii=False`: only control characters, quotes and backslashes are
escaped. -/
def escapeUnicode (c : Char) : List Char :=
  match escapeDct.lookup c with
  | some letter => ['\\', letter]
  | none => if c.toNat < 32 then uEscape c.toNat else [c]

/-- `indent=2`. -/
def indented : Layout where
  esc := escape
  lead level := newline (level + 1)
  next level := newline (level + 1)
  close := newline

/-- The separators `", "` and `": "`, all on one line. -/
def oneLine (esc : Char → List Char) : Layout where
  esc := esc
  lead _ := []
  next _ := [' ']
  close _ := []

/-- `json.dumps(v)`. -/
def dumpsLine (v : Json) : List Char := (oneLine escape).print 0 v

/-- `json.dumps(v, ensure_ascii=False)`. -/
def dumpsUnicode (v : Json) : List Char := (oneLine escapeUnicode).print 0 v

mutual

/-- The indented text is what the printer makes in that layout. -/
theorem text_eq_print (level : Nat) : ∀ v : Json, text level v = indented.print level v
  | .null => rfl
  | .bool true => rfl
  | .bool false => rfl
  | .int _ => rfl
  | .float _ => rfl
  | .str _ => rfl
  | .arr [] => rfl
  | .arr (item :: items) => by
      rw [text, Layout.print, text_eq_print (level + 1) item, itemsText_eq_print level items]
      rfl
  | .obj [] => rfl
  | .obj ((key, value) :: pairs) => by
      rw [text, Layout.print, text_eq_print (level + 1) value, pairsText_eq_print level pairs]
      rfl

theorem itemsText_eq_print (level : Nat) : ∀ items : List Json, itemsText level items = indented.printItems level items
  | [] => rfl
  | item :: items => by
      rw [itemsText, Layout.printItems, text_eq_print (level + 1) item, itemsText_eq_print level items]
      rfl

theorem pairsText_eq_print (level : Nat) :
    ∀ pairs : List (List Char × Json), pairsText level pairs = indented.printPairs level pairs
  | [] => rfl
  | (key, value) :: pairs => by
      rw [pairsText, Layout.printPairs, text_eq_print (level + 1) value, pairsText_eq_print level pairs]
      rfl

end

/-! ## On one line -/

mutual

/-- On one line the level does not show. -/
theorem print_oneLine (esc : Char → List Char) (level level' : Nat) :
    ∀ v : Json, (oneLine esc).print level v = (oneLine esc).print level' v
  | .null => rfl
  | .bool true => rfl
  | .bool false => rfl
  | .int _ => rfl
  | .float _ => rfl
  | .str _ => rfl
  | .arr [] => rfl
  | .arr (item :: items) => by
      rw [Layout.print, Layout.print, print_oneLine esc (level + 1) (level' + 1) item,
        printItems_oneLine esc level level' items]
      rfl
  | .obj [] => rfl
  | .obj ((key, value) :: pairs) => by
      rw [Layout.print, Layout.print, print_oneLine esc (level + 1) (level' + 1) value,
        printPairs_oneLine esc level level' pairs]
      rfl

theorem printItems_oneLine (esc : Char → List Char) (level level' : Nat) :
    ∀ items : List Json, (oneLine esc).printItems level items = (oneLine esc).printItems level' items
  | [] => rfl
  | item :: items => by
      rw [Layout.printItems, Layout.printItems, print_oneLine esc (level + 1) (level' + 1) item,
        printItems_oneLine esc level level' items]
      rfl

theorem printPairs_oneLine (esc : Char → List Char) (level level' : Nat) :
    ∀ pairs : List (List Char × Json), (oneLine esc).printPairs level pairs = (oneLine esc).printPairs level' pairs
  | [] => rfl
  | (key, value) :: pairs => by
      rw [Layout.printPairs, Layout.printPairs, print_oneLine esc (level + 1) (level' + 1) value,
        printPairs_oneLine esc level level' pairs]
      rfl

end

/-- The members of a dict on one line, with the closing brace. -/
theorem joined_pairs (esc : Char → List Char) (key : List Char) (value : Json) (pairs : List (List Char × Json)) :
    joined (((key, value) :: pairs).map fun pair =>
        (oneLine esc).quote pair.1 ++ [':', ' '] ++ (oneLine esc).print 0 pair.2) ++ ['}'] =
      (oneLine esc).quote key ++ [':', ' '] ++ (oneLine esc).print 0 value ++ (oneLine esc).printPairs 0 pairs := by
  induction pairs generalizing key value with
  | nil => simp [joined, Layout.printPairs, oneLine]
  | cons pair pairs ih =>
    have hcons : ∀ (x y : List Char) (xs : List (List Char)), joined (x :: y :: xs) = x ++ [',', ' '] ++ joined (y :: xs) := by
      intro x y xs
      simp [joined, List.intercalate]
    have hrest := ih pair.1 pair.2
    rw [List.map_cons] at hrest
    rw [List.map_cons, List.map_cons, hcons, List.append_assoc, hrest, Layout.printPairs,
      print_oneLine esc 1 0 pair.2]
    simp [oneLine]

/-- A dict on one line. -/
theorem dumpsUnicode_obj (pairs : List (List Char × Json)) :
    dumpsUnicode (.obj pairs) =
      '{' :: joined (pairs.map fun pair => (oneLine escapeUnicode).quote pair.1 ++ [':', ' '] ++ dumpsUnicode pair.2) ++
        ['}'] := by
  cases pairs with
  | nil => rfl
  | cons pair pairs =>
    have h := joined_pairs escapeUnicode pair.1 pair.2 pairs
    unfold dumpsUnicode
    rw [List.cons_append, h, Layout.print, print_oneLine escapeUnicode 1 0]
    rfl

theorem dumpsPairs_eq_map (pairs : List (List Char × Json)) :
    dumpsPairs pairs = pairs.map fun pair => (pair.1, dumpsSorted pair.2) := by
  induction pairs with
  | nil => rfl
  | cons pair pairs ih => rw [dumpsPairs, ih, List.map_cons]

end Json

end WarmLogic.Lib
