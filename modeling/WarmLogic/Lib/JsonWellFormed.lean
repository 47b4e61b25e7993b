/-
# WarmLogic.Lib.JsonWellFormed — What parses can be printed.

A value that `json.loads` returns has float literals for its floats and distinct keys in its dicts; so it can be printed
and is read back again.

The printer is defined on every value, but prints a text that is read back only for a value that Python can have: the
model keeps a float as its literal, and a dict as a list of pairs, so a value could hold a literal that is no number
or one key twice (`Wf` of `JsonRoundTrip` excludes both). For the files of this development that matters in one
direction: what a program reads it later writes again.

That the scanner returns only such values is an induction on the rounds (`Accepts`), with one step for each of the
three mutual functions. The two leaves are where something happens: a literal that was read scans itself
(`scanNumber_literal`), and a dict is built by setting one key after the other, which keeps its keys distinct
(`setItem_nodup`).
-/
import WarmLogic.Lib.JsonRoundTrip

namespace WarmLogic.Lib

namespace Json

/-! ## Literals that were read -/

/-- The digits in front of something else. -/
theorem takeWhile_digits_self {s x : List Char} (hx : NoDigit x) :
    (s.takeWhile isDigit ++ x).takeWhile isDigit = s.takeWhile isDigit ∧
      (s.takeWhile isDigit ++ x).dropWhile isDigit = x := by
  have all : ∀ c ∈ s.takeWhile isDigit, isDigit c = true := fun c hc => List.mem_takeWhile_imp hc
  have none : (s.takeWhile isDigit).dropWhile isDigit = [] := List.dropWhile_eq_nil_iff.2 all
  have := takeWhile_digits_append (s := s.takeWhile isDigit) (x := x) (by rw [none]; exact hx)
  rwa [none, List.takeWhile_eq_self_iff.2 all] at this

/-- What was scanned as digits is scanned so again. -/
theorem scanDigits_self {s ds r x : List Char} (h : scanDigits s = some (ds, r)) (hx : NoDigit x) :
    scanDigits (ds ++ x) = some (ds, x) ∧ ∃ c t, ds = c :: t ∧ c ≠ '-' := by
  cases s with
  | nil => simp [scanDigits] at h
  | cons c s =>
    simp only [scanDigits] at h
    split at h
    · next hc =>
      cases h
      exact ⟨rfl, '0', [], rfl, by decide⟩
    · next hc =>
      split at h
      · next hd =>
        simp only [Option.some.injEq, Prod.mk.injEq] at h
        have hself := takeWhile_digits_self (s := c :: s) hx
        rw [h.1] at hself
        obtain ⟨t, rfl⟩ : ∃ t, ds = c :: t := ⟨_, by rw [← h.1, List.takeWhile_cons_of_pos hd]⟩
        refine ⟨?_, c, t, rfl, ?_⟩
        · simp only [List.cons_append] at hself ⊢
          simp only [scanDigits, if_neg hc, if_pos hd, hself.1, hself.2]
        · rintro rfl
          exact absurd hd (by decide)
      · cases h

/-- So is an integer with its sign. -/
theorem scanInt_self {s ds r x : List Char} {negative : Bool} (h : scanInt s = some (negative, ds, r)) (hx : NoDigit x) :
    scanInt ((if negative then ['-'] else []) ++ ds ++ x) = some (negative, ds, x) := by
  unfold scanInt at h
  split at h
  · simp only [Option.map_eq_some_iff, Prod.exists, Prod.mk.injEq] at h
    obtain ⟨ds', r', hd, rfl, rfl, rfl⟩ := h
    simp [scanInt, (scanDigits_self hd hx).1]
  · simp only [Option.map_eq_some_iff, Prod.exists, Prod.mk.injEq] at h
    obtain ⟨ds', r', hd, rfl, rfl, rfl⟩ := h
    obtain ⟨hself, c, t, rfl, hc⟩ := scanDigits_self hd hx
    show scanInt (c :: (t ++ x)) = _
    unfold scanInt
    split
    · next heq => exact absurd (List.cons.inj heq).1 hc
    · rw [← List.cons_append, hself]
      rfl

/-- And a fraction. -/
theorem scanFrac_self {s f r x : List Char} (h : scanFrac s = (f, r)) (hx : NoDigit x)
    (hdot : ∀ c ∈ x.head?, c ≠ '.') : scanFrac (f ++ x) = (f, x) ∧ NoDigit (f ++ x) := by
  have unread : scanFrac x = ([], x) := by
    unfold scanFrac
    split
    · next t => exact absurd rfl (hdot '.' (by simp))
    · rfl
  unfold scanFrac at h
  split at h
  · next t =>
    split at h
    · cases h
      exact ⟨unread, hx⟩
    · next hsome =>
      simp only [Prod.mk.injEq] at h
      have hself := takeWhile_digits_self (s := t) hx
      rw [← h.1]
      refine ⟨?_, ?_⟩
      · simp only [List.cons_append, scanFrac, hself.1, hself.2, if_neg hsome]
      · simp [NoDigit, isDigit]
  · cases h
    exact ⟨unread, hx⟩

/-- The sign of an exponent. -/
theorem scanSign_fst (s : List Char) : (scanSign s).1 = ['+'] ∨ (scanSign s).1 = ['-'] ∨ (scanSign s).1 = [] := by
  unfold scanSign
  split <;> simp

/-- And an exponent. -/
theorem scanExp_self {s e r : List Char} (h : scanExp s = (e, r)) :
    scanExp e = (e, []) ∧ NoDigit e ∧ ∀ c ∈ e.head?, c ≠ '.' := by
  unfold scanExp at h
  split at h
  · next c s =>
    split at h
    · next hc =>
      simp only [Prod.mk.injEq] at h
      have hself := takeWhile_digits_self (s := (scanSign s).2) (x := []) (by simp [NoDigit])
      simp only [List.append_nil] at hself
      -- the sign is read again, and the digits after it are none of its own
      have hsign : scanSign ((scanSign s).1 ++ (scanSign s).2.takeWhile isDigit) =
          ((scanSign s).1, (scanSign s).2.takeWhile isDigit) := by
        obtain ⟨d, t, hd⟩ := List.exists_cons_of_ne_nil hc.2
        have hdigit : isDigit d = true := List.mem_takeWhile_imp (by rw [hd]; simp)
        have hplus : d ≠ '+' := by rintro rfl; exact absurd hdigit (by decide)
        have hminus : d ≠ '-' := by rintro rfl; exact absurd hdigit (by decide)
        rw [hd]
        rcases scanSign_fst s with hs | hs | hs <;> rw [hs]
        · rfl
        · rfl
        · unfold scanSign
          split
          · next heq => exact absurd (List.cons.inj heq).1 hplus
          · next heq => exact absurd (List.cons.inj heq).1 hminus
          · rfl
      have hfirst : isDigit c = false ∧ c ≠ '.' := by
        obtain rfl | rfl := hc.1 <;> decide
      rw [← h.1]
      refine ⟨?_, ?_, ?_⟩
      · simp only [List.cons_append, scanExp, hsign, hself.1, hself.2, if_pos hc]
      · simpa [NoDigit] using hfirst.1
      · simpa using hfirst.2
    · cases h
      simp [scanExp, NoDigit]
  · cases h
    simp [scanExp, NoDigit]

/-- The literal of a float that was read is a float literal. -/
theorem scanNumber_literal {s t r : List Char} (h : scanNumber s = some (.float t, r)) :
    scanNumber t = some (.float t, []) := by
  unfold scanNumber at h
  simp only [Option.map_eq_some_iff, Prod.exists] at h
  obtain ⟨negative, ds, r₁, hint, h⟩ := h
  obtain ⟨f, r₂, hfrac⟩ : ∃ f r₂, scanFrac r₁ = (f, r₂) := ⟨_, _, rfl⟩
  obtain ⟨e, r₃, hexp⟩ : ∃ e r₃, scanExp r₂ = (e, r₃) := ⟨_, _, rfl⟩
  simp only [hfrac, hexp] at h
  split at h
  · cases h
  · next hsome =>
    have ht : (if negative then ['-'] else []) ++ ds ++ (f ++ e) = t := by
      rw [← List.append_assoc]
      exact Json.float.inj (Prod.mk.inj h).1
    have hexp' := scanExp_self hexp
    have hfrac' := scanFrac_self hfrac hexp'.2.1 hexp'.2.2
    have hint' := scanInt_self hint hfrac'.2
    rw [ht] at hint'
    unfold scanNumber
    rw [hint']
    simp only [Option.map_some, hfrac'.1, hexp'.1, if_neg hsome, List.append_assoc]
    rw [← List.append_assoc, ht]

/-- **A number that was scanned is well formed**: its own text is scanned to it. -/
theorem scanNumber_wf {s r : List Char} {v : Json} (h : scanNumber s = some (v, r)) : Wf v := by
  have hnum := scanNumber_isNumber h
  cases v with
  | int n => exact .int n
  | float t => exact .float (scanNumber_literal h)
  | _ => exact absurd hnum id

/-! ## Dicts -/

/-- The keys behind an assignment. -/
theorem keys_setItem (d : List (List Char × Json)) (key : List Char) (value : Json) :
    (setItem d key value).map (·.1) = if key ∈ d.map (·.1) then d.map (·.1) else d.map (·.1) ++ [key] := by
  induction d with
  | nil => rfl
  | cons pair d ih =>
    unfold setItem
    split
    · next heq => simp [heq]
    · next hne =>
      rw [List.map_cons, ih]
      have : key ≠ pair.1 := Ne.symm hne
      by_cases hmem : key ∈ d.map (·.1) <;> simp [hmem, this]

/-- They stay distinct. -/
theorem setItem_nodup {d : List (List Char × Json)} (h : (d.map (·.1)).Nodup) (key : List Char) (value : Json) :
    ((setItem d key value).map (·.1)).Nodup := by
  rw [keys_setItem]
  split
  · exact h
  · next hfresh =>
    refine List.nodup_append.2 ⟨h, by simp, fun a ha b hb hab => hfresh ?_⟩
    rwa [← List.mem_singleton.1 hb, ← hab]

/-- A value behind it is an old one or the new. -/
theorem mem_setItem {d : List (List Char × Json)} {key : List Char} {value : Json} {pair : List Char × Json}
    (h : pair ∈ setItem d key value) : pair ∈ d ∨ pair.2 = value := by
  induction d with
  | nil =>
    rw [setItem, List.mem_singleton] at h
    exact .inr (by rw [h])
  | cons first d ih =>
    unfold setItem at h
    split at h
    · rcases List.mem_cons.1 h with rfl | h
      · exact .inr rfl
      · exact .inl (List.mem_cons_of_mem _ h)
    · rcases List.mem_cons.1 h with rfl | h
      · exact .inl List.mem_cons_self
      · exact (ih h).imp_left (List.mem_cons_of_mem _)

/-- Setting a key of a dict to a value that can be printed leaves a dict that can be printed. -/
theorem Wf.setItem {d : List (List Char × Json)} (h : Wf (.obj d)) (key : List Char) {value : Json} (hv : Wf value) :
    Wf (.obj (setItem d key value)) := by
  cases h with
  | obj keys each =>
    refine .obj (setItem_nodup keys key value) fun pair hp => ?_
    rcases mem_setItem hp with hp | hp
    · exact each pair hp
    · rw [hp]
      exact hv

/-- An object of well-formed values is well formed; of equal keys the last counts. -/
theorem ofPairs_wf {pairs : List (List Char × Json)} (h : ∀ pair ∈ pairs, Wf pair.2) : Wf (.obj (ofPairs pairs)) := by
  have onto : ∀ d, Wf (.obj d) → Wf (.obj (pairs.foldl (fun d pair => Json.setItem d pair.1 pair.2) d)) := by
    induction pairs with
    | nil => exact fun d hd => hd
    | cons pair pairs ih =>
      intro d hd
      exact ih (fun p hp => h p (List.mem_cons_of_mem _ hp)) _ (hd.setItem pair.1 (h pair List.mem_cons_self))
  exact onto [] (.obj List.nodup_nil (by simp))

/-! ## The scanner -/

/-- Whatever a scanner reads can be printed. Proved for the members and the pairs with it, since a list and a dict are
only as good as what they hold. -/
structure Accepts (n : Nat) : Prop where
  once : ∀ {s r : List Char} {v : Json}, scanOnce n s = some (v, r) → Wf v
  pairs : ∀ {s r : List Char} {ps : List (List Char × Json)}, scanPairs n s = some (ps, r) → ∀ pair ∈ ps, Wf pair.2
  items : ∀ {s r : List Char} {vs : List Json}, scanItems n s = some (vs, r) → ∀ v ∈ vs, Wf v

/-- Items, once values of less fuel are. -/
theorem accepts_items {n : Nat} (ih : Accepts n) {s r : List Char} {vs : List Json}
    (h : scanItems (n + 1) s = some (vs, r)) : ∀ v ∈ vs, Wf v := by
  obtain ⟨item, r₁, hitem, ⟨-, rfl⟩ | ⟨r₂, vs', -, hrest, rfl⟩⟩ := scanItems_succ.1 h
  · simpa using ih.once hitem
  · exact List.forall_mem_cons.2 ⟨ih.once hitem, ih.items hrest⟩

/-- Pairs, once values of less fuel are. -/
theorem accepts_pairs {n : Nat} (ih : Accepts n) {s r : List Char} {ps : List (List Char × Json)}
    (h : scanPairs (n + 1) s = some (ps, r)) : ∀ pair ∈ ps, Wf pair.2 := by
  obtain ⟨key, r₁, r₂, value, r₃, -, -, hvalue, ⟨-, rfl⟩ | ⟨r₄, r₅, ps', -, -, hrest, rfl⟩⟩ := scanPairs_succ.1 h
  · simpa using ih.once hvalue
  · exact List.forall_mem_cons.2 ⟨ih.once hvalue, ih.pairs hrest⟩

/-- A literal is the value it stands for. -/
theorem scanLiteral_eq {word s r : List Char} {u v : Json} (h : scanLiteral word u s = some (v, r)) : v = u := by
  unfold scanLiteral at h
  split_ifs at h
  exact (Prod.mk.inj (Option.some.inj h)).1.symm

/-- A value, once those of less fuel are. -/
theorem accepts_once {n : Nat} (ih : Accepts n) {s r : List Char} {v : Json}
    (h : scanOnce (n + 1) s = some (v, r)) : Wf v := by
  cases scanOnce_succ.1 h with
  | str h => exact .str _
  | emptyObj h => exact .obj List.nodup_nil (by simp)
  | obj hskip hps => exact ofPairs_wf (ih.pairs hps)
  | emptyArr h => exact .arr (by simp)
  | arr hskip hc hvs => exact .arr (ih.items hvs)
  | null h => exact scanLiteral_eq h ▸ .null
  | true h => exact scanLiteral_eq h ▸ .bool true
  | false h => exact scanLiteral_eq h ▸ .bool false
  | number h => exact scanNumber_wf h

/-- **Whatever is scanned is well formed**, by induction on the fuel. -/
theorem accepts (n : Nat) : Accepts n := by
  induction n with
  | zero =>
    refine ⟨fun h => ?_, fun h => ?_, fun h => ?_⟩
    · simp [scanOnce] at h
    · simp [scanPairs] at h
    · simp [scanItems] at h
  | succ n ih => exact ⟨accepts_once ih, accepts_pairs ih, accepts_items ih⟩

/-- **What parses can be printed**: its floats are literals and its dicts have distinct keys. -/
theorem loads_wf {s : List Char} {v : Json} (h : loads s = some v) : Wf v := by
  unfold loads at h
  obtain ⟨⟨u, r⟩, hscan, h⟩ := Option.bind_eq_some_iff.1 h
  simp only at h
  split at h
  · cases h
    exact (accepts _).once hscan
  · cases h

end Json

end WarmLogic.Lib
