/-
# WarmLogic.Ledger.StateRoot — what a state root says about the balances.

`get_state_root` hashes the text `address:amount|address:amount|…` of the sorted balances. Addresses are any texts, so
the address `a:1|b` with 2 reads like the two addresses `a` with 1 and `b` with 2. With an injective hash, two ledgers
have one root exactly if their sorted entries are groupings of one list of entries; and a root binds the balances as
long as no address holds `:amount|`.
-/
import WarmLogic.Ledger.BlockCodec
import WarmLogic.Lib.EntryText
import WarmLogic.Crypto.Hex

namespace WarmLogic.Ledger.RustReplicatedLedger

open WarmLogic.Lib

variable {σ τ : Type} [SovereignStorage σ] [SovereignStorage τ]

/-- A number has digits only, so no separator. -/
theorem not_mem_toString {c : Char} (hc : c.isDigit = false) (n : Nat) : c ∉ (toString n).toList := by
  intro h
  have hd : c ∈ Nat.toDigits 10 n := by
    rw [← Nat.toList_repr]
    exact h
  have := Nat.isDigit_of_mem_toDigits (by decide) (by decide) hd
  rw [hc] at this
  exact Bool.false_ne_true this

/-- How the state text writes a balance. -/
def stateFormat : EntryFormat Char UInt64 where
  colon := ':'
  bar := '|'
  write v := (toString v.toNat).toList
  colon_ne_bar := by decide
  colon_not_mem v := not_mem_toString rfl v.toNat
  bar_not_mem v := not_mem_toString rfl v.toNat
  write_injective := by
    intro v w h
    have hdigits : Nat.toDigits 10 v.toNat = Nat.toDigits 10 w.toNat := by
      rw [← Nat.toList_repr, ← Nat.toList_repr]
      exact h
    have hnat := congrArg (fun ds => Nat.ofDigitChars 10 ds 0) hdigits
    simp only [Nat.ofDigitChars_toDigits (b := 10) (by decide) (by decide)] at hnat
    exact UInt64.toNat_inj.mp hnat

/-- The balances in the order of their addresses. -/
def entries (b : Balances) : List (List Char × UInt64) := b.toList.map fun p => (p.1.toList, p.2)

/-- The text `get_state_root` hashes. -/
def stateText (b : Balances) : String := "|".intercalate (b.toList.map fun (k, v) => k ++ ":" ++ toString v.toNat)

/-- The root is the hash of the state text of the listed balances. -/
theorem getStateRoot_eq (env : LedgerEnv) (l : RustReplicatedLedger σ) :
    l.getStateRoot env = env.sha3 (utf8 (stateText l.getAllBalances)) := rfl

/-- The state text as a concatenation of entries. -/
theorem toList_stateText (b : Balances) : (stateText b).toList = stateFormat.joinText (entries b) := by
  unfold stateText entries
  induction b.toList with
  | nil => rfl
  | cons p ps ih =>
      have hentry : (p.1 ++ ":" ++ toString p.2.toNat).toList = stateFormat.entryText (p.1.toList, p.2) := by
        simp [EntryFormat.entryText, stateFormat]
      cases ps with
      | nil =>
          rw [List.map_singleton, String.intercalate_singleton, hentry]
          rfl
      | cons q ps =>
          have hjoin := EntryFormat.joinText_cons_of_ne_nil (S := stateFormat) (p.1.toList, p.2)
            (List.cons_ne_nil (q.1.toList, q.2) (ps.map fun p => (p.1.toList, p.2)))
          rw [List.map_cons, String.intercalate_cons_of_ne_nil (by simp), String.toList_append, String.toList_append, ih]
          refine Eq.trans ?_ hjoin.symm
          rw [hentry, List.append_assoc]
          rfl

/-- The maps differ, and their entries read alike: both are groupings of one list. -/
def Confusable (b b' : Balances) : Prop :=
  (∃ a : String, b[a]? ≠ b'[a]?) ∧ ∃ ps, stateFormat.Grouped ps (entries b) ∧ stateFormat.Grouped ps (entries b')

/-- Equal texts: the same entries, or two groupings of one list. -/
theorem stateText_eq_iff (b b' : Balances) :
    stateText b = stateText b' ↔ ∃ ps, stateFormat.Grouped ps (entries b) ∧ stateFormat.Grouped ps (entries b') := by
  rw [← String.toList_inj, toList_stateText, toList_stateText]
  exact EntryFormat.joinText_eq_iff

/-- The same of the roots, with a hash that does not collide. -/
theorem getStateRoot_eq_iff {env : LedgerEnv} (hsha : Function.Injective env.sha3) (l : RustReplicatedLedger σ)
    (l' : RustReplicatedLedger τ) :
    l.getStateRoot env = l'.getStateRoot env ↔ stateText l.getAllBalances = stateText l'.getAllBalances := by
  rw [getStateRoot_eq, getStateRoot_eq, hsha.eq_iff, utf8_inj]

/-- Maps with the same sorted entries are the same map. -/
theorem getElem?_eq_of_entries {b b' : Balances} (h : entries b = entries b') (a : String) : b[a]? = b'[a]? := by
  have hlist : b.toList = b'.toList := by
    refine List.map_injective_iff.mpr ?_ h
    rintro ⟨k, v⟩ ⟨k', v'⟩ he
    obtain ⟨hk, hv⟩ := Prod.mk.inj he
    exact Prod.ext (String.toList_inj.mp hk) hv
  apply Option.ext
  intro v
  rw [← Std.TreeMap.mem_toList_iff_getElem?_eq_some, ← Std.TreeMap.mem_toList_iff_getElem?_eq_some, hlist]

/-- **When a state root binds the balances, exactly.** With an injective hash, equal roots mean equal balances if and
only if the two maps are not different groupings of one list of entries; they are not when no address holds an amount
between `:` and `|`. -/
theorem state_root_binding_iff (env : LedgerEnv) (hsha : Function.Injective env.sha3) (l : RustReplicatedLedger σ)
    (l' : RustReplicatedLedger τ) :
    ((l.getStateRoot env = l'.getStateRoot env → ∀ a : String, l.getAllBalances[a]? = l'.getAllBalances[a]?) ↔
      ¬ Confusable l.getAllBalances l'.getAllBalances) ∧
    ((∀ e ∈ entries l.getAllBalances ++ entries l'.getAllBalances, stateFormat.Plain e.1) →
      ¬ Confusable l.getAllBalances l'.getAllBalances) := by
  refine ⟨?_, ?_⟩
  · rw [getStateRoot_eq_iff hsha, stateText_eq_iff, Confusable]
    constructor
    · rintro h ⟨⟨a, ha⟩, hps⟩
      exact ha (h hps a)
    · intro h hps a
      by_contra ha
      exact h ⟨⟨a, ha⟩, hps⟩
  · rintro hplain ⟨⟨a, ha⟩, hps⟩
    have hjoin := EntryFormat.joinText_eq_iff.mpr hps
    have heq := EntryFormat.joinText_injective (fun e he => hplain e (List.mem_append_left _ he))
      (fun e he => hplain e (List.mem_append_right _ he)) hjoin
    exact ha (getElem?_eq_of_entries heq a)

/-- An environment whose hash is injective: the bytes in hex. -/
def hexEnv : LedgerEnv where
  sha3 := WarmLogic.Federation.hexEncode
  verifyRaw _ _ _ := false
  showF64 _ := ""
  codec := Borsh.ledgerCodec

/-- A new ledger in memory that took over the given balances. -/
def holding (env : LedgerEnv) (b : Balances) : RustReplicatedLedger MemoryStore :=
  ((new MemoryStore.new).syncState env b []).1

/-- Three addresses that use a separator each, but not one behind the other. -/
def threeAddresses (carol : UInt64) : Balances :=
  ((Std.TreeMap.empty.insert "node:7" 1000).insert "x|y" 20).insert "carol" carol

/-- The roots of two ledgers with three plain addresses each bind their balances, and the balances differ in one. -/
theorem plain_roots_bind :
    ¬ Confusable (holding hexEnv (threeAddresses 5)).getAllBalances (holding hexEnv (threeAddresses 6)).getAllBalances ∧
      ((holding hexEnv (threeAddresses 5)).getStateRoot hexEnv = (holding hexEnv (threeAddresses 6)).getStateRoot hexEnv →
        ∀ a : String, (holding hexEnv (threeAddresses 5)).getAllBalances[a]? = (holding hexEnv (threeAddresses 6)).getAllBalances[a]?) ∧
      (holding hexEnv (threeAddresses 5)).getStateRoot hexEnv ≠ (holding hexEnv (threeAddresses 6)).getStateRoot hexEnv := by
  have hall : ((entries (holding hexEnv (threeAddresses 5)).getAllBalances ++
      entries (holding hexEnv (threeAddresses 6)).getAllBalances).all
        fun e => !e.1.contains ':' || !e.1.contains '|') = true := by decide +kernel
  have hbind := state_root_binding_iff hexEnv WarmLogic.Crypto.hexEncode_injective (holding hexEnv (threeAddresses 5))
    (holding hexEnv (threeAddresses 6))
  have hnot := hbind.2 fun e he => stateFormat.plain_of_not_mem (by
    simpa [stateFormat] using List.all_eq_true.mp hall e he)
  refine ⟨hnot, hbind.1.mpr hnot, fun heq => ?_⟩
  exact absurd (hbind.1.mpr hnot heq "carol") (by decide +kernel)

/-- The one address `a:1|b` with 2 units, and the two addresses `a` with 1 and `b` with 2: one root. -/
theorem state_roots_collide : ¬ ∀ (env : LedgerEnv), Function.Injective env.sha3 →
    ∀ b b' : Balances, (holding env b).getStateRoot env = (holding env b').getStateRoot env →
      ∀ a : String, (holding env b).getAllBalances[a]? = (holding env b').getAllBalances[a]? := by
  intro h
  have hbad := h hexEnv WarmLogic.Crypto.hexEncode_injective (Std.TreeMap.empty.insert "a:1|b" 2)
    ((Std.TreeMap.empty.insert "a" 1).insert "b" 2) (by decide +kernel) "a"
  exact absurd hbad (by decide +kernel)

end WarmLogic.Ledger.RustReplicatedLedger
