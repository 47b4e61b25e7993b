/-
# WarmLogic.Lib.LeaderLog — replicated logs under one leader per term.

The protocol pattern behind Raft, in its own terms. `led T l` says that `l` was, at some time, the log of the
leader of term `T`. The leader only appends entries of its own term, so the led logs of one term form a
chain. A log is `Backed` when each of its entries was put there, with everything in front of it, by the leader
of the entry's term; this alone gives log matching. With elections whose voters compare logs, it gives leader
completeness: what a majority held in term `T` is a prefix of every log led in a later term.
-/
import Mathlib.Data.List.Infix
import WarmLogic.Lib.Majority

namespace WarmLogic.Lib

variable {E V : Type*} {term : E → ℕ} {led led' : ℕ → List E → Prop} {T : ℕ}

/-! ## Logs of one leader -/

/-- `l'` extends `l` by entries of term `T`. -/
def Grows (term : E → ℕ) (T : ℕ) (l l' : List E) : Prop :=
  ∃ ext, l' = l ++ ext ∧ ∀ x ∈ ext, term x = T

theorem Grows.refl (l : List E) : Grows term T l l := ⟨[], by simp, by simp⟩

theorem Grows.snoc {l l' : List E} (h : Grows term T l l') {x : E} (hx : term x = T) :
    Grows term T l (l' ++ [x]) := by
  obtain ⟨ext, rfl, hext⟩ := h
  refine ⟨ext ++ [x], by simp, ?_⟩
  intro y hy
  rcases List.mem_append.mp hy with hy | hy
  · exact hext y hy
  · rw [List.mem_singleton.mp hy]
    exact hx

theorem Grows.isPrefix {l l' : List E} (h : Grows term T l l') : l <+: l' := by
  obtain ⟨ext, rfl, -⟩ := h
  exact List.prefix_append l ext

/-- The led logs of one term form a chain, with only entries of that term between them. -/
def Chained (term : E → ℕ) (led : ℕ → List E → Prop) : Prop :=
  ∀ T l l', led T l → led T l' → Grows term T l l' ∨ Grows term T l' l

/-- Two prefixes of led logs of one term are comparable. -/
theorem Chained.comparable (hc : Chained term led) {l l' p p' : List E} (hl : led T l) (hl' : led T l')
    (hp : p <+: l) (hp' : p' <+: l') : p <+: p' ∨ p' <+: p := by
  rcases hc T l l' hl hl' with h | h
  · exact List.prefix_or_prefix_of_prefix (hp.trans h.isPrefix) hp'
  · exact List.prefix_or_prefix_of_prefix hp (hp'.trans h.isPrefix)

/-- A strictly longer prefix of a led log of the same term goes on with an entry of that term. -/
theorem Chained.term_of_longer (hc : Chained term led) {l l' p : List E} (hl : led T l) (hl' : led T l')
    (hp : p <+: l') {x : E} (hx : p[l.length]? = some x) : term x = T := by
  have hlt : l.length < p.length := (List.getElem?_eq_some_iff.mp hx).1
  rcases hc T l l' hl hl' with ⟨ext, rfl, hext⟩ | h
  · have hget : (l ++ ext)[l.length]? = some x := by
      obtain ⟨rest, hrest⟩ := hp
      rw [← hrest, List.getElem?_append_left hlt]
      exact hx
    rw [List.getElem?_append_right (le_refl _)] at hget
    exact hext x (List.mem_of_getElem? hget)
  · -- then `l'` is no longer than `l`, and `p` cannot be either
    have := h.isPrefix.length_le
    have := hp.length_le
    omega

/-! ## Backed logs and matching -/

/-- Every entry of the log stands where the leader of its term had it, behind the same entries. -/
def Backed (term : E → ℕ) (led : ℕ → List E → Prop) (log : List E) : Prop :=
  ∀ i x, log[i]? = some x → ∃ l, led (term x) l ∧ log.take (i + 1) <+: l

theorem backed_nil : Backed term led [] := by
  intro i x h
  cases h

theorem Backed.mono {log : List E} (h : Backed term led log) (hled : ∀ T l, led T l → led' T l) :
    Backed term led' log := by
  intro i x hx
  obtain ⟨l, hl, hp⟩ := h i x hx
  exact ⟨l, hled _ _ hl, hp⟩

/-- Appending to a backed log what its leader appended. -/
theorem Backed.snoc {log : List E} (h : Backed term led log) {x : E} (hx : led (term x) (log ++ [x])) :
    Backed term led (log ++ [x]) := by
  intro i y hy
  by_cases hi : i < log.length
  · rw [List.getElem?_append_left hi] at hy
    obtain ⟨l, hl, hp⟩ := h i y hy
    refine ⟨l, hl, ?_⟩
    rw [List.take_append_of_le_length (by omega)]
    exact hp
  · have hlen : i = log.length := by
      have := (List.getElem?_eq_some_iff.mp hy).1
      rw [List.length_append, List.length_singleton] at this
      omega
    subst hlen
    rw [List.getElem?_append_right (le_refl _), Nat.sub_self] at hy
    cases hy
    exact ⟨_, hx, List.take_prefix _ _⟩

/-- **Log matching.** Backed logs with entries of one term at one position agree up to there. -/
theorem Backed.take_eq {a b : List E} (hc : Chained term led) (ha : Backed term led a)
    (hb : Backed term led b) {i : ℕ} {x y : E} (hx : a[i]? = some x) (hy : b[i]? = some y)
    (hterm : term x = term y) : a.take (i + 1) = b.take (i + 1) := by
  obtain ⟨l, hl, hpa⟩ := ha i x hx
  obtain ⟨l', hl', hpb⟩ := hb i y hy
  rw [← hterm] at hl'
  have hla : (a.take (i + 1)).length = i + 1 :=
    List.length_take_of_le (List.getElem?_eq_some_iff.mp hx).1
  have hlb : (b.take (i + 1)).length = i + 1 :=
    List.length_take_of_le (List.getElem?_eq_some_iff.mp hy).1
  rcases hc.comparable hl hl' hpa hpb with h | h
  · exact h.eq_of_length (by omega)
  · exact (h.eq_of_length (by omega)).symm

/-! ## Elections that compare logs -/

/-- The term of the last entry, 0 for the empty log. -/
def lastTerm (term : E → ℕ) (log : List E) : ℕ := (log.getLast?.map term).getD 0

/-- `L` is at least as up to date as `l`: a later last term, or the same and no shorter. -/
def UpToDate (term : E → ℕ) (L l : List E) : Prop :=
  lastTerm term l < lastTerm term L ∨ (lastTerm term L = lastTerm term l ∧ l.length ≤ L.length)

/-- The terms never decrease along the log. -/
def Sorted (term : E → ℕ) (log : List E) : Prop := log.Pairwise fun x y => term x ≤ term y

theorem lastTerm_snoc (log : List E) (x : E) : lastTerm term (log ++ [x]) = term x := by
  rw [lastTerm, List.getLast?_concat]
  rfl

theorem Sorted.le_lastTerm {log : List E} (h : Sorted term log) {x : E} (hx : x ∈ log) :
    term x ≤ lastTerm term log := by
  rcases List.eq_nil_or_concat log with rfl | ⟨front, y, rfl⟩
  · cases hx
  · rw [List.concat_eq_append] at h hx ⊢
    rw [lastTerm_snoc]
    rcases List.mem_append.mp hx with hx | hx
    · exact (List.pairwise_append.mp h).2.2 x hx y (List.mem_singleton_self y)
    · rw [List.mem_singleton.mp hx]

theorem Sorted.snoc {log : List E} (h : Sorted term log) {x : E} (hx : ∀ y ∈ log, term y ≤ term x) :
    Sorted term (log ++ [x]) := by
  refine List.pairwise_append.mpr ⟨h, List.pairwise_singleton _ _, ?_⟩
  intro y hy z hz
  rw [List.mem_singleton.mp hz]
  exact hx y hy

/-- The last entry of a nonempty backed log ties the whole log to a led log of its last term. -/
theorem Backed.isPrefix_led {log : List E} (h : Backed term led log) (hne : log ≠ []) :
    ∃ l, led (lastTerm term log) l ∧ log <+: l := by
  rcases List.eq_nil_or_concat log with rfl | ⟨front, y, rfl⟩
  · exact absurd rfl hne
  · rw [List.concat_eq_append] at h ⊢
    obtain ⟨l, hl, hp⟩ := h front.length y (by simp)
    refine ⟨l, by rwa [lastTerm_snoc], ?_⟩
    rwa [List.take_of_length_le (by simp)] at hp

/-- **The vote transfers the prefix.** If a voter's log starts with `p`, whose last term is `T`, and every
log led after `T` (and before the candidate's term `T'`) starts with `p`, then the candidate's log, at least
as up to date as the voter's, starts with `p`. -/
theorem UpToDate.transfer {L lv p : List E} {T' : ℕ} (hup : UpToDate term L lv) (hc : Chained term led)
    (hL : Backed term led L) (hlv : Backed term led lv) (hslv : Sorted term lv)
    (hbound : lastTerm term L < T') (hp : p <+: lv) (hne : p ≠ []) (hlast : lastTerm term p = T)
    (hsp : Sorted term p) (hlater : ∀ T₁ l, T < T₁ → T₁ < T' → led T₁ l → p <+: l) : p <+: L := by
  have hlvne : lv ≠ [] := by
    rintro rfl
    exact hne (List.prefix_nil.mp hp)
  have hTle : T ≤ lastTerm term lv := by
    obtain ⟨y, hy⟩ := List.getLast?_isSome.mpr hne |> Option.isSome_iff_exists.mp
    have hyT : term y = T := by rw [← hlast, lastTerm, hy]; rfl
    rw [← hyT]
    exact hslv.le_lastTerm (hp.subset (List.mem_of_getLast? hy))
  rcases hup with hlt | ⟨heq, hlen⟩
  · -- a later last term: its leader had `p`, and `L` is too late to end inside `p`
    have hLne : L ≠ [] := by
      rintro rfl
      exact absurd hlt (Nat.not_lt_zero _)
    obtain ⟨l, hl, hpre⟩ := hL.isPrefix_led hLne
    rcases List.prefix_or_prefix_of_prefix (hlater _ l (by omega) hbound hl) hpre with h | h
    · exact h
    · obtain ⟨y, hy⟩ := List.getLast?_isSome.mpr hLne |> Option.isSome_iff_exists.mp
      have hyterm : term y = lastTerm term L := by rw [lastTerm, hy]; rfl
      have := hsp.le_lastTerm (h.subset (List.mem_of_getLast? hy))
      omega
  · -- the same last term: both logs are prefixes of that leader's logs
    have hLne : L ≠ [] := by
      rintro rfl
      exact hlvne (List.length_eq_zero_iff.mp (Nat.le_zero.mp hlen))
    obtain ⟨l, hl, hpre⟩ := hL.isPrefix_led hLne
    obtain ⟨l', hl', hpre'⟩ := hlv.isPrefix_led hlvne
    rw [← heq] at hl'
    rcases hc.comparable hl' hl hpre' hpre with h | h
    · exact hp.trans h
    · rw [h.eq_of_length_le hlen]
      exact hp

/-! ## Leader completeness -/

/-- A voter's testimony for the election of term `T'` with candidate log `L`: the log it compared, and what
became of everything it had held in earlier terms. -/
structure Testimony (term : E → ℕ) (led : ℕ → List E → Prop) (held : ℕ → List E → Prop) (T' : ℕ)
    (L : List E) : Prop where
  exists_log : ∃ lv, Backed term led lv ∧ Sorted term lv ∧ UpToDate term L lv ∧
    ∀ T p, T < T' → held T p →
      p <+: lv ∨ ∃ T₁ l, T < T₁ ∧ T₁ < T' ∧ led T₁ l ∧ ¬ p <+: l

/-- Every led log goes back to an election by a majority. -/
def Elected [DecidableEq V] (term : E → ℕ) (led : ℕ → List E → Prop) (members : Finset V)
    (held : V → ℕ → List E → Prop) : Prop :=
  ∀ T l, led T l → ∃ L, L <+: l ∧ Backed term led L ∧ lastTerm term L < T ∧
    ∃ Q, MajorityOf members Q ∧ ∀ v ∈ Q, Testimony term led (held v) T L

/-- A majority held `p`, which ends in an entry of term `T`, in term `T`. -/
structure Committed [DecidableEq V] (term : E → ℕ) (members : Finset V) (held : V → ℕ → List E → Prop)
    (T : ℕ) (p : List E) : Prop where
  ne_nil : p ≠ []
  last : lastTerm term p = T
  sorted : Sorted term p
  majority : ∃ Q, MajorityOf members Q ∧ ∀ v ∈ Q, held v T p

/-- **Leader completeness.** What was committed in a term is a prefix of every log led later. -/
theorem Committed.isPrefix_led [DecidableEq V] {members : Finset V} {held : V → ℕ → List E → Prop}
    {p : List E} (hcom : Committed term members held T p) (hc : Chained term led)
    (he : Elected term led members held) {T' : ℕ} (hT : T < T') {l : List E} (hl : led T' l) :
    p <+: l := by
  -- strong induction on the later term: every log led between the two already starts with `p`
  induction T' using Nat.strong_induction_on generalizing l with
  | _ T' ih =>
      obtain ⟨L, hLl, hLb, hbound, Q, hQ, htest⟩ := he T' l hl
      obtain ⟨Q', hQ', hheld⟩ := hcom.majority
      obtain ⟨v, -, hvQ, hvQ'⟩ := hQ.inter hQ'
      obtain ⟨lv, hlvb, hlvs, hup, hkept⟩ := (htest v hvQ).exists_log
      have hplv : p <+: lv := by
        rcases hkept T p hT (hheld v hvQ') with h | ⟨T₁, l₁, h1, h2, hl₁, hno⟩
        · exact h
        · exact absurd (ih T₁ h2 h1 hl₁) hno
      have hpL : p <+: L := hup.transfer hc hLb hlvb hlvs hbound hplv hcom.ne_nil hcom.last hcom.sorted
        (fun T₁ l₁ h1 h2 hl₁ => ih T₁ h2 h1 hl₁)
      exact hpL.trans hLl

end WarmLogic.Lib
