/-
# WarmLogic.Lib.Ranking — an incumbent that candidates replace, when replacement ranks them.

Candidates carry a key, and those with the same key count as the same. `replaces a b` says that `b` takes the place of
`a`. Where replacement is total between different keys and transitive, whoever tops all candidates seen is determined
up to its key (`Ranked.agree`), in whatever order they came, and however often.
-/
import Mathlib.Logic.Basic

namespace WarmLogic.Lib

universe u v

variable {α : Type u} {κ : Type v}

/-- Replacement ranks these candidates: one of two with different keys replaces the other, and no chain of replacements
comes back to a key it left. -/
structure Ranked (replaces : α → α → Prop) (key : α → κ) (S : α → Prop) : Prop where
  differs : ∀ a b, S a → S b → replaces a b → key a ≠ key b
  total : ∀ a b, S a → S b → key a ≠ key b → replaces a b ∨ replaces b a
  trans : ∀ a b c, S a → S b → S c → replaces a b → replaces b c → replaces a c

/-- The incumbent has the key of each candidate seen, or replaces it. -/
def Tops (replaces : α → α → Prop) (key : α → κ) (seen : α → Prop) (s : α) : Prop :=
  ∀ d, seen d → key d = key s ∨ replaces d s

namespace Ranked

variable {replaces : α → α → Prop} {key : α → κ} {S seen : α → Prop} {s r : α}

theorem asymm (h : Ranked replaces key S) {a b : α} (ha : S a) (hb : S b) (hab : replaces a b) : ¬ replaces b a :=
  fun hba => h.differs a a ha ha (h.trans a b a ha hb ha hab hba) rfl

/-- Who replaces the incumbent tops what the incumbent topped; so does one with its key. -/
theorem tops_of_replaces (h : Ranked replaces key S) (hseen : ∀ d, seen d → S d) (hs : S s) (hr : S r)
    (htops : Tops replaces key seen s) (hsr : key s = key r ∨ replaces s r) : Tops replaces key seen r := by
  intro d hd
  by_cases hkey : key d = key r
  · exact .inl hkey
  · rcases h.total d r (hseen d hd) hr hkey with hdr | hrd
    · exact .inr hdr
    · -- the candidate would replace the newcomer, and with it the incumbent
      rcases hsr with hsame | hreplaces
      · rcases htops d hd with hds | hds
        · exact absurd (hds.trans hsame) hkey
        · exact absurd hsame.symm (h.differs r s hr hs (h.trans r d s hr (hseen d hd) hs hrd hds))
      · have hsd := h.trans s r d hs hr (hseen d hd) hreplaces hrd
        rcases htops d hd with hds | hds
        · exact absurd hds.symm (h.differs s d hs (hseen d hd) hsd)
        · exact absurd hsd (h.asymm (hseen d hd) hs hds)

/-- An incumbent that is not replaced by a candidate with another key tops it too. -/
theorem replaces_of_not (h : Ranked replaces key S) (hs : S s) (hr : S r) (hkey : key s ≠ key r)
    (hnot : ¬ replaces s r) : replaces r s :=
  (h.total s r hs hr hkey).resolve_left hnot

/-- **Two incumbents that topped each other have one key.** -/
theorem agree (h : Ranked replaces key S) {seen' : α → Prop} {s' : α} (hs : S s) (hs' : S s')
    (htops : Tops replaces key seen s) (htops' : Tops replaces key seen' s') (hmem : seen' s) (hmem' : seen s') :
    key s = key s' := by
  rcases htops' s hmem with hsame | hss'
  · exact hsame
  · rcases htops s' hmem' with hsame | hs's
    · exact hsame.symm
    · exact absurd hs's (h.asymm hs hs' hss')

end Ranked

end WarmLogic.Lib
