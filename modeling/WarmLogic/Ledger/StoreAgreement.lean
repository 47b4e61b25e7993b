/-
# WarmLogic.Ledger.StoreAgreement — the two backends under every sequence of calls.

The abstract store is a content: for each tree and key a value or none, changed by the writes in order. Both backends
show it, whatever the keys and values, as long as no tree name has a zero byte: names that are prefixes of each other,
or keys that look like names, do not meet. They differ in one answer. `RedbStore` leaves the empty key out of a
listing (`unprefix_key` compares the lengths with `>`), `MemoryStore` lists it. So the answers agree exactly in the
sequences that never list a tree while it holds an entry under the empty key (`answers_eq_iff`).
-/
import WarmLogic.Ledger.SovereignStore

namespace WarmLogic.Ledger

open SovereignStorage LawfulStorage

/-! ## Calls and answers -/

/-- A call of the storage trait. -/
inductive StoreCall where
  | insertRaw (tree : String) (key value : Bytes)
  | getRaw (tree : String) (key : Bytes)
  | getAllRaw (tree : String)
  | applyBatch (batch : SovereignBatch)

/-- What a call returns. -/
inductive StoreAnswer where
  | written (result : Except String Unit)
  | value (result : Except String (Option Bytes))
  | listing (result : Except String (List (Bytes × Bytes)))
  deriving DecidableEq

/-- The tree names a call gives. -/
def StoreCall.trees : StoreCall → List String
  | .insertRaw tree _ _ => [tree]
  | .getRaw tree _ => [tree]
  | .getAllRaw tree => [tree]
  | .applyBatch batch => batch.map BatchOp.tree

/-- The writes of a call. -/
def StoreCall.writes : StoreCall → SovereignBatch
  | .insertRaw tree key value => [.insert tree key value]
  | .getRaw _ _ => []
  | .getAllRaw _ => []
  | .applyBatch batch => batch

variable {σ τ : Type} [SovereignStorage σ] [SovereignStorage τ]

/-- One call on a store. -/
def answer (s : σ) : StoreCall → σ × StoreAnswer
  | .insertRaw tree key value => ((insertRaw s tree key value).1, .written (insertRaw s tree key value).2)
  | .getRaw tree key => (s, .value (getRaw s tree key))
  | .getAllRaw tree => (s, .listing (getAllRaw s tree))
  | .applyBatch batch => ((applyBatch s batch).1, .written (applyBatch s batch).2)

/-- The answers to a sequence of calls, in their order. -/
def answers (s : σ) : List StoreCall → List StoreAnswer
  | [] => []
  | c :: calls => (answer s c).2 :: answers (answer s c).1 calls

/-- The content that the writes of a sequence of calls leave, from an empty store. -/
def contentAfter (calls : List StoreCall) : String → Bytes → Option Bytes :=
  (calls.flatMap StoreCall.writes).foldl BatchOp.on fun _ _ => none

/-- The call is not a listing of a tree that holds an entry under the empty key. -/
def KeepsToKeys (c : String → Bytes → Option Bytes) : StoreCall → Prop
  | .getAllRaw tree => c tree [] = none
  | _ => True

/-- No listing of the sequence meets a tree that holds an entry under the empty key, given the calls made before. -/
def ListsNoEmptyKey (done : List StoreCall) : List StoreCall → Prop
  | [] => True
  | call :: calls => KeepsToKeys (contentAfter done) call ∧ ListsNoEmptyKey (done ++ [call]) calls

instance (c : String → Bytes → Option Bytes) (call : StoreCall) : Decidable (KeepsToKeys c call) :=
  match call with
  | .getAllRaw tree => inferInstanceAs (Decidable (c tree [] = none))
  | .insertRaw _ _ _ => .isTrue trivial
  | .getRaw _ _ => .isTrue trivial
  | .applyBatch _ => .isTrue trivial

instance decidableListsNoEmptyKey (done calls : List StoreCall) : Decidable (ListsNoEmptyKey done calls) :=
  match calls with
  | [] => .isTrue trivial
  | call :: calls =>
      have := decidableListsNoEmptyKey (done ++ [call]) calls
      inferInstanceAs (Decidable (KeepsToKeys (contentAfter done) call ∧ ListsNoEmptyKey (done ++ [call]) calls))

/-! ## One call -/

variable [LawfulStorage σ] [LawfulStorage τ]

/-- The store shows the content, in every tree whose name has no zero byte. -/
def Shows (s : σ) (c : String → Bytes → Option Bytes) : Prop := ∀ t, NulFree t → content s t = c t

/-- Only the content of the trees without a zero byte in their name decides what a batch leaves there. -/
theorem foldl_on_congr (batch : SovereignBatch) {c c' : String → Bytes → Option Bytes} {t : String}
    (h : c t = c' t) : batch.foldl BatchOp.on c t = batch.foldl BatchOp.on c' t := by
  induction batch generalizing c c' with
  | nil => exact h
  | cons op batch ih =>
      apply ih
      funext k
      cases op <;> simp only [BatchOp.on, h]

/-- **A call writes to the content what it says.** -/
theorem Shows.answer {s : σ} {c : String → Bytes → Option Bytes} (h : Shows s c) {call : StoreCall}
    (hn : ∀ t ∈ call.trees, NulFree t) : Shows (answer s call).1 (call.writes.foldl BatchOp.on c) := by
  intro t ht
  cases call with
  | insertRaw tree key value =>
      show content (SovereignStorage.insertRaw s tree key value).1 t = (BatchOp.insert tree key value).on c t
      rw [content_insertRaw s tree key value (hn tree List.mem_cons_self) t ht]
      funext k
      simp only [BatchOp.on, h t ht]
  | getRaw tree key => exact h t ht
  | getAllRaw tree => exact h t ht
  | applyBatch batch =>
      have hb : ∀ op ∈ batch, NulFree op.tree := fun op hop => hn op.tree (List.mem_map_of_mem hop)
      show content (SovereignStorage.applyBatch s batch).1 t = batch.foldl BatchOp.on c t
      rw [content_applyBatch s batch hb t ht]
      exact foldl_on_congr batch (h t ht)

/-- Two lists in strict key order with the same entries are the same list. -/
theorem eq_of_sorted_of_mem {l l' : List (Bytes × Bytes)} (h : l.Pairwise fun a b => compare a.1 b.1 = .lt)
    (h' : l'.Pairwise fun a b => compare a.1 b.1 = .lt) (hmem : ∀ p, p ∈ l ↔ p ∈ l') : l = l' := by
  have hnodup : ∀ {l : List (Bytes × Bytes)}, l.Pairwise (fun a b => compare a.1 b.1 = .lt) → l.Nodup := by
    intro l hl
    refine List.Pairwise.imp ?_ hl
    rintro a b hlt rfl
    have hself : compare a.1 a.1 = .eq := Std.ReflCmp.compare_self
    exact nomatch hself.symm.trans hlt
  have hperm : l.Perm l' := (List.perm_ext_iff_of_nodup (hnodup h) (hnodup h')).mpr hmem
  refine hperm.eq_of_pairwise ?_ h h'
  intro a b _ _ hab hba
  rw [Std.OrientedCmp.gt_of_lt hba] at hab
  cases hab

/-- **The listings of one content agree** exactly when both backends list the empty key, or neither does, or there is
none to list. -/
theorem getAllRaw_eq_iff (s : σ) (s' : τ) {t : String} (h : content s t = content s' t) :
    getAllRaw s t = getAllRaw s' t ↔ (listsEmptyKey σ = listsEmptyKey τ ∨ content s t [] = none) := by
  obtain ⟨l, hl, hsort, hmem⟩ := getAllRaw_eq s t
  obtain ⟨l', hl', hsort', hmem'⟩ := getAllRaw_eq s' t
  rw [hl, hl', Except.ok.injEq]
  constructor
  · intro heq
    cases hempty : content s t [] with
    | none => exact .inr rfl
    | some v =>
        -- the entry under the empty key is in both lists or in neither
        left
        have hboth := hmem [] v
        rw [heq, hmem' [] v, ← h, hempty] at hboth
        simp only [forall_const, and_true] at hboth
        exact (Bool.eq_iff_iff.mpr hboth).symm
  · intro hcond
    apply eq_of_sorted_of_mem hsort hsort'
    rintro ⟨k, v⟩
    rw [hmem, hmem', h]
    rcases hcond with hb | hnone
    · rw [hb]
    · rw [h] at hnone
      constructor <;> rintro ⟨-, hv⟩ <;> refine ⟨?_, hv⟩ <;> rintro rfl <;> exact nomatch hnone.symm.trans hv

/-- **One call** is answered alike by a store that lists the empty key and one that does not, unless it lists a tree
with an entry there. -/
theorem answer_eq_iff {s : σ} {s' : τ} (hne : listsEmptyKey σ ≠ listsEmptyKey τ)
    {c : String → Bytes → Option Bytes} (h : Shows s c) (h' : Shows s' c) {call : StoreCall}
    (hn : ∀ t ∈ call.trees, NulFree t) :
    (answer s call).2 = (answer s' call).2 ↔ KeepsToKeys c call := by
  unfold KeepsToKeys
  cases call with
  | insertRaw tree key value => simp only [answer, insertRaw_ok]
  | getRaw tree key =>
      have ht : NulFree tree := hn tree List.mem_cons_self
      simp only [answer, getRaw_eq, h tree ht, h' tree ht]
  | getAllRaw tree =>
      have ht : NulFree tree := hn tree List.mem_cons_self
      have hlist := getAllRaw_eq_iff s s' ((h tree ht).trans (h' tree ht).symm)
      simp only [answer, StoreAnswer.listing.injEq]
      rw [hlist, h tree ht]
      simp only [hne, false_or]
  | applyBatch batch => simp only [answer, applyBatch_ok]

/-! ## Sequences -/

/-- The calls in two parts. -/
theorem contentAfter_append (done : List StoreCall) (call : StoreCall) :
    contentAfter (done ++ [call]) = call.writes.foldl BatchOp.on (contentAfter done) := by
  simp [contentAfter, List.foldl_append]

/-- The same from any two stores that show one content: by induction on the calls, each of which writes the same to
both. -/
theorem answers_eq_iff_from {s : σ} {s' : τ} (hne : listsEmptyKey σ ≠ listsEmptyKey τ) {done calls : List StoreCall}
    (h : Shows s (contentAfter done)) (h' : Shows s' (contentAfter done))
    (hn : ∀ call ∈ calls, ∀ t ∈ call.trees, NulFree t) :
    answers s calls = answers s' calls ↔ ListsNoEmptyKey done calls := by
  induction calls generalizing s s' done with
  | nil => simp [answers, ListsNoEmptyKey]
  | cons call calls ih =>
      obtain ⟨hcall, hn⟩ := List.forall_mem_cons.mp hn
      have hstep := h.answer hcall
      have hstep' := h'.answer hcall
      rw [← contentAfter_append] at hstep hstep'
      rw [answers, answers, List.cons.injEq, answer_eq_iff hne h h' hcall, ih hstep hstep' hn, ListsNoEmptyKey]

/-- A new `MemoryStore` shows nothing. -/
theorem shows_new_memory : Shows MemoryStore.new (contentAfter []) := by
  intro t _
  funext k
  show MemoryStore.new.find t k = none
  simp [MemoryStore.find, MemoryStore.new]

/-- Nor does a new `RedbStore`. -/
theorem shows_new_redb : Shows RedbStore.new (contentAfter []) := by
  intro t _
  funext k
  show RedbStore.new.find t k = none
  simp [RedbStore.find, RedbStore.new]

/-- **The backends agree, exactly.** Two new stores answer a sequence of calls over tree names without zero bytes
alike, if and only if no listing in it meets a tree that holds an entry under the empty key. The two stores show one
content after every call, and only a listing can tell them apart. -/
theorem answers_eq_iff (calls : List StoreCall) (hn : ∀ call ∈ calls, ∀ t ∈ call.trees, NulFree t) :
    answers RedbStore.new calls = answers MemoryStore.new calls ↔ ListsNoEmptyKey [] calls :=
  answers_eq_iff_from (by decide) shows_new_redb shows_new_memory hn

/-- One name a prefix of another, a key that starts with a zero byte, and a read of the empty key: no difference. -/
theorem answers_eq_prefix_names :
    answers RedbStore.new [.insertRaw "t" [] [1], .insertRaw "tt" [0, 116] [2], .getRaw "t" [], .getAllRaw "tt"] =
      answers MemoryStore.new [.insertRaw "t" [] [1], .insertRaw "tt" [0, 116] [2], .getRaw "t" [], .getAllRaw "tt"] :=
  (answers_eq_iff _ (by decide +kernel)).mpr (by decide +kernel)

/-- An entry under the empty key is listed by `MemoryStore` and not by `RedbStore`. -/
theorem answers_ne_empty_key :
    (∀ call ∈ [StoreCall.insertRaw "t" [] [1], .getAllRaw "t"], ∀ t ∈ call.trees, NulFree t) ∧
      answers RedbStore.new [.insertRaw "t" [] [1], .getAllRaw "t"] ≠
        answers MemoryStore.new [.insertRaw "t" [] [1], .getAllRaw "t"] := by
  decide +kernel

end WarmLogic.Ledger
