/-
# WarmLogic.Ledger.SovereignStore — the storage trait of `storage.rs` and its two plain backends.

`SovereignStorage` is the trait: four operations over named trees of byte keys and byte values, each of which
may fail with a text. `MemoryStore` keeps a map of maps. `RedbStore` keeps ONE ordered table and puts the tree
name and a zero byte in front of every key; its listing of a tree skips a key that is empty (`unprefix_key`
asks for more bytes than the prefix has). `LawfulStorage` says what the ledger relies on, with that
difference as a field, and both backends satisfy it. Disk errors of redb are not modelled: its operations
succeed here.

Tree names are the subject of the one hypothesis: `unprefix_key` looks for the tree name and a zero byte, and a name
with a zero byte in it could end in two places. With `NulFree` names the first zero byte ends the name
(`prefixedKey_inj`), so two trees never share a key of the table, and the keys of one tree keep their order behind the
prefix.
-/
import Std.Data.TreeMap.Lemmas
import Mathlib.Data.List.Basic

namespace WarmLogic.Ledger

/-- `Vec<u8>`, `&[u8]`. -/
abbrev Bytes := List UInt8

/-- `as_bytes`: the UTF-8 bytes of a text. -/
def utf8 (s : String) : Bytes := s.toByteArray.data.toList

/-- UTF-8 reads back, so different texts have different bytes. -/
theorem utf8_injective : Function.Injective utf8 := by
  intro s t h
  have harr : s.toByteArray.data = t.toByteArray.data := Array.toList_inj.mp h
  exact String.toByteArray_inj.mp (ByteArray.ext harr)

theorem utf8_inj {s t : String} : utf8 s = utf8 t ↔ s = t := utf8_injective.eq_iff

/-! ## The trait -/

/-- One write of a batch. -/
inductive BatchOp where
  | insert (tree : String) (key value : Bytes)
  | remove (tree : String) (key : Bytes)
  deriving DecidableEq

/-- `SovereignBatch`, by its `ops`. -/
abbrev SovereignBatch := List BatchOp

/-- The trait `SovereignStorage`: a store is returned also by a call that fails, as `&self` methods of the source
leave it. -/
class SovereignStorage (σ : Type) where
  insertRaw : σ → String → Bytes → Bytes → σ × Except String Unit
  getRaw : σ → String → Bytes → Except String (Option Bytes)
  getAllRaw : σ → String → Except String (List (Bytes × Bytes))
  applyBatch : σ → SovereignBatch → σ × Except String Unit

/-! ## MemoryStore -/

/-- `tree -> (key -> value)`. -/
structure MemoryStore where
  data : Std.TreeMap String (Std.TreeMap Bytes Bytes)

namespace MemoryStore

/-- A store without trees. -/
def new : MemoryStore := ⟨∅⟩

/-- `guard.entry(tree).or_default().insert(key, value)`. -/
def put (s : MemoryStore) (tree : String) (key value : Bytes) : MemoryStore :=
  ⟨s.data.insert tree ((s.data[tree]?.getD ∅).insert key value)⟩

/-- A tree that is not there stays so. -/
def remove (s : MemoryStore) (tree : String) (key : Bytes) : MemoryStore :=
  match s.data[tree]? with
  | some treeMap => ⟨s.data.insert tree (treeMap.erase key)⟩
  | none => s

/-- The value under a key; a tree that is not there has none. -/
def find (s : MemoryStore) (tree : String) (key : Bytes) : Option Bytes :=
  s.data[tree]?.bind fun treeMap => treeMap[key]?

/-- One write of a batch. -/
def apply (s : MemoryStore) : BatchOp → MemoryStore
  | .insert tree key value => s.put tree key value
  | .remove tree key => s.remove tree key

instance : SovereignStorage MemoryStore where
  insertRaw s tree key value := (s.put tree key value, .ok ())
  getRaw s tree key := .ok (s.find tree key)
  getAllRaw s tree := .ok ((s.data[tree]?.map (·.toList)).getD [])
  applyBatch s batch := (batch.foldl apply s, .ok ())

end MemoryStore

/-! ## RedbStore -/

/-- The table `"default"`, ordered by key. -/
structure RedbStore where
  table : Std.TreeMap Bytes Bytes

namespace RedbStore

/-- An empty table. -/
def new : RedbStore := ⟨∅⟩

/-- `prefixed_key`: tree name, zero byte, key. -/
def prefixedKey (tree : String) (key : Bytes) : Bytes := utf8 tree ++ 0 :: key

/-- `unprefix_key`: the key behind the prefix of this tree, `none` for a key of another tree, and for the prefix
alone. -/
def unprefixKey (tree : String) (prefixed : Bytes) : Option Bytes :=
  let tag := utf8 tree
  if tag.length + 1 < prefixed.length ∧ prefixed.take tag.length = tag ∧ prefixed[tag.length]? = some 0 then
    some (prefixed.drop (tag.length + 1))
  else none

/-- Insert under the prefixed key. -/
def put (s : RedbStore) (tree : String) (key value : Bytes) : RedbStore :=
  ⟨s.table.insert (prefixedKey tree key) value⟩

/-- Remove the prefixed key. -/
def remove (s : RedbStore) (tree : String) (key : Bytes) : RedbStore :=
  ⟨s.table.erase (prefixedKey tree key)⟩

/-- The value under the prefixed key. -/
def find (s : RedbStore) (tree : String) (key : Bytes) : Option Bytes :=
  s.table[prefixedKey tree key]?

/-- One write of a batch. -/
def apply (s : RedbStore) : BatchOp → RedbStore
  | .insert tree key value => s.put tree key value
  | .remove tree key => s.remove tree key

instance : SovereignStorage RedbStore where
  insertRaw s tree key value := (s.put tree key value, .ok ())
  getRaw s tree key := .ok (s.find tree key)
  getAllRaw s tree :=
    .ok (s.table.toList.filterMap fun (k, v) => (unprefixKey tree k).map fun key => (key, v))
  applyBatch s batch := (batch.foldl apply s, .ok ())

end RedbStore

/-! ## What the ledger relies on -/

/-- A tree name without a zero byte, as all names in the sources are. -/
def NulFree (tree : String) : Prop := 0 ∉ utf8 tree

instance (tree : String) : Decidable (NulFree tree) := inferInstanceAs (Decidable (¬ _))

/-- The effect of one batch operation on what a tree shows. -/
def BatchOp.on (content : String → Bytes → Option Bytes) : BatchOp → String → Bytes → Option Bytes
  | .insert tree key value, t, k => if t = tree ∧ k = key then some value else content t k
  | .remove tree key, t, k => if t = tree ∧ k = key then none else content t k

/-- The tree a write is for. -/
def BatchOp.tree : BatchOp → String
  | .insert tree _ _ => tree
  | .remove tree _ => tree

/-- A store shows a content: reading, writing and batches are those of the content, and a listing shows every
entry of a tree once, in key order, the empty key only where the backend lists it. -/
class LawfulStorage (σ : Type) [SovereignStorage σ] where
  content : σ → String → Bytes → Option Bytes
  listsEmptyKey : Bool
  getRaw_eq : ∀ (s : σ) t k, SovereignStorage.getRaw s t k = .ok (content s t k)
  insertRaw_ok : ∀ (s : σ) t k v, (SovereignStorage.insertRaw s t k v).2 = .ok ()
  content_insertRaw : ∀ (s : σ) t k v, NulFree t → ∀ t', NulFree t' →
    content (SovereignStorage.insertRaw s t k v).1 t' = (BatchOp.insert t k v).on (content s) t'
  applyBatch_ok : ∀ (s : σ) batch, (SovereignStorage.applyBatch s batch).2 = .ok ()
  content_applyBatch : ∀ (s : σ) (batch : SovereignBatch), (∀ op ∈ batch, NulFree op.tree) → ∀ t, NulFree t →
    content (SovereignStorage.applyBatch s batch).1 t = batch.foldl BatchOp.on (content s) t
  getAllRaw_eq : ∀ (s : σ) t, ∃ l, SovereignStorage.getAllRaw s t = .ok l ∧
    l.Pairwise (fun a b => compare a.1 b.1 = .lt) ∧
    ∀ k v, (k, v) ∈ l ↔ (k = [] → listsEmptyKey = true) ∧ content s t k = some v

/-- A backend whose `put` and `remove` act as the single operations do acts on batches as their fold does. -/
theorem foldl_apply_eq {σ : Type} {find : σ → String → Bytes → Option Bytes} {apply : σ → BatchOp → σ}
    (happly : ∀ (s : σ) (op : BatchOp), NulFree op.tree → ∀ t, NulFree t → find (apply s op) t = op.on (find s) t)
    {batch : SovereignBatch} (hb : ∀ op ∈ batch, NulFree op.tree) {s : σ} {c : String → Bytes → Option Bytes}
    (hc : ∀ t, NulFree t → find s t = c t) {t : String} (ht : NulFree t) :
    find (batch.foldl apply s) t = batch.foldl BatchOp.on c t := by
  induction batch generalizing s c with
  | nil => exact hc t ht
  | cons op batch ih =>
      obtain ⟨hop, hb⟩ := List.forall_mem_cons.mp hb
      refine ih hb ?_
      intro t' ht'
      rw [happly s op hop t' ht']
      cases op with
      | insert tree key value =>
          funext k
          simp only [BatchOp.on, hc t' ht']
      | remove tree key =>
          funext k
          simp only [BatchOp.on, hc t' ht']

namespace MemoryStore

/-- In memory, a write shows under its tree and key, and nowhere else. -/
theorem find_put (s : MemoryStore) (tree : String) (key value : Bytes) (t : String) :
    (s.put tree key value).find t = (BatchOp.insert tree key value).on s.find t := by
  funext k
  unfold find put BatchOp.on
  by_cases ht : tree = t
  · subst ht
    by_cases hk : key = k
    · subst hk
      simp
    · have hk' : ¬ k = key := fun h => hk h.symm
      simp only [Std.TreeMap.getElem?_insert_self, Option.bind_some, true_and, hk', if_false]
      rw [Std.TreeMap.getElem?_insert, if_neg (by simpa using hk)]
      cases s.data[tree]? <;> simp
  · have ht' : ¬ t = tree := fun h => ht h.symm
    rw [Std.TreeMap.getElem?_insert, if_neg (by simpa using ht)]
    simp [ht']

/-- A removal too; a tree is kept when its last key goes. -/
theorem find_remove (s : MemoryStore) (tree : String) (key : Bytes) (t : String) :
    (s.remove tree key).find t = (BatchOp.remove tree key).on s.find t := by
  funext k
  unfold find remove BatchOp.on
  cases hm : s.data[tree]? with
  | none =>
      by_cases ht : t = tree
      · subst ht
        simp [hm]
      · simp [ht]
  | some m =>
      by_cases ht : tree = t
      · subst ht
        by_cases hk : key = k
        · subst hk
          simp
        · have hk' : ¬ k = key := fun h => hk h.symm
          simp only [Std.TreeMap.getElem?_insert_self, Option.bind_some, true_and, hk', if_false, hm]
          rw [Std.TreeMap.getElem?_erase, if_neg (by simpa using hk)]
      · have ht' : ¬ t = tree := fun h => ht h.symm
        dsimp only
        rw [Std.TreeMap.getElem?_insert, if_neg (by simpa using ht)]
        simp [ht']

theorem find_apply (s : MemoryStore) (op : BatchOp) (t : String) : (s.apply op).find t = op.on s.find t := by
  cases op with
  | insert tree key value => exact s.find_put tree key value t
  | remove tree key => exact s.find_remove tree key t

instance : LawfulStorage MemoryStore where
  content := find
  listsEmptyKey := true
  getRaw_eq _ _ _ := rfl
  insertRaw_ok _ _ _ _ := rfl
  content_insertRaw s t k v _ t' _ := s.find_put t k v t'
  applyBatch_ok _ _ := rfl
  content_applyBatch s _ hb _ ht :=
    foldl_apply_eq (fun s op _ t _ => s.find_apply op t) hb (fun _ _ => rfl) ht
  getAllRaw_eq s t := by
    refine ⟨(s.data[t]?.map (·.toList)).getD [], rfl, ?_, ?_⟩
    · cases s.data[t]? with
      | none => exact List.Pairwise.nil
      | some m => exact m.ordered_keys_toList
    · intro k v
      unfold find
      cases s.data[t]? with
      | none => simp
      | some m => simp [Std.TreeMap.mem_toList_iff_getElem?_eq_some]

end MemoryStore

namespace RedbStore

/-- The first zero byte ends the tree name. -/
theorem prefixedKey_inj {t t' : String} (ht : NulFree t) (ht' : NulFree t') {k k' : Bytes}
    (h : prefixedKey t k = prefixedKey t' k') : t = t' ∧ k = k' := by
  have hspan : ∀ {u : String} (l : Bytes), NulFree u → (prefixedKey u l).takeWhile (· ≠ 0) = utf8 u := by
    intro u l hu
    unfold prefixedKey
    have hall : ∀ x ∈ utf8 u, decide (x ≠ 0) = true := by
      intro x hx
      exact decide_eq_true fun h => hu (h ▸ hx)
    rw [List.takeWhile_append_of_pos hall]
    simp
  have htree : utf8 t = utf8 t' := by
    rw [← hspan k ht, h, hspan k' ht']
  have hkey : 0 :: k = 0 :: k' := by
    unfold prefixedKey at h
    rw [htree] at h
    exact List.append_cancel_left h
  exact ⟨utf8_inj.mp htree, List.tail_eq_of_cons_eq hkey⟩

/-- What `unprefix_key` returns: the keys behind the prefix, less the empty one. -/
theorem unprefixKey_eq_some {t : String} {p k : Bytes} :
    unprefixKey t p = some k ↔ p = prefixedKey t k ∧ k ≠ [] := by
  unfold unprefixKey prefixedKey
  dsimp only
  constructor
  · intro h
    split at h
    · rename_i hc
      obtain ⟨hlen, htake, hzero⟩ := hc
      cases h
      obtain ⟨hlt, hget⟩ := List.getElem?_eq_some_iff.mp hzero
      refine ⟨?_, ?_⟩
      · calc p = p.take (utf8 t).length ++ p.drop (utf8 t).length := (List.take_append_drop _ p).symm
          _ = utf8 t ++ 0 :: p.drop ((utf8 t).length + 1) := by
              rw [htake, List.drop_eq_getElem_cons hlt, hget]
      · intro hnil
        have := List.drop_eq_nil_iff.mp hnil
        omega
    · cases h
  · rintro ⟨rfl, hk⟩
    have hpos : 0 < k.length := List.length_pos_of_ne_nil hk
    rw [if_pos]
    · simp
    · refine ⟨?_, ?_, ?_⟩
      · simp only [List.length_append, List.length_cons]
        omega
      · exact List.take_left
      · simp

/-- In the one table, a write shows under its tree and key only, as prefixed keys do not meet. -/
theorem find_put (s : RedbStore) (tree : String) (key value : Bytes) (htree : NulFree tree) (t : String)
    (ht : NulFree t) : (s.put tree key value).find t = (BatchOp.insert tree key value).on s.find t := by
  funext k
  simp only [find, put, BatchOp.on, Std.TreeMap.getElem?_insert]
  by_cases h : t = tree ∧ k = key
  · obtain ⟨rfl, rfl⟩ := h
    simp
  · rw [if_neg h, if_neg]
    intro heq
    obtain ⟨h1, h2⟩ := prefixedKey_inj htree ht (Std.LawfulEqCmp.eq_of_compare heq)
    exact h ⟨h1.symm, h2.symm⟩

theorem find_remove (s : RedbStore) (tree : String) (key : Bytes) (htree : NulFree tree) (t : String)
    (ht : NulFree t) : (s.remove tree key).find t = (BatchOp.remove tree key).on s.find t := by
  funext k
  simp only [find, remove, BatchOp.on, Std.TreeMap.getElem?_erase]
  by_cases h : t = tree ∧ k = key
  · obtain ⟨rfl, rfl⟩ := h
    simp
  · rw [if_neg h, if_neg]
    intro heq
    obtain ⟨h1, h2⟩ := prefixedKey_inj htree ht (Std.LawfulEqCmp.eq_of_compare heq)
    exact h ⟨h1.symm, h2.symm⟩

theorem find_apply (s : RedbStore) (op : BatchOp) (hop : NulFree op.tree) (t : String) (ht : NulFree t) :
    (s.apply op).find t = op.on s.find t := by
  cases op with
  | insert tree key value => exact s.find_put tree key value hop t ht
  | remove tree key => exact s.find_remove tree key hop t ht

/-- Keys behind one prefix are ordered as the keys themselves. -/
theorem compare_prefixedKey (t : String) (k k' : Bytes) :
    compare (prefixedKey t k) (prefixedKey t k') = compare k k' := by
  unfold prefixedKey
  induction utf8 t with
  | nil => simp [List.compare_cons_cons]
  | cons b bs ih => simpa [List.compare_cons_cons] using ih

instance : LawfulStorage RedbStore where
  content := find
  listsEmptyKey := false
  getRaw_eq _ _ _ := rfl
  insertRaw_ok _ _ _ _ := rfl
  content_insertRaw s t k v ht t' ht' := s.find_put t k v ht t' ht'
  applyBatch_ok _ _ := rfl
  content_applyBatch s _ hb _ ht :=
    foldl_apply_eq (fun s op hop t ht => s.find_apply op hop t ht) hb (fun _ _ => rfl) ht
  getAllRaw_eq s t := by
    refine ⟨_, rfl, ?_, ?_⟩
    · refine List.Pairwise.filterMap _ ?_ s.table.ordered_keys_toList
      rintro ⟨p, v⟩ ⟨p', v'⟩ hlt ⟨k, w⟩ hk ⟨k', w'⟩ hk'
      obtain ⟨key, hkey, heq⟩ := Option.map_eq_some_iff.mp hk
      obtain ⟨key', hkey', heq'⟩ := Option.map_eq_some_iff.mp hk'
      cases heq
      cases heq'
      obtain ⟨rfl, -⟩ := unprefixKey_eq_some.mp hkey
      obtain ⟨rfl, -⟩ := unprefixKey_eq_some.mp hkey'
      rw [compare_prefixedKey] at hlt
      exact hlt
    · intro k v
      rw [List.mem_filterMap]
      constructor
      · rintro ⟨⟨p, w⟩, hmem, hk⟩
        obtain ⟨key, hkey, heq⟩ := Option.map_eq_some_iff.mp hk
        cases heq
        obtain ⟨rfl, hne⟩ := unprefixKey_eq_some.mp hkey
        exact ⟨fun h => absurd h hne, Std.TreeMap.mem_toList_iff_getElem?_eq_some.mp hmem⟩
      · rintro ⟨hne, hfind⟩
        have hne : k ≠ [] := fun h => Bool.noConfusion (hne h)
        refine ⟨(prefixedKey t k, v), Std.TreeMap.mem_toList_iff_getElem?_eq_some.mpr hfind, ?_⟩
        show (unprefixKey t (prefixedKey t k)).map (fun key => (key, v)) = some (k, v)
        rw [unprefixKey_eq_some.mpr ⟨rfl, hne⟩, Option.map_some]

end RedbStore

end WarmLogic.Ledger
