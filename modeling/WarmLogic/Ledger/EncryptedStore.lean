/-
# WarmLogic.Ledger.EncryptedStore — the encrypting store of `storage.rs`, over any backend.

`EncryptedStore` encrypts each value under its key and one fixed nonce, and hands trees and keys through as they are. A
value that cannot be encrypted ends its call before anything is written, also in the middle of a batch.

So it refines the backend that it is laid over: every sequence of calls is answered as by a plain backend that refuses
those calls, with the same listings (`answers_encrypted`). The fixed nonce shows: two places hold the same bytes
exactly if they hold the same value. AES-256-GCM is the parameter `Aes256Gcm`.

The proof is a simulation. Next to the encrypting store runs a plain one, and `Covers` relates what the backend holds
to what the plain store holds, place by place: nothing for nothing, and for a value what it is encrypted to. A write
that can be encrypted keeps this (`EncryptedOp.foldl_on`), a write that cannot be is refused on both sides, and a read
decrypts what it finds to what the plain store has. The one law asked of AES-256-GCM is that decryption undoes
encryption under the same key and nonce; nothing is said about secrecy.
-/
import WarmLogic.Ledger.StoreAgreement
import WarmLogic.Lib.Service

namespace WarmLogic.Ledger

open LawfulStorage
open WarmLogic.Lib

/-- The crate's AES-256-GCM: what was encrypted decrypts under the same key and nonce. -/
structure Aes256Gcm where
  encrypt : Vector UInt8 32 → Bytes → Bytes → Option Bytes
  decrypt : Vector UInt8 32 → Bytes → Bytes → Option Bytes
  decrypt_encrypt : ∀ {key nonce data ciphertext}, encrypt key nonce data = some ciphertext →
    decrypt key nonce ciphertext = some data

/-- `EncryptedStore`: the backend and the key. -/
structure EncryptedStore (aes : Aes256Gcm) (σ : Type) where
  inner : σ
  key : Vector UInt8 32

variable {aes : Aes256Gcm} {σ τ : Type}

namespace EncryptedStore

/-- The one nonce of `encrypt` and `decrypt`. -/
def nonce : Bytes := utf8 "UNIQUE-NONCE"

/-- The text of a failed encryption. -/
def encryptionError : String := "Encryption error: Error"

/-- `encrypt`. -/
def encrypt (s : EncryptedStore aes σ) (data : Bytes) : Except String Bytes :=
  match aes.encrypt s.key nonce data with
  | some ciphertext => .ok ciphertext
  | none => .error encryptionError

/-- `decrypt`. -/
def decrypt (s : EncryptedStore aes σ) (data : Bytes) : Except String Bytes :=
  match aes.decrypt s.key nonce data with
  | some plaintext => .ok plaintext
  | none => .error "Decryption error: Error"

/-- One round of the loop over a batch. -/
def encryptOp (s : EncryptedStore aes σ) : BatchOp → Except String BatchOp
  | .insert tree key value => (s.encrypt value).map fun encrypted => .insert tree key encrypted
  | .remove tree key => .ok (.remove tree key)

variable [SovereignStorage σ]

/-- Encrypt the value, then write; nothing is written where the encryption fails. -/
def insertRaw (s : EncryptedStore aes σ) (tree : String) (key value : Bytes) : EncryptedStore aes σ × Except String Unit :=
  match s.encrypt value with
  | .ok encrypted =>
      let (inner, result) := SovereignStorage.insertRaw s.inner tree key encrypted
      ({ s with inner }, result)
  | .error e => (s, .error e)

/-- Read, then decrypt. -/
def getRaw (s : EncryptedStore aes σ) (tree : String) (key : Bytes) : Except String (Option Bytes) := do
  match ← SovereignStorage.getRaw s.inner tree key with
  | some encrypted => return some (← s.decrypt encrypted)
  | none => return none

/-- List, then decrypt entry by entry; the first that fails ends the listing. -/
def getAllRaw (s : EncryptedStore aes σ) (tree : String) : Except String (List (Bytes × Bytes)) := do
  let raw ← SovereignStorage.getAllRaw s.inner tree
  raw.mapM fun entry => (s.decrypt entry.2).map fun decrypted => (entry.1, decrypted)

/-- Encrypt all operations, then write them as one batch. -/
def applyBatch (s : EncryptedStore aes σ) (batch : SovereignBatch) : EncryptedStore aes σ × Except String Unit :=
  match batch.mapM s.encryptOp with
  | .ok encryptedOps =>
      let (inner, result) := SovereignStorage.applyBatch s.inner encryptedOps
      ({ s with inner }, result)
  | .error e => (s, .error e)

instance : SovereignStorage (EncryptedStore aes σ) := ⟨insertRaw, getRaw, getAllRaw, applyBatch⟩

end EncryptedStore

/-! ## The plain store that it refines -/

/-- The values that a call writes. -/
def StoreCall.values (call : StoreCall) : List Bytes :=
  call.writes.filterMap fun
    | .insert _ _ value => some value
    | .remove _ _ => none

/-- Every value that the call writes can be encrypted. -/
def Encryptable (aes : Aes256Gcm) (key : Vector UInt8 32) (call : StoreCall) : Prop :=
  ∀ value ∈ call.values, (aes.encrypt key EncryptedStore.nonce value).isSome

instance (aes : Aes256Gcm) (key : Vector UInt8 32) (call : StoreCall) : Decidable (Encryptable aes key call) :=
  inferInstanceAs (Decidable (∀ value ∈ call.values, _))

/-- A plain store that refuses the other calls. -/
def answerOrRefuse [SovereignStorage σ] (aes : Aes256Gcm) (key : Vector UInt8 32) (s : σ) (call : StoreCall) :
    σ × StoreAnswer :=
  if Encryptable aes key call then answer s call else (s, .written (.error EncryptedStore.encryptionError))

/-- What the backend holds in place of a value. -/
def Slot (aes : Aes256Gcm) (key : Vector UInt8 32) : Option Bytes → Option Bytes → Prop
  | none, stored => stored = none
  | some value, stored => ∃ ciphertext, aes.encrypt key EncryptedStore.nonce value = some ciphertext ∧ stored = some ciphertext

/-- An operation and what it is encrypted to. -/
def EncryptedOp (aes : Aes256Gcm) (key : Vector UInt8 32) : BatchOp → BatchOp → Prop
  | .insert tree k value, op =>
      ∃ ciphertext, aes.encrypt key EncryptedStore.nonce value = some ciphertext ∧ op = .insert tree k ciphertext
  | .remove tree k, op => op = .remove tree k

section Slots

variable {key : Vector UInt8 32} {value value' stored stored' : Option Bytes}

/-- Under the one nonce, equal bytes stand for equal values. -/
theorem Slot.eq_iff (h : Slot aes key value stored) (h' : Slot aes key value' stored') : stored = stored' ↔ value = value' := by
  cases value with
  | none =>
      cases value' with
      | none =>
          obtain rfl : stored = none := h
          obtain rfl : stored' = none := h'
          exact iff_of_true rfl rfl
      | some v' =>
          obtain rfl : stored = none := h
          obtain ⟨c', -, rfl⟩ := h'
          exact iff_of_false (fun h => (by cases h)) fun h => by cases h
  | some v =>
      obtain ⟨c, hc, rfl⟩ := h
      cases value' with
      | none =>
          obtain rfl : stored' = none := h'
          exact iff_of_false (fun h => (by cases h)) fun h => by cases h
      | some v' =>
          obtain ⟨c', hc', rfl⟩ := h'
          constructor
          · intro heq
            cases heq
            have hv := aes.decrypt_encrypt hc
            rw [aes.decrypt_encrypt hc'] at hv
            exact hv.symm
          · intro heq
            cases heq
            rw [hc] at hc'
            exact hc'

/-- An operation and its encryption act alike. -/
theorem EncryptedOp.on {op op' : BatchOp} (hop : EncryptedOp aes key op op') {c c' : String → Bytes → Option Bytes}
    {t : String} (h : ∀ k, Slot aes key (c t k) (c' t k)) (k : Bytes) : Slot aes key (op.on c t k) (op'.on c' t k) := by
  cases op with
  | insert tree k' value =>
      obtain ⟨ciphertext, hc, rfl⟩ := hop
      show Slot aes key (if t = tree ∧ k = k' then some value else c t k)
        (if t = tree ∧ k = k' then some ciphertext else c' t k)
      by_cases hslot : t = tree ∧ k = k'
      · rw [if_pos hslot, if_pos hslot]
        exact ⟨ciphertext, hc, rfl⟩
      · rw [if_neg hslot, if_neg hslot]
        exact h k
  | remove tree k' =>
      obtain rfl : op' = .remove tree k' := hop
      show Slot aes key (if t = tree ∧ k = k' then none else c t k) (if t = tree ∧ k = k' then none else c' t k)
      by_cases hslot : t = tree ∧ k = k'
      · rw [if_pos hslot, if_pos hslot]
        exact rfl
      · rw [if_neg hslot, if_neg hslot]
        exact h k

/-- Batches that correspond leave contents that correspond. -/
theorem EncryptedOp.foldl_on {batch batch' : SovereignBatch} (hb : List.Forall₂ (EncryptedOp aes key) batch batch')
    {c c' : String → Bytes → Option Bytes} {t : String} (h : ∀ k, Slot aes key (c t k) (c' t k)) (k : Bytes) :
    Slot aes key (batch.foldl BatchOp.on c t k) (batch'.foldl BatchOp.on c' t k) := by
  induction hb generalizing c c' with
  | nil => exact h k
  | cons hop _ ih => exact ih (hop.on h)

/-- Encryption leaves the tree of an operation. -/
theorem EncryptedOp.tree_eq {op op' : BatchOp} (hop : EncryptedOp aes key op op') : op'.tree = op.tree := by
  cases op with
  | insert tree k value =>
      obtain ⟨ciphertext, -, rfl⟩ := hop
      rfl
  | remove tree k =>
      obtain rfl : op' = .remove tree k := hop
      rfl

end Slots

/-! ## One call -/

section Refinement

variable {s : EncryptedStore aes σ}

/-- An encryption that succeeds is that of the cipher. -/
theorem encrypt_eq (value : Bytes) :
    (∃ ciphertext, aes.encrypt s.key EncryptedStore.nonce value = some ciphertext ∧ s.encrypt value = .ok ciphertext) ∨
      aes.encrypt s.key EncryptedStore.nonce value = none ∧ s.encrypt value = .error EncryptedStore.encryptionError := by
  unfold EncryptedStore.encrypt
  cases h : aes.encrypt s.key EncryptedStore.nonce value with
  | none => exact .inr ⟨rfl, rfl⟩
  | some ciphertext => exact .inl ⟨ciphertext, rfl, rfl⟩

/-- What was encrypted decrypts. -/
theorem decrypt_of_encrypt {value ciphertext : Bytes}
    (h : aes.encrypt s.key EncryptedStore.nonce value = some ciphertext) : s.decrypt ciphertext = .ok value := by
  unfold EncryptedStore.decrypt
  rw [aes.decrypt_encrypt h]

/-- The values that a batch writes. -/
theorem values_applyBatch_cons (op : BatchOp) (batch : SovereignBatch) :
    (StoreCall.applyBatch (op :: batch)).values =
      (StoreCall.applyBatch [op]).values ++ (StoreCall.applyBatch batch).values := by
  unfold StoreCall.values StoreCall.writes
  rw [← List.filterMap_append]
  rfl

/-- The loop over a batch encrypts all of it or ends in the error. -/
theorem mapM_encryptOp (s : EncryptedStore aes σ) (batch : SovereignBatch) :
    (Encryptable aes s.key (.applyBatch batch) ∧
      ∃ batch', batch.mapM s.encryptOp = .ok batch' ∧ List.Forall₂ (EncryptedOp aes s.key) batch batch') ∨
    ¬Encryptable aes s.key (.applyBatch batch) ∧ batch.mapM s.encryptOp = .error EncryptedStore.encryptionError := by
  induction batch with
  | nil => exact .inl ⟨fun v hv => absurd hv List.not_mem_nil, [], rfl, .nil⟩
  | cons op batch ih =>
      have hall : Encryptable aes s.key (.applyBatch (op :: batch)) ↔
          Encryptable aes s.key (.applyBatch [op]) ∧ Encryptable aes s.key (.applyBatch batch) := by
        unfold Encryptable
        rw [values_applyBatch_cons, List.forall_mem_append]
      -- the first operation
      have hop : (Encryptable aes s.key (.applyBatch [op]) ∧ ∃ op', s.encryptOp op = .ok op' ∧ EncryptedOp aes s.key op op') ∨
          ¬Encryptable aes s.key (.applyBatch [op]) ∧ s.encryptOp op = .error EncryptedStore.encryptionError := by
        cases op with
        | remove tree k => exact .inl ⟨fun v hv => absurd hv List.not_mem_nil, _, rfl, rfl⟩
        | insert tree k value =>
            have hvalues : Encryptable aes s.key (.applyBatch [.insert tree k value]) ↔
                (aes.encrypt s.key EncryptedStore.nonce value).isSome := List.forall_mem_singleton
            rw [hvalues]
            rcases encrypt_eq (s := s) value with ⟨c, hc, henc⟩ | ⟨hnone, henc⟩
            · refine .inl ⟨by rw [hc]; rfl, .insert tree k c, ?_, c, hc, rfl⟩
              show (s.encrypt value).map _ = _
              rw [henc]
              rfl
            · refine .inr ⟨by rw [hnone]; exact Bool.false_ne_true, ?_⟩
              show (s.encrypt value).map _ = _
              rw [henc]
              rfl
      rw [hall, List.mapM_cons]
      rcases hop with ⟨hok, op', hop', hpair⟩ | ⟨hrefused, herror⟩
      · rw [hop']
        rcases ih with ⟨hoks, batch', hbatch', hpairs⟩ | ⟨hrefused, herror⟩
        · rw [hbatch']
          exact .inl ⟨⟨hok, hoks⟩, op' :: batch', rfl, .cons hpair hpairs⟩
        · rw [herror]
          exact .inr ⟨fun h => hrefused h.2, rfl⟩
      · rw [herror]
        exact .inr ⟨fun h => hrefused h.1, rfl⟩

variable [SovereignStorage σ] [LawfulStorage σ] {p : σ}

/-- The backend holds what the plain store holds, encrypted. -/
def Covers (s : EncryptedStore aes σ) (p : σ) : Prop :=
  ∀ t, NulFree t → ∀ k, Slot aes s.key (content p t k) (content s.inner t k)

/-- What stands in the backend decrypts to what the plain store holds. -/
theorem Covers.decrypt (h : Covers s p) {t : String} (ht : NulFree t) {k ciphertext : Bytes}
    (hk : content s.inner t k = some ciphertext) :
    ∃ value, content p t k = some value ∧ s.decrypt ciphertext = .ok value := by
  have hslot := h t ht k
  cases hp : content p t k with
  | none =>
      rw [hp] at hslot
      rw [show content s.inner t k = none from hslot] at hk
      cases hk
  | some value =>
      rw [hp] at hslot
      obtain ⟨c, hc, hinner⟩ := hslot
      rw [hinner] at hk
      cases hk
      exact ⟨value, rfl, decrypt_of_encrypt hc⟩

/-- **A read** returns what the plain store has. -/
theorem Covers.getRaw_eq (h : Covers s p) {t : String} (ht : NulFree t) (k : Bytes) :
    s.getRaw t k = SovereignStorage.getRaw p t k := by
  have hslot := h t ht k
  unfold EncryptedStore.getRaw
  rw [LawfulStorage.getRaw_eq, LawfulStorage.getRaw_eq]
  cases hp : content p t k with
  | none =>
      rw [hp] at hslot
      rw [show content s.inner t k = none from hslot]
      rfl
  | some value =>
      rw [hp] at hslot
      obtain ⟨c, hc, hinner⟩ := hslot
      rw [hinner]
      show (do return some (← s.decrypt c)) = _
      rw [decrypt_of_encrypt hc]
      rfl

/-- A listing is decrypted entry by entry, and keeps its order. -/
theorem Covers.getAllRaw_eq (h : Covers s p) {t : String} (ht : NulFree t) :
    s.getAllRaw t = SovereignStorage.getAllRaw p t := by
  obtain ⟨l, hl, hsort, hmem⟩ := LawfulStorage.getAllRaw_eq s.inner t
  obtain ⟨l', hl', hsort', hmem'⟩ := LawfulStorage.getAllRaw_eq p t
  have hdecrypts : ∀ entry ∈ l, ∃ value, content p t entry.1 = some value ∧ s.decrypt entry.2 = .ok value :=
    fun entry hentry => h.decrypt ht ((hmem entry.1 entry.2).mp hentry).2
  -- what the loop puts together
  have hloop : ∀ l₀ : List (Bytes × Bytes), (∀ entry ∈ l₀, ∃ value, content p t entry.1 = some value ∧
      s.decrypt entry.2 = .ok value) →
      l₀.mapM (fun entry => (s.decrypt entry.2).map fun decrypted => (entry.1, decrypted)) =
        .ok (l₀.map fun entry => (entry.1, (content p t entry.1).getD [])) := by
    intro l₀ hall
    induction l₀ with
    | nil => rfl
    | cons entry l₀ ih =>
        obtain ⟨⟨value, hvalue, hdecrypt⟩, hrest⟩ := List.forall_mem_cons.mp hall
        rw [List.mapM_cons, ih hrest, hdecrypt, List.map_cons, hvalue]
        rfl
  unfold EncryptedStore.getAllRaw
  rw [hl, hl']
  show l.mapM _ = _
  rw [hloop l hdecrypts]
  refine congrArg Except.ok (eq_of_sorted_of_mem (List.pairwise_map.mpr hsort) hsort' ?_)
  rintro ⟨k, v⟩
  rw [hmem', List.mem_map]
  constructor
  · rintro ⟨entry, hentry, heq⟩
    obtain ⟨value, hvalue, -⟩ := hdecrypts entry hentry
    rw [hvalue] at heq
    cases heq
    exact ⟨((hmem entry.1 entry.2).mp hentry).1, hvalue⟩
  · rintro ⟨hempty, hv⟩
    have hslot := h t ht k
    rw [hv] at hslot
    obtain ⟨c, -, hinner⟩ := hslot
    refine ⟨(k, c), (hmem k c).mpr ⟨hempty, hinner⟩, ?_⟩
    rw [hv]
    rfl

/-- A batch that was encrypted leaves what the plain batch leaves. -/
theorem Covers.applyBatch (h : Covers s p) {batch batch' : SovereignBatch}
    (hb : List.Forall₂ (EncryptedOp aes s.key) batch batch') (hn : ∀ op ∈ batch, NulFree op.tree) :
    Covers ({ s with inner := (SovereignStorage.applyBatch s.inner batch').1 } : EncryptedStore aes σ)
      (SovereignStorage.applyBatch p batch).1 := by
  have hn' : ∀ op' ∈ batch', NulFree op'.tree := by
    have htrees : batch'.map BatchOp.tree = batch.map BatchOp.tree := by
      induction hb with
      | nil => rfl
      | cons hop _ ih =>
          obtain ⟨_, hn⟩ := List.forall_mem_cons.mp hn
          rw [List.map_cons, List.map_cons, hop.tree_eq, ih hn]
    intro op' hop'
    have hmem : op'.tree ∈ batch.map BatchOp.tree := htrees ▸ List.mem_map_of_mem hop'
    obtain ⟨op, hop, heq⟩ := List.mem_map.mp hmem
    rw [← heq]
    exact hn op hop
  intro t ht k
  show Slot aes s.key (content (SovereignStorage.applyBatch p batch).1 t k)
    (content (SovereignStorage.applyBatch s.inner batch').1 t k)
  rw [content_applyBatch p batch hn t ht, content_applyBatch s.inner batch' hn' t ht]
  exact EncryptedOp.foldl_on hb (h t ht) k

/-- The relation that every call keeps. -/
def Refines (key : Vector UInt8 32) (s : EncryptedStore aes σ) (p : σ) : Prop := s.key = key ∧ Covers s p

/-- **One call** is answered as by a plain store that refuses it where a value cannot be encrypted. -/
theorem Refines.answer {key : Vector UInt8 32} (h : Refines key s p) {call : StoreCall}
    (hn : ∀ t ∈ call.trees, NulFree t) :
    Refines key (Ledger.answer s call).1 (answerOrRefuse aes key p call).1 ∧
      (Ledger.answer s call).2 = (answerOrRefuse aes key p call).2 := by
  obtain ⟨rfl, hcovers⟩ := h
  unfold answerOrRefuse
  cases call with
  | insertRaw tree key value =>
      -- an insertion is a batch of one
      have hvalues : Encryptable aes s.key (.insertRaw tree key value) ↔
          (aes.encrypt s.key EncryptedStore.nonce value).isSome := List.forall_mem_singleton
      have htree : NulFree tree := hn tree List.mem_cons_self
      have hanswer : Ledger.answer s (.insertRaw tree key value) =
          ((s.insertRaw tree key value).1, .written (s.insertRaw tree key value).2) := rfl
      rw [hanswer]
      unfold EncryptedStore.insertRaw
      rcases encrypt_eq (s := s) value with ⟨c, hc, henc⟩ | ⟨hnone, henc⟩
      · rw [if_pos (hvalues.mpr (by rw [hc]; rfl)), henc]
        refine ⟨⟨rfl, fun t ht k => ?_⟩, ?_⟩
        · show Slot aes s.key (content (SovereignStorage.insertRaw p tree key value).1 t k)
            (content (SovereignStorage.insertRaw s.inner tree key c).1 t k)
          rw [content_insertRaw p tree key value htree t ht, content_insertRaw s.inner tree key c htree t ht]
          have hop : EncryptedOp aes s.key (.insert tree key value) (.insert tree key c) := ⟨c, hc, rfl⟩
          exact hop.on (hcovers t ht) k
        · show StoreAnswer.written (SovereignStorage.insertRaw s.inner tree key c).2 =
            .written (SovereignStorage.insertRaw p tree key value).2
          rw [insertRaw_ok, insertRaw_ok]
      · rw [if_neg (fun h => by rw [hvalues, hnone] at h; cases h), henc]
        exact ⟨⟨rfl, hcovers⟩, rfl⟩
  | getRaw tree key =>
      have hok : Encryptable aes s.key (.getRaw tree key) := fun v hv => absurd hv List.not_mem_nil
      rw [if_pos hok]
      exact ⟨⟨rfl, hcovers⟩, congrArg StoreAnswer.value (hcovers.getRaw_eq (hn tree List.mem_cons_self) key)⟩
  | getAllRaw tree =>
      have hok : Encryptable aes s.key (.getAllRaw tree) := fun v hv => absurd hv List.not_mem_nil
      rw [if_pos hok]
      exact ⟨⟨rfl, hcovers⟩, congrArg StoreAnswer.listing (hcovers.getAllRaw_eq (hn tree List.mem_cons_self))⟩
  | applyBatch batch =>
      have hb : ∀ op ∈ batch, NulFree op.tree := fun op hop => hn op.tree (List.mem_map_of_mem hop)
      have hanswer : Ledger.answer s (.applyBatch batch) = ((s.applyBatch batch).1, .written (s.applyBatch batch).2) := rfl
      rw [hanswer]
      unfold EncryptedStore.applyBatch
      rcases mapM_encryptOp s batch with ⟨hok, batch', hbatch', hpairs⟩ | ⟨hrefused, herror⟩
      · rw [if_pos hok, hbatch']
        refine ⟨⟨rfl, hcovers.applyBatch hpairs hb⟩, ?_⟩
        show StoreAnswer.written (SovereignStorage.applyBatch s.inner batch').2 =
          .written (SovereignStorage.applyBatch p batch).2
        rw [applyBatch_ok, applyBatch_ok]
      · rw [if_neg hrefused, herror]
        exact ⟨⟨rfl, hcovers⟩, rfl⟩

/-- **An encrypted store refines the backend below it**: whatever is called, it answers as a plain store that refuses the
calls with a value that cannot be encrypted, and what it holds in two places is the same exactly if the values are. -/
theorem answers_encrypted (h : Covers s p) (calls : List StoreCall) (hn : ∀ call ∈ calls, ∀ t ∈ call.trees, NulFree t) :
    (serve Ledger.answer s calls).2 = (serve (answerOrRefuse aes s.key) p calls).2 ∧
      ∀ t k t' k', NulFree t → NulFree t' →
        (content (serve Ledger.answer s calls).1.inner t k = content (serve Ledger.answer s calls).1.inner t' k' ↔
          content (serve (answerOrRefuse aes s.key) p calls).1 t k =
            content (serve (answerOrRefuse aes s.key) p calls).1 t' k') := by
  have hrun : Refines s.key (serve Ledger.answer s calls).1 (serve (answerOrRefuse aes s.key) p calls).1 ∧
      (serve Ledger.answer s calls).2 = (serve (answerOrRefuse aes s.key) p calls).2 :=
    serve_eq (fun _ _ _ h hcall => h.answer hcall) hn ⟨rfl, h⟩
  obtain ⟨⟨-, hcovers⟩, hanswers⟩ := hrun
  exact ⟨hanswers, fun t k t' k' ht ht' => (hcovers t ht k).eq_iff (hcovers t' ht' k')⟩

end Refinement

/-- AES-256-GCM on one text, under the key of zeros. -/
def oneText : Aes256Gcm where
  encrypt key nonce data :=
    if key = Vector.replicate 32 0 ∧ nonce = EncryptedStore.nonce ∧ data = [1, 2, 3] then
      some [161, 45, 140, 20, 143, 242, 145, 143, 255, 96, 1, 9, 139, 234, 133, 196, 2, 189, 23]
    else none
  decrypt key nonce ciphertext :=
    if key = Vector.replicate 32 0 ∧ nonce = EncryptedStore.nonce ∧
        ciphertext = [161, 45, 140, 20, 143, 242, 145, 143, 255, 96, 1, 9, 139, 234, 133, 196, 2, 189, 23] then
      some [1, 2, 3]
    else none
  decrypt_encrypt := by
    intro key nonce data ciphertext h
    split at h
    · next heq =>
        obtain ⟨rfl, rfl, rfl⟩ := heq
        obtain rfl := Option.some.inj h
        rfl
    · cases h

/-- Two empty stores correspond. -/
theorem covers_new (aes : Aes256Gcm) (key : Vector UInt8 32) :
    Covers (⟨MemoryStore.new, key⟩ : EncryptedStore aes MemoryStore) MemoryStore.new := by
  intro t ht k
  have hnone : content MemoryStore.new t k = none := congrFun (shows_new_memory t ht) k
  show Slot aes key (content MemoryStore.new t k) (content MemoryStore.new t k)
  rw [hnone]
  rfl

/-- An empty store, to which the value is written under two keys. -/
theorem answers_encrypted_two_keys :
    (serve answer (⟨MemoryStore.new, Vector.replicate 32 0⟩ : EncryptedStore oneText MemoryStore)
        [.insertRaw "t" [7] [1, 2, 3], .insertRaw "t" [8] [1, 2, 3], .getAllRaw "t"]).2 =
      (serve (answerOrRefuse oneText (Vector.replicate 32 0)) MemoryStore.new
        [.insertRaw "t" [7] [1, 2, 3], .insertRaw "t" [8] [1, 2, 3], .getAllRaw "t"]).2 := by
  refine (answers_encrypted (covers_new oneText (Vector.replicate 32 0)) _ ?_).1
  simp only [List.forall_mem_cons]
  exact ⟨by decide, by decide, by decide, by simp⟩

end WarmLogic.Ledger
