/-
# WarmLogic.Security.AuditTrail — the audit trail of `audit_trail.rs`, and what `verify_chain` accepts.

The trail keeps the last hash alone; the entries are kept elsewhere and checked against it. An entry's hash is taken of the
epoch, the domain, the verdict and the hash before it, one after the other without a mark between domain and verdict.

So without collisions `verify_chain` accepts exactly the entries that were appended, all of them, up to where a domain ends
and its verdict begins (`verify_chain_iff`). SHA3-256 is the parameter `sha3`.
-/
import WarmLogic.Crypto.Merkle
import WarmLogic.Ledger.SovereignStore
import WarmLogic.Lib.FieldCodec
import WarmLogic.Lib.HashChain

namespace WarmLogic.Security

open WarmLogic.Lib
open WarmLogic.Crypto (Digest)
open WarmLogic.Ledger (utf8 utf8_inj)

structure AuditEntry where
  epoch : UInt64
  domain : String
  verdict : String
  prevHash : Digest
  deriving DecidableEq

/-- What is fed to the hasher. -/
def AuditEntry.bytes (entry : AuditEntry) : List UInt8 :=
  leBytes 8 entry.epoch.toNat ++ utf8 entry.domain ++ utf8 entry.verdict ++ entry.prevHash.toList

section Trail

variable (sha3 : List UInt8 → Digest)

def AuditEntry.calculateHash (entry : AuditEntry) : Digest := sha3 entry.bytes

structure AuditTrail where
  lastHash : Digest

namespace AuditTrail

def genesisHash : Digest := Vector.replicate 32 0

def new : AuditTrail := ⟨genesisHash⟩

/-- `append`, and the entry that it hashes. -/
def append (trail : AuditTrail) (epoch : UInt64) (domain verdict : String) : AuditTrail × AuditEntry :=
  let entry := ⟨epoch, domain, verdict, trail.lastHash⟩
  (⟨entry.calculateHash sha3⟩, entry)

/-- The loop of `verify_chain`: the hash that it ends with, if no entry is refused. -/
def walk (currentHash : Digest) : List AuditEntry → Option Digest
  | [] => some currentHash
  | entry :: entries => if entry.prevHash ≠ currentHash then none else walk (entry.calculateHash sha3) entries

def verifyChain (trail : AuditTrail) (entries : List AuditEntry) : Bool :=
  walk sha3 genesisHash entries == some trail.lastHash

/-- The trail after these verdicts, and the entries of them all. -/
def record (verdicts : List (UInt64 × String × String)) : AuditTrail × List AuditEntry :=
  verdicts.foldl (fun (trail, entries) (epoch, domain, verdict) =>
    let (trail, entry) := trail.append sha3 epoch domain verdict
    (trail, entries ++ [entry])) (new, [])

end AuditTrail

end Trail

/-! ## What an entry's hash is taken of -/

/-- Two entries that are hashed alike: only where the domain ends may they differ. -/
structure SameRecord (a b : AuditEntry) : Prop where
  epoch : a.epoch = b.epoch
  text : a.domain ++ a.verdict = b.domain ++ b.verdict
  prevHash : a.prevHash = b.prevHash

theorem utf8_append (s t : String) : utf8 (s ++ t) = utf8 s ++ utf8 t := by
  unfold utf8
  rw [String.toByteArray_append]
  simp

theorem bytes_eq_iff {a b : AuditEntry} : a.bytes = b.bytes ↔ SameRecord a b := by
  have hbytes : ∀ entry : AuditEntry, entry.bytes =
      leBytes 8 entry.epoch.toNat ++ (utf8 (entry.domain ++ entry.verdict) ++ entry.prevHash.toList) := by
    intro entry
    unfold AuditEntry.bytes
    rw [utf8_append]
    simp only [List.append_assoc]
  rw [hbytes, hbytes, fixedWidth_u64.append_iff, (fixedWidth_vector 32).append_last_iff, utf8_inj]
  exact ⟨fun ⟨hepoch, htext, hprev⟩ => ⟨hepoch, htext, hprev⟩, fun h => ⟨h.epoch, h.text, h.prevHash⟩⟩

/-- The entries as a chain of hashes. -/
def auditChain (sha3 : List UInt8 → Digest) : HashChain AuditEntry (List UInt8) Digest where
  prevHash := AuditEntry.prevHash
  text := AuditEntry.bytes
  hash := sha3
  prevHash_eq h := (bytes_eq_iff.mp h).prevHash

namespace AuditTrail

variable {sha3 : List UInt8 → Digest}

/-- The loop goes through exactly on a chain, and ends with its tip. -/
theorem walk_eq_some_iff {entries : List AuditEntry} {currentHash last : Digest} :
    walk sha3 currentHash entries = some last ↔
      (auditChain sha3).Linked currentHash entries ∧ (auditChain sha3).tip currentHash entries = last := by
  induction entries generalizing currentHash with
  | nil =>
      show some currentHash = some last ↔ True ∧ currentHash = last
      rw [Option.some_inj, true_and]
  | cons entry entries ih =>
      show (if entry.prevHash ≠ currentHash then none else walk sha3 (entry.calculateHash sha3) entries) = _ ↔
        (entry.prevHash = currentHash ∧ (auditChain sha3).Linked (entry.calculateHash sha3) entries) ∧
          (auditChain sha3).tip (entry.calculateHash sha3) entries = last
      by_cases hprev : entry.prevHash = currentHash
      · rw [if_neg (not_not_intro hprev), ih, and_assoc]
        exact (and_iff_right hprev).symm
      · rw [if_pos hprev]
        exact ⟨fun h => (by cases h), fun h => absurd h.1.1 hprev⟩

/-- What was appended is a chain, and the trail keeps its tip. -/
theorem record_spec (verdicts : List (UInt64 × String × String)) :
    (auditChain sha3).Linked genesisHash (record sha3 verdicts).2 ∧
      (auditChain sha3).tip genesisHash (record sha3 verdicts).2 = (record sha3 verdicts).1.lastHash := by
  induction verdicts using List.reverseRecOn with
  | nil => exact ⟨trivial, rfl⟩
  | append_singleton verdicts v ih =>
      obtain ⟨hlinked, htip⟩ := ih
      have hrecord : record sha3 (verdicts ++ [v]) =
          (((record sha3 verdicts).1.append sha3 v.1 v.2.1 v.2.2).1,
            (record sha3 verdicts).2 ++ [((record sha3 verdicts).1.append sha3 v.1 v.2.1 v.2.2).2]) := by
        unfold record
        rw [List.foldl_append]
        rfl
      rw [hrecord]
      exact ⟨HashChain.linked_concat.mpr ⟨hlinked, htip.symm⟩, HashChain.tip_concat _ _ _⟩

/-- **`verify_chain` accepts exactly what was appended**, up to the marks between domains and verdicts: as many entries, with
the same epochs, the same texts and the same hashes before them. No two of the strings that are hashed collide here, and
none has the hash of 32 zeros. -/
theorem verify_chain_iff (verdicts : List (UInt64 × String × String)) (entries : List AuditEntry)
    (hcf : ∀ a ∈ (record sha3 verdicts).2, ∀ b ∈ entries, sha3 a.bytes = sha3 b.bytes → a.bytes = b.bytes)
    (hgenesis : ∀ a ∈ (record sha3 verdicts).2 ++ entries, sha3 a.bytes ≠ genesisHash) :
    (record sha3 verdicts).1.verifyChain sha3 entries = true ↔
      List.Forall₂ SameRecord entries (record sha3 verdicts).2 := by
  have hspec : (auditChain sha3).Linked genesisHash (record sha3 verdicts).2 ∧ _ := record_spec verdicts
  obtain ⟨hlinked, htip⟩ := hspec
  have hsame : List.Forall₂ SameRecord entries (record sha3 verdicts).2 ↔
      entries.map AuditEntry.bytes = (record sha3 verdicts).2.map AuditEntry.bytes := by
    rw [← List.forall₂_eq_eq_eq, List.forall₂_map_left_iff, List.forall₂_map_right_iff]
    exact ⟨fun h => h.imp fun _ _ h => bytes_eq_iff.mpr h, fun h => h.imp fun _ _ h => bytes_eq_iff.mp h⟩
  have hverify : (record sha3 verdicts).1.verifyChain sha3 entries = true ↔
      (auditChain sha3).Linked genesisHash entries ∧
        (auditChain sha3).tip genesisHash entries = (record sha3 verdicts).1.lastHash := by
    unfold verifyChain
    rw [beq_iff_eq]
    exact walk_eq_some_iff
  rw [hverify, hsame, ← htip]
  constructor
  · rintro ⟨hentries, heq⟩
    exact HashChain.texts_eq_of_tip (C := auditChain sha3) hcf hgenesis hlinked hentries heq.symm
  · intro htexts
    exact ⟨(HashChain.linked_congr htexts).mpr hlinked, HashChain.tip_congr htexts⟩

end AuditTrail

/-- The SHA3-256 hashes of the two entries below. -/
def verdictSha3 (bytes : List UInt8) : Digest :=
  if bytes.length = 56 then
    #v[113, 217, 5, 229, 23, 135, 244, 162, 23, 154, 240, 73, 174, 96, 223, 215, 209, 247, 185, 201, 63, 114, 24,
      130, 200, 35, 234, 195, 9, 254, 149, 202]
  else
    #v[195, 83, 183, 96, 131, 208, 169, 166, 145, 3, 231, 224, 94, 183, 36, 161, 34, 88, 153, 23, 68, 64, 20, 187,
      154, 126, 93, 244, 60, 209, 37, 190]

/-- Two verdicts, and entries in which a domain ends elsewhere. -/
theorem verify_chain_iff_two :
    (AuditTrail.record verdictSha3 [(17200, "medical", "COMPLIANT"), (17200, "finance", "DENIED")]).1.verifyChain
        verdictSha3 [⟨17200, "medicalCOM", "PLIANT", AuditTrail.genesisHash⟩,
          ⟨17200, "finance", "DENIED", verdictSha3 (List.replicate 56 0)⟩] = true ↔
      List.Forall₂ SameRecord [⟨17200, "medicalCOM", "PLIANT", AuditTrail.genesisHash⟩,
          ⟨17200, "finance", "DENIED", verdictSha3 (List.replicate 56 0)⟩]
        (AuditTrail.record verdictSha3 [(17200, "medical", "COMPLIANT"), (17200, "finance", "DENIED")]).2 :=
  AuditTrail.verify_chain_iff _ _ (by decide +kernel) (by decide +kernel)

end WarmLogic.Security
