/-
# WarmLogic.Crypto.MlKem — `MLKEM` of `crypto/mod.rs`: key generation, encapsulation and decapsulation over hex texts.

ML-KEM-768 itself is the parameter `MlKem`: its functions on byte arrays of fixed lengths, what the random generator
gives as an argument, and one law, that a secret encapsulated to a generated key decapsulates to itself under its
partner. On any other input the functions may fail or return anything.
-/
import WarmLogic.Crypto.Hex

namespace WarmLogic.Crypto

open WarmLogic.Federation (hexEncode)

/-- `try_into::<[u8; n]>`. -/
def toArray? (n : Nat) (bytes : List UInt8) : Option (Vector UInt8 n) :=
  if h : bytes.length = n then some ⟨bytes.toArray, by simpa using h⟩ else none

@[simp] theorem toArray?_toList {n : Nat} (v : Vector UInt8 n) : toArray? n v.toList = some v := by
  have h : v.toList.length = n := by simp
  rw [toArray?, dif_pos h]
  congr 1

/-- The crate's ML-KEM-768 over a random generator with values in `ρ`, and the text of a `FromHexError`. -/
structure MlKem (ρ : Type) where
  /-- `EK_LEN`, 1184. -/
  ekLen : Nat
  /-- `DK_LEN`, 2400. -/
  dkLen : Nat
  /-- `CT_LEN`, 1088. -/
  ctLen : Nat
  keygen : ρ → Except String (Vector UInt8 ekLen × Vector UInt8 dkLen)
  /-- `EncapsKey::try_from_bytes`. -/
  readEk : Vector UInt8 ekLen → Except String Unit
  /-- `DecapsKey::try_from_bytes`. -/
  readDk : Vector UInt8 dkLen → Except String Unit
  /-- `CipherText::try_from_bytes`. -/
  readCt : Vector UInt8 ctLen → Except String Unit
  encaps : Vector UInt8 ekLen → ρ → Except String (Vector UInt8 32 × Vector UInt8 ctLen)
  decaps : Vector UInt8 dkLen → Vector UInt8 ctLen → Except String (Vector UInt8 32)
  hexError : String → String
  decaps_encaps : ∀ {r r' ek dk ss ct}, keygen r = .ok (ek, dk) → encaps ek r' = .ok (ss, ct) →
    readDk dk = .ok () ∧ readCt ct = .ok () ∧ decaps dk ct = .ok ss

/-- Hex texts. -/
structure KEMEncapsResult where
  sharedSecret : String
  ciphertext : String
  deriving DecidableEq

namespace MlKem

variable {ρ : Type} (kem : MlKem ρ)

/-- `keygen_raw`. -/
def keygenRaw (rng : ρ) : Except String (String × String) :=
  match kem.keygen rng with
  | .error e => .error ("ML-KEM KeyGen Failed: " ++ e)
  | .ok (ek, dk) => .ok (hexEncode ek.toList, hexEncode dk.toList)

/-- `encapsulate_raw` once its text is decoded. -/
def encapsBytes (ekBytes : List UInt8) (rng : ρ) : Except String (Vector UInt8 32 × Vector UInt8 kem.ctLen) :=
  match toArray? kem.ekLen ekBytes with
  | none =>
      .error ("Invalid encapsulation key length: expected " ++ toString kem.ekLen ++ ", got " ++ toString ekBytes.length)
  | some ek =>
      match kem.readEk ek with
      | .error e => .error ("Invalid encapsulation key: " ++ e)
      | .ok () => (kem.encaps ek rng).mapError ("ML-KEM Encapsulation Failed: " ++ ·)

/-- `encapsulate_raw`. -/
def encapsulateRaw (encapsKeyHex : String) (rng : ρ) : Except String KEMEncapsResult :=
  match hexDecode encapsKeyHex with
  | none => .error ("Invalid encapsulation key hex: " ++ kem.hexError encapsKeyHex)
  | some ekBytes => (kem.encapsBytes ekBytes rng).map fun (ssk, ct) => ⟨hexEncode ssk.toList, hexEncode ct.toList⟩

/-- The closure of `decapsulate_raw`, once the decapsulation key is decoded; it decodes the ciphertext after the key
was read. -/
def decapsBytes (dkBytes : List UInt8) (ciphertextHex : String) : Except String (Vector UInt8 32) :=
  match toArray? kem.dkLen dkBytes with
  | none =>
      .error ("Invalid decapsulation key length: expected " ++ toString kem.dkLen ++ ", got " ++ toString dkBytes.length)
  | some dk =>
      match kem.readDk dk with
      | .error e => .error ("Invalid decapsulation key: " ++ e)
      | .ok () =>
          match hexDecode ciphertextHex with
          | none => .error ("Invalid ciphertext hex: " ++ kem.hexError ciphertextHex)
          | some ctBytes =>
              match toArray? kem.ctLen ctBytes with
              | none =>
                  .error ("Invalid ciphertext length: expected " ++ toString kem.ctLen ++ ", got " ++
                    toString ctBytes.length)
              | some ct =>
                  match kem.readCt ct with
                  | .error e => .error ("Invalid ciphertext: " ++ e)
                  | .ok () => (kem.decaps dk ct).mapError ("ML-KEM Decapsulation Failed: " ++ ·)

/-- `decapsulate_raw`. -/
def decapsulateRaw (decapsKeyHex ciphertextHex : String) : Except String String :=
  match hexDecode decapsKeyHex with
  | none => .error ("Invalid decapsulation key hex: " ++ kem.hexError decapsKeyHex)
  | some dkBytes => (kem.decapsBytes dkBytes ciphertextHex).map fun ssk => hexEncode ssk.toList

/-! ## On texts that are hex -/

variable {kem}

theorem encapsulateRaw_hexEncode (ekBytes : List UInt8) (rng : ρ) :
    kem.encapsulateRaw (hexEncode ekBytes) rng =
      (kem.encapsBytes ekBytes rng).map fun (ssk, ct) => ⟨hexEncode ssk.toList, hexEncode ct.toList⟩ := by
  rw [encapsulateRaw, hexDecode_hexEncode]

theorem decapsulateRaw_hexEncode (dkBytes : List UInt8) (ciphertextHex : String) :
    kem.decapsulateRaw (hexEncode dkBytes) ciphertextHex =
      (kem.decapsBytes dkBytes ciphertextHex).map fun ssk => hexEncode ssk.toList := by
  rw [decapsulateRaw, hexDecode_hexEncode]

/-- **A secret that is encapsulated to a generated key decapsulates to itself.** -/
theorem decapsBytes_of_encapsBytes {r r' : ρ} {ek : Vector UInt8 kem.ekLen} {dk : Vector UInt8 kem.dkLen}
    {ss : Vector UInt8 32} {ct : Vector UInt8 kem.ctLen} (hkey : kem.keygen r = .ok (ek, dk))
    (henc : kem.encapsBytes ek.toList r' = .ok (ss, ct)) :
    kem.decapsBytes dk.toList (hexEncode ct.toList) = .ok ss := by
  have hraw : kem.encaps ek r' = .ok (ss, ct) := by
    rw [encapsBytes, toArray?_toList] at henc
    dsimp only at henc
    split at henc
    · exact nomatch henc
    · cases hr : kem.encaps ek r' with
      | error e =>
          rw [hr] at henc
          exact nomatch henc
      | ok p =>
          rw [hr] at henc
          exact henc
  obtain ⟨hdk, hct, hdec⟩ := kem.decaps_encaps hkey hraw
  rw [decapsBytes, toArray?_toList]
  dsimp only
  rw [hdk, hexDecode_hexEncode]
  dsimp only
  rw [toArray?_toList]
  dsimp only
  rw [hct, hdec]
  rfl

end MlKem

end WarmLogic.Crypto
