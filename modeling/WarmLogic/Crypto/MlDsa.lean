/-
# WarmLogic.Crypto.MlDsa — `MLDSA::verify_raw` of `crypto/mod.rs`: checking an ML-DSA-65 signature over hex texts.

ML-DSA-65 itself is the parameter `MlDsa`: reading a public key and the check of a signature, on byte arrays of fixed
lengths. The buffers the function borrows are overwritten whole and do not show.
-/
import WarmLogic.Crypto.MlKem

namespace WarmLogic.Crypto

open WarmLogic.Federation (hexEncode)

/-- The crate's ML-DSA-65, with public keys in `κ`. -/
structure MlDsa (κ : Type) where
  /-- `PublicKey::try_from_bytes`. -/
  tryFromBytes : Vector UInt8 1952 → Option κ
  /-- `pk.verify(message, signature, ctx)`. -/
  verify : κ → List UInt8 → Vector UInt8 3309 → List UInt8 → Bool

namespace MlDsa

variable {κ : Type} (dsa : MlDsa κ)

/-- `verify_raw`: simulated keys are refused, whatever the signature. -/
def verifyRaw (publicKey message signature : String) : Bool :=
  if "WARM-KEY-SIM-".toList.isPrefixOf publicKey.toList then false
  else
    (do
      let pkBytes ← hexDecode publicKey
      let sigBytes ← hexDecode signature
      let pk ← (toArray? 1952 pkBytes).bind dsa.tryFromBytes
      let sig ← toArray? 3309 sigBytes
      return dsa.verify pk message.toUTF8.toList sig []).getD false

/-- Only signatures of the right length pass. -/
theorem length_of_verifyRaw {publicKey message : String} {sig : List UInt8}
    (h : dsa.verifyRaw publicKey message (hexEncode sig) = true) : sig.length = 3309 := by
  by_contra hlen
  have hsig : toArray? 3309 sig = none := dif_neg hlen
  unfold verifyRaw at h
  split_ifs at h
  rw [hexDecode_hexEncode] at h
  simp [hsig] at h

end MlDsa

end WarmLogic.Crypto
