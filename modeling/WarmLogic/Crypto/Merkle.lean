/-
# WarmLogic.Crypto.Merkle — the Merkle tree of `merkle.rs`: its root, its proofs and their verification.

SHA3-256 is the parameter `sha3` from byte strings to 32 bytes. There is no injective such function, so "collision
free" is said of the strings that the calls at hand hash (`NoCollisions`). A `usize` index is a `Nat`.
-/
import WarmLogic.Lib.PairTree
import WarmLogic.Crypto.Hex

namespace WarmLogic.Crypto

open WarmLogic.Lib
open WarmLogic.Federation (hexEncode)

/-- `[u8; 32]`. -/
abbrev Digest := Vector UInt8 32

/-- The leaf hashes; the items themselves are not kept. -/
structure MerkleTree where
  leaves : List Digest

namespace MerkleTree

variable (sha3 : List UInt8 → Digest)

def new : MerkleTree := ⟨[]⟩

def addLeaf (t : MerkleTree) (data : List UInt8) : MerkleTree := ⟨t.leaves ++ [sha3 data]⟩

/-- The tree after the items were added in order. -/
def ofItems (items : List (List UInt8)) : MerkleTree := items.foldl (addLeaf sha3) new

def len (t : MerkleTree) : Nat := t.leaves.length

/-- `hasher.update(left); hasher.update(right)`: the string that is hashed. -/
def pairBytes (left right : Digest) : List UInt8 := left.toList ++ right.toList

def combine (left right : Digest) : Digest := sha3 (pairBytes left right)

/-- The inner loop: the next level; a last odd node is combined with itself. -/
def nextLevel (level : List Digest) : List Digest := pairWith (combine sha3) level

/-- The outer loop: level by level, while there is more than one node. -/
def climb (level : List Digest) : List Digest := reduce (combine sha3) level

/-- `get_root`: `hex::encode(current_level[0])`, and the empty text for no leaves. -/
def getRoot (t : MerkleTree) : String :=
  match climb sha3 t.leaves with
  | [] => ""
  | root :: _ => hexEncode root.toList

/-- The loop of `get_proof`: at each level the sibling, or the node itself at an odd end. -/
def siblings (level : List Digest) (index : Nat) : List Digest :=
  if 1 < level.length then
    level[partner level.length index]?.toList ++ siblings (nextLevel sha3 level) (index / 2)
  else []
termination_by level.length
decreasing_by
  rw [nextLevel, length_pairWith]
  omega

/-- `get_proof`. -/
def getProof (t : MerkleTree) (index : Nat) : List String :=
  if t.leaves.length ≤ index then [] else (siblings sha3 t.leaves index).map fun d => hexEncode d.toList

/-- A sibling of a proof: hex for 32 bytes. -/
def decodeSibling (s : String) : Option Digest :=
  (hexDecode s).bind fun bytes => if h : bytes.length = 32 then some ⟨bytes.toArray, h⟩ else none

/-- The string hashed where the current hash meets a sibling: the lowest bit of the index says on which side. -/
def stepBytes (current sibling : Digest) (index : Nat) : List UInt8 :=
  if index % 2 = 1 then pairBytes sibling current else pairBytes current sibling

/-- The loop of `verify_proof`; `none` is its early `return false`. -/
def walk (current : Digest) (index : Nat) : List String → Option Digest
  | [] => some current
  | s :: proof => (decodeSibling s).bind fun sibling => walk (sha3 (stepBytes current sibling index)) (index / 2) proof

/-- `verify_proof`. -/
def verifyProof (leafData : List UInt8) (proof : List String) (rootHex : String) (index : Nat) : Bool :=
  if rootHex.isEmpty then false
  else
    match walk sha3 (sha3 leafData) index proof with
    | none => false
    | some current => hexEncode current.toList == rootHex

/-! ## The strings that are hashed -/

/-- The strings `get_root` hashes above the leaves. -/
def climbInputs (level : List Digest) : List (List UInt8) :=
  if 1 < level.length then pairWith pairBytes level ++ climbInputs (nextLevel sha3 level) else []
termination_by level.length
decreasing_by
  rw [nextLevel, length_pairWith]
  omega

/-- What is hashed for the root of the items: each item, and each pair of nodes. -/
def rootInputs (items : List (List UInt8)) : List (List UInt8) := items ++ climbInputs sha3 (items.map sha3)

/-- The strings the loop of `verify_proof` hashes. -/
def walkInputs (current : Digest) (index : Nat) : List String → List (List UInt8)
  | [] => []
  | s :: proof =>
      match decodeSibling s with
      | none => []
      | some sibling =>
          stepBytes current sibling index :: walkInputs (sha3 (stepBytes current sibling index)) (index / 2) proof

/-- What `verify_proof` hashes. -/
def proofInputs (leafData : List UInt8) (proof : List String) (index : Nat) : List (List UInt8) :=
  leafData :: walkInputs sha3 (sha3 leafData) index proof

/-- No two different strings of the list have one hash. -/
def NoCollisions (hashed : List (List UInt8)) : Prop :=
  ∀ x ∈ hashed, ∀ y ∈ hashed, sha3 x = sha3 y → x = y

end MerkleTree

end WarmLogic.Crypto
