/-
# WarmLogic.Net.PropagatorSignData — what the signed and hashed bytes of the propagator determine.

The four kinds of signed bytes start with different words, and behind its word each is a concatenation of fields of
fixed width, with optional ones left out when absent and without a mark. The prepared round of a view change has 8
bytes and the prepared block 32, so the length says which of them are there. The block data is the only field of no
fixed width; it stands between fields that are.

The fields are read back from the front by their widths (`FixedWidth`), so that equality of two payloads is equality
of their fields one after the other. Where an optional field may be missing, the total length decides first. The kinds
are told apart by the first two letters of their words.
-/
import WarmLogic.Lib.FieldCodec
import WarmLogic.Net.BlockPropagator
import Mathlib.Data.Set.Lattice
import Mathlib.Order.CompletePartialOrder

namespace WarmLogic.Net

open WarmLogic.Lib

/-! ## The fields -/

theorem fixedWidth_leU64 : FixedWidth leU64 8 := fixedWidth_u64

theorem fixedWidth_hash : FixedWidth (fun hash : BlockHash => hash.toList) 32 := fixedWidth_vector 32

/-- The four bytes of a count determine it up to 2^32. -/
theorem leBytes_four_eq_iff {n n' : Nat} : leBytes 4 n = leBytes 4 n' ↔ n % 2 ^ 32 = n' % 2 ^ 32 := by
  have hval (n : Nat) : ofLeBytes (leBytes 4 n) = n % 2 ^ 32 := ofLeBytes_leBytes 4 n
  have hback (n : Nat) : leBytes 4 (n % 2 ^ 32) = leBytes 4 n := by
    have h := leBytes_ofLeBytes (leBytes 4 n)
    rwa [length_leBytes, hval] at h
  constructor
  · intro h
    rw [← hval n, ← hval n', h]
  · intro h
    rw [← hback n, ← hback n', h]

/-! ## What each kind determines -/

/-- What a validator signs of a proposal: all of the header, and the data through the block hash only. -/
def BlockProposal.signedFields (p : BlockProposal) : UInt64 × UInt64 × BlockHash × BlockHash × UInt64 :=
  (p.view, p.round, p.blockHash, p.prevHash, p.timestampMs)

/-- What is signed of a vote. -/
def BlockVote.signedFields (v : BlockVote) : UInt64 × UInt64 × BlockHash := (v.view, v.round, v.blockHash)

/-- What is signed of a view change. -/
def P2PViewChange.signedFields (m : P2PViewChange) : UInt64 × Option UInt64 × Option BlockHash × UInt64 :=
  (m.newView, m.lastPreparedRound, m.lastPreparedBlock, m.timestampMs)

/-- What is signed of a new view; of the proofs it is their number, as a `u32`. -/
def P2PNewView.signedFields (m : P2PNewView) : UInt64 × UInt64 × Option BlockHash × Nat :=
  (m.view, m.startingRound, m.preparedBlock, m.viewChangeProofs.length % 2 ^ 32)

/-- What is hashed of a proposal. -/
def BlockProposal.hashedFields (p : BlockProposal) : UInt64 × UInt64 × BlockHash × List UInt8 × UInt64 :=
  (p.view, p.round, p.prevHash, p.blockData, p.timestampMs)

/-- The bytes `compute_block_hash` hashes. -/
def BlockProposal.preimage (p : BlockProposal) : List UInt8 :=
  hasherInput p.view p.round p.prevHash p.blockData p.timestampMs

theorem computeBlockHash_eq (sha3 : List UInt8 → BlockHash) (p : BlockProposal) :
    computeBlockHash sha3 p = sha3 p.preimage := rfl

theorem proposalSignData_eq_iff (p p' : BlockProposal) :
    proposalSignData p = proposalSignData p' ↔ p.signedFields = p'.signedFields := by
  unfold proposalSignData BlockProposal.signedFields
  rw [fixedWidth_leU64.append_last_iff, fixedWidth_hash.append_last_iff, fixedWidth_hash.append_last_iff,
    fixedWidth_leU64.append_last_iff, fixedWidth_leU64.append_last_iff]
  simp only [Prod.mk.injEq, true_and, and_assoc]

theorem voteSignData_eq_iff (v v' : BlockVote) :
    voteSignData v = voteSignData v' ↔ v.signedFields = v'.signedFields := by
  unfold voteSignData BlockVote.signedFields
  rw [fixedWidth_hash.append_last_iff, fixedWidth_leU64.append_last_iff, fixedWidth_leU64.append_last_iff]
  simp only [Prod.mk.injEq, true_and, and_assoc]

/-- Behind the tag and the view the two optional fields stand in a row, of 8 and of 32 bytes. -/
theorem viewChangeSignData_eq_iff (m m' : P2PViewChange) :
    viewChangeSignData m = viewChangeSignData m' ↔ m.signedFields = m'.signedFields := by
  have hlayout (m : P2PViewChange) : viewChangeSignData m = tag "VIEWCHANGE:" ++ (leU64 m.newView ++
      ((optField leU64 m.lastPreparedRound ++ optField (·.toList) m.lastPreparedBlock) ++ leU64 m.timestampMs)) := by
    unfold viewChangeSignData optField
    simp only [List.append_assoc]
  rw [hlayout, hlayout, List.append_right_inj, fixedWidth_leU64.append_iff, fixedWidth_leU64.append_last_iff,
    fixedWidth_leU64.optField_append_iff fixedWidth_hash (by decide) (by decide) (by decide)]
  unfold P2PViewChange.signedFields
  simp only [Prod.mk.injEq, and_assoc]

theorem newViewSignData_eq_iff (m m' : P2PNewView) :
    newViewSignData m = newViewSignData m' ↔ m.signedFields = m'.signedFields := by
  have hlayout (m : P2PNewView) : newViewSignData m = tag "NEWVIEW:" ++ (leU64 m.view ++ (leU64 m.startingRound ++
      (optField (·.toList) m.preparedBlock ++ leBytes 4 m.viewChangeProofs.length))) := by
    unfold newViewSignData optField
    simp only [List.append_assoc]
  have hlast : optField (·.toList) m.preparedBlock ++ leBytes 4 m.viewChangeProofs.length =
      optField (·.toList) m'.preparedBlock ++ leBytes 4 m'.viewChangeProofs.length ↔
      m.preparedBlock = m'.preparedBlock ∧
        m.viewChangeProofs.length % 2 ^ 32 = m'.viewChangeProofs.length % 2 ^ 32 := by
    constructor
    · intro h
      obtain ⟨hblock, hcount⟩ := List.append_inj' h (by rw [length_leBytes, length_leBytes])
      exact ⟨fixedWidth_hash.optField_injective (by decide) hblock, leBytes_four_eq_iff.mp hcount⟩
    · rintro ⟨hblock, hcount⟩
      rw [hblock, leBytes_four_eq_iff.mpr hcount]
  rw [hlayout, hlayout, List.append_right_inj, fixedWidth_leU64.append_iff, fixedWidth_leU64.append_iff, hlast]
  unfold P2PNewView.signedFields
  simp only [Prod.mk.injEq]

/-- The data of any length stands between fields of fixed width. -/
theorem preimage_eq_iff (p p' : BlockProposal) : p.preimage = p'.preimage ↔ p.hashedFields = p'.hashedFields := by
  have hlayout (p : BlockProposal) : p.preimage = leU64 p.view ++ (leU64 p.round ++ (p.prevHash.toList ++
      (p.blockData ++ leU64 p.timestampMs))) := by
    unfold BlockProposal.preimage hasherInput
    simp only [List.append_assoc]
  rw [hlayout, hlayout, fixedWidth_leU64.append_iff, fixedWidth_leU64.append_iff, fixedWidth_hash.append_iff,
    fixedWidth_leU64.append_last_iff]
  unfold BlockProposal.hashedFields
  simp only [Prod.mk.injEq]

/-! ## The kinds apart -/

/-- Payloads that start with different words are different. -/
theorem disjoint_range_of_take {α β : Type} {f : α → List UInt8} {g : β → List UInt8} {n : Nat} {a b : List UInt8}
    (hf : ∀ x, (f x).take n = a) (hg : ∀ y, (g y).take n = b) (hne : a ≠ b) : Disjoint (Set.range f) (Set.range g) := by
  refine Set.disjoint_left.mpr ?_
  rintro _ ⟨x, rfl⟩ ⟨y, hy⟩
  refine hne ?_
  rw [← hf x, ← hg y, hy]

theorem take_tag_append {text : String} (h : 2 ≤ (tag text).length) (rest : List UInt8) :
    (tag text ++ rest).take 2 = (tag text).take 2 :=
  List.take_append_of_le_length h

/-- No two kinds agree on the first two letters. -/
theorem kinds_disjoint :
    [Set.range proposalSignData, Set.range voteSignData, Set.range viewChangeSignData,
      Set.range newViewSignData].Pairwise Disjoint := by
  have hproposal : ∀ p, (proposalSignData p).take 2 = (tag "PROPOSAL:").take 2 := fun p => by
    unfold proposalSignData
    simp only [List.append_assoc]
    exact take_tag_append (by decide) _
  have hvote : ∀ v, (voteSignData v).take 2 = (tag "VOTE:").take 2 := fun v => by
    unfold voteSignData
    simp only [List.append_assoc]
    exact take_tag_append (by decide) _
  have hviewChange : ∀ m, (viewChangeSignData m).take 2 = (tag "VIEWCHANGE:").take 2 := fun m => by
    unfold viewChangeSignData
    simp only [List.append_assoc]
    exact take_tag_append (by decide) _
  have hnewView : ∀ m, (newViewSignData m).take 2 = (tag "NEWVIEW:").take 2 := fun m => by
    unfold newViewSignData
    simp only [List.append_assoc]
    exact take_tag_append (by decide) _
  simp only [List.pairwise_cons, List.mem_cons, List.not_mem_nil, or_false, forall_eq_or_imp, forall_eq,
    List.Pairwise.nil, and_true, false_imp_iff, implies_true]
  refine ⟨⟨?_, ?_, ?_⟩, ⟨?_, ?_⟩, ?_⟩
  · exact disjoint_range_of_take hproposal hvote (by decide)
  · exact disjoint_range_of_take hproposal hviewChange (by decide)
  · exact disjoint_range_of_take hproposal hnewView (by decide)
  · exact disjoint_range_of_take hvote hviewChange (by decide)
  · exact disjoint_range_of_take hvote hnewView (by decide)
  · exact disjoint_range_of_take hviewChange hnewView (by decide)

/-- **The payloads are unambiguous.** Each of the four signed payloads and the hashed one determines the fields it
encodes, and no payload of one kind is one of another kind. -/
theorem payloads_unambiguous :
    (∀ p p', proposalSignData p = proposalSignData p' ↔ p.signedFields = p'.signedFields) ∧
    (∀ v v', voteSignData v = voteSignData v' ↔ v.signedFields = v'.signedFields) ∧
    (∀ m m', viewChangeSignData m = viewChangeSignData m' ↔ m.signedFields = m'.signedFields) ∧
    (∀ m m', newViewSignData m = newViewSignData m' ↔ m.signedFields = m'.signedFields) ∧
    [Set.range proposalSignData, Set.range voteSignData, Set.range viewChangeSignData,
      Set.range newViewSignData].Pairwise Disjoint ∧
    (∀ sha3 p, computeBlockHash sha3 p = sha3 p.preimage) ∧
    ∀ p p' : BlockProposal, p.preimage = p'.preimage ↔ p.hashedFields = p'.hashedFields :=
  ⟨proposalSignData_eq_iff, voteSignData_eq_iff, viewChangeSignData_eq_iff, newViewSignData_eq_iff, kinds_disjoint,
    computeBlockHash_eq, preimage_eq_iff⟩

end WarmLogic.Net
