/-
# WarmLogic.Consensus.BftBatch — the batch of `consensus/bft.rs` is the sequence of its votes.

`cast_votes_batch` verifies all signatures first and then repeats the acceptance rules of `cast_vote_verified` in a
copy of its own. The copies make the same decision on the same vote, in every engine, so a batch leaves the engine
where the sequential calls leave it and its two counts are the Ok results and the rest.

The proof goes through one turn of the loop: whether a vote is accepted depends on the engine at that moment and on
its verdict, and the verdicts do not depend on the engine. So the two loops can run side by side, and the only
difference between them is when a signature is looked at.
-/
import WarmLogic.Consensus.Bft

namespace WarmLogic.Consensus.Bft

namespace BFTEngine

variable {δ : Type}

/-- One vote on its own: `cast_vote_verified` under the key of its voter. A voter without one is skipped, `none`. -/
def castWithKey (verifyRaw : String → String → String → Bool) (publicKeys : String → Option String) (e : BFTEngine δ)
    (vote : Vote) : BFTEngine δ × Option (Except BftError Bool) :=
  match publicKeys vote.voterId with
  | some pk => ((e.castVoteVerified verifyRaw vote pk).1, some (e.castVoteVerified verifyRaw vote pk).2)
  | none => (e, none)

/-- The votes one after the other: the engine behind the last of them, and what each call returned. -/
def castSequentially (verifyRaw : String → String → String → Bool) (publicKeys : String → Option String) :
    BFTEngine δ → List Vote → BFTEngine δ × List (Option (Except BftError Bool))
  | e, [] => (e, [])
  | e, vote :: votes =>
      let r := e.castWithKey verifyRaw publicKeys vote
      let rest := castSequentially verifyRaw publicKeys r.1 votes
      (rest.1, r.2 :: rest.2)

/-- The call was made and returned `Ok`. -/
def isOk : Option (Except BftError Bool) → Bool
  | some (.ok _) => true
  | _ => false

/-! ## One vote -/

/-- The verdict of `verify_votes_parallel` on one vote. -/
def verdict (verifyRaw : String → String → String → Bool) (publicKeys : String → Option String) (vote : Vote) : Bool :=
  match publicKeys vote.voterId with
  | some pk => verifyVoteSignature verifyRaw vote pk
  | none => false

variable {verifyRaw : String → String → String → Bool} {publicKeys : String → Option String}

/-- The counters of the batch after one more vote. -/
def counted (ok : Bool) (accepted rejected : Nat) : Nat × Nat :=
  if ok then (accepted + 1, rejected) else (accepted, rejected + 1)

/-- **The two copies agree on a vote**: the same engine after it, and it is counted as accepted exactly when the call
returned `Ok`. -/
theorem acceptVerified_eq_castWithKey (e : BFTEngine δ) (accepted rejected : Nat) (vote : Vote) :
    acceptVerified (e, accepted, rejected) (vote, verdict verifyRaw publicKeys vote) =
      ((e.castWithKey verifyRaw publicKeys vote).1,
        counted (isOk (e.castWithKey verifyRaw publicKeys vote).2) accepted rejected) := by
  unfold verdict castWithKey
  cases publicKeys vote.voterId with
  | none => rfl
  | some pk =>
      -- both branch on the signature, the round, the block and the place among the votes, in this order
      unfold acceptVerified castVoteVerified
      dsimp only
      split
      · rfl
      split
      · rfl
      split
      · rfl
      split
      · rfl
      · rfl

/-! ## The whole list -/

/-- The verdicts stand beside the votes they are about. -/
theorem zip_verifyVotesParallel (votes : List Vote) :
    votes.zip (verifyVotesParallel verifyRaw votes publicKeys) =
      votes.map fun vote => (vote, verdict verifyRaw publicKeys vote) := by
  induction votes with
  | nil => rfl
  | cons vote votes ih =>
      unfold verifyVotesParallel at ih ⊢
      rw [List.map_cons, List.zip_cons_cons, ih, List.map_cons]
      rfl

/-- The two loops side by side, from any engine and any counts. -/
theorem foldl_acceptVerified (votes : List Vote) (e : BFTEngine δ) (accepted rejected : Nat) :
    (votes.map fun vote => (vote, verdict verifyRaw publicKeys vote)).foldl acceptVerified (e, accepted, rejected) =
      ((e.castSequentially verifyRaw publicKeys votes).1,
        accepted + (e.castSequentially verifyRaw publicKeys votes).2.countP isOk,
        rejected + (e.castSequentially verifyRaw publicKeys votes).2.countP (fun r => !isOk r)) := by
  induction votes generalizing e accepted rejected with
  | nil => rfl
  | cons vote votes ih =>
      rw [List.map_cons, List.foldl_cons, acceptVerified_eq_castWithKey]
      unfold castSequentially
      dsimp only
      rw [List.countP_cons, List.countP_cons]
      cases hok : isOk (e.castWithKey verifyRaw publicKeys vote).2 with
      | true =>
          show (votes.map _).foldl acceptVerified (_, accepted + 1, rejected) = _
          rw [ih, Nat.add_right_comm]
          rfl
      | false =>
          show (votes.map _).foldl acceptVerified (_, accepted, rejected + 1) = _
          rw [ih, Nat.add_right_comm]
          rfl

theorem length_castSequentially (votes : List Vote) (e : BFTEngine δ) :
    (e.castSequentially verifyRaw publicKeys votes).2.length = votes.length := by
  induction votes generalizing e with
  | nil => rfl
  | cons vote votes ih => exact congrArg Nat.succ (ih _)

/-- **A batch is its votes in order**: `cast_votes_batch` leaves the engine where the calls of `cast_vote_verified`
leave it, accepts as many votes as there are `Ok` results, and rejects the others. -/
theorem castVotesBatch_eq_castSequentially (verifyRaw : String → String → String → Bool) (e : BFTEngine δ)
    (votes : List Vote) (publicKeys : String → Option String) :
    e.castVotesBatch verifyRaw votes publicKeys =
      ((e.castSequentially verifyRaw publicKeys votes).1,
        (e.castSequentially verifyRaw publicKeys votes).2.countP isOk,
        votes.length - (e.castSequentially verifyRaw publicKeys votes).2.countP isOk) := by
  unfold castVotesBatch
  have hlen : (e.castSequentially verifyRaw publicKeys votes).2.length = votes.length := length_castSequentially votes e
  have hsplit := List.length_eq_countP_add_countP isOk (l := (e.castSequentially verifyRaw publicKeys votes).2)
  rw [zip_verifyVotesParallel, foldl_acceptVerified, Nat.zero_add, Nat.zero_add, ← hlen]
  simp only [Bool.not_eq_true, Bool.decide_eq_false] at hsplit
  rw [hsplit, Nat.add_sub_cancel_left]

/-- A vote, its voter's replacement, a forged one and one of an unknown voter: two accepted, two rejected. -/
example : let e : BFTEngine Unit := BFTEngine.new 1
    let vote (id block sig : String) : Vote := { voterId := id, blockHash := block, round := 0, signature := sig }
    (e.castVotesBatch (fun _ _ sig => sig == "good") [vote "a" "x" "good", vote "a" "y" "good", vote "b" "x" "bad",
      vote "c" "x" "good"] (fun id => if id = "c" then none else some id)).2 = (2, 2) := by
  decide +kernel

end BFTEngine

end WarmLogic.Consensus.Bft
