/-
# WarmLogic.Drone.SecurityScheduler — the flight log of `security_scheduler.rs`, and what its epoch roots bind.

`tick` hashes the tick number, the sensor data and the hash before into a chain; at the end of each epoch of
`pqc_interval` ticks the Merkle root over the hashes of the epoch is kept and the chain is cleared. So an epoch root shows
the hashes of its own epoch only, but each of them has the whole flight before it in it: with no collisions among the
strings that are hashed, two flights have one last root exactly if they agree up to the end of their last epochs
(`epoch_root_eq_iff`).

SHA3-256 is the parameter `sha3`. The root is the loop of `merkle.rs`. The signer on the other core is not modelled.

The proof reads the last root backwards. It binds the hashes of its epoch (`epochHashes_eq_of_root`), as Merkle layers
of one length do; the last of these is the hash of the last tick of the epoch, and a hash of the chain binds all
readings before it, since each string that is hashed has the hash before in it and the tick number in front
(`readings_eq_of_lastHash`). So an epoch that was long cleared still shows in the root of a later one.
-/
import WarmLogic.Crypto.MerkleBinding
import WarmLogic.Lib.FieldCodec

namespace WarmLogic.Drone

open WarmLogic.Lib
open WarmLogic.Crypto
open WarmLogic.Crypto.MerkleTree (climb climbInputs combine pairBytes nextLevel NoCollisions)
open WarmLogic.Federation (hexEncode)

/-! ## The scheduler -/

/-- `SecurityLevel`. -/
inductive SecurityLevel where
  | fullPQC
  | amortizedPQC
  | hashOnly
  deriving DecidableEq

/-- The hash of a tick, with its number. -/
structure TickRecord where
  tickId : UInt64
  hash : Digest
  deriving DecidableEq

/-- `SecurityScheduler`. -/
structure SecurityScheduler where
  tickCount : UInt64
  pqcInterval : UInt64
  hashChain : List TickRecord
  prevHash : Digest
  lastPqcSignature : Option String
  lastMerkleRoot : Option Digest
  level : SecurityLevel
  deriving DecidableEq

/-- `[0u8; 32]`. -/
def zeroDigest : Digest := Vector.replicate 32 0

/-- The string that a tick hashes into the chain. -/
def tickBytes (tickId : UInt64) (sensorData : List UInt8) (prevHash : Digest) : List UInt8 :=
  leBytes 8 tickId.toNat ++ sensorData ++ prevHash.toList

namespace SecurityScheduler

/-- `new`: no tick yet, and zeros for the hash before. -/
def new (level : SecurityLevel) (pqcInterval : UInt64) : SecurityScheduler where
  tickCount := 0
  pqcInterval := pqcInterval
  hashChain := []
  prevHash := zeroDigest
  lastPqcSignature := none
  lastMerkleRoot := none
  level := level

variable (sha3 : List UInt8 → Digest)

/-- `compute_merkle_root`; a last odd node of a layer is hashed with itself. -/
def computeMerkleRoot (s : SecurityScheduler) : Digest :=
  match s.hashChain with
  | [] => zeroDigest
  | [record] => record.hash
  | records => (climb sha3 (records.map (·.hash))).headD zeroDigest

/-- A tick with its hash pushed on the chain. -/
def pushTick (s : SecurityScheduler) (sensorData : List UInt8) : SecurityScheduler :=
  let tickCount := s.tickCount + 1
  let hash := sha3 (tickBytes tickCount sensorData s.prevHash)
  { s with tickCount, hashChain := s.hashChain ++ [⟨tickCount, hash⟩], prevHash := hash }

/-- `tick`; `none` is the panic of a remainder by zero. -/
def tick (s : SecurityScheduler) (sensorData : List UInt8) : Option (SecurityScheduler × Bool) :=
  match s.level with
  | .fullPQC =>
      let tickCount := s.tickCount + 1
      some ({ s with tickCount, prevHash := sha3 (leBytes 8 tickCount.toNat ++ sensorData) }, true)
  | .hashOnly => some (s.pushTick sha3 sensorData, false)
  | .amortizedPQC =>
      let s := s.pushTick sha3 sensorData
      if s.pqcInterval = 0 then none
      else if s.tickCount % s.pqcInterval = 0 then
        some ({ s with lastMerkleRoot := some (s.computeMerkleRoot sha3), hashChain := [] }, true)
      else some (s, false)

/-- `set_pqc_signature`. -/
def setPqcSignature (s : SecurityScheduler) (sig : String) : SecurityScheduler := { s with lastPqcSignature := some sig }

/-- `get_signing_payload`. -/
def getSigningPayload (s : SecurityScheduler) : Option String := s.lastMerkleRoot.map fun root => hexEncode root.toList

/-- Readings in a row. -/
def feed (s : SecurityScheduler) (readings : List (List UInt8)) : Option SecurityScheduler :=
  readings.foldlM (fun s sensorData => (s.tick sha3 sensorData).map (·.1)) s

/-- The strings that a tick hashes. -/
def tickInputs (s : SecurityScheduler) (sensorData : List UInt8) : List (List UInt8) :=
  match s.level with
  | .fullPQC => [leBytes 8 (s.tickCount + 1).toNat ++ sensorData]
  | .hashOnly => [tickBytes (s.tickCount + 1) sensorData s.prevHash]
  | .amortizedPQC =>
      tickBytes (s.tickCount + 1) sensorData s.prevHash ::
        (if (s.tickCount + 1) % s.pqcInterval = 0 then
          climbInputs sha3 ((s.pushTick sha3 sensorData).hashChain.map (·.hash))
        else [])

/-- The strings that are hashed while readings are fed. -/
def feedInputs : SecurityScheduler → List (List UInt8) → List (List UInt8)
  | _, [] => []
  | s, sensorData :: readings =>
      s.tickInputs sha3 sensorData ++
        ((s.tick sha3 sensorData).map fun next => feedInputs next.1 readings).getD []

end SecurityScheduler

/-! ## The chain of all ticks -/

/-- The hashes of the ticks from the first on. -/
def tickHashes (sha3 : List UInt8 → Digest) (readings : List (List UInt8)) : List Digest :=
  readings.foldl (fun hashes sensorData =>
    hashes ++ [sha3 (tickBytes (.ofNat (hashes.length + 1)) sensorData (hashes.getLastD zeroDigest))]) []

/-- The hash of the last tick. -/
def lastHash (sha3 : List UInt8 → Digest) (readings : List (List UInt8)) : Digest :=
  (tickHashes sha3 readings).getLastD zeroDigest

variable {sha3 : List UInt8 → Digest}

/-- A hash for each tick. -/
@[simp] theorem length_tickHashes (readings : List (List UInt8)) :
    (tickHashes sha3 readings).length = readings.length := by
  induction readings using List.reverseRecOn with
  | nil => rfl
  | append_singleton readings x ih =>
      rw [tickHashes, List.foldl_append, List.foldl_cons, List.foldl_nil, List.length_append, List.length_append]
      exact congrArg (· + 1) ih

/-- The string that the next tick hashes. -/
def nextBytes (sha3 : List UInt8 → Digest) (readings : List (List UInt8)) (x : List UInt8) : List UInt8 :=
  tickBytes (.ofNat (readings.length + 1)) x (lastHash sha3 readings)

/-- One tick more is one hash more. -/
theorem tickHashes_concat (readings : List (List UInt8)) (x : List UInt8) :
    tickHashes sha3 (readings ++ [x]) = tickHashes sha3 readings ++ [sha3 (nextBytes sha3 readings x)] := by
  rw [tickHashes, List.foldl_append, nextBytes, ← @length_tickHashes sha3 readings]
  rfl

/-- Which is then the last. -/
theorem lastHash_concat (readings : List (List UInt8)) (x : List UInt8) :
    lastHash sha3 (readings ++ [x]) = sha3 (nextBytes sha3 readings x) := by
  rw [lastHash, tickHashes_concat, List.getLastD_concat]

variable (sha3) in
/-- The hashes of a flight in two parts. -/
theorem tickHashes_append (readings more : List (List UInt8)) :
    ∃ hashes, tickHashes sha3 (readings ++ more) = tickHashes sha3 readings ++ hashes := by
  induction more using List.reverseRecOn with
  | nil => exact ⟨[], by rw [List.append_nil, List.append_nil]⟩
  | append_singleton more x ih =>
      obtain ⟨hashes, hall⟩ := ih
      refine ⟨hashes ++ [sha3 (nextBytes sha3 (readings ++ more) x)], ?_⟩
      rw [← List.append_assoc, tickHashes_concat, hall, List.append_assoc]

/-- The first ticks have the hashes they have on their own. -/
theorem tickHashes_take (readings : List (List UInt8)) (n : Nat) :
    (tickHashes sha3 readings).take n = tickHashes sha3 (readings.take n) := by
  obtain ⟨hashes, hall⟩ := tickHashes_append sha3 (readings.take n) (readings.drop n)
  rw [List.take_append_drop] at hall
  rcases Nat.le_total n readings.length with hle | hle
  · rw [hall, List.take_left' (by rw [length_tickHashes, List.length_take, Nat.min_eq_left hle])]
  · rw [List.take_of_length_le hle, List.take_of_length_le (by rwa [length_tickHashes])]

/-- All strings that the chain hashes are among `hashed`. -/
def ChainIn (sha3 : List UInt8 → Digest) (hashed : List (List UInt8)) (readings : List (List UInt8)) : Prop :=
  ∀ pre x, pre ++ [x] <+: readings → nextBytes sha3 pre x ∈ hashed

/-- The string of a tick shows its number, its data and the hash before. -/
theorem tickBytes_inj {tickId tickId' : UInt64} {x x' : List UInt8} {prev prev' : Digest}
    (h : tickBytes tickId x prev = tickBytes tickId' x' prev') : tickId = tickId' ∧ x = x' ∧ prev = prev' := by
  unfold tickBytes at h
  rw [List.append_assoc, List.append_assoc] at h
  obtain ⟨hid, hrest⟩ := fixedWidth_u64.append_iff.mp h
  obtain ⟨hdata, hprev⟩ := (fixedWidth_vector 32).append_last_iff.mp hrest
  exact ⟨hid, hdata, hprev⟩

/-- **A hash of the chain binds the whole flight before it.** The tick number in front of a reading says where the chain
began, so two chains are compared back to their start. -/
theorem readings_eq_of_lastHash {hashed : List (List UInt8)} (hcf : NoCollisions sha3 hashed)
    {a b : List (List UInt8)} (ha : ChainIn sha3 hashed a) (hb : ChainIn sha3 hashed b) (hane : a ≠ []) (hbne : b ≠ [])
    (halen : a.length < 2 ^ 64) (hblen : b.length < 2 ^ 64) (h : lastHash sha3 a = lastHash sha3 b) : a = b := by
  induction a using List.reverseRecOn generalizing b with
  | nil => exact absurd rfl hane
  | append_singleton a x ih =>
      obtain ⟨b, y, rfl⟩ := (List.eq_nil_or_concat b).resolve_left hbne
      rw [List.concat_eq_append] at hb hblen h ⊢
      rw [lastHash_concat, lastHash_concat] at h
      have hstrings := hcf _ (ha a x List.prefix_rfl) _ (hb b y List.prefix_rfl) h
      obtain ⟨hid, rfl, hprev⟩ := tickBytes_inj hstrings
      rw [List.length_append, List.length_singleton] at halen hblen
      have hlen : a.length = b.length := by
        have hval := congrArg UInt64.toNat hid
        rw [UInt64.toNat_ofNat', UInt64.toNat_ofNat', Nat.mod_eq_of_lt halen, Nat.mod_eq_of_lt hblen] at hval
        omega
      cases a with
      | nil => rw [List.length_eq_zero_iff.mp hlen.symm]
      | cons c a =>
          have hbne' : b ≠ [] := by
            rintro rfl
            exact absurd hlen (Nat.succ_ne_zero _)
          have hsame := ih (fun pre z hpre => ha pre z (hpre.trans (List.prefix_append _ _)))
            (fun pre z hpre => hb pre z (hpre.trans (List.prefix_append _ _))) (List.cons_ne_nil _ _) hbne'
            (by omega) (by omega) hprev
          rw [hsame]

/-- Without collisions, the hashes of strings determine the strings. -/
theorem strings_eq_of_hashes {hashed : List (List UInt8)} (hcf : NoCollisions sha3 hashed) {l l' : List (List UInt8)}
    (hl : l ⊆ hashed) (hl' : l' ⊆ hashed) (h : l.map sha3 = l'.map sha3) : l = l' := by
  induction l generalizing l' with
  | nil => exact (List.map_eq_nil_iff.mp h.symm).symm
  | cons x l ih =>
      obtain ⟨y, l', rfl, hhead, htail⟩ := List.map_eq_cons_iff.mp h.symm
      obtain ⟨hx, hl⟩ := List.cons_subset.mp hl
      obtain ⟨hy, hl'⟩ := List.cons_subset.mp hl'
      rw [hcf x hx y hy hhead.symm, ih hl hl' htail.symm]

/-- **A root binds its layer**: of two layers of one length with one root, the strings hashed above them being among
those without collisions. -/
theorem climb_injective {hashed : List (List UInt8)} (hcf : NoCollisions sha3 hashed) {l l' : List Digest}
    (hl : climbInputs sha3 l ⊆ hashed) (hl' : climbInputs sha3 l' ⊆ hashed) (hlen : l.length = l'.length)
    (h : climb sha3 l = climb sha3 l') : l = l' := by
  induction l using reduce_induction (f := combine sha3) generalizing l' with
  | done l hle =>
      unfold climb at h
      rwa [reduce_of_le hle, reduce_of_le (hlen ▸ hle)] at h
  | pair l hlt ih =>
      have hlt' : 1 < l'.length := hlen ▸ hlt
      unfold climb at h ih
      rw [climbInputs, if_pos hlt] at hl
      rw [climbInputs, if_pos hlt'] at hl'
      rw [reduce_of_lt hlt, reduce_of_lt hlt'] at h
      obtain ⟨hpairs, habove⟩ := List.append_subset.mp hl
      obtain ⟨hpairs', habove'⟩ := List.append_subset.mp hl'
      have hnext : pairWith (combine sha3) l = pairWith (combine sha3) l' :=
        ih habove habove' (by rw [length_pairWith, length_pairWith, hlen]) h
      have hhashes : ∀ l : List Digest, pairWith (combine sha3) l = (pairWith pairBytes l).map sha3 := fun l =>
        (map_pairWith sha3 pairBytes l).symm
      rw [hhashes, hhashes] at hnext
      have hstrings := strings_eq_of_hashes hcf hpairs hpairs' hnext
      exact pairWith_injective (S := fun _ => True) (fun a b c d _ _ _ _ => MerkleTree.pairBytes_inj)
        (fun _ _ => trivial) (fun _ _ => trivial) hlen hstrings

/-! ## A flight -/

namespace SecurityScheduler

variable {s : SecurityScheduler} {k : UInt64} {readings : List (List UInt8)}

/-- The loop of the source is a climb through the layers. -/
theorem computeMerkleRoot_eq (s : SecurityScheduler) :
    s.computeMerkleRoot sha3 = (climb sha3 (s.hashChain.map (·.hash))).headD zeroDigest := by
  unfold computeMerkleRoot climb
  split
  · next h => rw [h, List.map_nil, reduce_of_le (by simp)]; rfl
  · next record h => rw [h, List.map_singleton, reduce_of_le (by simp)]; rfl
  · rfl

/-- One reading more. -/
theorem feed_concat (s : SecurityScheduler) (readings : List (List UInt8)) (x : List UInt8) :
    s.feed sha3 (readings ++ [x]) = (s.feed sha3 readings).bind fun s => (s.tick sha3 x).map (·.1) := by
  unfold feed
  rw [List.foldlM_append]
  congr 1
  funext s
  exact bind_pure _

/-- And the strings it hashes. -/
theorem feedInputs_concat (s : SecurityScheduler) (readings : List (List UInt8)) (x : List UInt8) :
    s.feedInputs sha3 (readings ++ [x]) =
      s.feedInputs sha3 readings ++ ((s.feed sha3 readings).map fun s => s.tickInputs sha3 x).getD [] := by
  induction readings generalizing s with
  | nil =>
      show s.tickInputs sha3 x ++ ((s.tick sha3 x).map fun _ => []).getD [] = [] ++ s.tickInputs sha3 x
      cases s.tick sha3 x <;> simp
  | cons y readings ih =>
      have hfeed : s.feed sha3 (y :: readings) =
          (s.tick sha3 y).bind fun next => next.1.feed sha3 readings := by
        unfold feed
        rw [List.foldlM_cons]
        cases s.tick sha3 y <;> rfl
      rw [List.cons_append, feedInputs, feedInputs, hfeed]
      cases s.tick sha3 y with
      | none => simp
      | some next =>
          rw [Option.map_some, Option.map_some, Option.getD_some, Option.getD_some, ih, List.append_assoc,
            Option.bind_some]

/-- The end of the last full epoch. -/
def epochEnd (k : UInt64) (n : Nat) : Nat := n / k.toNat * k.toNat

/-- The hashes of the last full epoch. -/
def epochHashes (sha3 : List UInt8 → Digest) (k : UInt64) (readings : List (List UInt8)) : List Digest :=
  ((tickHashes sha3 readings).take (epochEnd k readings.length)).drop (epochEnd k readings.length - k.toNat)

/-- The scheduler after a flight. -/
structure Flown (sha3 : List UInt8 → Digest) (k : UInt64) (readings : List (List UInt8)) (s : SecurityScheduler) :
    Prop where
  level : s.level = .amortizedPQC
  interval : s.pqcInterval = k
  count : s.tickCount = .ofNat readings.length
  prev : s.prevHash = lastHash sha3 readings
  chain : s.hashChain.map (·.hash) = (tickHashes sha3 readings).drop (epochEnd k readings.length)
  root : s.lastMerkleRoot =
    if readings.length < k.toNat then none else some ((climb sha3 (epochHashes sha3 k readings)).headD zeroDigest)

/-- Before the first tick nothing is kept. -/
theorem flown_new (hk : k ≠ 0) : Flown sha3 k [] (.new .amortizedPQC k) where
  level := rfl
  interval := rfl
  count := rfl
  prev := rfl
  chain := by simp [new, tickHashes]
  root := by
    rw [if_pos]
    · rfl
    · exact Nat.pos_of_ne_zero fun h => hk (UInt64.toNat_inj.mp h)

/-- A tick within an epoch leaves its end where it is. -/
theorem epochEnd_succ_of_not_dvd {n : Nat} (h : ¬ k.toNat ∣ n + 1) : epochEnd k (n + 1) = epochEnd k n := by
  unfold epochEnd
  rw [Nat.succ_div_of_not_dvd h]

/-- The last tick of an epoch ends it. -/
theorem epochEnd_succ_of_dvd {n : Nat} (h : k.toNat ∣ n + 1) :
    epochEnd k (n + 1) = n + 1 ∧ epochEnd k n = n + 1 - k.toNat := by
  unfold epochEnd
  refine ⟨Nat.div_mul_cancel h, ?_⟩
  have hnext := Nat.div_mul_cancel h
  rw [Nat.succ_div_of_dvd h, Nat.succ_mul] at hnext
  omega

/-- The remainder of 64 bits is that of the tick number. -/
theorem ofNat_mod_eq_zero_iff {n : Nat} (h : n < 2 ^ 64) : UInt64.ofNat n % k = 0 ↔ k.toNat ∣ n := by
  rw [← UInt64.toNat_inj, UInt64.toNat_mod, UInt64.toNat_ofNat', Nat.mod_eq_of_lt h, Nat.dvd_iff_mod_eq_zero]
  rfl

/-- Within an epoch the hashes of the last one stay. -/
theorem epochHashes_of_not_dvd (h : ¬ k.toNat ∣ readings.length + 1) (x : List UInt8) :
    epochHashes sha3 k (readings ++ [x]) = epochHashes sha3 k readings := by
  rw [epochHashes, List.length_append, List.length_singleton, epochEnd_succ_of_not_dvd h, tickHashes_concat,
    List.take_append_of_le_length (by rw [length_tickHashes]; exact Nat.div_mul_le_self _ _)]
  rfl

/-- With its last tick they are those since the end of the one before. -/
theorem epochHashes_of_dvd (h : k.toNat ∣ readings.length + 1) (x : List UInt8) :
    epochHashes sha3 k (readings ++ [x]) = (tickHashes sha3 (readings ++ [x])).drop (epochEnd k readings.length) := by
  obtain ⟨hend, hbefore⟩ := epochEnd_succ_of_dvd h
  rw [epochHashes, List.length_append, List.length_singleton, hend, hbefore, List.take_of_length_le]
  rw [length_tickHashes, List.length_append, List.length_singleton]

/-- A tick is pushed on the chain. -/
theorem Flown.pushTick (h : Flown sha3 k readings s) (x : List UInt8) :
    (s.pushTick sha3 x).tickCount = .ofNat (readings.length + 1) ∧
      (s.pushTick sha3 x).prevHash = lastHash sha3 (readings ++ [x]) ∧
      (s.pushTick sha3 x).hashChain.map (·.hash) =
        (tickHashes sha3 (readings ++ [x])).drop (epochEnd k readings.length) := by
  have hcount : s.tickCount + 1 = .ofNat (readings.length + 1) := by
    rw [h.count, UInt64.ofNat_add]
    rfl
  have hhash : sha3 (tickBytes (s.tickCount + 1) x s.prevHash) = sha3 (nextBytes sha3 readings x) := by
    rw [hcount, h.prev, nextBytes]
  refine ⟨hcount, ?_, ?_⟩
  · rw [lastHash_concat]
    exact hhash
  · show (s.hashChain ++ [_]).map _ = _
    rw [List.map_append, h.chain, tickHashes_concat, List.map_singleton, hhash,
      List.drop_append_of_le_length (by rw [length_tickHashes]; exact Nat.div_mul_le_self _ _)]

/-- **One tick more.** -/
theorem Flown.tick (hk : k ≠ 0) (h : Flown sha3 k readings s) (hlen : readings.length + 1 < 2 ^ 64) (x : List UInt8) :
    ∃ next, s.tick sha3 x = some next ∧ Flown sha3 k (readings ++ [x]) next.1 := by
  obtain ⟨hcount, hprev, hchain⟩ := h.pushTick x
  have hsucc : (readings ++ [x]).length = readings.length + 1 := by
    rw [List.length_append, List.length_singleton]
  have hinterval : (s.pushTick sha3 x).pqcInterval = k := h.interval
  have hdvd : (s.pushTick sha3 x).tickCount % (s.pushTick sha3 x).pqcInterval = 0 ↔ k.toNat ∣ readings.length + 1 := by
    rw [hcount, hinterval]
    exact ofNat_mod_eq_zero_iff hlen
  unfold SecurityScheduler.tick
  rw [h.level]
  dsimp only
  rw [hinterval] at hdvd ⊢
  rw [if_neg hk]
  by_cases hepoch : k.toNat ∣ readings.length + 1
  · obtain ⟨hend, -⟩ := epochEnd_succ_of_dvd hepoch
    rw [if_pos (hdvd.mpr hepoch)]
    refine ⟨_, rfl, h.level, rfl, ?_, hprev, ?_, ?_⟩
    · rw [hsucc]
      exact hcount
    · rw [hsucc, hend, List.drop_of_length_le (by rw [length_tickHashes, hsucc])]
      rfl
    · show some _ = _
      have hle := Nat.le_of_dvd (Nat.succ_pos _) hepoch
      rw [hsucc, if_neg (by omega), computeMerkleRoot_eq, hchain, epochHashes_of_dvd hepoch]
  · have hsame := epochEnd_succ_of_not_dvd hepoch
    rw [if_neg (mt hdvd.mp hepoch)]
    refine ⟨_, rfl, h.level, hinterval, ?_, hprev, ?_, ?_⟩
    · rw [hsucc]
      exact hcount
    · rw [hsucc, hsame]
      exact hchain
    · have hshort : readings.length + 1 < k.toNat ↔ readings.length < k.toNat := by
        refine ⟨fun hlt => by omega, fun hlt => ?_⟩
        rcases Nat.lt_or_eq_of_le hlt with hlt | heq
        · exact hlt
        · exact absurd (heq ▸ dvd_refl _) hepoch
      show s.lastMerkleRoot = _
      rw [h.root, hsucc, epochHashes_of_not_dvd hepoch]
      simp only [hshort]

/-- What the tick hashes. -/
theorem Flown.tickInputs (h : Flown sha3 k readings s) (hlen : readings.length + 1 < 2 ^ 64) (x : List UInt8) :
    s.tickInputs sha3 x = nextBytes sha3 readings x ::
      (if k.toNat ∣ readings.length + 1 then
        climbInputs sha3 ((tickHashes sha3 (readings ++ [x])).drop (epochEnd k readings.length)) else []) := by
  obtain ⟨hcount, -, hchain⟩ := h.pushTick x
  replace hcount : s.tickCount + 1 = .ofNat (readings.length + 1) := hcount
  unfold SecurityScheduler.tickInputs
  rw [h.level]
  dsimp only
  rw [hchain, hcount, h.prev, h.interval]
  simp only [ofNat_mod_eq_zero_iff hlen]
  rfl

variable (sha3) in
/-- **A flight of fewer than 2^64 ticks** goes through, and leaves the scheduler of these readings. -/
theorem flown_feed (hk : k ≠ 0) (hlen : readings.length < 2 ^ 64) :
    ∃ s, feed sha3 (.new .amortizedPQC k) readings = some s ∧ Flown sha3 k readings s := by
  induction readings using List.reverseRecOn with
  | nil => exact ⟨_, rfl, flown_new hk⟩
  | append_singleton readings x ih =>
      rw [List.length_append, List.length_singleton] at hlen
      obtain ⟨s, hfeed, hflown⟩ := ih (by omega)
      obtain ⟨next, htick, hnext⟩ := hflown.tick hk hlen x
      refine ⟨next.1, ?_, hnext⟩
      rw [feed_concat, hfeed, Option.bind_some, htick]
      rfl

variable (sha3) in
/-- What one reading more adds to the strings that are hashed. -/
theorem feedInputs_next (hk : k ≠ 0) (hlen : readings.length + 1 < 2 ^ 64) (x : List UInt8) :
    feedInputs sha3 (.new .amortizedPQC k) (readings ++ [x]) =
      feedInputs sha3 (.new .amortizedPQC k) readings ++ nextBytes sha3 readings x ::
        (if k.toNat ∣ readings.length + 1 then
          climbInputs sha3 ((tickHashes sha3 (readings ++ [x])).drop (epochEnd k readings.length)) else []) := by
  obtain ⟨s, hfeed, hflown⟩ := flown_feed sha3 hk (show readings.length < 2 ^ 64 by omega)
  rw [feedInputs_concat, hfeed, Option.map_some, Option.getD_some, hflown.tickInputs hlen]

variable (sha3) in
/-- **What is hashed on a flight** has the strings of the chain in it, and those above the last full epoch. -/
theorem inputs_of_feed (hk : k ≠ 0) (hlen : readings.length < 2 ^ 64) :
    ChainIn sha3 (feedInputs sha3 (.new .amortizedPQC k) readings) readings ∧
      climbInputs sha3 (epochHashes sha3 k readings) ⊆ feedInputs sha3 (.new .amortizedPQC k) readings := by
  induction readings using List.reverseRecOn with
  | nil =>
      refine ⟨fun pre x hpre => ?_, ?_⟩
      · exact absurd (List.prefix_nil.mp hpre) (by simp)
      · have hnone : epochHashes sha3 k [] = [] := by simp [epochHashes, tickHashes]
        rw [hnone, climbInputs]
        exact List.nil_subset _
  | append_singleton readings x ih =>
      rw [List.length_append, List.length_singleton] at hlen
      obtain ⟨hchainIn, habove⟩ := ih (by omega)
      rw [feedInputs_next sha3 hk hlen]
      refine ⟨fun pre y hpre => ?_, ?_⟩
      · rcases List.prefix_concat_iff.mp hpre with heq | hpre
        · obtain ⟨rfl, hxy⟩ := List.append_inj' heq rfl
          rw [List.singleton_inj.mp hxy]
          exact List.mem_append_right _ List.mem_cons_self
        · exact List.mem_append_left _ (hchainIn pre y hpre)
      · by_cases hepoch : k.toNat ∣ readings.length + 1
        · rw [if_pos hepoch, epochHashes_of_dvd hepoch]
          exact List.subset_append_of_subset_right _ (List.subset_cons_self _ _)
        · rw [epochHashes_of_not_dvd hepoch]
          exact List.subset_append_of_subset_left _ habove

/-- An epoch ends within the flight. -/
theorem epochEnd_le (k : UInt64) (n : Nat) : epochEnd k n ≤ n := Nat.div_mul_le_self _ _

/-- A flight as long as an epoch has one behind it. -/
theorem le_epochEnd {n : Nat} (hk : k ≠ 0) (h : k.toNat ≤ n) : k.toNat ≤ epochEnd k n := by
  have hpos : 0 < k.toNat := Nat.pos_of_ne_zero fun hz => hk (UInt64.toNat_inj.mp hz)
  exact Nat.le_mul_of_pos_left _ (Nat.div_pos h hpos)

variable (sha3) in
/-- As many hashes as an epoch has ticks. -/
theorem length_epochHashes (hk : k ≠ 0) (h : k.toNat ≤ readings.length) :
    (epochHashes sha3 k readings).length = k.toNat := by
  have hle := epochEnd_le k readings.length
  have hge := le_epochEnd hk h
  rw [epochHashes, List.length_drop, List.length_take, length_tickHashes, Nat.min_eq_left hle]
  omega

/-- The last hash of the epoch is that of its last tick. -/
theorem getLastD_epochHashes (hk : k ≠ 0) (h : k.toNat ≤ readings.length) :
    (epochHashes sha3 k readings).getLastD zeroDigest = lastHash sha3 (readings.take (epochEnd k readings.length)) := by
  have hlen := length_epochHashes sha3 hk h
  have hpos : 0 < k.toNat := Nat.pos_of_ne_zero fun hz => hk (UInt64.toNat_inj.mp hz)
  rw [epochHashes, List.length_drop] at hlen
  rw [epochHashes, List.getLastD_eq_getLast?, List.getLast?_drop, if_neg (by omega), ← List.getLastD_eq_getLast?,
    tickHashes_take]
  rfl

/-- **One root, one epoch of hashes.** -/
theorem epochHashes_eq_of_root {hashed : List (List UInt8)} (hcf : NoCollisions sha3 hashed) (hk : k ≠ 0)
    {a b : List (List UInt8)} (ha : k.toNat ≤ a.length) (hb : k.toNat ≤ b.length)
    (hina : climbInputs sha3 (epochHashes sha3 k a) ⊆ hashed) (hinb : climbInputs sha3 (epochHashes sha3 k b) ⊆ hashed)
    (hroot : (climb sha3 (epochHashes sha3 k a)).headD zeroDigest = (climb sha3 (epochHashes sha3 k b)).headD zeroDigest) :
    epochHashes sha3 k a = epochHashes sha3 k b := by
  have hne : ∀ {l : List Digest}, l.length = k.toNat → l ≠ [] := by
    rintro _ hlen rfl
    exact hk (UInt64.toNat_inj.mp hlen.symm)
  have hlena := length_epochHashes sha3 hk ha
  have hlenb := length_epochHashes sha3 hk hb
  obtain ⟨x, hx⟩ := reduce_eq_singleton (combine sha3) (hne hlena)
  obtain ⟨y, hy⟩ := reduce_eq_singleton (combine sha3) (hne hlenb)
  apply climb_injective hcf hina hinb (hlena.trans hlenb.symm)
  unfold climb at hroot ⊢
  rw [hx, hy] at hroot ⊢
  exact congrArg (fun z => [z]) hroot

/-- **One epoch of hashes, one flight up to its end**: the last hash binds what was read before. -/
theorem take_eq_of_epochHashes {hashed : List (List UInt8)} (hcf : NoCollisions sha3 hashed) (hk : k ≠ 0)
    {a b : List (List UInt8)} (ha : k.toNat ≤ a.length) (hb : k.toNat ≤ b.length) (halen : a.length < 2 ^ 64)
    (hblen : b.length < 2 ^ 64) (hina : ChainIn sha3 hashed a) (hinb : ChainIn sha3 hashed b)
    (hlayer : epochHashes sha3 k a = epochHashes sha3 k b) :
    epochEnd k a.length = epochEnd k b.length ∧ a.take (epochEnd k a.length) = b.take (epochEnd k b.length) := by
  have hlast : (epochHashes sha3 k a).getLastD zeroDigest = (epochHashes sha3 k b).getLastD zeroDigest := by rw [hlayer]
  rw [getLastD_epochHashes hk ha, getLastD_epochHashes hk hb] at hlast
  have hends := epochEnd_le k a.length
  have hends' := epochEnd_le k b.length
  have hle := le_epochEnd hk ha
  have hle' := le_epochEnd hk hb
  have hpos : 0 < k.toNat := Nat.pos_of_ne_zero fun hz => hk (UInt64.toNat_inj.mp hz)
  have hsame : a.take (epochEnd k a.length) = b.take (epochEnd k b.length) := by
    apply readings_eq_of_lastHash hcf (fun pre x hpre => hina pre x (hpre.trans (List.take_prefix _ _)))
      (fun pre x hpre => hinb pre x (hpre.trans (List.take_prefix _ _)))
    · exact List.ne_nil_of_length_pos (by rw [List.length_take]; omega)
    · exact List.ne_nil_of_length_pos (by rw [List.length_take]; omega)
    · rw [List.length_take]
      omega
    · rw [List.length_take]
      omega
    · exact hlast
  refine ⟨?_, hsame⟩
  have hlen := congrArg List.length hsame
  rwa [List.length_take, List.length_take, Nat.min_eq_left hends, Nat.min_eq_left hends'] at hlen

/-- **What the root of the last epoch binds.** For every interval `k ≥ 1` and any two flights of at least `k` and fewer than
2^64 ticks, when no two of the strings that are hashed on them collide: both flights go through, and their last Merkle roots
are equal if and only if the last full epochs end at the same tick and the readings up to there are the same. -/
theorem epoch_root_eq_iff (hk : k ≠ 0) {a b : List (List UInt8)} (ha : k.toNat ≤ a.length) (hb : k.toNat ≤ b.length)
    (halen : a.length < 2 ^ 64) (hblen : b.length < 2 ^ 64)
    (hcf : NoCollisions sha3 (feedInputs sha3 (.new .amortizedPQC k) a ++ feedInputs sha3 (.new .amortizedPQC k) b)) :
    ∃ sa sb, feed sha3 (.new .amortizedPQC k) a = some sa ∧ feed sha3 (.new .amortizedPQC k) b = some sb ∧
      (sa.lastMerkleRoot = sb.lastMerkleRoot ↔
        a.length / k.toNat * k.toNat = b.length / k.toNat * k.toNat ∧
          a.take (a.length / k.toNat * k.toNat) = b.take (b.length / k.toNat * k.toNat)) := by
  obtain ⟨sa, hfa, hflowna⟩ := flown_feed sha3 hk halen
  obtain ⟨sb, hfb, hflownb⟩ := flown_feed sha3 hk hblen
  obtain ⟨hchaina, habovea⟩ := inputs_of_feed sha3 hk halen
  obtain ⟨hchainb, haboveb⟩ := inputs_of_feed sha3 hk hblen
  refine ⟨sa, sb, hfa, hfb, ?_⟩
  rw [hflowna.root, hflownb.root, if_neg (Nat.not_lt.mpr ha), if_neg (Nat.not_lt.mpr hb), Option.some_inj]
  show _ ↔ epochEnd k a.length = epochEnd k b.length ∧
    a.take (epochEnd k a.length) = b.take (epochEnd k b.length)
  constructor
  · intro hroot
    have hlayer := epochHashes_eq_of_root hcf hk ha hb (List.Subset.trans habovea (List.subset_append_left _ _))
      (List.Subset.trans haboveb (List.subset_append_right _ _)) hroot
    exact take_eq_of_epochHashes hcf hk ha hb halen hblen
      (fun pre x hpre => List.mem_append_left _ (hchaina pre x hpre))
      (fun pre x hpre => List.mem_append_right _ (hchainb pre x hpre)) hlayer
  · rintro ⟨hend, hsame⟩
    have hhashes : epochHashes sha3 k a = epochHashes sha3 k b := by
      rw [epochHashes, epochHashes, tickHashes_take, tickHashes_take, hsame, hend]
    rw [hhashes]

/-- A hash function of the example: the sum of the first, the ninth and the last byte. On the two flights below no two of
the strings hashed have the same. -/
def dataHash (bytes : List UInt8) : Digest :=
  Vector.replicate 32 (bytes.headD 0 + bytes.getD 8 0 + bytes.getLastD 0)

/-- Two hashes are combined once. -/
theorem climbInputs_pair (d e : Digest) : climbInputs sha3 [d, e] = [pairBytes d e] := by
  rw [climbInputs, if_pos (by simp)]
  show [pairBytes d e] ++ climbInputs sha3 [combine sha3 d e] = _
  rw [climbInputs, if_neg (by simp), List.append_nil]

variable (sha3) in
/-- A tick inside an epoch hashes its own string only. -/
theorem feedInputs_inside (hk : k ≠ 0) (hlen : readings.length + 1 < 2 ^ 64) (x : List UInt8)
    (hinside : ¬ k.toNat ∣ readings.length + 1) : feedInputs sha3 (.new .amortizedPQC k) (readings ++ [x]) =
      feedInputs sha3 (.new .amortizedPQC k) readings ++ [nextBytes sha3 readings x] := by
  rw [feedInputs_next sha3 hk hlen, if_neg hinside]

variable (sha3) in
/-- The last tick of an epoch hashes what combines the epoch's hashes as well. -/
theorem feedInputs_last (hk : k ≠ 0) (hlen : readings.length + 1 < 2 ^ 64) (x : List UInt8)
    (hlast : k.toNat ∣ readings.length + 1) : feedInputs sha3 (.new .amortizedPQC k) (readings ++ [x]) =
      feedInputs sha3 (.new .amortizedPQC k) readings ++ nextBytes sha3 readings x ::
        climbInputs sha3 ((tickHashes sha3 (readings ++ [x])).drop (epochEnd k readings.length)) := by
  rw [feedInputs_next sha3 hk hlen, if_pos hlast]

variable (sha3) in
/-- The strings of two epochs of two ticks. -/
theorem feedInputs_two_epochs (w x y z : List UInt8) :
    feedInputs sha3 (.new .amortizedPQC 2) [w, x, y, z] =
      [nextBytes sha3 [] w, nextBytes sha3 [w] x, pairBytes (lastHash sha3 [w]) (lastHash sha3 [w, x]),
        nextBytes sha3 [w, x] y, nextBytes sha3 [w, x, y] z,
        pairBytes (lastHash sha3 [w, x, y]) (lastHash sha3 [w, x, y, z])] := by
  have hk : (2 : UInt64) ≠ 0 := by decide
  have hone : tickHashes sha3 [w, x] = [lastHash sha3 [w], lastHash sha3 [w, x]] := rfl
  have htwo : (tickHashes sha3 [w, x, y, z]).drop 2 = [lastHash sha3 [w, x, y], lastHash sha3 [w, x, y, z]] := rfl
  have hfirst := feedInputs_inside sha3 hk (show ([] : List (List UInt8)).length + 1 < 2 ^ 64 by decide) w (by decide)
  have hsecond := feedInputs_last sha3 hk (show [w].length + 1 < 2 ^ 64 by simp) x (by simp)
  have hthird := feedInputs_inside sha3 hk (show [w, x].length + 1 < 2 ^ 64 by simp) y (by simp)
  have hfourth := feedInputs_last sha3 hk (show [w, x, y].length + 1 < 2 ^ 64 by simp) z (by simp)
  rw [show epochEnd 2 [w].length = 0 from (by decide : epochEnd 2 1 = 0), List.drop_zero, List.singleton_append, hone,
    climbInputs_pair] at hsecond
  rw [show epochEnd 2 [w, x, y].length = 2 from (by decide : epochEnd 2 3 = 2), List.cons_append, List.cons_append,
    List.singleton_append, htwo, climbInputs_pair] at hfourth
  rw [List.cons_append, List.singleton_append] at hthird
  rw [List.nil_append] at hfirst
  rw [hfourth, hthird, hsecond, hfirst]
  rfl

/-- Four readings, two epochs. -/
def calmFlight : List (List UInt8) := [[1], [2], [3], [4]]

/-- Another reading in the first epoch, the same in the second one. -/
def otherFlight : List (List UInt8) := [[1], [9], [3], [4]]

/-- A tick beyond the second epoch. -/
def longFlight : List (List UInt8) := [[1], [2], [3], [4], [5]]

/-- Two epochs of two ticks, and for one of the flights a tick of the third: the readings of the first epoch, which is
long cleared, tell the flights apart, and the tick that belongs to no full epoch does not. -/
theorem epoch_root_eq_iff_two_epochs :
    (∃ sa sb, feed dataHash (.new .amortizedPQC 2) calmFlight = some sa ∧
      feed dataHash (.new .amortizedPQC 2) longFlight = some sb ∧ sa.lastMerkleRoot = sb.lastMerkleRoot) ∧
    ∃ sa sb, feed dataHash (.new .amortizedPQC 2) calmFlight = some sa ∧
      feed dataHash (.new .amortizedPQC 2) otherFlight = some sb ∧ sa.lastMerkleRoot ≠ sb.lastMerkleRoot := by
  have hlong : feedInputs dataHash (.new .amortizedPQC 2) longFlight =
      feedInputs dataHash (.new .amortizedPQC 2) calmFlight ++ [nextBytes dataHash calmFlight [5]] := by
    have hlen : calmFlight.length + 1 < 2 ^ 64 := by decide
    exact feedInputs_inside dataHash (k := 2) (by decide) hlen [5] (by decide)
  have hcalm : feedInputs dataHash (.new .amortizedPQC 2) calmFlight = _ := feedInputs_two_epochs dataHash [1] [2] [3] [4]
  have hother : feedInputs dataHash (.new .amortizedPQC 2) otherFlight = _ := feedInputs_two_epochs dataHash [1] [9] [3] [4]
  have hcf : NoCollisions dataHash (feedInputs dataHash (.new .amortizedPQC 2) calmFlight ++
      feedInputs dataHash (.new .amortizedPQC 2) longFlight) := by
    rw [hlong, hcalm]
    unfold NoCollisions
    decide +kernel
  have hcf' : NoCollisions dataHash (feedInputs dataHash (.new .amortizedPQC 2) calmFlight ++
      feedInputs dataHash (.new .amortizedPQC 2) otherFlight) := by
    rw [hcalm, hother]
    unfold NoCollisions
    decide +kernel
  obtain ⟨sa, sb, hsa, hsb, hiff⟩ := epoch_root_eq_iff (k := 2) (by decide) (by decide) (by decide) (by decide)
    (by decide) hcf
  obtain ⟨ta, tb, hta, htb, hiff'⟩ := epoch_root_eq_iff (k := 2) (by decide) (by decide) (by decide) (by decide)
    (by decide) hcf'
  exact ⟨⟨sa, sb, hsa, hsb, hiff.mpr (by decide)⟩, ta, tb, hta, htb, fun h => absurd (hiff'.mp h) (by decide)⟩

end SecurityScheduler

end WarmLogic.Drone
