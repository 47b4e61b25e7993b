/-
# WarmLogic.Lib.Bytes — little-endian and big-endian words, and sparse byte files.

Two small pieces a binary format rests on: fixed-width naturals over byte lists, with the round trips, and a
byte FILE as its length plus a byte function that is zero past the end. The zero tail is a field of
`ByteFile`, so extending a file by `setLen` or by a write past the end shows zeros without any case split.
The read-back rules are stated through `Holds f off bs`: the bytes of `bs` stand at `off`.
-/
import Mathlib.Data.List.GetD
import Mathlib.Tactic.Ring

namespace WarmLogic.Lib

/-! ## Little-endian naturals -/

/-- The `k` low bytes of `n`, least significant first. -/
def leBytes : Nat → Nat → List UInt8
  | 0, _ => []
  | k + 1, n => UInt8.ofNat (n % 256) :: leBytes k (n / 256)

/-- The natural a little-endian byte list denotes. -/
def ofLeBytes : List UInt8 → Nat
  | [] => 0
  | b :: bs => b.toNat + 256 * ofLeBytes bs

@[simp] theorem length_leBytes (k n : Nat) : (leBytes k n).length = k := by
  induction k generalizing n with
  | zero => rfl
  | succ k ih => simp [leBytes, ih]

theorem ofLeBytes_leBytes (k n : Nat) : ofLeBytes (leBytes k n) = n % 256 ^ k := by
  induction k generalizing n with
  | zero => simp [leBytes, ofLeBytes, Nat.mod_one]
  | succ k ih =>
      have hb : (UInt8.ofNat (n % 256)).toNat = n % 256 := by
        rw [UInt8.toNat_ofNat']
        omega
      rw [leBytes, ofLeBytes, hb, ih, pow_succ', Nat.mod_mul]

theorem ofLeBytes_leBytes_of_lt {k n : Nat} (h : n < 256 ^ k) : ofLeBytes (leBytes k n) = n := by
  rw [ofLeBytes_leBytes, Nat.mod_eq_of_lt h]

theorem leBytes_ofLeBytes (bs : List UInt8) : leBytes bs.length (ofLeBytes bs) = bs := by
  induction bs with
  | nil => rfl
  | cons b bs ih =>
      have hb : b.toNat < 256 := b.toNat_lt
      have h1 : (b.toNat + 256 * ofLeBytes bs) % 256 = b.toNat := by omega
      have h2 : (b.toNat + 256 * ofLeBytes bs) / 256 = ofLeBytes bs := by omega
      simp only [List.length_cons, ofLeBytes, leBytes, h1, h2, ih, UInt8.ofNat_toNat]

theorem ofLeBytes_lt (bs : List UInt8) : ofLeBytes bs < 256 ^ bs.length := by
  induction bs with
  | nil => simp [ofLeBytes]
  | cons b bs ih =>
      have hb : b.toNat < 256 := b.toNat_lt
      rw [List.length_cons, pow_succ', ofLeBytes]
      omega

/-! ## Big-endian naturals -/

/-- The `k` low bytes of `n`, most significant first. -/
def beBytes (k n : Nat) : List UInt8 := (leBytes k n).reverse

/-- The natural a big-endian byte list denotes. -/
def ofBeBytes (bs : List UInt8) : Nat := ofLeBytes bs.reverse

@[simp] theorem length_beBytes (k n : Nat) : (beBytes k n).length = k := by
  simp [beBytes]

theorem drop_beBytes {k i : Nat} (h : k ≤ i) (n : Nat) : (beBytes k n).drop i = [] :=
  List.drop_eq_nil_of_le (by simpa using h)

theorem ofBeBytes_beBytes_of_lt {k n : Nat} (h : n < 256 ^ k) : ofBeBytes (beBytes k n) = n := by
  rw [ofBeBytes, beBytes, List.reverse_reverse, ofLeBytes_leBytes_of_lt h]

/-! ## Byte files -/

/-- A file: its length and its bytes, zero past the end. -/
structure ByteFile where
  size : Nat
  byte : Nat → UInt8
  zero_beyond : ∀ i, size ≤ i → byte i = 0

namespace ByteFile

/-- A file of `n` zero bytes (a fresh file after `set_len n`). -/
def zeros (n : Nat) : ByteFile := ⟨n, fun _ => 0, fun _ _ => rfl⟩

/-- `read_exact` of `n` bytes at `off`; `none` when the file ends first. -/
def read (f : ByteFile) (off n : Nat) : Option (List UInt8) :=
  if off + n ≤ f.size then some ((List.range n).map fun i => f.byte (off + i)) else none

/-- `write_all` at `off`; writing past the end extends the file, leaving zeros in between. -/
def write (f : ByteFile) (off : Nat) (bs : List UInt8) : ByteFile where
  size := max f.size (off + bs.length)
  byte i := if off ≤ i ∧ i < off + bs.length then bs.getD (i - off) 0 else f.byte i
  zero_beyond := by
    intro i hi
    have h : ¬ (off ≤ i ∧ i < off + bs.length) := by omega
    rw [if_neg h]
    exact f.zero_beyond i (by omega)

/-- `set_len`: cut off, or extend with zeros. -/
def setLen (f : ByteFile) (n : Nat) : ByteFile where
  size := n
  byte i := if i < n then f.byte i else 0
  zero_beyond := by
    intro i hi
    rw [if_neg (by omega)]

/-- The bytes of `bs` stand in `f` at `off`. -/
def Holds (f : ByteFile) (off : Nat) (bs : List UInt8) : Prop :=
  off + bs.length ≤ f.size ∧ ∀ i, i < bs.length → f.byte (off + i) = bs.getD i 0

/-- Everything from `off` on is zero. -/
def ZeroFrom (f : ByteFile) (off : Nat) : Prop := ∀ i, off ≤ i → f.byte i = 0

theorem Holds.read {f : ByteFile} {off : Nat} {bs : List UInt8} (h : f.Holds off bs) :
    f.read off bs.length = some bs := by
  rw [ByteFile.read, if_pos h.1]
  congr 1
  refine List.ext_getElem (by simp) fun i h1 h2 => ?_
  rw [List.getElem_map, List.getElem_range, h.2 i h2, List.getD_eq_getElem _ _ h2]

theorem holds_append {f : ByteFile} {off : Nat} {as bs : List UInt8} :
    f.Holds off (as ++ bs) ↔ f.Holds off as ∧ f.Holds (off + as.length) bs := by
  unfold Holds
  constructor
  · rintro ⟨hsize, hbyte⟩
    rw [List.length_append] at hsize hbyte
    refine ⟨⟨by omega, fun i hi => ?_⟩, ⟨by omega, fun i hi => ?_⟩⟩
    · rw [hbyte i (by omega), List.getD_append _ _ _ _ hi]
    · rw [Nat.add_assoc, hbyte (as.length + i) (by omega),
        List.getD_append_right _ _ _ _ (by omega), Nat.add_sub_cancel_left]
  · rintro ⟨⟨_, ha⟩, hsize, hb⟩
    rw [List.length_append]
    refine ⟨by omega, fun i hi => ?_⟩
    by_cases h : i < as.length
    · rw [ha i h, List.getD_append _ _ _ _ h]
    · have h' := hb (i - as.length) (by omega)
      rw [Nat.add_assoc, Nat.add_sub_cancel' (by omega)] at h'
      rw [h', List.getD_append_right _ _ _ _ (by omega)]

@[simp] theorem holds_nil {f : ByteFile} {off : Nat} : f.Holds off [] ↔ off ≤ f.size := by
  simp [Holds]

/-- A write is read back. -/
theorem holds_write (f : ByteFile) (off : Nat) (bs : List UInt8) : (f.write off bs).Holds off bs := by
  refine ⟨by simp [write], fun i hi => ?_⟩
  have h : off ≤ off + i ∧ off + i < off + bs.length := by omega
  simp only [write, if_pos h, Nat.add_sub_cancel_left]

/-- A write leaves the bytes below it alone. -/
theorem Holds.write {f : ByteFile} {off o : Nat} {as bs : List UInt8} (h : f.Holds off as)
    (ho : off + as.length ≤ o) : (f.write o bs).Holds off as := by
  refine ⟨le_trans h.1 (by simp [ByteFile.write]), fun i hi => ?_⟩
  have hn : ¬ (o ≤ off + i ∧ off + i < o + bs.length) := by omega
  simp only [ByteFile.write, if_neg hn]
  exact h.2 i hi

theorem ZeroFrom.write {f : ByteFile} {off o : Nat} {bs : List UInt8} (h : f.ZeroFrom off)
    (ho : off ≤ o + bs.length) : (f.write o bs).ZeroFrom (o + bs.length) := by
  intro i hi
  have hn : ¬ (o ≤ i ∧ i < o + bs.length) := by omega
  simp only [ByteFile.write, if_neg hn]
  exact h i (by omega)

theorem Holds.setLen {f : ByteFile} {off n : Nat} {bs : List UInt8} (h : f.Holds off bs)
    (hn : off + bs.length ≤ n) : (f.setLen n).Holds off bs := by
  refine ⟨hn, fun i hi => ?_⟩
  have hlt : off + i < n := by omega
  simp only [ByteFile.setLen, if_pos hlt]
  exact h.2 i hi

theorem zeroFrom_setLen (f : ByteFile) (n : Nat) : (f.setLen n).ZeroFrom n := by
  intro i hi
  simp only [ByteFile.setLen, if_neg (show ¬ i < n by omega)]

/-- What can be read is there. -/
theorem le_size_of_read {f : ByteFile} {off n : Nat} {bs : List UInt8} (h : f.read off n = some bs) :
    off + n ≤ f.size := by
  unfold read at h
  split at h
  · assumption
  · cases h

/-- A read below the cut sees what stood there. -/
theorem read_setLen {f : ByteFile} {n off k : Nat} (hn : n ≤ f.size) (hk : off + k ≤ n) :
    (f.setLen n).read off k = f.read off k := by
  unfold read setLen
  rw [if_pos hk, if_pos (le_trans hk hn)]
  refine congrArg some (List.map_congr_left fun i hi => ?_)
  have hi := List.mem_range.mp hi
  exact if_pos (by omega)

/-- A word read where the file is all zero is the zero word, or the file ends before it. -/
theorem read_of_zeros {f : ByteFile} {off n : Nat} (h : ∀ i, i < n → f.byte (off + i) = 0) :
    f.read off n = none ∨ ∃ bs, f.read off n = some bs ∧ ofLeBytes bs = 0 := by
  unfold read
  split
  · refine Or.inr ⟨_, rfl, ?_⟩
    have hz : (List.range n).map (fun i => f.byte (off + i)) = List.replicate n 0 := by
      refine List.eq_replicate_iff.mpr ⟨by simp, fun b hb => ?_⟩
      obtain ⟨i, hi, rfl⟩ := List.mem_map.mp hb
      exact h i (List.mem_range.mp hi)
    rw [hz]
    clear hz h
    induction n with
    | zero => rfl
    | succ n ih => rw [List.replicate_succ, ofLeBytes]; simp; exact ih (by omega)
  · exact Or.inl rfl

end ByteFile

end WarmLogic.Lib
