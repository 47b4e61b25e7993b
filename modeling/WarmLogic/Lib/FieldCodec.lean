/-
# WarmLogic.Lib.FieldCodec — readers that accept what was written, and a field behind its length.

A reader that looks at the front of its input only is described by one equivalence (`ReadsFront`): it returns `x` exactly
on the inputs that start with the encoding of `x`, for the values that can be encoded at all. The round trip and the
refusal of every cut-off encoding follow from that equivalence alone.

Readers that clamp their slices and skip what they do not know accept more than was written. Of these the round trip alone
is of interest, and `Reads` puts it together from reader to reader.
-/
import WarmLogic.Lib.Bytes
import WarmLogic.Lib.Fields

namespace WarmLogic.Lib

/-! ## Readers of the front of their input -/

/-- **`ReadsFront ok enc dec`** — `dec` reads the encoding of an `ok` value at the front of its input, whatever comes
after it, and accepts nothing else. -/
def ReadsFront {α β : Type} (ok : α → Prop) (enc : α → List β) (dec : List β → Option α) : Prop :=
  ∀ input x, dec input = some x ↔ ok x ∧ ∃ rest, input = enc x ++ rest

namespace ReadsFront

variable {α β : Type} {ok : α → Prop} {enc : α → List β} {dec : List β → Option α} {x : α}

theorem round_trip (h : ReadsFront ok enc dec) (hx : ok x) : dec (enc x) = some x :=
  (h (enc x) x).mpr ⟨hx, [], (List.append_nil _).symm⟩

/-- **An encoding that was cut off is refused.** It would be the encoding of another value, and then so would the whole
be, with something after it. -/
theorem cut_off (h : ReadsFront ok enc dec) (hx : ok x) {input : List β} (hcut : input <+: enc x)
    (hne : input ≠ enc x) : dec input = none := by
  by_contra hread
  obtain ⟨y, hy⟩ := Option.ne_none_iff_exists'.mp hread
  obtain ⟨hoky, rest, hinput⟩ := (h input y).mp hy
  obtain ⟨tail, htail⟩ := hcut
  have hwhole : dec (enc x) = some y := by
    refine (h (enc x) y).mpr ⟨hoky, rest ++ tail, ?_⟩
    rw [← htail, hinput, List.append_assoc]
  have hsame : y = x := Option.some.inj (hwhole.symm.trans (h.round_trip hx))
  subst hsame
  have hlen := congrArg List.length htail
  rw [hinput, List.length_append, List.length_append] at hlen
  have hrest : rest = [] := List.length_eq_zero_iff.mp (by omega)
  rw [hrest, List.append_nil] at hinput
  exact hne hinput

end ReadsFront

/-- Readings in a row, each of which succeeds. -/
theorem mapM_eq_map {α β : Type} {f : α → Option β} {g : α → β} {l : List α} (h : ∀ x ∈ l, f x = some (g x)) :
    l.mapM f = some (l.map g) := by
  induction l with
  | nil => rfl
  | cons x l ih =>
      obtain ⟨hx, hl⟩ := List.forall_mem_cons.mp h
      rw [List.mapM_cons, hx, ih hl]
      rfl

/-! ## Readers in sequence -/

/-- A reader takes its input from a state; `none` is its failure. -/
abbrev Reader (β : Type) := StateT (List β) Option

/-- **`Reads m bytes x`** — in front of any rest, the reader takes these bytes for `x`. -/
def Reads {α β : Type} (m : Reader β α) (bytes : List β) (x : α) : Prop :=
  ∀ rest, m.run (bytes ++ rest) = some (x, rest)

namespace Reads

variable {α β γ : Type} {m : Reader β α} {bytes bytes' : List β} {x : α} {y : γ}

/-- One reader behind another. -/
theorem bind {f : α → Reader β γ} (hm : Reads m bytes x) (hf : Reads (f x) bytes' y) :
    Reads (m >>= f) (bytes ++ bytes') y := by
  intro rest
  rw [StateT.run_bind, List.append_assoc, hm]
  exact hf rest

/-- What is read is used in a value. -/
theorem bind_pure (hm : Reads m bytes x) (f : α → γ) : Reads (m >>= fun x => pure (f x)) bytes (f x) := by
  intro rest
  rw [StateT.run_bind, hm]
  rfl

/-- A value that takes no input. -/
theorem lift {o : Option γ} (h : o = some y) : Reads (liftM o : Reader β γ) [] y := by
  rw [h]
  exact fun _ => rfl

/-- What is read is checked or decoded further. -/
theorem bind_lift {f : α → Option γ} (hm : Reads m bytes x) (hf : f x = some y) :
    Reads (m >>= fun x => liftM (f x)) bytes y := by
  have h := hm.bind (f := fun x => liftM (f x)) (lift hf)
  rwa [List.append_nil] at h

theorem run_eq (hm : Reads m bytes x) : m.run bytes = some (x, []) := by
  have h := hm []
  rwa [List.append_nil] at h

end Reads

/-! ## Fields of known width -/

/-- A 64-bit number, least significant byte first. -/
theorem fixedWidth_u64 : FixedWidth (fun x : UInt64 => leBytes 8 x.toNat) 8 where
  length x := length_leBytes 8 x.toNat
  injective x y h := by
    have hx := x.toNat_lt
    have hy := y.toNat_lt
    have hval := congrArg ofLeBytes h
    dsimp only at hval
    rw [ofLeBytes_leBytes_of_lt (by omega), ofLeBytes_leBytes_of_lt (by omega)] at hval
    exact UInt64.toNat_inj.mp hval

/-- An array of bytes. -/
theorem fixedWidth_vector (n : Nat) : FixedWidth (fun v : Vector UInt8 n => v.toList) n where
  length v := by simp
  injective _ _ h := Vector.toList_inj.mp h

/-! ## A field behind its length -/

theorem beBytes_ofBeBytes (bs : List UInt8) : beBytes bs.length (ofBeBytes bs) = bs := by
  have h := leBytes_ofLeBytes bs.reverse
  rw [List.length_reverse] at h
  rw [beBytes, ofBeBytes, h, List.reverse_reverse]

theorem ofBeBytes_lt (bs : List UInt8) : ofBeBytes bs < 256 ^ bs.length := by
  have h := ofLeBytes_lt bs.reverse
  rwa [List.length_reverse] at h

/-- The bytes of a field, behind their number in `k` bytes. -/
def lengthField (k : Nat) (field : List UInt8) : List UInt8 := beBytes k field.length ++ field

@[simp] theorem length_lengthField (k : Nat) (field : List UInt8) :
    (lengthField k field).length = k + field.length := by
  rw [lengthField, List.length_append, length_beBytes]

/-- `struct.unpack_from` of a number of `k` bytes. -/
def unpackInt (k : Nat) : Reader UInt8 Nat := fun data =>
  if data.length < k then none else some (ofBeBytes (data.take k), data.drop k)

/-- `data[offset:offset + n]`, which may be shorter. -/
def slice (n : Nat) : Reader UInt8 (List UInt8) := fun data => some (data.take n, data.drop n)

theorem reads_unpackInt {k n : Nat} (h : n < 256 ^ k) : Reads (unpackInt k) (beBytes k n) n := by
  intro rest
  have hlen : (beBytes k n).length = k := length_beBytes k n
  show (if (beBytes k n ++ rest).length < k then none
    else some (ofBeBytes ((beBytes k n ++ rest).take k), (beBytes k n ++ rest).drop k)) = some (n, rest)
  rw [if_neg (by rw [List.length_append]; omega), List.take_left' hlen, List.drop_left' hlen, ofBeBytes_beBytes_of_lt h]

theorem reads_slice {n : Nat} {bytes : List UInt8} (h : bytes.length = n) : Reads (slice n) bytes bytes := by
  intro rest
  show some ((bytes ++ rest).take n, (bytes ++ rest).drop n) = _
  rw [List.take_left' h, List.drop_left' h]

theorem reads_lengthField {k : Nat} {field : List UInt8} (h : field.length < 256 ^ k) :
    Reads (unpackInt k >>= slice) (lengthField k field) field :=
  (reads_unpackInt h).bind (reads_slice rfl)

/-- **The field at the front.** The input starts with a field if it has the bytes of the length and as many more as
these say. -/
theorem lengthField_front_iff {k : Nat} {input field rest : List UInt8} :
    field.length < 256 ^ k ∧ input = lengthField k field ++ rest ↔
      k ≤ input.length ∧ ofBeBytes (input.take k) = field.length ∧ k + field.length ≤ input.length ∧
        (input.drop k).take field.length = field ∧ input.drop (k + field.length) = rest := by
  constructor
  · rintro ⟨hlt, rfl⟩
    have hk : (beBytes k field.length).length = k := length_beBytes _ _
    have htake : (lengthField k field ++ rest).take k = beBytes k field.length := by
      rw [lengthField, List.append_assoc, List.take_left' hk]
    have hdrop : (lengthField k field ++ rest).drop k = field ++ rest := by
      rw [lengthField, List.append_assoc, List.drop_left' hk]
    refine ⟨?_, ?_, ?_, ?_, ?_⟩
    · rw [List.length_append, length_lengthField]
      omega
    · rw [htake, ofBeBytes_beBytes_of_lt hlt]
    · rw [List.length_append, length_lengthField]
      omega
    · rw [hdrop, List.take_left]
    · rw [← List.drop_drop, hdrop, List.drop_left]
  · rintro ⟨hk, hlen, hfits, hfield, hrest⟩
    have hwidth : (input.take k).length = k := by
      rw [List.length_take]
      omega
    have hlt := ofBeBytes_lt (input.take k)
    rw [hlen, hwidth] at hlt
    have hhead : beBytes k field.length = input.take k := by
      rw [← hlen]
      have h := beBytes_ofBeBytes (input.take k)
      rwa [hwidth] at h
    refine ⟨hlt, ?_⟩
    calc input = input.take k ++ ((input.drop k).take field.length ++ (input.drop k).drop field.length) := by
          rw [List.take_append_drop, List.take_append_drop]
      _ = lengthField k field ++ rest := by
          rw [hfield, List.drop_drop, hrest, ← hhead, lengthField, List.append_assoc]

end WarmLogic.Lib
