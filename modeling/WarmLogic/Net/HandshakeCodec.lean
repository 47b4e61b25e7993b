/-
# WarmLogic.Net.HandshakeCodec — the handshake messages of `net/noise.rs` as bytes, and back.

A message is a byte for its kind and one or two fields behind their lengths in two bytes. `from_bytes` indexes and slices
its input at computed offsets; reading past the end would be a panic, which is `none` here. It never panics
(`fromBytes_ne_none`), and what it accepts is described by one equivalence, `fromBytes_ok_iff`: the input starts with the
bytes of the message. What comes after them is not looked at.

The arms of `from_bytes` check the length before each read, so no read is past the end; that is `oneField_eq` and
`twoFields_eq`, which also turn the offsets into what is left of the input. From there the codec is a matter of fields
behind their lengths, as in other formats of this development.
-/
import WarmLogic.Federation.ClockEncoding
import WarmLogic.Lib.FieldCodec
import WarmLogic.Net.NoiseHandshake

namespace WarmLogic.Net.Noise

open WarmLogic.Lib
open WarmLogic.Federation (sliceOf sliceOf_eq)

/-- `u16::from_be_bytes([bytes[i], bytes[i + 1]])`; `none` is the panic of an index past the end. -/
def u16At (bytes : List UInt8) (i : Nat) : Option Nat :=
  bytes[i]?.bind fun high => bytes[i + 1]?.map fun low => ofBeBytes [high, low]

namespace HandshakeMessage

/-- `to_bytes`; a field that is too long has its length cut to two bytes. -/
def toBytes : HandshakeMessage → List UInt8
  | .init ephemeralEk => 0x01 :: (beBytes 2 ephemeralEk.length ++ ephemeralEk)
  | .response ephemeralEk ciphertext =>
      0x02 :: (beBytes 2 ephemeralEk.length ++ ephemeralEk ++ beBytes 2 ciphertext.length ++ ciphertext)
  | .final ciphertext => 0x03 :: (beBytes 2 ciphertext.length ++ ciphertext)

/-- The arms of `from_bytes` for `Init` and `Final`, which differ in the texts of the errors and in the message. -/
def oneField (tooShort truncated : String) (message : List UInt8 → HandshakeMessage) (bytes : List UInt8) :
    Option (Except NoiseError HandshakeMessage) :=
  if bytes.length < 3 then some (.error (.invalidHandshakeMessage tooShort))
  else (u16At bytes 1).bind fun len =>
    if bytes.length < 3 + len then some (.error (.invalidHandshakeMessage truncated))
    else (sliceOf bytes 3 (3 + len)).map fun field => .ok (message field)

/-- The arm for `Response`. -/
def twoFields (bytes : List UInt8) : Option (Except NoiseError HandshakeMessage) :=
  if bytes.length < 3 then some (.error (.invalidHandshakeMessage "Response too short"))
  else (u16At bytes 1).bind fun ekLen =>
    if bytes.length < 5 + ekLen then some (.error (.invalidHandshakeMessage "Response key truncated"))
    else (u16At bytes (3 + ekLen)).bind fun ctLen =>
      if bytes.length < 5 + ekLen + ctLen then some (.error (.invalidHandshakeMessage "Response ciphertext truncated"))
      else (sliceOf bytes 3 (3 + ekLen)).bind fun ephemeralEk =>
        (sliceOf bytes (5 + ekLen) (5 + ekLen + ctLen)).map fun ciphertext => .ok (.response ephemeralEk ciphertext)

/-- `from_bytes`; `none` would be a panic. -/
def fromBytes (bytes : List UInt8) : Option (Except NoiseError HandshakeMessage) :=
  if bytes.isEmpty then some (.error (.invalidHandshakeMessage "Empty message"))
  else bytes[0]?.bind fun t =>
    if t = 0x01 then oneField "Init too short" "Init key truncated" .init bytes
    else if t = 0x02 then twoFields bytes
    else if t = 0x03 then oneField "Final too short" "Final ciphertext truncated" .final bytes
    else some (.error (.invalidHandshakeMessage ("Unknown message type: " ++ toString t.toNat)))

/-- The lengths of the fields fit into the two bytes they are written in. -/
def FitsU16 : HandshakeMessage → Prop
  | .init ephemeralEk => ephemeralEk.length ≤ 65535
  | .response ephemeralEk ciphertext => ephemeralEk.length ≤ 65535 ∧ ciphertext.length ≤ 65535
  | .final ciphertext => ciphertext.length ≤ 65535

instance : DecidablePred FitsU16
  | .init _ => inferInstanceAs (Decidable (_ ≤ _))
  | .response _ _ => inferInstanceAs (Decidable (_ ∧ _))
  | .final _ => inferInstanceAs (Decidable (_ ≤ _))

/-- The message that a call of `from_bytes` returns. -/
def decoded (bytes : List UInt8) : Option HandshakeMessage := (fromBytes bytes).bind Except.toOption

/-! ## No read past the end -/

/-- A length within the input. -/
theorem u16At_eq {bytes : List UInt8} {i : Nat} (h : i + 2 ≤ bytes.length) :
    u16At bytes i = some (ofBeBytes ((bytes.drop i).take 2)) := by
  unfold u16At
  rw [List.getElem?_eq_getElem (by omega), List.getElem?_eq_getElem (by omega), Option.bind_some, Option.map_some,
    List.drop_eq_getElem_cons (by omega), List.drop_eq_getElem_cons (by omega)]
  rfl

section OneField

variable (tooShort truncated : String) (message : List UInt8 → HandshakeMessage)

/-- The arm, with its reads at the offsets in bounds. -/
theorem oneField_eq (bytes : List UInt8) :
    oneField tooShort truncated message bytes = some
      (if bytes.length < 3 then .error (.invalidHandshakeMessage tooShort)
      else if bytes.length < 3 + ofBeBytes ((bytes.drop 1).take 2) then .error (.invalidHandshakeMessage truncated)
      else .ok (message ((bytes.drop 3).take (ofBeBytes ((bytes.drop 1).take 2))))) := by
  unfold oneField
  by_cases hshort : bytes.length < 3
  · rw [if_pos hshort, if_pos hshort]
  · rw [if_neg hshort, if_neg hshort, u16At_eq (by omega), Option.bind_some]
    by_cases hfield : bytes.length < 3 + ofBeBytes ((bytes.drop 1).take 2)
    · rw [if_pos hfield, if_pos hfield]
    · rw [if_neg hfield, if_neg hfield, sliceOf_eq (by omega), Option.map_some]

end OneField

/-- The arm for two fields. -/
theorem twoFields_eq (bytes : List UInt8) :
    twoFields bytes = some
      (if bytes.length < 3 then .error (.invalidHandshakeMessage "Response too short")
      else
        let ekLen := ofBeBytes ((bytes.drop 1).take 2)
        if bytes.length < 5 + ekLen then .error (.invalidHandshakeMessage "Response key truncated")
        else
          let ctLen := ofBeBytes ((bytes.drop (3 + ekLen)).take 2)
          if bytes.length < 5 + ekLen + ctLen then .error (.invalidHandshakeMessage "Response ciphertext truncated")
          else .ok (.response ((bytes.drop 3).take ekLen) ((bytes.drop (5 + ekLen)).take ctLen))) := by
  unfold twoFields
  by_cases hshort : bytes.length < 3
  · rw [if_pos hshort, if_pos hshort]
  · rw [if_neg hshort, if_neg hshort, u16At_eq (by omega), Option.bind_some]
    dsimp only
    generalize ofBeBytes ((bytes.drop 1).take 2) = ekLen
    by_cases hkey : bytes.length < 5 + ekLen
    · rw [if_pos hkey, if_pos hkey]
    · rw [if_neg hkey, if_neg hkey, u16At_eq (by omega), Option.bind_some]
      generalize ofBeBytes ((bytes.drop (3 + ekLen)).take 2) = ctLen
      by_cases hciphertext : bytes.length < 5 + ekLen + ctLen
      · rw [if_pos hciphertext, if_pos hciphertext]
      · rw [if_neg hciphertext, if_neg hciphertext, sliceOf_eq (by omega), Option.bind_some, sliceOf_eq (by omega),
          Option.map_some]

/-- **`from_bytes` never reads outside its input.** -/
theorem fromBytes_ne_none (bytes : List UInt8) : fromBytes bytes ≠ none := by
  unfold fromBytes
  cases bytes with
  | nil => exact Option.some_ne_none _
  | cons t l =>
      show ite (t = 0x01) _ _ ≠ none
      split_ifs
      · rw [oneField_eq]
        exact Option.some_ne_none _
      · rw [twoFields_eq]
        exact Option.some_ne_none _
      · rw [oneField_eq]
        exact Option.some_ne_none _
      · exact Option.some_ne_none _

/-! ## What is accepted -/

/-- The field that the arm reads stands at the front of what follows the kind. -/
theorem oneField_ok_iff {tooShort truncated : String} {message : List UInt8 → HandshakeMessage} {t : UInt8}
    {l : List UInt8} {m : HandshakeMessage} :
    oneField tooShort truncated message (t :: l) = some (.ok m) ↔
      ∃ field rest, m = message field ∧ field.length < 256 ^ 2 ∧ l = lengthField 2 field ++ rest := by
  rw [oneField_eq, List.length_cons, List.drop_succ_cons, List.drop_zero, List.drop_succ_cons]
  constructor
  · intro h
    split_ifs at h with hshort hfield
    · cases h
    · cases h
    · cases h
      have hlen : ((l.drop 2).take (ofBeBytes (l.take 2))).length = ofBeBytes (l.take 2) := by
        rw [List.length_take, List.length_drop]
        omega
      refine ⟨_, l.drop (2 + ofBeBytes (l.take 2)), rfl, lengthField_front_iff.mpr ?_⟩
      rw [hlen]
      exact ⟨by omega, rfl, by omega, rfl, rfl⟩
  · rintro ⟨field, rest, rfl, hfield⟩
    obtain ⟨hk, hlen, hfits, hread, -⟩ := lengthField_front_iff.mp hfield
    rw [hlen, if_neg (by omega), if_neg (by omega), hread]

/-- The two fields stand one after the other behind the kind. -/
theorem twoFields_ok_iff {t : UInt8} {l : List UInt8} {m : HandshakeMessage} :
    twoFields (t :: l) = some (.ok m) ↔
      ∃ ek ct rest, m = .response ek ct ∧ ek.length < 256 ^ 2 ∧ ct.length < 256 ^ 2 ∧
        l = lengthField 2 ek ++ (lengthField 2 ct ++ rest) := by
  rw [twoFields_eq, List.length_cons]
  simp only [Nat.add_comm 3, Nat.add_comm 5, List.drop_succ_cons, List.drop_zero]
  constructor
  · intro h
    split_ifs at h with hshort hkey hciphertext
    · cases h
    · cases h
    · cases h
    · cases h
      generalize hek : ofBeBytes (l.take 2) = ekLen at *
      generalize hct : ofBeBytes ((l.drop (ekLen + 2)).take 2) = ctLen at *
      have hekLen : ((l.drop 2).take ekLen).length = ekLen := by
        rw [List.length_take, List.length_drop]
        omega
      have hctLen : ((l.drop (ekLen + 4)).take ctLen).length = ctLen := by
        rw [List.length_take, List.length_drop]
        omega
      -- the second field is at the front of what the first one leaves
      have hsecond : ((l.drop (ekLen + 4)).take ctLen).length < 256 ^ 2 ∧
          l.drop (2 + ekLen) = lengthField 2 ((l.drop (ekLen + 4)).take ctLen) ++ l.drop (ekLen + 4 + ctLen) := by
        apply lengthField_front_iff.mpr
        rw [hctLen, List.length_drop, List.drop_drop, List.drop_drop, Nat.add_comm 2 ekLen]
        exact ⟨by omega, hct, by omega, rfl, by rw [show ekLen + 2 + (2 + ctLen) = ekLen + 4 + ctLen by omega]⟩
      have hfirst : ((l.drop 2).take ekLen).length < 256 ^ 2 ∧
          l = lengthField 2 ((l.drop 2).take ekLen) ++ l.drop (2 + ekLen) := by
        apply lengthField_front_iff.mpr
        rw [hekLen]
        exact ⟨by omega, hek, by omega, rfl, rfl⟩
      refine ⟨_, _, l.drop (ekLen + 4 + ctLen), rfl, hfirst.1, hsecond.1, ?_⟩
      rw [← hsecond.2]
      exact hfirst.2
  · rintro ⟨ek, ct, rest, rfl, hek, hct, hl⟩
    obtain ⟨hk, hlen, hfits, hread, hdrop⟩ := lengthField_front_iff.mp ⟨hek, hl⟩
    obtain ⟨hk', hlen', hfits', hread', -⟩ := lengthField_front_iff.mp (⟨hct, hdrop⟩ : _ ∧ _ = _ ++ rest)
    rw [List.length_drop] at hk' hfits'
    rw [List.drop_drop] at hread'
    rw [Nat.add_comm 2 ek.length] at hlen' hread'
    simp only [hlen, hlen']
    rw [if_neg (by omega), if_neg (by omega), if_neg (by omega), hread, hread']

/-- A length that fits. -/
theorem length_lt_iff (field : List UInt8) : field.length < 256 ^ 2 ↔ field.length ≤ 65535 := Nat.lt_succ_iff

/-- What begins with the kind of `Init` is the front of an `Init`. -/
theorem init_front_iff {l : List UInt8} {m : HandshakeMessage} :
    (∃ field rest, m = .init field ∧ field.length < 256 ^ 2 ∧ l = lengthField 2 field ++ rest) ↔
      FitsU16 m ∧ ∃ rest, (0x01 : UInt8) :: l = toBytes m ++ rest := by
  constructor
  · rintro ⟨field, rest, rfl, hlt, rfl⟩
    exact ⟨(length_lt_iff field).mp hlt, rest, rfl⟩
  · rintro ⟨hfits, rest, hbytes⟩
    cases m with
    | init ephemeralEk =>
        cases hbytes
        exact ⟨ephemeralEk, rest, rfl, (length_lt_iff _).mpr hfits, rfl⟩
    | response ephemeralEk ciphertext => cases hbytes
    | final ciphertext => cases hbytes

/-- What begins with the kind of `Response` is the front of a `Response`. -/
theorem response_front_iff {l : List UInt8} {m : HandshakeMessage} :
    (∃ ek ct rest, m = .response ek ct ∧ ek.length < 256 ^ 2 ∧ ct.length < 256 ^ 2 ∧
        l = lengthField 2 ek ++ (lengthField 2 ct ++ rest)) ↔
      FitsU16 m ∧ ∃ rest, (0x02 : UInt8) :: l = toBytes m ++ rest := by
  constructor
  · rintro ⟨ek, ct, rest, rfl, hek, hct, rfl⟩
    refine ⟨⟨(length_lt_iff ek).mp hek, (length_lt_iff ct).mp hct⟩, rest, ?_⟩
    simp only [toBytes, lengthField, List.cons_append, List.append_assoc]
  · rintro ⟨hfits, rest, hbytes⟩
    cases m with
    | init ephemeralEk => cases hbytes
    | response ephemeralEk ciphertext =>
        refine ⟨ephemeralEk, ciphertext, rest, rfl, (length_lt_iff _).mpr hfits.1, (length_lt_iff _).mpr hfits.2, ?_⟩
        simpa only [toBytes, lengthField, List.cons_append, List.append_assoc, List.cons.injEq, true_and] using hbytes
    | final ciphertext => cases hbytes

/-- What begins with the kind of `Final` is the front of a `Final`. -/
theorem final_front_iff {l : List UInt8} {m : HandshakeMessage} :
    (∃ field rest, m = .final field ∧ field.length < 256 ^ 2 ∧ l = lengthField 2 field ++ rest) ↔
      FitsU16 m ∧ ∃ rest, (0x03 : UInt8) :: l = toBytes m ++ rest := by
  constructor
  · rintro ⟨field, rest, rfl, hlt, rfl⟩
    exact ⟨(length_lt_iff field).mp hlt, rest, rfl⟩
  · rintro ⟨hfits, rest, hbytes⟩
    cases m with
    | init ephemeralEk => cases hbytes
    | response ephemeralEk ciphertext => cases hbytes
    | final ciphertext =>
        cases hbytes
        exact ⟨ciphertext, rest, rfl, (length_lt_iff _).mpr hfits, rfl⟩

/-- **What `from_bytes` accepts**: the inputs that start with the bytes of the message it returns. -/
theorem fromBytes_ok_iff {bytes : List UInt8} {m : HandshakeMessage} :
    fromBytes bytes = some (.ok m) ↔ FitsU16 m ∧ ∃ rest, bytes = toBytes m ++ rest := by
  cases bytes with
  | nil =>
      constructor
      · intro h
        cases h
      · rintro ⟨-, rest, hbytes⟩
        cases m <;> cases hbytes
  | cons t l =>
      have hread : fromBytes (t :: l) =
          if t = 0x01 then oneField "Init too short" "Init key truncated" .init (t :: l)
          else if t = 0x02 then twoFields (t :: l)
          else if t = 0x03 then oneField "Final too short" "Final ciphertext truncated" .final (t :: l)
          else some (.error (.invalidHandshakeMessage ("Unknown message type: " ++ toString t.toNat))) := rfl
      rw [hread]
      by_cases h1 : t = 0x01
      · rw [if_pos h1, oneField_ok_iff, h1]
        exact init_front_iff
      · by_cases h2 : t = 0x02
        · rw [if_neg h1, if_pos h2, twoFields_ok_iff, h2]
          exact response_front_iff
        · by_cases h3 : t = 0x03
          · rw [if_neg h1, if_neg h2, if_pos h3, oneField_ok_iff, h3]
            exact final_front_iff
          · rw [if_neg h1, if_neg h2, if_neg h3]
            constructor
            · intro h
              cases h
            · rintro ⟨-, rest, hbytes⟩
              cases m with
              | init ephemeralEk => exact absurd (List.cons.inj hbytes).1 h1
              | response ephemeralEk ciphertext => exact absurd (List.cons.inj hbytes).1 h2
              | final ciphertext => exact absurd (List.cons.inj hbytes).1 h3

/-- A message is returned exactly if it stands at the front. -/
theorem decoded_eq_some_iff {bytes : List UInt8} {m : HandshakeMessage} :
    decoded bytes = some m ↔ fromBytes bytes = some (.ok m) := by
  unfold decoded
  cases fromBytes bytes with
  | none => exact iff_of_false (fun h => by cases h) (fun h => by cases h)
  | some result =>
      cases result with
      | error e => exact iff_of_false (fun h => by cases h) (fun h => by cases h)
      | ok m' =>
          show some m' = some m ↔ _
          rw [Option.some_inj, Option.some_inj, Except.ok.injEq]

/-- So the decoder reads from the front. -/
theorem readsFront_decoded : ReadsFront FitsU16 toBytes decoded :=
  fun _ _ => decoded_eq_some_iff.trans fromBytes_ok_iff

/-- A call that returns no message returns an error. -/
theorem exists_error {bytes : List UInt8} (h : decoded bytes = none) : ∃ e, fromBytes bytes = some (.error e) := by
  obtain ⟨result, hresult⟩ := Option.ne_none_iff_exists'.mp (fromBytes_ne_none bytes)
  cases result with
  | error e => exact ⟨e, hresult⟩
  | ok m =>
      rw [decoded_eq_some_iff.mpr hresult] at h
      cases h

/-! ## The codec -/

/-- **Handshake messages survive the wire.** A message whose fields fit their lengths is read back as it was, every
cut-off copy of it is refused with an error, and on no input at all does the reader leave its bytes. Each field is
read behind its length and a check that it is there. -/
theorem handshake_message_codec (m : HandshakeMessage) (h : FitsU16 m) :
    fromBytes m.toBytes = some (.ok m) ∧
      (∀ bytes, bytes <+: m.toBytes → bytes ≠ m.toBytes → ∃ e, fromBytes bytes = some (.error e)) ∧
      ∀ bytes, fromBytes bytes ≠ none := by
  refine ⟨decoded_eq_some_iff.mp (readsFront_decoded.round_trip h), ?_, fromBytes_ne_none⟩
  intro bytes hcut hne
  exact exists_error (readsFront_decoded.cut_off h hcut hne)

/-- A `Response` with an empty ciphertext. -/
theorem handshake_message_codec_response :
    FitsU16 (.response [1, 2] []) ∧
      fromBytes (toBytes (.response [1, 2] [])) = some (.ok (.response [1, 2] [])) ∧
      (∀ bytes, bytes <+: toBytes (.response [1, 2] []) → bytes ≠ toBytes (.response [1, 2] []) →
        ∃ e, fromBytes bytes = some (.error e)) ∧
      ∀ bytes, fromBytes bytes ≠ none :=
  ⟨by decide, handshake_message_codec (.response [1, 2] []) (by decide)⟩

end HandshakeMessage

end WarmLogic.Net.Noise
