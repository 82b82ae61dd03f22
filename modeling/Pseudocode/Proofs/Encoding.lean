import Pseudocode.Text.Utf8

/-!
Texts and their bytes. Decoding undoes encoding and accepts nothing else. Positions in a text are
sometimes counted in bytes; a text can be cut at such a position only if it lies within the text and
between two of its characters.
-/

namespace Pseudocode.Text

/-- The bytes of some text. -/
def IsUtf8 (bytes : Bytes) : Prop := ∃ text, bytes = toUtf8 text

theorem ofUtf8?_eq_some {bytes : Bytes} {text : Text} :
    ofUtf8? bytes = some text ↔ bytes = toUtf8 text := by
  constructor
  · intro decoded
    obtain ⟨chars, found, rfl⟩ := Option.map_eq_some_iff.1 decoded
    have some : bytes.toByteArray.utf8Decode?.isSome = true := by rw [found]; rfl
    have encoded := @ByteArray.utf8Encode_get_utf8Decode? bytes.toByteArray some
    simp only [found, Option.get_some, List.utf8Encode] at encoded
    exact (List.toByteArray_inj.1 encoded).symm
  · rintro rfl
    exact ofUtf8?_toUtf8 text

theorem ofUtf8?_eq_none {bytes : Bytes} : ofUtf8? bytes = none ↔ ¬ IsUtf8 bytes := by
  rw [Option.eq_none_iff_forall_ne_some]
  simp only [ne_eq, ofUtf8?_eq_some, IsUtf8, not_exists]

def byteLength (text : Text) : Nat := (toUtf8 text).length

@[simp]
theorem byteLength_nil : byteLength [] = 0 := rfl

@[simp]
theorem byteLength_cons (c : Char) (rest : Text) :
    byteLength (c :: rest) = c.utf8Size + byteLength rest := by
  rw [byteLength, toUtf8_cons, List.length_append, String.length_utf8EncodeChar]
  rfl

@[simp]
theorem byteLength_append (front back : Text) :
    byteLength (front ++ back) = byteLength front + byteLength back := by
  rw [byteLength, toUtf8_append, List.length_append]
  rfl

/-- Cuts a text at an offset in bytes. There is no cut beyond the end, nor inside a character. -/
def cutAtByte? : (offset : Nat) → Text → Option (Text × Text)
  | 0, text => some ([], text)
  | _ + 1, [] => none
  | offset + 1, c :: rest =>
      if c.utf8Size ≤ offset + 1 then
        (cutAtByte? (offset + 1 - c.utf8Size) rest).map fun sides => (c :: sides.1, sides.2)
      else none

theorem byteLength_eq_zero {text : Text} : byteLength text = 0 ↔ text = [] := by
  cases text with
  | nil => simp
  | cons c rest =>
      have size := c.utf8Size_pos
      simp only [byteLength_cons, reduceCtorEq, iff_false]
      omega

theorem cutAtByte?_eq_some {offset : Nat} {text front back : Text} :
    cutAtByte? offset text = some (front, back) ↔
      text = front ++ back ∧ byteLength front = offset := by
  fun_induction cutAtByte? offset text generalizing front with
  | case1 text =>
      rw [byteLength_eq_zero]
      constructor
      · rintro ⟨⟩
        exact ⟨rfl, rfl⟩
      · rintro ⟨rfl, rfl⟩
        rfl
  | case2 offset =>
      constructor
      · intro found
        contradiction
      · rintro ⟨nothing, size⟩
        rw [(List.append_eq_nil_iff.1 nothing.symm).1] at size
        contradiction
  | case3 offset c rest fits ih =>
      rw [Option.map_eq_some_iff]
      constructor
      · rintro ⟨sides, found, ⟨⟩⟩
        obtain ⟨whole, size⟩ := ih.1 found
        refine ⟨by rw [whole]; rfl, ?_⟩
        rw [byteLength_cons]
        omega
      · rintro ⟨whole, size⟩
        cases front with
        | nil => contradiction
        | cons d others =>
            cases whole
            rw [byteLength_cons] at size
            exact ⟨(others, back), ih.2 ⟨rfl, by omega⟩, rfl⟩
  | case4 offset c rest inside =>
      constructor
      · intro found
        contradiction
      · rintro ⟨whole, size⟩
        cases front with
        | nil => contradiction
        | cons d others =>
            cases whole
            rw [byteLength_cons] at size
            omega

end Pseudocode.Text
