import Hyperion.Lib.Text

/-!
# Decoding bytes that may not be UTF-8

`fromUtf8Lossy` decodes what is valid and puts one replacement character for each broken
sequence.  A sequence that is cut short is replaced as a whole, as far as it could still have
been the front of a character.

Valid bytes at the front decode to their text, whatever is behind them
(`fromUtf8Lossy_append`), so that the decoder is the identity on valid UTF-8 and drops nothing.
-/

namespace Hyperion.Lib

/-- The second byte may follow the first in a sequence of three or four bytes. -/
def secondFits (first second : UInt8) : Bool :=
  if first = 0xe0 then 0xa0 ≤ second && second ≤ 0xbf
  else if first = 0xed then 0x80 ≤ second && second ≤ 0x9f
  else if 0xe1 ≤ first && first ≤ 0xef then 0x80 ≤ second && second ≤ 0xbf
  else if first = 0xf0 then 0x90 ≤ second && second ≤ 0xbf
  else if 0xf1 ≤ first && first ≤ 0xf3 then 0x80 ≤ second && second ≤ 0xbf
  else if first = 0xf4 then 0x80 ≤ second && second ≤ 0x8f
  else false

/-- How many bytes behind the first byte belong to the broken sequence it starts. -/
def brokenTail (first : UInt8) : List UInt8 → ℕ
  | [] => 0
  | second :: rest =>
    if secondFits first second then
      match rest with
      | [] => 1
      | third :: _ => if 0xf0 ≤ first && third &&& 192 = 128 then 2 else 1
    else 0

/-- The characters that bytes decode to, after the first `skip` of them. -/
def lossyChars : ℕ → List UInt8 → List Char
  | _, [] => []
  | skip + 1, _ :: rest => lossyChars skip rest
  | 0, first :: rest =>
    match ByteArray.utf8DecodeChar? ⟨(first :: rest).toArray⟩ 0 with
    | some c => c :: lossyChars (c.utf8Size - 1) rest
    | none => Char.ofNat 0xfffd :: lossyChars (brokenTail first rest) rest

/-- `String::from_utf8_lossy`. -/
def fromUtf8Lossy (bytes : List UInt8) : String := String.ofList (lossyChars 0 bytes)

theorem utf8_eq (s : String) : utf8 s = s.toList.flatMap String.utf8EncodeChar := by
  rw [utf8, ← String.utf8Encode_toList, List.utf8Encode, List.data_toByteArray]

theorem lossyChars_drop (skip : ℕ) (bytes : List UInt8) :
    lossyChars skip bytes = lossyChars 0 (bytes.drop skip) := by
  induction bytes generalizing skip with
  | nil => simp [lossyChars]
  | cons first rest ih =>
    cases skip with
    | zero => rfl
    | succ skip => exact ih skip

theorem lossyChars_encode (c : Char) (rest : List UInt8) :
    lossyChars 0 (String.utf8EncodeChar c ++ rest) = c :: lossyChars 0 rest := by
  have hdecode :
      ByteArray.utf8DecodeChar? ⟨(String.utf8EncodeChar c ++ rest).toArray⟩ 0 = some c := by
    have hfront : (⟨(String.utf8EncodeChar c ++ rest).toArray⟩ : ByteArray) =
        [c].utf8Encode ++ ⟨rest.toArray⟩ := by
      apply ByteArray.ext
      simp [List.utf8Encode_singleton]
    rw [hfront]
    exact ByteArray.utf8DecodeChar?_append_eq_some List.utf8DecodeChar?_utf8Encode_singleton _
  have hlength := String.length_utf8EncodeChar c
  cases hbytes : String.utf8EncodeChar c with
  | nil =>
    rw [hbytes, List.length_nil] at hlength
    exact absurd hlength c.utf8Size_pos.ne
  | cons first tail =>
    rw [hbytes, List.cons_append] at hdecode
    rw [hbytes, List.length_cons] at hlength
    rw [List.cons_append, lossyChars, hdecode]
    show c :: lossyChars (c.utf8Size - 1) (tail ++ rest) = c :: lossyChars 0 rest
    rw [lossyChars_drop, ← hlength, Nat.add_sub_cancel, List.drop_left]

theorem lossyChars_flatMap (chars : List Char) (rest : List UInt8) :
    lossyChars 0 (chars.flatMap String.utf8EncodeChar ++ rest) = chars ++ lossyChars 0 rest := by
  induction chars with
  | nil => rfl
  | cons c chars ih =>
    rw [List.flatMap_cons, List.append_assoc, lossyChars_encode, ih, List.cons_append]

/-- Valid bytes at the front decode to their text. -/
theorem fromUtf8Lossy_append (s : String) (rest : List UInt8) :
    fromUtf8Lossy (utf8 s ++ rest) = s ++ fromUtf8Lossy rest := by
  rw [fromUtf8Lossy, utf8_eq, lossyChars_flatMap, fromUtf8Lossy, String.ofList_append,
    String.ofList_toList]

theorem fromUtf8Lossy_nil : fromUtf8Lossy [] = "" := rfl

theorem fromUtf8Lossy_utf8 (s : String) : fromUtf8Lossy (utf8 s) = s := by
  have happend := fromUtf8Lossy_append s []
  rwa [List.append_nil, fromUtf8Lossy_nil, String.append_empty] at happend

/-- No byte decodes to nothing. -/
theorem fromUtf8Lossy_eq_empty {bytes : List UInt8} : fromUtf8Lossy bytes = "" ↔ bytes = [] := by
  constructor
  · intro hempty
    cases bytes with
    | nil => rfl
    | cons first rest =>
      have hchars := congrArg String.toList hempty
      rw [fromUtf8Lossy, String.toList_ofList, lossyChars] at hchars
      split at hchars
      · cases hchars
      · cases hchars
  · rintro rfl
    rfl

/-- A truncated sequence of three bytes is one replacement character. -/
example : fromUtf8Lossy [0xe2, 0x82, 0x41] = String.ofList [Char.ofNat 0xfffd, 'A'] := by
  decide +kernel

end Hyperion.Lib
