import Mathlib.Data.List.Basic

/-! UTF-8 over lists of bytes: the strict reader, and the reader that replaces each maximal
invalid sequence by U+FFFD. -/

namespace Utf8

def bytes (s : String) : List UInt8 := s.toList.flatMap String.utf8EncodeChar

def Valid (bs : List UInt8) : Prop := ∃ s, bs = bytes s

/-- The strict reader. -/
def read? (bs : List UInt8) : Option String := String.fromUTF8? bs.toByteArray

def isContinuation (b : UInt8) : Bool := b &&& 192 == 128

/-- May `b` stand second after the lead byte `lead` of a sequence of three or four bytes? -/
def secondOk (lead b : UInt8) : Bool :=
  (lead == 0xE0 && 0xA0 ≤ b && b ≤ 0xBF) || (0xE1 ≤ lead && lead ≤ 0xEC && 0x80 ≤ b && b ≤ 0xBF) ||
    (lead == 0xED && 0x80 ≤ b && b ≤ 0x9F) || (0xEE ≤ lead && lead ≤ 0xEF && 0x80 ≤ b && b ≤ 0xBF) ||
    (lead == 0xF0 && 0x90 ≤ b && b ≤ 0xBF) || (0xF1 ≤ lead && lead ≤ 0xF3 && 0x80 ≤ b && b ≤ 0xBF) ||
    (lead == 0xF4 && 0x80 ≤ b && b ≤ 0x8F)

/-- How many bytes one replacement character stands for, when no character starts here. -/
def invalidLength : List UInt8 → ℕ
  | b₀ :: b₁ :: rest =>
    if secondOk b₀ b₁ then
      match rest with
      | b₂ :: _ => if 0xF0 ≤ b₀ && isContinuation b₂ then 3 else 2
      | [] => 2
    else 1
  | _ => 1

theorem invalidLength_pos (bs : List UInt8) : 0 < invalidLength bs := by
  unfold invalidLength
  repeat' split
  all_goals decide

def lossyChars (bs : List UInt8) : List Char :=
  if bs = [] then []
  else
    match bs.toByteArray.utf8DecodeChar? 0 with
    | some c => c :: lossyChars (bs.drop c.utf8Size)
    | none => '\uFFFD' :: lossyChars (bs.drop (invalidLength bs))
termination_by bs.length
decreasing_by
  all_goals
    have hlen := List.length_pos_of_ne_nil ‹bs ≠ []›
    simp only [List.length_drop]
  · have := c.utf8Size_pos
    omega
  · have := invalidLength_pos bs
    omega

/-- `String::from_utf8_lossy`. -/
def fromUtf8Lossy (bs : List UInt8) : String := String.ofList (lossyChars bs)

theorem lossyChars_encode (cs : List Char) :
    lossyChars (cs.flatMap String.utf8EncodeChar) = cs := by
  induction cs with
  | nil => rw [List.flatMap_nil, lossyChars, if_pos rfl]
  | cons c cs ih =>
    have hlen : (String.utf8EncodeChar c).length = c.utf8Size := String.length_utf8EncodeChar c
    have hne : String.utf8EncodeChar c ++ cs.flatMap String.utf8EncodeChar ≠ [] := by
      intro h
      have := c.utf8Size_pos
      simp only [List.append_eq_nil_iff] at h
      simp [h.1] at hlen
      omega
    have hdec :
        (String.utf8EncodeChar c ++ cs.flatMap String.utf8EncodeChar).toByteArray.utf8DecodeChar? 0 =
        some c := by
      rw [List.toByteArray_append]
      exact ByteArray.utf8DecodeChar?_utf8EncodeChar_append
    rw [List.flatMap_cons, lossyChars, if_neg hne, hdec]
    simp only
    rw [← hlen, List.drop_left, ih]

@[simp] theorem fromUtf8Lossy_bytes (s : String) : fromUtf8Lossy (bytes s) = s := by
  rw [fromUtf8Lossy, bytes, lossyChars_encode, String.ofList_toList]

theorem fromUtf8Lossy_singleton {b : UInt8} (hb : [b].toByteArray.utf8DecodeChar? 0 = none) :
    fromUtf8Lossy [b] = String.ofList ['\uFFFD'] := by
  rw [fromUtf8Lossy, lossyChars, if_neg (by simp), hb]
  simp [invalidLength, lossyChars]

@[simp] theorem read?_bytes (s : String) : read? (bytes s) = some s := by
  have h : (bytes s).toByteArray = s.toByteArray := by
    rw [← String.utf8Encode_toList]
    rfl
  rw [read?, h, String.fromUTF8?, dif_pos s.isValidUTF8]
  rfl

end Utf8
