import Mathlib.Data.List.Basic

/-!
UTF-8 bytes of a text, and the reading that puts a replacement character for what is not UTF-8.
-/

set_option autoImplicit false
set_option relaxedAutoImplicit false

namespace Utf8

def encode (text : List Char) : List UInt8 := text.flatMap String.utf8EncodeChar

@[simp] theorem encode_nil : encode [] = [] := rfl

@[simp] theorem encode_cons (c : Char) (text : List Char) :
    encode (c :: text) = String.utf8EncodeChar c ++ encode text := rfl

theorem encode_append (text other : List Char) :
    encode (text ++ other) = encode text ++ encode other := List.flatMap_append

/-- The character at the start of the bytes. -/
def decodeChar? (bytes : List UInt8) : Option Char := bytes.toByteArray.utf8DecodeChar? 0

def isContinuation (b : UInt8) : Bool := 0x80 ≤ b && b ≤ 0xBF

/-- The second byte of a character can follow the first. -/
def secondFits (first second : UInt8) : Bool :=
  if first == 0xE0 then 0xA0 ≤ second && second ≤ 0xBF
  else if first == 0xED then 0x80 ≤ second && second ≤ 0x9F
  else if first == 0xF0 then 0x90 ≤ second && second ≤ 0xBF
  else if first == 0xF4 then 0x80 ≤ second && second ≤ 0x8F
  else 0xC2 ≤ first && first ≤ 0xF3 && isContinuation second

/-- How many bytes at the start one replacement character stands for, where no character starts. -/
def brokenLength : List UInt8 → ℕ
  | first :: second :: third :: _ =>
    if secondFits first second then
      if 0xF0 ≤ first && isContinuation third then 3 else 2
    else 1
  | [first, second] => if secondFits first second then 2 else 1
  | _ => 1

/-- The characters of what is left after the next `skip` bytes. -/
def lossyFrom : ℕ → List UInt8 → List Char
  | _, [] => []
  | skip + 1, _ :: rest => lossyFrom skip rest
  | 0, b :: rest =>
    match decodeChar? (b :: rest) with
    | some c => c :: lossyFrom (c.utf8Size - 1) rest
    | none => '\uFFFD' :: lossyFrom (brokenLength (b :: rest) - 1) rest

/-- `from_utf8_lossy` -/
def fromUtf8Lossy (bytes : List UInt8) : List Char := lossyFrom 0 bytes

theorem decodeChar?_encode (c : Char) (rest : List UInt8) :
    decodeChar? (String.utf8EncodeChar c ++ rest) = some c := by
  rw [decodeChar?, List.toByteArray_append]
  exact ByteArray.utf8DecodeChar?_utf8EncodeChar_append

theorem lossyFrom_skip (l rest : List UInt8) : lossyFrom l.length (l ++ rest) = lossyFrom 0 rest := by
  induction l with
  | nil => rfl
  | cons b l ih => exact ih

/-- What is UTF-8 is read as it is. -/
theorem fromUtf8Lossy_encode (text : List Char) : fromUtf8Lossy (encode text) = text := by
  induction text with
  | nil => rfl
  | cons c text ih =>
    obtain ⟨b, tail, hbytes⟩ : ∃ b tail, String.utf8EncodeChar c = b :: tail := by
      refine List.exists_cons_of_ne_nil fun hnil ↦ ?_
      have hlength := String.length_utf8EncodeChar c
      rw [hnil] at hlength
      exact absurd hlength.symm (Nat.pos_iff_ne_zero.mp c.utf8Size_pos)
    have hdecode := decodeChar?_encode c (encode text)
    have htail : tail.length = c.utf8Size - 1 := by
      rw [← String.length_utf8EncodeChar c, hbytes]
      rfl
    rw [hbytes, List.cons_append] at hdecode
    rw [fromUtf8Lossy, encode_cons, hbytes, List.cons_append, lossyFrom, hdecode]
    show c :: lossyFrom (c.utf8Size - 1) (tail ++ encode text) = c :: text
    rw [← htail, lossyFrom_skip]
    exact congrArg (c :: ·) ih

/-- A character of one byte. -/
theorem utf8EncodeChar_ascii {c : Char} (h : c.toNat < 0x80) :
    String.utf8EncodeChar c = [c.toNat.toUInt8] := by
  have hval : c.val.toNat ≤ 0x7F := Nat.le_of_lt_succ h
  rw [String.utf8EncodeChar, if_pos hval]
  rfl

end Utf8
