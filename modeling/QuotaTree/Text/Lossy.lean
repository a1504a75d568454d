/-
The text of a byte string.  Valid UTF-8 is its own text; in anything else each
longest start of a character that is then broken off, and each byte that starts
none, becomes one replacement character.
-/
namespace QuotaTree.Text

/-- Stands for bytes that are no character. -/
def replacement : Char := '\uFFFD'

/-- A character of which some bytes have been read: the bits so far, the number
of bytes still to come, and the range that the next one has to lie in. -/
structure Unfinished where
  bits : Nat
  missing : Nat
  low : Nat
  high : Nat
  deriving DecidableEq, Repr

/-- What the first byte of a character says: a whole character, a start, or
nothing. -/
inductive Lead where
  | whole (char : Char)
  | start (unfinished : Unfinished)
  | none

/-- Overlong forms, surrogates and numbers past the last code point are cut off
by the range of the second byte. -/
def lead (byte : Nat) : Lead :=
  if byte < 0x80 then .whole (Char.ofNat byte)
  else if byte < 0xC2 then .none
  else if byte < 0xE0 then .start ⟨byte - 0xC0, 1, 0x80, 0xBF⟩
  else if byte < 0xF0 then
    .start ⟨byte - 0xE0, 2, if byte = 0xE0 then 0xA0 else 0x80,
      if byte = 0xED then 0x9F else 0xBF⟩
  else if byte < 0xF5 then
    .start ⟨byte - 0xF0, 3, if byte = 0xF0 then 0x90 else 0x80,
      if byte = 0xF4 then 0x8F else 0xBF⟩
  else .none

/-- Read bytes of which none belongs to a character that has been started, or
else the rest of that character first. -/
def decode : Option Unfinished → List UInt8 → List Char
  | none, [] => []
  | some _, [] => [replacement]
  | none, byte :: rest =>
    match lead byte.toNat with
    | .whole char => char :: decode none rest
    | .start unfinished => decode (some unfinished) rest
    | .none => replacement :: decode none rest
  | some unfinished, byte :: rest =>
    if unfinished.low ≤ byte.toNat ∧ byte.toNat ≤ unfinished.high then
      let bits := unfinished.bits * 64 + (byte.toNat - 0x80)
      if unfinished.missing ≤ 1 then Char.ofNat bits :: decode none rest
      else decode (some ⟨bits, unfinished.missing - 1, 0x80, 0xBF⟩) rest
    else
      match lead byte.toNat with
      | .whole char => replacement :: char :: decode none rest
      | .start again => replacement :: decode (some again) rest
      | .none => replacement :: replacement :: decode none rest

/-- The text of a byte string. -/
def ofBytes (bytes : List UInt8) : String :=
  match String.fromUTF8? ⟨bytes.toArray⟩ with
  | some text => text
  | none => String.ofList (decode none bytes)

/-- The UTF-8 form of a text. -/
def toBytes (text : String) : List UInt8 :=
  text.toByteArray.data.toList

theorem fromUTF8?_toByteArray (text : String) :
    String.fromUTF8? text.toByteArray = some text := by
  simp [String.fromUTF8?, String.fromUTF8, text.isValidUTF8]

/-- A text is read back from its UTF-8 form. -/
@[simp] theorem ofBytes_toBytes (text : String) :
    ofBytes (toBytes text) = text := by
  simp only [ofBytes, toBytes, Array.toArray_toList]
  rw [show ByteArray.mk text.toByteArray.data = text.toByteArray from rfl,
    fromUTF8?_toByteArray]

namespace LossyExamples

example : ofBytes [0x61, 0xE2, 0x82] = "a\uFFFD" := by decide +kernel
example : ofBytes [0xE2, 0x82, 0x61] = "\uFFFDa" := by decide +kernel
example : ofBytes [0xF4, 0x90, 0x80, 0x80] = "\uFFFD\uFFFD\uFFFD\uFFFD" := by
  decide +kernel
example : ofBytes [0xF0, 0x90, 0x8D, 0x80, 0xC3] = "𐍀\uFFFD" := by
  decide +kernel

end LossyExamples

end QuotaTree.Text
