/-
A text between double quotes, as messages show a name that may hold anything:
quotes, backslashes and common controls are escaped by a letter, other
characters that would not show by their number.
-/
import QuotaTree.Text.Unprinted

namespace QuotaTree.Text

/-- A code point in lower-case hexadecimal, in braces. -/
def numberEscape (char : Char) : List Char :=
  ['\\', 'u', '\x7b'] ++ Nat.toDigits 16 char.toNat ++ ['\x7d']

/-- What stands for a character between the quotes. -/
def quoteChar (char : Char) : List Char :=
  if char = '"' then ['\\', '"']
  else if char = '\\' then ['\\', '\\']
  else if char = '\n' then ['\\', 'n']
  else if char = '\r' then ['\\', 'r']
  else if char = '\t' then ['\\', 't']
  else if char = '\x00' then ['\\', '0']
  else if char.toNat < 0x20 ∨ char.toNat = 0x7F then numberEscape char
  else if char.toNat < 0x7F then [char]
  else if isUnprinted char then numberEscape char
  else [char]

/-- The text between quotes. -/
def quote (text : String) : String :=
  String.ofList ('"' :: (text.toList.flatMap quoteChar ++ ['"']))

namespace QuotedExamples

example : quote "new\nline" = "\"new\\nline\"" := by decide +kernel
example : quote "\x1b'é" = "\"\\u\x7b1b\x7d'é\"" := by decide +kernel

end QuotedExamples

end QuotaTree.Text
