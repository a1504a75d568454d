/-
Writing documents: a line for each key, then the tables inside, each below its
header.  A number out of range cannot be written.
-/
import QuotaTree.Document

namespace QuotaTree.Document

/-- A code point in as many hexadecimal digits as a short escape has. -/
def shortEscape (char : Char) : List Char :=
  let digits := Nat.toDigits 16 char.toNat
  ['\\', 'u'] ++ List.replicate (4 - digits.length) '0' ++ digits

/-- What stands for a character in a text. -/
def escapeChar (char : Char) : List Char :=
  if char = '"' then ['\\', '"']
  else if char = '\\' then ['\\', '\\']
  else if char = '\n' then ['\\', 'n']
  else if char = '\r' then ['\\', 'r']
  else if char = '\t' then ['\\', 't']
  else if char.toNat < 0x20 ∨ char.toNat = 0x7F then shortEscape char
  else [char]

def writeText (text : String) : String :=
  String.ofList ('"' :: (text.toList.flatMap escapeChar ++ ['"']))

mutual

/-- A value on one line. -/
def writeValue : Value → Option String
  | .bool value => some (if value then "true" else "false")
  | .int value =>
    if minInt ≤ value ∧ value ≤ maxInt then some (toString value) else none
  | .float text => some text
  | .text value => some (writeText value)
  | .array _ items =>
    (writeItems items).map fun texts => "[" ++ String.intercalate ", " texts ++
      "]"
  | .table _ _ | .nothing => none

def writeItems : List Value → Option (List String)
  | [] => some []
  | item :: rest => do
    let text ← writeValue item
    let texts ← writeItems rest
    pure (text :: texts)

end

/-- A key with its value on a line. -/
def writeLine (field : String × Value) : Option String := do
  let value ← writeValue field.2
  pure (field.1 ++ " = " ++ value ++ "\n")

/-- Lines for keys of which none is a table. -/
def writeLines (fields : Fields) : Option String :=
  String.join <$> fields.mapM writeLine

/-- The fields that are no tables. -/
def plainFields (fields : Fields) : Fields :=
  fields.filter fun field => field.2.asFields.isNone

/-- The fields that are tables. -/
def tableFields (fields : Fields) : List (String × Fields) :=
  fields.filterMap fun field => field.2.asFields.map
    fun inner => (field.1, inner)

/-- One element of an array of tables, the tables inside it last. -/
def writeElement (name : String) (fields : Fields) : Option String := do
  let lines ← writeLines (plainFields fields)
  let tables ← (tableFields fields).mapM fun table => do
    let inner ← writeLines table.2
    pure ("\n[" ++ name ++ "." ++ table.1 ++ "]\n" ++ inner)
  pure ("[[" ++ name ++ "]]\n" ++ lines ++ String.join tables)

/-- An array of tables, with a blank line between two of them. -/
def writeElements (name : String) (elements : List Fields) : Option String :=
  match elements with
  | [] => some (name ++ " = []\n")
  | _ => String.intercalate "\n" <$> elements.mapM (writeElement name)

end QuotaTree.Document
