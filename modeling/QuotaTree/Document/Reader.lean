/-
Reading documents.  A document has keys with values, headers that open a table
or one more element of an array of tables, comments and blank lines.  Every
reader returns what it has read with the characters after it.
-/
import QuotaTree.Document

namespace QuotaTree.Document

/-- A blank within a line. -/
def isBlank (char : Char) : Bool :=
  char == ' ' || char == '\t'

def skipBlanks (chars : List Char) : List Char :=
  chars.dropWhile isBlank

/-- A character of which comments are made: of the controls only the tab. -/
def isCommentChar (char : Char) : Bool :=
  char == '\t' || (decide (0x20 ≤ char.toNat) && char.toNat != 0x7F)

/-- Skip blanks, ends of lines and comments; the flag says that a comment has
begun.  What cannot stand in a comment is left. -/
def skipFiller : Bool → List Char → List Char
  | _, [] => []
  | inComment, char :: rest =>
    if inComment && isCommentChar char then skipFiller true rest
    else if char = '\n' ∨ char = '\r' ∧ rest.head? = some '\n' then
      skipFiller false rest
    else if char = '#' then skipFiller true rest
    else if isBlank char then skipFiller false rest
    else char :: rest

/-- The characters after an end of line, which the end of the document is
too. -/
def nextLine : List Char → Option (List Char)
  | [] => some []
  | '\n' :: rest => some rest
  | '\r' :: '\n' :: rest => some rest
  | _ => none

/-- The rest of a line, on which only a comment may stand. -/
def endOfLine (chars : List Char) : Option (List Char) :=
  match skipBlanks chars with
  | '#' :: rest => nextLine (rest.dropWhile isCommentChar)
  | rest => nextLine rest

/-- A character of which keys are made. -/
def isKeyChar (char : Char) : Bool :=
  char.isAlphanum || char == '_' || char == '-'

def readKey (chars : List Char) : Option (String × List Char) :=
  match chars.takeWhile isKeyChar with
  | [] => none
  | key => some (String.ofList key, chars.dropWhile isKeyChar)

/-- How many arrays and inline tables may stand one in another, and how many
keys a path has at the most. -/
def maxDepth : Nat := 79

/-- Keys with dots between them, no more than the number. -/
def readKeys : Nat → List Char → Option (List String × List Char)
  | 0, _ => none
  | room + 1, chars => do
    let (key, rest) ← readKey (skipBlanks chars)
    match skipBlanks rest with
    | '.' :: rest =>
      let (keys, rest) ← readKeys room rest
      pure (key :: keys, rest)
    | rest => pure ([key], rest)

def hexValue (char : Char) : Option Nat :=
  if char.isDigit then some (char.toNat - '0'.toNat)
  else if 'a' ≤ char ∧ char ≤ 'f' then some (char.toNat - 'a'.toNat + 10)
  else if 'A' ≤ char ∧ char ≤ 'F' then some (char.toNat - 'A'.toNat + 10)
  else none

/-- The number that hexadecimal digits stand for. -/
def hexNumber (digits : List Char) : Option Nat :=
  digits.foldlM (fun value digit => (hexValue digit).map (value * 16 + ·)) 0

/-- The character of a number, unless it is none. -/
def charOfNumber (number : Nat) : Option Char :=
  if number.isValidChar then some (Char.ofNat number) else none

/-- The characters of a text up to the quote that ends it. -/
def readText : List Char → Option (List Char × List Char)
  | [] => none
  | '"' :: rest => some ([], rest)
  | '\\' :: 'u' :: a :: b :: c :: d :: rest => do
    let char ← (hexNumber [a, b, c, d]).bind charOfNumber
    let (chars, rest) ← readText rest
    pure (char :: chars, rest)
  | '\\' :: 'U' :: a :: b :: c :: d :: e :: f :: g :: h :: rest => do
    let char ← (hexNumber [a, b, c, d, e, f, g, h]).bind charOfNumber
    let (chars, rest) ← readText rest
    pure (char :: chars, rest)
  | '\\' :: letter :: rest => do
    let char ← [('"', '"'), ('\\', '\\'), ('n', '\n'), ('r', '\r'), ('t', '\t'),
      ('b', '\x08'), ('f', '\x0c')].lookup letter
    let (chars, rest) ← readText rest
    pure (char :: chars, rest)
  | char :: rest =>
    if char ≠ '\t' ∧ (char.toNat < 0x20 ∨ char.toNat = 0x7F ∨ char = '\\') then
      none
    else do
      let (chars, rest) ← readText rest
      pure (char :: chars, rest)

/-- Digits of which an underscore stands only between two; the underscores are
dropped. -/
def plainDigits : List Char → Option (List Char)
  | [] => none
  | [digit] => if digit.isDigit then some [digit] else none
  | digit :: '_' :: rest =>
    if digit.isDigit then (plainDigits rest).map (digit :: ·) else none
  | digit :: rest =>
    if digit.isDigit then (plainDigits rest).map (digit :: ·) else none

/-- Digits without a zero in front. -/
def wholeDigits (chars : List Char) : Option (List Char) := do
  let digits ← plainDigits chars
  match digits with
  | '0' :: _ :: _ => none
  | _ => pure digits

def decimalValue (digits : List Char) : Nat :=
  digits.foldl (fun value digit => value * 10 + (digit.toNat - '0'.toNat)) 0

/-- The sign in front of a number, and the characters after it. -/
def splitSign : List Char → Int × List Char
  | '+' :: rest => (1, rest)
  | '-' :: rest => (-1, rest)
  | chars => (1, chars)

def intOf? (chars : List Char) : Option Value := do
  let (sign, chars) := splitSign chars
  let digits ← wholeDigits chars
  let value := sign * decimalValue digits
  if minInt ≤ value ∧ value ≤ maxInt then some (.int value) else none

/-- The exponent that a mark begins; without a mark it is zero. -/
def exponentOf? : List Char → Option Int
  | [] => some 0
  | mark :: rest =>
    let (sign, rest) := splitSign rest
    if mark = 'e' ∨ mark = 'E' then
      (plainDigits rest).map (sign * decimalValue ·) else none

/-- The least number for which infinity is the nearest float of 64 bits. -/
def floatBound : Nat := Nat.pow 2 1024 - Nat.pow 2 970

/-- The digits times this power of ten reach the bound of floats.  Far from it
the number of digits decides, so that no power is taken of a great exponent. -/
def reachesFloatBound (digits : List Char) (exponent : Int) : Bool :=
  let value := decimalValue digits
  if value = 0 ∨ digits.length + exponent ≤ 308 then false
  else if 308 < exponent then true
  else if 0 ≤ exponent then floatBound ≤ value * Nat.pow 10 exponent.toNat
  else floatBound * Nat.pow 10 (-exponent).toNat ≤ value

def isExponentMark (char : Char) : Bool :=
  char == 'e' || char == 'E'

def isPoint (char : Char) : Bool :=
  char == '.' || isExponentMark char

/-- A number with a fraction or an exponent.  Its value plays no part, but it
must not be so great that it stands for infinity; one that is as far below zero
may. -/
def floatOf? (chars : List Char) : Option Value :=
  let (sign, number) := splitSign chars
  let written := Value.float (String.ofList chars)
  if number = ['i', 'n', 'f'] ∨ number = ['n', 'a', 'n'] then some written
  else do
    let whole ← wholeDigits (number.takeWhile (!isPoint ·))
    let (fraction, rest) ←
      match number.dropWhile (!isPoint ·) with
      | [] => none
      | '.' :: rest => do
        let fraction ← plainDigits (rest.takeWhile (!isExponentMark ·))
        pure (fraction, rest.dropWhile (!isExponentMark ·))
      | rest => pure ([], rest)
    let exponent ← exponentOf? rest
    if 0 < sign ∧
        reachesFloatBound (whole ++ fraction) (exponent - fraction.length) then
      none
    else pure written

/-- A character of which words and numbers are made. -/
def isWordChar (char : Char) : Bool :=
  isKeyChar char || char == '+' || char == '.'

/-- The value that a word stands for. -/
def wordValue (word : List Char) : Option Value :=
  if word = "true".toList then some (.bool true)
  else if word = "false".toList then some (.bool false)
  else intOf? word <|> floatOf? word

/-- Add a key that is not there yet. -/
def addField (fields : Fields) (key : String) (value : Value) : Option Fields :=
  match fields.find? key with
  | some _ => none
  | none => some (fields ++ [(key, value)])

mutual

/-- A value.  The first number bounds how many values and marks are read, the
second how deep arrays and tables stand in it. -/
def readValue : Nat → Nat → List Char → Option (Value × List Char)
  | 0, _, _ => none
  | fuel + 1, depth, chars =>
    match depth, chars with
    | _, '"' :: rest => do
      let (text, rest) ← readText rest
      pure (.text (String.ofList text), rest)
    | depth + 1, '[' :: rest => do
      let (items, rest) ← readItems fuel depth (skipFiller false rest)
      pure (.array false items, rest)
    | depth + 1, '\x7b' :: rest =>
      match skipBlanks rest with
      | '\x7d' :: rest => some (.table .inline [], rest)
      | rest => do
        let (fields, rest) ← readFields fuel depth [] rest
        pure (.table .inline fields, rest)
    | _, chars => do
      let value ← wordValue (chars.takeWhile isWordChar)
      pure (value, chars.dropWhile isWordChar)

/-- The items of an array up to the bracket that ends it. -/
def readItems : Nat → Nat → List Char → Option (List Value × List Char)
  | 0, _, _ => none
  | _ + 1, _, ']' :: rest => some ([], rest)
  | fuel + 1, depth, chars => do
    let (item, rest) ← readValue fuel depth chars
    match skipFiller false rest with
    | ',' :: rest =>
      let (items, rest) ← readItems fuel depth (skipFiller false rest)
      pure (item :: items, rest)
    | ']' :: rest => pure ([item], rest)
    | _ => none

/-- The fields of a table on one line up to the brace that ends it, after those
read before. -/
def readFields : Nat → Nat → Fields → List Char → Option (Fields × List Char)
  | 0, _, _, _ => none
  | fuel + 1, depth, before, chars => do
    let (key, rest) ← readKey (skipBlanks chars)
    match skipBlanks rest with
    | '=' :: rest =>
      let (value, rest) ← readValue fuel depth (skipBlanks rest)
      let fields ← addField before key value
      match skipBlanks rest with
      | ',' :: rest => readFields fuel depth fields rest
      | '\x7d' :: rest => pure (fields, rest)
      | _ => none
    | _ => none

end

/-- Replace the value of a key that is there. -/
def replaceField (fields : Fields) (key : String) (value : Value) : Fields :=
  fields.map fun field => if field.1 == key then (key, value) else field

/-- Change what a path of keys leads to.  On the way tables are implied, and of
an array of tables the last element is meant. -/
def changeAt (change : Option Value → Option Value) :
    List String → Fields → Option Fields
  | [], _ => none
  | [key], fields =>
    match fields.find? key with
    | none => (change none).map fun value => fields ++ [(key, value)]
    | some present => (change (some present)).map (replaceField fields key)
  | key :: path, fields =>
    match fields.find? key with
    | none => do
      let inner ← changeAt change path []
      pure (fields ++ [(key, .table .implied inner)])
    | some (.table .header inner) => do
      let inner ← changeAt change path inner
      pure (replaceField fields key (.table .header inner))
    | some (.table .implied inner) => do
      let inner ← changeAt change path inner
      pure (replaceField fields key (.table .implied inner))
    | some (.array true items) =>
      match items.getLast? with
      | some (.table origin inner) => do
        let inner ← changeAt change path inner
        pure (replaceField fields key
          (.array true (items.dropLast ++ [.table origin inner])))
      | _ => none
    | some _ => none

/-- What a header makes of a key: a table that no other header has opened. -/
def openTable : Option Value → Option Value
  | none => some (.table .header [])
  | some (.table .implied fields) => some (.table .header fields)
  | some _ => none

/-- What the header of an array makes of a key: one more element. -/
def openElement : Option Value → Option Value
  | none => some (.array true [.table .header []])
  | some (.array true items) =>
    some (.array true (items ++ [.table .header []]))
  | some _ => none

/-- What a key with a value makes of a key: it must not be there. -/
def define (value : Value) : Option Value → Option Value
  | none => some value
  | some _ => none

/-- The lines of a document, given the table that is open and what has been
read. -/
def readLines : Nat → List String → Fields → List Char → Option Fields
  | 0, _, _, _ => none
  | fuel + 1, path, fields, chars =>
    match skipFiller false chars with
    | [] => some fields
    | '[' :: '[' :: rest => do
      let (keys, rest) ← readKeys maxDepth rest
      match rest with
      | ']' :: ']' :: rest =>
        let rest ← endOfLine rest
        let fields ← changeAt openElement keys fields
        readLines fuel keys fields rest
      | _ => none
    | '[' :: rest => do
      let (keys, rest) ← readKeys maxDepth rest
      match rest with
      | ']' :: rest =>
        let rest ← endOfLine rest
        let fields ← changeAt openTable keys fields
        readLines fuel keys fields rest
      | _ => none
    | chars => do
      let (key, rest) ← readKey chars
      match skipBlanks rest with
      | '=' :: rest =>
        let rest := skipBlanks rest
        let (value, rest) ← readValue rest.length maxDepth rest
        let rest ← endOfLine rest
        let fields ← changeAt (define value) (path ++ [key]) fields
        readLines fuel path fields rest
      | _ => none

/-- Drop the mark that may stand in front of a document to say how its
characters are coded. -/
def skipByteOrderMark : List Char → List Char
  | '\ufeff' :: rest => rest
  | chars => chars

/-- Read a document. -/
def read (text : String) : Option Fields :=
  let chars := skipByteOrderMark text.toList
  readLines (chars.length + 1) [] [] chars

namespace ReaderExamples

example : (intOf? "-1_000".toList).isSome = true := by decide +kernel
example : (intOf? "007".toList).isSome = false := by decide +kernel
example : (floatOf? "1.5e3".toList).isSome = true := by decide +kernel
example : (floatOf? "1e400".toList).isSome = false := by decide +kernel
example : (floatOf? "-1e400".toList).isSome = true := by decide +kernel
example : reachesFloatBound ['0'] 400 = false := by decide +kernel
example : (readValue 9 2 "[[]]".toList).isSome = true := by decide +kernel
example : (readValue 9 2 "[[[]]]".toList).isSome = false := by decide +kernel
example : (readKeys 2 "a . b]".toList).isSome = true := by decide +kernel
example : (readKeys 2 "a.b.c]".toList).isSome = false := by decide +kernel
example : skipByteOrderMark "\ufeff\ufeff".toList = ['\ufeff'] := by
  decide +kernel

end ReaderExamples

end QuotaTree.Document
