/-
Documents of keys and values, in which settings and logs of edits are kept, and
the fields that are read from them.
-/
namespace QuotaTree

namespace Document

/-- How a table came to be, which says what may be added to it. -/
inductive Origin where
  /-- Written whole as a value. -/
  | inline
  /-- Opened by a header of its own. -/
  | header
  /-- Implied by the header of a table inside it. -/
  | implied
  deriving DecidableEq, Repr

inductive Value where
  | bool (value : Bool)
  | int (value : Int)
  | float (text : String)
  | text (value : String)
  | array (fromHeaders : Bool) (items : List Value)
  | table (origin : Origin) (fields : List (String × Value))
  /-- No value at all, which a document cannot hold. -/
  | nothing
  deriving Repr, Inhabited

/-- Keys with their values, in the order in which they are written. -/
abbrev Fields := List (String × Value)

/-- The range of integers that a document can hold. -/
def minInt : Int := -9223372036854775808

/-- The end of that range. -/
def maxInt : Int := 9223372036854775807

/-- The greatest number of a field of 16 bits. -/
def maxShort : Nat := 65535

/-- The greatest number of a field of 64 bits. -/
def maxLong : Nat := 18446744073709551615

namespace Value

def asText : Value → Option String
  | .text value => some value
  | _ => none

def asBool : Value → Option Bool
  | .bool value => some value
  | _ => none

/-- A number from 0 to a bound. -/
def asNat (bound : Nat) : Value → Option Nat
  | .int value => if 0 ≤ value ∧ value ≤ bound then some value.toNat else none
  | _ => none

/-- A number in the range of signed integers. -/
def asInt : Value → Option Int
  | .int value => if minInt ≤ value ∧ value ≤ maxInt then some value else none
  | _ => none

def asFields : Value → Option Fields
  | .table _ fields => some fields
  | _ => none

/-- The fields of a record.  A table gives them by name, an array by position,
and then it has as many items as there are names. -/
def asRecord (names : List String) : Value → Option Fields
  | .table _ fields => some fields
  | .array _ items =>
    if items.length = names.length then some (names.zip items) else none
  | _ => none

/-- One of several words; it may also be the only key of a table in which
nothing is said of it. -/
def asWord : Value → Option String
  | .text word => some word
  | .table _ [(word, .nothing)] => some word
  | .table _ [(word, .table _ [])] => some word
  | _ => none

def asItems : Value → Option (List Value)
  | .array _ items => some items
  | _ => none

def ofTexts (texts : List String) : Value :=
  .array false (texts.map .text)

end Value

namespace Fields

/-- The value of a key. -/
def find? (fields : Fields) (key : String) : Option Value :=
  fields.lookup key

def text? (fields : Fields) (key : String) : Option String :=
  (fields.find? key).bind Value.asText

def bool? (fields : Fields) (key : String) : Option Bool :=
  (fields.find? key).bind Value.asBool

def nat? (fields : Fields) (bound : Nat) (key : String) : Option Nat :=
  (fields.find? key).bind (Value.asNat bound)

def int? (fields : Fields) (key : String) : Option Int :=
  (fields.find? key).bind Value.asInt

def record? (fields : Fields) (names : List String) (key : String) :
    Option Fields :=
  (fields.find? key).bind (Value.asRecord names)

def word? (fields : Fields) (key : String) : Option String :=
  (fields.find? key).bind Value.asWord

def texts? (fields : Fields) (key : String) : Option (List String) :=
  ((fields.find? key).bind Value.asItems).bind
    fun items => items.mapM Value.asText

end Fields

end Document

end QuotaTree
