/-
The name of a directory entry: any bytes, ordered as bytes.  Names that come
from a path are the UTF-8 form of its components.
-/
import QuotaTree.Text.Lossy
import Std.Data.ExtTreeMap

namespace QuotaTree

structure Name where
  bytes : List UInt8
  deriving DecidableEq, Repr, Inhabited

namespace Name

instance : Ord Name := ⟨compareOn Name.bytes⟩

instance : Std.TransOrd Name :=
  inferInstanceAs (Std.TransCmp (compareOn Name.bytes))

instance : Std.LawfulEqOrd Name where
  eq_of_compare {left right} h := by
    have same : left.bytes = right.bytes := Std.compare_eq_iff_eq.mp h
    cases left
    cases right
    exact congrArg Name.mk same

/-- The root's name. -/
def empty : Name := ⟨[]⟩

/-- The name that a component of a path stands for. -/
def ofText (text : String) : Name := ⟨Text.toBytes text⟩

/-- The text by which a name is shown. -/
def text (name : Name) : String := Text.ofBytes name.bytes

@[simp] theorem text_ofText (text : String) : (ofText text).text = text := by
  simp [Name.text, ofText]

/-- Length in bytes. -/
def length (name : Name) : Nat := name.bytes.length

end Name

namespace NameExamples

example : compare (Name.ofText "a") (Name.ofText "ab") = .lt := by
  decide +kernel
example : compare (Name.ofText "Z") (Name.ofText "a") = .lt := by decide +kernel

end NameExamples

end QuotaTree
