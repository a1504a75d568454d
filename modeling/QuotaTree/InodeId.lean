/-
The identity of an inode: a number that survives renames and is never given
out twice.  The root has the first one.
-/
import QuotaTree.Text.Decimal
import Std.Data.ExtTreeMap

namespace QuotaTree

structure InodeId where
  val : Nat
  deriving DecidableEq, Repr, Inhabited

namespace InodeId

instance : Ord InodeId := ⟨compareOn InodeId.val⟩

instance : Std.TransOrd InodeId :=
  inferInstanceAs (Std.TransCmp (compareOn InodeId.val))

instance : Std.LawfulEqOrd InodeId where
  eq_of_compare {left right} h := by
    have same : left.val = right.val := Std.compare_eq_iff_eq.mp h
    cases left
    cases right
    exact congrArg InodeId.mk same

def root : InodeId := ⟨1⟩

/-- The identity that the allocator gives out first. -/
def firstAllocated : InodeId := ⟨2⟩

/-- The greatest number that an identity can have. -/
def maxVal : Nat := 18446744073709551615

/-- The identity after this one, unless the numbers have run out. -/
def next? (id : InodeId) : Option InodeId :=
  if id.val < maxVal then some ⟨id.val + 1⟩ else none

theorem next?_eq_some {id following : InodeId} (h : id.next? = some following) :
    following.val = id.val + 1 := by
  unfold next? at h
  split at h
  · cases h
    rfl
  · simp at h

theorem next?_le {id following : InodeId} (h : id.next? = some following) :
    following.val ≤ maxVal := by
  unfold next? at h
  split at h
  next hlt =>
    cases h
    exact hlt
  next => simp at h

/-- The decimal form of the number. -/
def text (id : InodeId) : String :=
  toString id.val

/-- The form that messages show. -/
def tag (id : InodeId) : String :=
  "#" ++ id.text

/-- Read an identity from the decimal form of its number. -/
def parse (text : String) : Except Text.DecimalError InodeId :=
  (Text.readNat maxVal text.toList).map InodeId.mk

end InodeId

end QuotaTree
