/-
Usage in six dimensions: inodes, bytes, and bytes on each storage type.  The
same record serves as an amount, as a change of an amount, and as a set of
limits, where a negative number lifts the limit.
-/
import QuotaTree.Storage

namespace QuotaTree

/-- One dimension in which usage is counted and limited. -/
inductive Dimension where
  | inodes
  | bytes
  | typed (type : StorageType)
  deriving DecidableEq, Repr, Inhabited

namespace Dimension

/-- Every dimension, in the order in which limits are checked. -/
def all : List Dimension :=
  .inodes :: .bytes :: StorageType.all.map .typed

@[simp] theorem mem_all (dimension : Dimension) : dimension ∈ all := by
  rcases dimension with _ | _ | type
  · decide
  · decide
  · cases type <;> decide

end Dimension

/-- An amount, a change or a limit in each dimension. -/
structure Counts where
  inodes : Int := 0
  bytes : Int := 0
  ramDisk : Int := 0
  ssd : Int := 0
  disk : Int := 0
  archive : Int := 0
  deriving DecidableEq, Repr, Inhabited

namespace Counts

def get (counts : Counts) : Dimension → Int
  | .inodes => counts.inodes
  | .bytes => counts.bytes
  | .typed .ramDisk => counts.ramDisk
  | .typed .ssd => counts.ssd
  | .typed .disk => counts.disk
  | .typed .archive => counts.archive

def set (counts : Counts) (dimension : Dimension) (value : Int) : Counts :=
  match dimension with
  | .inodes => { counts with inodes := value }
  | .bytes => { counts with bytes := value }
  | .typed .ramDisk => { counts with ramDisk := value }
  | .typed .ssd => { counts with ssd := value }
  | .typed .disk => { counts with disk := value }
  | .typed .archive => { counts with archive := value }

/-- Add a value in one dimension. -/
def addAt (counts : Counts) (dimension : Dimension) (value : Int) : Counts :=
  counts.set dimension (counts.get dimension + value)

theorem ext_get {left right : Counts}
    (h : ∀ dimension, left.get dimension = right.get dimension) :
    left = right := by
  have h0 := h .inodes
  have h1 := h .bytes
  have h2 := h (.typed .ramDisk)
  have h3 := h (.typed .ssd)
  have h4 := h (.typed .disk)
  have h5 := h (.typed .archive)
  cases left
  cases right
  simp_all [get]

@[simp] theorem get_set (counts : Counts) (dimension other : Dimension)
    (value : Int) : (counts.set dimension value).get other =
      if dimension = other then value else counts.get other := by
  rcases dimension with _ | _ | (_ | _ | _ | _) <;> rcases other with _ | _ |
    (_ | _ | _ | _) <;>
    simp [get, set]

@[simp] theorem get_addAt (counts : Counts) (dimension other : Dimension)
    (value : Int) :
    (counts.addAt dimension value).get other = counts.get other + if dimension =
      other then value else 0 := by
  by_cases h : dimension = other <;> simp [addAt, h]

/-- The same value in each dimension. -/
def splat (value : Int) : Counts :=
  ⟨value, value, value, value, value, value⟩

@[simp] theorem get_splat (value : Int) (dimension : Dimension) :
    (splat value).get dimension = value := by
  rcases dimension with _ | _ | (_ | _ | _ | _) <;> rfl

/-- Combine two records dimension by dimension. -/
def zipWith (f : Int → Int → Int) (left right : Counts) : Counts where
  inodes := f left.inodes right.inodes
  bytes := f left.bytes right.bytes
  ramDisk := f left.ramDisk right.ramDisk
  ssd := f left.ssd right.ssd
  disk := f left.disk right.disk
  archive := f left.archive right.archive

@[simp] theorem get_zipWith (f : Int → Int → Int) (left right : Counts)
    (dimension : Dimension) :
    (zipWith f left right).get dimension =
      f (left.get dimension) (right.get dimension) := by
  rcases dimension with _ | _ | (_ | _ | _ | _) <;> rfl

instance : Zero Counts := ⟨{}⟩
instance : Add Counts := ⟨zipWith (· + ·)⟩
instance : Sub Counts := ⟨zipWith (· - ·)⟩
instance : Neg Counts := ⟨fun counts => 0 - counts⟩

@[simp] theorem get_zero (dimension : Dimension) :
    (0 : Counts).get dimension = 0 :=
  get_splat 0 dimension

@[simp] theorem get_add (left right : Counts) (dimension : Dimension) :
    (left + right).get dimension = left.get dimension + right.get dimension :=
  get_zipWith ..

@[simp] theorem get_sub (left right : Counts) (dimension : Dimension) :
    (left - right).get dimension = left.get dimension - right.get dimension :=
  get_zipWith ..

@[simp] theorem get_neg (counts : Counts) (dimension : Dimension) :
    (-counts).get dimension = -counts.get dimension := by
  show (0 - counts).get dimension = _
  simp

theorem add_comm (left right : Counts) : left + right = right + left :=
  ext_get fun dimension => by simp [Int.add_comm]

theorem add_assoc (first second third : Counts) :
    first + second + third = first + (second + third) :=
  ext_get fun dimension => by simp [Int.add_assoc]

@[simp] theorem add_zero (counts : Counts) : counts + 0 = counts :=
  ext_get fun dimension => by simp

@[simp] theorem zero_add (counts : Counts) : 0 + counts = counts :=
  ext_get fun dimension => by simp

/-- The sum of a list of records. -/
def sum (list : List Counts) : Counts :=
  list.foldl (· + ·) 0

theorem foldl_add (list : List Counts) (start : Counts) :
    list.foldl (· + ·) start = start + sum list := by
  induction list generalizing start with
  | nil => simp [sum]
  | cons head tail ih =>
    have whole : sum (head :: tail) = head + sum tail := by
      rw [sum, List.foldl_cons, ih, zero_add]
    rw [List.foldl_cons, ih, whole, add_assoc]

@[simp] theorem sum_nil : sum [] = 0 := rfl

@[simp] theorem sum_cons (head : Counts) (tail : List Counts) :
    sum (head :: tail) = head + sum tail := by
  rw [sum, List.foldl_cons, foldl_add, zero_add]

@[simp] theorem sum_append (left right : List Counts) :
    sum (left ++ right) = sum left + sum right := by
  induction left with
  | nil => simp
  | cons head tail ih => simp [ih, add_assoc]

/-- Nothing changes in any dimension. -/
def isZero (counts : Counts) : Bool :=
  counts == 0

/-- Something grows; what only shrinks needs no check against limits. -/
def anyPositive (counts : Counts) : Bool :=
  Dimension.all.any fun dimension => 0 < counts.get dimension

/-- Read as limits, at least one is set. -/
def anyLimited (limits : Counts) : Bool :=
  Dimension.all.any fun dimension => 0 ≤ limits.get dimension

@[simp] theorem isZero_iff (counts : Counts) :
    counts.isZero = true ↔ counts = 0 := by
  simp [isZero]

theorem anyPositive_iff (counts : Counts) :
    counts.anyPositive = true ↔ ∃ dimension, 0 < counts.get dimension := by
  simp [anyPositive, List.any_eq_true]

theorem anyLimited_iff (limits : Counts) :
    limits.anyLimited = true ↔ ∃ dimension, 0 ≤ limits.get dimension := by
  simp [anyLimited, List.any_eq_true]

/-- The usage of a single inode that stores no bytes. -/
def oneInode : Counts := { inodes := 1 }

/-- The non-zero storage types, each with its amount. -/
def typedText (counts : Counts) : String :=
  let shown := StorageType.all.filterMap fun type =>
    let value := counts.get (.typed type)
    if value = 0 then none else some (type.label ++ ": " ++ toString value)
  "\x7b" ++ String.intercalate ", " shown ++ "\x7d"

/-- The text of a usage: inodes, bytes, and the storage types in use. -/
def text (counts : Counts) : String :=
  "ns=" ++ toString counts.inodes ++ " ds=" ++ toString counts.bytes ++
    " types=" ++ counts.typedText

end Counts

/-- The greatest value of a counter. -/
def maxCounter : Int := 9223372036854775807

/-- The least value of a counter. -/
def minCounter : Int := -9223372036854775808

/-- The counter nearest to a number. -/
def clampCounter (value : Int) : Int :=
  max minCounter (min maxCounter value)

theorem clampCounter_of_range {value : Int} (low : minCounter ≤ value)
    (high : value ≤ maxCounter) : clampCounter value = value := by
  unfold clampCounter
  omega

/-- The counter of a number of bytes.  A counter has 64 bits, one of them for
the sign, so a number past the greatest counter is counted as the negative one
with the same bits. -/
def counterOf (number : Nat) : Int :=
  Int.bmod number 18446744073709551616

theorem counterOf_of_le {number : Nat} (h : (number : Int) ≤ maxCounter) :
    counterOf number = number := by
  unfold counterOf
  unfold maxCounter at h
  rw [Int.bmod_eq_of_le_mul_two] <;> omega

namespace Limit

/-- A limit of this value is not enforced. -/
def none : Int := -1

/-- Given to a setter, this value leaves the present limit alone. -/
def keep : Int := maxCounter

/-- Growing by an amount would pass a limit that is set.  The sum is taken among
counters, so it stops at the greatest one. -/
def exceededBy (limit used growth : Int) : Bool :=
  decide (0 ≤ limit) && decide (0 < growth) &&
    decide (limit < clampCounter (used + growth))

/-- A usage already lies above a limit that is set. -/
def overrun (limit used : Int) : Bool :=
  decide (0 ≤ limit) && decide (limit < used)

end Limit

/-- No limit in any dimension. -/
def Counts.unlimited : Counts :=
  Counts.splat Limit.none

namespace CountsExamples

example : (Counts.unlimited).anyLimited = false := by decide
example : ({ inodes := 1, bytes := 11, ssd := 5, disk := 6 } : Counts).text =
    "ns=1 ds=11 types=\x7bSsd: 5, Disk: 6\x7d" := by decide +kernel
example :
    Limit.exceededBy 9223372036854775807 9223372036854775806 5 = false := by
  decide
example : Limit.exceededBy 2048 1024 1025 = true := by decide
example : counterOf 18446744073709551516 = -100 := by decide

end CountsExamples

end QuotaTree
