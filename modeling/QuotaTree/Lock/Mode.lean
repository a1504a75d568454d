/-
The two ways of holding an inode, and sets of inodes with the way in which each
is held or wanted.
-/
import QuotaTree.InodeId

namespace QuotaTree

/-- Readers share an inode; a writer has it alone. -/
inductive LockMode where
  | read
  | write
  deriving DecidableEq, Repr, Inhabited

namespace LockMode

/-- Two requests cannot both hold an inode in these modes. -/
def conflicts : LockMode → LockMode → Bool
  | .read, .read => false
  | _, _ => true

/-- Holding an inode in the first mode is enough for an access in the second. -/
def covers : LockMode → LockMode → Bool
  | .write, _ => true
  | .read, .read => true
  | .read, .write => false

/-- The weakest mode that covers both. -/
def join : LockMode → LockMode → LockMode
  | .read, .read => .read
  | _, _ => .write

@[simp] theorem covers_join (left right wanted : LockMode) :
    (left.join right).covers wanted =
      (left.covers wanted || right.covers wanted) := by
  cases left <;> cases right <;> cases wanted <;> rfl

def label : LockMode → String
  | .read => "Read"
  | .write => "Write"

end LockMode

/-- Inodes, each with the mode in which it is held or wanted. -/
abbrev LockSet := Std.ExtTreeMap InodeId LockMode

namespace LockSet

/-- Want one more inode; a mode that is wanted already is only ever
strengthened. -/
def want (locks : LockSet) (id : InodeId) (mode : LockMode) : LockSet :=
  match locks[id]? with
  | none => locks.insert id mode
  | some present => locks.insert id (present.join mode)

/-- The inodes of a list, each in the weakest mode that covers all its
occurrences. -/
def ofList (list : List (InodeId × LockMode)) : LockSet :=
  list.foldl (fun locks item => locks.want item.1 item.2) ∅

/-- The set holds an inode in a mode that covers the one wanted. -/
def holds (locks : LockSet) (id : InodeId) (wanted : LockMode) : Bool :=
  match locks[id]? with
  | none => false
  | some mode => mode.covers wanted

/-- The set covers everything another one wants. -/
def covers (locks wanted : LockSet) : Bool :=
  wanted.toList.all fun item => locks.holds item.1 item.2

theorem holds_want (locks : LockSet) (id other : InodeId)
    (mode wanted : LockMode) :
    (locks.want id mode).holds other wanted = (locks.holds other wanted ||
      (decide (other = id) && mode.covers wanted)) := by
  unfold want
  by_cases h : id = other
  · subst h
    split <;> simp_all [holds]
  · have hne : compare id other ≠ .eq :=
      fun heq => h (Std.LawfulEqCmp.eq_of_compare heq)
    have hne' : other ≠ id := fun heq => h heq.symm
    split <;> simp [holds, Std.ExtTreeMap.getElem?_insert, hne, hne']

end LockSet

end QuotaTree
