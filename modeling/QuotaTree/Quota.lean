/-
The quota of a directory: limits beside the cached usage of its subtree, and
the check of a growth against them.
-/
import QuotaTree.Counts

namespace QuotaTree

/-- What a directory with a quota keeps.  The cached usage lags behind the tree
by the updates that are still pending in the ledger. -/
structure Quota where
  limits : Counts
  cached : Counts
  deriving DecidableEq, Repr

/-- A growth that a limit does not allow; `usage` is what would be used with
it. -/
structure QuotaExceeded where
  dimension : Dimension
  limit : Int
  usage : Int
  path : Option String := none
  deriving DecidableEq, Repr

def Dimension.describe : Dimension → String
  | .inodes => "The NameSpace quota (directories and files)"
  | .bytes => "The DiskSpace quota"
  | .typed type => "Quota by storage type " ++ type.name

namespace QuotaExceeded

/-- The same failure, naming the directory whose quota it is. -/
def locatedAt (exceeded : QuotaExceeded) (path : String) : QuotaExceeded :=
  { exceeded with path := some path }

def message (exceeded : QuotaExceeded) : String :=
  exceeded.dimension.describe ++ " of " ++ exceeded.path.getD "<unknown>" ++
    " is exceeded: quota=" ++ toString exceeded.limit ++
    " consumed=" ++ toString exceeded.usage

end QuotaExceeded

namespace Quota

/-- Growing the subtree by `growth` passes the limit of a dimension. -/
def exceededIn (quota : Quota) (growth : Counts) (dimension : Dimension) :
    Bool :=
  Limit.exceededBy (quota.limits.get dimension) (quota.cached.get dimension)
    (growth.get dimension)

/-- The first dimension whose limit the growth passes, if there is one. -/
def firstExceeded (quota : Quota) (growth : Counts) : Option QuotaExceeded :=
  (Dimension.all.find? (quota.exceededIn growth)).map fun dimension =>
    { dimension
      limit := quota.limits.get dimension
      usage := quota.cached.get dimension + growth.get dimension }

theorem firstExceeded_eq_none_iff (quota : Quota) (growth : Counts) :
    quota.firstExceeded growth = none ↔
      ∀ dimension, quota.exceededIn growth dimension = false := by
  simp [firstExceeded, List.find?_eq_none]

/-- What does not grow is never refused. -/
theorem firstExceeded_eq_none_of_not_anyPositive (quota : Quota)
    {growth : Counts} (h : growth.anyPositive = false) :
    quota.firstExceeded growth = none := by
  rw [firstExceeded_eq_none_iff]
  intro dimension
  have hle : ¬ 0 < growth.get dimension := fun hlt => Bool.false_ne_true
    (h.symm.trans ((Counts.anyPositive_iff growth).2 ⟨dimension, hlt⟩))
  simp [exceededIn, Limit.exceededBy, hle]

/-- The dimensions in which the cached usage already lies above its limit. -/
def overruns (quota : Quota) : List Dimension :=
  Dimension.all.filter fun dimension =>
    Limit.overrun (quota.limits.get dimension) (quota.cached.get dimension)

end Quota

namespace QuotaExamples

example :
    (Quota.mk { inodes := 1, bytes := 1 } { inodes := 1 }).firstExceeded
      { bytes := 2 } = some ⟨.bytes, 1, 2, none⟩ := by decide
example : (Quota.mk (Counts.splat 4) { inodes := 5, archive := 5 }).overruns =
    [.inodes, .typed .archive] := by decide

end QuotaExamples

end QuotaTree
