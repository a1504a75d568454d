/-
Finding the usage of every quota from the tree itself, and emptying the ledger.
-/
import QuotaTree.Request.Delete
import QuotaTree.Request.Merge

namespace QuotaTree

/-- What a recount has found: directories with a quota, those whose cached and
pending usage was not what the tree shows, and those whose usage lies above a
limit. -/
structure RecountReport where
  directories : Nat := 0
  inconsistencies : Nat := 0
  violations : Nat := 0
  deriving DecidableEq, Repr

namespace RecountReport

def add (left right : RecountReport) : RecountReport where
  directories := left.directories + right.directories
  inconsistencies := left.inconsistencies + right.inconsistencies
  violations := left.violations + right.violations

/-- The report on one quota, given what is pending for it and what is used. -/
def ofQuota (quota : Quota) (pending used : Counts) : RecountReport where
  directories := 1
  inconsistencies := if quota.cached + pending = used then 0 else 1
  violations := if ({ quota with cached := used } : Quota).overruns.isEmpty then
    0 else 1

end RecountReport

/-- The usage of a subtree, what is pending in it, and the report on its
quotas. -/
structure Recounted where
  used : Counts := 0
  pending : Counts := 0
  report : RecountReport := {}
  deriving DecidableEq, Repr

namespace Recounted

def add (left right : Recounted) : Recounted where
  used := left.used + right.used
  pending := left.pending + right.pending
  report := left.report.add right.report

end Recounted

namespace Work

/-- Recount a subtree, setting the cached usage of each quota in it. -/
def recount : Nat → InodeId → Work Recounted
  | 0, id => throw (.fault (.endless id))
  | depth + 1, id => do
    let inode ← get id
    let pending ← pendingFor [id]
    let parts ← inode.children.mapM (recount depth)
    let whole := parts.foldl Recounted.add { used := inode.ownUsage, pending }
    match inode.quota with
    | none => pure whole
    | some quota =>
      put (inode.withQuota { quota with cached := whole.used })
      let report := RecountReport.ofQuota quota whole.pending whole.used
      pure { whole with report := whole.report.add report }

end Work

namespace Namespace

/-- Recount the whole tree.  Nothing is done when quotas are not kept at all. -/
def recount : Request RecountReport := do
  let ns ← get
  if ns.config.quotaEnabled then
    let demand :=
      LockDemand.ofPath { path := "/", kind := .write, scope := .subtree }
    transact .recomputeQuota demand do
      let whole ← Work.recount (← Work.maxDepth) .root
      Work.clearLedger
      pure whole.report
  else pure {}

end Namespace

end QuotaTree
