/-
Merging pending updates into the cached usage of the quotas above the inodes
they happened at.
-/
import QuotaTree.Transaction

namespace QuotaTree

namespace Quota

/-- Take in a change of usage. -/
def absorb (quota : Quota) (delta : Counts) : Quota :=
  { quota with cached := quota.cached + delta }

end Quota

namespace Inode

/-- The same inode with another quota, if it is a directory. -/
def withQuota (inode : Inode) (quota : Quota) : Inode :=
  match inode.content with
  | .directory directory =>
    inode.withDirectory { directory with quota := some quota }
  | _ => inode

end Inode

namespace Work

/-- Let every quota from an inode upwards take in a change. -/
def absorbUpward (delta : Counts) : Nat → InodeId → Work Unit
  | 0, id => throw (.fault (.endless id))
  | steps + 1, id => do
    let inode ← get id
    match inode.quota with
    | some quota => put (inode.withQuota (quota.absorb delta))
    | none => pure ()
    match inode.parent with
    | some parent => absorbUpward delta steps parent
    | none => pure ()

/-- Merge all that is pending at an inode; the number of updates is returned. -/
def mergeAt (id : InodeId) : Work Nat := do
  let updates ← consume id
  let delta := Counts.sum (updates.map QuotaUpdate.delta)
  unless delta.isZero do
    let tx ← MonadState.get
    absorbUpward delta (tx.view.size + 1) id
  pure updates.length

/-- Merge all that is pending at several inodes. -/
def mergeAll : List InodeId → Work Nat
  | [] => pure 0
  | id :: rest => do
    let merged ← mergeAt id
    let others ← mergeAll rest
    pure (merged + others)

end Work

namespace Namespace

/-- Drop the updates of inodes that are gone, and merge all others; their number
is returned. -/
def tryMerge : Request Nat := do
  let ns ← get
  let targets := ns.ledger.targets
  let (live, gone) := targets.partition ns.table.contains
  set { ns with ledger := ns.ledger.withdrawAll gone }
  if targets.isEmpty then pure 0
  else transact .mergeQuotaUpdates { quotaChains := live } (Work.mergeAll live)

/-- Merge, and start over at most so many times when an inode has gone in
between. -/
def mergeRetrying : Nat → Request Nat
  | 0 => tryMerge
  | retries + 1 =>
    tryCatch tryMerge fun error =>
      match error with
      | .notFound _ _ => mergeRetrying retries
      | error => throw error

def mergeUpdates : Request Nat := do
  mergeRetrying (← get).config.lockRetries

end Namespace

end QuotaTree
