/-
Setting the storage policy and the replication.  A file's bytes are charged anew
at once; a directory's policy is for files made below it from then on.
-/
import QuotaTree.Transaction.Accounting

namespace QuotaTree

namespace File

/-- What a file would be charged more under another policy and replication. -/
def spaceUnder (file : File) (policy : StoragePolicy) (replication : Nat) :
    Counts :=
  policy.space replication (counterOf file.charged) - file.chargedSpace

end File

namespace Work

def setPolicy (path : String) (policy : StoragePolicy) : Work Unit := do
  let chain ← read (Chain.resolve · path false)
  let inode ← get chain.last
  match inode.content with
  | .directory directory =>
    put (inode.withDirectory { directory with policy := some policy })
  | .file file =>
    accountAbove chain (file.spaceUnder policy file.replication) true
    put (inode.withFile { file with policy })
  | .symlink _ => throw (.badArgument (.policyOnSymlink path))
  journal (.setPolicy path policy)

def setReplication (path : String) (replication : Nat) : Work Unit := do
  let chain ← read (Chain.resolve · path false)
  let inode ← get chain.last
  match inode.asFile with
  | none => throw (.notFile path)
  | some file =>
    accountAbove chain (file.spaceUnder file.policy replication) true
    put (inode.withFile { file with replication })
    journal (.setReplication path replication)

end Work

namespace Namespace

def setStoragePolicy (path : String) (policy : StoragePolicy) : Request Unit :=
  do
  let path ← resolvePath path
  transact .setStoragePolicy (.ofPath { path, kind := .write })
    (Work.setPolicy path policy)

def setReplication (path : String) (replication : Nat) : Request Unit := do
  if replication = 0 then
    throw (.badArgument (.zeroReplication path))
  let path ← resolvePath path
  transact .setReplication (.ofPath { path, kind := .write })
    (Work.setReplication path replication)

end Namespace

end QuotaTree
