/-
Making edits again.  Limits are not enforced meanwhile, since the edits were
accepted once; afterwards all usage is recounted.
-/
import QuotaTree.Request.Attributes
import QuotaTree.Request.Create
import QuotaTree.Request.Limits
import QuotaTree.Request.Recount
import QuotaTree.Request.Rename
import QuotaTree.Request.Write

namespace QuotaTree

namespace Namespace

/-- Make the request that an edit was written for, without its answer. -/
def apply : Edit → Request Unit
  | .mkdirs path permission => mkdirs path permission
  | .create path permission replication blockSize writer overwrite =>
    discard (create path
      { permission
        replication := some replication
        blockSize := some blockSize
        writer
        overwrite })
  | .symlink target link permission createParent =>
    discard (createSymlink target link permission createParent)
  | .addBlock path client block targets => addBlockAs path client block targets
  | .abandonBlock path client block => discard (abandonBlock path client block)
  | .complete path client lastLength => complete path client lastLength
  | .append path writer => append path writer
  | .writeInline path client length => writeInline path client length
  | .truncate path length => truncate path length
  | .delete path recursive => discard (delete path recursive)
  | .rename source destination => rename source destination
  | .setQuota path inodes bytes => setQuota path inodes bytes
  | .setTypeQuota path type limit => setTypeQuota path type limit
  | .setPolicy path policy => setStoragePolicy path policy
  | .setReplication path replication => setReplication path replication

/-- Apply edits in order, up to the first that fails. -/
def applyAll : List Edit → Request Unit
  | [] => pure ()
  | edit :: rest => do
    apply edit
    applyAll rest

/-- Apply a log of edits as history; the namespace counts as loaded afterwards
even if an edit has failed. -/
def replay (edits : List Edit) : Request RecountReport := do
  setImageLoaded false
  try applyAll edits
  finally setImageLoaded true
  recount

end Namespace

end QuotaTree
