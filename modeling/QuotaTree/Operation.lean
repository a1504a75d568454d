/-
The kinds of request that run as one unit, as messages name them.
-/
namespace QuotaTree

inductive Operation where
  | mkdirs
  | create
  | createSymlink
  | addBlock
  | abandonBlock
  | complete
  | append
  | writeInline
  | truncate
  | delete
  | rename
  | setQuota
  | setStoragePolicy
  | setReplication
  | getFileInfo
  | getListing
  | getQuotaUsage
  | computeQuotaUsage
  | contentSummary
  | mergeQuotaUpdates
  | recomputeQuota
  deriving DecidableEq, Repr, Inhabited

namespace Operation

def all : List Operation :=
  [.mkdirs, .create, .createSymlink, .addBlock, .abandonBlock, .complete,
    .append, .writeInline, .truncate, .delete, .rename, .setQuota,
    .setStoragePolicy, .setReplication, .getFileInfo, .getListing,
    .getQuotaUsage, .computeQuotaUsage, .contentSummary, .mergeQuotaUpdates,
    .recomputeQuota]

@[simp] theorem mem_all (operation : Operation) : operation ∈ all := by
  cases operation <;> decide

def name : Operation → String
  | .mkdirs => "Mkdirs"
  | .create => "Create"
  | .createSymlink => "CreateSymlink"
  | .addBlock => "AddBlock"
  | .abandonBlock => "AbandonBlock"
  | .complete => "Complete"
  | .append => "Append"
  | .writeInline => "WriteInline"
  | .truncate => "Truncate"
  | .delete => "Delete"
  | .rename => "Rename"
  | .setQuota => "SetQuota"
  | .setStoragePolicy => "SetStoragePolicy"
  | .setReplication => "SetReplication"
  | .getFileInfo => "GetFileInfo"
  | .getListing => "GetListing"
  | .getQuotaUsage => "GetQuotaUsage"
  | .computeQuotaUsage => "ComputeQuotaUsage"
  | .contentSummary => "ContentSummary"
  | .mergeQuotaUpdates => "MergeQuotaUpdates"
  | .recomputeQuota => "RecomputeQuota"

/-- The operation of exactly this name. -/
def ofName? (text : String) : Option Operation :=
  all.find? (·.name == text)

end Operation

end QuotaTree
