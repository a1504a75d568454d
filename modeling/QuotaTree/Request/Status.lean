/-
Reading the tree: the status of an inode, the entries of a directory, and what a
directory is allowed and uses.
-/
import QuotaTree.Transaction

namespace QuotaTree

inductive FileKind where
  | directory
  | file
  | symlink
  deriving DecidableEq, Repr

/-- What is told of an inode. -/
structure Status where
  id : InodeId
  name : String
  kind : FileKind
  permission : Permission
  length : Nat := 0
  replication : Nat := 0
  blockSize : Nat := 0
  blocks : Nat := 0
  policy : Option StoragePolicy := none
  target : Option String := none
  entries : Nat := 0
  isOpen : Bool := false
  deriving DecidableEq, Repr

def Inode.status (inode : Inode) : Status :=
  match inode.content with
  | .directory directory =>
    { id := inode.id
      name := inode.name.text
      kind := .directory
      permission := inode.permission
      policy := directory.policy
      entries := inode.entries.length }
  | .file file =>
    { id := inode.id
      name := inode.name.text
      kind := .file
      permission := inode.permission
      length := file.size
      replication := file.replication
      blockSize := file.blockSize
      blocks := file.blocks.length
      policy := some file.policy
      isOpen := file.isOpen }
  | .symlink target =>
    { id := inode.id
      name := inode.name.text
      kind := .symlink
      permission := inode.permission
      target := some target }

namespace Namespace

/-- The status of the inode at a path, following a symlink at the end or telling
of the link. -/
def status (path : String) (following : Bool) : Request Status := do
  let path ← resolvePath path
  transact .getFileInfo (.ofPath { path, kind := .read, following }) do
    let chain ← Work.read (Chain.resolve · path following)
    let inode ← Work.get chain.last
    pure inode.status

/-- The entries of the directory at a path, in the order of their names;
anything else is listed as itself. -/
def listing (path : String) : Request (List Status) := do
  let path ← resolvePath path
  let demand := LockDemand.ofPath
    { path, kind := .read, scope := .children, following := true }
  transact .getListing demand do
    let chain ← Work.read (Chain.resolve · path true)
    let inode ← Work.get chain.last
    if inode.isDirectory then
      inode.children.mapM fun id => Inode.status <$> Work.get id
    else pure [inode.status]

/-- The limits and the cached usage of a directory with a quota. -/
def quotaUsage (path : String) : Request (Option Quota) := do
  let path ← resolvePath path
  transact .getQuotaUsage (.ofPath { path, kind := .read }) do
    let chain ← Work.read (Chain.resolve · path false)
    let inode ← Work.get chain.last
    pure inode.quota

/-- The usage of the subtree at a path, found by walking it. -/
def computeUsage (path : String) : Request Counts := do
  let path ← resolvePath path
  transact .computeQuotaUsage
    (.ofPath { path, kind := .read, scope := .subtree }) do
    let chain ← Work.read (Chain.resolve · path false)
    Work.usage chain.last

/-- The inodes along a path. -/
def chainOf (path : String) (following : Bool) : Request Chain := do
  let path ← resolvePath path
  transact .getFileInfo (.ofPath { path, kind := .read, following }) do
    Work.read (Chain.resolve · path following)

end Namespace

end QuotaTree
