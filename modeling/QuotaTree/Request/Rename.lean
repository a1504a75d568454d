/-
Moving an inode, with everything below it, to another name or directory.
-/
import QuotaTree.Transaction.Linking

namespace QuotaTree

/-- Where an inode is to be moved. -/
inductive Destination where
  /-- It is there already. -/
  | here
  | into (parent : Chain) (name : Name)

namespace Work

/-- Where the last inode of `source` goes when it is renamed to the destination
path, of which `chain` exists and `rest` is missing: into an existing directory,
or to one new name. -/
def destination (source chain : Chain) (rest : List Name) (isDirectory : Bool)
    (path : String) : Except Error Destination :=
  match rest with
  | [] =>
    if chain.last = source.last then pure .here
    else if isDirectory then pure (.into chain source.lastName)
    else throw (.alreadyExists path)
  | [name] => pure (.into chain name)
  | name :: _ => throw (.missing (Path.child chain.path name.text))

/-- Take a name out of the directory that an inode is moved away from. -/
def detach (directory : InodeId) (name : Name) : Work Unit := do
  let holder ← get directory
  unless holder.isDirectory do
    throw (.fault .entryOfNonDirectory)
  put (holder.withoutChild name)

/-- Move the inode at the end of `source`, which lies below `sourceParent`. -/
def move (source sourceParent parent : Chain) (name : Name) : Work Unit := do
  let id := source.last
  let used ← usage id
  let ids ← subtree id
  let pending ← pendingFor ids
  let tx ← MonadState.get
  if tx.keepsQuota then
    let shared := source.commonAncestor parent
    read (Chain.verifyQuota · parent parent.length used (some shared))
  let inode ← get id
  detach sourceParent.last source.lastName
  verifyEntry parent name
  let _ ← unlink source true (some used)
  -- what is pending below goes along and is merged at the new place
  let counts := used - pending
  try
    let _ ← link parent { inode with name } counts false
  catch error =>
    let _ ← link sourceParent inode counts false
    throw error

/-- Rename what is at the source to the destination, or move it into the
directory there. -/
def renamePath (source destination : String) : Work Unit := do
  let sourceChain ← read (Chain.resolve · source false)
  match sourceChain.parent? with
  | none => throw (.badArgument .renamesRoot)
  | some sourceParent =>
    let (chain, rest) ← read (Chain.resolveExisting · destination false)
    let inode ← get chain.last
    match ← ofExcept (Work.destination sourceChain chain rest inode.isDirectory
      destination) with
    | .here => pure ()
    | .into parent name =>
      if parent.contains sourceChain.last then
        throw (.badArgument (.movesBelowItself source destination))
      unless parent.last = sourceParent.last ∧ name = sourceChain.lastName do
        move sourceChain sourceParent parent name
        journal (.rename source destination)

end Work

namespace Namespace

def rename (source destination : String) : Request Unit := do
  let source ← resolvePath source
  let destination ← resolvePath destination
  let demand : LockDemand :=
    { paths := [
        { path := source, kind := .writeWithParent,
          scope := .subtree, belowMode := .read },
        { path := destination, kind := .writeWithParent }] }
  transact .rename demand (Work.renamePath source destination)

end Namespace

end QuotaTree
