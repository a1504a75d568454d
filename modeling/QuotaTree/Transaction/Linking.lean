/-
Putting inodes below a directory and taking them out, with their usage.
-/
import QuotaTree.Transaction.Accounting

namespace QuotaTree

namespace Work

/-- A name of this length may be entered into a directory of this size. -/
def checkEntry (view : View) (config : Config) (parent : Chain) (name : Name) :
    Except Error Unit := do
  if config.maxNameLength ≠ 0 ∧ config.maxNameLength < name.length then
    throw (.nameTooLong name.text parent.path config.maxNameLength name.length)
  if config.maxEntries ≠ 0 then
    let inode ← view.get parent.last
    let count := inode.entries.length
    if config.maxEntries ≤ count then
      throw (.tooManyEntries parent.path config.maxEntries count)

/-- The limits on names and directories allow one more entry; they are not
enforced while edits are applied again. -/
def verifyEntry (parent : Chain) (name : Name) : Work Unit := do
  let tx ← MonadState.get
  if tx.base.imageLoaded then
    read (checkEntry · tx.base.config parent name)

/-- Put an inode below the last one of a chain, accounting for the usage that
comes with it. -/
def link (parent : Chain) (inode : Inode) (counts : Counts) (checked : Bool) :
    Work Chain := do
  if parent.length = 1 ∧ inode.name = Name.ofText reservedName then
    throw (.reservedName reservedName)
  let holder ← get parent.last
  unless holder.isDirectory do
    throw (.parentNotDirectory parent.path)
  if checked then
    verifyEntry parent inode.name
  account parent parent.length counts checked
  match holder.asDirectory with
  | none => throw (.fault .lostDirectory)
  | some directory =>
    let extended := parent.child inode.name inode.id
    if directory.children.contains inode.name then
      account parent parent.length (-counts) false
      throw (.alreadyExists extended.path)
    put (holder.withDirectory
      { directory with
        children := directory.children.insert inode.name inode.id })
    put { inode with parent := some parent.last }
    pure extended

/-- Put a new inode below the last one of a chain, with its own usage. -/
def linkNew (parent : Chain) (inode : Inode) : Work Chain :=
  link parent inode inode.ownUsage true

/-- Take a name out of a directory. -/
def dropEntry (directory : InodeId) (name : Name) : Work Unit := do
  let holder ← get directory
  put (holder.withoutChild name)

/-- Take out all inodes of a list. -/
def removeAll : List InodeId → Work Unit
  | [] => pure ()
  | id :: rest => do
    remove id
    removeAll rest

/-- Take the usage of the chain's last inode off the inodes above, and unless it
is only `moving` take out the inode with everything below it.  What is pending
below a moving inode stays, to be merged where it will then live.  The usage is
found from the tree if it is not given. -/
def unlink (chain : Chain) (moving : Bool) (given : Option Counts) :
    Work Counts := do
  match chain.parent? with
  | none => throw (.fault .removesRoot)
  | some parent =>
    let ids ← subtree chain.last
    let used ← match given with
      | some counts => pure counts
      | none => usage chain.last
    -- the quotas above know only of what has been merged
    let pending ← pendingFor ids
    accountAbove chain (pending - used) false
    unless moving do
      dropEntry parent.last chain.lastName
      removeAll ids.reverse
      withdraw ids
    pure used

/-- Take out the chain's last inode, which must have nothing below it. -/
def unlinkLeaf (chain : Chain) : Work Inode := do
  match chain.parent? with
  | none => throw (.fault .removesRoot)
  | some parent =>
    let inode ← get chain.last
    if inode.entries ≠ [] then
      throw (.directoryNotEmpty chain.path)
    let pending ← pendingFor [chain.last]
    accountAbove chain (pending - inode.ownUsage) false
    dropEntry parent.last chain.lastName
    remove chain.last
    withdraw [chain.last]
    pure inode

end Work

end QuotaTree
