/-
Setting the limits of a directory.  A directory keeps a quota as long as one of
its limits is set, the root always.
-/
import QuotaTree.Transaction.Accounting

namespace QuotaTree

namespace Limit

/-- A value that a limit may be set to: none, or not negative. -/
def isLegal (value : Int) : Bool :=
  decide (0 ≤ value) || value == none

/-- The limit that a setter leaves. -/
def change (present value : Int) : Int :=
  if value = keep then present else value

end Limit

namespace Directory

/-- The limits in force, which are none without a quota. -/
def limits (directory : Directory) : Counts :=
  match directory.quota with
  | some quota => quota.limits
  | none => Counts.unlimited

/-- Set the limits.  A quota that is new starts from the usage `cached`; one
without a limit is dropped unless it is to be `kept`. -/
def withLimits (directory : Directory) (limits cached : Counts) (kept : Bool) :
    Directory :=
  match directory.quota with
  | some quota =>
    if limits.anyLimited ∨ kept then
      { directory with quota := some { quota with limits } }
    else { directory with quota := none }
  | none =>
    if limits.anyLimited then { directory with quota := some ⟨limits, cached⟩ }
        else directory

end Directory

/-- Change the limits of the directory at a path.  The root must keep the limit
on inodes. -/
def Work.changeLimits (path : String) (edit : Edit) (liftsInodes : Bool)
    (change : Counts → Counts) : Work Unit := do
  let chain ← Work.read (Chain.resolve · path false)
  let id := chain.last
  if id = .root ∧ liftsInodes then
    throw (.badArgument .liftsRootLimit)
  let ids ← Work.subtree id
  let used ← Work.usage id
  let pending ← Work.pendingFor ids
  let inode ← Work.get id
  match inode.asDirectory with
  | none => throw (.notDirectory path)
  | some directory =>
    let changed := directory.withLimits (change directory.limits)
      (used - pending) (id == .root)
    Work.put (inode.withDirectory changed)
    Work.journal edit

namespace Namespace

def changeLimits (path : String) (edit : Edit) (liftsInodes : Bool)
    (change : Counts → Counts) : Request Unit := do
  let path ← resolvePath path
  let demand := LockDemand.ofPath
    { path, kind := .write, scope := .subtree, belowMode := .read }
  transact .setQuota demand (Work.changeLimits path edit liftsInodes change)

/-- A limit that may not be set. -/
def requireLegal (value : Int) : Request Unit := do
  unless Limit.isLegal value do
    throw (.badArgument (.illegalLimit value))

/-- Set the limits on inodes and on bytes. -/
def setQuota (path : String) (inodes bytes : Int) : Request Unit := do
  requireLegal inodes
  requireLegal bytes
  if inodes = 0 then
    throw (.badArgument .zeroInodeLimit)
  changeLimits path (.setQuota path inodes bytes) (inodes == Limit.none)
    fun limits =>
    { limits with
      inodes := Limit.change limits.inodes inodes
      bytes := Limit.change limits.bytes bytes }

/-- Set the limit on the bytes of one storage type; memory cannot be limited. -/
def setTypeQuota (path : String) (type : StorageType) (limit : Int) :
    Request Unit := do
  if type = .ramDisk then
    throw (.badArgument (.unlimitableType type))
  requireLegal limit
  changeLimits path (.setTypeQuota path type limit) false fun limits =>
    limits.set (.typed type) (Limit.change (limits.get (.typed type)) limit)

end Namespace

end QuotaTree
