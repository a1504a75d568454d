/-
What a request asks to have locked, and which inodes that comes to in a given
tree.  Along a path every inode is locked for reading and the last one in the
mode asked for; if components are missing, the last one is the deepest that
exists.
-/
import QuotaTree.Chain.Resolve

namespace QuotaTree

/-- How the inode at the end of a path is locked. -/
inductive LockKind where
  | read
  | write
  /-- Also for writing its parent, by requests that add or remove a name. -/
  | writeWithParent
  deriving DecidableEq, Repr

def LockKind.mode : LockKind → LockMode
  | .read => .read
  | .write => .write
  | .writeWithParent => .write

/-- What is locked below the end of a path. -/
inductive LockScope where
  | path
  | children
  | subtree
  deriving DecidableEq, Repr

structure PathLock where
  path : String
  kind : LockKind
  scope : LockScope := .path
  /-- The mode in which inodes below the end of the path are locked. -/
  belowMode : LockMode := kind.mode
  /-- A symlink at the end of the path is followed; the link stays locked for
  reading. -/
  following : Bool := false
  deriving DecidableEq, Repr

namespace PathLock

/-- All inodes of a chain for reading. -/
def reading (chain : Chain) : List (InodeId × LockMode) :=
  chain.ids.map fun id => (id, .read)

/-- The inodes below the end of the chain that lie in the scope of the lock. -/
def below (lock : PathLock) (view : View) (chain : Chain) :
    Except Error (List (InodeId × LockMode)) := do
  let ids ← match lock.scope with
    | .path => pure []
    | .children => view.childrenOf chain.last
    | .subtree => List.tail <$> view.subtree chain.last
  pure (ids.map fun id => (id, lock.belowMode))

/-- The parent, if it is to be locked for writing. -/
def above (lock : PathLock) (chain : Chain) : List (InodeId × LockMode) :=
  match lock.kind, chain.parent? with
  | .writeWithParent, some parent => [(parent.last, .write)]
  | _, _ => []

def demands (lock : PathLock) (view : View) :
    Except Error (List (InodeId × LockMode)) := do
  let link ← if lock.following then do
      let (chain, _) ← Chain.resolveExisting view lock.path false
      pure (reading chain)
    else pure []
  let (chain, rest) ← Chain.resolveExisting view lock.path lock.following
  let along := link ++ reading chain ++ [(chain.last, lock.kind.mode)]
  match rest with
  | _ :: _ => pure along
  | [] => do
    let inScope ← lock.below view chain
    pure (along ++ lock.above chain ++ inScope)

end PathLock

/-- Everything that one request asks to have locked. -/
structure LockDemand where
  paths : List PathLock := []
  ids : List (InodeId × LockMode) := []
  /-- Inodes with all their ancestors: directories with a quota for writing, the
  rest for reading. -/
  quotaChains : List InodeId := []
  deriving DecidableEq, Repr

namespace LockDemand

/-- From an inode up to the topmost one. -/
def upward (view : View) :
    Nat → InodeId → Except Error (List (InodeId × LockMode))
  | 0, id => throw (.fault (.endless id))
  | steps + 1, id =>
    match view.get id with
    | .error _ => throw (.missing id.tag)
    | .ok inode => do
      let mode := if inode.quota.isSome then LockMode.write else LockMode.read
      let rest ← match inode.parent with
        | some parent => upward view steps parent
        | none => pure []
      pure ((id, mode) :: rest)

/-- The inodes to lock, each in the weakest mode that serves all that is
asked. -/
def plan (demand : LockDemand) (view : View) : Except Error LockSet := do
  let alongPaths ← demand.paths.mapM fun lock => lock.demands view
  let alongChains ← demand.quotaChains.mapM (upward view (view.size + 1))
  pure
    (LockSet.ofList (alongPaths.flatten ++ demand.ids ++ alongChains.flatten))

/-- A single path. -/
def ofPath (lock : PathLock) : LockDemand :=
  { paths := [lock] }

end LockDemand

end QuotaTree
