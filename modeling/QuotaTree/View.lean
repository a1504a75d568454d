/-
Reading a tree of inodes through a look-up, which may be the stored table or a
request's own picture of it.  A look-up may fail; walks along the links between
inodes stop with a fault if the links have no end.
-/
import QuotaTree.Path
import QuotaTree.Inode

namespace QuotaTree

structure View where
  find : InodeId → Except Error (Option Inode)
  /-- No more inodes than this can be seen. -/
  size : Nat

namespace View

/-- An inode that has to be there. -/
def get (view : View) (id : InodeId) : Except Error Inode := do
  match ← view.find id with
  | some inode => pure inode
  | none => throw (.fault (.dead id))

def childOf (view : View) (id : InodeId) (name : Name) :
    Except Error (Option InodeId) := do
  let inode ← view.get id
  pure (inode.asDirectory.bind fun directory => directory.children[name]?)

def childrenOf (view : View) (id : InodeId) : Except Error (List InodeId) := do
  let inode ← view.get id
  pure inode.children

def parentOf (view : View) (id : InodeId) : Except Error (Option InodeId) := do
  let inode ← view.get id
  pure inode.parent

/-- The names from below the topmost inode down to an inode, in front of names
already known. -/
def namesDownTo (view : View) :
    Nat → InodeId → List Name → Except Error (List Name)
  | 0, id, _ => throw (.fault (.endless id))
  | steps + 1, id, below => do
    let inode ← view.get id
    match inode.parent with
    | none => pure below
    | some parent => view.namesDownTo steps parent (inode.name :: below)

/-- The path at which an inode lives, found through its parents. -/
def fullPath (view : View) (id : InodeId) : Except Error String :=
  Path.ofNames <$> view.namesDownTo (view.size + 1) id []

/-- A level of a tree followed by the levels below it. -/
def levels (view : View) : Nat → List InodeId → Except Error (List InodeId)
  | _, [] => pure []
  | 0, id :: _ => throw (.fault (.endless id))
  | steps + 1, level => do
    let below ← level.mapM view.childrenOf
    let deeper ← view.levels steps below.flatten
    pure (level ++ deeper)

/-- An inode and everything below it, level by level. -/
def subtree (view : View) (id : InodeId) : Except Error (List InodeId) :=
  view.levels (view.size + 1) [id]

/-- The usage of an inode and everything below it, from the tree itself. -/
def usage (view : View) (id : InodeId) : Except Error Counts := do
  let ids ← view.subtree id
  let usages ← ids.mapM fun id => Inode.ownUsage <$> view.get id
  pure (Counts.sum usages)

end View

end QuotaTree
