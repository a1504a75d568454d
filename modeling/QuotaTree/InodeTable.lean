/-
The table of stored inodes, with the identity to give out next.
-/
import QuotaTree.View

namespace QuotaTree

structure InodeTable where
  nodes : Std.ExtTreeMap InodeId Inode
  next : InodeId
  deriving DecidableEq

namespace InodeTable

/-- The root: a directory without limits that counts itself. -/
def newRoot (permission : Permission) : Inode where
  id := .root
  name := .empty
  permission := permission
  content := .directory { quota := some ⟨Counts.unlimited, Counts.oneInode⟩ }

/-- A table that holds only the root. -/
def fresh (permission : Permission) : InodeTable where
  nodes := (∅ : Std.ExtTreeMap InodeId Inode).insert .root (newRoot permission)
  next := .firstAllocated

def find? (table : InodeTable) (id : InodeId) : Option Inode :=
  table.nodes[id]?

def contains (table : InodeTable) (id : InodeId) : Bool :=
  (table.find? id).isSome

def size (table : InodeTable) : Nat :=
  table.nodes.size

/-- Give out an identity. -/
def alloc (table : InodeTable) : Except Fault (InodeId × InodeTable) :=
  match table.next.next? with
  | some following => .ok (table.next, { table with next := following })
  | none => .error .idsExhausted

/-- Store an inode under its identity. -/
def insert (table : InodeTable) (inode : Inode) : InodeTable :=
  { table with nodes := table.nodes.insert inode.id inode }

def erase (table : InodeTable) (id : InodeId) : InodeTable :=
  { table with nodes := table.nodes.erase id }

/-- Take out an inode, which must be there and must not be the root. -/
def remove (table : InodeTable) (id : InodeId) :
    Except Fault (Inode × InodeTable) :=
  if id = .root then .error .removesRoot
  else
    match table.find? id with
    | some inode => .ok (inode, table.erase id)
    | none => .error (.dead id)

/-- The table as it is read. -/
def view (table : InodeTable) : View where
  find id := .ok (table.find? id)
  size := table.size

@[simp] theorem find?_insert (table : InodeTable) (inode : Inode)
    (id : InodeId) :
    (table.insert inode).find? id = if inode.id = id then
      some inode else table.find? id := by
  simp [find?, insert, Std.ExtTreeMap.getElem?_insert]

@[simp] theorem find?_erase (table : InodeTable) (removed id : InodeId) :
    (table.erase removed).find? id = if removed = id then
      none else table.find? id := by
  simp [find?, erase, Std.ExtTreeMap.getElem?_erase]

@[simp] theorem find?_fresh (permission : Permission) (id : InodeId) :
    (fresh permission).find? id = if .root = id then some (newRoot permission)
      else none := by
  simp [find?, fresh, Std.ExtTreeMap.getElem?_insert]

/-- Tables that agree on every inode and on the next identity are the same. -/
theorem ext_find? {left right : InodeTable}
    (found : ∀ id, left.find? id = right.find? id)
    (next : left.next = right.next) : left = right := by
  cases left
  cases right
  congr 1
  exact Std.ExtTreeMap.ext_getElem? found

end InodeTable

end QuotaTree
