/-
The table of locks: which inodes are held, by how many readers or by a writer.
An inode that nobody holds has no entry.
-/
import QuotaTree.Lock.Mode

namespace QuotaTree

structure LockEntry where
  readers : Nat := 0
  writer : Bool := false
  deriving DecidableEq, Repr, Inhabited

namespace LockEntry

/-- The mode in which the inode is held. -/
def held (entry : LockEntry) : Option LockMode :=
  if entry.writer then some .write
  else if 0 < entry.readers then some .read
  else none

/-- Hold the inode once more, unless that conflicts with how it is held. -/
def take? (entry : LockEntry) (mode : LockMode) : Option LockEntry :=
  if entry.held.any (·.conflicts mode) then none
  else
    match mode with
    | .read => some { entry with readers := entry.readers + 1 }
    | .write => some { entry with writer := true }

def giveBack (entry : LockEntry) : LockMode → LockEntry
  | .read => { entry with readers := entry.readers - 1 }
  | .write => { entry with writer := false }

def isFree (entry : LockEntry) : Bool :=
  entry.held.isNone

end LockEntry

/-- The inodes that are held by somebody. -/
abbrev LockTable := Std.ExtTreeMap InodeId LockEntry

namespace LockTable

def entry (table : LockTable) (id : InodeId) : LockEntry :=
  (table[id]?).getD {}

/-- Hold an inode, unless its holders stand against it. -/
def take? (table : LockTable) (id : InodeId) (mode : LockMode) :
    Option LockTable :=
  ((table.entry id).take? mode).map (table.insert id)

/-- Give back one hold of an inode. -/
def giveBack (table : LockTable) (id : InodeId) (mode : LockMode) : LockTable :=
  match table[id]? with
  | none => table
  | some entry =>
    let left := entry.giveBack mode
    if left.isFree then table.erase id else table.insert id left

/-- Hold inodes one after the other up to the first one that has to be waited
for; those that are left are returned with the table. -/
def takeAll (table : LockTable) :
    List (InodeId × LockMode) → LockTable × List (InodeId × LockMode)
  | [] => (table, [])
  | (id, mode) :: rest =>
    match table.take? id mode with
    | some table => table.takeAll rest
    | none => (table, (id, mode) :: rest)

/-- Give back a whole set. -/
def releaseAll (table : LockTable) (locks : LockSet) : LockTable :=
  locks.toList.foldl (fun table item => table.giveBack item.1 item.2) table

end LockTable

end QuotaTree
