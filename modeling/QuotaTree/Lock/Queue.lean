/-
Requests for sets of locks, standing in the order in which they were made.  Each
takes its inodes in ascending order, keeps what it has taken while it waits for
the next one, and gives everything back at once.
-/
import QuotaTree.Lock.Table

namespace QuotaTree

/-- A request that has got, or is still getting, its locks. -/
structure LockHolder where
  name : String
  locks : LockSet
  /-- What has not been taken yet, the inode waited for in front. -/
  waiting : List (InodeId × LockMode)

namespace LockHolder

def isGranted (holder : LockHolder) : Bool :=
  holder.waiting.isEmpty

/-- Take as much as can be taken now. -/
def advance (holder : LockHolder) (table : LockTable) :
    LockTable × LockHolder :=
  let (table, waiting) := table.takeAll holder.waiting
  (table, { holder with waiting })

end LockHolder

structure LockQueue where
  table : LockTable := ∅
  holders : List LockHolder := []

namespace LockQueue

/-- Ask for a set of locks. -/
def request (queue : LockQueue) (name : String) (locks : LockSet) :
    LockHolder × LockQueue :=
  let (table, holder) :=
    LockHolder.advance ⟨name, locks, locks.toList⟩ queue.table
  (holder, { table, holders := queue.holders ++ [holder] })

def holder? (queue : LockQueue) (name : String) : Option LockHolder :=
  queue.holders.find? (·.name == name)

/-- Let every request take what it can, the oldest first. -/
def advanceAll : LockTable → List LockHolder → LockTable × List LockHolder
  | table, [] => (table, [])
  | table, holder :: rest =>
    let (table, holder) := holder.advance table
    let (table, rest) := advanceAll table rest
    (table, holder :: rest)

/-- Give back a granted set; the requests that this grants are returned with the
queue. -/
def release (queue : LockQueue) (name : String) : List LockHolder × LockQueue :=
  match queue.holder? name with
  | none => ([], queue)
  | some released =>
    let waiting := (queue.holders.filter (·.name != name))
    let (table, holders) :=
      advanceAll (queue.table.releaseAll released.locks) waiting
    let granted := (waiting.zip holders).filter fun pair => !pair.1.isGranted &&
      pair.2.isGranted
    (granted.map Prod.snd, { table, holders })

end LockQueue

end QuotaTree
