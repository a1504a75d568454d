/-
The ledger of pending quota updates.  A change of usage is entered under the
inode it happened at and stays until it is merged into the quotas above that
inode, or withdrawn.  Updates are found both by their number, which grows with
every entry, and by their inode.
-/
import QuotaTree.Counts
import QuotaTree.InodeId

namespace QuotaTree

/-- A change of usage that no quota has taken in yet. -/
structure QuotaUpdate where
  id : Nat
  inode : InodeId
  delta : Counts
  deriving DecidableEq, Repr

structure Ledger where
  nextId : Nat := 0
  updates : Std.ExtTreeMap Nat QuotaUpdate := ∅
  /-- The numbers of an inode's updates, in ascending order. -/
  byInode : Std.ExtTreeMap InodeId (List Nat) := ∅
  deriving DecidableEq

namespace Ledger

def empty : Ledger := {}

/-- All updates in the order of their submission. -/
def toList (ledger : Ledger) : List QuotaUpdate :=
  ledger.updates.toList.map Prod.snd

def size (ledger : Ledger) : Nat :=
  ledger.updates.size

/-- The numbers of the updates of an inode. -/
def idsOf (ledger : Ledger) (inode : InodeId) : List Nat :=
  (ledger.byInode[inode]?).getD []

/-- The updates of an inode, oldest first. -/
def updatesOf (ledger : Ledger) (inode : InodeId) : List QuotaUpdate :=
  (ledger.idsOf inode).filterMap fun id => ledger.updates[id]?

/-- The sum of what is pending at inodes, once for each time that one is
listed. -/
def outstanding (ledger : Ledger) (inodes : List InodeId) : Counts :=
  Counts.sum ((inodes.flatMap ledger.updatesOf).map QuotaUpdate.delta)

/-- The inodes with updates, each once, by the age of its oldest update. -/
def targets (ledger : Ledger) : List InodeId :=
  (ledger.toList.map QuotaUpdate.inode).eraseDups

/-- Enter an update under the next number. -/
def submit (ledger : Ledger) (inode : InodeId) (delta : Counts) : Ledger where
  nextId := ledger.nextId + 1
  updates := ledger.updates.insert ledger.nextId ⟨ledger.nextId, inode, delta⟩
  byInode := ledger.byInode.insert inode (ledger.idsOf inode ++ [ledger.nextId])

/-- Enter all updates of a list that change anything. -/
def submitAll (ledger : Ledger) (entries : List (InodeId × Counts)) : Ledger :=
  entries.foldl
    (fun ledger entry => if entry.2.isZero then ledger
      else ledger.submit entry.1 entry.2) ledger

/-- Withdraw all updates of an inode. -/
def withdraw (ledger : Ledger) (inode : InodeId) : Ledger where
  nextId := ledger.nextId
  updates := (ledger.idsOf inode).foldl Std.ExtTreeMap.erase ledger.updates
  byInode := ledger.byInode.erase inode

/-- Withdraw all updates of several inodes. -/
def withdrawAll (ledger : Ledger) (inodes : List InodeId) : Ledger :=
  inodes.foldl withdraw ledger

/-- Remove one update; an inode left without any is no longer listed. -/
def removeOne (ledger : Ledger) (id : Nat) : Ledger :=
  match ledger.updates[id]? with
  | none => ledger
  | some update =>
    let left := (ledger.idsOf update.inode).filter (· != id)
    { ledger with
      updates := ledger.updates.erase id
      byInode :=
        if left.isEmpty then ledger.byInode.erase update.inode
        else ledger.byInode.insert update.inode left }

/-- Remove updates by their numbers. -/
def remove (ledger : Ledger) (ids : List Nat) : Ledger :=
  ids.foldl removeOne ledger

/-- Remove everything; numbers go on from where they were. -/
def clear (ledger : Ledger) : Ledger :=
  { ledger with updates := ∅, byInode := ∅ }

end Ledger

namespace LedgerExamples

def sample : Ledger :=
  Ledger.empty.submitAll
    [(⟨9⟩, { inodes := 1 }), (⟨4⟩, {}), (⟨1⟩, { inodes := 2 }),
      (⟨9⟩, { inodes := 3 })]

example : sample.targets = [⟨9⟩, ⟨1⟩] := by decide +kernel
example : sample.outstanding [⟨9⟩, ⟨9⟩] = { inodes := 8 } := by decide +kernel
example : (sample.remove [0, 2]).byInode.toList = [(⟨1⟩, [1])] := by
  decide +kernel
example : (sample.withdraw ⟨9⟩).toList = [⟨1, ⟨1⟩, { inodes := 2 }⟩] := by
  decide +kernel

end LedgerExamples

end QuotaTree
