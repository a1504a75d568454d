/-
A unit of work on a namespace.  Its writes are kept apart and take effect all at
once when it is committed, together with the quota updates and the edits it has
made; when it is rolled back, only the identities it has used up are gone.  It
may touch no inode that it has neither locked nor made.
-/
import QuotaTree.Lock.Demand
import QuotaTree.Namespace

namespace QuotaTree

structure Transaction where
  /-- The namespace as stored. -/
  base : Namespace
  operation : Operation
  locks : LockSet
  /-- Inodes to store, and with nothing for it an inode to take out. -/
  writes : Std.ExtTreeMap InodeId (Option Inode) := ∅
  created : List InodeId := []
  /-- Quota updates to enter, oldest first. -/
  updates : List (InodeId × Counts) := []
  /-- Numbers of the ledger's updates that have been merged. -/
  merged : List Nat := []
  /-- Inodes whose pending updates are withdrawn. -/
  withdrawn : List InodeId := []
  /-- The whole ledger is emptied. -/
  clearing : Bool := false
  edits : List Edit := []

/-- A piece of work on a transaction; what it has done before it fails stays
done. -/
abbrev Work := EStateM Error Transaction

namespace Transaction

/-- An access in a mode is allowed to an inode that is locked for it or was made
here. -/
def ensureLocked (tx : Transaction) (id : InodeId) (mode : LockMode) :
    Except Error Unit :=
  if tx.locks.holds id mode ∨ id ∈ tx.created then pure ()
  else throw (.fault (.unlocked tx.operation id mode))

/-- An inode as this transaction would leave it. -/
def find? (tx : Transaction) (id : InodeId) : Option Inode :=
  match tx.writes[id]? with
  | some written => written
  | none => tx.base.table.find? id

/-- The tree as this transaction would leave it, as far as it may be read. -/
def view (tx : Transaction) : View where
  find id := do
    tx.ensureLocked id .read
    pure (tx.find? id)
  size := tx.base.table.size + tx.writes.size

/-- Quotas are kept, which they are not while edits are applied again. -/
def keepsQuota (tx : Transaction) : Bool :=
  tx.base.config.quotaEnabled && tx.base.imageLoaded

/-- What is pending at inodes when the updates made here are counted in. -/
def pendingFor (tx : Transaction) (ids : List InodeId) : Counts :=
  tx.base.ledger.outstanding (ids.filter (· ∉ tx.withdrawn)) +
    Counts.sum ((tx.updates.filter (·.1 ∈ ids)).map Prod.snd)

/-- The table lets go of every inode that is to be taken out and is there. -/
def checkRemovals (table : InodeTable) :
    List (InodeId × Option Inode) → Except Fault Unit
  | [] => pure ()
  | (_, some _) :: rest => checkRemovals table rest
  | (id, none) :: rest => do
    if table.contains id then
      let _ ← table.remove id
    checkRemovals table rest

/-- The table with the writes carried out. -/
def tableAfter (tx : Transaction) : InodeTable :=
  tx.writes.toList.foldl
    (fun table write =>
      match write.2 with
      | some inode => table.insert inode
      | none => table.erase write.1)
    tx.base.table

/-- The ledger with the updates made here, and without those that were merged or
withdrawn. -/
def ledgerAfter (tx : Transaction) : Ledger :=
  let ledger := tx.base.ledger.remove tx.merged
  let ledger :=
    if tx.clearing then ledger.clear else ledger.withdrawAll tx.withdrawn
  ledger.submitAll tx.updates

/-- Give back the locks. -/
def unlock (tx : Transaction) (ns : Namespace) : Namespace :=
  { ns with locks := ns.locks.releaseAll tx.locks }

/-- The namespace with everything done here. -/
def commit (tx : Transaction) : Namespace :=
  tx.unlock (({ tx.base with table := tx.tableAfter,
                             ledger := tx.ledgerAfter }).journal tx.edits)

/-- The namespace with nothing done here but the allocation of identities. -/
def rollback (tx : Transaction) : Namespace :=
  tx.unlock tx.base

end Transaction

namespace Work

/-- Read something of the tree. -/
def read {α : Type} (reading : View → Except Error α) : Work α := fun tx =>
  match reading tx.view with
  | .ok value => .ok value tx
  | .error error => .error error tx

def get (id : InodeId) : Work Inode :=
  read (·.get id)

def subtree (id : InodeId) : Work (List InodeId) :=
  read (·.subtree id)

/-- The usage of a subtree, from the tree itself. -/
def usage (id : InodeId) : Work Counts :=
  read (·.usage id)

/-- An identity for an inode that is about to be made. -/
def alloc : Work InodeId := fun tx =>
  match tx.base.table.alloc with
  | .ok (id, table) => .ok id { tx with base := { tx.base with table },
                                        created := id :: tx.created }
  | .error fault => .error (.fault fault) tx

def ensureLocked (id : InodeId) (mode : LockMode) : Work Unit := fun tx =>
  match tx.ensureLocked id mode with
  | .ok () => .ok () tx
  | .error error => .error error tx

/-- Store an inode. -/
def put (inode : Inode) : Work Unit := do
  ensureLocked inode.id .write
  modify fun tx => { tx with writes := tx.writes.insert inode.id (some inode) }

/-- Take out an inode, which must not be the root. -/
def remove (id : InodeId) : Work Unit := do
  if id = .root then throw (.fault .removesRoot)
  ensureLocked id .write
  modify fun tx => { tx with writes := tx.writes.insert id none }

/-- Enter a quota update. -/
def submit (id : InodeId) (delta : Counts) : Work Unit :=
  modify fun tx => { tx with updates := tx.updates ++ [(id, delta)] }

def pendingFor (ids : List InodeId) : Work Counts := do
  let tx ← MonadState.get
  pure (tx.pendingFor ids)

/-- Withdraw what is pending at inodes whose usage is gone. -/
def withdraw (ids : List InodeId) : Work Unit :=
  modify fun tx =>
    { tx with
      withdrawn := tx.withdrawn ++ ids
      updates := tx.updates.filter (·.1 ∉ ids) }

/-- The ledger's updates of an inode, which leave the ledger with this
transaction. -/
def consume (id : InodeId) : Work (List QuotaUpdate) := do
  ensureLocked id .read
  let tx ← MonadState.get
  let updates := tx.base.ledger.updatesOf id
  set { tx with merged := tx.merged ++ updates.map QuotaUpdate.id }
  pure updates

/-- Empty the ledger. -/
def clearLedger : Work Unit :=
  modify fun tx => { tx with clearing := true }

/-- Write an edit to the log. -/
def journal (edit : Edit) : Work Unit :=
  modify fun tx => { tx with edits := tx.edits ++ [edit] }

end Work

namespace Namespace

/-- Take the locks that were planned, and plan again while they are held: if the
tree has moved in between and they are not enough any more, they are given back
and the new plan is tried, as long as there are attempts left. -/
def acquire (ns : Namespace) (demand : LockDemand) :
    Nat → LockSet → Except Error (LockTable × LockSet)
  | 0, _ => throw (.fault (.unstableLocks (ns.config.lockRetries + 1)))
  | attempts + 1, planned =>
    match ns.locks.takeAll planned.toList with
    | (_, (id, _) :: _) => throw (.fault (.contended id))
    | (locks, []) => do
      let replanned ← demand.plan ns.table.view
      if planned.covers replanned then pure (locks, planned)
      else ns.acquire demand attempts replanned

/-- Plan and take the locks of a unit of work. -/
def begin (ns : Namespace) (operation : Operation) (demand : LockDemand) :
    Except Error Transaction := do
  let planned ← demand.plan ns.table.view
  let (table, locks) ← ns.acquire demand (ns.config.lockRetries + 1) planned
  pure { base := { ns with locks := table }, operation, locks }

/-- Carry out work as one unit: everything it does takes effect, or nothing if
it fails.  The root, which the table keeps, comes before all other inodes, so a
refusal to take it out is met before anything has been stored. -/
def transact {α : Type} (operation : Operation) (demand : LockDemand)
    (work : Work α) : Request α := fun ns =>
  match ns.begin operation demand with
  | .error error => .error error ns
  | .ok tx =>
    match work tx with
    | .ok value tx =>
      match Transaction.checkRemovals tx.base.table tx.writes.toList with
      | .ok () => .ok value tx.commit
      | .error fault => .error (.fault fault) tx.rollback
    | .error error tx => .error error tx.rollback

end Namespace

end QuotaTree
