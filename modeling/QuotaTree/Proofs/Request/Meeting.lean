/-
A standard that a namespace meets once it goes on meeting, whatever happens to
it.
-/
import QuotaTree.Proofs.Request.Lasting
import QuotaTree.Proofs.Work.Meeting

namespace QuotaTree

open Nodes

variable {standard : Standard}

namespace Work

variable {α : Type}

theorem FileDeed.upholds {work : Chain → Work α} (deed : FileDeed work)
    (chain : Chain) : Upholds standard (work chain) := by
  cases deed with
  | addBlock client block targets => exact .addBlockAt _ _
  | abandon client block => exact .abandonAt _
  | complete client lastLength => exact .completeAt _
  | append writer => exact .appendAt _
  | writeInline client length => exact .writeInlineAt _
  | truncate path length => exact .truncateAt _

/-- All that requests do to the tree upholds a standard. -/
theorem Deed.upholds {work : Work α} (deed : Deed standard.settable work) :
    Upholds standard work := by
  cases deed with
  | makePath path permission => exact .makePath _ _
  | createFile path options replication blockSize => exact .createFile _ _ _ _
  | symlinkPath target link permission createParent =>
    exact .symlinkPath _ _ _ _
  | deletePath path recursive => exact .deletePath _ _
  | renamePath source destination => exact .renamePath _ _
  | changeLimits path edit set admissible =>
    exact .changeLimits _ set admissible
  | setPolicy path policy => exact .setPolicy _
  | setReplication path replication => exact .setReplication _
  | atFile path following deed =>
    exact (Ensures.read _).bind fun chain _ => deed.upholds chain
  | mergeAll ids => exact .mergeAll ids
  | recountAll => exact .recountAll

end Work

namespace Namespace

/-- All stored inodes and all that is pending meet a standard. -/
structure Meets (ns : Namespace) (standard : Standard) : Prop where
  inode : ∀ {id inode}, ns.table.tree id = some inode → inode.id = id ∧
    inode.Meets standard
  ledger : ns.ledger.Meets standard
  above : standard.since ≤ ns.table.next.val

namespace Meets

variable {ns : Namespace} {operation : Operation} {locks : LockSet}
  {tx : Transaction}

theorem opened (meets : ns.Meets standard) :
    (ns.opened operation locks).Meets standard where
  inode {id inode} h := by
    rw [tree_opened] at h
    exact meets.inode h
  updates _ h := absurd h List.not_mem_nil
  ledger := meets.ledger
  above := meets.above

theorem ledgerAfter (meets : tx.Meets standard) :
    tx.ledgerAfter.Meets standard := by
  unfold Transaction.ledgerAfter
  refine Ledger.Meets.submitAll ?_ meets.updates
  split
  · exact .clear _
  · exact (meets.ledger.remove _).withdrawAll _

theorem commit (meets : tx.Meets standard)
    (ext : (ns.opened operation locks).Extends tx) :
    tx.commit.Meets standard where
  inode {id inode} h := by
    rw [tree_commit ext] at h
    exact meets.inode h
  ledger := by
    rw [ledger_commit]
    exact ledgerAfter meets
  above := by
    rw [next_commit]
    exact meets.above

end Meets

theorem lasting_meets (standard : Standard) :
    Lasting standard.settable (Meets · standard) where
  beside {ns ns'} beside meets :=
    { inode := fun {id inode} h => by
        rw [InodeTable.tree, InodeTable.find?, beside.nodes] at h
        exact meets.inode h
      ledger := beside.ledger ▸ meets.ledger
      above := Nat.le_trans meets.above beside.next }
  dropping ids meets := ⟨meets.inode, meets.ledger.withdrawAll ids, meets.above⟩
  done {_ _ _ _ _ a tx} deed _ meets h :=
    Meets.commit (deed.upholds _ a tx meets.opened h).1
      (deed.frames.extends_of_ok h)

/-- A fresh namespace has a root without limits. -/
theorem meets_fresh (config : Config)
    (since : standard.since ≤ InodeId.firstAllocated.val)
    (root : standard.limits .root (some Counts.unlimited)) :
    (fresh config).Meets standard where
  inode live := by
    obtain ⟨rfl, rfl⟩ := InodeTable.eq_root_of_fresh live
    refine ⟨rfl, root, fun h => ?_⟩
    cases h
    exact standard.oneInode_mem
  ledger _ _ h := by cases h
  above := since

/-- What a namespace meets it meets after every run. -/
theorem Meets.after {ns : Namespace} (meets : ns.Meets standard)
    (settable : standard.settable) (free : ns.locks = ∅) (events : List Event) :
    (ns.after (events.map Event.run)).Meets standard :=
  (lasting_meets standard).after (fun _ _ _ => settable) free meets

end Namespace

end QuotaTree
