/-
Why requests never wait for each other in a circle.  Of those that wait, the one
whose inode comes last waits for a request that either waits for a later inode
or does not wait at all.
-/
import QuotaTree.Proofs.Lock.Steps
import Mathlib.Data.Finset.Max
import Mathlib.Data.Fintype.Basic

namespace QuotaTree

namespace LockHolder

def awaited (holder : LockHolder) : Nat :=
  (holder.waiting.head?.map fun item => item.1.val).getD 0

theorem awaited_eq {holder : LockHolder} {id : InodeId} {mode : LockMode}
    {rest : List (InodeId × LockMode)}
    (next : holder.waiting = (id, mode) :: rest) : holder.awaited = id.val := by
  rw [awaited, next]
  rfl

end LockHolder

namespace LockQueue

variable {queue : LockQueue} {id : InodeId} {mode : LockMode}

/-- A request is refused an inode, and all who stand against it are members. -/
def WaitsFor (queue : LockQueue) (members : Finset (Fin queue.holders.length))
    (waiter : Fin queue.holders.length) : Prop :=
  ∃ id mode rest, queue.holders[waiter].waiting = (id, mode) :: rest ∧
    queue.table.take? id mode = none ∧
    ∀ (holder : Fin queue.holders.length) (held : LockMode),
      queue.holders[holder].modeOf id = some held → held.conflicts mode = true →
      holder ∈ members

/-- No requests wait for each other alone, and wherever one waits, one can
move. -/
structure DeadlockFree (queue : LockQueue) : Prop where
  unlocked : ∀ members : Finset (Fin queue.holders.length), members.Nonempty →
    ∃ waiter ∈ members, ¬ queue.WaitsFor members waiter
  moving :
    ∀ waiter ∈ queue.holders, waiter.waiting ≠ [] → ∃ next, queue.Moves next

/-- What is refused is held by one of the requests. -/
theorem Balanced.exists_holder (balanced : queue.Balanced)
    (refused : queue.table.take? id mode = none) :
    ∃ (holder : Fin queue.holders.length) (held : LockMode),
      queue.holders[holder].modeOf id = some held ∧
      held.conflicts mode = true := by
  obtain ⟨held, hconflicts, hcount⟩ :=
    LockTable.exists_conflict_of_take? refused
  obtain ⟨holder, hmem, hheld⟩ :=
    exists_of_holding (balanced.counted id held ▸ hcount)
  obtain ⟨position, hposition, rfl⟩ := List.mem_iff_getElem.1 hmem
  exact ⟨⟨position, hposition⟩, held, hheld, hconflicts⟩

/-- The member that waits for the last inode waits for one that does not wait
for the members. -/
theorem Balanced.unlocked (balanced : queue.Balanced)
    (members : Finset (Fin queue.holders.length))
    (nonempty : members.Nonempty) :
    ∃ waiter ∈ members, ¬ queue.WaitsFor members waiter := by
  by_contra! stuck
  obtain ⟨last, hlast, hmax⟩ := members.exists_max_image
    (fun member => queue.holders[member].awaited) nonempty
  obtain ⟨id, mode, rest, hnext, hrefused, hmembers⟩ := stuck last hlast
  obtain ⟨holder, held, hheld, hconflicts⟩ := balanced.exists_holder hrefused
  have hmember := hmembers holder held hheld hconflicts
  obtain ⟨later, wanted, after, hwaiting, -, -⟩ := stuck holder hmember
  have hturn := balanced.inTurn queue.holders[holder] (List.getElem_mem _)
  have hbelow : id.val < later.val := hturn.below hwaiting hheld
  have hle := hmax holder hmember
  rw [LockHolder.awaited_eq hwaiting, LockHolder.awaited_eq hnext] at hle
  exact absurd hle (Nat.not_le.2 hbelow)

/-- As long as there are requests, one of them can take its next inode or give
everything back. -/
theorem Balanced.exists_moves (balanced : queue.Balanced)
    (busy : queue.holders ≠ []) : ∃ next, queue.Moves next := by
  have hall : (Finset.univ : Finset (Fin queue.holders.length)).Nonempty :=
    ⟨⟨0, List.length_pos_iff.2 busy⟩, Finset.mem_univ _⟩
  obtain ⟨mover, -, hmover⟩ := balanced.unlocked Finset.univ hall
  obtain ⟨before, after, listed⟩ :=
    List.append_of_mem (List.getElem_mem mover.2)
  cases hwaiting : queue.holders[mover].waiting with
  | nil => exact ⟨_, .release listed (List.isEmpty_iff.2 hwaiting)⟩
  | cons item rest =>
    cases hfree : queue.table.take? item.1 item.2 with
    | some table => exact ⟨_, .take listed hwaiting hfree⟩
    | none =>
      exact absurd ⟨item.1, item.2, rest, hwaiting, hfree,
        fun _ _ _ _ => Finset.mem_univ _⟩ hmover

/-- In no state that requests can come to are they locked against each other. -/
theorem deadlockFree_reachable (reachable : queue.Reachable) :
    queue.DeadlockFree where
  unlocked := reachable.balanced.unlocked
  moving _ hmem _ := reachable.balanced.exists_moves (List.ne_nil_of_mem hmem)

/-- Four requests, each but the first of which asks for what the one before it
wants, too. -/
def pendingQueue : LockQueue :=
  let first := (request {} "a" (.ofList [(⟨3⟩, .read)])).2
  let second := (first.request "b" (.ofList [(⟨3⟩, .write)])).2
  let third := (second.request "c" (.ofList [(⟨2⟩, .write), (⟨3⟩, .write)])).2
  (third.request "d" (.ofList [(⟨1⟩, .write), (⟨2⟩, .read)])).2

theorem reachable_pendingQueue : pendingQueue.Reachable :=
  (((Reachable.request .refl _ _).request _ _).request _ _).request _ _

/-- Once the first has given back its lock, the last two wait, one for the
other. -/
def chainedQueue : LockQueue :=
  (pendingQueue.release "a").2

theorem deadlockFree_chainedQueue :
    chainedQueue.Reachable ∧
    chainedQueue.holders.map LockHolder.isGranted = [true, false, false] ∧
      chainedQueue.DeadlockFree := by
  have reachable : chainedQueue.Reachable :=
    reachable_pendingQueue.release (by decide +kernel) (by decide +kernel)
  exact ⟨reachable, by decide +kernel, deadlockFree_reachable reachable⟩

end LockQueue

end QuotaTree
