/-
Who holds what.  However the requests take turns, the table says of every inode
how it is held: by readers, as many as there are, or by one writer that is
alone.  What is given back was held, and nothing stays behind.
-/
import QuotaTree.Proofs.Lock.Steps

namespace QuotaTree

namespace LockQueue

variable {queue : LockQueue} {holder : LockHolder} {id : InodeId}
  {mode : LockMode}

/-- The table accounts for all that is held, and each release finds what it
gives back. -/
structure Accounts (queue : LockQueue) : Prop where
  readers : ∀ id, (queue.table.entry id).readers = queue.holding id .read
  writer :
    ∀ id, (queue.table.entry id).writer = true ↔ queue.holding id .write = 1
  alone : ∀ id, 0 < queue.holding id .write →
    queue.holding id .write = 1 ∧ queue.holding id .read = 0
  listed : ∀ id, queue.table.contains id = true ↔
    ∃ holder ∈ queue.holders, (holder.modeOf id).isSome
  emptied :
    (∀ holder ∈ queue.holders, ∀ id, holder.modeOf id = none) → queue.table = ∅
  /-- While a set is given back, each of its inodes is still counted when its
  turn comes. -/
  held : ∀ holder ∈ queue.holders, holder.isGranted = true →
    ∀ before id mode after,
    holder.locks.toList = before ++ (id, mode) :: after →
      0 < (before.foldl (fun table item =>
        LockTable.giveBack table item.1 item.2) queue.table).count id mode

theorem Balanced.readers (balanced : queue.Balanced) (id : InodeId) :
    (queue.table.entry id).readers = queue.holding id .read :=
  balanced.counted id .read

theorem Balanced.writer (balanced : queue.Balanced) (id : InodeId) :
    (queue.table.entry id).writer.toNat = queue.holding id .write :=
  balanced.counted id .write

theorem Balanced.alone (balanced : queue.Balanced)
    (h : 0 < queue.holding id .write) :
    queue.holding id .write = 1 ∧ queue.holding id .read = 0 := by
  rw [← balanced.writer] at h ⊢
  have hwriter : (queue.table.entry id).writer = true := by
    cases hbool : (queue.table.entry id).writer with
    | true => rfl
    | false => rw [hbool] at h; cases h
  rw [← balanced.readers, hwriter]
  exact ⟨rfl, balanced.formed.exclusive id hwriter⟩

theorem Balanced.listed (balanced : queue.Balanced) (id : InodeId) :
    queue.table.contains id = true ↔
    ∃ holder ∈ queue.holders, (holder.modeOf id).isSome := by
  rw [balanced.formed.contains_iff]
  constructor
  · rintro ⟨mode, hmode⟩
    obtain ⟨holder, hmem, hheld⟩ :=
      exists_of_holding (balanced.counted id mode ▸ hmode)
    exact ⟨holder, hmem, Option.isSome_of_mem hheld⟩
  · rintro ⟨holder, hmem, hsome⟩
    obtain ⟨mode, hheld⟩ := Option.isSome_iff_exists.1 hsome
    exact ⟨mode, balanced.counted id mode ▸ holding_pos hmem hheld⟩

theorem Balanced.emptied (balanced : queue.Balanced)
    (free : ∀ holder ∈ queue.holders, ∀ id, holder.modeOf id = none) :
    queue.table = ∅ := by
  refine balanced.formed.eq_empty fun id mode => ?_
  rw [balanced.counted]
  refine Nat.eq_zero_of_not_pos fun hpos => ?_
  obtain ⟨holder, hmem, hheld⟩ := exists_of_holding hpos
  rw [free holder hmem id] at hheld
  cases hheld

/-- Giving back the inodes before it leaves an inode counted, since a set lists
it once. -/
theorem Balanced.held (balanced : queue.Balanced)
    (hmem : holder ∈ queue.holders) (granted : holder.isGranted = true)
    {before after : List (InodeId × LockMode)}
    (splits : holder.locks.toList = before ++ (id, mode) :: after) :
    0 < (before.foldl (fun table item => LockTable.giveBack table item.1 item.2)
      queue.table).count id mode := by
  have hnodup := LockSet.nodup_toList holder.locks
  rw [splits, List.nodup_append] at hnodup
  have hlisted : (id, mode) ∈ holder.locks.toList :=
    splits ▸ List.mem_append_right _ List.mem_cons_self
  have hheld : holder.modeOf id = some mode := by
    rw [LockHolder.modeOf_of_granted granted]
    exact Std.ExtTreeMap.mem_toList_iff_getElem?_eq_some.1 hlisted
  rw [LockTable.count_giveBackAll hnodup.1,
    if_neg (LockSet.not_mem_of_splits splits mode), balanced.counted]
  exact holding_pos hmem hheld

/-- In every state that requests can come to, what is held is accounted for. -/
theorem accounts_reachable (reachable : queue.Reachable) : queue.Accounts := by
  have balanced := reachable.balanced
  refine ⟨balanced.readers, fun id => ?_, fun _ => balanced.alone,
    balanced.listed, balanced.emptied,
    fun _ hmem granted _ _ _ _ => balanced.held hmem granted⟩
  rw [← balanced.writer]
  cases (queue.table.entry id).writer <;> decide

/-- Two readers of one inode, the second of which waits for a writer, and one
more behind it. -/
def crowdedQueue : LockQueue :=
  let writing := (request {} "a" (.ofList [(⟨1⟩, .read), (⟨2⟩, .write)])).2
  let waiting := (writing.request "b"
    (.ofList [(⟨1⟩, .read), (⟨2⟩, .read), (⟨3⟩, .write)])).2
  (waiting.request "c" (.ofList [(⟨3⟩, .read)])).2

theorem reachable_crowdedQueue : crowdedQueue.Reachable :=
  ((Reachable.request .refl _ _).request _ _).request _ _

theorem accounts_crowdedQueue :
    crowdedQueue.Reachable ∧ crowdedQueue.holding ⟨1⟩ .read = 2 ∧
      crowdedQueue.holding ⟨2⟩ .write = 1 ∧
      crowdedQueue.holding ⟨3⟩ .write = 0 ∧
      crowdedQueue.Accounts :=
  ⟨reachable_crowdedQueue, by decide +kernel, by decide +kernel, by
    decide +kernel,
    accounts_reachable reachable_crowdedQueue⟩

end LockQueue

end QuotaTree
