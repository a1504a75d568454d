/-
Requests for locks that take turns in any order.  What the table counts is,
after every step, what the requests hold together; and what a request still
waits for comes after all that it has taken.
-/
import QuotaTree.Lock.Queue
import QuotaTree.Proofs.Lock.Counts
import Mathlib.Logic.Relation

namespace QuotaTree

namespace LockSet

variable {locks : LockSet} {before after : List (InodeId × LockMode)}
  {id later : InodeId} {mode wanted : LockMode}

theorem nodup_toList (locks : LockSet) : locks.toList.Nodup :=
  .of_map Prod.fst (LockTable.nodup_toList locks)

/-- A set is listed by ascending inodes. -/
theorem ascending (splits : locks.toList = before ++ (later, wanted) :: after)
    (taken : (id, mode) ∈ before) : id.val < later.val := by
  have hpairwise := Std.ExtTreeMap.ordered_keys_toList (t := locks)
  rw [splits, List.pairwise_append] at hpairwise
  have hlt : compare id later = .lt :=
    hpairwise.2.2 _ taken _ List.mem_cons_self
  exact Nat.compare_eq_lt.1 hlt

/-- Of an inode that is listed later nothing is listed before. -/
theorem not_mem_of_splits
    (splits : locks.toList = before ++ (id, wanted) :: after)
    (mode : LockMode) : (id, mode) ∉ before :=
  fun h => Nat.lt_irrefl _ (ascending splits h)

end LockSet

namespace LockHolder

variable {holder : LockHolder} {taken rest : List (InodeId × LockMode)}
  {id other : InodeId} {mode wanted : LockMode}

def modeOf (holder : LockHolder) (id : InodeId) : Option LockMode :=
  if id ∈ holder.waiting.map Prod.fst then none else holder.locks[id]?

/-- The request has taken its locks up to the one that it waits for. -/
def InTurn (holder : LockHolder) : Prop :=
  holder.waiting <:+ holder.locks.toList

theorem modeOf_eq_some
    (splits : taken ++ holder.waiting = holder.locks.toList) :
    holder.modeOf id = some mode ↔ (id, mode) ∈ taken := by
  have hnodup := LockTable.nodup_toList holder.locks
  rw [← splits, List.map_append, List.nodup_append] at hnodup
  rw [modeOf]
  split
  · next hwaiting =>
    refine ⟨fun h => (nomatch h), fun htaken => ?_⟩
    exact absurd rfl
      (hnodup.2.2 id (List.mem_map.2 ⟨_, htaken, rfl⟩) id hwaiting)
  · next hwaiting =>
    rw [← Std.ExtTreeMap.mem_toList_iff_getElem?_eq_some, ← splits,
      List.mem_append]
    refine or_iff_left fun h => hwaiting (List.mem_map.2 ⟨_, h, rfl⟩)

theorem modeOf_of_granted (granted : holder.isGranted = true) (id : InodeId) :
    holder.modeOf id = holder.locks[id]? := by
  rw [isGranted, List.isEmpty_iff] at granted
  simp [modeOf, granted]

/-- Nothing is held of the inode that is waited for. -/
theorem modeOf_next (next : holder.waiting = (id, mode) :: rest) :
    holder.modeOf id = none := by
  rw [modeOf, next, List.map_cons, if_pos List.mem_cons_self]

/-- What is held is below what is waited for. -/
theorem InTurn.below (inTurn : holder.InTurn)
    (next : holder.waiting = (id, mode) :: rest)
    (held : holder.modeOf other = some wanted) : other.val < id.val := by
  obtain ⟨taken, splits⟩ := inTurn
  have htaken := (modeOf_eq_some splits).1 held
  rw [next] at splits
  exact LockSet.ascending splits.symm htaken

theorem InTurn.tail (inTurn : holder.InTurn)
    (next : holder.waiting = (id, mode) :: rest) :
    InTurn { holder with waiting := rest } := by
  rw [InTurn, next] at inTurn
  exact (List.suffix_cons _ _).trans inTurn

/-- A request that has taken one more inode holds this one in addition. -/
theorem InTurn.modeOf_tail (inTurn : holder.InTurn)
    (next : holder.waiting = (id, mode) :: rest) :
    modeOf { holder with waiting := rest } other = some wanted ↔
      holder.modeOf other = some wanted ∨ (other, wanted) = (id, mode) := by
  obtain ⟨taken, splits⟩ := inTurn
  have hsplits : (taken ++ [(id, mode)]) ++ rest = holder.locks.toList := by
    rw [← splits, next, List.append_assoc, List.singleton_append]
  rw [modeOf_eq_some splits, modeOf_eq_some hsplits, List.mem_append,
    List.mem_singleton]

end LockHolder

namespace LockQueue

open Relation

variable {queue next : LockQueue} {holder : LockHolder}
  {before after : List LockHolder} {table : LockTable} {id : InodeId}
  {mode : LockMode} {rest : List (InodeId × LockMode)}

def holding (queue : LockQueue) (id : InodeId) (mode : LockMode) : Nat :=
  queue.holders.countP fun holder => holder.modeOf id = some mode

/-- A request takes the next one of its inodes, or gives everything back once it
has got it. -/
inductive Moves (queue : LockQueue) : LockQueue → Prop
  | take {before after : List LockHolder} {holder : LockHolder} {id : InodeId}
      {mode : LockMode} {rest : List (InodeId × LockMode)} {table : LockTable}
      (listed : queue.holders = before ++ holder :: after)
      (next : holder.waiting = (id, mode) :: rest)
      (free : queue.table.take? id mode = some table) :
    Moves queue ⟨table, before ++ { holder with waiting := rest } :: after⟩
  | release {before after : List LockHolder} {holder : LockHolder}
      (listed : queue.holders = before ++ holder :: after)
      (granted : holder.isGranted = true) :
    Moves queue ⟨queue.table.releaseAll holder.locks, before ++ after⟩

/-- A request is made, or one of those that were made moves. -/
inductive Step (queue : LockQueue) : LockQueue → Prop
  | arrive (name : String) (locks : LockSet) :
    Step queue
      { queue with holders := queue.holders ++ [⟨name, locks, locks.toList⟩] }
  | moves {next : LockQueue} (moves : queue.Moves next) : Step queue next

/-- What any number of requests can come to from the beginning. -/
abbrev Reachable (queue : LockQueue) : Prop :=
  ReflTransGen Step {} queue

/-- The table counts what the requests hold, each of which has taken its locks
in turn. -/
structure Balanced (queue : LockQueue) : Prop where
  formed : queue.table.Formed
  inTurn : ∀ holder ∈ queue.holders, holder.InTurn
  counted : ∀ id mode, queue.table.count id mode = queue.holding id mode

theorem balanced_empty : Balanced {} where
  formed := LockTable.formed_empty
  inTurn _ h := nomatch h
  counted id mode := LockTable.count_empty id mode

/-- What is held is held by one of the requests and by the others. -/
theorem holding_of_listed (listed : queue.holders = before ++ holder :: after)
    (id : InodeId) (mode : LockMode) :
    queue.holding id mode = holding ⟨queue.table, before ++ after⟩ id mode +
        if holder.modeOf id = some mode then 1 else 0 := by
  simp only [holding, listed, List.countP_append, List.countP_cons,
    decide_eq_true_eq, Nat.add_assoc]

/-- Who holds an inode is among the requests. -/
theorem exists_of_holding (h : 0 < queue.holding id mode) :
    ∃ holder ∈ queue.holders, holder.modeOf id = some mode := by
  obtain ⟨holder, hmem, hmode⟩ := List.countP_pos_iff.1 h
  exact ⟨holder, hmem, of_decide_eq_true hmode⟩

theorem holding_pos (listed : holder ∈ queue.holders)
    (held : holder.modeOf id = some mode) : 0 < queue.holding id mode :=
  List.countP_pos_iff.2 ⟨holder, listed, decide_eq_true held⟩

theorem Balanced.arrive (balanced : queue.Balanced) (name : String)
    (locks : LockSet) :
    Balanced { queue with
      holders := queue.holders ++ [⟨name, locks, locks.toList⟩] } := by
  let arrived : LockHolder := ⟨name, locks, locks.toList⟩
  refine ⟨balanced.formed, fun holder hmem => ?_, fun id mode => ?_⟩
  · rcases List.mem_append.1 hmem with hmem | hmem
    · exact balanced.inTurn holder hmem
    · cases List.mem_singleton.1 hmem
      exact List.suffix_refl _
  · have hnone : arrived.modeOf id ≠ some mode := fun h =>
      List.not_mem_nil ((LockHolder.modeOf_eq_some (List.nil_append _)).1 h)
    rw [holding_of_listed rfl, if_neg hnone, List.append_nil]
    exact balanced.counted id mode

theorem Balanced.take (balanced : queue.Balanced)
    (listed : queue.holders = before ++ holder :: after)
    (next : holder.waiting = (id, mode) :: rest)
    (free : queue.table.take? id mode = some table) :
    Balanced ⟨table, before ++ { holder with waiting := rest } :: after⟩ := by
  have hturn :=
    balanced.inTurn holder (listed ▸ List.mem_append_right _ List.mem_cons_self)
  refine ⟨balanced.formed.of_take? free, fun other hother => ?_,
    fun other wanted => ?_⟩
  · rcases List.mem_append.1 hother with hother | hother
    · exact balanced.inTurn other (listed ▸ List.mem_append_left _ hother)
    · rcases List.mem_cons.1 hother with rfl | hother
      · exact hturn.tail next
      · exact balanced.inTurn other
          (listed ▸ List.mem_append_right _ (List.mem_cons_of_mem _ hother))
  · let taken : LockQueue :=
      ⟨table, before ++ { holder with waiting := rest } :: after⟩
    have hlisted :
        taken.holders = before ++ { holder with waiting := rest } :: after :=
      rfl
    rw [LockTable.count_of_take? free, balanced.counted,
      holding_of_listed listed, holding_of_listed hlisted, Nat.add_assoc]
    refine congrArg (holding ⟨queue.table, before ++ after⟩ other wanted + ·) ?_
    -- the inode that is taken was not held before, so that it counts once
    simp only [hturn.modeOf_tail next]
    by_cases hsame : (other, wanted) = (id, mode)
    · have hnone : holder.modeOf other ≠ some wanted := by
        rw [(Prod.mk.inj hsame).1, LockHolder.modeOf_next next]
        exact Option.some_ne_none wanted |>.symm
      rw [if_neg hnone, if_pos hsame, if_pos (.inr hsame)]
    · simp only [hsame, or_false, if_false, Nat.add_zero]

theorem Balanced.release (balanced : queue.Balanced)
    (listed : queue.holders = before ++ holder :: after)
    (granted : holder.isGranted = true) :
    Balanced ⟨queue.table.releaseAll holder.locks, before ++ after⟩ := by
  refine ⟨balanced.formed.giveBackAll _, fun other hother => ?_,
    fun id mode => ?_⟩
  · refine balanced.inTurn other (listed ▸ ?_)
    rcases List.mem_append.1 hother with hother | hother
    · exact List.mem_append_left _ hother
    · exact List.mem_append_right _ (List.mem_cons_of_mem _ hother)
  · rw [LockTable.releaseAll,
      LockTable.count_giveBackAll (LockSet.nodup_toList _), balanced.counted,
      holding_of_listed listed, LockHolder.modeOf_of_granted granted]
    simp only [Std.ExtTreeMap.mem_toList_iff_getElem?_eq_some]
    exact Nat.add_sub_cancel _ _

theorem Balanced.step (balanced : queue.Balanced) (step : queue.Step next) :
    next.Balanced := by
  cases step with
  | arrive name locks => exact balanced.arrive name locks
  | moves moves =>
    cases moves with
    | take listed next free => exact balanced.take listed next free
    | release listed granted => exact balanced.release listed granted

theorem Reachable.balanced (reachable : queue.Reachable) : queue.Balanced := by
  induction reachable with
  | refl => exact balanced_empty
  | tail _ step ih => exact ih.step step

/-- Taking what can be taken now is taking one inode after the other. -/
theorem advance_moves (table : LockTable) (before after : List LockHolder)
    (holder : LockHolder) : ReflTransGen Moves ⟨table,
      before ++ holder :: after⟩ ⟨(holder.advance table).1,
        before ++ (holder.advance table).2 :: after⟩ := by
  obtain ⟨name, locks, waiting⟩ := holder
  simp only [LockHolder.advance]
  induction waiting generalizing table with
  | nil => exact .refl
  | cons item rest ih =>
    rw [LockTable.takeAll]
    split
    · next free => exact .head (.take rfl rfl free) (ih _)
    · exact .refl

theorem advanceAll_moves (table : LockTable)
    (before holders : List LockHolder) :
    ReflTransGen Moves ⟨table, before ++ holders⟩ ⟨(advanceAll table holders).1,
      before ++ (advanceAll table holders).2⟩ := by
  induction holders generalizing table before with
  | nil => exact .refl
  | cons holder rest ih =>
    have hrest :=
      ih (holder.advance table).1 (before ++ [(holder.advance table).2])
    rw [List.append_assoc, List.append_assoc] at hrest
    exact (advance_moves table before rest holder).trans hrest

theorem Reachable.moves (reachable : queue.Reachable)
    (moves : ReflTransGen Moves queue next) : next.Reachable := by
  induction moves with
  | refl => exact reachable
  | tail _ moves ih => exact ih.tail (.moves moves)

/-- A request arrives and takes what it can. -/
theorem Reachable.request (reachable : queue.Reachable) (name : String)
    (locks : LockSet) : (queue.request name locks).2.Reachable :=
  Reachable.moves (reachable.tail (.arrive name locks)) (advance_moves _ _ [] _)

/-- Giving back a granted set, after which every request takes what it can. -/
theorem Reachable.release {name : String} (reachable : queue.Reachable)
    (distinct : (queue.holders.map LockHolder.name).Nodup)
    (granted : (queue.holder? name).any LockHolder.isGranted = true) :
    (queue.release name).2.Reachable := by
  obtain ⟨holder, found, granted⟩ := (Option.any_eq_true _ _).1 granted
  obtain ⟨hname, before, after, hlisted, -⟩ :=
    List.find?_eq_some_iff_append.1 found
  have hothers : queue.holders.filter (·.name != name) = before ++ after := by
    have hholder : (holder.name != name) = false := by simpa using hname
    have hkeep {other : LockHolder} (hmem : other ∈ before ++ after) :
        other.name != name := by
      rw [hlisted, List.map_append, List.map_cons, List.nodup_middle,
        ← List.map_append] at distinct
      have hne : other.name ≠ holder.name := fun heq =>
        (List.nodup_cons.1 distinct).1 (heq ▸ List.mem_map_of_mem hmem)
      rw [← eq_of_beq hname]
      exact bne_iff_ne.2 hne
    rw [hlisted, List.filter_append, List.filter_cons, hholder,
      if_neg Bool.false_ne_true, ← List.filter_append]
    exact List.filter_eq_self.2 fun _ => hkeep
  simp only [LockQueue.release, found, hothers]
  exact Reachable.moves (reachable.tail (.moves (.release hlisted granted)))
    (advanceAll_moves _ [] (before ++ after))

end LockQueue

end QuotaTree
