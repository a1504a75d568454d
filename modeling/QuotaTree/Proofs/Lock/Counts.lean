/-
How often an inode is held in each mode.  Taking an inode adds one to one count,
giving it back takes one from it, and a table lists the inodes with a count
only.
-/
import QuotaTree.Proofs.Work.Locks

namespace QuotaTree

namespace LockEntry

variable {entry taken : LockEntry} {mode other : LockMode}

def count (entry : LockEntry) : LockMode → Nat
  | .read => entry.readers
  | .write => entry.writer.toNat

def Exclusive (entry : LockEntry) : Prop :=
  entry.writer = true → entry.readers = 0

@[simp] theorem count_empty (mode : LockMode) :
    ({} : LockEntry).count mode = 0 := by
  cases mode <;> rfl

theorem isFree_eq_false :
    entry.isFree = false ↔ ∃ mode, 0 < entry.count mode := by
  constructor
  · intro h
    rcases entry with ⟨_ | readers, _ | _⟩
    · cases h
    · exact ⟨.write, Nat.one_pos⟩
    · exact ⟨.read, Nat.succ_pos _⟩
    · exact ⟨.write, Nat.one_pos⟩
  · rintro ⟨mode, h⟩
    rcases entry with ⟨_ | readers, _ | _⟩ <;> cases mode <;> first | rfl |
      cases h

/-- What is refused is held in a mode that stands against it. -/
theorem take?_eq_none (h : entry.take? mode = none) :
    ∃ held, held.conflicts mode = true ∧ 0 < entry.count held := by
  rcases entry with ⟨_ | readers, _ | _⟩
  · cases mode <;> cases h
  · exact ⟨.write, by cases mode <;> rfl, Nat.one_pos⟩
  · cases mode with
    | read => cases h
    | write => exact ⟨.read, rfl, Nat.succ_pos _⟩
  · exact ⟨.write, by cases mode <;> rfl, Nat.one_pos⟩

theorem count_of_take? (h : entry.take? mode = some taken) (other : LockMode) :
    taken.count other = entry.count other + if other = mode then 1 else 0 := by
  rcases entry with ⟨_ | readers, _ | _⟩ <;> cases mode <;>
    simp only [take?, held, LockMode.conflicts, reduceCtorEq, Option.any_some,
      Option.any_none, if_true, if_false, Bool.false_eq_true, Nat.lt_irrefl,
      Nat.succ_pos, Option.some.injEq] at h <;>
    subst h <;> cases other <;> rfl

theorem Exclusive.of_take? (exclusive : entry.Exclusive)
    (h : entry.take? mode = some taken) : taken.Exclusive := by
  rcases entry with ⟨_ | readers, _ | _⟩ <;> cases mode <;>
    simp only [take?, held, LockMode.conflicts, reduceCtorEq, Option.any_some,
      Option.any_none, if_true, if_false, Bool.false_eq_true, Nat.lt_irrefl,
      Nat.succ_pos, Option.some.injEq] at h <;>
    subst h <;> intro hwriter <;> first | rfl | cases hwriter

theorem count_giveBack (entry : LockEntry) (mode other : LockMode) :
    (entry.giveBack mode).count other = entry.count other - if other = mode then
      1 else 0 := by
  rcases entry with ⟨readers, _ | _⟩ <;> cases mode <;> cases other <;> rfl

theorem Exclusive.giveBack (exclusive : entry.Exclusive) (mode : LockMode) :
    (entry.giveBack mode).Exclusive := by
  cases mode with
  | read =>
    intro hwriter
    have hnone : entry.readers = 0 := exclusive hwriter
    rw [LockEntry.giveBack, hnone]
  | write => exact fun hwriter => by cases hwriter

end LockEntry

namespace LockTable

variable {table taken : LockTable} {id : InodeId} {mode : LockMode}

def count (table : LockTable) (id : InodeId) (mode : LockMode) : Nat :=
  (table.entry id).count mode

/-- A writer is alone, and an inode that nobody holds is not listed. -/
structure Formed (table : LockTable) : Prop where
  exclusive : ∀ id, (table.entry id).Exclusive
  used : ∀ {id : InodeId} {entry : LockEntry}, table[id]? = some entry →
    entry.isFree = false

theorem formed_empty : (∅ : LockTable).Formed where
  exclusive id hwriter := by
    rw [entry, Std.ExtTreeMap.getElem?_empty] at hwriter
    cases hwriter
  used h := by simp at h

@[simp] theorem count_empty (id : InodeId) (mode : LockMode) :
    (∅ : LockTable).count id mode = 0 := by
  simp [count, entry]

theorem entry_insert (table : LockTable) (id other : InodeId)
    (entry : LockEntry) :
    LockTable.entry (table.insert id entry) other = if other = id then
      entry else table.entry other := by
  rw [LockTable.entry, getElem?_insert]
  split <;> rfl

theorem entry_erase (table : LockTable) (id other : InodeId) :
    LockTable.entry (table.erase id) other = if other = id then
      {} else table.entry other := by
  rw [LockTable.entry, getElem?_erase]
  split <;> rfl

/-- The inodes that are listed are those with a count. -/
theorem Formed.contains_iff (formed : table.Formed) :
    table.contains id = true ↔ ∃ mode, 0 < table.count id mode := by
  simp only [count, entry, Std.ExtTreeMap.contains_eq_isSome_getElem?]
  cases h : table[id]? with
  | none => simp
  | some entry => simpa using LockEntry.isFree_eq_false.1 (formed.used h)

theorem Formed.eq_empty (formed : table.Formed)
    (free : ∀ id mode, table.count id mode = 0) : table = ∅ := by
  refine Std.ExtTreeMap.ext_getElem? fun id => ?_
  rw [Std.ExtTreeMap.getElem?_empty]
  cases h : table[id]? with
  | none => rfl
  | some entry =>
    obtain ⟨mode, hmode⟩ := LockEntry.isFree_eq_false.1 (formed.used h)
    have hfree := free id mode
    rw [count, LockTable.entry, h] at hfree
    exact absurd hfree (Nat.ne_of_gt hmode)

theorem take?_eq_some :
    table.take? id mode = some taken ↔
      ∃ entry, (table.entry id).take? mode = some entry ∧
        table.insert id entry = taken := by
  rw [take?, Option.map_eq_some_iff]

theorem exists_conflict_of_take? (h : table.take? id mode = none) :
    ∃ held, held.conflicts mode = true ∧ 0 < table.count id held := by
  rw [take?, Option.map_eq_none_iff] at h
  exact LockEntry.take?_eq_none h

theorem count_of_take? (h : table.take? id mode = some taken) (other : InodeId)
    (wanted : LockMode) :
    taken.count other wanted = table.count other wanted + if (other, wanted) =
      (id, mode) then 1 else 0 := by
  obtain ⟨entry, hentry, rfl⟩ := take?_eq_some.1 h
  rw [count, entry_insert]
  by_cases hid : other = id
  · rw [if_pos hid, LockEntry.count_of_take? hentry, hid]
    simp only [Prod.mk.injEq, true_and]
    rfl
  · simp only [hid, if_false, Prod.mk.injEq, false_and, Nat.add_zero]
    rfl

theorem Formed.of_take? (formed : table.Formed)
    (h : table.take? id mode = some taken) : taken.Formed := by
  obtain ⟨entry, hentry, rfl⟩ := take?_eq_some.1 h
  constructor
  · intro other
    rw [entry_insert]
    split
    · exact (formed.exclusive id).of_take? hentry
    · exact formed.exclusive other
  · intro other found hfound
    rw [getElem?_insert] at hfound
    split at hfound
    · cases hfound
      refine LockEntry.isFree_eq_false.2 ⟨mode, ?_⟩
      rw [LockEntry.count_of_take? hentry, if_pos rfl]
      exact Nat.succ_pos _
    · exact formed.used hfound

theorem entry_giveBack (table : LockTable) (id other : InodeId)
    (mode : LockMode) : (table.giveBack id mode).entry other =
      if other = id then
        if ((table.entry id).giveBack mode).isFree then
          {} else (table.entry id).giveBack mode
      else table.entry other := by
  rw [giveBack]
  cases hfound : table[id]? with
  | none =>
    have hentry : table.entry id = {} := by rw [entry, hfound]; rfl
    by_cases hid : other = id
    · rw [hid, if_pos rfl, hentry]
      cases mode <;> rfl
    · rw [if_neg hid]
  | some found =>
    have hentry : table.entry id = found := by rw [entry, hfound]; rfl
    rw [hentry]
    dsimp only
    by_cases hfree : (found.giveBack mode).isFree = true
    · rw [if_pos hfree, if_pos hfree, entry_erase]
    · rw [if_neg hfree, if_neg hfree, entry_insert]

theorem count_giveBack (table : LockTable) (id other : InodeId)
    (mode wanted : LockMode) :
    (table.giveBack id mode).count other wanted =
      table.count other wanted - if (other, wanted) = (id, mode) then
      1 else 0 := by
  rw [count, entry_giveBack]
  by_cases hid : other = id
  · subst hid
    simp only [if_true, Prod.mk.injEq, true_and]
    rw [count, ← LockEntry.count_giveBack]
    split
    · next hfree =>
      have hnone := LockEntry.isFree_eq_false.not.1 (by rw [hfree]; decide)
      exact (LockEntry.count_empty _).trans
        (Nat.eq_zero_of_not_pos fun h => hnone ⟨_, h⟩).symm
    · rfl
  · simp only [hid, if_false, Prod.mk.injEq, false_and, Nat.sub_zero]
    rfl

theorem Formed.giveBack (formed : table.Formed) (id : InodeId)
    (mode : LockMode) : (table.giveBack id mode).Formed := by
  constructor
  · intro other
    rw [entry_giveBack]
    split
    · split
      · exact fun hwriter => by cases hwriter
      · exact (formed.exclusive id).giveBack mode
    · exact formed.exclusive other
  · intro other found hfound
    rw [LockTable.giveBack] at hfound
    split at hfound
    · exact formed.used hfound
    · dsimp only at hfound
      split at hfound
      · rw [getElem?_erase] at hfound
        split at hfound
        · cases hfound
        · exact formed.used hfound
      · next hfree =>
        rw [getElem?_insert] at hfound
        split at hfound
        · cases hfound
          exact Bool.eq_false_iff.2 hfree
        · exact formed.used hfound

section Lists

variable {list : List (InodeId × LockMode)}

/-- Giving back a list takes one from the count of each of its holds. -/
theorem count_giveBackAll (nodup : list.Nodup) (id : InodeId)
    (mode : LockMode) :
    (list.foldl (fun table item => giveBack table item.1 item.2) table).count id
      mode = table.count id mode - if (id, mode) ∈ list then 1 else 0 := by
  induction list generalizing table with
  | nil => rfl
  | cons item rest ih =>
    obtain ⟨hnot, hnodup⟩ := List.nodup_cons.1 nodup
    rw [List.foldl_cons, ih hnodup, count_giveBack]
    by_cases hitem : (id, mode) = item
    · subst hitem
      rw [if_neg hnot, if_pos rfl, if_pos List.mem_cons_self, Nat.sub_zero]
    · rw [if_neg hitem, Nat.sub_zero]
      simp only [List.mem_cons, hitem, false_or]

theorem Formed.giveBackAll (formed : table.Formed)
    (list : List (InodeId × LockMode)) :
    (list.foldl (fun table item => LockTable.giveBack table item.1 item.2)
      table).Formed := by
  induction list generalizing table with
  | nil => exact formed
  | cons item rest ih => exact ih (formed.giveBack item.1 item.2)

end Lists

end LockTable

end QuotaTree
