/-
Taking locks that nobody holds, and giving them back.  A request that runs alone
always gets its locks, and leaves none behind.
-/
import QuotaTree.Proofs.Work.Steps

namespace QuotaTree

namespace LockMode

theorem covers_self (mode : LockMode) : mode.covers mode = true := by
  cases mode <;> rfl

theorem covers_read (mode : LockMode) : mode.covers .read = true := by
  cases mode <;> rfl

end LockMode

/-- Locks cover the plan that they were taken for. -/
theorem LockSet.covers_self (locks : LockSet) : locks.covers locks = true := by
  unfold covers
  rw [List.all_eq_true]
  intro item hitem
  have hmode : locks[item.1]? = some item.2 :=
    Std.ExtTreeMap.mem_toList_iff_getElem?_eq_some.1 hitem
  rw [holds, hmode]
  exact LockMode.covers_self item.2

namespace LockEntry

def single : LockMode → LockEntry
  | .read => { readers := 1 }
  | .write => { writer := true }

theorem take?_free (mode : LockMode) :
    ({} : LockEntry).take? mode = some (single mode) := by
  cases mode <;> rfl

theorem isFree_giveBack_single (mode : LockMode) :
    ((single mode).giveBack mode).isFree = true := by
  cases mode <;> rfl

end LockEntry

namespace LockTable

variable {table : LockTable} {list : List (InodeId × LockMode)}

theorem getElem?_insert (table : LockTable) (id other : InodeId)
    (entry : LockEntry) :
    (table.insert id entry)[other]? = if other = id then
      some entry else table[other]? := by
  by_cases h : other = id
  · subst h
    simp
  · have hne : compare id other ≠ .eq :=
      fun heq => h (Std.LawfulEqCmp.eq_of_compare heq).symm
    simp [Std.ExtTreeMap.getElem?_insert, h, hne]

theorem getElem?_erase (table : LockTable) (id other : InodeId) :
    (table.erase id)[other]? = if other = id then none else table[other]? := by
  by_cases h : other = id
  · subst h
    simp
  · have hne : compare id other ≠ .eq :=
      fun heq => h (Std.LawfulEqCmp.eq_of_compare heq).symm
    simp [Std.ExtTreeMap.getElem?_erase, h, hne]

/-- What nobody holds can be taken as a whole. -/
theorem takeAll_of_free (nodup : (list.map Prod.fst).Nodup)
    (free : ∀ item ∈ list, table[item.1]? = none) :
    ∃ taken : LockTable, table.takeAll list = (taken, []) ∧
      (∀ item ∈ list, taken[item.1]? = some (.single item.2)) ∧
      ∀ id, id ∉ list.map Prod.fst → taken[id]? = table[id]? := by
  induction list generalizing table with
  | nil => exact ⟨table, rfl, by simp, fun _ _ => rfl⟩
  | cons item rest ih =>
    obtain ⟨id, mode⟩ := item
    obtain ⟨hnot, hnodup⟩ := List.nodup_cons.1 nodup
    have hentry : table.entry id = {} := by
      rw [entry, free _ List.mem_cons_self]
      rfl
    have hfree :
        ∀ item ∈ rest, (table.insert id (.single mode))[item.1]? = none := by
      intro item hitem
      have hne : item.1 ≠ id := by
        rintro rfl
        exact hnot (List.mem_map.2 ⟨item, hitem, rfl⟩)
      rw [getElem?_insert, if_neg hne, free item (List.mem_cons_of_mem _ hitem)]
    obtain ⟨taken, htake, hheld, hothers⟩ := ih hnodup hfree
    refine ⟨taken, ?_, ?_, ?_⟩
    · rw [takeAll, take?, hentry, LockEntry.take?_free]
      exact htake
    · intro item hitem
      rcases List.mem_cons.1 hitem with rfl | hitem
      · rw [hothers _ hnot, getElem?_insert, if_pos rfl]
      · exact hheld item hitem
    · intro other hother
      simp only [List.map_cons, List.mem_cons, not_or] at hother
      rw [hothers other hother.2, getElem?_insert, if_neg hother.1]

theorem giveBack_of_single {id : InodeId} {mode : LockMode}
    (held : table[id]? = some (.single mode)) :
    table.giveBack id mode = table.erase id := by
  rw [giveBack, held]
  exact if_pos (LockEntry.isFree_giveBack_single mode)

/-- Giving back what is held once frees it. -/
theorem foldl_giveBack (nodup : (list.map Prod.fst).Nodup)
    (held : ∀ item ∈ list, table[item.1]? = some (.single item.2))
    (id : InodeId) :
    (list.foldl (fun table item => giveBack table item.1 item.2) table)[id]? =
      if id ∈ list.map Prod.fst then none else table[id]? := by
  induction list generalizing table with
  | nil => rfl
  | cons item rest ih =>
    obtain ⟨hnot, hnodup⟩ := List.nodup_cons.1 nodup
    rw [List.foldl_cons, giveBack_of_single (held item List.mem_cons_self),
      ih hnodup, getElem?_erase]
    · rw [List.map_cons]
      by_cases h : id = item.1 <;>
        simp only [h, List.mem_cons, true_or, false_or, if_true, if_false,
          ite_self]
    · intro other hother
      have hne : other.1 ≠ item.1 :=
        fun heq => hnot (heq ▸ List.mem_map_of_mem hother)
      rw [getElem?_erase, if_neg hne,
        held other (List.mem_cons_of_mem _ hother)]

theorem nodup_toList (locks : LockSet) : (locks.toList.map Prod.fst).Nodup := by
  rw [Std.ExtTreeMap.map_fst_toList_eq_keys]
  exact locks.nodup_keys

/-- A whole set can be taken when nothing is held, and after it is given back
nothing is. -/
theorem takeAll_empty (locks : LockSet) :
    ∃ taken : LockTable, takeAll ∅ locks.toList = (taken, []) ∧
      taken.releaseAll locks = ∅ := by
  obtain ⟨taken, htake, hheld, hothers⟩ :=
    @takeAll_of_free ∅ _ (nodup_toList locks) (by simp)
  refine ⟨taken, htake, Std.ExtTreeMap.ext_getElem? fun id => ?_⟩
  rw [releaseAll, foldl_giveBack (nodup_toList locks) hheld]
  split
  next => simp
  next h => rw [hothers id h]

end LockTable

namespace LockSet

/-- A set holds what its list asks for, in a mode that covers it. -/
theorem holds_ofList {list : List (InodeId × LockMode)} {id : InodeId}
    {wanted : LockMode} : (ofList list).holds id wanted = true ↔
    ∃ item ∈ list, item.1 = id ∧ item.2.covers wanted := by
  have hfold (start : LockSet) :
      (list.foldl (fun locks item => locks.want item.1 item.2) start).holds id
        wanted = true ↔
        start.holds id wanted = true ∨ ∃ item ∈ list, item.1 = id ∧
        item.2.covers wanted := by
    induction list generalizing start with
    | nil => simp
    | cons item rest ih =>
      rw [List.foldl_cons, ih, holds_want]
      simp only [Bool.or_eq_true, Bool.and_eq_true, decide_eq_true_eq,
        List.exists_mem_cons_iff]
      rw [or_assoc, eq_comm (a := id)]
  rw [ofList, hfold]
  simp [holds]

end LockSet

end QuotaTree
