/-
Which updates a ledger lists, and what becomes of the list when updates are
entered and withdrawn.
-/
import QuotaTree.Proofs.Usage.Ledger

namespace QuotaTree

namespace Ledger

variable {ledger : Ledger} {inode : InodeId} {inodes : List InodeId}
  {delta : Counts} {update : QuotaUpdate} {entries : List (InodeId × Counts)}

/-- An update is listed if it is found under its number. -/
theorem Sound.mem_toList (sound : ledger.Sound) :
    update ∈ ledger.toList ↔ ledger.updates[update.id]? = some update := by
  simp only [toList, List.mem_map, Prod.exists,
    Std.ExtTreeMap.mem_toList_iff_getElem?_eq_some]
  constructor
  · rintro ⟨id, found, hfound, rfl⟩
    rwa [(sound.numbered hfound).1]
  · exact fun h => ⟨update.id, update, h, rfl⟩

theorem Sound.mem_idsOf (sound : ledger.Sound) (h : update ∈ ledger.toList) :
    update.id ∈ ledger.idsOf inode ↔ update.inode = inode := by
  have hfound := sound.mem_toList.1 h
  rw [sound.listed, hfound]
  simp

theorem Sound.nodup_toList (sound : ledger.Sound) : ledger.toList.Nodup := by
  have hkeys : ledger.toList.map QuotaUpdate.id = ledger.updates.keys := by
    rw [← Std.ExtTreeMap.map_fst_toList_eq_keys, toList, List.map_map]
    refine List.map_congr_left fun item hitem => ?_
    exact (sound.numbered
      (Std.ExtTreeMap.mem_toList_iff_getElem?_eq_some.1 hitem)).1
  exact .of_map QuotaUpdate.id (hkeys ▸ Std.ExtTreeMap.nodup_keys)

/-- Withdrawing takes the updates of an inode off the list. -/
theorem Sound.mem_withdraw (sound : ledger.Sound) :
    update ∈ (ledger.withdraw inode).toList ↔ update ∈ ledger.toList ∧
    update.inode ≠ inode := by
  rw [(sound.withdraw inode).mem_toList, updates_withdraw]
  by_cases h : update ∈ ledger.toList
  · have hids := @Sound.mem_idsOf _ inode _ sound h
    by_cases hinode : update.inode = inode
    · simp [hids.2 hinode, hinode]
    · rw [if_neg fun hmem => hinode (hids.1 hmem), ← sound.mem_toList]
      simp [h, hinode]
  · have hnot : ledger.updates[update.id]? ≠ some update :=
      fun hfound => h (sound.mem_toList.2 hfound)
    simp [h, hnot]

theorem Sound.mem_withdrawAll (sound : ledger.Sound) :
    update ∈ (ledger.withdrawAll inodes).toList ↔
      update ∈ ledger.toList ∧ update.inode ∉ inodes := by
  induction inodes generalizing ledger with
  | nil => exact ⟨fun h => ⟨h, List.not_mem_nil⟩, And.left⟩
  | cons head rest ih =>
    refine (ih (sound.withdraw head)).trans ?_
    rw [sound.mem_withdraw, List.mem_cons, not_or, and_assoc]

/-- Removing takes updates off the list by their numbers. -/
theorem Sound.mem_remove (sound : ledger.Sound) {ids : List Nat} :
    update ∈ (ledger.remove ids).toList ↔ update ∈ ledger.toList ∧
    update.id ∉ ids := by
  obtain ⟨hsound, hupdates, _⟩ := sound.remove ids
  rw [hsound.mem_toList, hupdates, sound.mem_toList]
  by_cases h : update.id ∈ ids <;> simp [h]

/-- Entering adds one update at the end of the list. -/
theorem Sound.mem_submit (sound : ledger.Sound) :
    update ∈ (ledger.submit inode delta).toList ↔
      update ∈ ledger.toList ∨ update = ⟨ledger.nextId, inode, delta⟩ := by
  rw [(sound.submit inode delta).mem_toList, updates_submit, sound.mem_toList]
  by_cases h : update.id = ledger.nextId
  · have hnone : ledger.updates[update.id]? ≠ some update := fun hfound => by
      have := (sound.numbered hfound).2
      omega
    simp [h, h ▸ hnone, eq_comm]
  · have hne : update ≠ ⟨ledger.nextId, inode, delta⟩ :=
      fun heq => h (congrArg QuotaUpdate.id heq)
    simp [h, hne]

/-- What is listed stays when a list of entries is entered, and what comes to it
is for the inode of one of them. -/
theorem Sound.mem_submitAll (sound : ledger.Sound)
    (entries : List (InodeId × Counts)) :
    (∀ update ∈ ledger.toList, update ∈ (ledger.submitAll entries).toList) ∧
      ∀ update ∈ (ledger.submitAll entries).toList,
        update ∈ ledger.toList ∨ ∃ entry ∈ entries, entry.1 = update.inode := by
  induction entries generalizing ledger with
  | nil => exact ⟨fun _ h => h, fun _ h => .inl h⟩
  | cons entry rest ih =>
    rw [Ledger.submitAll, List.foldl_cons]
    by_cases hzero : entry.2.isZero = true
    · obtain ⟨hkept, hcame⟩ := ih sound
      rw [if_pos hzero]
      refine ⟨hkept, fun update h => (hcame update h).imp_right ?_⟩
      rintro ⟨other, hother, hinode⟩
      exact ⟨other, List.mem_cons_of_mem _ hother, hinode⟩
    · obtain ⟨hkept, hcame⟩ := ih (sound.submit entry.1 entry.2)
      rw [if_neg hzero]
      refine ⟨fun update h => hkept update (sound.mem_submit.2 (.inl h)),
        fun update h => ?_⟩
      rcases hcame update h with hlisted | ⟨other, hother, hinode⟩
      · refine (sound.mem_submit.1 hlisted).imp_right fun hnew => ?_
        exact ⟨entry, List.mem_cons_self, by rw [hnew]⟩
      · exact .inr ⟨other, List.mem_cons_of_mem _ hother, hinode⟩

end Ledger

end QuotaTree
