/-
What the ledger holds for an inode.  The index by inodes and the updates by
their numbers agree, and every way of changing the ledger keeps them so.
-/
import QuotaTree.Ledger
import QuotaTree.Proofs.Usage.Counts

namespace QuotaTree

namespace Ledger

variable {ledger : Ledger} {inode other : InodeId} {id : Nat} {delta : Counts}

/-- The index lists the numbers of each inode's updates, once each, and numbers
given out later are greater than all. -/
structure Sound (ledger : Ledger) : Prop where
  listed : ∀ {inode id}, id ∈ ledger.idsOf inode ↔
    ∃ update, ledger.updates[id]? = some update ∧ update.inode = inode
  numbered : ∀ {id update}, ledger.updates[id]? = some update → update.id = id ∧
    id < ledger.nextId
  nodup : ∀ inode, (ledger.idsOf inode).Nodup

def pendingAt (ledger : Ledger) (inode : InodeId) : Counts :=
  ledger.outstanding [inode]

theorem pendingAt_eq (ledger : Ledger) (inode : InodeId) :
    ledger.pendingAt inode =
      Counts.sum ((ledger.updatesOf inode).map QuotaUpdate.delta) := by
  simp [pendingAt, outstanding]

theorem outstanding_eq_sum (ledger : Ledger) (inodes : List InodeId) :
    ledger.outstanding inodes = Counts.sum (inodes.map ledger.pendingAt) := by
  induction inodes with
  | nil => rfl
  | cons head tail ih =>
    rw [List.map_cons, Counts.sum_cons, ← ih, pendingAt_eq]
    simp [outstanding]

theorem outstanding_of_nodup (ledger : Ledger) {inodes : List InodeId}
    (nodup : inodes.Nodup) :
    ledger.outstanding inodes = ∑ x ∈ inodes.toFinset, ledger.pendingAt x := by
  rw [outstanding_eq_sum, Counts.sum_map_of_nodup nodup]

theorem Sound.lt (sound : ledger.Sound) (h : id ∈ ledger.idsOf inode) :
    id < ledger.nextId := by
  obtain ⟨update, hupdate, _⟩ := sound.listed.1 h
  exact (sound.numbered hupdate).2

theorem Sound.mem_unique (sound : ledger.Sound)
    (hfirst : id ∈ ledger.idsOf inode) (hsecond : id ∈ ledger.idsOf other) :
    inode = other := by
  obtain ⟨update, hupdate, rfl⟩ := sound.listed.1 hfirst
  obtain ⟨update', hupdate', rfl⟩ := sound.listed.1 hsecond
  rw [hupdate, Option.some_inj] at hupdate'
  rw [hupdate']

theorem sound_empty : empty.Sound where
  listed := by simp [empty, idsOf]
  numbered := by simp [empty]
  nodup := by simp [empty, idsOf]

@[simp] theorem pendingAt_empty (inode : InodeId) :
    empty.pendingAt inode = 0 := by
  simp [pendingAt_eq, updatesOf, empty]

theorem idsOf_insert (byInode : Std.ExtTreeMap InodeId (List Nat))
    (ids : List Nat) (inode other : InodeId) :
    ((byInode.insert inode ids)[other]?).getD [] =
      if other = inode then ids else (byInode[other]?).getD [] := by
  by_cases h : other = inode
  · subst h
    simp
  · have hne : compare inode other ≠ .eq :=
      fun heq => h (Std.LawfulEqCmp.eq_of_compare heq).symm
    simp [Std.ExtTreeMap.getElem?_insert, h, hne]

theorem idsOf_erase (byInode : Std.ExtTreeMap InodeId (List Nat))
    (inode other : InodeId) : ((byInode.erase inode)[other]?).getD [] =
      if other = inode then [] else (byInode[other]?).getD [] := by
  by_cases h : other = inode
  · subst h
    simp
  · have hne : compare inode other ≠ .eq :=
      fun heq => h (Std.LawfulEqCmp.eq_of_compare heq).symm
    simp [Std.ExtTreeMap.getElem?_erase, h, hne]

section Submit

theorem idsOf_submit :
    (ledger.submit inode delta).idsOf other =
      if other = inode then ledger.idsOf inode ++ [ledger.nextId]
          else ledger.idsOf other :=
  idsOf_insert ..

theorem updates_submit :
    (ledger.submit inode delta).updates[id]? =
      if id = ledger.nextId then some ⟨ledger.nextId, inode, delta⟩
          else ledger.updates[id]? := by
  by_cases h : id = ledger.nextId
  · subst h
    simp [submit]
  · simp [submit, Std.ExtTreeMap.getElem?_insert, h,
      eq_comm (a := ledger.nextId)]

theorem Sound.submit (sound : ledger.Sound) (inode : InodeId) (delta : Counts) :
    (ledger.submit inode delta).Sound where
  listed {other id} := by
    rw [idsOf_submit, updates_submit]
    have hold : id ∈ ledger.idsOf other ↔ _ := sound.listed
    by_cases hid : id = ledger.nextId
    · subst hid
      have hnot : ledger.nextId ∉ ledger.idsOf other :=
        fun h => Nat.lt_irrefl _ (sound.lt h)
      by_cases h : other = inode
      · simp [h]
      · simp [h, hnot, eq_comm (a := inode)]
    · by_cases h : other = inode
      · subst h
        simp [hid, hold]
      · simp [h, hid, hold]
  numbered {id update} h := by
    rw [updates_submit] at h
    change update.id = id ∧ id < ledger.nextId + 1
    split at h
    next heq =>
      cases h
      exact ⟨heq.symm, by omega⟩
    next =>
      obtain ⟨hid, hlt⟩ := sound.numbered h
      exact ⟨hid, by omega⟩
  nodup other := by
    rw [idsOf_submit]
    split
    · refine List.nodup_append'.2 ⟨sound.nodup inode, List.nodup_singleton _,
        ?_⟩
      intro id hid hlast
      rw [List.mem_singleton] at hlast
      exact Nat.lt_irrefl _ (hlast ▸ sound.lt hid)
    · exact sound.nodup other

theorem Sound.pendingAt_submit (sound : ledger.Sound) :
    (ledger.submit inode delta).pendingAt other =
      ledger.pendingAt other + if other = inode then delta else 0 := by
  have hsame :
      (ledger.idsOf other).filterMap ((ledger.submit inode delta).updates[·]?) =
        ledger.updatesOf other := by
    refine List.filterMap_congr fun id hid => ?_
    rw [updates_submit, if_neg (Nat.ne_of_lt (sound.lt hid))]
  rw [pendingAt_eq, pendingAt_eq, updatesOf, idsOf_submit]
  by_cases h : other = inode
  · subst h
    rw [if_pos rfl, if_pos rfl, List.filterMap_append, hsame]
    simp [updates_submit]
  · rw [if_neg h, if_neg h, hsame, Counts.add_zero]

/-- The entries for an inode add up; one that changes nothing is as good as
none. -/
theorem Sound.submitAll (sound : ledger.Sound)
    (entries : List (InodeId × Counts)) :
    (ledger.submitAll entries).Sound ∧ ∀ other,
      (ledger.submitAll entries).pendingAt other = ledger.pendingAt other +
      Counts.sum ((entries.filter (·.1 = other)).map Prod.snd) := by
  induction entries generalizing ledger with
  | nil => exact ⟨sound, fun other => (Counts.add_zero _).symm⟩
  | cons entry rest ih =>
    rw [Ledger.submitAll, List.foldl_cons]
    by_cases hzero : entry.2 = 0
    · have hzero' : entry.2.isZero = true := (Counts.isZero_iff _).2 hzero
      rw [if_pos hzero']
      refine ⟨(ih sound).1, fun other => ((ih sound).2 other).trans ?_⟩
      by_cases h : entry.1 = other <;> simp [h, hzero]
    · have hzero' : ¬ entry.2.isZero = true :=
        fun h => hzero ((Counts.isZero_iff _).1 h)
      rw [if_neg hzero']
      obtain ⟨hsound, hpending⟩ := ih (sound.submit entry.1 entry.2)
      refine ⟨hsound, fun other => (hpending other).trans ?_⟩
      rw [sound.pendingAt_submit]
      by_cases h : entry.1 = other
      · simp [h, Counts.add_assoc]
      · simp [h, eq_comm (a := other)]

end Submit

section Withdraw

theorem getElem?_foldl_erase (ids : List Nat)
    (updates : Std.ExtTreeMap Nat QuotaUpdate) :
    (ids.foldl Std.ExtTreeMap.erase updates)[id]? = if id ∈ ids then
      none else updates[id]? := by
  induction ids generalizing updates with
  | nil => rfl
  | cons head tail ih =>
    rw [List.foldl_cons, ih]
    by_cases h : id = head
    · subst h
      simp
    · simp [Std.ExtTreeMap.getElem?_erase, h, eq_comm (a := head)]

theorem idsOf_withdraw :
    (ledger.withdraw inode).idsOf other = if other = inode then
      [] else ledger.idsOf other :=
  idsOf_erase ..

theorem updates_withdraw :
    (ledger.withdraw inode).updates[id]? =
      if id ∈ ledger.idsOf inode then none else ledger.updates[id]? :=
  getElem?_foldl_erase ..

theorem Sound.withdraw (sound : ledger.Sound) (inode : InodeId) :
    (ledger.withdraw inode).Sound where
  listed {other id} := by
    rw [idsOf_withdraw, updates_withdraw]
    by_cases h : other = inode
    · subst h
      rw [if_pos rfl]
      constructor
      · intro hid
        cases hid
      · rintro ⟨update, hupdate, hinode⟩
        split at hupdate
        next => cases hupdate
        next hnot =>
          exact absurd (sound.listed.2 ⟨update, hupdate, hinode⟩) hnot
    · rw [if_neg h, sound.listed]
      constructor
      · rintro ⟨update, hupdate, hinode⟩
        have hnot : id ∉ ledger.idsOf inode := fun hid =>
          h (sound.mem_unique (sound.listed.2 ⟨update, hupdate, hinode⟩) hid)
        exact ⟨update, by rw [if_neg hnot, hupdate], hinode⟩
      · rintro ⟨update, hupdate, hinode⟩
        split at hupdate
        next => cases hupdate
        next => exact ⟨update, hupdate, hinode⟩
  numbered h := by
    rw [updates_withdraw] at h
    split at h
    next => cases h
    next => exact sound.numbered h
  nodup other := by
    rw [idsOf_withdraw]
    split
    · exact List.nodup_nil
    · exact sound.nodup other

theorem Sound.pendingAt_withdraw (sound : ledger.Sound) :
    (ledger.withdraw inode).pendingAt other = if other = inode then
      0 else ledger.pendingAt other := by
  rw [pendingAt_eq, updatesOf, idsOf_withdraw]
  by_cases h : other = inode
  · simp [h]
  · rw [if_neg h, if_neg h, pendingAt_eq, updatesOf]
    congr 2
    refine List.filterMap_congr fun id hid => ?_
    rw [updates_withdraw, if_neg fun hid' => h (sound.mem_unique hid hid')]

theorem idsOf_withdrawAll (ledger : Ledger) (inodes : List InodeId) :
    (ledger.withdrawAll inodes).idsOf other = if other ∈ inodes then
      [] else ledger.idsOf other := by
  induction inodes generalizing ledger with
  | nil => rfl
  | cons head tail ih =>
    refine (ih (ledger.withdraw head)).trans ?_
    rw [idsOf_withdraw]
    by_cases h : other = head <;> simp [h]

theorem Sound.withdrawAll (sound : ledger.Sound) (inodes : List InodeId) :
    (ledger.withdrawAll inodes).Sound ∧
    ∀ other, (ledger.withdrawAll inodes).pendingAt other =
      if other ∈ inodes then 0 else ledger.pendingAt other := by
  induction inodes generalizing ledger with
  | nil => exact ⟨sound, fun other => rfl⟩
  | cons head tail ih =>
    obtain ⟨hsound, hpending⟩ := ih (sound.withdraw head)
    refine ⟨hsound, fun other => (hpending other).trans ?_⟩
    rw [sound.pendingAt_withdraw]
    by_cases h : other = head <;> simp [h]

end Withdraw

section Remove

theorem updates_removeOne (ledger : Ledger) (removed id : Nat) :
    (ledger.removeOne removed).updates[id]? =
      if id = removed then none else ledger.updates[id]? := by
  unfold removeOne
  cases h : ledger.updates[removed]? with
  | none =>
    by_cases hid : id = removed
    · simp [hid, h]
    · simp [hid]
  | some update =>
    by_cases hid : id = removed
    · simp [hid]
    · simp [Std.ExtTreeMap.getElem?_erase, hid, eq_comm (a := removed)]

theorem Sound.idsOf_removeOne (sound : ledger.Sound) (removed : Nat)
    (other : InodeId) :
    (ledger.removeOne removed).idsOf other =
      (ledger.idsOf other).filter (· != removed) := by
  have hkeep (hnot : removed ∉ ledger.idsOf other) :
      (ledger.idsOf other).filter (· != removed) = ledger.idsOf other := by
    rw [List.filter_eq_self]
    intro id hid
    rw [bne_iff_ne]
    rintro rfl
    exact hnot hid
  unfold removeOne
  cases h : ledger.updates[removed]? with
  | none =>
    refine (hkeep fun hid => ?_).symm
    obtain ⟨update, hupdate, _⟩ := sound.listed.1 hid
    rw [h] at hupdate
    cases hupdate
  | some update =>
    have hidsOf :
        ((if ((ledger.idsOf update.inode).filter (· != removed)).isEmpty =
          true then ledger.byInode.erase update.inode
            else ledger.byInode.insert update.inode
            ((ledger.idsOf update.inode).filter (· != removed)))[other]?).getD
          [] =
        if other = update.inode then
          (ledger.idsOf update.inode).filter (· != removed)
        else ledger.idsOf other := by
      split
      next hleft =>
        rw [idsOf_erase, List.isEmpty_iff.1 hleft]
        rfl
      next => exact idsOf_insert ..
    refine hidsOf.trans ?_
    by_cases hinode : other = update.inode
    · rw [if_pos hinode, hinode]
    · rw [if_neg hinode, hkeep]
      intro hid
      obtain ⟨update', hupdate', rfl⟩ := sound.listed.1 hid
      rw [h, Option.some_inj] at hupdate'
      exact hinode (congrArg QuotaUpdate.inode hupdate'.symm)

theorem nextId_removeOne (ledger : Ledger) (removed : Nat) :
    (ledger.removeOne removed).nextId = ledger.nextId := by
  unfold removeOne
  split <;> rfl

theorem Sound.removeOne (sound : ledger.Sound) (removed : Nat) :
    (ledger.removeOne removed).Sound where
  listed {other id} := by
    rw [sound.idsOf_removeOne, updates_removeOne, List.mem_filter, sound.listed,
      bne_iff_ne]
    by_cases h : id = removed <;> simp [h]
  numbered h := by
    rw [updates_removeOne] at h
    rw [nextId_removeOne]
    split at h
    next => cases h
    next => exact sound.numbered h
  nodup other := by
    rw [sound.idsOf_removeOne]
    exact (sound.nodup other).filter _

/-- Removing updates leaves those with other numbers. -/
theorem Sound.remove (sound : ledger.Sound) (ids : List Nat) :
    (ledger.remove ids).Sound ∧
      (∀ id, (ledger.remove ids).updates[id]? = if id ∈ ids then none
        else ledger.updates[id]?) ∧
      ∀ other, (ledger.remove ids).idsOf other =
          (ledger.idsOf other).filter (· ∉ ids) := by
  induction ids generalizing ledger with
  | nil =>
    refine ⟨sound, fun id => rfl, fun other => ?_⟩
    simp [Ledger.remove]
  | cons head tail ih =>
    obtain ⟨hsound, hupdates, hids⟩ := ih (sound.removeOne head)
    refine ⟨hsound, fun id => (hupdates id).trans ?_,
      fun other => (hids other).trans ?_⟩
    · rw [updates_removeOne]
      by_cases h : id = head <;> simp [h]
    · rw [sound.idsOf_removeOne, List.filter_filter]
      refine List.filter_congr fun id _ => ?_
      by_cases h : id = head <;> simp [h]

theorem Sound.pendingAt_remove_of_all (sound : ledger.Sound) {ids : List Nat}
    (all : ∀ id ∈ ledger.idsOf inode, id ∈ ids) :
    (ledger.remove ids).pendingAt inode = 0 := by
  obtain ⟨_, _, hids⟩ := sound.remove ids
  have hnone : (ledger.idsOf inode).filter (· ∉ ids) = [] := by
    simpa using all
  rw [pendingAt_eq, updatesOf, hids, hnone]
  rfl

theorem Sound.pendingAt_remove_of_none (sound : ledger.Sound) {ids : List Nat}
    (none : ∀ id ∈ ledger.idsOf inode, id ∉ ids) :
    (ledger.remove ids).pendingAt inode = ledger.pendingAt inode := by
  obtain ⟨_, hupdates, hids⟩ := sound.remove ids
  have hall : (ledger.idsOf inode).filter (· ∉ ids) = ledger.idsOf inode := by
    simpa using none
  rw [pendingAt_eq, pendingAt_eq, updatesOf, updatesOf, hids, hall]
  congr 2
  refine List.filterMap_congr fun id hid => ?_
  rw [hupdates, if_neg (none id hid)]

/-- What has a number is a target. -/
theorem Sound.mem_targets (sound : ledger.Sound) (h : id ∈ ledger.idsOf inode) :
    inode ∈ ledger.targets := by
  obtain ⟨update, hupdate, rfl⟩ := sound.listed.1 h
  rw [targets, List.mem_eraseDups, List.mem_map]
  refine ⟨update, ?_, rfl⟩
  rw [toList, List.mem_map]
  exact ⟨(id, update), Std.ExtTreeMap.mem_toList_iff_getElem?_eq_some.2 hupdate,
    rfl⟩

end Remove

theorem sound_clear (ledger : Ledger) : ledger.clear.Sound where
  listed := by simp [clear, idsOf]
  numbered := by simp [clear]
  nodup := by simp [clear, idsOf]

@[simp] theorem pendingAt_clear (ledger : Ledger) (inode : InodeId) :
    ledger.clear.pendingAt inode = 0 := by
  simp [pendingAt_eq, updatesOf, clear]

end Ledger

end QuotaTree
