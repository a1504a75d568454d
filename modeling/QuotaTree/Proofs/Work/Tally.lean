/-
What a merge of several inodes comes to: it counts all their updates, and every
quota takes in the sum of what was pending below it.
-/
import QuotaTree.Proofs.Usage.Entries
import QuotaTree.Proofs.Work.Merge
import Mathlib.Algebra.Order.BigOperators.Group.Finset

namespace QuotaTree

open Nodes

namespace Ledger

variable {ledger : Ledger} {inode : InodeId} {update : QuotaUpdate}
  {inodes : List InodeId}

theorem Sound.mem_updatesOf (sound : ledger.Sound) :
    update ∈ ledger.updatesOf inode ↔ update ∈ ledger.toList ∧
    update.inode = inode := by
  rw [updatesOf, List.mem_filterMap]
  constructor
  · rintro ⟨id, hid, hfound⟩
    obtain ⟨rfl, _⟩ := sound.numbered hfound
    have hlisted := sound.mem_toList.2 hfound
    exact ⟨hlisted, (sound.mem_idsOf hlisted).1 hid⟩
  · rintro ⟨hlisted, hinode⟩
    exact ⟨update.id, (sound.mem_idsOf hlisted).2 hinode,
      sound.mem_toList.1 hlisted⟩

theorem Sound.nodup_updatesOf (sound : ledger.Sound) (inode : InodeId) :
    (ledger.updatesOf inode).Nodup :=
  .of_map QuotaUpdate.id (sound.map_id_updatesOf inode ▸ sound.nodup inode)

/-- The updates are those of all inodes that have some. -/
theorem Sound.size_eq_sum (sound : ledger.Sound) (nodup : inodes.Nodup)
    (covers : ∀ update ∈ ledger.toList, update.inode ∈ inodes) :
    ledger.size =
      (inodes.map fun inode => (ledger.updatesOf inode).length).sum := by
  have hsize : ledger.size = ledger.toList.toFinset.card := by
    rw [List.toFinset_card_of_nodup sound.nodup_toList, toList, List.length_map,
      Std.ExtTreeMap.length_toList, size]
  have hfiber (inode : InodeId) :
      (ledger.toList.toFinset.filter (·.inode = inode)).card =
        (ledger.updatesOf inode).length := by
    rw [← List.toFinset_card_of_nodup (sound.nodup_updatesOf inode)]
    refine congrArg _ (Finset.ext fun update => ?_)
    rw [Finset.mem_filter, List.mem_toFinset, List.mem_toFinset,
      sound.mem_updatesOf]
  rw [hsize, Finset.card_eq_sum_card_fiberwise (t := inodes.toFinset),
    ← List.sum_toFinset _ nodup]
  · exact Finset.sum_congr rfl fun inode _ => hfiber inode
  · exact fun update h => List.mem_toFinset.2
      (covers update (List.mem_toFinset.1 h))

/-- Nothing is pending at an inode that has no update. -/
theorem Sound.pendingAt_of_none (sound : ledger.Sound)
    (none : ∀ update ∈ ledger.toList, update.inode ≠ inode) :
    ledger.pendingAt inode = 0 := by
  have hnone : ledger.updatesOf inode = [] :=
    List.eq_nil_iff_forall_not_mem.2 fun update h =>
      none update (sound.mem_updatesOf.1 h).1 (sound.mem_updatesOf.1 h).2
  rw [pendingAt_eq, hnone]
  rfl

/-- What is pending in a set of inodes is pending at those of them that have an
update. -/
theorem Sound.sum_pendingAt (sound : ledger.Sound)
    (covers : ∀ update ∈ ledger.toList, update.inode ∈ inodes)
    (below : Finset InodeId) :
    ∑ x ∈ below.filter (· ∈ inodes), ledger.pendingAt x = ∑ x ∈ below,
      ledger.pendingAt x := by
  refine Finset.sum_filter_of_ne fun x _ hne => ?_
  by_contra hnot
  refine hne (sound.pendingAt_of_none fun update hupdate heq => ?_)
  exact hnot (heq ▸ covers update hupdate)

end Ledger

namespace Quota

theorem absorb_zero (quota : Quota) : quota.absorb 0 = quota := by
  rw [absorb, Counts.add_zero]

theorem absorb_absorb (quota : Quota) (first second : Counts) :
    (quota.absorb first).absorb second = quota.absorb (first + second) := by
  simp only [absorb, Counts.add_assoc]

end Quota

namespace Work

open Transaction

variable {tx tx' : Transaction} {id : InodeId} {ids merged : List InodeId}
  {count : Nat}

/-- A quota takes in a change if it happened below. -/
theorem Absorbs.quota {delta : Counts} (absorbs : Absorbs tx tx' id delta)
    {top : InodeId} {below : Finset InodeId} (spans : tx.tree.Spans top below) :
    tx'.tree.quota top =
      (tx.tree.quota top).map (·.absorb (if id ∈ below then delta else 0)) := by
  by_cases hunder : tx.tree.Under top id
  · rw [if_pos ((spans id).2 hunder)]
    exact absorbs.above top hunder
  · rw [if_neg fun h => hunder ((spans id).1 h), absorbs.aside top hunder]
    simp [Quota.absorb_zero]

theorem sum_filter_cons (below : Finset InodeId) (pending : InodeId → Counts)
    (h : id ∉ ids) :
    ∑ x ∈ below.filter (· ∈ id :: ids), pending x =
      (if id ∈ below then pending id else 0) + ∑ x ∈ below.filter
      (· ∈ ids), pending x := by
  rw [Finset.sum_filter, Finset.sum_filter,
    ← Finset.sum_ite_eq' below id pending, ← Finset.sum_add_distrib]
  refine Finset.sum_congr rfl fun x _ => ?_
  by_cases hx : x = id
  · simp [hx, h]
  · simp [hx]

/-- Every quota takes in what is pending below it at the inodes that are
merged. -/
theorem absorbed_mergeAll (wf : tx.tree.WellFormed)
    (merging : tx.Merging merged) (nodup : ids.Nodup)
    (fresh : ∀ id ∈ ids, id ∉ merged) (h : mergeAll ids tx = .ok count tx') :
    count = (ids.map fun id => (tx.base.ledger.updatesOf id).length).sum ∧
      ∀ top below, tx.tree.Spans top below → tx'.tree.quota top =
        (tx.tree.quota top).map
          (·.absorb
            (∑ x ∈ below.filter (· ∈ ids), tx.base.ledger.pendingAt x)) := by
  induction ids generalizing tx merged count with
  | nil =>
    obtain ⟨rfl, rfl⟩ := Outcome.pure_eq_ok.1 h
    refine ⟨rfl, fun top below _ => ?_⟩
    simp [Quota.absorb_zero]
  | cons id rest ih =>
    simp only [mergeAll, Outcome.bind_eq_ok, Outcome.pure_eq_ok] at h
    obtain ⟨first, mid, hmerge, others, _, hrest, rfl, rfl⟩ := h
    have hfresh := fresh id List.mem_cons_self
    obtain ⟨absorbs, hfirst⟩ := absorbs_mergeAt wf merging hfresh hmerge
    obtain ⟨_, merging', recached, hbase⟩ := mend_absorbs merging absorbs
    have alike := recached.recast.alike
    obtain ⟨hothers, hquota⟩ := ih (alike.wellFormed wf) merging' nodup.of_cons
      (fresh_of_cons nodup fresh) hrest
    rw [hbase] at hothers hquota
    refine ⟨by
      rw [hfirst, hothers, List.map_cons, List.sum_cons],
        fun top below spans => ?_⟩
    have hearly : mid.tree.quota top = (tx.tree.quota top).map
        (·.absorb (if id ∈ below then tx.base.ledger.pendingAt id else 0)) := by
      rw [← merging.pendingAt_of_not_mem hfresh]
      exact absorbs.quota spans
    have hlate :=
      hquota top below fun x => (spans x).trans (alike.under top x).symm
    rw [hlate, hearly, Option.map_map,
      sum_filter_cons _ _ (List.nodup_cons.1 nodup).1]
    exact congrArg (Option.map · _)
      (funext fun quota => quota.absorb_absorb _ _)

end Work

end QuotaTree
