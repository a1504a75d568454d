/-
The ledger and one list of updates.  Whatever is done to a fresh ledger, it
answers as the list does that goes through the same changes: how much is pending
and where, in which order, and under which numbers.
-/
import QuotaTree.Proofs.Request.Settle
import QuotaTree.Proofs.Usage.Roll

namespace QuotaTree

namespace Ledger

def performing (steps : List Step) : Ledger :=
  steps.foldl Step.run empty

end Ledger

def Roll.performing (steps : List Ledger.Step) : Roll :=
  steps.foldl Ledger.Step.onRoll {}

namespace Ledger

/-- A ledger answers as a list of updates does, and its index lists their
numbers inode by inode. The updates are those entries that are left of all that
were submitted, each under its place among them. -/
structure Reflects (ledger : Ledger) (roll : Roll)
    (submitted : List (InodeId × Counts)) : Prop where
  nextId : ledger.nextId = submitted.length
  numbered : roll.updates.Sublist (Roll.numbered submitted 0)
  size : ledger.size = roll.updates.length
  toList : ledger.toList = roll.updates
  updatesOf : ∀ inode, ledger.updatesOf inode = roll.updatesOf inode
  targets : ledger.targets = roll.targets
  nodup : ledger.targets.Nodup
  outstanding : ∀ inodes : List InodeId, inodes.Nodup →
    ledger.outstanding inodes = roll.outstanding inodes
  index : ∀ inode, ledger.byInode[inode]? = roll.index inode

variable {ledger : Ledger} {roll : Roll} {submitted : List (InodeId × Counts)}

namespace Tracks

theorem reflects (tracks : ledger.Tracks roll)
    (numbered : roll.updates.Sublist (Roll.numbered submitted 0))
    (next : roll.next = submitted.length) : ledger.Reflects roll submitted where
  nextId := tracks.nextId.trans next
  numbered := numbered
  size := by
    rw [← tracks.toList, Ledger.toList, List.length_map,
      Std.ExtTreeMap.length_toList, size]
  toList := tracks.toList
  updatesOf := tracks.updatesOf
  targets := by
    rw [Ledger.targets, tracks.toList]
    exact Roll.eraseDups_map_inode tracks.ordered.ascending
  nodup := nodup_eraseDups _
  outstanding _ := tracks.outstanding
  index := tracks.index

end Tracks

/-- The list holds entries that have been submitted, each under its place among
them. -/
theorem numbered_performing (steps : List Step) :
    (Roll.performing steps).next = (steps.flatMap Step.entries).length ∧
      (Roll.performing steps).updates.Sublist
        (Roll.numbered (steps.flatMap Step.entries) 0) := by
  induction steps using List.reverseRecOn with
  | nil => exact ⟨rfl, List.Sublist.refl _⟩
  | append_singleton steps step ih =>
    obtain ⟨hnext, hnumbered⟩ := ih
    obtain ⟨kept, hstep⟩ := step.exists_onRoll (Roll.performing steps)
    rw [Roll.performing, List.foldl_append, ← Roll.performing, List.foldl_cons,
      List.foldl_nil, hstep, List.flatMap_append, List.flatMap_singleton]
    constructor
    · rw [List.length_append, ← hnext]
      rfl
    · rw [Roll.numbered, List.zipIdx_append, List.map_append, ← Roll.numbered,
        Nat.zero_add, ← hnext]
      exact (List.filter_sublist.trans hnumbered).append (List.Sublist.refl _)

/-- After any changes of a fresh ledger it tells what the list tells after the
same changes. -/
theorem reflects_performing (steps : List Step) :
    (performing steps).Reflects (Roll.performing steps)
      (steps.flatMap Step.entries) := by
  have tracks : (performing steps).Tracks (Roll.performing steps) := by
    induction steps using List.reverseRecOn with
    | nil => exact .empty
    | append_singleton steps step ih =>
      rw [performing, Roll.performing, List.foldl_append, List.foldl_append]
      exact ih.step step
  obtain ⟨hnext, hnumbered⟩ := numbered_performing steps
  exact tracks.reflects hnumbered hnext

/-- An inode that loses its oldest update comes after the others. -/
example : (performing
      [.submitAll [(⟨9⟩, { inodes := 1 }), (⟨5⟩, {}), (⟨4⟩, { bytes := 8 })],
        .submit ⟨9⟩ { inodes := 2 }, .remove [0, 7]]).targets = [⟨4⟩, ⟨9⟩] := by
  decide +kernel

end Ledger

end QuotaTree
