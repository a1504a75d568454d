/-
Standards.  A standard says what the limits at each inode must be like, and with
which counts usage is cached and changed.  Whatever units of work do, what meets
a standard goes on meeting it.
-/
import QuotaTree.Proofs.Limits.Legal
import QuotaTree.Proofs.Usage.Counts
import QuotaTree.Proofs.Usage.Ledger
import QuotaTree.Proofs.Work.Move
import QuotaTree.Proofs.Work.Preserve
import QuotaTree.Proofs.Work.Recount
import Mathlib.Algebra.Group.Subgroup.Finite

namespace QuotaTree

open Nodes

/-- What is asked of the limits that the quota of an inode has, if it has one,
and of all counts with which usage is cached and changed.  An inode that is made
has no quota, and an identity from `since` on; where limits are `settable` they
are set as the setters set them. -/
structure Standard where
  since : Nat
  settable : Prop
  limits : InodeId → Option Counts → Prop
  counts : AddSubgroup Counts
  bare : ∀ {id}, since ≤ id.val → limits id none
  relimited : settable →
    ∀ {id before liftsInodes change}, Counts.Admissible liftsInodes change →
    (id = .root → liftsInodes = false) → limits id before →
    limits id (if (change (before.getD Counts.unlimited)).anyLimited ∨
        id = .root ∧
      before.isSome then some (change (before.getD Counts.unlimited)) else none)
  oneInode_mem : Counts.oneInode ∈ counts
  space_mem : ∀ (policy : StoragePolicy) replication bytes,
    policy.space replication bytes ∈ counts

variable {standard : Standard}

/-- The changes of usage that a ledger lists meet a standard. -/
def Ledger.Meets (ledger : Ledger) (standard : Standard) : Prop :=
  ∀ ⦃number : Nat⦄ ⦃update :
      QuotaUpdate⦄, ledger.updates[number]? = some update →
    update.delta ∈ standard.counts

namespace Ledger.Meets

variable {ledger : Ledger}

theorem submit {inode : InodeId} {delta : Counts}
    (meets : ledger.Meets standard) (member : delta ∈ standard.counts) :
    (ledger.submit inode delta).Meets standard := by
  intro number update h
  rw [updates_submit] at h
  split at h
  next =>
    cases h
    exact member
  next => exact meets h

theorem submitAll {entries : List (InodeId × Counts)}
    (meets : ledger.Meets standard)
    (members : ∀ entry ∈ entries, entry.2 ∈ standard.counts) :
    (ledger.submitAll entries).Meets standard := by
  induction entries generalizing ledger with
  | nil => exact meets
  | cons entry rest ih =>
    have hrest : ∀ other ∈ rest, other.2 ∈ standard.counts :=
      fun other hother => members other (List.mem_cons_of_mem entry hother)
    rw [Ledger.submitAll, List.foldl_cons]
    split
    next => exact ih meets hrest
    next => exact ih (meets.submit (members entry List.mem_cons_self)) hrest

theorem withdrawAll (meets : ledger.Meets standard) (inodes : List InodeId) :
    (ledger.withdrawAll inodes).Meets standard := by
  induction inodes generalizing ledger with
  | nil => exact meets
  | cons inode rest ih =>
    refine ih fun number update h => ?_
    rw [updates_withdraw] at h
    split at h
    next => cases h
    next => exact meets h

theorem remove (meets : ledger.Meets standard) (numbers : List Nat) :
    (ledger.remove numbers).Meets standard := by
  induction numbers generalizing ledger with
  | nil => exact meets
  | cons number rest ih =>
    refine ih fun other update h => ?_
    rw [updates_removeOne] at h
    split at h
    next => cases h
    next => exact meets h

theorem clear (ledger : Ledger) : ledger.clear.Meets standard := by
  intro number update h
  simp [Ledger.clear] at h

/-- What is pending at an inode is a sum of listed changes. -/
theorem updatesOf_mem (meets : ledger.Meets standard) {id : InodeId}
    {update : QuotaUpdate} (h : update ∈ ledger.updatesOf id) :
    update.delta ∈ standard.counts := by
  obtain ⟨number, _, hupdate⟩ := List.mem_filterMap.1 h
  exact meets hupdate

theorem sum_mem (meets : ledger.Meets standard) {updates : List QuotaUpdate}
    (listed : ∀ update ∈ updates, ∃ id, update ∈ ledger.updatesOf id) :
    Counts.sum (updates.map QuotaUpdate.delta) ∈ standard.counts := by
  rw [Counts.sum_eq_list_sum]
  refine standard.counts.list_sum_mem fun delta h => ?_
  obtain ⟨update, hupdate, rfl⟩ := List.mem_map.1 h
  obtain ⟨id, hid⟩ := listed update hupdate
  exact meets.updatesOf_mem hid

theorem outstanding_mem (meets : ledger.Meets standard) (ids : List InodeId) :
    ledger.outstanding ids ∈ standard.counts := by
  refine meets.sum_mem fun update h => ?_
  obtain ⟨id, _, hid⟩ := List.mem_flatMap.1 h
  exact ⟨id, hid⟩

end Ledger.Meets

namespace Inode

variable {inode other : Inode}

/-- The quota of an inode, or its having none, meets a standard. -/
structure Meets (inode : Inode) (standard : Standard) : Prop where
  limits : standard.limits inode.id (inode.quota.map Quota.limits)
  cached : ∀ {quota}, inode.quota = some quota → quota.cached ∈ standard.counts

namespace Meets

/-- All but the quota and the identity may change. -/
theorem of_quota (meets : inode.Meets standard) (id : other.id = inode.id)
    (quota : other.quota = inode.quota) : other.Meets standard where
  limits := by
    rw [id, quota]
    exact meets.limits
  cached h := meets.cached (quota ▸ h)

theorem withFile {file : File} (meets : inode.Meets standard)
    (content : inode.asFile = some file) (new : File) :
    (inode.withFile new).Meets standard := by
  refine meets.of_quota rfl ?_
  have hquota : inode.quota = none := by
    rw [Inode.quota, Inode.asDirectory, Inode.asFile_eq_some.1 content]
    rfl
  exact hquota.symm

/-- The new contents of a directory have the quota that it had. -/
theorem withDirectory {directory new : Directory} (meets : inode.Meets standard)
    (content : inode.asDirectory = some directory)
    (quota : new.quota = directory.quota) :
    (inode.withDirectory new).Meets standard := by
  refine meets.of_quota rfl ?_
  rw [Inode.quota, Inode.quota, content]
  exact quota

theorem withoutChild (meets : inode.Meets standard) (name : Name) :
    (inode.withoutChild name).Meets standard := by
  unfold Inode.withoutChild
  split
  next directory content =>
    exact meets.withDirectory (Inode.asDirectory_eq_some.2 content) rfl
  next => exact meets

/-- A quota may cache another usage. -/
theorem withQuota {quota : Quota} {used : Counts} (meets : inode.Meets standard)
    (has : inode.quota = some quota) (member : used ∈ standard.counts) :
    (inode.withQuota { quota with cached := used }).Meets standard := by
  obtain ⟨directory, content, hquota⟩ := Option.bind_eq_some_iff.1 has
  rw [Inode.withQuota, Inode.asDirectory_eq_some.1 content]
  have hnew :
      (inode.withDirectory
        { directory with quota := some { quota with cached := used } }).quota =
        some { quota with cached := used } := rfl
  constructor
  case limits =>
    have hlimits := meets.limits
    rw [has] at hlimits
    rw [hnew]
    exact hlimits
  case cached =>
    intro other h
    rw [hnew] at h
    cases h
    exact member

/-- Limits that are set as the setters set them. -/
theorem withLimits {directory : Directory} {liftsInodes : Bool}
    {change : Counts → Counts} {used : Counts} (meets : inode.Meets standard)
    (content : inode.asDirectory = some directory)
    (settable : standard.settable)
    (admissible : Counts.Admissible liftsInodes change)
    (guarded : ¬ (inode.id = .root ∧ liftsInodes = true))
    (member : used ∈ standard.counts) :
    (inode.withDirectory (directory.withLimits (change directory.limits) used
      (inode.id == .root))).Meets standard := by
  have hquota : inode.quota = directory.quota := by
    rw [Inode.quota, content]
    rfl
  have hnew :
      (inode.withDirectory (directory.withLimits (change directory.limits) used
        (inode.id == .root))).quota = (directory.withLimits
          (change directory.limits) used (inode.id == .root)).quota := rfl
  have lifts (hroot : inode.id = .root) : liftsInodes = false :=
    Bool.eq_false_iff.2 fun h => guarded ⟨hroot, h⟩
  constructor
  case limits =>
    have hlimits := standard.relimited settable admissible lifts meets.limits
    rw [hquota, ← Directory.limits_eq, Option.isSome_map] at hlimits
    rw [hnew, Directory.quota_withLimits]
    simp only [beq_iff_eq]
    rw [apply_ite (Option.map Quota.limits)]
    exact hlimits
  case cached =>
    intro quota h
    rw [hnew, Directory.quota_withLimits] at h
    split at h
    next =>
      cases h
      cases hold : directory.quota with
      | none => exact member
      | some old =>
        have hcached : old.cached ∈ standard.counts :=
          meets.cached (hquota.trans hold)
        exact hcached
    next => cases h

/-- An inode that is new has no quota. -/
theorem of_bare (id : standard.since ≤ inode.id.val)
    (bare : inode.quota = none) : inode.Meets standard where
  limits := by
    rw [bare]
    exact standard.bare id
  cached h := by
    rw [bare] at h
    cases h

end Meets

theorem ownUsage_mem (standard : Standard) (inode : Inode) :
    inode.ownUsage ∈ standard.counts := by
  rw [Inode.ownUsage_eq]
  cases inode.asFile with
  | none => exact standard.oneInode_mem
  | some file =>
    change file.usage ∈ standard.counts
    rw [File.usage_eq]
    exact add_mem (standard.space_mem ..) standard.oneInode_mem

end Inode

end QuotaTree
