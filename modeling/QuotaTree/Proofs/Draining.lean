/-
Merging all that is pending.  Every update is for an inode that is there, so
that none is dropped: a merge counts them all, every quota takes in what was
pending below it and then shows what its subtree uses, and nothing else is
touched.
-/
import QuotaTree.Proofs.Request.Placing
import QuotaTree.Proofs.Twins.Merging
import QuotaTree.Proofs.Work.Tally

namespace QuotaTree

open Nodes

namespace Namespace

variable {ns after : Namespace} {config : Config} {count : Nat}

namespace Placed

variable (placed : ns.Placed)

include placed

theorem live_of_mem_targets {id : InodeId} (h : id ∈ ns.ledger.targets) :
    ns.table.contains id = true := by
  rw [Ledger.targets, List.mem_eraseDups, List.mem_map] at h
  obtain ⟨update, hupdate, rfl⟩ := h
  exact placed.live update hupdate

theorem liveTargets : ns.liveTargets = ns.ledger.targets := by
  rw [Namespace.liveTargets, List.partition_eq_filter_filter,
    List.filter_eq_self]
  exact fun _ => placed.live_of_mem_targets

/-- No update is dropped before a merge. -/
theorem withoutGone : ns.withoutGone = ns := by
  have hgone : ns.goneTargets = [] := by
    rw [goneTargets, List.partition_eq_filter_filter, List.filter_eq_nil_iff]
    intro id h
    simp [placed.live_of_mem_targets h]
  rw [Namespace.withoutGone, hgone]
  rfl

/-- A merge counts all updates, and every quota takes in those of its
subtree. -/
theorem absorbed (sound : ns.Sound) (h : mergeUpdates ns = .ok count after) :
    count = ns.ledger.size ∧ ∀ top below, ns.table.tree.Spans top below →
      after.table.tree.quota top = (ns.table.tree.quota top).map
        (·.absorb (∑ x ∈ below, ns.ledger.pendingAt x)) := by
  have nodup : ns.ledger.targets.Nodup := Ledger.nodup_eraseDups _
  have covers : ∀ update ∈ ns.ledger.toList, update.inode ∈ ns.ledger.targets :=
    fun update h => sound.ledger.mem_targets ((sound.ledger.mem_idsOf h).2 rfl)
  -- only targets have updates, so that counting and summing over them misses
  -- nothing
  have hsize := sound.ledger.size_eq_sum nodup covers
  have hsum := sound.ledger.sum_pendingAt covers
  rw [mergeUpdates_eq sound, tryMerge_eq, placed.withoutGone,
    placed.liveTargets] at h
  split at h
  next hnone =>
    obtain ⟨rfl, rfl⟩ := Outcome.pure_eq_ok.1 h
    have hnil := List.isEmpty_iff.1 hnone
    refine ⟨by rw [hsize, hnil]; rfl, fun top below _ => ?_⟩
    rw [← hsum below, hnil]
    simp [Quota.absorb_zero]
  next =>
    obtain ⟨locks, tx, _, hwork, rfl⟩ := exists_of_transact sound.locks h
    have ext := (Work.Frames.mergeAll _).extends_of_ok hwork
    have wf :=
      (@ready_opened ns .mergeQuotaUpdates locks sound.books).wellFormed
    obtain ⟨hcount, hquota⟩ :=
      Work.absorbed_mergeAll wf (merging_opened sound) nodup (by simp) hwork
    refine ⟨hcount.trans hsize.symm, fun top below spans => ?_⟩
    rw [tree_opened] at hquota
    rw [tree_commit ext, ← hsum below]
    exact hquota top below spans

end Placed

/-- What merging all that is pending leaves: an empty ledger, every quota with
what was pending in its subtree taken in, and all else as it was. -/
structure Drains (before after : Namespace) :
    Prop extends Merged before after where
  drained : after.ledger.Drained
  absorbed : ∀ id inode quota, before.table.find? id = some inode →
    inode.quota = some quota →
    ∃ ids inode', before.table.view.subtree id = .ok ids ∧
      after.table.find? id = some inode' ∧
      inode'.quota = some (quota.absorb (before.ledger.outstanding ids))

theorem exists_drains (sound : ns.Sound) (placed : ns.Placed) :
    ∃ after, mergeUpdates ns = .ok ns.ledger.size after ∧ ns.Drains after := by
  obtain ⟨count, after, hmerge, merged⟩ := exists_mergeUpdates sound
  obtain ⟨rfl, hquota⟩ := placed.absorbed sound hmerge
  refine ⟨after, hmerge, merged, merged.drained sound hmerge,
    fun id inode quota live hold => ?_⟩
  obtain ⟨ids, hids, nodup, hmem, _⟩ :=
    InodeTable.exists_usage sound.books.wellFormed live
  have spans : ns.table.tree.Spans id ids.toFinset :=
    fun x => List.mem_toFinset.trans (hmem x)
  have hnew := hquota id _ spans
  rw [quota_of_live live, hold, ← Ledger.outstanding_of_nodup _ nodup] at hnew
  obtain ⟨inode', live', hinode'⟩ := quota_eq_some.1 hnew
  exact ⟨ids, inode', hids, live', hinode'⟩

/-- Where nothing is pending there is nothing to merge. -/
theorem mergeUpdates_of_drained (drained : ns.ledger.Drained) :
    mergeUpdates ns = .ok 0 ns := by
  have htargets : ns.ledger.targets = [] := by
    rw [Ledger.targets, Ledger.toList, drained.updates]
    rfl
  have hsame : ns.withoutGone = ns := by
    rw [withoutGone, goneTargets, htargets]
    rfl
  apply mergeUpdates_of_ok
  rw [tryMerge_eq, hsame, htargets]
  rfl

/-- All that is pending is for inodes that are there; it can be merged as a
whole, after which every quota shows what its subtree uses, and merging again
does nothing. -/
structure Drainable (ns : Namespace) : Prop where
  live :
    ∀ update ∈ ns.ledger.toList, ∃ inode, ns.table.find? update.inode =
        some inode
  merge : ∃ after, mergeUpdates ns = .ok ns.ledger.size after ∧
    ns.Drains after ∧ after.Counted ∧
    mergeUpdates after = .ok 0 after

theorem placed_after (config : Config) (events : List Event) :
    ((fresh config).after (events.map Event.run)).Placed :=
  lasting_placed.after (fun _ _ _ => trivial) rfl (placed_fresh config)

/-- In every run that keeps quotas, a merge drains the whole ledger at any
moment. -/
theorem drainable_after (config : Config) (enabled : config.quotaEnabled = true)
    (calls : List Call)
    (fits : ∀ made, made <+: calls →
      ((fresh config).after (made.map Call.run)).Fits) :
    ((fresh config).after (calls.map Call.run)).Drainable := by
  have keeping := keeping_after enabled calls fits
  have placed : ((fresh config).after (calls.map Call.run)).Placed := by
    have hplaced := placed_after config (calls.map Event.call)
    rwa [List.map_map] at hplaced
  obtain ⟨after, hmerge, drains⟩ := exists_drains keeping.sound placed
  have counted :=
    keeping.counted_merge enabled (fits calls (List.prefix_refl _)) hmerge
  exact ⟨fun update h => Option.isSome_iff_exists.1 (placed.live update h),
    after, hmerge, drains, counted, mergeUpdates_of_drained drains.drained⟩

/-- A run with a quota below another one, in which a file is made anew and moved
away, and a directory is deleted in which a file has been made. -/
def drainRun : List Call :=
  let options : CreateOptions :=
    { writer := ⟨"c", ""⟩, blockSize := some 100, replication := some 2,
      overwrite := true }
  [.mkdirs "/a/b/d" {}, .setQuota "/a" 20 4000,
    .setQuota "/a/b" 10 2000, .create "/a/b/f" options,
    .addBlock "/a/b/f" "c" [], .complete "/a/b/f" "c" 10,
    .create "/a/b/f" options, .complete "/a/b/f" "c" 0, .rename "/a/b/f" "/a/g",
    .create "/a/b/d/h" options, .delete "/a/b/d" true]

theorem drainable_after_drainRun :
    let ns := (fresh {}).after (drainRun.map Call.run)
    ns.ledger.size = 11 ∧ ns.Drainable := by
  have fits :
      ∀ made ∈ drainRun.inits, ((fresh {}).after (made.map Call.run)).Fits := by
    decide +kernel
  exact ⟨by decide +kernel, drainable_after {} rfl drainRun fun made hmade =>
    fits made ((List.mem_inits _ _).2 hmade)⟩

end Namespace

end QuotaTree
