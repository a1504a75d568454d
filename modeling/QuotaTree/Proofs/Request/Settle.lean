/-
Merging and recounting: what is pending goes into the quotas above it, or all
usage is counted anew.
-/
import QuotaTree.Proofs.Request.Rules
import QuotaTree.Proofs.Work.Merge
import QuotaTree.Proofs.Work.Recount

namespace QuotaTree

open Work Transaction

/-- What is listed once for each member has no member twice. -/
theorem Ledger.nodup_eraseDups : ∀ list : List InodeId, list.eraseDups.Nodup
  | [] => List.nodup_nil
  | head :: tail => by
    have hrest := nodup_eraseDups (tail.filter fun x => !x == head)
    rw [List.eraseDups_cons, List.nodup_cons, List.mem_eraseDups]
    exact ⟨by simp, hrest⟩
termination_by list => list.length
decreasing_by exact Nat.lt_succ_of_le (List.length_filter_le ..)

namespace Namespace

variable {ns ns' : Namespace} {operation : Operation} {locks : LockSet}

theorem merging_opened (sound : ns.Sound) :
    (ns.opened operation locks).Merging [] where
  ledger := sound.ledger
  updates := rfl
  withdrawn := rfl
  clearing := rfl
  edits := rfl
  merged _ := by
    change _ ∈ ([] : List Nat) ↔ _
    simp

def liveTargets (ns : Namespace) : List InodeId :=
  (ns.ledger.targets.partition ns.table.contains).1

def goneTargets (ns : Namespace) : List InodeId :=
  (ns.ledger.targets.partition ns.table.contains).2

def withoutGone (ns : Namespace) : Namespace :=
  { ns with ledger := ns.ledger.withdrawAll ns.goneTargets }

theorem tryMerge_eq :
    tryMerge ns =
      (if ns.ledger.targets.isEmpty then pure 0
        else transact .mergeQuotaUpdates { quotaChains := ns.liveTargets }
          (Work.mergeAll ns.liveTargets)) ns.withoutGone :=
  rfl

theorem dead_of_mem_goneTargets {x : InodeId} (h : x ∈ ns.goneTargets) :
    ns.table.tree x = none := by
  rw [goneTargets, List.partition_eq_filter_filter] at h
  have hnot := (List.mem_filter.1 h).2
  simpa [InodeTable.contains] using hnot

/-- Nothing is pending for what is gone, so that nothing changes when it is
dropped. -/
theorem books_withoutGone (sound : ns.Sound) :
    ns.withoutGone.books = ns.books := by
  obtain ⟨_, hpending⟩ := sound.ledger.withdrawAll ns.goneTargets
  have hsame :
      (ns.ledger.withdrawAll ns.goneTargets).pendingAt =
        ns.ledger.pendingAt := by
    funext x
    rw [hpending]
    split
    next h => exact (sound.books.pending (dead_of_mem_goneTargets h)).symm
    next => rfl
  simp only [books, withoutGone, hsame]

theorem drifts_withoutGone (sound : ns.Sound) : ns.Drifts ns.withoutGone :=
  ⟨rfl, rfl, (sound.ledger.withdrawAll ns.goneTargets).1, sound.locks,
    (books_withoutGone sound).symm ▸ .refl⟩

theorem nodup_liveTargets (ns : Namespace) : ns.liveTargets.Nodup := by
  rw [liveTargets, List.partition_eq_filter_filter]
  exact (Ledger.nodup_eraseDups _).filter _

theorem live_of_mem_liveTargets {id : InodeId} (h : id ∈ ns.liveTargets) :
    ∃ inode, ns.table.tree id = some inode := by
  rw [liveTargets, List.partition_eq_filter_filter] at h
  exact Option.isSome_iff_exists.1 (List.mem_filter.1 h).2

/-- What is pending at inodes that are there can be merged, all of it. -/
theorem exists_mergeAll_opened (sound : ns.Sound) :
    ∃ locks count tx,
      LockDemand.plan { quotaChains := ns.liveTargets }
        ns.withoutGone.table.view = .ok locks ∧
        Work.mergeAll ns.liveTargets
          (ns.withoutGone.opened .mergeQuotaUpdates locks) =
          .ok count tx := by
  have hsound := (drifts_withoutGone sound).sound sound
  have live : ∀ id ∈ ns.liveTargets, ∃ inode, ns.table.tree id = some inode :=
    fun _ => live_of_mem_liveTargets
  obtain ⟨locks, hplan, hholds⟩ :=
    InodeTable.plan_upward hsound.books.wellFormed live
  have wf := (@ready_opened _ .mergeQuotaUpdates locks hsound.books).wellFormed
  have climbable : ∀ id ∈ ns.liveTargets,
      (ns.withoutGone.opened .mergeQuotaUpdates locks).Climbable id :=
    fun id hid => by
    refine ⟨tree_opened ▸ live id hid, fun x inode hunder hx => .inl ?_⟩
    exact hholds id hid x inode (tree_opened ▸ hunder) (tree_opened ▸ hx)
  obtain ⟨count, tx, hwork⟩ := Work.exists_mergeAll wf
    (merging_opened hsound) ns.nodup_liveTargets (by simp) climbable
  exact ⟨locks, count, tx, hplan, hwork⟩

/-- A merge that succeeds at the first attempt needs no other. -/
theorem mergeRetrying_of_ok {count : Nat} (h : tryMerge ns = .ok count ns')
    (retries : Nat) : mergeRetrying retries ns = .ok count ns' := by
  cases retries with
  | zero => exact h
  | succ retries => exact Outcome.tryCatch_of_ok h

theorem mergeUpdates_of_ok {count : Nat} (h : tryMerge ns = .ok count ns') :
    mergeUpdates ns = .ok count ns' :=
  mergeRetrying_of_ok h ns.config.lockRetries

/-- The first attempt succeeds: between two requests nothing goes away. -/
theorem mergeUpdates_eq (sound : ns.Sound) : mergeUpdates ns = tryMerge ns := by
  suffices hmerge : ∃ count ns', tryMerge ns = .ok count ns' by
    obtain ⟨count, ns', h⟩ := hmerge
    rw [h, mergeUpdates_of_ok h]
  have hsound := (drifts_withoutGone sound).sound sound
  rw [tryMerge_eq]
  split
  · exact ⟨0, _, rfl⟩
  · obtain ⟨locks, count, tx, hplan, hwork⟩ := exists_mergeAll_opened sound
    exact ⟨count, tx.commit, (transact_eq_ok hsound.locks (.mergeAll _)).2
      ⟨locks, tx, hplan, hwork, rfl⟩⟩

theorem stepping_mergeUpdates : Stepping true mergeUpdates := by
  intro ns sound
  have hgone := drifts_withoutGone sound
  have hsound := hgone.sound sound
  rw [mergeUpdates_eq sound, tryMerge_eq]
  split
  next => exact hgone.steps true
  next =>
    rcases state_transact hsound (.mergeAll ns.liveTargets) with
      ⟨locks, count, tx, ext, _, hwork, hstate⟩ | hdrifts
    · rw [hstate]
      have wf :=
        (@ready_opened _ .mergeQuotaUpdates locks hsound.books).wellFormed
      obtain ⟨mended, _, _⟩ := mended_mergeAll wf (merging_opened hsound)
        ns.nodup_liveTargets (by simp) hwork
      rw [books_opened, books_withoutGone sound] at mended
      have advance :=
        advance_commit hsound ext (books_withoutGone sound ▸ mended)
      exact ⟨advance.config, advance.loaded, advance.ledger, advance.locks,
        .mended rfl (books_withoutGone sound ▸ advance.books)⟩
    · exact (hgone.trans hdrifts).steps true

theorem recount_eq :
    recount ns =
      (if ns.config.quotaEnabled then
        transact .recomputeQuota
          (.ofPath { path := "/", kind := .write, scope := .subtree })
          Work.recountAll
      else pure {}) ns :=
  rfl

theorem frames_recountAll : Frames recountAll :=
  .bind .maxDepth fun _ => .bind (.recount _ _) fun _ => .bind .clearLedger
    fun _ => .pure _

/-- Recounting sets every quota to what is used, and leaves nothing pending. -/
theorem stepping_recount : Stepping true recount := by
  intro ns sound
  rw [recount_eq]
  split
  next =>
    rcases state_transact sound frames_recountAll with
      ⟨locks, report, tx, ext, _, hwork, hstate⟩ | hdrifts
    · rw [hstate]
      have wf := (@ready_opened _ .recomputeQuota locks sound.books).wellFormed
      have mend := mend_recountAll wf rfl hwork
      exact advance_commit sound ext (.mended rfl (books_opened ▸ .single mend))
    · exact hdrifts.steps true
  next => exact (Drifts.refl sound).steps true

end Namespace

end QuotaTree
