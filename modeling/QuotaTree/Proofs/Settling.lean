/-
What merging and recounting leave.  They change nothing but what quotas have
cached, and afterwards every quota shows the usage of its subtree.
-/
import QuotaTree.Proofs.Overshoot
import QuotaTree.Proofs.Refusal
import QuotaTree.Proofs.Request.Following

namespace QuotaTree

open Nodes

namespace Namespace

variable {ns ns' : Namespace} {operation : Operation} {locks : LockSet}
  {tx : Transaction} {config : Config} {α : Type}

theorem tree_commit (ext : (ns.opened operation locks).Extends tx) :
    tx.commit.table.tree = tx.tree := by
  rw [table_commit]
  exact funext (Transaction.find?_tableAfter (ext.keyed keyed_opened))

theorem next_commit (tx : Transaction) :
    tx.commit.table.next = tx.base.table.next := by
  rw [table_commit, Transaction.next_tableAfter]

/-- A unit of work changes the tree, the ledger and the log of a namespace and
nothing else. -/
theorem commit_eq (sound : ns.Sound)
    (ext : (ns.opened operation locks).Extends tx) : tx.commit = { ns with
      table := tx.commit.table
      ledger := tx.commit.ledger
      edits := ns.edits ++ if ns.imageLoaded then tx.edits else [] } := by
  have hlocks := releaseAll_of_extends sound ext
  obtain ⟨next, _, hbase⟩ := ext.base
  simp only [Transaction.commit, Transaction.unlock, journal_eq, hlocks]
  simp only [hbase, opened, sound.locks]

theorem blocks_of_transact {demand : LockDemand} {work : Work α} {a : α}
    (sound : ns.Sound) (frames : work.Frames)
    (h : transact operation demand work ns = .ok a ns') :
    ns'.blocks = ns.blocks ∧ ns'.nextBlock = ns.nextBlock := by
  obtain ⟨locks, tx, _, hwork, rfl⟩ := exists_of_transact sound.locks h
  rw [commit_eq sound (frames.extends_of_ok hwork)]
  exact ⟨rfl, rfl⟩

/-- A namespace as it was but for what its quotas have cached, what is pending,
and what has been given out. -/
structure Resembles (before after : Namespace) : Prop where
  nodes : before.table.tree.Recached after.table.tree
  next : before.table.next.val ≤ after.table.next.val
  config : after.config = before.config
  loaded : after.imageLoaded = before.imageLoaded
  blocks : after.blocks = before.blocks
  nextBlock : before.nextBlock ≤ after.nextBlock
  edits : after.edits = before.edits

theorem Resembles.refl (ns : Namespace) : ns.Resembles ns :=
  ⟨.refl _, Nat.le_refl _, rfl, rfl, rfl, Nat.le_refl _, rfl⟩

theorem Untouched.resembles (untouched : ns.Untouched ns') :
    ns.Resembles ns' where
  nodes := by
    have htree : ns'.table.tree = ns.table.tree := by
      funext id
      rw [InodeTable.tree, InodeTable.tree, InodeTable.find?, InodeTable.find?,
        untouched.nodes]
    rw [htree]
    exact .refl _
  next := untouched.next
  config := untouched.config
  loaded := untouched.imageLoaded
  blocks := untouched.blocks
  nextBlock := untouched.nextBlock
  edits := untouched.edits

/-- Work that only caches usage, and writes no edit. -/
theorem resembles_transact {demand : LockDemand} {work : Work α}
    (sound : ns.Sound) (frames : work.Frames)
    (caching : ∀ {locks a tx}, work (ns.opened operation locks) = .ok a tx →
      (ns.opened operation locks).tree.Recached tx.tree ∧ tx.edits = []) :
    ns.Resembles (Outcome.state (transact operation demand work ns)) := by
  cases h : transact operation demand work ns with
  | error error ns' =>
    exact (Traceless.transact frames ns error ns' sound.locks h).resembles
  | ok a ns' =>
    obtain ⟨locks, tx, _, hwork, rfl⟩ := exists_of_transact sound.locks h
    have ext := frames.extends_of_ok hwork
    obtain ⟨recached, hedits⟩ := caching hwork
    obtain ⟨next, hle, hbase⟩ := ext.base
    have hnodes : ns.table.tree.Recached tx.commit.table.tree := by
      rw [tree_commit ext, ← @tree_opened ns operation locks]
      exact recached
    have hnext : ns.table.next.val ≤ tx.commit.table.next.val := by
      rw [next_commit, hbase]
      exact hle
    change ns.Resembles tx.commit
    rw [commit_eq sound ext, hedits, ite_self, List.append_nil]
    exact ⟨hnodes, hnext, rfl, rfl, rfl, Nat.le_refl _, rfl⟩

/-- What a merge leaves: all as it was but for what quotas have cached, and
nothing pending. -/
structure Merged (before after : Namespace) : Prop where
  nodes : before.table.tree.Recached after.table.tree
  next : after.table.next = before.table.next
  rest : after = { before with table := after.table, ledger := after.ledger }
  listed : ∀ id, after.ledger.idsOf id = []

/-- When the updates of what is gone have been dropped, only those of what is
there are left. -/
theorem idsOf_withoutGone (sound : ns.Sound) {id : InodeId}
    (h : id ∉ ns.liveTargets) : ns.withoutGone.ledger.idsOf id = [] := by
  refine (Ledger.idsOf_withdrawAll ..).trans ?_
  split
  next => rfl
  next hgone =>
    by_contra hne
    obtain ⟨number, hnumber⟩ := List.exists_mem_of_ne_nil _ hne
    have htarget := sound.ledger.mem_targets hnumber
    rw [liveTargets, List.partition_eq_filter_filter, List.mem_filter] at h
    rw [goneTargets, List.partition_eq_filter_filter, List.mem_filter] at hgone
    cases hlive : ns.table.contains id with
    | true => exact h ⟨htarget, hlive⟩
    | false =>
      exact hgone ⟨htarget, by rw [Function.comp_apply, hlive, Bool.not_false]⟩

/-- All that is pending can be merged, and then nothing is. -/
theorem exists_mergeUpdates (sound : ns.Sound) :
    ∃ count ns', mergeUpdates ns = .ok count ns' ∧ ns.Merged ns' := by
  have hsound := (drifts_withoutGone sound).sound sound
  rw [mergeUpdates_eq sound, tryMerge_eq]
  split
  next hnone =>
    refine ⟨0, ns.withoutGone, rfl, .refl _, rfl, rfl,
      fun id => idsOf_withoutGone sound ?_⟩
    rw [liveTargets, List.isEmpty_iff.1 hnone]
    exact List.not_mem_nil
  next =>
    obtain ⟨locks, count, tx, hplan, hwork⟩ := exists_mergeAll_opened sound
    have ext := (Work.Frames.mergeAll _).extends_of_ok hwork
    have wf :=
      (@ready_opened _ .mergeQuotaUpdates locks hsound.books).wellFormed
    obtain ⟨_, merging, recached, hbase⟩ := Work.mended_mergeAll wf
      (merging_opened hsound) ns.nodup_liveTargets (by simp) hwork
    have hmerge := (transact_eq_ok hsound.locks (.mergeAll _)).2 ⟨locks, tx,
      hplan, hwork, rfl⟩
    refine ⟨count, tx.commit, hmerge, ?_⟩
    constructor
    case nodes =>
      rw [tree_commit ext]
      exact (@tree_opened ns.withoutGone .mergeQuotaUpdates locks) ▸ recached
    case next =>
      rw [next_commit, hbase]
      rfl
    case rest =>
      refine (commit_eq hsound ext).trans ?_
      rw [merging.edits, ite_self, List.append_nil]
      rfl
    case listed =>
      intro id
      rw [ledger_commit]
      refine merging.idsOf_ledgerAfter (fun x hx => ?_) id
      rw [hbase]
      refine idsOf_withoutGone sound fun hlive => hx ?_
      exact List.mem_append_left _ (List.mem_reverse.2 hlive)

namespace Merged

variable (merged : ns.Merged ns')

include merged

theorem settled : ns'.books.Settled := by
  intro id
  refine (Ledger.pendingAt_eq ..).trans ?_
  rw [Ledger.updatesOf, merged.listed]
  rfl

theorem resembles : ns.Resembles ns' := by
  have hnext : ns.table.next.val ≤ ns'.table.next.val := by rw [merged.next]
  have hnodes := merged.nodes
  rw [merged.rest] at hnodes hnext ⊢
  exact ⟨hnodes, hnext, rfl, rfl, rfl, Nat.le_refl _, rfl⟩

end Merged

theorem resembles_mergeUpdates (sound : ns.Sound) :
    ns.Resembles (Outcome.state (mergeUpdates ns)) := by
  obtain ⟨count, ns', h, merged⟩ := exists_mergeUpdates sound
  rw [h]
  exact merged.resembles

theorem resembles_recount (sound : ns.Sound) :
    ns.Resembles (Outcome.state (recount ns)) := by
  rw [recount_eq]
  split
  next =>
    refine resembles_transact sound frames_recountAll
      fun {locks _ _} hwork => ?_
    have wf := (@ready_opened _ .recomputeQuota locks sound.books).wellFormed
    obtain ⟨whole, mid, hrecount, _, rfl⟩ := Work.recountAll_eq_ok.1 hwork
    obtain ⟨ids, _, recounts⟩ := Work.recounts_recount wf hrecount
    refine ⟨recounts.recached, ?_⟩
    change mid.edits = []
    rw [recounts.stores]
    rfl
  next => exact .refl ns

theorem Watching.resembles {request : Request α} (watching : Watching request)
    (sound : ns.Sound) : ns.Resembles (Outcome.state (request ns)) := by
  obtain ⟨pauses, hstate⟩ := watching ns sound.locks
  rw [hstate]
  exact ⟨.refl _, Nat.le_refl _, rfl, rfl, rfl, Nat.le_refl _, rfl⟩

def Counted (ns : Namespace) : Prop :=
  ∀ id inode quota, ns.table.find? id = some inode → inode.quota = some quota →
    ns.table.view.usage id = .ok quota.cached

theorem Keeping.counted (keeping : Keeping config ns)
    (settled : ns.books.Settled) : ns.Counted :=
  fun _ _ _ live hquota => keeping.usage_of_settled settled live hquota

theorem counted_recount {report : RecountReport} (sound : ns.Sound)
    (enabled : ns.config.quotaEnabled = true)
    (h : recount ns = .ok report ns') : ns'.Counted := by
  rw [recount_eq, if_pos enabled] at h
  have hsound : ns'.Sound := by
    have hstate := stepping_recount.sustaining ns sound
    rwa [recount_eq, if_pos enabled, h] at hstate
  obtain ⟨locks, tx, _, hwork, rfl⟩ := exists_of_transact sound.locks h
  have ext := frames_recountAll.extends_of_ok hwork
  have wf := (@ready_opened _ .recomputeQuota locks sound.books).wellFormed
  obtain ⟨whole, mid, hrecount, _, rfl⟩ := Work.recountAll_eq_ok.1 hwork
  obtain ⟨all, hall, recounts⟩ := Work.recounts_recount wf hrecount
  have alike := recounts.recached.recast.alike
  have htree : (Work.cleared mid).commit.table.tree = mid.tree :=
    tree_commit ext
  intro id inode quota live hquota
  obtain ⟨ids, hids, husage⟩ :=
    InodeTable.exists_usage_sum hsound.books.wellFormed live
  change (Work.cleared mid).commit.table.tree id = some inode at live
  rw [htree] at live hids husage
  have spans : (ns.opened .recomputeQuota locks).tree.Spans id ids := fun x =>
    (hids x).trans (alike.under id x)
  obtain ⟨old, hold, _⟩ := alike.symm.live live
  have hcached := recounts.counted ((hall id).2 (wf.under_root hold))
    ((quota_of_live live).trans hquota) spans
  rw [husage, hcached]
  exact congrArg _
    (Finset.sum_congr rfl fun x _ => recounts.recached.recast.own x)

theorem Fits.of_recached (fits : ns.Fits)
    (recached : ns.table.tree.Recached ns'.table.tree) : ns'.Fits := by
  intro id inode file live hfile
  obtain ⟨old, hold, _⟩ := recached.recast.alike.symm.live live
  have hnew := recached id
  rw [hold, show ns'.table.tree id = _ from live, Option.rel_some_some] at hnew
  exact fits id old file hold (hnew.file.symm.trans hfile)

/-- After a merge every quota shows the usage of its subtree. -/
theorem Keeping.counted_merge {count : Nat}
    (enabled : config.quotaEnabled = true) (keeping : Keeping config ns)
    (fits : ns.Fits) (h : mergeUpdates ns = .ok count ns') :
    ns'.Counted := by
  obtain ⟨_, _, hmerge, merged⟩ := exists_mergeUpdates keeping.sound
  rw [h] at hmerge
  cases hmerge
  have hstate : Outcome.state (Call.mergeUpdates.run ns) = ns' := by
    change Outcome.state (discard mergeUpdates ns) = ns'
    rw [state_discard, h]
    rfl
  have keeping' := keeping.call enabled .mergeUpdates fits
    (hstate ▸ fits.of_recached merged.nodes)
  exact (hstate ▸ keeping').counted merged.settled

end Namespace

end QuotaTree
