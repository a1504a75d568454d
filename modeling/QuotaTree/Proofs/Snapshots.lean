/-
What quotas have cached is a snapshot.  It is the usage that a directory had
when cached usage was last brought up to date, or that of an empty directory if
it has been made since, wherever the directory and what is in it have been moved
meanwhile.
-/
import QuotaTree.Proofs.Recovery
import QuotaTree.Proofs.Usage.Persist
import Mathlib.Data.List.DropRight

namespace QuotaTree

open Nodes

/-- The calls of a run up to the last one that brings cached usage up to
date. -/
def Call.uptoSettled (calls : List Call) : List Call :=
  calls.rdropWhile fun call => !call.settles

theorem Call.uptoSettled_append (calls : List Call) (call : Call) :
    uptoSettled (calls ++ [call]) = if call.settles then
      calls ++ [call] else uptoSettled calls := by
  rw [uptoSettled, List.rdropWhile_concat, uptoSettled]
  cases call.settles <;> rfl

namespace Namespace

/-- What quotas have cached where it was last brought up to date in an earlier
namespace: the usage that their directories had there, and the usage of an empty
directory if they were not there. -/
structure Recalls (ns base : Namespace) : Prop where
  old : ∀ {id inode quota}, ns.table.find? id = some inode →
    inode.quota = some quota →
    base.table.contains id = true → base.table.view.usage id = .ok quota.cached
  new : ∀ {id inode quota}, ns.table.find? id = some inode →
    inode.quota = some quota →
    base.table.contains id = false → quota.cached = Counts.oneInode
  nonneg : ∀ {id inode quota}, ns.table.find? id = some inode →
    inode.quota = some quota →
    ∀ dimension, 0 ≤ quota.cached.get dimension
  counted : ∀ {id inode quota}, ns.table.find? id = some inode →
    inode.quota = some quota →
    1 ≤ quota.cached.inodes

variable {ns base : Namespace} {config : Config} {id : InodeId} {inode : Inode}
  {quota : Quota} {total used : Counts}

/-- What a quota has cached is settled in its subtree. -/
theorem Keeping.sums (keeping : Keeping config ns)
    (live : ns.table.find? id = some inode)
    (hquota : inode.quota = some quota) : ns.books.Sums id quota.cached := by
  obtain ⟨ids, spans, _⟩ :=
    InodeTable.exists_usage_sum keeping.sound.books.wellFormed live
  exact ⟨ids, spans,
    (keeping.balanced ((quota_of_live live).trans hquota) spans).symm⟩

/-- With nothing pending, what is settled in a subtree is its usage. -/
theorem usage_of_sums (sound : ns.Sound) (settled : ns.books.Settled)
    (live : ns.table.find? id = some inode) (sums : ns.books.Sums id total) :
    ns.table.view.usage id = .ok total := by
  obtain ⟨ids, spans, rfl⟩ := sums
  obtain ⟨olds, holds, husage⟩ :=
    InodeTable.exists_usage_sum sound.books.wellFormed live
  rw [husage, holds.unique spans]
  exact congrArg _ (Finset.sum_congr rfl fun x _ => by
    rw [Books.settled, settled x, sub_zero]
    rfl)

/-- Usage is never negative, and counts the inode itself. -/
theorem counts_usage (sound : ns.Sound) (fits : ns.Fits)
    (live : ns.table.find? id = some inode)
    (h : ns.table.view.usage id = .ok used) :
    (∀ dimension, 0 ≤ used.get dimension) ∧ 1 ≤ used.inodes := by
  obtain ⟨ids, spans, husage⟩ :=
    InodeTable.exists_usage_sum sound.books.wellFormed live
  obtain rfl := Except.ok.inj (husage.symm.trans h)
  constructor
  · intro dimension
    rw [Counts.get_sum]
    exact Finset.sum_nonneg fun x _ => fits.books.own_nonneg x dimension
  · rw [Counts.inodes_sum]
    have hself := Finset.single_le_sum
      (fun x _ => inodes_own_nonneg ns.table.tree x) ((spans id).2 (.refl _ id))
    rwa [own_of_live live, inode.inodes_ownUsage] at hself

/-- A merge and a recount leave nothing pending. -/
theorem settled_call {call : Call} (sound : ns.Sound)
    (enabled : ns.config.quotaEnabled = true) (settles : call.settles = true) :
    (Outcome.state (call.run ns)).books.Settled := by
  cases call with
  | mergeUpdates =>
    obtain ⟨count, ns', h, merged⟩ := exists_mergeUpdates sound
    rw [Call.run, state_discard, h]
    exact merged.settled
  | recount =>
    obtain ⟨_, whole, mid, _, _, _, h⟩ := exists_recount sound enabled
    rw [Call.run, state_discard, h]
    exact settled_recount sound enabled h
  | _ => cases settles

/-- What was settled when cached usage was last brought up to date is settled
still. -/
theorem persists_after (config : Config) (enabled : config.quotaEnabled = true)
    (calls : List Call)
    (fits : ∀ made, made <+: calls →
      ((fresh config).after (made.map Call.run)).Fits) :
    ((fresh config).after
      ((Call.uptoSettled calls).map Call.run)).books.Settled ∧
      ((fresh config).after
        ((Call.uptoSettled calls).map Call.run)).books.Persists
        ((fresh config).after (calls.map Call.run)).books := by
  induction calls using List.reverseRecOn with
  | nil => exact ⟨fun id => Ledger.pendingAt_empty id, .refl _⟩
  | append_singleton calls call ih =>
    have fits' : ∀ made, made <+: calls →
        ((fresh config).after (made.map Call.run)).Fits :=
      fun made hmade => fits made (hmade.trans (List.prefix_append _ _))
    have keeping := keeping_after enabled calls fits'
    have hfits := fits calls (List.prefix_append _ _)
    have hfits' := fits _ (List.prefix_refl _)
    rw [List.map_append, after_append] at hfits'
    rw [Call.uptoSettled_append]
    cases hsettles : call.settles with
    | true =>
      rw [if_pos rfl, List.map_append, after_append]
      exact ⟨settled_call keeping.sound
        ((congrArg Config.quotaEnabled keeping.config).trans enabled) hsettles,
        .refl _⟩
    | false =>
      have effect := (stepping_call call _ keeping.sound).books
      rw [hsettles, keeping.keepsQuota enabled] at effect
      obtain ⟨settled, persists⟩ := ih fits'
      rw [if_neg Bool.false_ne_true, List.map_append, after_append]
      exact ⟨settled, persists.trans (effect.persists keeping.sound.books
        keeping.shaped hfits.books hfits'.books)⟩

/-- Each quota has cached the usage that its directory had when cached usage was
last brought up to date, or that of an empty directory if it has been made
since. -/
theorem recalls_of_persists (keeping : Keeping config ns)
    (earlier : Keeping config base) (fits : base.Fits)
    (settled : base.books.Settled) (persists : base.books.Persists ns.books) :
    ns.Recalls base := by
  have hcached {id inode quota} (live : ns.table.find? id = some inode)
      (hquota : inode.quota = some quota) :
      (∃ old, base.table.find? id = some old ∧
        base.table.view.usage id = .ok quota.cached) ∨
        base.table.find? id = none ∧ quota.cached = Counts.oneInode := by
    rcases persists.sums ⟨inode, live, Inode.isDirectory_of_quota hquota⟩
        (keeping.sums live hquota) with ⟨⟨old, hold, _⟩, sums⟩ | ⟨hnew, hone⟩
    · exact .inl ⟨old, hold, usage_of_sums earlier.sound settled hold sums⟩
    · refine .inr ⟨Option.eq_none_iff_forall_ne_some.2 fun old hold => ?_, hone⟩
      exact absurd (earlier.sound.books.below hold) (Nat.not_lt.2 hnew)
  have hcounts {id inode quota} (live : ns.table.find? id = some inode)
      (hquota : inode.quota = some quota) :
      (∀ dimension, 0 ≤ quota.cached.get dimension) ∧
      1 ≤ quota.cached.inodes := by
    rcases hcached live hquota with ⟨old, hold, husage⟩ | ⟨_, hone⟩
    · exact counts_usage earlier.sound fits hold husage
    · rw [hone]
      exact ⟨Counts.oneInode_nonneg, Int.le_refl 1⟩
  constructor
  case old =>
    intro id inode quota live hquota hbase
    rcases hcached live hquota with ⟨_, _, husage⟩ | ⟨hnone, _⟩
    · exact husage
    · simp [InodeTable.contains, hnone] at hbase
  case new =>
    intro id inode quota live hquota hbase
    rcases hcached live hquota with ⟨old, hold, _⟩ | ⟨_, hone⟩
    · simp [InodeTable.contains, hold] at hbase
    · exact hone
  case nonneg => exact fun live hquota => (hcounts live hquota).1
  case counted => exact fun live hquota => (hcounts live hquota).2

/-- All that is settled in a fresh namespace is the root by itself. -/
theorem sums_fresh (live : (fresh config).table.find? id = some inode)
    (sums : (fresh config).books.Sums id total) : total = Counts.oneInode := by
  obtain ⟨rfl, rfl⟩ := InodeTable.eq_root_of_fresh live
  exact ((keeping_fresh config).balanced.cached_eq
    (quota_of_live live) sums).symm

/-- In every run that keeps quotas, what they have cached is the usage that
their directories had right after the last call that brought it up to date, and
that of an empty directory for those made since then, or for all of them if
there was no such call. -/
theorem recalls_after (config : Config) (enabled : config.quotaEnabled = true)
    (calls : List Call)
    (fits : ∀ made, made <+: calls →
      ((fresh config).after (made.map Call.run)).Fits) :
    ((fresh config).after (calls.map Call.run)).Recalls
        ((fresh config).after ((Call.uptoSettled calls).map Call.run)) ∧
      ((∀ call ∈ calls, call.settles = false) →
        ∀ id inode quota, ((fresh config).after
          (calls.map Call.run)).table.find? id = some inode →
          inode.quota = some quota → quota.cached = Counts.oneInode) := by
  have keeping := keeping_after enabled calls fits
  have hprefix : Call.uptoSettled calls <+: calls := List.rdropWhile_prefix _ _
  obtain ⟨settled, persists⟩ := persists_after config enabled calls fits
  constructor
  · exact recalls_of_persists keeping (keeping_after enabled _ fun made hmade =>
      fits made (hmade.trans hprefix)) (fits _ hprefix) settled persists
  · intro hnone id inode quota live hquota
    have hempty : Call.uptoSettled calls = [] :=
      List.rdropWhile_eq_nil_iff.2 fun call hcall => by
      rw [hnone call hcall]; rfl
    rw [hempty] at persists
    rcases persists.sums ⟨inode, live, Inode.isDirectory_of_quota hquota⟩
        (keeping.sums live hquota) with ⟨⟨root, hroot, _⟩, sums⟩ | ⟨_, hone⟩
    · exact sums_fresh hroot sums
    · exact hone

def settlingRun : List Call :=
  [.mkdirs "/a/b" {}, .setQuota "/a" 10 1000, .setQuota "/a/b" 9 900,
    .create "/a/b/f"
      { writer := ⟨"c", ""⟩, blockSize := some 100, replication := some 2 },
    .addBlock "/a/b/f" "c" [], .complete "/a/b/f" "c" 10, .mergeUpdates]

/-- A run that moves the content of limited directories, and drops a quota and
sets it again. -/
def movingRun : List Call :=
  [.mkdirs "/c" {}, .rename "/a/b/f" "/c", .setQuota "/a/b" (-1) (-1),
    .rename "/a/b" "/c", .setQuota "/c" 20 2000, .setQuota "/c/b" 8 800,
    .delete "/c/f" false]

theorem recalls_after_movingRun :
    ((fresh {}).after ((settlingRun ++ movingRun).map Call.run)).Recalls
      ((fresh {}).after (settlingRun.map Call.run)) := by
  have fits : ∀ made ∈ (settlingRun ++ movingRun).inits,
      ((fresh {}).after (made.map Call.run)).Fits := by
    decide +kernel
  exact (recalls_after {} rfl (settlingRun ++ movingRun) fun made hmade =>
    fits made ((List.mem_inits _ _).2 hmade)).1

-- The file has left `/c/b`, and is deleted, but the quota that is set there
-- again remembers it.
example :
    ((((fresh {}).after ((settlingRun ++ movingRun).map Call.run)).table.find?
      ⟨3⟩).bind Inode.quota).map Quota.cached =
      some { inodes := 2, bytes := 20, disk := 20 } := by
  decide +kernel

end Namespace

end QuotaTree
