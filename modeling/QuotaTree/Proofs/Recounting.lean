/-
Recounting all usage.  From whatever state it is made, a recount succeeds, sets
every quota to what its subtree uses, drops what is pending and changes nothing
else; what it reports is what the tree shows.  Made again it finds nothing to
mend.
-/
import QuotaTree.Command
import QuotaTree.Proofs.Convergence
import QuotaTree.Proofs.Recovery

namespace QuotaTree

open Nodes

namespace Quota

def Overrun (limits used : Counts) : Prop :=
  ∃ dimension, 0 ≤ limits.get dimension ∧
    limits.get dimension < used.get dimension

theorem overruns_iff {quota : Quota} {used : Counts} :
    (!({ quota with cached := used } : Quota).overruns.isEmpty) = true ↔
      Overrun quota.limits used := by
  simp [overruns, Overrun, Limit.overrun, List.filter_eq_nil_iff]

end Quota

/-- What a command has loaded is what a log leaves that is replayed to its
end. -/
theorem Command.exists_replay_of_load {log : SourceFile}
    {settings : Option SourceFile} {ns : Namespace}
    (h : load log settings = .ok ns) :
    ∃ config edits report, Namespace.replay edits (.fresh config) =
        .ok report ns := by
  have hbind {α : Type} {x : Except CommandError α}
      {f : α → Except CommandError Namespace} (h : (x >>= f) = .ok ns) :
      ∃ a, f a = .ok ns := by
    cases x with
    | error error => cases h
    | ok a => exact ⟨a, h⟩
  cases settings
  all_goals
    obtain ⟨config, h⟩ := hbind h
    obtain ⟨edits, h⟩ := hbind h
    cases hrun : Namespace.replay edits (.fresh config) with
    | ok report built =>
      rw [hrun] at h
      cases h
      exact ⟨config, edits, report, hrun⟩
    | error error failed =>
      rw [hrun] at h
      cases h

namespace Namespace

variable {ns ns' twin : Namespace} {operation : Operation} {locks : LockSet}
  {id : InodeId} {report : RecountReport}

/-- A directory has a quota that is marked, given what is pending and what is
used in its subtree. -/
def Bears (ns : Namespace) (mark : Quota → Counts → Counts → Prop)
    (id : InodeId) : Prop :=
  ∃ inode quota ids used, ns.table.find? id = some inode ∧
    inode.quota = some quota ∧
    ns.table.view.subtree id = .ok ids ∧ ns.table.view.usage id = .ok used ∧
    mark quota (ns.ledger.outstanding ids) used

/-- The usage of a directory lies above one of its limits. -/
def Violated (ns : Namespace) (id : InodeId) : Prop :=
  ns.Bears (fun quota _ used => Quota.Overrun quota.limits used) id

/-- A number is that of the inodes with a property. -/
def HowMany (number : Nat) (bears : InodeId → Prop) : Prop :=
  ∃ marked : Finset InodeId, (∀ id, id ∈ marked ↔ bears id) ∧
    number = marked.card

theorem HowMany.congr {number : Nat} {bears bears' : InodeId → Prop}
    (howMany : HowMany number bears) (same : ∀ id, bears id ↔ bears' id) :
    HowMany number bears' := by
  obtain ⟨marked, hmarked, hcard⟩ := howMany
  exact ⟨marked, fun id => (hmarked id).trans (same id), hcard⟩

theorem HowMany.unique {number number' : Nat} {bears : InodeId → Prop}
    (howMany : HowMany number bears) (howMany' : HowMany number' bears) :
    number = number' := by
  obtain ⟨marked, hmarked, rfl⟩ := howMany
  obtain ⟨marked', hmarked', rfl⟩ := howMany'
  exact congrArg Finset.card
    (Finset.ext fun id => (hmarked id).trans (hmarked' id).symm)

theorem HowMany.pos_iff {number : Nat} {bears : InodeId → Prop}
    (howMany : HowMany number bears) : 0 < number ↔ ∃ id, bears id := by
  obtain ⟨marked, hmarked, rfl⟩ := howMany
  rw [Finset.card_pos]
  exact exists_congr hmarked

/-- What a recount leaves, which is what a merge leaves, and what it reports. -/
structure Refreshed (before : Namespace) (report : RecountReport)
    (after : Namespace) : Prop extends before.Merged after where
  counted : after.Counted
  ledger : after.ledger = before.ledger.clear
  directories : HowMany report.directories (before.Bears fun _ _ _ => True)
  inconsistencies : HowMany report.inconsistencies
    (before.Bears fun quota pending used => quota.cached + pending ≠ used)
  violations : HowMany report.violations before.Violated

/-- The quotas that are marked when a recount begins. -/
theorem marked_opened_iff (sound : ns.Sound)
    {mark : Quota → Counts → Counts → Bool} :
    Work.Marked (ns.opened operation locks) mark id ↔
      ns.Bears
        (fun quota pending used => mark quota pending used = true) id := by
  have hpending (list : List InodeId) :
      (ns.opened operation locks).pendingFor list =
        ns.ledger.outstanding list := by
    simp [Transaction.pendingFor, opened]
  have htotal {ids : List InodeId} (nodup : ids.Nodup) :
      ∑ x ∈ ids.toFinset, (ns.opened operation locks).pendingFor [x] =
        ns.ledger.outstanding ids := by
    rw [Ledger.outstanding_of_nodup _ nodup]
    exact Finset.sum_congr rfl fun x _ => hpending [x]
  simp only [Work.Marked, Bears, tree_opened]
  constructor
  · rintro ⟨quota, below, hquota, spans, hmark⟩
    obtain ⟨inode, live, hinode⟩ := quota_eq_some.1 hquota
    obtain ⟨ids, hids, nodup, hmem, husage⟩ :=
      InodeTable.exists_usage sound.books.wellFormed live
    have hbelow : below = ids.toFinset :=
      spans.unique fun x => List.mem_toFinset.trans (hmem x)
    rw [hbelow, htotal nodup, ← Counts.sum_map_of_nodup nodup] at hmark
    exact ⟨inode, quota, ids, _, live, hinode, hids, husage, hmark⟩
  · rintro ⟨inode, quota, ids, used, live, hinode, hids, husage, hmark⟩
    obtain ⟨ids', hids', nodup, hmem, husage'⟩ :=
      InodeTable.exists_usage sound.books.wellFormed live
    cases hids.symm.trans hids'
    cases husage.symm.trans husage'
    rw [← htotal nodup, Counts.sum_map_of_nodup nodup] at hmark
    exact ⟨quota, _, (quota_of_live live).trans hinode,
      fun x => List.mem_toFinset.trans (hmem x), hmark⟩

theorem refreshed_of_recount (sound : ns.Sound)
    (enabled : ns.config.quotaEnabled = true)
    (h : recount ns = .ok report ns') : ns.Refreshed report ns' := by
  have counted := counted_recount sound enabled h
  rw [recount_eq, if_pos enabled] at h
  obtain ⟨locks, tx, _, hwork, rfl⟩ := exists_of_transact sound.locks h
  have ext := frames_recountAll.extends_of_ok hwork
  have wf := (@ready_opened _ .recomputeQuota locks sound.books).wellFormed
  obtain ⟨whole, mid, hrecount, rfl, rfl⟩ := Work.recountAll_eq_ok.1 hwork
  obtain ⟨all, hall, recounts⟩ := Work.recounts_recount wf hrecount
  have hledger : (Work.cleared mid).commit.ledger = ns.ledger.clear := by
    rw [ledger_commit, recounts.stores]
    rfl
  -- every quota is in the tree that is recounted
  have howMany {number : RecountReport → Nat}
      {mark : Quota → Counts → Counts → Bool}
      (tells : RecountReport.Tells number mark) : HowMany (number whole.report)
      (ns.Bears fun quota pending used => mark quota pending used = true) := by
    obtain ⟨marked, hmarked, hcard⟩ := recounts.reported tells
    refine ⟨marked, fun id => ?_, hcard⟩
    rw [hmarked, marked_opened_iff sound]
    refine and_iff_right_of_imp ?_
    rintro ⟨inode, _, _, _, live, _⟩
    exact (hall id).2 (wf.under_root (by rw [tree_opened]; exact live))
  refine ⟨⟨?_, ?_, ?_, ?_⟩, counted, hledger, ?_, ?_, ?_⟩
  · rw [tree_commit ext, ← @tree_opened ns .recomputeQuota locks]
    exact recounts.recached
  · rw [next_commit, recounts.stores]
    rfl
  · refine (commit_eq sound ext).trans ?_
    rw [show (Work.cleared mid).edits =
      [] by rw [recounts.stores]; rfl, ite_self, List.append_nil]
  · intro id
    rw [hledger]
    simp [Ledger.idsOf, Ledger.clear]
  · exact (howMany RecountReport.tells_directories).congr fun id => by simp
  · exact (howMany RecountReport.tells_inconsistencies).congr fun id => by simp
  · exact (howMany RecountReport.tells_violations).congr fun id => by
      simp only [Quota.overruns_iff, Violated]

theorem exists_refreshed (sound : ns.Sound)
    (enabled : ns.config.quotaEnabled = true) :
    ∃ report ns', recount ns = .ok report ns' ∧ ns.Refreshed report ns' := by
  obtain ⟨_, whole, mid, _, _, _, hrecount⟩ := exists_recount sound enabled
  exact ⟨_, _, hrecount, refreshed_of_recount sound enabled hrecount⟩

/-- Twins have the same limits and use the same. -/
theorem Twins.bears (twins : ns.Twins twin) {mark : Counts → Counts → Prop}
    (h : ns.Bears (fun quota _ used => mark quota.limits used) id) :
    twin.Bears (fun quota _ used => mark quota.limits used) id := by
  obtain ⟨inode, quota, ids, used, live, hquota, hids, husage, hmark⟩ := h
  have views := InodeTable.view_matches twins.nodes
  have hrel :
      Option.Rel (Inode.Matches .same) (ns.table.find? id)
        (twin.table.find? id) := twins.nodes.at_pair rfl
  obtain ⟨inode', live', inodes⟩ := exists_right_of_rel hrel live
  obtain ⟨quota', hquota', hlimits⟩ :=
    exists_right_of_rel (rel_of_map_eq inodes.limits) hquota
  obtain ⟨ids', hids', _⟩ := views.subtree (b := id) rfl _ hids
  obtain ⟨_, husage', rfl⟩ := views.usage (b := id) rfl _ husage
  have hmark' : mark quota'.limits used := hlimits ▸ hmark
  exact ⟨inode', quota', ids', used, live', hquota', hids', husage', hmark'⟩

namespace Refreshed

variable (refreshed : ns.Refreshed report ns')

include refreshed

/-- A recount leaves nothing to mend. -/
theorem consistent (sound : ns'.Sound) (id : InodeId) :
    ¬ ns'.Bears (fun quota pending used => quota.cached + pending ≠ used)
      id := by
  rintro ⟨inode, quota, ids, used, live, hquota, hids, husage, hne⟩
  have accurate := refreshed.counted.accurate sound refreshed.settled
  obtain ⟨ids', used', hids', husage', htotal⟩ :=
    accurate id inode quota live hquota
  cases hids.symm.trans hids'
  cases husage.symm.trans husage'
  exact hne htotal

/-- A second recount reports the same quotas and no inconsistency, and changes
nothing at all. -/
theorem again (sound : ns'.Sound) (enabled : ns'.config.quotaEnabled = true) :
    ∃ again, recount ns' = .ok again ns' ∧
      again.directories = report.directories ∧
      again.violations = report.violations ∧ again.inconsistencies = 0 := by
  obtain ⟨second, last, hrecount, refreshed'⟩ := exists_refreshed sound enabled
  have same {mark : Counts → Counts → Prop} (id : InodeId) :
      ns'.Bears (fun quota _ used => mark quota.limits used) id ↔
        ns.Bears (fun quota _ used => mark quota.limits used) id :=
    ⟨refreshed.twins.bears, refreshed.twins.symm.bears⟩
  have hlast : last = ns' := by
    have htable : last.table = ns'.table :=
      refreshed'.twins.table_eq refreshed'.counted refreshed.counted
    have hledger : last.ledger = ns'.ledger := by
      rw [refreshed'.ledger, refreshed.ledger]
      rfl
    rw [refreshed'.rest, htable, hledger]
  refine ⟨second, hlast ▸ hrecount, ?_, ?_, ?_⟩
  · exact (refreshed'.directories.congr (@same fun _ _ => True)).unique
      refreshed.directories
  · exact (refreshed'.violations.congr (@same Quota.Overrun)).unique
      refreshed.violations
  · by_contra hne
    obtain ⟨id, hid⟩ :=
      refreshed'.inconsistencies.pos_iff.1 (Nat.pos_of_ne_zero hne)
    exact refreshed.consistent sound id hid

end Refreshed

theorem Refreshed.code_runCheck (refreshed : ns.Refreshed report ns')
    (sound : ns'.Sound) (enabled : ns'.config.quotaEnabled = true) :
    (Command.runCheck ns').code ≠ 0 ↔ ∃ id, ns'.Violated id := by
  obtain ⟨second, hsecond, _, _, hconsistent⟩ := refreshed.again sound enabled
  have refreshed' := refreshed_of_recount sound enabled hsecond
  rw [show (∃ id, ns'.Violated id) ↔
    0 < second.violations from refreshed'.violations.pos_iff.symm]
  simp only [Command.runCheck, hsecond, hconsistent, Nat.lt_irrefl, false_or]
  split
  · next hpos => exact iff_of_true Nat.one_ne_zero hpos
  · next hnone => exact iff_of_false (fun h => h rfl) hnone

theorem Stepping.standing {α : Type} {mends : Bool} {request : Request α}
    {config : Config} (stepping : Stepping mends request) :
    Maintaining (fun ns => ns.Sound ∧ ns.config = config) request :=
  fun ns ⟨sound, hconfig⟩ =>
    ⟨stepping.sustaining ns sound, (stepping ns sound).config.trans hconfig⟩

/-- Settings stay as they are. -/
theorem standing_event {config : Config} (event : Event) :
    Maintaining (fun ns => ns.Sound ∧ ns.config = config) event.run := by
  have marking (loaded : Bool) :
      Maintaining (fun ns => ns.Sound ∧ ns.config = config)
        (setImageLoaded loaded) := fun ns held =>
    ⟨sustaining_setImageLoaded loaded ns held.1, held.2⟩
  cases event with
  | call call => exact (stepping_call call).standing
  | apply edit => exact (stepping_apply edit).standing
  | replay edits =>
    exact .discarded (.replay (fun edit _ => (stepping_apply edit).standing)
      marking stepping_recount.standing)
  | setImageLoaded loaded => exact marking loaded

/-- A log that is replayed to its end leaves what a recount leaves. -/
theorem refreshed_of_replay {edits : List Edit} (sound : ns.Sound)
    (enabled : ns.config.quotaEnabled = true)
    (h : replay edits ns = .ok report ns') :
    ∃ applied, Refreshed applied report ns' := by
  cases happly : applyAll edits ns.unloaded with
  | error error failed =>
    rw [replay_of_applyAll_error happly] at h
    cases h
  | ok done applied =>
    have hconfig :
        (Outcome.state (applyAll edits ns.unloaded)).config = ns.config :=
      config_applyAll (sound.loading false)
    rw [happly] at hconfig
    rw [replay_of_applyAll happly] at h
    have hsound := (sound_of_applyAll (sound.loading false) happly).loading true
    refine ⟨_, refreshed_of_recount hsound ?_ h⟩
    rw [show applied.config = ns.config from hconfig, enabled]

/-- A recount succeeds and mends; the next one has nothing to do; and a log that
has been loaded fails the check for a limit that is passed only. -/
structure Mendable (ns : Namespace) : Prop where
  mended : ∃ report after again, recount ns = .ok report after ∧
    ns.Refreshed report after ∧
    recount after = .ok again after ∧ again.directories = report.directories ∧
    again.violations = report.violations ∧ again.inconsistencies = 0
  checked : ∀ log settings, Command.load log settings = .ok ns →
    ((Command.run .check log settings).code ≠ 0 ↔ ∃ id, ns.Violated id)

theorem mendable (sound : ns.Sound) (enabled : ns.config.quotaEnabled = true) :
    ns.Mendable where
  mended := by
    obtain ⟨report, after, hrecount, refreshed⟩ :=
      exists_refreshed sound enabled
    have steps := stepping_recount ns sound
    rw [hrecount] at steps
    obtain ⟨again, hagain, same⟩ :=
      refreshed.again (steps.sound sound) (steps.config ▸ enabled)
    exact ⟨report, after, again, hrecount, refreshed, hagain, same⟩
  checked log settings hload := by
    obtain ⟨config, edits, report, hreplay⟩ :=
      Command.exists_replay_of_load hload
    have hconfig := (standing_event (.replay edits) (fresh config)
      ⟨sound_fresh config, rfl⟩).2
    rw [Event.run, state_discard, hreplay] at hconfig
    have henabled : (fresh config).config.quotaEnabled = true := by
      rw [show (fresh config).config = ns.config from hconfig.symm, enabled]
    obtain ⟨applied, refreshed⟩ :=
      refreshed_of_replay (sound_fresh config) henabled hreplay
    rw [Command.run, hload]
    exact refreshed.code_runCheck sound enabled

/-- In every namespace that can come about in which quotas are kept at all, all
usage can be recounted, however far off what is cached has come to be. -/
theorem mendable_after (config : Config) (enabled : config.quotaEnabled = true)
    (events : List Event) :
    ((fresh config).after (events.map Event.run)).Mendable := by
  obtain ⟨sound, hconfig⟩ :=
    Maintaining.after (fun event _ => standing_event event) ⟨sound_fresh config,
      rfl⟩
  exact mendable sound (hconfig ▸ enabled)

/-- A run in which a file is made below a full quota while nothing is charged,
and a log stops halfway before it is recounted. -/
def strayRun : List Event :=
  [.call (.mkdirs "/q/a" {}), .call (.setQuota "/q" 2 Limit.keep),
    .setImageLoaded false, .call (.create "/q/f" { writer := ⟨"c", ""⟩ }),
    .replay [.mkdirs "/x" {}, .rename "/b" "/c"], .call (.mkdirs "/y" {})]

theorem mendable_after_strayRun :
    let ns := (fresh {}).after (strayRun.map Event.run)
    (Outcome.answer (recount ns)).toOption = some ⟨2, 2, 1⟩ ∧ ns.Mendable :=
  ⟨by decide +kernel, mendable_after {} rfl strayRun⟩

end Namespace

end QuotaTree
