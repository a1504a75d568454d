/-
What a replay leaves, whether the log comes to its end or fails on the way.  The
recount at the end makes every quota accurate.  A log that fails is not followed
by it: the edits made so far stay, and the quotas are as right as those left
them.
-/
import QuotaTree.Proofs.Rebuilding

namespace QuotaTree

namespace Namespace

variable {ns ns' : Namespace} {edits : List Edit} {error : Error}

/-- Edits fail at the first of them that cannot be made. -/
theorem applyAll_eq_error :
    applyAll edits ns = .error error ns' ↔
      ∃ applied edit rest mid, edits = applied ++ edit :: rest ∧
        applyAll applied ns = .ok () mid ∧
        apply edit mid = .error error ns' := by
  constructor
  · intro h
    induction edits generalizing ns with
    | nil => cases h
    | cons edit rest ih =>
      cases hedit : apply edit ns with
      | error cause failed =>
        rw [applyAll, Outcome.bind_of_error hedit] at h
        cases h
        exact ⟨[], edit, rest, ns, rfl, rfl, hedit⟩
      | ok done mid =>
        rw [applyAll, Outcome.bind_of_ok hedit] at h
        obtain ⟨applied, failing, others, last, rfl, happlied, hfailing⟩ := ih h
        exact ⟨edit :: applied, failing, others, last, rfl,
          (Outcome.bind_of_ok hedit).trans happlied, hfailing⟩
  · rintro ⟨applied, edit, rest, mid, rfl, happlied, hedit⟩
    induction applied generalizing ns with
    | nil =>
      cases happlied
      exact Outcome.bind_of_error hedit
    | cons first others ih =>
      obtain ⟨done, later, hfirst, hothers⟩ := Outcome.bind_eq_ok.1 happlied
      exact (Outcome.bind_of_ok hfirst).trans (ih hothers)

/-- A log that fails is not followed by a recount. -/
theorem replay_of_applyAll_error
    (h : applyAll edits ns.unloaded = .error error ns') :
    replay edits ns = .error error { ns' with imageLoaded := true } := by
  have hfinally :
      (do try applyAll edits finally setImageLoaded true : Request Unit)
        ns.unloaded = .error error { ns' with imageLoaded := true } := by
    change EStateM.map Prod.fst (tryFinally' (applyAll edits)
      fun _ => setImageLoaded true) ns.unloaded = _
    simp only [EStateM.map, tryFinally', h]
    rfl
  have hloaded : setImageLoaded false ns = .ok ⟨⟩ ns.unloaded := rfl
  exact (Outcome.bind_of_ok hloaded).trans (Outcome.bind_of_error hfinally)

/-- An edit that cannot be made only uses up numbers. -/
theorem traceless_apply (edit : Edit) : Traceless (apply edit) := by
  cases edit with
  | mkdirs path permission =>
    refine .idle_bind (.resolvePath path) fun _ => ?_
    exact .transact (.makePath _ _)
  | create path permission replication blockSize writer overwrite =>
    exact (traceless_create path _).discarded
  | symlink target link permission createParent =>
    exact
      (traceless_createSymlink target link permission createParent).discarded
  | addBlock path client block targets =>
    exact traceless_addBlockAs path client block targets
  | abandonBlock path client block =>
    exact (traceless_abandonBlock path client block).discarded
  | complete path client lastLength => exact .onFile path (.completeAt _ _)
  | append path writer => exact .onFile path (.appendAt _)
  | writeInline path client length =>
    exact traceless_writeInline path client length
  | truncate path length => exact traceless_truncate path length
  | delete path recursive => exact (traceless_delete path recursive).discarded
  | rename source destination => exact traceless_rename source destination
  | setQuota path inodes bytes => exact traceless_setQuota path inodes bytes
  | setTypeQuota path type limit => exact traceless_setTypeQuota path type limit
  | setPolicy path policy =>
    refine .idle_bind (.resolvePath path) fun _ => ?_
    exact .transact (.setPolicy _ _)
  | setReplication path replication =>
    exact traceless_setReplication path replication

/-- Whether quotas are accurate depends on the tree and the ledger alone. -/
theorem accurate_iff_of_same (nodes : ns'.table.nodes = ns.table.nodes)
    (ledger : ns'.ledger = ns.ledger) : ns'.Accurate ↔ ns.Accurate := by
  have hfind (id : InodeId) : ns'.table.find? id = ns.table.find? id := by
    rw [InodeTable.find?, InodeTable.find?, nodes]
  have hview : ns'.table.view = ns.table.view := by
    simp only [InodeTable.view, InodeTable.size, hfind, nodes]
  simp only [Accurate, hfind, hview, ledger]

/-- Quotas that have cached all usage are accurate when nothing is pending. -/
theorem Counted.accurate (counted : ns.Counted) (sound : ns.Sound)
    (settled : ns.books.Settled) : ns.Accurate := by
  intro id inode quota live hquota
  obtain ⟨ids, hids, nodup, _, _⟩ :=
    InodeTable.exists_usage sound.books.wellFormed live
  have hpending : ns.ledger.outstanding ids = 0 := by
    rw [Ledger.outstanding_of_nodup _ nodup]
    exact Finset.sum_eq_zero fun x _ => settled x
  exact ⟨ids, quota.cached, hids,
    counted id inode quota live hquota, by rw [hpending, add_zero]⟩

/-- A recount leaves nothing pending. -/
theorem settled_recount {report : RecountReport} (sound : ns.Sound)
    (enabled : ns.config.quotaEnabled = true)
    (h : recount ns = .ok report ns') :
    ns'.books.Settled := by
  rw [recount_eq, if_pos enabled] at h
  obtain ⟨locks, tx, _, hwork, rfl⟩ := exists_of_transact sound.locks h
  have ext := frames_recountAll.extends_of_ok hwork
  have wf := (@ready_opened _ .recomputeQuota locks sound.books).wellFormed
  obtain ⟨whole, mid, hrecount, _, rfl⟩ := Work.recountAll_eq_ok.1 hwork
  obtain ⟨_, _, recounts⟩ := Work.recounts_recount wf hrecount
  have hupdates : mid.updates = [] := by
    rw [recounts.stores]
    rfl
  intro id
  rw [books_commit sound ext]
  simp [Transaction.books, Transaction.pendingAt, Work.cleared, hupdates]

theorem accurate_recount {report : RecountReport} (sound : ns.Sound)
    (enabled : ns.config.quotaEnabled = true)
    (h : recount ns = .ok report ns') : ns'.Accurate := by
  have hsound : ns'.Sound := by
    have hstate := stepping_recount.sustaining ns sound
    rwa [h] at hstate
  exact (counted_recount sound enabled h).accurate hsound
    (settled_recount sound enabled h)

theorem config_applyAll (sound : ns.Sound) :
    (Outcome.state (applyAll edits ns)).config = ns.config := by
  induction edits generalizing ns with
  | nil => rfl
  | cons edit rest ih =>
    have steps := stepping_apply edit ns sound
    cases hedit : apply edit ns with
    | error cause failed =>
      rw [hedit] at steps
      rw [applyAll, Outcome.bind_of_error hedit]
      exact steps.config
    | ok done mid =>
      rw [hedit] at steps
      rw [applyAll, Outcome.bind_of_ok hedit]
      exact (ih (steps.sound sound)).trans steps.config

theorem exists_accurate_recount (sound : ns.Sound)
    (enabled : ns.config.quotaEnabled = true) :
    ∃ report ns', recount ns = .ok report ns' ∧ ns'.Accurate := by
  obtain ⟨_, whole, mid, _, _, _, hrecount⟩ := exists_recount sound enabled
  exact ⟨_, _, hrecount, accurate_recount sound enabled hrecount⟩

/-- What comes of replaying a log.  Only a log that is replayed to its end is
followed by a recount; one that stops at an edit leaves the quotas as accurate
as the edits before it did, and as they were if there are none. -/
structure Settles (edits : List Edit) (ns : Namespace) : Prop where
  loaded : (Outcome.state (replay edits ns)).imageLoaded = true
  completed : ∀ report ns', replay edits ns = .ok report ns' → ns'.Accurate
  stopped : ∀ error ns', replay edits ns = .error error ns' →
    ∃ applied edit rest mid failed, edits = applied ++ edit :: rest ∧
      applyAll applied ns.unloaded = .ok () mid ∧
      apply edit mid = .error error failed ∧
      ns' = { failed with imageLoaded := true } ∧
      (ns'.Accurate ↔ mid.Accurate) ∧
      (applied = [] → (ns'.Accurate ↔ ns.Accurate))
  mended : ∃ report mended, recount (Outcome.state (replay edits ns)) =
    .ok report mended ∧
    mended.Accurate

theorem Sound.loading (sound : ns.Sound) (loaded : Bool) :
    Namespace.Sound { ns with imageLoaded := loaded } :=
  ⟨sound.books, sound.ledger, sound.locks⟩

/-- Wherever a log stops, the namespace is sound and keeps quotas as it did. -/
theorem loading_applyAll (sound : ns.Sound)
    (enabled : ns.config.quotaEnabled = true) (edits : List Edit) :
    Namespace.Sound
      { Outcome.state (applyAll edits ns.unloaded) with imageLoaded := true } ∧
      (Outcome.state (applyAll edits ns.unloaded)).config.quotaEnabled =
        true := by
  have hsound := sustaining_applyAll edits ns.unloaded (sound.loading false)
  have hconfig :
      (Outcome.state (applyAll edits ns.unloaded)).config = ns.config :=
    config_applyAll (sound.loading false)
  rw [hconfig]
  exact ⟨hsound.loading true, enabled⟩

/-- A log that is replayed to its end is followed by a recount. -/
theorem settles_of_completed {applied : Namespace} (sound : ns.Sound)
    (enabled : ns.config.quotaEnabled = true)
    (h : applyAll edits ns.unloaded = .ok () applied) : Settles edits ns := by
  have hloading := loading_applyAll sound enabled edits
  rw [h] at hloading
  obtain ⟨hloaded, henabled⟩ := hloading
  obtain ⟨report, last, hrecount, accurate⟩ :=
    exists_accurate_recount hloaded henabled
  have steps := stepping_recount _ hloaded
  have hreplay := (replay_of_applyAll h).trans hrecount
  rw [hrecount] at steps
  constructor
  case loaded =>
    rw [hreplay]
    exact steps.loaded
  case completed =>
    intro report' ns' hcompleted
    rw [hreplay] at hcompleted
    cases hcompleted
    exact accurate
  case stopped =>
    intro error ns' hstopped
    rw [hreplay] at hstopped
    cases hstopped
  case mended =>
    rw [hreplay]
    exact exists_accurate_recount (steps.sound hloaded)
      (steps.config ▸ henabled)

/-- A log that stops at an edit is left there, and nothing is recounted. -/
theorem settles_of_stopped {error : Error} {failed : Namespace}
    (sound : ns.Sound) (enabled : ns.config.quotaEnabled = true)
    (h : applyAll edits ns.unloaded = .error error failed) :
    Settles edits ns := by
  have hloading := loading_applyAll sound enabled edits
  rw [h] at hloading
  obtain ⟨hloaded, henabled⟩ := hloading
  have hreplay := replay_of_applyAll_error h
  constructor
  case loaded =>
    rw [hreplay]
    rfl
  case completed =>
    intro report ns' hcompleted
    rw [hreplay] at hcompleted
    cases hcompleted
  case stopped =>
    intro cause ns' hstopped
    rw [hreplay] at hstopped
    cases hstopped
    obtain ⟨applied, edit, rest, mid, rfl, happlied, hedit⟩ :=
      applyAll_eq_error.1 h
    have free := (sound_of_applyAll (sound.loading false) happlied).locks
    have untouched := traceless_apply edit mid error failed free hedit
    have hsame : Accurate { failed with imageLoaded := true } ↔ mid.Accurate :=
      accurate_iff_of_same untouched.nodes untouched.ledger
    refine ⟨applied, edit, rest, mid, failed, rfl, happlied, hedit, rfl, hsame,
      ?_⟩
    rintro rfl
    cases happlied
    exact hsame.trans (accurate_iff_of_same rfl rfl)
  case mended =>
    rw [hreplay]
    exact exists_accurate_recount hloaded henabled

theorem settles (sound : ns.Sound) (enabled : ns.config.quotaEnabled = true)
    (edits : List Edit) : Settles edits ns := by
  cases h : applyAll edits ns.unloaded with
  | ok => exact settles_of_completed sound enabled h
  | error => exact settles_of_stopped sound enabled h

/-- In every namespace that calls lead to, whatever log is replayed: the
namespace counts as loaded, every quota is accurate if the log has come to its
end, and one recount makes it so if not. -/
theorem settles_after (config : Config) (enabled : config.quotaEnabled = true)
    (calls : List Call) (edits : List Edit) :
    Settles edits ((fresh config).after (calls.map Call.run)) := by
  obtain ⟨sound, hconfig⟩ := sound_after_calls (sound_fresh config) calls
  exact settles sound (hconfig ▸ enabled) edits

/-- A directory is made, and then nothing is there that could be renamed. -/
def stoppedLog : List Edit :=
  [.mkdirs "/a" {}, .rename "/b" "/c"]

theorem settles_after_stoppedLog :
    Settles stoppedLog
      ((fresh {}).after ([Call.mkdirs "/d" {}].map Call.run)) :=
  settles_after {} rfl [.mkdirs "/d" {}] stoppedLog

/-- The root has not taken in the directory that was made before the log
stopped. -/
theorem not_accurate_stoppedLog :
    Outcome.error? (replay stoppedLog (fresh {})) = some (.notFound "/b" "b") ∧
      ¬ (Outcome.state (replay stoppedLog (fresh {}))).Accurate := by
  refine ⟨by decide +kernel, fun accurate => ?_⟩
  let ns := Outcome.state (replay stoppedLog (fresh {}))
  have hquota : (ns.table.find? .root).bind Inode.quota =
      some ⟨Counts.unlimited, Counts.oneInode⟩ := by decide +kernel
  have hids : ns.table.view.subtree .root = .ok [.root, ⟨2⟩] := by
    decide +kernel
  have hused : ns.table.view.usage .root = .ok { inodes := 2 } := by
    decide +kernel
  have hpending : Counts.oneInode + ns.ledger.outstanding [.root,
        ⟨2⟩] ≠ { inodes := 2 } := by
    decide +kernel
  obtain ⟨root, live, hroot⟩ := Option.bind_eq_some_iff.1 hquota
  obtain ⟨ids, used, hsubtree, husage, htotal⟩ :=
    accurate .root root _ live hroot
  obtain rfl := Except.ok.inj (hids.symm.trans hsubtree)
  obtain rfl := Except.ok.inj (hused.symm.trans husage)
  exact hpending htotal

end Namespace

end QuotaTree
