/-
A log of edits rebuilds the namespace that has written it: the same tree with
other identities, the same blocks, and the usage that a merge would have cached.
-/
import QuotaTree.Proofs.Replay.Restoring

namespace QuotaTree

namespace Namespace

variable {p : Pairing} {ns rebuilt : Namespace}

/-- A namespace with the same tree as another one but for identities and cached
usage, with the same blocks, and with no log of its own. -/
structure Rebuilds (p : Pairing) (ns rebuilt : Namespace) : Prop where
  nodes : ns.table.tree.Matches p rebuilt.table.tree
  blocks : ∀ id : Nat,
    Option.Rel (fun record record' => record.targets = record'.targets ∧
      record.stamp = record'.stamp) ns.blocks[id]? rebuilt.blocks[id]?
  unlogged : rebuilt.edits = []

/-- Directories that stand for each other have cached the same usage. -/
def CachesAlike (p : Pairing) (ns rebuilt : Namespace) : Prop :=
  ∀ id id' inode inode', p id id' → ns.table.find? id = some inode →
    rebuilt.table.find? id' = some inode' →
      inode.quota.map Quota.cached = inode'.quota.map Quota.cached

theorem Counted.cachesAlike (counted : ns.Counted) (counted' : rebuilt.Counted)
    (nodes : ns.table.tree.Matches p rebuilt.table.tree) :
    CachesAlike p ns rebuilt := by
  intro id id' inode inode' ids live live'
  have hrel := nodes.at_pair ids
  rw [show ns.table.tree id = _ from live,
    show rebuilt.table.tree id' = _ from live', Option.rel_some_some] at hrel
  have hlimits := hrel.limits
  cases hquota : inode.quota with
  | none =>
    rw [hquota, Option.map_none, eq_comm, Option.map_eq_none_iff] at hlimits
    rw [hlimits]
  | some quota =>
    rw [hquota, Option.map_some, eq_comm, Option.map_eq_some_iff] at hlimits
    obtain ⟨quota', hquota', _⟩ := hlimits
    have husage := counted id inode quota live hquota
    have husage' := counted' id' inode' quota' live' hquota'
    obtain ⟨_, hsame, rfl⟩ := (InodeTable.view_matches nodes).usage ids _ husage
    rw [hquota', Option.map_some, Option.map_some,
      Except.ok.inj (hsame.symm.trans husage')]

/-- Once its edits have been made, a log is replayed by recounting all usage. -/
theorem replay_of_applyAll {edits : List Edit}
    (h : applyAll edits ns.unloaded = .ok () rebuilt) :
    replay edits ns = recount { rebuilt with imageLoaded := true } := by
  have hfinally :
      (do try applyAll edits finally setImageLoaded true : Request Unit)
        ns.unloaded = .ok () { rebuilt with imageLoaded := true } := by
    change EStateM.map Prod.fst (tryFinally' (applyAll edits)
      fun _ => setImageLoaded true) ns.unloaded = _
    simp only [EStateM.map, tryFinally', h]
    rfl
  exact Outcome.bind_of_ok hfinally

/-- What edits have rebuilt so far is completed by a recount. -/
theorem Restorable.exists_replay {start : Namespace}
    (restorable : ns.Restorable start.unloaded) (sound : start.Sound)
    (enabled : ns.config.quotaEnabled = true) :
    ∃ report rebuilt p, replay ns.edits start = .ok report rebuilt ∧
      Rebuilds p ns rebuilt ∧
      rebuilt.Counted := by
  obtain ⟨p, applied, happly, alike⟩ := restorable
  let loaded : Namespace := { applied with imageLoaded := true }
  have hstart : start.unloaded.Sound := ⟨sound.books, sound.ledger, sound.locks⟩
  have happlied := sound_of_applyAll hstart happly
  have hloaded : loaded.Sound :=
    ⟨happlied.books, happlied.ledger, happlied.locks⟩
  have henabled : loaded.config.quotaEnabled = true := alike.config ▸ enabled
  obtain ⟨_, whole, mid, _, _, _, hrecount⟩ := exists_recount hloaded henabled
  have resembles := resembles_recount hloaded
  rw [hrecount] at resembles
  refine ⟨whole.report, _, p, (replay_of_applyAll happly).trans hrecount, ?_,
    counted_recount hloaded henabled hrecount⟩
  exact
    { nodes := alike.nodes.recached (.refl _) resembles.nodes
      blocks := by
        rw [show (Work.cleared mid).commit.blocks = _ from resembles.blocks]
        exact alike.blocks
      unlogged := resembles.edits.trans alike.unlogged }

theorem sound_after_calls (sound : ns.Sound) (calls : List Call) :
    (ns.after (calls.map Call.run)).Sound ∧
      (ns.after (calls.map Call.run)).config = ns.config := by
  induction calls generalizing ns with
  | nil => exact ⟨sound, rfl⟩
  | cons call rest ih =>
    have steps := stepping_call call ns sound
    obtain ⟨hsound, hconfig⟩ := ih (steps.sound sound)
    exact ⟨hsound, hconfig.trans steps.config⟩

/-- After any run that names no inode by its number, whether its calls succeed
or fail, the log can be replayed on a fresh namespace, and rebuilds what is
there.  What is pending can be merged, and then the same usage is cached, if no
counter has overflowed on the way. -/
theorem rebuilds_after (config : Config) (enabled : config.quotaEnabled = true)
    (calls : List Call)
    (plain : ∀ call ∈ calls, ∀ path ∈ call.paths, Path.isReserved path =
      false) :
    ∃ report rebuilt count merged p,
      replay ((fresh config).after (calls.map Call.run)).edits (fresh config) =
        .ok report rebuilt ∧
      mergeUpdates ((fresh config).after (calls.map Call.run)) =
        .ok count merged ∧
      Rebuilds p ((fresh config).after (calls.map Call.run)) rebuilt ∧
      ((∀ made, made <+: calls →
        ((fresh config).after (made.map Call.run)).Fits) →
        CachesAlike p merged rebuilt) := by
  have fresh_sound := sound_fresh config
  have unloaded_sound : (fresh config).unloaded.Sound :=
    ⟨fresh_sound.books, fresh_sound.ledger, fresh_sound.locks⟩
  obtain ⟨sound, hconfig⟩ := sound_after_calls fresh_sound calls
  have restorable :=
    (restorable_fresh config).after fresh_sound unloaded_sound calls plain
  obtain ⟨report, rebuilt, p, hreplay, rebuilds, counted⟩ :=
    restorable.exists_replay fresh_sound (hconfig ▸ enabled)
  obtain ⟨count, merged, hmerge, _⟩ := exists_mergeUpdates sound
  refine ⟨report, rebuilt, count, merged, p, hreplay, hmerge, rebuilds,
    fun fits => ?_⟩
  have keeping := keeping_after enabled calls fits
  have resembles := resembles_mergeUpdates sound
  rw [hmerge] at resembles
  have counted' :=
    keeping.counted_merge enabled (fits calls (List.prefix_refl _)) hmerge
  exact counted'.cachesAlike counted
    (rebuilds.nodes.recached resembles.nodes (.refl _))

/-- A run with a file under a quota that is cut through a symlink and moved,
with a call that is refused after it has used up identities, and with a merge on
the way. -/
def loggedRun : List Call :=
  [.mkdirs "/a/b" {}, .setQuota "/a" 3 1000, .create "/a/b/f"
    { writer := ⟨"c", ""⟩, blockSize := some 100, replication := some 2 },
    .addBlock "/a/b/f" "c" ["d"], .complete "/a/b/f" "c" 10, .mergeUpdates,
    .mkdirs "/a/x" {}, .createSymlink "a/b/f" "/l" {} false, .truncate "/l" 4,
    .rename "/a/b" "/c", .setStoragePolicy "/c/f" .allSsd]

theorem rebuilds_after_loggedRun :
    ∃ report rebuilt count merged p,
      replay ((fresh {}).after (loggedRun.map Call.run)).edits (fresh {}) =
        .ok report rebuilt ∧
      mergeUpdates ((fresh {}).after (loggedRun.map Call.run)) =
        .ok count merged ∧
      Rebuilds p ((fresh {}).after (loggedRun.map Call.run)) rebuilt ∧
      CachesAlike p merged rebuilt := by
  have plain : ∀ call ∈ loggedRun, ∀ path ∈ call.paths,
      Path.isReserved path = false := by
    decide +kernel
  have fits : ∀ made ∈ loggedRun.inits,
      ((fresh {}).after (made.map Call.run)).Fits := by
    decide +kernel
  obtain ⟨report, rebuilt, count, merged, p, hreplay, hmerge, rebuilds,
    caches⟩ := rebuilds_after {} rfl loggedRun plain
  exact ⟨report, rebuilt, count, merged, p, hreplay, hmerge, rebuilds,
    caches fun made hmade => fits made ((List.mem_inits _ _).2 hmade)⟩

end Namespace

end QuotaTree
