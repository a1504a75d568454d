/-
When a rename is refused.  The directories that come to hold what is moved, and
do not hold it where it is, are asked whether they have room for all of it;
those above both places are not asked, as they hold it already.
-/
import QuotaTree.Proofs.Enforcement
import QuotaTree.Proofs.Faults.Planning
import QuotaTree.Proofs.Limits.Shifting
import QuotaTree.Proofs.Renaming

namespace QuotaTree

open Nodes Transaction

namespace Namespace

variable {ns : Namespace} {operation : Operation} {locks : LockSet}
  {source destination : String} {parent target : Chain} {entry name : Name}
  {id : InodeId} {rest : List Name} {used : Counts} {exceeded : QuotaExceeded}
  {α : Type}

/-- A rename that takes an entry from its place to another one outside of what
it moves. -/
structure Transfers (ns : Namespace) (source destination : String)
    (parent : Chain) (entry : Name) (id : InodeId) (target : Chain)
    (name : Name) : Prop where
  leaves : ns.table.locate source = .ok (parent.child entry id)
  enters :
    ∃ resolved, Path.resolveReserved ns.table.view destination = .ok resolved ∧
    Work.Into ns.table.view resolved id entry target name
  outside : target.contains id = false
  apart : ¬ (target.last = parent.last ∧ name = entry)

/-- A request is refused for a quota exactly if one of these directories lacks
the room for a growth. The error names the first of those that do. -/
structure Weighs (ns : Namespace) (request : Request α) (growth : Counts)
    (chains : List Chain) : Prop where
  refused_iff :
    (∃ exceeded ns', request ns = .error (.quotaExceeded exceeded) ns') ↔
    ∃ above ∈ chains, ns.Lacks growth above
  first : ∀ {exceeded ns'}, request ns = .error (.quotaExceeded exceeded) ns' →
      ∃ lower above higher, chains = lower ++ above :: higher ∧
      ns.Lacks growth above ∧ (∀ other ∈ lower, ¬ ns.Lacks growth other) ∧
      exceeded.path = some above.path

/-- A request that is refused where the cached usages pass a limit is refused
where the true ones do, when nothing is pending. -/
theorem Keeping.weighs {config : Config} {request : Request α} {growth : Counts}
    {chains : List Chain} (keeping : Keeping config ns)
    (settled : ns.books.Settled)
    (range : ∀ above ∈ chains, ns.InRange growth above)
    (refused : ∀ exceeded,
      (∃ ns', request ns = .error (.quotaExceeded exceeded) ns') ↔
      Chain.refusal ns.table.tree growth chains = some exceeded) :
    ns.Weighs request growth chains where
  refused_iff :=
    (exists_congr refused).trans (keeping.exists_refusal_iff settled range)
  first {exceeded ns'} h :=
    keeping.first_of_refusal settled range ((refused exceeded).1 ⟨ns', h⟩)

/-- What a subtree uses can be found under locks for reading all of it. -/
theorem usage_opened (sound : ns.Sound) {inode : Inode}
    (live : ns.table.tree id = some inode)
    (readable : ∀ x, ns.table.tree.Under id x →
      (ns.opened operation locks).Allows x .read)
    (husage : ns.table.view.usage id = .ok used) :
    (ns.opened operation locks).view.usage id = .ok used := by
  have ready := @ready_opened ns operation locks sound.books
  have htree := @tree_opened ns operation locks
  obtain ⟨ids, hids, again⟩ :=
    InodeTable.exists_usage_sum sound.books.wellFormed live
  obtain ⟨found, _, nodup, hmem, hfound⟩ :=
    ready.reads.exists_usage ready.wellFormed (htree ▸ live) fun x hx =>
      view_opens (readable x (htree ▸ hx))
  rw [htree] at hmem hfound
  rw [hfound, Counts.sum_map_of_nodup nodup, ← husage, again]
  congr 2
  ext x
  rw [List.mem_toFinset, hmem, hids]

/-- What a path leads into is found again under the locks for writing there. -/
theorem into_opened (sound : ns.Sound)
    (into : Work.Into ns.table.view destination id entry target name)
    (entering : (ns.opened operation locks).Grants
      { path := destination, kind := .writeWithParent } target rest) :
    Work.Into
      (ns.opened operation locks).view destination id entry target name := by
  have hstored := Chain.resolveExisting_unveiled veils_opened entering.resolves
  cases into with
  | missing resolves =>
    obtain ⟨_, rfl⟩ := Prod.mk.inj (Except.ok.inj (resolves.symm.trans hstored))
    exact .missing entering.resolves
  | present resolves other found directory =>
    obtain ⟨_, rfl⟩ := Prod.mk.inj (Except.ok.inj (resolves.symm.trans hstored))
    have live := (InodeTable.view_reads sound.books.wellFormed).get found
    exact .present entering.resolves other (view_get_eq_ok.2
      ⟨Allows.read entering.last, tree_opened ▸ live⟩) directory

theorem Transfers.deepestShared
    (transfers : ns.Transfers source destination parent entry id target name)
    (sound : ns.Sound) :
    Chain.DeepestShared (parent.child entry id) target
      ((parent.child entry id).commonAncestor target) := by
  have wf : ns.table.tree.WellFormed := sound.books.wellFormed
  have reads := InodeTable.view_reads wf
  obtain ⟨_, _, leaves⟩ := InodeTable.locate_eq_ok.1 transfers.leaves
  obtain ⟨_, _, into⟩ := transfers.enters
  exact (Chain.Leads.resolve reads leaves).deepestShared wf (into.leads reads)

/-- A rename that takes an entry to another place is refused for a quota exactly
if one of the directories that come to hold it has no room. -/
theorem Transfers.error_iff
    (transfers : ns.Transfers source destination parent entry id target name)
    (sound : ns.Sound) (keeps : ns.keepsQuota = true)
    (husage : ns.table.view.usage id = .ok used) :
    (∃ ns', rename source destination ns =
      .error (.quotaExceeded exceeded) ns') ↔
      Chain.refusal ns.table.tree used
        (target.beneath ((parent.child entry id).commonAncestor target)) =
        some exceeded := by
  obtain ⟨source', hsource, leaves⟩ :=
    InodeTable.locate_eq_ok.1 transfers.leaves
  obtain ⟨destination', hdestination, into⟩ := transfers.enters
  have hleaves := Chain.resolve_eq_ok.1 leaves
  obtain ⟨rest, hinto⟩ := into.resolves
  -- the request comes down to its work under the locks that it plans
  obtain ⟨locks, plan, grants⟩ := @exists_opened ns
    [{ path := source', kind := .writeWithParent,
        scope := .subtree, belowMode := .read },
      { path := destination', kind := .writeWithParent }]
    sound .rename (by simp [hleaves, hinto])
  have leaving := grants _ List.mem_cons_self _ _ hleaves
  have entering :=
    grants _ (List.mem_cons_of_mem _ List.mem_cons_self) _ _ hinto
  have hrename : rename source destination ns = _ :=
    (Outcome.bind_of_ok (resolvePath_eq_ok.2 ⟨hsource, rfl⟩)).trans
      (Outcome.bind_of_ok (resolvePath_eq_ok.2 ⟨hdestination, rfl⟩))
  rw [hrename, error_of_transact_iff sound.locks (.renamePath _ _) plan]
  -- the work comes down to the move, as nothing can fail after it
  have ready := @ready_opened ns .rename locks sound.books
  have htree := @tree_opened ns .rename locks
  have held := entering.held ready
  obtain ⟨allows, inode, live⟩ := held.last
  rw [Work.renamePath_eq (Chain.resolve_eq_ok.2 leaving.resolves)
    (into_opened sound into entering)
      (view_get_eq_ok.2 ⟨allows, live⟩) transfers.outside transfers.apart]
  cases leaving.leads ready with
  | child _ entered =>
    obtain ⟨_, moved, hmoved⟩ := (leaving.held ready).last
    have husage' := usage_opened sound (htree ▸ hmoved)
      (fun x hx => Work.allows_moving leaving x (htree ▸ hx)) husage
    rw [← htree,
      ← Work.error_of_move_iff ready keeps entered (leaving.held ready) held
        (Work.allows_moving leaving) leaving.last
        (leaving.above rfl rfl _ rfl) entering.last husage']
    exact Outcome.error_bind_iff fun _ tx => ⟨(), _, Work.journal_eq_ok.2 rfl⟩

/-- In every run that keeps quotas, with nothing pending, a rename that takes an
entry to another place is refused exactly if a directory above the new place,
strictly below the deepest one that lies above both, has no room for all that is
moved. -/
theorem weighs_renaming (config : Config) (enabled : config.quotaEnabled = true)
    (calls : List Call)
    (fits : ∀ made, made <+: calls →
      ((fresh config).after (made.map Call.run)).Fits)
    (settled : ((fresh config).after (calls.map Call.run)).ledger.size = 0)
    (transfers : ((fresh config).after (calls.map Call.run)).Transfers source
      destination parent entry id target name)
    (husage : ((fresh config).after (calls.map Call.run)).table.view.usage id =
      .ok used)
    (range : ∀ above ∈ target.ancestry,
      above.last ∉ (parent.child entry id).ids →
      ((fresh config).after (calls.map Call.run)).InRange used above) :
    ∃ shared, Chain.DeepestShared (parent.child entry id) target shared ∧
      ((fresh config).after (calls.map Call.run)).Weighs
        (rename source destination) used (target.beneath shared) := by
  have keeping := keeping_after enabled calls fits
  have shares := transfers.deepestShared keeping.sound
  refine ⟨_, shares,
    keeping.weighs (settled_of_size settled) (fun above habove => ?_)
      fun exceeded => transfers.error_iff keeping.sound
      (keeping.keepsQuota enabled) husage⟩
  exact range above ((List.takeWhile_subset _) habove)
    (shares.deepest above habove)

/-- A directory that has no room, with one below it that has; the one above both
places is over its limit. -/
def crampedRun : List Call :=
  [.mkdirs "/q/s/x" {}, .mkdirs "/q/t/u" {}, .setQuota "/q" 2 Limit.none,
    .setQuota "/q/t" 3 Limit.none, .setQuota "/q/t/u" 4 Limit.none,
    .mergeUpdates]

def crampedSource : Chain :=
  .child (.child .root (Name.ofText "q") ⟨2⟩) (Name.ofText "s") ⟨3⟩

def crampedTarget : Chain :=
  .child (.child (.child .root (Name.ofText "q") ⟨2⟩) (Name.ofText "t") ⟨5⟩)
    (Name.ofText "u") ⟨6⟩

theorem weighs_renaming_crampedRun :
    ∃ shared, Chain.DeepestShared crampedSource crampedTarget shared ∧
      ((fresh {}).after (crampedRun.map Call.run)).Weighs (rename
        "/q/s" "/q/t/u/v") { inodes := 2 } (crampedTarget.beneath shared) := by
  have fits : ∀ made ∈ crampedRun.inits,
      ((fresh {}).after (made.map Call.run)).Fits := by
    decide +kernel
  have transfers :
      ((fresh {}).after (crampedRun.map Call.run)).Transfers
        "/q/s" "/q/t/u/v" (.child .root (Name.ofText "q") ⟨2⟩)
        (Name.ofText "s") ⟨3⟩ crampedTarget (Name.ofText "v") :=
    { leaves := by decide +kernel
      enters := ⟨"/q/t/u/v", by decide +kernel, .missing (by decide +kernel)⟩
      outside := by decide
      apart := by decide }
  exact weighs_renaming {} rfl crampedRun
    (fun made hmade => fits made ((List.mem_inits _ _).2 hmade))
    (by decide +kernel) transfers (by decide +kernel) (by decide +kernel)

/-- A directory without room, in which a symlink lies. -/
def linkedRun : List Call :=
  [.mkdirs "/a" {}, .mkdirs "/d" {}, .setQuota "/d" 2 Limit.none,
    .createSymlink "/e" "/d/l" {} true, .mergeUpdates]

def linkedSource : Chain :=
  .child .root (Name.ofText "a") ⟨2⟩

def linkedTarget : Chain :=
  .child (.child .root (Name.ofText "d") ⟨3⟩) (Name.ofText "l") ⟨4⟩

/-- A symlink is nowhere to move to, so that the directories above it are not
asked. -/
theorem not_refused_linkedRun :
    let ns := (fresh {}).after (linkedRun.map Call.run)
    ns.ledger.size = 0 ∧ ns.table.locate "/a" = .ok linkedSource ∧
      ns.table.locate "/d/l" = .ok linkedTarget ∧
      (ns.table.locate "/d/l/x").isOk = false ∧
      linkedTarget.contains linkedSource.last = false ∧
      ns.table.view.usage linkedSource.last = .ok { inodes := 1 } ∧
      (∃ above ∈ linkedTarget.beneath
        (linkedSource.commonAncestor linkedTarget),
        ns.Lacks { inodes := 1 } above) ∧
      ¬ ∃ exceeded ns', rename "/a" "/d/l/x" ns =
        .error (.quotaExceeded exceeded) ns' := by
  intro ns
  have hlink :
      Outcome.error? (rename "/a" "/d/l/x" ns) =
        some (.unresolvedLink "/d/l/x" "/d/l") := by
    decide +kernel
  refine ⟨by decide +kernel, by decide +kernel, by decide +kernel,
    by decide +kernel, by decide, by decide +kernel, by decide +kernel, ?_⟩
  rintro ⟨exceeded, ns', hquota⟩
  rw [hquota] at hlink
  cases hlink

end Namespace

end QuotaTree
