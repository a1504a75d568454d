/-
While quotas are kept, the usage that every quota has cached and the updates
that are still pending below it make up the usage of its subtree, so that a
recount finds nothing to mend.
-/
import QuotaTree.Proofs.Lock.Plan
import QuotaTree.Proofs.Reachable

namespace QuotaTree

open Nodes Work Transaction

namespace Namespace

variable {ns : Namespace} {config : Config}

/-- No file is charged for more bytes than a counter holds. -/
def Fits (ns : Namespace) : Prop :=
  ∀ id inode file, ns.table.find? id = some inode → inode.asFile = some file →
    (file.charged : Int) ≤ maxCounter

/-- Every quota shows the usage of its subtree when what is pending there is
counted in. -/
def Accurate (ns : Namespace) : Prop :=
  ∀ id inode quota, ns.table.find? id = some inode → inode.quota = some quota →
    ∃ ids used, ns.table.view.subtree id = .ok ids ∧
      ns.table.view.usage id = .ok used ∧
      quota.cached + ns.ledger.outstanding ids = used

/-- What holds between two calls of a run that keeps quotas. -/
structure Keeping (config : Config) (ns : Namespace) : Prop where
  sound : ns.Sound
  config : ns.config = config
  loaded : ns.imageLoaded = true
  shaped : ns.books.Shaped
  balanced : ns.books.Balanced

instance : Decidable ns.Fits :=
  decidable_of_iff
    (ns.table.nodes.toList.all fun item =>
      item.2.asFile.all
        fun file => decide ((file.charged : Int) ≤ maxCounter)) <| by
    simp only [List.all_eq_true, Option.all_eq_true, decide_eq_true_eq,
      Prod.forall, Std.ExtTreeMap.mem_toList_iff_getElem?_eq_some]
    exact ⟨fun h id inode file live => h id inode live file,
      fun h id inode live file => h id inode file live⟩

theorem Fits.books (fits : ns.Fits) : ns.books.Fits := by
  intro id file h
  obtain ⟨inode, live, hfile⟩ := Option.bind_eq_some_iff.1 h
  exact fits id inode file live hfile

/-- The root of a fresh namespace has cached its own usage. -/
theorem keeping_fresh (config : Config) : Keeping config (fresh config) where
  sound := sound_fresh config
  config := rfl
  loaded := rfl
  shaped := by
    intro id file h
    obtain ⟨inode, live, hfile⟩ := Option.bind_eq_some_iff.1 h
    rw [(InodeTable.eq_root_of_fresh live).2] at hfile
    cases hfile
  balanced := by
    intro top quota ids hquota spans
    have wf := (sound_fresh config).books.wellFormed
    obtain ⟨inode, live, hinode⟩ := quota_eq_some.1 hquota
    obtain ⟨rfl, rfl⟩ := InodeTable.eq_root_of_fresh live
    have hids : ids = {.root} := by
      ext x
      rw [spans, Finset.mem_singleton]
      constructor
      · intro hunder
        obtain ⟨found, hfound⟩ :=
          Option.isSome_iff_exists.1 (isSome_of_under live hunder)
        exact (InodeTable.eq_root_of_fresh hfound).1
      · rintro rfl
        exact .refl _ _
    have hpending : (fresh config).books.pending .root = 0 :=
      Ledger.pendingAt_empty .root
    rw [hids, Finset.sum_singleton, Books.settled, own_of_live live, hpending]
    cases hinode
    rfl

theorem Keeping.keepsQuota (keeping : Keeping config ns)
    (enabled : config.quotaEnabled = true) : ns.keepsQuota = true := by
  rw [Namespace.keepsQuota, keeping.config, keeping.loaded, enabled]
  rfl

/-- A call keeps the books balanced as long as no counter overflows. -/
theorem Keeping.call (enabled : config.quotaEnabled = true)
    (keeping : Keeping config ns) (call : Call) (fits : ns.Fits)
    (fits' : (Outcome.state (call.run ns)).Fits) :
    Keeping config (Outcome.state (call.run ns)) := by
  have steps := stepping_call call ns keeping.sound
  have effect := steps.books
  rw [keeping.keepsQuota enabled] at effect
  exact
    { sound := steps.sound keeping.sound
      config := steps.config.trans keeping.config
      loaded := steps.loaded.trans keeping.loaded
      shaped := effect.shaped keeping.shaped
      balanced := effect.balanced keeping.sound.books keeping.shaped
        fits.books fits'.books keeping.balanced }

/-- A run goes on keeping a namespace when no counter overflows on the way. -/
theorem Keeping.after (enabled : config.quotaEnabled = true)
    (keeping : Keeping config ns) (calls : List Call)
    (fits : ∀ made, made <+: calls → (ns.after (made.map Call.run)).Fits) :
    Keeping config (ns.after (calls.map Call.run)) := by
  induction calls using List.reverseRecOn with
  | nil => exact keeping
  | append_singleton calls call ih =>
    have keeping' :=
      ih fun made hmade => fits made (hmade.trans (List.prefix_append _ _))
    have hfits := fits calls (List.prefix_append _ _)
    have hfits' := fits _ (List.prefix_refl _)
    rw [List.map_append, after_append] at hfits' ⊢
    exact keeping'.call enabled call hfits hfits'

theorem keeping_after (enabled : config.quotaEnabled = true) (calls : List Call)
    (fits : ∀ made, made <+: calls →
      ((fresh config).after (made.map Call.run)).Fits) :
    Keeping config ((fresh config).after (calls.map Call.run)) :=
  (keeping_fresh config).after enabled calls fits

theorem Keeping.accurate (keeping : Keeping config ns) : ns.Accurate := by
  intro id inode quota live hquota
  have wf := keeping.sound.books.wellFormed
  obtain ⟨ids, hids, nodup, hmem, husage⟩ := InodeTable.exists_usage wf live
  refine ⟨ids, _, hids, husage, ?_⟩
  have spans : ns.books.nodes.Spans id ids.toFinset := fun x =>
    List.mem_toFinset.trans (hmem x)
  have htotal := keeping.balanced.cached_add_pending
    ((quota_of_live live).trans hquota) spans
  rw [Ledger.outstanding_of_nodup _ nodup, Counts.sum_map_of_nodup nodup]
  exact htotal

/-- A recount succeeds wherever quotas are kept at all. -/
theorem exists_recount (sound : ns.Sound)
    (enabled : ns.config.quotaEnabled = true) :
    ∃ locks whole mid ids,
      (ns.opened .recomputeQuota locks).tree.Spans .root ids ∧
      Recounts (ns.opened .recomputeQuota locks) mid ids whole ∧
      Namespace.recount ns = .ok whole.report (cleared mid).commit := by
  obtain ⟨locks, hplan, hholds⟩ := InodeTable.plan_whole sound.books.wellFormed
  have ready := @ready_opened ns .recomputeQuota locks sound.books
  have htree : (ns.opened .recomputeQuota locks).tree = ns.table.tree :=
    congrArg Books.nodes books_opened
  obtain ⟨root, hroot, _⟩ := ready.wellFormed.root
  have recountable : Recountable (ns.opened .recomputeQuota locks)
      ((ns.opened .recomputeQuota locks).view.size + 1) .root := by
    refine ⟨⟨root, hroot⟩, fun x hx => .inl (hholds x (htree ▸ hx)), ?_⟩
    intro x depth deeper hx _ hdeeper
    obtain ⟨found, hfound⟩ :=
      Option.isSome_iff_exists.1 (isSome_of_under hroot hx)
    have := ready.reads.deep hfound hdeeper
    omega
  obtain ⟨whole, mid, hrecount⟩ :=
    Work.exists_recount ready.wellFormed recountable
  obtain ⟨ids, spans, recounts⟩ := recounts_recount ready.wellFormed hrecount
  refine ⟨locks, whole, mid, ids, spans, recounts, ?_⟩
  rw [recount_eq, if_pos enabled, transact_eq_ok sound.locks frames_recountAll]
  exact ⟨locks, _, hplan, recountAll_eq_ok.2 ⟨whole, mid, hrecount, rfl, rfl⟩,
    rfl⟩

/-- Where the books are balanced a recount has nothing to mend. -/
theorem Keeping.recount (enabled : config.quotaEnabled = true)
    (keeping : Keeping config ns) :
    ∃ report ns', Namespace.recount ns = .ok report ns' ∧
      report.inconsistencies = 0 := by
  obtain ⟨locks, whole, mid, ids, spans, recounts, hrecount⟩ :=
    exists_recount keeping.sound (keeping.config ▸ enabled)
  have ready := @ready_opened ns .recomputeQuota locks keeping.sound.books
  have balanced : (ns.opened .recomputeQuota locks).books.Balanced :=
    books_opened ▸ keeping.balanced
  refine ⟨whole.report, _, hrecount, recounts.consistent ?_⟩
  intro x _ quota below hquota hbelow
  have hpending (y : InodeId) :
      (ns.opened .recomputeQuota locks).pendingFor [y] =
        (ns.opened .recomputeQuota locks).books.pending y := by
    rw [pendingFor_eq ready.plain (List.nodup_singleton y)]
    simp [Transaction.books]
  simp only [hpending]
  exact balanced.cached_add_pending hquota hbelow

/-- In every run that keeps quotas, each quota is accurate at any moment, and a
recount reports no inconsistency. -/
theorem accurate_after (config : Config) (enabled : config.quotaEnabled = true)
    (calls : List Call)
    (fits : ∀ made, made <+: calls →
      ((fresh config).after (made.map Call.run)).Fits) :
    ((fresh config).after (calls.map Call.run)).Accurate ∧
      ∃ report ns', Namespace.recount
          ((fresh config).after (calls.map Call.run)) = .ok report ns' ∧
        report.inconsistencies = 0 := by
  have keeping := keeping_after enabled calls fits
  exact ⟨keeping.accurate, keeping.recount enabled⟩

/-- A run with a quota on the way, whose file is moved out of it and then
deleted. -/
def quotaRun : List Call :=
  [.mkdirs "/a/b" {}, .setQuota "/a" 10 1000, .create "/a/b/f"
    { writer := ⟨"c", ""⟩, blockSize := some 100, replication := some 2 },
    .addBlock "/a/b/f" "c" [], .complete "/a/b/f" "c" 10, .rename "/a/b" "/c",
    .delete "/c/f" false]

theorem accurate_after_quotaRun :
    ((fresh {}).after (quotaRun.map Call.run)).Accurate ∧
      ∃ report ns', Namespace.recount
          ((fresh {}).after (quotaRun.map Call.run)) = .ok report ns' ∧
        report.inconsistencies = 0 := by
  have fits :
      ∀ made ∈ quotaRun.inits, ((fresh {}).after (made.map Call.run)).Fits := by
    decide +kernel
  refine accurate_after {} rfl quotaRun fun made hmade => ?_
  exact fits made ((List.mem_inits _ _).2 hmade)

end Namespace

end QuotaTree
