/-
Content summaries and usage.  A summary keeps accounts of its own while it
visits a subtree in batches.  However large the batches are, it tells in every
dimension what the usages of the inodes add up to, and the length of all data
besides.
-/
import QuotaTree.Proofs.Faults.Planning
import QuotaTree.Proofs.Symlinks
import QuotaTree.Proofs.Tree.Walk

namespace QuotaTree

open Nodes

def Nodes.dataLength (nodes : Nodes) (id : InodeId) : Nat :=
  ((nodes.file id).map File.size).getD 0

/-- Inodes are counted apart from everything else. -/
theorem Counts.oneInode_of_ne {dimension : Dimension}
    (h : dimension ≠ .inodes) : oneInode.get dimension = 0 := by
  rcases dimension with _ | _ | type
  · exact absurd rfl h
  · rfl
  · cases type <;> rfl

namespace Summary

variable {summary : Summary} {nodes : Nodes} {used : Counts} {length : Nat}
  {inode : Inode}

/-- A summary tells of a usage, and of data of this length. -/
structure Tells (summary : Summary) (used : Counts) (length : Nat) : Prop where
  inodes :
    ((summary.files + summary.directories + summary.symlinks : Nat) : Int) =
      used.inodes
  space :
    ∀ dimension ≠ .inodes, summary.space.get dimension = used.get dimension
  length : summary.length = length

theorem tells_nothing (limits : Counts) : Tells { limits } 0 0 where
  inodes := rfl
  space _ _ := rfl
  length := rfl

@[simp] theorem limits_add : (summary.add inode).limits = summary.limits := by
  unfold add
  cases inode.content <;> rfl

theorem limits_addAll (ids : List InodeId) :
    (summary.addAll nodes ids).limits = summary.limits := by
  unfold addAll
  induction ids.filterMap nodes generalizing summary with
  | nil => rfl
  | cons inode rest ih => rw [List.foldl_cons, ih, limits_add]

/-- An inode is counted in with what it uses by itself. -/
theorem Tells.add (tells : summary.Tells used length) :
    (summary.add inode).Tells (used + inode.ownUsage)
      (length + (inode.asFile.map File.size).getD 0) := by
  obtain ⟨hinodes, hspace, hlength⟩ := tells
  have hnone : ∀ dimension ≠ .inodes,
      summary.space.get dimension = (used + Counts.oneInode).get dimension := by
    intro dimension hne
    rw [Counts.get_add, Counts.oneInode_of_ne hne, hspace dimension hne,
      Int.add_zero]
  have hmore : (used + Counts.oneInode).inodes = used.inodes + 1 := rfl
  rw [Inode.ownUsage_eq]
  unfold Summary.add Inode.asFile
  cases inode.content with
  | directory | symlink =>
    refine ⟨?_, hnone, hlength⟩
    simp only [Option.map_none, Option.getD_none]
    omega
  | file file =>
    refine ⟨?_, fun dimension hne => ?_, congrArg (· + file.size) hlength⟩
    · have hfile : (used + file.usage).inodes = used.inodes + 1 := rfl
      simp only [Option.map_some, Option.getD_some]
      omega
    · simp only [Option.map_some, Option.getD_some]
      rw [File.usage_eq, Counts.get_add, Counts.get_add, Counts.get_add,
        Counts.oneInode_of_ne hne, hspace dimension hne, Int.add_zero]

/-- The inodes of a list are counted in with what they use together. -/
theorem Tells.addAll (tells : summary.Tells used length) (ids : List InodeId) :
    (summary.addAll nodes ids).Tells (used + Counts.sum (ids.map nodes.own))
      (length + (ids.map nodes.dataLength).sum) := by
  induction ids generalizing summary used length with
  | nil => simpa [Summary.addAll] using tells
  | cons id rest ih =>
    rw [List.map_cons, List.map_cons, Counts.sum_cons, List.sum_cons,
      ← Counts.add_assoc, ← Nat.add_assoc]
    cases live : nodes id with
    | none =>
      rw [own_of_dead live, Counts.add_zero, dataLength, Nodes.file, live,
        Summary.addAll, List.filterMap_cons_none live]
      exact ih tells
    | some inode =>
      rw [own_of_live live, dataLength, file_of_live live, Summary.addAll,
        List.filterMap_cons_some live, List.foldl_cons]
      exact ih tells.add

end Summary

namespace Namespace

variable {ns : Namespace} {path resolved : String} {chain : Chain}
  {inode : Inode}

def withSummaryBatch (ns : Namespace) (batch : Nat) : Namespace :=
  { ns with config := { ns.config with summaryBatch := batch } }

theorem Sound.withSummaryBatch (sound : ns.Sound) (batch : Nat) :
    (ns.withSummaryBatch batch).Sound :=
  ⟨sound.books, sound.ledger, sound.locks⟩

/-- The usage that is computed for a path is that of the inodes of the subtree
there. -/
theorem computeUsage_of_resolve (sound : ns.Sound)
    (hresolved : Path.resolveReserved ns.table.view path = .ok resolved)
    (h : Chain.resolve ns.table.view resolved false = .ok chain)
    (live : ns.table.tree chain.last = some inode) {ids : Finset InodeId}
    (spans : ns.table.tree.Spans chain.last ids) :
    computeUsage path ns = .ok (∑ x ∈ ids, ns.table.tree.own x) ns := by
  let lock : PathLock := { path := resolved, kind := .read, scope := .subtree }
  have hexisting := Chain.resolve_eq_ok.1 h
  obtain ⟨locks, hplan, hgrants⟩ :=
    @exists_opened ns [lock] sound .computeQuotaUsage fun other hother => by
      rw [List.mem_singleton.1 hother]
      exact ⟨rfl, chain, [], hexisting⟩
  have grants := hgrants lock (List.mem_singleton_self _) chain [] hexisting
  have ready := @ready_opened ns .computeQuotaUsage locks sound.books
  obtain ⟨found, _, nodup, hmem, husage⟩ :=
    ready.reads.exists_usage ready.wellFormed (tree_opened ▸ live)
      fun x hx => by
      by_cases hlast : x = chain.last
      · exact Transaction.view_opens (hlast ▸ grants.last)
      · exact Transaction.view_opens (grants.below rfl rfl x hx hlast)
  rw [tree_opened] at hmem husage
  obtain rfl := spans.unique fun x => List.mem_toFinset.trans (hmem x)
  rw [computeUsage, Outcome.bind_of_ok (resolvePath_eq_ok.2 ⟨hresolved, rfl⟩)]
  refine transact_of_ok sound.locks hplan ?_
  rw [Outcome.bind_of_ok
    (Work.read_of_ok (Chain.resolve_eq_ok.2 grants.resolves)),
    ← Counts.sum_map_of_nodup nodup]
  exact Work.read_of_ok husage

/-- A summary counts in the inodes of the subtree at a path. -/
theorem summary_of_resolve (sound : ns.Sound)
    (hresolved : Path.resolveReserved ns.table.view path = .ok resolved)
    (h : Chain.resolve ns.table.view resolved false = .ok chain)
    (live : ns.table.tree chain.last = some inode)
    (stops : ∀ target, inode.content ≠ .symlink target) {ids : List InodeId}
    (subtree : ns.table.view.subtree chain.last = .ok ids) :
    ∃ pauses, summary path ns =
        .ok (Summary.addAll { limits := inode.limits } ns.table.tree ids)
        { ns with pauses } := by
  obtain ⟨hleads, hstays⟩ := leadsTo_of_resolve .path hresolved h live stops
  have hheeds := (obeys_summary sound path).1 hstays
  rw [Heeds, hleads] at hheeds
  obtain ⟨found, hfound, others, pauses, hothers, hsummary⟩ := hheeds
  obtain rfl := Option.some.inj (live.symm.trans hfound)
  obtain rfl := Except.ok.inj (subtree.symm.trans hothers)
  exact ⟨pauses, hsummary⟩

/-- A summary tells of a subtree what the usage that is computed for it tells,
and is the same however large the batches are. -/
structure SumsUp (ns : Namespace) (path : String) (top : InodeId)
    (limits : Counts) (ids : Finset InodeId) (sums : Summary) : Prop where
  subtree : ns.table.tree.Spans top ids
  usage : computeUsage path ns = .ok (∑ x ∈ ids, ns.table.tree.own x) ns
  tells : sums.Tells (∑ x ∈ ids, ns.table.tree.own x) (∑ x ∈ ids,
        ns.table.tree.dataLength x)
  limits : sums.limits = limits
  batches : ∀ batch, ∃ pauses, summary path (ns.withSummaryBatch batch) =
    .ok sums { ns.withSummaryBatch batch with pauses }

theorem exists_sumsUp (sound : ns.Sound)
    (located : ns.table.locate path = .ok chain)
    (live : ns.table.find? chain.last = some inode)
    (stops : ∀ target, inode.content ≠ .symlink target) :
    ∃ ids sums, ns.SumsUp path chain.last inode.limits ids sums := by
  have wf : ns.table.tree.WellFormed := sound.books.wellFormed
  obtain ⟨resolved, hresolved, h⟩ := InodeTable.locate_eq_ok.1 located
  obtain ⟨ids, hids, nodup, hmem, _⟩ := InodeTable.exists_usage wf live
  have spans : ns.table.tree.Spans chain.last ids.toFinset :=
    fun x => List.mem_toFinset.trans (hmem x)
  have tells :
      Summary.Tells
        (Summary.addAll { limits := inode.limits } ns.table.tree ids) _ _ :=
    (Summary.tells_nothing inode.limits).addAll ids
  rw [Counts.zero_add, Nat.zero_add, Counts.sum_map_of_nodup nodup,
    ← List.sum_toFinset _ nodup] at tells
  exact ⟨ids.toFinset, _, spans,
    computeUsage_of_resolve sound hresolved h live spans, tells,
    Summary.limits_addAll ids, fun batch => summary_of_resolve
      (sound.withSummaryBatch batch) hresolved h live stops hids⟩

/-- In every namespace that can come about, the summary of a path that leads to
a directory or a file tells in all dimensions what the usage computed for the
path tells, and the length of all files there, whatever the size of the
batches. -/
theorem sumsUp_after (config : Config) (events : List Event) {path : String}
    {chain : Chain} {inode : Inode} :
    let ns := (fresh config).after (events.map Event.run)
    ns.table.locate path = .ok chain → ns.table.find? chain.last = some inode →
      (∀ target, inode.content ≠ .symlink target) →
        ∃ ids sums, ns.SumsUp path chain.last inode.limits ids sums :=
  exists_sumsUp ((sound_fresh config).after events)

def summaryRun : List Event :=
  [.call (.mkdirs "/a/b" {}), .call (.setQuota "/a" 10 (-1)),
    .call (.create "/a/f"
      { writer := ⟨"c", ""⟩, blockSize := some 10, replication := some 2 }),
    .call (.addBlock "/a/f" "c" []), .call (.complete "/a/f" "c" 7),
    .call (.create "/a/b/g" { writer := ⟨"c", ""⟩ }),
    .call (.writeInline "/a/b/g" "c" 5),
    .call (.createSymlink "/a/f" "/a/l" {} false)]

theorem sumsUp_after_summaryRun :
    let ns := (fresh {}).after (summaryRun.map Event.run)
    ∃ chain inode, ns.table.locate "/a" = .ok chain ∧
      ns.table.find? chain.last = some inode ∧
      (∀ target, inode.content ≠ .symlink target) ∧
      ∃ ids sums, ns.SumsUp "/a" chain.last inode.limits ids sums ∧
        (sums.files, sums.directories, sums.symlinks, sums.length) =
          (2, 2, 1, 12) := by
  intro ns
  have hplace : (ns.table.locate "/a").toOption.map Chain.last = some ⟨2⟩ := by
    decide +kernel
  have hdirectory : (ns.table.find? ⟨2⟩).map Inode.isDirectory = some true := by
    decide +kernel
  have hcounted :
      (Outcome.answer (summary "/a" (ns.withSummaryBatch 2))).toOption.map
        (fun sums => (sums.files, sums.directories, sums.symlinks,
          sums.length)) = some (2, 2, 1, 12) := by
    decide +kernel
  obtain ⟨chain, located, hlast⟩ := InodeTable.finds_of_toOption hplace
  obtain ⟨inode, live, directory⟩ :=
    Option.map_eq_some_iff.1 (hlast ▸ hdirectory)
  have stops (target : String) : inode.content ≠ .symlink target := by
    intro hcontent
    rw [Inode.isDirectory, Inode.asDirectory, hcontent] at directory
    cases directory
  obtain ⟨ids, sums, sumsUp⟩ := sumsUp_after {} summaryRun located live stops
  obtain ⟨pauses, hsums⟩ := sumsUp.batches 2
  rw [hsums] at hcounted
  exact ⟨chain, inode, located, live, stops, ids, sums, sumsUp,
    Option.some.inj hcounted⟩

end Namespace

end QuotaTree
