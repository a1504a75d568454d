/-
Summing up a subtree.  The walk visits the inodes level by level in batches, and
lets go of its locks between two batches.
-/
import QuotaTree.Transaction

namespace QuotaTree

structure Summary where
  length : Nat := 0
  files : Nat := 0
  directories : Nat := 0
  symlinks : Nat := 0
  /-- Bytes on all replicas, in all and by storage type. -/
  space : Counts := 0
  limits : Counts
  deriving DecidableEq, Repr

namespace Summary

/-- Count in one inode. -/
def add (summary : Summary) (inode : Inode) : Summary :=
  match inode.content with
  | .directory _ => { summary with directories := summary.directories + 1 }
  | .file file =>
    { summary with
      files := summary.files + 1
      length := summary.length + file.size
      space := summary.space + file.chargedSpace }
  | .symlink _ => { summary with symlinks := summary.symlinks + 1 }

end Summary

namespace Work

/-- Count in the inodes of a batch; those that are gone are passed over.  The
inodes found below are returned with the summary. -/
def summarize : List InodeId → Summary → Work (Summary × List InodeId)
  | [], summary => pure (summary, [])
  | id :: rest, summary => do
    match ← read (·.find id) with
    | none => summarize rest summary
    | some inode =>
      let (summary, found) ← summarize rest (summary.add inode)
      pure (summary, inode.children ++ found)

end Work

namespace InodeTable

/-- The number of visits of a walk that starts with a level of inodes. -/
def visits (table : InodeTable) : Nat → List InodeId → Nat
  | 0, level => level.length
  | depth + 1, level =>
    let below := level.flatMap fun id =>
      match table.find? id with
      | some inode => inode.children
      | none => []
    level.length + if below.isEmpty then 0 else table.visits depth below

end InodeTable

namespace Namespace

/-- Visit the inodes of a queue and all those found below them, in batches. -/
def summarizeQueue (batchSize : Nat) :
    Nat → List InodeId → Summary → Request Summary
  | _, [], summary => pure summary
  | 0, id :: _, _ => throw (.fault (.endless id))
  | visits + 1, id :: rest, summary => do
    let batch := (id :: rest).take batchSize
    let demand : LockDemand := { ids := batch.map fun id => (id, .read) }
    let (summary, found) ←
        transact .contentSummary demand (Work.summarize batch summary)
    let queue := (id :: rest).drop batchSize ++ found
    unless queue.isEmpty do
      modify fun ns => { ns with pauses := ns.pauses + 1 }
    summarizeQueue batchSize visits queue summary

/-- Sum up the subtree at a path. -/
def summary (path : String) : Request Summary := do
  let path ← resolvePath path
  let demand := LockDemand.ofPath { path, kind := .read, following := true }
  let (id, limits) ← transact .contentSummary demand do
    let chain ← Work.read (Chain.resolve · path true)
    let inode ← Work.get chain.last
    pure (chain.last, (inode.quota.map Quota.limits).getD Counts.unlimited)
  let ns ← get
  let visits := ns.table.visits ns.table.size [id]
  summarizeQueue (max 1 ns.config.summaryBatch) visits [id] { limits }

end Namespace

end QuotaTree
