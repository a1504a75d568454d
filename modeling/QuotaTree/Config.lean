/-
The settings of a namespace.
-/
namespace QuotaTree

structure Config where
  /-- Without it no quota is checked and no usage is accounted for. -/
  quotaEnabled : Bool := true
  /-- The longest name in bytes; 0 allows any. -/
  maxNameLength : Nat := 255
  /-- The most entries of a directory; 0 allows any number. -/
  maxEntries : Nat := 1048576
  /-- Milliseconds between two merges of pending updates. -/
  mergeInterval : Nat := 1000
  /-- Inodes that a summary visits between two pauses. -/
  summaryBatch : Nat := 5000
  /-- The largest file that is kept inline; 0 allows none. -/
  maxInline : Nat := 65536
  /-- How often locks are planned again after the tree has moved. -/
  lockRetries : Nat := 16
  defaultReplication : Nat := 3
  defaultBlockSize : Nat := 134217728
  deriving DecidableEq, Repr, Inhabited

end QuotaTree
