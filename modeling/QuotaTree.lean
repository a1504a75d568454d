import QuotaTree.Lock.Queue
import QuotaTree.Request.Summary
import QuotaTree.Main
import QuotaTree.Proofs.Outcome
import QuotaTree.Proofs.Tree.Shape
import QuotaTree.Proofs.Tree.Enumerate
import QuotaTree.Proofs.Work.Steps
import QuotaTree.Proofs.Accounting
import QuotaTree.Proofs.Request.Following
import QuotaTree.Proofs.Request.Summing
import QuotaTree.Proofs.Symlinks
import QuotaTree.Proofs.Refusal
import QuotaTree.Proofs.Addressing
import QuotaTree.Proofs.Overshoot
import QuotaTree.Proofs.Enforcement
import QuotaTree.Proofs.Rebuilding
import QuotaTree.Proofs.Recovery
import QuotaTree.Proofs.BlockRecords
import QuotaTree.Proofs.Coverage
import QuotaTree.Proofs.Convergence
import QuotaTree.Proofs.FileShape
import QuotaTree.Proofs.Leases
import QuotaTree.Proofs.Renaming
import QuotaTree.Proofs.Snapshots
import QuotaTree.Proofs.Weighing
import QuotaTree.Proofs.Deleting
import QuotaTree.Proofs.Foresight
import QuotaTree.Proofs.LegalNames
import QuotaTree.Proofs.Numbering
import QuotaTree.Proofs.Replicas
import QuotaTree.Proofs.Warranted
import QuotaTree.Proofs.Interchange
import QuotaTree.Proofs.Exclusion
import QuotaTree.Proofs.Deadlock
import QuotaTree.Proofs.Recounting
import QuotaTree.Proofs.Draining
import QuotaTree.Proofs.FullPaths
import QuotaTree.Proofs.Summaries
import QuotaTree.Proofs.Truncating
import QuotaTree.Proofs.Creating
import QuotaTree.Proofs.Bookkeeping
import QuotaTree.Proofs.Judging
import QuotaTree.Proofs.Rejecting
import QuotaTree.Proofs.Resolving
import QuotaTree.Proofs.CommonAncestors
import QuotaTree.Proofs.Subtrees
import QuotaTree.Proofs.Tree.Words
import QuotaTree.Proofs.Listings
import QuotaTree.Proofs.Malformed
