/-
Disk space by storage type.  Every replica of a file lies on one medium, so that
the bytes of a usage are those on the four media taken together, and this is so
of all that is pending and of all that quotas have cached.
-/
import QuotaTree.Proofs.Request.Meeting
import QuotaTree.Proofs.Usage.Entries
import Mathlib.Algebra.Group.Subgroup.Ker

namespace QuotaTree

open Nodes

namespace Counts

/-- Bytes are those on the four storage types, taken together. -/
def Apportioned (counts : Counts) : Prop :=
  counts.bytes = counts.ramDisk + counts.ssd + counts.disk + counts.archive

instance (counts : Counts) : Decidable counts.Apportioned :=
  inferInstanceAs (Decidable (_ = _))

/-- The bytes that are on none of the storage types; they are added up as counts
are. -/
def unassigned : Counts →+ Int :=
  AddMonoidHom.mk' (fun counts =>
    counts.get
      .bytes - (counts.get (.typed .ramDisk) + counts.get (.typed .ssd) +
      counts.get (.typed .disk) + counts.get (.typed .archive)))
        fun left right => by
    simp only [get_add]
    omega

theorem mem_ker_unassigned {counts : Counts} :
    counts ∈ unassigned.ker ↔ counts.Apportioned := by
  rw [AddMonoidHom.mem_ker]
  exact sub_eq_zero

end Counts

/-- Every medium of a list is one of the four. -/
theorem StorageType.length_eq_count (types : List StorageType) :
    types.length = types.count .ramDisk + types.count .ssd + types.count .disk +
      types.count .archive := by
  induction types with
  | nil => rfl
  | cons type rest ih => cases type <;> simp <;> omega

/-- Each replica is placed on one medium. -/
theorem StoragePolicy.apportioned_space (policy : StoragePolicy)
    (replication : Nat) (bytes : Int) :
    (policy.space replication bytes).Apportioned := by
  have hlength := StorageType.length_eq_count (policy.placement replication)
  rw [length_placement] at hlength
  have hget (dimension : Dimension) :
      (policy.space replication bytes).get dimension =
        bytes * policy.weight replication dimension := get_space ..
  calc (policy.space replication bytes).get .bytes
      = bytes * replication := hget .bytes
    _ = bytes * ((policy.placement replication).count .ramDisk +
          (policy.placement replication).count .ssd +
          (policy.placement replication).count .disk +
          (policy.placement replication).count .archive : Nat) := by
      rw [← hlength]
    _ = (policy.space replication bytes).get (.typed .ramDisk) +
          (policy.space replication bytes).get (.typed .ssd) +
          (policy.space replication bytes).get (.typed .disk) +
          (policy.space replication bytes).get (.typed .archive) := by
      simp only [hget, weight, Int.natCast_add, Int.mul_add]

/-- Whatever limits there are, bytes are divided among the storage types. -/
def Standard.apportioned : Standard where
  since := 0
  settable := True
  limits _ _ := True
  counts := Counts.unassigned.ker
  bare _ := trivial
  relimited _ _ _ _ _ _ _ _ := trivial
  oneInode_mem := Counts.mem_ker_unassigned.2 rfl
  space_mem policy replication bytes :=
    Counts.mem_ker_unassigned.2 (policy.apportioned_space replication bytes)

namespace File

variable (file : File)

/-- The bytes that a file uses are those of one replica for each of them. -/
theorem bytes_usage :
    file.usage.bytes = counterOf file.charged * file.replication := by
  have hspace : file.usage.bytes = file.chargedSpace.get .bytes := rfl
  rw [hspace, chargedSpace, space, StoragePolicy.get_space]
  rfl

theorem apportioned_usage : file.usage.Apportioned :=
  file.policy.apportioned_space file.replication (counterOf file.charged)

end File

namespace Namespace

/-- Disk space is the sum over the storage types, in what files and subtrees
use, in what is pending and in what quotas have cached; and files use what one
replica is charged for as often as they have replicas. -/
structure Itemized (ns : Namespace) : Prop where
  file : ∀ {id inode file}, ns.table.find? id = some inode →
    inode.content = .file file →
    file.usage.Apportioned ∧
    file.usage.bytes = counterOf file.charged * file.replication
  fitting : ∀ {id inode file}, ns.table.find? id = some inode →
    inode.content = .file file →
    (file.charged : Int) ≤ maxCounter →
    file.usage.bytes = file.charged * file.replication
  subtree : ∀ {id used}, ns.table.view.usage id = .ok used → used.Apportioned
  pending : ∀ update ∈ ns.ledger.toList, update.delta.Apportioned
  cached : ∀ {id inode quota}, ns.table.find? id = some inode →
    inode.quota = some quota →
    quota.cached.Apportioned

/-- In every namespace that can come about, disk space is the sum over the
storage types. -/
theorem itemized_after (config : Config) (events : List Event) :
    ((fresh config).after (events.map Event.run)).Itemized := by
  have sound := (sound_fresh config).after events
  have meets :
      ((fresh config).after (events.map Event.run)).Meets .apportioned :=
    (meets_fresh config (Nat.zero_le _) trivial).after
      trivial (sound_fresh config).locks events
  constructor
  case file =>
    exact fun {_ _ file} _ _ => ⟨file.apportioned_usage, file.bytes_usage⟩
  case fitting =>
    intro id inode file _ _ fits
    rw [file.bytes_usage, counterOf_of_le fits]
  case subtree =>
    intro id used h
    exact Counts.mem_ker_unassigned.1 (View.usage_mem .apportioned h)
  case pending =>
    intro update h
    exact Counts.mem_ker_unassigned.1
      (meets.ledger (sound.ledger.mem_toList.1 h))
  case cached =>
    intro id inode quota live hquota
    exact Counts.mem_ker_unassigned.1 ((meets.inode live).2.cached hquota)

/-- A run whose files are on several media, and whose replications and policies
change while something is pending. -/
def mediaRun : List Event :=
  [.call (.mkdirs "/d" {}), .call (.setStoragePolicy "/d" .warm),
    .call (.setQuota "/d" 9 9000), .call (.create "/d/f"
      { writer := ⟨"c", ""⟩, blockSize := some 100, replication := some 3 }),
    .call (.writeInline "/d/f" "c" 10), .call (.setReplication "/d/f" 2),
    .call .mergeUpdates, .call (.addBlock "/d/f" "c" []),
    .call (.setStoragePolicy "/d/f" .oneSsd), .call (.complete "/d/f" "c" 7)]

theorem itemized_after_mediaRun :
    let ns := (fresh { maxInline := 50 }).after (mediaRun.map Event.run)
    ns.ledger.toList.map (fun update => (update.inode.val, update.delta)) =
        [(2, { bytes := 180, disk := 90, archive := 90 }),
          (2, { ssd := 100, archive := -100 }),
          (2, { bytes := -186, ssd := -93, disk := -93 })] ∧
      (ns.table.tree.quota ⟨2⟩).map Quota.cached =
        some { inodes := 2, bytes := 20, disk := 10, archive := 10 } ∧
      ns.Itemized :=
  ⟨by decide +kernel, by decide +kernel, itemized_after _ mediaRun⟩

end Namespace

end QuotaTree
