/-
The books of a namespace: its tree, what is pending at each inode, and the
identity to be given out next.  They are balanced when every cached usage, with
what is pending below it, is the usage of the subtree.
-/
import QuotaTree.Namespace
import QuotaTree.Proofs.Tree.Link
import QuotaTree.Proofs.Tree.Naming
import QuotaTree.Proofs.Tree.Prune
import QuotaTree.Proofs.Tree.Relocate
import QuotaTree.Proofs.Usage.Ledger

namespace QuotaTree

namespace Nodes

variable {nodes : Nodes} {id : InodeId} {inode : Inode}

def own (nodes : Nodes) (id : InodeId) : Counts :=
  ((nodes id).map Inode.ownUsage).getD 0

def quota (nodes : Nodes) (id : InodeId) : Option Quota :=
  (nodes id).bind Inode.quota

def file (nodes : Nodes) (id : InodeId) : Option File :=
  (nodes id).bind Inode.asFile

theorem own_of_live (live : nodes id = some inode) :
    nodes.own id = inode.ownUsage := by
  simp [own, live]

theorem own_of_dead (dead : nodes id = none) : nodes.own id = 0 := by
  simp [own, dead]

theorem quota_of_live (live : nodes id = some inode) :
    nodes.quota id = inode.quota := by
  simp [quota, live]

theorem file_of_live (live : nodes id = some inode) :
    nodes.file id = inode.asFile := by
  simp [file, live]

theorem quota_eq_some {quota : Quota} : nodes.quota id = some quota ↔
    ∃ inode, nodes id = some inode ∧ inode.quota = some quota := by
  simp [Nodes.quota, Option.bind_eq_some_iff]

/-- The members of a set are the inodes under one of them. -/
def Spans (nodes : Nodes) (top : InodeId) (ids : Finset InodeId) : Prop :=
  ∀ x, x ∈ ids ↔ nodes.Under top x

theorem Spans.unique {top : InodeId} {ids others : Finset InodeId}
    (first : nodes.Spans top ids) (second : nodes.Spans top others) :
    ids = others :=
  Finset.ext fun x => (first x).trans (second x).symm

end Nodes

/-- The usage of an inode by itself depends on its file alone. -/
theorem Inode.ownUsage_eq (inode : Inode) :
    inode.ownUsage = (inode.asFile.map File.usage).getD Counts.oneInode := by
  unfold ownUsage asFile
  cases inode.content <;> rfl

theorem Inode.SameUse.ownUsage {old new : Inode} (same : old.SameUse new) :
    new.ownUsage = old.ownUsage := by
  rw [Inode.ownUsage_eq, Inode.ownUsage_eq, same.file]

structure Books where
  nodes : Nodes
  pending : InodeId → Counts
  next : InodeId

namespace Books

/-- A change of usage entered as pending at an inode, if quotas are kept. -/
def charge (pending : InodeId → Counts) (keeps : Bool) (id : InodeId)
    (delta : Counts) : InodeId → Counts :=
  fun x => pending x + if keeps = true ∧ x = id then delta else 0

/-- The part of an inode's own usage that the cached usages above it have taken
in. -/
def settled (books : Books) (id : InodeId) : Counts :=
  books.nodes.own id - books.pending id

/-- The tree is well formed, all its names are proper and none below the root is
the reserved one, identities given out later are new, and nothing is pending for
what is gone. -/
structure Sound (books : Books) : Prop where
  wellFormed : books.nodes.WellFormed
  named :
    ∀ {parent name id}, books.nodes.entryAt parent name = some id → name.Proper
  unreserved : books.nodes.entryAt .root (Name.ofText reservedName) = none
  below : ∀ {id inode}, books.nodes id = some inode → id.val < books.next.val
  bounded : books.next.val ≤ InodeId.maxVal
  pending : ∀ {id}, books.nodes id = none → books.pending id = 0

/-- Every quota has cached what is settled in its subtree. -/
def Balanced (books : Books) : Prop :=
  ∀ ⦃top quota ids⦄, books.nodes.quota top = some quota →
    books.nodes.Spans top ids →
    quota.cached = ∑ x ∈ ids, books.settled x

/-- Together with what is pending, every quota shows the usage of its
subtree. -/
theorem Balanced.cached_add_pending {books : Books} (balanced : books.Balanced)
    {top : InodeId} {quota : Quota} {ids : Finset InodeId}
    (hquota : books.nodes.quota top = some quota)
    (spans : books.nodes.Spans top ids) :
    quota.cached + ∑ x ∈ ids, books.pending x =
      ∑ x ∈ ids, books.nodes.own x := by
  rw [balanced hquota spans]
  simp only [settled, Finset.sum_sub_distrib]
  abel

/-- The cached usage that a directory's new quota may start from: the one it
had, or what is settled in its subtree. -/
def Seeds (books : Books) (id : InodeId) (old new : Option Quota) : Prop :=
  ∀ quota, new = some quota →
    (∃ before, old = some before ∧ quota.cached = before.cached) ∨
      ∃ ids, books.nodes.Spans id ids ∧
        quota.cached = ∑ x ∈ ids, books.settled x

end Books

/-- A tree that differs only in quotas and policies. -/
structure Nodes.Recast (nodes after : Nodes) : Prop where
  alike : nodes.Alike after
  file : ∀ x, after.file x = nodes.file x

theorem Nodes.Recast.own {nodes after : Nodes} (recast : nodes.Recast after)
    (x : InodeId) : after.own x = nodes.own x := by
  cases hx : nodes x with
  | none => rw [own_of_dead hx, own_of_dead (recast.alike.dead hx)]
  | some old =>
    obtain ⟨found, hfound, _⟩ := recast.alike.live hx
    have hfile := recast.file x
    rw [file_of_live hx, file_of_live hfound] at hfile
    rw [own_of_live hx, own_of_live hfound, Inode.ownUsage_eq,
      Inode.ownUsage_eq, hfile]

/-- The changes that requests make, apart from those of a file's data and from
bringing up to date what quotas have cached. -/
inductive Change (keeps : Bool) (books : Books) : Books → Prop
  /-- Identities are used up. -/
  | skip {next : InodeId} (le : books.next.val ≤ next.val)
      (bounded : books.next.val ≤ InodeId.maxVal → next.val ≤ InodeId.maxVal) :
    Change keeps books { books with next }
  /-- The limits or the policy of a directory are set. -/
  | adjust {id : InodeId} {after : Nodes} (recast : books.nodes.Recast after)
      (others : ∀ x, x ≠ id → after.quota x = books.nodes.quota x)
      (seeds : books.Seeds id (books.nodes.quota id) (after.quota id)) :
    Change keeps books { books with nodes := after }
  /-- A new inode is put below a directory, under an identity that was not given
  out before. -/
  | link {parent id next : InodeId} {name : Name} {gained new : Inode}
      (ins : books.nodes.Insertion parent id name gained new)
      (proper : name.Proper)
      (unreserved : parent = .root → name ≠ Name.ofText reservedName)
      (unlimited : new.quota = none) (unused : books.next.val ≤ id.val)
      (below : id.val < next.val) (bounded : next.val ≤ InodeId.maxVal)
      (empty : ∀ file, new.asFile = some file →
        file.blocks = [] ∧ file.inlineSize = none) :
    Change keeps books
      { nodes := books.nodes.insert parent id gained new
        pending := Books.charge books.pending keeps parent new.ownUsage
        next }
  /-- A subtree is taken out. -/
  | prune {parent id : InodeId} {name : Name} {lost : Inode} {after : Nodes}
      {ids : Finset InodeId}
      (pruning : books.nodes.Pruning after parent id name lost)
      (spans : books.nodes.Spans id ids) : Change keeps books { books with
        nodes := after
        pending := fun x =>
          if x ∈ ids then 0
          else
            Books.charge books.pending keeps parent
              (-∑ x ∈ ids, books.settled x) x }
  /-- A subtree is moved, and what is pending in it with it. -/
  | relocate {parent target id : InodeId} {name entry : Name}
      {lost gained moved : Inode} {ids : Finset InodeId}
      (rel :
        books.nodes.Relocation id parent target name entry lost gained moved)
      (proper : entry.Proper)
      (unreserved : target = .root → entry ≠ Name.ofText reservedName)
      (spans : books.nodes.Spans id ids) : Change keeps books { books with
        nodes := books.nodes.relocate id parent target lost gained moved
        pending :=
          Books.charge (Books.charge books.pending keeps parent
            (-∑ x ∈ ids, books.settled x))
            keeps target (∑ x ∈ ids, books.settled x) }

/-- What quotas have cached is brought up to date. -/
inductive Mend (books : Books) : Books → Prop
  /-- What is pending at an inode is merged into the quotas above it. -/
  | absorb {id : InodeId} {after : Nodes} (recast : books.nodes.Recast after)
      (quota : ∀ {x quota}, after.quota x = some quota →
        ∃ before, books.nodes.quota x = some before ∧
          (books.nodes.Under x id →
            quota.cached = before.cached + books.pending id) ∧
          (¬ books.nodes.Under x id → quota.cached = before.cached)) :
    Mend books { books with
        nodes := after
        pending := fun x => if x = id then 0 else books.pending x }
  /-- All usage is counted again. -/
  | recount {after : Nodes} (recast : books.nodes.Recast after)
      (quota : ∀ {x quota ids}, after.quota x = some quota →
        books.nodes.Spans x ids →
        quota.cached = ∑ y ∈ ids, books.nodes.own y) :
    Mend books { books with nodes := after, pending := fun _ => 0 }

end QuotaTree
