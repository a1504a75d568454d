/-
Storing one inode anew in its place: a file with other data, or a directory with
another quota or policy.
-/
import QuotaTree.Proofs.Work.Turns

namespace QuotaTree

open Nodes

namespace Inode

theorem id_withDirectory (inode : Inode) (directory : Directory) :
    (inode.withDirectory directory).id = inode.id :=
  rfl

theorem id_withFile (inode : Inode) (file : File) :
    (inode.withFile file).id = inode.id :=
  rfl

/-- A directory whose entries stay lies in the tree as it did. -/
theorem alike_withDirectory {inode : Inode} {directory changed : Directory}
    (content : inode.asDirectory = some directory)
    (children : changed.children = directory.children) :
    inode.Alike (inode.withDirectory changed) := by
  refine ⟨⟨rfl, rfl, rfl, ?_⟩, fun name => ?_⟩
  · rw [isDirectory, isDirectory, content]
    rfl
  · rw [child?, child?, content]
    exact congrArg (·[name]?) children

theorem asFile_withDirectory {inode : Inode} {directory : Directory}
    (changed : Directory) (content : inode.asDirectory = some directory) :
    (inode.withDirectory changed).asFile = inode.asFile := by
  rw [asDirectory_eq_some] at content
  simp [asFile, withDirectory, content]

end Inode

/-- A tree in which one inode differs in its quota or its policy. -/
theorem Nodes.recast_set {nodes : Nodes} {id : InodeId} {inode new : Inode}
    (live : nodes id = some inode) (alike : inode.Alike new)
    (file : new.asFile = inode.asFile) :
    nodes.Recast (nodes.set id (some new)) where
  alike := alike_set live alike
  file x := by
    by_cases h : x = id
    · subst h
      rw [file_of_live (set_self ..), file_of_live live, file]
    · rw [Nodes.file, Nodes.file, set_of_ne _ h]

theorem Nodes.quota_set_of_ne {nodes : Nodes} {id x : InodeId} (h : x ≠ id)
    (found : Option Inode) : (nodes.set id found).quota x = nodes.quota x := by
  rw [quota, quota, set_of_ne _ h]

namespace Transaction

variable {tx : Transaction} {parent chain : Chain} {name : Name} {id : InodeId}
  {inode : Inode} {file new : File} {delta : Counts}
  {directory changed : Directory}

/-- A directory is stored with another quota. -/
theorem turns_adjusted (ready : tx.Ready) (live : tx.tree id = some inode)
    (content : inode.asDirectory = some directory)
    (children : changed.children = directory.children)
    (seeds : tx.books.Seeds id directory.quota changed.quota) :
    tx.Turns (tx.stored (inode.withDirectory changed)) where
  changes := by
    have hquota : tx.tree.quota id = directory.quota := by
      rw [quota_of_live live, Inode.quota, content]
      rfl
    have recast :=
      Nodes.recast_set live (Inode.alike_withDirectory content children)
        (Inode.asFile_withDirectory changed content)
    rw [books_stored, Inode.id_withDirectory, ready.wellFormed.ids live]
    refine .single (.adjust recast (fun x hx => Nodes.quota_set_of_ne hx _) ?_)
    rw [quota_of_live (set_self ..)]
    exact hquota.symm ▸ seeds
  keepsQuota := rfl
  plain plain := ⟨plain.merged, plain.clearing⟩

/-- Nothing is entered for a change that is nothing. -/
theorem charge_zero (pending : InodeId → Counts) (keeps : Bool) (id : InodeId) :
    Books.charge pending keeps id 0 = pending := by
  funext x
  simp [Books.charge]

theorem charge_charge (pending : InodeId → Counts) (keeps : Bool) (id : InodeId)
    (first second : Counts) :
    Books.charge (Books.charge pending keeps id first) keeps id second =
      Books.charge pending keeps id (second + first) := by
  funext x
  unfold Books.charge
  split
  · abel
  · simp

/-- A file is never the root, so that there is a directory above it. -/
theorem exists_child_of_file (wf : tx.tree.WellFormed)
    (leads : Chain.Leads tx.tree chain) (live : tx.tree chain.last = some inode)
    (content : inode.asFile = some file) :
    ∃ parent name id, chain = Chain.child parent name id := by
  cases leads with
  | root =>
    obtain ⟨root, hroot, hdir, _⟩ := wf.root
    rw [Chain.last_root, hroot, Option.some_inj] at live
    subst live
    rw [Inode.asFile_eq_some] at content
    simp [Inode.isDirectory, Inode.asDirectory, content] at hdir
  | child => exact ⟨_, _, _, rfl⟩

/-- A file is stored with other data, and its growth is entered. -/
theorem refile_accounted (ready : tx.Ready)
    (leads : Chain.Leads tx.tree (parent.child name id))
    (live : tx.tree id = some inode) (content : inode.asFile = some file)
    (recharged : file.Recharged new delta) :
    Refile tx.keepsQuota tx.books
      ((tx.accounted parent.last delta).stored (inode.withFile new)).books := by
  rw [books_stored, books_accounted, tree_accounted, Inode.id_withFile,
    ready.wellFormed.ids live]
  exact .intro live content (leads.link ready.wellFormed) recharged

/-- The growth may as well be entered afterwards. -/
theorem refile_stored (ready : tx.Ready)
    (leads : Chain.Leads tx.tree (parent.child name id))
    (live : tx.tree id = some inode) (content : inode.asFile = some file)
    (recharged : file.Recharged new delta) :
    Refile tx.keepsQuota tx.books
      ((tx.stored (inode.withFile new)).accounted parent.last delta).books := by
  rw [books_accounted, books_stored, Inode.id_withFile,
    ready.wellFormed.ids live]
  exact .intro live content (leads.link ready.wellFormed) recharged

/-- A file whose usage stays is only stored. -/
theorem refile_unaccounted (ready : tx.Ready)
    (leads : Chain.Leads tx.tree (parent.child name id))
    (live : tx.tree id = some inode) (content : inode.asFile = some file)
    (recharged : file.Recharged new 0) :
    Refile tx.keepsQuota tx.books (tx.stored (inode.withFile new)).books := by
  have refile := @Refile.intro tx.keepsQuota tx.books _ _ _ _ _ _ live content
    (leads.link ready.wellFormed) recharged
  rw [charge_zero] at refile
  rw [books_stored, Inode.id_withFile, ready.wellFormed.ids live]
  exact refile

end Transaction

end QuotaTree
