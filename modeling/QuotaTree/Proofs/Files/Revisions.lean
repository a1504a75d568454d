/-
What becomes of the data of files: a request revises at most one file, in the
way that it asks for, and the others stay as they are or go with what is taken
out.
-/
import QuotaTree.Proofs.Request.Write

namespace QuotaTree

open Nodes

/-- What a request asks to be done to the data of a file. -/
inductive Revision where
  | none
  | begin (client : String) (block : Block)
  | drop (client : String)
  | close (client : String) (length : Nat)
  | reopen (writer : Writer)
  | inline (client : String) (length : Nat)
  | cut (length : Nat)

namespace File

/-- What a request that asks for a revision may leave of a file. -/
inductive Revises (file : File) : Revision → File → Prop
  /-- The data stays, on the same or on other media. -/
  | media (revision : Revision) (policy : StoragePolicy) (replication : Nat) :
    file.Revises revision { file with policy, replication }
  | begin {client : String} (lease : file.LeasedTo client) (block : Block) :
    file.Revises (.begin client block) (file.beginBlock block)
  | drop {client : String} (lease : file.LeasedTo client) :
    file.Revises (.drop client) { file with blocks := file.blocks.dropLast }
  | close {client : String} {length : Nat} (lease : file.LeasedTo client)
      (short : file.openBlock.isSome → length ≤ file.blockSize) :
    file.Revises (.close client length)
      { file.endBlock length with writer := none }
  | reopen (closed : file.writer = none) (writer : Writer) :
    file.Revises (.reopen writer)
      { file.reopenBlock with writer := some writer }
  | inline {client : String} (lease : file.LeasedTo client)
      (empty : file.blocks = []) (length : Nat) :
    file.Revises (.inline client length) { file with inlineSize := some length }
  | cut (closed : file.writer = none) (length : Nat) :
    file.Revises (.cut length) (file.truncate length).1

variable {file : File}

theorem Revises.same (file : File) (revision : Revision) :
    file.Revises revision file :=
  .media revision file.policy file.replication

end File

namespace Nodes

variable {nodes middle after : Nodes} {id : InodeId} {inode new : Inode}
  {file : File} {revision : Revision} {lost others : InodeId → Prop}

theorem file_set (nodes : Nodes) (id other : InodeId) (found : Option Inode) :
    (nodes.set id found).file other =
      if other = id then found.bind Inode.asFile else nodes.file other := by
  rw [Nodes.file, set_apply]
  split <;> rfl

/-- Storing an inode with the file that it had. -/
theorem file_set_same (same : new.asFile = nodes.file id) (other : InodeId) :
    (nodes.set id (some new)).file other = nodes.file other := by
  rw [file_set]
  split
  next h => rw [h, ← same]; rfl
  next => rfl

/-- Files that are open are left as they are, unless they may be lost. -/
def Spares (nodes after : Nodes) (lost : InodeId → Prop) : Prop :=
  ∀ ⦃id file⦄, nodes.file id = some file → file.isOpen = true → ¬ lost id →
    after.file id = some file

namespace Spares

theorem of_eq (same : ∀ id, after.file id = nodes.file id) :
    nodes.Spares after lost :=
  fun id _ hfile _ _ => (same id).trans hfile

theorem refl (nodes : Nodes) : nodes.Spares nodes lost :=
  .of_eq fun _ => rfl

theorem trans (early : nodes.Spares middle lost)
    (late : middle.Spares after lost) : nodes.Spares after lost :=
  fun _ _ hfile hopen hkept => late (early hfile hopen hkept) hopen hkept

theorem mono (spares : nodes.Spares after lost)
    (h : ∀ id, lost id → others id) : nodes.Spares after others :=
  fun id _ hfile hopen hkept => spares hfile hopen
    fun hlost => hkept (h id hlost)

/-- An inode is stored that is no file, and was none. -/
theorem set (plain : nodes.file id = none) :
    nodes.Spares (nodes.set id (some new)) lost := by
  intro other file hfile _ _
  rw [file_set, if_neg, hfile]
  rintro rfl
  rw [plain] at hfile
  cases hfile

/-- Inodes are taken out. -/
theorem removed (ids : List InodeId) (h : ∀ id ∈ ids, lost id) :
    nodes.Spares (fun x => if x ∈ ids then none else nodes x) lost := by
  intro id file hfile _ hkept
  rw [Nodes.file, if_neg fun hmem => hkept (h id hmem)]
  exact hfile

end Spares

/-- What a request leaves of the files of a tree: one that was open is still
there, revised in the way asked for, unless it is lost; and one that is there
was there, or is new and has no blocks. -/
structure Revised (nodes after : Nodes) (revision : Revision)
    (lost : InodeId → Prop) : Prop where
  held : ∀ {id file}, nodes.file id = some file → file.isOpen = true →
    ¬ lost id →
    ∃ new, after.file id = some new ∧ file.Revises revision new
  made : ∀ {id new}, after.file id = some new →
    (∃ file, nodes.file id = some file ∧ file.Revises revision new) ∨
    new.blocks = []

namespace Revised

theorem of_eq (same : ∀ id, after.file id = nodes.file id) :
    nodes.Revised after revision lost where
  held {id file} hfile _ _ := ⟨file, (same id).trans hfile, .same file revision⟩
  made {id new} hnew :=
    .inl ⟨new, (same id).symm.trans hnew, .same new revision⟩

theorem refl (nodes : Nodes) : nodes.Revised nodes revision lost :=
  .of_eq fun _ => rfl

/-- The file of one inode is stored as it was revised. -/
theorem set {file new : File} (live : nodes id = some inode)
    (content : inode.asFile = some file) (revises : file.Revises revision new) :
    nodes.Revised (nodes.set id (some (inode.withFile new))) revision lost := by
  have hfile := (file_of_live live).trans content
  constructor
  · intro other found hfound _ _
    rw [file_set]
    split
    next h =>
      obtain rfl : found = file :=
        Option.some_inj.1 (hfound.symm.trans (h ▸ hfile))
      exact ⟨new, rfl, revises⟩
    next => exact ⟨found, hfound, .same found revision⟩
  · intro other found hfound
    rw [file_set] at hfound
    split at hfound
    next h =>
      obtain rfl : new = found := Option.some_inj.1 hfound
      exact .inl ⟨file, h ▸ hfile, revises⟩
    next => exact .inl ⟨found, hfound, .same found revision⟩

end Revised

end Nodes

namespace Transaction

variable {tx tx' mid : Transaction} {id : InodeId} {inode : Inode}
  {file new : File} {revision : Revision} {lost : InodeId → Prop}

/-- Work that turns the books makes only files without blocks. -/
theorem Turns.file_or_empty (turns : tx.Turns tx')
    (h : tx'.tree.file id = some file) :
    tx.tree.file id = some file ∨ file.blocks = [] := by
  have hchain :
      ∀ {books : Books}, Relation.ReflTransGen
          (Change tx.keepsQuota) tx.books books →
      books.nodes.file id = some file → tx.books.nodes.file id = some file ∨
      file.blocks = [] := by
    intro books changes
    induction changes with
    | refl => exact .inl
    | tail _ change ih => exact fun h => (change.file h).elim ih .inr
  exact hchain turns.changes h

/-- Work that turns the books revises no file. -/
theorem Turns.revised (turns : tx.Turns tx')
    (spares : tx.tree.Spares tx'.tree lost) :
    tx.tree.Revised tx'.tree revision lost where
  held {_ file} hfile hopen hkept :=
    ⟨file, spares hfile hopen hkept, .same file revision⟩
  made {_ new} hnew :=
    (turns.file_or_empty hnew).imp_left
      fun hfile => ⟨new, hfile, .same new revision⟩

/-- A file is stored as it was revised. -/
theorem revised_stored (ready : tx.Ready) (same : mid.tree = tx.tree)
    (live : tx.tree id = some inode) (content : inode.asFile = some file)
    (revises : file.Revises revision new) :
    tx.tree.Revised (mid.stored (inode.withFile new)).tree revision lost := by
  rw [tree_stored, same, Inode.id_withFile, ready.wellFormed.ids live]
  exact .set live content revises

end Transaction

end QuotaTree
