/-
The blocks that the files of a tree have, and what becomes of them: blocks are
taken off the ends of files, or begun at the end of one.
-/
import QuotaTree.Proofs.Work.Refile
import QuotaTree.Request.Delete

namespace QuotaTree

open Nodes

/-- What a block keeps while it is written and cut: its number and its stamp. -/
def Block.mark (block : Block) : Nat × Nat :=
  (block.id, block.stamp)

namespace File

variable {file : File} {info : BlockInfo}

def marks (file : File) : List (Nat × Nat) :=
  file.blocks.map fun info => info.block.mark

theorem marks_of_lastBlock (h : file.lastBlock = some info) :
    file.marks = marks { file with blocks := file.blocks.dropLast } ++
      [info.block.mark] := by
  conv_lhs => rw [marks, blocks_eq_of_lastBlock h, List.map_append]
  rfl

/-- The last block may be ended, cut or opened again. -/
theorem marks_withLastBlock {new : BlockInfo} (h : file.lastBlock = some info)
    (same : new.block.mark = info.block.mark) :
    (file.withLastBlock new).marks = file.marks := by
  rw [marks_of_lastBlock h, ← same, marks, withLastBlock, List.map_append]
  rfl

theorem marks_endBlock (file : File) (bytes : Nat) :
    (file.endBlock bytes).marks = file.marks := by
  unfold endBlock
  split
  next info h => exact marks_withLastBlock (openBlock_eq_some.1 h).1 rfl
  next => rfl

theorem marks_reopenBlock (file : File) :
    file.reopenBlock.marks = file.marks := by
  unfold reopenBlock
  split
  next info h => exact marks_withLastBlock (partialBlock_eq_some.1 h).1 rfl
  next => rfl

theorem marks_beginBlock (file : File) (block : Block) :
    (file.beginBlock block).marks = file.marks ++ [block.mark] := by
  rw [← marks_endBlock file file.blockSize]
  simp [marks, beginBlock]

theorem map_mark_splitBlocks (bytes : Nat) (blocks : List BlockInfo) :
    blocks.map (fun info => info.block.mark) =
      (splitBlocks bytes blocks).1.map (fun info => info.block.mark) ++
        (splitBlocks bytes blocks).2.map (fun info => info.block.mark) := by
  induction blocks generalizing bytes with
  | nil => rfl
  | cons info rest ih =>
    rw [splitBlocks]
    split
    · rfl
    · simpa [BlockInfo.cutTo, Block.mark] using ih _

/-- The blocks cut off were the last ones. -/
theorem marks_truncate (file : File) (length : Nat) :
    file.marks = (file.truncate length).1.marks ++
      (file.truncate length).2.map Block.mark := by
  unfold truncate
  split
  · simp [marks]
  · rw [List.map_map]
    exact map_mark_splitBlocks length file.blocks

end File

def Inode.marks (inode : Inode) : List (Nat × Nat) :=
  inode.blocks.map Block.mark

namespace Inode

variable {inode new : Inode} {file : File}

theorem marks_of_file (content : inode.asFile = some file) :
    inode.marks = file.marks := by
  rw [marks, blocks, content, File.marks, List.map_map]
  rfl

theorem marks_withFile (inode : Inode) (file : File) :
    (inode.withFile file).marks = file.marks :=
  marks_of_file rfl

theorem marks_of_directory {directory : Directory}
    (content : inode.content = .directory directory) : inode.marks = [] := by
  rw [marks, blocks, asFile, content]
  rfl

theorem marks_congr (same : new.asFile = inode.asFile) :
    new.marks = inode.marks := by
  rw [marks, marks, blocks, blocks, same]

end Inode

namespace Nodes

variable {nodes middle after : Nodes} {id parent : InodeId} {inode new : Inode}
  {file : File} {numbers others : List Nat}

def marks (nodes : Nodes) (id : InodeId) : List (Nat × Nat) :=
  ((nodes id).map Inode.marks).getD []

theorem marks_of_live (live : nodes id = some inode) :
    nodes.marks id = inode.marks := by
  rw [marks, live]
  rfl

theorem marks_of_dead (dead : nodes id = none) : nodes.marks id = [] := by
  rw [marks, dead]
  rfl

theorem marks_set (nodes : Nodes) (id other : InodeId) (found : Option Inode) :
    (nodes.set id found).marks other =
      if other = id then (found.map Inode.marks).getD []
          else nodes.marks other := by
  rw [marks, set_apply]
  split <;> rfl

/-- Storing an inode with the blocks that it had. -/
theorem marks_set_same (same : new.marks = nodes.marks id) (other : InodeId) :
    (nodes.set id (some new)).marks other = nodes.marks other := by
  rw [marks_set]
  split
  next h => rw [h, ← same]; rfl
  next => rfl

theorem Recast.marks (recast : nodes.Recast after) (id : InodeId) :
    after.marks id = nodes.marks id := by
  have hfile := recast.file id
  have halike := recast.alike id
  revert hfile halike
  unfold Nodes.file Nodes.marks
  cases nodes id <;> cases after id <;> intro hfile halike
  · rfl
  · cases halike
  · cases halike
  · exact Inode.marks_congr hfile

/-- The blocks with certain numbers have been taken off the ends of files. -/
def Sheds (nodes after : Nodes) (numbers : List Nat) : Prop :=
  ∃ gone : InodeId →
    List (Nat × Nat), (∀ id, nodes.marks id = after.marks id ++ gone id) ∧
    ∀ number, number ∈ numbers ↔ ∃ id, number ∈ (gone id).map Prod.fst

namespace Sheds

theorem of_eq (same : ∀ id, after.marks id = nodes.marks id) :
    nodes.Sheds after [] :=
  ⟨fun _ => [], fun id => by rw [same, List.append_nil], fun number => by simp⟩

theorem refl (nodes : Nodes) : nodes.Sheds nodes [] :=
  .of_eq fun _ => rfl

theorem congr (sheds : nodes.Sheds after numbers)
    (same : ∀ number, number ∈ others ↔ number ∈ numbers) :
    nodes.Sheds after others := by
  obtain ⟨gone, hgone, hnumbers⟩ := sheds
  exact ⟨gone, hgone, fun number => (same number).trans (hnumbers number)⟩

theorem trans (early : nodes.Sheds middle numbers)
    (late : middle.Sheds after others) :
    nodes.Sheds after (numbers ++ others) := by
  obtain ⟨gone, hgone, hnumbers⟩ := early
  obtain ⟨gone', hgone', hothers⟩ := late
  refine ⟨fun id => gone' id ++ gone id, fun id => ?_, fun number => ?_⟩
  · rw [hgone, hgone', List.append_assoc]
  · simp only [List.mem_append, hnumbers, hothers, List.map_append, ← exists_or]
    exact exists_congr fun id => or_comm

/-- The file of one inode is stored with fewer blocks. -/
theorem of_set {gone : List (Nat × Nat)}
    (fewer : nodes.marks id = new.marks ++ gone) :
    nodes.Sheds (nodes.set id (some new)) (gone.map Prod.fst) := by
  refine ⟨fun other => if other = id then gone else [], fun other => ?_,
    fun number => ?_⟩
  · rw [marks_set]
    dsimp only
    split
    next h => exact h ▸ fewer
    next => rw [List.append_nil]
  · constructor
    · intro h
      exact ⟨id, by simpa using h⟩
    · rintro ⟨other, h⟩
      dsimp only at h
      split at h
      · exact h
      · cases h

/-- Inodes that are taken out lose all their blocks. -/
theorem of_removed (ids : List InodeId) :
    nodes.Sheds (fun x => if x ∈ ids then none else nodes x)
      ((ids.flatMap nodes.marks).map Prod.fst) := by
  refine ⟨fun x => if x ∈ ids then nodes.marks x else [], fun x => ?_,
    fun number => ?_⟩
  · unfold Nodes.marks
    dsimp only
    split <;> simp
  · simp only [List.mem_map, List.mem_flatMap]
    constructor
    · rintro ⟨mark, ⟨id, hid, hmark⟩, rfl⟩
      exact ⟨id, mark, by rwa [if_pos hid], rfl⟩
    · rintro ⟨id, mark, hmark, rfl⟩
      split at hmark
      next hid => exact ⟨mark, ⟨id, hid, hmark⟩, rfl⟩
      next => cases hmark

end Sheds

/-- A block has been begun at the end of one file. -/
structure Gains (nodes after : Nodes) (id : InodeId) (mark : Nat × Nat) :
    Prop where
  gained : after.marks id = nodes.marks id ++ [mark]
  others : ∀ other, other ≠ id → after.marks other = nodes.marks other

end Nodes

end QuotaTree
