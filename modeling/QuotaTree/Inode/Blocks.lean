/-
How the blocks of a file change: one is begun, given up, ended at its length, or
cut, and each step says by how many bytes a replica is charged more or less.
-/
import QuotaTree.Inode

namespace QuotaTree

namespace BlockInfo

/-- The block ended at a length. -/
def ended (info : BlockInfo) (bytes : Nat) : BlockInfo where
  block := { info.block with bytes }
  state := .complete

/-- The block opened again for writing. -/
def reopened (info : BlockInfo) : BlockInfo :=
  { info with state := .underConstruction }

/-- The block cut to at most a length. -/
def cutTo (info : BlockInfo) (bytes : Nat) : BlockInfo :=
  { info with block := { info.block with bytes := min info.block.bytes bytes } }

end BlockInfo

namespace File

def lastBlock (file : File) : Option BlockInfo :=
  file.blocks.getLast?

/-- The last block, if it is being written. -/
def openBlock (file : File) : Option BlockInfo :=
  file.lastBlock.filter fun info => !info.isComplete

/-- Replace the last block. -/
def withLastBlock (file : File) (info : BlockInfo) : File :=
  { file with blocks := file.blocks.dropLast ++ [info] }

/-- End the last block at a length, if it is being written. -/
def endBlock (file : File) (bytes : Nat) : File :=
  match file.openBlock with
  | some info => file.withLastBlock (info.ended bytes)
  | none => file

/-- Begin a block: the one before it is full, and inline data goes into the new
one. -/
def beginBlock (file : File) (block : Block) : File :=
  let full := { file.endBlock file.blockSize with inlineSize := none }
  { full with blocks := full.blocks ++ [⟨block, .underConstruction⟩] }

/-- The last block, if it is shorter than a whole one. -/
def partialBlock (file : File) : Option BlockInfo :=
  file.lastBlock.filter fun info => info.block.bytes < file.blockSize

/-- Open the last block again if it is not full. -/
def reopenBlock (file : File) : File :=
  match file.partialBlock with
  | some info => file.withLastBlock info.reopened
  | none => file

/-- The blocks that hold the first `bytes` bytes, the last of them cut, and the
blocks after. -/
def splitBlocks : Nat → List BlockInfo → List BlockInfo × List BlockInfo
  | _, [] => ([], [])
  | bytes, info :: rest =>
    if bytes = 0 then ([], info :: rest)
    else
      let kept := info.cutTo bytes
      let (before, after) := splitBlocks (bytes - kept.block.bytes) rest
      (kept :: before, after)

/-- The file cut to a length, and the blocks that it no longer has. -/
def truncate (file : File) (length : Nat) : File × List Block :=
  match file.inlineSize with
  | some _ => ({ file with inlineSize := some length }, [])
  | none =>
    let (kept, dropped) := splitBlocks length file.blocks
    ({ file with blocks := kept }, dropped.map BlockInfo.block)

/-- What the file is charged for more than another one on the same media. -/
def spaceSince (file before : File) : Counts :=
  file.space (counterOf file.charged - counterOf before.charged)

@[simp] theorem splitBlocks_zero (blocks : List BlockInfo) :
    splitBlocks 0 blocks = ([], blocks) := by
  cases blocks <;> simp [splitBlocks]

/-- No block is lost: those kept and those after have the numbers of all, in
order. -/
theorem map_id_splitBlocks (bytes : Nat) (blocks : List BlockInfo) :
    ((splitBlocks bytes blocks).1 ++ (splitBlocks bytes blocks).2).map
      (·.block.id) = blocks.map (·.block.id) := by
  induction blocks generalizing bytes with
  | nil => rfl
  | cons info rest ih =>
    rw [splitBlocks]
    split
    · rfl
    · simpa [BlockInfo.cutTo] using ih _

/-- What is kept has the length asked for, if there were as many bytes. -/
theorem total_bytes_splitBlocks (bytes : Nat) (blocks : List BlockInfo) :
    BlockInfo.total (·.block.bytes) (splitBlocks bytes blocks).1 =
      min bytes (BlockInfo.total (·.block.bytes) blocks) := by
  induction blocks generalizing bytes with
  | nil => simp [splitBlocks]
  | cons info rest ih =>
    rw [splitBlocks]
    split
    · simp_all
    · simp only [BlockInfo.total_cons, ih, BlockInfo.cutTo]
      omega

end File

namespace BlocksExamples

def sample : File :=
  { replication := 1
    blockSize := 10
    blocks := [⟨⟨1, 10, 1⟩, .complete⟩, ⟨⟨2, 10, 2⟩, .complete⟩,
      ⟨⟨3, 4, 3⟩, .complete⟩] }

example : (sample.truncate 13).1.blocks = [⟨⟨1, 10, 1⟩, .complete⟩,
      ⟨⟨2, 3, 2⟩, .complete⟩] := by
  decide
example : (sample.truncate 13).2 = [⟨3, 4, 3⟩] := by decide
example :
    (sample.truncate 13).1.spaceSince sample =
      { bytes := -11, disk := -11 } := by decide

end BlocksExamples

end QuotaTree
