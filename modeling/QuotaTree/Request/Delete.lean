/-
Deleting an inode with everything below it.
-/
import QuotaTree.Transaction.Linking

namespace QuotaTree

/-- The blocks of a file; nothing else has any. -/
def Inode.blocks (inode : Inode) : List Block :=
  match inode.asFile with
  | some file => file.blocks.map BlockInfo.block
  | none => []

namespace Work

/-- Take out everything below the chain's last inode, the deepest first; the
blocks of the files taken out are returned. -/
def prune : Nat → Chain → Work (List Block)
  | 0, chain => throw (.fault (.endless chain.last))
  | depth + 1, chain => do
    let inode ← get chain.last
    let blocks ← inode.entries.mapM fun entry => do
      let child := chain.child entry.1 entry.2
      let deeper ← prune depth child
      let removed ← unlinkLeaf child
      pure (deeper ++ removed.blocks)
    pure blocks.flatten

/-- How deep a tree can be. -/
def maxDepth : Work Nat := do
  let tx ← MonadState.get
  pure (tx.view.size + 1)

/-- Delete the chain's last inode; the blocks of all files deleted are
returned. -/
def deleteTree (chain : Chain) (path : String) (recursive : Bool) :
    Work (List Block) := do
  if chain.length = 1 then
    throw (.badArgument .deletesRoot)
  let inode ← get chain.last
  if inode.entries ≠ [] ∧ recursive = false then
    throw (.directoryNotEmpty path)
  let below ← prune (← maxDepth) chain
  let _ ← unlink chain false none
  journal (.delete path recursive)
  pure (below ++ inode.blocks)

/-- Delete what is at a path; the blocks deleted are returned if there was
anything. -/
def deletePath (path : String) (recursive : Bool) :
    Work (Option (List Block)) := do
  let (chain, rest) ← read (Chain.resolveExisting · path false)
  match rest with
  | _ :: _ => pure none
  | [] => some <$> deleteTree chain path recursive

end Work

namespace Namespace

/-- Delete what is at a path, a directory with entries only when asked for; the
answer says whether there was anything. -/
def delete (path : String) (recursive : Bool) : Request Bool := do
  let path ← resolvePath path
  let demand :=
    LockDemand.ofPath { path, kind := .writeWithParent, scope := .subtree }
  match ← transact .delete demand (Work.deletePath path recursive) with
  | none => pure false
  | some blocks =>
    releaseBlocks blocks
    pure true

end Namespace

end QuotaTree
