/-
The whole state of a namespace: the tree, the ledger of pending updates, the
blocks in use and the log of edits.
-/
import QuotaTree.Config
import QuotaTree.Edit
import QuotaTree.InodeTable
import QuotaTree.Ledger
import QuotaTree.Lock.Table
import QuotaTree.Path.Reserved

namespace QuotaTree

structure Namespace where
  config : Config
  table : InodeTable := InodeTable.fresh {}
  locks : LockTable := ∅
  ledger : Ledger := Ledger.empty
  blocks : BlockMap := ∅
  /-- Unset while edits are applied again: limits are not enforced on what has
  happened. -/
  imageLoaded : Bool := true
  nextBlock : Nat := 1073741824
  nextStamp : Nat := 1000
  /-- How often a long reading has paused. -/
  pauses : Nat := 0
  edits : List Edit := []
  deriving DecidableEq

/-- A request: it may change the namespace even when it fails. -/
abbrev Request := EStateM Error Namespace

namespace Namespace

/-- A namespace that holds only the root. -/
def fresh (config : Config) : Namespace := { config }

def inodeCount (ns : Namespace) : Nat := ns.table.size

def setImageLoaded (loaded : Bool) : Request Unit :=
  modify fun ns => { ns with imageLoaded := loaded }

/-- The path that a path stands for in the stored tree. -/
def resolvePath (path : String) : Request String := fun ns =>
  match Path.resolveReserved ns.table.view path with
  | .ok resolved => .ok resolved ns
  | .error error => .error error ns

/-- The path at which a stored inode lives. -/
def fullPath (id : InodeId) : Request String := fun ns =>
  if ns.table.contains id then
    match ns.table.view.fullPath id with
    | .ok path => .ok path ns
    | .error error => .error error ns
  else .error (.missing id.tag) ns

/-- Append edits to the log, unless they are being applied again. -/
def journal (ns : Namespace) (edits : List Edit) : Namespace :=
  if ns.imageLoaded then { ns with edits := ns.edits ++ edits } else ns

/-- Forget blocks that no file has any more. -/
def releaseBlocks (blocks : List Block) : Request Unit :=
  modify fun ns => { ns with blocks := ns.blocks.removeAll blocks }

end Namespace

end QuotaTree
