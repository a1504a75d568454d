/-
Inodes: directories with the names of their children, files with their blocks,
and symlinks; and the usage that each one stands for by itself.
-/
import QuotaTree.Block
import QuotaTree.Name

namespace QuotaTree

structure Permission where
  user : String := "root"
  group : String := "supergroup"
  mode : Nat := 0o755
  deriving DecidableEq, Repr

/-- Who has a file open for writing, and from which machine. -/
structure Writer where
  client : String
  machine : String
  deriving DecidableEq, Repr

structure Directory where
  children : Std.ExtTreeMap Name InodeId := ∅
  quota : Option Quota := none
  policy : Option StoragePolicy := none
  deriving DecidableEq

/-- A file keeps its data in blocks, or else inline with the inode.  Its policy
is fixed when it is made, so that moving it does not move its bytes to other
media. -/
structure File where
  replication : Nat
  blockSize : Nat
  policy : StoragePolicy := .hot
  blocks : List BlockInfo := []
  writer : Option Writer := none
  inlineSize : Option Nat := none
  deriving DecidableEq, Repr

inductive Content where
  | directory (directory : Directory)
  | file (file : File)
  | symlink (target : String)
  deriving DecidableEq

structure Inode where
  id : InodeId
  name : Name
  parent : Option InodeId := none
  permission : Permission
  content : Content
  deriving DecidableEq

/-- Bytes stored once on each replica of a file, counted for every replica and
by medium. -/
def StoragePolicy.space (policy : StoragePolicy) (replication : Nat)
    (bytes : Int) : Counts :=
  (policy.placement replication).foldl
    (fun counts type => counts.addAt (.typed type) bytes)
    { bytes := bytes * replication }

namespace File

def isOpen (file : File) : Bool :=
  file.writer.isSome

/-- Length of the data. -/
def size (file : File) : Nat :=
  file.inlineSize.getD 0 + BlockInfo.total (·.block.bytes) file.blocks

/-- Bytes that one replica is charged for. -/
def charged (file : File) : Nat :=
  BlockInfo.total (·.charged file.blockSize) file.blocks +
    file.inlineSize.getD 0

/-- The usage of `bytes` more on each replica. -/
def space (file : File) (bytes : Int) : Counts :=
  file.policy.space file.replication bytes

/-- The usage of the bytes that the file is charged for. -/
def chargedSpace (file : File) : Counts :=
  file.space (counterOf file.charged)

def usage (file : File) : Counts :=
  { file.chargedSpace with inodes := 1 }

end File

namespace Inode

def asDirectory (inode : Inode) : Option Directory :=
  match inode.content with
  | .directory directory => some directory
  | _ => none

def asFile (inode : Inode) : Option File :=
  match inode.content with
  | .file file => some file
  | _ => none

def isDirectory (inode : Inode) : Bool :=
  inode.asDirectory.isSome

def quota (inode : Inode) : Option Quota :=
  inode.asDirectory.bind Directory.quota

/-- The children of a directory in the order of their names; nothing else has
any. -/
def entries (inode : Inode) : List (Name × InodeId) :=
  match inode.asDirectory with
  | some directory => directory.children.toList
  | none => []

def children (inode : Inode) : List InodeId :=
  inode.entries.map Prod.snd

/-- Usage of this inode without anything below it. -/
def ownUsage (inode : Inode) : Counts :=
  match inode.content with
  | .file file => file.usage
  | _ => Counts.oneInode

/-- Replace what is stored of a file. -/
def withFile (inode : Inode) (file : File) : Inode :=
  { inode with content := .file file }

def withDirectory (inode : Inode) (directory : Directory) : Inode :=
  { inode with content := .directory directory }

/-- Take a name out of a directory; nothing else has names. -/
def withoutChild (inode : Inode) (name : Name) : Inode :=
  match inode.content with
  | .directory directory => inode.withDirectory
      { directory with children := directory.children.erase name }
  | _ => inode

end Inode

namespace InodeExamples

def sample : File :=
  { replication := 3
    blockSize := 1000
    policy := .oneSsd
    blocks := [⟨⟨1, 1000, 1⟩, .complete⟩, ⟨⟨2, 10, 2⟩, .underConstruction⟩] }

example : sample.size = 1010 := by decide
example : sample.charged = 2000 := by decide
example :
    sample.usage =
      { inodes := 1, bytes := 6000, ssd := 2000, disk := 4000 } := by decide

end InodeExamples

end QuotaTree
