/-
Making directories, files and symlinks, with the parents that are missing.
-/
import QuotaTree.Transaction.Linking

namespace QuotaTree

/-- How a file is made; what is not given comes from the settings. -/
structure CreateOptions where
  permission : Permission := {}
  replication : Option Nat := none
  blockSize : Option Nat := none
  writer : Writer
  overwrite : Bool := false
  createParent : Bool := true
  deriving DecidableEq, Repr

/-- The policy that an inode hands down to files made below it. -/
def Inode.policy (inode : Inode) : Option StoragePolicy :=
  match inode.content with
  | .directory directory => directory.policy
  | .file file => some file.policy
  | .symlink _ => none

namespace Chain

/-- The first policy found at the ends of chains. -/
def firstPolicy (view : View) : List Chain → Except Error StoragePolicy
  | [] => pure .hot
  | chain :: above => do
    let inode ← view.get chain.last
    match inode.policy with
    | some policy => pure policy
    | none => firstPolicy view above

/-- The policy of the deepest inode on the chain that has one. -/
def policy (view : View) (chain : Chain) : Except Error StoragePolicy :=
  firstPolicy view chain.ancestry

end Chain

namespace Work

/-- Make a directory below a directory, one in the other for each name. -/
def makeDirectories (permission : Permission) : Chain → List Name → Work Chain
  | chain, [] => pure chain
  | chain, name :: rest => do
    let id ← alloc
    let chain ← linkNew chain { id, name, permission, content := .directory {} }
    makeDirectories permission chain rest

/-- Make a file that is open for a writer.  It keeps the policy of the place it
is made at. -/
def makeFile (parent : Chain) (name : Name) (permission : Permission)
    (replication blockSize : Nat) (writer : Writer) : Work Chain := do
  let policy ← read parent.policy
  let id ← alloc
  let file : File := { replication, blockSize, policy, writer := some writer }
  linkNew parent { id, name, permission, content := .file file }

/-- The first missing component may be made only if it is the last one, or
parents may be made. -/
def allowParents (chain : Chain) (first : Name) (others : List Name)
    (createParent : Bool) : Except Error Unit :=
  if others ≠ [] ∧ createParent = false then
    throw (.missing (Path.child chain.path first.text))
  else pure ()

/-- Take out a closed file that is to be made anew; the blocks that it had are
returned. -/
def replaceFile (chain : Chain) (path : String) (overwrite : Bool) :
    Work (List Block) := do
  let existing ← get chain.last
  match existing.asFile with
  | none => throw (.alreadyExists path)
  | some file =>
    match file.writer with
    | some holder => throw (.beingWritten .create path holder.client)
    | none =>
      if overwrite then
        let _ ← unlink chain false none
        pure (file.blocks.map BlockInfo.block)
      else throw (.alreadyExists path)

/-- Make a directory at a path and the parents that are missing; nothing happens
if it is there. -/
def makePath (path : String) (permission : Permission) : Work Unit := do
  let (chain, rest) ← read (Chain.resolveExisting · path false)
  match rest with
  | [] =>
    let inode ← get chain.last
    unless inode.isDirectory do
      throw (.alreadyExists path)
  | _ :: _ =>
    let _ ← makeDirectories permission chain rest
    journal (.mkdirs path permission)

/-- Make the file of a request below a directory; its identity is returned. -/
def enterFile (path : String) (options : CreateOptions)
    (replication blockSize : Nat) (parent : Chain) (name : Name) :
    Work InodeId := do
  let chain ← makeFile parent name options.permission replication blockSize
    options.writer
  journal (.create path options.permission replication blockSize options.writer
    options.overwrite)
  pure chain.last

/-- Where a file is to be made, given what exists of its path and the names that
are missing: a file that is there is taken out first, and its name is missing
then.  The blocks that it had are returned. -/
def vacate (path : String) (overwrite : Bool) (chain : Chain) :
    List Name → Work (Chain × List Name × List Block)
  | [] => do
    let replaced ← replaceFile chain path overwrite
    match chain.parent? with
    | none => throw (.fault .replacesRoot)
    | some parent => pure (parent, [chain.lastName], replaced)
  | first :: others => pure (chain, first :: others, [])

/-- Make a file at a path, with the parents that are missing or in place of a
file that is there; its identity is returned with the blocks of the one
replaced. -/
def createFile (path : String) (options : CreateOptions)
    (replication blockSize : Nat) : Work (InodeId × List Block) := do
  let (chain, rest) ← read (Chain.resolveExisting · path false)
  let (chain, names, replaced) ← vacate path options.overwrite chain rest
  match names with
  | [] => throw (.fault .nothingToCreate)
  | first :: others =>
    ofExcept (allowParents chain first others options.createParent)
    let parents := (first :: others).dropLast
    let parent ← makeDirectories options.permission chain parents
    let name := (first :: others).getLast (List.cons_ne_nil first others)
    let id ← enterFile path options replication blockSize parent name
    pure (id, replaced)

/-- Make a symlink at a path, with the parents that are missing; its identity is
returned. -/
def symlinkPath (target link : String) (permission : Permission)
    (createParent : Bool) : Work InodeId := do
  let (chain, rest) ← read (Chain.resolveExisting · link false)
  match rest with
  | [] => throw (.alreadyExists link)
  | first :: others =>
    ofExcept (allowParents chain first others createParent)
    let parents := (first :: others).dropLast
    let parent ← makeDirectories permission chain parents
    let id ← alloc
    let name := (first :: others).getLast (List.cons_ne_nil first others)
    let _ ← linkNew parent { id, name, permission, content := .symlink target }
    journal (.symlink target link permission createParent)
    pure id

end Work

namespace Namespace

def mkdirs (path : String) (permission : Permission) : Request Unit := do
  let path ← resolvePath path
  transact .mkdirs (.ofPath { path, kind := .writeWithParent })
    (Work.makePath path permission)

/-- Make a file that is open for the writer given; its identity is returned. -/
def create (path : String) (options : CreateOptions) : Request InodeId := do
  let path ← resolvePath path
  let config := (← get).config
  let replication := options.replication.getD config.defaultReplication
  let blockSize := options.blockSize.getD config.defaultBlockSize
  if replication = 0 then
    throw (.badArgument (.zeroReplication path))
  if blockSize = 0 then
    throw (.badArgument (.zeroBlockSize path))
  let (id, replaced) ←
      transact .create (.ofPath { path, kind := .writeWithParent })
      (Work.createFile path options replication blockSize)
  releaseBlocks replaced
  pure id

/-- Make a symlink; its identity is returned. -/
def createSymlink (target link : String) (permission : Permission)
    (createParent : Bool) : Request InodeId := do
  if target = "" then
    throw (.badArgument .emptyTarget)
  let link ← resolvePath link
  transact .createSymlink (.ofPath { path := link, kind := .writeWithParent })
    (Work.symlinkPath target link permission createParent)

end Namespace

end QuotaTree
