/-
Writing files: beginning and giving up blocks, closing, opening again, and
keeping the data of a small file inline.  Only the client that has a file open
may write it.
-/
import QuotaTree.Inode.Blocks
import QuotaTree.Transaction.Accounting

namespace QuotaTree

/-- The inode at the end of a chain is a file that this client has open. -/
def checkLease (chain : Chain) (file : Option File) (client : String) :
    Except Error Unit :=
  match file with
  | none => throw (.notFile chain.path)
  | some file =>
    match file.writer with
    | some writer =>
      if writer.client = client then pure ()
      else throw (.leaseMismatch chain.path writer.client client)
    | none => throw (.notUnderConstruction chain.path)

namespace Work

/-- The inode at the end of a chain, which this client must have open. -/
def leased (chain : Chain) (client : String) : Work Inode := do
  let inode ← get chain.last
  ofExcept (checkLease chain inode.asFile client)
  pure inode

/-- The inode that this client has open, with its file. -/
def leasedFile (chain : Chain) (client : String) : Work (Inode × File) := do
  let inode ← leased chain client
  match inode.asFile with
  | none => throw (.fault .leaseOfNonFile)
  | some file => pure (inode, file)

/-- Begin a block at the end of an open file, charging for a whole block at
once. -/
def beginBlock (chain : Chain) (block : Block) : Work BlockInfo := do
  let inode ← get chain.last
  match inode.asFile with
  | none => throw (.notFile chain.path)
  | some file =>
    unless file.isOpen do
      throw (.notUnderConstruction chain.path)
    -- inline data goes into the block, so it is not charged beside it
    let growth := counterOf file.blockSize - counterOf (file.inlineSize.getD 0)
    accountAbove chain (file.space growth) true
    put (inode.withFile (file.beginBlock block))
    pure ⟨block, .underConstruction⟩

/-- Take off the last block, which is the one given, and what it was charged. -/
def dropBlock (chain : Chain) (block : Nat) : Work Unit := do
  let inode ← get chain.last
  match inode.asFile with
  | none => throw (.fault .blockOfNonFile)
  | some file =>
    match file.lastBlock with
    | none => throw (.fault .noBlocks)
    | some info =>
      if info.block.id ≠ block then
        throw (.fault (.notLastBlock block chain.path))
      put (inode.withFile { file with blocks := file.blocks.dropLast })
      accountAbove chain (-file.space (counterOf (info.charged file.blockSize)))
        false

/-- Take off a block if it is the last one of an open file. -/
def dropBlockIfLast (chain : Chain) (block : Nat) : Work Bool := do
  let inode ← get chain.last
  let droppable := inode.asFile.any fun file =>
    file.isOpen && file.lastBlock.any (·.block.id == block)
  if droppable then
    dropBlock chain block
  pure droppable

/-- Begin a given block at the end of the file that a client has open. -/
def addBlockAt (client : String) (block : Block) (targets : List String)
    (chain : Chain) : Work InodeId := do
  let _ ← leased chain client
  let _ ← beginBlock chain block
  journal (.addBlock chain.path client block targets)
  pure chain.last

/-- Give up a block if it is the last one; it is returned if it was given up. -/
def abandonAt (client : String) (block : Nat) (chain : Chain) :
    Work (List Block) := do
  let inode ← leased chain client
  match inode.asFile.bind
      fun file => file.blocks.find? (·.block.id == block) with
  | none => pure []
  | some info =>
    if ← dropBlockIfLast chain block then
      journal (.abandonBlock chain.path client block)
      pure [info.block]
    else pure []

/-- Close the file, whose last block ends at a length if it is still being
written. -/
def completeAt (client : String) (lastLength : Nat) (chain : Chain) :
    Work Unit := do
  let (inode, file) ← leasedFile chain client
  if file.openBlock.isSome ∧ file.blockSize < lastLength then
    throw (.badArgument (.blockTooLong chain.path lastLength file.blockSize))
  put (inode.withFile { file.endBlock lastLength with writer := none })
  if file.openBlock.isSome then
    let refund := counterOf lastLength - counterOf file.blockSize
    accountAbove chain (file.space refund) false
  journal (.complete chain.path client lastLength)

/-- Open a closed file again; a last block that is not full is charged as a
whole one. -/
def appendAt (writer : Writer) (chain : Chain) : Work Unit := do
  let inode ← get chain.last
  match inode.asFile with
  | none => throw (.notFile chain.path)
  | some file =>
    match file.writer with
    | some holder => throw (.beingWritten .append chain.path holder.client)
    | none =>
      match file.partialBlock with
      | some info =>
        let growth := counterOf file.blockSize - counterOf info.block.bytes
        accountAbove chain (file.space growth) true
      | none => pure ()
      put (inode.withFile { file.reopenBlock with writer := some writer })
      journal (.append chain.path writer)

/-- Set the length of the data that a small file keeps inline. -/
def writeInlineAt (client : String) (length : Nat) (chain : Chain) :
    Work Unit := do
  let (inode, file) ← leasedFile chain client
  unless file.blocks.isEmpty do
    throw (.badArgument (.storedInBlocks chain.path))
  let growth := counterOf length - counterOf (file.inlineSize.getD 0)
  accountAbove chain (file.space growth) true
  put (inode.withFile { file with inlineSize := some length })
  journal (.writeInline chain.path client length)

/-- Cut a closed file to a length that it has; the blocks cut off are
returned. -/
def truncateAt (path : String) (length : Int) (chain : Chain) :
    Work (List Block) := do
  let inode ← get chain.last
  match inode.asFile with
  | none => throw (.notFile path)
  | some file =>
    match file.writer with
    | some holder => throw (.beingWritten .truncate path holder.client)
    | none =>
      if length < 0 then
        throw (.badArgument (.negativeLength length))
      let newLength := length.toNat
      if file.size < newLength then
        throw (.badArgument (.longerThanFile file.size newLength))
      if newLength = file.size then
        pure []
      else
        let (cut, dropped) := file.truncate newLength
        put (inode.withFile cut)
        accountAbove chain (cut.spaceSince file) false
        journal (.truncate chain.path newLength)
        pure dropped

end Work

namespace Namespace

/-- Carry out work on the inode at a path, which is locked for writing. -/
def onFile {α : Type} (operation : Operation) (path : String)
    (work : Chain → Work α) : Request α := do
  let path ← resolvePath path
  transact operation (.ofPath { path, kind := .write }) do
    let chain ← Work.read (Chain.resolve · path false)
    work chain

/-- Enter a block of a file into the block map; one that another file has stays
as it is. -/
def trackBlock (block : Block) (file : InodeId) (targets : List String) :
    Request Unit :=
  modify fun ns =>
    match ns.blocks.add block file targets with
    | .ok blocks => { ns with blocks }
    | .error _ => ns

/-- The next block to give out; its numbers are used up whatever becomes of
it. -/
def nextBlockOut : Request Block := do
  let ns ← get
  set { ns with nextBlock := ns.nextBlock + 1, nextStamp := ns.nextStamp + 1 }
  pure ⟨ns.nextBlock, 0, ns.nextStamp⟩

/-- Begin a given block at the end of the file.  Blocks given out later have
greater numbers. -/
def addBlockAs (path client : String) (block : Block) (targets : List String) :
    Request Unit := do
  modify fun ns =>
    { ns with
      nextBlock := max ns.nextBlock (block.id + 1)
      nextStamp := max ns.nextStamp (block.stamp + 1) }
  let file ← onFile .addBlock path (Work.addBlockAt client block targets)
  trackBlock block file targets

/-- Begin a new block at the end of the file that the client has open. -/
def addBlock (path client : String) (targets : List String) : Request Block :=
  do
  let block ← nextBlockOut
  addBlockAs path client block targets
  pure block

/-- Give up a block that could not be written; only the last one can be. -/
def abandonBlock (path client : String) (block : Nat) : Request Bool := do
  let dropped ← onFile .abandonBlock path (Work.abandonAt client block)
  releaseBlocks dropped
  pure !dropped.isEmpty

def complete (path client : String) (lastLength : Nat) : Request Unit :=
  onFile .complete path (Work.completeAt client lastLength)

def append (path : String) (writer : Writer) : Request Unit :=
  onFile .append path (Work.appendAt writer)

def writeInline (path client : String) (length : Nat) : Request Unit := do
  let limit := (← get).config.maxInline
  if limit = 0 ∨ limit < length then
    throw (.badArgument (.tooLongInline length limit))
  onFile .writeInline path (Work.writeInlineAt client length)

/-- Cut a closed file to a length that it has.  A symlink at the end of the path
is followed. -/
def truncate (path : String) (length : Int) : Request Unit := do
  let path ← resolvePath path
  let dropped ← transact .truncate
    (.ofPath { path, kind := .write, following := true }) do
    let chain ← Work.read (Chain.resolve · path true)
    Work.truncateAt path length chain
  releaseBlocks dropped

end Namespace

end QuotaTree
