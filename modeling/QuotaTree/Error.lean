/-
Why a request fails: one constructor for each cause, the text that is shown for
it, and the number that stands for it.  Faults are failures that no well-formed
request on a well-formed tree should meet.
-/
import QuotaTree.Quota
import QuotaTree.Lock.Mode
import QuotaTree.Operation
import QuotaTree.Text.Quoted

namespace QuotaTree

/-- An argument that no state of the tree would make acceptable, or that this
one does not. -/
inductive BadArgument where
  | zeroReplication (path : String)
  | zeroBlockSize (path : String)
  | emptyTarget
  | deletesRoot
  | renamesRoot
  | movesBelowItself (source destination : String)
  | illegalLimit (value : Int)
  | zeroInodeLimit
  | liftsRootLimit
  | unlimitableType (type : StorageType)
  | negativeLength (length : Int)
  | longerThanFile (size length : Nat)
  | blockTooLong (path : String) (length blockSize : Nat)
  | tooLongInline (length limit : Nat)
  | storedInBlocks (path : String)
  | policyOnSymlink (path : String)
  | refused (reason : String)
  deriving DecidableEq, Repr

def BadArgument.message : BadArgument → String
  | .zeroReplication path => "Requested replication factor of 0 for " ++ path
  | .zeroBlockSize path => "Requested block size of 0 for " ++ path
  | .emptyTarget => "Symlink target can't be empty"
  | .deletesRoot => "Cannot delete the root directory"
  | .renamesRoot => "Cannot rename the root directory"
  | .movesBelowItself source destination =>
    "Cannot move " ++ source ++ " into its own subtree (" ++ destination ++ ")"
  | .illegalLimit value => "Illegal value for quota: " ++ toString value
  | .zeroInodeLimit => "Namespace quota must be greater than zero"
  | .liftsRootLimit => "Cannot clear namespace quota on root"
  | .unlimitableType type =>
    "Quota by storage type is not supported for " ++ type.name
  | .negativeLength length =>
    "Cannot truncate to a negative file size: " ++ toString length
  | .longerThanFile size length =>
    "Cannot truncate to a larger file size. Current size: " ++ toString size ++
      ", truncate size: " ++ toString length
  | .blockTooLong path length blockSize =>
    "Block of " ++ path ++ " is " ++ toString length ++
      " B long, more than the preferred " ++ toString blockSize ++ " B"
  | .tooLongInline length limit =>
    toString length ++ " B is too much to store inline (limit: " ++
      toString limit ++ " B)"
  | .storedInBlocks path => path ++ " already stores its data in blocks"
  | .policyOnSymlink path => "Cannot set storage policy on symlink " ++ path
  | .refused reason => reason

/-- A failure inside the program rather than one of the request. -/
inductive Fault where
  | dead (id : InodeId)
  | removesRoot
  | idsExhausted
  | unlocked (operation : Operation) (id : InodeId) (mode : LockMode)
  | blockOfNonFile
  | leaseOfNonFile
  | noBlocks
  | notLastBlock (block : Nat) (path : String)
  | blockTaken (block : Nat) (owner : InodeId)
  | entryOfNonDirectory
  | lostDirectory
  | replacesRoot
  | nothingToCreate
  | contended (id : InodeId)
  | unstableLocks (attempts : Nat)
  | endless (id : InodeId)
  deriving DecidableEq, Repr

def Fault.message : Fault → String
  | .dead id => id.tag ++ " is dead"
  | .removesRoot => "tried to remove the root inode"
  | .idsExhausted => "ran out of inode ids"
  | .unlocked operation id mode => operation.name ++ " transaction touched " ++
      id.tag ++ " without holding a " ++ mode.label ++ " lock on it"
  | .blockOfNonFile => "tried to remove a block of a non-file"
  | .leaseOfNonFile => "lease checked on a non-file"
  | .noBlocks => "file has no blocks"
  | .notLastBlock block path =>
    "block " ++ toString block ++ " is not the last block of " ++ path
  | .blockTaken block owner =>
    "block " ++ toString block ++ " already belongs to " ++ owner.tag
  | .entryOfNonDirectory => "parent is not a directory"
  | .lostDirectory => "parent stopped being a directory"
  | .replacesRoot => "root is a directory"
  | .nothingToCreate => "path has nothing left to create"
  | .contended id => id.tag ++ " is locked by another request"
  | .unstableLocks attempts =>
    "couldn't obtain a stable lock set after " ++ toString attempts ++
      " attempts"
  | .endless id => "the links of " ++ id.tag ++ " have no end"

/-- What a request on a file that is open for a writer set out to do. -/
inductive ClosedFileUse where
  | create
  | append
  | truncate
  deriving DecidableEq, Repr

def ClosedFileUse.verb : ClosedFileUse → String
  | .create => "create"
  | .append => "append"
  | .truncate => "truncate"

inductive Error where
  | notFound (path unresolved : String)
  | alreadyExists (path : String)
  | parentNotDirectory (path : String)
  | notDirectory (path : String)
  | notFile (path : String)
  | directoryNotEmpty (path : String)
  | quotaExceeded (exceeded : QuotaExceeded)
  | tooManyEntries (path : String) (limit count : Nat)
  | nameTooLong (name parent : String) (limit length : Nat)
  | reservedName (name : String)
  | unresolvedLink (path link : String)
  | invalidPath (path : String)
  | badArgument (argument : BadArgument)
  | beingWritten (use : ClosedFileUse) (path holder : String)
  | notUnderConstruction (path : String)
  | leaseMismatch (path holder client : String)
  | fault (cause : Fault)
  deriving DecidableEq, Repr

namespace Error

/-- Something that is missing as a whole, with no components left to name. -/
def missing (path : String) : Error :=
  .notFound path ""

def message : Error → String
  | .notFound path _ => "File does not exist: " ++ path
  | .alreadyExists path => path ++ " already exists"
  | .parentNotDirectory path => "Parent path is not a directory: " ++ path
  | .notDirectory path => path ++ " is not a directory"
  | .notFile path => "Path is not a file: " ++ path
  | .directoryNotEmpty path => path ++ " is non empty"
  | .quotaExceeded exceeded => exceeded.message
  | .tooManyEntries path limit count =>
    "The directory item limit of " ++ path ++ " is exceeded: limit=" ++
      toString limit ++ " items=" ++ toString count
  | .nameTooLong name parent limit length =>
    "The maximum path component name limit of " ++ name ++ " in directory " ++
      parent ++ " is exceeded: limit=" ++ toString limit ++ " length=" ++
      toString length
  | .reservedName name => "\"" ++ name ++ "\" is a reserved name"
  | .unresolvedLink path link => path ++ " crosses the symlink " ++ link
  | .invalidPath path => "Invalid path name " ++ path
  | .badArgument argument => argument.message
  | .beingWritten use path holder =>
    "Failed to " ++ use.verb ++ " " ++ path ++ ": file is being written by " ++
      holder
  | .notUnderConstruction path => "File is not under construction: " ++ path
  | .leaseMismatch path holder client =>
    "No lease on " ++ path ++ ": file is held by Some(" ++ Text.quote holder ++
      "), not by " ++ client
  | .fault cause => cause.message

/-- The number of the operating system's error that a caller is given. -/
def code : Error → Nat
  | .reservedName _ => 1
  | .notFound _ _ => 2
  | .fault _ => 5
  | .beingWritten .. => 16
  | .leaseMismatch .. => 16
  | .alreadyExists _ => 17
  | .parentNotDirectory _ => 20
  | .notDirectory _ => 20
  | .notFile _ => 21
  | .invalidPath _ => 22
  | .badArgument _ => 22
  | .notUnderConstruction _ => 22
  | .tooManyEntries .. => 31
  | .nameTooLong .. => 36
  | .directoryNotEmpty _ => 39
  | .unresolvedLink .. => 40
  | .quotaExceeded _ => 122

end Error

end QuotaTree
