/-
Edits: the changes that requests make, with all that is needed to make them
again.  The log of edits rebuilds the tree.
-/
import QuotaTree.Inode

namespace QuotaTree

inductive Edit where
  | mkdirs (path : String) (permission : Permission)
  | create (path : String) (permission : Permission)
      (replication blockSize : Nat) (writer : Writer) (overwrite : Bool)
  | symlink (target link : String) (permission : Permission)
      (createParent : Bool)
  | addBlock (path client : String) (block : Block) (targets : List String)
  | abandonBlock (path client : String) (block : Nat)
  | complete (path client : String) (lastLength : Nat)
  | append (path : String) (writer : Writer)
  | writeInline (path client : String) (length : Nat)
  | truncate (path : String) (length : Int)
  | delete (path : String) (recursive : Bool)
  | rename (source destination : String)
  | setQuota (path : String) (inodes bytes : Int)
  | setTypeQuota (path : String) (type : StorageType) (limit : Int)
  | setPolicy (path : String) (policy : StoragePolicy)
  | setReplication (path : String) (replication : Nat)
  deriving DecidableEq, Repr

end QuotaTree
