/-
Storage media, and the policies that say which medium each replica of a file's
blocks goes to.  Names are written in capitals and read without regard to case.
-/
namespace QuotaTree

/-- The medium that one replica of a block lives on. -/
inductive StorageType where
  | ramDisk
  | ssd
  | disk
  | archive
  deriving DecidableEq, Repr, Inhabited

/-- The rule that places the replicas of a file. -/
inductive StoragePolicy where
  | hot
  | warm
  | cold
  | oneSsd
  | allSsd
  deriving DecidableEq, Repr, Inhabited

/-- A text that names no storage type, or no storage policy. -/
inductive StorageNameError where
  | unknownType (text : String)
  | unknownPolicy (text : String)
  deriving DecidableEq, Repr

def StorageNameError.message : StorageNameError → String
  | .unknownType text => "unknown storage type: " ++ text
  | .unknownPolicy text => "unknown storage policy: " ++ text

/-- Two texts agree up to the case of ASCII letters. -/
def sameUpToCase (left right : String) : Bool :=
  left.toList.map Char.toLower == right.toList.map Char.toLower

namespace StorageType

/-- Every medium, in the order in which usages list them. -/
def all : List StorageType := [.ramDisk, .ssd, .disk, .archive]

@[simp] theorem mem_all (type : StorageType) : type ∈ all := by
  cases type <;> decide

def name : StorageType → String
  | .ramDisk => "RAM_DISK"
  | .ssd => "SSD"
  | .disk => "DISK"
  | .archive => "ARCHIVE"

/-- The word that stands for a medium in the text of a usage. -/
def label : StorageType → String
  | .ramDisk => "RamDisk"
  | .ssd => "Ssd"
  | .disk => "Disk"
  | .archive => "Archive"

/-- Position of a medium in `all`. -/
def index : StorageType → Nat
  | .ramDisk => 0
  | .ssd => 1
  | .disk => 2
  | .archive => 3

theorem all_index (type : StorageType) : all[type.index]? = some type := by
  cases type <;> rfl

/-- The medium of exactly this name. -/
def ofName? (text : String) : Option StorageType :=
  all.find? (·.name == text)

/-- The medium of this name in any case. -/
def parse (text : String) : Except StorageNameError StorageType :=
  match all.find? (sameUpToCase ·.name text) with
  | some type => .ok type
  | none => .error (.unknownType text)

@[simp] theorem ofName?_name (type : StorageType) :
    ofName? type.name = some type := by
  cases type <;> decide +kernel

@[simp] theorem parse_name (type : StorageType) :
    parse type.name = .ok type := by
  cases type <;> rfl

end StorageType

namespace StoragePolicy

def all : List StoragePolicy := [.hot, .warm, .cold, .oneSsd, .allSsd]

@[simp] theorem mem_all (policy : StoragePolicy) : policy ∈ all := by
  cases policy <;> decide

def name : StoragePolicy → String
  | .hot => "HOT"
  | .warm => "WARM"
  | .cold => "COLD"
  | .oneSsd => "ONE_SSD"
  | .allSsd => "ALL_SSD"

/-- The policy of exactly this name. -/
def ofName? (text : String) : Option StoragePolicy :=
  all.find? (·.name == text)

/-- The policy of this name in any case. -/
def parse (text : String) : Except StorageNameError StoragePolicy :=
  match all.find? (sameUpToCase ·.name text) with
  | some policy => .ok policy
  | none => .error (.unknownPolicy text)

@[simp] theorem ofName?_name (policy : StoragePolicy) :
    ofName? policy.name = some policy := by
  cases policy <;> decide +kernel

@[simp] theorem parse_name (policy : StoragePolicy) :
    parse policy.name = .ok policy := by
  cases policy <;> rfl

/-- The medium of the replica at a position, the first one being 0. -/
def typeAt : StoragePolicy → Nat → StorageType
  | .hot, _ => .disk
  | .cold, _ => .archive
  | .allSsd, _ => .ssd
  | .warm, 0 => .disk
  | .warm, _ + 1 => .archive
  | .oneSsd, 0 => .ssd
  | .oneSsd, _ + 1 => .disk

/-- The media of all replicas, first replica first. -/
def placement (policy : StoragePolicy) (replication : Nat) : List StorageType :=
  (List.range replication).map policy.typeAt

@[simp] theorem length_placement (policy : StoragePolicy) (replication : Nat) :
    (policy.placement replication).length = replication := by
  simp [placement]

end StoragePolicy

namespace StorageExamples

example : StorageType.parse "aRcHiVe" = .ok .archive := by rfl
example : StoragePolicy.placement .warm 3 = [.disk, .archive, .archive] := by
  rfl
example : StoragePolicy.placement .oneSsd 2 = [.ssd, .disk] := by rfl

end StorageExamples

end QuotaTree
