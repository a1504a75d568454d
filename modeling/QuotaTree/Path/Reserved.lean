/-
Addressing an inode by its number.  A path below the reserved directory of
inodes stands for the place where the inode lives now; any other path stands for
itself.
-/
import QuotaTree.View

namespace QuotaTree

/-- The name below the root that no entry may have. -/
def reservedName : String := ".reserved"

/-- The reserved directory of inodes, below the reserved name. -/
def inodesName : String := ".inodes"

/-- The path that addresses an inode wherever it lives. -/
def InodeId.reservedPath (id : InodeId) : String :=
  "/" ++ reservedName ++ "/" ++ inodesName ++ "/" ++ id.text

namespace Path

/-- The double dot, which names the parent. -/
def dotDot : List Char := ['.', '.']

/-- Where an inode addressed by number lives, with what follows the number in
the path. -/
def ofReserved (view : View) (path : String) (number : List Char)
    (rest : List (List Char)) : Except Error String :=
  match InodeId.parse (String.ofList number) with
  | .error _ => throw (.missing ("Invalid inode path: " ++ path))
  | .ok id =>
    if id = .root ∧ rest = [] then pure "/"
    else
      match view.parentOf id with
      | .error _ =>
        throw (.missing ("File for given inode path does not exist: " ++ path))
      | .ok parent =>
        if rest = [] then view.fullPath id
        else if rest = [dotDot] then
          match parent with
          | some parent =>
            if parent = .root then pure "/" else view.fullPath parent
          | none => pure "/"
        else if dotDot ∈ rest then throw (.invalidPath path)
        else do
          let base ← view.fullPath id
          pure (child base (String.intercalate "/" (rest.map String.ofList)))

/-- The path that a path stands for. -/
def resolveReserved (view : View) (path : String) : Except Error String :=
  match (pieces path.toList).filter (· ≠ []) with
  | first :: second :: number :: rest =>
    if first = reservedName.toList ∧ second = inodesName.toList then
      ofReserved view path number rest
    else pure path
  | _ => pure path

end Path

end QuotaTree
