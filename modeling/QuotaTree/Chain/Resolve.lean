/-
Finding the inodes along a path.  A symlink may stand only at the end of a path;
there it is followed on demand, for a bounded number of times.
-/
import QuotaTree.Chain
import QuotaTree.View

namespace QuotaTree

namespace Chain

/-- Walk down from the end of a chain as far as names lead; what is left of the
names is returned with the chain. -/
def descend (view : View) (path : String) :
    Chain → List Name → Except Error (Chain × List Name)
  | chain, [] => pure (chain, [])
  | chain, name :: rest => do
    let inode ← view.get chain.last
    match inode.content with
    | .symlink _ => throw (.unresolvedLink path chain.path)
    | .file _ => pure (chain, name :: rest)
    | .directory directory =>
      match directory.children[name]? with
      | some id => descend view path (.child chain name id) rest
      | none => pure (chain, name :: rest)

/-- Where the target of a symlink leads from the directory that holds the
link. -/
def targetPath (chain : Chain) (target : String) : String :=
  if target.toList.head? = some '/' then target
  else
    match chain.parent? with
    | some parent => Path.child parent.path target
    | none => Path.child "/" target

/-- Resolve a path and follow a symlink at its end, at most the given number of
times. -/
def follow (view : View) (hops : Nat) (path : String) :
    Except Error (Chain × List Name) := do
  let names ← Path.components path
  let (chain, rest) ← descend view path .root names
  match rest with
  | _ :: _ => pure (chain, rest)
  | [] =>
    let inode ← view.get chain.last
    match inode.content with
    | .symlink target =>
      match hops with
      | 0 => throw (.unresolvedLink path chain.path)
      | hops + 1 => follow view hops (chain.targetPath target)
    | _ => pure (chain, [])

/-- The number of symlinks that are followed for one path. -/
def maxHops : Nat := 32

/-- The part of a path that exists, and the components that are missing. -/
def resolveExisting (view : View) (path : String) (following : Bool) :
    Except Error (Chain × List Name) :=
  if following then follow view maxHops path
  else do
    let names ← Path.components path
    descend view path .root names

/-- Resolve a path of which no component may be missing. -/
def resolve (view : View) (path : String) (following : Bool) :
    Except Error Chain := do
  let (chain, rest) ← resolveExisting view path following
  match rest with
  | [] => pure chain
  | _ :: _ => throw (.notFound path (Path.joinNames rest))

end Chain

end QuotaTree
