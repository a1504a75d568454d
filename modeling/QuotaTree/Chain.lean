/-
The inodes along a path, from the root down, with the names that lead from each
to the next.  A chain owns nothing: it is built afresh for every request.
-/
import QuotaTree.Path

namespace QuotaTree

inductive Chain where
  | root
  | child (parent : Chain) (name : Name) (id : InodeId)
  deriving DecidableEq, Repr, Inhabited

namespace Chain

/-- The inode that the chain leads to. -/
def last : Chain → InodeId
  | .root => .root
  | .child _ _ id => id

/-- The name of the inode that the chain leads to. -/
def lastName : Chain → Name
  | .root => .empty
  | .child _ name _ => name

/-- The chain to the parent, which the root has not. -/
def parent? : Chain → Option Chain
  | .root => none
  | .child parent _ _ => some parent

/-- The names below the root. -/
def names : Chain → List Name
  | .root => []
  | .child parent name _ => parent.names ++ [name]

/-- The inodes, the root first. -/
def ids : Chain → List InodeId
  | .root => [.root]
  | .child parent _ id => parent.ids ++ [id]

/-- The number of inodes. -/
def length : Chain → Nat
  | .root => 1
  | .child parent _ _ => parent.length + 1

@[simp] theorem length_ids (chain : Chain) :
    chain.ids.length = chain.length := by
  induction chain with
  | root => rfl
  | child parent name id ih => simp [ids, length, ih]

theorem length_pos (chain : Chain) : 0 < chain.length := by
  cases chain <;> simp [length]

theorem getLast?_ids (chain : Chain) :
    chain.ids.getLast? = some chain.last := by
  cases chain <;> simp [ids, last]

def path (chain : Chain) : String :=
  Path.ofNames chain.names

/-- This chain and the chains to all inodes above, the root's last. -/
def ancestry : Chain → List Chain
  | .root => [.root]
  | .child parent name id => .child parent name id :: parent.ancestry

theorem map_last_ancestry (chain : Chain) :
    chain.ancestry.map last = chain.ids.reverse := by
  induction chain with
  | root => rfl
  | child parent name id ih => simp [ancestry, ids, ih, last]

/-- The chain to the inode at a length, or the whole chain if it is not that
long. -/
def upTo (chain : Chain) (length : Nat) : Chain :=
  match chain with
  | .root => .root
  | .child parent name id =>
    if parent.length < length then .child parent name id else parent.upTo length

theorem upTo_of_length_le {chain : Chain} {length : Nat}
    (h : chain.length ≤ length) : chain.upTo length = chain := by
  cases chain with
  | root => rfl
  | child parent name id => exact if_pos h

theorem upTo_child_length (chain : Chain) (name : Name) (id : InodeId) :
    (child chain name id).upTo chain.length = chain := by
  rw [upTo, if_neg (Nat.lt_irrefl _), upTo_of_length_le (Nat.le_refl _)]

/-- An inode lies on the chain. -/
def contains (chain : Chain) (id : InodeId) : Bool :=
  chain.ids.contains id

/-- The deepest inode that two chains share. -/
def commonAncestor (left right : Chain) : InodeId :=
  let shared := (left.ids.zip right.ids).takeWhile fun pair => pair.1 = pair.2
  match shared.getLast? with
  | some pair => pair.1
  | none => .root

end Chain

namespace ChainExamples

def sample : Chain :=
  .child (.child .root (Name.ofText "a") ⟨2⟩) (Name.ofText "b") ⟨3⟩

example : sample.path = "/a/b" := by decide +kernel
example : Chain.path .root = "/" := by decide +kernel
example : sample.commonAncestor (.child (.child .root (Name.ofText "a") ⟨2⟩)
      (Name.ofText "c") ⟨4⟩) = ⟨2⟩ := by
  decide +kernel
example : (sample.upTo 2).last = ⟨2⟩ := by decide +kernel

end ChainExamples

end QuotaTree
