/-
Blocks of files, and the map from a block to the file it belongs to.
-/
import QuotaTree.Error

namespace QuotaTree

structure Block where
  id : Nat
  bytes : Nat
  stamp : Nat
  deriving DecidableEq, Repr

/-- A block that is being written has no final length yet. -/
inductive BlockState where
  | underConstruction
  | complete
  deriving DecidableEq, Repr

/-- A block as a file lists it. -/
structure BlockInfo where
  block : Block
  state : BlockState
  deriving DecidableEq, Repr

namespace BlockInfo

def isComplete (info : BlockInfo) : Bool :=
  info.state == .complete

/-- Bytes that one replica is charged for: a whole block of the file's preferred
size while it is being written, its length afterwards. -/
def charged (info : BlockInfo) (blockSize : Nat) : Nat :=
  match info.state with
  | .underConstruction => blockSize
  | .complete => info.block.bytes

/-- The sum of some number of bytes over the blocks of a list. -/
def total (bytes : BlockInfo → Nat) : List BlockInfo → Nat
  | [] => 0
  | info :: rest => bytes info + total bytes rest

@[simp] theorem total_nil (bytes : BlockInfo → Nat) : total bytes [] = 0 := rfl

@[simp] theorem total_cons (bytes : BlockInfo → Nat) (info : BlockInfo)
    (rest : List BlockInfo) :
    total bytes (info :: rest) = bytes info + total bytes rest := rfl

@[simp] theorem total_append (bytes : BlockInfo → Nat)
    (left right : List BlockInfo) :
    total bytes (left ++ right) = total bytes left + total bytes right := by
  induction left with
  | nil => simp
  | cons info rest ih => simp [ih, Nat.add_assoc]

end BlockInfo

/-- What is known of a block outside the tree. -/
structure BlockRecord where
  file : InodeId
  targets : List String
  stamp : Nat
  deriving DecidableEq, Repr

/-- The blocks in use, by their numbers. -/
abbrev BlockMap := Std.ExtTreeMap Nat BlockRecord

namespace BlockMap

/-- Enter a block of a file; one that another file has is refused. -/
def add (map : BlockMap) (block : Block) (file : InodeId)
    (targets : List String) : Except Fault BlockMap :=
  let entered := map.insert block.id ⟨file, targets, block.stamp⟩
  match map[block.id]? with
  | none => .ok entered
  | some record =>
    if record.file = file then
      .ok entered else .error (.blockTaken block.id record.file)

def remove (map : BlockMap) (block : Block) : BlockMap :=
  map.erase block.id

/-- Forget all blocks of a list. -/
def removeAll (map : BlockMap) (blocks : List Block) : BlockMap :=
  blocks.foldl remove map

theorem getElem?_remove (map : BlockMap) (block : Block) (id : Nat) :
    (map.remove block)[id]? = if block.id = id then none else map[id]? := by
  simp [remove, Std.ExtTreeMap.getElem?_erase]

theorem getElem?_removeAll (map : BlockMap) (blocks : List Block) (id : Nat) :
    (map.removeAll blocks)[id]? = if id ∈ blocks.map Block.id then
      none else map[id]? := by
  induction blocks generalizing map with
  | nil => simp [removeAll]
  | cons block rest ih =>
    have step :
        map.removeAll (block :: rest) = (map.remove block).removeAll rest := rfl
    rw [step, ih, getElem?_remove, List.map_cons]
    by_cases hrest : id ∈ rest.map Block.id
    · rw [if_pos hrest, if_pos (List.mem_cons_of_mem _ hrest)]
    · by_cases hid : block.id = id
      · rw [if_neg hrest, if_pos hid, if_pos (hid ▸ List.mem_cons_self)]
      · rw [if_neg hrest, if_neg hid, if_neg]
        exact fun hmem => (List.mem_cons.1 hmem).elim
          (fun h => hid h.symm) hrest

end BlockMap

end QuotaTree
