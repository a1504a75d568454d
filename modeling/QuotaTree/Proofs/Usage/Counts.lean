/-
Usages form a commutative group, so that sums over subtrees can be taken apart,
and the usage of bytes on a file's media is linear in the bytes.
-/
import QuotaTree.Inode
import Mathlib.Algebra.BigOperators.Group.Finset.Piecewise
import Mathlib.Algebra.BigOperators.Group.List.Basic
import Mathlib.Tactic.Abel

namespace QuotaTree

namespace Counts

instance : AddCommGroup Counts where
  add_assoc := add_assoc
  zero_add := zero_add
  add_zero := add_zero
  add_comm := add_comm
  nsmul := nsmulRec
  zsmul := zsmulRec
  neg_add_cancel counts := ext_get fun dimension => by simp
  sub_eq_add_neg left right := ext_get fun dimension => by
    simp [Int.sub_eq_add_neg]

theorem sum_eq_list_sum (list : List Counts) : sum list = list.sum := by
  induction list with
  | nil => rfl
  | cons head tail ih => rw [sum_cons, List.sum_cons, ih]

/-- The sum over a list without repetition is the sum over the set of its
members. -/
theorem sum_map_of_nodup {α : Type} [DecidableEq α] {list : List α}
    (nodup : list.Nodup) (f : α → Counts) :
    sum (list.map f) = ∑ x ∈ list.toFinset, f x := by
  rw [sum_eq_list_sum, List.sum_toFinset f nodup]

theorem get_sum {α : Type} (ids : Finset α) (f : α → Counts)
    (dimension : Dimension) :
    (∑ x ∈ ids, f x).get dimension = ∑ x ∈ ids, (f x).get dimension :=
  map_sum (AddMonoidHom.mk' (Counts.get · dimension)
    fun left right => get_add left right dimension) f ids

theorem oneInode_nonneg (dimension : Dimension) :
    0 ≤ oneInode.get dimension := by
  rcases dimension with _ | _ | (_ | _ | _ | _) <;> decide

end Counts

namespace StoragePolicy

/-- How often bytes count in a dimension. -/
def weight (policy : StoragePolicy) (replication : Nat) : Dimension → Int
  | .inodes => 0
  | .bytes => replication
  | .typed type => (policy.placement replication).count type

theorem get_foldl_addAt (types : List StorageType) (bytes : Int)
    (start : Counts) (dimension : Dimension) :
    (types.foldl (fun counts type => counts.addAt (.typed type) bytes)
      start).get dimension = start.get dimension + bytes *
      (types.map Dimension.typed).count dimension := by
  induction types generalizing start with
  | nil => simp
  | cons head tail ih =>
    rw [List.foldl_cons, ih, Counts.get_addAt, List.map_cons, List.count_cons]
    by_cases h : Dimension.typed head = dimension
    · simp [h, Int.mul_add]
      omega
    · simp [h]

theorem get_space (policy : StoragePolicy) (replication : Nat) (bytes : Int)
    (dimension : Dimension) :
    (policy.space replication bytes).get dimension =
      bytes * policy.weight replication dimension := by
  have htyped (type : StorageType) :
      ((policy.placement replication).map Dimension.typed).count (.typed type) =
        (policy.placement replication).count type :=
    List.count_map_of_injective _ _ (fun _ _ h => Dimension.typed.inj h) _
  rw [space, get_foldl_addAt]
  rcases dimension with _ | _ | type
  · simp [Counts.get, weight, List.count_eq_zero]
  · simp [Counts.get, weight, List.count_eq_zero]
  · rw [htyped]
    cases type <;> simp [Counts.get, weight]

theorem space_neg (policy : StoragePolicy) (replication : Nat) (bytes : Int) :
    policy.space replication (-bytes) = -policy.space replication bytes :=
  Counts.ext_get fun dimension => by simp [get_space]

theorem space_sub (policy : StoragePolicy) (replication : Nat)
    (left right : Int) :
    policy.space replication (left - right) =
      policy.space replication left - policy.space replication right :=
  Counts.ext_get fun dimension => by simp [get_space, Int.sub_mul]

theorem space_zero (policy : StoragePolicy) (replication : Nat) :
    policy.space replication 0 = 0 :=
  Counts.ext_get fun dimension => by simp [get_space]

end StoragePolicy

end QuotaTree
