/-
Locks for the same paths in two matching trees: paired inodes are locked in the
same modes.
-/
import QuotaTree.Proofs.Replay.Alike

namespace QuotaTree

open Outcome (Mirrors)

structure SameDemand (p : Pairing) (left right : InodeId × LockMode) :
    Prop where
  ids : p left.1 right.1
  modes : left.2 = right.2

variable {p : Pairing} {left right : View} {chain chain' : Chain}

/-- Paired inodes in one mode. -/
theorem sameDemand_map {xs ys : List InodeId} (lists : List.Forall₂ p xs ys)
    (mode : LockMode) :
    List.Forall₂ (SameDemand p) (xs.map fun id => (id, mode))
      (ys.map fun id => (id, mode)) := by
  rw [List.forall₂_map_left_iff, List.forall₂_map_right_iff]
  exact lists.imp fun _ _ ids => ⟨ids, rfl⟩

namespace PathLock

theorem sameDemand_reading (chains : chain.Matches p chain') :
    List.Forall₂ (SameDemand p) (reading chain) (reading chain') :=
  sameDemand_map chains.ids .read

theorem sameDemand_above (chains : chain.Matches p chain') (lock : PathLock) :
    List.Forall₂ (SameDemand p) (lock.above chain) (lock.above chain') := by
  unfold above
  cases lock.kind with
  | read => exact .nil
  | write => exact .nil
  | writeWithParent =>
    cases chains with
    | root => exact .nil
    | child parents ids => exact .cons ⟨parents.last, rfl⟩ .nil

theorem mirrors_below (views : left.Matches p right)
    (chains : chain.Matches p chain') (lock : PathLock) :
    Mirrors (List.Forall₂ (SameDemand p)) (lock.below left chain)
      (lock.below right chain') := by
  unfold below
  cases lock.scope with
  | path => exact .pure .nil
  | children =>
    refine (views.childrenOf chains.last).bind fun lists => ?_
    exact .pure (sameDemand_map lists _)
  | subtree =>
    refine ((views.subtree chains.last).map fun {xs ys} lists => ?_).bind
      fun lists => .pure (sameDemand_map lists _)
    cases lists with
    | nil => exact .nil
    | cons _ tail => exact tail

theorem mirrors_demands (views : left.Matches p right) (lock : PathLock) :
    Mirrors (List.Forall₂ (SameDemand p)) (lock.demands left)
      (lock.demands right) := by
  unfold demands
  extract_lets locked locked'
  -- what is locked along the path comes after what is locked along the way to a
  -- symlink
  have hlocked {link link' : List (InodeId × LockMode)}
      (links : List.Forall₂ (SameDemand p) link link') :
      Mirrors (List.Forall₂ (SameDemand p)) (locked link) (locked' link') := by
    refine (Chain.mirrors_resolveExisting views _).bind
      fun {found found'} hfound => ?_
    obtain ⟨chain, rest⟩ := found
    obtain ⟨chain', rest'⟩ := found'
    obtain ⟨chains, rfl⟩ := hfound
    have hlast : SameDemand p (chain.last, lock.kind.mode) (chain'.last,
          lock.kind.mode) := ⟨chains.last, rfl⟩
    have along := List.rel_append
      (List.rel_append links (sameDemand_reading chains)) (.cons hlast .nil)
    cases rest with
    | cons => exact .pure along
    | nil =>
      refine (mirrors_below views chains lock).bind fun below => ?_
      exact .pure (List.rel_append
        (List.rel_append along (sameDemand_above chains lock)) below)
  split
  · exact (Chain.mirrors_resolveExisting views _).bind fun hfound =>
      hlocked (sameDemand_reading hfound.chains)
  · exact hlocked .nil

end PathLock

/-- What is asked for in the same modes is held in the same modes. -/
theorem LockSet.carries_ofList {asked asked' : List (InodeId × LockMode)}
    (lists : List.Forall₂ (SameDemand p) asked asked') :
    Namespace.Carries p (ofList asked) (ofList asked') := by
  intro a b mode ids hholds
  rw [holds_ofList] at hholds ⊢
  obtain ⟨item, hitem, rfl, hcovers⟩ := hholds
  induction lists with
  | nil => cases hitem
  | @cons head head' rest rest' same _ ih =>
    rcases List.mem_cons.1 hitem with rfl | hitem
    · have hid := (Pairing.left_eq_iff ids same.ids).1 rfl
      exact ⟨head', List.mem_cons_self, hid.symm, same.modes ▸ hcovers⟩
    · obtain ⟨item', hitem', h⟩ := ih hitem
      exact ⟨item', List.mem_cons_of_mem _ hitem', h⟩

/-- Locks along the same paths carry over. -/
theorem LockDemand.mirrors_plan (views : left.Matches p right)
    (paths : List PathLock) :
    Mirrors (Namespace.Carries p) (({ paths } : LockDemand).plan left)
      (({ paths } : LockDemand).plan right) := by
  have hasked :
      Mirrors (List.Forall₂ (List.Forall₂ (SameDemand p)))
        (paths.mapM fun lock => lock.demands left)
        (paths.mapM fun lock => lock.demands right) :=
    Mirrors.mapM (List.forall₂_same.2 fun lock _ => rfl) fun {lock lock'}
      (h : lock = lock') => h ▸ PathLock.mirrors_demands views lock
  refine hasked.bind fun lists => ?_
  exact .pure (LockSet.carries_ofList
    (List.rel_append (List.rel_append (List.rel_flatten lists) .nil) .nil))

end QuotaTree
