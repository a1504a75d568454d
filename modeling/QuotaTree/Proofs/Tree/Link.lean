/-
A new inode is put below a directory of a well-formed tree.  The tree stays well
formed, and nothing that was there before moves.
-/
import QuotaTree.Proofs.Tree.Place

namespace QuotaTree

namespace Nodes

variable {nodes : Nodes} {id parent top : InodeId} {inode gained new : Inode}
  {name : Name}

/-- Nothing has an inode as its parent that is not there. -/
theorem WellFormed.not_hasParent_of_dead (wf : nodes.WellFormed)
    (dead : nodes id = none) (x : InodeId) : ¬ nodes.HasParent x id := by
  intro h
  obtain ⟨holder, hholder, _⟩ := wf.live_parent h
  rw [dead] at hholder
  cases hholder

theorem ne_of_live_of_dead {x y : InodeId} (live : nodes x = some inode)
    (dead : nodes y = none) : x ≠ y := by
  rintro rfl
  rw [dead] at live
  cases live

/-- An inode without entries that was not there before and that a directory
gains. -/
structure Insertion (nodes : Nodes) (parent id : InodeId) (name : Name)
    (gained new : Inode) : Prop where
  entered : ∃ holder, nodes parent = some holder ∧ holder.child? name = none ∧
    holder.Gains gained name id
  fresh : nodes id = none
  id : new.id = id
  name : new.name = name
  parent : new.parent = some parent
  leaf : ∀ other, new.child? other = none

def insert (nodes : Nodes) (parent id : InodeId) (gained new : Inode) : Nodes :=
  (nodes.set parent (some gained)).set id (some new)

namespace Insertion

variable (ins : nodes.Insertion parent id name gained new)
include ins

theorem parent_ne : parent ≠ id := by
  obtain ⟨holder, hholder, _⟩ := ins.entered
  exact ne_of_live_of_dead hholder ins.fresh

omit ins in
theorem insert_self : nodes.insert parent id gained new id = some new :=
  set_self ..

theorem insert_parent :
    nodes.insert parent id gained new parent = some gained := by
  rw [Nodes.insert, set_of_ne _ ins.parent_ne, set_self]

omit ins in
theorem insert_of_ne {x : InodeId} (hid : x ≠ id) (hparent : x ≠ parent) :
    nodes.insert parent id gained new x = nodes x := by
  rw [Nodes.insert, set_of_ne _ hid, set_of_ne _ hparent]

/-- A new inode has its parent, all others keep theirs. -/
theorem hasParent (x y : InodeId) :
    (nodes.insert parent id gained new).HasParent x y ↔
      if x = id then y = parent else nodes.HasParent x y := by
  obtain ⟨holder, hholder, _, gains⟩ := ins.entered
  by_cases h : x = id
  · subst h
    simp [HasParent, Nodes.insert, ins.parent, eq_comm]
  · rw [if_neg h, ← hasParent_set hholder gains.toSamePlace x y]
    simp [HasParent, Nodes.insert, set_of_ne, h]

theorem keeps_parent (x y : InodeId) (h : nodes.HasParent x y) :
    (nodes.insert parent id gained new).HasParent x y := by
  obtain ⟨found, hfound, hy⟩ := h
  rw [ins.hasParent, if_neg (ne_of_live_of_dead hfound ins.fresh)]
  exact ⟨found, hfound, hy⟩

/-- What is there afterwards is the new inode, or stands where it stood
before. -/
theorem live {x : InodeId} {found : Inode}
    (hx : nodes.insert parent id gained new x = some found) :
    x = id ∧ found = new ∨ x ≠ id ∧ ∃ old, nodes x = some old ∧
    old.SameUse found := by
  by_cases h : x = id
  · subst h
    rw [insert_self, Option.some_inj] at hx
    exact .inl ⟨rfl, hx.symm⟩
  · refine .inr ⟨h, ?_⟩
    by_cases hp : x = parent
    · subst hp
      obtain ⟨holder, hholder, _, gains⟩ := ins.entered
      rw [ins.insert_parent, Option.some_inj] at hx
      exact ⟨holder, hholder, hx ▸ gains.toSameUse⟩
    · rw [insert_of_ne h hp] at hx
      exact ⟨found, hx, .refl found⟩

theorem entryAt (d : InodeId) (n : Name) :
    (nodes.insert parent id gained new).entryAt d n =
      if d = parent ∧ n = name then some id else nodes.entryAt d n := by
  obtain ⟨holder, hholder, _, gains⟩ := ins.entered
  have hdead : nodes.entryAt id n = none := by simp [Nodes.entryAt, ins.fresh]
  rw [Nodes.insert, entryAt_set, entryAt_set, ins.leaf, gains.child,
    ← entryAt_of_live hholder]
  have := ins.parent_ne
  grind

theorem placedAt (x : InodeId) (n : Name) (d : InodeId) :
    (nodes.insert parent id gained new).PlacedAt x n d ↔
      if x = id then name = n ∧ parent = d else nodes.PlacedAt x n d := by
  obtain ⟨holder, hholder, _, gains⟩ := ins.entered
  rw [Nodes.insert, placedAt_set, placedAt_set, ins.name, ins.parent,
    Option.some_inj]
  by_cases hx : x = id
  · rw [if_pos hx, if_pos hx]
  · rw [if_neg hx, if_neg hx]
    by_cases hp : x = parent
    · rw [if_pos hp, hp, placedAt_of_live hholder, gains.name, gains.parent]
    · rw [if_neg hp]

theorem wellFormed (wf : nodes.WellFormed) :
    (nodes.insert parent id gained new).WellFormed where
  ids {x found} hx := by
    rcases ins.live hx with ⟨rfl, rfl⟩ | ⟨_, old, hold, same⟩
    · exact ins.id
    · rw [same.id, wf.ids hold]
  root := by
    obtain ⟨root, hroot, hdir, hnone⟩ := wf.root
    have hne := ne_of_live_of_dead hroot ins.fresh
    by_cases h : .root = parent
    · subst h
      obtain ⟨holder, hholder, _, gains⟩ := ins.entered
      rw [hroot, Option.some_inj] at hholder
      subst hholder
      exact ⟨gained, ins.insert_parent, gains.isDirectory.trans hdir,
        gains.parent.trans hnone⟩
    · exact ⟨root, (insert_of_ne hne h).trans hroot, hdir, hnone⟩
  edge {d n x} := by
    rw [ins.entryAt, ins.placedAt, ← wf.edge]
    have hdead : nodes.entryAt d n ≠ some id := by
      intro h
      obtain ⟨found, hfound, _⟩ := wf.edge.1 h
      exact ne_of_live_of_dead hfound ins.fresh rfl
    have hfree : nodes.entryAt parent name = none := by
      obtain ⟨holder, hholder, hnone, _⟩ := ins.entered
      rw [entryAt_of_live hholder, hnone]
    grind
  descends {x found} hx := by
    rcases ins.live hx with ⟨rfl, rfl⟩ | ⟨_, old, hold, _⟩
    · obtain ⟨holder, hholder, _⟩ := ins.entered
      obtain ⟨depth, hdepth⟩ := wf.descends hholder
      exact ⟨depth + 1, .child ((ins.hasParent _ _).2 (if_pos rfl ▸ rfl))
        (hdepth.mono ins.keeps_parent)⟩
    · obtain ⟨depth, hdepth⟩ := wf.descends hold
      exact ⟨depth, hdepth.mono ins.keeps_parent⟩

/-- What was there before lies under what it lay under. -/
theorem under_of_ne (wf : nodes.WellFormed) {x : InodeId} (hx : x ≠ id) :
    (nodes.insert parent id gained new).Under top x ↔ nodes.Under top x := by
  constructor
  · intro h
    induction h using Relation.ReflTransGen.head_induction_on with
    | refl => exact .refl nodes _
    | head hfirst _ ih =>
      rw [ins.hasParent, if_neg hx] at hfirst
      refine (ih ?_).trans (.of_parent hfirst)
      rintro rfl
      exact wf.not_hasParent_of_dead ins.fresh _ hfirst
  · exact Under.mono ins.keeps_parent

/-- The new inode lies under itself and under what its parent lies under. -/
theorem under_self (wf : nodes.WellFormed) :
    (nodes.insert parent id gained new).Under top id ↔ id = top ∨
    nodes.Under top parent := by
  have hlink : (nodes.insert parent id gained new).HasParent id parent :=
    (ins.hasParent _ _).2 (if_pos rfl ▸ rfl)
  rw [under_iff_of_parent hlink, ins.under_of_ne wf ins.parent_ne]

end Insertion

end Nodes

end QuotaTree
