/-
Inodes that stand where others stood.  A tree whose inodes keep their places and
their entries has the same shape, whatever else is changed in them.
-/
import QuotaTree.Proofs.Tree.Shape

namespace QuotaTree

namespace Inode

structure SamePlace (old new : Inode) : Prop where
  id : new.id = old.id
  name : new.name = old.name
  parent : new.parent = old.parent
  isDirectory : new.isDirectory = old.isDirectory

structure SameUse (old new : Inode) : Prop extends SamePlace old new where
  quota : new.quota = old.quota
  file : new.asFile = old.asFile

structure Gains (old new : Inode) (entry : Name) (below : InodeId) :
    Prop extends SameUse old new where
  child :
    ∀ other, new.child? other = if other = entry then
        some below else old.child? other

structure Loses (old new : Inode) (entry : Name) :
    Prop extends SameUse old new where
  child :
    ∀ other, new.child? other = if other = entry then none else old.child? other

structure Alike (old new : Inode) : Prop extends SamePlace old new where
  child : ∀ name, new.child? name = old.child? name

def withChild (inode : Inode) (name : Name) (id : InodeId) : Inode :=
  match inode.content with
  | .directory directory => inode.withDirectory
      { directory with children := directory.children.insert name id }
  | _ => inode

theorem withChild_of_directory
    {inode : Inode} {directory : Directory} (content : inode.content =
      .directory directory)
    (name : Name) (id : InodeId) :
    inode.withChild name id = inode.withDirectory
      { directory with children := directory.children.insert name id } := by
  rw [withChild, content]

theorem SamePlace.refl (inode : Inode) : inode.SamePlace inode :=
  ⟨rfl, rfl, rfl, rfl⟩

theorem SamePlace.trans {first second third : Inode}
    (early : first.SamePlace second) (late : second.SamePlace third) :
    first.SamePlace third where
  id := late.id.trans early.id
  name := late.name.trans early.name
  parent := late.parent.trans early.parent
  isDirectory := late.isDirectory.trans early.isDirectory

theorem SameUse.refl (inode : Inode) : inode.SameUse inode :=
  ⟨.refl inode, rfl, rfl⟩

theorem SameUse.trans {first second third : Inode}
    (early : first.SameUse second) (late : second.SameUse third) :
    first.SameUse third where
  toSamePlace := early.toSamePlace.trans late.toSamePlace
  quota := late.quota.trans early.quota
  file := late.file.trans early.file

theorem Alike.refl (inode : Inode) : inode.Alike inode :=
  ⟨.refl inode, fun _ => rfl⟩

theorem Alike.symm {old new : Inode} (alike : old.Alike new) : new.Alike old :=
  ⟨⟨alike.id.symm, alike.name.symm, alike.parent.symm, alike.isDirectory.symm⟩,
    fun name => (alike.child name).symm⟩

theorem gains_insert {inode : Inode} {directory : Directory} (name : Name)
    (id : InodeId) (hdir : inode.asDirectory = some directory) :
    inode.Gains (inode.withDirectory { directory with
      children := directory.children.insert name id }) name id where
  id := rfl
  name := rfl
  parent := rfl
  isDirectory := by
    rw [isDirectory, isDirectory, hdir]
    rfl
  quota := by
    rw [quota, quota, hdir]
    rfl
  file := by
    rw [asFile, asFile, asDirectory_eq_some.1 hdir]
    rfl
  child other := by
    by_cases h : other = name
    · subst h
      simp [child?, withDirectory, asDirectory]
    · have hne : compare name other ≠ .eq :=
        fun heq => h (Std.LawfulEqCmp.eq_of_compare heq).symm
      rw [if_neg h, child?, child?, hdir]
      simp [withDirectory, asDirectory, Std.ExtTreeMap.getElem?_insert, hne]

theorem loses_withoutChild (inode : Inode) (name : Name) :
    inode.Loses (inode.withoutChild name) name := by
  unfold withoutChild
  cases hcontent : inode.content with
  | directory directory =>
    have hdir := asDirectory_eq_some.2 hcontent
    have hkind : inode.isDirectory = true := by rw [isDirectory, hdir]; rfl
    have hquota : inode.quota = directory.quota := by rw [quota, hdir]; rfl
    have hfile : inode.asFile = none := by rw [asFile, hcontent]
    refine ⟨⟨⟨rfl, rfl, rfl, hkind.symm⟩, hquota.symm, hfile.symm⟩, ?_⟩
    intro other
    by_cases h : other = name
    · subst h
      simp [child?, withDirectory, asDirectory]
    · have hne : compare name other ≠ .eq :=
        fun heq => h (Std.LawfulEqCmp.eq_of_compare heq).symm
      rw [if_neg h, child?, child?, hdir]
      simp [withDirectory, asDirectory, Std.ExtTreeMap.getElem?_erase, hne]
  | file file =>
    refine ⟨SameUse.refl inode, fun other => ?_⟩
    simp [child?, asDirectory, hcontent]
  | symlink target =>
    refine ⟨SameUse.refl inode, fun other => ?_⟩
    simp [child?, asDirectory, hcontent]

end Inode

namespace Nodes

variable {nodes after : Nodes} {id parent top : InodeId} {inode new : Inode}
  {name : Name}

theorem entryAt_set (other : InodeId) (name : Name) :
    (nodes.set id (some new)).entryAt other name =
      if other = id then new.child? name else nodes.entryAt other name := by
  by_cases h : other = id
  · subst h
    simp [entryAt]
  · simp [entryAt, set_of_ne, h]

theorem placedAt_set {other : InodeId} {name : Name} {parent : InodeId} :
    (nodes.set id (some new)).PlacedAt other name parent ↔
      if other = id then new.name = name ∧ new.parent = some parent
      else nodes.PlacedAt other name parent := by
  by_cases h : other = id
  · subst h
    simp [PlacedAt]
  · simp [PlacedAt, set_of_ne, h]

/-- What lies under what depends on the parent links alone. -/
theorem under_congr (same : ∀ x y, after.HasParent x y ↔ nodes.HasParent x y)
    (top id : InodeId) : after.Under top id ↔ nodes.Under top id := by
  have heq : after.HasParent = nodes.HasParent :=
    funext₂ fun x y => propext (same x y)
  simp only [Under, heq]

theorem Depth.mono {depth : Nat}
    (keeps : ∀ x y, nodes.HasParent x y → after.HasParent x y)
    (h : nodes.Depth id depth) : after.Depth id depth := by
  induction h with
  | root => exact .root
  | child link _ ih => exact .child (keeps _ _ link) ih

theorem Under.mono (keeps : ∀ x y, nodes.HasParent x y → after.HasParent x y)
    (h : nodes.Under top id) : after.Under top id :=
  Relation.ReflTransGen.mono keeps _ _ h
/-- An inode in the same place changes no parent link. -/
theorem hasParent_set (live : nodes id = some inode)
    (same : inode.SamePlace new) (x y : InodeId) :
    (nodes.set id (some new)).HasParent x y ↔ nodes.HasParent x y := by
  by_cases h : x = id
  · subst h
    simp [HasParent, live, same.parent]
  · simp [HasParent, set_of_ne, h]

def Alike (nodes after : Nodes) : Prop :=
  ∀ x, Option.Rel Inode.Alike (nodes x) (after x)

theorem alike_set (live : nodes id = some inode) (alike : inode.Alike new) :
    nodes.Alike (nodes.set id (some new)) := by
  intro x
  by_cases h : x = id
  · subst h
    rw [set_self, live]
    exact .some alike
  · rw [set_of_ne _ h]
    cases nodes x with
    | none => exact .none
    | some other => exact .some (.refl other)

namespace Alike

theorem symm (alike : nodes.Alike after) : after.Alike nodes := by
  intro x
  have h := alike x
  generalize nodes x = old at h
  generalize after x = found at h
  cases h with
  | none => exact .none
  | some h => exact .some h.symm

theorem live (alike : nodes.Alike after) {x : InodeId}
    (hx : nodes x = some inode) :
    ∃ found, after x = some found ∧ inode.Alike found := by
  have h := alike x
  rw [hx] at h
  generalize hafter : after x = found at h
  cases h with
  | some h => exact ⟨_, rfl, h⟩

theorem dead (alike : nodes.Alike after) {x : InodeId} (hx : nodes x = none) :
    after x = none := by
  have h := alike x
  rw [hx] at h
  generalize after x = found at h
  cases h
  rfl

theorem placedAt (alike : nodes.Alike after) (x : InodeId) (name : Name)
    (parent : InodeId) :
    after.PlacedAt x name parent ↔ nodes.PlacedAt x name parent := by
  constructor
  · rintro ⟨found, hfound, hname, hparent⟩
    obtain ⟨old, hold, same⟩ := alike.symm.live hfound
    exact ⟨old, hold, same.name.trans hname, same.parent.trans hparent⟩
  · rintro ⟨old, hold, hname, hparent⟩
    obtain ⟨found, hfound, same⟩ := alike.live hold
    exact ⟨found, hfound, same.name.trans hname, same.parent.trans hparent⟩

theorem hasParent (alike : nodes.Alike after) (x y : InodeId) :
    after.HasParent x y ↔ nodes.HasParent x y := by
  simp only [hasParent_iff_placedAt, alike.placedAt]

theorem under (alike : nodes.Alike after) (top x : InodeId) :
    after.Under top x ↔ nodes.Under top x :=
  under_congr alike.hasParent top x

theorem entryAt (alike : nodes.Alike after) (x : InodeId) (name : Name) :
    after.entryAt x name = nodes.entryAt x name := by
  cases hx : nodes x with
  | none => simp [Nodes.entryAt, hx, alike.dead hx]
  | some old =>
    obtain ⟨found, hfound, same⟩ := alike.live hx
    rw [entryAt_of_live hx, entryAt_of_live hfound, same.child]

theorem wellFormed (alike : nodes.Alike after) (wf : nodes.WellFormed) :
    after.WellFormed where
  ids {x found} hx := by
    obtain ⟨old, hold, same⟩ := alike.symm.live hx
    rw [← same.id, wf.ids hold]
  root := by
    obtain ⟨root, hroot, hdir, hparent⟩ := wf.root
    obtain ⟨found, hfound, same⟩ := alike.live hroot
    exact ⟨found, hfound, same.isDirectory.trans hdir,
      same.parent.trans hparent⟩
  edge := by
    intro parent name id
    rw [alike.entryAt, alike.placedAt, wf.edge]
  descends {x found} hx := by
    obtain ⟨old, hold, _⟩ := alike.symm.live hx
    obtain ⟨depth, hdepth⟩ := wf.descends hold
    exact ⟨depth, hdepth.mono fun x y => (alike.hasParent x y).2⟩

end Alike

end Nodes

end QuotaTree
