/-
A subtree is taken from one directory and entered into another one.  The tree
stays well formed as long as the new place does not lie in the subtree.
-/
import QuotaTree.Proofs.Tree.Place

namespace QuotaTree

namespace Nodes

variable {nodes : Nodes} {id parent top : InodeId} {name : Name}

/-- A subtree taken from one directory and entered into another one that does
not lie in it. The directory it comes from has lost the name before the other
one gains it. -/
structure Relocation (nodes : Nodes) (id parent target : InodeId)
    (name entry : Name) (lost gained moved : Inode) : Prop where
  listed : ∃ holder, nodes parent = some holder ∧ holder.child? name = some id ∧
    holder.Loses lost name
  entered : ∃ holder, nodes.set parent (some lost) target = some holder ∧
    holder.child? entry = none ∧ holder.Gains gained entry id
  placed : ∃ inode, nodes id = some inode ∧
    moved = { inode with name := entry, parent := some target }
  outside : ¬ nodes.Under id target

def relocate (nodes : Nodes) (id parent target : InodeId)
    (lost gained moved : Inode) : Nodes :=
  ((nodes.set parent (some lost)).set target (some gained)).set id (some moved)

variable {target : InodeId} {entry : Name} {lost gained moved : Inode}

namespace Relocation

variable (rel : nodes.Relocation id parent target name entry lost gained moved)
include rel

theorem target_ne : target ≠ id := by
  rintro rfl
  exact rel.outside (.refl nodes _)

theorem hasParent_old (wf : nodes.WellFormed) : nodes.HasParent id parent := by
  obtain ⟨holder, hholder, hchild, _⟩ := rel.listed
  exact wf.hasParent_of_child hholder hchild

theorem parent_ne (wf : nodes.WellFormed) : parent ≠ id := by
  rintro rfl
  exact wf.not_under_parent (rel.hasParent_old wf) (.refl nodes _)

theorem entry_old : nodes.entryAt parent name = some id := by
  obtain ⟨holder, hholder, hchild, _⟩ := rel.listed
  exact (entryAt_of_live hholder name).trans hchild

/-- The new name is free, unless it is the one that is given up. -/
theorem entry_free (h : ¬ (target = parent ∧ entry = name)) :
    nodes.entryAt target entry = none := by
  obtain ⟨holder, hholder, hnone, _⟩ := rel.entered
  rw [← entryAt_of_live hholder, entryAt_set] at hnone
  split at hnone
  next heq =>
    obtain ⟨other, hother, _, loses⟩ := rel.listed
    rw [loses.child, if_neg fun hname => h ⟨heq, hname⟩] at hnone
    rw [heq, entryAt_of_live hother, hnone]
  next => exact hnone

/-- The directories lose and gain a name where they stand. -/
theorem sameUse_target :
    ∃ old, nodes target = some old ∧ old.SameUse gained := by
  obtain ⟨holder, hholder, _, loses⟩ := rel.listed
  obtain ⟨holder', hholder', _, gains⟩ := rel.entered
  rw [set_apply] at hholder'
  by_cases h : target = parent
  · subst h
    rw [if_pos rfl, Option.some_inj] at hholder'
    subst hholder'
    exact ⟨holder, hholder, loses.toSameUse.trans gains.toSameUse⟩
  · rw [if_neg h] at hholder'
    exact ⟨holder', hholder', gains.toSameUse⟩

theorem entryAt (wf : nodes.WellFormed) (d : InodeId) (n : Name) :
    (nodes.relocate id parent target lost gained moved).entryAt d n =
      if d = target ∧ n = entry then some id
      else if d = parent ∧ n = name then none else nodes.entryAt d n := by
  have hne := rel.target_ne
  have hne' := rel.parent_ne wf
  obtain ⟨holder, hholder, _, loses⟩ := rel.listed
  obtain ⟨holder', hholder', _, gains⟩ := rel.entered
  obtain ⟨inode, hinode, rfl⟩ := rel.placed
  have hbefore : holder'.child? n = if target = parent ∧ n = name then none
      else nodes.entryAt target n := by
    rw [← entryAt_of_live hholder', entryAt_set]
    by_cases h : target = parent
    · simp [h, loses.child, entryAt_of_live hholder]
    · simp [h]
  have hmoved :
      Inode.child? { inode with name := entry, parent := some target } n =
        nodes.entryAt id n := (entryAt_of_live hinode n).symm
  rw [relocate, entryAt_set, entryAt_set, entryAt_set, hmoved, gains.child,
    hbefore, loses.child, ← entryAt_of_live hholder]
  grind

theorem placedAt (x : InodeId) (n : Name) (d : InodeId) :
    (nodes.relocate id parent target lost gained moved).PlacedAt x n d ↔
      if x = id then n = entry ∧ d = target else nodes.PlacedAt x n d := by
  obtain ⟨holder, hholder, _, loses⟩ := rel.listed
  obtain ⟨old, hold, same⟩ := rel.sameUse_target
  obtain ⟨inode, hinode, rfl⟩ := rel.placed
  rw [relocate, placedAt_set, placedAt_set, placedAt_set]
  by_cases hx : x = id
  · simp [hx, eq_comm]
  · rw [if_neg hx, if_neg hx]
    by_cases ht : x = target
    · rw [if_pos ht, ht, placedAt_of_live hold, same.name, same.parent]
    · rw [if_neg ht]
      by_cases hp : x = parent
      · rw [if_pos hp, hp, placedAt_of_live hholder, loses.name, loses.parent]
      · rw [if_neg hp]

theorem hasParent (x y : InodeId) :
    (nodes.relocate id parent target lost gained moved).HasParent x y ↔
      if x = id then y = target else nodes.HasParent x y := by
  rw [hasParent_iff_placedAt, hasParent_iff_placedAt]
  simp only [rel.placedAt]
  by_cases h : x = id <;> simp [h]

/-- Outside of the subtree everything hangs where it hung. -/
theorem hasParent_outside {x y : InodeId} (hx : ¬ nodes.Under id x) :
    (nodes.relocate id parent target lost gained moved).HasParent x y ↔
    nodes.HasParent x y := by
  rw [rel.hasParent, if_neg]
  rintro rfl
  exact hx (.refl nodes _)

/-- In the subtree everything but its top hangs where it hung. -/
theorem hasParent_inside (wf : nodes.WellFormed) {x y : InodeId}
    (link : nodes.HasParent x y) (hy : nodes.Under id y) :
    (nodes.relocate id parent target lost gained moved).HasParent x y := by
  rw [rel.hasParent, if_neg]
  · exact link
  · rintro rfl
    exact wf.not_under_parent link hy

/-- The top of the subtree hangs below the target. -/
theorem hasParent_top :
    (nodes.relocate id parent target lost gained moved).HasParent id target :=
  (rel.hasParent id target).2 (if_pos rfl ▸ rfl)

/-- Outside of the subtree everything lies where it lay. -/
theorem under_outside {x : InodeId} (hx : ¬ nodes.Under id x) :
    (nodes.relocate id parent target lost gained moved).Under top x ↔
    nodes.Under top x := by
  constructor
  · intro h
    induction h using Relation.ReflTransGen.head_induction_on with
    | refl => exact .refl nodes _
    | head hfirst _ ih =>
      have hfirst := (rel.hasParent_outside hx).1 hfirst
      exact (ih fun habove => hx (habove.trans (.of_parent hfirst))).trans
        (.of_parent hfirst)
  · intro h
    induction h using Relation.ReflTransGen.head_induction_on with
    | refl => exact .refl _ _
    | head hfirst _ ih =>
      exact (ih fun habove => hx (habove.trans (.of_parent hfirst))).trans
        (.of_parent ((rel.hasParent_outside hx).2 hfirst))

/-- What lies in the subtree keeps what is above it there, and gets what is
above the target. -/
theorem under_inside (wf : nodes.WellFormed) {x : InodeId}
    (hx : nodes.Under id x) :
    (nodes.relocate id parent target lost gained moved).Under top x ↔
      (nodes.Under id top ∧ nodes.Under top x) ∨ nodes.Under top target := by
  have hbase :
      (nodes.relocate id parent target lost gained moved).Under top id ↔
      id = top ∨ nodes.Under top target := by
    rw [under_iff_of_parent rel.hasParent_top, rel.under_outside rel.outside]
  induction hx using Relation.ReflTransGen.head_induction_on with
  | refl =>
    rw [hbase]
    constructor
    · rintro (rfl | h)
      · exact .inl ⟨.refl nodes _, .refl nodes _⟩
      · exact .inr h
    · rintro (⟨hlower, hupper⟩ | h)
      · obtain ⟨inode, hinode, _⟩ := rel.placed
        exact .inl (wf.under_antisymm hinode hupper hlower)
      · exact .inr h
  | @head x y hfirst hrest ih =>
    have hlink := rel.hasParent_inside wf hfirst hrest
    have hunder : nodes.Under id x := Under.trans hrest (.of_parent hfirst)
    have habove :
        (nodes.relocate id parent target lost gained moved).Under top y ↔
        (nodes.Under id top ∧ nodes.Under top y) ∨ nodes.Under top target := ih
    rw [under_iff_of_parent hlink, habove, under_iff_of_parent hfirst]
    constructor
    · rintro (rfl | ⟨hin, hup⟩ | h)
      · exact .inl ⟨hunder, .inl rfl⟩
      · exact .inl ⟨hin, .inr hup⟩
      · exact .inr h
    · rintro (⟨hin, rfl | hup⟩ | h)
      · exact .inl rfl
      · exact .inr (.inl ⟨hin, hup⟩)
      · exact .inr (.inr h)

/-- What is there afterwards is the inode that has moved, or stands where it
stood before. -/
theorem live {x : InodeId} {found : Inode}
    (hx : nodes.relocate id parent target lost gained moved x = some found) :
    x = id ∧ found = moved ∨ x ≠ id ∧ ∃ old, nodes x = some old ∧
    old.SameUse found := by
  obtain ⟨holder, hholder, _, loses⟩ := rel.listed
  obtain ⟨old, hold, same⟩ := rel.sameUse_target
  rw [relocate, set_apply, set_apply, set_apply] at hx
  split at hx
  next h => exact .inl ⟨h, (Option.some_inj.1 hx).symm⟩
  next h =>
    refine .inr ⟨h, ?_⟩
    split at hx
    next h =>
      rw [Option.some_inj] at hx
      subst hx h
      exact ⟨old, hold, same⟩
    next =>
      split at hx
      next h =>
        rw [Option.some_inj] at hx
        subst hx h
        exact ⟨holder, hholder, loses.toSameUse⟩
      next => exact ⟨found, hx, .refl found⟩

/-- What else was there before stands where it stood. -/
theorem live_new {x : InodeId} {old : Inode} (hx : nodes x = some old)
    (hne : x ≠ id) :
    ∃ found, nodes.relocate id parent target lost gained moved x = some found ∧
      old.SameUse found := by
  obtain ⟨holder, hholder, _, loses⟩ := rel.listed
  obtain ⟨before, hbefore, same⟩ := rel.sameUse_target
  rw [relocate, set_apply, set_apply, set_apply, if_neg hne]
  split
  next h =>
    obtain rfl := Option.some_inj.1 (hbefore.symm.trans (h ▸ hx))
    exact ⟨gained, rfl, same⟩
  next =>
    split
    next h =>
      obtain rfl := Option.some_inj.1 (hholder.symm.trans (h ▸ hx))
      exact ⟨lost, rfl, loses.toSameUse⟩
    next => exact ⟨old, hx, .refl old⟩

/-- Every inode that is there was there before, and a directory if it was
one. -/
theorem live_old {x : InodeId} {found : Inode}
    (hx : nodes.relocate id parent target lost gained moved x = some found) :
    ∃ old, nodes x = some old ∧ found.id = old.id ∧
      found.isDirectory = old.isDirectory := by
  rcases rel.live hx with ⟨rfl, rfl⟩ | ⟨_, old, hold, same⟩
  · obtain ⟨inode, hinode, rfl⟩ := rel.placed
    exact ⟨inode, hinode, rfl, rfl⟩
  · exact ⟨old, hold, same.id, same.isDirectory⟩

/-- Outside of the subtree everything lies as deep as before. -/
theorem depth_outside {x : InodeId} {depth : Nat} (hdepth : nodes.Depth x depth)
    (hx : ¬ nodes.Under id x) :
    (nodes.relocate id parent target lost gained moved).Depth x depth := by
  induction hdepth with
  | root => exact .root
  | child link _ ih =>
    exact .child ((rel.hasParent_outside hx).2 link)
      (ih fun h => hx (h.trans (.of_parent link)))

/-- In the subtree everything lies at some depth below the target. -/
theorem exists_depth_inside (wf : nodes.WellFormed) {x : InodeId}
    (hx : nodes.Under id x) :
    ∃ depth, (nodes.relocate id parent target lost gained moved).Depth x
      depth := by
  induction hx using Relation.ReflTransGen.head_induction_on with
  | refl =>
    obtain ⟨holder, hholder, _⟩ := rel.sameUse_target
    obtain ⟨depth, hdepth⟩ := wf.descends hholder
    exact ⟨depth + 1,
      .child rel.hasParent_top (rel.depth_outside hdepth rel.outside)⟩
  | head hfirst hrest ih =>
    obtain ⟨depth, hdepth⟩ := ih
    exact ⟨depth + 1, .child (rel.hasParent_inside wf hfirst hrest) hdepth⟩

theorem wellFormed (wf : nodes.WellFormed) :
    (nodes.relocate id parent target lost gained moved).WellFormed where
  ids {x found} hx := by
    obtain ⟨old, hold, hid, _⟩ := rel.live_old hx
    rw [hid, wf.ids hold]
  root := by
    obtain ⟨root, hroot, hdir, hnone⟩ := wf.root
    have hne : (.root : InodeId) ≠ id := by
      rintro rfl
      exact wf.root_no_parent parent (rel.hasParent_old wf)
    obtain ⟨found, hfound, same⟩ := rel.live_new hroot hne
    exact ⟨found, hfound, same.isDirectory.trans hdir, same.parent.trans hnone⟩
  edge {d n x} := by
    rw [rel.entryAt wf, rel.placedAt]
    have hold := rel.entry_old
    have hfree := rel.entry_free
    have hsame : nodes.entryAt d n = some id → d = parent ∧ n = name :=
      fun h => wf.entryAt_unique h hold
    rw [← wf.edge]
    grind
  descends {x found} hx := by
    obtain ⟨old, hold, -⟩ := rel.live_old hx
    obtain ⟨depth, hdepth⟩ := wf.descends hold
    by_cases hunder : nodes.Under id x
    · exact rel.exists_depth_inside wf hunder
    · exact ⟨depth, rel.depth_outside hdepth hunder⟩

end Relocation

end Nodes

end QuotaTree
