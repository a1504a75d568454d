/-
A subtree is taken out of a well-formed tree.  The tree stays well formed, and
what is kept does not move.
-/
import QuotaTree.Proofs.Tree.Place

namespace QuotaTree

namespace Nodes

variable {nodes after : Nodes} {id parent top : InodeId} {lost : Inode}
  {name : Name}

/-- The tree without everything under an inode, whose parent has lost the
name. -/
structure Pruning (nodes after : Nodes) (parent id : InodeId) (name : Name)
    (lost : Inode) : Prop where
  listed : ∃ holder, nodes parent = some holder ∧ holder.child? name = some id ∧
    holder.Loses lost name
  gone : ∀ {x}, nodes.Under id x → after x = none
  kept : ∀ {x}, ¬ nodes.Under id x → after x = nodes.set parent (some lost) x

namespace Pruning

variable (pruning : nodes.Pruning after parent id name lost)
include pruning

theorem hasParent (x y : InodeId) :
    after.HasParent x y ↔ ¬ nodes.Under id x ∧ nodes.HasParent x y := by
  obtain ⟨holder, hholder, _, loses⟩ := pruning.listed
  by_cases h : nodes.Under id x
  · simp [HasParent, pruning.gone h, h]
  · rw [← hasParent_set hholder loses.toSamePlace x y]
    simp [HasParent, pruning.kept h, h]

/-- What is kept lies under the same inodes as before. -/
theorem under_of_kept {x : InodeId} (hx : ¬ nodes.Under id x) :
    after.Under top x ↔ nodes.Under top x := by
  constructor
  · exact Under.mono fun y z hyz => ((pruning.hasParent y z).1 hyz).2
  · intro h
    induction h using Relation.ReflTransGen.head_induction_on with
    | refl => exact .refl after _
    | head hfirst _ ih =>
      have habove : ¬ nodes.Under id _ :=
        fun hunder => hx (hunder.trans (.of_parent hfirst))
      exact (ih habove).trans
        (.of_parent ((pruning.hasParent _ _).2 ⟨hx, hfirst⟩))

theorem link (wf : nodes.WellFormed) : nodes.HasParent id parent := by
  obtain ⟨holder, hholder, hchild, _⟩ := pruning.listed
  exact wf.hasParent_of_child hholder hchild

theorem not_under_parent (wf : nodes.WellFormed) : ¬ nodes.Under id parent :=
  wf.not_under_parent (pruning.link wf)

/-- What is there afterwards stands where it stood before. -/
theorem live {x : InodeId} {found : Inode} (hx : after x = some found) :
    ¬ nodes.Under id x ∧ ∃ old, nodes x = some old ∧ old.SameUse found := by
  have hunder : ¬ nodes.Under id x := by
    intro h
    rw [pruning.gone h] at hx
    cases hx
  refine ⟨hunder, ?_⟩
  rw [pruning.kept hunder, set_apply] at hx
  by_cases h : x = parent
  · subst h
    obtain ⟨holder, hholder, _, loses⟩ := pruning.listed
    rw [if_pos rfl, Option.some_inj] at hx
    exact ⟨holder, hholder, hx ▸ loses.toSameUse⟩
  · rw [if_neg h] at hx
    exact ⟨found, hx, .refl found⟩

theorem entryAt_of_kept (d : InodeId) (n : Name) (hd : ¬ nodes.Under id d) :
    after.entryAt d n = if d = parent ∧ n = name then
      none else nodes.entryAt d n := by
  obtain ⟨holder, hholder, _, loses⟩ := pruning.listed
  rw [Nodes.entryAt, pruning.kept hd, ← Nodes.entryAt, entryAt_set]
  by_cases h : d = parent
  · subst h
    rw [if_pos rfl, loses.child, entryAt_of_live hholder]
    simp
  · simp [h]

theorem placedAt (x : InodeId) (n : Name) (d : InodeId) :
    after.PlacedAt x n d ↔ ¬ nodes.Under id x ∧ nodes.PlacedAt x n d := by
  obtain ⟨holder, hholder, _, loses⟩ := pruning.listed
  by_cases h : nodes.Under id x
  · simp [PlacedAt, pruning.gone h, h]
  · have hsame : (nodes.set parent (some lost)).PlacedAt x n d ↔
        nodes.PlacedAt x n d := by
      rw [placedAt_set]
      by_cases hp : x = parent
      · subst hp
        rw [if_pos rfl, placedAt_of_live hholder, loses.name, loses.parent]
      · rw [if_neg hp]
    rw [← hsame]
    simp [PlacedAt, pruning.kept h, h]

/-- The entries that are kept are those whose inodes are kept. -/
theorem edge (wf : nodes.WellFormed) {d x : InodeId} {n : Name} :
    after.entryAt d n = some x ↔ after.PlacedAt x n d := by
  rw [pruning.placedAt, ← wf.edge]
  have hlost : nodes.entryAt parent name = some id := by
    obtain ⟨holder, hholder, hchild, _⟩ := pruning.listed
    exact (entryAt_of_live hholder name).trans hchild
  by_cases hd : nodes.Under id d
  · -- below the subtree's root everything is gone together
    have hx (h : nodes.entryAt d n = some x) : nodes.Under id x :=
      hd.trans (.of_parent (hasParent_iff_placedAt.2 ⟨n, wf.edge.1 h⟩))
    rw [Nodes.entryAt, pruning.gone hd]
    constructor
    · intro h
      cases h
    · rintro ⟨hnot, h⟩
      exact absurd (hx h) hnot
  rw [pruning.entryAt_of_kept d n hd]
  by_cases hlast : d = parent ∧ n = name
  · obtain ⟨rfl, rfl⟩ := hlast
    simp only [true_and, if_true, hlost]
    constructor
    · intro h
      cases h
    · rintro ⟨hnot, h⟩
      rw [Option.some_inj] at h
      exact absurd (h ▸ .refl nodes id) hnot
  · rw [if_neg hlast]
    refine ⟨fun h => ⟨fun hunder => ?_, h⟩, fun h => h.2⟩
    have hlink := hasParent_iff_placedAt.2 ⟨n, wf.edge.1 h⟩
    rcases (under_iff_of_parent hlink).1 hunder with heq | habove
    · subst heq
      exact hlast (wf.entryAt_unique h hlost)
    · exact hd habove

theorem wellFormed (wf : nodes.WellFormed) : after.WellFormed where
  ids {x found} hx := by
    obtain ⟨_, old, hold, same⟩ := pruning.live hx
    rw [same.id, wf.ids hold]
  root := by
    obtain ⟨root, hroot, hdir, hnone⟩ := wf.root
    have hne : ¬ nodes.Under id .root := by
      intro h
      rw [under_of_no_parent wf.root_no_parent] at h
      exact wf.root_no_parent parent (h ▸ pruning.link wf)
    rw [pruning.kept hne, set_apply]
    by_cases h : .root = parent
    · subst h
      obtain ⟨holder, hholder, _, loses⟩ := pruning.listed
      rw [hroot, Option.some_inj] at hholder
      subst hholder
      exact ⟨lost, if_pos rfl, loses.isDirectory.trans hdir,
        loses.parent.trans hnone⟩
    · exact ⟨root, (if_neg h).trans hroot, hdir, hnone⟩
  edge := pruning.edge wf
  descends {x found} hx := by
    obtain ⟨hunder, old, hold, _⟩ := pruning.live hx
    obtain ⟨depth, hdepth⟩ := wf.descends hold
    refine ⟨depth, ?_⟩
    clear hx hold
    induction hdepth with
    | root => exact .root
    | child link _ ih =>
      have habove : ¬ nodes.Under id _ :=
        fun h => hunder (h.trans (.of_parent link))
      exact .child ((pruning.hasParent _ _).2 ⟨hunder, link⟩) (ih habove)

end Pruning

end Nodes

end QuotaTree
