/-
The inodes of a subtree before a change of the tree, told from those after it.
What is entered, taken out or moved counts with everything below it.
-/
import QuotaTree.Proofs.Usage.Books

namespace QuotaTree

namespace Nodes

variable {nodes after : Nodes} {id parent target top : InodeId}
  {name entry : Name} {lost gained new moved : Inode}
  {ids inside gone : Finset InodeId}

/-- What lies in a subtree lies below another inode if the parent of the subtree
does. -/
theorem under_iff_of_inside (link : nodes.HasParent id parent)
    (htop : ¬ nodes.Under id top) {x : InodeId} (hx : nodes.Under id x) :
    nodes.Under top x ↔ nodes.Under top parent := by
  have hne : id ≠ top := by
    rintro rfl
    exact htop (.refl _ _)
  have habove : nodes.Under top id ↔ nodes.Under top parent := by
    rw [under_iff_of_parent link]
    simp [hne]
  rw [← habove]
  exact ⟨fun h => (h.total hx).resolve_right htop, fun h => h.trans hx⟩

namespace Insertion

variable (ins : nodes.Insertion parent id name gained new)
  (wf : nodes.WellFormed)
include ins wf

theorem mem_spans_iff (hne : top ≠ id)
    (spans : (nodes.insert parent id gained new).Spans top ids) :
    id ∈ ids ↔ parent ∈ ids := by
  rw [spans, spans, ins.under_self wf, ins.under_of_ne wf ins.parent_ne]
  simp [hne.symm]

theorem spans_erase (hne : top ≠ id)
    (spans : (nodes.insert parent id gained new).Spans top ids) :
    nodes.Spans top (ids.erase id) := by
  intro x
  rw [Finset.mem_erase, spans]
  constructor
  · rintro ⟨hx, h⟩
    exact (ins.under_of_ne wf hx).1 h
  · intro h
    have hx : x ≠ id := by
      rintro rfl
      rcases Relation.ReflTransGen.cases_head h with rfl |
        ⟨y, ⟨found, hfound, _⟩, _⟩
      · exact hne rfl
      · exact ne_of_live_of_dead hfound ins.fresh rfl
    exact ⟨hx, (ins.under_of_ne wf hx).2 h⟩

/-- Nothing lies below a new inode. -/
theorem spans_self (spans : (nodes.insert parent id gained new).Spans id ids) :
    ids = {id} := by
  ext x
  rw [spans, Finset.mem_singleton]
  refine ⟨fun hunder => by_contra fun hne => ?_, fun h => h ▸ .refl _ _⟩
  rcases Relation.ReflTransGen.cases_tail ((ins.under_of_ne wf hne).1 hunder)
    with
    h | ⟨below, _, hlink⟩
  · exact hne h.symm
  · exact wf.not_hasParent_of_dead ins.fresh below hlink

end Insertion

namespace Pruning

variable (pruning : nodes.Pruning after parent id name lost)
  (hgone : nodes.Spans id gone) (hkept : ¬ nodes.Under id top)
  (spans : after.Spans top ids)
include pruning hgone hkept spans

theorem disjoint_spans : Disjoint ids gone := by
  rw [Finset.disjoint_left]
  intro x hx hout
  rw [hgone] at hout
  rcases Relation.ReflTransGen.cases_head ((spans x).1 hx) with rfl |
    ⟨y, ⟨inode, hinode, _⟩, _⟩
  · exact hkept hout
  · exact (pruning.live hinode).1 hout

/-- What is taken out was below the inodes that are above its parent. -/
theorem spans_union (wf : nodes.WellFormed) :
    nodes.Spans top (ids ∪ if parent ∈ ids then gone else ∅) := by
  have hparent : parent ∈ ids ↔ nodes.Under top parent := by
    rw [spans, pruning.under_of_kept (pruning.not_under_parent wf)]
  intro x
  rw [Finset.mem_union]
  by_cases hx : nodes.Under id x
  · have hgoes : x ∈ gone := (hgone x).2 hx
    have hnot : x ∉ ids := fun h =>
      Finset.disjoint_left.1 (disjoint_spans pruning hgone hkept spans) h hgoes
    rw [under_iff_of_inside (pruning.link wf) hkept hx, ← hparent]
    by_cases h : parent ∈ ids <;> simp [h, hnot, hgoes]
  · have hstays : x ∉ gone := fun h => hx ((hgone x).1 h)
    rw [spans, pruning.under_of_kept hx]
    by_cases h : parent ∈ ids <;> simp [h, hstays]

end Pruning

namespace Relocation

variable (rel : nodes.Relocation id parent target name entry lost gained moved)
  (wf : nodes.WellFormed)
  (spans : (nodes.relocate id parent target lost gained moved).Spans top ids)
include rel wf spans

theorem parent_mem_iff : parent ∈ ids ↔ nodes.Under top parent := by
  rw [spans, rel.under_outside (wf.not_under_parent (rel.hasParent_old wf))]

omit wf in
theorem target_mem_iff : target ∈ ids ↔ nodes.Under top target := by
  rw [spans, rel.under_outside rel.outside]

/-- A top inside of the subtree moves with everything below it. -/
theorem spans_inside (htop : nodes.Under id top) :
    nodes.Spans top ids ∧ parent ∉ ids ∧ target ∉ ids := by
  refine ⟨fun x => ?_, fun h => ?_, fun h => ?_⟩
  · rw [spans]
    by_cases hx : nodes.Under id x
    · have hout : ¬ nodes.Under top target :=
        fun h => rel.outside (htop.trans h)
      simp [rel.under_inside wf hx, htop, hout]
    · exact rel.under_outside hx
  · exact wf.not_under_parent (rel.hasParent_old wf)
      (htop.trans ((parent_mem_iff rel wf spans).1 h))
  · exact rel.outside (htop.trans ((target_mem_iff rel spans).1 h))

variable (hinside : nodes.Spans id inside) (htop : ¬ nodes.Under id top)
include hinside htop

/-- Below a top outside of the subtree lies all of it or nothing, as its new
parent does. -/
theorem mem_spans_iff {x : InodeId} (hx : x ∈ inside) :
    x ∈ ids ↔ target ∈ ids := by
  rw [spans, rel.under_inside wf ((hinside x).1 hx), target_mem_iff rel spans]
  simp [htop]

/-- What is moved was below the inodes that are above its old parent. -/
theorem spans_outside :
    nodes.Spans top ((ids \ inside) ∪ if parent ∈ ids then inside else ∅) := by
  intro x
  rw [Finset.mem_union, Finset.mem_sdiff, hinside]
  by_cases hx : nodes.Under id x
  · rw [under_iff_of_inside (rel.hasParent_old wf) htop hx,
      ← parent_mem_iff rel wf spans]
    by_cases h : parent ∈ ids <;> simp [h, hx, hinside x]
  · rw [spans, rel.under_outside hx]
    by_cases h : parent ∈ ids <;> simp [h, hx, hinside x]

end Relocation

end Nodes

end QuotaTree
