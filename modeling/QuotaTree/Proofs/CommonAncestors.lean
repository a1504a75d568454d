/-
The common ancestor of two chains.  The inodes that two chains share lie on one
line down from the root; the common ancestor is its lower end, and from there on
the chains go apart.
-/
import QuotaTree.Proofs.Reachable
import QuotaTree.Proofs.Tree.Shared

namespace QuotaTree

open Nodes

namespace Chain

variable {nodes : Nodes} {table : InodeTable} {chain above left right : Chain}
  {top : InodeId} {path other : String} {following following' : Bool}
  {rest rest' : List Name}

theorem beneath_child_of_ne {parent : Chain} {name : Name} {id : InodeId}
    (h : id ≠ top) :
    (parent.child name id).beneath top =
      parent.child name id :: parent.beneath top :=
  List.takeWhile_cons_of_pos (decide_eq_true h)

/-- What lies on a chain and strictly under an inode lies beneath this inode on
the chain. -/
theorem Leads.mem_beneath (wf : nodes.WellFormed) (leads : Leads nodes chain)
    (mem : above ∈ chain.ancestry) (under : nodes.Under top above.last)
    (ne : above.last ≠ top) : above ∈ chain.beneath top := by
  induction leads with
  | root =>
    obtain rfl := List.mem_singleton.1 mem
    have hroot : Chain.root.beneath top = [.root] :=
      List.takeWhile_cons_of_pos (decide_eq_true ne)
    exact hroot ▸ List.mem_cons_self
  | @child parent name id up entry ih =>
    have leads : Leads nodes (parent.child name id) := .child up entry
    have hlive : ∃ inode, nodes above.last = some inode :=
      (leads.of_mem_ancestry mem).live wf
    have habove : nodes.Under above.last id := (leads.mem_ids wf).1
      ((ids_prefix_of_mem_ancestry mem).subset above.last_mem_ids)
    -- the end of the chain is not the inode itself, which lies higher up
    have hid : id ≠ top := by
      rintro rfl
      obtain ⟨inode, live⟩ := hlive
      exact ne (wf.under_antisymm live under habove)
    rw [beneath_child_of_ne hid]
    rcases List.mem_cons.1 mem with rfl | hmem
    · exact List.mem_cons_self
    · exact List.mem_cons_of_mem _ (ih hmem)

/-- An inode lies on two chains, every other one that does lies above it, and
none below it does. -/
structure LowestShared (nodes : Nodes) (left right : Chain) (top : InodeId) :
    Prop where
  onFirst : top ∈ left.ids
  onSecond : top ∈ right.ids
  lowest : ∀ x ∈ left.ids, x ∈ right.ids → nodes.Under x top
  apart : ∀ x, nodes.Under top x → x ≠ top → x ∉ left.ids ∨ x ∉ right.ids

/-- The deepest inode that two chains share has all the others above it. -/
theorem DeepestShared.lowestShared (wf : nodes.WellFormed)
    (leads : Leads nodes left) (leads' : Leads nodes right)
    (shared : DeepestShared left right top) :
    LowestShared nodes left right top := by
  have hbelow : ∀ x ∈ left.ids, x ∈ right.ids → nodes.Under top x →
      x = top := by
    intro x hleft hright hunder
    by_contra hne
    obtain ⟨above, hmem, rfl⟩ := exists_above_of_mem hright
    exact shared.deepest above (leads'.mem_beneath wf hmem hunder hne) hleft
  constructor
  case onFirst => exact shared.onFirst
  case onSecond => exact shared.onSecond
  case lowest =>
    intro x hleft hright
    have hx := (leads.mem_ids wf).1 hleft
    have htop := (leads.mem_ids wf).1 shared.onFirst
    rcases hx.total htop with habove | hunder
    · exact habove
    · rw [hbelow x hleft hright hunder]
      exact .refl nodes top
  case apart =>
    intro x hunder hne
    by_contra hboth
    rw [not_or, not_not, not_not] at hboth
    exact hne (hbelow x hboth.1 hboth.2 hunder)

/-- Two chains have one lowest inode in common, in whichever order they are
taken. -/
theorem LowestShared.unique (wf : nodes.WellFormed) (leads : Leads nodes left)
    {bottom : InodeId} (shared : LowestShared nodes left right top)
    (shared' : LowestShared nodes right left bottom) : top = bottom := by
  have hlive : ∃ inode, nodes top = some inode := by
    obtain ⟨above, hmem, rfl⟩ := exists_above_of_mem shared.onFirst
    exact (leads.of_mem_ancestry hmem).live wf
  obtain ⟨inode, live⟩ := hlive
  have hupper : nodes.Under top bottom :=
    shared'.lowest top shared.onSecond shared.onFirst
  have hlower : nodes.Under bottom top :=
    shared.lowest bottom shared'.onSecond shared'.onFirst
  exact wf.under_antisymm live hlower hupper

theorem Leads.lowestShared (wf : nodes.WellFormed) (leads : Leads nodes left)
    (leads' : Leads nodes right) :
    LowestShared nodes left right (left.commonAncestor right) :=
  (leads.deepestShared wf leads').lowestShared wf leads leads'

/-- In a well-formed tree the common ancestor of two chains that paths lead
along does not depend on their order; it is the lowest inode on both. -/
theorem lowestShared_commonAncestor (wf : table.tree.WellFormed)
    (first : resolveExisting table.view path following = .ok (left, rest))
    (second : resolveExisting table.view other following' =
      .ok (right, rest')) :
    left.commonAncestor right = right.commonAncestor left ∧
      LowestShared table.tree left right (left.commonAncestor right) := by
  have reads := InodeTable.view_reads wf
  have leads := Leads.resolveExisting reads first
  have leads' := Leads.resolveExisting reads second
  have hshared := leads.lowestShared wf leads'
  have hshared' := leads'.lowestShared wf leads
  exact ⟨hshared.unique wf leads hshared', hshared⟩

section Forked

def forking : List Event :=
  [.call (.mkdirs "/d/a" {}), .call (.mkdirs "/d/b/c" {}),
    .call (.createSymlink "/d/b/c" "/l" {} true)]

def forked : Namespace :=
  (Namespace.fresh {}).after (forking.map Event.run)

def fork : Chain := .child .root (Name.ofText "d") ⟨2⟩

theorem lowestShared_forked :
    let left := fork.child (Name.ofText "a") ⟨3⟩
    let right := (fork.child (Name.ofText "b") ⟨4⟩).child (Name.ofText "c") ⟨5⟩
    forked.table.tree.WellFormed ∧
      resolveExisting forked.table.view "/d/a/x" false =
        .ok (left, [Name.ofText "x"]) ∧
      resolveExisting forked.table.view "/l" true = .ok (right, []) ∧
      left.commonAncestor right = right.commonAncestor left ∧
      LowestShared forked.table.tree left right ⟨2⟩ := by
  intro left right
  have sound : forked.Sound := (Namespace.sound_fresh {}).after forking
  have wf : forked.table.tree.WellFormed := sound.books.wellFormed
  have first : resolveExisting forked.table.view "/d/a/x" false = .ok (left,
        [Name.ofText "x"]) := by
    decide +kernel
  have second :
      resolveExisting forked.table.view "/l" true = .ok (right, []) := by
    decide +kernel
  obtain ⟨hsymm, hshared⟩ := lowestShared_commonAncestor wf first second
  have htop : left.commonAncestor right = ⟨2⟩ := by decide +kernel
  exact ⟨wf, first, second, hsymm, htop ▸ hshared⟩

end Forked

end Chain

end QuotaTree
