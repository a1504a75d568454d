/-
Listing a subtree and summing up its usage.  A list that grows while it is read
holds what lies under its first inode, each inode once and after its parent; and
the subtrees of a directory's entries make up all of its subtree but the
directory itself.
-/
import QuotaTree.Proofs.Files.Requests
import QuotaTree.Proofs.Request.Summing

namespace QuotaTree

open Nodes

namespace Nodes

variable {nodes : Nodes} {id top : InodeId} {inode : Inode}
  {ids : Finset InodeId}

theorem entriesOf_append (nodes : Nodes) (first second : List InodeId) :
    nodes.entriesOf (first ++ second) =
      nodes.entriesOf first ++ nodes.entriesOf second := by
  rw [entriesOf, List.filterMap_append, List.flatMap_append]
  rfl

/-- Nothing lies under two entries of one directory. -/
theorem WellFormed.not_under_sibling (wf : nodes.WellFormed)
    {first second x : InodeId} (link : nodes.HasParent first top)
    (link' : nodes.HasParent second top) (ne : first ≠ second)
    (under : nodes.Under first x) : ¬ nodes.Under second x := by
  intro hunder
  rcases under.total hunder with hbelow | hbelow
  · rcases (under_iff_of_parent link').1 hbelow with heq | habove
    · exact ne heq.symm
    · exact wf.not_under_parent link habove
  · rcases (under_iff_of_parent link).1 hbelow with heq | habove
    · exact ne heq
    · exact wf.not_under_parent link' habove

/-- A subtree is its top with the subtrees of what the top lists. -/
theorem WellFormed.spans_entries (wf : nodes.WellFormed)
    (live : nodes id = some inode) {below : InodeId → Finset InodeId}
    (spans : nodes.Spans id ids)
    (each : ∀ child ∈ inode.children, nodes.Spans child (below child)) :
    ids = Insert.insert id (inode.children.toFinset.biUnion below) := by
  apply spans.unique
  intro x
  rw [Finset.mem_insert, Finset.mem_biUnion, under_iff_below]
  apply or_congr_right
  constructor
  · rintro ⟨child, hchild, hx⟩
    have hmem : child ∈ inode.children := List.mem_toFinset.1 hchild
    exact ⟨child, (wf.mem_children live).1 hmem, (each child hmem x).1 hx⟩
  · rintro ⟨child, hlink, hunder⟩
    have hmem : child ∈ inode.children := (wf.mem_children live).2 hlink
    exact ⟨child, List.mem_toFinset.2 hmem, (each child hmem x).2 hunder⟩

/-- What a subtree uses is what its top uses with what the subtrees of its
entries use. -/
theorem WellFormed.sum_own_entries (wf : nodes.WellFormed)
    (live : nodes id = some inode) {below : InodeId → Finset InodeId}
    (spans : nodes.Spans id ids)
    (each : ∀ child ∈ inode.children, nodes.Spans child (below child)) :
    ∑ x ∈ ids, nodes.own x = inode.ownUsage + Counts.sum
      (inode.children.map fun child => ∑ x ∈ below child, nodes.own x) := by
  have hlink : ∀ child ∈ inode.children, nodes.HasParent child id :=
    fun child hchild => (wf.mem_children live).1 hchild
  have htop : id ∉ inode.children.toFinset.biUnion below := by
    intro hmem
    obtain ⟨child, hchild, hunder⟩ := Finset.mem_biUnion.1 hmem
    rw [List.mem_toFinset] at hchild
    exact wf.not_under_parent (hlink child hchild)
      ((each child hchild id).1 hunder)
  have hapart :
      (inode.children.toFinset : Set InodeId).PairwiseDisjoint below := by
    intro first hfirst second hsecond hne
    rw [List.coe_toFinset] at hfirst hsecond
    apply Finset.disjoint_left.2
    intro x hx hx'
    exact wf.not_under_sibling (hlink first hfirst) (hlink second hsecond) hne
      ((each first hfirst x).1 hx) ((each second hsecond x).1 hx')
  rw [wf.spans_entries live spans each, Finset.sum_insert htop,
    own_of_live live, Finset.sum_biUnion hapart,
    Counts.sum_map_of_nodup (wf.children_nodup live)]

end Nodes

namespace InodeTable

variable {table : InodeTable} {id top x : InodeId} {inode : Inode}
  {level ids : List InodeId} {steps : Nat}

/-- Parent links lead from an inode to another one exactly if climbing comes
there. -/
theorem under_iff_climb :
    table.tree.Under top x ↔ ∃ steps, table.climb steps x = some top := by
  constructor
  · exact exists_climb_of_under
  · rintro ⟨steps, hclimb⟩
    induction steps generalizing x with
    | zero =>
      obtain rfl : x = top := Option.some.inj hclimb
      exact .refl _ _
    | succ steps ih =>
      obtain ⟨parent, hlink, hrest⟩ := Option.bind_eq_some_iff.1 hclimb
      obtain ⟨found, hfound, hparent⟩ := Option.bind_eq_some_iff.1 hlink
      exact (ih hrest).trans (.of_parent ⟨found, hfound, hparent⟩)

/-- What a walk lists is the level it starts from and the entries of all that it
lists. -/
theorem levels_eq_append (wf : table.tree.WellFormed)
    (h : table.view.levels steps level = .ok ids) :
    ids = level ++ table.tree.entriesOf ids := by
  induction steps generalizing level ids with
  | zero =>
    cases level with
    | nil =>
      cases h
      rfl
    | cons id rest => cases h
  | succ steps ih =>
    cases level with
    | nil =>
      cases h
      rfl
    | cons id rest =>
      obtain ⟨below, deeper, hbelow, hdeeper, rfl⟩ := View.levels_cons_eq_ok.1 h
      have hentries := entriesOf_of_childrenOf wf hbelow
      rw [entriesOf_append, hentries, ← ih hdeeper]

/-- A walk lists no inode before its parent, those of its first level apart. -/
theorem sublist_of_levels (wf : table.tree.WellFormed)
    (h : table.view.levels steps level = .ok ids) (mem : x ∈ ids)
    (deep : x ∉ level) :
    ∃ parent, table.tree.HasParent x parent ∧ [parent, x].Sublist ids := by
  induction steps generalizing level ids with
  | zero =>
    cases level with
    | nil =>
      cases h
      cases mem
    | cons id rest => cases h
  | succ steps ih =>
    cases level with
    | nil =>
      cases h
      cases mem
    | cons id rest =>
      obtain ⟨below, deeper, hbelow, hdeeper, rfl⟩ := View.levels_cons_eq_ok.1 h
      have hmem : x ∈ deeper := (List.mem_append.1 mem).resolve_left deep
      by_cases hnext : x ∈ below.flatten
      · -- the next level holds the entries of this one
        obtain ⟨parent, hparent, hlink⟩ :=
          ((view_reads wf).mem_below wf hbelow x).1 hnext
        have hfirst : [parent].Sublist (id :: rest) :=
          List.singleton_sublist.2 hparent
        have hsecond : [x].Sublist deeper := List.singleton_sublist.2 hmem
        exact ⟨parent, hlink, hfirst.append hsecond⟩
      · obtain ⟨parent, hlink, hsub⟩ := ih hdeeper hmem hnext
        exact ⟨parent, hlink, hsub.trans (List.sublist_append_right _ _)⟩

/-- A list that holds the subtree of an inode from the top down, as it comes
about when the entries of one inode after the other are put at its end. -/
structure Enumerates (table : InodeTable) (id : InodeId) (ids : List InodeId) :
    Prop where
  /-- With more steps than there are inodes the walk comes to its end, and to
  the same list. -/
  ends : ∀ steps, table.size < steps → table.view.levels steps [id] = .ok ids
  queue : ids = id :: table.tree.entriesOf ids
  nodup : ids.Nodup
  holds : ∀ x, x ∈ ids ↔ ∃ steps, table.climb steps x = some id
  ordered : ∀ x ∈ ids, x ≠ id → ∃ parent, table.tree.HasParent x parent ∧
    [parent, x].Sublist ids

theorem enumerates_of_subtree (wf : table.tree.WellFormed)
    (h : table.view.subtree id = .ok ids) : table.Enumerates id ids where
  ends _ enough := View.levels_congr h (fun _ _ => rfl) enough
  queue := levels_eq_append wf h
  nodup := (view_reads wf).subtree_nodup wf h
  holds x := ((view_reads wf).mem_subtree wf h x).trans under_iff_climb
  ordered _ mem ne :=
    sublist_of_levels wf h mem fun hmem => ne (List.mem_singleton.1 hmem)

/-- The usage of a subtree is that of its top and those of the subtrees of its
entries. -/
theorem exists_usage_entries (wf : table.tree.WellFormed)
    (live : table.tree id = some inode) :
    ∃ below : InodeId → Counts,
      (∀ child ∈ inode.children, table.view.usage child = .ok (below child)) ∧
        table.view.usage id =
          .ok (inode.ownUsage + Counts.sum (inode.children.map below)) := by
  have hchild :
      ∀ child, child ∈ inode.children → ∃ ids, table.tree.Spans child ids ∧
      table.view.usage child = .ok (∑ x ∈ ids, table.tree.own x) := by
    intro child hmem
    obtain ⟨found, hfound, _⟩ := (wf.mem_children live).1 hmem
    exact exists_usage_sum wf hfound
  choose! spanned hspanned using hchild
  obtain ⟨ids, hids, husage⟩ := exists_usage_sum wf live
  refine ⟨fun child => ∑ x ∈ spanned child, table.tree.own x, ?_, ?_⟩
  · exact fun child hmem => (hspanned child hmem).2
  · rw [husage,
      wf.sum_own_entries live hids fun child hmem => (hspanned child hmem).1]

/-- In a well-formed tree the subtree of an inode can be listed, which yields
each inode whose parents lead there once, and after its parent; and its usage is
that of the inode itself with those of the subtrees below. -/
theorem enumerates_subtree (wf : table.tree.WellFormed)
    (live : table.find? id = some inode) :
    (∃ ids, table.view.subtree id = .ok ids ∧ table.Enumerates id ids) ∧
      ∃ below : InodeId → Counts,
        (∀ child ∈ inode.children, table.view.usage child = .ok (below child)) ∧
          table.view.usage id =
            .ok (inode.ownUsage + Counts.sum (inode.children.map below)) := by
  obtain ⟨ids, hids, _⟩ := exists_usage wf live
  exact ⟨⟨ids, hids, enumerates_of_subtree wf hids⟩,
    exists_usage_entries wf live⟩

section Branching

def branching : List Event :=
  [.call (.mkdirs "/d/a/x" {}), .call (.mkdirs "/d/b" {}),
    .call (.create "/d/f" { writer := ⟨"c", ""⟩ }),
    .call (.writeInline "/d/f" "c" 10)]

def branched : Namespace :=
  (Namespace.fresh {}).after (branching.map Event.run)

theorem enumerates_branched :
    let table := branched.table
    table.tree.WellFormed ∧ (∃ inode, table.find? ⟨2⟩ = some inode) ∧
      table.view.subtree ⟨2⟩ = .ok [⟨2⟩, ⟨3⟩, ⟨5⟩, ⟨6⟩, ⟨4⟩] ∧
      table.Enumerates ⟨2⟩ [⟨2⟩, ⟨3⟩, ⟨5⟩, ⟨6⟩, ⟨4⟩] ∧
      ∃ below : InodeId → Counts,
        (∀ child ∈ [⟨3⟩, ⟨5⟩,
          ⟨6⟩], table.view.usage child = .ok (below child)) ∧
          table.view.usage ⟨2⟩ =
            .ok (Counts.oneInode + Counts.sum [below ⟨3⟩, below ⟨5⟩,
              below ⟨6⟩]) := by
  intro table
  have sound : branched.Sound := (Namespace.sound_fresh {}).after branching
  have wf : table.tree.WellFormed := sound.books.wellFormed
  have hfound :
      (table.find? ⟨2⟩).map (fun inode => (inode.children, inode.ownUsage)) =
        some ([⟨3⟩, ⟨5⟩, ⟨6⟩], Counts.oneInode) := by decide +kernel
  have hlist : table.view.subtree ⟨2⟩ = .ok [⟨2⟩, ⟨3⟩, ⟨5⟩, ⟨6⟩, ⟨4⟩] := by
    decide +kernel
  obtain ⟨inode, live, hparts⟩ := Option.map_eq_some_iff.1 hfound
  obtain ⟨hchildren, hown⟩ := Prod.mk.inj hparts
  obtain ⟨⟨ids, hids, henum⟩, below, hbelow, husage⟩ :=
    enumerates_subtree wf live
  obtain rfl : ids = [⟨2⟩, ⟨3⟩, ⟨5⟩, ⟨6⟩, ⟨4⟩] :=
    Except.ok.inj (hids.symm.trans hlist)
  rw [hchildren] at hbelow husage
  rw [hown] at husage
  exact ⟨wf, ⟨inode, live⟩, hids, henum, below, hbelow, husage⟩

end Branching

end InodeTable

end QuotaTree

