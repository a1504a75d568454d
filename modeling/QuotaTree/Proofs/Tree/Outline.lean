/-
The outline of a subtree: its inodes from the top down, each directory followed
by what lies under it before the next one comes.  An outline holds a subtree
exactly, and its order is told by what lies under what and by the names of
entries.
-/
import QuotaTree.Listing
import QuotaTree.Proofs.Subtrees

namespace QuotaTree

open Nodes

theorem Inode.status_id (inode : Inode) : inode.status.id = inode.id := by
  unfold status
  cases inode.content <;> rfl

namespace Entry

def id (entry : Entry) : InodeId :=
  entry.status.id

def ofInode (depth : Nat) (inode : Inode) : Entry where
  depth := depth
  shown := inode.name.text
  status := inode.status
  quota := inode.quota

end Entry

namespace Nodes

variable {nodes : Nodes} {first second left right parent id : InodeId}
  {inode : Inode}

def Precedes (nodes : Nodes) (left right : InodeId) : Prop :=
  ∃ parent inode other, nodes left = some inode ∧ inode.parent = some parent ∧
    nodes right = some other ∧ other.parent = some parent ∧
    compare inode.name other.name = .lt

/-- An inode comes before what lies under it, and what lies under an entry of a
directory before what lies under a later one. -/
inductive Comes (nodes : Nodes) (first second : InodeId) : Prop
  | above (ne : first ≠ second) (under : nodes.Under first second)
  | beside {left right : InodeId} (precedes : nodes.Precedes left right)
    (upper : nodes.Under left first) (lower : nodes.Under right second)

theorem Precedes.exists_parent (h : nodes.Precedes left right) :
    ∃ parent, nodes.HasParent left parent ∧ nodes.HasParent right parent ∧
      left ≠ right := by
  obtain ⟨parent, inode, other, live, hparent, live', hparent', hlt⟩ := h
  refine ⟨parent, ⟨inode, live, hparent⟩, ⟨other, live', hparent'⟩, ?_⟩
  rintro rfl
  obtain rfl := Option.some.inj (live.symm.trans live')
  have hself : compare inode.name inode.name = .eq := Std.ReflCmp.compare_self
  cases hself.symm.trans hlt

namespace Comes

variable (wf : nodes.WellFormed)

include wf

/-- Nothing comes before what it lies under. -/
theorem not_under (comes : nodes.Comes first second) :
    ¬ nodes.Under second first := by
  intro hunder
  cases comes with
  | above ne under =>
    obtain ⟨next, ⟨inode, live, _⟩, _⟩ :=
      (Relation.ReflTransGen.cases_head under).resolve_left ne.symm
    exact ne (wf.under_antisymm live under hunder).symm
  | beside precedes upper lower =>
    obtain ⟨parent, hleft, hright, hne⟩ := precedes.exists_parent
    exact wf.not_under_sibling hleft hright hne upper (lower.trans hunder)

theorem ne (comes : nodes.Comes first second) : first ≠ second := by
  rintro rfl
  exact comes.not_under wf (.refl nodes first)

/-- What comes before another entry of the same directory does so in the order
of the names. -/
theorem precedes (comes : nodes.Comes first second)
    (link : nodes.HasParent first parent)
    (link' : nodes.HasParent second parent) : nodes.Precedes first second := by
  cases comes with
  | above ne under =>
    rcases (under_iff_of_parent link').1 under with heq | habove
    · exact absurd heq.symm ne
    · exact absurd habove (wf.not_under_parent link)
  | @beside left right hprecedes upper lower =>
    obtain ⟨_, hleft, hright, hne⟩ := hprecedes.exists_parent
    rcases (under_iff_of_parent link).1 upper with rfl | habove
    · rcases (under_iff_of_parent link').1 lower with rfl | habove'
      · exact hprecedes
      · exact absurd (.refl nodes first) (wf.not_under_sibling hright hleft
          hne.symm (habove'.trans (.of_parent link)))
    · exact absurd lower (wf.not_under_sibling hleft hright hne
        (habove.trans (.of_parent link')))

end Comes

/-- A directory lists its entries in the order of their names. -/
theorem WellFormed.pairwise_children (wf : nodes.WellFormed)
    (live : nodes id = some inode) :
    inode.children.Pairwise nodes.Precedes := by
  have hnames :
      inode.entries.Pairwise fun left right => compare left.1 right.1 =
        .lt := by
    unfold Inode.entries
    cases inode.asDirectory with
    | none => exact .nil
    | some directory => exact Std.ExtTreeMap.ordered_keys_toList
  rw [Inode.children, List.pairwise_map]
  refine hnames.imp_of_mem fun {left right} hleft hright hlt => ?_
  obtain ⟨entry, hentry, hname, hparent⟩ :=
    wf.child live (Inode.mem_entries.1 hleft)
  obtain ⟨entry', hentry', hname', hparent'⟩ :=
    wf.child live (Inode.mem_entries.1 hright)
  exact ⟨id, entry, entry', hentry, hparent, hentry',
    hparent', by rw [hname, hname', hlt]⟩

end Nodes

namespace InodeTable

/-- The entries for inodes and all that lies under them, each directory followed
by its own. -/
inductive Outline (table : InodeTable) : Nat → List InodeId → List Entry → Prop
  | nil {depth : Nat} : Outline table depth [] []
  | cons {depth : Nat} {id : InodeId} {inode : Inode} {rest : List InodeId}
      {inner outer : List Entry} (live : table.find? id = some inode)
      (below : Outline table (depth + 1) inode.children inner)
      (after : Outline table depth rest outer) :
    Outline table depth (id :: rest)
      (Entry.ofInode depth inode :: (inner ++ outer))

variable {table : InodeTable} {depth : Nat} {ids : List InodeId}
  {entries : List Entry} {id top x : InodeId} {steps : Nat}

theorem climb_of_parent (h : table.climb steps x = some id)
    (link : table.tree.HasParent id top) :
    table.climb (steps + 1) x = some top := by
  induction steps generalizing x with
  | zero =>
    obtain rfl : x = id := Option.some.inj h
    obtain ⟨inode, live, hparent⟩ := link
    rw [climb, show table.find? x = _ from live, Option.bind_some, hparent]
    rfl
  | succ steps ih =>
    obtain ⟨parent, hup, hrest⟩ := Option.bind_eq_some_iff.1 h
    rw [climb, hup, Option.bind_some, ih hrest]

namespace Outline

variable (wf : table.tree.WellFormed)

include wf

/-- The first entry is that of the first inode. -/
theorem id_ofInode {inode : Inode} (live : table.find? id = some inode) :
    (Entry.ofInode depth inode).id = id :=
  inode.status_id.trans (wf.ids live)

/-- An outline holds what lies under its inodes. -/
theorem mem_iff (outline : table.Outline depth ids entries) :
    x ∈ entries.map Entry.id ↔ ∃ top ∈ ids, table.tree.Under top x := by
  induction outline with
  | nil => simp
  | @cons depth id inode rest inner outer live below after ih ih' =>
    rw [List.map_cons, List.map_append, List.mem_cons, List.mem_append, ih, ih',
      id_ofInode wf live, List.exists_mem_cons_iff, under_iff_below, or_assoc]
    refine or_congr_right
      (or_congr_left (exists_congr fun child => and_congr_left fun _ => ?_))
    exact wf.mem_children live

/-- What an entry tells of is the inode as it is stored, so many levels down. -/
theorem tells (outline : table.Outline depth ids entries) {entry : Entry}
    (mem : entry ∈ entries) :
    ∃ inode steps, table.find? entry.id = some inode ∧
      entry = Entry.ofInode (depth + steps) inode ∧
      ∃ top ∈ ids, table.climb steps entry.id = some top := by
  induction outline with
  | nil => cases mem
  | @cons depth id inode rest inner outer live below after ih ih' =>
    rcases List.mem_cons.1 mem with rfl | hmem
    · rw [id_ofInode wf live]
      exact ⟨inode, 0, live, rfl, id, List.mem_cons_self, rfl⟩
    · rcases List.mem_append.1 hmem with hinner | houter
      · obtain ⟨found, steps, hfound, hentry, top, htop, hclimb⟩ := ih hinner
        have hlink := (wf.mem_children live).1 htop
        refine ⟨found, steps + 1, hfound, ?_, id, List.mem_cons_self,
          climb_of_parent hclimb hlink⟩
        rw [hentry, Nat.add_right_comm, Nat.add_assoc]
      · obtain ⟨found, steps, hfound, hentry, top, htop, hclimb⟩ := ih' houter
        exact ⟨found, steps, hfound, hentry, top, List.mem_cons_of_mem id htop,
          hclimb⟩

/-- The entries of an outline come in the order of a listing. -/
theorem pairwise_comes (outline : table.Outline depth ids entries)
    (sorted : ids.Pairwise table.tree.Precedes) :
    (entries.map Entry.id).Pairwise table.tree.Comes := by
  induction outline with
  | nil => exact .nil
  | @cons depth id inode rest inner outer live below after ih ih' =>
    obtain ⟨hfirst, hrest⟩ := List.pairwise_cons.1 sorted
    rw [List.map_cons, List.map_append, id_ofInode wf live, List.pairwise_cons,
      List.pairwise_append]
    have hinner : ∀ x ∈ inner.map Entry.id, table.tree.Under id x ∧ id ≠ x := by
      intro x hx
      obtain ⟨child, hchild, hunder⟩ := (below.mem_iff wf).1 hx
      have hlink := (wf.mem_children live).1 hchild
      refine ⟨(Under.of_parent hlink).trans hunder, ?_⟩
      rintro rfl
      exact wf.not_under_parent hlink hunder
    have houter :
        ∀ x ∈ outer.map Entry.id, ∃ next, table.tree.Precedes id next ∧
        table.tree.Under next x := by
      intro x hx
      obtain ⟨next, hnext, hunder⟩ := (after.mem_iff wf).1 hx
      exact ⟨next, hfirst next hnext, hunder⟩
    refine ⟨?_, ih (wf.pairwise_children live), ih' hrest, ?_⟩
    · intro x hx
      rcases List.mem_append.1 hx with hx | hx
      · exact .above (hinner x hx).2 (hinner x hx).1
      · obtain ⟨next, hprecedes, hunder⟩ := houter x hx
        exact .beside hprecedes (.refl _ id) hunder
    · intro x hx y hy
      obtain ⟨next, hprecedes, hunder⟩ := houter y hy
      exact .beside hprecedes (hinner x hx).1 hunder

end Outline

end InodeTable

end QuotaTree
