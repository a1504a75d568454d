/-
The shape of a tree of inodes.  The inodes are seen as a look-up by identity, so
that the stored table and what a transaction would leave are treated alike.
Entries, parents and names are stored apart from one another; a tree is well
formed when the three agree and every inode descends from the root.
-/
import QuotaTree.InodeTable
import Mathlib.Logic.Relation
import Mathlib.Logic.Function.Basic

namespace QuotaTree

abbrev Nodes := InodeId → Option Inode

abbrev InodeTable.tree (table : InodeTable) : Nodes := table.find?

namespace Inode

def child? (inode : Inode) (name : Name) : Option InodeId :=
  inode.asDirectory.bind fun directory => directory.children[name]?

theorem mem_entries {inode : Inode} {name : Name} {id : InodeId} :
    (name, id) ∈ inode.entries ↔ inode.child? name = some id := by
  unfold entries child?
  cases inode.asDirectory with
  | none => simp
  | some directory => simp [Std.ExtTreeMap.mem_toList_iff_getElem?_eq_some]

theorem mem_children {inode : Inode} {id : InodeId} :
    id ∈ inode.children ↔ ∃ name, inode.child? name = some id := by
  simp only [children, List.mem_map, Prod.exists, mem_entries, exists_eq_right]

/-- No name is listed twice. -/
theorem entries_names_nodup (inode : Inode) :
    (inode.entries.map Prod.fst).Nodup := by
  unfold entries
  cases inode.asDirectory with
  | none => simp
  | some directory =>
    change (List.map Prod.fst directory.children.toList).Nodup
    rw [Std.ExtTreeMap.map_fst_toList_eq_keys]
    exact directory.children.nodup_keys

theorem child?_eq_none_of_not_isDirectory {inode : Inode}
    (h : inode.isDirectory = false) (name : Name) :
    inode.child? name = none := by
  unfold isDirectory at h
  unfold child?
  cases hdir : inode.asDirectory with
  | none => rfl
  | some directory => simp [hdir] at h

theorem isDirectory_of_child? {inode : Inode} {name : Name} {id : InodeId}
    (h : inode.child? name = some id) : inode.isDirectory = true := by
  by_contra hnot
  rw [child?_eq_none_of_not_isDirectory (Bool.eq_false_iff.2 hnot)] at h
  cases h

theorem asDirectory_eq_some {inode : Inode} {directory : Directory} :
    inode.asDirectory = some directory ↔
    inode.content = .directory directory := by
  unfold asDirectory
  cases inode.content <;> simp

theorem asFile_eq_some {inode : Inode} {file : File} :
    inode.asFile = some file ↔ inode.content = .file file := by
  unfold asFile
  cases inode.content <;> simp

theorem withFile_self {inode : Inode} {file : File}
    (content : inode.content = .file file) : inode.withFile file = inode := by
  rw [withFile, ← content]

end Inode

namespace Nodes

variable {nodes : Nodes} {id parent top : InodeId} {inode : Inode}

def set (nodes : Nodes) (id : InodeId) (found : Option Inode) : Nodes :=
  Function.update nodes id found

@[simp] theorem set_self (nodes : Nodes) (id : InodeId) (found : Option Inode) :
    nodes.set id found id = found :=
  Function.update_self ..

theorem set_of_ne (nodes : Nodes) {id other : InodeId} (h : other ≠ id)
    (found : Option Inode) : nodes.set id found other = nodes other :=
  Function.update_of_ne h ..

theorem set_apply (nodes : Nodes) (id other : InodeId) (found : Option Inode) :
    nodes.set id found other = if other = id then found else nodes other :=
  Function.update_apply ..

def entryAt (nodes : Nodes) (parent : InodeId) (name : Name) : Option InodeId :=
  (nodes parent).bind (·.child? name)

theorem entryAt_of_live (live : nodes id = some inode) (name : Name) :
    nodes.entryAt id name = inode.child? name := by
  simp [entryAt, live]

theorem entryAt_eq_some {name : Name} :
    nodes.entryAt parent name = some id ↔
      ∃ holder, nodes parent = some holder ∧ holder.child? name = some id := by
  simp [entryAt, Option.bind_eq_some_iff]

def PlacedAt (nodes : Nodes) (id : InodeId) (name : Name) (parent : InodeId) :
    Prop :=
  ∃ inode, nodes id = some inode ∧ inode.name = name ∧
    inode.parent = some parent

theorem placedAt_of_live {name : Name} (live : nodes id = some inode) :
    nodes.PlacedAt id name parent ↔ inode.name = name ∧
    inode.parent = some parent := by
  simp [PlacedAt, live]

theorem PlacedAt.unique {name name' : Name} {first second : InodeId}
    (hfirst : nodes.PlacedAt id name first)
    (hsecond : nodes.PlacedAt id name' second) :
    first = second ∧ name = name' := by
  obtain ⟨inode, hinode, rfl, hparent⟩ := hfirst
  obtain ⟨inode', hinode', rfl, hparent'⟩ := hsecond
  rw [hinode, Option.some_inj] at hinode'
  subst hinode'
  exact ⟨Option.some_inj.1 (hparent.symm.trans hparent'), rfl⟩

def HasParent (nodes : Nodes) (id parent : InodeId) : Prop :=
  ∃ inode, nodes id = some inode ∧ inode.parent = some parent

theorem hasParent_iff_placedAt :
    nodes.HasParent id parent ↔ ∃ name, nodes.PlacedAt id name parent := by
  constructor
  · rintro ⟨inode, hinode, hparent⟩
    exact ⟨inode.name, inode, hinode, rfl, hparent⟩
  · rintro ⟨_, inode, hinode, _, hparent⟩
    exact ⟨inode, hinode, hparent⟩

theorem HasParent.unique {first second : InodeId}
    (hfirst : nodes.HasParent id first) (hsecond : nodes.HasParent id second) :
    first = second := by
  obtain ⟨name, hplace⟩ := hasParent_iff_placedAt.1 hfirst
  obtain ⟨name', hplace'⟩ := hasParent_iff_placedAt.1 hsecond
  exact (hplace.unique hplace').1

/-- Parent links lead from an inode to `top`, in any number of steps. -/
def Under (nodes : Nodes) (top id : InodeId) : Prop :=
  Relation.ReflTransGen nodes.HasParent id top

theorem Under.refl (nodes : Nodes) (id : InodeId) : nodes.Under id id :=
  Relation.ReflTransGen.refl

theorem Under.trans {first second third : InodeId}
    (upper : nodes.Under first second) (lower : nodes.Under second third) :
    nodes.Under first third :=
  Relation.ReflTransGen.trans lower upper

theorem Under.of_parent (h : nodes.HasParent id parent) :
    nodes.Under parent id :=
  Relation.ReflTransGen.single h

/-- An inode lies under itself and under what its parent lies under. -/
theorem under_iff_of_parent (h : nodes.HasParent id parent) :
    nodes.Under top id ↔ id = top ∨ nodes.Under top parent := by
  constructor
  · intro hunder
    rcases Relation.ReflTransGen.cases_head hunder with heq |
      ⟨next, hnext, hrest⟩
    · exact .inl heq
    · exact .inr (h.unique hnext ▸ hrest)
  · rintro (rfl | hrest)
    · exact .refl nodes id
    · exact hrest.trans (.of_parent h)

theorem under_of_no_parent (h : ∀ parent, ¬ nodes.HasParent id parent) :
    nodes.Under top id ↔ id = top := by
  constructor
  · intro hunder
    rcases Relation.ReflTransGen.cases_head hunder with heq | ⟨next, hnext, _⟩
    · exact heq
    · exact absurd hnext (h next)
  · rintro rfl
    exact .refl nodes id

/-- Two inodes above a third one lie on one line. -/
theorem Under.total {first second : InodeId} (hfirst : nodes.Under first id)
    (hsecond : nodes.Under second id) :
    nodes.Under first second ∨ nodes.Under second first :=
  have unique : Relator.RightUnique nodes.HasParent :=
    fun _ _ _ => HasParent.unique
  (Relation.ReflTransGen.total_of_right_unique unique hfirst hsecond).symm

/-- The number of parent links from an inode up to the root. -/
inductive Depth (nodes : Nodes) : InodeId → Nat → Prop
  | root : Depth nodes .root 0
  | child {id parent : InodeId} {depth : Nat} (link : nodes.HasParent id parent)
      (above : Depth nodes parent depth) : Depth nodes id (depth + 1)

/-- Entries, parents and names agree, and every inode descends from the root. -/
structure WellFormed (nodes : Nodes) : Prop where
  ids : ∀ {id inode}, nodes id = some inode → inode.id = id
  root : ∃ inode, nodes .root = some inode ∧ inode.isDirectory = true ∧
    inode.parent = none
  edge : ∀ {parent name
        id}, nodes.entryAt parent name = some id ↔ nodes.PlacedAt id name parent
  descends : ∀ {id inode}, nodes id = some inode → ∃ depth, nodes.Depth id depth

namespace WellFormed

/-- What a directory lists is stored, with the name and the parent to match. -/
theorem child (wf : nodes.WellFormed) {name : Name} {below : InodeId}
    (live : nodes id = some inode) (hchild : inode.child? name = some below) :
    ∃ found, nodes below = some found ∧ found.name = name ∧
      found.parent = some id :=
  wf.edge.1 ((entryAt_of_live live name).trans hchild)

/-- Every inode but the root is listed by its parent under its name. -/
theorem entry (wf : nodes.WellFormed) (live : nodes id = some inode)
    (hne : id ≠ .root) :
    ∃ parent holder, inode.parent = some parent ∧ nodes parent = some holder ∧
      holder.child? inode.name = some id := by
  obtain ⟨depth, hdepth⟩ := wf.descends live
  cases hdepth with
  | root => exact absurd rfl hne
  | child link above =>
    obtain ⟨found, hfound, hparent⟩ := link
    rw [live, Option.some_inj] at hfound
    subst hfound
    obtain ⟨holder, hholder, hchild⟩ :=
      entryAt_eq_some.1 (wf.edge.2 ⟨inode, live, rfl, hparent⟩)
    exact ⟨_, holder, hparent, hholder, hchild⟩

theorem root_no_parent (wf : nodes.WellFormed) (parent : InodeId) :
    ¬ nodes.HasParent .root parent := by
  rintro ⟨inode, hinode, hparent⟩
  obtain ⟨root, hroot, _, hnone⟩ := wf.root
  rw [hroot, Option.some_inj] at hinode
  subst hinode
  rw [hnone] at hparent
  cases hparent

theorem hasParent_of_child (wf : nodes.WellFormed) {name : Name}
    {below : InodeId} (hnode : nodes id = some inode)
    (hchild : inode.child? name = some below) : nodes.HasParent below id := by
  obtain ⟨found, hfound, _, hparent⟩ := wf.child hnode hchild
  exact ⟨found, hfound, hparent⟩

theorem child_ne_root (wf : nodes.WellFormed) {name : Name} {below : InodeId}
    (hnode : nodes id = some inode) (hchild : inode.child? name = some below) :
    below ≠ .root := by
  rintro rfl
  exact wf.root_no_parent id (wf.hasParent_of_child hnode hchild)

/-- An entry is found under one name of one directory only. -/
theorem entryAt_unique (wf : nodes.WellFormed) {first second : InodeId}
    {name name' : Name} (hfirst : nodes.entryAt first name = some id)
    (hsecond : nodes.entryAt second name' = some id) :
    first = second ∧ name = name' :=
  (wf.edge.1 hfirst).unique (wf.edge.1 hsecond)

theorem child_unique (wf : nodes.WellFormed) {first second : InodeId}
    {inode inode' : Inode} {name name' : Name} {below : InodeId}
    (hfirst : nodes first = some inode)
    (hchild : inode.child? name = some below)
    (hsecond : nodes second = some inode')
    (hchild' : inode'.child? name' = some below) :
    first = second ∧ name = name' :=
  wf.entryAt_unique ((entryAt_of_live hfirst name).trans hchild)
    ((entryAt_of_live hsecond name').trans hchild')

theorem live_parent (wf : nodes.WellFormed) (h : nodes.HasParent id parent) :
    ∃ holder, nodes parent = some holder ∧ holder.isDirectory = true := by
  have hne : id ≠ .root := by
    rintro rfl
    exact wf.root_no_parent parent h
  obtain ⟨inode, hinode, hparent⟩ := h
  obtain ⟨parent', holder, hparent', hholder, hchild⟩ := wf.entry hinode hne
  rw [hparent, Option.some_inj] at hparent'
  subst hparent'
  refine ⟨holder, hholder, ?_⟩
  by_contra hfile
  rw [holder.child?_eq_none_of_not_isDirectory (by simpa using hfile)] at hchild
  cases hchild

theorem depth_unique (wf : nodes.WellFormed) {first second : Nat}
    (hfirst : nodes.Depth id first) (hsecond : nodes.Depth id second) :
    first = second := by
  induction hfirst generalizing second with
  | root =>
    cases hsecond with
    | root => rfl
    | child link _ => exact absurd link (wf.root_no_parent _)
  | child link _ ih =>
    cases hsecond with
    | root => exact absurd link (wf.root_no_parent _)
    | child link' above' => rw [ih (link.unique link' ▸ above')]

theorem depth_of_under (wf : nodes.WellFormed) {depth : Nat}
    (h : nodes.Under top id) (hdepth : nodes.Depth id depth) :
    id = top ∨ ∃ above < depth, nodes.Depth top above := by
  induction h
    using Relation.ReflTransGen.head_induction_on generalizing depth with
  | refl => exact .inl rfl
  | head hfirst _ ih =>
    right
    cases hdepth with
    | root => exact absurd hfirst (wf.root_no_parent _)
    | child link above =>
      rcases ih (link.unique hfirst ▸ above) with rfl | ⟨upper, hlt, hupper⟩
      · exact ⟨_, Nat.lt_succ_self _, link.unique hfirst ▸ above⟩
      · exact ⟨upper, Nat.lt_succ_of_lt hlt, hupper⟩

/-- Parent links never come back. -/
theorem under_antisymm (wf : nodes.WellFormed) (live : nodes id = some inode)
    (lower : nodes.Under top id) (upper : nodes.Under id top) : id = top := by
  obtain ⟨depth, hdepth⟩ := wf.descends live
  rcases wf.depth_of_under lower hdepth with heq | ⟨above, hlt, habove⟩
  · exact heq
  · rcases wf.depth_of_under upper habove with heq | ⟨again, hlt', hagain⟩
    · exact heq.symm
    · have := wf.depth_unique hdepth hagain
      omega

theorem not_under_parent (wf : nodes.WellFormed)
    (h : nodes.HasParent id parent) : ¬ nodes.Under id parent := by
  intro hunder
  obtain ⟨inode, hinode, hparent⟩ := h
  have heq :=
    wf.under_antisymm hinode (.of_parent ⟨inode, hinode, hparent⟩) hunder
  subst heq
  obtain ⟨depth, hdepth⟩ := wf.descends hinode
  cases hdepth with
  | root => exact wf.root_no_parent _ ⟨inode, hinode, hparent⟩
  | child link above =>
    have hself : nodes.Depth id _ :=
      link.unique ⟨inode, hinode, hparent⟩ ▸ above
    have := wf.depth_unique hself (.child link above)
    omega

/-- Every inode lies under the root. -/
theorem under_root (wf : nodes.WellFormed) (live : nodes id = some inode) :
    nodes.Under .root id := by
  obtain ⟨depth, hdepth⟩ := wf.descends live
  induction hdepth generalizing inode with
  | root => exact .refl nodes _
  | child link _ ih =>
    obtain ⟨holder, hholder, _⟩ := wf.live_parent link
    exact (ih hholder).trans (.of_parent link)

/-- What lies under an inode without entries is that inode. -/
theorem under_iff_of_no_child (wf : nodes.WellFormed)
    (live : nodes top = some inode) (leaf : ∀ name, inode.child? name = none) :
    nodes.Under top id ↔ id = top := by
  constructor
  · intro h
    rcases Relation.ReflTransGen.cases_tail h with heq | ⟨last, _, hlast⟩
    · exact heq.symm
    · have hne : last ≠ .root := by
        rintro rfl
        exact wf.root_no_parent _ hlast
      obtain ⟨found, hfound, hparent⟩ := hlast
      obtain ⟨parent, holder, hparent', hholder, hchild⟩ := wf.entry hfound hne
      rw [hparent, Option.some_inj] at hparent'
      subst hparent'
      rw [live, Option.some_inj] at hholder
      subst hholder
      rw [leaf] at hchild
      cases hchild
  · rintro rfl
    exact .refl nodes _

end WellFormed

end Nodes

end QuotaTree
