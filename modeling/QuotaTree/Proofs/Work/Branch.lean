/-
What is missing of a path is made as one branch: inodes with consecutive
identities, one in the other, below the directory where the path ended.  A
branch that is made one inode after the other is the branch that is described
here as a whole.
-/
import QuotaTree.Proofs.Work.Turns
import QuotaTree.Request.Create

namespace QuotaTree

def InodeId.following (id : InodeId) : InodeId := ⟨id.val + 1⟩

theorem InodeId.eq_following {id next : InodeId} (h : id.next? = some next) :
    next = id.following := by
  cases next
  exact congrArg InodeId.mk (next?_eq_some h)

/-- What an inode holds above a branch: the branch, and without one what is
given. -/
def Content.holding (content : Content) (id : InodeId) : List Name → Content
  | [] => content
  | name :: _ =>
    .directory { children := (∅ : Std.ExtTreeMap Name InodeId).insert name id }

namespace Inode

variable {permission : Permission} {content : Content}
  {parent id : InodeId} {names : List Name} {inode : Inode} {name : Name}

/-- New inodes below a directory, one in the other: each but the last is a
directory that holds the next one and nothing else. -/
def branch (permission : Permission) (content : Content) :
    InodeId → InodeId → List Name → List Inode
  | _, _, [] => []
  | parent, id, name :: rest =>
    { id, name, parent := some parent, permission,
      content := content.holding id.following rest } ::
      branch permission content id id.following rest

/-- The identities on a branch follow one another. -/
theorem map_id_branch :
    (branch permission content parent id names).map (·.id.val) =
      List.range' id.val names.length := by
  induction names generalizing parent id with
  | nil => rfl
  | cons name rest ih =>
    rw [branch, List.map_cons, ih]
    rfl

theorem le_of_mem_branch
    (h : inode ∈ branch permission content parent id names) :
    id.val ≤ inode.id.val := by
  have hmem : inode.id.val ∈ List.range' id.val names.length :=
    map_id_branch ▸ List.mem_map_of_mem h
  exact (List.mem_range'_1.1 hmem).1

theorem find?_branch_cons (x : InodeId) :
    (branch permission content parent id (name :: names)).find? (·.id = x) =
      if x = id then
        some
          { id, name, permission
            parent := some parent
            content := content.holding id.following names }
      else (branch permission content id id.following names).find?
        (·.id = x) := by
  rw [branch, List.find?_cons]
  by_cases h : x = id
  · simp [h]
  · simp [h, Ne.symm h]

theorem find?_branch_of_lt {x : InodeId} (h : x.val < id.val) :
    (branch permission content parent id names).find? (·.id = x) = none := by
  rw [List.find?_eq_none]
  intro inode hmem
  have hle := le_of_mem_branch hmem
  simp only [decide_eq_true_eq]
  rintro rfl
  omega

theorem policy_withChild (inode : Inode) (name : Name) (id : InodeId) :
    (inode.withChild name id).policy = inode.policy := by
  unfold withChild
  split
  next directory content => simp only [policy, withDirectory, content]
  next => rfl

end Inode

namespace Nodes

variable {nodes : Nodes} {permission : Permission} {content : Content}
  {parent id x : InodeId} {first second : Name} {others rest : List Name}
  {ids : List InodeId}

def grow (nodes : Nodes) (permission : Permission) (content : Content)
    (parent id : InodeId) (first : Name) (others : List Name) : Nodes :=
  fun x => ((Inode.branch permission content parent id (first :: others)).find?
    (·.id = x)).or ((nodes x).map fun inode => if x =
      parent then inode.withChild first id else inode)

theorem grow_self : nodes.grow permission content parent id first others id =
    some
      { id, permission
        name := first
        parent := some parent
        content := content.holding id.following others } := by
  rw [grow, Inode.find?_branch_cons, if_pos rfl, Option.some_or]

theorem grow_of_ne (h : x ≠ id) :
    nodes.grow permission content parent id first others x =
      ((Inode.branch permission content id id.following others).find?
        (·.id = x)).or ((nodes x).map fun inode => if x =
          parent then inode.withChild first id else inode) := by
  rw [grow, Inode.find?_branch_cons, if_neg h]

/-- A branch of one inode. -/
theorem insert_eq_grow {holder : Inode} (live : nodes parent = some holder) :
    nodes.insert parent id (holder.withChild first id)
        { id, name := first, parent := some parent, permission, content } =
      nodes.grow permission content parent id first [] := by
  funext x
  rw [insert, set_apply, set_apply]
  by_cases hid : x = id
  · rw [if_pos hid, hid, grow_self]
    rfl
  · rw [if_neg hid, grow_of_ne hid, Inode.branch,
      List.find?_nil, Option.none_or]
    by_cases hparent : x = parent
    · simp [hparent, live]
    · simp [hparent]

/-- A branch may be made from its first inode on. -/
theorem grow_grow :
    (nodes.grow permission (.directory {}) parent id first []).grow permission
      content id id.following second rest =
      nodes.grow permission content parent id first (second :: rest) := by
  funext x
  by_cases hid : x = id
  · have hlater : x.val < id.following.val := hid ▸ Nat.lt_succ_self _
    rw [grow, Inode.find?_branch_of_lt hlater, Option.none_or, hid, grow_self,
      grow_self, Option.map_some, if_pos rfl]
    rfl
  · rw [grow, grow_of_ne hid, grow_of_ne hid, Inode.branch,
      List.find?_nil, Option.none_or]
    simp only [if_neg hid, Option.map_map, Function.comp_def]

/-- The policy of the last inode of a list that has one. -/
def policyAlong (nodes : Nodes) (ids : List InodeId) : StoragePolicy :=
  (ids.filterMap fun id => (nodes id).bind Inode.policy).getLast?.getD .hot

theorem policyAlong_congr {after : Nodes}
    (same : ∀ x ∈ ids, (after x).bind Inode.policy =
      (nodes x).bind Inode.policy) :
    after.policyAlong ids = nodes.policyAlong ids := by
  rw [policyAlong, policyAlong, List.filterMap_congr same]

/-- At the end of a list an inode without a policy makes no difference. -/
theorem policyAlong_concat (h : (nodes id).bind Inode.policy = none) :
    nodes.policyAlong (ids ++ [id]) = nodes.policyAlong ids := by
  simp only [policyAlong, List.filterMap_append, List.filterMap_cons, h,
    List.filterMap_nil, List.append_nil]

/-- An inode that is only given or deprived of entries keeps its policy. -/
theorem bind_policy_map {found : Option Inode} {change : Inode → Inode}
    (same : ∀ inode, (change inode).policy = inode.policy) :
    (found.map change).bind Inode.policy = found.bind Inode.policy := by
  cases found with
  | none => rfl
  | some inode => exact same inode

/-- What was there before a branch keeps its policy. -/
theorem policy_grow (h : x.val < id.val) :
    (nodes.grow permission content parent id first others x).bind Inode.policy =
      (nodes x).bind Inode.policy := by
  rw [grow, Inode.find?_branch_of_lt h, Option.none_or]
  refine bind_policy_map fun inode => ?_
  split
  · exact inode.policy_withChild first id
  · rfl

end Nodes

/-- What lies on a chain has been made before. -/
theorem Chain.Leads.lt_next {books : Books} {chain : Chain} {x : InodeId}
    (sound : books.Sound) (leads : Leads books.nodes chain)
    (mem : x ∈ chain.ids) : x.val < books.next.val := by
  induction leads with
  | root =>
    obtain ⟨root, live, _⟩ := sound.wellFormed.root
    rw [List.mem_singleton.1 mem]
    exact sound.below live
  | child above entry ih =>
    rcases List.mem_append.1 mem with hmem | hmem
    · exact ih hmem
    · obtain ⟨found, live, _⟩ := sound.wellFormed.edge.1 entry
      rw [List.mem_singleton.1 hmem]
      exact sound.below live

/-- The policy that a chain hands down is the one nearest to its end. -/
theorem Chain.policyAlong_of_policy {view : View} {nodes : Nodes}
    {chain : Chain} {policy : StoragePolicy}
    (shows : ∀ {id inode}, view.get id = .ok inode → nodes id = some inode)
    (h : chain.policy view = .ok policy) :
    policy = nodes.policyAlong chain.ids := by
  have hfirst : ∀ chains : List Chain, firstPolicy view chains = .ok policy →
      policy = ((chains.map last).filterMap
        fun id => (nodes id).bind Inode.policy).head?.getD .hot := by
    intro chains h
    induction chains with
    | nil => exact (Except.ok.inj h).symm
    | cons chain above ih =>
      rw [firstPolicy, Outcome.except_bind_eq_ok] at h
      obtain ⟨inode, hget, hrest⟩ := h
      rw [List.map_cons, List.filterMap_cons, shows hget, Option.bind_some]
      cases hpolicy : inode.policy with
      | some found =>
        rw [hpolicy] at hrest
        exact (Except.ok.inj hrest).symm
      | none =>
        rw [hpolicy] at hrest
        exact ih hrest
  have hancestry := hfirst _ h
  rwa [map_last_ancestry, List.filterMap_reverse,
    List.head?_reverse] at hancestry

/-- A unit of work has made a branch below a directory that had no such entry,
with the identities that came next. -/
structure Transaction.Grown (tx : Transaction) (permission : Permission)
    (content : Content) (parent : InodeId) (first : Name) (others : List Name)
    (id : InodeId) (tx' : Transaction) : Prop where
  holder : ∃ holder, tx.tree parent = some holder ∧ holder.isDirectory = true ∧
    holder.child? first = none
  tree :
    tx'.tree =
      tx.tree.grow permission content parent tx.base.table.next first others
  last : id.val = tx.base.table.next.val + others.length
  next : tx'.base.table.next = id.following
  edits : tx'.edits = tx.edits

namespace Transaction.Grown

variable {tx mid tx' : Transaction} {permission : Permission}
  {content : Content} {parent made id : InodeId} {first second : Name}
  {rest : List Name}

/-- One inode gets the identity that came next. -/
theorem eq_next (grown : tx.Grown permission content parent first [] id tx') :
    id = tx.base.table.next := by
  have hlast : id.val = tx.base.table.next.val := grown.last
  cases id
  exact congrArg InodeId.mk hlast

/-- The first directory of a branch and the rest of it make one branch. -/
theorem cons
    (early : tx.Grown permission (.directory {}) parent first [] made mid)
    (late : mid.Grown permission content made second rest id tx') :
    tx.Grown permission content parent first (second :: rest) id tx' where
  holder := early.holder
  tree := by
    rw [late.tree, early.tree, early.next, early.eq_next, Nodes.grow_grow]
  last := by
    have hlast := late.last
    rw [early.next, InodeId.following, early.last] at hlast
    simp only [List.length_nil, List.length_cons] at hlast ⊢
    omega
  next := late.next
  edits := late.edits.trans early.edits

end Transaction.Grown

namespace Work

open Transaction

variable {tx mid mid' tx' : Transaction} {permission : Permission}
  {content : Content} {parent above chain : Chain} {first name : Name}
  {others names : List Name} {id : InodeId}

/-- One inode is made below the end of a chain. -/
theorem grown_linkNew (ready : tx.Ready) (halloc : alloc tx = .ok id mid)
    (h : linkNew parent { id, name, permission, content } mid = .ok chain tx') :
    tx.Grown permission content parent.last name [] id tx' ∧
    chain = parent.child name id := by
  obtain ⟨next, hnext, rfl, rfl⟩ := alloc_eq_ok.1 halloc
  obtain ⟨holder, directory, links, rfl, rfl⟩ := link_eq_ok.1 h
  have live : tx.tree parent.last = some holder := links.opened.live
  have hid : holder.id = parent.last := ready.wellFormed.ids live
  have hdirectory := Inode.asDirectory_eq_some.2 links.content
  refine ⟨⟨⟨holder, live, ?_, ?_⟩, ?_, rfl, ?_, rfl⟩, rfl⟩
  · rw [Inode.isDirectory, hdirectory]
    rfl
  · rw [Inode.child?, hdirectory]
    exact links.free
  · rw [tree_linked hid, ← Inode.withChild_of_directory links.content]
    exact Nodes.insert_eq_grow live
  · exact InodeId.eq_following hnext

/-- The directories that are missing on the way are made, and an inode below the
last of them. -/
theorem grown_of_parents (ready : tx.Ready) (proper : parent.Proper)
    (named : ∀ name ∈ first :: others, name.Proper)
    (hparents : makeDirectories permission parent
      (first :: others).dropLast tx = .ok above mid)
    (halloc : alloc mid = .ok id mid')
    (ends : (first :: others).getLast (List.cons_ne_nil first others) = name)
    (h : linkNew above { id, name, permission, content } mid' = .ok chain tx') :
    tx.Grown permission content parent.last first others id tx' ∧
    chain.last = id := by
  induction others generalizing tx parent first with
  | nil =>
    obtain ⟨rfl, rfl⟩ := Outcome.pure_eq_ok.1 hparents
    obtain rfl : first = name := ends
    obtain ⟨grown, rfl⟩ := grown_linkNew ready halloc h
    exact ⟨grown, rfl⟩
  | cons second rest ih =>
    rw [List.dropLast_cons_cons, makeDirectories] at hparents
    simp only [Outcome.bind_eq_ok] at hparents
    obtain ⟨made, last, hmade, below, next, hlink, hrest⟩ := hparents
    obtain ⟨hturns, hproper⟩ := turns_makeDirectory ready proper
      (named first List.mem_cons_self) hmade hlink
    obtain ⟨early, rfl⟩ := grown_linkNew ready hmade hlink
    obtain ⟨late, hlast⟩ := ih (hturns.ready ready) hproper
      (fun name hmem => named name (List.mem_cons_of_mem first hmem)) hrest ends
    exact ⟨early.cons late, hlast⟩

/-- To make directories is to make those on the way and then the last one. -/
theorem makeDirectories_eq (parent : Chain) (first : Name)
    (others : List Name) :
    makeDirectories permission parent (first :: others) = (do
      let above ← makeDirectories permission parent (first :: others).dropLast
      let id ← alloc
      let name := (first :: others).getLast (List.cons_ne_nil first others)
      linkNew above { id, name, permission, content := .directory {} }) := by
  induction others generalizing parent first with
  | nil => simp [makeDirectories]
  | cons second rest ih =>
    rw [List.dropLast_cons_cons, makeDirectories, makeDirectories]
    simp only [ih, bind_assoc]
    rfl

/-- Directories that are made on the way hand down the policy from above. -/
theorem policyAlong_makeDirectories (ready : tx.Ready) (proper : parent.Proper)
    (named : ∀ name ∈ names, name.Proper)
    (known : ∀ x ∈ parent.ids, x.val < tx.base.table.next.val)
    (h : makeDirectories permission parent names tx = .ok above tx') :
    tx'.tree.policyAlong above.ids = tx.tree.policyAlong parent.ids := by
  induction names generalizing tx parent with
  | nil =>
    obtain ⟨rfl, rfl⟩ := Outcome.pure_eq_ok.1 h
    rfl
  | cons name rest ih =>
    simp only [makeDirectories, Outcome.bind_eq_ok] at h
    obtain ⟨made, last, hmade, below, next, hlink, hrest⟩ := h
    obtain ⟨hturns, hproper⟩ := turns_makeDirectory ready proper
      (named name List.mem_cons_self) hmade hlink
    obtain ⟨grown, rfl⟩ := grown_linkNew ready hmade hlink
    have hid := grown.eq_next
    have hnext : next.base.table.next.val = made.val + 1 :=
      congrArg InodeId.val grown.next
    have hold :
        next.tree.policyAlong parent.ids = tx.tree.policyAlong parent.ids := by
      rw [grown.tree]
      exact Nodes.policyAlong_congr fun x hx => Nodes.policy_grow (known x hx)
    have hbelow : next.tree.policyAlong (parent.child name made).ids =
        next.tree.policyAlong parent.ids := by
      refine Nodes.policyAlong_concat ?_
      rw [grown.tree, ← hid, Nodes.grow_self]
      rfl
    rw [hid] at hnext
    rw [← hold, ← hbelow]
    refine ih (hturns.ready ready) hproper (fun other hmem => named other
      (List.mem_cons_of_mem name hmem)) (fun x hx => ?_) hrest
    rcases List.mem_append.1 hx with hmem | hmem
    · have hlt := known x hmem
      omega
    · rw [List.mem_singleton.1 hmem, hid]
      omega

end Work

end QuotaTree
