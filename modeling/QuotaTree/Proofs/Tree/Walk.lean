/-
Walking down along names.  A path leads to what its components lead to from the
root; moving a subtree changes only the walks that enter it or its new name.
-/
import QuotaTree.Proofs.Tree.Address
import QuotaTree.Proofs.Tree.Follow
import QuotaTree.Proofs.Tree.Relocate

namespace QuotaTree

namespace Nodes

variable {nodes : Nodes} {id start x : InodeId} {names : List Name}

def walk (nodes : Nodes) : List Name → InodeId → Option InodeId
  | [], id => some id
  | name :: rest, id => (nodes.entryAt id name).bind (nodes.walk rest)

theorem walk_append (nodes : Nodes) (first second : List Name) (id : InodeId) :
    nodes.walk (first ++ second) id =
      (nodes.walk first id).bind (nodes.walk second) := by
  induction first generalizing id with
  | nil => rfl
  | cons name rest ih =>
    rw [List.cons_append, walk, walk, Option.bind_assoc]
    exact congrArg _ (funext ih)

theorem WellFormed.hasParent_of_entryAt (wf : nodes.WellFormed) {name : Name}
    (h : nodes.entryAt id name = some x) : nodes.HasParent x id := by
  obtain ⟨holder, hholder, hchild⟩ := entryAt_eq_some.1 h
  exact wf.hasParent_of_child hholder hchild

/-- A walk stays below where it starts. -/
theorem WellFormed.under_of_walk (wf : nodes.WellFormed)
    (h : nodes.walk names start = some x) : nodes.Under start x := by
  induction names generalizing start with
  | nil => exact Option.some.inj h ▸ .refl nodes start
  | cons name rest ih =>
    obtain ⟨next, hentry, hrest⟩ := Option.bind_eq_some_iff.1 h
    exact (Under.of_parent (wf.hasParent_of_entryAt hentry)).trans (ih hrest)

end Nodes

namespace Chain

variable {nodes : Nodes} {chain start : Chain} {names : List Name} {x : InodeId}

theorem Leads.walk (leads : Leads nodes chain) :
    nodes.walk chain.names .root = some chain.last := by
  induction leads with
  | root => rfl
  | child above entry ih =>
    rw [names_child, Nodes.walk_append, ih, Option.bind_some, Nodes.walk, entry]
    rfl

/-- Names are walked down as far as they lead. -/
theorem descend_of_walk {table : InodeTable} {path : String}
    (h : table.tree.walk names start.last = some x) :
    ∃ chain, descend table.view path start names = .ok (chain, []) ∧
      chain.last = x := by
  induction names generalizing start with
  | nil => exact ⟨start, rfl, Option.some.inj h⟩
  | cons name rest ih =>
    obtain ⟨next, hentry, hrest⟩ := Option.bind_eq_some_iff.1 h
    obtain ⟨holder, live, hchild⟩ := Nodes.entryAt_eq_some.1 hentry
    have hnext : table.tree.walk rest (start.child name next).last = some x :=
      hrest
    obtain ⟨chain, hdescend, hlast⟩ := ih hnext
    have hget := (InodeTable.view_opens start.last).get live
    exact ⟨chain,
      descend_cons_eq_ok.2 ⟨holder, hget, .inl ⟨next, hchild, hdescend⟩⟩, hlast⟩

end Chain

namespace InodeTable

/-- Where a path leads in the stored tree; a symlink at its end is not
followed. -/
def locate (table : InodeTable) (path : String) : Except Error Chain := do
  let resolved ← Path.resolveReserved table.view path
  Chain.resolve table.view resolved false

def Finds (table : InodeTable) (path : String) (id : InodeId) : Prop :=
  ∃ chain, table.locate path = .ok chain ∧ chain.last = id

variable {table : InodeTable} {path : String} {x : InodeId}

theorem locate_eq_ok {chain : Chain} :
    table.locate path = .ok chain ↔
    ∃ resolved, Path.resolveReserved table.view path = .ok resolved ∧
      Chain.resolve table.view resolved false = .ok chain :=
  Outcome.except_bind_eq_ok

theorem finds_of_toOption
    (h : (table.locate path).toOption.map Chain.last = some x) :
    table.Finds path x := by
  obtain ⟨chain, hchain, hlast⟩ := Option.map_eq_some_iff.1 h
  cases hlocate : table.locate path with
  | error error =>
    rw [hlocate] at hchain
    cases hchain
  | ok found =>
    rw [hlocate] at hchain
    exact ⟨found, hlocate, Option.some.inj hchain ▸ hlast⟩

/-- A path leads where the names of its components do. -/
theorem exists_resolve_iff (wf : table.tree.WellFormed) :
    (∃ chain, Chain.resolve table.view path false = .ok chain ∧
      chain.last = x) ↔
      ∃ names, Path.components path = .ok names ∧
        table.tree.walk names .root = some x := by
  simp only [Chain.resolve_eq_ok, Chain.resolveExisting_eq_ok]
  constructor
  · rintro ⟨chain, ⟨names, hnames, hdescend⟩, rfl⟩
    obtain ⟨leads, walked, rfl, hchain⟩ :=
      Chain.Leads.descend (view_reads wf) .root hdescend
    refine ⟨_, hnames, ?_⟩
    rw [List.append_nil, ← leads.walk, hchain]
    rfl
  · rintro ⟨names, hnames, hwalk⟩
    obtain ⟨chain, hdescend, hlast⟩ :=
      @Chain.descend_of_walk .root _ _ _ _ hwalk
    exact ⟨chain, ⟨names, hnames, hdescend⟩, hlast⟩

theorem finds_iff (wf : table.tree.WellFormed) :
    table.Finds path x ↔
    ∃ resolved names, Path.resolveReserved table.view path = .ok resolved ∧
      Path.components resolved = .ok names ∧
      table.tree.walk names .root = some x := by
  constructor
  · rintro ⟨chain, hlocate, hlast⟩
    obtain ⟨resolved, hresolved, hchain⟩ := locate_eq_ok.1 hlocate
    obtain ⟨names, hnames, hwalk⟩ :=
      (exists_resolve_iff wf).1 ⟨chain, hchain, hlast⟩
    exact ⟨resolved, names, hresolved, hnames, hwalk⟩
  · rintro ⟨resolved, names, hresolved, hnames, hwalk⟩
    obtain ⟨chain, hchain, hlast⟩ :=
      (exists_resolve_iff wf).2 ⟨names, hnames, hwalk⟩
    exact ⟨chain, locate_eq_ok.2 ⟨resolved, hresolved, hchain⟩, hlast⟩

end InodeTable

namespace Nodes.Relocation

variable {nodes : Nodes} {id parent target x start : InodeId}
  {name entry : Name} {lost gained moved : Inode} {names rest : List Name}
  (rel : nodes.Relocation id parent target name entry lost gained moved)
  (wf : nodes.WellFormed)

include rel wf

/-- Entries of other inodes stay. -/
theorem entryAt_of_ne {other : Name} (h : nodes.entryAt start other = some x)
    (hne : x ≠ id) :
    (nodes.relocate id parent target lost gained moved).entryAt start other =
      some x := by
  have hleft : ¬ (start = parent ∧ other = name) := by
    rintro ⟨rfl, rfl⟩
    exact hne (Option.some.inj (h.symm.trans rel.entry_old))
  have hfree : ¬ (start = target ∧ other = entry) := by
    rintro ⟨rfl, rfl⟩
    cases h.symm.trans (rel.entry_free hleft)
  rw [rel.entryAt wf, if_neg hfree, if_neg hleft, h]

/-- In the subtree names lead where they led. -/
theorem walk_inside (hstart : nodes.Under id start) :
    (nodes.relocate id parent target lost gained moved).walk names start =
      nodes.walk names start := by
  induction names generalizing start with
  | nil => rfl
  | cons first rest ih =>
    have htarget : start ≠ target := by
      rintro rfl
      exact rel.outside hstart
    have hparent : start ≠ parent := by
      rintro rfl
      exact wf.not_under_parent (rel.hasParent_old wf) hstart
    rw [walk, walk, rel.entryAt wf, if_neg fun h => htarget h.1,
      if_neg fun h => hparent h.1]
    cases hentry : nodes.entryAt start first with
    | none => rfl
    | some next =>
      exact ih (hstart.trans (.of_parent (wf.hasParent_of_entryAt hentry)))

/-- What names led to outside of the subtree they lead to still. -/
theorem walk_outside (h : nodes.walk names start = some x)
    (outside : ¬ nodes.Under id x) :
    (nodes.relocate id parent target lost gained moved).walk names start =
      some x := by
  induction names generalizing start with
  | nil => exact h
  | cons first rest ih =>
    obtain ⟨next, hentry, hrest⟩ := Option.bind_eq_some_iff.1 h
    have hne : next ≠ id := by
      rintro rfl
      exact outside (wf.under_of_walk hrest)
    rw [walk, rel.entryAt_of_ne wf hentry hne]
    exact ih hrest

/-- From the new place names lead where they led from the old one. -/
theorem walk_place {before after : List Name}
    (hbefore : nodes.walk before .root = some parent)
    (hafter : nodes.walk after .root = some target) :
    (nodes.relocate id parent target lost gained moved).walk (after ++ entry ::
      rest) .root = nodes.walk (before ++ name :: rest) .root := by
  have hinside := @walk_inside _ _ _ _ id _ _ _ _ _ rest rel wf (.refl nodes id)
  have hentered :
      (nodes.relocate id parent target lost gained moved).entryAt target entry =
        some id := by
    rw [rel.entryAt wf, if_pos ⟨rfl, rfl⟩]
  rw [walk_append, walk_append, hbefore, rel.walk_outside wf hafter rel.outside,
    Option.bind_some, Option.bind_some, walk, walk, hentered, rel.entry_old,
    Option.bind_some, Option.bind_some, hinside]

/-- The old place is empty. -/
theorem walk_gone (h : nodes.walk names .root = some parent)
    (apart : ¬ (target = parent ∧ entry = name)) :
    (nodes.relocate id parent target lost gained moved).walk
      (names ++ [name]) .root = none := by
  have hparent : ¬ nodes.Under id parent :=
    wf.not_under_parent (rel.hasParent_old wf)
  have hgone :
      (nodes.relocate id parent target lost gained moved).entryAt parent name =
        none := by
    rw [rel.entryAt wf, if_neg fun h => apart ⟨h.1.symm, h.2.symm⟩,
      if_pos ⟨rfl, rfl⟩]
  rw [walk_append, rel.walk_outside wf h hparent, Option.bind_some, walk, hgone,
    Option.bind_none]

/-- Outside of the subtree chains lead where they led. -/
theorem leads {chain : Chain} (leads : Chain.Leads nodes chain)
    (outside : ¬ nodes.Under id chain.last) :
    Chain.Leads (nodes.relocate id parent target lost gained moved) chain := by
  induction leads with
  | root => exact .root
  | @child above entry last hleads hentry ih =>
    have hlink := wf.hasParent_of_entryAt hentry
    have hne : last ≠ id := by
      rintro rfl
      exact outside (.refl nodes _)
    exact .child (ih fun h => outside (h.trans (.of_parent hlink)))
      (rel.entryAt_of_ne wf hentry hne)

end Nodes.Relocation

end QuotaTree
