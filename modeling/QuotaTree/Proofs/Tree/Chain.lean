/-
Where chains lead.  A chain that is found along a path follows the entries of
the tree from the root; it comes back to the root never.
-/
import QuotaTree.Chain.Resolve
import QuotaTree.Proofs.Tree.Enumerate
import QuotaTree.Proofs.Tree.Naming

namespace QuotaTree

namespace Chain

variable {nodes : Nodes} {view : View} {chain start parent : Chain}
  {name : Name} {id : InodeId} {names rest : List Name} {path : String}

@[simp] theorem last_root : Chain.root.last = .root := rfl
@[simp] theorem last_child : (parent.child name id).last = id := rfl
@[simp] theorem lastName_child : (parent.child name id).lastName = name := rfl
@[simp] theorem parent?_child : (parent.child name id).parent? = some parent :=
  rfl
@[simp] theorem names_child :
    (parent.child name id).names = parent.names ++ [name] := rfl
@[simp] theorem length_child :
    (parent.child name id).length = parent.length + 1 := rfl

@[simp] theorem last_upTo_length (chain : Chain) :
    (chain.upTo chain.length).last = chain.last := by
  rw [upTo_of_length_le (Nat.le_refl _)]

/-- Only the chain to the root itself ends in the root. -/
def Proper : Chain → Prop
  | .root => True
  | .child parent _ id => parent.Proper ∧ id ≠ .root

theorem Proper.last_eq_root_iff (proper : chain.Proper) :
    chain.last = .root ↔ chain = .root := by
  cases chain with
  | root => simp
  | child parent name id => simp [proper.2]

theorem length_eq_one_iff : chain.length = 1 ↔ chain = .root := by
  cases chain with
  | root => simp [length]
  | child parent name id =>
    have := parent.length_pos
    simp only [length_child, reduceCtorEq, iff_false]
    omega

/-- Each name of the chain is an entry that leads to the inode beside it. -/
inductive Leads (nodes : Nodes) : Chain → Prop
  | root : Leads nodes .root
  | child {parent : Chain} {name : Name} {id : InodeId}
      (above : Leads nodes parent)
      (entry : nodes.entryAt parent.last name = some id) :
    Leads nodes (parent.child name id)

namespace Leads

theorem link (leads : Leads nodes (parent.child name id))
    (wf : nodes.WellFormed) : nodes.HasParent id parent.last := by
  cases leads with
  | child above entry =>
    obtain ⟨holder, hholder, hchild⟩ := Nodes.entryAt_eq_some.1 entry
    exact wf.hasParent_of_child hholder hchild

theorem proper (leads : Leads nodes chain) (wf : nodes.WellFormed) :
    chain.Proper := by
  induction leads with
  | root => exact trivial
  | child above entry ih =>
    obtain ⟨holder, hholder, hchild⟩ := Nodes.entryAt_eq_some.1 entry
    exact ⟨ih, wf.child_ne_root hholder hchild⟩

theorem live (leads : Leads nodes chain) (wf : nodes.WellFormed) :
    ∃ inode, nodes chain.last = some inode := by
  cases leads with
  | root =>
    obtain ⟨root, hroot, _⟩ := wf.root
    exact ⟨root, hroot⟩
  | child above entry =>
    obtain ⟨found, hfound, _⟩ := wf.edge.1 entry
    exact ⟨found, hfound⟩

/-- The inodes on a chain are those above its end. -/
theorem mem_ids (leads : Leads nodes chain) (wf : nodes.WellFormed)
    {x : InodeId} : x ∈ chain.ids ↔ nodes.Under x chain.last := by
  induction leads with
  | root =>
    rw [last_root, Nodes.under_of_no_parent wf.root_no_parent, ids,
      List.mem_singleton, eq_comm]
  | @child parent name id above entry ih =>
    have hlink := (Leads.child above entry).link wf
    rw [last_child, Nodes.under_iff_of_parent hlink, ids, List.mem_append,
      List.mem_singleton, ih]
    constructor
    · rintro (h | rfl)
      · exact .inr h
      · exact .inl rfl
    · rintro (rfl | h)
      · exact .inr rfl
      · exact .inl h

end Leads

theorem descend_cons_eq_ok :
    descend view path start (name :: names) = .ok (chain, rest) ↔
      ∃ inode, view.get start.last = .ok inode ∧
        ((∃ id, inode.child? name = some id ∧
            descend view path (start.child name id) names = .ok (chain, rest)) ∨
          (∀ target, inode.content ≠ .symlink target) ∧
          inode.child? name = none ∧
            start = chain ∧ name :: names = rest) := by
  rw [descend]
  simp only [Outcome.except_bind_eq_ok]
  refine exists_congr fun inode => ?_
  refine and_congr_right fun _ => ?_
  unfold Inode.child? Inode.asDirectory
  cases inode.content with
  | symlink target => simp
  | file file => simp
  | directory directory =>
    simp only [Option.bind_some]
    cases directory.children[name]? <;> simp

theorem suffix_of_descend
    (h : descend view path start names = .ok (chain, rest)) :
    rest <:+ names := by
  induction names generalizing start with
  | nil =>
    rw [descend, Outcome.except_pure_eq_ok] at h
    cases h
    exact List.suffix_refl _
  | cons name names ih =>
    obtain ⟨_, _, ⟨id, _, hrest⟩ | ⟨_, _, rfl, rfl⟩⟩ := descend_cons_eq_ok.1 h
    · exact (ih hrest).trans (List.suffix_cons _ _)
    · exact List.suffix_refl _

/-- Without following, a path is walked down along its components. -/
theorem resolveExisting_eq_ok {found : Chain × List Name} :
    resolveExisting view path false = .ok found ↔
      ∃ names, Path.components path = .ok names ∧
        descend view path .root names = .ok found := by
  simp only [resolveExisting, Bool.false_eq_true, if_false,
    Outcome.except_bind_eq_ok]

theorem resolveExisting_of_components
    (components : Path.components path = .ok names) :
    resolveExisting view path false = descend view path .root names := by
  rw [resolveExisting, if_neg Bool.false_ne_true, components]
  rfl

/-- Components that are missing are proper names. -/
theorem proper_of_missing
    (h : resolveExisting view path false = .ok (chain, rest)) :
    ∀ name ∈ rest, name.Proper := by
  obtain ⟨names, hnames, hdescend⟩ := resolveExisting_eq_ok.1 h
  exact fun name hname =>
    Path.proper_of_components hnames ((suffix_of_descend hdescend).subset hname)

/-- A walk down along names follows the entries of the tree, and takes the names
in order. -/
theorem Leads.descend (reads : view.Reads nodes) (leads : Leads nodes start)
    (h : Chain.descend view path start names = .ok (chain, rest)) :
    Leads nodes chain ∧ ∃ walked, names = walked ++ rest ∧
    chain.names = start.names ++ walked := by
  induction names generalizing start with
  | nil =>
    rw [Chain.descend, Outcome.except_pure_eq_ok] at h
    cases h
    exact ⟨leads, [], rfl, (List.append_nil _).symm⟩
  | cons name names ih =>
    obtain ⟨inode, hget, ⟨id, hchild, hrest⟩ | ⟨_, _, rfl, rfl⟩⟩ :=
      descend_cons_eq_ok.1 h
    · have hentry : nodes.entryAt start.last name = some id :=
        (Nodes.entryAt_of_live (reads.get hget) name).trans hchild
      obtain ⟨hleads, walked, hnames, hchain⟩ := ih (.child leads hentry) hrest
      refine ⟨hleads, name :: walked, by rw [hnames]; rfl, ?_⟩
      rw [hchain, names_child, List.append_assoc]
      rfl
    · exact ⟨leads, [], rfl, (List.append_nil _).symm⟩

theorem Leads.follow (reads : view.Reads nodes) {hops : Nat}
    (h : Chain.follow view hops path = .ok (chain, rest)) :
    Leads nodes chain := by
  induction hops generalizing path with
  | zero =>
    rw [Chain.follow] at h
    simp only [Outcome.except_bind_eq_ok, Prod.exists] at h
    obtain ⟨names, _, found, left, hdescend, hend⟩ := h
    have hleads := (Leads.descend reads .root hdescend).1
    split at hend
    next =>
      cases hend
      exact hleads
    next =>
      simp only [Outcome.except_bind_eq_ok] at hend
      obtain ⟨inode, _, hend⟩ := hend
      split at hend
      next => cases hend
      next =>
        cases hend
        exact hleads
  | succ hops ih =>
    rw [Chain.follow] at h
    simp only [Outcome.except_bind_eq_ok, Prod.exists] at h
    obtain ⟨names, _, found, left, hdescend, hend⟩ := h
    have hleads := (Leads.descend reads .root hdescend).1
    split at hend
    next =>
      cases hend
      exact hleads
    next =>
      simp only [Outcome.except_bind_eq_ok] at hend
      obtain ⟨inode, _, hend⟩ := hend
      split at hend
      next => exact ih hend
      next =>
        cases hend
        exact hleads

theorem Leads.resolveExisting (reads : view.Reads nodes) {following : Bool}
    (h : Chain.resolveExisting view path following = .ok (chain, rest)) :
    Leads nodes chain := by
  cases following with
  | true => exact Leads.follow reads h
  | false =>
    obtain ⟨names, _, hdescend⟩ := resolveExisting_eq_ok.1 h
    exact (Leads.descend reads .root hdescend).1

theorem resolve_eq_ok {following : Bool} :
    resolve view path following = .ok chain ↔
      resolveExisting view path following = .ok (chain, []) := by
  unfold resolve
  simp only [Outcome.except_bind_eq_ok, Prod.exists]
  constructor
  · rintro ⟨found, left, hexisting, hend⟩
    cases left with
    | nil =>
      rw [Outcome.except_pure_eq_ok] at hend
      rw [hexisting, hend]
    | cons => cases hend
  · intro h
    exact ⟨chain, [], h, rfl⟩

theorem Leads.resolve (reads : view.Reads nodes) {following : Bool}
    (h : Chain.resolve view path following = .ok chain) : Leads nodes chain :=
  Leads.resolveExisting reads (resolve_eq_ok.1 h)

end Chain

end QuotaTree
