/-
The path at which an inode lives.  Whatever path has led to an inode, the path
of the chain that was found leads there as well, and is written in one way only.
-/
import QuotaTree.Proofs.Tree.Address
import QuotaTree.Proofs.Tree.Follow

namespace QuotaTree

/-- A path as it is written for proper names. -/
def Path.Canonical (path : String) : Prop :=
  ∃ names, (∀ name ∈ names, name.Proper) ∧ Path.ofNames names = path

namespace Chain

variable {view : View} {path other : String} {chain start : Chain}
  {names rest : List Name} {hops : Nat} {links : List Chain}

theorem names_of_descend
    (h : descend view path start names = .ok (chain, rest)) :
    chain.names ++ rest = start.names ++ names := by
  induction names generalizing start with
  | nil =>
    rw [descend, Outcome.except_pure_eq_ok] at h
    cases h
    rfl
  | cons name names ih =>
    obtain ⟨_, _, ⟨id, _, hrest⟩ | ⟨_, _, rfl, rfl⟩⟩ := descend_cons_eq_ok.1 h
    · rw [ih hrest, names_child, List.append_assoc]
      rfl
    · rfl

/-- A path that leads to the end of a chain is made of the names along the
chain. -/
theorem components_of_resolve (h : resolve view path false = .ok chain) :
    Path.components path = .ok chain.names := by
  obtain ⟨names, hnames, hdescend⟩ :=
    resolveExisting_eq_ok.1 (resolve_eq_ok.1 h)
  have hchain := names_of_descend hdescend
  rw [List.append_nil] at hchain
  rw [hnames, hchain]
  rfl

/-- The path is only named in errors. -/
theorem descend_of_ok (h : descend view path start names = .ok (chain, rest)) :
    descend view other start names = .ok (chain, rest) := by
  induction names generalizing start with
  | nil => exact h
  | cons name names ih =>
    rw [descend_cons_eq_ok] at h ⊢
    obtain ⟨inode, hget, ⟨id, hchild, hrest⟩ | hstop⟩ := h
    · exact ⟨inode, hget, .inl ⟨id, hchild, ih hrest⟩⟩
    · exact ⟨inode, hget, .inr hstop⟩

/-- A chain that was found can be found along its own names. -/
theorem descend_of_found (components : Path.components path = .ok names)
    (descends : descend view path .root names = .ok (chain, [])) :
    Path.Canonical chain.path ∧ Path.components chain.path = .ok chain.names ∧
      descend view chain.path .root chain.names = .ok (chain, []) := by
  have hnames : chain.names = names := by
    simpa [Chain.names] using names_of_descend descends
  have proper : ∀ name ∈ chain.names, name.Proper := fun name hname =>
    Path.proper_of_components components (hnames ▸ hname)
  exact ⟨⟨chain.names, proper, rfl⟩, Path.components_ofNames proper,
    hnames ▸ descend_of_ok descends⟩

/-- The last of the paths that were followed. -/
theorem Follows.exists_last (h : Follows view hops path links (chain, rest)) :
    ∃ last names, Path.components last = .ok names ∧
      descend view last .root names = .ok (chain, rest) := by
  generalize hfound : (chain, rest) = found at h
  induction h with
  | ends components descends =>
    cases hfound
    exact ⟨_, _, components, descends⟩
  | link _ _ _ _ _ ih => exact ih hfound

/-- From its own path no symlink is followed to the end of a chain that was
found. -/
theorem Follows.home (h : Follows view hops path links (chain, []))
    (more : Nat) : Path.Canonical chain.path ∧
    Follows view more chain.path [] (chain, []) := by
  obtain ⟨last, names, hnames, hdescend⟩ := h.exists_last
  obtain ⟨canonical, components, descends⟩ := descend_of_found hnames hdescend
  exact ⟨canonical, .ends components descends fun _ => h.stops⟩

/-- The path of a chain that was found leads to it. -/
theorem resolve_path (h : resolve view path false = .ok chain) :
    Path.Canonical chain.path ∧ resolve view chain.path false = .ok chain := by
  obtain ⟨names, hnames, hdescend⟩ :=
    resolveExisting_eq_ok.1 (resolve_eq_ok.1 h)
  obtain ⟨canonical, components, descends⟩ := descend_of_found hnames hdescend
  exact ⟨canonical,
    resolve_eq_ok.2 (resolveExisting_eq_ok.2 ⟨_, components, descends⟩)⟩

/-- A path in its canonical form is that of the chain it leads to. -/
theorem path_of_resolve (canonical : Path.Canonical path)
    (h : resolve view path false = .ok chain) : chain.path = path := by
  obtain ⟨names, proper, rfl⟩ := canonical
  obtain ⟨_, hcomponents, hdescend⟩ :=
    resolveExisting_eq_ok.1 (resolve_eq_ok.1 h)
  cases (Path.components_ofNames proper).symm.trans hcomponents
  have hnames := names_of_descend hdescend
  rw [List.append_nil] at hnames
  rw [Chain.path, hnames]
  rfl

/-- No inode lives below the reserved name. -/
theorem Leads.isReserved_path {books : Books} (sound : books.Sound)
    (leads : Leads books.nodes chain) : Path.isReserved chain.path = false :=
  Path.isReserved_ofNames (sound.proper_names leads) (sound.head_names_ne leads)

end Chain

end QuotaTree
