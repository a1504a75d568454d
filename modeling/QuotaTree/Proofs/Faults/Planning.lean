/-
The locks of a request are planned in the stored tree, where nothing is held
back, so that planning never fails inside.  Under them a path leads where it led
when they were planned.
-/
import QuotaTree.Proofs.Faults.Steps
import QuotaTree.Proofs.Request.Following
import QuotaTree.Proofs.Tree.Address

namespace QuotaTree

open Nodes Work Transaction

namespace Chain

variable {nodes : Nodes} {view : View} {start : Chain} {path : String}

/-- The inodes on the way of a walk are there; it is refused only at a
symlink. -/
theorem error_of_descend (wf : nodes.WellFormed)
    (opens : ∀ x, view.Opens nodes x) (leads : Leads nodes start)
    {names : List Name} {error : Error}
    (h : descend view path start names = .error error) :
    ∃ link, error = .unresolvedLink path link := by
  induction names generalizing start with
  | nil => cases h
  | cons name rest ih =>
    obtain ⟨inode, live⟩ := leads.live wf
    simp only [descend, (opens start.last).get live, bind, Except.bind] at h
    cases hcontent : inode.content with
    | symlink target =>
      simp only [hcontent] at h
      exact ⟨start.path, (Except.error.inj h).symm⟩
    | file file => simp [hcontent, pure, Except.pure] at h
    | directory directory =>
      simp only [hcontent] at h
      cases hchild : directory.children[name]? with
      | none => simp [hchild, pure, Except.pure] at h
      | some id =>
        simp only [hchild] at h
        refine ih (leads.child ?_) h
        rw [entryAt_of_live live, Inode.child?,
          Inode.asDirectory_eq_some.2 hcontent]
        exact hchild

/-- A path is refused when it is no path, or crosses a symlink. -/
theorem error_of_resolveExisting (wf : nodes.WellFormed)
    (opens : ∀ x, view.Opens nodes x) {error : Error}
    (h : resolveExisting view path false = .error error) :
    error = .invalidPath path ∨ ∃ link, error = .unresolvedLink path link := by
  simp only [resolveExisting, Bool.false_eq_true, if_false] at h
  cases hnames : Path.components path with
  | error cause =>
    rw [hnames] at h
    obtain rfl : cause = error := Except.error.inj h
    unfold Path.components at hnames
    split at hnames
    · split at hnames
      · cases hnames
      · exact .inl (Except.error.inj hnames).symm
    · exact .inl (Except.error.inj hnames).symm
  | ok names =>
    rw [hnames] at h
    exact .inr (error_of_descend wf opens .root h)

theorem harmless_resolveExisting (wf : nodes.WellFormed)
    (opens : ∀ x, view.Opens nodes x) (path : String) :
    Harmless (resolveExisting view path false) := by
  intro error h
  rcases error_of_resolveExisting wf opens h with rfl | ⟨link, rfl⟩ <;> rfl

/-- A path that leads somewhere, or of which something is missing, can be
resolved. -/
theorem harmless_resolve {found : Chain × List Name}
    (h : resolveExisting view path false = .ok found) :
    Harmless (resolve view path false) := by
  obtain ⟨chain, rest⟩ := found
  refine .bind (.of_ok h) fun found _ => ?_
  obtain ⟨chain, rest⟩ := found
  cases rest with
  | nil => exact .pure chain
  | cons => exact .throw rfl

end Chain

namespace InodeTable

variable {table : InodeTable}

theorem harmless_fullPath (wf : table.tree.WellFormed) {id : InodeId}
    {inode : Inode} (live : table.tree id = some inode) :
    Harmless (table.view.fullPath id) := by
  obtain ⟨chain, leads, rfl⟩ := Chain.exists_leads wf live
  exact .of_ok (fullPath_of_leads wf leads)

theorem harmless_ofReserved (wf : table.tree.WellFormed) (path : String)
    (number : List Char) (rest : List (List Char)) :
    Harmless (Path.ofReserved table.view path number rest) := by
  unfold Path.ofReserved
  cases InodeId.parse (String.ofList number) with
  | error error => exact .throw rfl
  | ok id =>
    dsimp only
    split
    next => exact .pure _
    next =>
      cases hparent : table.view.parentOf id with
      | error error => exact .throw rfl
      | ok parent =>
        obtain ⟨inode, hget, hfound⟩ := Outcome.except_bind_eq_ok.1 hparent
        have live := (view_reads wf).get hget
        have hpath := harmless_fullPath wf live
        dsimp only
        split
        next => exact hpath
        split
        next =>
          cases parent with
          | none => exact .pure _
          | some parent =>
            dsimp only
            split
            next => exact .pure _
            next =>
              obtain ⟨holder, hholder, _⟩ :=
                wf.live_parent ⟨inode, live, Except.ok.inj hfound⟩
              exact harmless_fullPath wf hholder
        split
        next => exact .throw rfl
        next => exact .bind hpath fun _ _ => .pure _

/-- A path by number may be refused, but it leads through inodes that are
there. -/
theorem harmless_resolveReserved (wf : table.tree.WellFormed) (path : String) :
    Harmless (Path.resolveReserved table.view path) := by
  unfold Path.resolveReserved
  split
  next =>
    split
    next => exact harmless_ofReserved wf _ _ _
    next => exact .pure _
  next => exact .pure _

/-- What a path asks to have locked can be listed if the path leads
somewhere. -/
theorem exists_demands (wf : table.tree.WellFormed) {lock : PathLock}
    {chain : Chain} {rest : List Name} (unfollowed : lock.following = false)
    (resolves : Chain.resolveExisting table.view lock.path false =
      .ok (chain, rest)) :
    ∃ list, lock.demands table.view = .ok list := by
  obtain ⟨inode, live⟩ :=
    (Chain.Leads.resolveExisting (view_reads wf) resolves).live wf
  have hbelow : ∃ below, lock.below table.view chain = .ok below := by
    unfold PathLock.below
    cases lock.scope with
    | path => exact ⟨_, rfl⟩
    | children =>
      simp only [(view_opens chain.last).childrenOf live]
      exact ⟨_, rfl⟩
    | subtree =>
      obtain ⟨ids, hids⟩ :=
        (view_reads wf).exists_subtree wf live fun x _ => view_opens x
      simp only [hids]
      exact ⟨_, rfl⟩
  obtain ⟨below, hbelow⟩ := hbelow
  unfold PathLock.demands
  simp only [unfollowed, resolves]
  cases rest with
  | cons => exact ⟨_, rfl⟩
  | nil =>
    simp only [Bool.false_eq_true, if_false, pure, Except.pure, bind,
      Except.bind, hbelow]
    exact ⟨_, rfl⟩

theorem harmless_demands (wf : table.tree.WellFormed) {lock : PathLock}
    (unfollowed : lock.following = false) :
    Harmless (lock.demands table.view) := by
  cases h : Chain.resolveExisting table.view lock.path false with
  | error error =>
    rw [PathLock.demands_of_error h]
    exact .throw
      (Chain.harmless_resolveExisting wf view_opens lock.path error h)
  | ok found =>
    obtain ⟨list, hlist⟩ := exists_demands wf unfollowed h
    exact .of_ok hlist

end InodeTable

/-- What a path that is locked leads to, and the accesses that its locks
allow. -/
structure PathLock.Grants (lock : PathLock) (view : View) (nodes : Nodes)
    (allows : InodeId → LockMode → Prop) (chain : Chain) (rest : List Name) :
    Prop where
  resolves : Chain.resolveExisting view lock.path false = .ok (chain, rest)
  along : ∀ x ∈ chain.ids, allows x .read
  last : allows chain.last lock.kind.mode
  above : rest = [] → lock.kind = .writeWithParent →
    ∀ parent, chain.parent? = some parent → allows parent.last .write
  below : rest = [] → lock.scope = .subtree →
    ∀ x, nodes.Under chain.last x → x ≠ chain.last → allows x lock.belowMode

namespace PathLock

variable {lock : PathLock} {table : InodeTable} {locks : LockSet}
  {list : List (InodeId × LockMode)}

/-- What is on the list of a path is what its locks grant. -/
theorem exists_grants (wf : table.tree.WellFormed)
    (unfollowed : lock.following = false)
    (h : lock.demands table.view = .ok list)
    (holds : ∀ item ∈ list, locks.holds item.1 item.2 = true) :
    ∃ chain rest, lock.Grants table.view table.tree
        (fun x mode => locks.holds x mode = true) chain rest := by
  unfold demands at h
  simp only [unfollowed, Bool.false_eq_true, if_false,
    Outcome.except_bind_eq_ok, Outcome.except_pure_eq_ok, Prod.exists] at h
  obtain ⟨_, rfl, chain, rest, hresolve, h⟩ := h
  have halong :
      ∀ item ∈ reading chain ++
          [(chain.last, lock.kind.mode)], item ∈ list := by
    intro item hitem
    cases rest with
    | cons => exact Except.ok.inj h ▸ List.mem_append_right [] hitem
    | nil =>
      obtain ⟨inScope, _, hlist⟩ := Outcome.except_bind_eq_ok.1 h
      obtain rfl := Except.ok.inj hlist
      exact List.mem_append_left _ (List.mem_append_left _ hitem)
  refine ⟨chain, rest, hresolve, fun x hx => ?_, ?_, ?_, ?_⟩
  · exact holds (x, .read)
      (halong _ (List.mem_append_left _ (List.mem_map_of_mem hx)))
  · exact holds (chain.last, lock.kind.mode)
      (halong _ (List.mem_append_right _ (List.mem_singleton_self _)))
  · rintro rfl hkind parent hparent
    obtain ⟨inScope, _, hlist⟩ := Outcome.except_bind_eq_ok.1 h
    obtain rfl := Except.ok.inj hlist
    refine holds (parent.last, .write) ?_
    refine List.mem_append_left _ (List.mem_append_right _ ?_)
    rw [PathLock.above, hkind, hparent]
    exact List.mem_singleton_self _
  · rintro rfl hscope x hunder hne
    obtain ⟨inScope, hbelow, hlist⟩ := Outcome.except_bind_eq_ok.1 h
    obtain rfl := Except.ok.inj hlist
    refine holds (x, lock.belowMode) (List.mem_append_right _ ?_)
    unfold PathLock.below at hbelow
    simp only [hscope, Outcome.except_bind_eq_ok, Outcome.except_map_eq_ok,
      Outcome.except_pure_eq_ok] at hbelow
    obtain ⟨_, ⟨ids, hids, rfl⟩, rfl⟩ := hbelow
    refine List.mem_map_of_mem ?_
    obtain ⟨_, deeper, _, _, rfl⟩ := View.levels_cons_eq_ok.1 hids
    have hmem := ((InodeTable.view_reads wf).mem_subtree wf hids x).2 hunder
    exact (List.mem_cons.1 hmem).resolve_left hne

end PathLock

namespace LockDemand

variable {paths : List PathLock} {table : InodeTable} {locks : LockSet}

/-- The locks for paths that lead somewhere can be planned. -/
theorem exists_plan (wf : table.tree.WellFormed)
    (resolves : ∀ lock ∈ paths, lock.following = false ∧
      ∃ chain rest, Chain.resolveExisting table.view lock.path false =
        .ok (chain, rest)) :
    ∃ locks, ({ paths } : LockDemand).plan table.view = .ok locks := by
  have hlists : ∃ lists,
      paths.mapM (fun lock => lock.demands table.view) = .ok lists := by
    induction paths with
    | nil => exact ⟨[], rfl⟩
    | cons lock rest ih =>
      obtain ⟨unfollowed, chain, left, hresolve⟩ :=
        resolves lock List.mem_cons_self
      obtain ⟨list, hlist⟩ := InodeTable.exists_demands wf unfollowed hresolve
      obtain ⟨lists, hrest⟩ :=
        ih fun other hother => resolves other (List.mem_cons_of_mem _ hother)
      refine ⟨list :: lists, ?_⟩
      rw [List.mapM_cons, hlist]
      simp only [hrest, bind, Except.bind, pure, Except.pure]
  obtain ⟨lists, hlists⟩ := hlists
  unfold plan
  simp only [hlists]
  exact ⟨_, rfl⟩

theorem harmless_plan (wf : table.tree.WellFormed)
    (unfollowed : ∀ lock ∈ paths, lock.following = false) :
    Harmless (({ paths } : LockDemand).plan table.view) :=
  .bind (.mapM fun lock hlock => InodeTable.harmless_demands wf
    (unfollowed lock hlock))
    fun _ _ => .bind (.pure []) fun _ _ => .pure _

/-- A plan grants what is asked for along each of its paths. -/
theorem grants_of_plan (wf : table.tree.WellFormed)
    (unfollowed : ∀ lock ∈ paths, lock.following = false)
    (h : ({ paths } : LockDemand).plan table.view = .ok locks) :
    ∀ lock ∈ paths, ∃ chain rest,
      lock.Grants table.view table.tree
        (fun x mode => locks.holds x mode = true) chain rest := by
  unfold plan at h
  simp only [Outcome.except_bind_eq_ok, Outcome.except_pure_eq_ok] at h
  obtain ⟨lists, hlists, chains, _, rfl⟩ := h
  intro lock hlock
  obtain ⟨list, hlist, hdemands⟩ := Outcome.exists_answer_of_mapM hlists hlock
  refine PathLock.exists_grants wf (unfollowed lock hlock) hdemands
    fun item hitem => ?_
  rw [LockSet.holds_ofList]
  refine ⟨item, ?_, rfl, LockMode.covers_self _⟩
  exact List.mem_append_left _
    (List.mem_append_left _ (List.mem_flatten.2 ⟨list, hlist, hitem⟩))

end LockDemand

/-- What a path that a unit of work has locked leads to in it, and the accesses
allowed. -/
abbrev Transaction.Grants (tx : Transaction) (lock : PathLock) (chain : Chain)
    (rest : List Name) : Prop :=
  lock.Grants tx.view tx.tree tx.Allows chain rest

section Granted

variable {tx : Transaction} {lock : PathLock} {chain : Chain} {rest : List Name}
  {α : Type}

theorem Transaction.Grants.leads (grants : tx.Grants lock chain rest)
    (ready : tx.Ready) : Chain.Leads tx.tree chain :=
  .resolveExisting ready.reads grants.resolves

theorem Transaction.Grants.held (grants : tx.Grants lock chain rest)
    (ready : tx.Ready) : tx.Held chain :=
  .of_leads ready.wellFormed (grants.leads ready) grants.along

/-- Work that begins by resolving a path goes on with what the path leads to. -/
theorem Work.faultless_resolve {path : String} {next : Chain → Work α}
    (grants : tx.Grants lock chain rest) (hpath : lock.path = path)
    (found : rest = [] → Faultless (next chain) tx) :
    Faultless (read (Chain.resolve · path false) >>= next) tx := by
  subst hpath
  refine .bind (faultless_read (Chain.harmless_resolve grants.resolves))
    fun other after h => ?_
  obtain ⟨hresolve, rfl⟩ := read_eq_ok.1 h
  obtain ⟨rfl, rfl⟩ := Prod.mk.inj (Except.ok.inj
    (grants.resolves.symm.trans (Chain.resolve_eq_ok.1 hresolve)))
  exact found rfl

end Granted

namespace Namespace

variable {ns : Namespace} {operation : Operation} {paths : List PathLock}
  {locks : LockSet} {lock : PathLock} {chain : Chain} {rest : List Name}
  {α : Type} {work : Work α}

/-- Under its locks a path leads where it led when they were planned. -/
theorem grants_opened
    (grants : lock.Grants ns.table.view ns.table.tree
      (fun x mode => locks.holds x mode = true) chain rest) :
    (ns.opened operation locks).Grants lock chain rest where
  resolves := by
    obtain ⟨names, hnames, hdescend⟩ :=
      Outcome.except_bind_eq_ok.1 grants.resolves
    refine Outcome.except_bind_eq_ok.2 ⟨names, hnames, ?_⟩
    refine Chain.descend_of_shows hdescend fun x hx => ?_
    exact shows_opened (grants.along x hx)
  along x hx := allows_opened (grants.along x hx)
  last := allows_opened grants.last
  above hrest hkind parent hparent :=
    allows_opened (grants.above hrest hkind parent hparent)
  below hrest hscope x hunder hne := by
    rw [tree_opened] at hunder
    exact allows_opened (grants.below hrest hscope x hunder hne)

/-- Locks along paths that lead somewhere can be planned, and under them the
paths lead there. -/
theorem exists_opened (sound : ns.Sound) (operation : Operation)
    (resolves : ∀ lock ∈ paths, lock.following = false ∧
      ∃ chain rest, Chain.resolveExisting ns.table.view lock.path false =
        .ok (chain, rest)) :
    ∃ locks, ({ paths } : LockDemand).plan ns.table.view = .ok locks ∧
      ∀ lock ∈ paths, ∀ chain rest,
        Chain.resolveExisting ns.table.view lock.path false =
          .ok (chain, rest) →
          (ns.opened operation locks).Grants lock chain rest := by
  have wf : ns.table.tree.WellFormed := sound.books.wellFormed
  have unfollowed : ∀ lock ∈ paths, lock.following = false :=
    fun lock h => (resolves lock h).1
  obtain ⟨locks, plan⟩ := LockDemand.exists_plan wf resolves
  refine ⟨locks, plan, fun lock hlock chain rest h => ?_⟩
  obtain ⟨_, _, grants⟩ :=
    LockDemand.grants_of_plan wf unfollowed plan lock hlock
  obtain ⟨rfl, rfl⟩ :=
    Prod.mk.inj (Except.ok.inj (grants.resolves.symm.trans h))
  exact grants_opened grants

theorem faultless_resolvePath (sound : ns.Sound) (path : String) :
    Faultless (resolvePath path) ns := by
  intro error after h
  unfold resolvePath at h
  cases hresolve : Path.resolveReserved ns.table.view path with
  | ok resolved => simp [hresolve] at h
  | error cause =>
    simp only [hresolve] at h
    cases h
    exact InodeTable.harmless_resolveReserved sound.books.wellFormed path _
      hresolve

/-- A unit of work does not fail inside if it does not under what its plan
grants. -/
theorem faultless_transact (sound : ns.Sound) (frames : work.Frames)
    (unfollowed : ∀ lock ∈ paths, lock.following = false)
    (faultless : ∀ tx : Transaction, tx.Ready →
      (∀ lock ∈ paths, ∃ chain rest, tx.Grants lock chain rest) →
      Faultless work tx) :
    Faultless (transact operation { paths } work) ns := by
  have wf := sound.books.wellFormed
  intro error after h
  cases hplan : ({ paths } : LockDemand).plan ns.table.view with
  | error cause =>
    rw [transact_of_unplanned sound.locks hplan] at h
    cases h
    exact LockDemand.harmless_plan wf unfollowed _ hplan
  | ok locks =>
    rw [transact_of_plan sound.locks hplan (keyed_of_ok frames)] at h
    have hwork :=
      faultless (ns.opened operation locks) (ready_opened sound.books)
        fun lock hlock => by
        obtain ⟨chain, rest, grants⟩ :=
          LockDemand.grants_of_plan wf unfollowed hplan lock hlock
        exact ⟨chain, rest, grants_opened grants⟩
    cases hresult : work (ns.opened operation locks) with
    | ok value tx => simp [hresult] at h
    | error cause tx =>
      simp only [hresult] at h
      cases h
      exact hwork _ _ hresult

end Namespace

end QuotaTree
