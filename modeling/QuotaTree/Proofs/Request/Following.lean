/-
Requests that follow symlinks.  Their path is resolved twice, by the plan of the
locks in the stored tree and again under the locks; the plan locks the way to
the first symlink and the way to where the last one leads, so that a symlink in
between is refused.
-/
import QuotaTree.Proofs.Lock.Plan
import QuotaTree.Proofs.Request.Reading

namespace QuotaTree

open Chain

namespace Namespace

variable {ns ns' : Namespace} {operation : Operation} {demand : LockDemand}
  {locks : LockSet} {lock : PathLock} {α β : Type} {work : Work α} {value : α}
  {error : Error} {links : List Chain} {chain : Chain} {rest : List Name}

section Opened

/-- Work that fails before it has done anything leaves the namespace as it
was. -/
theorem transact_of_error (free : ns.locks = ∅)
    (plan : demand.plan ns.table.view = .ok locks)
    (h : work (ns.opened operation locks) =
      .error error (ns.opened operation locks)) :
    transact operation demand work ns = .error error ns := by
  rw [transact_of_plan free plan (fun hok => by rw [h] at hok; cases hok), h]
  exact congrArg _ (rollback_opened free)

/-- Work that has done nothing leaves the namespace as it was. -/
theorem transact_of_ok (free : ns.locks = ∅)
    (plan : demand.plan ns.table.view = .ok locks)
    (h : work (ns.opened operation locks) =
      .ok value (ns.opened operation locks)) :
    transact operation demand work ns = .ok value ns := by
  rw [transact_of_plan free plan
    (fun hok => by rw [h] at hok; cases hok; exact keyed_opened), h]
  exact congrArg _ (commit_opened free)

theorem allows_opened {id : InodeId} {mode : LockMode}
    (h : locks.holds id mode = true) :
    (ns.opened operation locks).Allows id mode :=
  .inl h

/-- What is locked is shown as it is stored. -/
theorem shows_opened {id : InodeId} (h : locks.holds id .read = true) :
    Shows (ns.opened operation locks).view ns.table.view id := by
  have hfound := Transaction.view_opens (@allows_opened ns operation _ _ _ h)
  rw [tree_opened] at hfound
  exact hfound

theorem find_opened_of_unlocked {id : InodeId}
    (h : locks.holds id .read = false) :
    (ns.opened operation locks).view.find id =
      .error (.fault (.unlocked operation id .read)) := by
  have hnot : ¬ ((ns.opened operation locks).locks.holds id .read = true ∨
      id ∈ (ns.opened operation locks).created) := by
    rintro (hholds | hmem)
    · rw [show (ns.opened operation locks).locks = locks from rfl, h] at hholds
      cases hholds
    · cases hmem
  change ((ns.opened operation locks).ensureLocked id .read >>= fun _ => _) = _
  rw [Transaction.ensureLocked, if_neg hnot]
  rfl

/-- What is not locked is refused. -/
theorem veils_opened :
    Veils (ns.opened operation locks).view ns.table.view
      fun id => .fault (.unlocked operation id .read) := by
  intro id
  cases h : locks.holds id .read with
  | true => exact .inl (shows_opened h)
  | false => exact .inr (find_opened_of_unlocked h)

/-- What a unit of work stores, and what is done after it. -/
def finish (next : α → Request β) :
    EStateM.Result Error Transaction α → EStateM.Result Error Namespace β
  | .ok value tx => next value tx.commit
  | .error error tx => .error error tx.rollback

theorem transact_bind (free : ns.locks = ∅)
    (plan : demand.plan ns.table.view = .ok locks)
    (keyed : ∀ {value tx}, work (ns.opened operation locks) = .ok value tx →
      tx.Keyed)
    (next : α → Request β) :
    (transact operation demand work >>= next) ns =
      finish next (work (ns.opened operation locks)) := by
  change EStateM.bind (transact operation demand work) next ns = _
  unfold EStateM.bind
  rw [transact_of_plan free plan keyed]
  cases work (ns.opened operation locks) <;> rfl

end Opened

/-- All symlinks after the first one are entries that are locked with the
directory they are led to from. -/
def Inside (ns : Namespace) (scope : LockScope) (links : List Chain)
    (chain : Chain) (rest : List Name) : Prop :=
  ∀ link ∈ links.tail, rest = [] ∧ scope = .children ∧
    ns.table.tree.HasParent link.last chain.last

/-- The locks of a request that follows symlinks, and what they allow. -/
structure Opening (ns : Namespace) (lock : PathLock) (chain : Chain)
    (inode : Inode) (locks : LockSet) : Prop where
  live : ns.table.tree chain.last = some inode
  leads : Leads ns.table.tree chain
  last : locks.holds chain.last lock.kind.mode = true
  along : ∀ x ∈ chain.ids, locks.holds x .read = true
  listed :
    lock.scope = .children → ∀ x ∈ inode.children, locks.holds x .read = true

section Resolved

variable (sound : ns.Sound) (following : lock.following = true)
  (kind : lock.kind ≠ .writeWithParent) (scope : lock.scope ≠ .subtree)
  (h : Follows ns.table.view maxHops lock.path links (chain, rest))

include sound following kind scope h

/-- Under the locks a path leads where it leads in the stored tree, if no
symlink on the way has been left out of them. -/
theorem exists_resolves_opened
    (inside : ns.Inside lock.scope links chain rest) :
    ∃ locks, (LockDemand.ofPath lock).plan ns.table.view = .ok locks ∧
      locks.holds chain.last lock.kind.mode = true ∧
      (∀ x, x ∈ chain.ids ∨ (rest = [] ∧ lock.scope = .children ∧
        ns.table.tree.HasParent x chain.last) → locks.holds x .read = true) ∧
      resolveExisting (ns.opened operation locks).view lock.path true =
        .ok (chain, rest) := by
  have wf : ns.table.tree.WellFormed := sound.books.wellFormed
  obtain ⟨locks, hplan, hlast, hread⟩ :=
    InodeTable.plan_of_follows wf following kind scope h
  obtain ⟨leads, leadsLinks⟩ := h.leads (InodeTable.view_reads wf)
  have hchain : ∀ x ∈ chain.ids, locks.holds x .read = true :=
    fun x hx => (hread x).2 (.inr (.inl hx))
  have hlinks : ∀ link ∈ links, ∀ x ∈ link.ids, locks.holds x .read = true := by
    intro link hlink x hx
    cases links with
    | nil => cases hlink
    | cons first later =>
      rcases List.mem_cons.1 hlink with rfl | hlater
      · exact (hread x).2 (.inl hx)
      · obtain ⟨hrest, hscope, hparent⟩ := inside link hlater
        -- the link is an entry of the last directory, so its chain goes on from
        -- there
        cases leadsLinks link hlink with
        | root => exact absurd hparent (wf.root_no_parent _)
        | @child parent name id above entry =>
          have hlast := ((Leads.child above entry).link wf).unique hparent
          obtain rfl := above.unique wf leads hlast
          rw [ids, List.mem_append, List.mem_singleton] at hx
          rcases hx with hx | rfl
          · exact hchain x hx
          · exact (hread x).2 (.inr (.inr ⟨hrest, hscope, hparent⟩))
  refine ⟨locks, hplan, hlast, ?_, follow_eq_ok.2 ⟨links, ?_⟩⟩
  · rintro x (hx | hlisted)
    · exact hchain x hx
    · exact (hread x).2 (.inr (.inr hlisted))
  · exact h.of_shows (fun x hx => shows_opened (hchain x hx))
      fun link hlink x hx => shows_opened (hlinks link hlink x hx)

/-- Under the locks a path is refused if a symlink on the way has been left out
of them. -/
theorem exists_refused_opened
    (outside : ¬ ns.Inside lock.scope links chain rest) :
    ∃ locks id, (LockDemand.ofPath lock).plan ns.table.view = .ok locks ∧
      resolveExisting (ns.opened operation locks).view lock.path true =
        .error (.fault (.unlocked operation id .read)) := by
  have wf : ns.table.tree.WellFormed := sound.books.wellFormed
  obtain ⟨locks, hplan, _, hread⟩ :=
    InodeTable.plan_of_follows wf following kind scope h
  obtain ⟨leads, leadsLinks⟩ := h.leads (InodeTable.view_reads wf)
  simp only [Inside, not_forall, not_and] at outside
  obtain ⟨link, hlater, hentry⟩ := outside
  have hlink : link ∈ links := List.mem_of_mem_tail hlater
  obtain ⟨_, _, inode, target, _, _, hget, hcontent, _⟩ := h.onward_of_mem hlink
  have live : ns.table.tree link.last = some inode :=
    (InodeTable.view_reads wf).get hget
  have hsymlink : inode.isDirectory = false := by
    rw [Inode.isDirectory, Inode.asDirectory, hcontent]
    rfl
  have hinterior {way : Chain} (hleads : Leads ns.table.tree way)
      (hmem : link.last ∈ way.ids) : link.last = way.last := by
    by_contra hne
    obtain ⟨found, hfound, hdirectory⟩ := hleads.isDirectory_of_mem wf hmem hne
    rw [live, Option.some_inj] at hfound
    rw [← hfound, hsymlink] at hdirectory
    cases hdirectory
  have hunread : locks.holds link.last .read = false := by
    rw [Bool.eq_false_iff, Ne, hread]
    rintro (hfirst | hend | ⟨hrest, hscope, hparent⟩)
    · cases links with
      | nil => cases hlink
      | cons first later =>
        have hleads := leadsLinks first List.mem_cons_self
        obtain rfl :=
          (leadsLinks link hlink).unique wf hleads (hinterior hleads hfirst)
        exact (List.nodup_cons.1 h.nodup).1 hlater
    · obtain ⟨found, hfound, hnot⟩ := h.stops
      rw [← hinterior leads hend, hget, Except.ok.injEq] at hfound
      exact hnot target (hfound ▸ hcontent)
    · exact hentry hrest hscope hparent
  obtain ⟨id, hrefused⟩ := veils_opened.follow_refused h hlink
    (@find_opened_of_unlocked ns operation _ _ hunread)
  exact ⟨locks, id, hplan, hrefused⟩

end Resolved

section Requests

variable {body : Chain → Work α} {next : α → Request β} (sound : ns.Sound)
  (following : lock.following = true) (kind : lock.kind ≠ .writeWithParent)
  (scope : lock.scope ≠ .subtree)

include sound following

/-- A request of which the path cannot be resolved is refused as the resolver
is. -/
theorem transact_of_unresolved
    (h : resolveExisting ns.table.view lock.path true = .error error) :
    transact operation (.ofPath lock) work ns = .error error ns :=
  transact_of_unplanned sound.locks
    (InodeTable.plan_of_follow_error following h)

include kind scope

/-- A path of which something is missing is not found. -/
theorem transact_of_missing {name : Name}
    (h : Chain.Follows ns.table.view maxHops lock.path links
      (chain, name :: rest))
    (inside : ns.Inside lock.scope links chain (name :: rest)) :
    transact operation (.ofPath lock)
      (Work.read (Chain.resolve · lock.path true) >>= body) ns =
      .error (.notFound lock.path (Path.joinNames (name :: rest))) ns := by
  obtain ⟨locks, hplan, _, _, hopened⟩ := @exists_resolves_opened ns operation _
    _ _ _ sound following kind scope h inside
  exact transact_of_error sound.locks hplan
    (Outcome.bind_of_error (Work.read_of_error (resolve_of_missing hopened)))

/-- A request whose path leads somewhere goes on from there. -/
theorem transact_of_found
    (h : Chain.Follows ns.table.view maxHops lock.path links (chain, []))
    (inside : ns.Inside lock.scope links chain [])
    (frames : (body chain).Frames) :
    ∃ inode locks, ns.Opening lock chain inode locks ∧
      (transact operation (.ofPath lock)
        (Work.read (Chain.resolve · lock.path true) >>= body) >>= next) ns =
        finish next (body chain (ns.opened operation locks)) := by
  have wf : ns.table.tree.WellFormed := sound.books.wellFormed
  have reads := InodeTable.view_reads wf
  obtain ⟨inode, hget, _⟩ := h.stops
  have live := reads.get hget
  obtain ⟨locks, hplan, hlast, hread, hopened⟩ := @exists_resolves_opened ns
    operation _ _ _ _ sound following kind scope h inside
  have hwork :
      (Work.read (Chain.resolve · lock.path true) >>= body)
        (ns.opened operation locks) = body chain (ns.opened operation locks) :=
    Outcome.bind_of_ok (Work.read_of_ok (resolve_of_ends hopened))
  have hkeyed {value : α} {tx : Transaction}
      (hok : (Work.read (Chain.resolve · lock.path true) >>= body)
        (ns.opened operation locks) = .ok value tx) : tx.Keyed :=
    keyed_of_ok frames (hwork.symm.trans hok)
  refine ⟨inode, locks,
    ⟨live, (h.leads reads).1, hlast, fun x hx => hread x (.inl hx), ?_⟩, ?_⟩
  · exact fun hchildren x hx =>
      hread x (.inr ⟨rfl, hchildren, (wf.mem_children live).1 hx⟩)
  · rw [transact_bind sound.locks hplan hkeyed, hwork]

/-- A request that leaves a symlink out of its locks faults. -/
theorem transact_of_outside
    (h : Chain.Follows ns.table.view maxHops lock.path links (chain, rest))
    (outside : ¬ ns.Inside lock.scope links chain rest) :
    ∃ id, transact operation (.ofPath lock)
        (Work.read (Chain.resolve · lock.path true) >>= body) ns =
      .error (.fault (.unlocked operation id .read)) ns := by
  obtain ⟨locks, id, hplan, hrefused⟩ := @exists_refused_opened ns operation _ _
    _ _ sound following kind scope h outside
  exact ⟨id, transact_of_error sound.locks hplan
    (Outcome.bind_of_error (Work.read_of_error (resolve_of_error hrefused)))⟩

end Requests

def leadsTo (ns : Namespace) (path : String) : Except Error Chain := do
  let resolved ← Path.resolveReserved ns.table.view path
  Chain.resolve ns.table.view resolved true

/-- Symlinks are followed for a path that the locks of a request leave out. -/
def Strays (ns : Namespace) (scope : LockScope) (path : String) : Prop :=
  ∃ resolved links chain rest, Path.resolveReserved ns.table.view path =
      .ok resolved ∧
    Chain.Follows ns.table.view maxHops resolved links (chain, rest) ∧
    ¬ ns.Inside scope links chain rest

theorem leadsTo_of_error {path : String}
    (h : Path.resolveReserved ns.table.view path = .error error) :
    ns.leadsTo path = .error error := by
  rw [leadsTo, h]
  rfl

theorem leadsTo_of_resolved {path resolved : String}
    (h : Path.resolveReserved ns.table.view path = .ok resolved) :
    ns.leadsTo path = Chain.resolve ns.table.view resolved true := by
  rw [leadsTo, h]
  rfl

/-- Symlinks are followed on one way only, so that alone decides whether one is
left out. -/
theorem strays_iff {path resolved : String} {scope : LockScope}
    (hresolved : Path.resolveReserved ns.table.view path = .ok resolved)
    (hfollows : Chain.Follows ns.table.view maxHops resolved links
      (chain, rest)) :
    ns.Strays scope path ↔ ¬ ns.Inside scope links chain rest := by
  constructor
  · rintro ⟨resolved', links', chain', rest', hresolved', hfollows', houtside⟩
    obtain rfl := Except.ok.inj (hresolved.symm.trans hresolved')
    obtain ⟨rfl, hfound⟩ := hfollows.unique hfollows'
    cases hfound
    exact houtside
  · exact fun houtside => ⟨resolved, links, chain, rest, hresolved, hfollows,
      houtside⟩

/-- A path that is refused while symlinks are followed leaves none out. -/
theorem not_strays_of_error {path : String} {scope : LockScope}
    (h : ∀ resolved, Path.resolveReserved ns.table.view path = .ok resolved →
      ∃ error, resolveExisting ns.table.view resolved true = .error error) :
    ¬ ns.Strays scope path := by
  rintro ⟨resolved, links, chain, rest, hresolved, hfollows, _⟩
  obtain ⟨error, hexists⟩ := h resolved hresolved
  cases hexists.symm.trans (follow_eq_ok.2 ⟨links, hfollows⟩)

/-- Without listing, any symlink after the first one is left out. -/
theorem strays_path_iff {path : String} :
    ns.Strays .path path ↔ ∃ resolved first second later found,
      Path.resolveReserved ns.table.view path = .ok resolved ∧
        Chain.Follows ns.table.view maxHops resolved
          (first :: second :: later) found := by
  constructor
  · rintro ⟨resolved, links, chain, rest, hresolved, hfollows, houtside⟩
    match links with
    | [] => exact absurd (fun _ hlink => absurd hlink List.not_mem_nil) houtside
    | [_] =>
      exact absurd (fun _ hlink => absurd hlink List.not_mem_nil) houtside
    | first :: second :: later =>
      exact ⟨resolved, first, second, later, _, hresolved, hfollows⟩
  · rintro ⟨resolved, first, second, later, ⟨chain, rest⟩, hresolved, hfollows⟩
    refine ⟨resolved, _, chain, rest, hresolved, hfollows, fun hinside => ?_⟩
    obtain ⟨_, hscope, _⟩ := hinside second List.mem_cons_self
    cases hscope

/-- A path that leads to anything but a symlink leads there also when symlinks
are followed, and no lock is missing on the way. -/
theorem leadsTo_of_resolve {path resolved : String} {inode : Inode}
    (scope : LockScope)
    (hresolved : Path.resolveReserved ns.table.view path = .ok resolved)
    (h : Chain.resolve ns.table.view resolved false = .ok chain)
    (live : ns.table.tree chain.last = some inode)
    (stops : ∀ target, inode.content ≠ .symlink target) :
    ns.leadsTo path = .ok chain ∧ ¬ ns.Strays scope path := by
  have hfollows : Chain.Follows ns.table.view maxHops resolved [] (chain, []) :=
    follows_of_resolve h ((InodeTable.view_opens chain.last).get live) stops
  constructor
  · rw [leadsTo_of_resolved hresolved]
    exact resolve_of_ends (follow_eq_ok.2 ⟨[], hfollows⟩)
  · rw [strays_iff hresolved hfollows, not_not]
    exact fun _ hlink => absurd hlink List.not_mem_nil

/-- A request is refused as the resolver is, and else acts on the inode that the
path leads to. -/
def Heeds (ns : Namespace) (path : String)
    (acts : Chain → Inode → EStateM.Result Error Namespace α → Prop)
    (request : Request α) : Prop :=
  match ns.leadsTo path with
  | .error error => request ns = .error error ns
  | .ok chain => ∃ inode, ns.table.find? chain.last = some inode ∧
      acts chain inode (request ns)

/-- A request heeds the resolver unless its locks leave out a symlink, and then
it faults. -/
def Obeys (ns : Namespace) (operation : Operation) (scope : LockScope)
    (path : String)
    (acts : Chain → Inode → EStateM.Result Error Namespace α → Prop)
    (request : Request α) : Prop :=
  (¬ ns.Strays scope path → ns.Heeds path acts request) ∧
    (ns.Strays scope path →
      ∃ id, request ns = .error (.fault (.unlocked operation id .read)) ns)

theorem resolvePath_of_error {path : String}
    (h : Path.resolveReserved ns.table.view path = .error error) :
    resolvePath path ns = .error error ns := by
  rw [resolvePath, h]

section Obeys

variable {body : String → Chain → Work α} {next : String → α → Request β}
  {path : String}
  {acts : Chain → Inode → EStateM.Result Error Namespace β → Prop}

/-- A request that resolves its path again under the locks obeys the resolver if
it does what it should with the inode that it finds. -/
theorem obeys_of_acts (sound : ns.Sound) (following : lock.following = true)
    (kind : lock.kind ≠ .writeWithParent) (bounded : lock.scope ≠ .subtree)
    (frames : ∀ path chain, (body path chain).Frames)
    (acted : ∀ {resolved chain inode
      locks}, Path.resolveReserved ns.table.view path = .ok resolved →
      ns.Opening { lock with path := resolved } chain inode locks →
      acts chain inode (finish (next resolved)
        (body resolved chain (ns.opened operation locks)))) :
    ns.Obeys operation lock.scope path acts (do
      let path ← resolvePath path
      let value ← transact operation (.ofPath { lock with path }) do
        let chain ← Work.read (Chain.resolve · path true)
        body path chain
      next path value) := by
  unfold Obeys Heeds
  cases hresolved : Path.resolveReserved ns.table.view path with
  | error error =>
    have hstays : ¬ ns.Strays lock.scope path := not_strays_of_error
      fun resolved hok => absurd (hok.symm.trans hresolved) nofun
    rw [leadsTo_of_error hresolved,
      Outcome.bind_of_error (resolvePath_of_error hresolved)]
    exact ⟨fun _ => rfl, fun hstrays => absurd hstrays hstays⟩
  | ok resolved =>
    rw [leadsTo_of_resolved hresolved,
      Outcome.bind_of_ok (resolvePath_eq_ok.2 ⟨hresolved, rfl⟩)]
    cases hexists : resolveExisting ns.table.view resolved true with
    | error error =>
      have hstays : ¬ ns.Strays lock.scope path :=
        not_strays_of_error fun other hok =>
          ⟨error, Except.ok.inj (hresolved.symm.trans hok) ▸ hexists⟩
      rw [resolve_of_error hexists,
        Outcome.bind_of_error (@transact_of_unresolved ns operation
          { lock with path := resolved } _ _ _ sound following hexists)]
      exact ⟨fun _ => rfl, fun hstrays => absurd hstrays hstays⟩
    | ok found =>
      obtain ⟨chain, rest⟩ := found
      obtain ⟨links, hfollows⟩ := follow_eq_ok.1 hexists
      rw [strays_iff hresolved hfollows, not_not]
      constructor
      · intro hinside
        cases rest with
        | nil =>
          obtain ⟨inode, locks, opening, hrequest⟩ :=
            @transact_of_found ns operation { lock with path := resolved } _ _ _
              _ _ (next resolved) sound following kind bounded hfollows hinside
              (frames resolved chain)
          rw [resolve_of_ends hexists, hrequest]
          exact ⟨inode, opening.live, acted hresolved opening⟩
        | cons name rest =>
          rw [resolve_of_missing hexists,
            Outcome.bind_of_error
              (@transact_of_missing ns operation { lock with path := resolved }
                _ _ _ _ _ sound following kind bounded _ hfollows hinside)]
      · intro houtside
        obtain ⟨id, hfault⟩ :=
          @transact_of_outside ns operation { lock with path := resolved } _ _ _
            _ _ sound following kind bounded hfollows houtside
        exact ⟨id, Outcome.bind_of_error hfault⟩

/-- A request that does nothing more after its unit of work. -/
theorem obeys_of_transact {body : String → Chain → Work β} (sound : ns.Sound)
    (following : lock.following = true) (kind : lock.kind ≠ .writeWithParent)
    (bounded : lock.scope ≠ .subtree)
    (frames : ∀ path chain, (body path chain).Frames)
    (acted : ∀ {resolved chain inode
      locks}, Path.resolveReserved ns.table.view path = .ok resolved →
      ns.Opening { lock with path := resolved } chain inode locks → acts chain
        inode (finish pure (body resolved chain (ns.opened operation locks)))) :
    ns.Obeys operation lock.scope path acts (do
      let path ← resolvePath path
      transact operation (.ofPath { lock with path }) do
        let chain ← Work.read (Chain.resolve · path true)
        body path chain) := by
  have h := @obeys_of_acts ns operation lock _ _ body
    (fun _ => pure) path acts sound following kind bounded frames acted
  simp only [bind_pure] at h
  exact h

end Obeys

end Namespace

end QuotaTree
