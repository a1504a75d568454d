/-
Which inodes a plan locks, and in which modes.
-/
import QuotaTree.Proofs.Tree.Follow
import QuotaTree.Proofs.Work.Locks

namespace QuotaTree

namespace PathLock

variable {lock : PathLock} {view : View} {list : List (InodeId × LockMode)}

/-- What a path asks for when its end is not followed and every component is
there. -/
theorem demands_of_resolve {chain : Chain} {below : List (InodeId × LockMode)}
    (unfollowed : lock.following = false)
    (resolves : Chain.resolveExisting view lock.path false = .ok (chain, []))
    (inScope : lock.below view chain = .ok below) :
    lock.demands view = .ok (reading chain ++ [(chain.last, lock.kind.mode)] ++
      lock.above chain ++ below) := by
  unfold demands
  simp only [unfollowed, Bool.false_eq_true, if_false, resolves, inScope, bind,
    Except.bind, pure, Except.pure, List.nil_append]

/-- What a path asks for when its end is followed: all that is on the list of
the first symlink and of the end, and what lies below the end if every component
is there. -/
theorem demands_of_follows {first chain : Chain} {left rest : List Name}
    {below : List (InodeId × LockMode)} (following : lock.following = true)
    (hfirst : Chain.resolveExisting view lock.path false = .ok (first, left))
    (hends : Chain.resolveExisting view lock.path true = .ok (chain, rest))
    (inScope : lock.below view chain = .ok below) :
    lock.demands view =
      .ok (reading first ++ reading chain ++ [(chain.last, lock.kind.mode)] ++
        if rest = [] then lock.above chain ++ below else []) := by
  unfold demands
  simp only [following, if_true, hfirst, hends, bind, Except.bind, pure,
    Except.pure]
  cases rest with
  | nil => simp [inScope]
  | cons name rest => simp

theorem above_eq_nil (kind : lock.kind ≠ .writeWithParent) (chain : Chain) :
    lock.above chain = [] := by
  unfold above
  split
  next hkind _ => exact absurd hkind kind
  next => rfl

theorem exists_mem_reading {chain : Chain} {id : InodeId} :
    (∃ item ∈ reading chain, item.1 = id) ↔ id ∈ chain.ids := by
  simp [reading]

/-- A path that leads nowhere asks for nothing, whether its end is followed or
not. -/
theorem demands_of_error {error : Error}
    (h : Chain.resolveExisting view lock.path false = .error error) :
    lock.demands view = .error error := by
  unfold demands
  cases hfollowing : lock.following <;>
    · simp only [h]
      rfl

end PathLock

/-- The path of the root leads to the root. -/
theorem Chain.resolveExisting_slash (view : View) :
    resolveExisting view "/" false = .ok (root, []) := by
  have hnames : Path.components "/" = .ok [] := rfl
  rw [resolveExisting_of_components hnames]
  rfl

namespace LockDemand

variable {lock : PathLock} {view : View} {locks : LockSet}

theorem plan_ofPath_eq_ok :
    (ofPath lock).plan view = .ok locks ↔
      ∃ list, lock.demands view = .ok list ∧ locks = LockSet.ofList list := by
  unfold plan ofPath
  simp only [List.mapM_cons, List.mapM_nil, Outcome.except_bind_eq_ok,
    Outcome.except_pure_eq_ok]
  constructor
  · rintro ⟨_, ⟨list, hlist, _, rfl, rfl⟩, _, rfl, rfl⟩
    exact ⟨list, hlist, by simp⟩
  · rintro ⟨list, hlist, rfl⟩
    exact ⟨[list], ⟨list, hlist, [], rfl, rfl⟩, [], rfl, by simp⟩

/-- The first path that is refused is the one that a plan fails for. -/
theorem plan_of_demands_error {before after : List PathLock} {error : Error}
    (listed : ∀ other ∈ before, ∃ list, other.demands view = .ok list)
    (h : lock.demands view = .error error) :
    ({ paths := before ++ lock :: after } : LockDemand).plan view =
      .error error := by
  have hlists :
      (before ++ lock :: after).mapM (fun lock => lock.demands view) =
        .error error := by
    induction before with
    | nil =>
      rw [List.nil_append, List.mapM_cons, h]
      rfl
    | cons other others ih =>
      obtain ⟨list, hlist⟩ := listed other List.mem_cons_self
      have hothers :=
        ih fun another hmem => listed another (List.mem_cons_of_mem _ hmem)
      rw [List.cons_append, List.mapM_cons, hlist]
      simp only [hothers, bind, Except.bind]
  unfold plan
  simp only [hlists]
  rfl

theorem plan_of_first_error {after : List PathLock} {error : Error}
    (h : lock.demands view = .error error) :
    ({ paths := lock :: after } : LockDemand).plan view = .error error :=
  @plan_of_demands_error lock view [] after error
    (fun _ hmem => absurd hmem List.not_mem_nil) h

/-- A path that leads nowhere is refused as it is when its locks are planned. -/
theorem plan_of_error {error : Error}
    (h : Chain.resolveExisting view lock.path false = .error error) :
    (ofPath lock).plan view = .error error :=
  plan_of_first_error (PathLock.demands_of_error h)

/-- A path that is there is locked for reading, and its end for writing. -/
theorem plan_write {path : String} {chain : Chain}
    (resolves : Chain.resolveExisting view path false = .ok (chain, [])) :
    (ofPath { path, kind := .write }).plan view = .ok
      (LockSet.ofList (PathLock.reading chain ++ [(chain.last, .write)])) := by
  let lock : PathLock := { path, kind := .write }
  have hbelow : lock.below view chain = .ok [] := rfl
  have habove : lock.above chain = [] := rfl
  have hdemands :=
    @PathLock.demands_of_resolve lock view chain _ rfl resolves hbelow
  rw [habove, List.append_nil, List.append_nil] at hdemands
  exact plan_ofPath_eq_ok.2 ⟨_, hdemands, rfl⟩

/-- The mode in which an inode is locked on the way up from one below it. -/
def upwardMode (inode : Inode) : LockMode :=
  if inode.quota.isSome then .write else .read

end LockDemand

namespace InodeTable

open Nodes

variable {table : InodeTable}

/-- Without following, a path leads to the first symlink on its way. -/
theorem resolveExisting_of_follows {view : View} {hops : Nat} {path : String}
    {links : List Chain} {chain : Chain} {rest : List Name}
    (h : Chain.Follows view hops path links (chain, rest)) :
    ∃ left, Chain.resolveExisting view path false =
        .ok (links.head?.getD chain, left) := by
  cases h with
  | ends components descends =>
    exact ⟨rest, Chain.resolveExisting_eq_ok.2 ⟨_, components, descends⟩⟩
  | link components descends =>
    exact ⟨[], Chain.resolveExisting_eq_ok.2 ⟨_, components, descends⟩⟩

/-- A path that cannot be resolved is refused as it is when its locks are
planned. -/
theorem plan_of_follow_error {lock : PathLock} {error : Error}
    (following : lock.following = true)
    (h : Chain.resolveExisting table.view lock.path true = .error error) :
    (LockDemand.ofPath lock).plan table.view = .error error := by
  have hfollow :
      Chain.follow table.view Chain.maxHops lock.path = .error error := h
  apply LockDemand.plan_of_first_error
  cases hlink : Chain.resolveExisting table.view lock.path false with
  | error earlier =>
    rw [Chain.follow_eq_bind, hlink] at hfollow
    obtain rfl : earlier = error := Except.error.inj hfollow
    exact PathLock.demands_of_error hlink
  | ok found =>
    unfold PathLock.demands
    simp only [following, if_true, hlink, h]
    rfl

/-- Where no whole subtree is wanted, what lies below the end of a path is its
entries, if they are asked for. -/
theorem exists_below {lock : PathLock} {chain : Chain} {inode : Inode}
    (wf : table.tree.WellFormed) (scope : lock.scope ≠ .subtree)
    (live : table.tree chain.last = some inode) :
    ∃ below, lock.below table.view chain = .ok below ∧
      ∀ x, (∃ item ∈ below, item.1 = x) ↔
      lock.scope = .children ∧ table.tree.HasParent x chain.last := by
  unfold PathLock.below
  cases hscope : lock.scope with
  | path => exact ⟨[], rfl, by simp⟩
  | children =>
    refine ⟨inode.children.map fun id => (id, lock.belowMode), ?_, fun x => ?_⟩
    · simp only [(view_opens chain.last).childrenOf live]
      rfl
    · rw [← wf.mem_children live]
      simp
  | subtree => exact absurd hscope scope

/-- What is locked for reading when the end of a path is followed: the chain to
the first symlink, the chain to where it leads, and the entries there if they
are asked for. -/
theorem plan_of_follows {lock : PathLock} {links : List Chain} {chain : Chain}
    {rest : List Name} (wf : table.tree.WellFormed)
    (following : lock.following = true) (kind : lock.kind ≠ .writeWithParent)
    (scope : lock.scope ≠ .subtree)
    (h : Chain.Follows table.view Chain.maxHops lock.path links (chain, rest)) :
    ∃ locks, (LockDemand.ofPath lock).plan table.view = .ok locks ∧
      locks.holds chain.last lock.kind.mode = true ∧
      ∀ x, locks.holds x .read = true ↔
        x ∈ (links.head?.getD chain).ids ∨ x ∈ chain.ids ∨
          (rest = [] ∧ lock.scope = .children ∧
            table.tree.HasParent x chain.last) := by
  obtain ⟨left, hfirst⟩ := resolveExisting_of_follows h
  have hends :
      Chain.resolveExisting table.view lock.path true = .ok (chain, rest) :=
    Chain.follow_eq_ok.2 ⟨links, h⟩
  obtain ⟨inode, hget, _⟩ := h.stops
  have live : table.tree chain.last = some inode := (view_reads wf).get hget
  obtain ⟨below, hbelow, hinScope⟩ := exists_below wf scope live
  have hdemands := PathLock.demands_of_follows following hfirst hends hbelow
  rw [PathLock.above_eq_nil kind, List.nil_append] at hdemands
  refine ⟨_, LockDemand.plan_ofPath_eq_ok.2 ⟨_, hdemands, rfl⟩, ?_, fun x => ?_⟩
  · rw [LockSet.holds_ofList]
    exact ⟨(chain.last, lock.kind.mode), by simp, rfl, LockMode.covers_self _⟩
  · rw [LockSet.holds_ofList]
    have hlisted : (∃ item ∈ (if rest = [] then below else []), item.1 = x) ↔
        rest = [] ∧ lock.scope = .children ∧
        table.tree.HasParent x chain.last := by
      rw [← hinScope]
      split
      next hrest => simp [hrest]
      next hrest => simp [hrest]
    simp only [LockMode.covers_read, and_true, List.mem_append, or_and_right,
      exists_or, PathLock.exists_mem_reading, hlisted, List.mem_singleton,
      exists_eq_left]
    constructor
    · rintro (((hfirst | hchain) | rfl) | hlisted)
      · exact .inl hfirst
      · exact .inr (.inl hchain)
      · exact .inr (.inl chain.last_mem_ids)
      · exact .inr (.inr hlisted)
    · rintro (hfirst | hchain | hlisted)
      · exact .inl (.inl (.inl hfirst))
      · exact .inl (.inl (.inr hchain))
      · exact .inr hlisted

/-- The whole tree can be locked for writing. -/
theorem plan_whole (wf : table.tree.WellFormed) :
    ∃ locks, (LockDemand.ofPath
      { path := "/", kind := .write, scope := .subtree }).plan table.view =
        .ok locks ∧
      ∀ x, table.tree.Under .root x → locks.holds x .write = true := by
  obtain ⟨root, hroot, _⟩ := wf.root
  have reads := view_reads wf
  obtain ⟨ids, hids⟩ := reads.exists_subtree wf hroot fun x _ => view_opens x
  obtain ⟨_, deeper, _, _, rfl⟩ := View.levels_cons_eq_ok.1 hids
  let lock : PathLock := { path := "/", kind := .write, scope := .subtree }
  have hbelow :
      lock.below table.view .root =
        .ok (deeper.map fun id => (id, .write)) := by
    unfold PathLock.below
    simp only [lock, Chain.last_root, hids]
    rfl
  have hdemands :=
    PathLock.demands_of_resolve rfl (Chain.resolveExisting_slash _) hbelow
  refine ⟨_, LockDemand.plan_ofPath_eq_ok.2 ⟨_, hdemands, rfl⟩, fun x hx => ?_⟩
  rw [LockSet.holds_ofList]
  rcases List.mem_cons.1 ((reads.mem_subtree wf hids x).2 hx) with rfl | hmem
  · exact ⟨(.root, .write), by simp [lock, LockKind.mode], rfl, rfl⟩
  · refine ⟨(x, .write), List.mem_append_right _ (List.mem_map.2 ⟨x, ?_, rfl⟩),
      rfl, rfl⟩
    exact hmem

/-- Everything above an inode is locked, the quotas for writing. -/
theorem exists_upward (wf : table.tree.WellFormed) {id : InodeId}
    {inode : Inode} {steps depth : Nat} (live : table.tree id = some inode)
    (h : table.tree.Depth id depth) (enough : depth < steps) :
    ∃ list, LockDemand.upward table.view steps id = .ok list ∧
      ∀ x found, table.tree.Under x id → table.tree x = some found →
        (x, LockDemand.upwardMode found) ∈ list := by
  induction h generalizing steps inode with
  | root =>
    obtain ⟨steps, rfl⟩ := Nat.exists_eq_succ_of_ne_zero (Nat.ne_of_gt enough)
    have hparent : inode.parent = none := by
      obtain ⟨root, hroot, _, hparent⟩ := wf.root
      obtain rfl := Option.some.inj (hroot.symm.trans live)
      exact hparent
    have hget := (view_opens .root).get live
    refine ⟨[(.root, LockDemand.upwardMode inode)], ?_,
      fun x found hunder hfound => ?_⟩
    · simp only [LockDemand.upward, hget, hparent]
      rfl
    · obtain rfl := (under_of_no_parent wf.root_no_parent).1 hunder
      obtain rfl := Option.some.inj (live.symm.trans hfound)
      exact List.mem_singleton_self _
  | @child id parent depth link above ih =>
    obtain ⟨steps, rfl⟩ :=
      Nat.exists_eq_succ_of_ne_zero (Nat.ne_of_gt (Nat.zero_lt_of_lt enough))
    obtain ⟨holder, hholder, _⟩ := wf.live_parent link
    obtain ⟨list, hlist, hmem⟩ := ih hholder (Nat.lt_of_succ_lt_succ enough)
    have hparent : inode.parent = some parent := by
      obtain ⟨found, hfound, hparent⟩ := link
      obtain rfl := Option.some.inj (hfound.symm.trans live)
      exact hparent
    have hget := (view_opens id).get live
    refine ⟨(id, LockDemand.upwardMode inode) :: list, ?_,
      fun x found hunder hfound => ?_⟩
    · simp only [LockDemand.upward, hget, hparent, hlist]
      rfl
    · rcases (under_iff_of_parent link).1 hunder with rfl | hunder
      · obtain rfl := Option.some.inj (live.symm.trans hfound)
        exact List.mem_cons_self
      · exact List.mem_cons_of_mem _ (hmem x found hunder hfound)

/-- The way up from inodes that are there can be locked. -/
theorem plan_upward (wf : table.tree.WellFormed) {ids : List InodeId}
    (live : ∀ id ∈ ids, ∃ inode, table.tree id = some inode) :
    ∃ locks, ({ quotaChains := ids } : LockDemand).plan table.view = .ok locks ∧
      ∀ id ∈ ids, ∀ x found, table.tree.Under x id → table.tree x = some found →
        locks.holds x (LockDemand.upwardMode found) = true := by
  have hlists :
      ∃ lists, ids.mapM (LockDemand.upward table.view (table.view.size + 1)) =
          .ok lists ∧
      ∀ id ∈ ids, ∀ x found, table.tree.Under x id → table.tree x = some found →
        (x, LockDemand.upwardMode found) ∈ lists.flatten := by
    induction ids with
    | nil => exact ⟨[], rfl, by simp⟩
    | cons id rest ih =>
      obtain ⟨lists, hlists, hmem⟩ :=
        ih fun other hother => live other (List.mem_cons_of_mem _ hother)
      obtain ⟨inode, hinode⟩ := live id List.mem_cons_self
      obtain ⟨depth, hdepth⟩ := wf.descends hinode
      have hdeep := (view_reads wf).deep hinode hdepth
      obtain ⟨list, hlist, hmem'⟩ :=
        exists_upward wf hinode hdepth (Nat.lt_succ_of_lt hdeep)
      refine ⟨list :: lists, ?_, fun other hother x found hunder hfound => ?_⟩
      · simp only [List.mapM_cons, hlist, hlists]
        rfl
      · rw [List.flatten_cons, List.mem_append]
        rcases List.mem_cons.1 hother with rfl | hother
        · exact .inl (hmem' x found hunder hfound)
        · exact .inr (hmem other hother x found hunder hfound)
  obtain ⟨lists, hlists, hmem⟩ := hlists
  refine ⟨LockSet.ofList lists.flatten, ?_,
    fun id hid x found hunder hfound => ?_⟩
  · unfold LockDemand.plan
    simp only [List.mapM_nil, hlists]
    rfl
  · rw [LockSet.holds_ofList]
    refine ⟨(x, LockDemand.upwardMode found), hmem id hid x found hunder hfound,
      rfl, ?_⟩
    cases LockDemand.upwardMode found <;> rfl

end InodeTable

end QuotaTree
