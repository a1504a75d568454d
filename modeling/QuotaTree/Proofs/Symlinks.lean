/-
What requests that follow symlinks do.  Where the resolver follows at most one
symlink they do what they should with the inode it leads to; where it follows
more, all but the listing of a directory that holds the others end in a fault.
-/
import QuotaTree.Proofs.Reachable
import QuotaTree.Proofs.Request.Summing
import QuotaTree.Proofs.Work.Refile

namespace QuotaTree

open Work

def Outcome.isOk {σ α : Type} : EStateM.Result Error σ α → Bool
  | .ok _ _ => true
  | .error _ _ => false

/-- What a summary tells of the limits of an inode. -/
def Inode.limits (inode : Inode) : Counts :=
  (inode.quota.map Quota.limits).getD Counts.unlimited

namespace Namespace

variable {ns : Namespace} {operation : Operation} {lock : PathLock}
  {chain : Chain} {inode : Inode} {locks : LockSet}

/-- The inode that a path leads to may be read. -/
theorem Opening.get (opening : ns.Opening lock chain inode locks) :
    Work.get chain.last (ns.opened operation locks) =
      .ok inode (ns.opened operation locks) := by
  rw [get_eq_ok, tree_opened]
  exact ⟨⟨allows_opened (opening.along _ chain.last_mem_ids), opening.live⟩,
    rfl⟩

theorem obeys_chainOf (sound : ns.Sound)
    (path : String) : ns.Obeys .getFileInfo .path path
    (fun chain _ result => result = .ok chain ns) (chainOf path true) := by
  have h :=
    @obeys_of_transact ns .getFileInfo
      { path, kind := .read, following := true } _ path
      (fun chain _ result => result = .ok chain ns) (fun _ chain => pure chain)
      sound rfl (by simp) (by simp) (fun _ _ => .pure _)
      fun _ _ => congrArg _ (commit_opened sound.locks)
  simp only [bind_pure] at h
  exact h

theorem obeys_status (sound : ns.Sound) (path : String) :
    ns.Obeys .getFileInfo .path path (fun _ inode result => result =
      .ok inode.status ns) (status path true) := by
  refine @obeys_of_transact ns _ { path, kind := .read, following := true } _
    path _ (fun _ chain => do pure (← Work.get chain.last).status) sound rfl
    (by simp) (by simp) (fun _ _ => .bind (.read _) fun _ => .pure _)
    fun _ opening => ?_
  rw [Outcome.bind_of_ok opening.get]
  exact congrArg _ (commit_opened sound.locks)

/-- The status of each entry of a directory, or of anything else itself. -/
def Lists (ns : Namespace) (inode : Inode) (list : List Status) : Prop :=
  if inode.isDirectory then
    List.Forall₂ (fun id status => ∃ entry, ns.table.find? id = some entry ∧
      status = entry.status)
      inode.children list
  else list = [inode.status]

theorem exists_mapM_status {ids : List InodeId} {tx : Transaction}
    (allows : ∀ id ∈ ids, tx.Allows id .read ∧ (tx.tree id).isSome) :
    ∃ list, List.Forall₂ (fun id status => ∃ entry, tx.tree id = some entry ∧
        status = entry.status) ids list ∧
      ids.mapM (fun id => Inode.status <$> Work.get id) tx = .ok list tx := by
  induction ids with
  | nil => exact ⟨[], .nil, rfl⟩
  | cons id rest ih =>
    obtain ⟨hallows, hsome⟩ := allows id List.mem_cons_self
    obtain ⟨entry, live⟩ := Option.isSome_iff_exists.1 hsome
    obtain ⟨list, hlist, hrest⟩ :=
      ih fun x hx => allows x (List.mem_cons_of_mem id hx)
    have hentry : (Inode.status <$> Work.get id) tx = .ok entry.status tx :=
      Outcome.map_eq_ok.2 ⟨entry, get_eq_ok.2 ⟨⟨hallows, live⟩, rfl⟩, rfl⟩
    refine ⟨entry.status :: list, .cons ⟨entry, live, rfl⟩ hlist, ?_⟩
    rw [List.mapM_cons, Outcome.bind_of_ok hentry, Outcome.bind_of_ok hrest]
    rfl

theorem obeys_listing (sound : ns.Sound) (path : String) :
    ns.Obeys .getListing .children path
      (fun _ inode result => ∃ list, ns.Lists inode list ∧ result = .ok list ns)
      (listing path) := by
  have wf : ns.table.tree.WellFormed := sound.books.wellFormed
  refine @obeys_of_transact ns _
    { path, kind := .read, scope := .children, following := true } _ path _
    (fun _ chain => do
      let inode ← Work.get chain.last
      if inode.isDirectory then
        inode.children.mapM fun id => Inode.status <$> Work.get id
      else pure [inode.status]) sound rfl (by simp) (by simp)
    (fun _ _ => .bind (.read _) fun _ => .ite (.mapM fun _ => .map (.read _))
      (.pure _))
    fun {_} {chain} {inode} {locks} _ opening => ?_
  rw [Outcome.bind_of_ok opening.get]
  unfold Lists
  split
  next hdirectory =>
    obtain ⟨list, hlist, hmapM⟩ :=
      @exists_mapM_status inode.children (ns.opened .getListing locks)
        fun x hx => by
        obtain ⟨entry, live, _⟩ := (wf.mem_children opening.live).1 hx
        rw [tree_opened, live]
        exact ⟨allows_opened (opening.listed rfl x hx), rfl⟩
    rw [tree_opened] at hlist
    refine ⟨list, hlist, ?_⟩
    rw [hmapM]
    exact congrArg _ (commit_opened sound.locks)
  next =>
    exact ⟨_, rfl, congrArg _ (commit_opened sound.locks)⟩

/-- The sum over a subtree, from which a summary starts with the limits of its
top. -/
theorem obeys_summary (sound : ns.Sound) (path : String) :
    ns.Obeys .contentSummary .path path
      (fun chain inode result => ∃ ids pauses,
        ns.table.view.subtree chain.last = .ok ids ∧
        result =
          .ok (Summary.addAll { limits := inode.limits } ns.table.tree ids)
          { ns with pauses })
      (summary path) := by
  refine @obeys_of_acts ns _ { path, kind := .read, following := true } _ _
    (fun _ chain => do
      let inode ← Work.get chain.last
      pure (chain.last, inode.limits))
    (fun _ found => do
      let ns ← MonadState.get
      let visits := ns.table.visits ns.table.size [found.1]
      summarizeQueue (max 1 ns.config.summaryBatch) visits [found.1]
        { limits := found.2 })
    _ _ sound rfl (by simp) (by simp)
      (fun _ _ => .bind (.read _) fun _ => .pure _)
    fun _ opening => ?_
  rw [Outcome.bind_of_ok opening.get]
  obtain ⟨ids, pauses, hids, hsum⟩ :=
    @exists_summarizeQueue ns ns.config.summaryBatch sound _ _ opening.live
      { limits := _ }
  refine ⟨ids, pauses, hids, Eq.trans ?_ hsum⟩
  unfold finish
  dsimp only [pure, EStateM.pure]
  rw [commit_opened sound.locks, Outcome.get_bind]

/-- What truncating leaves of an inode, or why it is refused. -/
def truncated (path : String) (length : Int) (inode : Inode) :
    Except Error Inode :=
  match inode.asFile with
  | none => throw (.notFile path)
  | some file =>
    match file.writer with
    | some holder => throw (.beingWritten .truncate path holder.client)
    | none =>
      if length < 0 then throw (.badArgument (.negativeLength length))
      else if file.size < length.toNat then
        throw (.badArgument (.longerThanFile file.size length.toNat))
      else if length.toNat = file.size then pure inode
      else pure (inode.withFile (file.truncate length.toNat).1)

/-- Truncating stores what is left of one inode, or nothing. -/
def Truncates (ns : Namespace) (path : String) (length : Int) (chain : Chain)
    (inode : Inode) (result : EStateM.Result Error Namespace Unit) : Prop :=
  ∃ resolved, Path.resolveReserved ns.table.view path = .ok resolved ∧
    match truncated resolved length inode with
    | .error error => result = .error error ns
    | .ok left => ∃ ns', result = .ok () ns' ∧
        ns'.table.tree = ns.table.tree.set chain.last (some left)

section Truncating

variable {path : String} {length : Int} {left : Inode} {error : Error}
  (opening : ns.Opening lock chain inode locks)

include opening

theorem truncating_of_error (h : truncated path length inode = .error error) :
    truncateAt path length chain (ns.opened operation locks) =
      .error error (ns.opened operation locks) := by
  unfold truncated at h
  unfold truncateAt
  rw [Outcome.bind_of_ok opening.get]
  cases hfile : inode.asFile with
  | none =>
    rw [hfile] at h
    cases h
    rfl
  | some file =>
    cases hwriter : file.writer with
    | some holder =>
      simp only [hfile, hwriter] at h ⊢
      cases h
      rfl
    | none =>
      simp only [hfile, hwriter] at h ⊢
      split at h
      next hnegative =>
        cases h
        rw [if_pos hnegative]
        rfl
      next hnegative =>
        rw [if_neg hnegative]
        split at h
        next hlonger =>
          cases h
          rw [if_pos hlonger]
          rfl
        next => split at h <;> cases h

/-- Truncating a closed file to the length it has does nothing. -/
theorem truncating_of_whole {file : File} (content : inode.asFile = some file)
    (closed : file.writer = none) :
    truncateAt path file.size chain (ns.opened operation locks) =
      .ok [] (ns.opened operation locks) := by
  have hnegative : ¬ (file.size : Int) < 0 := by omega
  unfold truncateAt
  rw [Outcome.bind_of_ok opening.get]
  simp only [content, closed, Int.toNat_natCast]
  rw [if_neg hnegative, if_neg (Nat.lt_irrefl _), if_pos trivial]
  rfl

/-- What truncating does to a closed file that is longer. -/
theorem truncating_of_shorter {length : Nat} {file : File} (sound : ns.Sound)
    (kind : lock.kind = .write) (content : inode.asFile = some file)
    (closed : file.writer = none) (shorter : length < file.size) :
    ∃ parent, inode.parent = some parent ∧
      truncateAt path length chain (ns.opened operation locks) =
        .ok (file.truncate length).2
        ((((ns.opened operation locks).stored
          (inode.withFile (file.truncate length).1)).accounted
          parent ((file.truncate length).1.spaceSince file)).journaled
            (.truncate chain.path length)) := by
  have wf : ns.table.tree.WellFormed := sound.books.wellFormed
  have hid : inode.id = chain.last := wf.ids opening.live
  have leads := opening.leads
  obtain ⟨parent, name, id, rfl⟩ := @Transaction.exists_child_of_file
    (ns.opened operation locks) _ _ _ (tree_opened ▸ wf) (tree_opened ▸ leads)
    (tree_opened ▸ opening.live) content
  obtain ⟨found, hfound, hparent⟩ := leads.link wf
  obtain rfl : inode = found := Option.some.inj (opening.live.symm.trans hfound)
  have hwrite : (ns.opened operation locks).Allows
      (inode.withFile (file.truncate length).1).id .write := by
    have hlast := opening.last
    rw [kind] at hlast
    rw [Inode.id_withFile, hid]
    exact allows_opened hlast
  have hnegative : ¬ (length : Int) < 0 := by omega
  refine ⟨parent.last, hparent, ?_⟩
  unfold truncateAt
  rw [Outcome.bind_of_ok opening.get]
  simp only [content, closed, Int.toNat_natCast]
  rw [if_neg hnegative, if_neg (Nat.lt_asymm shorter),
    if_neg (Nat.ne_of_lt shorter)]
  refine Outcome.bind_eq_ok.2 ⟨(), _, put_eq_ok.2 ⟨hwrite, rfl⟩,
    Outcome.bind_eq_ok.2 ⟨(), _, accountAbove_eq_ok.2 ⟨fun _ _ hno => ?_, rfl⟩,
      Outcome.bind_eq_ok.2 ⟨(), _, journal_eq_ok.2 rfl, rfl⟩⟩⟩
  cases hno

theorem truncating_of_ok (sound : ns.Sound) (kind : lock.kind = .write)
    (h : truncated path length inode = .ok left) :
    ∃ dropped tx, truncateAt path length chain (ns.opened operation locks) =
        .ok dropped tx ∧
      tx.tree = ns.table.tree.set chain.last (some left) := by
  have wf : ns.table.tree.WellFormed := sound.books.wellFormed
  have hid : inode.id = chain.last := wf.ids opening.live
  unfold truncated at h
  cases hfile : inode.asFile with
  | none =>
    rw [hfile] at h
    cases h
  | some file =>
    cases hwriter : file.writer with
    | some holder =>
      simp only [hfile, hwriter] at h
      cases h
    | none =>
      simp only [hfile, hwriter] at h
      split at h
      next => cases h
      next hnegative =>
        obtain ⟨length, rfl⟩ := Int.eq_ofNat_of_zero_le (Int.not_lt.1 hnegative)
        rw [Int.toNat_natCast] at h
        split at h
        next => cases h
        next hlonger =>
          split at h
          next hsame =>
            cases h
            subst hsame
            refine ⟨[], _, truncating_of_whole opening hfile hwriter, ?_⟩
            rw [tree_opened, ← opening.live]
            exact (Function.update_eq_self _ _).symm
          next hsame =>
            cases h
            have hshorter : length < file.size := by omega
            obtain ⟨parent, _, hwork⟩ := @truncating_of_shorter _ operation _ _
              _ _ path opening _ _ sound kind hfile hwriter hshorter
            refine ⟨_, _, hwork, ?_⟩
            rw [Transaction.tree_journaled, Transaction.tree_accounted,
              Transaction.tree_stored, tree_opened, Inode.id_withFile, hid]

end Truncating

theorem obeys_truncate (sound : ns.Sound) (path : String) (length : Int) :
    ns.Obeys .truncate .path path (ns.Truncates path length)
      (truncate path length) := by
  unfold truncate
  refine @obeys_of_acts ns _ { path, kind := .write, following := true } _ _
    (fun path => truncateAt path length) (fun _ => releaseBlocks) _ _ sound rfl
    (by simp) (by simp) (fun _ _ => .truncateAt _ _ _)
    fun {resolved} {chain} {inode} {locks} hresolved opening => ?_
  refine ⟨resolved, hresolved, ?_⟩
  cases h : truncated resolved length inode with
  | error error =>
    rw [truncating_of_error opening h]
    exact congrArg _ (rollback_opened sound.locks)
  | ok left =>
    obtain ⟨dropped, tx, hwork, htree⟩ :=
      @truncating_of_ok ns .truncate _ _ _ _ _ _ _ opening sound rfl h
    have keyed : tx.Keyed := keyed_of_ok (.truncateAt _ _ _) hwork
    rw [hwork]
    refine ⟨_, rfl, ?_⟩
    change tx.commit.table.tree = _
    rw [table_commit, ← htree]
    exact funext (Transaction.find?_tableAfter keyed)

/-- In every namespace that can come about, a request that follows symlinks does
what it should with the inode that the resolver leads to and is refused as the
resolver is, unless symlinks are followed that its locks leave out; then it
faults. -/
theorem obeys_after (config : Config) (events : List Event) (path : String)
    (length : Int) :
    let ns := (fresh config).after (events.map Event.run)
    ns.Obeys .getFileInfo .path path
      (fun chain _ result => result = .ok chain ns)
        (chainOf path true) ∧
      ns.Obeys .getFileInfo .path path
        (fun _ inode result => result = .ok inode.status ns)
        (status path true) ∧
      ns.Obeys .getListing .children path
        (fun _ inode result => ∃ list, ns.Lists inode list ∧
          result = .ok list ns)
        (listing path) ∧
      ns.Obeys .contentSummary .path path
        (fun chain inode result => ∃ ids pauses,
          ns.table.view.subtree chain.last = .ok ids ∧
          result =
            .ok (Summary.addAll { limits := inode.limits } ns.table.tree ids)
            { ns with pauses })
        (summary path) ∧
      ns.Obeys .truncate .path path (ns.Truncates path length)
        (truncate path length) := by
  have sound := (sound_fresh config).after events
  exact ⟨obeys_chainOf sound path, obeys_status sound path,
    obeys_listing sound path, obeys_summary sound path,
    obeys_truncate sound path length⟩

def linkRun : List Event :=
  [.call (.create "/f" { writer := ⟨"c", ""⟩ }),
    .call (.createSymlink "/f" "/l2" {} false),
    .call (.createSymlink "/l2" "/l1" {} false)]

theorem not_heeds_linkRun :
    ¬ ((fresh {}).after (linkRun.map Event.run)).Heeds "/l1"
      (fun _ inode result => result = .ok inode.status
        ((fresh {}).after (linkRun.map Event.run))) (status "/l1" true) := by
  have hleads :
      (((fresh {}).after (linkRun.map Event.run)).leadsTo "/l1").isOk =
        true := by
    decide +kernel
  have hfault : Outcome.isOk (status "/l1" true
        ((fresh {}).after (linkRun.map Event.run))) = false := by
    decide +kernel
  generalize (fresh {}).after (linkRun.map Event.run) = ns at hleads hfault ⊢
  unfold Heeds
  cases h : ns.leadsTo "/l1" with
  | error error =>
    rw [h] at hleads
    cases hleads
  | ok chain =>
    rintro ⟨inode, _, hstatus⟩
    rw [hstatus] at hfault
    cases hfault

end Namespace

end QuotaTree
