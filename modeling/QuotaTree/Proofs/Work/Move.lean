/-
Moving an inode to another directory or name: the entry is dropped, the usage is
taken off the quotas above, and the inode is linked at its new place.
-/
import QuotaTree.Proofs.Work.Turns
import QuotaTree.Request.Rename

namespace QuotaTree

open Nodes

namespace Transaction

/-- The transaction before the inode is linked anew: its old directory has lost
the name, and the quotas above it the usage. -/
def freed (tx : Transaction) (holder : Inode) (parent : InodeId) (name : Name)
    (ids : List InodeId) (used : Counts) : Transaction :=
  (tx.stored (holder.withoutChild name)).accounted parent
    (tx.pendingFor ids - used)

end Transaction

namespace Work

open Transaction

variable {tx tx' : Transaction} {sourceParent parent : Chain}
  {name entry : Name} {id : InodeId} {done : Unit}

/-- An inode is moved away from what is a directory. -/
theorem detach_eq_ok {directory : InodeId} :
    detach directory name tx = .ok done tx' ↔
      ∃ holder, (tx.Opened directory holder ∧ holder.isDirectory = true) ∧
        tx' = tx.stored (holder.withoutChild name) := by
  have hid (holder : Inode) : (holder.withoutChild name).id = holder.id :=
    (Inode.loses_withoutChild holder name).id
  unfold detach
  simp only [Outcome.bind_eq_ok, get_eq_ok]
  constructor
  · rintro ⟨holder, _, ⟨⟨hread, live⟩, rfl⟩, hbody⟩
    by_cases hdirectory : holder.isDirectory = true
    · rw [if_pos hdirectory, put_eq_ok, hid] at hbody
      exact ⟨holder, ⟨⟨live, hread, hbody.1⟩, hdirectory⟩, hbody.2⟩
    · simp [hdirectory] at hbody
  · rintro ⟨holder, ⟨opened, hdirectory⟩, rfl⟩
    refine ⟨holder, tx, ⟨⟨opened.read, opened.live⟩, rfl⟩, ?_⟩
    rw [if_pos hdirectory, put_eq_ok, hid]
    exact ⟨opened.write, rfl⟩

/-- A second try after the link has failed never succeeds. -/
theorem link_or_relink_eq_ok {inode moved : Inode} {counts : Counts} :
    (try
      let _ ← link parent moved counts false
    catch error =>
      let _ ← link sourceParent inode counts false
      throw error : Work Unit) tx = .ok done tx' ↔
      ∃ chain, link parent moved counts false tx = .ok chain tx' := by
  rw [Outcome.tryCatch_eq_ok]
  simp

/-- Everything that is asked before an inode is linked at its new place.  Its
subtree is listed again once its old directory has lost the name. -/
structure Moves (tx : Transaction) (sourceParent : Chain) (entry : Name)
    (id : InodeId) (parent : Chain) (name : Name) (inode holder : Inode)
    (ids again : List InodeId) (used : Counts) : Prop where
  usage : tx.view.usage id = .ok used
  subtree : tx.view.subtree id = .ok ids
  affords : tx.keepsQuota = true →
    Chain.verifyQuota tx.view parent parent.length used
      (some ((sourceParent.child entry id).commonAncestor parent)) = .ok ()
  read : tx.Allows id .read
  live : tx.tree id = some inode
  opened : tx.Opened sourceParent.last holder
  directory : holder.isDirectory = true
  admits : (tx.stored (holder.withoutChild entry)).Admits parent name true
  again : (tx.stored (holder.withoutChild entry)).view.subtree id = .ok again

theorem quota_verified_iff {p : Prop} [Decidable p]
    {reading : View → Except Error Unit} :
    (if p then Work.read reading tx = .ok () tx' else tx' = tx) ↔
      (p → reading tx.view = .ok ()) ∧ tx' = tx := by
  by_cases h : p <;> simp [h]

theorem move_eq_ok :
    move (sourceParent.child entry id) sourceParent parent name tx =
      .ok done tx' ↔
      ∃ inode holder ids again used target directory,
        Moves tx sourceParent entry id parent name inode holder ids again used ∧
        Links (tx.freed holder sourceParent.last entry again used) parent
          { inode with name }
          (used - tx.pendingFor ids) false target directory ∧
        tx' = (tx.freed holder sourceParent.last entry again used).linked target
          directory
          parent.last { inode with name } (used - tx.pendingFor ids) := by
  unfold move
  simp only [Chain.last_child, Chain.lastName_child, Outcome.bind_eq_ok,
    Work.usage, Work.subtree, read_eq_ok, pendingFor_eq_ok, Outcome.get_bind]
  constructor
  · rintro ⟨used, _, ⟨husage, rfl⟩, ids, _, ⟨hsubtree, rfl⟩, _, _, ⟨rfl, rfl⟩,
      h⟩
    rw [Outcome.when_eq_ok] at h
    obtain ⟨_, hverify, h⟩ := h
    obtain ⟨haffords, rfl⟩ := quota_verified_iff.1 hverify
    simp only [Outcome.bind_eq_ok, get_eq_ok, detach_eq_ok, verifyEntry_eq_ok,
      unlink_moving_eq_ok] at h
    obtain ⟨inode, _, ⟨⟨hread, live⟩, rfl⟩, _, _,
      ⟨holder, ⟨opened, hdirectory⟩, rfl⟩, _, _, ⟨hadmits, rfl⟩, _, _,
      ⟨rfl, again, hagain, rfl⟩, h⟩ := h
    obtain ⟨chain, hlink⟩ := link_or_relink_eq_ok.1 h
    obtain ⟨target, directory, links, _, rfl⟩ := link_eq_ok.1 hlink
    exact ⟨inode, holder, ids, again, _, target, directory, ⟨husage, hsubtree,
      haffords, hread, live, opened, hdirectory, hadmits, hagain⟩, links, rfl⟩
  · rintro ⟨inode, holder, ids, again, used, target, directory, moves, links,
      rfl⟩
    refine ⟨used, tx, ⟨moves.usage, rfl⟩, ids, tx, ⟨moves.subtree, rfl⟩, _, tx,
      ⟨rfl, rfl⟩, ?_⟩
    rw [Outcome.when_eq_ok]
    refine ⟨tx, quota_verified_iff.2 ⟨moves.affords, rfl⟩, ?_⟩
    simp only [Outcome.bind_eq_ok, get_eq_ok, detach_eq_ok, verifyEntry_eq_ok,
      unlink_moving_eq_ok]
    refine ⟨inode, tx, ⟨⟨moves.read, moves.live⟩, rfl⟩, (), _,
      ⟨holder, ⟨moves.opened, moves.directory⟩, rfl⟩, (), _,
      ⟨moves.admits, rfl⟩, used, _, ⟨rfl, again, moves.again, rfl⟩, ?_⟩
    exact link_or_relink_eq_ok.2
      ⟨_, link_eq_ok.2 ⟨target, directory, links, rfl, rfl⟩⟩

/-- Below the inode nothing has changed by then, so that its subtree is listed
the same again. -/
theorem subtree_stored {inode : Inode} {ids : List InodeId}
    (h : tx.view.subtree id = .ok ids) (outside : inode.id ∉ ids) :
    (tx.stored inode).view.subtree id = .ok ids := by
  refine View.levels_congr h (fun x hx => ?_) ?_
  · have hne : x ≠ inode.id := fun heq => outside (heq ▸ hx)
    have hfind : (tx.stored inode).find? x = tx.find? x := by
      change (tx.stored inode).tree x = tx.tree x
      rw [tree_stored, set_of_ne _ hne]
    change ((tx.stored inode).ensureLocked x .read >>= fun _ =>
      pure ((tx.stored inode).find? x)) = _
    rw [hfind]
    rfl
  · have hle : tx.writes.size ≤ (tx.writes.insert inode.id (some inode)).size :=
      Std.ExtTreeMap.size_le_size_insert
    change tx.base.table.size + tx.writes.size + 1 ≤
      tx.base.table.size + (tx.writes.insert inode.id (some inode)).size + 1
    omega

namespace Moves

variable {inode holder target : Inode} {ids again : List InodeId}
  {used counts : Counts} {directory : Directory}
  (moves : Moves tx sourceParent entry id parent name inode holder ids again
    used)

include moves

/-- When the inode is linked anew its old directory has lost its name. -/
theorem tree_freed (wf : tx.tree.WellFormed) :
    (tx.freed holder sourceParent.last entry again used).tree =
      tx.tree.set sourceParent.last (some (holder.withoutChild entry)) := by
  have hlost : (holder.withoutChild entry).id = sourceParent.last :=
    (Inode.loses_withoutChild holder entry).id.trans (wf.ids moves.opened.live)
  rw [freed, tree_accounted, tree_stored, hlost]

theorem target_id (wf : tx.tree.WellFormed) {moved : Inode}
    (links : Links (tx.freed holder sourceParent.last entry again used) parent
      moved counts false target directory) :
    target.id = parent.last := by
  have hlive := links.opened.live
  rw [moves.tree_freed wf, set_apply] at hlive
  split at hlive
  next heq =>
    rw [← Option.some_inj.1 hlive, heq]
    exact (Inode.loses_withoutChild holder entry).id.trans
      (wf.ids moves.opened.live)
  next => exact wf.ids hlive

theorem used_eq (ready : tx.Ready) :
    used = ∑ x ∈ ids.toFinset, tx.tree.own x := by
  obtain ⟨ids', hids', rfl⟩ := ready.reads.usage moves.usage
  obtain rfl : ids = ids' := Except.ok.inj (moves.subtree.symm.trans hids')
  exact Counts.sum_map_of_nodup
    (ready.reads.subtree_nodup ready.wellFormed moves.subtree) _

section Entered

variable (ready : tx.Ready)
  (entered : tx.tree.entryAt sourceParent.last entry = some id)

include entered

theorem child_eq : holder.child? entry = some id := by
  rw [← entryAt_of_live moves.opened.live]
  exact entered

include ready

theorem again_eq : again = ids := by
  have wf := ready.wellFormed
  have hlost : (holder.withoutChild entry).id = sourceParent.last :=
    (Inode.loses_withoutChild holder entry).id.trans (wf.ids moves.opened.live)
  have hlink := wf.hasParent_of_child moves.opened.live (moves.child_eq entered)
  have hout : (holder.withoutChild entry).id ∉ ids := by
    rw [hlost, ready.reads.mem_subtree wf moves.subtree]
    exact wf.not_under_parent hlink
  exact Except.ok.inj
    (moves.again.symm.trans (subtree_stored moves.subtree hout))

/-- The subtree is taken from its directory and entered into the other one. -/
theorem relocation (leads : Chain.Leads tx.tree parent)
    (outside : parent.contains id = false)
    (links : Links (tx.freed holder sourceParent.last entry again used) parent
      { inode with name } counts false target directory) :
    tx.tree.Relocation id sourceParent.last parent.last entry name
      (holder.withoutChild entry) (target.withDirectory
        { directory with children := directory.children.insert name id })
      { inode with name, parent := some parent.last } where
  listed := ⟨holder, moves.opened.live, moves.child_eq entered,
    Inode.loses_withoutChild holder entry⟩
  entered := by
    have hdir := Inode.asDirectory_eq_some.2 links.content
    refine ⟨target, moves.tree_freed ready.wellFormed ▸ links.opened.live, ?_,
      Inode.gains_insert name id hdir⟩
    have hfree := links.free
    simp only [Inode.child?, hdir, Option.bind_some]
    exact hfree
  placed := ⟨inode, moves.live, rfl⟩
  outside hunder := by
    have hmem := (leads.mem_ids ready.wellFormed).2 hunder
    rw [Chain.contains, List.contains_eq_mem, decide_eq_false_iff_not]
      at outside
    exact outside hmem

end Entered

end Moves

/-- A subtree moves in the books as a whole, with all that is pending in it. -/
theorem turns_move (ready : tx.Ready)
    (entered : tx.tree.entryAt sourceParent.last entry = some id)
    (leads : Chain.Leads tx.tree parent) (outside : parent.contains id = false)
    (named : name.Proper)
    (h : move (sourceParent.child entry id) sourceParent parent name tx =
      .ok done tx') :
    tx.Turns tx' := by
  obtain ⟨inode, holder, ids, again, used, target, directory, moves, links,
    rfl⟩ := move_eq_ok.1 h
  have wf := ready.wellFormed
  have nodup := ready.reads.subtree_nodup wf moves.subtree
  have hmem := ready.reads.mem_subtree wf moves.subtree
  obtain rfl : again = ids := moves.again_eq ready entered
  have hid : inode.id = id := wf.ids moves.live
  have hsum : ∑ x ∈ again.toFinset,
      tx.books.settled x = used - tx.pendingFor again := by
    rw [pendingFor_eq ready.plain nodup, moves.used_eq ready]
    simp only [Books.settled, books, Finset.sum_sub_distrib]
  have rel := moves.relocation ready entered leads outside links
  have unreserved : parent.last = .root → name ≠ Name.ofText reservedName :=
    fun hroot hname => links.name ⟨Chain.length_eq_one_iff.2
      (((leads.proper wf).last_eq_root_iff).1 hroot), hname⟩
  have spans : tx.tree.Spans id again.toFinset :=
    fun x => by rw [List.mem_toFinset, hmem]
  refine ⟨.single ?_, rfl, fun plain => ⟨plain.merged, plain.clearing⟩⟩
  have change := @Change.relocate tx.keepsQuota tx.books _ _ _ _ _ _ _ _ _ rel
    named unreserved spans
  rw [hsum, neg_sub] at change
  rw [books_linked (moves.target_id wf links)]
  have hpending :
      (tx.freed holder sourceParent.last entry again used).pendingAt =
        Books.charge tx.pendingAt tx.keepsQuota sourceParent.last
        (tx.pendingFor again - used) := congrArg Books.pending
    (@books_accounted (tx.stored (holder.withoutChild entry)) _ _)
  rw [hid] at change
  rw [hpending, moves.tree_freed wf, hid]
  exact change

end Work

end QuotaTree
