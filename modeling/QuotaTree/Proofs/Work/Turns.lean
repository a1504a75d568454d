/-
What a successful unit of work does to the books, from the single link and
unlink up to whole subtrees.
-/
import QuotaTree.Proofs.Tree.Chain
import QuotaTree.Proofs.Work.Books
import QuotaTree.Request.Create

namespace QuotaTree

open Nodes

namespace Transaction

/-- The books are sound, and the ledger is not being merged or emptied. -/
structure Ready (tx : Transaction) : Prop where
  sound : tx.books.Sound
  plain : tx.Plain

theorem Ready.wellFormed {tx : Transaction} (ready : tx.Ready) :
    tx.tree.WellFormed :=
  ready.sound.wellFormed

/-- The identity that is given out next is not in use. -/
theorem Ready.dead_next {tx : Transaction} (ready : tx.Ready) :
    tx.tree tx.base.table.next = none := by
  cases hlive : tx.tree tx.base.table.next with
  | none => rfl
  | some inode => exact absurd (ready.sound.below hlive) (Nat.lt_irrefl _)

theorem Ready.reads {tx : Transaction} (ready : tx.Ready) :
    tx.view.Reads tx.tree :=
  view_reads ready.wellFormed

/-- Work that has come from one state of the transaction to another by changes
of the books. -/
structure Turns (before after : Transaction) : Prop where
  changes :
    Relation.ReflTransGen (Change before.keepsQuota) before.books after.books
  keepsQuota : after.keepsQuota = before.keepsQuota
  plain : before.Plain → after.Plain

namespace Turns

variable {first second third : Transaction}

theorem refl (tx : Transaction) : tx.Turns tx :=
  ⟨.refl, rfl, id⟩

theorem trans (early : first.Turns second) (late : second.Turns third) :
    first.Turns third where
  changes := early.changes.trans (early.keepsQuota ▸ late.changes)
  keepsQuota := late.keepsQuota.trans early.keepsQuota
  plain := late.plain ∘ early.plain

theorem ready (turns : first.Turns second) (ready : first.Ready) :
    second.Ready :=
  ⟨(@Effect.changes _ false _ _ turns.changes).sound ready.sound,
    turns.plain ready.plain⟩

theorem journaled (tx : Transaction) (edit : Edit) :
    tx.Turns (tx.journaled edit) :=
  ⟨.refl, rfl, fun plain => ⟨plain.merged, plain.clearing⟩⟩

theorem allocated (tx : Transaction) {next : InodeId}
    (h : tx.base.table.next.next? = some next) :
    tx.Turns (tx.allocated next) := by
  have hle := InodeId.next?_eq_some h
  refine ⟨.single (.skip ?_ fun _ => InodeId.next?_le h), rfl,
    fun plain => ⟨plain.merged, plain.clearing⟩⟩
  change tx.base.table.next.val ≤ next.val
  omega

end Turns

section Linked

variable {tx : Transaction} {parent : Chain} {inode holder : Inode}
  {directory : Directory} {counts : Counts} {checked : Bool}

theorem tree_linked {parent : InodeId} (hid : holder.id = parent) :
    (tx.linked holder directory parent inode counts).tree =
      tx.tree.insert parent inode.id
        (holder.withDirectory
          { directory with
            children := directory.children.insert inode.name inode.id })
        { inode with parent := some parent } := by
  rw [linked, tree_stored, tree_stored, tree_accounted, Nodes.insert]
  subst hid
  rfl

theorem books_linked {parent : InodeId} (hid : holder.id = parent) :
    (tx.linked holder directory parent inode counts).books =
      { tx.books with
        nodes := tx.tree.insert parent inode.id
          (holder.withDirectory
            { directory with
              children := directory.children.insert inode.name inode.id })
          { inode with parent := some parent }
        pending := Books.charge tx.pendingAt tx.keepsQuota parent counts } := by
  rw [linked, books_stored, books_stored, books_accounted, tree_stored,
    tree_accounted, Nodes.insert]
  subst hid
  rfl

/-- A directory that is opened gains an entry for an inode that is not there
yet. -/
theorem insertion_linked
    (links : Work.Links tx parent inode counts checked holder directory)
    (dead : tx.tree inode.id = none) (leaf : ∀ name, inode.child? name = none) :
    tx.tree.Insertion parent.last inode.id inode.name
      (holder.withDirectory
        { directory with
          children := directory.children.insert inode.name inode.id })
      { inode with parent := some parent.last } where
  entered := by
    have hdir := Inode.asDirectory_eq_some.2 links.content
    refine ⟨holder, links.opened.live, ?_, Inode.gains_insert _ _ hdir⟩
    simp [Inode.child?, hdir, links.free]
  fresh := dead
  id := rfl
  name := rfl
  parent := rfl
  leaf := leaf

/-- An identity is given out and an inode linked under it, which is one
change. -/
theorem turns_linked {next : InodeId} (ready : tx.Ready)
    (proper : parent.Proper) (named : inode.name.Proper)
    (hnext : tx.base.table.next.next? = some next)
    (hid : inode.id = tx.base.table.next)
    (links : Work.Links
      (tx.allocated next) parent inode inode.ownUsage checked holder directory)
    (leaf : ∀ name, inode.child? name = none) (unlimited : inode.quota = none)
    (empty : ∀ file, inode.asFile = some file → file.blocks = [] ∧
      file.inlineSize = none) :
    tx.Turns ((tx.allocated next).linked holder directory parent.last inode
      inode.ownUsage) where
  changes := by
    have hholder : holder.id = parent.last :=
      ready.wellFormed.ids links.opened.live
    have hle := InodeId.next?_eq_some hnext
    have ins := insertion_linked links (hid ▸ ready.dead_next) leaf
    rw [books_linked hholder]
    refine .single (@Change.link tx.keepsQuota tx.books _ _ _ _ _ _ ins named ?_
      unlimited ?_ ?_ (InodeId.next?_le hnext) empty)
    · intro hroot hname
      exact links.name
        ⟨Chain.length_eq_one_iff.2 (proper.last_eq_root_iff.1 hroot), hname⟩
    · exact Nat.le_of_eq (congrArg InodeId.val hid.symm)
    · change inode.id.val < next.val
      rw [hid]
      omega
  keepsQuota := rfl
  plain plain := ⟨plain.merged, plain.clearing⟩

end Linked

section Unlinked

variable {tx : Transaction} {parent : Chain} {holder : Inode} {id : InodeId}
  {name : Name} {ids : List InodeId} {used : Counts}

theorem tree_unlinked {parent : InodeId} (hid : holder.id = parent) :
    (tx.unlinked holder parent name ids used).tree = fun x =>
      if x ∈ ids then
        none else tx.tree.set parent (some (holder.withoutChild name)) x := by
  have hlost : (holder.withoutChild name).id = parent :=
    (Inode.loses_withoutChild holder name).id.trans hid
  funext x
  rw [unlinked, tree_withdrawing, tree_removedAll, tree_stored, tree_accounted,
    hlost]
  simp

theorem books_unlinked {parent : InodeId} (hid : holder.id = parent) :
    (tx.unlinked holder parent name ids used).books =
      { tx.books with
        nodes := fun x =>
          if x ∈ ids then
            none else tx.tree.set parent (some (holder.withoutChild name)) x
        pending := fun x =>
          if x ∈ ids then 0
          else Books.charge tx.pendingAt tx.keepsQuota parent
            (tx.pendingFor ids - used) x } := by
  have hlost : (holder.withoutChild name).id = parent :=
    (Inode.loses_withoutChild holder name).id.trans hid
  have hpending :
      ((((tx.accounted parent (tx.pendingFor ids - used)).stored
        (holder.withoutChild name)).removedAll ids.reverse)).pendingAt =
        Books.charge tx.pendingAt tx.keepsQuota parent
        (tx.pendingFor ids - used) :=
    congrArg Books.pending (@books_accounted tx _ _)
  rw [unlinked, books_withdrawing, hpending, books_removedAll, books_stored,
    books_accounted, tree_stored, tree_accounted, hlost]
  simp [books]

/-- What is left of the tree when all that is listed is under one entry. -/
theorem pruning_unlinked {parent : InodeId}
    (holds : tx.tree parent = some holder)
    (child : holder.child? name = some id)
    (mem : ∀ x, x ∈ ids ↔ tx.tree.Under id x) :
    tx.tree.Pruning (fun x => if x ∈ ids then none
      else tx.tree.set parent (some (holder.withoutChild name)) x) parent id
      name (holder.withoutChild name) where
  listed := ⟨holder, holds, child, Inode.loses_withoutChild holder name⟩
  gone h := if_pos ((mem _).2 h)
  kept h := if_neg fun hmem => h ((mem _).1 hmem)

/-- A subtree that is listed in full, with its usage, is taken out of the books
as a whole. -/
theorem turns_unlinked (ready : tx.Ready)
    (holds : tx.tree parent.last = some holder)
    (child : holder.child? name = some id) (nodup : ids.Nodup)
    (mem : ∀ x, x ∈ ids ↔ tx.tree.Under id x)
    (husage : used = ∑ x ∈ ids.toFinset, tx.tree.own x) :
    tx.Turns (tx.unlinked holder parent.last name ids used) where
  changes := by
    have hid : holder.id = parent.last := ready.wellFormed.ids holds
    have hdelta :
        tx.pendingFor ids - used = -∑ x ∈ ids.toFinset, tx.books.settled x := by
      rw [pendingFor_eq ready.plain nodup, husage]
      simp only [Books.settled, books, Finset.sum_sub_distrib]
      abel
    rw [books_unlinked hid, hdelta]
    have pruning := pruning_unlinked holds child mem
    have spans : tx.tree.Spans id ids.toFinset :=
      fun x => by rw [List.mem_toFinset, mem]
    have change :=
      @Change.prune tx.keepsQuota tx.books _ _ _ _ _ _ pruning spans
    simp only [List.mem_toFinset] at change
    exact .single change
  keepsQuota := rfl
  plain plain := ⟨plain.merged, plain.clearing⟩

end Unlinked

end Transaction

/-- The usage of a subtree is the sum over the inodes that are listed. -/
theorem View.Reads.usage {view : View} {nodes : Nodes} {id : InodeId}
    {used : Counts} (reads : view.Reads nodes) (h : view.usage id = .ok used) :
    ∃ ids, view.subtree id = .ok ids ∧
      used = Counts.sum (ids.map nodes.own) := by
  unfold View.usage at h
  simp only [Outcome.except_bind_eq_ok, Outcome.except_mapM_eq_ok,
    Outcome.except_pure_eq_ok, Outcome.except_map_eq_ok] at h
  obtain ⟨ids, hsubtree, usages, husages, rfl⟩ := h
  refine ⟨ids, hsubtree, congrArg Counts.sum ?_⟩
  clear hsubtree
  induction husages with
  | nil => rfl
  | cons hhead _ ih =>
    obtain ⟨inode, hget, rfl⟩ := hhead
    rw [List.map_cons, ih, Nodes.own_of_live (reads.get hget)]

/-- A subtree that can be seen can be listed, and its usage found. -/
theorem View.Reads.exists_usage {view : View} {nodes : Nodes} {id : InodeId}
    {inode : Inode} (reads : view.Reads nodes) (wf : nodes.WellFormed)
    (live : nodes id = some inode)
    (opens : ∀ x, nodes.Under id x → view.Opens nodes x) :
    ∃ ids, view.subtree id = .ok ids ∧ ids.Nodup ∧
      (∀ x, x ∈ ids ↔ nodes.Under id x) ∧
      view.usage id = .ok (Counts.sum (ids.map nodes.own)) := by
  obtain ⟨ids, hids⟩ := reads.exists_subtree wf live opens
  have hmem := reads.mem_subtree wf hids
  refine ⟨ids, hids, reads.subtree_nodup wf hids, hmem, ?_⟩
  have husages :
      ids.mapM (fun x => Inode.ownUsage <$> view.get x) =
        .ok (ids.map nodes.own) := by
    rw [Outcome.except_mapM_eq_ok, List.forall₂_map_right_iff,
      List.forall₂_same]
    intro x hx
    have hunder := (hmem x).1 hx
    obtain ⟨found, hfound⟩ :=
      Option.isSome_iff_exists.1 (isSome_of_under live hunder)
    rw [Outcome.except_map_eq_ok]
    exact ⟨found, (opens x hunder).get hfound, (own_of_live hfound).symm⟩
  rw [View.usage, hids]
  change (ids.mapM (fun x => Inode.ownUsage <$> view.get x) >>= _) = _
  rw [husages]
  rfl

namespace Work

open Transaction

variable {tx tx' : Transaction} {parent chain : Chain} {name : Name}
  {inode : Inode} {id : InodeId} {used : Counts}

/-- An identity that is given out is not in use. -/
theorem dead_of_alloc (ready : tx.Ready) (h : alloc tx = .ok id tx') :
    tx.Turns tx' ∧ tx'.tree id = none ∧ id.val < tx'.base.table.next.val := by
  obtain ⟨next, hnext, rfl, rfl⟩ := alloc_eq_ok.1 h
  refine ⟨.allocated tx hnext, ready.dead_next, ?_⟩
  have hle := InodeId.next?_eq_some hnext
  change tx.base.table.next.val < next.val
  omega

section New

variable {mid : Transaction} {permission : Permission} (ready : tx.Ready)
  (proper : parent.Proper)

include ready proper

/-- A new inode of a kind without entries, limits or data is put below the end
of a chain. -/
theorem turns_linkNew (named : inode.name.Proper)
    (halloc : alloc tx = .ok inode.id mid)
    (h : linkNew parent inode mid = .ok chain tx')
    (leaf : ∀ name, inode.child? name = none) (unlimited : inode.quota = none)
    (empty : ∀ file, inode.asFile = some file → file.blocks = [] ∧
      file.inlineSize = none) :
    tx.Turns tx' ∧ chain = parent.child inode.name inode.id ∧ chain.Proper := by
  obtain ⟨next, hnext, hid, rfl⟩ := alloc_eq_ok.1 halloc
  obtain ⟨holder, directory, links, rfl, rfl⟩ := link_eq_ok.1 h
  refine ⟨turns_linked ready proper named hnext hid links leaf unlimited empty,
    rfl, proper, ?_⟩
  intro hroot
  obtain ⟨root, hlive, _⟩ := ready.wellFormed.root
  rw [← hroot, hid, ready.dead_next] at hlive
  cases hlive

theorem turns_makeDirectory (named : name.Proper)
    (halloc : alloc tx = .ok id mid)
    (h : linkNew parent { id, name, permission, content := .directory {} } mid =
      .ok chain tx') :
    tx.Turns tx' ∧ chain.Proper := by
  obtain ⟨hturns, -, hproper⟩ := turns_linkNew ready proper named halloc h
    (fun other => by simp [Inode.child?, Inode.asDirectory]) rfl
    (fun file hfile => by cases hfile)
  exact ⟨hturns, hproper⟩

theorem turns_makeDirectories {names : List Name}
    (named : ∀ name ∈ names, name.Proper)
    (h : makeDirectories permission parent names tx = .ok chain tx') :
    tx.Turns tx' ∧ chain.Proper := by
  induction names generalizing tx parent with
  | nil =>
    obtain ⟨rfl, rfl⟩ := Outcome.pure_eq_ok.1 h
    exact ⟨.refl _, proper⟩
  | cons name rest ih =>
    simp only [makeDirectories, Outcome.bind_eq_ok] at h
    obtain ⟨id, mid, halloc, extended, mid', hlink, hrest⟩ := h
    obtain ⟨hturns, hproper⟩ := turns_makeDirectory ready proper
      (named name List.mem_cons_self) halloc hlink
    obtain ⟨hturns', hchain⟩ := ih (hturns.ready ready) hproper
      (fun other h => named other (List.mem_cons_of_mem _ h)) hrest
    exact ⟨hturns.trans hturns', hchain⟩

theorem turns_makeFile {replication blockSize : Nat} {writer : Writer}
    (named : name.Proper)
    (h : makeFile parent name permission replication blockSize writer tx =
      .ok chain tx') :
    tx.Turns tx' := by
  simp only [makeFile, Outcome.bind_eq_ok, read_eq_ok] at h
  obtain ⟨policy, _, ⟨_, rfl⟩, id, mid, halloc, hlink⟩ := h
  exact (turns_linkNew ready proper named halloc hlink
    (fun other => by simp [Inode.child?, Inode.asDirectory]) rfl
    (fun file hfile => by cases hfile; exact ⟨rfl, rfl⟩)).1

theorem turns_makeSymlink {target : String} (named : name.Proper)
    (halloc : alloc tx = .ok id mid)
    (h : linkNew parent { id, name, permission, content := .symlink target }
      mid = .ok chain tx') :
    tx.Turns tx' :=
  (turns_linkNew ready proper named halloc h
    (fun other => by simp [Inode.child?, Inode.asDirectory]) rfl
      (fun file hfile => by cases hfile)).1

end New

/-- What is taken out with the end of a chain is everything under it. -/
theorem turns_unlink (ready : tx.Ready)
    (entry : tx.tree.entryAt parent.last name = some id)
    (h : unlink (parent.child name id) false none tx = .ok used tx') :
    tx.Turns tx' := by
  obtain ⟨holder, ids, unlinks, rfl⟩ := unlink_eq_ok.1 h
  have reads := ready.reads
  obtain ⟨ids', hids', husage⟩ := reads.usage unlinks.usage
  obtain rfl : ids = ids' := Except.ok.inj (unlinks.subtree.symm.trans hids')
  have nodup := reads.subtree_nodup ready.wellFormed unlinks.subtree
  rw [entryAt_of_live unlinks.opened.live] at entry
  refine turns_unlinked ready unlinks.opened.live entry nodup
    (reads.mem_subtree ready.wellFormed unlinks.subtree) ?_
  rw [husage, Counts.sum_map_of_nodup nodup]

theorem child?_eq_none_of_entries (h : inode.entries = []) (name : Name) :
    inode.child? name = none := by
  cases hchild : inode.child? name with
  | none => rfl
  | some id =>
    have := Inode.mem_entries.2 hchild
    rw [h] at this
    cases this

theorem turns_unlinkLeaf (ready : tx.Ready)
    (entry : tx.tree.entryAt parent.last name = some id)
    (h : unlinkLeaf (parent.child name id) tx = .ok inode tx') :
    tx.Turns tx' := by
  obtain ⟨⟨live, _, hentries, _, _⟩, holder, opened, rfl⟩ :=
    unlinkLeaf_eq_ok.1 h
  rw [entryAt_of_live opened.live] at entry
  refine turns_unlinked ready opened.live entry (List.nodup_singleton id)
    (fun x => ?_) ?_
  · rw [List.mem_singleton, ready.wellFormed.under_iff_of_no_child live
      (child?_eq_none_of_entries hentries)]
  · simp [own_of_live live]

end Work

end QuotaTree
