/-
Units of work and the data of files.  Work on the tree leaves every open file as
it was: a file is replaced only when it is closed, and only a deletion takes out
what is open.  Work on a file revises that file alone, after it has looked at
the lease.
-/
import QuotaTree.Proofs.Files.Revisions
import QuotaTree.Proofs.Request.Adjust
import QuotaTree.Proofs.Request.Arrange
import QuotaTree.Proofs.Request.Create

namespace QuotaTree

open Nodes

/-- Outside of what is cleared nothing is touched. -/
theorem Nodes.Clears.spares {nodes after : Nodes} {top : InodeId}
    {lost : InodeId → Prop} (clears : nodes.Clears after top)
    (below : ∀ x, nodes.Under top x → lost x) : nodes.Spares after lost := by
  intro x file hfile _ hkept
  rw [Nodes.file, clears.outside x fun hunder => hkept (below x hunder)]
  exact hfile

namespace Transaction

variable {tx : Transaction} {holder inode : Inode} {directory : Directory}
  {parent : InodeId} {counts : Counts} {name : Name} {ids : List InodeId}
  {lost : InodeId → Prop}

/-- A directory has entries for inodes, and nothing else of them. -/
theorem file_of_directory {nodes : Nodes} (live : nodes parent = some holder)
    (content : holder.content = .directory directory) :
    nodes.file parent = none := by
  rw [file_of_live live, Inode.asFile, content]

/-- What is put below a directory takes the place of no open file, or is the
same file. -/
theorem spares_linked (hid : holder.id = parent)
    (live : tx.tree parent = some holder)
    (content : holder.content = .directory directory)
    (free : tx.tree.file inode.id = none ∨
      tx.tree.file inode.id = inode.asFile) :
    tx.tree.Spares
      (tx.linked holder directory parent inode counts).tree lost := by
  rw [tree_linked hid, Nodes.insert]
  have hplain := file_of_directory live content
  have hparent (other : InodeId) :
      (tx.tree.set parent (some (holder.withDirectory { directory with
        children := directory.children.insert inode.name inode.id }))).file
        other = tx.tree.file other := file_set_same (by rw [hplain]; rfl) other
  refine (Spares.of_eq hparent).trans ?_
  rcases free with hnone | hsame
  · exact .set ((hparent _).trans hnone)
  · exact .of_eq (file_set_same ((hparent _).trans hsame).symm)

/-- What is taken out is what is listed. -/
theorem spares_unlinked (hid : holder.id = parent)
    (live : tx.tree parent = some holder) (h : ∀ id ∈ ids, lost id) :
    tx.tree.Spares (tx.unlinked holder parent name ids counts).tree lost := by
  rw [tree_unlinked hid]
  have hsame :
      ∀ other, (tx.tree.set parent (some (holder.withoutChild name))).file
          other = tx.tree.file other := file_set_same
    (by rw [file_of_live live, (Inode.loses_withoutChild holder name).file])
  exact (Spares.of_eq hsame).trans (.removed ids h)

end Transaction

namespace Work

open Transaction

variable {tx tx' : Transaction} {parent chain : Chain} {name : Name}
  {inode : Inode} {id : InodeId} {used : Counts} {done : Unit}
  {path client : String} {block : Block} {number : Nat} {blocks : List Block}
  {lost : InodeId → Prop} {revision : Revision}

section Linking

theorem spares_linkNew (ready : tx.Ready) (dead : tx.tree inode.id = none)
    (h : linkNew parent inode tx = .ok chain tx') :
    tx.tree.Spares tx'.tree lost := by
  obtain ⟨holder, directory, links, _, rfl⟩ := link_eq_ok.1 h
  have live := links.opened.live
  refine spares_linked (ready.wellFormed.ids live) live links.content (.inl ?_)
  rw [Nodes.file, dead]
  rfl

theorem spares_makeDirectories {permission : Permission} {names : List Name}
    (ready : tx.Ready) (proper : parent.Proper)
    (named : ∀ name ∈ names, name.Proper)
    (h : makeDirectories permission parent names tx = .ok chain tx') :
    tx.tree.Spares tx'.tree lost := by
  induction names generalizing tx parent with
  | nil =>
    obtain ⟨_, rfl⟩ := Outcome.pure_eq_ok.1 h
    exact .refl _
  | cons name rest ih =>
    simp only [makeDirectories, Outcome.bind_eq_ok] at h
    obtain ⟨id, mid, halloc, extended, mid', hlink, hrest⟩ := h
    obtain ⟨hturns, hdead, _⟩ := dead_of_alloc ready halloc
    obtain ⟨hturns', hproper⟩ := turns_makeDirectory ready proper
      (named name List.mem_cons_self) halloc hlink
    have hspares :=
      @spares_linkNew _ _ _ _ _ lost (hturns.ready ready) hdead hlink
    obtain ⟨_, _, _, rfl⟩ := alloc_eq_ok.1 halloc
    exact hspares.trans (ih (hturns'.ready ready) hproper
      (fun other h => named other (List.mem_cons_of_mem _ h)) hrest)

theorem spares_enterFile {options : CreateOptions} {replication blockSize : Nat}
    (ready : tx.Ready)
    (h : enterFile path options replication blockSize parent name tx =
      .ok id tx') :
    tx.tree.Spares tx'.tree lost := by
  simp only [enterFile, makeFile, Outcome.bind_eq_ok, read_eq_ok, journal_eq_ok,
    Outcome.pure_eq_ok] at h
  obtain ⟨_, _, ⟨policy, _, ⟨_, rfl⟩, id, mid, halloc, hlink⟩, _, _, rfl, _,
    rfl⟩ := h
  obtain ⟨hturns, hdead, _⟩ := dead_of_alloc ready halloc
  have hspares :=
    @spares_linkNew _ _ _ _ _ lost (hturns.ready ready) hdead hlink
  obtain ⟨_, _, _, rfl⟩ := alloc_eq_ok.1 halloc
  exact hspares

/-- What is unlinked is lost with everything under it. -/
theorem spares_unlink (ready : tx.Ready)
    (h : unlink (parent.child name id) false none tx = .ok used tx')
    (below : ∀ x, tx.tree.Under id x → lost x) :
    tx.tree.Spares tx'.tree lost := by
  obtain ⟨holder, ids, unlinks, rfl⟩ := unlink_eq_ok.1 h
  have wf := ready.wellFormed
  refine spares_unlinked (wf.ids unlinks.opened.live) unlinks.opened.live
    fun x hx => ?_
  refine below x ?_
  exact (ready.reads.mem_subtree wf unlinks.subtree x).1 hx

end Linking

section Creating

/-- Only a closed file is replaced. -/
theorem spares_replaceFile {overwrite : Bool} (ready : tx.Ready)
    (leads : Chain.Leads tx.tree chain)
    (h : replaceFile chain path overwrite tx = .ok blocks tx') :
    tx.tree.Spares tx'.tree lost := by
  simp only [replaceFile, Outcome.bind_eq_ok, get_eq_ok] at h
  obtain ⟨inode, _, ⟨⟨_, live⟩, rfl⟩, h⟩ := h
  cases hfile : inode.asFile with
  | none => simp [hfile] at h
  | some file =>
    obtain ⟨parent, name, id, rfl⟩ :=
      exists_child_of_file ready.wellFormed leads live hfile
    simp only [hfile] at h
    cases hwriter : file.writer with
    | some holder => simp [hwriter] at h
    | none =>
      simp only [hwriter, Outcome.ite_eq_ok] at h
      split at h
      next =>
        simp only [Outcome.bind_eq_ok, Outcome.pure_eq_ok] at h
        obtain ⟨_, _, hunlink, -, rfl⟩ := h
        have hleaf : ∀ name, inode.child? name = none :=
          Inode.child?_eq_none_of_not_isDirectory (by
            rw [Inode.isDirectory, Inode.asDirectory,
              Inode.asFile_eq_some.1 hfile]
            rfl)
        have hspares := @spares_unlink _ _ _ _ _ _ (· = id) ready hunlink
          fun x hx => (ready.wellFormed.under_iff_of_no_child live hleaf).1 hx
        intro other found hfound hopen _
        refine hspares hfound hopen ?_
        -- the one that is taken out is not open
        rintro rfl
        obtain rfl : file = found := Option.some_inj.1
          (((file_of_live live).trans hfile).symm.trans hfound)
        rw [File.isOpen, hwriter] at hopen
        cases hopen
      next => simp at h

theorem spares_makePath {permission : Permission} (ready : tx.Ready)
    (h : makePath path permission tx = .ok done tx') :
    tx.tree.Spares tx'.tree lost := by
  simp only [makePath, Outcome.bind_eq_ok, read_eq_ok, Prod.exists] at h
  obtain ⟨chain, rest, _, ⟨hresolve, rfl⟩, h⟩ := h
  cases rest with
  | nil =>
    simp only [Outcome.bind_eq_ok, get_eq_ok, Outcome.ite_eq_ok,
      Outcome.pure_eq_ok] at h
    obtain ⟨inode, _, ⟨_, rfl⟩, h⟩ := h
    split at h
    next => exact h.2 ▸ .refl _
    next => simp at h
  | cons name rest =>
    simp only [Outcome.bind_eq_ok, journal_eq_ok] at h
    obtain ⟨_, mid, hmake, rfl⟩ := h
    have proper :=
      (Chain.Leads.resolveExisting ready.reads hresolve).proper ready.wellFormed
    rw [tree_journaled]
    exact spares_makeDirectories ready proper
      (Chain.proper_of_missing hresolve) hmake

theorem spares_createFile {options : CreateOptions}
    {replication blockSize : Nat} {answer : InodeId × List Block}
    (ready : tx.Ready)
    (h : createFile path options replication blockSize tx = .ok answer tx') :
    tx.tree.Spares tx'.tree lost := by
  obtain ⟨chain, rest, hresolve, made⟩ := exists_of_createFile h
  have leads := Chain.Leads.resolveExisting ready.reads hresolve
  cases made with
  | replacing hreplace henter =>
    have hready := (turns_replaceFile ready leads hreplace).ready ready
    exact (spares_replaceFile ready leads hreplace).trans
      (spares_enterFile hready henter)
  | adding hparents henter =>
    have proper := leads.proper ready.wellFormed
    have named := fun name h => Chain.proper_of_missing hresolve name
      (List.mem_of_mem_dropLast h)
    have hready :=
      (turns_makeDirectories ready proper named hparents).1.ready ready
    exact (spares_makeDirectories ready proper named hparents).trans
      (spares_enterFile hready henter)

theorem spares_symlinkPath {target : String} {permission : Permission}
    {createParent : Bool} (ready : tx.Ready)
    (h : symlinkPath target path permission createParent tx = .ok id tx') :
    tx.tree.Spares tx'.tree lost := by
  simp only [symlinkPath, Outcome.bind_eq_ok, read_eq_ok, Prod.exists] at h
  obtain ⟨chain, rest, _, ⟨hresolve, rfl⟩, h⟩ := h
  cases rest with
  | nil => simp at h
  | cons first others =>
    simp only [Outcome.bind_eq_ok, Outcome.ofExcept_eq_ok, journal_eq_ok,
      Outcome.pure_eq_ok] at h
    obtain ⟨_, _, ⟨_, rfl⟩, parent, mid, hparents, id, _, halloc, _, _, hlink,
      _, _, rfl, _,
      rfl⟩ := h
    have proper :=
      (Chain.Leads.resolveExisting ready.reads hresolve).proper ready.wellFormed
    have named := fun name h => Chain.proper_of_missing hresolve name
      (List.mem_of_mem_dropLast h)
    have hready :=
      (turns_makeDirectories ready proper named hparents).1.ready ready
    obtain ⟨hturns, hdead, _⟩ := dead_of_alloc hready halloc
    have hspares :=
      @spares_linkNew _ _ _ _ _ lost (hturns.ready hready) hdead hlink
    obtain ⟨_, _, _, rfl⟩ := alloc_eq_ok.1 halloc
    exact (spares_makeDirectories ready proper named hparents).trans hspares

end Creating

section Arranging

theorem spares_deleteTree {recursive : Bool} (ready : tx.Ready)
    (leads : Chain.Leads tx.tree chain)
    (h : deleteTree chain path recursive tx = .ok blocks tx') :
    tx.tree.Spares tx'.tree (tx.tree.Under chain.last) := by
  cases leads with
  | root => simp [deleteTree, Chain.length] at h
  | @child parent name id above entry =>
    have hlength : ¬ (parent.child name id).length = 1 := by
      have := parent.length_pos
      rw [Chain.length_child]
      omega
    simp only [deleteTree, hlength, if_false, Outcome.bind_eq_ok,
      get_eq_ok] at h
    obtain ⟨inode, _, ⟨_, rfl⟩, h⟩ := h
    split at h
    next => simp at h
    next =>
      simp only [maxDepth, Outcome.bind_eq_ok, Outcome.get_bind,
        Outcome.pure_eq_ok, journal_eq_ok] at h
      obtain ⟨_, _, ⟨rfl, rfl⟩, below, mid, hprune, used, last, hunlink, _, _,
        rfl, -, rfl⟩ := h
      obtain ⟨_, hprunes, _⟩ := prunes_prune ready hprune
      have hready := (hprunes.strips.turns ready).ready ready
      rw [tree_journaled]
      refine (hprunes.clears.spares fun _ hunder => hunder).trans
        (spares_unlink hready hunlink ?_)
      exact fun x hunder => hunder.mono hprunes.clears.links

/-- A deletion takes out what is under the inode that its path leads to. -/
theorem spares_deletePath {recursive : Bool} {answer : Option (List Block)}
    (ready : tx.Ready) (h : deletePath path recursive tx = .ok answer tx') :
    tx.tree.Spares tx'.tree fun x => ∃ chain,
      Chain.resolveExisting tx.view path false = .ok (chain, []) ∧
      tx.tree.Under chain.last x := by
  simp only [deletePath, Outcome.bind_eq_ok, read_eq_ok, Prod.exists] at h
  obtain ⟨chain, rest, _, ⟨hresolve, rfl⟩, h⟩ := h
  cases rest with
  | nil =>
    rw [Outcome.map_eq_ok] at h
    obtain ⟨blocks, hdelete, -⟩ := h
    have hspares := spares_deleteTree ready
      (Chain.Leads.resolveExisting ready.reads hresolve) hdelete
    exact hspares.mono fun x hunder => ⟨chain, hresolve, hunder⟩
  | cons =>
    obtain ⟨-, rfl⟩ := Outcome.pure_eq_ok.1 h
    exact .refl _

/-- What is moved is the same file at its new place. -/
theorem spares_move {sourceParent : Chain} {entry : Name} (ready : tx.Ready)
    (h : move (sourceParent.child entry id) sourceParent parent name tx =
      .ok done tx') :
    tx.tree.Spares tx'.tree lost := by
  obtain ⟨inode, holder, ids, again, used, target, directory, moves, links,
    rfl⟩ := move_eq_ok.1 h
  have wf := ready.wellFormed
  have loses := Inode.loses_withoutChild holder entry
  have hfreed (x : InodeId) :
      (tx.freed holder sourceParent.last entry again used).tree.file x =
        tx.tree.file x := by
    rw [moves.tree_freed wf]
    exact file_set_same (by rw [file_of_live moves.opened.live, loses.file]) x
  refine (Spares.of_eq hfreed).trans (spares_linked
    (moves.target_id wf links) links.opened.live links.content (.inr ?_))
  rw [hfreed]
  change tx.tree.file inode.id = inode.asFile
  rw [wf.ids moves.live, file_of_live moves.live]

theorem spares_renamePath {source destination : String} (ready : tx.Ready)
    (h : renamePath source destination tx = .ok done tx') :
    tx.tree.Spares tx'.tree lost := by
  cases renames_of_ok h with
  | here => exact .refl _
  | back => exact .refl _
  | moved _ _ _ _ moves =>
    rw [tree_journaled]
    exact spares_move ready moves

end Arranging

section Writing

theorem revised_addBlockAt {targets : List String} (ready : tx.Ready)
    (h : addBlockAt client block targets chain tx = .ok id tx') :
    tx.tree.Revised tx'.tree (.begin client block) lost := by
  simp only [addBlockAt, Outcome.bind_eq_ok, journal_eq_ok,
    Outcome.pure_eq_ok] at h
  obtain ⟨inode, mid, hlease, info, _, hbegin, _, _, rfl, -, rfl⟩ := h
  obtain ⟨live, ⟨file, hfile, lease⟩, rfl⟩ := file_of_leased hlease
  simp only [beginBlock, Outcome.bind_eq_ok, get_eq_ok] at hbegin
  obtain ⟨again, _, ⟨⟨_, live'⟩, rfl⟩, hbegin⟩ := hbegin
  obtain rfl : inode = again := Option.some_inj.1 (live.symm.trans live')
  simp only [hfile, Outcome.throw_bind, lease.isOpen, if_true,
    Outcome.bind_eq_ok, put_eq_ok, Outcome.pure_eq_ok] at hbegin
  obtain ⟨_, _, haccount, _, _, ⟨_, rfl⟩, _, rfl⟩ := hbegin
  exact revised_stored ready (tree_account haccount) live hfile
    (.begin lease block)

theorem revised_dropBlockIfLast {dropped : Bool} {file : File}
    (ready : tx.Ready) (live : tx.tree chain.last = some inode)
    (content : inode.asFile = some file) (lease : file.LeasedTo client)
    (h : dropBlockIfLast chain number tx = .ok dropped tx') :
    tx.tree.Revised tx'.tree (.drop client) lost := by
  simp only [dropBlockIfLast, Outcome.bind_eq_ok, get_eq_ok] at h
  obtain ⟨again, _, ⟨⟨_, live'⟩, rfl⟩, h⟩ := h
  obtain rfl : inode = again := Option.some_inj.1 (live.symm.trans live')
  rw [Outcome.when_eq_ok] at h
  obtain ⟨mid, hdrop, hanswer⟩ := h
  obtain ⟨-, rfl⟩ := Outcome.pure_eq_ok.1 hanswer
  split at hdrop
  next =>
    simp only [dropBlock, Outcome.bind_eq_ok, get_eq_ok] at hdrop
    obtain ⟨again, _, ⟨⟨_, live'⟩, rfl⟩, hdrop⟩ := hdrop
    obtain rfl : inode = again := Option.some_inj.1 (live.symm.trans live')
    cases hlast : file.lastBlock with
    | none => simp [content, hlast] at hdrop
    | some info =>
      simp only [content, hlast, Outcome.throw_bind, Outcome.ite_eq_ok] at hdrop
      split at hdrop
      next => simp at hdrop
      next =>
        simp only [Outcome.bind_eq_ok, put_eq_ok] at hdrop
        obtain ⟨_, _, ⟨_, rfl⟩, haccount⟩ := hdrop
        rw [tree_account haccount]
        exact revised_stored ready rfl live content (.drop lease)
  next =>
    subst hdrop
    exact .refl _

theorem revised_abandonAt (ready : tx.Ready)
    (h : abandonAt client number chain tx = .ok blocks tx') :
    tx.tree.Revised tx'.tree (.drop client) lost := by
  simp only [abandonAt, Outcome.bind_eq_ok] at h
  obtain ⟨inode, mid, hlease, h⟩ := h
  obtain ⟨live, ⟨file, hfile, lease⟩, rfl⟩ := file_of_leased hlease
  simp only [hfile, Option.bind_some] at h
  cases hfind : file.blocks.find? (·.block.id == number) with
  | none =>
    simp only [hfind, Outcome.pure_eq_ok] at h
    obtain ⟨-, rfl⟩ := h
    exact .refl _
  | some info =>
    simp only [hfind, Outcome.bind_eq_ok, Outcome.ite_eq_ok, journal_eq_ok,
      Outcome.pure_eq_ok] at h
    obtain ⟨dropped, last, hdrop, h⟩ := h
    have hrevised :=
      @revised_dropBlockIfLast _ _ _ _ _ _ lost _ _ ready live hfile lease hdrop
    split at h
    next =>
      obtain ⟨_, _, rfl, -, rfl⟩ := h
      exact hrevised
    next =>
      obtain ⟨-, rfl⟩ := h
      exact hrevised

theorem revised_completeAt {length : Nat} (ready : tx.Ready)
    (h : completeAt client length chain tx = .ok done tx') :
    tx.tree.Revised tx'.tree (.close client length) lost := by
  simp only [completeAt, Outcome.bind_eq_ok, Prod.exists] at h
  obtain ⟨inode, file, mid, hlease, h⟩ := h
  obtain ⟨live, hfile, lease, rfl⟩ := file_of_leasedFile hlease
  simp only [Outcome.throw_bind, Outcome.ite_eq_ok] at h
  split at h
  next => simp at h
  next hshort =>
    simp only [Outcome.bind_eq_ok, put_eq_ok] at h
    obtain ⟨_, _, ⟨_, rfl⟩, h⟩ := h
    rw [Outcome.when_eq_ok] at h
    obtain ⟨last, hrefund, hjournal⟩ := h
    rw [journal_eq_ok] at hjournal
    subst hjournal
    rw [tree_journaled]
    have hrevised :
        Nodes.Revised _ (Transaction.stored _
          (inode.withFile { file.endBlock length with writer := none })).tree
          (.close client length) lost :=
      revised_stored ready rfl live hfile (.close lease
        fun hopen => Nat.le_of_not_lt fun hlong => hshort ⟨hopen, hlong⟩)
    split at hrefund
    next =>
      rw [tree_account hrefund]
      exact hrevised
    next =>
      rw [hrefund]
      exact hrevised

theorem revised_appendAt {writer : Writer} (ready : tx.Ready)
    (h : appendAt writer chain tx = .ok done tx') :
    tx.tree.Revised tx'.tree (.reopen writer) lost := by
  simp only [appendAt, Outcome.bind_eq_ok, get_eq_ok] at h
  obtain ⟨inode, _, ⟨⟨_, live⟩, rfl⟩, h⟩ := h
  cases hfile : inode.asFile with
  | none => simp [hfile] at h
  | some file =>
    cases hwriter : file.writer with
    | some holder => simp [hfile, hwriter] at h
    | none =>
      simp only [hfile, hwriter] at h
      cases hpartial : file.partialBlock with
      | some info =>
        simp only [hpartial, Outcome.bind_eq_ok, put_eq_ok, journal_eq_ok] at h
        obtain ⟨_, _, haccount, _, _, ⟨_, rfl⟩, rfl⟩ := h
        exact revised_stored ready (tree_account haccount) live hfile
          (.reopen hwriter writer)
      | none =>
        simp only [hpartial, Outcome.bind_eq_ok, put_eq_ok, journal_eq_ok] at h
        obtain ⟨_, _, ⟨_, rfl⟩, rfl⟩ := h
        exact revised_stored ready rfl live hfile (.reopen hwriter writer)

theorem revised_writeInlineAt {length : Nat} (ready : tx.Ready)
    (h : writeInlineAt client length chain tx = .ok done tx') :
    tx.tree.Revised tx'.tree (.inline client length) lost := by
  simp only [writeInlineAt, Outcome.bind_eq_ok, Prod.exists] at h
  obtain ⟨inode, file, mid, hlease, h⟩ := h
  obtain ⟨live, hfile, lease, rfl⟩ := file_of_leasedFile hlease
  simp only [Outcome.throw_bind, Outcome.ite_eq_ok] at h
  split at h
  next hempty =>
    simp only [Outcome.bind_eq_ok, put_eq_ok, journal_eq_ok] at h
    obtain ⟨_, _, haccount, _, _, ⟨_, rfl⟩, rfl⟩ := h
    exact revised_stored ready (tree_account haccount) live hfile
      (.inline lease (List.isEmpty_iff.1 hempty) length)
  next => simp at h

theorem revised_truncateAt {length : Int} (ready : tx.Ready)
    (h : truncateAt path length chain tx = .ok blocks tx') :
    tx.tree.Revised tx'.tree (.cut length.toNat) lost := by
  simp only [truncateAt, Outcome.bind_eq_ok, get_eq_ok] at h
  obtain ⟨inode, _, ⟨⟨_, live⟩, rfl⟩, h⟩ := h
  cases hfile : inode.asFile with
  | none => simp [hfile] at h
  | some file =>
    cases hwriter : file.writer with
    | some holder => simp [hfile, hwriter] at h
    | none =>
      simp only [hfile, hwriter, Outcome.throw_bind, Outcome.ite_eq_ok] at h
      split at h
      next => simp at h
      split at h
      next => simp at h
      split at h
      next =>
        obtain ⟨-, rfl⟩ := Outcome.pure_eq_ok.1 h
        exact .refl _
      next =>
        simp only [Outcome.bind_eq_ok, put_eq_ok, journal_eq_ok,
          Outcome.pure_eq_ok] at h
        obtain ⟨_, _, ⟨_, rfl⟩, _, _, haccount, _, _, rfl, -, rfl⟩ := h
        rw [tree_journaled, tree_account haccount]
        exact revised_stored ready rfl live hfile (.cut hwriter length.toNat)

end Writing

section Adjusting

/-- A directory is stored with other limits or another policy. -/
theorem revised_adjusted {directory changed : Directory} (ready : tx.Ready)
    (live : tx.tree id = some inode)
    (content : inode.asDirectory = some directory) :
    tx.tree.Revised
      (tx.stored (inode.withDirectory changed)).tree revision lost := by
  rw [tree_stored, Inode.id_withDirectory, ready.wellFormed.ids live]
  refine .of_eq (file_set_same ?_)
  rw [file_of_directory live (Inode.asDirectory_eq_some.1 content)]
  rfl

theorem revised_changeLimits {edit : Edit} {liftsInodes : Bool}
    {change : Counts → Counts} (ready : tx.Ready)
    (h : changeLimits path edit liftsInodes change tx = .ok done tx') :
    tx.tree.Revised tx'.tree revision lost := by
  simp only [changeLimits, Outcome.bind_eq_ok, read_eq_ok, Outcome.throw_bind,
    Outcome.ite_eq_ok] at h
  obtain ⟨chain, _, ⟨_, rfl⟩, h⟩ := h
  split at h
  next => simp at h
  simp only [Work.subtree, Work.usage, read_eq_ok, pendingFor_eq_ok,
    get_eq_ok] at h
  obtain ⟨ids, _, ⟨_, rfl⟩, used, _, ⟨_, rfl⟩, _, _, ⟨rfl, rfl⟩, inode, _,
    ⟨⟨_, live⟩, rfl⟩, h⟩ := h
  cases hdir : inode.asDirectory with
  | none => simp [hdir] at h
  | some directory =>
    simp only [hdir, Outcome.bind_eq_ok, put_eq_ok, journal_eq_ok] at h
    obtain ⟨_, _, ⟨_, rfl⟩, rfl⟩ := h
    exact revised_adjusted ready live hdir

theorem revised_setPolicy {policy : StoragePolicy} (ready : tx.Ready)
    (h : setPolicy path policy tx = .ok done tx') :
    tx.tree.Revised tx'.tree revision lost := by
  simp only [setPolicy, Outcome.bind_eq_ok, read_eq_ok, get_eq_ok] at h
  obtain ⟨chain, _, ⟨_, rfl⟩, inode, _, ⟨⟨_, live⟩, rfl⟩, h⟩ := h
  cases hcontent : inode.content with
  | directory directory =>
    simp only [hcontent, Outcome.bind_eq_ok, put_eq_ok, journal_eq_ok] at h
    obtain ⟨_, _, ⟨_, rfl⟩, rfl⟩ := h
    exact revised_adjusted ready live (Inode.asDirectory_eq_some.2 hcontent)
  | file file =>
    simp only [hcontent, Outcome.bind_eq_ok, put_eq_ok, journal_eq_ok] at h
    obtain ⟨_, _, haccount, _, _, ⟨_, rfl⟩, rfl⟩ := h
    exact revised_stored ready (tree_account haccount) live
      (Inode.asFile_eq_some.2 hcontent)
      (.media revision policy file.replication)
  | symlink => simp [hcontent] at h

theorem revised_setReplication {replication : Nat} (ready : tx.Ready)
    (h : setReplication path replication tx = .ok done tx') :
    tx.tree.Revised tx'.tree revision lost := by
  simp only [setReplication, Outcome.bind_eq_ok, read_eq_ok, get_eq_ok] at h
  obtain ⟨chain, _, ⟨_, rfl⟩, inode, _, ⟨⟨_, live⟩, rfl⟩, h⟩ := h
  cases hfile : inode.asFile with
  | none => simp [hfile] at h
  | some file =>
    simp only [hfile, Outcome.bind_eq_ok, put_eq_ok, journal_eq_ok] at h
    obtain ⟨_, _, haccount, _, _, ⟨_, rfl⟩, rfl⟩ := h
    exact revised_stored ready (tree_account haccount) live hfile
      (.media revision file.policy replication)

end Adjusting

end Work

end QuotaTree
