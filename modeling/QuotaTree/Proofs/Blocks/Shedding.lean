/-
Units of work and the blocks of files.  What a unit of work returns as released
are just the blocks that files have lost by it.
-/
import QuotaTree.Proofs.Blocks.Marks
import QuotaTree.Proofs.Request.Adjust
import QuotaTree.Proofs.Request.Arrange
import QuotaTree.Proofs.Request.Create
import QuotaTree.Proofs.Request.Write

namespace QuotaTree

open Nodes

abbrev Block.numbers (blocks : List Block) : List Nat :=
  blocks.map Block.id

theorem Block.map_fst_mark (blocks : List Block) :
    (blocks.map Block.mark).map Prod.fst = Block.numbers blocks := by
  rw [List.map_map]
  rfl

namespace Inode

theorem numbers_marks (inode : Inode) :
    inode.marks.map Prod.fst = Block.numbers inode.blocks :=
  Block.map_fst_mark inode.blocks

theorem marks_withoutChild (inode : Inode) (name : Name) :
    (inode.withoutChild name).marks = inode.marks := by
  refine marks_congr ?_
  unfold withoutChild
  split
  next directory content => rw [asFile, asFile, content]; rfl
  next => rfl

end Inode

namespace Transaction

variable {tx mid : Transaction} {holder inode : Inode}
  {directory changed : Directory} {id parent : InodeId} {counts : Counts}
  {name : Name} {ids : List InodeId} {file new : File}

/-- A file is stored with fewer blocks. -/
theorem sheds_refiled {gone : List (Nat × Nat)} (ready : tx.Ready)
    (same : mid.tree = tx.tree) (live : tx.tree id = some inode)
    (content : inode.asFile = some file)
    (fewer : file.marks = new.marks ++ gone) :
    tx.tree.Sheds (mid.stored (inode.withFile new)).tree
      (gone.map Prod.fst) := by
  rw [tree_stored, same, Inode.id_withFile, ready.wellFormed.ids live]
  refine .of_set ?_
  rw [marks_of_live live, Inode.marks_of_file content, Inode.marks_withFile,
    fewer]

/-- A file is stored with the blocks that it had. -/
theorem keeps_refiled (ready : tx.Ready) (same : mid.tree = tx.tree)
    (live : tx.tree id = some inode) (content : inode.asFile = some file)
    (kept : new.marks = file.marks) :
    tx.tree.Sheds (mid.stored (inode.withFile new)).tree [] :=
  sheds_refiled ready same live content (by rw [kept, List.append_nil])

theorem keeps_adjusted (ready : tx.Ready) (live : tx.tree id = some inode)
    (content : inode.asDirectory = some directory) :
    tx.tree.Sheds (tx.stored (inode.withDirectory changed)).tree [] := by
  rw [tree_stored]
  refine .of_eq (marks_set_same ?_)
  rw [Inode.id_withDirectory, ready.wellFormed.ids live, marks_of_live live,
    Inode.marks_of_directory (Inode.asDirectory_eq_some.1 content)]
  exact Inode.marks_of_directory rfl

/-- An inode that comes with the blocks it had is put below a directory. -/
theorem keeps_linked (hid : holder.id = parent)
    (live : tx.tree parent = some holder)
    (content : holder.content = .directory directory)
    (same : inode.marks = tx.tree.marks inode.id) :
    tx.tree.Sheds (tx.linked holder directory parent inode counts).tree [] := by
  rw [tree_linked hid]
  have hholder : holder.marks = [] := Inode.marks_of_directory content
  have hgained :
      ∀ other, (tx.tree.set parent (some (holder.withDirectory { directory with
        children := directory.children.insert inode.name inode.id }))).marks
          other = tx.tree.marks other := marks_set_same
    (by rw [marks_of_live live, hholder]; exact Inode.marks_of_directory rfl)
  refine .of_eq fun other => ?_
  rw [Nodes.insert, marks_set_same, hgained]
  rw [hgained]
  exact same

/-- All blocks of what is taken out are gone. -/
theorem sheds_unlinked (hid : holder.id = parent)
    (live : tx.tree parent = some holder) :
    tx.tree.Sheds (tx.unlinked holder parent name ids counts).tree
      ((ids.flatMap tx.tree.marks).map Prod.fst) := by
  rw [tree_unlinked hid]
  have hlost : ∀ other, (tx.tree.set parent
        (some (holder.withoutChild name))).marks other = tx.tree.marks other :=
    marks_set_same (by rw [marks_of_live live, Inode.marks_withoutChild])
  have hmarks :
      ids.flatMap (tx.tree.set parent (some (holder.withoutChild name))).marks =
        ids.flatMap tx.tree.marks := congrArg ids.flatMap (funext hlost)
  exact (Sheds.of_eq hlost).trans (hmarks ▸ .of_removed ids)

end Transaction

namespace Work

open Transaction

variable {tx tx' : Transaction} {parent chain : Chain} {name : Name}
  {inode : Inode} {id : InodeId} {used : Counts} {done : Unit}
  {path client : String} {block : Block} {number : Nat} {blocks : List Block}

section Linking

theorem keeps_linkNew (ready : tx.Ready) (dead : tx.tree inode.id = none)
    (empty : inode.marks = []) (h : linkNew parent inode tx = .ok chain tx') :
    tx.tree.Sheds tx'.tree [] := by
  obtain ⟨holder, directory, links, _, rfl⟩ := link_eq_ok.1 h
  have live := links.opened.live
  exact keeps_linked (ready.wellFormed.ids live) live links.content
    (by rw [empty, marks_of_dead dead])

theorem keeps_makeDirectories {permission : Permission} {names : List Name}
    (ready : tx.Ready) (proper : parent.Proper)
    (named : ∀ name ∈ names, name.Proper)
    (h : makeDirectories permission parent names tx = .ok chain tx') :
    tx.tree.Sheds tx'.tree [] := by
  induction names generalizing tx parent with
  | nil =>
    obtain ⟨_, rfl⟩ := Outcome.pure_eq_ok.1 h
    exact .refl _
  | cons name rest ih =>
    simp only [makeDirectories, Outcome.bind_eq_ok] at h
    obtain ⟨id, mid, halloc, extended, mid', hlink, hrest⟩ := h
    obtain ⟨hturns, hdead, _⟩ := dead_of_alloc ready halloc
    obtain ⟨hturns', hproper⟩ := turns_makeDirectory ready proper
      (named name List.mem_cons_self) halloc hlink
    have hkeeps := keeps_linkNew (hturns.ready ready) hdead rfl hlink
    obtain ⟨_, _, _, rfl⟩ := alloc_eq_ok.1 halloc
    exact hkeeps.trans (ih (hturns'.ready ready) hproper
      (fun other h => named other (List.mem_cons_of_mem _ h)) hrest)

theorem keeps_enterFile {options : CreateOptions} {replication blockSize : Nat}
    (ready : tx.Ready)
    (h : enterFile path options replication blockSize parent name tx =
      .ok id tx') :
    tx.tree.Sheds tx'.tree [] := by
  simp only [enterFile, makeFile, Outcome.bind_eq_ok, read_eq_ok, journal_eq_ok,
    Outcome.pure_eq_ok] at h
  obtain ⟨_, _, ⟨policy, _, ⟨_, rfl⟩, id, mid, halloc, hlink⟩, _, _, rfl, _,
    rfl⟩ := h
  obtain ⟨hturns, hdead, _⟩ := dead_of_alloc ready halloc
  have hkeeps := keeps_linkNew (hturns.ready ready) hdead rfl hlink
  obtain ⟨_, _, _, rfl⟩ := alloc_eq_ok.1 halloc
  exact hkeeps

theorem sheds_unlinkLeaf (ready : tx.Ready)
    (h : unlinkLeaf (parent.child name id) tx = .ok inode tx') :
    tx.tree.Sheds tx'.tree (Block.numbers inode.blocks) := by
  obtain ⟨⟨live, _, _, _, _⟩, holder, opened, rfl⟩ := unlinkLeaf_eq_ok.1 h
  have hsheds := @sheds_unlinked tx holder parent.last inode.ownUsage name [id]
    (ready.wellFormed.ids opened.live) opened.live
  rwa [List.flatMap_singleton, marks_of_live live, Inode.numbers_marks]
    at hsheds

theorem Strips.sheds (strips : Strips tx tx' blocks) (ready : tx.Ready) :
    tx.tree.Sheds tx'.tree (Block.numbers blocks) := by
  induction strips with
  | refl => exact .refl _
  | leaf early entry h ih =>
    rw [Block.numbers, List.map_append]
    exact ih.trans (sheds_unlinkLeaf ((early.turns ready).ready ready) h)

/-- An inode without entries is taken out with its own blocks. -/
theorem sheds_unlink (ready : tx.Ready) (live : tx.tree id = some inode)
    (leaf : ∀ name, inode.child? name = none)
    (h : unlink (parent.child name id) false none tx = .ok used tx') :
    tx.tree.Sheds tx'.tree (Block.numbers inode.blocks) := by
  obtain ⟨holder, ids, unlinks, rfl⟩ := unlink_eq_ok.1 h
  have wf := ready.wellFormed
  refine (sheds_unlinked (wf.ids unlinks.opened.live) unlinks.opened.live).congr
    fun number => ?_
  have hmem (x : InodeId) : x ∈ ids ↔ x = id := by
    rw [ready.reads.mem_subtree wf unlinks.subtree,
      wf.under_iff_of_no_child live leaf]
  simp only [← Inode.numbers_marks, ← marks_of_live live, List.mem_map,
    List.mem_flatMap, hmem, exists_eq_left]

end Linking

section Creating

theorem sheds_replaceFile {overwrite : Bool} (ready : tx.Ready)
    (leads : Chain.Leads tx.tree chain)
    (h : replaceFile chain path overwrite tx = .ok blocks tx') :
    tx.tree.Sheds tx'.tree (Block.numbers blocks) := by
  simp only [replaceFile, Outcome.bind_eq_ok, get_eq_ok] at h
  obtain ⟨inode, _, ⟨⟨_, live⟩, rfl⟩, h⟩ := h
  cases hfile : inode.asFile with
  | none => simp [hfile] at h
  | some file =>
    obtain ⟨parent, name, id, rfl⟩ :=
      exists_child_of_file ready.wellFormed leads live hfile
    simp only [hfile] at h
    cases hwriter : file.writer with
    | some holder => simp [hwriter] at h
    | none =>
      simp only [hwriter, Outcome.ite_eq_ok] at h
      split at h
      next =>
        simp only [Outcome.bind_eq_ok, Outcome.pure_eq_ok] at h
        obtain ⟨_, _, hunlink, rfl, rfl⟩ := h
        have hblocks : file.blocks.map BlockInfo.block = inode.blocks := by
          rw [Inode.blocks, hfile]
        rw [hblocks]
        refine sheds_unlink ready live
          (Inode.child?_eq_none_of_not_isDirectory ?_) hunlink
        rw [Inode.isDirectory, Inode.asDirectory, Inode.asFile_eq_some.1 hfile]
        rfl
      next => simp at h

theorem keeps_makePath {permission : Permission} (ready : tx.Ready)
    (h : makePath path permission tx = .ok done tx') :
    tx.tree.Sheds tx'.tree [] := by
  simp only [makePath, Outcome.bind_eq_ok, read_eq_ok, Prod.exists] at h
  obtain ⟨chain, rest, _, ⟨hresolve, rfl⟩, h⟩ := h
  cases rest with
  | nil =>
    simp only [Outcome.bind_eq_ok, get_eq_ok, Outcome.ite_eq_ok,
      Outcome.pure_eq_ok] at h
    obtain ⟨inode, _, ⟨_, rfl⟩, h⟩ := h
    split at h
    next => exact h.2 ▸ .refl _
    next => simp at h
  | cons name rest =>
    simp only [Outcome.bind_eq_ok, journal_eq_ok] at h
    obtain ⟨_, mid, hmake, rfl⟩ := h
    have proper :=
      (Chain.Leads.resolveExisting ready.reads hresolve).proper ready.wellFormed
    rw [tree_journaled]
    exact keeps_makeDirectories ready proper
      (Chain.proper_of_missing hresolve) hmake

/-- A file that is made anew loses its blocks, and nothing else does. -/
theorem sheds_createFile {options : CreateOptions} {replication blockSize : Nat}
    {answer : InodeId × List Block} (ready : tx.Ready)
    (h : createFile path options replication blockSize tx = .ok answer tx') :
    tx.tree.Sheds tx'.tree (Block.numbers answer.2) := by
  obtain ⟨chain, rest, hresolve, made⟩ := exists_of_createFile h
  have leads := Chain.Leads.resolveExisting ready.reads hresolve
  cases made with
  | replacing hreplace henter =>
    have hready := (turns_replaceFile ready leads hreplace).ready ready
    have hsheds := sheds_replaceFile ready leads hreplace
    have hboth := hsheds.trans (keeps_enterFile hready henter)
    rwa [List.append_nil] at hboth
  | adding hparents henter =>
    have proper := leads.proper ready.wellFormed
    have named := fun name h => Chain.proper_of_missing hresolve name
      (List.mem_of_mem_dropLast h)
    have hready :=
      (turns_makeDirectories ready proper named hparents).1.ready ready
    exact (keeps_makeDirectories ready proper named hparents).trans
      (keeps_enterFile hready henter)

theorem keeps_symlinkPath {target : String} {permission : Permission}
    {createParent : Bool} (ready : tx.Ready)
    (h : symlinkPath target path permission createParent tx = .ok id tx') :
    tx.tree.Sheds tx'.tree [] := by
  simp only [symlinkPath, Outcome.bind_eq_ok, read_eq_ok, Prod.exists] at h
  obtain ⟨chain, rest, _, ⟨hresolve, rfl⟩, h⟩ := h
  cases rest with
  | nil => simp at h
  | cons first others =>
    simp only [Outcome.bind_eq_ok, Outcome.ofExcept_eq_ok, journal_eq_ok,
      Outcome.pure_eq_ok] at h
    obtain ⟨_, _, ⟨_, rfl⟩, parent, mid, hparents, id, _, halloc, _, _, hlink,
      _, _, rfl, _,
      rfl⟩ := h
    have proper :=
      (Chain.Leads.resolveExisting ready.reads hresolve).proper ready.wellFormed
    have named := fun name h => Chain.proper_of_missing hresolve name
      (List.mem_of_mem_dropLast h)
    have hready :=
      (turns_makeDirectories ready proper named hparents).1.ready ready
    obtain ⟨hturns, hdead, _⟩ := dead_of_alloc hready halloc
    have hkeeps := keeps_linkNew (hturns.ready hready) hdead rfl hlink
    obtain ⟨_, _, _, rfl⟩ := alloc_eq_ok.1 halloc
    exact (keeps_makeDirectories ready proper named hparents).trans hkeeps

end Creating

section Arranging

/-- Whatever has been taken out below an inode, it has the blocks that it
had. -/
theorem Prunes.blocks_top {top : InodeId} {names : List Name} {new : Inode}
    (prunes : Prunes tx tx' top names blocks) (live : tx.tree top = some inode)
    (live' : tx'.tree top = some new) : new.blocks = inode.blocks := by
  obtain ⟨found, hfound, same⟩ := prunes.clears.top live
  obtain rfl : found = new := Option.some_inj.1 (hfound.symm.trans live')
  rw [Inode.blocks, Inode.blocks, same.file]

theorem sheds_deleteTree {recursive : Bool} (ready : tx.Ready)
    (leads : Chain.Leads tx.tree chain)
    (h : deleteTree chain path recursive tx = .ok blocks tx') :
    tx.tree.Sheds tx'.tree (Block.numbers blocks) := by
  cases leads with
  | root => simp [deleteTree, Chain.length] at h
  | child above entry =>
    obtain ⟨inode, below, mid, used, last, ⟨_, live⟩, _, hprune, hunlink, rfl,
      rfl⟩ := deleteTree_eq_ok.1 h
    obtain ⟨_, hprunes, hleaf⟩ := prunes_prune ready hprune
    obtain ⟨top, htop, _⟩ := hprunes.clears.top live
    have hsheds := sheds_unlink ((hprunes.strips.turns ready).ready ready) htop
      (fun name => by rw [← entryAt_of_live htop, hleaf]) hunlink
    rw [hprunes.blocks_top live htop] at hsheds
    rw [tree_journaled, Block.numbers, List.map_append]
    exact (hprunes.strips.sheds ready).trans hsheds

theorem sheds_deletePath {recursive : Bool} {answer : Option (List Block)}
    (ready : tx.Ready) (h : deletePath path recursive tx = .ok answer tx') :
    tx.tree.Sheds tx'.tree (Block.numbers (answer.getD [])) := by
  simp only [deletePath, Outcome.bind_eq_ok, read_eq_ok, Prod.exists] at h
  obtain ⟨chain, rest, _, ⟨hresolve, rfl⟩, h⟩ := h
  cases rest with
  | nil =>
    rw [Outcome.map_eq_ok] at h
    obtain ⟨blocks, hdelete, rfl⟩ := h
    exact sheds_deleteTree ready
      (Chain.Leads.resolveExisting ready.reads hresolve) hdelete
  | cons =>
    obtain ⟨rfl, rfl⟩ := Outcome.pure_eq_ok.1 h
    exact .refl _

/-- What is moved has its blocks at its new place. -/
theorem keeps_move {sourceParent : Chain} {entry : Name} (ready : tx.Ready)
    (h : move (sourceParent.child entry id) sourceParent parent name tx =
      .ok done tx') :
    tx.tree.Sheds tx'.tree [] := by
  obtain ⟨inode, holder, ids, again, used, target, directory, moves, links,
    rfl⟩ := move_eq_ok.1 h
  have wf := ready.wellFormed
  have hfreed (x : InodeId) :
      (tx.freed holder sourceParent.last entry again used).tree.marks x =
        tx.tree.marks x := by
    rw [moves.tree_freed wf]
    exact marks_set_same
      (by rw [marks_of_live moves.opened.live, Inode.marks_withoutChild]) x
  refine (Sheds.of_eq hfreed).trans
    (keeps_linked (moves.target_id wf links) links.opened.live links.content ?_)
  rw [hfreed]
  change inode.marks = tx.tree.marks inode.id
  rw [wf.ids moves.live, marks_of_live moves.live]

theorem keeps_renamePath {source destination : String} (ready : tx.Ready)
    (h : renamePath source destination tx = .ok done tx') :
    tx.tree.Sheds tx'.tree [] := by
  cases renames_of_ok h with
  | here => exact .refl _
  | back => exact .refl _
  | moved _ _ _ _ moves =>
    rw [tree_journaled]
    exact keeps_move ready moves

end Arranging

section Writing

theorem gains_beginBlock {info : BlockInfo} (ready : tx.Ready)
    (h : beginBlock chain block tx = .ok info tx') :
    tx.tree.Gains tx'.tree chain.last block.mark := by
  simp only [beginBlock, Outcome.bind_eq_ok, get_eq_ok] at h
  obtain ⟨inode, _, ⟨⟨_, live⟩, rfl⟩, h⟩ := h
  cases hfile : inode.asFile with
  | none => simp [hfile] at h
  | some file =>
    simp only [hfile, Outcome.throw_bind] at h
    split at h
    next =>
      simp only [Outcome.bind_eq_ok, put_eq_ok, Outcome.pure_eq_ok] at h
      obtain ⟨_, mid, haccount, _, _, ⟨_, rfl⟩, _, rfl⟩ := h
      rw [tree_stored, tree_account haccount, Inode.id_withFile,
        ready.wellFormed.ids live]
      constructor
      · rw [marks_set, if_pos rfl, marks_of_live live,
          Inode.marks_of_file hfile, ← File.marks_beginBlock,
          ← Inode.marks_withFile inode]
        rfl
      · intro other hother
        rw [marks_set, if_neg hother]
    next => simp at h

/-- The inode that is answered has the block. -/
theorem gains_addBlockAt {targets : List String} (ready : tx.Ready)
    (h : addBlockAt client block targets chain tx = .ok id tx') :
    tx.tree.Gains tx'.tree id block.mark := by
  simp only [addBlockAt, Outcome.bind_eq_ok, journal_eq_ok,
    Outcome.pure_eq_ok] at h
  obtain ⟨inode, mid, hlease, info, _, hbegin, _, _, rfl, rfl, rfl⟩ := h
  obtain ⟨_, _, rfl⟩ := file_of_leased hlease
  rw [tree_journaled]
  exact gains_beginBlock ready hbegin

/-- A block that is given up is taken off the end of the file. -/
theorem sheds_dropBlockIfLast {dropped : Bool} (ready : tx.Ready)
    (h : dropBlockIfLast chain number tx = .ok dropped tx') :
    tx.tree.Sheds tx'.tree (if dropped then [number] else []) := by
  simp only [dropBlockIfLast, Outcome.bind_eq_ok, get_eq_ok] at h
  obtain ⟨inode, _, ⟨⟨_, live⟩, rfl⟩, h⟩ := h
  rw [Outcome.when_eq_ok] at h
  obtain ⟨mid, hdrop, hanswer⟩ := h
  obtain ⟨rfl, rfl⟩ := Outcome.pure_eq_ok.1 hanswer
  split at hdrop
  next hdroppable =>
    rw [if_pos hdroppable]
    obtain ⟨file, hfile, -⟩ := (Option.any_eq_true _ _).1 hdroppable
    simp only [dropBlock, Outcome.bind_eq_ok, get_eq_ok] at hdrop
    obtain ⟨again, _, ⟨⟨_, live'⟩, rfl⟩, hdrop⟩ := hdrop
    obtain rfl : inode = again := Option.some_inj.1 (live.symm.trans live')
    cases hlast : file.lastBlock with
    | none => simp [hfile, hlast] at hdrop
    | some info =>
      simp only [hfile, hlast, Outcome.throw_bind, Outcome.ite_eq_ok] at hdrop
      split at hdrop
      next => simp at hdrop
      next hnumber =>
        simp only [Outcome.bind_eq_ok, put_eq_ok] at hdrop
        obtain ⟨_, _, ⟨_, rfl⟩, haccount⟩ := hdrop
        rw [tree_account haccount, ← Decidable.not_not.1 hnumber]
        exact sheds_refiled ready rfl live hfile (File.marks_of_lastBlock hlast)
  next hkept =>
    subst hdrop
    rw [if_neg hkept]
    exact .refl _

theorem sheds_abandonAt (ready : tx.Ready)
    (h : abandonAt client number chain tx = .ok blocks tx') :
    tx.tree.Sheds tx'.tree (Block.numbers blocks) := by
  simp only [abandonAt, Outcome.bind_eq_ok] at h
  obtain ⟨inode, mid, hlease, h⟩ := h
  obtain ⟨_, ⟨file, hfile, _⟩, rfl⟩ := file_of_leased hlease
  simp only [hfile, Option.bind_some] at h
  cases hfind : file.blocks.find? (·.block.id == number) with
  | none =>
    simp only [hfind, Outcome.pure_eq_ok] at h
    obtain ⟨rfl, rfl⟩ := h
    exact .refl _
  | some info =>
    have hnumber : info.block.id = number := by
      simpa using List.find?_some hfind
    simp only [hfind, Outcome.bind_eq_ok, Outcome.ite_eq_ok, journal_eq_ok,
      Outcome.pure_eq_ok] at h
    obtain ⟨dropped, last, hdrop, h⟩ := h
    have hsheds := sheds_dropBlockIfLast ready hdrop
    split at h
    next hdropped =>
      obtain ⟨_, _, rfl, rfl, rfl⟩ := h
      rw [if_pos hdropped, ← hnumber] at hsheds
      exact hsheds
    next hkept =>
      obtain ⟨rfl, rfl⟩ := h
      rwa [if_neg hkept] at hsheds

theorem keeps_completeAt {lastLength : Nat} (ready : tx.Ready)
    (h : completeAt client lastLength chain tx = .ok done tx') :
    tx.tree.Sheds tx'.tree [] := by
  simp only [completeAt, Outcome.bind_eq_ok, Prod.exists] at h
  obtain ⟨inode, file, mid, hlease, h⟩ := h
  obtain ⟨live, hfile, _, rfl⟩ := file_of_leasedFile hlease
  simp only [Outcome.throw_bind, Outcome.ite_eq_ok] at h
  split at h
  next => simp at h
  next =>
    simp only [Outcome.bind_eq_ok, put_eq_ok] at h
    obtain ⟨_, _, ⟨_, rfl⟩, h⟩ := h
    rw [Outcome.when_eq_ok] at h
    obtain ⟨last, hrefund, hjournal⟩ := h
    rw [journal_eq_ok] at hjournal
    subst hjournal
    rw [tree_journaled]
    have hkeeps : Sheds _ (Transaction.stored _ (inode.withFile
          { file.endBlock lastLength with writer := none })).tree [] :=
      keeps_refiled ready rfl live hfile (File.marks_endBlock file lastLength)
    split at hrefund
    next =>
      rw [tree_account hrefund]
      exact hkeeps
    next =>
      rw [hrefund]
      exact hkeeps

theorem keeps_appendAt {writer : Writer} (ready : tx.Ready)
    (h : appendAt writer chain tx = .ok done tx') :
    tx.tree.Sheds tx'.tree [] := by
  simp only [appendAt, Outcome.bind_eq_ok, get_eq_ok] at h
  obtain ⟨inode, _, ⟨⟨_, live⟩, rfl⟩, h⟩ := h
  cases hfile : inode.asFile with
  | none => simp [hfile] at h
  | some file =>
    cases hwriter : file.writer with
    | some holder => simp [hfile, hwriter] at h
    | none =>
      simp only [hfile, hwriter] at h
      cases hpartial : file.partialBlock with
      | some info =>
        simp only [hpartial, Outcome.bind_eq_ok, put_eq_ok, journal_eq_ok] at h
        obtain ⟨_, _, haccount, _, _, ⟨_, rfl⟩, rfl⟩ := h
        exact keeps_refiled ready (tree_account haccount) live hfile
          (File.marks_reopenBlock file)
      | none =>
        simp only [hpartial, Outcome.bind_eq_ok, put_eq_ok, journal_eq_ok] at h
        obtain ⟨_, _, ⟨_, rfl⟩, rfl⟩ := h
        exact keeps_refiled ready rfl live hfile (File.marks_reopenBlock file)

theorem keeps_writeInlineAt {length : Nat} (ready : tx.Ready)
    (h : writeInlineAt client length chain tx = .ok done tx') :
    tx.tree.Sheds tx'.tree [] := by
  simp only [writeInlineAt, Outcome.bind_eq_ok, Prod.exists] at h
  obtain ⟨inode, file, mid, hlease, h⟩ := h
  obtain ⟨live, hfile, _, rfl⟩ := file_of_leasedFile hlease
  simp only [Outcome.throw_bind, Outcome.ite_eq_ok] at h
  split at h
  next =>
    simp only [Outcome.bind_eq_ok, put_eq_ok, journal_eq_ok] at h
    obtain ⟨_, _, haccount, _, _, ⟨_, rfl⟩, rfl⟩ := h
    exact keeps_refiled ready (tree_account haccount) live hfile rfl
  next => simp at h

theorem sheds_truncateAt {length : Int} (ready : tx.Ready)
    (h : truncateAt path length chain tx = .ok blocks tx') :
    tx.tree.Sheds tx'.tree (Block.numbers blocks) := by
  simp only [truncateAt, Outcome.bind_eq_ok, get_eq_ok] at h
  obtain ⟨inode, _, ⟨⟨_, live⟩, rfl⟩, h⟩ := h
  cases hfile : inode.asFile with
  | none => simp [hfile] at h
  | some file =>
    cases hwriter : file.writer with
    | some holder => simp [hfile, hwriter] at h
    | none =>
      simp only [hfile, hwriter, Outcome.throw_bind, Outcome.ite_eq_ok] at h
      split at h
      next => simp at h
      split at h
      next => simp at h
      split at h
      next =>
        obtain ⟨rfl, rfl⟩ := Outcome.pure_eq_ok.1 h
        exact .refl _
      next =>
        simp only [Outcome.bind_eq_ok, put_eq_ok, journal_eq_ok,
          Outcome.pure_eq_ok] at h
        obtain ⟨_, _, ⟨_, rfl⟩, _, _, haccount, _, _, rfl, rfl, rfl⟩ := h
        rw [tree_journaled, tree_account haccount, ← Block.map_fst_mark]
        exact sheds_refiled ready rfl live hfile
          (File.marks_truncate file length.toNat)

end Writing

section Adjusting

theorem keeps_changeLimits {edit : Edit} {liftsInodes : Bool}
    {change : Counts → Counts} (ready : tx.Ready)
    (h : changeLimits path edit liftsInodes change tx = .ok done tx') :
    tx.tree.Sheds tx'.tree [] := by
  simp only [changeLimits, Outcome.bind_eq_ok, read_eq_ok, Outcome.throw_bind,
    Outcome.ite_eq_ok] at h
  obtain ⟨chain, _, ⟨_, rfl⟩, h⟩ := h
  split at h
  next => simp at h
  simp only [Work.subtree, Work.usage, read_eq_ok, pendingFor_eq_ok,
    get_eq_ok] at h
  obtain ⟨ids, _, ⟨_, rfl⟩, used, _, ⟨_, rfl⟩, _, _, ⟨rfl, rfl⟩, inode, _,
    ⟨⟨_, live⟩, rfl⟩, h⟩ := h
  cases hdir : inode.asDirectory with
  | none => simp [hdir] at h
  | some directory =>
    simp only [hdir, Outcome.bind_eq_ok, put_eq_ok, journal_eq_ok] at h
    obtain ⟨_, _, ⟨_, rfl⟩, rfl⟩ := h
    exact keeps_adjusted ready live hdir

theorem keeps_setPolicy {policy : StoragePolicy} (ready : tx.Ready)
    (h : setPolicy path policy tx = .ok done tx') :
    tx.tree.Sheds tx'.tree [] := by
  simp only [setPolicy, Outcome.bind_eq_ok, read_eq_ok, get_eq_ok] at h
  obtain ⟨chain, _, ⟨_, rfl⟩, inode, _, ⟨⟨_, live⟩, rfl⟩, h⟩ := h
  cases hcontent : inode.content with
  | directory directory =>
    simp only [hcontent, Outcome.bind_eq_ok, put_eq_ok, journal_eq_ok] at h
    obtain ⟨_, _, ⟨_, rfl⟩, rfl⟩ := h
    exact keeps_adjusted ready live (Inode.asDirectory_eq_some.2 hcontent)
  | file file =>
    simp only [hcontent, Outcome.bind_eq_ok, put_eq_ok, journal_eq_ok] at h
    obtain ⟨_, _, haccount, _, _, ⟨_, rfl⟩, rfl⟩ := h
    exact keeps_refiled ready (tree_account haccount) live
      (Inode.asFile_eq_some.2 hcontent) rfl
  | symlink => simp [hcontent] at h

theorem keeps_setReplication {replication : Nat} (ready : tx.Ready)
    (h : setReplication path replication tx = .ok done tx') :
    tx.tree.Sheds tx'.tree [] := by
  simp only [setReplication, Outcome.bind_eq_ok, read_eq_ok, get_eq_ok] at h
  obtain ⟨chain, _, ⟨_, rfl⟩, inode, _, ⟨⟨_, live⟩, rfl⟩, h⟩ := h
  cases hfile : inode.asFile with
  | none => simp [hfile] at h
  | some file =>
    simp only [hfile, Outcome.bind_eq_ok, put_eq_ok, journal_eq_ok] at h
    obtain ⟨_, _, haccount, _, _, ⟨_, rfl⟩, rfl⟩ := h
    exact keeps_refiled ready (tree_account haccount) live hfile rfl

end Adjusting

end Work

end QuotaTree
