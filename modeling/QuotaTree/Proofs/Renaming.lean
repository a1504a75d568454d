/-
Renaming moves a subtree as a whole.  One directory loses a name, another one
gains one, and the inode at the top of the subtree is stored with its new place;
below it paths lead where they led, and so they do everywhere else.
-/
import QuotaTree.Proofs.Convergence
import QuotaTree.Proofs.Files.Requests
import QuotaTree.Proofs.Tree.Home
import QuotaTree.Proofs.Tree.Moving

namespace QuotaTree

open Nodes

/-- What becomes of the inode `x` when `entry` of one directory becomes `name`
of another one. -/
def Inode.relocated (id parent : InodeId) (entry : Name) (target : InodeId)
    (name : Name) (x : InodeId) (inode : Inode) : Inode :=
  if x = id then { inode with name, parent := some target }
  else
    let left := if x = parent then inode.withoutChild entry else inode
    if x = target then left.withChild name id else left

/-- A relocation changes three inodes. -/
theorem Nodes.relocate_apply {nodes : Nodes} {id parent target : InodeId}
    {name entry : Name} {holder below inode : Inode}
    (hholder : nodes parent = some holder)
    (hbelow : nodes.set parent (some (holder.withoutChild entry)) target =
      some below)
    (hinode : nodes id = some inode) (x : InodeId) :
    nodes.relocate id parent target (holder.withoutChild entry)
      (below.withChild name id) { inode with name, parent := some target } x =
      (nodes x).map (Inode.relocated id parent entry target name x) := by
  rw [relocate, set_apply, set_apply, set_apply]
  rw [set_apply] at hbelow
  unfold Inode.relocated
  by_cases hid : x = id
  · simp [hid, hinode]
  by_cases htarget : x = target
  · subst htarget
    by_cases hparent : x = parent
    · simp_all
    · simp_all
  by_cases hparent : x = parent
  · simp_all
  · simp_all

namespace Namespace

/-- The subtree of an inode has moved to another place, and nothing else has
changed. -/
structure Moved (ns : Namespace) (source destination : String) (parent : Chain)
    (entry : Name) (id : InodeId) (target : Chain) (name : Name)
    (ns' : Namespace) : Prop where
  inodes :
    ∀ x, ns'.table.find? x = (ns.table.find? x).map
        (Inode.relocated id parent.last entry target.last name x)
  free : ∀ x, ¬ ns.table.Lists target.last name x
  next : ns'.table.next = ns.table.next
  rest : ns' = { ns with
    table := ns'.table
    ledger := ns'.ledger
    edits :=
      ns.edits ++ if ns.imageLoaded then [.rename source destination] else [] }
  followed :
    ∀ text x, ns'.table.Finds (Path.child (target.child name id).path text) x ↔
    ns.table.Finds (Path.child source text) x
  kept : ∀ path x, ns.table.Finds path x →
    (∀ steps, ns.table.climb steps x ≠ some id) →
    Path.addressedParent? path ≠ some id → ns'.table.Finds path x
  gone : ∀ x, ¬ ns'.table.Finds source x

/-- What renaming comes to when it succeeds.  No link at the end of a path is
followed. -/
inductive Renamed (ns : Namespace) (source destination : String) :
    Namespace → Prop
  /-- The destination is what is renamed. -/
  | here {source' destination' : String} {parent chain : Chain} {entry : Name}
      {id : InodeId}
      (source_eq : Path.resolveReserved ns.table.view source = .ok source')
      (destination_eq : Path.resolveReserved ns.table.view destination =
        .ok destination')
      (leaves : Chain.resolve ns.table.view source' false =
        .ok (parent.child entry id))
      (resolves : Chain.resolveExisting ns.table.view destination' false =
        .ok (chain, []))
      (same : chain.last = id) : Renamed ns source destination ns
  /-- It would come back under its own parent and name. -/
  | back {source' destination' : String} {parent chain : Chain} {entry : Name}
      {id : InodeId}
      (source_eq : Path.resolveReserved ns.table.view source = .ok source')
      (destination_eq : Path.resolveReserved ns.table.view destination =
        .ok destination')
      (leaves : Chain.resolve ns.table.view source' false =
        .ok (parent.child entry id))
      (into : Work.Into ns.table.view destination' id entry chain entry)
      (same : chain.last = parent.last) : Renamed ns source destination ns
  | moved {source' destination' : String} {parent target : Chain}
      {entry name : Name} {id : InodeId} {ns' : Namespace}
      (source_eq : Path.resolveReserved ns.table.view source = .ok source')
      (destination_eq : Path.resolveReserved ns.table.view destination =
        .ok destination')
      (leaves : Chain.resolve ns.table.view source' false =
        .ok (parent.child entry id))
      (into : Work.Into ns.table.view destination' id entry target name)
      (apart : ¬ (target.last = parent.last ∧ name = entry))
      (moved : ns.Moved source' destination' parent entry id target name ns') :
    Renamed ns source destination ns'

variable {ns ns' : Namespace} {source destination : String}
  {parent chain : Chain} {entry name : Name} {id : InodeId} {locks : LockSet}
  {tx : Transaction}

/-- Where a path leads with locks it leads in the stored tree. -/
theorem into_unveiled
    (into : Work.Into
      (ns.opened .rename locks).view destination id entry chain name) :
    Work.Into ns.table.view destination id entry chain name := by
  cases into with
  | missing resolves =>
    exact .missing (Chain.resolveExisting_unveiled veils_opened resolves)
  | present resolves other found directory =>
    exact .present (Chain.resolveExisting_unveiled veils_opened resolves) other
      ((veils_opened.get _).eq_ok found) directory

/-- The names of a path that leads to an entry. -/
theorem components_of_resolve
    (leaves : Chain.resolve ns.table.view source false =
      .ok (parent.child entry id)) :
    Path.components source = .ok (parent.names ++ [entry]) :=
  Chain.components_of_resolve leaves

/-- A move relocates the subtree, and leaves identities and the log alone. -/
theorem relocates_of_move {done : Unit} {tx' : Transaction} (ready : tx.Ready)
    (entered : tx.tree.entryAt parent.last entry = some id)
    (leads : Chain.Leads tx.tree chain) (outside : chain.contains id = false)
    (h : Work.move (parent.child entry id) parent chain name tx =
      .ok done tx') :
    ∃ lost gained moved, tx.tree.Relocation id parent.last chain.last entry name
        lost gained moved ∧
      tx'.tree = tx.tree.relocate id parent.last chain.last lost gained moved ∧
      (∀ x, tx'.tree x = (tx.tree x).map
        (Inode.relocated id parent.last entry chain.last name x)) ∧
      tx'.base = tx.base ∧ tx'.edits = tx.edits := by
  obtain ⟨inode, holder, ids, again, used, below, directory, moves, links,
    rfl⟩ := Work.move_eq_ok.1 h
  have wf := ready.wellFormed
  have hid : inode.id = id := wf.ids moves.live
  have hbelow := links.opened.live
  rw [moves.tree_freed wf] at hbelow
  have htree :
      (Transaction.linked (tx.freed holder parent.last entry again used) below
        directory chain.last { inode with name }
          (used - tx.pendingFor ids)).tree = tx.tree.relocate id parent.last
        chain.last (holder.withoutChild entry) (below.withDirectory
          { directory with children := directory.children.insert name id })
        { inode with name, parent := some chain.last } := by
    rw [Transaction.tree_linked (moves.target_id wf links), moves.tree_freed wf,
      hid]
    rfl
  refine ⟨_, _, _, moves.relocation ready entered leads outside links, htree,
    fun x => ?_, rfl, rfl⟩
  rw [htree, ← Inode.withChild_of_directory links.content]
  exact Nodes.relocate_apply moves.opened.live hbelow moves.live x

/-- What a move that succeeds leaves. -/
theorem moved_of_move {done : Unit} (sound : ns.Sound)
    (leaves : Chain.resolve ns.table.view source false =
      .ok (parent.child entry id))
    (leads : Chain.Leads ns.table.tree chain)
    (outside : chain.contains id = false)
    (apart : ¬ (chain.last = parent.last ∧ name = entry))
    (h : Work.move (parent.child entry id) parent chain name
      (ns.opened .rename locks) = .ok done tx)
    (ext : (ns.opened .rename locks).Extends
      (tx.journaled (.rename source destination)))
    (sound' : (tx.journaled (.rename source destination)).commit.Sound) :
    ns.Moved source destination parent entry id chain name
      (tx.journaled (.rename source destination)).commit := by
  have wf : ns.table.tree.WellFormed := sound.books.wellFormed
  have ready := @ready_opened ns .rename locks sound.books
  cases Chain.Leads.resolve (InodeTable.view_reads wf) leaves with
  | child above entered =>
    have hsource := components_of_resolve leaves
    have hopened := @tree_opened ns .rename locks
    obtain ⟨lost, gained, moved, rel, htree, hinodes, hbase, hedits⟩ :=
      relocates_of_move ready (hopened ▸ entered) (hopened ▸ leads) outside h
    rw [hopened] at rel htree hinodes
    have hstored :
        (tx.journaled (.rename source destination)).commit.table.tree =
          tx.tree := tree_commit ext
    have hrelocated := hstored.trans htree
    constructor
    case inodes =>
      intro x
      exact (congrFun hstored x).trans (hinodes x)
    case free =>
      intro x hlists
      cases (rel.entry_free apart).symm.trans (InodeTable.lists_iff.1 hlists)
    case next =>
      rw [next_commit]
      exact congrArg (fun base => base.table.next) hbase
    case rest =>
      have hcommit := commit_eq sound ext
      rw [Transaction.journaled_edits, hedits] at hcommit
      exact hcommit
    case followed =>
      intro text x
      exact finds_child_of_relocation sound sound' rel hrelocated above rfl
        leads rfl hsource text
    case kept =>
      intro path x hfinds hout other
      refine finds_of_relocation sound sound' rel hrelocated
        (fun hunder => ?_) other hfinds
      obtain ⟨steps, hclimb⟩ := InodeTable.exists_climb_of_under hunder
      exact hout steps hclimb
    case gone =>
      intro x
      exact not_finds_of_relocation sound sound' rel hrelocated above rfl apart
        hsource

theorem renamed_of_ok (sound : ns.Sound)
    (h : rename source destination ns = .ok () ns') :
    ns.Renamed source destination ns' := by
  have hsound := (drifting_rename source destination ns sound).sound sound
  rw [h] at hsound
  obtain ⟨source', _, hsource, hrest⟩ := Outcome.bind_eq_ok.1 h
  obtain ⟨source_eq, hsame⟩ := resolvePath_eq_ok.1 hsource
  rw [hsame] at hrest
  obtain ⟨destination', _, hdestination, htransact⟩ :=
    Outcome.bind_eq_ok.1 hrest
  obtain ⟨destination_eq, hsame⟩ := resolvePath_eq_ok.1 hdestination
  rw [hsame] at htransact
  obtain ⟨locks, tx, _, hwork, rfl⟩ := exists_of_transact sound.locks htransact
  have ext := (Work.Frames.renamePath source' destination').extends_of_ok hwork
  have hreads := InodeTable.view_reads sound.books.wellFormed
  cases Work.renames_of_ok hwork with
  | here leaves resolves same =>
    rw [commit_opened sound.locks]
    exact .here source_eq destination_eq (Chain.resolve_unveiled veils_opened
      leaves) (Chain.resolveExisting_unveiled veils_opened resolves) same
  | back leaves into same =>
    rw [commit_opened sound.locks]
    exact .back source_eq destination_eq
      (Chain.resolve_unveiled veils_opened leaves) (into_unveiled into) same
  | moved leaves into outside apart moves =>
    have leaves := Chain.resolve_unveiled veils_opened leaves
    have into := into_unveiled into
    exact .moved source_eq destination_eq leaves into apart (moved_of_move sound
      leaves (into.leads hreads) outside apart moves ext hsound)

/-- In every namespace that can come about, renaming moves a subtree and changes
nothing else. -/
theorem renamed_after (config : Config) (events : List Event)
    (source destination : String) (ns' : Namespace)
    (h : rename source destination
      ((fresh config).after (events.map Event.run)) = .ok () ns') :
    ((fresh config).after (events.map Event.run)).Renamed source destination
      ns' :=
  renamed_of_ok ((sound_fresh config).after events) h

def renameRun : List Event :=
  [.call (.mkdirs "/a/b/c" {}), .call (.setQuota "/a" 10 Limit.none),
    .call (.mkdirs "/d" {})]

theorem renamed_after_renameRun :
    let ns := (fresh {}).after (renameRun.map Event.run)
    ∃ ns', rename "/a/b" "/d" ns = .ok () ns' ∧ ns.Renamed "/a/b" "/d" ns' ∧
      ns'.table.Finds "/d/b/c" ⟨4⟩ := by
  intro ns
  have hok : (Outcome.answer (rename "/a/b" "/d" ns)).isOk = true := by
    decide +kernel
  have hplace : ((Outcome.state (rename "/a/b" "/d" ns)).table.locate
        "/d/b/c").toOption.map Chain.last = some ⟨4⟩ := by
    decide +kernel
  obtain ⟨_, ns', h⟩ := Outcome.exists_of_isOk hok
  rw [h] at hplace
  exact ⟨ns', h, renamed_after {} renameRun "/a/b" "/d" ns' h,
    InodeTable.finds_of_toOption hplace⟩

def numberRun : List Event :=
  [.call (.mkdirs "/a" {})]

/-- A path by number goes on naming its inode when that moves. -/
theorem finds_source_numberRun :
    let ns := (fresh {}).after (numberRun.map Event.run)
    ∃ ns', rename "/.reserved/.inodes/2" "/b" ns = .ok () ns' ∧ ns' ≠ ns ∧
      ns'.table.Finds "/.reserved/.inodes/2" ⟨2⟩ := by
  intro ns
  have hok :
      (Outcome.answer (rename "/.reserved/.inodes/2" "/b" ns)).isOk = true := by
    decide +kernel
  have hplace :
      ((Outcome.state (rename "/.reserved/.inodes/2" "/b" ns)).table.locate
        "/.reserved/.inodes/2").toOption.map Chain.last = some ⟨2⟩ := by
    decide +kernel
  have hedits :
      (Outcome.state (rename "/.reserved/.inodes/2" "/b" ns)).edits ≠
        ns.edits := by
    decide +kernel
  obtain ⟨_, ns', h⟩ := Outcome.exists_of_isOk hok
  rw [h] at hplace hedits
  exact ⟨ns', h, fun hsame => hedits (congrArg Namespace.edits hsame),
    InodeTable.finds_of_toOption hplace⟩

end Namespace

end QuotaTree
