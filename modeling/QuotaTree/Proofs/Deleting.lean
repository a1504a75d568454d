/-
Deleting takes out a subtree and nothing else: its inodes with the name that led
to them, the blocks of its files, and what is pending in it.
-/
import QuotaTree.Proofs.BlockRecords
import QuotaTree.Proofs.Faults.Arranging
import QuotaTree.Proofs.Usage.Entries
import QuotaTree.Proofs.Work.Sweep

namespace QuotaTree

open Nodes Work Transaction

namespace Chain

variable {view : View} {nodes : Nodes} {path : String}

/-- A component of a path is missing just if the path cannot be resolved for
that reason. -/
theorem exists_missing_iff (wf : nodes.WellFormed)
    (opens : ∀ x, view.Opens nodes x) :
    (∃ left, resolve view path false = .error (.notFound path left)) ↔
      ∃ chain name rest, resolveExisting view path false =
          .ok (chain, name :: rest) := by
  unfold resolve
  constructor
  · rintro ⟨left, h⟩
    cases hexisting : resolveExisting view path false with
    | error error =>
      rw [hexisting] at h
      obtain rfl : error = .notFound path left := Except.error.inj h
      rcases error_of_resolveExisting wf opens hexisting with h |
        ⟨_, h⟩ <;> cases h
    | ok found =>
      obtain ⟨chain, rest⟩ := found
      rw [hexisting] at h
      cases rest with
      | nil => cases h
      | cons name rest => exact ⟨chain, name, rest, rfl⟩
  · rintro ⟨chain, name, rest, h⟩
    rw [h]
    exact ⟨_, rfl⟩

end Chain

namespace Nodes.Pruning

variable {nodes after : Nodes} {parent id x : InodeId} {name : Name}
  {holder : Inode} {ids : List InodeId} {numbers : List Nat}

/-- What is left after a pruning, inode by inode. -/
theorem find_eq
    (pruning : nodes.Pruning after parent id name (holder.withoutChild name))
    (holds : nodes parent = some holder) (mem : ∀ x, x ∈ ids ↔ nodes.Under id x)
    (x : InodeId) :
    after x = if x ∈ ids then none else (nodes x).map fun inode => if x =
      parent then inode.withoutChild name else inode := by
  by_cases h : nodes.Under id x
  · rw [pruning.gone h, if_pos ((mem x).2 h)]
  · rw [pruning.kept h, if_neg fun hmem => h ((mem x).1 hmem), set_apply]
    by_cases hparent : x = parent
    · simp [hparent, holds]
    · simp [hparent]

/-- The blocks that files lose by a pruning are those of the files taken out. -/
theorem mem_shed_iff
    (pruning : nodes.Pruning after parent id name (holder.withoutChild name))
    (holds : nodes parent = some holder) (sheds : nodes.Sheds after numbers)
    (number : Nat) : number ∈ numbers ↔ ∃ x, nodes.Under id x ∧
    number ∈ (nodes.marks x).map Prod.fst := by
  obtain ⟨gone, hgone, hnumbers⟩ := sheds
  rw [hnumbers]
  refine exists_congr fun x => ?_
  by_cases h : nodes.Under id x
  · rw [hgone x, marks_of_dead (pruning.gone h), List.nil_append]
    exact (and_iff_right h).symm
  · have hsame : after.marks x = nodes.marks x := by
      have hkept :
          (nodes.set parent (some (holder.withoutChild name))).marks x =
            nodes.marks x :=
        marks_set_same (by rw [marks_of_live holds, Inode.marks_withoutChild]) x
      rw [← hkept, Nodes.marks, pruning.kept h, Nodes.marks]
    have hnone : gone x = [] := by
      have := hgone x
      rwa [hsame, List.self_eq_append_right] at this
    simp [h, hnone]

end Nodes.Pruning

namespace Transaction

variable {tx : Transaction}

/-- What the ledger lists afterwards if nothing has been merged. -/
theorem mem_ledgerAfter (sound : tx.base.ledger.Sound) (plain : tx.Plain) :
    (∀ update ∈ tx.base.ledger.toList, update.inode ∉ tx.withdrawn →
        update ∈ tx.ledgerAfter.toList) ∧
      ∀ update ∈ tx.ledgerAfter.toList,
        update ∈ tx.base.ledger.toList ∧ update.inode ∉ tx.withdrawn ∨
          ∃ entry ∈ tx.updates, entry.1 = update.inode := by
  have hafter : tx.ledgerAfter =
      (tx.base.ledger.withdrawAll tx.withdrawn).submitAll tx.updates := by
    rw [ledgerAfter, plain.merged, plain.clearing]
    rfl
  obtain ⟨hkept, hcame⟩ :=
    (sound.withdrawAll tx.withdrawn).1.mem_submitAll tx.updates
  rw [hafter]
  refine ⟨fun update h hnot => hkept update (sound.mem_withdrawAll.2 ⟨h, hnot⟩),
    fun update h => ?_⟩
  exact (hcame update h).imp_left sound.mem_withdrawAll.1

end Transaction

namespace Namespace

variable {ns ns' : Namespace} {path : String} {recursive : Bool}
  {parent chain : Chain} {name : Name} {id : InodeId} {ids : List InodeId}

/-- The subtree at the end of a chain is gone, and nothing else has changed but
what is pending for its parent. -/
structure Deleted (ns : Namespace) (path : String) (recursive : Bool)
    (parent : Chain) (name : Name) (ids : List InodeId) (ns' : Namespace) :
    Prop where
  inodes : ∀ x, ns'.table.find? x =
    if x ∈ ids then none
    else (ns.table.find? x).map fun inode => if x = parent.last then
      inode.withoutChild name else inode
  blocks : ∀ number : Nat, ns'.blocks[number]? =
    if number ∈ Block.numbers (ids.flatMap ns.blocksOf) then
      none else ns.blocks[number]?
  withdrawn : ∀ update ∈ ns'.ledger.toList, update.inode ∉ ids
  pending :
    ∀ update ∈ ns.ledger.toList, update.inode ∉ ids → update ∈ ns'.ledger.toList
  entered : ∀ update ∈ ns'.ledger.toList, update.inode ≠ parent.last →
    update ∈ ns.ledger.toList
  next : ns'.table.next = ns.table.next
  rest : ns' = { ns with
    table := ns'.table
    ledger := ns'.ledger
    blocks := ns'.blocks
    edits :=
      ns.edits ++ if ns.imageLoaded then [.delete path recursive] else [] }

/-- What deleting answers, by what the path leads to. -/
inductive Deleting (ns : Namespace) (path : String) (recursive : Bool) :
    EStateM.Result Error Namespace Bool → Prop
  | unresolved {error : Error}
      (resolves : Chain.resolveExisting ns.table.view path false =
        .error error) : Deleting ns path recursive (.error error ns)
  | missing {chain : Chain} {name : Name} {left : List Name}
      (resolves : Chain.resolveExisting ns.table.view path false =
        .ok (chain, name :: left)) : Deleting ns path recursive (.ok false ns)
  | root
      (resolves : Chain.resolveExisting ns.table.view path false =
        .ok (.root, [])) :
    Deleting ns path recursive (.error (.badArgument .deletesRoot) ns)
  | refused {parent : Chain} {name : Name} {id : InodeId} {inode : Inode}
      (resolves : Chain.resolveExisting ns.table.view path false =
        .ok (parent.child name id, []))
      (live : ns.table.find? id = some inode) (entries : inode.entries ≠ [])
      (single : recursive = false) :
    Deleting ns path recursive (.error (.directoryNotEmpty path) ns)
  | deleted {parent : Chain} {name : Name} {id : InodeId} {inode : Inode}
      {ids : List InodeId} {ns' : Namespace}
      (resolves : Chain.resolveExisting ns.table.view path false =
        .ok (parent.child name id, []))
      (live : ns.table.find? id = some inode)
      (accepted : inode.entries = [] ∨ recursive = true)
      (subtree : ns.table.view.subtree id = .ok ids)
      (deleted : ns.Deleted path recursive parent name ids ns') :
    Deleting ns path recursive (.ok true ns')

/-- A sweep from the start of a unit of work that prunes a subtree has withdrawn
what is pending in it, and has entered updates for the directory above only. -/
theorem withdrawn_of_deletes {locks : LockSet} {last : Transaction}
    (deletes : Deletes (ns.opened .delete locks) last parent.last name id)
    (live : (ns.table.tree id).isSome)
    (mem : ∀ x, x ∈ ids ↔ ns.table.tree.Under id x) :
    (∀ x, x ∈ last.withdrawn ↔ x ∈ ids) ∧
    ∀ entry ∈ last.updates, entry.1 = parent.last := by
  obtain ⟨⟨holder, holds, pruning⟩, sweeps⟩ := deletes
  have hopened := @tree_opened ns .delete locks
  obtain ⟨inode, live⟩ := Option.isSome_iff_exists.1 live
  rw [hopened] at holds pruning
  have hfind := pruning.find_eq holds mem
  constructor
  · intro x
    have hwithdrawn : x ∈ last.withdrawn ↔
        x ∈ ([] : List InodeId) ∨ ((ns.opened .delete locks).tree x).isSome ∧
        last.tree x = none := sweeps.withdrawn x
    rw [hwithdrawn, hopened, hfind]
    by_cases hx : x ∈ ids
    · simp [hx, isSome_of_under live ((mem x).1 hx)]
    · cases htree : ns.table.tree x <;> simp [hx]
  · intro entry hentry
    rcases sweeps.entered entry hentry with hold | ⟨lost, hlisted, hgone⟩
    · cases hold
    · rw [hopened] at hlisted
      by_contra hne
      have hsame : last.tree entry.1 = ns.table.tree entry.1 := by
        have hlive := sweeps.kept entry hentry
        rw [hopened] at hlive
        rw [hfind] at hlive ⊢
        cases htree : ns.table.tree entry.1 with
        | none => simp
        | some found => simp_all
      rw [entryAt, hsame, ← entryAt] at hgone
      rw [hgone] at hlisted
      cases hlisted

/-- What a unit of work that has deleted a subtree leaves, without the blocks of
its files. -/
theorem deleted_of_deletes {locks : LockSet} {last : Transaction}
    {blocks : List Block} {inode : Inode} (sound : ns.Sound)
    (subtree : ns.table.view.subtree id = .ok ids)
    (live : ns.table.tree id = some inode)
    (deletes : Deletes (ns.opened .delete locks) last parent.last name id)
    (plain : last.Plain)
    (ext : (ns.opened .delete locks).Extends
      (last.journaled (.delete path recursive)))
    (sheds : ns.table.tree.Sheds last.tree (Block.numbers blocks)) :
    ns.Deleted path recursive parent name ids
      { (last.journaled (.delete path recursive)).commit with
        blocks :=
          (last.journaled (.delete path recursive)).commit.blocks.removeAll
            blocks } := by
  have wf : ns.table.tree.WellFormed := sound.books.wellFormed
  have hmem := (InodeTable.view_reads wf).mem_subtree wf subtree
  obtain ⟨hwithdrawn, hupdates⟩ :=
    withdrawn_of_deletes deletes (live ▸ rfl) hmem
  obtain ⟨⟨holder, holds, pruning⟩, sweeps⟩ := deletes
  rw [tree_opened] at holds pruning
  have hcommit := commit_eq sound ext
  have hstored :
      (last.journaled (.delete path recursive)).commit.table.tree = last.tree :=
    tree_commit ext
  have hledger :
      (last.journaled (.delete path recursive)).commit.ledger =
        last.ledgerAfter := ledger_commit _
  have hbase := ledger_of_extends ext
  rw [journaled_base] at hbase
  obtain ⟨hkept, hcame⟩ := mem_ledgerAfter (hbase ▸ sound.ledger) plain
  rw [hbase] at hkept hcame
  constructor
  case inodes =>
    intro x
    exact (congrFun hstored x).trans (pruning.find_eq holds hmem x)
  case blocks =>
    intro number
    rw [hcommit]
    change (ns.blocks.removeAll blocks)[number]? = _
    rw [BlockMap.getElem?_removeAll]
    refine if_congr ?_ rfl rfl
    change number ∈ Block.numbers blocks ↔ _
    simp only [pruning.mem_shed_iff holds sheds number, marks_eq,
      Block.map_fst_mark, ← hmem, Block.numbers, List.map_flatMap,
      List.mem_flatMap]
  case withdrawn =>
    intro update h
    rcases hcame update (hledger ▸ h) with hold | ⟨entry, hentry, hinode⟩
    · exact fun hids => hold.2 ((hwithdrawn _).2 hids)
    · rw [← hinode, hupdates entry hentry, hmem]
      exact pruning.not_under_parent wf
  case pending =>
    intro update h hnot
    exact hledger ▸ hkept update h fun hwith => hnot ((hwithdrawn _).1 hwith)
  case entered =>
    intro update h hne
    rcases hcame update (hledger ▸ h) with hold | ⟨entry, hentry, hinode⟩
    · exact hold.1
    · exact absurd (hinode.symm.trans (hupdates entry hentry)) hne
  case next =>
    change (last.journaled (.delete path recursive)).commit.table.next = _
    rw [next_commit]
    exact congrArg (fun base => base.table.next) sweeps.base
  case rest =>
    have hedits :
        (last.journaled (.delete path recursive)).edits =
          [.delete path recursive] := by
      rw [journaled_edits, show last.edits = [] from sweeps.edits,
        List.nil_append]
    rw [hedits] at hcommit
    generalize (last.journaled (.delete path recursive)).commit =
      stored at hcommit
    obtain ⟨⟩ := stored
    simp only [Namespace.mk.injEq] at hcommit ⊢
    tauto

/-- What a deletion answers once it is done, and forgets the blocks of. -/
def deletion : Option (List Block) → Request Bool
  | none => pure false
  | some blocks => do
    releaseBlocks blocks
    pure true

abbrev deleteLock (path : String) : PathLock :=
  { path, kind := .writeWithParent, scope := .subtree }

/-- Deleting what a path leads to, under locks for writing on all of it and the
directory above. -/
theorem deleting_of_leads {locks : LockSet} (sound : ns.Sound)
    (granted : (ns.opened .delete locks).Grants (deleteLock path)
      (parent.child name id) [])
    (resolves : Chain.resolveExisting ns.table.view path false =
      .ok (parent.child name id, []))
    (recursive : Bool) :
    ns.Deleting path recursive (finish deletion ((some <$> deleteTree
      (parent.child name id) path recursive) (ns.opened .delete locks))) := by
  have wf : ns.table.tree.WellFormed := sound.books.wellFormed
  have ready := @ready_opened ns .delete locks sound.books
  have leads := granted.leads ready
  have hopened := @tree_opened ns .delete locks
  have hwrite : (ns.opened .delete locks).Allows id .write := granted.last
  obtain ⟨inode, live⟩ := leads.live ready.wellFormed
  have stored : ns.table.tree id = some inode := hopened ▸ live
  rw [map_eq_pure_bind]
  by_cases accepted : inode.entries ≠ [] ∧ recursive = false
  · obtain ⟨entries, rfl⟩ := accepted
    rw [Outcome.bind_of_error (deleteTree_of_entries hwrite.read live entries)]
    change ns.Deleting path false
      (.error (.directoryNotEmpty path) (ns.opened .delete locks).rollback)
    rw [rollback_opened sound.locks]
    exact .refused resolves stored entries rfl
  · have hbelow : ∀ x, (ns.opened .delete locks).tree.Under id x →
        (ns.opened .delete locks).Allows x .write := by
      intro x hx
      by_cases hne : x = id
      · exact hne ▸ hwrite
      · exact granted.below rfl rfl x hx hne
    obtain ⟨blocks, tx', hdelete⟩ :
        ∃ blocks tx', deleteTree (parent.child name id) path recursive
            (ns.opened .delete locks) = .ok blocks tx' :=
      exists_deleteTree ready leads live accepted
        (granted.above rfl rfl _ rfl) hbelow
    obtain ⟨ids, subtree⟩ := (InodeTable.view_reads wf).exists_subtree wf stored
      fun x _ => InodeTable.view_opens x
    have hplain := (turns_deleteTree ready leads hdelete).plain ready.plain
    have hsheds := sheds_deleteTree ready leads hdelete
    have ext := (Frames.deleteTree _ _ _).extends_of_ok hdelete
    obtain ⟨last, deletes, rfl⟩ := deletes_deleteTree ready leads hdelete
    have hdeleted := @deleted_of_deletes ns path recursive parent name id ids
      locks last blocks inode sound subtree stored deletes ⟨hplain.merged,
        hplain.clearing⟩ ext (hopened ▸ hsheds)
    rw [Outcome.bind_of_ok hdelete]
    refine .deleted resolves stored ?_ subtree hdeleted
    cases recursive
    · exact .inl (not_not.1 fun entries => accepted ⟨entries, rfl⟩)
    · exact .inr rfl

/-- What deleting answers under its locks, by what the path leads to. -/
theorem deleting_of_grants {locks : LockSet} {rest : List Name}
    (sound : ns.Sound)
    (granted : (ns.opened .delete locks).Grants (deleteLock path) chain rest)
    (resolves : Chain.resolveExisting ns.table.view path false =
      .ok (chain, rest))
    (recursive : Bool) : ns.Deleting path recursive (finish deletion
      (deletePath path recursive (ns.opened .delete locks))) := by
  rw [deletePath, Outcome.bind_of_ok (read_of_ok granted.resolves)]
  cases rest with
  | cons name left =>
    change ns.Deleting path recursive
      (.ok false (ns.opened .delete locks).commit)
    rw [commit_opened sound.locks]
    exact .missing resolves
  | nil =>
    cases chain with
    | root =>
      change ns.Deleting path recursive
        (.error (.badArgument .deletesRoot) (ns.opened .delete locks).rollback)
      rw [rollback_opened sound.locks]
      exact .root resolves
    | child parent name id =>
      exact deleting_of_leads sound granted resolves recursive

/-- Deleting at a path that names no inode by number. -/
theorem deleting_of_plain (sound : ns.Sound)
    (plain : Path.isReserved path = false) (recursive : Bool) :
    ns.Deleting path recursive (delete path recursive ns) := by
  have wf : ns.table.tree.WellFormed := sound.books.wellFormed
  have hpath : resolvePath path ns = .ok path ns :=
    resolvePath_eq_ok.2 ⟨Path.resolveReserved_of_plain plain, rfl⟩
  rw [delete, Outcome.bind_of_ok hpath]
  cases hexisting : Chain.resolveExisting ns.table.view path false with
  | error error =>
    have hplan :=
      @LockDemand.plan_of_error (deleteLock path) ns.table.view error hexisting
    rw [Outcome.bind_of_error (transact_of_unplanned sound.locks hplan)]
    exact .unresolved hexisting
  | ok found =>
    obtain ⟨chain, rest⟩ := found
    obtain ⟨locks, hplan, grants⟩ :=
      @exists_opened ns [deleteLock path] sound .delete fun lock h => by
      rw [List.mem_singleton.1 h]
      exact ⟨rfl, chain, rest, hexisting⟩
    rw [LockDemand.ofPath,
      transact_bind sound.locks hplan (keyed_of_ok (.deletePath _ _))]
    exact deleting_of_grants sound
      (grants _ (List.mem_singleton_self _) _ _ hexisting) hexisting recursive

/-- What deleting at a path comes to: that there is nothing, that a directory is
refused for its entries, or that a subtree is gone. -/
structure Deletes (ns : Namespace) (path : String) (recursive : Bool) :
    Prop where
  missing : ∀ ns', delete path recursive ns = .ok false ns' ↔
    ns' = ns ∧ ∃ left, Chain.resolve ns.table.view path false =
      .error (.notFound path left)
  refused : (∃ shown ns', delete path recursive ns =
        .error (.directoryNotEmpty shown) ns') ↔
    recursive = false ∧
    ∃ chain inode, Chain.resolve ns.table.view path false = .ok chain ∧
      chain.last ≠ .root ∧ ns.table.find? chain.last = some inode ∧
      inode.entries ≠ []
  succeeds : (∃ ns', delete path recursive ns = .ok true ns') ↔
    ∃ chain inode, Chain.resolve ns.table.view path false = .ok chain ∧
      chain.last ≠ .root ∧
      ns.table.find? chain.last = some inode ∧
      (inode.entries = [] ∨ recursive = true)
  deleted : ∀ ns', delete path recursive ns = .ok true ns' →
    ∃ parent name id ids,
    Chain.resolve ns.table.view path false = .ok (parent.child name id) ∧
      ns.table.view.subtree id = .ok ids ∧
      ns.Deleted path recursive parent name ids ns'

theorem deletes_of_plain (sound : ns.Sound)
    (plain : Path.isReserved path = false) (recursive : Bool) :
    ns.Deletes path recursive := by
  have wf : ns.table.tree.WellFormed := sound.books.wellFormed
  have hmissing :=
    @Chain.exists_missing_iff ns.table.view _ path wf InodeTable.view_opens
  have hdeleting := deleting_of_plain sound plain recursive
  have hbelow {parent : Chain} {name : Name} {id : InodeId}
      (resolves : Chain.resolveExisting ns.table.view path false =
        .ok (parent.child name id, [])) : id ≠ .root :=
    ((Chain.Leads.resolveExisting (InodeTable.view_reads wf) resolves).proper
      wf).2
  generalize hresult : delete path recursive ns = result at hdeleting
  -- in each case it is known what the path leads to
  cases hdeleting with
  | @unresolved error resolves =>
    have hother (shown : String) : error ≠ .directoryNotEmpty shown := by
      rintro rfl
      rcases Chain.error_of_resolveExisting wf InodeTable.view_opens resolves
        with h | ⟨_, h⟩ <;>
        cases h
    constructor <;> simp [hresult, hmissing, Chain.resolve_eq_ok, resolves,
      hother]
  | missing resolves =>
    constructor <;> simp [hresult, hmissing, Chain.resolve_eq_ok, resolves,
      eq_comm (a := ns)]
  | root resolves =>
    constructor <;> simp [hresult, hmissing, Chain.resolve_eq_ok, resolves]
  | refused resolves live entries single =>
    have hne := hbelow resolves
    subst single
    constructor <;> simp [hresult, hmissing, Chain.resolve_eq_ok, resolves, hne,
      live, entries]
  | @deleted
      parent name id inode ids ns' resolves live accepted subtree deleted =>
    have hne := hbelow resolves
    constructor
    case missing => simp [hresult, hmissing, resolves]
    case refused =>
      simp only [hresult, reduceCtorEq, exists_false, false_iff]
      rintro ⟨rfl, chain, found, hchain, _, hfound, entries⟩
      obtain ⟨rfl, _⟩ := Prod.mk.inj
        (Except.ok.inj (resolves.symm.trans (Chain.resolve_eq_ok.1 hchain)))
      obtain rfl : inode = found := Option.some.inj (live.symm.trans hfound)
      exact accepted.elim entries Bool.false_ne_true
    case succeeds =>
      simp [hresult, Chain.resolve_eq_ok, resolves, hne, live, accepted]
    case deleted =>
      intro after h
      obtain ⟨-, rfl⟩ := EStateM.Result.ok.inj (hresult.symm.trans h)
      exact ⟨parent, name, id, ids, Chain.resolve_eq_ok.2 resolves, subtree,
        deleted⟩

/-- In every namespace that can come about, deleting takes out just a
subtree. -/
theorem deletes_after (config : Config) (events : List Event) (path : String)
    (recursive : Bool) (plain : Path.isReserved path = false) :
    ((fresh config).after (events.map Event.run)).Deletes path recursive :=
  deletes_of_plain ((sound_fresh config).after events) plain recursive

/-- A directory with a file that has a block, two directories in one another,
and updates pending at all of them and beside them. -/
def deleteRun : List Event :=
  [.call (.create "/a/f" { writer := ⟨"c", ""⟩, blockSize := some 10 }),
    .call (.addBlock "/a/f" "c" []), .call (.mkdirs "/a/b/c" {}),
    .call (.mkdirs "/d/e" {})]

theorem deletes_after_deleteRun :
    let ns := (fresh {}).after (deleteRun.map Event.run)
    Path.isReserved "/a" = false ∧ ns.Deletes "/a" true ∧
    ns.Deletes "/a" false ∧
      (Outcome.state (delete "/a" true ns)).table.nodes.keys = [.root, ⟨6⟩,
        ⟨7⟩] ∧
      (Outcome.state (delete "/a" true ns)).blocks.keys = [] ∧
      (Outcome.state (delete "/a" true ns)).ledger.toList.map QuotaUpdate.id =
        [0, 5, 6, 7] := by
  intro ns
  have plain : Path.isReserved "/a" = false := by decide +kernel
  refine ⟨plain, deletes_after {} deleteRun "/a" true plain,
    deletes_after {} deleteRun "/a" false plain, ?_, ?_, ?_⟩
  · decide +kernel
  · decide +kernel
  · decide +kernel

end Namespace

end QuotaTree
