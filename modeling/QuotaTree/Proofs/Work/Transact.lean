/-
A unit of work on a namespace: its locks are taken, and when it succeeds what it
would leave is stored.  When it fails only identities are used up.
-/
import QuotaTree.Proofs.Work.Frame
import QuotaTree.Proofs.Work.Locks
import QuotaTree.Proofs.Work.Turns

namespace QuotaTree

open Nodes

namespace Transaction

variable {tx : Transaction} {id : InodeId}

def afterWrite (table : InodeTable) (write : InodeId × Option Inode) :
    InodeTable :=
  match write.2 with
  | some inode => table.insert inode
  | none => table.erase write.1

theorem tableAfter_eq_foldl :
    tx.tableAfter = tx.writes.toList.foldl afterWrite tx.base.table :=
  rfl

theorem find?_afterWrite {table : InodeTable} {write : InodeId × Option Inode}
    (keyed : ∀ {inode : Inode}, write.2 = some inode → inode.id = write.1)
    (id : InodeId) :
    (afterWrite table write).find? id = if id = write.1 then
      write.2 else table.find? id := by
  obtain ⟨other, found⟩ := write
  cases found with
  | none =>
    rw [afterWrite, InodeTable.find?_erase]
    simp only [eq_comm]
  | some inode =>
    rw [afterWrite, InodeTable.find?_insert, keyed rfl]
    simp only [eq_comm]

/-- Writes are carried out one after the other, each at its own identity. -/
theorem find?_foldl_afterWrite (list : List (InodeId × Option Inode))
    (table : InodeTable) (nodup : (list.map Prod.fst).Nodup)
    (keyed : ∀ write ∈ list, ∀ {inode : Inode}, write.2 = some inode →
      inode.id = write.1) :
    (∀ write ∈ list, (list.foldl afterWrite table).find? write.1 = write.2) ∧
      ∀ id, id ∉ list.map Prod.fst →
        (list.foldl afterWrite table).find? id = table.find? id := by
  induction list generalizing table with
  | nil => exact ⟨by simp, fun _ _ => rfl⟩
  | cons write rest ih =>
    obtain ⟨hnot, hnodup⟩ := List.nodup_cons.1 nodup
    have hfirst (id : InodeId) :
        (afterWrite table write).find? id = if id = write.1 then
          write.2 else table.find? id :=
      find?_afterWrite (keyed write List.mem_cons_self) id
    obtain ⟨hwritten, hothers⟩ := ih (afterWrite table write) hnodup
      fun other hother => keyed other (List.mem_cons_of_mem _ hother)
    rw [List.foldl_cons]
    constructor
    · intro other hother
      rcases List.mem_cons.1 hother with rfl | hother
      · rw [hothers _ hnot, hfirst, if_pos rfl]
      · exact hwritten other hother
    · intro other hother
      simp only [List.map_cons, List.mem_cons, not_or] at hother
      rw [hothers other hother.2, hfirst, if_neg hother.1]

/-- The table that is stored is the tree that the transaction has shown. -/
theorem find?_tableAfter (keyed : tx.Keyed) (id : InodeId) :
    tx.tableAfter.find? id = tx.tree id := by
  have hnodup : (tx.writes.toList.map Prod.fst).Nodup := by
    rw [Std.ExtTreeMap.map_fst_toList_eq_keys]
    exact tx.writes.nodup_keys
  obtain ⟨hwritten, hothers⟩ :=
    find?_foldl_afterWrite tx.writes.toList tx.base.table hnodup
      fun write hwrite inode hinode => keyed.own
      ((Std.ExtTreeMap.mem_toList_iff_getElem?_eq_some.1 hwrite).trans
        (by rw [hinode]))
  rw [tableAfter_eq_foldl]
  cases h : tx.writes[id]? with
  | none =>
    have hnot : id ∉ tx.writes.toList.map Prod.fst := by
      rw [Std.ExtTreeMap.map_fst_toList_eq_keys, Std.ExtTreeMap.mem_keys,
        ← Std.ExtTreeMap.isSome_getElem?_iff_mem, h]
      exact Bool.false_ne_true
    rw [hothers id hnot, tree, find?, h]
  | some written =>
    have hmem := Std.ExtTreeMap.mem_toList_iff_getElem?_eq_some.2 h
    rw [hwritten (id, written) hmem, tree, find?, h]

theorem checkRemovals_eq_ok (table : InodeTable)
    (list : List (InodeId × Option Inode))
    (root : ∀ write ∈ list, write.2 = none → write.1 ≠ .root) :
    checkRemovals table list = .ok () := by
  induction list with
  | nil => rfl
  | cons write rest ih =>
    have hrest :=
      ih fun other hother => root other (List.mem_cons_of_mem _ hother)
    obtain ⟨id, _ | inode⟩ := write
    · have hne : id ≠ .root := root _ List.mem_cons_self rfl
      rw [checkRemovals, hrest, InodeTable.contains, InodeTable.remove,
        if_neg hne]
      cases table.find? id <;> rfl
    · exact hrest

/-- What goes by the operations on a transaction takes out no root. -/
theorem Keyed.checkRemovals_eq_ok (keyed : tx.Keyed) (table : InodeTable) :
    checkRemovals table tx.writes.toList = .ok () := by
  apply Transaction.checkRemovals_eq_ok
  intro write hwrite hnone hroot
  have hwritten := Std.ExtTreeMap.mem_toList_iff_getElem?_eq_some.1 hwrite
  rw [hnone, hroot] at hwritten
  exact keyed.root hwritten

theorem next_tableAfter : tx.tableAfter.next = tx.base.table.next := by
  rw [tableAfter_eq_foldl]
  generalize tx.base.table = table
  induction tx.writes.toList generalizing table with
  | nil => rfl
  | cons write rest ih =>
    rw [List.foldl_cons, ih, afterWrite]
    split <;> rfl

end Transaction

namespace Namespace

def books (ns : Namespace) : Books where
  nodes := ns.table.tree
  pending := ns.ledger.pendingAt
  next := ns.table.next

def keepsQuota (ns : Namespace) : Bool :=
  ns.config.quotaEnabled && ns.imageLoaded

/-- What holds between two requests: the books are sound, the ledger is in
order, and no lock is held. -/
structure Sound (ns : Namespace) : Prop where
  books : ns.books.Sound
  ledger : ns.ledger.Sound
  locks : ns.locks = ∅

def opened (ns : Namespace) (operation : Operation) (locks : LockSet) :
    Transaction where
  base := { ns with locks := (ns.locks.takeAll locks.toList).1 }
  operation := operation
  locks := locks

variable {ns ns' : Namespace} {operation : Operation} {demand : LockDemand}
  {locks : LockSet} {α : Type} {work : Work α} {value : α}

/-- A request that runs alone finds the tree under its locks as it has planned
them, so its first attempt to take them is the last. -/
theorem acquire_of_plan (free : ns.locks = ∅)
    (plan : demand.plan ns.table.view = .ok locks) (attempts : Nat) :
    ns.acquire demand (attempts + 1) locks =
      .ok ((ns.opened operation locks).base.locks, locks) := by
  obtain ⟨taken, htake, _⟩ := LockTable.takeAll_empty locks
  simp only [acquire, opened, free, htake, plan, bind, Except.bind,
    locks.covers_self]
  rfl

theorem begin_of_plan (free : ns.locks = ∅) :
    ns.begin operation demand =
      (demand.plan ns.table.view).map (ns.opened operation) := by
  unfold begin
  cases h : demand.plan ns.table.view with
  | error error => rfl
  | ok locks =>
    have hacquire :=
      @acquire_of_plan ns operation demand locks free h ns.config.lockRetries
    simp only [bind, Except.bind, hacquire]
    rfl

/-- A request that gets its locks ends as its work does under them. -/
theorem transact_of_plan (free : ns.locks = ∅)
    (plan : demand.plan ns.table.view = .ok locks)
    (keyed : ∀ {value tx}, work (ns.opened operation locks) = .ok value tx →
      tx.Keyed) :
    transact operation demand work ns =
      match work (ns.opened operation locks) with
      | .ok value tx => .ok value tx.commit
      | .error error tx => .error error tx.rollback := by
  unfold transact
  rw [begin_of_plan free, plan]
  simp only [Except.map]
  cases h : work (ns.opened operation locks) with
  | ok value tx => simp only [(keyed h).checkRemovals_eq_ok]
  | error error tx => rfl

theorem transact_of_unplanned {error : Error} (free : ns.locks = ∅)
    (unplanned : demand.plan ns.table.view = .error error) :
    transact operation demand work ns = .error error ns := by
  unfold transact
  rw [begin_of_plan free, unplanned]
  rfl

theorem exists_of_transact (free : ns.locks = ∅)
    (h : transact operation demand work ns = .ok value ns') :
    ∃ locks tx', demand.plan ns.table.view = .ok locks ∧
      work (ns.opened operation locks) = .ok value tx' ∧ ns' = tx'.commit := by
  unfold transact at h
  rw [begin_of_plan free] at h
  cases hplan : demand.plan ns.table.view with
  | error error =>
    rw [hplan] at h
    cases h
  | ok locks =>
    simp only [hplan, Except.map] at h
    split at h
    next value tx hwork =>
      split at h
      · cases h
        exact ⟨locks, tx, rfl, hwork, rfl⟩
      · cases h
    next => cases h

theorem releaseAll_opened (free : ns.locks = ∅) :
    (ns.opened operation locks).base.locks.releaseAll locks = ∅ := by
  obtain ⟨taken, htake, hrelease⟩ := LockTable.takeAll_empty locks
  simp only [opened, free, htake, hrelease]

theorem keyed_opened : (ns.opened operation locks).Keyed :=
  Transaction.keyed_of_unwritten rfl

/-- Work under the locks of a request takes out no root. -/
theorem keyed_of_ok (frames : work.Frames) {tx : Transaction}
    (h : work (ns.opened operation locks) = .ok value tx) : tx.Keyed :=
  (frames.extends_of_ok h).keyed keyed_opened

theorem transact_eq_ok (free : ns.locks = ∅) (frames : work.Frames) :
    transact operation demand work ns = .ok value ns' ↔
      ∃ locks tx', demand.plan ns.table.view = .ok locks ∧
        work (ns.opened operation locks) = .ok value tx' ∧
        ns' = tx'.commit := by
  constructor
  · exact exists_of_transact free
  · rintro ⟨locks, tx', plan, hwork, rfl⟩
    rw [transact_of_plan free plan (keyed_of_ok frames), hwork]

/-- A request that gets its locks fails as its work does under them. -/
theorem error_of_transact_iff {error : Error} (free : ns.locks = ∅)
    (frames : work.Frames) (plan : demand.plan ns.table.view = .ok locks) :
    (∃ ns', transact operation demand work ns = .error error ns') ↔
      ∃ tx, work (ns.opened operation locks) = .error error tx := by
  rw [transact_of_plan free plan (keyed_of_ok frames)]
  cases work (ns.opened operation locks) with
  | ok a tx => simp
  | error cause tx => simp

theorem books_opened : (ns.opened operation locks).books = ns.books := by
  have htree : (ns.opened operation locks).tree = ns.table.tree := by
    funext id
    simp [Transaction.tree, Transaction.find?, opened]
  have hpending :
      (ns.opened operation locks).pendingAt = ns.ledger.pendingAt := by
    funext id
    simp [Transaction.pendingAt, opened, Ledger.remove]
  simp only [Transaction.books, htree, hpending]
  rfl

theorem tree_opened : (ns.opened operation locks).tree = ns.table.tree :=
  congrArg Books.nodes books_opened

theorem ready_opened (sound : ns.books.Sound) :
    (ns.opened operation locks).Ready :=
  ⟨books_opened ▸ sound, ⟨rfl, rfl⟩⟩

/-- What a request leaves, whether it succeeds or fails: settings stay, no lock
is held, and the books are related to those before. -/
structure Advance (rel : Books → Books → Prop) (before after : Namespace) :
    Prop where
  config : after.config = before.config
  loaded : after.imageLoaded = before.imageLoaded
  ledger : after.ledger.Sound
  locks : after.locks = ∅
  books : rel before.books after.books

/-- A request that makes any number of changes. -/
abbrev Drifts (before after : Namespace) : Prop :=
  Advance (Relation.ReflTransGen (Change before.keepsQuota)) before after

/-- A request that makes any number of changes, or changes the data of one file,
or perhaps brings up to date what quotas have cached. -/
abbrev Steps (mends : Bool) (before after : Namespace) : Prop :=
  Advance (Effect before.keepsQuota mends) before after

theorem Drifts.steps (drifts : ns.Drifts ns') (mends : Bool) :
    Steps mends ns ns' :=
  { drifts with books := .changes drifts.books }

theorem Steps.sound {mends : Bool} (steps : Steps mends ns ns')
    (sound : ns.Sound) : ns'.Sound :=
  ⟨steps.books.sound sound.books, steps.ledger, steps.locks⟩

theorem Drifts.sound (drifts : ns.Drifts ns') (sound : ns.Sound) : ns'.Sound :=
  (drifts.steps false).sound sound

theorem Drifts.refl (sound : ns.Sound) : ns.Drifts ns :=
  ⟨rfl, rfl, sound.ledger, sound.locks, .refl⟩

theorem Drifts.trans {first second third : Namespace}
    (early : first.Drifts second) (late : second.Drifts third) :
    first.Drifts third where
  config := late.config.trans early.config
  loaded := late.loaded.trans early.loaded
  ledger := late.ledger
  locks := late.locks
  books := by
    have hkeeps : second.keepsQuota = first.keepsQuota := by
      rw [keepsQuota, keepsQuota, early.config, early.loaded]
    exact early.books.trans (hkeeps ▸ late.books)

section Ends

variable {tx : Transaction} {rel : Books → Books → Prop}

theorem ledger_of_extends (ext : (ns.opened operation locks).Extends tx) :
    tx.base.ledger = ns.ledger := by
  obtain ⟨next, _, hbase⟩ := ext.base
  rw [hbase]
  rfl

theorem releaseAll_of_extends (sound : ns.Sound)
    (ext : (ns.opened operation locks).Extends tx) :
    tx.base.locks.releaseAll tx.locks = ∅ := by
  obtain ⟨next, _, hbase⟩ := ext.base
  rw [ext.locks, hbase]
  change (ns.opened operation locks).base.locks.releaseAll locks = ∅
  exact releaseAll_opened sound.locks

/-- Edits are appended to the log and to nothing else. -/
theorem journal_eq (ns : Namespace) (edits : List Edit) : ns.journal edits =
    { ns with edits := ns.edits ++ if ns.imageLoaded then edits else [] } := by
  unfold journal
  split
  next => rfl
  next => simp

theorem table_commit (tx : Transaction) : tx.commit.table = tx.tableAfter := by
  rw [Transaction.commit, journal_eq]
  rfl

theorem ledger_commit (tx : Transaction) :
    tx.commit.ledger = tx.ledgerAfter := by
  rw [Transaction.commit, journal_eq]
  rfl

theorem books_commit (sound : ns.Sound)
    (ext : (ns.opened operation locks).Extends tx) :
    tx.commit.books = tx.books := by
  have hledger : tx.base.ledger.Sound := ledger_of_extends ext ▸ sound.ledger
  have hnodes : tx.tableAfter.tree = tx.tree :=
    funext (Transaction.find?_tableAfter (ext.keyed keyed_opened))
  have hpending : tx.ledgerAfter.pendingAt = tx.pendingAt :=
    funext (Transaction.sound_ledgerAfter hledger).2
  simp only [books, Transaction.commit, Transaction.unlock, journal_eq, hnodes,
    hpending, Transaction.next_tableAfter]
  rfl

theorem advance_commit (sound : ns.Sound)
    (ext : (ns.opened operation locks).Extends tx) (h : rel ns.books tx.books) :
    ns.Advance rel tx.commit := by
  have hlocks := releaseAll_of_extends sound ext
  have hledger : tx.base.ledger.Sound := ledger_of_extends ext ▸ sound.ledger
  have hbooks := books_commit sound ext
  obtain ⟨next, _, hbase⟩ := ext.base
  refine ⟨?_, ?_, ?_, ?_, hbooks ▸ h⟩
  · simp only [Transaction.commit, Transaction.unlock, journal_eq, hbase]
    rfl
  · simp only [Transaction.commit, Transaction.unlock, journal_eq, hbase]
    rfl
  · simp only [Transaction.commit, Transaction.unlock, journal_eq]
    exact (Transaction.sound_ledgerAfter hledger).1
  · simp only [Transaction.commit, Transaction.unlock, journal_eq]
    exact hlocks

/-- Work that fails only uses up identities. -/
theorem drifts_rollback (sound : ns.Sound)
    (ext : (ns.opened operation locks).Extends tx) : ns.Drifts tx.rollback := by
  have hlocks := releaseAll_of_extends sound ext
  obtain ⟨next, hle, hbase⟩ := ext.base
  refine ⟨?_, ?_, ?_, hlocks, ?_⟩
  · simp only [Transaction.rollback, Transaction.unlock, hbase]
    rfl
  · simp only [Transaction.rollback, Transaction.unlock, hbase]
    rfl
  · simp only [Transaction.rollback, Transaction.unlock, hbase]
    exact sound.ledger
  · have hbooks : tx.rollback.books = { ns.books with next } := by
      simp only [Transaction.rollback, Transaction.unlock, hbase]
      rfl
    rw [hbooks]
    refine .single (.skip hle fun hbounded => ?_)
    have hnext := ext.bounded hbounded
    rwa [hbase] at hnext

/-- A unit of work leaves what it would leave when it succeeds, and else only
uses up identities. -/
theorem state_transact (sound : ns.Sound) (frames : work.Frames) :
    (∃ locks value tx, (ns.opened operation locks).Extends tx ∧
        demand.plan ns.table.view = .ok locks ∧
      work (ns.opened operation locks) = .ok value tx ∧
        Outcome.state (transact operation demand work ns) = tx.commit) ∨
      ns.Drifts (Outcome.state (transact operation demand work ns)) := by
  cases h : demand.plan ns.table.view with
  | error error =>
    rw [transact_of_unplanned sound.locks h]
    exact .inr (.refl sound)
  | ok locks =>
    have ext := frames (ns.opened operation locks)
    rw [transact_of_plan sound.locks h (keyed_of_ok frames)]
    cases hwork : work (ns.opened operation locks) with
    | ok value tx =>
      rw [hwork] at ext
      exact .inl ⟨locks, value, tx, ext, rfl, hwork, rfl⟩
    | error error tx =>
      rw [hwork] at ext
      exact .inr (drifts_rollback sound ext)

/-- A unit of work that turns the books drifts. -/
theorem drifts_transact (sound : ns.Sound) (frames : work.Frames)
    (turns : ∀ {tx tx' value}, tx.Ready → work tx = .ok value tx' →
      tx.Turns tx') :
    ns.Drifts (Outcome.state (transact operation demand work ns)) := by
  rcases state_transact sound frames with ⟨locks, value, tx, ext, _, hwork,
    hstate⟩ | hdrifts
  · rw [hstate]
    have hturns := turns (ready_opened sound.books) hwork
    exact advance_commit sound ext (books_opened ▸ hturns.changes)
  · exact hdrifts

/-- A unit of work that changes a file, or turns the books, is one step. -/
theorem steps_transact {mends : Bool} (sound : ns.Sound) (frames : work.Frames)
    (effect : ∀ {tx tx' value}, tx.Ready → work tx = .ok value tx' →
      Effect tx.keepsQuota mends tx.books tx'.books) :
    Steps mends ns (Outcome.state (transact operation demand work ns)) := by
  rcases state_transact sound frames with ⟨locks, value, tx, ext, _, hwork,
    hstate⟩ | hdrifts
  · rw [hstate]
    have heffect := effect (ready_opened sound.books) hwork
    exact advance_commit sound ext (books_opened ▸ heffect)
  · exact hdrifts.steps mends

end Ends

end Namespace

end QuotaTree
