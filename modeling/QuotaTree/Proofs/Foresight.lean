/-
What a transaction shows before it ends is what the namespace holds afterwards.
Its reads lay the writes made here over the stored table, and its sums of what
is pending count entries, withdrawals and entries made after them; the commit
carries all of it out in another order and comes to the same.
-/
import QuotaTree.Proofs.Work.Transact

namespace QuotaTree

namespace Transaction

/-- One call on a transaction that changes it. -/
inductive Step where
  | alloc
  | put (inode : Inode)
  | remove (id : InodeId)
  | submit (id : InodeId) (delta : Counts)
  | withdraw (ids : List InodeId)

/-- The call as work.  The identity that an allocation gives out is dropped: the
calls after it may name any. -/
def Step.run : Step → Work Unit
  | .alloc => do let _ ← Work.alloc
  | .put inode => Work.put inode
  | .remove id => Work.remove id
  | .submit id delta => Work.submit id delta
  | .withdraw ids => Work.withdraw ids

/-- A transaction after calls on it, each of which may have failed. -/
def performing (tx : Transaction) (steps : List Step) : Transaction :=
  steps.foldl (fun tx step => Outcome.state (step.run tx)) tx

/-- What a call does when it succeeds. -/
inductive Step.Does (tx : Transaction) : Step → Transaction → Prop
  | alloc {next : InodeId} (free : tx.base.table.next.next? = some next) :
      Does tx .alloc (tx.allocated next)
  | put {inode : Inode} (allows : tx.Allows inode.id .write) :
    Does tx (.put inode) (tx.stored inode)
  | remove {id : InodeId} (below : id ≠ .root) (allows : tx.Allows id .write) :
      Does tx (.remove id) (tx.removed id)
  | submit {id : InodeId} {delta : Counts} :
    Does tx (.submit id delta) (tx.submitted id delta)
  | withdraw {ids : List InodeId} : Does tx (.withdraw ids) (tx.withdrawing ids)

/-- A transaction shows what its commit leaves, and its rollback leaves what was
there before it but for the identities used up. -/
structure Foretells (ns : Namespace) (tx : Transaction) : Prop where
  inodes :
    ∀ id, tx.Allows id .read → tx.view.find id = .ok (tx.commit.table.find? id)
  pending : ∀ ids : List InodeId, ids.Nodup →
    Work.pendingFor ids tx = .ok (tx.commit.ledger.outstanding ids) tx
  table : ∃ next : InodeId, ns.table.next.val ≤ next.val ∧
    tx.rollback.table = { ns.table with next }
  ledger : tx.rollback.ledger = ns.ledger
  edits : tx.rollback.edits = ns.edits

variable {ns : Namespace} {tx tx' : Transaction} {id : InodeId}
  {mode : LockMode} {step : Step}

/-- An access that is not allowed fails at once. -/
theorem ensureLocked_of_not_allows (not : ¬ tx.Allows id mode) :
    Work.ensureLocked id mode tx =
      .error (.fault (.unlocked tx.operation id mode)) tx := by
  have hfails :
      tx.ensureLocked id mode =
        .error (.fault (.unlocked tx.operation id mode)) := if_neg not
  rw [Work.ensureLocked, hfails]

/-- A call does what it is for, or leaves the transaction as it is. -/
theorem Step.does_or_eq (step : Step) (tx : Transaction) :
    step.Does tx (Outcome.state (step.run tx)) ∨
    Outcome.state (step.run tx) = tx := by
  cases step with
  | alloc =>
    cases hnext : tx.base.table.next.next? with
    | none =>
      have hfails : Work.alloc tx = .error (.fault .idsExhausted) tx := by
        simp [Work.alloc, InodeTable.alloc, hnext]
      rw [run, Outcome.bind_of_error hfails]
      exact .inr rfl
    | some next =>
      have hruns : Work.alloc tx = .ok tx.base.table.next (tx.allocated next) :=
        Work.alloc_eq_ok.2 ⟨next, hnext, rfl, rfl⟩
      rw [run, Outcome.bind_of_ok hruns]
      exact .inl (.alloc hnext)
  | put inode =>
    by_cases hallows : tx.Allows inode.id .write
    · have hruns : Work.put inode tx = .ok () (tx.stored inode) :=
        Work.put_eq_ok.2 ⟨hallows, rfl⟩
      rw [run, hruns]
      exact .inl (.put hallows)
    · rw [run, Work.put,
        Outcome.bind_of_error (ensureLocked_of_not_allows hallows)]
      exact .inr rfl
  | remove id =>
    by_cases hroot : id = .root
    · rw [run, Work.remove, if_pos hroot]
      exact .inr rfl
    · by_cases hallows : tx.Allows id .write
      · have hruns : Work.remove id tx = .ok () (tx.removed id) :=
          Work.remove_eq_ok.2 ⟨hroot, hallows, rfl⟩
        rw [run, hruns]
        exact .inl (.remove hroot hallows)
      · have hfails :
            Work.remove id tx =
              .error (.fault (.unlocked tx.operation id .write)) tx := by
          rw [Work.remove, if_neg hroot]
          exact Outcome.bind_of_error (ensureLocked_of_not_allows hallows)
        rw [run, hfails]
        exact .inr rfl
  | submit id delta => exact .inl .submit
  | withdraw ids => exact .inl .withdraw

theorem Step.frames (step : Step) : step.run.Frames := by
  cases step with
  | alloc => exact .bind .alloc fun _ => .pure _
  | put inode => exact .put inode
  | remove id => exact .remove id
  | submit id delta => exact .submit id delta
  | withdraw ids => exact .withdraw ids

/-- No call merges updates or empties the ledger. -/
theorem Step.plain (step : Step) (plain : tx.Plain) :
    (Outcome.state (step.run tx)).Plain := by
  rcases step.does_or_eq tx with hdoes | hsame
  · generalize Outcome.state (step.run tx) = after at hdoes
    cases hdoes <;> exact ⟨plain.merged, plain.clearing⟩
  · rw [hsame]
    exact plain

/-- Calls lead to a later state of the transaction, in which nothing has been
merged. -/
theorem extends_performing (plain : tx.Plain) (steps : List Step) :
    tx.Extends (tx.performing steps) ∧ (tx.performing steps).Plain := by
  induction steps generalizing tx with
  | nil => exact ⟨.refl tx, plain⟩
  | cons step rest ih =>
    obtain ⟨hext, hplain⟩ := ih (step.plain plain)
    exact ⟨(step.frames tx).trans hext, hplain⟩

/-- The writes over the stored table are the table of the commit. -/
theorem view_find_eq_commit (keyed : tx.Keyed) (allows : tx.Allows id .read) :
    tx.view.find id = .ok (tx.commit.table.find? id) := by
  rw [Namespace.table_commit, find?_tableAfter keyed]
  exact view_find_eq_ok.2 ⟨allows, rfl⟩

/-- What is counted as pending for inodes is what the ledger of the commit holds
for them. -/
theorem pendingFor_eq_commit {ids : List InodeId} (sound : tx.base.ledger.Sound)
    (plain : tx.Plain) (nodup : ids.Nodup) :
    tx.pendingFor ids = tx.commit.ledger.outstanding ids := by
  rw [Namespace.ledger_commit, Ledger.outstanding_of_nodup _ nodup,
    pendingFor_eq plain nodup]
  exact Finset.sum_congr rfl fun x _ => ((sound_ledgerAfter sound).2 x).symm

/-- A transaction foretells what the namespace will hold, after any calls on
it. -/
theorem foretells_performing (sound : ns.ledger.Sound) (operation : Operation)
    (locks : LockSet) (steps : List Step) :
    Foretells ns (performing { base := ns, operation, locks } steps) := by
  have plain : Plain { base := ns, operation, locks } := ⟨rfl, rfl⟩
  obtain ⟨hext, hplain⟩ := extends_performing plain steps
  generalize performing { base := ns, operation, locks } steps =
    tx at hext hplain
  have hkeyed : tx.Keyed := hext.keyed (keyed_of_unwritten rfl)
  obtain ⟨next, hle, hbase⟩ := hext.base
  have hsound : tx.base.ledger.Sound := hbase ▸ sound
  refine ⟨fun id allows => ?_, fun ids nodup => ?_, ⟨next, hle, ?_⟩, ?_, ?_⟩
  · exact view_find_eq_commit hkeyed allows
  · exact Work.pendingFor_eq_ok.2
      ⟨(pendingFor_eq_commit hsound hplain nodup).symm, rfl⟩
  all_goals
    rw [rollback, hbase]
    rfl

section Turnover

/-- A namespace with updates pending at the root and at another inode. -/
def indebted : Namespace :=
  { Namespace.fresh {} with
    ledger := Ledger.empty.submitAll [(.root, { inodes := 1 }),
      (⟨2⟩, { inodes := 5 })] }

/-- An update is entered, withdrawn with those before it, and followed by
another; an inode is made and taken out again, and the root, which nothing may
take out, is written. -/
def turnover : List Step :=
  [.submit .root { inodes := 2 }, .withdraw [.root, .root],
    .submit .root { inodes := 4 }, .alloc,
    .put { InodeTable.newRoot {} with id := .firstAllocated },
    .remove .firstAllocated, .remove .root,
    .put { InodeTable.newRoot {} with permission := { mode := 0 } }]

/-- The turnover on a transaction that has locked the root. -/
def turnedOver : Transaction :=
  performing
    { base := indebted, operation := .mkdirs,
      locks := (∅ : LockSet).insert .root .write } turnover

theorem foretells_turnedOver : indebted.ledger.Sound ∧ Foretells indebted
    turnedOver := by
  have hsound : indebted.ledger.Sound := (Ledger.sound_empty.submitAll _).1
  exact ⟨hsound, foretells_performing hsound _ _ turnover⟩

example : turnedOver.pendingFor [.root,
      ⟨2⟩] = { inodes := 9 } := by decide +kernel
example : turnedOver.commit.ledger.outstanding [.root, ⟨2⟩] =
    { inodes := 9 } := by decide +kernel

end Turnover

end Transaction

end QuotaTree
