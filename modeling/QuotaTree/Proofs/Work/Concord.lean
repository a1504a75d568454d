/-
Two states of a transaction that cannot be told apart.  The changes of usage
that have been entered are only ever added up for each inode, so it does not
matter how such a sum is split up into entries.  No call tells the two states
apart, so neither does anything that the transaction goes on to do, nor its
commit.
-/
import QuotaTree.Proofs.Foresight

namespace QuotaTree

namespace Transaction

inductive Act where
  | basic (step : Step)
  | consume (id : InodeId)
  | clearLedger
  | journal (edit : Edit)

/-- The call as work.  The updates that are taken from the ledger are dropped:
the calls after it may be any. -/
def Act.run : Act → Work Unit
  | .basic step => step.run
  | .consume id => do let _ ← Work.consume id
  | .clearLedger => Work.clearLedger
  | .journal edit => Work.journal edit

def acting (tx : Transaction) (acts : List Act) : Transaction :=
  acts.foldl (fun tx act => Outcome.state (act.run tx)) tx

def entered (updates : List (InodeId × Counts)) (id : InodeId) : Counts :=
  Counts.sum ((updates.filter (·.1 = id)).map Prod.snd)

/-- The same transaction, in which other changes of usage have been entered. -/
abbrev entering (tx : Transaction) (updates : List (InodeId × Counts)) :
    Transaction :=
  { tx with updates }

/-- Two states that differ at most in how what was entered for an inode is split
up. -/
inductive Concords (tx : Transaction) : Transaction → Prop
  | entering (updates : List (InodeId × Counts))
      (same : ∀ id, entered updates id = entered tx.updates id) :
    Concords tx (tx.entering updates)

/-- Nothing that a transaction answers, and nothing that it leaves when it ends,
tells two states of it apart.  Of the ledger only the sums are asked for, as its
updates have other numbers. -/
structure Indistinct (tx other : Transaction) : Prop where
  base : other.base = tx.base
  inodes : ∀ id, other.view.find id = tx.view.find id
  pending : ∀ ids, other.pendingFor ids = tx.pendingFor ids
  outcomes :
    ∀ act : Act, Outcome.answer (act.run other) = Outcome.answer (act.run tx)
  commit : other.commit = { tx.commit with ledger := other.commit.ledger }
  ledger :
    ∀ ids, other.commit.ledger.outstanding ids =
        tx.commit.ledger.outstanding ids
  rollback : other.rollback = tx.rollback

variable {tx other : Transaction}

theorem Act.frames (act : Act) : act.run.Frames := by
  cases act with
  | basic step => exact step.frames
  | consume id => exact .bind (.consume id) fun _ => .pure _
  | clearLedger => exact .clearLedger
  | journal edit => exact .journal edit

theorem extends_acting (tx : Transaction) (acts : List Act) :
    tx.Extends (tx.acting acts) := by
  induction acts generalizing tx with
  | nil => exact .refl tx
  | cons act rest ih => exact (act.frames tx).trans (ih _)

section Sums

variable {updates more : List (InodeId × Counts)}

theorem entered_append (id : InodeId) :
    entered (updates ++ more) id = entered updates id + entered more id := by
  simp [entered]

theorem entered_singleton (id other : InodeId) (delta : Counts) :
    entered [(id, delta)] other = if id = other then delta else 0 := by
  by_cases h : id = other <;> simp [entered, h]

theorem entered_filter (ids : List InodeId) (id : InodeId) :
    entered (updates.filter (·.1 ∉ ids)) id = if id ∈ ids then
      0 else entered updates id := by
  rw [entered, filter_withdrawn]
  split
  · rfl
  · rfl

/-- What has been entered for several inodes is the sum of what has been for
each. -/
theorem sum_entered (ids : List InodeId) :
    Counts.sum ((updates.filter (·.1 ∈ ids)).map Prod.snd) =
      ∑ x ∈ ids.toFinset, entered updates x :=
  (sum_updates_of_mem updates ids).symm

end Sums

namespace Concords

theorem refl (tx : Transaction) : tx.Concords tx :=
  .entering tx.updates fun _ => rfl

/-- The books agree, and so do the ledgers that the two states would leave. -/
theorem pendingAt (concords : tx.Concords other) (id : InodeId) :
    other.pendingAt id = tx.pendingAt id := by
  cases concords with
  | entering updates same =>
    have hsame := same id
    unfold entered at hsame
    simp only [Transaction.pendingAt, hsame]

theorem pendingFor (concords : tx.Concords other) (ids : List InodeId) :
    other.pendingFor ids = tx.pendingFor ids := by
  cases concords with
  | entering updates same =>
    simp only [Transaction.pendingFor, sum_entered]
    rw [Finset.sum_congr rfl fun x _ => same x]

theorem outstanding (concords : tx.Concords other)
    (sound : tx.base.ledger.Sound) (ids : List InodeId) :
    other.commit.ledger.outstanding ids = tx.commit.ledger.outstanding ids := by
  have hbase : other.base = tx.base := by
    cases concords
    rfl
  have hledger (x : InodeId) :
      other.ledgerAfter.pendingAt x = tx.ledgerAfter.pendingAt x := by
    rw [(sound_ledgerAfter (hbase ▸ sound)).2, (sound_ledgerAfter sound).2]
    exact concords.pendingAt x
  rw [Namespace.ledger_commit, Namespace.ledger_commit,
    Ledger.outstanding_eq_sum, Ledger.outstanding_eq_sum, funext hledger]

end Concords

end Transaction

namespace Work

open Transaction

variable {α β : Type}

/-- Work that answers the same on both of two such states, and leaves two such
states again. -/
def Even (work : Work α) : Prop :=
  ∀ tx other : Transaction, tx.Concords other →
    Outcome.answer (work other) = Outcome.answer (work tx) ∧
      (Outcome.state (work tx)).Concords (Outcome.state (work other))

namespace Even

theorem pure (a : α) : Even (Pure.pure a : Work α) :=
  fun _ _ concords => ⟨rfl, concords⟩

theorem throw (error : Error) : Even (MonadExcept.throw error : Work α) :=
  fun _ _ concords => ⟨rfl, concords⟩

theorem bind {work : Work α} {next : α → Work β} (first : Even work)
    (rest : ∀ a, Even (next a)) : Even (work >>= next) := by
  intro tx other concords
  obtain ⟨hanswer, hstate⟩ := first tx other concords
  change Outcome.answer (EStateM.bind work next other) =
      Outcome.answer (EStateM.bind work next tx) ∧
    (Outcome.state (EStateM.bind work next tx)).Concords
      (Outcome.state (EStateM.bind work next other))
  unfold EStateM.bind
  cases htx : work tx with
  | ok a mid =>
    rw [htx] at hanswer hstate
    cases hother : work other with
    | ok b mid' =>
      rw [hother] at hanswer hstate
      cases hanswer
      exact rest a mid mid' hstate
    | error error mid' =>
      rw [hother] at hanswer
      cases hanswer
  | error error mid =>
    rw [htx] at hanswer hstate
    cases hother : work other with
    | ok b mid' =>
      rw [hother] at hanswer
      cases hanswer
    | error error' mid' =>
      rw [hother] at hanswer hstate
      cases hanswer
      exact ⟨rfl, hstate⟩

theorem ensureLocked (id : InodeId) (mode : LockMode) :
    Even (Work.ensureLocked id mode) := by
  rintro tx _ ⟨updates, same⟩
  have hsame :
      (tx.entering updates).ensureLocked id mode = tx.ensureLocked id mode :=
    rfl
  unfold Work.ensureLocked
  rw [hsame]
  cases tx.ensureLocked id mode with
  | ok => exact ⟨rfl, .entering updates same⟩
  | error => exact ⟨rfl, .entering updates same⟩

theorem alloc : Even Work.alloc := by
  rintro tx _ ⟨updates, same⟩
  have hsame : (tx.entering updates).base.table.alloc = tx.base.table.alloc :=
    rfl
  unfold Work.alloc
  rw [hsame]
  cases tx.base.table.alloc with
  | ok => exact ⟨rfl, .entering updates same⟩
  | error => exact ⟨rfl, .entering updates same⟩

theorem put (inode : Inode) : Even (Work.put inode) := by
  apply bind (ensureLocked inode.id .write)
  rintro - tx _ ⟨updates, same⟩
  exact ⟨rfl, .entering updates same⟩

theorem remove (id : InodeId) : Even (Work.remove id) := by
  unfold Work.remove
  split
  · exact throw _
  · apply bind (ensureLocked id .write)
    rintro - tx _ ⟨updates, same⟩
    exact ⟨rfl, .entering updates same⟩

theorem submit (id : InodeId) (delta : Counts) :
    Even (Work.submit id delta) := by
  rintro tx _ ⟨updates, same⟩
  have hsums (x : InodeId) :
      entered (updates ++ [(id, delta)]) x =
        entered (tx.updates ++ [(id, delta)]) x := by
    rw [entered_append, entered_append, same x]
  have hafter :
      (tx.submitted id delta).Concords
        ((tx.entering updates).submitted id delta) := .entering _ hsums
  exact ⟨rfl, hafter⟩

theorem withdraw (ids : List InodeId) : Even (Work.withdraw ids) := by
  rintro tx _ ⟨updates, same⟩
  have hsums (x : InodeId) : entered (updates.filter (·.1 ∉ ids)) x =
      entered (tx.updates.filter (·.1 ∉ ids)) x := by
    rw [entered_filter, entered_filter, same x]
  have hafter :
      (tx.withdrawing ids).Concords ((tx.entering updates).withdrawing ids) :=
    .entering _ hsums
  exact ⟨rfl, hafter⟩

theorem consume (id : InodeId) : Even (Work.consume id) := by
  apply bind (ensureLocked id .read)
  rintro - tx _ ⟨updates, same⟩
  exact ⟨rfl, .entering updates same⟩

theorem clearLedger : Even Work.clearLedger := by
  rintro tx _ ⟨updates, same⟩
  exact ⟨rfl, .entering updates same⟩

theorem journal (edit : Edit) : Even (Work.journal edit) := by
  rintro tx _ ⟨updates, same⟩
  exact ⟨rfl, .entering updates same⟩

end Even

end Work

namespace Transaction

variable {tx other : Transaction}

theorem Step.even (step : Step) : step.run.Even := by
  cases step with
  | alloc => exact .bind .alloc fun _ => .pure _
  | put inode => exact .put inode
  | remove id => exact .remove id
  | submit id delta => exact .submit id delta
  | withdraw ids => exact .withdraw ids

theorem Act.even (act : Act) : act.run.Even := by
  cases act with
  | basic step => exact step.even
  | consume id => exact .bind (.consume id) fun _ => .pure _
  | clearLedger => exact .clearLedger
  | journal edit => exact .journal edit

theorem Concords.acting (concords : tx.Concords other) (acts : List Act) :
    (tx.acting acts).Concords (other.acting acts) := by
  induction acts generalizing tx other with
  | nil => exact concords
  | cons act rest ih => exact ih (act.even tx other concords).2

theorem Concords.indistinct (concords : tx.Concords other)
    (sound : tx.base.ledger.Sound) : tx.Indistinct other := by
  have hpending := concords.pendingFor
  have hledger := concords.outstanding sound
  have houtcomes (act : Act) := (act.even tx other concords).1
  cases concords with
  | entering updates same =>
    constructor
    case base => rfl
    case inodes => exact fun _ => rfl
    case pending => exact hpending
    case outcomes => exact houtcomes
    case commit => simp only [commit, unlock, Namespace.journal_eq]; rfl
    case ledger => exact hledger
    case rollback => rfl

end Transaction

end QuotaTree
