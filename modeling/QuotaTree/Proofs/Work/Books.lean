/-
The books as a transaction would leave them, and how its single steps change
them.
-/
import QuotaTree.Proofs.Usage.Effect
import QuotaTree.Proofs.Work.Linking

namespace QuotaTree

open Nodes

namespace Transaction

variable {tx : Transaction} {id : InodeId} {ids : List InodeId}

def pendingAt (tx : Transaction) (id : InodeId) : Counts :=
  (if tx.clearing = true ∨ id ∈ tx.withdrawn then 0
    else (tx.base.ledger.remove tx.merged).pendingAt id) +
    Counts.sum ((tx.updates.filter (·.1 = id)).map Prod.snd)

def books (tx : Transaction) : Books where
  nodes := tx.tree
  pending := tx.pendingAt
  next := tx.base.table.next

/-- Nothing has been merged, and the ledger is not to be emptied. -/
structure Plain (tx : Transaction) : Prop where
  merged : tx.merged = []
  clearing : tx.clearing = false

/-- The ledger afterwards is in order, and holds what the books say. -/
theorem sound_ledgerAfter (sound : tx.base.ledger.Sound) :
    tx.ledgerAfter.Sound ∧
    ∀ id, tx.ledgerAfter.pendingAt id = tx.pendingAt id := by
  obtain ⟨hremoved, _, _⟩ := sound.remove tx.merged
  unfold ledgerAfter pendingAt
  by_cases hclearing : tx.clearing = true
  · obtain ⟨hsound, hpending⟩ :=
      (Ledger.sound_clear (tx.base.ledger.remove tx.merged)).submitAll
        tx.updates
    simp only [hclearing, if_true, true_or]
    refine ⟨hsound, fun id => (hpending id).trans ?_⟩
    rw [Ledger.pendingAt_clear]
  · obtain ⟨hwithdrawn, hleft⟩ := hremoved.withdrawAll tx.withdrawn
    obtain ⟨hsound, hpending⟩ := hwithdrawn.submitAll tx.updates
    rw [Bool.not_eq_true] at hclearing
    simp only [hclearing, Bool.false_eq_true, if_false, false_or]
    exact ⟨hsound, fun id => (hpending id).trans (by rw [hleft])⟩

theorem sum_updates_of_mem (updates : List (InodeId × Counts))
    (ids : List InodeId) :
    ∑ x ∈ ids.toFinset, Counts.sum ((updates.filter (·.1 = x)).map Prod.snd) =
      Counts.sum ((updates.filter (·.1 ∈ ids)).map Prod.snd) := by
  induction updates with
  | nil => simp
  | cons update rest ih =>
    have hsplit (x : InodeId) :
        Counts.sum (((update :: rest).filter (·.1 = x)).map Prod.snd) =
          Counts.sum ((rest.filter (·.1 = x)).map Prod.snd) +
            if x = update.1 then update.2 else 0 := by
      by_cases h : update.1 = x
      · simp [h, Counts.add_comm]
      · simp [h, eq_comm (a := x)]
    rw [Finset.sum_congr rfl fun x _ => hsplit x, Change.sum_add_ite, ih]
    by_cases h : update.1 ∈ ids <;> simp [h, Counts.add_comm]

/-- Withdrawing takes out all updates of an inode, or none. -/
theorem filter_withdrawn (updates : List (InodeId × Counts))
    (ids : List InodeId) (id : InodeId) :
    (updates.filter (·.1 ∉ ids)).filter (·.1 = id) =
      if id ∈ ids then [] else updates.filter (·.1 = id) := by
  rw [List.filter_filter]
  split
  next h =>
    rw [List.filter_eq_nil_iff]
    rintro update _ hboth
    simp only [Bool.and_eq_true, decide_eq_true_eq] at hboth
    exact hboth.2 (hboth.1 ▸ h)
  next h =>
    refine List.filter_congr fun update _ => ?_
    by_cases heq : update.1 = id <;> simp [heq, h]

/-- What the accounting asks for is what is pending at the inodes. -/
theorem pendingFor_eq (plain : tx.Plain) (nodup : ids.Nodup) :
    tx.pendingFor ids = ∑ x ∈ ids.toFinset, tx.pendingAt x := by
  have hledger :
      tx.base.ledger.outstanding (ids.filter (· ∉ tx.withdrawn)) =
        ∑ x ∈ ids.toFinset, if x ∈ tx.withdrawn then
        0 else tx.base.ledger.pendingAt x := by
    rw [Ledger.outstanding_of_nodup _ (nodup.filter _), List.toFinset_filter,
      Finset.sum_filter]
    refine Finset.sum_congr rfl fun x _ => ?_
    by_cases h : x ∈ tx.withdrawn <;> simp [h]
  rw [pendingFor, hledger, ← sum_updates_of_mem, ← Finset.sum_add_distrib]
  refine Finset.sum_congr rfl fun x _ => ?_
  simp [pendingAt, plain.merged, plain.clearing, Ledger.remove]

section Steps

variable {inode : Inode} {delta : Counts} {edit : Edit} {next : InodeId}

@[simp] theorem books_stored :
    (tx.stored inode).books =
      { tx.books with nodes := tx.tree.set inode.id (some inode) } := by
  simp only [books, tree_stored]
  rfl

@[simp] theorem books_journaled : (tx.journaled edit).books = tx.books :=
  rfl

@[simp] theorem books_accounted :
    (tx.accounted id delta).books = { tx.books with
      pending := Books.charge tx.pendingAt tx.keepsQuota id delta } := by
  have hpending : (tx.accounted id delta).pendingAt =
      Books.charge tx.pendingAt tx.keepsQuota id delta := by
    funext x
    by_cases hkeeps : tx.keepsQuota = true
    · by_cases hzero : delta = 0
      · have hzero' : delta.isZero = true := (Counts.isZero_iff _).2 hzero
        simp [pendingAt, accounted, Books.charge, hzero']
        simp [hzero]
      · have hzero' : delta.isZero = false := by
          rw [← Bool.not_eq_true, Counts.isZero_iff]
          exact hzero
        by_cases h : x = id
        · simp [pendingAt, accounted, Books.charge, hkeeps, hzero', h,
            Counts.add_assoc]
        · simp [pendingAt, accounted, Books.charge, hkeeps, hzero', h,
            eq_comm (a := id)]
    · simp [pendingAt, accounted, Books.charge, hkeeps]
  simp only [books, hpending, tree_accounted]
  rfl

theorem books_withdrawing : (tx.withdrawing ids).books = { tx.books with
      pending := fun x => if x ∈ ids then 0 else tx.pendingAt x } := by
  have hpending : (tx.withdrawing ids).pendingAt =
      fun x => if x ∈ ids then 0 else tx.pendingAt x := by
    funext x
    rw [pendingAt, withdrawing_updates, filter_withdrawn, pendingAt]
    by_cases h : x ∈ ids <;> simp [withdrawing, h]
  simp only [books, hpending, tree_withdrawing]
  rfl

theorem books_removedAll : (tx.removedAll ids).books = { tx.books with
      nodes := fun x => if x ∈ ids then none else tx.tree x } := by
  have htree :
      (tx.removedAll ids).tree = fun x => if x ∈ ids then none else tx.tree x :=
    funext tree_removedAll
  simp only [books, htree]
  rfl

end Steps

end Transaction

end QuotaTree
