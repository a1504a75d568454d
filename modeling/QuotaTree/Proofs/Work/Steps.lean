/-
The single steps of a unit of work.  Each has a plain function on transactions
beside it, which is what the step does when it succeeds, and a lemma that says
when it does.
-/
import QuotaTree.Proofs.Outcome
import QuotaTree.Proofs.Tree.Enumerate
import QuotaTree.Transaction.Linking
import Mathlib.Tactic.Simps.Basic

namespace QuotaTree

namespace Transaction

variable {tx : Transaction} {id other : InodeId} {mode : LockMode}
  {inode : Inode} {ids : List InodeId} {delta : Counts} {edit : Edit}
  {next : InodeId}

abbrev tree (tx : Transaction) : Nodes := tx.find?

def Allows (tx : Transaction) (id : InodeId) (mode : LockMode) : Prop :=
  tx.locks.holds id mode = true ∨ id ∈ tx.created

/-- What may be written may be read. -/
theorem Allows.read (allows : tx.Allows id .write) : tx.Allows id .read := by
  refine allows.imp_left fun h => ?_
  unfold LockSet.holds at h ⊢
  cases hmode : tx.locks[id]? with
  | none => simp [hmode] at h
  | some mode => cases mode <;> rfl

theorem ensureLocked_eq_ok :
    tx.ensureLocked id mode = .ok () ↔ tx.Allows id mode := by
  unfold ensureLocked Allows
  split <;> simp_all [pure, Except.pure]

@[simps] def stored (tx : Transaction) (inode : Inode) : Transaction :=
  { tx with writes := tx.writes.insert inode.id (some inode) }

@[simps] def removed (tx : Transaction) (id : InodeId) : Transaction :=
  { tx with writes := tx.writes.insert id none }

@[simps] def removedAll (tx : Transaction) (ids : List InodeId) : Transaction :=
  { tx with writes :=
    ids.foldl (fun writes id => writes.insert id none) tx.writes }

@[simps] def submitted (tx : Transaction) (id : InodeId) (delta : Counts) :
    Transaction :=
  { tx with updates := tx.updates ++ [(id, delta)] }

@[simps] def withdrawing (tx : Transaction) (ids : List InodeId) :
    Transaction :=
  { tx with
    withdrawn := tx.withdrawn ++ ids
    updates := tx.updates.filter (·.1 ∉ ids) }

@[simps] def journaled (tx : Transaction) (edit : Edit) : Transaction :=
  { tx with edits := tx.edits ++ [edit] }

@[simps] def allocated (tx : Transaction) (next : InodeId) : Transaction :=
  { tx with
    base := { tx.base with table := { tx.base.table with next } }
    created := tx.base.table.next :: tx.created }

/-- A change of usage is entered when quotas are kept and there is one. -/
@[simps] def accounted (tx : Transaction) (id : InodeId) (delta : Counts) :
    Transaction :=
  { tx with
    updates :=
      if tx.keepsQuota ∧ delta.isZero = false then tx.updates ++ [(id, delta)]
      else tx.updates }

/-- Growing by an amount below the chain's inode of number `length` passes no
limit, where limits are to be checked. -/
def Affords (tx : Transaction) (chain : Chain) (length : Nat) (delta : Counts)
    (checked : Bool) : Prop :=
  tx.keepsQuota = true → delta.isZero = false → checked = true →
    Chain.verifyQuota tx.view chain length delta none = .ok ()

/-- A write is seen at its own identity. -/
theorem tree_insert (id : InodeId) (found : Option Inode) :
    Transaction.tree { tx with writes := tx.writes.insert id found } =
      tx.tree.set id found := by
  funext x
  rw [Nodes.set_apply]
  by_cases h : x = id
  · subst h
    simp [tree, find?]
  · have hne : compare id x ≠ .eq :=
      fun heq => h (Std.LawfulEqCmp.eq_of_compare heq).symm
    simp [tree, find?, Std.ExtTreeMap.getElem?_insert, h, hne]

@[simp] theorem tree_stored :
    (tx.stored inode).tree = tx.tree.set inode.id (some inode) :=
  tree_insert _ _

@[simp] theorem tree_removed : (tx.removed id).tree = tx.tree.set id none :=
  tree_insert _ _

theorem removedAll_cons :
    tx.removedAll (id :: ids) = (tx.removed id).removedAll ids :=
  rfl

theorem tree_removedAll (x : InodeId) :
    (tx.removedAll ids).tree x = if x ∈ ids then none else tx.tree x := by
  induction ids generalizing tx with
  | nil => rfl
  | cons id rest ih =>
    rw [removedAll_cons, ih, tree_removed, Nodes.set_apply]
    by_cases h : x = id <;> simp [h]

@[simp] theorem tree_withdrawing : (tx.withdrawing ids).tree = tx.tree := rfl
@[simp] theorem tree_journaled : (tx.journaled edit).tree = tx.tree := rfl
@[simp] theorem tree_accounted : (tx.accounted id delta).tree = tx.tree := rfl

@[simp] theorem allows_stored :
    (tx.stored inode).Allows other mode ↔ tx.Allows other mode :=
  Iff.rfl

@[simp] theorem allows_accounted :
    (tx.accounted id delta).Allows other mode ↔ tx.Allows other mode :=
  Iff.rfl

/-- A transaction reads what it would leave, where it may read. -/
theorem view_find_eq_ok {found : Option Inode} :
    tx.view.find id = .ok found ↔ tx.Allows id .read ∧ found = tx.tree id := by
  change (tx.ensureLocked id .read >>= fun _ => pure (tx.find? id)) = _ ↔ _
  simp only [Outcome.except_bind_eq_ok, Outcome.except_pure_eq_ok]
  constructor
  · rintro ⟨_, hallows, rfl⟩
    exact ⟨ensureLocked_eq_ok.1 hallows, rfl⟩
  · rintro ⟨hallows, rfl⟩
    exact ⟨(), ensureLocked_eq_ok.2 hallows, rfl⟩

theorem view_get_eq_ok : tx.view.get id = .ok inode ↔ tx.Allows id .read ∧
    tx.tree id = some inode := by
  unfold View.get
  simp only [Outcome.except_bind_eq_ok, view_find_eq_ok]
  constructor
  · rintro ⟨found, ⟨hallows, rfl⟩, hmatch⟩
    refine ⟨hallows, ?_⟩
    cases hfound : tx.tree id with
    | none => simp [hfound] at hmatch
    | some found =>
      rw [hfound, Outcome.except_pure_eq_ok] at hmatch
      rw [hmatch]
  · rintro ⟨hallows, hfound⟩
    exact ⟨some inode, ⟨hallows, hfound.symm⟩, rfl⟩

theorem view_opens (h : tx.Allows id .read) : tx.view.Opens tx.tree id :=
  view_find_eq_ok.2 ⟨h, rfl⟩

/-- An inode that would be left is stored already or is written. -/
theorem mem_keys_of_live (h : (tx.tree id).isSome) :
    id ∈ tx.base.table.nodes.keys ++ tx.writes.keys := by
  rw [List.mem_append]
  cases hwritten : tx.writes[id]? with
  | none =>
    rw [tree, find?, hwritten] at h
    exact .inl ((InodeTable.isSome_find?_iff_mem_keys id).1 h)
  | some written =>
    right
    rw [Std.ExtTreeMap.mem_keys, ← Std.ExtTreeMap.isSome_getElem?_iff_mem,
      hwritten]
    rfl

theorem view_reads (wf : tx.tree.WellFormed) : tx.view.Reads tx.tree where
  faithful h := (view_find_eq_ok.1 h).2
  deep live hdepth := by
    have := wf.depth_lt (fun x hx => mem_keys_of_live hx) live hdepth
    rw [List.length_append, Std.ExtTreeMap.length_keys,
      Std.ExtTreeMap.length_keys] at this
    exact this

end Transaction

namespace Work

variable {α : Type} {tx tx' : Transaction} {id : InodeId} {inode : Inode}
  {done : Unit} {reading : View → Except Error α} {answer : α}
  {ids : List InodeId} {delta : Counts}

@[simp] theorem read_eq_ok : read reading tx = .ok answer tx' ↔
    reading tx.view = .ok answer ∧ tx' = tx := by
  unfold read
  cases h : reading tx.view <;> simp [eq_comm]

theorem read_of_ok (h : reading tx.view = .ok answer) :
    read reading tx = .ok answer tx := by
  rw [read, h]

theorem read_of_error {error : Error} (h : reading tx.view = .error error) :
    read reading tx = .error error tx := by
  rw [read, h]

@[simp] theorem get_eq_ok :
    get id tx = .ok inode tx' ↔ (tx.Allows id .read ∧ tx.tree id = some inode) ∧
    tx' = tx := by
  rw [get, read_eq_ok, Transaction.view_get_eq_ok]

@[simp] theorem ensureLocked_eq_ok {mode : LockMode} :
    ensureLocked id mode tx = .ok done tx' ↔ tx.Allows id mode ∧ tx' = tx := by
  unfold ensureLocked
  rw [← Transaction.ensureLocked_eq_ok]
  cases h : tx.ensureLocked id mode <;> simp [eq_comm]

@[simp] theorem put_eq_ok : put inode tx = .ok done tx' ↔
    tx.Allows inode.id .write ∧ tx' = tx.stored inode := by
  unfold put
  simp only [Outcome.bind_eq_ok, ensureLocked_eq_ok, Outcome.modify_eq_ok]
  constructor
  · rintro ⟨_, _, ⟨hallows, rfl⟩, rfl⟩
    exact ⟨hallows, rfl⟩
  · rintro ⟨hallows, rfl⟩
    exact ⟨(), tx, ⟨hallows, rfl⟩, rfl⟩

@[simp] theorem remove_eq_ok : remove id tx = .ok done tx' ↔ id ≠ .root ∧
    tx.Allows id .write ∧ tx' = tx.removed id := by
  unfold remove
  by_cases h : id = .root
  · simp [h]
  · simp only [h, if_false, Outcome.bind_eq_ok, ensureLocked_eq_ok,
      Outcome.modify_eq_ok, ne_eq, not_false_eq_true, true_and]
    constructor
    · rintro ⟨_, _, ⟨hallows, rfl⟩, rfl⟩
      exact ⟨hallows, rfl⟩
    · rintro ⟨hallows, rfl⟩
      exact ⟨(), tx, ⟨hallows, rfl⟩, rfl⟩

@[simp] theorem removeAll_eq_ok :
    removeAll ids tx = .ok done tx' ↔
      (∀ id ∈ ids, id ≠ .root ∧ tx.Allows id .write) ∧
      tx' = tx.removedAll ids := by
  induction ids generalizing tx with
  | nil =>
    simp only [removeAll, Outcome.pure_eq_ok]
    simp [Transaction.removedAll, eq_comm]
  | cons id rest ih =>
    simp only [removeAll, Outcome.bind_eq_ok, remove_eq_ok, ih,
      List.forall_mem_cons, Transaction.removedAll_cons]
    constructor
    · rintro ⟨_, _, ⟨hne, hallows, rfl⟩, hrest, rfl⟩
      exact ⟨⟨⟨hne, hallows⟩, hrest⟩, rfl⟩
    · rintro ⟨⟨⟨hne, hallows⟩, hrest⟩, rfl⟩
      exact ⟨(), _, ⟨hne, hallows, rfl⟩, hrest, rfl⟩

@[simp] theorem submit_eq_ok :
    submit id delta tx = .ok done tx' ↔ tx' = tx.submitted id delta := by
  unfold submit
  rw [Outcome.modify_eq_ok]
  rfl

@[simp] theorem withdraw_eq_ok :
    withdraw ids tx = .ok done tx' ↔ tx' = tx.withdrawing ids := by
  unfold withdraw
  rw [Outcome.modify_eq_ok]
  rfl

@[simp] theorem journal_eq_ok {edit : Edit} :
    journal edit tx = .ok done tx' ↔ tx' = tx.journaled edit := by
  unfold journal
  rw [Outcome.modify_eq_ok]
  rfl

@[simp] theorem pendingFor_eq_ok {pending : Counts} :
    pendingFor ids tx = .ok pending tx' ↔ pending = tx.pendingFor ids ∧
    tx' = tx := by
  unfold pendingFor
  simp only [Outcome.bind_eq_ok, Outcome.pure_eq_ok]
  constructor
  · rintro ⟨found, mid, hget, rfl, rfl⟩
    obtain ⟨rfl, rfl⟩ := Outcome.get_eq_ok.1 hget
    exact ⟨rfl, rfl⟩
  · rintro ⟨rfl, rfl⟩
    exact ⟨_, _, Outcome.get_eq_ok.2 ⟨rfl, rfl⟩, rfl, rfl⟩

@[simp] theorem alloc_eq_ok :
    alloc tx = .ok id tx' ↔
      ∃ next, tx.base.table.next.next? = some next ∧ id = tx.base.table.next ∧
        tx' = tx.allocated next := by
  unfold alloc InodeTable.alloc
  cases h : tx.base.table.next.next? with
  | none => simp
  | some next =>
    simp only [EStateM.Result.ok.injEq, Option.some_inj, exists_eq_left']
    constructor
    · rintro ⟨rfl, rfl⟩
      exact ⟨rfl, rfl⟩
    · rintro ⟨rfl, rfl⟩
      exact ⟨rfl, rfl⟩

/-- A change is accounted for if it fits all quotas above. -/
theorem account_eq_ok {chain : Chain} {length : Nat} {checked : Bool}
    (hpos : 0 < length) :
    account chain length delta checked tx = .ok done tx' ↔
      tx.Affords chain length delta checked ∧
        tx' = tx.accounted (chain.upTo length).last delta := by
  unfold account submitAt
  simp only [Outcome.bind_eq_ok, Outcome.ite_eq_ok, Outcome.pure_eq_ok]
  constructor
  · rintro ⟨found, mid, hget, hbody⟩
    obtain ⟨rfl, rfl⟩ := Outcome.get_eq_ok.1 hget
    split at hbody
    next h =>
      obtain ⟨hkeeps, hzero, _⟩ := h
      have hafter : mid.accounted (chain.upTo length).last delta =
          mid.submitted (chain.upTo length).last delta := by
        simp [Transaction.accounted, Transaction.submitted, hkeeps, hzero]
      rw [hafter]
      split at hbody
      next hchecked =>
        simp only [read_eq_ok, submit_eq_ok] at hbody
        obtain ⟨_, _, ⟨hverify, rfl⟩, rfl⟩ := hbody
        exact ⟨fun _ _ _ => hverify, rfl⟩
      next hchecked =>
        rw [submit_eq_ok] at hbody
        exact ⟨fun _ _ h => absurd h hchecked, hbody⟩
    next h =>
      obtain ⟨_, rfl⟩ := hbody
      have hnot : ¬ (mid.keepsQuota = true ∧ delta.isZero = false) :=
        fun hboth => h ⟨hboth.1, hboth.2, hpos⟩
      refine ⟨fun hkeeps hzero => absurd ⟨hkeeps, hzero⟩ hnot, ?_⟩
      simp [Transaction.accounted, hnot]
  · rintro ⟨haffords, rfl⟩
    refine ⟨tx, tx, Outcome.get_eq_ok.2 ⟨rfl, rfl⟩, ?_⟩
    split
    next h =>
      obtain ⟨hkeeps, hzero, _⟩ := h
      have hafter : tx.accounted (chain.upTo length).last delta =
          tx.submitted (chain.upTo length).last delta := by
        simp [Transaction.accounted, Transaction.submitted, hkeeps, hzero]
      rw [hafter]
      split
      next hchecked =>
        simp only [read_eq_ok, submit_eq_ok]
        exact ⟨(), tx, ⟨haffords hkeeps hzero hchecked, rfl⟩, rfl⟩
      next => rw [submit_eq_ok]
    next h =>
      have hnot : ¬ (tx.keepsQuota = true ∧ delta.isZero = false) :=
        fun hboth => h ⟨hboth.1, hboth.2, hpos⟩
      simp [Transaction.accounted, hnot]

/-- Accounting leaves the tree alone. -/
theorem tree_account {length : Nat} {delta : Counts} {checked : Bool}
    (h : account chain length delta checked tx = .ok done tx') :
    tx'.tree = tx.tree := by
  by_cases hpos : 0 < length
  · obtain ⟨_, rfl⟩ := (account_eq_ok hpos).1 h
    exact Transaction.tree_accounted
  · simp only [account, Outcome.get_bind, hpos, and_false, if_false,
      Outcome.pure_eq_ok] at h
    rw [h.2]

end Work

end QuotaTree
