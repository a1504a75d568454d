/-
Doing the same work again on a matching tree.  The second transaction belongs to
a namespace whose edits are applied again, so it checks no limits: whatever the
first can do it can do too, and the trees still match afterwards.
-/
import QuotaTree.Proofs.Replay.Views
import QuotaTree.Proofs.Work.Steps
import QuotaTree.Request.Delete
import QuotaTree.Request.Rename

namespace QuotaTree

open Outcome (Mirrors)

/-- Transactions that would leave matching trees.  The second may do all that
the first may, and does not keep quotas; what both will make from now on is
paired. -/
structure Transaction.Matches (p : Pairing) (left right : Transaction) :
    Prop where
  nodes : left.tree.Matches p right.tree
  allows : ∀ {a b mode}, p a b → left.Allows a mode → right.Allows b mode
  fresh : ∀ steps,
    p ⟨left.base.table.next.val + steps⟩ ⟨right.base.table.next.val + steps⟩
  behind : right.base.table.next.val ≤ left.base.table.next.val
  size : left.base.table.size = right.base.table.size
  written : ∀ {a b}, p a b → (a ∈ left.writes ↔ b ∈ right.writes)
  writes : left.writes.size = right.writes.size
  config : right.base.config = left.base.config
  replaying : right.base.imageLoaded = false

namespace Transaction.Matches

variable {p : Pairing} {left right : Transaction}
  (matched : left.Matches p right)

include matched

theorem view : left.view.Matches p right.view where
  find {a b} ids := by
    intro found hfound
    obtain ⟨hallows, rfl⟩ := Transaction.view_find_eq_ok.1 hfound
    exact ⟨_, Transaction.view_find_eq_ok.2 ⟨matched.allows ids hallows, rfl⟩,
      matched.nodes.at_pair ids⟩
  size := by
    change left.base.table.size + left.writes.size =
      right.base.table.size + right.writes.size
    rw [matched.size, matched.writes]

theorem keepsQuota : right.keepsQuota = false := by
  rw [Transaction.keepsQuota, matched.replaying, Bool.and_false]

/-- What is kept beside the tree does not matter. -/
theorem of_same {left' right' : Transaction}
    (hleft : left' = { left with
      updates := left'.updates
      withdrawn := left'.withdrawn
      edits := left'.edits })
    (hright : right' = { right with
      updates := right'.updates
      withdrawn := right'.withdrawn
      edits := right'.edits }) : left'.Matches p right' := by
  rw [hleft, hright]
  exact ⟨matched.nodes, matched.allows, matched.fresh, matched.behind,
    matched.size, matched.written, matched.writes, matched.config,
    matched.replaying⟩

/-- A pair may be written on both sides alike. -/
theorem write {a b : InodeId} {found found' : Option Inode} (ids : p a b)
    (hfound : Option.Rel (Inode.Matches p) found found') :
    Transaction.Matches p { left with writes := left.writes.insert a found }
      { right with writes := right.writes.insert b found' } where
  nodes := by
    rw [Transaction.tree_insert, Transaction.tree_insert]
    exact matched.nodes.set ids hfound
  allows := matched.allows
  fresh := matched.fresh
  behind := matched.behind
  size := matched.size
  written {x y} hxy := by
    have heq : compare a x = .eq ↔ compare b y = .eq := by
      rw [Std.compare_eq_iff_eq, Std.compare_eq_iff_eq]
      exact Pairing.left_eq_iff ids hxy
    rw [Std.ExtTreeMap.mem_insert, Std.ExtTreeMap.mem_insert,
      matched.written hxy, heq]
  writes := by
    change (left.writes.insert a found).size =
      (right.writes.insert b found').size
    have hwritten : left.writes.contains a = right.writes.contains b := by
      rw [Bool.eq_iff_iff, Std.ExtTreeMap.contains_iff_mem,
        Std.ExtTreeMap.contains_iff_mem]
      exact matched.written ids
    rw [Std.ExtTreeMap.size_insert, Std.ExtTreeMap.size_insert, matched.writes,
      hwritten]
  config := matched.config
  replaying := matched.replaying

end Transaction.Matches

namespace Work

variable {α β γ δ : Type} {p : Pairing} {Q : α → β → Prop} {R : γ → δ → Prop}
  {edits more : List Edit}

/-- When the first work succeeds so does the second on a matching tree; the
answers are related and the first has written these edits. -/
def Repeats (p : Pairing) (Q : α → β → Prop) (edits : List Edit) (work : Work α)
    (again : Work β) : Prop :=
  ∀ left right, Transaction.Matches p left right →
    ∀ a left', work left = .ok a left' →
    ∃ b right', again right = .ok b right' ∧ Q a b ∧ left'.Matches p right' ∧
      left'.edits = left.edits ++ edits

namespace Repeats

theorem pure {a : α} {b : β} (h : Q a b) :
    Repeats p Q [] (Pure.pure a) (Pure.pure b) := by
  intro left right matched a' left' ha
  cases ha
  exact ⟨b, right, rfl, h, matched, (List.append_nil _).symm⟩

theorem throw (error : Error) (again : Work β) :
    Repeats p Q edits (MonadExcept.throw error : Work α) again := by
  intro left right matched a left' ha
  cases ha

theorem bind {work : Work α} {again : Work β} {next : α → Work γ}
    {next' : β → Work δ} (first : Repeats p Q edits work again)
    (rest : ∀ {a b}, Q a b → Repeats p R more (next a) (next' b)) :
    Repeats p R (edits ++ more) (work >>= next) (again >>= next') := by
  intro left right matched c left' hc
  obtain ⟨a, mid, ha, hnext⟩ := Outcome.bind_eq_ok.1 hc
  obtain ⟨b, mid', hb, hab, matched', hedits⟩ :=
    first left right matched a mid ha
  obtain ⟨d, right', hd, hcd, matched'', hmore⟩ :=
    rest hab mid mid' matched' c left' hnext
  exact ⟨d, right', Outcome.bind_eq_ok.2 ⟨b, mid', hb, hd⟩, hcd, matched'',
    by rw [hmore, hedits, List.append_assoc]⟩

theorem ite {c : Prop} [Decidable c] {work work' : Work α}
    {again again' : Work β} (first : c → Repeats p Q edits work again)
    (second : ¬ c → Repeats p Q edits work' again') :
    Repeats p Q edits (if c then work else work')
      (if c then again else again') := by
  split
  next h => exact first h
  next h => exact second h

theorem read {reading : View → Except Error α}
    {reading' : View → Except Error β}
    (mirrors : ∀ {left right}, View.Matches p left right →
      Mirrors Q (reading left) (reading' right)) :
    Repeats p Q [] (Work.read reading) (Work.read reading') := by
  intro left right matched a left' ha
  obtain ⟨hreading, rfl⟩ := read_eq_ok.1 ha
  obtain ⟨b, hb, hab⟩ := mirrors matched.view a hreading
  exact ⟨b, right, read_eq_ok.2 ⟨hb, rfl⟩, hab, matched,
    (List.append_nil _).symm⟩

theorem get {a b : InodeId} (ids : p a b) :
    Repeats p (Inode.Matches p) [] (Work.get a) (Work.get b) :=
  read fun views => views.get ids

theorem subtree {a b : InodeId} (ids : p a b) :
    Repeats p (List.Forall₂ p) [] (Work.subtree a) (Work.subtree b) :=
  read fun views => views.subtree ids

theorem usage {a b : InodeId} (ids : p a b) :
    Repeats p Eq [] (Work.usage a) (Work.usage b) :=
  read fun views => views.usage ids

theorem answer {x : Except Error α} {y : Except Error β}
    (mirrors : Mirrors Q x y) : Repeats p Q [] (ofExcept x) (ofExcept y) := by
  intro left right matched a left' ha
  obtain ⟨hx, rfl⟩ := Outcome.ofExcept_eq_ok.1 ha
  obtain ⟨b, hb, hab⟩ := mirrors a hx
  exact ⟨b, right, Outcome.ofExcept_eq_ok.2 ⟨hb, rfl⟩, hab, matched,
    (List.append_nil _).symm⟩

/-- Work that fails in the end does not have to be repeated. -/
theorem tryCatch {work : Work α} {again : Work β} {handler : Error → Work α}
    {handler' : Error → Work β} (first : Repeats p Q edits work again)
    (fails : ∀ error tx a tx', handler error tx ≠ .ok a tx') :
    Repeats p Q edits (MonadExcept.tryCatch work handler)
      (MonadExcept.tryCatch again handler') := by
  intro left right matched a left' ha
  rcases Outcome.tryCatch_eq_ok.1 ha with ha | ⟨error, mid, _, ha⟩
  · obtain ⟨b, right', hb, h⟩ := first left right matched a left' ha
    exact ⟨b, right', Outcome.tryCatch_eq_ok.2 (.inl hb), h⟩
  · exact absurd ha (fails error mid a left')

theorem mapM {ε ζ : Type} {P : ε → ζ → Prop} {xs : List ε} {ys : List ζ}
    {work : ε → Work α} {again : ζ → Work β} (lists : List.Forall₂ P xs ys)
    (each : ∀ {x y}, P x y → Repeats p Q [] (work x) (again y)) :
    Repeats p (List.Forall₂ Q) [] (xs.mapM work) (ys.mapM again) := by
  induction lists with
  | nil => exact pure .nil
  | cons head _ ih =>
    rw [List.mapM_cons, List.mapM_cons]
    refine (each head).bind fun hhead => ?_
    refine ih.bind fun hrest => ?_
    exact pure (.cons hhead hrest)

end Repeats

/-- Accounting enters updates and does nothing else. -/
theorem updates_of_account {chain : Chain} {length : Nat} {delta : Counts}
    {checked : Bool} {tx tx' : Transaction} {done : Unit}
    (h : account chain length delta checked tx = .ok done tx') :
    ∃ updates, tx' = { tx with updates } := by
  unfold account submitAt at h
  rw [Outcome.get_bind, Outcome.ite_eq_ok] at h
  split at h
  · rw [Outcome.when_eq_ok] at h
    obtain ⟨mid, hchecked, hsubmit⟩ := h
    have hmid : mid = tx := by
      split at hchecked
      · exact (read_eq_ok.1 hchecked).2
      · exact hchecked
    rw [submit_eq_ok, hmid] at hsubmit
    exact ⟨_, hsubmit⟩
  · obtain ⟨_, rfl⟩ := Outcome.pure_eq_ok.1 h
    exact ⟨_, rfl⟩

/-- Where quotas are not kept nothing is accounted for. -/
theorem account_of_not_keepsQuota {chain : Chain} {length : Nat}
    {delta : Counts} {checked : Bool} {tx : Transaction}
    (h : tx.keepsQuota = false) :
    account chain length delta checked tx = .ok () tx := by
  unfold account
  rw [Outcome.get_bind, Outcome.ite_eq_ok, if_neg (by simp [h])]
  rfl

namespace Repeats

theorem account (chain chain' : Chain) (length length' : Nat)
    (delta delta' : Counts) (checked checked' : Bool) :
    Repeats p (fun _ _ => True) [] (Work.account chain length delta checked)
      (Work.account chain' length' delta' checked') := by
  intro left right matched a left' ha
  obtain ⟨updates, rfl⟩ := updates_of_account ha
  exact ⟨(), right, account_of_not_keepsQuota matched.keepsQuota, trivial,
    matched.of_same rfl rfl, (List.append_nil _).symm⟩

theorem accountAbove (chain chain' : Chain) (delta delta' : Counts)
    (checked checked' : Bool) :
    Repeats p (fun _ _ => True) [] (Work.accountAbove chain delta checked)
      (Work.accountAbove chain' delta' checked') :=
  account _ _ _ _ _ _ _ _

theorem put {inode inode' : Inode} (inodes : inode.Matches p inode') :
    Repeats p (fun _ _ => True) [] (Work.put inode) (Work.put inode') := by
  intro left right matched a left' ha
  obtain ⟨hallows, rfl⟩ := put_eq_ok.1 ha
  exact ⟨(), _, put_eq_ok.2 ⟨matched.allows inodes.id hallows, rfl⟩, trivial,
    matched.write inodes.id (.some inodes), (List.append_nil _).symm⟩

theorem remove {a b : InodeId} (ids : p a b) :
    Repeats p (fun _ _ => True) [] (Work.remove a) (Work.remove b) := by
  intro left right matched a left' ha
  obtain ⟨hne, hallows, rfl⟩ := remove_eq_ok.1 ha
  have hne' := fun h => hne ((Pairing.eq_root_iff ids).2 h)
  exact ⟨(), _, remove_eq_ok.2 ⟨hne', matched.allows ids hallows, rfl⟩, trivial,
    matched.write ids .none, (List.append_nil _).symm⟩

theorem removeAll {xs ys : List InodeId} (lists : List.Forall₂ p xs ys) :
    Repeats p (fun _ _ => True) [] (Work.removeAll xs) (Work.removeAll ys) := by
  induction lists with
  | nil => exact pure trivial
  | cons head _ ih => exact (remove head).bind fun _ => ih

theorem alloc : Repeats p p [] Work.alloc Work.alloc := by
  intro left right matched a left' ha
  obtain ⟨next, hnext, rfl, rfl⟩ := alloc_eq_ok.1 ha
  have hval := InodeId.next?_eq_some hnext
  obtain ⟨next', hnext'⟩ :
      ∃ next', right.base.table.next.next? = some next' := by
    have hbound := matched.behind
    unfold InodeId.next? at hnext ⊢
    split at hnext
    · rw [if_pos (by omega)]
      exact ⟨_, rfl⟩
    · cases hnext
  have hval' := InodeId.next?_eq_some hnext'
  have hpair : p left.base.table.next right.base.table.next := matched.fresh 0
  refine ⟨_, _, alloc_eq_ok.2 ⟨next', hnext', rfl, rfl⟩, hpair, ?_,
    (List.append_nil _).symm⟩
  refine ⟨matched.nodes, fun {x y mode} hxy hallows => ?_, fun steps => ?_, ?_,
    matched.size, matched.written, matched.writes, matched.config,
    matched.replaying⟩
  · rcases hallows with hheld | hmade
    · exact (matched.allows hxy (.inl hheld)).imp_right (List.mem_cons_of_mem _)
    · rcases List.mem_cons.1 hmade with rfl | hmade
      · obtain rfl := (Pairing.left_eq_iff hpair hxy).1 rfl
        exact .inr List.mem_cons_self
      · exact (matched.allows hxy (.inr hmade)).imp_right
          (List.mem_cons_of_mem _)
  · have hsteps := matched.fresh (steps + 1)
    change p ⟨next.val + steps⟩ ⟨next'.val + steps⟩
    rwa [hval, hval', Nat.add_assoc, Nat.add_assoc, Nat.add_comm 1]
  · have hbehind := matched.behind
    change next'.val ≤ next.val
    omega

theorem withdraw (xs ys : List InodeId) :
    Repeats p (fun _ _ => True) [] (Work.withdraw xs) (Work.withdraw ys) := by
  intro left right matched a left' ha
  rw [withdraw_eq_ok] at ha
  subst ha
  exact ⟨(), _, withdraw_eq_ok.2 rfl, trivial, matched.of_same rfl rfl,
    (List.append_nil _).symm⟩

theorem pendingFor (xs ys : List InodeId) :
    Repeats p (fun _ _ => True) [] (Work.pendingFor xs)
      (Work.pendingFor ys) := by
  intro left right matched a left' ha
  obtain ⟨rfl, rfl⟩ := pendingFor_eq_ok.1 ha
  exact ⟨_, _, pendingFor_eq_ok.2 ⟨rfl, rfl⟩, trivial, matched,
    (List.append_nil _).symm⟩

theorem journal (edit edit' : Edit) :
    Repeats p (fun _ _ => True) [edit] (Work.journal edit)
      (Work.journal edit') := by
  intro left right matched a left' ha
  rw [journal_eq_ok] at ha
  subst ha
  exact ⟨(), _, journal_eq_ok.2 rfl, trivial, matched.of_same rfl rfl, rfl⟩

/-- Limits on names and directories are not enforced when an edit is applied
again. -/
theorem verifyEntry (parent parent' : Chain) (name name' : Name) :
    Repeats p (fun _ _ => True) [] (Work.verifyEntry parent name)
      (Work.verifyEntry parent' name') := by
  intro left right matched a left' ha
  have hright : Work.verifyEntry parent' name' right = .ok () right := by
    unfold Work.verifyEntry
    rw [Outcome.get_bind, Outcome.ite_eq_ok,
      if_neg (by simp [matched.replaying])]
    rfl
  have hleft : left' = left := by
    unfold Work.verifyEntry at ha
    rw [Outcome.get_bind, Outcome.ite_eq_ok] at ha
    split at ha
    · exact (read_eq_ok.1 ha).2
    · exact (Outcome.pure_eq_ok.1 ha).2.symm
  subst hleft
  exact ⟨(), right, hright, trivial, matched, (List.append_nil _).symm⟩

theorem maxDepth : Repeats p Eq [] Work.maxDepth Work.maxDepth := by
  intro left right matched a left' ha
  unfold Work.maxDepth at ha ⊢
  rw [Outcome.get_bind, Outcome.pure_eq_ok] at ha
  obtain ⟨rfl, rfl⟩ := ha
  refine ⟨_, right, ?_, rfl, matched, (List.append_nil _).symm⟩
  rw [Outcome.get_bind, matched.view.size]
  rfl

end Repeats

end Work

end QuotaTree
