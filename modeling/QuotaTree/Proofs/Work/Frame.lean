/-
What a unit of work leaves alone, whether it succeeds or fails: the namespace as
it is stored, except for the identities that are used up, and its locks.
-/
import QuotaTree.Proofs.Outcome
import QuotaTree.Request.Replay
import QuotaTree.Request.Summary

namespace QuotaTree

namespace InodeId

variable {first middle last id : InodeId}

def between (first last : InodeId) : List InodeId :=
  (List.range' first.val (last.val - first.val)).map InodeId.mk

theorem mem_between (le : first.val ≤ last.val) :
    id ∈ between first last ↔ first.val ≤ id.val ∧ id.val < last.val := by
  have hval (n : Nat) : InodeId.mk n = id ↔ n = id.val := by
    cases id
    simp
  simp only [between, List.mem_map, List.mem_range'_1, hval, exists_eq_right]
  omega

theorem nodup_between (first last : InodeId) : (between first last).Nodup := by
  refine List.pairwise_map.2 ((List.nodup_range' ..).imp ?_)
  exact fun hne h => hne (congrArg InodeId.val h)

@[simp] theorem between_self (id : InodeId) : between id id = [] := by
  simp [between]

theorem between_append (early : first.val ≤ middle.val)
    (late : middle.val ≤ last.val) :
    between first middle ++ between middle last = between first last := by
  have hstart : middle.val = first.val + (middle.val - first.val) := by omega
  have hlength :
      last.val - first.val =
        (middle.val - first.val) + (last.val - middle.val) := by
    omega
  rw [between, between, ← List.map_append, between, hlength]
  congr 1
  conv_lhs => rw [hstart]
  simp only [Nat.add_sub_cancel_left]
  rw [← List.range'_append_1]
  congr 2
  omega

theorem between_next (h : first.next? = some last) :
    between first last = [first] := by
  have hlast := next?_eq_some h
  have hone : last.val - first.val = 1 := by omega
  rw [between, hone]
  rfl

end InodeId

def Outcome.state {σ α : Type} : EStateM.Result Error σ α → σ
  | .ok _ state => state
  | .error _ state => state

namespace Transaction

/-- Every inode is written under its own identity, and the root is not taken
out. -/
structure Keyed (tx : Transaction) : Prop where
  own : ∀ {id : InodeId} {inode : Inode}, tx.writes[id]? = some (some inode) →
    inode.id = id
  root : tx.writes[InodeId.root]? ≠ some none

theorem keyed_of_unwritten {tx : Transaction} (unwritten : tx.writes = ∅) :
    tx.Keyed := by
  have hnone (id : InodeId) : tx.writes[id]? = none := by
    rw [unwritten]
    exact Std.ExtTreeMap.getElem?_empty
  constructor
  · intro id inode h
    rw [hnone] at h
    cases h
  · rw [hnone]
    exact nofun

/-- A later state of the same transaction. -/
structure Extends (before after : Transaction) : Prop where
  operation : after.operation = before.operation
  locks : after.locks = before.locks
  base : ∃ next : InodeId, before.base.table.next.val ≤ next.val ∧
    after.base = { before.base with table := { before.base.table with next } }
  bounded : before.base.table.next.val ≤ InodeId.maxVal →
    after.base.table.next.val ≤ InodeId.maxVal
  keyed : before.Keyed → after.Keyed
  created : after.created = (InodeId.between before.base.table.next
        after.base.table.next).reverse ++ before.created

theorem Extends.next_le {before after : Transaction}
    (ext : before.Extends after) :
    before.base.table.next.val ≤ after.base.table.next.val := by
  obtain ⟨next, hle, hbase⟩ := ext.base
  rw [hbase]
  exact hle

theorem Extends.refl (tx : Transaction) : tx.Extends tx where
  operation := rfl
  locks := rfl
  base := ⟨_, Nat.le_refl _, rfl⟩
  bounded := id
  keyed := id
  created := by rw [InodeId.between_self, List.reverse_nil, List.nil_append]

theorem Extends.trans {first second third : Transaction}
    (early : first.Extends second) (late : second.Extends third) :
    first.Extends third where
  operation := late.operation.trans early.operation
  locks := late.locks.trans early.locks
  base := by
    obtain ⟨next, hle, hbase⟩ := early.base
    obtain ⟨next', hle', hbase'⟩ := late.base
    rw [hbase] at hle' hbase'
    exact ⟨next', Nat.le_trans hle hle', hbase'⟩
  bounded := late.bounded ∘ early.bounded
  keyed := late.keyed ∘ early.keyed
  created := by
    rw [late.created, early.created, ← List.append_assoc, ← List.reverse_append,
      InodeId.between_append early.next_le late.next_le]

/-- Work that enters updates and edits leaves all this alone. -/
theorem Extends.of_same {before after : Transaction}
    (operation : after.operation = before.operation)
    (locks : after.locks = before.locks) (base : after.base = before.base)
    (writes : after.writes = before.writes)
    (created : after.created = before.created) : before.Extends after where
  operation := operation
  locks := locks
  base := ⟨_, Nat.le_refl _, base⟩
  bounded := by
    rw [base]
    exact id
  keyed := by
    intro keyed
    constructor
    · rw [writes]
      exact keyed.own
    · rw [writes]
      exact keyed.root
  created := by
    rw [base, created, InodeId.between_self, List.reverse_nil, List.nil_append]

theorem Extends.insert {tx : Transaction} {id : InodeId} {found : Option Inode}
    (keyed : ∀ inode, found = some inode → inode.id = id)
    (root : found = none → id ≠ .root) :
    tx.Extends { tx with writes := tx.writes.insert id found } where
  operation := rfl
  locks := rfl
  base := ⟨_, Nat.le_refl _, rfl⟩
  bounded bounded := bounded
  keyed hkeyed := by
    have hwrites (x : InodeId) :
        (tx.writes.insert id found)[x]? = if x = id then
          some found else tx.writes[x]? := by
      by_cases h : x = id
      · rw [h, Std.ExtTreeMap.getElem?_insert_self, if_pos rfl]
      · have hne : compare id x ≠ .eq :=
          fun heq => h (Std.LawfulEqCmp.eq_of_compare heq).symm
        rw [Std.ExtTreeMap.getElem?_insert, if_neg hne, if_neg h]
    constructor
    · intro x inode (hx : (tx.writes.insert id found)[x]? = _)
      rw [hwrites] at hx
      split at hx
      next heq => exact heq ▸ keyed inode (Option.some_inj.1 hx)
      next => exact hkeyed.own hx
    · intro (hroot : (tx.writes.insert id found)[InodeId.root]? = _)
      rw [hwrites] at hroot
      split at hroot
      next heq => exact root (Option.some_inj.1 hroot) heq.symm
      next => exact hkeyed.root hroot
  created := by
    dsimp only
    rw [InodeId.between_self, List.reverse_nil, List.nil_append]

end Transaction

namespace Work

variable {α β : Type}

/-- Work leads from a transaction to a later state of it. -/
def Frames (work : Work α) : Prop :=
  ∀ tx : Transaction, tx.Extends (Outcome.state (work tx))

namespace Frames

theorem extends_of_ok {work : Work α} (frames : Frames work)
    {tx tx' : Transaction} {a : α} (h : work tx = .ok a tx') :
    tx.Extends tx' := by
  have ext := frames tx
  rw [h] at ext
  exact ext

theorem pure (a : α) : Frames (Pure.pure a : Work α) :=
  fun tx => .refl tx

theorem throw (error : Error) : Frames (MonadExcept.throw error : Work α) :=
  fun tx => .refl tx

theorem bind {work : Work α} {next : α → Work β} (first : Frames work)
    (rest : ∀ a, Frames (next a)) : Frames (work >>= next) := by
  intro tx
  have hfirst := first tx
  change tx.Extends (Outcome.state (EStateM.bind work next tx))
  unfold EStateM.bind
  cases h : work tx with
  | ok a mid =>
    rw [h] at hfirst
    exact hfirst.trans (rest a mid)
  | error error mid =>
    rw [h] at hfirst
    exact hfirst

theorem map {work : Work α} {f : α → β} (frames : Frames work) :
    Frames (f <$> work) := by
  intro tx
  have hframes := frames tx
  change tx.Extends (Outcome.state (EStateM.map f work tx))
  unfold EStateM.map
  cases h : work tx <;> rw [h] at hframes <;> exact hframes

theorem ite {p : Prop} [Decidable p] {left right : Work α} (hleft : Frames left)
    (hright : Frames right) : Frames (if p then left else right) := by
  split
  · exact hleft
  · exact hright

theorem tryCatch {work : Work α} {handler : Error → Work α}
    (first : Frames work) (rest : ∀ error, Frames (handler error)) :
    Frames (MonadExcept.tryCatch work handler) := by
  intro tx
  have hfirst := first tx
  change tx.Extends (Outcome.state (EStateM.tryCatch work handler tx))
  unfold EStateM.tryCatch
  cases h : work tx with
  | ok a mid =>
    rw [h] at hfirst
    exact hfirst
  | error error mid =>
    rw [h] at hfirst
    exact hfirst.trans (rest error mid)

theorem mapM {list : List α} {work : α → Work β}
    (frames : ∀ a, Frames (work a)) : Frames (list.mapM work) := by
  induction list with
  | nil => exact pure []
  | cons head tail ih =>
    rw [List.mapM_cons]
    refine bind (frames head) fun _ => ?_
    exact bind ih fun _ => pure _

theorem get : Frames (MonadState.get : Work Transaction) :=
  fun tx => .refl tx

theorem ofExcept (x : Except Error α) :
    Frames (MonadExcept.ofExcept x : Work α) := by
  cases x with
  | ok value => exact pure value
  | error error => exact throw error

theorem read (reading : View → Except Error α) :
    Frames (Work.read reading) := by
  intro tx
  unfold Work.read
  cases reading tx.view <;> exact .refl tx

theorem alloc : Frames Work.alloc := by
  intro tx
  unfold Work.alloc InodeTable.alloc
  cases h : tx.base.table.next.next? with
  | none => exact .refl tx
  | some next =>
    have hle := InodeId.next?_eq_some h
    refine ⟨rfl, rfl, ⟨next, by omega, rfl⟩, fun _ => InodeId.next?_le h,
      fun keyed => ⟨keyed.own, keyed.root⟩, ?_⟩
    change tx.base.table.next :: tx.created =
      (InodeId.between tx.base.table.next next).reverse ++ _
    rw [InodeId.between_next h]
    rfl

theorem ensureLocked (id : InodeId) (mode : LockMode) :
    Frames (Work.ensureLocked id mode) := by
  intro tx
  unfold Work.ensureLocked
  cases tx.ensureLocked id mode <;> exact .refl tx

theorem put (inode : Inode) : Frames (Work.put inode) :=
  bind (ensureLocked _ _)
    fun _ tx => .insert (fun _ h => by rw [Option.some_inj.1 h]) nofun

theorem remove (id : InodeId) : Frames (Work.remove id) := by
  unfold Work.remove
  by_cases hroot : id = .root
  · rw [if_pos hroot, Outcome.throw_bind]
    exact throw _
  · rw [if_neg hroot]
    refine bind (ensureLocked _ _) fun _ tx => ?_
    refine .insert (fun _ h => by cases h) ?_
    exact fun _ => hroot

theorem submit (id : InodeId) (delta : Counts) :
    Frames (Work.submit id delta) :=
  fun _ => .of_same rfl rfl rfl rfl rfl

theorem pendingFor (ids : List InodeId) : Frames (Work.pendingFor ids) :=
  bind get fun _ => pure _

theorem withdraw (ids : List InodeId) : Frames (Work.withdraw ids) :=
  fun _ => .of_same rfl rfl rfl rfl rfl

theorem consume (id : InodeId) : Frames (Work.consume id) :=
  bind (ensureLocked _ _) fun _ _ => .of_same rfl rfl rfl rfl rfl

theorem clearLedger : Frames Work.clearLedger :=
  fun _ => .of_same rfl rfl rfl rfl rfl

theorem journal (edit : Edit) : Frames (Work.journal edit) :=
  fun _ => .of_same rfl rfl rfl rfl rfl

theorem account (chain : Chain) (length : Nat) (delta : Counts)
    (checked : Bool) : Frames (Work.account chain length delta checked) := by
  unfold Work.account
  refine bind get fun tx => ite ?_ (pure _)
  exact ite (bind (read _) fun _ => submit _ _) (submit _ _)

theorem verifyEntry (parent : Chain) (name : Name) :
    Frames (Work.verifyEntry parent name) :=
  bind get fun _ => ite (read _) (pure _)

theorem link (parent : Chain) (inode : Inode) (counts : Counts)
    (checked : Bool) : Frames (Work.link parent inode counts checked) := by
  unfold Work.link
  extract_lets extended rest
  have hrest : ∀ done, Frames (rest done) := by
    intro done
    refine bind (read _) fun holder => ?_
    extract_lets store enter
    have hstore : ∀ done, Frames (store done) := by
      intro done
      refine bind (account _ _ _ _) fun _ => ?_
      split
      · exact throw _
      · extract_lets fill
        have hfill : ∀ done, Frames (fill done) :=
          fun _ => bind (put _) fun _ => bind (put _) fun _ => pure _
        exact ite (bind (account _ _ _ _) fun _ => bind (throw _) hfill)
          (hfill ())
    have henter : ∀ done, Frames (enter done) :=
      fun _ => ite (bind (verifyEntry _ _) hstore) (hstore ())
    exact ite (henter ()) (bind (throw _) henter)
  exact ite (bind (throw _) hrest) (hrest ())

theorem dropEntry (directory : InodeId) (name : Name) :
    Frames (Work.dropEntry directory name) :=
  bind (read _) fun _ => put _

theorem removeAll (ids : List InodeId) : Frames (Work.removeAll ids) := by
  induction ids with
  | nil => exact pure ()
  | cons id rest ih => exact bind (remove id) fun _ => ih

theorem unlink (chain : Chain) (moving : Bool) (given : Option Counts) :
    Frames (Work.unlink chain moving given) := by
  unfold Work.unlink
  split
  · exact throw _
  · refine bind (read _) fun ids => ?_
    extract_lets rest
    have hrest : ∀ used, Frames (rest used) := by
      intro used
      refine bind (pendingFor ids) fun pending => ?_
      refine bind (account _ _ _ _) fun _ => ?_
      refine ite (pure _)
        (bind (dropEntry _ _) fun _ => bind (removeAll _) fun _ => ?_)
      exact bind (withdraw _) fun _ => pure _
    split
    · exact bind (pure _) hrest
    · exact bind (read _) hrest

theorem unlinkLeaf (chain : Chain) : Frames (Work.unlinkLeaf chain) := by
  unfold Work.unlinkLeaf
  split
  · exact throw _
  · refine bind (read _) fun inode => ?_
    extract_lets rest
    have hrest : ∀ done, Frames (rest done) := by
      intro done
      refine bind (pendingFor _) fun pending => ?_
      refine bind (account _ _ _ _) fun _ => ?_
      refine bind (dropEntry _ _) fun _ => ?_
      refine bind (remove _) fun _ => ?_
      exact bind (withdraw _) fun _ => pure _
    exact ite (bind (throw _) hrest) (hrest ())

theorem makeDirectories (permission : Permission) (chain : Chain)
    (names : List Name) :
    Frames (Work.makeDirectories permission chain names) := by
  induction names generalizing chain with
  | nil => exact pure chain
  | cons name rest ih =>
    refine bind alloc fun _ => ?_
    exact bind (link _ _ _ _) fun _ => ih _

theorem makeFile (parent : Chain) (name : Name) (permission : Permission)
    (replication blockSize : Nat) (writer : Writer) :
    Frames
      (Work.makeFile parent name permission replication blockSize writer) :=
  bind (read _) fun _ => bind alloc fun _ => link _ _ _ _

theorem replaceFile (chain : Chain) (path : String) (overwrite : Bool) :
    Frames (Work.replaceFile chain path overwrite) := by
  unfold Work.replaceFile
  refine bind (read _) fun existing => ?_
  split
  · exact throw _
  · split
    · exact throw _
    · exact ite (bind (unlink _ _ _) fun _ => pure _) (throw _)

theorem prune (depth : Nat) (chain : Chain) :
    Frames (Work.prune depth chain) := by
  induction depth generalizing chain with
  | zero => exact throw _
  | succ depth ih =>
    unfold Work.prune
    refine bind (read _) fun inode => ?_
    refine bind (mapM fun entry => ?_) fun _ => pure _
    refine bind (ih _) fun _ => ?_
    exact bind (unlinkLeaf _) fun _ => pure _

theorem maxDepth : Frames Work.maxDepth :=
  bind get fun _ => pure _

theorem deleteTree (chain : Chain) (path : String) (recursive : Bool) :
    Frames (Work.deleteTree chain path recursive) := by
  unfold Work.deleteTree
  extract_lets rest
  have hrest : ∀ done, Frames (rest done) := by
    intro done
    refine bind (read _) fun inode => ?_
    extract_lets clear
    have hclear : ∀ done, Frames (clear done) := by
      intro done
      refine bind maxDepth fun depth => ?_
      refine bind (prune _ _) fun below => ?_
      refine bind (unlink _ _ _) fun _ => ?_
      exact bind (journal _) fun _ => pure _
    exact ite (bind (throw _) hclear) (hclear ())
  exact ite (bind (throw _) hrest) (hrest ())

theorem detach (directory : InodeId) (name : Name) :
    Frames (Work.detach directory name) := by
  unfold Work.detach
  refine bind (read _) fun holder => ?_
  exact ite (put _) (bind (throw _) fun _ => put _)

theorem move (source sourceParent parent : Chain) (name : Name) :
    Frames (Work.move source sourceParent parent name) := by
  unfold Work.move
  extract_lets id shared
  refine bind (read _) fun used => ?_
  refine bind (read _) fun ids => ?_
  refine bind (pendingFor _) fun pending => ?_
  refine bind get fun tx => ?_
  extract_lets counts rest
  have hrest : ∀ done, Frames (rest done) := by
    intro done
    refine bind (read _) fun inode => ?_
    refine bind (detach _ _) fun _ => ?_
    refine bind (verifyEntry _ _) fun _ => ?_
    refine bind (unlink _ _ _) fun _ => ?_
    refine tryCatch (bind (link _ _ _ _) fun _ => pure _) fun error => ?_
    exact bind (link _ _ _ _) fun _ => throw _
  exact ite (bind (read _) hrest) (hrest ())

theorem absorbUpward (delta : Counts) (steps : Nat) (id : InodeId) :
    Frames (Work.absorbUpward delta steps id) := by
  induction steps generalizing id with
  | zero => exact throw _
  | succ steps ih =>
    unfold Work.absorbUpward
    refine bind (read _) fun inode => ?_
    extract_lets rest
    have hrest : ∀ done, Frames (rest done) := by
      intro done
      unfold rest
      split
      · exact ih _
      · exact pure _
    split
    · exact bind (put _) hrest
    · exact hrest ()

theorem mergeAll (ids : List InodeId) : Frames (Work.mergeAll ids) := by
  have hmerge : ∀ id, Frames (Work.mergeAt id) := by
    intro id
    refine bind (consume id) fun updates => ?_
    refine ite (pure _) (bind get fun tx => ?_)
    exact bind (absorbUpward _ _ _) fun _ => pure _
  induction ids with
  | nil => exact pure 0
  | cons id rest ih =>
    refine bind (hmerge id) fun _ => ?_
    exact bind ih fun _ => pure _

theorem recount (depth : Nat) (id : InodeId) :
    Frames (Work.recount depth id) := by
  induction depth generalizing id with
  | zero => exact throw _
  | succ depth ih =>
    unfold Work.recount
    refine bind (read _) fun inode => ?_
    refine bind (pendingFor _) fun pending => ?_
    refine bind (mapM ih) fun parts => ?_
    extract_lets whole
    split
    · exact pure _
    · exact bind (put _) fun _ => pure _

theorem leased (chain : Chain) (client : String) :
    Frames (Work.leased chain client) :=
  bind (read _) fun _ => bind (ofExcept _) fun _ => pure _

theorem leasedFile (chain : Chain) (client : String) :
    Frames (Work.leasedFile chain client) := by
  refine bind (leased _ _) fun inode => ?_
  cases inode.asFile with
  | none => exact throw _
  | some file => exact pure _

theorem beginBlock (chain : Chain) (block : Block) :
    Frames (Work.beginBlock chain block) := by
  unfold Work.beginBlock
  refine bind (read _) fun inode => ?_
  split
  · exact throw _
  · extract_lets growth rest
    have hrest : ∀ done, Frames (rest done) :=
      fun _ => bind (account _ _ _ _) fun _ => bind (put _) fun _ => pure _
    exact ite (hrest ()) (bind (throw _) hrest)

theorem dropBlockIfLast (chain : Chain) (block : Nat) :
    Frames (Work.dropBlockIfLast chain block) := by
  have hdrop : Frames (Work.dropBlock chain block) := by
    unfold Work.dropBlock
    refine bind (read _) fun inode => ?_
    split
    · exact throw _
    · split
      · exact throw _
      · extract_lets rest
        have hrest : ∀ done, Frames (rest done) :=
          fun _ => bind (put _) fun _ => account _ _ _ _
        exact ite (bind (throw _) hrest) (hrest ())
  refine bind (read _) fun inode => ?_
  exact ite (bind hdrop fun _ => pure _) (pure _)

end Frames

end Work

end QuotaTree
