/-
Work that is confined to one inode.  It stores nothing else, and it does the
same on any namespace that shows the same under its locks.
-/
import QuotaTree.Proofs.Work.Frame
import QuotaTree.Proofs.Work.Steps
import QuotaTree.Request.Attributes
import QuotaTree.Request.Write

namespace QuotaTree

namespace Transaction

def onto (tx : Transaction) (base : Namespace) : Transaction :=
  { tx with base }

/-- Another namespace shows the same as the one that is stored, as far as a
transaction reads. -/
structure Shares (tx : Transaction) (base : Namespace) : Prop where
  config : base.config = tx.base.config
  loaded : base.imageLoaded = tx.base.imageLoaded
  size : base.table.size = tx.base.table.size
  nodes :
    ∀ {id}, tx.Allows id .read → base.table.find? id = tx.base.table.find? id

/-- A later state of a transaction that has stored nothing but one inode, beside
what it has entered as pending and in the log. -/
structure Confines (id : InodeId) (tx tx' : Transaction) : Prop where
  rest : tx' =
    { tx with writes := tx'.writes, updates := tx'.updates, edits := tx'.edits }
  written : ∀ other, tx'.writes[other]? = tx.writes[other]? ∨
    other = id ∧ ∃ inode, inode.id = id ∧ tx'.writes[other]? = some (some inode)

variable {tx tx' : Transaction} {base : Namespace} {id : InodeId}
  {inode : Inode}

def Filed (tx : Transaction) : Prop :=
  ∀ {id inode}, tx.tree id = some inode → inode.id = id

theorem keepsQuota_onto (shares : tx.Shares base) :
    (tx.onto base).keepsQuota = tx.keepsQuota := by
  unfold keepsQuota
  rw [← shares.config, ← shares.loaded]
  rfl

/-- What is read is the same. -/
theorem view_onto (shares : tx.Shares base) :
    (tx.onto base).view = tx.view := by
  have hfind (id : InodeId) :
      (tx.onto base).view.find id = tx.view.find id := by
    change (tx.ensureLocked id .read >>= fun _ => pure
      ((tx.onto base).find? id)) =
      (tx.ensureLocked id .read >>= fun _ => pure (tx.find? id))
    cases h : tx.ensureLocked id .read with
    | error error => rfl
    | ok done =>
      have hstored := shares.nodes (ensureLocked_eq_ok.1 h)
      simp only [find?, onto, hstored]
  have hsize : (tx.onto base).view.size = tx.view.size :=
    congrArg (· + tx.writes.size) shares.size
  exact View.mk.injEq .. ▸ ⟨funext hfind, hsize⟩

namespace Confines

theorem refl (id : InodeId) (tx : Transaction) : Confines id tx tx :=
  ⟨rfl, fun _ => .inl rfl⟩

theorem trans {last : Transaction} (early : Confines id tx tx')
    (late : Confines id tx' last) : Confines id tx last where
  rest := by
    rw [late.rest, early.rest]
  written other := by
    rcases late.written other with hsame | hwritten
    · rw [hsame]
      exact early.written other
    · exact .inr hwritten

theorem base_eq (confines : Confines id tx tx') : tx'.base = tx.base := by
  rw [confines.rest]

theorem shares (confines : Confines id tx tx') (shares : tx.Shares base) :
    tx'.Shares base := by
  rw [confines.rest]
  exact ⟨shares.config, shares.loaded, shares.size, shares.nodes⟩

theorem filed
    (confines : Confines id tx tx') (filed : tx.Filed) : tx'.Filed := by
  intro x inode live
  rw [tree, find?, confines.base_eq] at live
  rcases confines.written x with hsame | ⟨rfl, written, hid, hwritten⟩
  · rw [hsame] at live
    exact filed live
  · rw [hwritten] at live
    cases live
    exact hid

theorem stored (inode : Inode) (tx : Transaction) : Confines inode.id tx
    (tx.stored inode) where
  rest := rfl
  written other := by
    by_cases h : other = inode.id
    · refine .inr ⟨h, inode, rfl, ?_⟩
      rw [h]
      exact Std.ExtTreeMap.getElem?_insert_self
    · have hne : compare inode.id other ≠ .eq :=
        fun heq => h (Std.LawfulEqCmp.eq_of_compare heq).symm
      exact .inl (Std.ExtTreeMap.getElem?_insert.trans (if_neg hne))

end Confines

end Transaction

namespace Work

open Transaction

variable {α β : Type} {id : InodeId}

def resultOnto (base : Namespace) :
    EStateM.Result Error Transaction α → EStateM.Result Error Transaction α
  | .ok a tx => .ok a (tx.onto base)
  | .error error tx => .error error (tx.onto base)

/-- Work that stores nothing but one inode, and that does the same on all
namespaces that show the same to it. -/
def Local (id : InodeId) (work : Work α) : Prop :=
  ∀ tx : Transaction, tx.Filed → tx.Confines id (Outcome.state (work tx)) ∧
    ∀ base, tx.Shares base → work (tx.onto base) = resultOnto base (work tx)

namespace Local

theorem pure (a : α) : Local id (Pure.pure a : Work α) :=
  fun tx _ => ⟨.refl id tx, fun _ _ => rfl⟩

theorem throw (error : Error) : Local id (MonadExcept.throw error : Work α) :=
  fun tx _ => ⟨.refl id tx, fun _ _ => rfl⟩

theorem read (reading : View → Except Error α) :
    Local id (Work.read reading) := by
  intro tx filed
  cases h : reading tx.view with
  | ok a =>
    have hread : Work.read reading tx = .ok a tx := read_of_ok h
    rw [hread]
    refine ⟨.refl id tx, fun base shares => ?_⟩
    exact read_of_ok ((congrArg reading (view_onto shares)).trans h)
  | error error =>
    have hread : Work.read reading tx = .error error tx := read_of_error h
    rw [hread]
    refine ⟨.refl id tx, fun base shares => ?_⟩
    exact read_of_error ((congrArg reading (view_onto shares)).trans h)

theorem bind_of {work : Work α} {next : α → Work β} (first : Local id work)
    (rest : ∀ {tx a tx'}, tx.Filed → work tx = .ok a tx' → Local id (next a)) :
    Local id (work >>= next) := by
  intro tx filed
  obtain ⟨hconfines, honto⟩ := first tx filed
  cases h : work tx with
  | error error mid =>
    rw [h] at hconfines honto
    rw [Outcome.bind_of_error h]
    exact ⟨hconfines,
      fun base shares => Outcome.bind_of_error (honto base shares)⟩
  | ok a mid =>
    rw [h] at hconfines honto
    rw [Outcome.bind_of_ok h]
    obtain ⟨hlater, hlaterOnto⟩ := rest filed h mid (hconfines.filed filed)
    refine ⟨hconfines.trans hlater, fun base shares => ?_⟩
    rw [Outcome.bind_of_ok (honto base shares)]
    exact hlaterOnto base (hconfines.shares shares)

theorem bind {work : Work α} {next : α → Work β} (first : Local id work)
    (rest : ∀ a, Local id (next a)) : Local id (work >>= next) :=
  first.bind_of fun {_ a _} _ _ => rest a

theorem ite {p : Prop} [Decidable p] {left right : Work α}
    (hleft : Local id left) (hright : Local id right) :
    Local id (if p then left else right) := by
  split
  · exact hleft
  · exact hright

/-- Work that is refused on a condition. -/
theorem guarded {p : Prop} [Decidable p] {error : Error} {rest : PUnit → Work α}
    (accepted : Local id (rest ⟨⟩)) :
    Local id (if p then MonadExcept.throw error >>= rest else rest ⟨⟩) := by
  rw [Outcome.throw_bind]
  exact ite (throw error) accepted

/-- Work that is accepted only on a condition. -/
theorem required {p : Prop} [Decidable p] {error : Error}
    {rest : PUnit → Work α} (accepted : Local id (rest ⟨⟩)) :
    Local id (if p then rest ⟨⟩ else MonadExcept.throw error >>= rest) := by
  rw [Outcome.throw_bind]
  exact ite accepted (throw error)

/-- A step that is taken on a condition. -/
theorem optional {p : Prop} [Decidable p] {first : Work PUnit}
    {rest : PUnit → Work α} (hfirst : Local id first)
    (hrest : ∀ done, Local id (rest done)) :
    Local id (if p then first >>= rest else rest ⟨⟩) :=
  ite (hfirst.bind hrest) (hrest ⟨⟩)

/-- An inode that is found has the identity that it was looked for under. -/
theorem get_bind {next : Inode → Work α}
    (rest : ∀ inode : Inode, inode.id = id → Local id (next inode)) :
    Local id (get id >>= next) :=
  (read _).bind_of
    fun {_ inode _} filed h => rest inode (filed (get_eq_ok.1 h).1.2)

theorem ofExcept (x : Except Error α) :
    Local id (MonadExcept.ofExcept x : Work α) := by
  cases x with
  | ok a => exact pure a
  | error error => exact throw error

/-- A step that always succeeds. -/
theorem step {f : Transaction → Transaction}
    (confines : ∀ tx, Confines id tx (f tx))
    (onto : ∀ tx base, f (tx.onto base) = (f tx).onto base) :
    Local id (modify f : Work PUnit) :=
  fun tx _ => ⟨confines tx,
    fun base _ => congrArg (EStateM.Result.ok PUnit.unit) (onto tx base)⟩

theorem ensureLocked (locked : InodeId) (mode : LockMode) :
    Local id (Work.ensureLocked locked mode) := by
  intro tx _
  cases h : tx.ensureLocked locked mode with
  | ok done =>
    have hok (tx' : Transaction)
        (same : tx'.ensureLocked locked mode = .ok done) :
        Work.ensureLocked locked mode tx' = .ok () tx' := by
      rw [Work.ensureLocked, same]
    rw [hok tx h]
    exact ⟨.refl id tx, fun base _ => hok (tx.onto base) h⟩
  | error error =>
    have herror (tx' : Transaction)
        (same : tx'.ensureLocked locked mode = .error error) :
        Work.ensureLocked locked mode tx' = .error error tx' := by
      rw [Work.ensureLocked, same]
    rw [herror tx h]
    exact ⟨.refl id tx, fun base _ => herror (tx.onto base) h⟩

theorem put {inode : Inode} (own : inode.id = id) (content : Content) :
    Local id (Work.put { inode with content }) := by
  subst own
  refine (ensureLocked _ _).bind fun _ => ?_
  exact step (.stored { inode with content }) fun _ _ => rfl

theorem journal (edit : Edit) : Local id (Work.journal edit) :=
  step (fun _ => ⟨rfl, fun _ => .inl rfl⟩) fun _ _ => rfl

theorem submitAt (chain : Chain) (length : Nat) (delta : Counts) :
    Local id (Work.submitAt chain length delta) :=
  step (fun _ => ⟨rfl, fun _ => .inl rfl⟩) fun _ _ => rfl

/-- Whether a change is entered depends on settings that are shared. -/
theorem account (chain : Chain) (length : Nat) (delta : Counts)
    (checked : Bool) : Local id (Work.account chain length delta checked) := by
  intro tx filed
  let enter : Work Unit := do
    if checked then
      Work.read (Chain.verifyQuota · chain length delta none)
    Work.submitAt chain length delta
  have henter : Local id enter := by
    refine ite ((read _).bind fun _ => submitAt _ _ _) (submitAt _ _ _)
  obtain ⟨hconfines, honto⟩ := @ite _ _ (tx.keepsQuota ∧ delta.isZero = false ∧
    0 < length) _ _ _ henter (pure ()) tx filed
  refine ⟨hconfines, fun base shares => ?_⟩
  change (if (tx.onto base).keepsQuota ∧ delta.isZero = false ∧
    0 < length then enter else Pure.pure ()) (tx.onto base) = _
  rw [keepsQuota_onto shares]
  exact honto base shares

theorem leased_bind {chain : Chain} {client : String} {next : Inode → Work α}
    (rest : ∀ inode : Inode, inode.id = chain.last →
      Local chain.last (next inode)) :
    Local chain.last (leased chain client >>= next) := by
  unfold leased
  simp only [bind_assoc, pure_bind]
  refine get_bind fun inode own => ?_
  exact (ofExcept _).bind fun _ => rest inode own

/-- A file that a client has open, and the inode that it is. -/
theorem leasedFile_bind {chain : Chain} {client : String}
    {next : Inode × File → Work α}
    (rest : ∀ (inode : Inode) (file : File), inode.id = chain.last →
      Local chain.last (next (inode, file))) :
    Local chain.last (leasedFile chain client >>= next) := by
  unfold leasedFile
  rw [bind_assoc]
  refine leased_bind fun inode own => ?_
  cases inode.asFile with
  | none =>
    rw [Outcome.throw_bind]
    exact throw _
  | some file =>
    rw [pure_bind]
    exact rest inode file own

variable {chain : Chain}

theorem dropBlock (block : Nat) :
    Local chain.last (Work.dropBlock chain block) := by
  refine get_bind fun inode own => ?_
  split
  next => exact throw _
  next =>
    split
    next => exact throw _
    next => exact guarded ((put own _).bind fun _ => account _ _ _ _)

theorem dropBlockIfLast (block : Nat) :
    Local chain.last (Work.dropBlockIfLast chain block) :=
  get_bind fun _ _ => optional (dropBlock block) fun _ => pure _

theorem abandonAt (client : String) (block : Nat) :
    Local chain.last (Work.abandonAt client block chain) := by
  refine leased_bind fun inode own => ?_
  split
  next => exact pure _
  next =>
    refine (dropBlockIfLast block).bind fun dropped => ?_
    exact ite ((journal _).bind fun _ => pure _) (pure _)

theorem completeAt (client : String) (lastLength : Nat) :
    Local chain.last (Work.completeAt client lastLength chain) := by
  refine leasedFile_bind fun inode file own => ?_
  dsimp -zeta only
  extract_lets closed rest refund last
  exact guarded
    ((put own _).bind fun _ => optional (account _ _ _ _) fun _ => journal _)

theorem appendAt (writer : Writer) :
    Local chain.last (Work.appendAt writer chain) := by
  refine get_bind fun inode own => ?_
  split
  next => exact throw _
  next =>
    split
    next => exact throw _
    next =>
      extract_lets opened last
      have hlast (done : PUnit) : Local chain.last (last done) :=
        (put own _).bind fun _ => journal _
      split
      next => exact (account _ _ _ _).bind hlast
      next => exact hlast ⟨⟩

theorem writeInlineAt (client : String) (length : Nat) :
    Local chain.last (Work.writeInlineAt client length chain) := by
  refine leasedFile_bind fun inode file own => ?_
  dsimp -zeta only
  extract_lets growth last
  exact required
    ((account _ _ _ _).bind fun _ => (put own _).bind fun _ => journal _)

theorem truncateAt (path : String) (length : Int) :
    Local chain.last (Work.truncateAt path length chain) := by
  refine get_bind fun inode own => ?_
  split
  next => exact throw _
  next =>
    split
    next => exact throw _
    next =>
      extract_lets newLength last guard
      refine guarded (guarded (ite (pure _) ?_))
      refine (put own _).bind fun _ => ?_
      refine (account _ _ _ _).bind fun _ => ?_
      exact (journal _).bind fun _ => pure _

end Local

/-- Work that is confined to the inode that a path leads to. -/
def LocalTo (path : String) (following : Bool) (work : Work α) : Prop :=
  ∀ (tx : Transaction) (chain : Chain), tx.Filed →
    Chain.resolve tx.view path following = .ok chain →
    tx.Confines chain.last (Outcome.state (work tx)) ∧
      ∀ base, tx.Shares base → work (tx.onto base) = resultOnto base (work tx)

namespace LocalTo

variable {path : String} {following : Bool}

theorem resolve_bind {work : Chain → Work α}
    (confined : ∀ chain, Local chain.last (work chain)) :
    LocalTo path following
      (read (Chain.resolve · path following) >>= work) := by
  intro tx chain filed hresolve
  obtain ⟨hconfines, honto⟩ := confined chain tx filed
  rw [Outcome.bind_of_ok (read_of_ok hresolve)]
  refine ⟨hconfines, fun base shares => ?_⟩
  have hread :
      Chain.resolve (tx.onto base).view path following = .ok chain := by
    rw [view_onto shares, hresolve]
  rw [Outcome.bind_of_ok (read_of_ok hread)]
  exact honto base shares

theorem setPolicy (policy : StoragePolicy) :
    LocalTo path false (Work.setPolicy path policy) := by
  refine resolve_bind fun chain => ?_
  refine .get_bind fun inode own => ?_
  extract_lets rest
  have hrest (done : PUnit) : Local chain.last (rest done) := .journal _
  split
  next => exact (Local.put own _).bind hrest
  next =>
    refine (Local.account _ _ _ _).bind fun _ => ?_
    exact (Local.put own _).bind hrest
  next => exact (Local.throw _).bind hrest

theorem setReplication (replication : Nat) :
    LocalTo path false (Work.setReplication path replication) := by
  refine resolve_bind fun chain => ?_
  refine .get_bind fun inode own => ?_
  split
  next => exact .throw _
  next =>
    refine (Local.account _ _ _ _).bind fun _ => ?_
    exact (Local.put own _).bind fun _ => .journal _

end LocalTo

end Work

end QuotaTree
