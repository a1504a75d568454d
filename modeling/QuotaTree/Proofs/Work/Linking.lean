/-
When an inode is put below a directory or taken out, and what that leaves.
-/
import QuotaTree.Proofs.Tree.Chain
import QuotaTree.Proofs.Tree.Place
import QuotaTree.Proofs.Work.Steps

namespace QuotaTree

namespace Transaction

variable {tx : Transaction} {id other : InodeId} {mode : LockMode}

/-- An inode may be entered into the directory at the end of a chain under a
name, where limits on names and directories are to be checked. -/
def Admits (tx : Transaction) (parent : Chain) (name : Name) (checked : Bool) :
    Prop :=
  checked = true → tx.base.imageLoaded = true →
    Work.checkEntry tx.view tx.base.config parent name = .ok ()

theorem affords_unchecked {chain : Chain} {length : Nat} {delta : Counts} :
    tx.Affords chain length delta false := by
  intro _ _ hchecked
  cases hchecked

/-- An inode is read and stored again with other content. -/
structure Opened (tx : Transaction) (id : InodeId) (inode : Inode) : Prop where
  live : tx.tree id = some inode
  read : tx.Allows id .read
  write : tx.Allows inode.id .write

@[simp] theorem opened_accounted {delta : Counts} {inode : Inode} :
    (tx.accounted other delta).Opened id inode ↔ tx.Opened id inode :=
  ⟨fun h => ⟨h.live, h.read, h.write⟩, fun h => ⟨h.live, h.read, h.write⟩⟩

/-- An inode entered below a directory, with the usage that comes with it. -/
def linked (tx : Transaction) (holder : Inode) (directory : Directory)
    (parent : InodeId) (inode : Inode) (counts : Counts) : Transaction :=
  ((tx.accounted parent counts).stored
    (holder.withDirectory
      { directory with
        children := directory.children.insert inode.name inode.id })).stored
    { inode with parent := some parent }

/-- A subtree taken out with its name, its usage and what is pending in it. -/
def unlinked (tx : Transaction) (holder : Inode) (parent : InodeId)
    (name : Name) (ids : List InodeId) (used : Counts) : Transaction :=
  (((tx.accounted parent (tx.pendingFor ids - used)).stored
    (holder.withoutChild name)).removedAll ids.reverse).withdrawing ids

end Transaction

namespace Work

variable {α : Type} {tx tx' : Transaction} {id : InodeId} {inode : Inode}
  {done : Unit} {chain parent : Chain} {name : Name} {counts : Counts}
  {ids : List InodeId}

theorem accountAbove_eq_ok {delta : Counts} {checked : Bool} :
    accountAbove (parent.child name id) delta checked tx = .ok done tx' ↔
      tx.Affords (parent.child name id) parent.length delta checked ∧
        tx' = tx.accounted parent.last delta := by
  have hlength : (parent.child name id).length - 1 = parent.length := rfl
  rw [accountAbove, hlength, account_eq_ok parent.length_pos,
    Chain.upTo_child_length]

@[simp] theorem verifyEntry_eq_ok : verifyEntry parent name tx = .ok done tx' ↔
    tx.Admits parent name true ∧ tx' = tx := by
  unfold verifyEntry Transaction.Admits
  simp only [Outcome.get_bind, Outcome.ite_eq_ok, Outcome.pure_eq_ok,
    read_eq_ok, forall_const]
  by_cases hloaded : tx.base.imageLoaded = true
  · simp [hloaded]
  · simp [hloaded, eq_comm]

@[simp] theorem dropEntry_eq_ok {directory : InodeId} :
    dropEntry directory name tx = .ok done tx' ↔
      ∃ holder, tx.Opened directory holder ∧
        tx' = tx.stored (holder.withoutChild name) := by
  have hid (holder : Inode) : (holder.withoutChild name).id = holder.id :=
    (Inode.loses_withoutChild holder name).id
  unfold dropEntry
  simp only [Outcome.bind_eq_ok, get_eq_ok, put_eq_ok, hid]
  constructor
  · rintro ⟨holder, _, ⟨⟨hread, live⟩, rfl⟩, hwrite, rfl⟩
    exact ⟨holder, ⟨live, hread, hwrite⟩, rfl⟩
  · rintro ⟨holder, opened, rfl⟩
    exact ⟨holder, tx, ⟨⟨opened.read, opened.live⟩, rfl⟩, opened.write, rfl⟩

/-- Everything that is asked before an inode is put below a directory. -/
structure Links (tx : Transaction) (parent : Chain) (inode : Inode)
    (counts : Counts) (checked : Bool) (holder : Inode)
    (directory : Directory) : Prop where
  name : ¬ (parent.length = 1 ∧ inode.name = Name.ofText reservedName)
  opened : tx.Opened parent.last holder
  content : holder.content = .directory directory
  admits : tx.Admits parent inode.name checked
  affords : tx.Affords parent parent.length counts checked
  free : directory.children[inode.name]? = none
  write : tx.Allows inode.id .write

theorem entry_verified_iff {checked : Bool} :
    (if checked = true then verifyEntry parent name tx = .ok () tx'
      else tx' = tx) ↔
      tx.Admits parent name checked ∧ tx' = tx := by
  cases checked with
  | false => simp [Transaction.Admits]
  | true => simp

theorem link_eq_ok {checked : Bool} :
    link parent inode counts checked tx = .ok chain tx' ↔
      ∃ holder directory,
        Links tx parent inode counts checked holder directory ∧
        chain = parent.child inode.name inode.id ∧
        tx' = tx.linked holder directory parent.last inode counts := by
  unfold link
  by_cases hname : parent.length = 1 ∧ inode.name = Name.ofText reservedName
  · simp only [hname, and_self, if_true, Outcome.throw_bind,
      Outcome.throw_ne_ok, false_iff, not_exists]
    rintro holder directory ⟨links, _⟩
    exact links.name hname
  simp only [hname, if_false, Outcome.bind_eq_ok, get_eq_ok]
  constructor
  · rintro ⟨holder, _, ⟨⟨hread, live⟩, rfl⟩, hbody⟩
    cases hcontent : holder.content with
    | file => simp [Inode.isDirectory, Inode.asDirectory, hcontent] at hbody
    | symlink => simp [Inode.isDirectory, Inode.asDirectory, hcontent] at hbody
    | directory directory =>
      simp only [Inode.isDirectory, Inode.asDirectory, hcontent,
        Option.isSome_some, if_true] at hbody
      rw [Outcome.when_eq_ok] at hbody
      obtain ⟨_, hverify, hbody⟩ := hbody
      obtain ⟨hadmits, rfl⟩ := entry_verified_iff.1 hverify
      simp only [Outcome.bind_eq_ok, account_eq_ok parent.length_pos] at hbody
      obtain ⟨_, _, ⟨haffords, rfl⟩, hbody⟩ := hbody
      split at hbody
      next hcontains => simp at hbody
      next hcontains =>
        simp only [Outcome.bind_eq_ok, put_eq_ok, Outcome.pure_eq_ok] at hbody
        obtain ⟨_, _, ⟨hwrite, rfl⟩, _, _, ⟨hwrite', rfl⟩, rfl, rfl⟩ := hbody
        refine ⟨holder, directory, ⟨hname, ⟨live, hread, hwrite⟩, hcontent,
          hadmits, haffords, ?_, hwrite'⟩, rfl, ?_⟩
        · rwa [Std.ExtTreeMap.contains_eq_isSome_getElem?, Bool.not_eq_true,
            Option.isSome_eq_false_iff, Option.isNone_iff_eq_none] at hcontains
        · rw [Chain.last_upTo_length, Transaction.linked]
  · rintro ⟨holder, directory, links, rfl, rfl⟩
    refine ⟨holder, tx, ⟨⟨links.opened.read, links.opened.live⟩, rfl⟩, ?_⟩
    simp only [Inode.isDirectory, Inode.asDirectory, links.content,
      Option.isSome_some, if_true]
    rw [Outcome.when_eq_ok]
    refine ⟨tx, entry_verified_iff.2 ⟨links.admits, rfl⟩, ?_⟩
    have hfree : directory.children.contains inode.name = false := by
      rw [Std.ExtTreeMap.contains_eq_isSome_getElem?, links.free]
      rfl
    simp only [hfree, Bool.false_eq_true, if_false, Outcome.bind_eq_ok,
      account_eq_ok parent.length_pos, put_eq_ok, Outcome.pure_eq_ok,
      Chain.last_upTo_length]
    exact ⟨(), _, ⟨links.affords, rfl⟩, (), _, ⟨links.opened.write, rfl⟩, (), _,
      ⟨links.write, rfl⟩, trivial, rfl⟩

/-- Everything that is asked before a subtree is taken out. -/
structure Unlinks (tx : Transaction) (parent : Chain) (id : InodeId)
    (holder : Inode) (ids : List InodeId) (used : Counts) : Prop where
  subtree : tx.view.subtree id = .ok ids
  usage : tx.view.usage id = .ok used
  opened : tx.Opened parent.last holder
  removable : ∀ below ∈ ids, below ≠ .root ∧ tx.Allows below .write

theorem unlink_eq_ok {used : Counts} :
    unlink (parent.child name id) false none tx = .ok used tx' ↔
      ∃ holder ids, Unlinks tx parent id holder ids used ∧
        tx' = tx.unlinked holder parent.last name ids used := by
  unfold unlink
  simp only [Chain.parent?_child, Chain.last_child, Chain.lastName_child,
    Outcome.bind_eq_ok, subtree, usage, read_eq_ok, pendingFor_eq_ok,
    accountAbove_eq_ok, Bool.false_eq_true, if_false, dropEntry_eq_ok,
    removeAll_eq_ok, withdraw_eq_ok, Outcome.pure_eq_ok]
  constructor
  · rintro ⟨ids, _, ⟨hsubtree, rfl⟩, _, _, ⟨husage, rfl⟩, _, _, ⟨rfl, rfl⟩, _,
      _, ⟨_, rfl⟩, _, _, ⟨holder, opened, rfl⟩, _, _, ⟨hremove, rfl⟩, _, _, rfl,
      rfl, rfl⟩
    exact ⟨holder, ids, ⟨hsubtree, husage,
      Transaction.opened_accounted.1 opened, by simpa using hremove⟩, rfl⟩
  · rintro ⟨holder, ids, unlinks, rfl⟩
    exact ⟨ids, tx, ⟨unlinks.subtree, rfl⟩, used, tx, ⟨unlinks.usage, rfl⟩, _,
      tx, ⟨rfl, rfl⟩, (), _, ⟨Transaction.affords_unchecked, rfl⟩, (), _,
      ⟨holder, Transaction.opened_accounted.2 unlinks.opened, rfl⟩, (), _,
      ⟨by simpa using unlinks.removable, rfl⟩, (), _, rfl, rfl, rfl⟩

/-- An inode that is moving only loses its usage and what is pending in it. -/
theorem unlink_moving_eq_ok {given used : Counts} :
    unlink (parent.child name id) true (some given) tx = .ok used tx' ↔
      used = given ∧ ∃ ids, tx.view.subtree id = .ok ids ∧
        tx' = tx.accounted parent.last (tx.pendingFor ids - given) := by
  unfold unlink
  simp only [Chain.parent?_child, Chain.last_child, Outcome.bind_eq_ok, subtree,
    read_eq_ok, pendingFor_eq_ok, accountAbove_eq_ok, if_true,
    Outcome.pure_eq_ok]
  constructor
  · rintro ⟨ids, _, ⟨hsubtree, rfl⟩, _, _, ⟨rfl, rfl⟩, _, _, ⟨rfl, rfl⟩, _, _,
      ⟨_, rfl⟩, rfl, rfl⟩
    exact ⟨rfl, ids, hsubtree, rfl⟩
  · rintro ⟨rfl, ids, hsubtree, rfl⟩
    exact ⟨ids, tx, ⟨hsubtree, rfl⟩, _, tx, ⟨rfl, rfl⟩, _, tx, ⟨rfl, rfl⟩, (),
      _, ⟨Transaction.affords_unchecked, rfl⟩, rfl, rfl⟩

theorem unlinkLeaf_eq_ok :
    unlinkLeaf (parent.child name id) tx = .ok inode tx' ↔
      (tx.tree id = some inode ∧ tx.Allows id .read ∧ inode.entries = [] ∧
        id ≠ .root ∧
        tx.Allows id .write) ∧
      ∃ holder, tx.Opened parent.last holder ∧
        tx' = tx.unlinked holder parent.last name [id] inode.ownUsage := by
  unfold unlinkLeaf
  simp only [Chain.parent?_child, Chain.last_child, Chain.lastName_child,
    Outcome.bind_eq_ok, get_eq_ok]
  constructor
  · rintro ⟨inode', _, ⟨⟨hread, live⟩, rfl⟩, hbody⟩
    by_cases hentries : inode'.entries = []
    · simp only [hentries, ne_eq, not_true_eq_false, if_false,
        Outcome.bind_eq_ok, pendingFor_eq_ok, accountAbove_eq_ok,
        dropEntry_eq_ok, remove_eq_ok, withdraw_eq_ok,
        Outcome.pure_eq_ok] at hbody
      obtain ⟨_, _, ⟨rfl, rfl⟩, _, _, ⟨_, rfl⟩, _, _, ⟨holder, opened, rfl⟩, _,
        _, ⟨hne, hwrite, rfl⟩, _, _, rfl, rfl, rfl⟩ := hbody
      exact ⟨⟨live, hread, hentries, hne, hwrite⟩, holder,
        Transaction.opened_accounted.1 opened, rfl⟩
    · simp [hentries] at hbody
  · rintro ⟨⟨live, hread, hentries, hne, hwrite⟩, holder, opened, rfl⟩
    refine ⟨inode, tx, ⟨⟨hread, live⟩, rfl⟩, ?_⟩
    simp only [hentries, ne_eq, not_true_eq_false, if_false, Outcome.bind_eq_ok,
      pendingFor_eq_ok, accountAbove_eq_ok, dropEntry_eq_ok, remove_eq_ok,
      withdraw_eq_ok, Outcome.pure_eq_ok]
    exact ⟨_, tx, ⟨rfl, rfl⟩, (), _, ⟨Transaction.affords_unchecked, rfl⟩, (),
      _, ⟨holder, Transaction.opened_accounted.2 opened, rfl⟩, (), _,
      ⟨hne, hwrite, rfl⟩, (), _, rfl,
      trivial, rfl⟩

/-- The root cannot be taken out. -/
theorem unlink_root {moving : Bool} {given : Option Counts} {used : Counts} :
    ¬ unlink .root moving given tx = .ok used tx' := by
  simp [unlink, Chain.parent?]

end Work

end QuotaTree
