/-
How far making inodes can take a directory past its limit.  Every inode that is
made is checked on its own against the usage that the quotas above have cached,
which does not change while a call is at work.
-/
import QuotaTree.Proofs.Accounting
import QuotaTree.Proofs.Limits.Verify
import Mathlib.Algebra.Order.BigOperators.Group.Finset

namespace QuotaTree

open Nodes Transaction

theorem Inode.inodes_ownUsage (inode : Inode) : inode.ownUsage.inodes = 1 := by
  rw [Inode.ownUsage_eq]
  cases inode.asFile with
  | none => rfl
  | some file =>
    have hspace : file.chargedSpace.get .inodes = 0 := by
      rw [File.chargedSpace, File.space, StoragePolicy.get_space]
      exact Int.mul_zero _
    have husage := congrArg (Counts.get · .inodes) file.usage_eq
    rw [Counts.get_add, hspace] at husage
    exact husage

theorem Nodes.inodes_own_nonneg (nodes : Nodes) (id : InodeId) :
    0 ≤ (nodes.own id).inodes := by
  cases h : nodes id with
  | none => exact (congrArg Counts.inodes (own_of_dead h)).ge
  | some inode =>
    rw [own_of_live h, inode.inodes_ownUsage]
    decide

theorem Counts.inodes_sum (ids : Finset InodeId) (f : InodeId → Counts) :
    (∑ x ∈ ids, f x).inodes = ∑ x ∈ ids, (f x).inodes :=
  get_sum ids f .inodes

/-- A file without data counts as an inode and nothing else. -/
theorem File.usage_of_empty {file : File} (blocks : file.blocks = [])
    (inlineSize : file.inlineSize = none) : file.usage = Counts.oneInode := by
  have hcharged : file.charged = 0 := by simp [charged, blocks, inlineSize]
  have hzero : counterOf 0 = 0 := by decide
  rw [usage_eq, chargedSpace, hcharged, hzero, space, StoragePolicy.space_zero,
    Counts.zero_add]

/-- What is there stays there when an inode is put into the tree. -/
theorem Nodes.Insertion.isSome {nodes : Nodes} {parent id x : InodeId}
    {name : Name} {gained new : Inode}
    (ins : nodes.Insertion parent id name gained new) (h : (nodes x).isSome) :
    (nodes.insert parent id gained new x).isSome := by
  by_cases hid : x = id
  · rw [hid, Insertion.insert_self]
    rfl
  · by_cases hparent : x = parent
    · rw [hparent, ins.insert_parent]
      rfl
    · rwa [Insertion.insert_of_ne hid hparent]

namespace Books

/-- Inodes have been put into the tree, each under an identity of its own, and
each where the quotas above had room for one more. -/
structure Grows (before after : Books) : Prop where
  live : ∀ {x}, (before.nodes x).isSome → (after.nodes x).isSome
  quota : ∀ x, after.nodes.quota x = before.nodes.quota x
  under : ∀ {top x}, (before.nodes x).isSome → after.nodes.Under top x →
    before.nodes.Under top x
  charged : ∀ ids : Finset InodeId,
    (∑ x ∈ ids, after.pending x).inodes + before.next.val ≤
      (∑ x ∈ ids, before.pending x).inodes + after.next.val
  room : ∀ {top x quota}, (before.pending x).inodes < (after.pending x).inodes →
    after.nodes.Under top x → before.nodes.quota top = some quota →
    quota.firstExceeded Counts.oneInode = none

namespace Grows

variable {first second third : Books}

theorem refl (books : Books) : books.Grows books where
  live h := h
  quota _ := rfl
  under _ h := h
  charged _ := Int.le_refl _
  room h := absurd h (Int.lt_irrefl _)

theorem trans (sound : first.Sound) (sound' : second.Sound)
    (early : first.Grows second) (late : second.Grows third) :
    first.Grows third where
  live h := late.live (early.live h)
  quota x := (late.quota x).trans (early.quota x)
  under hlive h := early.under hlive (late.under (early.live hlive) h)
  charged ids := by
    have hearly := early.charged ids
    have hlate := late.charged ids
    omega
  room := by
    intro top x quota hraised hunder hquota
    by_cases hlate : (second.pending x).inodes < (third.pending x).inodes
    · exact late.room hlate hunder ((early.quota top).trans hquota)
    · have hearly : (first.pending x).inodes < (second.pending x).inodes := by
        omega
      -- what has come to be pending at an inode shows that it is there
      have hlive : (second.nodes x).isSome := by
        rw [Option.isSome_iff_ne_none]
        intro hdead
        have hdead' : first.nodes x = none := by
          by_contra hsome
          exact Option.isSome_iff_ne_none.1
            (early.live (Option.isSome_iff_ne_none.2 hsome)) hdead
        rw [sound.pending hdead', sound'.pending hdead] at hearly
        exact Int.lt_irrefl _ hearly
      exact early.room hearly (late.under hlive hunder) hquota

end Grows

/-- One inode is put below a directory while every quota above has room for
it. -/
theorem Grows.insert {books : Books} {parent id next : InodeId} {name : Name}
    {gained new : Inode} (sound : books.Sound)
    (ins : books.nodes.Insertion parent id name gained new)
    (unlimited : new.quota = none) (fresh : books.next.val < next.val)
    (room : ∀ {top quota}, books.nodes.Under top parent →
      books.nodes.quota top = some quota →
      quota.firstExceeded Counts.oneInode = none) :
    books.Grows
      { nodes := books.nodes.insert parent id gained new
        pending := charge books.pending true parent Counts.oneInode
        next } where
  live h := ins.isSome h
  quota x := by
    by_cases h : x = id
    · rw [h, quota_of_live Insertion.insert_self, unlimited, Nodes.quota,
        ins.fresh]
      rfl
    · exact Change.quota_insert ins h
  under {top x} hlive h := by
    refine (ins.under_of_ne sound.wellFormed ?_).1 h
    rintro rfl
    rw [ins.fresh] at hlive
    cases hlive
  charged ids := by
    simp only [Change.charge_true, Change.sum_add_ite]
    have hsplit (counts delta : Counts) :
        (counts + delta).inodes = counts.inodes + delta.inodes :=
      rfl
    have hdelta :
        (if parent ∈ ids then Counts.oneInode else 0 : Counts).inodes ≤ 1 := by
      split <;> decide
    rw [hsplit]
    omega
  room := by
    intro top x quota hraised hunder hquota
    have hx : x = parent := by
      by_contra hne
      have hsame :
          charge books.pending true parent Counts.oneInode x =
            books.pending x := Change.charge_of_ne hne
      exact absurd hraised
        (by simp only [hsame, Int.lt_irrefl, not_false_eq_true])
    subst hx
    exact room ((ins.under_of_ne sound.wellFormed ins.parent_ne).1 hunder)
      hquota

end Books

/-- A chain that leads somewhere still does when an inode has been put into the
tree. -/
theorem Chain.Leads.insert {nodes : Nodes} {parent id : InodeId} {name : Name}
    {gained new : Inode} {chain : Chain}
    (ins : nodes.Insertion parent id name gained new)
    (leads : Chain.Leads nodes chain) :
    Chain.Leads (nodes.insert parent id gained new) chain := by
  obtain ⟨holder, hholder, hfree, _⟩ := ins.entered
  induction leads with
  | root => exact .root
  | @child above entry id above' hentry ih =>
    refine .child ih ?_
    rw [ins.entryAt, if_neg, hentry]
    rintro ⟨rfl, rfl⟩
    rw [entryAt_of_live hholder, hfree] at hentry
    cases hentry

namespace Work

variable {tx mid tx' : Transaction} {parent chain : Chain} {inode : Inode}
  {id : InodeId} {name : Name}

/-- A new inode is put below the end of a chain whose quotas have been
checked. -/
theorem grows_linkNew (ready : tx.Ready) (keeps : tx.keepsQuota = true)
    (leads : Chain.Leads tx.tree parent) (halloc : alloc tx = .ok inode.id mid)
    (h : linkNew parent inode mid = .ok chain tx')
    (leaf : ∀ name, inode.child? name = none) (unlimited : inode.quota = none)
    (own : inode.ownUsage = Counts.oneInode) :
    tx.books.Grows tx'.books ∧ Chain.Leads tx'.tree chain := by
  obtain ⟨hturns, hdead, -⟩ := dead_of_alloc ready halloc
  obtain ⟨next, hnext, -, rfl⟩ := alloc_eq_ok.1 halloc
  obtain ⟨holder, directory, links, rfl, rfl⟩ := link_eq_ok.1 h
  have hid : holder.id = parent.last := ready.wellFormed.ids links.opened.live
  have ins := insertion_linked links hdead leaf
  have verified := links.affords keeps (by rw [own]; decide) rfl
  rw [own] at verified
  have reads := (hturns.ready ready).reads
  constructor
  · rw [books_linked hid, own,
      show (tx.allocated next).keepsQuota = true from keeps]
    refine .insert ready.sound ins unlimited ?_ ?_
    · have := InodeId.next?_eq_some hnext
      change tx.base.table.next.val < next.val
      omega
    · intro top quota hunder hquota
      exact Chain.not_exceeded_of_verified reads verified
        ((leads.mem_ids ready.wellFormed).2 hunder) hquota
  · rw [tree_linked hid]
    exact .child (leads.insert ins) (by rw [ins.entryAt, if_pos ⟨rfl, rfl⟩])

theorem grows_makeDirectories {permission : Permission} {names : List Name}
    (ready : tx.Ready) (keeps : tx.keepsQuota = true)
    (leads : Chain.Leads tx.tree parent) (named : ∀ name ∈ names, name.Proper)
    (h : makeDirectories permission parent names tx = .ok chain tx') :
    tx.books.Grows tx'.books ∧ Chain.Leads tx'.tree chain := by
  induction names generalizing tx parent with
  | nil =>
    obtain ⟨rfl, rfl⟩ := Outcome.pure_eq_ok.1 h
    exact ⟨.refl _, leads⟩
  | cons name rest ih =>
    simp only [makeDirectories, Outcome.bind_eq_ok] at h
    obtain ⟨id, mid, halloc, extended, mid', hlink, hrest⟩ := h
    obtain ⟨hturns, _⟩ :=
      turns_makeDirectory ready (leads.proper ready.wellFormed)
        (named name List.mem_cons_self) halloc hlink
    have hready := hturns.ready ready
    obtain ⟨hgrows, hleads⟩ := grows_linkNew ready keeps leads halloc hlink
      (fun other => by simp [Inode.child?, Inode.asDirectory]) rfl rfl
    obtain ⟨hgrows', hleads'⟩ := ih hready
      (hturns.keepsQuota.trans keeps) hleads
      (fun other h => named other (List.mem_cons_of_mem _ h)) hrest
    exact ⟨hgrows.trans ready.sound hready.sound hgrows', hleads'⟩

theorem grows_enterFile {path : String} {options : CreateOptions}
    {replication blockSize : Nat} (ready : tx.Ready)
    (keeps : tx.keepsQuota = true) (leads : Chain.Leads tx.tree parent)
    (h : enterFile path options replication blockSize parent name tx =
      .ok id tx') :
    tx.books.Grows tx'.books := by
  simp only [enterFile, makeFile, Outcome.bind_eq_ok, read_eq_ok, journal_eq_ok,
    Outcome.pure_eq_ok] at h
  obtain ⟨chain, _, ⟨policy, _, ⟨_, rfl⟩, id, mid, halloc, hlink⟩, _, _, rfl, _,
    rfl⟩ := h
  exact (grows_linkNew ready keeps leads halloc hlink (fun other => by
    simp [Inode.child?, Inode.asDirectory]) rfl (File.usage_of_empty rfl rfl)).1

end Work

namespace Books

variable {before mid after : Books}

def Settled (books : Books) : Prop :=
  ∀ x, books.pending x = 0

/-- Nothing that counts towards the limits on inodes has become pending, and no
identity has been given out. -/
structure Eased (before after : Books) : Prop where
  quota : ∀ {top quota}, after.nodes.quota top = some quota →
    before.nodes.quota top = some quota
  pending : ∀ x, (after.pending x).inodes ≤ 0
  next : after.next = before.next

/-- Out of books with nothing pending have come ones where a quota has more
inodes below it only if it had room for one, and at most as many more as
identities were given out. -/
structure Restrained (before after : Books) : Prop where
  quota : ∀ {top quota}, after.nodes.quota top = some quota →
    before.nodes.quota top = some quota
  charged : ∀ ids : Finset InodeId,
    (∑ x ∈ ids, after.pending x).inodes + before.next.val ≤ after.next.val
  room : ∀ {top x quota}, 0 < (after.pending x).inodes →
    after.nodes.Under top x →
    after.nodes.quota top = some quota →
    quota.firstExceeded Counts.oneInode = none

theorem Settled.eased (settled : before.Settled) : before.Eased before where
  quota h := h
  pending x := by rw [settled x]; exact Int.le_refl _
  next := rfl

theorem Eased.restrained (eased : before.Eased mid) (grows : mid.Grows after) :
    before.Restrained after where
  quota h := eased.quota ((grows.quota _).symm.trans h)
  charged ids := by
    have hgrows := grows.charged ids
    have heased : (∑ x ∈ ids, mid.pending x).inodes ≤ 0 := by
      rw [Counts.inodes_sum]
      exact Finset.sum_nonpos fun x _ => eased.pending x
    rw [eased.next] at hgrows
    omega
  room hraised hunder hquota :=
    grows.room (Int.lt_of_le_of_lt (eased.pending _) hraised) hunder
      ((grows.quota _).symm.trans hquota)

end Books

/-- A chain beside a subtree that is taken out still leads where it did. -/
theorem Chain.Leads.prune {nodes after : Nodes} {parent id : InodeId}
    {name : Name} {lost : Inode} {chain : Chain}
    (pruning : nodes.Pruning after parent id name lost)
    (leads : Chain.Leads nodes chain) (wf : nodes.WellFormed)
    (outside : ¬ nodes.Under id chain.last) : Chain.Leads after chain := by
  induction leads with
  | root => exact .root
  | @child above entry x above' hentry ih =>
    have hlink := (Chain.Leads.child above' hentry).link wf
    have habove : ¬ nodes.Under id above.last :=
      fun h => outside (h.trans (.of_parent hlink))
    refine .child (ih habove) ?_
    rw [pruning.entryAt_of_kept _ _ habove, if_neg, hentry]
    rintro ⟨hparent, rfl⟩
    obtain ⟨holder, hholder, hchild, _⟩ := pruning.listed
    rw [hparent, entryAt_of_live hholder, hchild, Option.some_inj] at hentry
    exact outside (hentry ▸ .refl _ _)

namespace Work

variable {tx mid tx' : Transaction} {parent chain : Chain} {inode : Inode}
  {id : InodeId} {name : Name} {path : String}

/-- Taking out a subtree makes room. -/
theorem eased_unlink {used : Counts} (ready : tx.Ready)
    (settled : tx.books.Settled)
    (leads : Chain.Leads tx.tree (parent.child name id))
    (h : unlink (parent.child name id) false none tx = .ok used mid) :
    tx.books.Eased mid.books ∧ Chain.Leads mid.tree parent := by
  have wf := ready.wellFormed
  have hlink := leads.link wf
  obtain ⟨holder, ids, unlinks, rfl⟩ := unlink_eq_ok.1 h
  have nodup := ready.reads.subtree_nodup wf unlinks.subtree
  have hid : holder.id = parent.last := wf.ids unlinks.opened.live
  have hpending : tx.pendingFor ids = 0 := by
    rw [pendingFor_eq ready.plain nodup]
    exact Finset.sum_eq_zero fun x _ => settled x
  have hused : (0 - used).inodes ≤ 0 := by
    obtain ⟨_, hids, rfl⟩ := ready.reads.usage unlinks.usage
    rw [← Except.ok.inj (unlinks.subtree.symm.trans hids),
      Counts.sum_map_of_nodup nodup]
    refine Int.sub_nonpos_of_le ?_
    rw [Counts.inodes_sum]
    exact Finset.sum_nonneg fun x _ => inodes_own_nonneg tx.tree x
  cases leads with
  | child above entry =>
    rw [entryAt_of_live unlinks.opened.live] at entry
    have pruning := pruning_unlinked unlinks.opened.live entry
      (ready.reads.mem_subtree wf unlinks.subtree)
    rw [books_unlinked hid, tree_unlinked hid, hpending]
    refine ⟨⟨?_, ?_, rfl⟩, above.prune pruning wf (wf.not_under_parent hlink)⟩
    · intro top quota hquota
      obtain ⟨found, hfound, hquota⟩ := quota_eq_some.1 hquota
      obtain ⟨_, old, hold, same⟩ := pruning.live hfound
      exact quota_eq_some.2 ⟨old, hold, same.quota ▸ hquota⟩
    · intro x
      have hx : tx.pendingAt x = 0 := settled x
      simp only [Books.charge, hx, Counts.zero_add]
      split
      · exact Int.le_refl _
      · split
        · exact hused
        · exact Int.le_refl _

theorem eased_replaceFile {overwrite : Bool} {replaced : List Block}
    (ready : tx.Ready) (settled : tx.books.Settled)
    (leads : Chain.Leads tx.tree (parent.child name id))
    (h : replaceFile (parent.child name id) path overwrite tx =
      .ok replaced mid) :
    tx.books.Eased mid.books ∧ Chain.Leads mid.tree parent := by
  simp only [replaceFile, Outcome.bind_eq_ok, get_eq_ok] at h
  obtain ⟨inode, _, ⟨_, rfl⟩, h⟩ := h
  cases hfile : inode.asFile with
  | none => simp [hfile] at h
  | some file =>
    simp only [hfile] at h
    cases hwriter : file.writer with
    | some holder => simp [hwriter] at h
    | none =>
      simp only [hwriter, Outcome.ite_eq_ok] at h
      split at h
      next =>
        simp only [Outcome.bind_eq_ok, Outcome.pure_eq_ok] at h
        obtain ⟨_, _, hunlink, _, rfl⟩ := h
        exact eased_unlink ready settled leads hunlink
      next => simp at h

theorem restrained_makePath {permission : Permission} {done : Unit}
    (ready : tx.Ready) (keeps : tx.keepsQuota = true)
    (settled : tx.books.Settled)
    (h : makePath path permission tx = .ok done tx') :
    tx.books.Restrained tx'.books := by
  refine settled.eased.restrained ?_
  simp only [makePath, Outcome.bind_eq_ok, read_eq_ok, Prod.exists] at h
  obtain ⟨chain, rest, _, ⟨hresolve, rfl⟩, h⟩ := h
  cases rest with
  | nil =>
    simp only [Outcome.bind_eq_ok, get_eq_ok, Outcome.ite_eq_ok,
      Outcome.pure_eq_ok] at h
    obtain ⟨inode, _, ⟨_, rfl⟩, h⟩ := h
    split at h
    next => exact h.2 ▸ .refl _
    next => simp at h
  | cons name rest =>
    simp only [Outcome.bind_eq_ok, journal_eq_ok] at h
    obtain ⟨_, mid, hmake, rfl⟩ := h
    exact (grows_makeDirectories ready keeps (Chain.Leads.resolveExisting
      ready.reads hresolve) (Chain.proper_of_missing hresolve) hmake).1

theorem restrained_createFile {options : CreateOptions}
    {replication blockSize : Nat} {answer : InodeId × List Block}
    (ready : tx.Ready) (keeps : tx.keepsQuota = true)
    (settled : tx.books.Settled)
    (h : createFile path options replication blockSize tx = .ok answer tx') :
    tx.books.Restrained tx'.books := by
  obtain ⟨chain, rest, hresolve, made⟩ := exists_of_createFile h
  have leads := Chain.Leads.resolveExisting ready.reads hresolve
  cases made with
  | replacing hreplace henter =>
    have hreplaced := turns_replaceFile ready leads hreplace
    obtain ⟨eased, above⟩ := eased_replaceFile ready settled leads hreplace
    exact eased.restrained (grows_enterFile (hreplaced.ready ready)
      (hreplaced.keepsQuota.trans keeps) above henter)
  | @adding _ _ first others _ _ _ hparents henter =>
    have named : ∀ name ∈ (first :: others).dropLast, name.Proper :=
      fun name h => Chain.proper_of_missing hresolve name
        (List.mem_of_mem_dropLast h)
    have hturns := (turns_makeDirectories ready
      (leads.proper ready.wellFormed) named hparents).1
    have hready := hturns.ready ready
    obtain ⟨hgrows, hleads⟩ :=
      grows_makeDirectories ready keeps leads named hparents
    exact settled.eased.restrained (hgrows.trans ready.sound hready.sound
      (grows_enterFile hready (hturns.keepsQuota.trans keeps) hleads henter))

theorem restrained_symlinkPath {target link : String} {permission : Permission}
    {createParent : Bool} {id : InodeId} (ready : tx.Ready)
    (keeps : tx.keepsQuota = true) (settled : tx.books.Settled)
    (h : symlinkPath target link permission createParent tx = .ok id tx') :
    tx.books.Restrained tx'.books := by
  simp only [symlinkPath, Outcome.bind_eq_ok, read_eq_ok, Prod.exists] at h
  obtain ⟨chain, rest, _, ⟨hresolve, rfl⟩, h⟩ := h
  have leads := Chain.Leads.resolveExisting ready.reads hresolve
  cases rest with
  | nil => simp at h
  | cons first others =>
    simp only [Outcome.bind_eq_ok, Outcome.ofExcept_eq_ok, journal_eq_ok,
      Outcome.pure_eq_ok] at h
    obtain ⟨_, _, ⟨_, rfl⟩, parent, mid, hparents, id, _, halloc, _, _, hlink,
      _, _, rfl, _,
      rfl⟩ := h
    have named : ∀ name ∈ (first :: others).dropLast, name.Proper :=
      fun name h => Chain.proper_of_missing hresolve name
        (List.mem_of_mem_dropLast h)
    have hturns := (turns_makeDirectories ready
      (leads.proper ready.wellFormed) named hparents).1
    have hready := hturns.ready ready
    obtain ⟨hgrows, hleads⟩ :=
      grows_makeDirectories ready keeps leads named hparents
    obtain ⟨hgrows', -⟩ :=
      grows_linkNew hready (hturns.keepsQuota.trans keeps) hleads halloc hlink
        (fun other => by simp [Inode.child?, Inode.asDirectory]) rfl rfl
    exact settled.eased.restrained
      (hgrows.trans ready.sound hready.sound hgrows')

end Work

end QuotaTree
