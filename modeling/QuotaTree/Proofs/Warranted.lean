/-
Where there are quotas.  The root always has one, another directory has one as
long as one of its limits is set, and the setters leave the limits that they
were asked to leave, which then stay with the inode until a setter is called
again.  The limit of the root on inodes is not lifted once it is set.
-/
import QuotaTree.Proofs.Request.Meeting
import QuotaTree.Proofs.Usage.Persist

namespace QuotaTree

open Nodes

/-- The quota of an inode, or its having none, is warranted: limits are legal,
the root has some, and elsewhere there are none unless one of them is set.
Where `bound` holds the root has a limit on inodes. -/
structure Warrant (bound : Prop) (id : InodeId) (limits : Option Counts) :
    Prop where
  legal : ∀ {set}, limits = some set → set.Legal
  atRoot :
    id = .root → ∃ set, limits = some set ∧ (bound → set.inodes ≠ Limit.none)
  elsewhere : id ≠ .root → ∀ {set}, limits = some set → set.anyLimited = true

namespace Warrant

variable {bound : Prop} {id : InodeId} {before : Option Counts}

theorem bare (bound : Prop) (id : InodeId) (h : id ≠ .root) :
    Warrant bound id none where
  legal h := by cases h
  atRoot hroot := absurd hroot h
  elsewhere _ _ h := by cases h

theorem legal_getD (warrant : Warrant bound id before) :
    (before.getD Counts.unlimited).Legal := by
  cases hbefore : before with
  | none => exact Counts.legal_unlimited
  | some limits => exact warrant.legal hbefore

/-- A quota that is warranted is warranted or gone after its limits have been
set. -/
theorem relimited {liftsInodes : Bool} {change : Counts → Counts}
    (admissible : Counts.Admissible liftsInodes change)
    (lifts : id = .root → liftsInodes = false)
    (warrant : Warrant bound id before) :
    Warrant bound id (if (change (before.getD Counts.unlimited)).anyLimited ∨
        id = .root ∧
      before.isSome then some (change (before.getD Counts.unlimited))
        else none) := by
  constructor
  case legal =>
    intro limits h
    obtain ⟨_, h⟩ := Option.ite_none_right_eq_some.1 h
    cases h
    exact admissible.legal warrant.legal_getD
  case atRoot =>
    intro hroot
    obtain ⟨limits, rfl, kept⟩ := warrant.atRoot hroot
    refine ⟨change limits, if_pos (.inr ⟨hroot, rfl⟩), fun hbound => ?_⟩
    exact admissible.kept (lifts hroot) (kept hbound)
  case elsewhere =>
    intro hother limits h
    obtain ⟨hset, h⟩ := Option.ite_none_right_eq_some.1 h
    cases h
    exact hset.resolve_right fun hroot => hother hroot.1

end Warrant

/-- Quotas are where they are warranted, whatever they cache. -/
def Standard.warranted (bound : Prop) : Standard where
  since := InodeId.firstAllocated.val
  settable := True
  limits := Warrant bound
  counts := ⊤
  bare allocated :=
    .bare bound _ fun hroot => absurd (hroot ▸ allocated) (by decide)
  relimited _ := .relimited
  oneInode_mem := AddSubgroup.mem_top _
  space_mem _ _ _ := AddSubgroup.mem_top _

/-- Legal limits of which none is set lift every limit. -/
theorem Counts.Legal.eq_unlimited {limits : Counts} (legal : limits.Legal)
    (unset : limits.anyLimited ≠ true) : limits = unlimited := by
  refine ext_get fun dimension => ?_
  have hunset : ¬ 0 ≤ limits.get dimension :=
    fun h => unset ((anyLimited_iff _).2 ⟨dimension, h⟩)
  exact ((legal.proper dimension).resolve_right fun h => hunset h.1).trans
    (get_splat ..).symm

/-- Legal limits are in force once they are set, also where they leave no
quota. -/
theorem Directory.limits_withLimits (directory : Directory) {limits : Counts}
    (cached : Counts) (kept : Bool) (legal : limits.Legal) :
    (directory.withLimits limits cached kept).limits = limits := by
  rw [limits_eq, quota_withLimits]
  split
  next => rfl
  next h => exact (legal.eq_unlimited fun hset => h (.inl hset)).symm

namespace Nodes

variable {nodes : Nodes} {id : InodeId} {inode : Inode} {directory : Directory}

def limits (nodes : Nodes) (id : InodeId) : Counts :=
  ((nodes.quota id).map Quota.limits).getD Counts.unlimited

theorem limits_of_directory (live : nodes id = some inode)
    (content : inode.asDirectory = some directory) :
    nodes.limits id = directory.limits := by
  rw [limits, quota_of_live live, Inode.quota, content, Directory.limits_eq]
  rfl

theorem limits_set_same (stored : Inode)
    (h : stored.asDirectory = some directory) :
    (nodes.set id (some stored)).limits id = directory.limits := by
  refine limits_of_directory ?_ h
  rw [set_apply, if_pos rfl]

theorem limits_set_of_ne {other : InodeId} (stored : Inode) (h : other ≠ id) :
    (nodes.set id (some stored)).limits other = nodes.limits other := by
  rw [limits, limits, Nodes.quota, Nodes.quota, set_apply, if_neg h]

end Nodes

/-- A setter changes the limits of the directory that a path leads to, and of no
other. -/
theorem Work.exists_of_changeLimits {tx tx' : Transaction} {path : String}
    {edit : Edit} {liftsInodes : Bool} {change : Counts → Counts} {done : Unit}
    (ids : ∀ {id inode}, tx.tree id = some inode → inode.id = id)
    (h : changeLimits path edit liftsInodes change tx = .ok done tx') :
    ∃ chain inode directory cached, Chain.resolve tx.view path false =
        .ok chain ∧
      tx.tree chain.last = some inode ∧ inode.asDirectory = some directory ∧
      tx'.tree =
        tx.tree.set chain.last (some (inode.withDirectory (directory.withLimits
          (change directory.limits) cached (chain.last == .root)))) := by
  simp only [changeLimits, Outcome.bind_eq_ok, read_eq_ok, Outcome.throw_bind,
    Outcome.ite_eq_ok] at h
  obtain ⟨chain, _, ⟨hresolve, rfl⟩, h⟩ := h
  split at h
  next => simp at h
  simp only [Work.subtree, Work.usage, read_eq_ok, pendingFor_eq_ok,
    get_eq_ok] at h
  obtain ⟨members, _, ⟨_, rfl⟩, used, _, ⟨_, rfl⟩, pending, _, ⟨_, rfl⟩, inode,
    _, ⟨⟨_, live⟩, rfl⟩, h⟩ := h
  cases content : inode.asDirectory with
  | none => simp [content] at h
  | some directory =>
    simp only [content, Outcome.bind_eq_ok, put_eq_ok, journal_eq_ok] at h
    obtain ⟨_, _, ⟨_, rfl⟩, rfl⟩ := h
    refine ⟨chain, inode, directory, used - pending, hresolve, live, content,
      ?_⟩
    rw [Transaction.tree_journaled, Transaction.tree_stored, ← ids live]
    rfl

namespace Namespace

variable {ns ns' : Namespace} {path : String} {change : Counts → Counts}

section Placing

variable {bound : Prop} {id : InodeId}

theorem Meets.isSome_quota_root (meets : ns.Meets (.warranted bound))
    (root : ns.table.tree .root ≠ none) :
    (ns.table.tree.quota .root).isSome := by
  obtain ⟨inode, live⟩ := Option.ne_none_iff_exists'.1 root
  obtain ⟨limits, hlimits, _⟩ :=
    (meets.inode live).2.limits.atRoot (meets.inode live).1
  obtain ⟨quota, hquota, _⟩ := Option.map_eq_some_iff.1 hlimits
  rw [quota_of_live live, hquota]
  rfl

theorem Meets.isSome_quota_iff (meets : ns.Meets (.warranted bound))
    (hother : id ≠ .root) :
    (ns.table.tree.quota id).isSome ↔
      ∃ dimension, 0 ≤ (ns.table.tree.limits id).get dimension := by
  rw [Nodes.limits]
  cases h : ns.table.tree.quota id with
  | none =>
    refine ⟨fun hquota => absurd hquota Bool.false_ne_true, ?_⟩
    rintro ⟨dimension, hset⟩
    exact absurd (hset.trans_eq (Counts.get_splat ..)) (by decide)
  | some quota =>
    obtain ⟨inode, live, hquota⟩ := quota_eq_some.1 h
    have hlimits : inode.quota.map Quota.limits = some quota.limits := by
      rw [hquota]; rfl
    have hid : inode.id ≠ .root := (meets.inode live).1.symm ▸ hother
    have hset := (meets.inode live).2.limits.elsewhere hid hlimits
    exact ⟨fun _ => (Counts.anyLimited_iff _).1 hset, fun _ => rfl⟩

theorem Meets.legal_quota {quota : Quota} (meets : ns.Meets (.warranted bound))
    (h : ns.table.tree.quota id = some quota) : quota.limits.Legal := by
  obtain ⟨inode, live, hquota⟩ := quota_eq_some.1 h
  exact (meets.inode live).2.limits.legal (hquota ▸ rfl)

theorem Meets.legal_limits (meets : ns.Meets (.warranted bound))
    (id : InodeId) : (ns.table.tree.limits id).Legal := by
  rw [Nodes.limits]
  cases h : ns.table.tree.quota id with
  | none => exact Counts.legal_unlimited
  | some quota => exact meets.legal_quota h

end Placing

/-- The limits of the directory that a path leads to have been changed, and no
others. -/
def Relimits (ns : Namespace) (path : String) (change : Counts → Counts)
    (ns' : Namespace) : Prop :=
  ∃ chain, ns.table.locate path = .ok chain ∧
    (ns.table.tree.IsDirectory chain.last) ∧
    ∀ id, ns'.table.tree.limits id =
      if id = chain.last then change (ns.table.tree.limits id)
          else ns.table.tree.limits id

theorem Meets.relimits {bound : Prop} {edit : Edit} {liftsInodes : Bool}
    (meets : ns.Meets (.warranted bound)) (free : ns.locks = ∅)
    (admissible : Counts.Admissible liftsInodes change)
    (h : changeLimits path edit liftsInodes change ns = .ok () ns') :
    ns.Relimits path change ns' := by
  obtain ⟨resolved, mid, hpath, htransact⟩ := Outcome.bind_eq_ok.1 h
  obtain ⟨hresolved, hmid⟩ := resolvePath_eq_ok.1 hpath
  rw [hmid] at htransact
  obtain ⟨locks, tx, _, hwork, rfl⟩ := exists_of_transact free htransact
  have htree := @tree_opened ns .setQuota locks
  obtain ⟨chain, inode, directory, cached, hresolve, live, content, hafter⟩ :=
    Work.exists_of_changeLimits
      (fun {id inode} live => (meets.opened.inode live).1) hwork
  rw [htree] at live hafter
  have hlocate : ns.table.locate path = .ok chain := InodeTable.locate_eq_ok.2
    ⟨resolved, hresolved, Chain.resolve_unveiled veils_opened hresolve⟩
  refine ⟨chain, hlocate,
    ⟨inode, live, by rw [Inode.isDirectory, content]; rfl⟩, fun id => ?_⟩
  have ext := (Work.Frames.changeLimits _ _ _ _).extends_of_ok hwork
  rw [tree_commit ext, hafter]
  have hlimits := Nodes.limits_of_directory live content
  split
  next heq =>
    subst heq
    rw [limits_set_same _ rfl, hlimits]
    exact directory.limits_withLimits cached _
      (admissible.legal (hlimits ▸ meets.legal_limits _))
  next hne => exact limits_set_of_ne _ hne

theorem requireLegal_bind_eq_ok {α : Type} {value : Int}
    {next : Unit → Request α} {a : α} :
    (requireLegal value >>= next) ns = .ok a ns' ↔
      Limit.isLegal value = true ∧ next () ns = .ok a ns' := by
  constructor
  · intro h
    obtain ⟨done, mid, hvalue, hnext⟩ := Outcome.bind_eq_ok.1 h
    obtain ⟨legal, hmid⟩ := requireLegal_eq_ok.1 hvalue
    exact ⟨legal, hmid ▸ hnext⟩
  · rintro ⟨legal, hnext⟩
    exact Outcome.bind_eq_ok.2 ⟨(), ns, requireLegal_eq_ok.2 ⟨legal, rfl⟩,
      hnext⟩

theorem Meets.relimits_setQuota {bound : Prop} {inodes bytes : Int}
    (meets : ns.Meets (.warranted bound)) (free : ns.locks = ∅)
    (h : setQuota path inodes bytes ns = .ok () ns') :
    ns.Relimits path (Counts.setting inodes bytes) ns' := by
  obtain ⟨legal, hbytes⟩ := requireLegal_bind_eq_ok.1 h
  obtain ⟨legalBytes, hguarded⟩ := requireLegal_bind_eq_ok.1 hbytes
  rw [Outcome.throw_bind, Outcome.ite_eq_ok] at hguarded
  split at hguarded
  next => cases hguarded
  next room =>
    exact meets.relimits free
      (Counts.admissible_setting legal room legalBytes) hguarded

theorem Meets.relimits_setTypeQuota {bound : Prop} {type : StorageType}
    {limit : Int} (meets : ns.Meets (.warranted bound)) (free : ns.locks = ∅)
    (h : setTypeQuota path type limit ns = .ok () ns') :
    ns.Relimits path (Counts.settingType type limit) ns' := by
  unfold setTypeQuota at h
  rw [Outcome.throw_bind, Outcome.ite_eq_ok] at h
  split at h
  next => cases h
  next limitable =>
    obtain ⟨legal, hlimits⟩ := requireLegal_bind_eq_ok.1 h
    exact meets.relimits free
      (Counts.admissible_settingType limitable legal) hlimits

/-- The limits that a namespace has, which stay where they are as long as no
setter is called. -/
def standing (ns : Namespace) : Standard where
  since := ns.table.next.val
  settable := False
  limits id limits := id.val < ns.table.next.val →
    limits = (ns.table.tree.quota id).map Quota.limits
  counts := ⊤
  bare allocated below := absurd below (Nat.not_lt.2 allocated)
  relimited := False.elim
  oneInode_mem := AddSubgroup.mem_top _
  space_mem _ _ _ := AddSubgroup.mem_top _

theorem Sound.meets_standing (sound : ns.Sound) : ns.Meets ns.standing where
  inode {id inode} live := by
    have hid : inode.id = id := sound.books.wellFormed.ids live
    refine ⟨hid, fun _ => ?_, fun _ => AddSubgroup.mem_top _⟩
    rw [hid, quota_of_live live]
  ledger _ _ _ := AddSubgroup.mem_top _
  above := Nat.le_refl _

/-- Limits stay with an inode, wherever it is moved, until a setter is
called. -/
theorem Sound.limits_persist (sound : ns.Sound) {events : List Event}
    (quiet : ∀ event ∈ events, ¬ event.setsLimits) {id : InodeId}
    (before : ns.table.tree id ≠ none)
    (after : (ns.after (events.map Event.run)).table.tree id ≠ none) :
    ((ns.after (events.map Event.run)).table.tree.quota id).map Quota.limits =
      (ns.table.tree.quota id).map Quota.limits := by
  obtain ⟨old, live⟩ := Option.ne_none_iff_exists'.1 before
  obtain ⟨inode, hlive⟩ := Option.ne_none_iff_exists'.1 after
  have meets : (ns.after (events.map Event.run)).Meets ns.standing :=
    (lasting_meets ns.standing).after (fun event mem sets =>
      quiet event mem sets) sound.locks sound.meets_standing
  obtain ⟨hid, hmeets⟩ := meets.inode hlive
  have hlimits := hmeets.limits (hid.symm ▸ sound.books.below live)
  rwa [hid, ← quota_of_live hlive] at hlimits

/-- There are quotas where they are needed; the setters set what they are asked
to set, and nothing else does. -/
structure Warranted (ns : Namespace) : Prop where
  root : (ns.table.tree.quota .root).isSome
  elsewhere : ∀ {id}, id ≠ .root → ((ns.table.tree.quota id).isSome ↔
    ∃ dimension, 0 ≤ (ns.table.tree.limits id).get dimension)
  legal : ∀ {id quota}, ns.table.tree.quota id = some quota → quota.limits.Legal
  setQuota :
    ∀ {path inodes bytes ns'}, Namespace.setQuota path inodes bytes ns = .ok
        () ns' →
    ns.Relimits path (Counts.setting inodes bytes) ns'
  setTypeQuota :
    ∀ {path type limit ns'}, Namespace.setTypeQuota path type limit ns = .ok
        () ns' →
    ns.Relimits path (Counts.settingType type limit) ns'
  persistent : ∀ {events : List Event}, (∀ event ∈ events, ¬ event.setsLimits) →
    ∀ {id}, ns.table.tree id ≠ none →
      (ns.after (events.map Event.run)).table.tree id ≠ none →
    ((ns.after (events.map Event.run)).table.tree.quota id).map Quota.limits =
      (ns.table.tree.quota id).map Quota.limits
  lasting : (ns.table.tree.limits .root).inodes ≠ Limit.none →
    ∀ later : List Event,
    ((ns.after (later.map Event.run)).table.tree.limits .root).inodes ≠
      Limit.none

namespace Meets

/-- Once the root has a limit on inodes, it is held to having one. -/
theorem bind_root (meets : ns.Meets (.warranted False))
    (limited : (ns.table.tree.limits .root).inodes ≠ Limit.none) :
    ns.Meets (.warranted True) where
  inode {id inode} live := by
    have warrant := (meets.inode live).2.limits
    refine ⟨(meets.inode live).1,
      ⟨warrant.legal, fun hroot => ?_, warrant.elsewhere⟩,
      fun _ => AddSubgroup.mem_top _⟩
    obtain ⟨limits, hlimits, _⟩ := warrant.atRoot hroot
    refine ⟨limits, hlimits, fun _ => ?_⟩
    obtain rfl : id = .root := (meets.inode live).1.symm.trans hroot
    rwa [Nodes.limits, quota_of_live live, hlimits] at limited
  ledger _ _ _ := AddSubgroup.mem_top _
  above := meets.above

theorem room_of_root (meets : ns.Meets (.warranted True))
    (root : ns.table.tree .root ≠ none) :
    (ns.table.tree.limits .root).inodes ≠ Limit.none := by
  obtain ⟨inode, live⟩ := Option.ne_none_iff_exists'.1 root
  obtain ⟨limits, hlimits, kept⟩ :=
    (meets.inode live).2.limits.atRoot (meets.inode live).1
  rw [Nodes.limits, quota_of_live live, hlimits]
  exact kept trivial

end Meets

/-- In every namespace that can come about, quotas are where they are needed. -/
theorem warranted_after (config : Config) (events : List Event) :
    ((fresh config).after (events.map Event.run)).Warranted := by
  have alive (events : List Event) :
      ((fresh config).after (events.map Event.run)).table.tree .root ≠
        none := by
    obtain ⟨inode, live, _⟩ :=
      ((sound_fresh config).after events).books.wellFormed.root
    exact Option.ne_none_iff_exists'.2 ⟨inode, live⟩
  have sound := (sound_fresh config).after events
  have root : (Standard.warranted False).limits .root (some Counts.unlimited) :=
    ⟨fun h => Option.some.inj h ▸ Counts.legal_unlimited,
      fun _ => ⟨_, rfl, False.elim⟩, fun h => absurd rfl h⟩
  have meets := (meets_fresh config (Nat.le_refl _) root).after trivial
    (sound_fresh config).locks events
  constructor
  case root => exact meets.isSome_quota_root (alive events)
  case elsewhere => exact meets.isSome_quota_iff
  case legal => exact meets.legal_quota
  case setQuota => exact meets.relimits_setQuota sound.locks
  case setTypeQuota => exact meets.relimits_setTypeQuota sound.locks
  case persistent => exact sound.limits_persist
  case lasting =>
    intro limited later
    have hbound := (meets.bind_root limited).after trivial sound.locks later
    refine hbound.room_of_root ?_
    have := alive (events ++ later)
    rwa [List.map_append, after_append] at this

/-- A run that sets limits and resets them one after the other, before and after
its directory is moved, and again by edits; the root is refused the reset that
would lift its limit on inodes. -/
def resettingRun : List Event :=
  [.call (.setQuota "/" 100 Limit.keep), .call (.mkdirs "/d/q" {}),
    .call (.setQuota "/d/q" 10 1024), .call (.setTypeQuota "/d/q" .ssd 0),
    .call (.setQuota "/d/q" Limit.keep Limit.none), .call (.rename "/d/q" "/q"),
    .call (.setQuota "/q" Limit.none Limit.keep),
    .call (.setQuota "/" Limit.none 5), .call (.setQuota "/d" Limit.keep 7),
    .apply (.setQuota "/d" Limit.keep Limit.none),
    .call (.setTypeQuota "/d" .ramDisk 7)]

theorem warranted_after_resettingRun :
    let ns := (fresh {}).after (resettingRun.map Event.run)
    let reset := ns.after [setTypeQuota "/q" .ssd Limit.none]
    (ns.table.tree.quota .root).map Quota.limits =
      some { Counts.unlimited with inodes := 100 } ∧
      (ns.table.tree.quota ⟨3⟩).map Quota.limits =
        some { Counts.unlimited with ssd := 0 } ∧
      ns.table.tree.quota ⟨2⟩ = none ∧ reset.table.tree.quota ⟨3⟩ = none ∧
      ns.Warranted :=
  ⟨by decide +kernel, by decide +kernel, by decide +kernel, by decide +kernel,
    warranted_after _ resettingRun⟩

end Namespace

end QuotaTree
