/-
What deleting leaves of a transaction: nothing of the subtree is there any more,
what was pending in it is withdrawn, and nothing is entered but for the
directory that has lost the name.
-/
import QuotaTree.Proofs.Work.Prune

namespace QuotaTree

open Nodes

namespace Nodes.Clears

variable {nodes after : Nodes} {top x parent : InodeId} {inode holder : Inode}
  {name : Name}

/-- What is left of a subtree still hangs from its top. -/
theorem under_of_live (clears : nodes.Clears after top) (wf : nodes.WellFormed)
    (wf' : after.WellFormed) (h : nodes.Under top x)
    (live : after x = some inode) : after.Under top x := by
  -- up the old links, of which each is also a new one
  induction h
    using Relation.ReflTransGen.head_induction_on generalizing inode with
  | refl => exact .refl after top
  | @head x above hlink _ ih =>
    have hne : x ≠ .root := by
      rintro rfl
      exact wf.root_no_parent above hlink
    obtain ⟨parent, holder, hparent, hholder, _⟩ := wf'.entry live hne
    have hlink' : after.HasParent x parent := ⟨inode, live, hparent⟩
    obtain rfl : parent = above := (clears.links x parent hlink').unique hlink
    exact (ih hholder).trans (.of_parent hlink')

/-- When the top has no entries any more, nothing else is left of the
subtree. -/
theorem dead_of_under (clears : nodes.Clears after top) (wf : nodes.WellFormed)
    (wf' : after.WellFormed) (live : nodes top = some inode)
    (leaf : ∀ name, after.entryAt top name = none) (h : nodes.Under top x)
    (hne : x ≠ top) : after x = none := by
  obtain ⟨new, hnew, _⟩ := clears.top live
  cases hx : after x with
  | none => rfl
  | some found =>
    have hunder := clears.under_of_live wf wf' h hx
    have hleaf (name : Name) : new.child? name = none :=
      (entryAt_of_live hnew name).symm.trans (leaf name)
    exact absurd ((wf'.under_iff_of_no_child hnew hleaf).1 hunder) hne

/-- A subtree that is cleared below its top is pruned when the top is taken out
too. -/
theorem pruning (clears : nodes.Clears after top) (wf : nodes.WellFormed)
    (wf' : after.WellFormed) (live : nodes top = some inode)
    (leaf : ∀ name, after.entryAt top name = none)
    (holds : nodes parent = some holder)
    (child : holder.child? name = some top) :
    nodes.Pruning (fun x => if x = top then none
      else after.set parent (some (holder.withoutChild name)) x) parent top name
      (holder.withoutChild name) where
  listed := ⟨holder, holds, child, Inode.loses_withoutChild holder name⟩
  gone {x} hx := by
    split
    · rfl
    next hne =>
      have hparent : x ≠ parent := by
        rintro rfl
        exact wf.not_under_parent (wf.hasParent_of_child holds child) hx
      rw [set_of_ne _ hparent]
      exact clears.dead_of_under wf wf' live leaf hx hne
  kept {x} hx := by
    have hne : x ≠ top := by
      rintro rfl
      exact hx (.refl _ _)
    rw [if_neg hne, set_apply, set_apply, clears.outside x hx]

end Nodes.Clears

/-- A directory has lost a name. -/
def Nodes.LosesName (nodes after : Nodes) (x : InodeId) : Prop :=
  ∃ name, (nodes.entryAt x name).isSome ∧ after.entryAt x name = none

namespace Transaction

/-- What was pending for inodes that are gone has been withdrawn, and what has
been entered since is pending at directories that have lost a name. -/
structure Sweeps (before after : Transaction) : Prop where
  base : after.base = before.base
  edits : after.edits = before.edits
  dead : ∀ {x}, before.tree x = none → after.tree x = none
  thins : ∀ {x name}, before.tree.entryAt x name = none →
    after.tree.entryAt x name = none
  withdrawn : ∀ x, x ∈ after.withdrawn ↔
    x ∈ before.withdrawn ∨ (before.tree x).isSome ∧ after.tree x = none
  entered : ∀ update ∈ after.updates,
    update ∈ before.updates ∨ before.tree.LosesName after.tree update.1
  kept : ∀ update ∈ after.updates, (before.tree update.1).isSome →
    (after.tree update.1).isSome

namespace Sweeps

variable {first second third : Transaction}

theorem refl (tx : Transaction) : tx.Sweeps tx where
  base := rfl
  edits := rfl
  dead := id
  thins := id
  withdrawn x := by
    cases tx.tree x <;> simp
  entered _ h := .inl h
  kept _ _ h := h

theorem trans (early : first.Sweeps second) (late : second.Sweeps third) :
    first.Sweeps third where
  base := late.base.trans early.base
  edits := late.edits.trans early.edits
  dead := late.dead ∘ early.dead
  thins := late.thins ∘ early.thins
  withdrawn x := by
    rw [late.withdrawn, early.withdrawn, or_assoc]
    refine or_congr_right ?_
    have hearly := @early.dead x
    have hlate := @late.dead x
    cases hfirst : first.tree x <;> cases hsecond : second.tree x <;> simp_all
  entered update h := by
    rcases late.entered update h with hold | ⟨name, hentry, hgone⟩
    · refine (early.entered update hold).imp_right ?_
      rintro ⟨name, hentry, hgone⟩
      exact ⟨name, hentry, late.thins hgone⟩
    · refine .inr ⟨name, Option.isSome_iff_ne_none.2 fun hnone => ?_, hgone⟩
      rw [early.thins hnone] at hentry
      cases hentry
  kept update h live := by
    refine late.kept update h ?_
    rcases late.entered update h with hold | ⟨name, hentry, _⟩
    · exact early.kept update hold live
    · obtain ⟨id, hentry⟩ := Option.isSome_iff_exists.1 hentry
      obtain ⟨holder, hholder, _⟩ := entryAt_eq_some.1 hentry
      exact Option.isSome_iff_exists.2 ⟨holder, hholder⟩

end Sweeps

variable {tx : Transaction} {holder : Inode} {parent id : InodeId} {name : Name}
  {ids : List InodeId} {used : Counts}

/-- What is pending after inodes are taken out is for none of them; what is new
is for the directory that loses the name. -/
theorem mem_updates_unlinked {update : InodeId × Counts}
    (h : update ∈ (tx.unlinked holder parent name ids used).updates) :
    update.1 ∉ ids ∧ (update ∈ tx.updates ∨ update.1 = parent) := by
  obtain ⟨hmem, hnot⟩ := List.mem_filter.1 h
  refine ⟨of_decide_eq_true hnot, ?_⟩
  change update ∈ (tx.accounted parent (tx.pendingFor ids - used)).updates
    at hmem
  rw [accounted_updates] at hmem
  split at hmem
  · refine (List.mem_append.1 hmem).imp_right fun hlast => ?_
    rw [List.mem_singleton.1 hlast]
  · exact .inl hmem

/-- Inodes are taken out with one name, and what is pending for them with
them. -/
theorem sweeps_unlinked (hid : holder.id = parent)
    (holds : tx.tree parent = some holder)
    (child : holder.child? name = some id) (outside : parent ∉ ids)
    (live : ∀ x ∈ ids, (tx.tree x).isSome) :
    tx.Sweeps (tx.unlinked holder parent name ids used) := by
  have htree (x : InodeId) : (tx.unlinked holder parent name ids used).tree x =
      if x ∈ ids then
        none else tx.tree.set parent (some (holder.withoutChild name)) x :=
    congrFun (tree_unlinked hid) x
  have hparent : (tx.unlinked holder parent name ids used).tree parent =
      some (holder.withoutChild name) := by
    rw [htree, if_neg outside, set_self]
  have hother {x : InodeId} (hne : x ≠ parent) :
      (tx.unlinked holder parent name ids used).tree x = if x ∈ ids then
        none else tx.tree x := by
    rw [htree, set_of_ne _ hne]
  have loses := Inode.loses_withoutChild holder name
  constructor
  case base => rfl
  case edits => rfl
  case dead =>
    intro x hx
    have hne : x ≠ parent := by
      rintro rfl
      rw [holds] at hx
      cases hx
    rw [hother hne, hx, ite_self]
  case thins =>
    intro x other hx
    by_cases hne : x = parent
    · subst hne
      rw [entryAt_of_live hparent, loses.child]
      rw [entryAt_of_live holds] at hx
      rw [hx, ite_self]
    · rw [entryAt, hother hne]
      split
      · rfl
      · exact hx
  case withdrawn =>
    intro x
    change x ∈ tx.withdrawn ++ ids ↔ _
    rw [List.mem_append]
    refine or_congr_right ?_
    by_cases hne : x = parent
    · subst hne
      simp [outside, hparent]
    · rw [hother hne]
      by_cases hmem : x ∈ ids
      · simp [hmem, live x hmem]
      · cases htx : tx.tree x <;> simp [hmem]
  case entered =>
    intro update h
    refine (mem_updates_unlinked h).2.imp_right fun heq => ⟨name, ?_, ?_⟩
    · rw [heq, entryAt_of_live holds, child]
      rfl
    · rw [heq, entryAt_of_live hparent, loses.child, if_pos rfl]
  case kept =>
    intro update h hlive
    by_cases hne : update.1 = parent
    · rw [hne, hparent]
      rfl
    · rwa [hother hne, if_neg (mem_updates_unlinked h).1]

end Transaction

namespace Work

open Transaction

variable {tx tx' : Transaction} {parent : Chain} {name : Name} {inode : Inode}
  {id : InodeId} {blocks : List Block} {path : String} {recursive : Bool}

theorem sweeps_unlinkLeaf (ready : tx.Ready)
    (entry : tx.tree.entryAt parent.last name = some id)
    (h : unlinkLeaf (parent.child name id) tx = .ok inode tx') :
    tx.Sweeps tx' := by
  obtain ⟨⟨live, _, _, _, _⟩, holder, opened, rfl⟩ := unlinkLeaf_eq_ok.1 h
  have wf := ready.wellFormed
  rw [entryAt_of_live opened.live] at entry
  have hlink := wf.hasParent_of_child opened.live entry
  refine sweeps_unlinked (wf.ids opened.live) opened.live entry ?_ ?_
  · rw [List.mem_singleton]
    intro heq
    exact wf.not_under_parent hlink (heq ▸ .refl _ _)
  · intro x hx
    rw [List.mem_singleton.1 hx, live]
    rfl

theorem Strips.sweeps (strips : Strips tx tx' blocks) (ready : tx.Ready) :
    tx.Sweeps tx' := by
  induction strips with
  | refl => exact .refl tx
  | leaf early entry h ih =>
    exact ih.trans (sweeps_unlinkLeaf ((early.turns ready).ready ready) entry h)

/-- An inode with entries is not deleted by itself. -/
theorem deleteTree_of_entries (allows : tx.Allows id .read)
    (live : tx.tree id = some inode) (entries : inode.entries ≠ []) :
    deleteTree (parent.child name id) path false tx =
      .error (.directoryNotEmpty path) tx := by
  have hlength : ¬ (parent.child name id).length = 1 := by
    rw [Chain.length_eq_one_iff]
    exact nofun
  have hget : get (parent.child name id).last tx = .ok inode tx :=
    get_eq_ok.2 ⟨⟨allows, live⟩, rfl⟩
  simp only [deleteTree, hlength, if_false, Outcome.bind_of_ok hget, ne_eq,
    entries, not_false_eq_true, and_self, if_true]
  rfl

/-- What deleting does to a transaction. -/
structure Deletes (tx tx' : Transaction) (parent : InodeId) (name : Name)
    (id : InodeId) : Prop where
  pruning : ∃ holder, tx.tree parent = some holder ∧
    tx.tree.Pruning tx'.tree parent id name (holder.withoutChild name)
  sweeps : tx.Sweeps tx'

theorem deletes_deleteTree (ready : tx.Ready)
    (leads : Chain.Leads tx.tree (parent.child name id))
    (h : deleteTree (parent.child name id) path recursive tx = .ok blocks tx') :
    ∃ last, Deletes tx last parent.last name id ∧
      tx' = last.journaled (.delete path recursive) := by
  obtain ⟨inode, below, mid, used, last, ⟨_, live⟩, _, hprune, hunlink, _,
    rfl⟩ := deleteTree_eq_ok.1 h
  have wf := ready.wellFormed
  have hout := wf.not_under_parent (leads.link wf)
  obtain ⟨_, hprunes, hleaf⟩ := prunes_prune ready hprune
  rw [Chain.last_child] at hprunes hleaf
  have hready := (hprunes.strips.turns ready).ready ready
  have wf' := hready.wellFormed
  obtain ⟨holder, ids, unlinks, rfl⟩ := unlink_eq_ok.1 hunlink
  obtain ⟨top, htop, _⟩ := hprunes.clears.top live
  -- nothing but the top itself is left to be taken out
  have hmem (x : InodeId) : x ∈ ids ↔ x = id := by
    rw [hready.reads.mem_subtree wf' unlinks.subtree,
      wf'.under_iff_of_no_child htop fun other => ?_]
    rw [← entryAt_of_live htop, hleaf]
  have hid := wf'.ids unlinks.opened.live
  have holds : tx.tree parent.last = some holder :=
    (hprunes.clears.outside _ hout).symm.trans unlinks.opened.live
  cases leads with
  | child above entry =>
    rw [entryAt_of_live holds] at entry
    have htree : (mid.unlinked holder parent.last name ids used).tree = fun x =>
        if x = id then none else mid.tree.set parent.last
            (some (holder.withoutChild name)) x := by
      rw [tree_unlinked hid]
      simp only [hmem]
    have hsweeps :
        mid.Sweeps (mid.unlinked holder parent.last name ids used) := by
      refine sweeps_unlinked hid unlinks.opened.live entry ?_ fun x hx => ?_
      · rw [hmem]
        rintro rfl
        exact hout (.refl _ _)
      · rw [(hmem x).1 hx, htop]
        rfl
    refine ⟨_,
      ⟨⟨holder, holds, ?_⟩, (hprunes.strips.sweeps ready).trans hsweeps⟩, rfl⟩
    rw [htree]
    exact hprunes.clears.pruning wf wf' live hleaf holds entry

end Work

end QuotaTree
