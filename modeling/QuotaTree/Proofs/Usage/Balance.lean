/-
Every change keeps the books sound, and balanced as long as quotas are kept.
What is settled in the subtree of a directory stays, until what is cached is
brought up to date.
-/
import QuotaTree.Proofs.Usage.Spans

namespace QuotaTree

open Nodes

namespace Books

variable {books : Books} {top : InodeId} {total : Counts}

/-- What is settled in the subtree of an inode, taken together. -/
def Sums (books : Books) (top : InodeId) (total : Counts) : Prop :=
  ∃ ids, books.nodes.Spans top ids ∧ ∑ x ∈ ids, books.settled x = total

theorem Balanced.cached_eq (balanced : books.Balanced) {quota : Quota}
    (hquota : books.nodes.quota top = some quota)
    (sums : books.Sums top total) : quota.cached = total := by
  obtain ⟨ids, spans, rfl⟩ := sums
  exact balanced hquota spans

/-- Quotas and policies are set in sound books. -/
theorem Sound.recast {after : Nodes} {pending : InodeId → Counts}
    (sound : books.Sound) (recast : books.nodes.Recast after)
    (dead : ∀ {id}, books.nodes id = none → pending id = 0) :
    Books.Sound { books with nodes := after, pending } where
  wellFormed := recast.alike.wellFormed sound.wellFormed
  named h := sound.named ((recast.alike.entryAt _ _).symm.trans h)
  unreserved := (recast.alike.entryAt _ _).trans sound.unreserved
  below live := by
    obtain ⟨old, hold, _⟩ := recast.alike.symm.live live
    exact sound.below hold
  bounded := sound.bounded
  pending h := dead (recast.alike.symm.dead h)

end Books

namespace Change

variable {keeps : Bool} {books after : Books} {top : InodeId} {total : Counts}

theorem wellFormed (change : Change keeps books after)
    (wf : books.nodes.WellFormed) : after.nodes.WellFormed := by
  cases change with
  | skip => exact wf
  | adjust recast => exact recast.alike.wellFormed wf
  | link ins => exact ins.wellFormed wf
  | prune pruning => exact pruning.wellFormed wf
  | relocate rel => exact rel.wellFormed wf

theorem unreserved (change : Change keeps books after) (sound : books.Sound) :
    after.nodes.entryAt .root (Name.ofText reservedName) = none := by
  cases change with
  | skip => exact sound.unreserved
  | adjust recast => exact (recast.alike.entryAt _ _).trans sound.unreserved
  | @link parent id _ name _ _ ins _ unreserved =>
    have hnot : ¬ (InodeId.root = parent ∧ Name.ofText reservedName = name) :=
      fun ⟨hroot, hname⟩ => unreserved hroot.symm hname.symm
    exact (ins.entryAt _ _).trans (by rw [if_neg hnot]; exact sound.unreserved)
  | @prune parent id _ _ after _ pruning =>
    obtain ⟨root, hroot, _⟩ := sound.wellFormed.root
    have hkept : ¬ books.nodes.Under id .root := by
      intro h
      rw [under_of_no_parent sound.wellFormed.root_no_parent] at h
      exact sound.wellFormed.root_no_parent parent
        (h ▸ pruning.link sound.wellFormed)
    refine (pruning.entryAt_of_kept _ _ hkept).trans ?_
    split
    · rfl
    · exact sound.unreserved
  | @relocate parent target id name entry _ _ _ _ rel _ unreserved =>
    have hnot : ¬ (InodeId.root = target ∧ Name.ofText reservedName = entry) :=
      fun ⟨hroot, hname⟩ => unreserved hroot.symm hname.symm
    refine (rel.entryAt sound.wellFormed _ _).trans ?_
    rw [if_neg hnot]
    split
    · rfl
    · exact sound.unreserved

/-- An entry that is there after a change has the name of one that was there, or
was entered under a proper name. -/
theorem named (change : Change keeps books after) (sound : books.Sound)
    {parent id : InodeId} {name : Name}
    (h : after.nodes.entryAt parent name = some id) : name.Proper := by
  cases change with
  | skip => exact sound.named h
  | adjust recast => exact sound.named ((recast.alike.entryAt _ _).symm.trans h)
  | link ins proper =>
    have hentry := (ins.entryAt _ _).symm.trans h
    split at hentry
    next hsame => exact hsame.2 ▸ proper
    next => exact sound.named hentry
  | @prune _ top _ _ after _ pruning =>
    change after.entryAt parent name = some id at h
    by_cases hunder : books.nodes.Under top parent
    · rw [Nodes.entryAt, pruning.gone hunder] at h
      cases h
    · have hentry := (pruning.entryAt_of_kept _ _ hunder).symm.trans h
      split at hentry
      next => cases hentry
      next => exact sound.named hentry
  | relocate rel proper =>
    have hentry := (rel.entryAt sound.wellFormed _ _).symm.trans h
    split at hentry
    next hsame => exact hsame.2 ▸ proper
    next =>
      split at hentry
      next => cases hentry
      next => exact sound.named hentry

theorem bounded (change : Change keeps books after) (sound : books.Sound) :
    after.next.val ≤ InodeId.maxVal := by
  cases change with
  | skip _ bounded => exact bounded sound.bounded
  | link _ _ _ _ _ _ bounded => exact bounded
  | _ => exact sound.bounded

theorem next_le (change : Change keeps books after) :
    books.next.val ≤ after.next.val := by
  cases change with
  | skip le => exact le
  | link _ _ _ _ unused below => exact Nat.le_trans unused (Nat.le_of_lt below)
  | _ => exact Nat.le_refl _

theorem below (change : Change keeps books after) (sound : books.Sound)
    {id : InodeId} {inode : Inode} (live : after.nodes id = some inode) :
    id.val < after.next.val := by
  cases change with
  | skip le => exact Nat.lt_of_lt_of_le (sound.below live) le
  | adjust recast =>
    obtain ⟨old, hold, _⟩ := recast.alike.symm.live live
    exact sound.below hold
  | link ins _ _ _ unused below =>
    rcases ins.live live with ⟨rfl, _⟩ | ⟨_, old, hold, _⟩
    · exact below
    · exact Nat.lt_trans (Nat.lt_of_lt_of_le (sound.below hold) unused) below
  | prune pruning =>
    obtain ⟨_, old, hold, _⟩ := pruning.live live
    exact sound.below hold
  | relocate rel =>
    obtain ⟨old, hold, _⟩ := rel.live_old live
    exact sound.below hold

theorem charge_of_ne {pending : InodeId → Counts} {id x : InodeId}
    {delta : Counts} (h : x ≠ id) :
    Books.charge pending keeps id delta x = pending x := by
  simp [Books.charge, h]

/-- Nothing comes to be pending for an inode that is not there. -/
theorem pending_of_dead (change : Change keeps books after)
    (sound : books.Sound) {id : InodeId} (dead : after.nodes id = none) :
    after.pending id = 0 := by
  cases change with
  | skip => exact sound.pending dead
  | adjust recast => exact sound.pending (recast.alike.symm.dead dead)
  | @link parent new _ _ _ _ ins =>
    obtain ⟨holder, hholder, _⟩ := ins.entered
    have hne : id ≠ new := by
      rintro rfl
      exact Option.some_ne_none _ (Insertion.insert_self.symm.trans dead)
    have hne' : id ≠ parent := by
      rintro rfl
      exact Option.some_ne_none _ (ins.insert_parent.symm.trans dead)
    exact (charge_of_ne hne').trans
      (sound.pending ((Insertion.insert_of_ne hne hne').symm.trans dead))
  | @prune parent top _ lost after ids pruning spans =>
    change (if id ∈ ids then _ else _) = _
    split
    next => rfl
    next h =>
      have hkept := pruning.kept fun hunder => h ((spans id).2 hunder)
      rw [show after id = none from dead, set_apply] at hkept
      split at hkept
      next => cases hkept
      next hne => exact (charge_of_ne hne).trans (sound.pending hkept.symm)
  | @relocate parent target moving _ _ _ _ _ _ rel =>
    obtain ⟨holder, hholder, _⟩ := rel.listed
    have hdead : Nodes.relocate books.nodes _ _ _ _ _ _ id = none := dead
    rw [Nodes.relocate, set_apply, set_apply, set_apply] at hdead
    split at hdead
    next => cases hdead
    next =>
      split at hdead
      next => cases hdead
      next htarget =>
        split at hdead
        next => cases hdead
        next hparent =>
          exact (charge_of_ne htarget).trans
            ((charge_of_ne hparent).trans (sound.pending hdead))

theorem sound (change : Change keeps books after) (sound : books.Sound) :
    after.Sound where
  wellFormed := change.wellFormed sound.wellFormed
  named := change.named sound
  unreserved := change.unreserved sound
  below := change.below sound
  bounded := change.bounded sound
  pending := change.pending_of_dead sound

section Balanced

theorem charge_true (pending : InodeId → Counts) (id : InodeId) (delta : Counts)
    (x : InodeId) :
    Books.charge pending true id delta x = pending x + if x = id then
      delta else 0 := by
  simp [Books.charge]

/-- A shift of usage at one inode counts in the sums over the sets that it is
in. -/
theorem sum_add_ite (ids : Finset InodeId) (f : InodeId → Counts) (id : InodeId)
    (delta : Counts) :
    ∑ x ∈ ids, (f x + if x = id then delta else 0) = ∑ x ∈ ids, f x + if id ∈
      ids then delta else 0 := by
  rw [Finset.sum_add_distrib, Finset.sum_ite_eq']

theorem sums_adjust {after : Nodes} (recast : books.nodes.Recast after)
    (sums : Books.Sums { books with nodes := after } top total) :
    books.Sums top total := by
  obtain ⟨ids, spans, rfl⟩ := sums
  have hsettled (x : InodeId) :
      Books.settled { books with nodes := after } x = books.settled x := by
    rw [Books.settled, Books.settled, recast.own]
  exact ⟨ids, fun x => (spans x).trans (recast.alike.under top x),
    (Finset.sum_congr rfl fun x _ => hsettled x).symm⟩

theorem balanced_adjust {id : InodeId} {after : Nodes}
    (recast : books.nodes.Recast after)
    (others : ∀ x, x ≠ id → after.quota x = books.nodes.quota x)
    (seeds : books.Seeds id (books.nodes.quota id) (after.quota id))
    (balanced : books.Balanced) :
    Books.Balanced { books with nodes := after } := by
  intro top quota ids hquota spans
  have sums := sums_adjust recast ⟨ids, spans, rfl⟩
  by_cases htop : top = id
  · subst htop
    rcases seeds quota hquota with ⟨before, hbefore, hcached⟩ |
      ⟨others, hothers, hcached⟩
    · rw [hcached]
      exact balanced.cached_eq hbefore sums
    · obtain ⟨olds, holds, hsum⟩ := sums
      rw [hcached, hothers.unique holds, hsum]
  · exact balanced.cached_eq ((others top htop).symm.trans hquota) sums

theorem own_insert {parent id : InodeId} {name : Name} {gained new : Inode}
    {nodes : Nodes} (ins : nodes.Insertion parent id name gained new)
    (x : InodeId) :
    (nodes.insert parent id gained new).own x = nodes.own x + if x = id then
      new.ownUsage else 0 := by
  by_cases h : x = id
  · subst h
    have hdead : nodes.own x = 0 := own_of_dead ins.fresh
    rw [own_of_live Insertion.insert_self, hdead, if_pos rfl, Counts.zero_add]
  · rw [if_neg h, Counts.add_zero]
    by_cases hp : x = parent
    · subst hp
      obtain ⟨holder, hholder, _, gains⟩ := ins.entered
      rw [own_of_live ins.insert_parent, own_of_live hholder,
        gains.toSameUse.ownUsage]
    · rw [Nodes.own, Insertion.insert_of_ne h hp, Nodes.own]

theorem quota_insert {parent id : InodeId} {name : Name} {gained new : Inode}
    {nodes : Nodes} (ins : nodes.Insertion parent id name gained new)
    {x : InodeId} (h : x ≠ id) :
    (nodes.insert parent id gained new).quota x = nodes.quota x := by
  by_cases hp : x = parent
  · subst hp
    obtain ⟨holder, hholder, _, gains⟩ := ins.entered
    rw [quota_of_live ins.insert_parent, quota_of_live hholder, gains.quota]
  · rw [Nodes.quota, Insertion.insert_of_ne h hp, Nodes.quota]

section Link

variable {parent id next : InodeId} {name : Name} {gained new : Inode}
  (ins : books.nodes.Insertion parent id name gained new) (sound : books.Sound)

include ins sound

omit sound in
theorem settled_link (x : InodeId) :
    Books.settled
      { nodes := books.nodes.insert parent id gained new
        pending := Books.charge books.pending true parent new.ownUsage
        next } x =
      books.settled x + (if x = id then new.ownUsage else 0) +
        if x = parent then -new.ownUsage else 0 := by
  simp only [Books.settled, own_insert ins, charge_true]
  split <;> split <;> abel

theorem settled_unlinked : books.settled id = 0 := by
  rw [Books.settled, sound.pending ins.fresh, Nodes.own, ins.fresh]
  rfl

/-- A new inode's usage is pending at its parent, so nothing is settled anew
above. -/
theorem sums_link (hne : top ≠ id)
    (sums : Books.Sums
      { nodes := books.nodes.insert parent id gained new
        pending := Books.charge books.pending true parent new.ownUsage
        next } top total) :
    books.Sums top total := by
  obtain ⟨ids, spans, rfl⟩ := sums
  refine ⟨ids.erase id, ins.spans_erase sound.wellFormed hne spans, ?_⟩
  rw [Finset.sum_congr rfl fun x _ => settled_link ins x, sum_add_ite,
    sum_add_ite, Finset.sum_erase _ (settled_unlinked ins sound)]
  have hiff := ins.mem_spans_iff sound.wellFormed hne spans
  by_cases h : parent ∈ ids <;> simp [h, hiff]

/-- At the new inode its own usage is settled. -/
theorem sums_linked
    (sums : Books.Sums
      { nodes := books.nodes.insert parent id gained new
        pending := Books.charge books.pending true parent new.ownUsage
        next } id total) :
    total = new.ownUsage := by
  obtain ⟨ids, spans, rfl⟩ := sums
  rw [ins.spans_self sound.wellFormed spans, Finset.sum_singleton,
    settled_link ins, settled_unlinked ins sound, if_pos rfl,
    if_neg ins.parent_ne.symm, Counts.zero_add, Counts.add_zero]

theorem balanced_link (unlimited : new.quota = none)
    (balanced : books.Balanced) :
    Books.Balanced
      { nodes := books.nodes.insert parent id gained new
        pending := Books.charge books.pending true parent new.ownUsage
        next } := by
  intro top quota ids hquota spans
  have hne : top ≠ id := by
    rintro rfl
    have hnone :
        (books.nodes.insert parent top gained new).quota top = none := by
      rw [quota_of_live Insertion.insert_self, unlimited]
    exact Option.some_ne_none _ (hquota.symm.trans hnone)
  exact balanced.cached_eq ((quota_insert ins hne).symm.trans hquota)
    (sums_link ins sound hne ⟨ids, spans, rfl⟩)

end Link

theorem own_prune {parent id : InodeId} {name : Name} {lost : Inode}
    {nodes after : Nodes} (pruning : nodes.Pruning after parent id name lost)
    {x : InodeId} (h : ¬ nodes.Under id x) : after.own x = nodes.own x := by
  by_cases hp : x = parent
  · subst hp
    obtain ⟨holder, hholder, _, loses⟩ := pruning.listed
    have hlost : after x = some lost := (pruning.kept h).trans (set_self ..)
    rw [own_of_live hlost, own_of_live hholder, loses.toSameUse.ownUsage]
  · rw [Nodes.own, pruning.kept h, set_of_ne _ hp, Nodes.own]

section Prune

variable {parent id : InodeId} {name : Name} {lost : Inode} {after : Nodes}
  {gone : Finset InodeId}
  (pruning : books.nodes.Pruning after parent id name lost)
  (hgone : books.nodes.Spans id gone) (sound : books.Sound)

include pruning hgone sound

/-- What is taken out takes its settled usage along, which its parent answers
for. -/
theorem sums_prune (hkept : ¬ books.nodes.Under id top)
    (sums : Books.Sums
      { books with
        nodes := after
        pending := fun x =>
          if x ∈ gone then 0
          else Books.charge books.pending true parent
            (-∑ x ∈ gone, books.settled x) x } top total) :
    books.Sums top total := by
  obtain ⟨ids, spans, rfl⟩ := sums
  have hdisjoint := pruning.disjoint_spans hgone hkept spans
  have hsettled (x : InodeId) (hx : x ∈ ids) : Books.settled
      { books with
        nodes := after
        pending := fun x =>
          if x ∈ gone then 0
          else Books.charge books.pending true parent
            (-∑ x ∈ gone, books.settled x) x } x =
      books.settled x + if x = parent then ∑ x ∈ gone, books.settled x
        else 0 := by
    have hout := Finset.disjoint_left.1 hdisjoint hx
    simp only [Books.settled, own_prune pruning fun h => hout ((hgone x).2 h),
      charge_true, if_neg hout]
    split <;> abel
  refine ⟨_, pruning.spans_union hgone hkept spans sound.wellFormed, ?_⟩
  rw [Finset.sum_congr rfl hsettled, sum_add_ite]
  by_cases h : parent ∈ ids
  · rw [if_pos h, if_pos h, Finset.sum_union hdisjoint]
  · rw [if_neg h, if_neg h, Finset.union_empty, Counts.add_zero]

theorem balanced_prune (balanced : books.Balanced) :
    Books.Balanced
      { books with
        nodes := after
        pending := fun x =>
          if x ∈ gone then 0
          else Books.charge books.pending true parent
            (-∑ x ∈ gone, books.settled x) x } := by
  intro top quota ids hquota spans
  obtain ⟨found, hfound, hquota⟩ := quota_eq_some.1 hquota
  obtain ⟨hkept, old, hold, same⟩ := pruning.live hfound
  have hquota : books.nodes.quota top = some quota := by
    rw [quota_of_live hold, ← same.quota, hquota]
  exact balanced.cached_eq hquota
    (sums_prune pruning hgone sound hkept ⟨ids, spans, rfl⟩)

end Prune

section Relocate

variable {parent target id : InodeId} {name entry : Name}
  {lost gained moved : Inode} {nodes : Nodes}

theorem own_relocate
    (rel : nodes.Relocation id parent target name entry lost gained moved)
    (x : InodeId) :
    (nodes.relocate id parent target lost gained moved).own x =
      nodes.own x := by
  cases hx : nodes.relocate id parent target lost gained moved x with
  | none =>
    have hdead : nodes x = none := by
      rw [Nodes.relocate, set_apply, set_apply, set_apply] at hx
      split at hx
      next => cases hx
      next =>
        split at hx
        next => cases hx
        next =>
          split at hx
          next => cases hx
          next => exact hx
    rw [own_of_dead hx, own_of_dead hdead]
  | some found =>
    rw [own_of_live hx]
    rcases rel.live hx with ⟨rfl, rfl⟩ | ⟨_, old, hold, same⟩
    · obtain ⟨inode, hinode, rfl⟩ := rel.placed
      rw [own_of_live hinode]
      rfl
    · rw [own_of_live hold, same.ownUsage]

theorem quota_relocate
    (rel : nodes.Relocation id parent target name entry lost gained moved)
    {x : InodeId} {quota : Quota}
    (h : (nodes.relocate id parent target lost gained moved).quota x =
      some quota) :
    nodes.quota x = some quota := by
  obtain ⟨found, hfound, hquota⟩ := quota_eq_some.1 h
  rcases rel.live hfound with ⟨rfl, rfl⟩ | ⟨_, old, hold, same⟩
  · obtain ⟨inode, hinode, rfl⟩ := rel.placed
    exact (quota_of_live hinode).trans hquota
  · rw [quota_of_live hold, ← same.quota, hquota]

section Sums

variable {inside : Finset InodeId}
  (rel : books.nodes.Relocation id parent target name entry lost gained moved)
  (hinside : books.nodes.Spans id inside) (sound : books.Sound)

include rel hinside sound

/-- What is moved takes its settled usage from the old parent to the new one. -/
theorem sums_relocate
    (sums : Books.Sums
      { books with
        nodes := books.nodes.relocate id parent target lost gained moved
        pending :=
          Books.charge (Books.charge books.pending true parent
            (-∑ x ∈ inside, books.settled x))
            true target (∑ x ∈ inside, books.settled x) } top total) :
              books.Sums top total := by
  obtain ⟨ids, spans, rfl⟩ := sums
  have wf := sound.wellFormed
  have hsettled (x : InodeId) : Books.settled
      { books with
        nodes := books.nodes.relocate id parent target lost gained moved
        pending :=
          Books.charge (Books.charge books.pending true parent
            (-∑ x ∈ inside, books.settled x))
            true target (∑ x ∈ inside, books.settled x) } x =
      books.settled x + (if x = parent then ∑ x ∈ inside, books.settled x
        else 0) +
        if x = target then -∑ x ∈ inside, books.settled x else 0 := by
    simp only [Books.settled, own_relocate rel, charge_true]
    split <;> split <;> abel
  rw [Finset.sum_congr rfl fun x _ => hsettled x, sum_add_ite, sum_add_ite]
  by_cases htop : books.nodes.Under id top
  · obtain ⟨hspans, hparent, htarget⟩ := rel.spans_inside wf spans htop
    refine ⟨ids, hspans, ?_⟩
    rw [if_neg hparent, if_neg htarget, Counts.add_zero, Counts.add_zero]
  · refine ⟨_, rel.spans_outside wf spans hinside htop, ?_⟩
    have hsplit : ∑ x ∈ ids, books.settled x =
        ∑ x ∈ ids \ inside, books.settled x +
          if target ∈ ids then ∑ x ∈ inside, books.settled x else 0 := by
      by_cases h : target ∈ ids
      · have hsub : inside ⊆ ids := fun x hx =>
          (rel.mem_spans_iff wf spans hinside htop hx).2 h
        rw [if_pos h, Finset.sum_sdiff hsub]
      · have hout : Disjoint ids inside :=
          Finset.disjoint_left.2 fun x hx hin =>
          h ((rel.mem_spans_iff wf spans hinside htop hin).1 hx)
        rw [if_neg h, Finset.sdiff_eq_self_of_disjoint hout, Counts.add_zero]
    have hdisjoint :
        Disjoint (ids \ inside) (if parent ∈ ids then inside else ∅) := by
      split
      · exact Finset.sdiff_disjoint
      · exact Finset.disjoint_empty_right _
    rw [Finset.sum_union hdisjoint, hsplit]
    by_cases h : parent ∈ ids <;> by_cases h' : target ∈ ids <;> simp [h, h']

theorem balanced_relocate (balanced : books.Balanced) :
    Books.Balanced
      { books with
        nodes := books.nodes.relocate id parent target lost gained moved
        pending :=
          Books.charge (Books.charge books.pending true parent
            (-∑ x ∈ inside, books.settled x))
            true target (∑ x ∈ inside, books.settled x) } :=
  fun _ _ ids hquota spans => balanced.cached_eq (quota_relocate rel hquota)
    (sums_relocate rel hinside sound ⟨ids, spans, rfl⟩)

end Sums

end Relocate

/-- While quotas are kept, balanced books stay balanced. -/
theorem balanced (change : Change true books after) (sound : books.Sound)
    (balanced : books.Balanced) : after.Balanced := by
  cases change with
  | skip => exact balanced
  | adjust recast others seeds =>
    exact balanced_adjust recast others seeds balanced
  | link ins _ _ unlimited => exact balanced_link ins sound unlimited balanced
  | prune pruning spans => exact balanced_prune pruning spans sound balanced
  | relocate rel _ _ spans => exact balanced_relocate rel spans sound balanced

end Balanced

end Change

namespace Mend

variable {books after : Books}

theorem sound (mend : Mend books after) (sound : books.Sound) :
    after.Sound := by
  cases mend with
  | absorb recast =>
    refine sound.recast recast fun hdead => ?_
    split
    · rfl
    · exact sound.pending hdead
  | recount recast => exact sound.recast recast fun _ => rfl

theorem recast (mend : Mend books after) : books.nodes.Recast after.nodes := by
  cases mend with
  | absorb recast => exact recast
  | recount recast => exact recast

theorem next_eq (mend : Mend books after) : after.next = books.next := by
  cases mend <;> rfl

theorem balanced_absorb {id : InodeId} {after : Nodes}
    (recast : books.nodes.Recast after)
    (quota : ∀ {x quota}, after.quota x = some quota →
      ∃ before, books.nodes.quota x = some before ∧
        (books.nodes.Under x id →
          quota.cached = before.cached + books.pending id) ∧
        (¬ books.nodes.Under x id → quota.cached = before.cached))
    (balanced : books.Balanced) : Books.Balanced { books with
        nodes := after
        pending := fun x => if x = id then 0 else books.pending x } := by
  intro top new ids hnew spans
  obtain ⟨before, hbefore, habove, hbeside⟩ := quota hnew
  have hspans : books.nodes.Spans top ids :=
    fun x => (spans x).trans (recast.alike.under top x)
  have hsettled (x : InodeId) : Books.settled
      { books with
        nodes := after
        pending := fun x => if x = id then 0 else books.pending x } x =
      books.settled x + if x = id then books.pending id else 0 := by
    simp only [Books.settled, recast.own]
    split
    next h =>
      subst h
      abel
    next => abel
  rw [Finset.sum_congr rfl fun x _ => hsettled x, Change.sum_add_ite]
  by_cases h : books.nodes.Under top id
  · rw [if_pos ((hspans id).2 h), habove h, balanced hbefore hspans]
  · rw [if_neg fun hmem => h ((hspans id).1 hmem), hbeside h,
      balanced hbefore hspans, Counts.add_zero]

/-- What has been brought up to date is balanced. -/
theorem balanced (mend : Mend books after) (balanced : books.Balanced) :
    after.Balanced := by
  cases mend with
  | absorb recast quota => exact balanced_absorb recast quota balanced
  | recount recast quota =>
    intro top new ids hnew spans
    rw [quota hnew fun x => (spans x).trans (recast.alike.under top x)]
    refine Finset.sum_congr rfl fun x _ => ?_
    rw [Books.settled, recast.own]
    abel

end Mend

end QuotaTree
