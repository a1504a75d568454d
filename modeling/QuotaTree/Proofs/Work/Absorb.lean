/-
Merging what is pending at inodes: every quota from an inode upwards takes in
the sum, and what was pending there is no more.
-/
import QuotaTree.Proofs.Usage.Recached
import QuotaTree.Proofs.Work.Books

namespace QuotaTree

open Nodes

namespace Transaction

/-- Inodes have been stored, and nothing else has been done. -/
def Stores (before after : Transaction) : Prop :=
  after = { before with writes := after.writes }

theorem Stores.refl (tx : Transaction) : tx.Stores tx :=
  rfl

theorem Stores.trans {first second third : Transaction}
    (early : first.Stores second) (late : second.Stores third) :
    first.Stores third := by
  unfold Stores at early late ⊢
  rw [late, early]

theorem stores_stored (tx : Transaction) (inode : Inode) :
    tx.Stores (tx.stored inode) :=
  rfl

end Transaction

namespace Work

open Transaction

variable {tx tx' : Transaction} {id : InodeId} {delta : Counts} {steps : Nat}
  {done : Unit}

/-- Every quota from an inode upwards has taken in a change. -/
structure Absorbs (tx tx' : Transaction) (id : InodeId) (delta : Counts) :
    Prop where
  stores : tx.Stores tx'
  recached : tx.tree.Recached tx'.tree
  above : ∀ x, tx.tree.Under x id →
    tx'.tree.quota x = (tx.tree.quota x).map (·.absorb delta)
  aside : ∀ x, ¬ tx.tree.Under x id → tx'.tree.quota x = tx.tree.quota x

/-- The quota of one inode takes in a change. -/
theorem quota_stored {inode : Inode} {quota : Quota} (wf : tx.tree.WellFormed)
    (live : tx.tree id = some inode) (hquota : inode.quota = some quota)
    (cached : Counts) (x : InodeId) :
    (tx.stored (inode.withQuota { quota with cached })).tree.quota x =
      if x = id then some { quota with cached } else tx.tree.quota x := by
  rw [tree_stored, Inode.id_withQuota, wf.ids live]
  by_cases h : x = id
  · subst h
    rw [quota_of_live (set_self ..), if_pos rfl, Inode.quota_withQuota hquota]
  · rw [Nodes.quota, set_of_ne _ h, if_neg h, Nodes.quota]

/-- The quotas above the parent, and before them the one of the inode itself. -/
theorem Absorbs.below {mid : Transaction} {parent : InodeId}
    (wf : tx.tree.WellFormed) (link : tx.tree.HasParent id parent)
    (stores : tx.Stores mid) (recached : tx.tree.Recached mid.tree)
    (quota : ∀ x, mid.tree.quota x =
      if x = id then (tx.tree.quota x).map (·.absorb delta)
          else tx.tree.quota x)
    (late : Absorbs mid tx' parent delta) : Absorbs tx tx' id delta where
  stores := stores.trans late.stores
  recached := recached.trans late.recached
  above x hx := by
    have hunder : mid.tree.Under x parent ↔ tx.tree.Under x parent :=
      recached.recast.alike.under x parent
    rcases (under_iff_of_parent link).1 hx with rfl | hparent
    · have haside : ¬ mid.tree.Under id parent := fun h =>
        wf.not_under_parent link (hunder.1 h)
      rw [late.aside id haside, quota, if_pos rfl]
    · have hne : x ≠ id := by
        rintro rfl
        exact wf.not_under_parent link hparent
      rw [late.above x (hunder.2 hparent), quota, if_neg hne]
  aside x hx := by
    have hnot := mt (under_iff_of_parent link).2 hx
    rw [not_or] at hnot
    have haside : ¬ mid.tree.Under x parent := fun h =>
      hnot.2 ((recached.recast.alike.under x parent).1 h)
    rw [late.aside x haside, quota, if_neg fun heq => hnot.1 heq.symm]

/-- The first step of the climb: the quota of the inode itself takes in the
change, if there is one, and the climb goes on from the parent. -/
theorem exists_of_absorbUpward_succ {inode : Inode} (wf : tx.tree.WellFormed)
    (live : tx.tree id = some inode)
    (h : absorbUpward delta (steps + 1) id tx = .ok done tx') :
    ∃ mid, tx.Stores mid ∧ tx.tree.Recached mid.tree ∧
      (∀ x, mid.tree.quota x =
        if x = id then (tx.tree.quota x).map (·.absorb delta)
            else tx.tree.quota x) ∧
      (∀ {parent}, inode.parent = some parent →
        absorbUpward delta steps parent mid = .ok done tx') ∧
      (inode.parent = none → mid = tx') := by
  simp only [absorbUpward, Outcome.bind_eq_ok, get_eq_ok] at h
  obtain ⟨found, tx, ⟨⟨_, hfound⟩, rfl⟩, h⟩ := h
  obtain rfl := Option.some_inj.1 (hfound.symm.trans live)
  cases hquota : found.quota with
  | none =>
    simp only [hquota] at h
    refine ⟨tx, .refl tx, .refl _, fun x => ?_, fun hparent => ?_,
      fun hparent => ?_⟩
    · by_cases hx : x = id
      · rw [hx, if_pos rfl, quota_of_live live, hquota]
        rfl
      · rw [if_neg hx]
    · simpa only [hparent] using h
    · simp only [hparent, Outcome.pure_eq_ok] at h
      exact h.2
  | some quota =>
    simp only [hquota, Outcome.bind_eq_ok, put_eq_ok] at h
    obtain ⟨_, _, ⟨_, rfl⟩, hrest⟩ := h
    refine ⟨tx.stored (found.withQuota (quota.absorb delta)), stores_stored ..,
      ?_, fun x => ?_, fun hparent => ?_, fun hparent => ?_⟩
    · rw [tree_stored, Inode.id_withQuota, wf.ids live]
      exact .set live (.cached _ hquota)
    · rw [Quota.absorb, quota_stored wf live hquota]
      by_cases hx : x = id
      · rw [hx, if_pos rfl, if_pos rfl, quota_of_live live, hquota]
        rfl
      · rw [if_neg hx, if_neg hx]
    · simpa only [hparent] using hrest
    · simp only [hparent, Outcome.pure_eq_ok] at hrest
      exact hrest.2

theorem live_of_absorbUpward
    (h : absorbUpward delta steps id tx = .ok done tx') :
    ∃ inode, tx.tree id = some inode := by
  cases steps with
  | zero => cases h
  | succ steps =>
    simp only [absorbUpward, Outcome.bind_eq_ok, get_eq_ok] at h
    obtain ⟨inode, _, ⟨⟨_, live⟩, _⟩, _⟩ := h
    exact ⟨inode, live⟩

theorem absorbs_absorbUpward (wf : tx.tree.WellFormed)
    (h : absorbUpward delta steps id tx = .ok done tx') :
    Absorbs tx tx' id delta := by
  induction steps generalizing tx id with
  | zero => cases h
  | succ steps ih =>
    obtain ⟨inode, live⟩ := live_of_absorbUpward h
    obtain ⟨mid, stores, recached, quota, habove, htop⟩ :=
      exists_of_absorbUpward_succ wf live h
    cases hparent : inode.parent with
    | some parent =>
      exact .below wf ⟨inode, live, hparent⟩ stores recached quota
        (ih (recached.recast.alike.wellFormed wf) (habove hparent))
    | none =>
      obtain rfl := htop hparent
      have htop : ∀ parent, ¬ tx.tree.HasParent id parent := by
        rintro parent ⟨found, hfound, hlink⟩
        rw [live, Option.some_inj] at hfound
        rw [← hfound, hparent] at hlink
        cases hlink
      refine ⟨stores, recached, fun x hx => ?_, fun x hx => ?_⟩
      · rw [quota, if_pos ((under_of_no_parent htop).1 hx).symm]
      · rw [quota, if_neg fun heq => hx ((under_of_no_parent htop).2 heq.symm)]

end Work

end QuotaTree
