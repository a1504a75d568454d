/-
A merge goes through inodes that have something pending.  The updates of those
that it has been through are out of the ledger, and all others are still there.
-/
import QuotaTree.Proofs.Lock.Plan
import QuotaTree.Proofs.Work.Absorb

namespace QuotaTree

open Nodes

namespace Ledger

variable {ledger : Ledger} {inode : InodeId}

/-- The updates of an inode come with the numbers that are listed for it. -/
theorem Sound.map_id_updatesOf (sound : ledger.Sound) (inode : InodeId) :
    (ledger.updatesOf inode).map QuotaUpdate.id = ledger.idsOf inode := by
  rw [updatesOf, List.map_filterMap]
  refine (List.filterMap_congr fun id hid => ?_).trans List.filterMap_some
  obtain ⟨update, hupdate, _⟩ := sound.listed.1 hid
  rw [hupdate, Option.map_some, (sound.numbered hupdate).1]

end Ledger

namespace Transaction

variable {tx : Transaction} {merged : List InodeId}

/-- Nothing has been done but merging what was pending at some inodes. -/
structure Merging (tx : Transaction) (merged : List InodeId) : Prop where
  ledger : tx.base.ledger.Sound
  updates : tx.updates = []
  withdrawn : tx.withdrawn = []
  clearing : tx.clearing = false
  edits : tx.edits = []
  merged : ∀ {x number}, number ∈ tx.base.ledger.idsOf x →
    (number ∈ tx.merged ↔ x ∈ merged)

theorem Merging.pendingAt_of_mem (merging : tx.Merging merged) {x : InodeId}
    (h : x ∈ merged) : tx.pendingAt x = 0 := by
  have hgone := merging.ledger.pendingAt_remove_of_all fun number hnumber =>
    (merging.merged hnumber).2 h
  simp [pendingAt, merging.updates, merging.withdrawn, merging.clearing, hgone]

theorem Merging.pendingAt_of_not_mem (merging : tx.Merging merged) {x : InodeId}
    (h : x ∉ merged) : tx.pendingAt x = tx.base.ledger.pendingAt x := by
  have hleft := merging.ledger.pendingAt_remove_of_none fun number hnumber =>
    mt (merging.merged hnumber).1 h
  simp [pendingAt, merging.updates, merging.withdrawn, merging.clearing, hleft]

/-- When all that is listed has been merged nothing is left in the ledger. -/
theorem Merging.idsOf_ledgerAfter (merging : tx.Merging merged)
    (all : ∀ x, x ∉ merged → tx.base.ledger.idsOf x = []) (x : InodeId) :
    tx.ledgerAfter.idsOf x = [] := by
  have hledger : tx.ledgerAfter = tx.base.ledger.remove tx.merged := by
    simp only [ledgerAfter, merging.updates, merging.withdrawn,
      merging.clearing]
    rfl
  rw [hledger, (merging.ledger.remove tx.merged).2.2, List.filter_eq_nil_iff]
  intro number hnumber
  by_cases hx : x ∈ merged
  · simpa using (merging.merged hnumber).2 hx
  · rw [all x hx] at hnumber
    cases hnumber

def consumed (tx : Transaction) (id : InodeId) : Transaction :=
  { tx with merged := tx.merged ++ tx.base.ledger.idsOf id }

theorem Merging.consumed (merging : tx.Merging merged) (id : InodeId) :
    (tx.consumed id).Merging (id :: merged) where
  ledger := merging.ledger
  updates := merging.updates
  withdrawn := merging.withdrawn
  clearing := merging.clearing
  edits := merging.edits
  merged {x number} h := by
    change number ∈ tx.merged ++ tx.base.ledger.idsOf id ↔ _
    rw [List.mem_append, List.mem_cons, merging.merged h, or_comm]
    refine or_congr ⟨fun hid => merging.ledger.mem_unique h hid, ?_⟩ Iff.rfl
    rintro rfl
    exact h

theorem Merging.of_stores {tx' : Transaction} (stores : tx.Stores tx')
    (merging : tx.Merging merged) : tx'.Merging merged := by
  rw [stores]
  exact ⟨merging.ledger, merging.updates, merging.withdrawn, merging.clearing,
    merging.edits, merging.merged⟩

/-- The way up from an inode is locked as a merge needs it. -/
structure Climbable (tx : Transaction) (id : InodeId) : Prop where
  live : ∃ inode, tx.tree id = some inode
  allows : ∀ x inode, tx.tree.Under x id → tx.tree x = some inode →
    tx.Allows x (LockDemand.upwardMode inode)

theorem Climbable.read {id : InodeId} (climbable : tx.Climbable id) :
    tx.Allows id .read := by
  obtain ⟨inode, live⟩ := climbable.live
  have hallows := climbable.allows id inode (.refl _ _) live
  unfold LockDemand.upwardMode at hallows
  split at hallows
  · exact hallows.read
  · exact hallows

/-- Quotas may have cached something else in the meantime. -/
theorem Climbable.of_stores {tx' : Transaction} {id : InodeId}
    (climbable : tx.Climbable id) (stores : tx.Stores tx')
    (recached : tx.tree.Recached tx'.tree) : tx'.Climbable id where
  live := by
    obtain ⟨inode, live⟩ := climbable.live
    obtain ⟨new, live', _⟩ := recached.recast.alike.live live
    exact ⟨new, live'⟩
  allows x new hunder live' := by
    obtain ⟨inode, live, _⟩ := recached.recast.alike.symm.live live'
    have hnew := recached x
    rw [live, live', Option.rel_some_some] at hnew
    have hallows := climbable.allows x inode
      ((recached.recast.alike.under x id).1 hunder) live
    rw [LockDemand.upwardMode, ← hnew.isSome_quota, ← LockDemand.upwardMode]
      at hallows
    rw [stores]
    exact hallows

theorem Climbable.parent {id parent : InodeId} (wf : tx.tree.WellFormed)
    (climbable : tx.Climbable id) (link : tx.tree.HasParent id parent) :
    tx.Climbable parent where
  live := by
    obtain ⟨holder, hholder, _⟩ := wf.live_parent link
    exact ⟨holder, hholder⟩
  allows x inode hunder live :=
    climbable.allows x inode (hunder.trans (.of_parent link)) live

end Transaction

namespace Work

open Transaction

variable {tx tx' : Transaction} {id : InodeId} {ids merged : List InodeId}
  {count : Nat}

theorem consume_eq_ok {updates : List QuotaUpdate}
    (sound : tx.base.ledger.Sound) :
    consume id tx = .ok updates tx' ↔
      tx.Allows id .read ∧ updates = tx.base.ledger.updatesOf id ∧
      tx' = tx.consumed id := by
  unfold consume
  simp only [Outcome.bind_eq_ok, ensureLocked_eq_ok, Outcome.get_eq_ok,
    Outcome.set_eq_ok, Outcome.pure_eq_ok]
  constructor
  · rintro ⟨_, _, ⟨hallows, rfl⟩, _, _, ⟨rfl, rfl⟩, _, _, rfl, rfl, rfl⟩
    refine ⟨hallows, rfl, ?_⟩
    rw [sound.map_id_updatesOf]
    rfl
  · rintro ⟨hallows, rfl, rfl⟩
    refine ⟨(), tx, ⟨hallows, rfl⟩, tx, tx, ⟨rfl, rfl⟩, ⟨⟩, _, rfl, rfl, ?_⟩
    rw [sound.map_id_updatesOf]
    rfl

/-- Taking in nothing changes nothing. -/
theorem absorbs_zero (tx : Transaction) (id : InodeId) :
    Absorbs tx tx id 0 where
  stores := .refl tx
  recached := .refl _
  above x _ := by
    have hsame (quota : Quota) : quota.absorb 0 = quota := by
      simp [Quota.absorb]
    simp only [hsame, Option.map_id']
  aside _ _ := rfl

theorem absorbs_mergeAt (wf : tx.tree.WellFormed) (merging : tx.Merging merged)
    (fresh : id ∉ merged) (h : mergeAt id tx = .ok count tx') :
    Absorbs (tx.consumed id) tx' id (tx.pendingAt id) ∧
      count = (tx.base.ledger.updatesOf id).length := by
  simp only [mergeAt, Outcome.bind_eq_ok, consume_eq_ok merging.ledger] at h
  obtain ⟨_, _, ⟨_, rfl, rfl⟩, h⟩ := h
  rw [← Ledger.pendingAt_eq, ← merging.pendingAt_of_not_mem fresh] at h
  split at h
  next hzero =>
    obtain ⟨rfl, rfl⟩ := Outcome.pure_eq_ok.1 h
    rw [(Counts.isZero_iff _).1 hzero]
    exact ⟨absorbs_zero _ id, rfl⟩
  next =>
    rw [Outcome.get_bind, Outcome.bind_eq_ok] at h
    obtain ⟨_, _, habsorb, hcount⟩ := h
    obtain ⟨rfl, rfl⟩ := Outcome.pure_eq_ok.1 hcount
    exact ⟨absorbs_absorbUpward wf habsorb, rfl⟩

/-- What is pending at one inode goes into the quotas above it. -/
theorem mend_absorbs (merging : tx.Merging merged)
    (absorbs : Absorbs (tx.consumed id) tx' id (tx.pendingAt id)) :
    Mend tx.books tx'.books ∧ tx'.Merging (id :: merged) ∧
      tx.tree.Recached tx'.tree ∧ tx'.base = tx.base := by
  have merging' := (merging.consumed id).of_stores absorbs.stores
  have hbase : tx'.base = tx.base := by
    rw [absorbs.stores]
    rfl
  have hbooks : tx'.books =
      { tx.books with
        nodes := tx'.tree
        pending := fun x => if x = id then 0 else tx.books.pending x } := by
    have hpending :
        tx'.pendingAt = fun x => if x = id then 0 else tx.pendingAt x := by
      funext x
      by_cases hx : x = id
      · rw [if_pos hx, hx, merging'.pendingAt_of_mem List.mem_cons_self]
      · rw [if_neg hx]
        by_cases hmem : x ∈ merged
        · rw [merging.pendingAt_of_mem hmem,
            merging'.pendingAt_of_mem (List.mem_cons_of_mem _ hmem)]
        · have hnot : x ∉ id :: merged := by
            rw [List.mem_cons, not_or]
            exact ⟨hx, hmem⟩
          rw [merging.pendingAt_of_not_mem hmem,
            merging'.pendingAt_of_not_mem hnot, hbase]
    simp only [Transaction.books, hpending, hbase]
  refine ⟨?_, merging', absorbs.recached, hbase⟩
  rw [hbooks]
  refine .absorb absorbs.recached.recast fun {x quota} hquota => ?_
  by_cases hunder : tx.tree.Under x id
  · have habove := (absorbs.above x hunder).symm.trans hquota
    obtain ⟨before, hbefore, rfl⟩ := Option.map_eq_some_iff.1 habove
    exact ⟨before, hbefore, fun _ => rfl, fun hnot => absurd hunder hnot⟩
  · have haside := (absorbs.aside x hunder).symm.trans hquota
    exact ⟨quota, haside, fun h => absurd h hunder, fun _ => rfl⟩

theorem fresh_of_cons (nodup : (id :: ids).Nodup)
    (fresh : ∀ other ∈ id :: ids, other ∉ merged) :
    ∀ other ∈ ids, other ∉ id :: merged := by
  intro other hother hmem
  rcases List.mem_cons.1 hmem with rfl | hmem
  · exact (List.nodup_cons.1 nodup).1 hother
  · exact fresh other (List.mem_cons_of_mem _ hother) hmem

/-- A merge of several inodes goes through one after the other. -/
theorem mended_mergeAll (wf : tx.tree.WellFormed) (merging : tx.Merging merged)
    (nodup : ids.Nodup) (fresh : ∀ id ∈ ids, id ∉ merged)
    (h : mergeAll ids tx = .ok count tx') :
    Relation.ReflTransGen Mend tx.books tx'.books ∧
      tx'.Merging (ids.reverse ++ merged) ∧ tx.tree.Recached tx'.tree ∧
      tx'.base = tx.base := by
  induction ids generalizing tx merged count with
  | nil =>
    obtain ⟨_, rfl⟩ := Outcome.pure_eq_ok.1 h
    exact ⟨.refl, merging, .refl _, rfl⟩
  | cons id rest ih =>
    simp only [mergeAll, Outcome.bind_eq_ok, Outcome.pure_eq_ok] at h
    obtain ⟨_, mid, hmerge, _, _, hrest, _, rfl⟩ := h
    obtain ⟨absorbs, _⟩ :=
      absorbs_mergeAt wf merging (fresh id List.mem_cons_self) hmerge
    obtain ⟨mend, merging', recached, hbase⟩ := mend_absorbs merging absorbs
    obtain ⟨mended, merging'', recached', hbase'⟩ :=
      ih (recached.recast.alike.wellFormed wf) merging' nodup.of_cons
        (fresh_of_cons nodup fresh) hrest
    rw [List.reverse_cons, List.append_assoc]
    exact ⟨mended.head mend, merging'', recached.trans recached',
      hbase'.trans hbase⟩

/-- The quota of one inode takes in a change; what is left to do is at its
parent. -/
theorem exists_absorbed {delta : Counts} {steps : Nat} {inode : Inode}
    (wf : tx.tree.WellFormed) (climbable : tx.Climbable id)
    (live : tx.tree id = some inode) :
    ∃ mid, tx.Stores mid ∧ tx.tree.Recached mid.tree ∧
      ∀ last, (∀ parent, inode.parent = some parent →
          absorbUpward delta steps parent mid = .ok () last) →
        (inode.parent = none → mid = last) →
        absorbUpward delta (steps + 1) id tx = .ok () last := by
  have hread : get id tx = .ok inode tx :=
    get_eq_ok.2 ⟨⟨climbable.read, live⟩, rfl⟩
  simp only [absorbUpward, Outcome.bind_of_ok hread]
  cases hquota : inode.quota with
  | none =>
    refine ⟨tx, .refl tx, .refl _, fun last habove htop => ?_⟩
    cases hparent : inode.parent with
    | none => exact htop hparent ▸ rfl
    | some parent => exact habove parent hparent
  | some quota =>
    have hwrite := climbable.allows id inode (.refl _ _) live
    rw [LockDemand.upwardMode, hquota, Option.isSome_some, if_pos rfl] at hwrite
    have hid : (inode.withQuota (quota.absorb delta)).id = id := by
      rw [Inode.id_withQuota, wf.ids live]
    have hput : put (inode.withQuota (quota.absorb delta)) tx =
        .ok () (tx.stored (inode.withQuota (quota.absorb delta))) :=
      put_eq_ok.2 ⟨hid.symm ▸ hwrite, rfl⟩
    refine ⟨tx.stored (inode.withQuota (quota.absorb delta)), stores_stored ..,
      ?_, fun last habove htop => (Outcome.bind_of_ok hput).trans ?_⟩
    · rw [tree_stored, hid]
      exact .set live (.cached _ hquota)
    · cases hparent : inode.parent with
      | none => exact htop hparent ▸ rfl
      | some parent => exact habove parent hparent

/-- A change can be taken in all the way up. -/
theorem exists_absorbUpward {delta : Counts} {steps depth : Nat}
    (wf : tx.tree.WellFormed) (climbable : tx.Climbable id)
    (h : tx.tree.Depth id depth) (enough : depth < steps) :
    ∃ tx', absorbUpward delta steps id tx = .ok () tx' := by
  induction steps generalizing tx id depth with
  | zero => exact absurd enough (Nat.not_lt_zero _)
  | succ steps ih =>
    obtain ⟨inode, live⟩ := climbable.live
    obtain ⟨mid, stores, recached, hrest⟩ := exists_absorbed wf climbable live
    cases hparent : inode.parent with
    | none => exact ⟨mid, hrest mid (by simp [hparent]) fun _ => rfl⟩
    | some parent =>
      have link : tx.tree.HasParent id parent := ⟨inode, live, hparent⟩
      obtain ⟨holder, hholder, _⟩ := wf.live_parent link
      obtain ⟨above, hdepth⟩ := wf.descends hholder
      have hup := wf.depth_unique h (.child link hdepth)
      have hback := fun x y => (recached.recast.alike.hasParent x y).2
      obtain ⟨last, hlast⟩ := ih (recached.recast.alike.wellFormed wf)
        ((climbable.parent wf link).of_stores stores recached)
        (hdepth.mono hback) (by omega)
      refine ⟨last, hrest last (fun other hother => ?_) (by simp [hparent])⟩
      cases hparent.symm.trans hother
      exact hlast

theorem exists_mergeAt (wf : tx.tree.WellFormed) (merging : tx.Merging merged)
    (climbable : tx.Climbable id) :
    ∃ count tx', mergeAt id tx = .ok count tx' := by
  have climbable' : (tx.consumed id).Climbable id :=
    ⟨climbable.live, climbable.allows⟩
  have wf' : (tx.consumed id).tree.WellFormed := wf
  obtain ⟨inode, live⟩ := climbable'.live
  obtain ⟨depth, hdepth⟩ := wf'.descends live
  have hdeep := (view_reads wf').deep live hdepth
  let delta := Counts.sum ((tx.base.ledger.updatesOf id).map QuotaUpdate.delta)
  obtain ⟨last, hlast⟩ :=
    @exists_absorbUpward _ _ delta _ _ wf' climbable' hdepth
      (Nat.lt_succ_of_lt hdeep)
  have hconsume := (consume_eq_ok merging.ledger).2 ⟨climbable.read, rfl, rfl⟩
  unfold mergeAt
  rw [Outcome.bind_of_ok hconsume]
  by_cases hzero : delta.isZero = true
  · exact ⟨_, _, by rw [if_pos hzero]; rfl⟩
  · refine ⟨(tx.base.ledger.updatesOf id).length, last, ?_⟩
    rw [if_neg hzero, Outcome.get_bind, Outcome.bind_of_ok hlast]
    rfl

/-- What is pending can be merged where the way up is locked. -/
theorem exists_mergeAll (wf : tx.tree.WellFormed) (merging : tx.Merging merged)
    (nodup : ids.Nodup) (fresh : ∀ id ∈ ids, id ∉ merged)
    (climbable : ∀ id ∈ ids, tx.Climbable id) :
    ∃ count tx', mergeAll ids tx = .ok count tx' := by
  induction ids generalizing tx merged with
  | nil => exact ⟨0, tx, rfl⟩
  | cons id rest ih =>
    obtain ⟨count, mid, hmerge⟩ :=
      exists_mergeAt wf merging (climbable id List.mem_cons_self)
    obtain ⟨absorbs, _⟩ :=
      absorbs_mergeAt wf merging (fresh id List.mem_cons_self) hmerge
    obtain ⟨_, merging', recached, _⟩ := mend_absorbs merging absorbs
    have climbable' : ∀ other ∈ rest, mid.Climbable other :=
      fun other hother => by
      have hother := climbable other (List.mem_cons_of_mem _ hother)
      have hconsumed : (tx.consumed id).Climbable other :=
        ⟨hother.live, hother.allows⟩
      exact hconsumed.of_stores absorbs.stores recached
    obtain ⟨others, last, hrest⟩ :=
      ih (recached.recast.alike.wellFormed wf) merging' nodup.of_cons
        (fresh_of_cons nodup fresh) climbable'
    refine ⟨count + others, last, ?_⟩
    rw [mergeAll, Outcome.bind_of_ok hmerge, Outcome.bind_of_ok hrest]
    rfl

end Work

end QuotaTree
