/-
Recounting a subtree.  The usage of each inode is the sum over what lies under
it, found from the leaves up, and every quota on the way is set to that sum.
-/
import QuotaTree.Proofs.Work.Absorb
import QuotaTree.Request.Recount

namespace QuotaTree

open Nodes

/-- A number of a report tells how many quotas bear a mark, given what is
pending and what is used below each. -/
structure RecountReport.Tells (number : RecountReport → Nat)
    (mark : Quota → Counts → Counts → Bool) : Prop where
  nothing : number {} = 0
  add : ∀ left right, number (left.add right) = number left + number right
  one : ∀ quota pending used,
    number (.ofQuota quota pending used) = (mark quota pending used).toNat

namespace RecountReport

theorem tells_directories : Tells directories fun _ _ _ => true :=
  ⟨rfl, fun _ _ => rfl, fun _ _ _ => rfl⟩

theorem tells_inconsistencies :
    Tells inconsistencies
      fun quota pending used => decide (quota.cached + pending ≠ used) := by
  refine ⟨rfl, fun _ _ => rfl, fun quota pending used => ?_⟩
  by_cases h : quota.cached + pending = used <;> simp [ofQuota, h]

theorem tells_violations :
    Tells violations fun quota _ used =>
      !({ quota with cached := used } : Quota).overruns.isEmpty := by
  refine ⟨rfl, fun _ _ => rfl, fun quota pending used => ?_⟩
  cases h :
      ({ quota with cached := used } : Quota).overruns.isEmpty <;>
        simp [ofQuota, h]

end RecountReport

namespace Recounted

/-- Parts are added up in order. -/
theorem foldl_add (parts : List Recounted) (start : Recounted) :
    parts.foldl add start = start.add (parts.foldl add {}) := by
  have hassoc (a b c : Recounted) : (a.add b).add c = a.add (b.add c) := by
    simp [add, RecountReport.add, add_assoc]
  have hzero (a : Recounted) : ({} : Recounted).add a = a ∧ a.add {} = a := by
    simp [add, RecountReport.add]
  induction parts generalizing start with
  | nil => rw [List.foldl_nil, List.foldl_nil, (hzero start).2]
  | cons part rest ih =>
    rw [List.foldl_cons, ih, List.foldl_cons, ih (({} : Recounted).add part),
      (hzero part).1, hassoc]

end Recounted

namespace Nodes

variable {nodes : Nodes} {top first second x : InodeId}

/-- Two children of one directory have nothing below them in common. -/
theorem WellFormed.disjoint_children (wf : nodes.WellFormed)
    (hfirst : nodes.HasParent first top) (hsecond : nodes.HasParent second top)
    (hne : first ≠ second) (h : nodes.Under first x) :
    ¬ nodes.Under second x := by
  intro h'
  rcases h.total h' with hunder | hunder
  · rcases (under_iff_of_parent hsecond).1 hunder with heq | habove
    · exact hne heq.symm
    · exact wf.not_under_parent hfirst habove
  · rcases (under_iff_of_parent hfirst).1 hunder with heq | habove
    · exact hne heq
    · exact wf.not_under_parent hsecond habove

end Nodes

namespace Work

open Transaction

variable {tx mid tx' : Transaction} {id top : InodeId}
  {ids others : Finset InodeId} {whole part : Recounted} {depth : Nat}

/-- What is pending is the same when inodes have only been stored. -/
theorem pendingFor_of_stores (stores : tx.Stores mid) (list : List InodeId) :
    mid.pendingFor list = tx.pendingFor list := by
  rw [stores]
  rfl

/-- The quota of an inode has cached its usage apart from what is pending. -/
def Tallies (tx : Transaction) (x : InodeId) : Prop :=
  ∀ ⦃quota below⦄, tx.tree.quota x = some quota → tx.tree.Spans x below →
    quota.cached + ∑ y ∈ below, tx.pendingFor [y] = ∑ y ∈ below, tx.tree.own y

/-- An inode has a quota that bears a mark, given what is pending and what is
used below it. -/
def Marked (tx : Transaction) (mark : Quota → Counts → Counts → Bool)
    (x : InodeId) : Prop :=
  ∃ quota below, tx.tree.quota x = some quota ∧ tx.tree.Spans x below ∧
    mark quota (∑ y ∈ below, tx.pendingFor [y]) (∑ y ∈ below, tx.tree.own y) =
      true

/-- A set of inodes has been recounted: each of their quotas has cached its
usage, and the sums are returned. -/
structure Recounts (tx tx' : Transaction) (ids : Finset InodeId)
    (whole : Recounted) : Prop where
  stores : tx.Stores tx'
  recached : tx.tree.Recached tx'.tree
  outside : ∀ x, x ∉ ids → tx'.tree x = tx.tree x
  used : whole.used = ∑ x ∈ ids, tx.tree.own x
  pending : whole.pending = ∑ x ∈ ids, tx.pendingFor [x]
  counted : ∀ {x quota below}, x ∈ ids → tx'.tree.quota x = some quota →
    tx.tree.Spans x below → quota.cached = ∑ y ∈ below, tx.tree.own y
  reported : ∀ {number mark}, RecountReport.Tells number mark →
    ∃ marked : Finset InodeId, (∀ x, x ∈ marked ↔ x ∈ ids ∧ Marked tx mark x) ∧
      number whole.report = marked.card

/-- Where every quota has cached its usage, nothing is reported as
inconsistent. -/
theorem Recounts.consistent (recounts : Recounts tx tx' ids whole)
    (tallies : ∀ x ∈ ids, Tallies tx x) : whole.report.inconsistencies = 0 := by
  obtain ⟨marked, hmarked, hcount⟩ :=
    recounts.reported RecountReport.tells_inconsistencies
  rw [hcount, Finset.card_eq_zero, Finset.eq_empty_iff_forall_notMem]
  intro x hx
  obtain ⟨hmem, quota, below, hquota, spans, hmark⟩ := (hmarked x).1 hx
  exact of_decide_eq_true hmark (tallies x hmem hquota spans)

/-- What is recounted later bears the marks that it bore before. -/
theorem Recounts.marked_iff {mark : Quota → Counts → Counts → Bool}
    {x : InodeId} (recounts : Recounts tx mid ids part) (hnot : x ∉ ids) :
    Marked mid mark x ↔ Marked tx mark x := by
  have hspans (below : Finset InodeId) :
      mid.tree.Spans x below ↔ tx.tree.Spans x below := by
    simp only [Nodes.Spans, recounts.recached.recast.alike.under]
  simp only [Marked, Nodes.quota, recounts.outside x hnot, hspans,
    recounts.recached.recast.own, pendingFor_of_stores recounts.stores]

/-- One more inode is among those that bear a mark if it bears the mark
itself. -/
theorem exists_marked_insert {marked : Finset InodeId} {bears : InodeId → Prop}
    {bearing : Bool} (hmarked : ∀ x, x ∈ marked ↔ x ∈ ids ∧ bears x)
    (hnot : top ∉ ids) (htop : bears top ↔ bearing = true) :
    ∃ marked' :
        Finset InodeId, (∀ x, x ∈ marked' ↔ x ∈ insert top ids ∧ bears x) ∧
      marked'.card = marked.card + bearing.toNat := by
  cases bearing with
  | true =>
    have hnot' : top ∉ marked := fun h => hnot ((hmarked top).1 h).1
    refine ⟨insert top marked, fun x => ?_, Finset.card_insert_of_notMem hnot'⟩
    rw [Finset.mem_insert, Finset.mem_insert, hmarked, or_and_right]
    refine or_congr_left (iff_self_and.2 ?_)
    rintro rfl
    exact htop.2 rfl
  | false =>
    refine ⟨marked, fun x => ?_, rfl⟩
    rw [hmarked, Finset.mem_insert, or_and_right]
    refine (or_iff_right ?_).symm
    rintro ⟨rfl, h⟩
    exact Bool.false_ne_true (htop.1 h)

theorem Recounts.nothing (tx : Transaction) : Recounts tx tx ∅ {} where
  stores := .refl tx
  recached := .refl _
  outside _ _ := rfl
  used := rfl
  pending := rfl
  counted h := absurd h (Finset.notMem_empty _)
  reported tells := ⟨∅, by simp, tells.nothing⟩

/-- What is recounted one after the other is recounted together. -/
theorem Recounts.append (early : Recounts tx mid ids part)
    (late : Recounts mid tx' others whole) (disjoint : Disjoint ids others) :
    Recounts tx tx' (ids ∪ others) (part.add whole) where
  stores := early.stores.trans late.stores
  recached := early.recached.trans late.recached
  outside x hx := by
    rw [Finset.mem_union, not_or] at hx
    rw [late.outside x hx.2, early.outside x hx.1]
  used := by
    rw [Finset.sum_union disjoint, ← early.used]
    simp only [Recounted.add, late.used, early.recached.recast.own]
  pending := by
    rw [Finset.sum_union disjoint, ← early.pending]
    simp only [Recounted.add, late.pending, pendingFor_of_stores early.stores]
  counted {x quota below} hx hquota spans := by
    by_cases hother : x ∈ others
    · have hspans : mid.tree.Spans x below := fun y =>
        (spans y).trans (early.recached.recast.alike.under x y).symm
      rw [late.counted hother hquota hspans]
      exact Finset.sum_congr rfl fun y _ => early.recached.recast.own y
    · have hmem := (Finset.mem_union.1 hx).resolve_right hother
      rw [Nodes.quota, late.outside x hother] at hquota
      exact early.counted hmem hquota spans
  reported {number mark} tells := by
    obtain ⟨marked, hmarked, hcount⟩ := early.reported tells
    obtain ⟨marked', hmarked', hcount'⟩ := late.reported tells
    have hdisjoint : Disjoint marked marked' := by
      rw [Finset.disjoint_left] at disjoint ⊢
      exact fun x hx hx' => disjoint ((hmarked x).1 hx).1 ((hmarked' x).1 hx').1
    refine ⟨marked ∪ marked', fun x => ?_, ?_⟩
    · have hlater : x ∈ others ∧ Marked mid mark x ↔ x ∈ others ∧
          Marked tx mark x := and_congr_right
        fun hx => early.marked_iff (Finset.disjoint_right.1 disjoint hx)
      rw [Finset.mem_union, Finset.mem_union, hmarked, hmarked', hlater,
        or_and_right]
    · rw [Finset.card_union_of_disjoint hdisjoint, ← hcount, ← hcount']
      exact tells.add _ _

/-- An inode without a quota is counted after all that lies below it. -/
theorem Recounts.plain {inode : Inode} (live : tx.tree top = some inode)
    (unlimited : inode.quota = none) (below : Recounts tx mid ids part)
    (hnot : top ∉ ids) (used : whole.used = inode.ownUsage + part.used)
    (pending : whole.pending = tx.pendingFor [top] + part.pending)
    (report : whole.report = part.report) :
    Recounts tx mid (insert top ids) whole where
  stores := below.stores
  recached := below.recached
  outside x hx := below.outside x fun h => hx (Finset.mem_insert_of_mem h)
  used := by rw [used, Finset.sum_insert hnot, own_of_live live, below.used]
  pending := by rw [pending, Finset.sum_insert hnot, below.pending]
  counted {x quota _} hx hquota spans := by
    rcases Finset.mem_insert.1 hx with rfl | hx
    · rw [Nodes.quota, below.outside x hnot, ← Nodes.quota, quota_of_live live,
        unlimited] at hquota
      cases hquota
    · exact below.counted hx hquota spans
  reported {number mark} tells := by
    obtain ⟨marked, hmarked, hcount⟩ := below.reported tells
    have htop : Marked tx mark top ↔ false = true := by
      refine iff_of_false ?_ Bool.false_ne_true
      rintro ⟨quota, _, hquota, _⟩
      rw [quota_of_live live, unlimited] at hquota
      cases hquota
    obtain ⟨marked', hmarked', hcard⟩ := exists_marked_insert hmarked hnot htop
    exact ⟨marked',
      hmarked', by rw [report, hcount, hcard, Bool.toNat_false, Nat.add_zero]⟩

/-- The quota of an inode is set after all that lies below it has been
counted. -/
theorem Recounts.cached {inode : Inode} {quota : Quota}
    (wf : tx.tree.WellFormed) (live : tx.tree top = some inode)
    (hquota : inode.quota = some quota) (below : Recounts tx mid ids part)
    (hnot : top ∉ ids) (spans : tx.tree.Spans top (insert top ids))
    (used : whole.used = inode.ownUsage + part.used)
    (pending : whole.pending = tx.pendingFor [top] + part.pending)
    (report : whole.report = part.report) :
    Recounts tx
      (mid.stored (inode.withQuota { quota with cached := whole.used }))
      (insert top ids) { whole with
        report := whole.report.add
          (RecountReport.ofQuota quota whole.pending whole.used) } := by
  have hlive : mid.tree top = some inode := (below.outside top hnot).trans live
  have hused : whole.used = ∑ x ∈ insert top ids, tx.tree.own x := by
    rw [used, Finset.sum_insert hnot, own_of_live live, below.used]
  have hpending : whole.pending = ∑ x ∈ insert top ids, tx.pendingFor [x] := by
    rw [pending, Finset.sum_insert hnot, below.pending]
  have hstored (x : InodeId) := quota_stored
    (below.recached.recast.alike.wellFormed wf) hlive hquota whole.used x
  have htree :
      (mid.stored (inode.withQuota { quota with cached := whole.used })).tree =
        mid.tree.set top
        (some (inode.withQuota { quota with cached := whole.used })) := by
    rw [tree_stored, Inode.id_withQuota, wf.ids live]
  refine ⟨below.stores.trans (stores_stored ..), ?_, fun x hx => ?_, hused,
    hpending, ?_, ?_⟩
  · rw [htree]
    exact below.recached.trans (.set hlive (.cached _ hquota))
  · rw [Finset.mem_insert, not_or] at hx
    rw [htree, set_of_ne _ hx.1, below.outside x hx.2]
  · intro x found others hx hfound hothers
    rw [hstored] at hfound
    by_cases h : x = top
    · rw [if_pos h] at hfound
      subst h
      cases hfound
      rw [spans.unique hothers] at hused
      exact hused
    · rw [if_neg h] at hfound
      exact below.counted
        ((Finset.mem_insert.1 hx).resolve_left h) hfound hothers
  · intro number mark tells
    obtain ⟨marked, hmarked, hcount⟩ := below.reported tells
    have hquota' : tx.tree.quota top = some quota :=
      (quota_of_live live).trans hquota
    have htop :
        Marked tx mark top ↔ mark quota whole.pending whole.used = true := by
      constructor
      · rintro ⟨found, others, hfound, hothers, hmark⟩
        cases hquota'.symm.trans hfound
        rwa [← spans.unique hothers, ← hused, ← hpending] at hmark
      · intro hmark
        exact ⟨quota, _, hquota', spans, by rwa [← hused, ← hpending]⟩
    obtain ⟨marked', hmarked', hcard⟩ := exists_marked_insert hmarked hnot htop
    refine ⟨marked', hmarked', ?_⟩
    rw [tells.add, tells.one, report, hcount, hcard]

/-- The children of an inode are recounted one after the other. -/
theorem recounts_children {list : List InodeId} {parts : List Recounted}
    (below : ∀ {tx tx' : Transaction} {id : InodeId}
      {whole : Recounted}, tx.tree.WellFormed →
      recount depth id tx = .ok whole tx' →
      ∃ ids, tx.tree.Spans id ids ∧ Recounts tx tx' ids whole)
    (wf : tx.tree.WellFormed) (nodup : list.Nodup)
    (links : ∀ x ∈ list, tx.tree.HasParent x top)
    (h : list.mapM (recount depth) tx = .ok parts tx') :
    ∃ ids, (∀ x, x ∈ ids ↔ ∃ y ∈ list, tx.tree.Under y x) ∧
      Recounts tx tx' ids (parts.foldl Recounted.add {}) := by
  induction list generalizing tx parts with
  | nil =>
    rw [List.mapM_nil] at h
    obtain ⟨rfl, rfl⟩ := Outcome.pure_eq_ok.1 h
    exact ⟨∅, by simp, .nothing tx⟩
  | cons child rest ih =>
    rw [List.mapM_cons] at h
    simp only [Outcome.bind_eq_ok, Outcome.pure_eq_ok] at h
    obtain ⟨first, mid, hfirst, others, _, hrest, rfl, rfl⟩ := h
    obtain ⟨hnot, hnodup⟩ := List.nodup_cons.1 nodup
    obtain ⟨ids, spans, early⟩ := below wf hfirst
    have alike := early.recached.recast.alike
    have hlinks : ∀ x ∈ rest, mid.tree.HasParent x top := fun x hx =>
      (alike.hasParent x top).2 (links x (List.mem_cons_of_mem _ hx))
    obtain ⟨below, hbelow, late⟩ := ih (alike.wellFormed wf) hnodup hlinks hrest
    have hbelow' (x : InodeId) : x ∈ below ↔ ∃ y ∈ rest, tx.tree.Under y x := by
      rw [hbelow]
      simp only [alike.under]
    have disjoint : Disjoint ids below := by
      rw [Finset.disjoint_left]
      intro x hx hx'
      obtain ⟨y, hy, hunder⟩ := (hbelow' x).1 hx'
      have hne : child ≠ y := by
        rintro rfl
        exact hnot hy
      exact wf.disjoint_children (links child List.mem_cons_self)
        (links y (List.mem_cons_of_mem _ hy)) hne ((spans x).1 hx) hunder
    refine ⟨ids ∪ below, fun x => ?_, ?_⟩
    · rw [Finset.mem_union, spans, hbelow', List.exists_mem_cons_iff]
    · rw [List.foldl_cons, Recounted.foldl_add]
      have hzero : ({} : Recounted).add first = first := by
        simp [Recounted.add, RecountReport.add]
      rw [hzero]
      exact early.append late disjoint

theorem recounts_recount (wf : tx.tree.WellFormed)
    (h : recount depth id tx = .ok whole tx') :
    ∃ ids, tx.tree.Spans id ids ∧ Recounts tx tx' ids whole := by
  induction depth generalizing tx tx' id whole with
  | zero => cases h
  | succ depth ih =>
    simp only [recount, Outcome.bind_eq_ok, get_eq_ok, pendingFor_eq_ok] at h
    obtain ⟨inode, _, ⟨⟨_, live⟩, rfl⟩, _, tx, ⟨rfl, rfl⟩, parts, mid, hparts,
      h⟩ := h
    obtain ⟨below, hbelow, recounts⟩ := recounts_children ih wf
      (wf.children_nodup live) (fun x hx => (wf.mem_children live).1 hx) hparts
    have hnot : id ∉ below := by
      rw [hbelow]
      rintro ⟨y, hy, hunder⟩
      exact wf.not_under_parent ((wf.mem_children live).1 hy) hunder
    have spans : tx.tree.Spans id (insert id below) := by
      intro x
      rw [Finset.mem_insert, hbelow, under_iff_below]
      simp only [wf.mem_children live]
    refine ⟨insert id below, spans, ?_⟩
    rw [Recounted.foldl_add] at h
    cases hquota : inode.quota with
    | none =>
      simp only [hquota, Outcome.pure_eq_ok] at h
      obtain ⟨rfl, rfl⟩ := h
      exact recounts.plain live hquota hnot rfl rfl
        (by simp [Recounted.add, RecountReport.add])
    | some quota =>
      simp only [hquota, Outcome.bind_eq_ok, put_eq_ok, Outcome.pure_eq_ok] at h
      obtain ⟨_, _, ⟨_, rfl⟩, rfl, rfl⟩ := h
      exact recounts.cached wf live hquota hnot spans rfl rfl
        (by simp [Recounted.add, RecountReport.add])

/-- A subtree that is locked for writing as a whole, and no deeper than the
steps allowed, can be recounted. -/
def Recountable (tx : Transaction) (steps : Nat) (id : InodeId) : Prop :=
  (∃ inode, tx.tree id = some inode) ∧
  (∀ x, tx.tree.Under id x → tx.Allows x .write) ∧
    ∀ x depth deeper, tx.tree.Under id x → tx.tree.Depth id depth →
      tx.tree.Depth x deeper →
      deeper < depth + steps

theorem Recountable.of_recounts (recounts : Recounts tx tx' ids whole)
    (recountable : Recountable tx depth id) : Recountable tx' depth id := by
  have alike := recounts.recached.recast.alike
  obtain ⟨⟨inode, live⟩, allows, deep⟩ := recountable
  refine ⟨?_, fun x hx => ?_, fun x above below hx habove hbelow => ?_⟩
  · obtain ⟨found, hfound, _⟩ := alike.live live
    exact ⟨found, hfound⟩
  · rw [recounts.stores]
    exact allows x ((alike.under id x).1 hx)
  · have hback (x y : InodeId) : tx'.tree.HasParent x y →
        tx.tree.HasParent x y := (alike.hasParent x y).1
    exact deep x above below ((alike.under id x).1 hx) (habove.mono hback)
      (hbelow.mono hback)

theorem Recountable.child {inode : Inode} {child : InodeId}
    (wf : tx.tree.WellFormed) (live : tx.tree id = some inode)
    (hchild : child ∈ inode.children)
    (recountable : Recountable tx (depth + 1) id) :
    Recountable tx depth child := by
  have link := (wf.mem_children live).1 hchild
  obtain ⟨_, allows, deep⟩ := recountable
  refine ⟨?_, fun x hx => allows x ((Under.of_parent link).trans hx), ?_⟩
  · obtain ⟨found, hfound, _⟩ := link
    exact ⟨found, hfound⟩
  · intro x above below hx habove hbelow
    obtain ⟨top, htop⟩ := wf.descends live
    have := deep x top below ((Under.of_parent link).trans hx) htop hbelow
    have hsucc := wf.depth_unique habove (.child link htop)
    omega

theorem exists_recount_children {list : List InodeId}
    (exist : ∀ {tx : Transaction} {id : InodeId}, tx.tree.WellFormed →
      Recountable tx depth id →
      ∃ whole tx', recount depth id tx = .ok whole tx')
    (wf : tx.tree.WellFormed)
    (recountable : ∀ x ∈ list, Recountable tx depth x) :
    ∃ parts tx', list.mapM (recount depth) tx = .ok parts tx' := by
  induction list generalizing tx with
  | nil => exact ⟨[], tx, rfl⟩
  | cons child rest ih =>
    obtain ⟨first, mid, hfirst⟩ :=
      exist wf (recountable child List.mem_cons_self)
    obtain ⟨ids, _, recounts⟩ := recounts_recount wf hfirst
    obtain ⟨others, last, hrest⟩ :=
      ih (recounts.recached.recast.alike.wellFormed wf) fun x hx =>
        (recountable x (List.mem_cons_of_mem _ hx)).of_recounts recounts
    refine ⟨first :: others, last, ?_⟩
    rw [List.mapM_cons]
    simp only [Outcome.bind_eq_ok, Outcome.pure_eq_ok]
    exact ⟨first, mid, hfirst, others, last, hrest, rfl, rfl⟩

theorem exists_recount
    (wf : tx.tree.WellFormed) (recountable : Recountable tx depth id) :
    ∃ whole tx', recount depth id tx = .ok whole tx' := by
  induction depth generalizing tx id with
  | zero =>
    obtain ⟨⟨inode, live⟩, _, deep⟩ := recountable
    obtain ⟨above, habove⟩ := wf.descends live
    have := deep id above above (.refl _ _) habove habove
    omega
  | succ depth ih =>
    obtain ⟨inode, live⟩ := recountable.1
    have hwrite := recountable.2.1 id (.refl _ _)
    obtain ⟨parts, mid, hparts⟩ :=
      exists_recount_children ih wf fun x hx => recountable.child wf live hx
    obtain ⟨below, _, recounts⟩ := recounts_children recounts_recount wf
      (wf.children_nodup live) (fun x hx => (wf.mem_children live).1 hx) hparts
    simp only [recount, Outcome.bind_eq_ok, get_eq_ok, pendingFor_eq_ok]
    let whole := parts.foldl Recounted.add
      { used := inode.ownUsage, pending := tx.pendingFor [id] }
    cases hquota : inode.quota with
    | none =>
      refine ⟨whole, mid, inode, tx, ⟨⟨hwrite.read, live⟩, rfl⟩, _, tx,
        ⟨rfl, rfl⟩, parts, mid, hparts, ?_⟩
      simp only [hquota]
      rfl
    | some quota =>
      have hwrite' : mid.Allows inode.id .write := by
        rw [wf.ids live, recounts.stores]
        exact hwrite
      let report :=
        whole.report.add (RecountReport.ofQuota quota whole.pending whole.used)
      let last :=
        mid.stored (inode.withQuota { quota with cached := whole.used })
      refine ⟨{ whole with report }, last, inode, tx,
        ⟨⟨hwrite.read, live⟩, rfl⟩, _, tx, ⟨rfl, rfl⟩, parts, mid, hparts, ?_⟩
      simp only [hquota, Outcome.bind_eq_ok, put_eq_ok, Inode.id_withQuota,
        Outcome.pure_eq_ok]
      exact ⟨(), _, ⟨hwrite', rfl⟩, rfl, rfl⟩

def cleared (tx : Transaction) : Transaction :=
  { tx with clearing := true }

def recountAll : Work RecountReport := do
  let whole ← recount (← maxDepth) .root
  clearLedger
  pure whole.report

theorem recountAll_eq_ok {report : RecountReport} :
    recountAll tx = .ok report tx' ↔
      ∃ whole mid, recount (tx.view.size + 1) .root tx = .ok whole mid ∧
        whole.report = report ∧
        tx' = cleared mid := by
  simp only [recountAll, maxDepth, clearLedger, Outcome.bind_eq_ok,
    Outcome.get_bind, Outcome.pure_eq_ok, Outcome.modify_eq_ok]
  constructor
  · rintro ⟨_, _, ⟨rfl, rfl⟩, whole, mid, hrecount, _, _, rfl, rfl, rfl⟩
    exact ⟨whole, mid, hrecount, rfl, rfl⟩
  · rintro ⟨whole, mid, hrecount, rfl, rfl⟩
    exact ⟨_, tx, ⟨rfl, rfl⟩, whole, mid, hrecount, (), _, rfl, rfl, rfl⟩

/-- Afterwards every quota has cached what is used, and nothing is pending. -/
theorem mend_recountAll {report : RecountReport} (wf : tx.tree.WellFormed)
    (unsubmitted : tx.updates = []) (h : recountAll tx = .ok report tx') :
    Mend tx.books tx'.books := by
  obtain ⟨whole, mid, hrecount, rfl, rfl⟩ := recountAll_eq_ok.1 h
  obtain ⟨ids, spans, recounts⟩ := recounts_recount wf hrecount
  have hbase : mid.base = tx.base := by rw [recounts.stores]
  have hupdates : mid.updates = [] := by rw [recounts.stores, ← unsubmitted]
  have hbooks : (cleared mid).books =
      { tx.books with nodes := mid.tree, pending := fun _ => 0 } := by
    have hpending : (cleared mid).pendingAt = fun _ => 0 := by
      funext x
      simp [Transaction.pendingAt, cleared, hupdates]
    have hnext : (cleared mid).base.table.next = tx.base.table.next := by
      rw [← hbase]
      rfl
    simp only [Transaction.books, hpending, hnext]
    rfl
  rw [hbooks]
  refine .recount recounts.recached.recast fun {x quota below} hquota hbelow =>
    ?_
  obtain ⟨inode, live, _⟩ := quota_eq_some.1 hquota
  obtain ⟨old, hold, _⟩ := recounts.recached.recast.alike.symm.live live
  exact recounts.counted ((spans x).2 (wf.under_root hold)) hquota hbelow

end Work

end QuotaTree
