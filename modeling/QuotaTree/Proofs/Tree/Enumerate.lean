/-
Enumerating a subtree level by level.  In a well-formed tree the list holds
exactly what lies under its first inode, each inode once; and the number of
levels never exceeds the number of inodes, so the walk comes to its end.
-/
import QuotaTree.Proofs.Outcome
import QuotaTree.Proofs.Tree.Shape
import Mathlib.Data.List.Nodup
import Mathlib.Data.List.Perm.Subperm

namespace QuotaTree

open Nodes

/-- A view answers with the inodes of a tree, where it answers, and can see deep
enough. -/
structure View.Reads (view : View) (nodes : Nodes) : Prop where
  faithful : ∀ {id found}, view.find id = .ok found → found = nodes id
  deep : ∀ {id inode depth}, nodes id = some inode → nodes.Depth id depth →
    depth < view.size

def View.Opens (view : View) (nodes : Nodes) (id : InodeId) : Prop :=
  view.find id = .ok (nodes id)

namespace Nodes

variable {nodes : Nodes} {id : InodeId} {inode : Inode}

/-- The inodes on the way from the root are all different. -/
theorem WellFormed.exists_line (wf : nodes.WellFormed) {depth : Nat}
    (live : nodes id = some inode) (h : nodes.Depth id depth) :
    ∃ line : List InodeId, line.length = depth + 1 ∧ line.Nodup ∧
      ∀ x ∈ line, (nodes x).isSome ∧ ∃ above ≤ depth, nodes.Depth x above := by
  induction h generalizing inode with
  | root =>
    exact ⟨[.root], rfl, List.nodup_singleton _, by simp [live, Depth.root]⟩
  | @child id parent depth link above ih =>
    obtain ⟨holder, hholder, _⟩ := wf.live_parent link
    obtain ⟨line, hlength, hnodup, hline⟩ := ih hholder
    refine ⟨id :: line, by
      rw [List.length_cons, hlength], List.nodup_cons.2 ⟨?_, hnodup⟩, ?_⟩
    · intro hmem
      obtain ⟨_, upper, hle, hupper⟩ := hline id hmem
      have := wf.depth_unique hupper (.child link above)
      omega
    · intro x hx
      rcases List.mem_cons.1 hx with rfl | hx
      · exact ⟨by simp [live], depth + 1, Nat.le_refl _, .child link above⟩
      · obtain ⟨hlive, upper, hle, hupper⟩ := hline x hx
        exact ⟨hlive, upper, by omega, hupper⟩

/-- No inode lies deeper than there are inodes. -/
theorem WellFormed.depth_lt (wf : nodes.WellFormed) {keys : List InodeId}
    (within : ∀ x, (nodes x).isSome → x ∈ keys) {depth : Nat}
    (live : nodes id = some inode) (h : nodes.Depth id depth) :
    depth < keys.length := by
  obtain ⟨line, hlength, hnodup, hline⟩ := wf.exists_line live h
  have hsub : line ⊆ keys := fun x hx => within x (hline x hx).1
  have := (List.subperm_of_subset hnodup hsub).length_le
  omega

/-- Everything under an inode is that inode or lies under an inode that it
lists. -/
theorem under_iff_below {top x : InodeId} : nodes.Under top x ↔ x = top ∨
    ∃ y, nodes.HasParent y top ∧ nodes.Under y x := by
  constructor
  · intro h
    rcases Relation.ReflTransGen.cases_tail h with heq | ⟨y, hy, hlast⟩
    · exact .inl heq.symm
    · exact .inr ⟨y, hlast, hy⟩
  · rintro (rfl | ⟨y, hy, hrest⟩)
    · exact .refl nodes _
    · exact (Under.of_parent hy).trans hrest

theorem WellFormed.mem_children (wf : nodes.WellFormed)
    (live : nodes id = some inode) {x : InodeId} :
    x ∈ inode.children ↔ nodes.HasParent x id := by
  rw [Inode.mem_children, hasParent_iff_placedAt]
  simp only [← wf.edge, entryAt_of_live live]

theorem WellFormed.children_nodup (wf : nodes.WellFormed)
    (live : nodes id = some inode) : inode.children.Nodup := by
  have hpairs : inode.entries.Nodup :=
    List.Nodup.of_map _ inode.entries_names_nodup
  refine List.Nodup.map_on ?_ hpairs
  rintro ⟨name, x⟩ hx ⟨name', x'⟩ hx' heq
  rw [Inode.mem_entries] at hx hx'
  obtain rfl : x = x' := heq
  rw [(wf.child_unique live hx live hx').2]

/-- What lies under an inode that is there is there. -/
theorem isSome_of_under {top x : InodeId} (live : nodes top = some inode)
    (h : nodes.Under top x) : (nodes x).isSome := by
  rcases Relation.ReflTransGen.cases_head h with rfl |
    ⟨y, ⟨found, hfound, _⟩, _⟩
  · simp [live]
  · simp [hfound]

end Nodes

namespace View

variable {view : View} {nodes : Nodes} {id : InodeId} {inode : Inode}

theorem Reads.get (reads : view.Reads nodes) (h : view.get id = .ok inode) :
    nodes id = some inode := by
  unfold View.get at h
  simp only [Outcome.except_bind_eq_ok] at h
  obtain ⟨found, hfound, hmatch⟩ := h
  have hsame := reads.faithful hfound
  cases found with
  | none => simp at hmatch
  | some found =>
    rw [Outcome.except_pure_eq_ok] at hmatch
    rw [← hsame, hmatch]

theorem Opens.get (opens : view.Opens nodes id) (live : nodes id = some inode) :
    view.get id = .ok inode := by
  unfold View.get
  rw [show view.find id = .ok (some inode) from opens.trans (by rw [live])]
  rfl

theorem Reads.childrenOf (reads : view.Reads nodes) {ids : List InodeId}
    (h : view.childrenOf id = .ok ids) :
    ∃ inode, nodes id = some inode ∧ ids = inode.children := by
  unfold View.childrenOf at h
  simp only [Outcome.except_bind_eq_ok, Outcome.except_pure_eq_ok] at h
  obtain ⟨inode, hget, heq⟩ := h
  exact ⟨inode, reads.get hget, heq.symm⟩

theorem Opens.childrenOf (opens : view.Opens nodes id)
    (live : nodes id = some inode) :
    view.childrenOf id = .ok inode.children := by
  unfold View.childrenOf
  rw [opens.get live]
  rfl

/-- The level below a level: what has its parent there. -/
theorem Reads.mem_below (reads : view.Reads nodes) (wf : nodes.WellFormed)
    {level : List InodeId} {below : List (List InodeId)}
    (h : List.Forall₂ (fun id ids => view.childrenOf id = .ok ids) level below)
    (x : InodeId) :
    x ∈ below.flatten ↔ ∃ top ∈ level, nodes.HasParent x top := by
  induction h with
  | nil => simp
  | cons hhead _ ih =>
    obtain ⟨inode, live, rfl⟩ := reads.childrenOf hhead
    rw [List.flatten_cons, List.mem_append, ih, wf.mem_children live]
    simp

theorem Reads.below_nodup (reads : view.Reads nodes) (wf : nodes.WellFormed)
    {level : List InodeId} {below : List (List InodeId)}
    (h : List.Forall₂ (fun id ids => view.childrenOf id = .ok ids) level below)
    (nodup : level.Nodup) : below.flatten.Nodup := by
  induction h with
  | nil => simp
  | cons hhead htail ih =>
    obtain ⟨inode, live, rfl⟩ := reads.childrenOf hhead
    obtain ⟨hnot, hnodup⟩ := List.nodup_cons.1 nodup
    rw [List.flatten_cons, List.nodup_append']
    refine ⟨wf.children_nodup live, ih hnodup, ?_⟩
    intro x hx hrest
    rw [wf.mem_children live] at hx
    obtain ⟨top, htop, hx'⟩ := (reads.mem_below wf htail x).1 hrest
    exact hnot (hx.unique hx' ▸ htop)

theorem levels_cons_eq_ok {steps : Nat} {level ids : List InodeId}
    {id : InodeId} :
    view.levels (steps + 1) (id :: level) = .ok ids ↔
      ∃ below deeper, List.Forall₂ (fun id ids => view.childrenOf id = .ok ids)
          (id :: level) below ∧
        view.levels steps below.flatten = .ok deeper ∧
        id :: level ++ deeper = ids := by
  rw [View.levels.eq_3 _ _ _ (by simp)]
  simp only [Outcome.except_bind_eq_ok, Outcome.except_mapM_eq_ok,
    Outcome.except_pure_eq_ok]
  constructor
  · rintro ⟨below, hbelow, deeper, hdeeper, heq⟩
    exact ⟨below, deeper, hbelow, hdeeper, heq⟩
  · rintro ⟨below, deeper, hbelow, hdeeper, heq⟩
    exact ⟨below, hbelow, deeper, hdeeper, heq⟩

/-- A walk comes to the same inodes in a view that sees them the same and at
least as deep. -/
theorem levels_congr {other : View} {steps more : Nat}
    {level ids : List InodeId} (h : view.levels steps level = .ok ids)
    (same : ∀ x ∈ ids, other.find x = view.find x) (enough : steps ≤ more) :
    other.levels more level = .ok ids := by
  induction steps generalizing level ids more with
  | zero =>
    cases level with
    | nil =>
      cases h
      cases more <;> rfl
    | cons id rest => cases h
  | succ steps ih =>
    cases level with
    | nil =>
      cases h
      cases more <;> rfl
    | cons id rest =>
      obtain ⟨below, deeper, hbelow, hdeeper, rfl⟩ := levels_cons_eq_ok.1 h
      obtain ⟨more, rfl⟩ : ∃ fewer, more = fewer + 1 := ⟨more - 1, by omega⟩
      refine levels_cons_eq_ok.2 ⟨below, deeper, ?_, ih hdeeper ?_ (by omega),
        rfl⟩
      · have hboth :=
          (List.forall₂_and_left (id :: rest) below).2 ⟨fun x hx => hx, hbelow⟩
        refine hboth.imp fun x ids ⟨hx, hids⟩ => ?_
        rw [← hids]
        unfold View.childrenOf View.get
        rw [same x (List.mem_append_left _ hx)]
      · exact fun x hx => same x (List.mem_append_right _ hx)

/-- The levels below a level hold what lies under it. -/
theorem Reads.mem_levels (reads : view.Reads nodes) (wf : nodes.WellFormed)
    {steps : Nat} {level ids : List InodeId}
    (h : view.levels steps level = .ok ids) (x : InodeId) :
    x ∈ ids ↔ ∃ top ∈ level, nodes.Under top x := by
  induction steps generalizing level ids with
  | zero =>
    cases level with
    | nil =>
      cases h
      simp
    | cons id rest => cases h
  | succ steps ih =>
    cases level with
    | nil =>
      cases h
      simp
    | cons id rest =>
      obtain ⟨below, deeper, hbelow, hdeeper, rfl⟩ := levels_cons_eq_ok.1 h
      rw [List.mem_append, ih hdeeper]
      simp only [reads.mem_below wf hbelow]
      constructor
      · rintro (hx | ⟨y, ⟨top, htop, hy⟩, hunder⟩)
        · exact ⟨x, hx, .refl nodes x⟩
        · exact ⟨top, htop, (Under.of_parent hy).trans hunder⟩
      · rintro ⟨top, htop, hunder⟩
        rcases under_iff_below.1 hunder with rfl | ⟨y, hy, hrest⟩
        · exact .inl htop
        · exact .inr ⟨y, ⟨top, htop, hy⟩, hrest⟩

/-- No inode is listed twice, since the levels lie at different depths. -/
theorem Reads.levels_nodup (reads : view.Reads nodes) (wf : nodes.WellFormed)
    {steps depth : Nat} {level ids : List InodeId}
    (h : view.levels steps level = .ok ids) (nodup : level.Nodup)
    (hdepth : ∀ x ∈ level, nodes.Depth x depth) :
    ids.Nodup ∧ ∀ x ∈ ids, ∃ deeper ≥ depth, nodes.Depth x deeper := by
  induction steps generalizing level ids depth with
  | zero =>
    cases level with
    | nil =>
      cases h
      simp
    | cons id rest => cases h
  | succ steps ih =>
    cases level with
    | nil =>
      cases h
      simp
    | cons id rest =>
      obtain ⟨below, deeper, hbelow, hdeeper, rfl⟩ := levels_cons_eq_ok.1 h
      have hnext : ∀ x ∈ below.flatten, nodes.Depth x (depth + 1) := by
        intro x hx
        obtain ⟨top, htop, hparent⟩ := (reads.mem_below wf hbelow x).1 hx
        exact .child hparent (hdepth top htop)
      obtain ⟨hnodup, hdeep⟩ :=
        ih hdeeper (reads.below_nodup wf hbelow nodup) hnext
      refine ⟨List.nodup_append'.2 ⟨nodup, hnodup, ?_⟩, ?_⟩
      · intro x hx hx'
        obtain ⟨again, hge, hagain⟩ := hdeep x hx'
        have := wf.depth_unique (hdepth x hx) hagain
        omega
      · intro x hx
        rcases List.mem_append.1 hx with hx | hx
        · exact ⟨depth, Nat.le_refl _, hdepth x hx⟩
        · obtain ⟨again, hge, hagain⟩ := hdeep x hx
          exact ⟨again, by omega, hagain⟩

/-- With as many steps as the tree can be deep, the walk comes to its end. -/
theorem Reads.exists_levels (reads : view.Reads nodes) (wf : nodes.WellFormed)
    {steps depth : Nat} {level : List InodeId}
    (enough : view.size < steps + depth)
    (live : ∀ x ∈ level, (nodes x).isSome ∧ nodes.Depth x depth)
    (opens : ∀ top ∈ level, ∀ x, nodes.Under top x → view.Opens nodes x) :
    ∃ ids, view.levels steps level = .ok ids := by
  induction steps generalizing level depth with
  | zero =>
    cases level with
    | nil => exact ⟨[], by simp [View.levels, pure, Except.pure]⟩
    | cons id rest =>
      obtain ⟨hlive, hdepth⟩ := live id List.mem_cons_self
      obtain ⟨inode, hinode⟩ := Option.isSome_iff_exists.1 hlive
      have := reads.deep hinode hdepth
      omega
  | succ steps ih =>
    cases level with
    | nil => exact ⟨[], by simp [View.levels, pure, Except.pure]⟩
    | cons id rest =>
      have hbelow : ∃ below, List.Forall₂ (fun id ids => view.childrenOf id =
            .ok ids) (id :: rest) below := by
        refine ⟨(id :: rest).map fun x => ((nodes x).map Inode.children).getD
          [], ?_⟩
        rw [List.forall₂_map_right_iff, List.forall₂_same]
        intro x hx
        obtain ⟨inode, hinode⟩ := Option.isSome_iff_exists.1 (live x hx).1
        rw [(opens x hx x (.refl nodes x)).childrenOf hinode, hinode]
        rfl
      obtain ⟨below, hbelow⟩ := hbelow
      have hnext :
          ∀ x ∈ below.flatten, ∃ top ∈ id :: rest, nodes.HasParent x top :=
        fun x hx => (reads.mem_below wf hbelow x).1 hx
      obtain ⟨deeper, hdeeper⟩ := @ih (depth + 1) below.flatten (by omega)
        (fun x hx => by
          obtain ⟨top, htop, inode, hinode, hparent⟩ := hnext x hx
          exact ⟨by
            simp [hinode], .child ⟨inode, hinode, hparent⟩ (live top htop).2⟩)
        (fun y hy x hunder => by
          obtain ⟨top, htop, hparent⟩ := hnext y hy
          exact opens top htop x ((Under.of_parent hparent).trans hunder))
      exact ⟨_, levels_cons_eq_ok.2 ⟨below, deeper, hbelow, hdeeper, rfl⟩⟩

/-- A subtree is listed exactly. -/
theorem Reads.mem_subtree (reads : view.Reads nodes) (wf : nodes.WellFormed)
    {ids : List InodeId} (h : view.subtree id = .ok ids) (x : InodeId) :
    x ∈ ids ↔ nodes.Under id x := by
  rw [reads.mem_levels wf h]
  simp

/-- The inode that a walk starts with is there. -/
theorem Reads.live_of_subtree (reads : view.Reads nodes) {ids : List InodeId}
    (h : view.subtree id = .ok ids) : ∃ inode, nodes id = some inode := by
  obtain ⟨below, _, hbelow, _⟩ := levels_cons_eq_ok.1 h
  cases hbelow with
  | cons hhead _ =>
    obtain ⟨inode, hinode, _⟩ := reads.childrenOf hhead
    exact ⟨inode, hinode⟩

theorem Reads.subtree_nodup (reads : view.Reads nodes) (wf : nodes.WellFormed)
    {ids : List InodeId} (h : view.subtree id = .ok ids) : ids.Nodup := by
  obtain ⟨inode, live⟩ := reads.live_of_subtree h
  obtain ⟨depth, hdepth⟩ := wf.descends live
  exact (reads.levels_nodup wf h (List.nodup_singleton id)
    (by simpa using hdepth)).1

theorem Reads.exists_subtree (reads : view.Reads nodes) (wf : nodes.WellFormed)
    (live : nodes id = some inode)
    (opens : ∀ x, nodes.Under id x → view.Opens nodes x) :
    ∃ ids, view.subtree id = .ok ids := by
  obtain ⟨depth, hdepth⟩ := wf.descends live
  refine @Reads.exists_levels _ _ reads wf _ depth _ (by omega) ?_ ?_
  · simpa [live] using hdepth
  · simpa using opens

end View

namespace InodeTable

variable {table : InodeTable}

theorem isSome_find?_iff_mem_keys (id : InodeId) :
    (table.find? id).isSome ↔ id ∈ table.nodes.keys := by
  rw [find?, Std.ExtTreeMap.mem_keys, ← Std.ExtTreeMap.isSome_getElem?_iff_mem]

theorem view_reads (wf : table.tree.WellFormed) :
    table.view.Reads table.tree where
  faithful h := (Except.ok.inj h).symm
  deep live hdepth := by
    have :=
      wf.depth_lt (fun x hx => (isSome_find?_iff_mem_keys x).1 hx) live hdepth
    rwa [Std.ExtTreeMap.length_keys] at this

theorem view_opens (id : InodeId) : table.view.Opens table.tree id :=
  rfl

end InodeTable

end QuotaTree
