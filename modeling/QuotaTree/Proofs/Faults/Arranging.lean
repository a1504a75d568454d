/-
Deleting and renaming under locks for writing on the subtree or its topmost
inode, and on the directories that lose and gain a name.
-/
import QuotaTree.Proofs.Faults.Planning
import QuotaTree.Proofs.Request.Arrange

namespace QuotaTree

open Nodes

namespace Work

open Transaction

variable {tx : Transaction} {chain sourceParent parent : Chain}
  {entry name : Name} {id : InodeId} {rest : List Name} {depth : Nat}

theorem Frames.pruneEntry (depth : Nat) (chain : Chain)
    (entry : Name × InodeId) : Frames (pruneEntry depth chain entry) :=
  .bind (.prune _ _) fun _ => .bind (.unlinkLeaf _) fun _ => .pure _

/-- What is below inodes of one level less can be taken out where it may be
written. -/
abbrev PrunableBelow (depth : Nat) : Prop :=
  ∀ {tx : Transaction} {chain : Chain}, tx.Ready →
    Recountable tx depth chain.last →
    ∃ blocks tx', prune depth chain tx = .ok blocks tx'

/-- One entry of a subtree that may be written can be taken out with all that is
below it. -/
theorem exists_pruneEntry {entry : Name × InodeId} (below : PrunableBelow depth)
    (ready : tx.Ready)
    (listed : tx.tree.entryAt chain.last entry.1 = some entry.2)
    (recountable : Recountable tx (depth + 1) chain.last) :
    ∃ blocks tx', pruneEntry depth chain entry tx = .ok blocks tx' := by
  have wf := ready.wellFormed
  obtain ⟨holder, hholder, hchild⟩ := entryAt_eq_some.1 listed
  have hlink := wf.hasParent_of_child hholder hchild
  obtain ⟨deeper, mid, hprune⟩ := @below tx (chain.child entry.1 entry.2) ready
    (recountable.child wf hholder ((wf.mem_children hholder).2 hlink))
  obtain ⟨_, hprunes, hleaf⟩ := prunes_prune ready hprune
  have ext := (Frames.prune _ _).extends_of_ok hprune
  have hentry :=
    (hprunes.clears.entryAt (wf.not_under_parent hlink) entry.1).trans listed
  obtain ⟨removed, last, hremove⟩ :=
    exists_unlinkLeaf ((hprunes.strips.turns ready).ready ready) hentry hleaf
      (ext.allows (recountable.2.1 _ (.refl _ _)))
      (ext.allows (recountable.2.1 _ (.of_parent hlink)))
  refine ⟨deeper ++ removed.blocks, last, ?_⟩
  rw [pruneEntry, Outcome.bind_of_ok hprune, Outcome.bind_of_ok hremove]
  rfl

theorem exists_pruneEntries {entries : List (Name × InodeId)}
    (below : PrunableBelow depth) (ready : tx.Ready)
    (nodup : (entries.map Prod.fst).Nodup)
    (listed : ∀ entry ∈ entries, tx.tree.entryAt chain.last entry.1 =
      some entry.2)
    (recountable : Recountable tx (depth + 1) chain.last) :
    ∃ found tx', entries.mapM (pruneEntry depth chain) tx = .ok found tx' := by
  induction entries generalizing tx with
  | nil => exact ⟨[], tx, rfl⟩
  | cons entry rest ih =>
    have hlisted := listed entry List.mem_cons_self
    obtain ⟨blocks, mid, hentry⟩ :=
      exists_pruneEntry below ready hlisted recountable
    have hprunes := prunes_pruneEntry (fun ready h => (prunes_prune ready h).imp
      fun _ h => h.1) ready hlisted hentry
    have ext := (Frames.pruneEntry _ _ _).extends_of_ok hentry
    obtain ⟨found, last, hrest⟩ := ih ((hprunes.strips.turns ready).ready ready)
      (List.nodup_cons.1 nodup).2 (listed_of_prunes hprunes nodup listed)
      (recountable.of_clears hprunes.clears ext)
    refine ⟨blocks :: found, last, ?_⟩
    rw [List.mapM_cons, Outcome.bind_of_ok hentry, Outcome.bind_of_ok hrest]
    rfl

/-- Everything below the topmost inode of a subtree that may be written can be
taken out. -/
theorem exists_prune (ready : tx.Ready)
    (recountable : Recountable tx depth chain.last) :
    ∃ blocks tx', prune depth chain tx = .ok blocks tx' := by
  induction depth generalizing tx chain with
  | zero =>
    obtain ⟨⟨inode, live⟩, _, deep⟩ := recountable
    obtain ⟨above, habove⟩ := ready.wellFormed.descends live
    have := deep chain.last above above (.refl _ _) habove habove
    omega
  | succ depth ih =>
    obtain ⟨inode, live⟩ := recountable.1
    have hread := (recountable.2.1 chain.last (.refl _ _)).read
    obtain ⟨found, last, hentries⟩ :=
      exists_pruneEntries ih ready inode.entries_names_nodup
        (entries_listed live) recountable
    refine ⟨found.flatten, last, ?_⟩
    rw [prune_succ, Outcome.bind_of_ok (get_eq_ok.2 ⟨⟨hread, live⟩, rfl⟩),
      Outcome.bind_of_ok hentries]
    rfl

/-- An inode with everything below it can be deleted where all of it and the
directory above may be written, if it has no entries or they are to go with
it. -/
theorem exists_deleteTree {path : String} {recursive : Bool} {inode : Inode}
    (ready : tx.Ready) (leads : Chain.Leads tx.tree (parent.child name id))
    (live : tx.tree id = some inode)
    (accepted : ¬ (inode.entries ≠ [] ∧ recursive = false))
    (above : tx.Allows parent.last .write)
    (below : ∀ x, tx.tree.Under id x → tx.Allows x .write) :
    ∃ blocks tx', deleteTree (parent.child name id) path recursive tx =
        .ok blocks tx' := by
  have wf := ready.wellFormed
  have recountable :
      Recountable tx (tx.view.size + 1) (parent.child name id).last := by
    refine ⟨⟨inode, live⟩, below, fun x depth deeper hx _ hdeeper => ?_⟩
    obtain ⟨found, hfound⟩ :=
      Option.isSome_iff_exists.1 (isSome_of_under live hx)
    have := ready.reads.deep hfound hdeeper
    omega
  have hlink := leads.link wf
  cases leads with
  | child _ entry =>
    obtain ⟨blocks, mid, hprune⟩ := exists_prune ready recountable
    obtain ⟨_, hprunes, _⟩ := prunes_prune ready hprune
    have ext := (Frames.prune _ _).extends_of_ok hprune
    have hentry :=
      (hprunes.clears.entryAt (wf.not_under_parent hlink) name).trans entry
    obtain ⟨used, last, hunlink⟩ := exists_unlink
      ((hprunes.strips.turns ready).ready ready) hentry (ext.allows above)
      fun x hx => ext.allows (below x (hx.mono hprunes.clears.links))
    exact ⟨_, _, deleteTree_eq_ok.2 ⟨inode, blocks, mid, used, last,
      ⟨(below id (.refl _ _)).read, live⟩, accepted, hprune, hunlink, rfl, rfl⟩⟩

theorem faultless_deleteTree {path : String} {recursive : Bool}
    (ready : tx.Ready) (leads : Chain.Leads tx.tree chain)
    (above : ∀ parent, chain.parent? = some parent →
      tx.Allows parent.last .write)
    (below : ∀ x, tx.tree.Under chain.last x → tx.Allows x .write) :
    Faultless (deleteTree chain path recursive) tx := by
  obtain ⟨inode, live⟩ := leads.live ready.wellFormed
  have hget : get chain.last tx = .ok inode tx :=
    get_eq_ok.2 ⟨⟨(below _ (.refl _ _)).read, live⟩, rfl⟩
  cases leads with
  | root => exact .throw_bind rfl
  | @child parent name id _ entry =>
    by_cases accepted : inode.entries ≠ [] ∧ recursive = false
    · unfold deleteTree
      extract_lets rest
      refine .guarded rfl fun _ => .bind_of_ok hget ?_
      exact .guarded rfl fun h => absurd accepted h
    · obtain ⟨blocks, tx', h⟩ := exists_deleteTree ready
        (.child ‹_› entry) live accepted (above parent rfl) below
      exact .of_ok h

/-- A path is deleted under locks for writing on its whole subtree and the
directory above. -/
theorem faultless_deletePath {path : String} {recursive : Bool}
    (ready : tx.Ready)
    (grants : tx.Grants
      { path, kind := .writeWithParent, scope := .subtree } chain rest) :
    Faultless (deletePath path recursive) tx := by
  refine .bind_of_ok (read_of_ok grants.resolves) ?_
  cases rest with
  | cons => exact .pure _ _
  | nil =>
    refine .map (faultless_deleteTree ready (grants.leads ready)
      (grants.above rfl rfl) ?_)
    intro x hx
    by_cases hlast : x = chain.last
    · exact hlast ▸ grants.last
    · exact grants.below rfl rfl x hx hlast

theorem ids_stored (wf : tx.tree.WellFormed) (inode : Inode) :
    ∀ x found, (tx.stored inode).tree x = some found → found.id = x := by
  intro x found hfound
  rw [tree_stored, set_apply] at hfound
  split at hfound
  next heq => exact Option.some.inj hfound ▸ heq.symm
  next => exact wf.ids hfound

/-- An inode can be moved where it may be written with both directories, and
what lies below it may be read, unless it is refused by quotas, which are asked
first, or for another reason.  If the link at the new place is refused, the one
at the old place is made again. -/
theorem fails_move {post : Error → Prop} (ready : tx.Ready)
    (entered : tx.tree.entryAt sourceParent.last entry = some id)
    (held : tx.Held (sourceParent.child entry id)) (target : tx.Held parent)
    (below : ∀ x, tx.tree.Under id x → tx.Allows x .read)
    (own : tx.Allows id .write) (loses : tx.Allows sourceParent.last .write)
    (gains : tx.Allows parent.last .write)
    (quotas : ∀ {used error}, tx.view.usage id = .ok used →
      tx.keepsQuota = true →
      Chain.verifyQuota tx.view parent parent.length used
        (some ((sourceParent.child entry id).commonAncestor parent)) =
        .error error → post error)
    (others : ∀ {error : Error}, error.isInternal = false →
      error.isQuota = false → post error) :
    Fails (move (sourceParent.child entry id) sourceParent parent name) tx
      fun error _ =>
      post error := by
  have wf := ready.wellFormed
  obtain ⟨holder, hholder, hchild⟩ := entryAt_eq_some.1 entered
  have hlink := wf.hasParent_of_child hholder hchild
  obtain ⟨allows, inode, live⟩ := held.last
  have hown : tx.Allows inode.id .write := by rwa [wf.ids live]
  obtain ⟨ids, hsubtree, _, hmem, husage⟩ :=
    ready.reads.exists_usage wf live fun x hx => view_opens (below x hx)
  refine .bind_of_ok (read_of_ok husage) (.bind_of_ok (read_of_ok hsubtree) ?_)
  refine .bind_of_ok (pendingFor_eq_ok.2 ⟨rfl, rfl⟩) (.get_bind ?_)
  refine .when (fun keeps => fails_read
    fun error herror => quotas husage keeps herror) fun mid hmid => ?_
  obtain ⟨_, rfl⟩ := quota_verified_iff.1 hmid
  refine .bind_of_ok (get_eq_ok.2 ⟨⟨allows, live⟩, rfl⟩) ?_
  have hdirectory : holder.isDirectory = true :=
    Inode.isDirectory_of_child? hchild
  refine .step (detach_eq_ok.2
    ⟨holder, ⟨opened_of_allows wf hholder loses, hdirectory⟩, rfl⟩) ?_
  refine .bind ((fails_verifyEntry (target.stored _) name).mono
    fun _ _ h => others h.1.1 h.1.2) fun _ mid hverify => ?_
  obtain ⟨_, rfl⟩ := verifyEntry_eq_ok.1 hverify
  have hout : (holder.withoutChild entry).id ∉ ids := by
    rw [(Inode.loses_withoutChild holder entry).id, wf.ids hholder, hmem]
    exact wf.not_under_parent hlink
  refine .bind_of_ok
    (unlink_moving_eq_ok.2 ⟨rfl, ids, subtree_stored hsubtree hout, rfl⟩) ?_
  -- neither link asks the quotas
  have hfree {error : Error} (h : error.isQuota = true → false = true) :
      error.isQuota = false :=
    Bool.eq_false_iff.2 fun hquota => Bool.false_ne_true (h hquota)
  refine .tryCatch (.bind (fails_framed (.link _ _ _ _) (fails_link
    (ids_stored wf _ _) (target.stored _) gains hown)) fun _ _ _ => .pure _ _)
    fun error mid hcaught => ?_
  obtain ⟨⟨⟨hreason, hquota⟩, htree⟩, ext⟩ := hcaught
  refine .bind ((fails_link (fun found h => ids_stored wf _ _ _ (htree ▸ h)) ?_
    (ext.allows loses) (ext.allows hown)).mono fun _ _ h => others h.1.1
      (hfree h.1.2)) fun _ _ _ => .throw (others hreason (hfree hquota))
  exact ((held.above.stored _).accounted _ _).later ext
    fun x found h => ⟨found, htree ▸ h⟩

theorem harmless_destination {source : Chain} {isDirectory : Bool}
    {path : String} :
    Harmless (destination source chain rest isDirectory path) := by
  unfold destination
  split
  · split
    · exact .pure _
    · split
      · exact .pure _
      · exact .throw rfl
  · exact .pure _
  · exact .throw rfl

/-- Under the locks for moving what a path leads to, all of it may be read. -/
theorem allows_moving {path : String}
    (leaving : tx.Grants { path, kind := .writeWithParent, scope := .subtree,
                           belowMode := .read } chain [])
    (x : InodeId) (hx : tx.tree.Under chain.last x) : tx.Allows x .read := by
  by_cases hlast : x = chain.last
  · exact hlast ▸ Allows.read leaving.last
  · exact leaving.below rfl rfl x hx hlast

/-- A path is renamed under locks for writing on its end, the directory above,
and the end of the destination; below its end a lock for reading is enough. -/
theorem faultless_renamePath {source destination : String}
    {chain target : Chain} {left rest : List Name} (ready : tx.Ready)
    (leaving : tx.Grants { path := source, kind := .writeWithParent,
                           scope := .subtree, belowMode := .read } chain left)
    (entering : tx.Grants { path := destination, kind := .writeWithParent }
      target rest) :
    Faultless (renamePath source destination) tx := by
  unfold renamePath
  refine faultless_resolve leaving rfl fun hleft => ?_
  subst hleft
  have leads := leaving.leads ready
  cases leads with
  | root => exact .throw rfl
  | @child sourceParent entry id above entered =>
    refine .bind_of_ok (read_of_ok entering.resolves) ?_
    obtain ⟨allows, inode, live⟩ := (entering.held ready).last
    refine .bind_of_ok (get_eq_ok.2 ⟨⟨allows, live⟩, rfl⟩) ?_
    refine .bind (.ofExcept fun error => harmless_destination error)
      fun place _ h => ?_
    obtain ⟨hplace, rfl⟩ := Outcome.ofExcept_eq_ok.1 h
    cases place with
    | here => exact .pure _ _
    | into parent name =>
      have found := Transaction.view_get_eq_ok.2 ⟨allows, live⟩
      obtain ⟨rfl, _⟩ := into_of_destination entering.resolves found hplace
      refine .guarded rfl fun _ => ?_
      refine .ite (fun _ => .pure _ _) fun _ => ?_
      refine .bind ?_ fun _ _ _ => faultless_journal _ _
      have target := entering.held ready
      exact fails_move ready entered (leaving.held ready) target (allows_moving
        leaving) leaving.last (leaving.above rfl rfl _ rfl) entering.last
        (fun _ _ h => target.harmless_verifyQuota _ _ _ _ h) fun h _ => h

end Work

end QuotaTree
