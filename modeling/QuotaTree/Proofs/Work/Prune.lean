/-
Taking out everything below an inode, entry by entry and the deepest first.
Outside of the subtree nothing is touched, and its topmost inode keeps its
place.
-/
import QuotaTree.Proofs.Work.Turns
import QuotaTree.Request.Delete

namespace QuotaTree

open Nodes

/-- The tree after some of what lies below an inode has been taken out. -/
structure Nodes.Clears (nodes after : Nodes) (top : InodeId) : Prop where
  outside : ∀ x, ¬ nodes.Under top x → after x = nodes x
  top : ∀ {inode}, nodes top = some inode → ∃ new, after top = some new ∧
    inode.SameUse new
  links : ∀ x y, after.HasParent x y → nodes.HasParent x y

namespace Nodes.Clears

variable {nodes middle after : Nodes} {top id : InodeId}

theorem refl (nodes : Nodes) (top : InodeId) : nodes.Clears nodes top :=
  ⟨fun _ _ => rfl, fun h => ⟨_, h, .refl _⟩, fun _ _ h => h⟩

theorem trans (early : nodes.Clears middle top)
    (late : middle.Clears after top) : nodes.Clears after top where
  outside x hx := by
    have hmiddle : ¬ middle.Under top x := fun h => hx (h.mono early.links)
    rw [late.outside x hmiddle, early.outside x hx]
  top live := by
    obtain ⟨new, hnew, same⟩ := early.top live
    obtain ⟨last, hlast, same'⟩ := late.top hnew
    exact ⟨last, hlast, same.trans same'⟩
  links x y h := early.links x y (late.links x y h)

/-- What is cleared below an inode is cleared below its parent. -/
theorem of_child (clears : nodes.Clears after id) (wf : nodes.WellFormed)
    (link : nodes.HasParent id top) : nodes.Clears after top where
  outside x hx := clears.outside x fun h => hx ((Under.of_parent link).trans h)
  top live := by
    rw [clears.outside top (wf.not_under_parent link)]
    exact ⟨_, live, .refl _⟩
  links := clears.links

theorem entryAt (clears : nodes.Clears after top) {parent : InodeId}
    (h : ¬ nodes.Under top parent) (name : Name) :
    after.entryAt parent name = nodes.entryAt parent name := by
  rw [Nodes.entryAt, clears.outside parent h, Nodes.entryAt]

end Nodes.Clears

namespace Work

open Transaction

variable {tx tx' : Transaction} {chain parent : Chain} {name : Name}
  {inode : Inode} {id : InodeId} {depth : Nat} {blocks : List Block}

/-- Leaves are taken out one after the other, and their blocks are collected. -/
inductive Strips (tx : Transaction) : Transaction → List Block → Prop
  | refl : Strips tx tx []
  | leaf {mid tx' : Transaction} {blocks : List Block} {parent : Chain}
      {name : Name} {id : InodeId} {inode : Inode}
      (early : Strips tx mid blocks)
      (entry : mid.tree.entryAt parent.last name = some id)
      (h : unlinkLeaf (parent.child name id) mid = .ok inode tx') :
    Strips tx tx' (blocks ++ inode.blocks)

namespace Strips

theorem trans {mid : Transaction} {more : List Block}
    (early : Strips tx mid blocks) (late : Strips mid tx' more) :
    Strips tx tx' (blocks ++ more) := by
  induction late with
  | refl => rwa [List.append_nil]
  | leaf _ entry h ih =>
    rw [← List.append_assoc]
    exact .leaf ih entry h

theorem turns (strips : Strips tx tx' blocks) (ready : tx.Ready) :
    tx.Turns tx' := by
  induction strips with
  | refl => exact .refl tx
  | leaf _ entry h ih =>
    exact ih.trans (turns_unlinkLeaf (ih.ready ready) entry h)

end Strips

/-- A leaf is taken out together with its entry. -/
theorem clears_unlinkLeaf (ready : tx.Ready)
    (entry : tx.tree.entryAt parent.last name = some id)
    (h : unlinkLeaf (parent.child name id) tx = .ok inode tx') :
    tx.tree.Clears tx'.tree parent.last ∧
    ∀ other, tx'.tree.entryAt parent.last other =
      if other = name then none else tx.tree.entryAt parent.last other := by
  obtain ⟨⟨live, _, _, _, _⟩, holder, opened, rfl⟩ := unlinkLeaf_eq_ok.1 h
  have wf := ready.wellFormed
  have hid : holder.id = parent.last := wf.ids opened.live
  have loses := Inode.loses_withoutChild holder name
  have hlink : tx.tree.HasParent id parent.last := by
    rw [entryAt_of_live opened.live] at entry
    exact wf.hasParent_of_child opened.live entry
  have hne : parent.last ≠ id := by
    intro heq
    exact wf.not_under_parent hlink (heq ▸ .refl _ _)
  have htree (x : InodeId) :
      (tx.unlinked holder parent.last name [id] inode.ownUsage).tree x =
      if x = id then none
          else tx.tree.set parent.last (some (holder.withoutChild name)) x := by
    rw [tree_unlinked hid]
    simp
  have hparent :
      (tx.unlinked holder parent.last name [id] inode.ownUsage).tree
        parent.last = some (holder.withoutChild name) := by
    rw [htree, if_neg hne, set_self]
  refine
    ⟨⟨fun x hx => ?_, fun {old} hold => ?_, fun x y hxy => ?_⟩, fun other => ?_⟩
  · have hx' : x ≠ id := by
      rintro rfl
      exact hx (.of_parent hlink)
    have hx'' : x ≠ parent.last := by
      rintro rfl
      exact hx (.refl _ _)
    rw [htree, if_neg hx', set_of_ne _ hx'']
  · rw [opened.live, Option.some_inj] at hold
    exact ⟨_, hparent, hold ▸ loses.toSameUse⟩
  · obtain ⟨found, hfound, hy⟩ := hxy
    rw [htree] at hfound
    split at hfound
    next => cases hfound
    next =>
      exact (hasParent_set opened.live loses.toSamePlace x y).1
        ⟨found, hfound, hy⟩
  · rw [entryAt_of_live hparent, entryAt_of_live opened.live, loses.child]

/-- Some entries of an inode are taken out with all that is below them. -/
structure Prunes (tx tx' : Transaction) (top : InodeId) (names : List Name)
    (blocks : List Block) : Prop where
  strips : Strips tx tx' blocks
  clears : tx.tree.Clears tx'.tree top
  entries : ∀ name, tx'.tree.entryAt top name =
    if name ∈ names then none else tx.tree.entryAt top name

theorem Prunes.append {mid : Transaction} {top : InodeId}
    {names others : List Name} {more : List Block}
    (early : Prunes tx mid top names blocks)
    (late : Prunes mid tx' top others more) :
    Prunes tx tx' top (names ++ others) (blocks ++ more) where
  strips := early.strips.trans late.strips
  clears := early.clears.trans late.clears
  entries name := by
    rw [late.entries, early.entries]
    by_cases hname : name ∈ names
    · simp [hname]
    · simp only [List.mem_append, hname, false_or, if_false]

def pruneEntry (depth : Nat) (chain : Chain) (entry : Name × InodeId) :
    Work (List Block) := do
  let child := chain.child entry.1 entry.2
  let deeper ← prune depth child
  let removed ← unlinkLeaf child
  pure (deeper ++ removed.blocks)

theorem prune_succ (depth : Nat) (chain : Chain) :
    prune (depth + 1) chain = (do
      let inode ← get chain.last
      let blocks ← inode.entries.mapM (pruneEntry depth chain)
      pure blocks.flatten) :=
  rfl

/-- What pruning the inodes of one level less does. -/
abbrev PrunesBelow (depth : Nat) : Prop :=
  ∀ {tx tx' : Transaction} {chain : Chain} {blocks : List Block}, tx.Ready →
    prune depth chain tx = .ok blocks tx' →
    ∃ names, Prunes tx tx' chain.last names blocks

theorem prunes_pruneEntry {entry : Name × InodeId} (below : PrunesBelow depth)
    (ready : tx.Ready)
    (listed : tx.tree.entryAt chain.last entry.1 = some entry.2)
    (h : pruneEntry depth chain entry tx = .ok blocks tx') :
    Prunes tx tx' chain.last [entry.1] blocks := by
  simp only [pruneEntry, Outcome.bind_eq_ok, Outcome.pure_eq_ok] at h
  obtain ⟨_, mid, hprune, removed, _, hleaf, rfl, rfl⟩ := h
  have hlink : tx.tree.HasParent entry.2 chain.last := by
    obtain ⟨holder, hholder, hchild⟩ := entryAt_eq_some.1 listed
    exact ready.wellFormed.hasParent_of_child hholder hchild
  obtain ⟨_, hbelow⟩ := below ready hprune
  have hready := (hbelow.strips.turns ready).ready ready
  have hsame := fun name =>
    hbelow.clears.entryAt (ready.wellFormed.not_under_parent hlink) name
  have hmid := (hsame entry.1).trans listed
  obtain ⟨hclears, hothers⟩ := clears_unlinkLeaf hready hmid hleaf
  refine ⟨.leaf hbelow.strips hmid hleaf, ?_, fun name => ?_⟩
  · exact (hbelow.clears.of_child ready.wellFormed hlink).trans hclears
  · rw [hothers, hsame]
    simp only [List.mem_singleton]

/-- What is left of a list of entries is still there after one of them has been
taken out. -/
theorem listed_of_prunes {entry : Name × InodeId} {rest : List (Name × InodeId)}
    {top : InodeId} (prunes : Prunes tx tx' top [entry.1] blocks)
    (nodup : ((entry :: rest).map Prod.fst).Nodup)
    (listed : ∀ next ∈ entry :: rest, tx.tree.entryAt top next.1 =
      some next.2) :
    ∀ next ∈ rest, tx'.tree.entryAt top next.1 = some next.2 := by
  intro next hnext
  have hne : next.1 ≠ entry.1 := fun heq =>
    (List.nodup_cons.1 nodup).1 (heq ▸ List.mem_map_of_mem hnext)
  rw [prunes.entries, if_neg (by rwa [List.mem_singleton]),
    listed next (List.mem_cons_of_mem _ hnext)]

/-- Clearing the entries of a list one after the other, given that the subtree
of each can be. -/
theorem prunes_entries {entries : List (Name × InodeId)}
    {found : List (List Block)} (below : PrunesBelow depth) (ready : tx.Ready)
    (nodup : (entries.map Prod.fst).Nodup)
    (listed : ∀ entry ∈ entries, tx.tree.entryAt chain.last entry.1 =
      some entry.2)
    (h : entries.mapM (pruneEntry depth chain) tx = .ok found tx') :
    Prunes tx tx' chain.last (entries.map Prod.fst) found.flatten := by
  induction entries generalizing tx found with
  | nil =>
    rw [List.mapM_nil] at h
    obtain ⟨rfl, rfl⟩ := Outcome.pure_eq_ok.1 h
    exact ⟨.refl, .refl _ _, fun name => by simp⟩
  | cons entry rest ih =>
    rw [List.mapM_cons] at h
    simp only [Outcome.bind_eq_ok, Outcome.pure_eq_ok] at h
    obtain ⟨_, mid, hentry, _, _, hrest, rfl, rfl⟩ := h
    have hfirst :=
      prunes_pruneEntry below ready (listed entry List.mem_cons_self) hentry
    exact hfirst.append (ih ((hfirst.strips.turns ready).ready ready)
      (List.nodup_cons.1 nodup).2 (listed_of_prunes hfirst nodup listed) hrest)

theorem entries_listed (live : tx.tree chain.last = some inode) :
    ∀ entry ∈ inode.entries, tx.tree.entryAt chain.last entry.1 =
        some entry.2 := by
  rintro ⟨name, id⟩ hentry
  rw [entryAt_of_live live, Inode.mem_entries.1 hentry]

/-- After a pruning the inode has no entries any more. -/
theorem prunes_prune (ready : tx.Ready)
    (h : prune depth chain tx = .ok blocks tx') :
    ∃ names, Prunes tx tx' chain.last names blocks ∧
      ∀ name, tx'.tree.entryAt chain.last name = none := by
  induction depth generalizing tx tx' chain blocks with
  | zero => cases h
  | succ depth ih =>
    simp only [prune_succ, Outcome.bind_eq_ok, get_eq_ok,
      Outcome.pure_eq_ok] at h
    obtain ⟨inode, mid, ⟨⟨_, live⟩, hmid⟩, found, _, hentries, rfl, rfl⟩ := h
    rw [hmid] at hentries
    have below : PrunesBelow depth :=
      fun ready h => (ih ready h).imp fun _ h => h.1
    have hprunes := prunes_entries below ready inode.entries_names_nodup
      (entries_listed live) hentries
    refine ⟨_, hprunes, fun name => ?_⟩
    rw [hprunes.entries]
    split
    next => rfl
    next hname =>
      rw [entryAt_of_live live]
      cases hchild : inode.child? name with
      | none => rfl
      | some id =>
        exact absurd (List.mem_map_of_mem (Inode.mem_entries.2 hchild)) hname

/-- When an inode is deleted: it has no entries or they are to go with it, and
what is below it is taken out before it is. -/
theorem deleteTree_eq_ok {path : String} {recursive : Bool} :
    deleteTree (parent.child name id) path recursive tx = .ok blocks tx' ↔
      ∃ inode below mid used last,
        (tx.Allows id .read ∧ tx.tree id = some inode) ∧
        ¬ (inode.entries ≠ [] ∧ recursive = false) ∧
        prune (tx.view.size + 1) (parent.child name id) tx = .ok below mid ∧
        unlink (parent.child name id) false none mid = .ok used last ∧
        blocks = below ++ inode.blocks ∧
        tx' = last.journaled (.delete path recursive) := by
  have hlength : ¬ (parent.child name id).length = 1 := by
    rw [Chain.length_eq_one_iff]
    exact nofun
  simp only [deleteTree, hlength, if_false, Outcome.bind_eq_ok, get_eq_ok,
    Chain.last_child]
  constructor
  · rintro ⟨inode, _, ⟨hinode, rfl⟩, h⟩
    split at h
    next => simp at h
    next accepted =>
      simp only [maxDepth, Outcome.bind_eq_ok, Outcome.get_bind,
        Outcome.pure_eq_ok, journal_eq_ok] at h
      obtain ⟨_, _, ⟨rfl, rfl⟩, below, mid, hprune, used, last, hunlink, _, _,
        rfl, rfl, rfl⟩ := h
      exact ⟨inode, below, mid, used, last, hinode, accepted, hprune, hunlink,
        rfl, rfl⟩
  · rintro ⟨inode, below, mid, used, last, hinode, accepted, hprune, hunlink,
      rfl, rfl⟩
    refine ⟨inode, tx, ⟨hinode, rfl⟩, ?_⟩
    rw [if_neg accepted]
    simp only [maxDepth, Outcome.bind_eq_ok, Outcome.get_bind,
      Outcome.pure_eq_ok, journal_eq_ok]
    exact ⟨_, tx, ⟨rfl, rfl⟩, below, mid, hprune, used, last, hunlink, (), _,
      rfl, rfl, rfl⟩

/-- A subtree is cleared below its topmost inode, and that one taken out at
last. -/
theorem turns_deleteTree {path : String} {recursive : Bool}
    {blocks : List Block} (ready : tx.Ready) (leads : Chain.Leads tx.tree chain)
    (h : deleteTree chain path recursive tx = .ok blocks tx') :
    tx.Turns tx' := by
  cases leads with
  | root => simp [deleteTree, Chain.length] at h
  | @child parent name id above entry =>
    obtain ⟨inode, below, mid, used, last, _, _, hprune, hunlink, _, rfl⟩ :=
      deleteTree_eq_ok.1 h
    obtain ⟨_, hprunes, _⟩ := prunes_prune ready hprune
    have hturns := hprunes.strips.turns ready
    have hlink := (Chain.Leads.child above entry).link ready.wellFormed
    have hentry : mid.tree.entryAt parent.last name = some id :=
      (hprunes.clears.entryAt
        (ready.wellFormed.not_under_parent hlink) name).trans entry
    exact (hturns.trans
      (turns_unlink (hturns.ready ready) hentry hunlink)).trans (.journaled _ _)

end Work

end QuotaTree
