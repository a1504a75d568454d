/-
What holds in every namespace that can come about: the tree is well formed,
whatever calls are made, edits applied or logs replayed, and whether they
succeed.
-/
import QuotaTree.Proofs.Calls
import QuotaTree.Request.Replay

namespace QuotaTree

open Nodes

namespace InodeTable

variable {table : InodeTable} {id : InodeId} {inode : Inode}

def climb (table : InodeTable) : Nat → InodeId → Option InodeId
  | 0, id => some id
  | steps + 1, id =>
    ((table.find? id).bind Inode.parent).bind (table.climb steps)

def Lists (table : InodeTable) (parent : InodeId) (name : Name) (id : InodeId) :
    Prop :=
  ∃ holder directory, table.find? parent = some holder ∧
    holder.content = .directory directory ∧
    directory.children[name]? = some id

/-- The entries of directories, the names of inodes and their parents tell of
one tree. -/
structure Treelike (table : InodeTable) : Prop where
  root : ∃ inode, table.find? .root = some inode ∧ inode.isDirectory = true ∧
    inode.parent = none
  entry : ∀ {parent name id}, table.Lists parent name id →
    ∃ inode, table.find? id = some inode ∧ inode.name = name ∧
      inode.parent = some parent
  listed : ∀ {id inode}, table.find? id = some inode → id ≠ .root →
    ∃! place : InodeId × Name, table.Lists place.1 place.2 id
  climbs : ∀ {id inode}, table.find? id = some inode →
    ∃ steps, table.climb steps id = some .root
  below : ∀ {id inode}, table.find? id = some inode → id.val < table.next.val
  counted : ∃ used, table.view.usage .root = .ok used ∧ used.inodes = table.size

theorem lists_iff {parent : InodeId} {name : Name} :
    table.Lists parent name id ↔ table.tree.entryAt parent name = some id := by
  rw [entryAt_eq_some]
  constructor
  · rintro ⟨holder, directory, hholder, hcontent, hchild⟩
    refine ⟨holder, hholder, ?_⟩
    rw [Inode.child?, Inode.asDirectory_eq_some.2 hcontent]
    exact hchild
  · rintro ⟨holder, hholder, hchild⟩
    obtain ⟨directory, hdir, hentry⟩ := Option.bind_eq_some_iff.1 hchild
    exact ⟨holder, directory, hholder, Inode.asDirectory_eq_some.1 hdir, hentry⟩

theorem climb_of_depth {depth : Nat} (h : table.tree.Depth id depth) :
    table.climb depth id = some .root := by
  induction h with
  | root => rfl
  | child link _ ih =>
    obtain ⟨inode, hinode, hparent⟩ := link
    rw [climb, show table.find? _ = _ from hinode, Option.bind_some, hparent,
      Option.bind_some, ih]

/-- A stored subtree can be listed, and its usage found. -/
theorem exists_usage (wf : table.tree.WellFormed)
    (live : table.tree id = some inode) :
    ∃ ids, table.view.subtree id = .ok ids ∧ ids.Nodup ∧
      (∀ x, x ∈ ids ↔ table.tree.Under id x) ∧
      table.view.usage id = .ok (Counts.sum (ids.map table.tree.own)) :=
  (view_reads wf).exists_usage wf live fun x _ => view_opens x

/-- The usage of a stored subtree is what its inodes use by themselves, taken
together. -/
theorem exists_usage_sum (wf : table.tree.WellFormed)
    (live : table.tree id = some inode) :
    ∃ ids, table.tree.Spans id ids ∧
      table.view.usage id = .ok (∑ x ∈ ids, table.tree.own x) := by
  obtain ⟨ids, _, nodup, hmem, husage⟩ := exists_usage wf live
  refine ⟨ids.toFinset, fun x => List.mem_toFinset.trans (hmem x), ?_⟩
  rw [husage, Counts.sum_map_of_nodup nodup]

/-- Every inode counts as one. -/
theorem inodes_sum_own {ids : List InodeId}
    (live : ∀ x ∈ ids, (table.tree x).isSome) :
    (Counts.sum (ids.map table.tree.own)).inodes = ids.length := by
  induction ids with
  | nil => rfl
  | cons head tail ih =>
    obtain ⟨inode, hinode⟩ :=
      Option.isSome_iff_exists.1 (live head List.mem_cons_self)
    have hone : (table.tree.own head).inodes = 1 := by
      rw [own_of_live hinode, Inode.ownUsage_eq]
      cases inode.asFile <;> rfl
    rw [List.map_cons, Counts.sum_cons]
    change (table.tree.own head).inodes +
      (Counts.sum (tail.map table.tree.own)).inodes = _
    rw [hone, ih fun x hx => live x (List.mem_cons_of_mem _ hx),
      List.length_cons]
    omega

/-- The usage of the root counts every inode there is. -/
theorem counts_root (wf : table.tree.WellFormed) :
    ∃ used, table.view.usage .root = .ok used ∧ used.inodes = table.size := by
  obtain ⟨root, hroot, _⟩ := wf.root
  obtain ⟨ids, _, nodup, hmem, husage⟩ := exists_usage wf hroot
  refine ⟨_, husage, ?_⟩
  have hkeys (x : InodeId) : x ∈ ids ↔ x ∈ table.nodes.keys := by
    rw [hmem, ← isSome_find?_iff_mem_keys]
    constructor
    · exact isSome_of_under hroot
    · intro h
      obtain ⟨inode, hinode⟩ := Option.isSome_iff_exists.1 h
      exact wf.under_root hinode
  have hperm : ids.Perm table.nodes.keys :=
    (List.perm_ext_iff_of_nodup nodup table.nodes.nodup_keys).2 hkeys
  rw [inodes_sum_own fun x hx => isSome_of_under hroot ((hmem x).1 hx),
    hperm.length_eq, Std.ExtTreeMap.length_keys]
  rfl

theorem treelike (wf : table.tree.WellFormed)
    (below : ∀ {id inode}, table.tree id = some inode →
      id.val < table.next.val) :
    table.Treelike where
  root := wf.root
  entry h := wf.edge.1 (lists_iff.1 h)
  listed {id inode} live hne := by
    obtain ⟨parent, holder, hparent, hholder, hchild⟩ := wf.entry live hne
    refine ⟨(parent, inode.name),
      lists_iff.2 (entryAt_eq_some.2 ⟨holder, hholder, hchild⟩), ?_⟩
    rintro ⟨other, name⟩ hother
    obtain ⟨holder', hholder', hchild'⟩ :=
      entryAt_eq_some.1 (lists_iff.1 hother)
    obtain ⟨rfl, rfl⟩ := wf.child_unique hholder' hchild' hholder hchild
    rfl
  climbs live := by
    obtain ⟨depth, hdepth⟩ := wf.descends live
    exact ⟨depth, climb_of_depth hdepth⟩
  below := below
  counted := counts_root wf

end InodeTable

namespace InodeTable

variable {permission : Permission} {id : InodeId} {inode : Inode}

theorem eq_root_of_fresh (live : (fresh permission).tree id = some inode) :
    id = .root ∧ inode = newRoot permission := by
  rw [tree, find?_fresh] at live
  split at live
  next h =>
    cases live
    exact ⟨h.symm, rfl⟩
  next => cases live

theorem entryAt_fresh (id : InodeId) (name : Name) :
    (fresh permission).tree.entryAt id name = none := by
  cases h : (fresh permission).tree id with
  | none => simp [entryAt, h]
  | some inode =>
    rw [entryAt_of_live h, (eq_root_of_fresh h).2]
    simp [Inode.child?, Inode.asDirectory, newRoot]

/-- A fresh table has nothing but its root. -/
theorem wellFormed_fresh (permission : Permission) :
    (fresh permission).tree.WellFormed where
  ids live := by
    obtain ⟨rfl, rfl⟩ := eq_root_of_fresh live
    rfl
  root := ⟨newRoot permission, find?_fresh permission .root, rfl, rfl⟩
  edge {parent name id} := by
    rw [entryAt_fresh]
    constructor
    · intro h
      cases h
    · rintro ⟨inode, live, _, hparent⟩
      rw [(eq_root_of_fresh live).2] at hparent
      cases hparent
  descends live := by
    rw [(eq_root_of_fresh live).1]
    exact ⟨0, .root⟩

end InodeTable

namespace Namespace

theorem sound_fresh (config : Config) : (fresh config).Sound where
  books :=
    { wellFormed := InodeTable.wellFormed_fresh {}
      named := fun h => by
        have hnone := (InodeTable.entryAt_fresh _ _).symm.trans h
        cases hnone
      unreserved := InodeTable.entryAt_fresh ..
      below := fun live => by
        rw [(InodeTable.eq_root_of_fresh live).1]
        exact Nat.one_lt_two
      bounded := show InodeId.firstAllocated.val ≤ InodeId.maxVal by decide
      pending := @fun id _ => Ledger.pendingAt_empty id }
  ledger := Ledger.sound_empty
  locks := rfl

/-- A request that keeps what holds before it, whether it succeeds or fails. -/
def Maintaining {α : Type} (holds : Namespace → Prop) (request : Request α) :
    Prop :=
  ∀ ns : Namespace, holds ns → holds (Outcome.state (request ns))

namespace Maintaining

variable {α β : Type} {holds : Namespace → Prop}

theorem bind {request : Request α} {next : α → Request β}
    (first : Maintaining holds request)
    (rest : ∀ a, Maintaining holds (next a)) :
    Maintaining holds (request >>= next) := by
  intro ns held
  have hfirst := first ns held
  change holds (Outcome.state (EStateM.bind request next ns))
  unfold EStateM.bind
  cases h : request ns with
  | ok a mid =>
    rw [h] at hfirst
    exact rest a mid hfirst
  | error error mid =>
    rw [h] at hfirst
    exact hfirst

theorem tryFinally {request : Request α} {ending : Request β}
    (first : Maintaining holds request) (second : Maintaining holds ending) :
    Maintaining holds (try request finally ending) := by
  intro ns held
  rw [state_tryFinally]
  exact second _ (first ns held)

/-- The answer of a request does not matter. -/
theorem discard_iff {request : Request α} :
    Maintaining holds (discard request) ↔ Maintaining holds request := by
  unfold Maintaining
  simp only [state_discard]

theorem tryCatch {request : Request α} {handler : Error → Request α}
    (first : Maintaining holds request)
    (rest : ∀ error, Maintaining holds (handler error)) :
    Maintaining holds (MonadExcept.tryCatch request handler) := by
  intro ns held
  have hfirst := first ns held
  change holds (Outcome.state (EStateM.tryCatch request handler ns))
  unfold EStateM.tryCatch
  cases h : request ns with
  | ok a mid =>
    rw [h] at hfirst
    exact hfirst
  | error error mid =>
    rw [h] at hfirst
    exact rest error mid hfirst

theorem discarded {request : Request α}
    (maintaining : Maintaining holds request) :
    Maintaining holds (discard request) :=
  discard_iff.2 maintaining

theorem applyAll {edits : List Edit}
    (each : ∀ edit ∈ edits, Maintaining holds (apply edit)) :
    Maintaining holds (Namespace.applyAll edits) := by
  induction edits with
  | nil => exact fun _ held => held
  | cons edit rest ih =>
    refine (each edit List.mem_cons_self).bind fun _ => ?_
    refine ih fun other hother => ?_
    exact each other (List.mem_cons_of_mem edit hother)

/-- What edits, marking and recounting keep replaying keeps. -/
theorem replay {edits : List Edit}
    (each : ∀ edit ∈ edits, Maintaining holds (apply edit))
    (marking : ∀ loaded, Maintaining holds (Namespace.setImageLoaded loaded))
    (recounting : Maintaining holds Namespace.recount) :
    Maintaining holds (Namespace.replay edits) :=
  (marking false).bind fun _ =>
    ((Maintaining.applyAll each).tryFinally (marking true)).bind
      fun _ => recounting

/-- What each event of a run keeps the whole run does. -/
theorem after {events : List Event}
    (each : ∀ event ∈ events, Maintaining holds event.run) {ns : Namespace}
    (held : holds ns) : holds (ns.after (events.map Event.run)) := by
  induction events generalizing ns with
  | nil => exact held
  | cons event rest ih =>
    exact ih
      (fun other hother => each other (List.mem_cons_of_mem event hother))
      (each event List.mem_cons_self ns held)

end Maintaining

/-- A request that keeps what holds between two requests, whether it succeeds or
fails. -/
abbrev Sustaining {α : Type} (request : Request α) : Prop :=
  Maintaining Sound request

theorem Stepping.sustaining {α : Type} {mends : Bool} {request : Request α}
    (stepping : Stepping mends request) :
    Sustaining request :=
  fun ns sound => (stepping ns sound).sound sound

theorem sustaining_setImageLoaded (loaded : Bool) :
    Sustaining (setImageLoaded loaded) :=
  fun _ sound => ⟨sound.books, sound.ledger, sound.locks⟩

/-- An edit that is made again is a step of the books, as its request was. -/
theorem stepping_apply (edit : Edit) : Stepping false (apply edit) := by
  cases edit with
  | mkdirs path permission => exact (drifting_mkdirs path permission).stepping
  | create path permission replication blockSize writer overwrite =>
    exact (drifting_create path _).stepping.discarded
  | symlink target link permission createParent =>
    exact (drifting_createSymlink target link permission
      createParent).stepping.discarded
  | addBlock path client block targets =>
    exact stepping_addBlockAs path client block targets
  | abandonBlock path client block =>
    exact (stepping_abandonBlock path client block).discarded
  | complete path client lastLength =>
    exact stepping_complete path client lastLength
  | append path writer => exact stepping_append path writer
  | writeInline path client length =>
    exact stepping_writeInline path client length
  | truncate path length => exact stepping_truncate path length
  | delete path recursive =>
    exact (drifting_delete path recursive).stepping.discarded
  | rename source destination =>
    exact (drifting_rename source destination).stepping
  | setQuota path inodes bytes =>
    exact (drifting_setQuota path inodes bytes).stepping
  | setTypeQuota path type limit =>
    exact (drifting_setTypeQuota path type limit).stepping
  | setPolicy path policy => exact stepping_setStoragePolicy path policy
  | setReplication path replication =>
    exact stepping_setReplication path replication

theorem sustaining_apply (edit : Edit) : Sustaining (apply edit) :=
  (stepping_apply edit).sustaining

theorem sustaining_applyAll (edits : List Edit) : Sustaining (applyAll edits) :=
  .applyAll fun edit _ => sustaining_apply edit

theorem sustaining_replay (edits : List Edit) : Sustaining (replay edits) :=
  .replay (fun edit _ => sustaining_apply edit) sustaining_setImageLoaded
    stepping_recount.sustaining

theorem sustaining_event (event : Event) : Sustaining event.run := by
  cases event with
  | call call => exact (stepping_call call).sustaining
  | apply edit => exact sustaining_apply edit
  | replay edits => exact (sustaining_replay edits).discarded
  | setImageLoaded loaded => exact sustaining_setImageLoaded loaded

/-- What one event sustains a whole run does. -/
theorem Sound.after {ns : Namespace} (sound : ns.Sound) (events : List Event) :
    (ns.after (events.map Event.run)).Sound :=
  Maintaining.after (fun event _ => sustaining_event event) sound

/-- In every namespace that can come about, entries, names and parents tell of
one tree. -/
theorem treelike_after (config : Config) (events : List Event) :
    ((fresh config).after (events.map Event.run)).table.Treelike := by
  have sound := (sound_fresh config).after events
  exact InodeTable.treelike sound.books.wellFormed sound.books.below

end Namespace

end QuotaTree
