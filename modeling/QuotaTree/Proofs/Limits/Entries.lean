/-
The limits on names and on the size of directories.  Only two steps give a
directory a name it did not have, and before each of them the limits are checked
against the directory as it then is; everything else keeps or drops names.
-/
import QuotaTree.Proofs.Request.Adjust
import QuotaTree.Proofs.Work.Move

namespace QuotaTree

open Nodes

namespace Inode

variable {inode holder : Inode} {config : Config} {name : Name} {id : InodeId}

/-- The names in a directory and their number keep to the limits of a
configuration. -/
structure Within (inode : Inode) (config : Config) : Prop where
  short : config.maxNameLength ≠ 0 → ∀ {name id}, inode.child? name = some id →
    name.length ≤ config.maxNameLength
  few : config.maxEntries ≠ 0 → inode.entries.length ≤ config.maxEntries

structure HasRoom (inode : Inode) (config : Config) (name : Name) : Prop where
  short : config.maxNameLength ≠ 0 → name.length ≤ config.maxNameLength
  few : config.maxEntries ≠ 0 → inode.entries.length < config.maxEntries

/-- An inode that lists no more than another has no more entries. -/
theorem length_entries_le (fewer : ∀ {name id}, inode.child? name = some id →
    holder.child? name = some id) :
    inode.entries.length ≤ holder.entries.length := by
  have nodup : inode.entries.Nodup := inode.entries_names_nodup.of_map _
  refine (List.subperm_of_subset nodup ?_).length_le
  rintro ⟨name, id⟩ hentry
  exact mem_entries.2 (fewer (mem_entries.1 hentry))

theorem Within.of_fewer (within : holder.Within config) (fewer : ∀ {name id},
    inode.child? name = some id → holder.child? name = some id) :
    inode.Within config where
  short hmax _ _ hchild := within.short hmax (fewer hchild)
  few hmax := (length_entries_le fewer).trans (within.few hmax)

theorem within_of_not_isDirectory (h : inode.isDirectory = false) :
    inode.Within config where
  short _ _ _ hchild := by
    rw [child?_eq_none_of_not_isDirectory h] at hchild
    cases hchild
  few _ := by
    cases hdir : inode.asDirectory with
    | none => simp [entries, hdir]
    | some directory => simp [isDirectory, hdir] at h

theorem within_withFile (inode : Inode) (file : File) :
    (inode.withFile file).Within config :=
  within_of_not_isDirectory rfl

theorem Within.withoutChild (within : inode.Within config) (name : Name) :
    (inode.withoutChild name).Within config := by
  refine within.of_fewer fun {other id} hchild => ?_
  rw [(inode.loses_withoutChild name).child] at hchild
  split at hchild
  next => cases hchild
  next => exact hchild

theorem Within.insert {directory : Directory} (within : inode.Within config)
    (content : inode.content = .directory directory)
    (room : inode.HasRoom config name) : (inode.withDirectory { directory with
      children := directory.children.insert name id }).Within config := by
  have hdir := asDirectory_eq_some.2 content
  constructor
  case short =>
    intro hmax other child hchild
    rw [(inode.gains_insert name id hdir).child] at hchild
    split at hchild
    next heq => exact heq ▸ room.short hmax
    next => exact within.short hmax hchild
  case few =>
    intro hmax
    have hfew := room.few hmax
    have hold : inode.entries.length = directory.children.size := by
      rw [entries, hdir]
      exact Std.ExtTreeMap.length_toList
    have hnew :
        (directory.children.insert name id).size ≤ directory.children.size +
          1 := Std.ExtTreeMap.size_insert_le
    change (directory.children.insert name id).toList.length ≤ _
    rw [Std.ExtTreeMap.length_toList]
    omega

end Inode

namespace Transaction

variable {tx mid : Transaction} {config : Config} {inode holder : Inode}
  {id parent : InodeId} {directory : Directory} {counts : Counts}
  {chain : Chain} {name : Name}

/-- Limits are enforced, and all directories keep to them. -/
structure Limited (tx : Transaction) (config : Config) : Prop where
  settings : tx.base.config = config
  loaded : tx.base.imageLoaded = true
  within : ∀ {id inode}, tx.tree id = some inode → inode.Within config

namespace Limited

/-- A later state of the transaction with the same tree. -/
theorem of_tree (limited : tx.Limited config) (ext : tx.Extends mid)
    (same : mid.tree = tx.tree) : mid.Limited config := by
  obtain ⟨next, _, hbase⟩ := ext.base
  refine ⟨?_, ?_, same ▸ limited.within⟩
  · rw [hbase]
    exact limited.settings
  · rw [hbase]
    exact limited.loaded

theorem stored (limited : tx.Limited config) (within : inode.Within config) :
    (tx.stored inode).Limited config where
  settings := limited.settings
  loaded := limited.loaded
  within {id found} h := by
    rw [tree_stored, set_apply] at h
    split at h
    next => exact Option.some_inj.1 h ▸ within
    next => exact limited.within h

theorem removed (limited : tx.Limited config) (id : InodeId) :
    (tx.removed id).Limited config where
  settings := limited.settings
  loaded := limited.loaded
  within {other found} h := by
    rw [tree_removed, set_apply] at h
    split at h
    next => cases h
    next => exact limited.within h

theorem accounted (limited : tx.Limited config) (id : InodeId)
    (delta : Counts) : (tx.accounted id delta).Limited config :=
  ⟨limited.settings, limited.loaded, limited.within⟩

/-- What has been checked of the directory at the end of a chain. -/
theorem hasRoom (limited : tx.Limited config)
    (live : tx.tree chain.last = some holder)
    (admits : tx.Admits chain name true) : holder.HasRoom config name := by
  have hcheck := admits rfl limited.loaded
  rw [limited.settings] at hcheck
  rw [Work.checkEntry] at hcheck
  split at hcheck
  next => cases hcheck
  next hshort =>
    refine ⟨fun hmax => Nat.not_lt.1 fun hlong => hshort ⟨hmax, hlong⟩,
      fun hmax => ?_⟩
    rw [if_pos hmax, Outcome.except_bind_eq_ok] at hcheck
    obtain ⟨found, hfound, hcheck⟩ := hcheck
    obtain rfl : holder = found :=
      Option.some_inj.1 (live.symm.trans (view_get_eq_ok.1 hfound).2)
    dsimp only at hcheck
    split at hcheck
    next => cases hcheck
    next hfew => exact Nat.not_le.1 hfew

/-- An entry is made where there is room for it. -/
theorem linked
    (limited : tx.Limited config) (live : tx.tree parent = some holder)
    (content : holder.content = .directory directory)
    (room : holder.HasRoom config inode.name) (within : inode.Within config) :
    (tx.linked holder directory parent inode counts).Limited config :=
  have hholder := (limited.within live).insert content room
  ((limited.accounted parent counts).stored hholder).stored
    ⟨within.short, within.few⟩

end Limited

end Transaction

namespace Work

open Transaction

variable {α β : Type} {config : Config}

/-- Work that leaves all directories within the limits when it finds them so. -/
def Respects (config : Config) (work : Work α) : Prop :=
  ∀ tx a tx', tx.Limited config → work tx = .ok a tx' → tx'.Limited config

namespace Respects

theorem pure (a : α) : Respects config (Pure.pure a : Work α) :=
  fun _ _ _ limited h => (Outcome.pure_eq_ok.1 h).2 ▸ limited

theorem throw (error : Error) :
    Respects config (MonadExcept.throw error : Work α) :=
  fun _ _ _ _ h => absurd h Outcome.throw_ne_ok

theorem bind {work : Work α} {next : α → Work β} (first : Respects config work)
    (rest : ∀ a, Respects config (next a)) :
    Respects config (work >>= next) := by
  intro tx b tx' limited h
  obtain ⟨a, mid, hfirst, hrest⟩ := Outcome.bind_eq_ok.1 h
  exact rest a mid b tx' (first tx a mid limited hfirst) hrest

theorem map {work : Work α} {f : α → β} (respects : Respects config work) :
    Respects config (f <$> work) := by
  intro tx b tx' limited h
  obtain ⟨a, hwork, _⟩ := Outcome.map_eq_ok.1 h
  exact respects tx a tx' limited hwork

theorem ite {p : Prop} [Decidable p] {left right : Work α}
    (hleft : Respects config left) (hright : Respects config right) :
    Respects config (if p then left else right) := by
  split
  · exact hleft
  · exact hright

/-- Work that is refused on a condition. -/
theorem guarded {p : Prop} [Decidable p] {error : Error} {rest : PUnit → Work α}
    (accepted : Respects config (rest ⟨⟩)) :
    Respects config (if p then MonadExcept.throw error >>= rest else rest ⟨⟩) :=
  .ite (.bind (.throw error) fun _ => accepted) accepted

theorem mapM {list : List α} {work : α → Work β}
    (respects : ∀ a, Respects config (work a)) :
    Respects config (list.mapM work) := by
  induction list with
  | nil => exact pure []
  | cons head tail ih =>
    rw [List.mapM_cons]
    refine bind (respects head) fun _ => ?_
    exact bind ih fun _ => pure _

theorem ofExcept (x : Except Error α) :
    Respects config (MonadExcept.ofExcept x : Work α) :=
  fun _ _ _ limited h => (Outcome.ofExcept_eq_ok.1 h).2 ▸ limited

theorem read (reading : View → Except Error α) :
    Respects config (Work.read reading) :=
  fun _ _ _ limited h => (read_eq_ok.1 h).2 ▸ limited

theorem getState : Respects config (MonadState.get : Work Transaction) :=
  fun _ _ _ limited h => (Outcome.get_eq_ok.1 h).2 ▸ limited

/-- What is read of the tree keeps to the limits. -/
theorem get_bind {id : InodeId} {next : Inode → Work α}
    (rest : ∀ inode, inode.Within config → Respects config (next inode)) :
    Respects config (Work.get id >>= next) := by
  intro tx a tx' limited h
  obtain ⟨inode, _, hget, hrest⟩ := Outcome.bind_eq_ok.1 h
  obtain ⟨⟨_, live⟩, rfl⟩ := get_eq_ok.1 hget
  exact rest inode (limited.within live) _ _ _ limited hrest

theorem put {inode : Inode} (within : inode.Within config) :
    Respects config (Work.put inode) :=
  fun _ _ _ limited h => (put_eq_ok.1 h).2 ▸ limited.stored within

/-- Whatever becomes of a file, it has no entries. -/
theorem putFile (inode : Inode) (file : File) :
    Respects config (Work.put (inode.withFile file)) :=
  .put (inode.within_withFile file)

theorem remove (id : InodeId) : Respects config (Work.remove id) :=
  fun _ _ _ limited h => (remove_eq_ok.1 h).2.2 ▸ limited.removed id

theorem removeAll (ids : List InodeId) :
    Respects config (Work.removeAll ids) := by
  induction ids with
  | nil => exact pure ()
  | cons id rest ih => exact bind (remove id) fun _ => ih

theorem alloc : Respects config Work.alloc := by
  intro tx id tx' limited h
  obtain ⟨_, _, _, rfl⟩ := alloc_eq_ok.1 h
  exact ⟨limited.settings, limited.loaded, limited.within⟩

theorem pendingFor (ids : List InodeId) :
    Respects config (Work.pendingFor ids) :=
  bind getState fun _ => pure _

theorem withdraw (ids : List InodeId) :
    Respects config (Work.withdraw ids) := by
  intro tx _ tx' limited h
  obtain rfl := withdraw_eq_ok.1 h
  exact ⟨limited.settings, limited.loaded, limited.within⟩

theorem journal (edit : Edit) : Respects config (Work.journal edit) := by
  intro tx _ tx' limited h
  obtain rfl := journal_eq_ok.1 h
  exact ⟨limited.settings, limited.loaded, limited.within⟩

theorem account (chain : Chain) (length : Nat) (delta : Counts)
    (checked : Bool) :
    Respects config (Work.account chain length delta checked) :=
  fun _ _ _ limited h => limited.of_tree
    ((Frames.account _ _ _ _).extends_of_ok h) (tree_account h)

theorem dropEntry (directory : InodeId) (name : Name) :
    Respects config (Work.dropEntry directory name) :=
  .get_bind fun _ within => put (within.withoutChild name)

section Linking

/-- A new inode is put below a directory that has room for it. -/
theorem linkNew {parent : Chain} {inode : Inode}
    (within : inode.Within config) :
    Respects config (Work.linkNew parent inode) := by
  intro tx chain tx' limited h
  obtain ⟨holder, directory, links, _, rfl⟩ := link_eq_ok.1 h
  have room := limited.hasRoom links.opened.live links.admits
  exact limited.linked links.opened.live links.content room within

/-- There is room at the new place when the old one has lost the name. -/
theorem move {sourceParent parent : Chain} {id : InodeId} {entry name : Name} :
    Respects config
      (Work.move (sourceParent.child entry id) sourceParent parent name) := by
  intro tx _ tx' limited h
  obtain ⟨inode, holder, ids, again, used, target, directory, moves, links,
    rfl⟩ := move_eq_ok.1 h
  have hlost :=
    limited.stored ((limited.within moves.opened.live).withoutChild entry)
  have hfreed :
      (tx.freed holder sourceParent.last entry again used).Limited config :=
    hlost.accounted _ _
  have room : target.HasRoom config name :=
    hlost.hasRoom links.opened.live moves.admits
  have moved := limited.within moves.live
  exact hfreed.linked links.opened.live links.content room
    ⟨moved.short, moved.few⟩

theorem unlink (chain : Chain) (moving : Bool) (given : Option Counts) :
    Respects config (Work.unlink chain moving given) := by
  unfold Work.unlink
  split
  · exact throw _
  · refine bind (read _) fun ids => ?_
    extract_lets rest
    have hrest : ∀ used, Respects config (rest used) := by
      intro used
      refine bind (pendingFor ids) fun pending => ?_
      refine bind (account _ _ _ _) fun _ => ?_
      refine ite (pure _)
        (bind (dropEntry _ _) fun _ => bind (removeAll _) fun _ => ?_)
      exact bind (withdraw _) fun _ => pure _
    split
    · exact bind (pure _) hrest
    · exact bind (read _) hrest

theorem unlinkLeaf (chain : Chain) :
    Respects config (Work.unlinkLeaf chain) := by
  unfold Work.unlinkLeaf
  split
  · exact throw _
  · refine bind (read _) fun inode => guarded ?_
    refine bind (pendingFor _) fun pending => ?_
    refine bind (account _ _ _ _) fun _ => ?_
    refine bind (dropEntry _ _) fun _ => ?_
    refine bind (remove _) fun _ => ?_
    exact bind (withdraw _) fun _ => pure _

end Linking

section Creating

theorem makeDirectories (permission : Permission) (chain : Chain)
    (names : List Name) :
    Respects config (Work.makeDirectories permission chain names) := by
  induction names generalizing chain with
  | nil => exact pure chain
  | cons name rest ih =>
    refine bind alloc fun id => ?_
    refine bind (linkNew ?_) fun _ => ih _
    exact ⟨fun _ _ _ hchild => (by cases hchild), fun _ => Nat.zero_le _⟩

theorem enterFile (path : String) (options : CreateOptions)
    (replication blockSize : Nat) (parent : Chain) (name : Name) :
    Respects config
      (Work.enterFile path options replication blockSize parent name) :=
  bind (bind (read _) fun _ => bind alloc
    fun _ => linkNew (Inode.within_of_not_isDirectory rfl))
    fun _ => bind (journal _) fun _ => pure _

theorem replaceFile (chain : Chain) (path : String) (overwrite : Bool) :
    Respects config (Work.replaceFile chain path overwrite) := by
  unfold Work.replaceFile
  refine bind (read _) fun existing => ?_
  split
  · exact throw _
  · split
    · exact throw _
    · exact ite (bind (unlink _ _ _) fun _ => pure _) (throw _)

theorem makePath (path : String) (permission : Permission) :
    Respects config (Work.makePath path permission) := by
  refine bind (read _) fun found => ?_
  obtain ⟨chain, rest⟩ := found
  cases rest with
  | nil => exact bind (read _) fun inode => ite (pure _) (throw _)
  | cons => exact bind (makeDirectories _ _ _) fun _ => journal _

theorem vacate (path : String) (overwrite : Bool) (chain : Chain)
    (names : List Name) :
    Respects config (Work.vacate path overwrite chain names) := by
  cases names with
  | nil =>
    refine bind (replaceFile _ _ _) fun replaced => ?_
    cases chain.parent? with
    | none => exact throw _
    | some parent => exact pure _
  | cons => exact pure _

theorem createFile (path : String) (options : CreateOptions)
    (replication blockSize : Nat) :
    Respects config (Work.createFile path options replication blockSize) := by
  refine bind (read _) fun found => ?_
  obtain ⟨chain, rest⟩ := found
  refine bind (vacate _ _ _ _) fun place => ?_
  obtain ⟨chain, names, replaced⟩ := place
  cases names with
  | nil => exact throw _
  | cons =>
    refine bind (ofExcept _) fun _ => ?_
    refine bind (makeDirectories _ _ _) fun _ => ?_
    exact bind (enterFile _ _ _ _ _ _) fun _ => pure _

theorem symlinkPath (target link : String) (permission : Permission)
    (createParent : Bool) :
    Respects config (Work.symlinkPath target link permission createParent) := by
  refine bind (read _) fun found => ?_
  obtain ⟨chain, rest⟩ := found
  cases rest with
  | nil => exact throw _
  | cons =>
    refine bind (ofExcept _) fun _ => ?_
    refine bind (makeDirectories _ _ _) fun _ => ?_
    refine bind alloc fun _ => ?_
    refine bind (linkNew (Inode.within_of_not_isDirectory rfl)) fun _ => ?_
    exact bind (journal _) fun _ => pure _

end Creating

section Arranging

theorem prune (depth : Nat) (chain : Chain) :
    Respects config (Work.prune depth chain) := by
  induction depth generalizing chain with
  | zero => exact throw _
  | succ depth ih =>
    unfold Work.prune
    refine bind (read _) fun inode => ?_
    refine bind (mapM fun entry => ?_) fun _ => pure _
    refine bind (ih _) fun _ => ?_
    exact bind (unlinkLeaf _) fun _ => pure _

theorem deleteTree (chain : Chain) (path : String) (recursive : Bool) :
    Respects config (Work.deleteTree chain path recursive) := by
  unfold Work.deleteTree
  refine guarded (bind (read _) fun inode => guarded ?_)
  refine bind (bind getState fun _ => pure _) fun depth => ?_
  refine bind (prune _ _) fun _ => ?_
  refine bind (unlink _ _ _) fun _ => ?_
  exact bind (journal _) fun _ => pure _

theorem deletePath (path : String) (recursive : Bool) :
    Respects config (Work.deletePath path recursive) := by
  refine bind (read _) fun found => ?_
  obtain ⟨chain, rest⟩ := found
  cases rest with
  | cons => exact pure _
  | nil => exact map (deleteTree _ _ _)

theorem renamePath (source destination : String) :
    Respects config (Work.renamePath source destination) := by
  refine bind (read _) fun chain => ?_
  cases chain with
  | root => exact throw _
  | child sourceParent entry id =>
    refine bind (read _) fun found => ?_
    refine bind (read _) fun inode => ?_
    refine bind (ofExcept _) fun place => ?_
    cases place with
    | here => exact pure _
    | into parent name =>
      exact guarded (ite (pure _) (bind move fun _ => journal _))

end Arranging

section Writing

variable {chain : Chain} {client path : String}

/-- Work that is accepted only on a condition. -/
theorem required {p : Prop} [Decidable p] {error : Error}
    {rest : PUnit → Work α} (accepted : Respects config (rest ⟨⟩)) :
    Respects config (if p then rest ⟨⟩ else MonadExcept.throw error >>= rest) :=
  .ite accepted (.bind (.throw error) fun _ => accepted)

/-- A step that is taken on a condition. -/
theorem optional {p : Prop} [Decidable p] {first : Work PUnit} {rest : Work α}
    (hfirst : Respects config first) (hrest : Respects config rest) :
    Respects config (if p then first >>= fun _ => rest else rest) :=
  .ite (.bind hfirst fun _ => hrest) hrest

theorem leased : Respects config (Work.leased chain client) :=
  bind (read _) fun _ => bind (ofExcept _) fun _ => pure _

theorem leasedFile : Respects config (Work.leasedFile chain client) := by
  refine bind leased fun inode => ?_
  cases inode.asFile with
  | none => exact throw _
  | some file => exact pure _

theorem addBlockAt (block : Block) (targets : List String) :
    Respects config (Work.addBlockAt client block targets chain) := by
  refine bind leased fun _ => ?_
  refine bind ?_ fun _ => bind (journal _) fun _ => pure _
  unfold Work.beginBlock
  refine bind (read _) fun inode => ?_
  split
  · exact throw _
  · exact required
      (bind (account _ _ _ _) fun _ => bind (putFile _ _) fun _ => pure _)

theorem abandonAt (block : Nat) :
    Respects config (Work.abandonAt client block chain) := by
  have hdrop : Respects config (Work.dropBlock chain block) := by
    unfold Work.dropBlock
    refine bind (read _) fun inode => ?_
    split
    · exact throw _
    · split
      · exact throw _
      · exact guarded (bind (putFile _ _) fun _ => account _ _ _ _)
  unfold Work.abandonAt
  refine bind leased fun inode => ?_
  split
  · exact pure _
  · refine bind (bind (read _) fun inode => optional hdrop (pure _))
      fun dropped => ?_
    exact ite (bind (journal _) fun _ => pure _) (pure _)

theorem completeAt (lastLength : Nat) :
    Respects config (Work.completeAt client lastLength chain) := by
  refine bind leasedFile fun found => guarded (bind (putFile _ _) fun _ => ?_)
  exact optional (account _ _ _ _) (journal _)

theorem appendAt (writer : Writer) :
    Respects config (Work.appendAt writer chain) := by
  unfold Work.appendAt
  refine bind (read _) fun inode => ?_
  split
  · exact throw _
  · split
    · exact throw _
    · extract_lets reopened store
      have hstore : ∀ done, Respects config (store done) :=
        fun _ => bind (putFile _ _) fun _ => journal _
      split
      · exact bind (account _ _ _ _) hstore
      · exact hstore ⟨⟩

theorem writeInlineAt (length : Nat) :
    Respects config (Work.writeInlineAt client length chain) := by
  refine bind leasedFile fun found => required ?_
  refine bind (account _ _ _ _) fun _ => ?_
  exact bind (putFile _ _) fun _ => journal _

theorem truncateAt (length : Int) :
    Respects config (Work.truncateAt path length chain) := by
  unfold Work.truncateAt
  refine bind (read _) fun inode => ?_
  split
  · exact throw _
  · split
    · exact throw _
    · refine guarded (guarded (ite (pure _) ?_))
      refine bind (putFile _ _) fun _ => ?_
      refine bind (account _ _ _ _) fun _ => ?_
      exact bind (journal _) fun _ => pure _

end Writing

section Adjusting

variable {path : String}

/-- A directory keeps its entries when its limits or its policy change. -/
theorem putDirectory {inode : Inode} {directory changed : Directory}
    (within : inode.Within config)
    (content : inode.asDirectory = some directory)
    (same : changed.children = directory.children) :
    Respects config (Work.put (inode.withDirectory changed)) :=
  .put (within.of_fewer
    fun hchild => (inode.alike_withDirectory content same).child _ ▸ hchild)

theorem changeLimits (edit : Edit) (liftsInodes : Bool)
    (change : Counts → Counts) :
    Respects config (Work.changeLimits path edit liftsInodes change) := by
  refine bind (read _) fun chain => ?_
  refine guarded (bind (read _) fun ids => bind (read _) fun used => ?_)
  refine bind (pendingFor _) fun pending => ?_
  refine get_bind fun inode within => ?_
  cases hdir : inode.asDirectory with
  | none => exact throw _
  | some directory =>
    exact bind (putDirectory within hdir (Directory.children_withLimits ..))
      fun _ => journal _

theorem setPolicy (policy : StoragePolicy) :
    Respects config (Work.setPolicy path policy) := by
  refine bind (read _) fun chain => ?_
  refine get_bind fun inode within => ?_
  extract_lets finish
  have hfinish : ∀ done, Respects config (finish done) := fun _ => journal _
  cases hcontent : inode.content with
  | directory directory =>
    exact bind (putDirectory within (Inode.asDirectory_eq_some.2 hcontent) rfl)
      hfinish
  | file file =>
    refine bind (account _ _ _ _) fun _ => ?_
    exact bind (putFile _ _) hfinish
  | symlink => exact bind (throw _) hfinish

theorem setReplication (replication : Nat) :
    Respects config (Work.setReplication path replication) := by
  refine bind (read _) fun chain => ?_
  refine bind (read _) fun inode => ?_
  cases inode.asFile with
  | none => exact throw _
  | some file =>
    refine bind (account _ _ _ _) fun _ => ?_
    exact bind (putFile _ _) fun _ => journal _

end Adjusting

end Respects

end Work

end QuotaTree
