/-
Units of work meet every standard that is met before them.
-/
import QuotaTree.Proofs.Request.Write
import QuotaTree.Proofs.Work.Standard

namespace QuotaTree

open Nodes

namespace View

/-- The usage of a subtree is made up of what its inodes use by themselves. -/
theorem usage_mem (standard : Standard) {view : View} {id : InodeId}
    {used : Counts} (h : view.usage id = .ok used) :
    used ∈ standard.counts := by
  simp only [usage, Outcome.except_bind_eq_ok, Outcome.except_pure_eq_ok] at h
  obtain ⟨ids, -, usages, husages, rfl⟩ := h
  rw [Counts.sum_eq_list_sum]
  have hall := Outcome.except_mapM_eq_ok.1 husages
  clear husages
  induction hall with
  | nil => exact zero_mem _
  | cons hhead _ ih =>
    rw [List.sum_cons]
    obtain ⟨inode, _, rfl⟩ := Outcome.except_map_eq_ok.1 hhead
    exact add_mem (inode.ownUsage_mem standard) ih

end View

theorem Recounted.used_foldl_mem {counts : AddSubgroup Counts}
    {parts : List Recounted} {start : Recounted} (first : start.used ∈ counts)
    (others : ∀ part ∈ parts, part.used ∈ counts) :
    (parts.foldl Recounted.add start).used ∈ counts := by
  induction parts generalizing start with
  | nil => exact first
  | cons part rest ih =>
    obtain ⟨hpart, hrest⟩ := List.forall_mem_cons.1 others
    exact ih (add_mem first hpart) hrest

namespace Transaction

variable {tx : Transaction} {standard : Standard} {inode holder : Inode}
  {id : InodeId} {directory : Directory} {counts : Counts}

/-- All inodes of a transaction are under their own identities and meet a
standard, and so does all that is pending. -/
structure Meets (tx : Transaction) (standard : Standard) : Prop where
  inode :
    ∀ {id inode}, tx.tree id = some inode → inode.id = id ∧ inode.Meets standard
  updates : ∀ entry ∈ tx.updates, entry.2 ∈ standard.counts
  ledger : tx.base.ledger.Meets standard
  above : standard.since ≤ tx.base.table.next.val

namespace Meets

theorem stored (meets : tx.Meets standard)
    (inode_meets : inode.Meets standard) :
    (tx.stored inode).Meets standard where
  inode {id found} h := by
    rw [tree_stored, set_apply] at h
    split at h
    next heq =>
      obtain rfl := Option.some_inj.1 h
      exact ⟨heq.symm, inode_meets⟩
    next => exact meets.inode h
  updates := meets.updates
  ledger := meets.ledger
  above := meets.above

theorem removed (meets : tx.Meets standard) (id : InodeId) :
    (tx.removed id).Meets standard where
  inode {other found} h := by
    rw [tree_removed, set_apply] at h
    split at h
    next => cases h
    next => exact meets.inode h
  updates := meets.updates
  ledger := meets.ledger
  above := meets.above

theorem accounted (meets : tx.Meets standard) (id : InodeId)
    (member : counts ∈ standard.counts) :
    (tx.accounted id counts).Meets standard where
  inode := meets.inode
  updates entry h := by
    rw [accounted_updates] at h
    split at h
    next =>
      rcases List.mem_append.1 h with hold | hnew
      · exact meets.updates entry hold
      · obtain rfl := List.mem_singleton.1 hnew
        exact member
    next => exact meets.updates entry h
  ledger := meets.ledger
  above := meets.above

theorem withdrawing (meets : tx.Meets standard) (ids : List InodeId) :
    (tx.withdrawing ids).Meets standard where
  inode := meets.inode
  updates entry h := meets.updates entry (List.mem_filter.1 h).1
  ledger := meets.ledger
  above := meets.above

/-- What is pending at inodes is a sum of changes. -/
theorem pendingFor_mem (meets : tx.Meets standard) (ids : List InodeId) :
    tx.pendingFor ids ∈ standard.counts := by
  refine add_mem (meets.ledger.outstanding_mem _) ?_
  rw [Counts.sum_eq_list_sum]
  refine standard.counts.list_sum_mem fun delta h => ?_
  obtain ⟨entry, hentry, rfl⟩ := List.mem_map.1 h
  exact meets.updates entry (List.mem_filter.1 hentry).1

theorem linked (meets : tx.Meets standard) (live : tx.tree id = some holder)
    (content : holder.content = .directory directory)
    (inode_meets : inode.Meets standard) (member : counts ∈ standard.counts) :
    (tx.linked holder directory id inode counts).Meets standard := by
  have hholder :
      (holder.withDirectory { directory with
          children := directory.children.insert inode.name inode.id }).Meets
        standard :=
    (meets.inode live).2.withDirectory (Inode.asDirectory_eq_some.2 content) rfl
  exact ((meets.accounted id member).stored hholder).stored
    (inode_meets.of_quota rfl rfl)

end Meets

end Transaction

namespace Work

open Transaction

variable {α β : Type} {standard : Standard} {good : α → Prop}

/-- Work that meets a standard afterwards if it finds it met. -/
abbrev Upholds (standard : Standard) (work : Work α) : Prop :=
  Preserves (·.Meets standard) work

/-- Work that meets a standard afterwards and gives an answer of a kind. -/
abbrev Gives (standard : Standard) (work : Work α) (good : α → Prop) : Prop :=
  Ensures (·.Meets standard) work good

namespace Upholds

section Steps

theorem get (id : InodeId) :
    Gives standard (Work.get id) fun inode => inode.id = id ∧
    inode.Meets standard := by
  intro tx inode tx' meets h
  obtain ⟨⟨_, live⟩, rfl⟩ := get_eq_ok.1 h
  exact ⟨meets, meets.inode live⟩

theorem put {inode : Inode} (meets : inode.Meets standard) :
    Upholds standard (Work.put inode) :=
  fun _ _ _ held h => ⟨(put_eq_ok.1 h).2 ▸ held.stored meets, trivial⟩

theorem remove (id : InodeId) : Upholds standard (Work.remove id) :=
  fun _ _ _ held h => ⟨(remove_eq_ok.1 h).2.2 ▸ held.removed id, trivial⟩

theorem removeAll (ids : List InodeId) :
    Upholds standard (Work.removeAll ids) := by
  induction ids with
  | nil => exact .pure trivial
  | cons id rest ih => exact (remove id).bind fun _ _ => ih

/-- What is allocated is new. -/
theorem alloc :
    Gives standard Work.alloc fun id => standard.since ≤ id.val := by
  intro tx id tx' meets h
  obtain ⟨next, hnext, rfl, rfl⟩ := alloc_eq_ok.1 h
  have habove : standard.since ≤ next.val := by
    rw [InodeId.next?_eq_some hnext]
    exact Nat.le_succ_of_le meets.above
  exact ⟨⟨meets.inode, meets.updates, meets.ledger, habove⟩, meets.above⟩

theorem usage (id : InodeId) :
    Gives standard (Work.usage id) (· ∈ standard.counts) := by
  intro tx used tx' meets h
  obtain ⟨husage, rfl⟩ := read_eq_ok.1 h
  exact ⟨meets, View.usage_mem standard husage⟩

theorem pendingFor (ids : List InodeId) :
    Gives standard (Work.pendingFor ids) (· ∈ standard.counts) := by
  intro tx pending tx' meets h
  obtain ⟨rfl, rfl⟩ := pendingFor_eq_ok.1 h
  exact ⟨meets, meets.pendingFor_mem ids⟩

theorem withdraw (ids : List InodeId) : Upholds standard (Work.withdraw ids) :=
  fun _ _ _ held h => ⟨withdraw_eq_ok.1 h ▸ held.withdrawing ids, trivial⟩

theorem journal (edit : Edit) : Upholds standard (Work.journal edit) := by
  intro tx _ tx' held h
  obtain rfl := journal_eq_ok.1 h
  exact ⟨⟨held.inode, held.updates, held.ledger, held.above⟩, trivial⟩

theorem submit {id : InodeId} {delta : Counts}
    (member : delta ∈ standard.counts) :
    Upholds standard (Work.submit id delta) := by
  intro tx _ tx' held h
  obtain rfl := submit_eq_ok.1 h
  refine ⟨⟨held.inode, fun entry hentry => ?_, held.ledger, held.above⟩,
    trivial⟩
  rcases List.mem_append.1 hentry with hold | hnew
  · exact held.updates entry hold
  · obtain rfl := List.mem_singleton.1 hnew
    exact member

theorem account {delta : Counts} (chain : Chain) (length : Nat) (checked : Bool)
    (member : delta ∈ standard.counts) :
    Upholds standard (Work.account chain length delta checked) := by
  unfold Work.account
  refine Ensures.getState.bind fun tx _ => ?_
  refine .ite (fun _ => ?_) fun _ => .pure trivial
  exact .optional (.read _) (submit member)

theorem space_mem (standard : Standard) (file : File) (bytes : Int) :
    file.space bytes ∈ standard.counts :=
  standard.space_mem ..

/-- A directory keeps its quota when it loses an entry. -/
theorem dropEntry (directory : InodeId) (name : Name) :
    Upholds standard (Work.dropEntry directory name) :=
  (get directory).bind fun _ h => put (h.2.withoutChild name)

end Steps

section Linking

theorem linkNew {parent : Chain} {inode : Inode}
    (id : standard.since ≤ inode.id.val) (bare : inode.quota = none) :
    Upholds standard (Work.linkNew parent inode) := by
  intro tx chain tx' meets h
  obtain ⟨holder, directory, links, _, rfl⟩ := link_eq_ok.1 h
  have hinode : inode.Meets standard := .of_bare id bare
  exact ⟨meets.linked links.opened.live links.content hinode
    (inode.ownUsage_mem standard),
    trivial⟩

theorem move {sourceParent parent : Chain} {id : InodeId} {entry name : Name} :
    Upholds standard
      (Work.move (sourceParent.child entry id) sourceParent parent name) := by
  intro tx _ tx' meets h
  obtain ⟨inode, holder, ids, again, used, target, directory, moves, links,
    rfl⟩ := move_eq_ok.1 h
  have hused := View.usage_mem standard moves.usage
  have hdropped := (meets.inode moves.opened.live).2.withoutChild entry
  have hfreed :
      (tx.freed holder sourceParent.last entry again used).Meets standard :=
    (meets.stored hdropped).accounted _
      (sub_mem (meets.pendingFor_mem again) hused)
  have hmoved : ({ inode with name } : Inode).Meets standard :=
    (meets.inode moves.live).2.of_quota rfl rfl
  have hcounts := sub_mem hused (meets.pendingFor_mem ids)
  exact ⟨hfreed.linked links.opened.live links.content hmoved hcounts, trivial⟩

theorem unlink (chain : Chain) {given : Option Counts}
    (member : ∀ used ∈ given, used ∈ standard.counts) (moving : Bool) :
    Upholds standard (Work.unlink chain moving given) := by
  unfold Work.unlink
  split
  · exact .throw _
  · refine (Ensures.read _).bind fun ids _ => ?_
    extract_lets rest
    have hrest :
        ∀ used, used ∈ standard.counts → Upholds standard (rest used) := by
      intro used hused
      refine (pendingFor ids).bind fun pending hpending => ?_
      refine (account _ _ _ (sub_mem hpending hused)).bind fun _ _ => ?_
      refine .ite (fun _ => .pure trivial) fun _ => ?_
      refine (dropEntry _ _).bind fun _ _ => ?_
      refine (removeAll _).bind fun _ _ => ?_
      exact (withdraw _).bind fun _ _ => .pure trivial
    cases given with
    | some used => exact hrest used (member used rfl)
    | none => exact (usage _).bind hrest

theorem unlinkLeaf (chain : Chain) :
    Upholds standard (Work.unlinkLeaf chain) := by
  unfold Work.unlinkLeaf
  split
  · exact .throw _
  · refine (get _).bind fun inode _ => ?_
    refine .guarded fun _ => ?_
    refine (pendingFor _).bind fun pending hpending => ?_
    refine (account _ _ _ (sub_mem hpending (inode.ownUsage_mem standard))).bind
      fun _ _ => ?_
    refine (dropEntry _ _).bind fun _ _ => ?_
    refine (remove _).bind fun _ _ => ?_
    exact (withdraw _).bind fun _ _ => .pure trivial

end Linking

section Creating

theorem makeDirectories (permission : Permission) (chain : Chain)
    (names : List Name) :
    Upholds standard (Work.makeDirectories permission chain names) := by
  induction names generalizing chain with
  | nil => exact .pure trivial
  | cons name rest ih =>
    refine alloc.bind fun id hid => ?_
    exact (linkNew hid rfl).bind fun _ _ => ih _

theorem enterFile (path : String) (options : CreateOptions)
    (replication blockSize : Nat) (parent : Chain) (name : Name) :
    Upholds standard
      (Work.enterFile path options replication blockSize parent name) := by
  unfold Work.enterFile Work.makeFile
  refine ((Ensures.read _).bind fun policy _ => alloc.bind
    fun id hid => linkNew hid rfl).bind ?_
  exact fun _ _ => (journal _).bind fun _ _ => .pure trivial

theorem replaceFile (chain : Chain) (path : String) (overwrite : Bool) :
    Upholds standard (Work.replaceFile chain path overwrite) := by
  unfold Work.replaceFile
  refine (get _).bind fun existing _ => ?_
  split
  · exact .throw _
  · split
    · exact .throw _
    · refine .ite (fun _ => ?_) fun _ => .throw _
      exact (unlink _ (fun _ h => by cases h) _).bind fun _ _ => .pure trivial

theorem makePath (path : String) (permission : Permission) :
    Upholds standard (Work.makePath path permission) := by
  refine (Ensures.read _).bind fun found _ => ?_
  obtain ⟨chain, rest⟩ := found
  cases rest with
  | nil =>
    refine (get _).bind fun _ _ => ?_
    exact .ite (fun _ => .pure trivial) fun _ => .throw _
  | cons => exact (makeDirectories _ _ _).bind fun _ _ => journal _

theorem vacate (path : String) (overwrite : Bool) (chain : Chain)
    (names : List Name) :
    Upholds standard (Work.vacate path overwrite chain names) := by
  cases names with
  | nil =>
    refine (replaceFile _ _ _).bind fun replaced _ => ?_
    cases chain.parent? with
    | none => exact .throw _
    | some parent => exact .pure trivial
  | cons first others => exact .pure trivial

theorem createFile (path : String) (options : CreateOptions)
    (replication blockSize : Nat) :
    Upholds standard (Work.createFile path options replication blockSize) := by
  refine (Ensures.read _).bind fun found _ => ?_
  refine (vacate _ _ _ _).bind fun place _ => ?_
  obtain ⟨chain, names, replaced⟩ := place
  cases names with
  | nil => exact .throw _
  | cons first others =>
    refine (Ensures.ofExcept _).bind fun _ _ => ?_
    refine (makeDirectories _ _ _).bind fun _ _ => ?_
    exact (enterFile _ _ _ _ _ _).bind fun _ _ => .pure trivial

theorem symlinkPath (target link : String) (permission : Permission)
    (createParent : Bool) :
    Upholds standard
      (Work.symlinkPath target link permission createParent) := by
  refine (Ensures.read _).bind fun found _ => ?_
  obtain ⟨chain, rest⟩ := found
  cases rest with
  | nil => exact .throw _
  | cons =>
    refine (Ensures.ofExcept _).bind fun _ _ => ?_
    refine (makeDirectories _ _ _).bind fun _ _ => ?_
    refine alloc.bind fun id hid => ?_
    refine (linkNew hid rfl).bind fun _ _ => ?_
    exact (journal _).bind fun _ _ => .pure trivial

end Creating

section Arranging

theorem prune (depth : Nat) (chain : Chain) :
    Upholds standard (Work.prune depth chain) := by
  induction depth generalizing chain with
  | zero => exact .throw _
  | succ depth ih =>
    unfold Work.prune
    refine (get _).bind fun inode _ => ?_
    have each : ∀ entry ∈ inode.entries, Upholds standard (do
        let child := chain.child entry.1 entry.2
        let deeper ← Work.prune depth child
        let removed ← Work.unlinkLeaf child
        pure (deeper ++ removed.blocks)) := fun entry _ =>
      (ih _).bind fun _ _ => (unlinkLeaf _).bind fun _ _ => .pure trivial
    exact (Ensures.mapM each).bind fun _ _ => .pure trivial

theorem maxDepth : Upholds standard Work.maxDepth :=
  Ensures.getState.bind fun _ _ => .pure trivial

theorem deleteTree (chain : Chain) (path : String) (recursive : Bool) :
    Upholds standard (Work.deleteTree chain path recursive) := by
  unfold Work.deleteTree
  refine .guarded fun _ => ?_
  refine (get _).bind fun inode _ => ?_
  refine .guarded fun _ => ?_
  refine maxDepth.bind fun depth _ => ?_
  refine (prune _ _).bind fun _ _ => ?_
  refine (unlink _ (fun _ h => by cases h) _).bind fun _ _ => ?_
  exact (journal _).bind fun _ _ => .pure trivial

theorem deletePath (path : String) (recursive : Bool) :
    Upholds standard (Work.deletePath path recursive) := by
  refine (Ensures.read _).bind fun found _ => ?_
  obtain ⟨chain, rest⟩ := found
  cases rest with
  | cons => exact .pure trivial
  | nil => exact .map (deleteTree _ _ _)

theorem renamePath (source destination : String) :
    Upholds standard (Work.renamePath source destination) := by
  refine (Ensures.read _).bind fun chain _ => ?_
  cases chain with
  | root => exact .throw _
  | child sourceParent entry id =>
    refine (Ensures.read _).bind fun found _ => ?_
    refine (get _).bind fun inode _ => ?_
    refine (Ensures.ofExcept _).bind fun place _ => ?_
    cases place with
    | here => exact .pure trivial
    | into parent name =>
      refine .guarded fun _ => ?_
      refine .ite (fun _ => .pure trivial) fun _ => ?_
      exact move.bind fun _ _ => journal _

end Arranging

section Writing

variable {chain : Chain} {client path : String}

/-- What a file is charged for changes by its bytes on its media, and it stays
without a quota. -/
theorem putFile {inode : Inode} {file : File} (meets : inode.Meets standard)
    (content : inode.asFile = some file) (new : File) :
    Upholds standard (Work.put (inode.withFile new)) :=
  put (meets.withFile content new)

theorem leased (chain : Chain) (client : String) :
    Gives standard (Work.leased chain client)
      fun inode => inode.Meets standard := by
  intro tx inode tx' meets h
  obtain ⟨live, _, rfl⟩ := file_of_leased h
  exact ⟨meets, (meets.inode live).2⟩

theorem leasedFile (chain : Chain) (client : String) :
    Gives standard (Work.leasedFile chain client) fun found =>
      found.1.Meets standard ∧ found.1.asFile = some found.2 := by
  intro tx found tx' meets h
  obtain ⟨live, content, _, rfl⟩ := file_of_leasedFile h
  exact ⟨meets, (meets.inode live).2, content⟩

theorem addBlockAt (block : Block) (targets : List String) :
    Upholds standard (Work.addBlockAt client block targets chain) := by
  refine (leased _ _).bind fun _ _ => ?_
  refine .andThen ?_ fun _ => (journal _).bind fun _ _ => .pure trivial
  unfold Work.beginBlock
  refine (get _).bind fun inode h => ?_
  split
  · exact .throw _
  next file content =>
    refine .required fun _ => ?_
    refine (account _ _ _ (space_mem ..)).bind fun _ _ => ?_
    exact (putFile h.2 content _).bind fun _ _ => .pure trivial

theorem dropBlock (block : Nat) :
    Upholds standard (Work.dropBlock chain block) := by
  unfold Work.dropBlock
  refine (get _).bind fun inode h => ?_
  split
  · exact .throw _
  next file content =>
    split
    · exact .throw _
    · refine .guarded fun _ => ?_
      refine (putFile h.2 content _).bind fun _ _ => ?_
      exact account _ _ _ (neg_mem (space_mem ..))

theorem abandonAt (block : Nat) :
    Upholds standard (Work.abandonAt client block chain) := by
  unfold Work.abandonAt
  refine (leased _ _).bind fun inode _ => ?_
  split
  · exact .pure trivial
  · refine .andThen
      ((get _).bind fun _ _ => .optional (dropBlock _) (.pure trivial)) ?_
    exact fun _ => .ite (fun _ => (journal _).bind fun _ _ => .pure trivial)
      fun _ => .pure trivial

theorem completeAt (lastLength : Nat) :
    Upholds standard (Work.completeAt client lastLength chain) := by
  refine (leasedFile _ _).bind fun found h => ?_
  refine .guarded fun _ => ?_
  refine (putFile h.1 h.2 _).bind fun _ _ => ?_
  exact .optional (account _ _ _ (space_mem ..)) (journal _)

theorem appendAt (writer : Writer) :
    Upholds standard (Work.appendAt writer chain) := by
  unfold Work.appendAt
  refine (get _).bind fun inode h => ?_
  split
  · exact .throw _
  next file content =>
    split
    · exact .throw _
    · extract_lets reopened store
      have hstore : ∀ done, Upholds standard (store done) :=
        fun _ => (putFile h.2 content _).bind fun _ _ => journal _
      split
      · exact (account _ _ _ (space_mem ..)).andThen hstore
      · exact hstore ⟨⟩

theorem writeInlineAt (length : Nat) :
    Upholds standard (Work.writeInlineAt client length chain) := by
  refine (leasedFile _ _).bind fun found h => ?_
  refine .required fun _ => ?_
  refine (account _ _ _ (space_mem ..)).bind fun _ _ => ?_
  exact (putFile h.1 h.2 _).bind fun _ _ => journal _

theorem truncateAt (length : Int) :
    Upholds standard (Work.truncateAt path length chain) := by
  unfold Work.truncateAt
  refine (get _).bind fun inode h => ?_
  split
  · exact .throw _
  next file content =>
    split
    · exact .throw _
    · refine .guarded fun _ => ?_
      refine .guarded fun _ => ?_
      refine .ite (fun _ => .pure trivial) fun _ => ?_
      refine (putFile h.2 content _).bind fun _ _ => ?_
      refine (account _ _ _ (space_mem ..)).bind fun _ _ => ?_
      exact (journal _).bind fun _ _ => .pure trivial

end Writing

section Adjusting

variable {path : String}

theorem changeLimits {liftsInodes : Bool} {change : Counts → Counts}
    (edit : Edit) (settable : standard.settable)
    (admissible : Counts.Admissible liftsInodes change) :
    Upholds standard (Work.changeLimits path edit liftsInodes change) := by
  refine (Ensures.read _).bind fun chain _ => ?_
  refine .guarded fun guarded => ?_
  refine (Ensures.read _).bind fun ids _ => ?_
  refine (usage _).bind fun used hused => ?_
  refine (pendingFor _).bind fun pending hpending => ?_
  refine (get _).bind fun inode h => ?_
  cases hdir : inode.asDirectory with
  | none => exact .throw _
  | some directory =>
    rw [← h.1] at guarded ⊢
    exact (put (h.2.withLimits hdir settable admissible guarded
      (sub_mem hused hpending))).bind fun _ _ => journal _

/-- Charging a file anew, under another policy or replication. -/
theorem spaceUnder_mem (standard : Standard) (file : File)
    (policy : StoragePolicy) (replication : Nat) :
    file.spaceUnder policy replication ∈ standard.counts :=
  sub_mem (standard.space_mem ..) (standard.space_mem ..)

theorem setPolicy (policy : StoragePolicy) :
    Upholds standard (Work.setPolicy path policy) := by
  refine (Ensures.read _).bind fun chain _ => ?_
  refine (get _).bind fun inode h => ?_
  extract_lets finish
  have hfinish : ∀ done, Upholds standard (finish done) := fun _ => journal _
  cases hcontent : inode.content with
  | directory directory =>
    have changed : (inode.withDirectory
          { directory with policy := some policy }).Meets standard :=
      h.2.withDirectory (Inode.asDirectory_eq_some.2 hcontent) rfl
    exact (put changed).andThen hfinish
  | file file =>
    refine (account _ _ _ (spaceUnder_mem ..)).bind fun _ _ => ?_
    exact (putFile h.2 (Inode.asFile_eq_some.2 hcontent) _).andThen hfinish
  | symlink => exact .andThen (.throw _) hfinish

theorem setReplication (replication : Nat) :
    Upholds standard (Work.setReplication path replication) := by
  refine (Ensures.read _).bind fun chain _ => ?_
  refine (get _).bind fun inode h => ?_
  cases content : inode.asFile with
  | none => exact .throw _
  | some file =>
    refine (account _ _ _ (spaceUnder_mem ..)).bind fun _ _ => ?_
    exact (putFile h.2 content _).bind fun _ _ => journal _

end Adjusting

section Settling

theorem absorbUpward {delta : Counts} (member : delta ∈ standard.counts)
    (steps : Nat) (id : InodeId) :
    Upholds standard (Work.absorbUpward delta steps id) := by
  induction steps generalizing id with
  | zero => exact .throw _
  | succ steps ih =>
    unfold Work.absorbUpward
    refine (get _).bind fun inode h => ?_
    extract_lets rest
    have hrest : ∀ done, Upholds standard (rest done) := by
      intro done
      cases hparent : inode.parent with
      | none => simp only [rest, hparent]; exact .pure trivial
      | some parent => simp only [rest, hparent]; exact ih parent
    cases hquota : inode.quota with
    | none => exact hrest ⟨⟩
    | some quota =>
      have habsorbed :=
        h.2.withQuota hquota (add_mem (h.2.cached hquota) member)
      exact (put habsorbed).andThen hrest

/-- What is consumed is what the ledger lists. -/
theorem consume (id : InodeId) :
    Gives standard (Work.consume id) fun updates =>
      Counts.sum (updates.map QuotaUpdate.delta) ∈ standard.counts := by
  intro tx updates tx' meets h
  simp only [Work.consume, Outcome.bind_eq_ok, ensureLocked_eq_ok,
    Outcome.get_bind, Outcome.set_eq_ok, Outcome.pure_eq_ok] at h
  obtain ⟨_, _, ⟨_, rfl⟩, _, _, rfl, rfl, rfl⟩ := h
  refine ⟨⟨meets.inode, meets.updates, meets.ledger, meets.above⟩, ?_⟩
  exact meets.ledger.sum_mem fun update hupdate => ⟨id, hupdate⟩

theorem mergeAt (id : InodeId) : Upholds standard (Work.mergeAt id) := by
  unfold Work.mergeAt
  refine (consume id).bind fun updates member => ?_
  extract_lets delta rest
  have hrest : ∀ done, Upholds standard (rest done) := fun _ => .pure trivial
  refine .ite (fun _ => hrest ⟨⟩) fun _ => ?_
  refine Ensures.getState.bind fun tx _ => ?_
  exact (absorbUpward member _ id).andThen hrest

theorem mergeAll (ids : List InodeId) :
    Upholds standard (Work.mergeAll ids) := by
  induction ids with
  | nil => exact .pure trivial
  | cons id rest ih =>
    refine (mergeAt id).andThen fun _ => ?_
    exact ih.andThen fun _ => .pure trivial

/-- The usage found is made up of what inodes use by themselves. -/
theorem recount (depth : Nat) (id : InodeId) :
    Gives standard (Work.recount depth id) (·.used ∈ standard.counts) := by
  induction depth generalizing id with
  | zero => exact .throw _
  | succ depth ih =>
    unfold Work.recount
    refine (get _).bind fun inode h => ?_
    refine (pendingFor _).bind fun pending _ => ?_
    refine (Ensures.mapM fun child _ => ih child).bind fun parts hparts => ?_
    extract_lets whole
    have hwhole : whole.used ∈ standard.counts :=
      Recounted.used_foldl_mem (inode.ownUsage_mem standard) hparts
    cases hquota : inode.quota with
    | none => exact .pure hwhole
    | some quota =>
      exact (put (h.2.withQuota hquota hwhole)).andThen fun _ => .pure hwhole

theorem recountAll : Upholds standard Work.recountAll := by
  refine maxDepth.bind fun depth _ => ?_
  refine (recount depth .root).bind fun whole _ => ?_
  refine .andThen (fun tx _ tx' meets h => ?_) fun _ => .pure trivial
  obtain rfl := Outcome.modify_eq_ok.1 h
  exact ⟨⟨meets.inode, meets.updates, meets.ledger, meets.above⟩, trivial⟩

end Settling

end Upholds

end Work

end QuotaTree
