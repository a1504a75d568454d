/-
Making adds the components of a path that are missing and nothing else.  They
come into the tree as one branch below the inode where the path ended; a file
that is made anew takes the place of the one that was there.
-/
import QuotaTree.Proofs.BlockRecords
import QuotaTree.Proofs.Convergence
import QuotaTree.Proofs.Settling
import QuotaTree.Proofs.Work.Branch

namespace QuotaTree

open Nodes Work Transaction

/-- A name that is taken out and entered again leaves nothing of the inode that
it named. -/
theorem Inode.withChild_withoutChild (inode : Inode) (name : Name)
    (id : InodeId) :
    (inode.withoutChild name).withChild name id = inode.withChild name id := by
  cases hcontent : inode.content with
  | directory directory =>
    have hinsert : (directory.children.erase name).insert name id =
        directory.children.insert name id := by
      refine Std.ExtTreeMap.ext_getElem? fun other => ?_
      simp only [Std.ExtTreeMap.getElem?_insert, Std.ExtTreeMap.getElem?_erase]
      split <;> rfl
    simp only [withoutChild, withChild, withDirectory, hcontent, hinsert]
  | file file => simp only [withoutChild, withChild, hcontent]
  | symlink target => simp only [withoutChild, withChild, hcontent]

theorem Inode.policy_withoutChild (inode : Inode) (name : Name) :
    (inode.withoutChild name).policy = inode.policy := by
  cases hcontent : inode.content <;> simp only [withoutChild, policy,
        withDirectory, hcontent]

namespace CreateOptions

variable (options : CreateOptions) (config : Config)

def file (policy : StoragePolicy) : File where
  replication := options.replication.getD config.defaultReplication
  blockSize := options.blockSize.getD config.defaultBlockSize
  policy := policy
  writer := some options.writer

def edit (path : String) : Edit :=
  .create path options.permission
    (options.replication.getD config.defaultReplication)
    (options.blockSize.getD config.defaultBlockSize) options.writer
      options.overwrite

end CreateOptions

namespace Work

variable {tx mid tx' : Transaction} {parent : Chain} {name : Name}
  {id : InodeId} {path : String}

/-- A closed file has been taken out of a directory to be made anew. -/
structure Replaces (tx : Transaction) (parent : InodeId) (name : Name)
    (id : InodeId) (replaced : List Block) (mid : Transaction) : Prop where
  file : ∃ file, tx.tree.file id = some file ∧ file.writer = none ∧
    replaced = file.blocks.map BlockInfo.block
  holder : ∃ holder, tx.tree parent = some holder ∧ holder.isDirectory = true ∧
    holder.child? name = some id
  tree :
    ∀ x, mid.tree x = if x = id then none else (tx.tree x).map
        fun inode => if x = parent then inode.withoutChild name else inode
  base : mid.base = tx.base
  edits : mid.edits = tx.edits

theorem replaces_of_ok {overwrite : Bool} {replaced : List Block}
    (ready : tx.Ready) (leads : Chain.Leads tx.tree (parent.child name id))
    (h : replaceFile (parent.child name id) path overwrite tx =
      .ok replaced mid) :
    overwrite = true ∧ Replaces tx parent.last name id replaced mid := by
  have wf := ready.wellFormed
  simp only [replaceFile, Outcome.bind_eq_ok, get_eq_ok] at h
  obtain ⟨inode, _, ⟨⟨_, live⟩, rfl⟩, h⟩ := h
  cases hfile : inode.asFile with
  | none => simp [hfile] at h
  | some file =>
    simp only [hfile] at h
    cases hwriter : file.writer with
    | some holder => simp [hwriter] at h
    | none =>
      simp only [hwriter, Outcome.ite_eq_ok] at h
      split at h
      next hoverwrite =>
        simp only [Outcome.bind_eq_ok, Outcome.pure_eq_ok] at h
        obtain ⟨_, _, hunlink, rfl, rfl⟩ := h
        obtain ⟨holder, ids, unlinks, rfl⟩ := unlink_eq_ok.1 hunlink
        have hholder := unlinks.opened.live
        have hleaf : ∀ other, inode.child? other = none :=
          Inode.child?_eq_none_of_not_isDirectory (by
            rw [Inode.isDirectory, Inode.asDirectory,
              Inode.asFile_eq_some.1 hfile]
            rfl)
        have hmem : ∀ x, x ∈ ids ↔ x = id :=
          fun x => (ready.reads.mem_subtree wf unlinks.subtree x).trans
            (wf.under_iff_of_no_child live hleaf)
        refine ⟨hoverwrite,
          ⟨file, (file_of_live live).trans hfile, hwriter, rfl⟩,
          ⟨holder, hholder, ?_, ?_⟩, fun x => ?_, rfl, rfl⟩
        · obtain ⟨found, hfound, hdirectory⟩ := wf.live_parent (leads.link wf)
          obtain rfl := Option.some.inj (hholder.symm.trans hfound)
          exact hdirectory
        · cases leads with
          | child above entry =>
            exact (entryAt_of_live hholder name).symm.trans entry
        · rw [tree_unlinked (wf.ids hholder)]
          simp only [hmem, set_apply]
          by_cases hx : x = parent.last
          · simp [hx, hholder]
          · simp [hx]
      next => simp at h

/-- The inodes above a file that is made anew keep their policies. -/
theorem Replaces.policyAlong {replaced : List Block} (ready : tx.Ready)
    (leads : Chain.Leads tx.tree (parent.child name id))
    (replaces : Replaces tx parent.last name id replaced mid) :
    mid.tree.policyAlong parent.ids = tx.tree.policyAlong parent.ids := by
  have wf := ready.wellFormed
  refine policyAlong_congr fun x hx => ?_
  have hne : x ≠ id := by
    rintro rfl
    cases leads with
    | child above entry =>
      exact wf.not_under_parent ((Chain.Leads.child above entry).link wf)
        ((above.mem_ids wf).1 hx)
  rw [replaces.tree, if_neg hne]
  refine bind_policy_map fun inode => ?_
  split
  · exact inode.policy_withoutChild name
  · rfl

/-- A file is made with the policy that the chain above it hands down. -/
theorem exists_of_enterFile {options : CreateOptions} {config : Config}
    (h : enterFile path options
      (options.replication.getD config.defaultReplication)
      (options.blockSize.getD config.defaultBlockSize) parent name tx =
        .ok id tx') :
    ∃ content made mid chain last,
      content = .file (options.file config (tx.tree.policyAlong parent.ids)) ∧
        alloc tx = .ok made mid ∧
        linkNew parent
          { id := made, name, permission := options.permission, content } mid =
          .ok chain last ∧
        id = chain.last ∧ tx' = last.journaled (options.edit config path) := by
  simp only [enterFile, makeFile, Outcome.bind_eq_ok, read_eq_ok, journal_eq_ok,
    Outcome.pure_eq_ok] at h
  obtain ⟨chain, last, ⟨policy, _, ⟨hpolicy, rfl⟩, made, mid, halloc, hlink⟩, _,
    _, rfl, rfl,
    rfl⟩ := h
  obtain rfl :=
    Chain.policyAlong_of_policy (fun hget => (view_get_eq_ok.1 hget).2) hpolicy
  exact ⟨_, made, mid, chain, last, rfl, halloc, hlink, rfl, rfl⟩

end Work

namespace Namespace

variable {ns ns' : Namespace} {operation : Operation} {locks : LockSet}
  {tx : Transaction} {permission : Permission} {content : Content}
  {lost : List InodeId} {parent id : InodeId} {first : Name}
  {others : List Name} {edit : Edit} {path target : String}

/-- A branch of new inodes has been made below a directory, and what the
directory listed under the first name is gone, which is at most one file.  Of
the inodes that stay no other one has changed. -/
structure Made (ns : Namespace) (permission : Permission) (content : Content)
    (lost : List InodeId) (parent : InodeId) (first : Name) (others : List Name)
    (edit : Edit) (id : InodeId) (ns' : Namespace) : Prop where
  holder : ∃ holder, ns.table.find? parent = some holder ∧
    holder.isDirectory = true ∧
    holder.child? first = lost.head?
  inodes : ∀ x, ns'.table.find? x = ((Inode.branch permission content parent
        ns.table.next (first :: others)).find? (·.id = x)).or (if x ∈
          lost then none else (ns.table.find? x).map fun inode =>
        if x = parent then inode.withChild first ns.table.next else inode)
  fresh : ∀ inode ∈ Inode.branch permission content parent ns.table.next
    (first :: others),
    ns.table.find? inode.id = none
  last : id.val = ns.table.next.val + others.length
  next : ns'.table.next = id.following
  blocks : ∀ number : Nat, ns'.blocks[number]? =
    if number ∈ Block.numbers (lost.flatMap ns.blocksOf) then
      none else ns.blocks[number]?
  rest : ns' = { ns with
    table := ns'.table
    ledger := ns'.ledger
    blocks := ns'.blocks
    edits := ns.edits ++ if ns.imageLoaded then [edit] else [] }

theorem fresh_branch (sound : ns.Sound) {inode : Inode}
    (h : inode ∈
      Inode.branch permission content parent ns.table.next (first :: others)) :
    ns.table.find? inode.id = none := by
  have hle := Inode.le_of_mem_branch h
  cases hfound : ns.table.find? inode.id with
  | none => rfl
  | some found =>
    have hlt : inode.id.val < ns.table.next.val := sound.books.below hfound
    omega

/-- What a unit of work leaves that has made a branch, when the blocks of a file
that is lost have been released. -/
theorem made_of_commit {blocks : List Block} (sound : ns.Sound)
    (ext : (ns.opened operation locks).Extends (tx.journaled edit))
    (edits : tx.edits = [])
    (holder : ∃ holder, ns.table.tree parent = some holder ∧
      holder.isDirectory = true ∧
      holder.child? first = lost.head?)
    (tree : ∀ x, tx.tree x = ((Inode.branch permission content
      parent ns.table.next (first :: others)).find? (·.id = x)).or
        (if x ∈ lost then none else (ns.table.tree x).map fun inode =>
          if x = parent then inode.withChild first ns.table.next else inode))
    (last : id.val = ns.table.next.val + others.length)
    (next : tx.base.table.next = id.following)
    (numbers : blocks = lost.flatMap ns.blocksOf) :
    ns.Made permission content lost parent first others edit id
      { (tx.journaled edit).commit with
        blocks := (tx.journaled edit).commit.blocks.removeAll blocks } := by
  have hcommit := commit_eq sound ext
  rw [journaled_edits, edits, List.nil_append] at hcommit
  have hblocks : (tx.journaled edit).commit.blocks = ns.blocks := by
    rw [hcommit]
  refine ⟨holder, fun x => ?_, fun _ h => fresh_branch sound h, last, ?_,
    fun number => ?_, ?_⟩
  · exact (congrFun (tree_commit ext) x).trans (tree x)
  · change (tx.journaled edit).commit.table.next = _
    rw [next_commit]
    exact next
  · change ((tx.journaled edit).commit.blocks.removeAll blocks)[number]? = _
    rw [hblocks, BlockMap.getElem?_removeAll, numbers]
  · exact congrArg (fun stored : Namespace => { stored with
      blocks := (tx.journaled edit).commit.blocks.removeAll blocks }) hcommit

theorem made_of_grown (sound : ns.Sound)
    (ext : (ns.opened operation locks).Extends (tx.journaled edit))
    (grown : (ns.opened operation locks).Grown permission content parent first
      others id tx) :
    ns.Made permission content [] parent first others edit id
      (tx.journaled edit).commit := by
  have hopened := @tree_opened ns operation locks
  have holder := grown.holder
  have htree := grown.tree
  rw [hopened] at holder htree
  exact @made_of_commit _ _ _ _ _ _ _ _ _ _ _ _ [] sound ext grown.edits holder
    (fun x => by rw [htree]; rfl) grown.last grown.next rfl

/-- A file that is made anew stands where the one stood that is lost. -/
theorem made_of_replaces {mid : Transaction} {old : InodeId}
    {blocks : List Block} (sound : ns.Sound)
    (ext : (ns.opened operation locks).Extends (tx.journaled edit))
    (replaces : Replaces
      (ns.opened operation locks) parent first old blocks mid)
    (grown : mid.Grown permission content parent first [] id tx) :
    ns.Made permission content [old] parent first [] edit id
      { (tx.journaled edit).commit with
        blocks := (tx.journaled edit).commit.blocks.removeAll blocks } := by
  have hopened := @tree_opened ns operation locks
  obtain ⟨⟨file, hfile, _, rfl⟩, holder, htree, hbase, hedits⟩ := replaces
  rw [hopened] at hfile holder htree
  have hnext : mid.base.table.next = ns.table.next := by
    rw [hbase]
    rfl
  refine made_of_commit sound ext (grown.edits.trans hedits) holder
    (fun x => ?_) (hnext ▸ grown.last) grown.next ?_
  · rw [grown.tree, Nodes.grow, htree, hnext]
    by_cases hx : x = old
    · simp [hx]
    · simp only [if_neg hx, List.mem_singleton, Option.map_map]
      congr 2
      funext inode
      by_cases hparent : x = parent
      · simp [hparent, Inode.withChild_withoutChild]
      · simp [hparent]
  · obtain ⟨inode, live, content⟩ := Option.bind_eq_some_iff.1 hfile
    rw [List.flatMap_singleton, blocksOf,
      show ns.table.find? old = some inode from live, Option.map_some,
      Option.getD_some, Inode.blocks, content]

/-- What the calls that make inodes leave and answer when they succeed, by what
there is of the path. -/
inductive Makes (ns : Namespace) : Call → Answer → Namespace → Prop
  | present {path resolved : String} {permission : Permission} {chain : Chain}
      {inode : Inode}
      (named : Path.resolveReserved ns.table.view path = .ok resolved)
      (resolves : Chain.resolveExisting ns.table.view resolved false =
        .ok (chain, []))
      (live : ns.table.find? chain.last = some inode)
      (directory : inode.isDirectory = true) :
    Makes ns (.mkdirs path permission) .done ns
  | directories {path resolved : String} {permission : Permission}
      {chain : Chain} {first : Name} {others : List Name} {id : InodeId}
      {ns' : Namespace}
      (named : Path.resolveReserved ns.table.view path = .ok resolved)
      (resolves : Chain.resolveExisting ns.table.view resolved false =
        .ok (chain, first :: others))
      (made : ns.Made permission (.directory {}) [] chain.last first others
        (.mkdirs resolved permission) id ns') :
    Makes ns (.mkdirs path permission) .done ns'
  | symlink {target link resolved : String} {permission : Permission}
      {createParent : Bool} {chain : Chain} {first : Name} {others : List Name}
      {id : InodeId} {ns' : Namespace}
      (named : Path.resolveReserved ns.table.view link = .ok resolved)
      (resolves : Chain.resolveExisting ns.table.view resolved false =
        .ok (chain, first :: others))
      (made : ns.Made permission (.symlink target) [] chain.last first others
        (.symlink target resolved permission createParent) id ns') :
    Makes ns (.createSymlink target link permission createParent) (.made id) ns'
  | file {path resolved : String} {options : CreateOptions} {chain : Chain}
      {first : Name} {others : List Name} {id : InodeId} {ns' : Namespace}
      (named : Path.resolveReserved ns.table.view path = .ok resolved)
      (resolves : Chain.resolveExisting ns.table.view resolved false =
        .ok (chain, first :: others))
      (made : ns.Made options.permission
        (.file (options.file ns.config (ns.table.tree.policyAlong chain.ids)))
          [] chain.last first others (options.edit ns.config resolved) id ns') :
    Makes ns (.create path options) (.made id) ns'
  | replaced {path resolved : String} {options : CreateOptions} {parent : Chain}
      {name : Name} {old id : InodeId} {file : File} {ns' : Namespace}
      (named : Path.resolveReserved ns.table.view path = .ok resolved)
      (resolves : Chain.resolveExisting ns.table.view resolved false =
        .ok (parent.child name old, []))
      (overwrites : options.overwrite = true)
      (live : ns.table.tree.file old = some file) (closed : file.writer = none)
      (made : ns.Made options.permission
        (.file (options.file ns.config (ns.table.tree.policyAlong parent.ids)))
          [old] parent.last name [] (options.edit ns.config resolved) id ns') :
    Makes ns (.create path options) (.made id) ns'

theorem makes_mkdirs (sound : ns.Sound)
    (h : mkdirs path permission ns = .ok () ns') :
    ns.Makes (.mkdirs path permission) .done ns' := by
  obtain ⟨resolved, named, hrest⟩ := resolvePath_bind_eq_ok.1 h
  obtain ⟨locks, tx, _, hwork, rfl⟩ := exists_of_transact sound.locks hrest
  have ready := @ready_opened ns .mkdirs locks sound.books
  have ext := (Frames.makePath _ _).extends_of_ok hwork
  simp only [makePath, Outcome.bind_eq_ok, read_eq_ok, Prod.exists] at hwork
  obtain ⟨chain, rest, _, ⟨hresolve, rfl⟩, hwork⟩ := hwork
  have resolves := Chain.resolveExisting_unveiled veils_opened hresolve
  have leads := Chain.Leads.resolveExisting ready.reads hresolve
  cases rest with
  | nil =>
    simp only [Outcome.bind_eq_ok, get_eq_ok, Outcome.ite_eq_ok,
      Outcome.pure_eq_ok] at hwork
    obtain ⟨inode, _, ⟨⟨_, live⟩, rfl⟩, hwork⟩ := hwork
    split at hwork
    next directory =>
      obtain ⟨_, rfl⟩ := hwork
      rw [tree_opened] at live
      rw [commit_opened sound.locks]
      exact .present named resolves live directory
    next => simp at hwork
  | cons first others =>
    rw [makeDirectories_eq] at hwork
    simp only [Outcome.bind_eq_ok, journal_eq_ok] at hwork
    obtain ⟨_, last, ⟨above, mid, hparents, id, mid', halloc, hlink⟩, rfl⟩ :=
      hwork
    obtain ⟨grown, _⟩ := grown_of_parents ready (leads.proper ready.wellFormed)
      (Chain.proper_of_missing hresolve) hparents halloc rfl hlink
    exact .directories named resolves (made_of_grown sound ext grown)

theorem makes_createSymlink {createParent : Bool} (sound : ns.Sound)
    (h : createSymlink target path permission createParent ns = .ok id ns') :
    ns.Makes (.createSymlink target path permission createParent)
      (.made id) ns' := by
  unfold createSymlink at h
  by_cases empty : target = ""
  · simp [empty] at h
  rw [if_neg empty] at h
  obtain ⟨resolved, named, hrest⟩ := resolvePath_bind_eq_ok.1 h
  obtain ⟨locks, tx, _, hwork, rfl⟩ := exists_of_transact sound.locks hrest
  have ready := @ready_opened ns .createSymlink locks sound.books
  have ext := (Frames.symlinkPath _ _ _ _).extends_of_ok hwork
  simp only [symlinkPath, Outcome.bind_eq_ok, read_eq_ok, Prod.exists] at hwork
  obtain ⟨chain, rest, _, ⟨hresolve, rfl⟩, hwork⟩ := hwork
  have resolves := Chain.resolveExisting_unveiled veils_opened hresolve
  have leads := Chain.Leads.resolveExisting ready.reads hresolve
  cases rest with
  | nil => simp at hwork
  | cons first others =>
    simp only [Outcome.bind_eq_ok, Outcome.ofExcept_eq_ok, journal_eq_ok,
      Outcome.pure_eq_ok] at hwork
    obtain ⟨_, _, ⟨_, rfl⟩, above, mid, hparents, made, mid', halloc, _, last,
      hlink, _, _, rfl,
      rfl, rfl⟩ := hwork
    obtain ⟨grown, _⟩ := grown_of_parents ready (leads.proper ready.wellFormed)
      (Chain.proper_of_missing hresolve) hparents halloc rfl hlink
    exact .symlink named resolves (made_of_grown sound ext grown)

theorem makes_create {options : CreateOptions} (sound : ns.Sound)
    (h : create path options ns = .ok id ns') :
    ns.Makes (.create path options) (.made id) ns' := by
  obtain ⟨resolved, named, hrest⟩ := resolvePath_bind_eq_ok.1 h
  rw [Outcome.get_bind] at hrest
  extract_lets at hrest
  by_cases hreplication :
      options.replication.getD ns.config.defaultReplication = 0
  · rw [if_pos hreplication] at hrest
    cases hrest
  by_cases hblockSize : options.blockSize.getD ns.config.defaultBlockSize = 0
  · rw [if_neg hreplication, if_pos hblockSize] at hrest
    cases hrest
  rw [if_neg hreplication, if_neg hblockSize] at hrest
  obtain ⟨⟨made, replaced⟩, _, htransact, hfinish⟩ := Outcome.bind_eq_ok.1 hrest
  obtain ⟨locks, tx, _, hwork, rfl⟩ := exists_of_transact sound.locks htransact
  have ready := @ready_opened ns .create locks sound.books
  have ext := (Frames.createFile _ _ _ _).extends_of_ok hwork
  obtain ⟨chain, rest, hresolve, filed⟩ := exists_of_createFile hwork
  have resolves := Chain.resolveExisting_unveiled veils_opened hresolve
  have leads := Chain.Leads.resolveExisting ready.reads hresolve
  have proper := leads.proper ready.wellFormed
  have hnamed := Chain.proper_of_missing hresolve
  cases filed with
  | replacing hreplace henter =>
    obtain ⟨hoverwrites, replaces⟩ := replaces_of_ok ready leads hreplace
    have hready := (turns_replaceFile ready leads hreplace).ready ready
    obtain ⟨content, made, mid', chain, last, rfl, halloc, hlink, rfl, rfl⟩ :=
      exists_of_enterFile henter
    obtain ⟨grown, rfl⟩ := grown_linkNew hready halloc hlink
    have hmade := made_of_replaces sound ext replaces grown
    rw [replaces.policyAlong ready leads, tree_opened] at hmade
    obtain ⟨file, hfile, closed, _⟩ := replaces.file
    rw [tree_opened] at hfile
    cases hfinish
    exact .replaced named resolves hoverwrites hfile closed hmade
  | adding hparents henter =>
    obtain ⟨content, made, mid', chain', last, rfl, halloc, hlink, rfl, rfl⟩ :=
      exists_of_enterFile henter
    obtain ⟨grown, rfl⟩ :=
      grown_of_parents ready proper hnamed hparents halloc rfl hlink
    have hmade := made_of_grown sound ext grown
    rw [policyAlong_makeDirectories ready proper
      (fun name hmem => hnamed name (List.mem_of_mem_dropLast hmem))
      (fun x hx => leads.lt_next ready.sound hx) hparents, tree_opened] at hmade
    cases hfinish
    exact .file named resolves hmade

/-- In every namespace that can come about, a call that makes inodes and
succeeds adds exactly what is missing of its path, or puts a file in the place
of one that is closed. -/
theorem makes_after (config : Config) (events : List Event) {call : Call}
    {answer : Answer} {ns' : Namespace} (making : call.isMaking = true)
    (h : call.ask ((fresh config).after (events.map Event.run)) =
      .ok answer ns') :
    ((fresh config).after (events.map Event.run)).Makes call answer ns' := by
  have sound := (sound_fresh config).after events
  cases call with
  | mkdirs path permission =>
    obtain ⟨_, hdone, rfl⟩ := Outcome.map_eq_ok.1 h
    exact makes_mkdirs sound hdone
  | create path options =>
    obtain ⟨id, hdone, rfl⟩ := Outcome.map_eq_ok.1 h
    exact makes_create sound hdone
  | createSymlink target link permission createParent =>
    obtain ⟨id, hdone, rfl⟩ := Outcome.map_eq_ok.1 h
    exact makes_createSymlink sound hdone
  | _ => cases making

def makeRun : List Event :=
  [.call (.mkdirs "/a" {}), .call (.setStoragePolicy "/a" .cold),
    .call (.create "/a/f" { writer := ⟨"c", ""⟩, blockSize := some 10 }),
    .call (.addBlock "/a/f" "c" []), .call (.complete "/a/f" "c" 4)]

/-- The file is replaced, or another one is made with two directories on the
way. -/
theorem makes_after_makeRun :
    let ns := (fresh {}).after (makeRun.map Event.run)
    let again := Call.create "/a/f" { writer := ⟨"d", ""⟩, overwrite := true }
    let deep := Call.create "/a/b/c/g" { writer := ⟨"d", ""⟩ }
    ns.table.tree.policyAlong [.root, ⟨2⟩] = .cold ∧
      (∃ ns', again.ask ns = .ok (.made ⟨4⟩) ns' ∧
        ns.Makes again (.made ⟨4⟩) ns') ∧
      ∃ ns', deep.ask ns = .ok (.made ⟨6⟩) ns' ∧
        ns.Makes deep (.made ⟨6⟩) ns' := by
  intro ns again deep
  have hagain : Outcome.answer (again.ask ns) = .ok (.made ⟨4⟩) := by
    decide +kernel
  have hdeep : Outcome.answer (deep.ask ns) = .ok (.made ⟨6⟩) := by
    decide +kernel
  obtain ⟨ns₁, hagain⟩ := Outcome.exists_of_answer hagain
  obtain ⟨ns₂, hdeep⟩ := Outcome.exists_of_answer hdeep
  exact ⟨by decide +kernel, ⟨ns₁, hagain, makes_after {} makeRun rfl hagain⟩,
    ns₂, hdeep, makes_after {} makeRun rfl hdeep⟩

end Namespace

end QuotaTree
