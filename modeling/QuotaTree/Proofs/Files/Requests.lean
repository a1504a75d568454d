/-
Requests and the data of files.  A request that succeeds revises files as it
asks to, one that is refused leaves them alone; and to apply an edit is to make
the request again, but for the block that it begins, which is the one of the
edit.
-/
import QuotaTree.Proofs.BlockRecords
import QuotaTree.Proofs.Files.Works
import QuotaTree.Proofs.Tree.Walk

namespace QuotaTree

open Nodes Work

namespace InodeTable

/-- A path leads to an inode, or to one above it. -/
def LocatesAbove (table : InodeTable) (path : String) (id : InodeId) : Prop :=
  ∃ chain steps, table.locate path = .ok chain ∧
    table.climb steps id = some chain.last

variable {table : InodeTable} {top id : InodeId}

theorem exists_climb_of_under (h : table.tree.Under top id) :
    ∃ steps, table.climb steps id = some top := by
  induction h using Relation.ReflTransGen.head_induction_on with
  | refl => exact ⟨0, rfl⟩
  | head link _ ih =>
    obtain ⟨inode, live, hparent⟩ := link
    obtain ⟨steps, hsteps⟩ := ih
    refine ⟨steps + 1, ?_⟩
    rw [climb, show table.find? _ = some inode from live, Option.bind_some,
      hparent, Option.bind_some, hsteps]

end InodeTable

/-- What a call asks to be done to files, when it may begin a block. -/
def Call.revision (next : Block) : Call → Revision
  | .addBlock _ client _ => .begin client next
  | .abandonBlock _ client _ => .drop client
  | .complete _ client lastLength => .close client lastLength
  | .append _ writer => .reopen writer
  | .writeInline _ client length => .inline client length
  | .truncate _ length => .cut length.toNat
  | _ => .none

/-- The inodes that a call takes out, though they may be open files or have such
below them. -/
def Call.Deletes (call : Call) (table : InodeTable) (id : InodeId) : Prop :=
  match call with
  | .delete path _ => table.LocatesAbove path id
  | _ => False

/-- The call that an edit is made again as. -/
def Edit.call : Edit → Call
  | .mkdirs path permission => .mkdirs path permission
  | .create path permission replication blockSize writer overwrite =>
    .create path
      { permission
        replication := some replication
        blockSize := some blockSize
        writer
        overwrite }
  | .symlink target link permission createParent =>
    .createSymlink target link permission createParent
  | .addBlock path client _ targets => .addBlock path client targets
  | .abandonBlock path client block => .abandonBlock path client block
  | .complete path client lastLength => .complete path client lastLength
  | .append path writer => .append path writer
  | .writeInline path client length => .writeInline path client length
  | .truncate path length => .truncate path length
  | .delete path recursive => .delete path recursive
  | .rename source destination => .rename source destination
  | .setQuota path inodes bytes => .setQuota path inodes bytes
  | .setTypeQuota path type limit => .setTypeQuota path type limit
  | .setPolicy path policy => .setStoragePolicy path policy
  | .setReplication path replication => .setReplication path replication

/-- The block that an edit begins, if it begins one. -/
def Edit.begun? : Edit → Option Block
  | .addBlock _ _ block _ => some block
  | _ => none

/-- An edit that begins no block is made again by the call. -/
theorem Edit.apply_eq_run {edit : Edit} (plain : edit.begun? = none) :
    Namespace.apply edit = edit.call.run := by
  cases edit with
  | addBlock => cases plain
  | _ => rfl

namespace Namespace

variable {α β : Type} {ns ns' : Namespace} {revision : Revision}
  {lost : InodeTable → InodeId → Prop}

/-- A request that, when it succeeds, has revised files as it asks to. -/
def Revising (request : Request α) (revision : Revision)
    (lost : InodeTable → InodeId → Prop) : Prop :=
  ∀ (ns : Namespace) (a : α) (ns' : Namespace), ns.Sound →
    request ns = .ok a ns' →
    ns.table.tree.Revised ns'.table.tree revision (lost ns.table)

namespace Revising

theorem quiet_bind {first : Request β} {next : β → Request α}
    (quiet : Quiet first) (rest : ∀ b, Revising (next b) revision lost) :
    Revising (first >>= next) revision lost := by
  intro ns a ns' sound h
  obtain ⟨b, mid, hfirst, hrest⟩ := Outcome.bind_eq_ok.1 h
  have same := quiet ns
  rw [hfirst] at same
  have hrevised := rest b mid a ns' (same.sound sound) hrest
  rw [show mid.table = ns.table from same.table] at hrevised
  exact hrevised

theorem bind_quiet {first : Request β} {next : β → Request α}
    (revising : Revising first revision lost) (rest : ∀ b, Quiet (next b)) :
    Revising (first >>= next) revision lost := by
  intro ns a ns' sound h
  obtain ⟨b, mid, hfirst, hrest⟩ := Outcome.bind_eq_ok.1 h
  have same := rest b mid
  rw [hrest] at same
  rw [show ns'.table = mid.table from same.table]
  exact revising ns b mid sound hfirst

theorem guarded {p : Prop} [Decidable p] {error : Error}
    {rest : PUnit → Request α} (accepted : Revising (rest ⟨⟩) revision lost) :
    Revising (if p then MonadExcept.throw error >>= rest
      else rest ⟨⟩) revision lost := by
  intro ns a ns' sound h
  split at h
  next => cases h
  next => exact accepted ns a ns' sound h

theorem discarded {request : Request α}
    (revising : Revising request revision lost) :
    Revising (discard request) revision lost := by
  intro ns _ ns' sound h
  obtain ⟨a, h⟩ := Outcome.discard_eq_ok.1 h
  exact revising ns a ns' sound h

theorem transact {operation : Operation} {demand : LockDemand} {work : Work α}
    (frames : work.Frames)
    (revised : ∀ {tx a tx'}, tx.Ready → work tx = .ok a tx' →
      tx.tree.Revised tx'.tree revision fun _ => False) :
    Revising (Namespace.transact operation demand work) revision
      fun _ _ => False := by
  intro ns a ns' sound h
  obtain ⟨locks, tx, _, hwork, rfl⟩ := exists_of_transact sound.locks h
  rw [tree_commit (frames.extends_of_ok hwork),
    ← @tree_opened ns operation locks]
  exact revised (ready_opened sound.books) hwork

/-- Work on the tree that takes out no open file. -/
theorem turning {operation : Operation} {demand : LockDemand} {work : Work α}
    (frames : work.Frames)
    (turns : ∀ {tx a tx'}, tx.Ready → work tx = .ok a tx' → tx.Turns tx')
    (spares : ∀ {tx a tx'}, tx.Ready → work tx = .ok a tx' →
      tx.tree.Spares tx'.tree fun _ => False) :
    Revising (Namespace.transact operation demand work) revision
      fun _ _ => False :=
  .transact frames fun ready h => (turns ready h).revised (spares ready h)

theorem onFile {operation : Operation} {path : String} {work : Chain → Work α}
    (frames : ∀ chain, (work chain).Frames)
    (revised : ∀ {tx a tx' chain}, tx.Ready → work chain tx = .ok a tx' →
      tx.tree.Revised tx'.tree revision fun _ => False) :
    Revising (Namespace.onFile operation path work) revision
      fun _ _ => False := by
  refine .quiet_bind (.resolvePath path) fun path => ?_
  refine .transact (.bind (.read _) frames) ?_
  intro tx a tx' ready h
  simp only [Outcome.bind_eq_ok, read_eq_ok] at h
  obtain ⟨chain, _, ⟨_, rfl⟩, hwork⟩ := h
  exact revised ready hwork

end Revising

theorem revising_addBlockAs (path client : String) (block : Block)
    (targets : List String) :
    Revising (addBlockAs path client block targets) (.begin client block)
      fun _ _ => False :=
  .quiet_bind (quiet_past block) fun _ =>
    .bind_quiet (.onFile (.addBlockAt _ _ _) revised_addBlockAt) fun file =>
      quiet_trackBlock block file targets

/-- A deletion takes out what is under the inode that its path leads to. -/
theorem revising_delete (path : String) (recursive : Bool) :
    Revising (delete path recursive) revision
      fun table id => table.LocatesAbove path id := by
  intro ns answer ns' sound h
  obtain ⟨resolved, _, hresolved, hrest⟩ := Outcome.bind_eq_ok.1 h
  obtain ⟨hpath, hsame⟩ := resolvePath_eq_ok.1 hresolved
  rw [hsame] at hrest
  obtain ⟨deleted, mid, hdelete, hrelease⟩ := Outcome.bind_eq_ok.1 hrest
  have htable : ns'.table = mid.table := by
    cases deleted <;> cases hrelease <;> rfl
  obtain ⟨locks, tx, _, hwork, rfl⟩ := exists_of_transact sound.locks hdelete
  have ready := @ready_opened ns .delete locks sound.books
  have hspares := spares_deletePath ready hwork
  rw [htable, tree_commit ((Frames.deletePath _ _).extends_of_ok hwork),
    ← @tree_opened ns .delete locks]
  refine (turns_deletePath ready hwork).revised (hspares.mono ?_)
  rintro x ⟨chain, hresolve, hunder⟩
  have hstored :=
    Chain.resolve_unveiled veils_opened (Chain.resolve_eq_ok.2 hresolve)
  rw [tree_opened] at hunder
  obtain ⟨steps, hclimb⟩ := InodeTable.exists_climb_of_under hunder
  exact ⟨chain, steps, InodeTable.locate_eq_ok.2 ⟨resolved, hpath, hstored⟩,
    hclimb⟩

theorem revising_create (path : String) (options : CreateOptions) :
    Revising (create path options) revision fun _ _ => False := by
  refine .quiet_bind (.resolvePath path) fun path => ?_
  refine .quiet_bind .get fun ns => ?_
  extract_lets config replication blockSize rest
  exact .guarded (.guarded (.bind_quiet
    (.turning (.createFile _ _ _ _) turns_createFile spares_createFile)
    fun _ => (Quiet.releaseBlocks _).bind fun _ => .pure _))

theorem revising_createSymlink (target link : String) (permission : Permission)
    (createParent : Bool) :
    Revising (createSymlink target link permission createParent) revision
      fun _ _ => False := by
  unfold createSymlink
  extract_lets rest
  exact .guarded (.quiet_bind (.resolvePath link) fun _ =>
    .turning (.symlinkPath _ _ _ _) turns_symlinkPath spares_symlinkPath)

theorem revising_truncate (path : String) (length : Int) :
    Revising (truncate path length) (.cut length.toNat) fun _ _ => False := by
  refine .quiet_bind (.resolvePath path) fun path => ?_
  refine .bind_quiet (.transact (.bind (.read _) (.truncateAt _ _)) ?_)
    fun _ => .releaseBlocks _
  intro tx dropped tx' ready h
  simp only [Outcome.bind_eq_ok, read_eq_ok] at h
  obtain ⟨chain, _, ⟨_, rfl⟩, hwork⟩ := h
  exact revised_truncateAt ready hwork

theorem revising_changeLimits (path : String) (edit : Edit) (liftsInodes : Bool)
    (change : Counts → Counts) :
    Revising (changeLimits path edit liftsInodes change) revision
      fun _ _ => False :=
  .quiet_bind (.resolvePath path) fun _ =>
    .transact (.changeLimits _ _ _ _) revised_changeLimits

/-- A mutation other than the beginning of a block revises files as it asks
to. -/
theorem revising_mutation {call : Call} (next : Block)
    (mutation : call.isMutation = true)
    (plain : ∀ path client targets, call ≠ .addBlock path client targets) :
    Revising call.run (call.revision next) call.Deletes := by
  cases call with
  | mkdirs path permission =>
    exact .quiet_bind (.resolvePath path) fun _ =>
      .turning (.makePath _ _) turns_makePath spares_makePath
  | create path options => exact (revising_create path options).discarded
  | createSymlink target link permission createParent =>
    exact (revising_createSymlink target link permission createParent).discarded
  | addBlock path client targets => exact absurd rfl (plain path client targets)
  | abandonBlock path client block =>
    exact .discarded (.bind_quiet (.onFile (.abandonAt _ _) revised_abandonAt)
      fun _ => (Quiet.releaseBlocks _).bind fun _ => .pure _)
  | complete path client lastLength =>
    exact .onFile (.completeAt _ _) revised_completeAt
  | append path writer => exact .onFile (.appendAt _) revised_appendAt
  | writeInline path client length =>
    refine .quiet_bind .get fun ns => ?_
    extract_lets limit rest
    exact .guarded (.onFile (.writeInlineAt _ _) revised_writeInlineAt)
  | truncate path length => exact revising_truncate path length
  | delete path recursive => exact (revising_delete path recursive).discarded
  | rename source destination =>
    refine .quiet_bind (.resolvePath source) fun _ => ?_
    refine .quiet_bind (.resolvePath destination) fun _ => ?_
    exact .turning (.renamePath _ _) turns_renamePath spares_renamePath
  | setQuota path inodes bytes =>
    refine .quiet_bind (.requireLegal inodes) fun _ => ?_
    refine .quiet_bind (.requireLegal bytes) fun _ => ?_
    extract_lets rest
    exact .guarded (revising_changeLimits _ _ _ _)
  | setTypeQuota path type limit =>
    change Revising (setTypeQuota path type limit) .none _
    unfold setTypeQuota
    extract_lets rest
    exact .guarded
      (.quiet_bind (.requireLegal limit) fun _ => revising_changeLimits _ _ _ _)
  | setStoragePolicy path policy =>
    exact .quiet_bind (.resolvePath path) fun _ =>
      .transact (.setPolicy _ _) revised_setPolicy
  | setReplication path replication =>
    change Revising (setReplication path replication) .none _
    unfold setReplication
    extract_lets rest
    exact .guarded (.quiet_bind (.resolvePath path) fun _ =>
      .transact (.setReplication _ _) revised_setReplication)
  | mergeUpdates => cases mutation
  | recount => cases mutation
  | query query => cases mutation

theorem Resembles.revised {deletes : InodeId → Prop}
    (resembles : ns.Resembles ns') :
    ns.table.tree.Revised ns'.table.tree revision deletes :=
  .of_eq resembles.nodes.recast.file

/-- A call that succeeds revises files as it asks to. -/
theorem revised_of_ok {call : Call}
    {done : Unit} (sound : ns.Sound) (h : call.run ns = .ok done ns') :
    ns.table.tree.Revised ns'.table.tree (call.revision ns.nextOut)
      (call.Deletes ns.table) := by
  by_cases hblock : ∃ path client targets, call = .addBlock path client targets
  · obtain ⟨path, client, targets, rfl⟩ := hblock
    obtain ⟨block, hadd⟩ := Outcome.discard_eq_ok.1 h
    obtain ⟨mid, _, hnext, hrest⟩ := Outcome.bind_eq_ok.1 hadd
    cases hnext
    obtain ⟨_, _, hbegin, hdone⟩ := Outcome.bind_eq_ok.1 hrest
    cases hdone
    have hsound :
        ({ ns with nextBlock := ns.nextBlock + 1,
                   nextStamp := ns.nextStamp + 1 } : Namespace).Sound :=
      ⟨sound.books, sound.ledger, sound.locks⟩
    have hrevised :=
      revising_addBlockAs path client ns.nextOut targets _ _ _ hsound hbegin
    exact hrevised
  · cases mutation : call.isMutation with
    | true =>
      exact revising_mutation ns.nextOut mutation
        (fun path client targets heq => hblock ⟨path, client, targets, heq⟩) ns
        done ns' sound h
    | false =>
      have resembles := resembles_of_not_mutation sound mutation
      rw [h] at resembles
      exact resembles.revised

/-- A call that is refused revises nothing. -/
theorem revised_of_error {call : Call} {error : Error} (sound : ns.Sound)
    (h : call.run ns = .error error ns') :
    ns.table.tree.Revised ns'.table.tree revision fun _ => False := by
  cases mutation : call.isMutation with
  | true =>
    exact (traceless_call mutation ns error ns' sound.locks h).resembles.revised
  | false =>
    have resembles := resembles_of_not_mutation sound mutation
    rw [h] at resembles
    exact resembles.revised

/-- The block that would be begun when an edit is made again. -/
def blockOut (ns : Namespace) (edit : Edit) : Block :=
  edit.begun?.getD ns.nextOut

theorem revised_of_apply_ok {edit : Edit} {done : Unit} (sound : ns.Sound)
    (h : apply edit ns = .ok done ns') :
    ns.table.tree.Revised ns'.table.tree (edit.call.revision (ns.blockOut edit))
      (edit.call.Deletes ns.table) := by
  by_cases plain : edit.begun? = none
  · rw [Edit.apply_eq_run plain] at h
    rw [blockOut, plain]
    exact revised_of_ok sound h
  · cases edit with
    | addBlock path client block targets =>
      exact revising_addBlockAs path client block targets ns done ns' sound h
    | _ => exact absurd rfl plain

theorem revised_of_apply_error {edit : Edit} {error : Error} (sound : ns.Sound)
    (h : apply edit ns = .error error ns') :
    ns.table.tree.Revised ns'.table.tree revision fun _ => False := by
  by_cases plain : edit.begun? = none
  · rw [Edit.apply_eq_run plain] at h
    exact revised_of_error sound h
  · cases edit with
    | addBlock path client block targets =>
      have untouched := traceless_addBlockAs path client block targets ns error
        ns' sound.locks h
      exact untouched.resembles.revised
    | _ => exact absurd rfl plain

end Namespace

end QuotaTree
