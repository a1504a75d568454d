/-
Requests made of two namespaces that differ at most in what their quotas have
cached and in what is pending.  Where both succeed they answer the same and the
namespaces differ in no more afterwards.
-/
import QuotaTree.Proofs.Replay.Locking
import QuotaTree.Proofs.Request.Arrange
import QuotaTree.Proofs.Request.Create
import QuotaTree.Proofs.Twins.Works

namespace QuotaTree

open Outcome (Mirrors)

section Reserved

variable {left right : View} (views : left.Matches .same right)

include views

theorem View.Matches.parentOf (id : InodeId) :
    Mirrors Eq (left.parentOf id) (right.parentOf id) :=
  (views.get rfl).bind fun inodes => .pure (eq_of_rel_same inodes.parent)

theorem View.Matches.namesDownTo (steps : Nat) (id : InodeId)
    (below : List Name) :
    Mirrors Eq (left.namesDownTo steps id below)
      (right.namesDownTo steps id below) := by
  induction steps generalizing id below with
  | zero => exact .throw _ _
  | succ steps ih =>
    refine (views.get rfl).bind fun inodes => ?_
    rw [eq_of_rel_same inodes.parent, inodes.name]
    split
    · exact .refl _
    · exact ih _ _

theorem View.Matches.fullPath (id : InodeId) :
    Mirrors Eq (left.fullPath id) (right.fullPath id) := by
  unfold View.fullPath
  rw [views.size]
  exact (views.namesDownTo _ _ _).map (congrArg Path.ofNames)

/-- A path that names an inode by its number stands for the same path in both
trees. -/
theorem Path.mirrors_ofReserved (path : String) (number : List Char)
    (rest : List (List Char)) :
    Mirrors Eq (ofReserved left path number rest)
      (ofReserved right path number rest) := by
  unfold ofReserved
  split
  next => exact .throw _ _
  next id _ =>
    refine .ite (fun _ => .refl _) fun _ => ?_
    cases hparent : left.parentOf id with
    | error error => exact .throw _ _
    | ok parent =>
      obtain ⟨_, hright, rfl⟩ := views.parentOf id parent hparent
      rw [hright]
      refine .ite (fun _ => views.fullPath id) fun _ => ?_
      refine .ite (fun _ => ?_) fun _ => .ite (fun _ => .throw _ _) fun _ => ?_
      · cases parent with
        | none => exact .refl _
        | some parent =>
          exact .ite (fun _ => .refl _) fun _ => views.fullPath parent
      · exact (views.fullPath id).bind fun same => .pure (by rw [same])

theorem Path.mirrors_resolveReserved (path : String) :
    Mirrors Eq (resolveReserved left path) (resolveReserved right path) := by
  unfold resolveReserved
  split
  next => exact .ite (fun _ => mirrors_ofReserved views _ _ _) fun _ => .refl _
  next => exact .refl _

end Reserved

namespace Namespace

/-- Namespaces that differ at most in what quotas have cached, in what is
pending, and in how often a reading has paused. -/
structure Twins (ns twin : Namespace) : Prop where
  nodes : ns.table.tree.Matches .same twin.table.tree
  next : ns.table.next = twin.table.next
  config : ns.config = twin.config
  loaded : ns.imageLoaded = twin.imageLoaded
  blocks : ns.blocks = twin.blocks
  nextBlock : ns.nextBlock = twin.nextBlock
  nextStamp : ns.nextStamp = twin.nextStamp
  edits : ns.edits = twin.edits

variable {ns twin ns' twin' : Namespace} {operation : Operation}
  {locks locks' : LockSet} {tx tx' : Transaction}

namespace Twins

theorem refl (ns : Namespace) : ns.Twins ns :=
  ⟨Nodes.matches_same _, rfl, rfl, rfl, rfl, rfl, rfl, rfl⟩

variable (twins : ns.Twins twin)

include twins

theorem symm : twin.Twins ns :=
  ⟨twins.nodes.symm, twins.next.symm, twins.config.symm, twins.loaded.symm,
    twins.blocks.symm,
    twins.nextBlock.symm, twins.nextStamp.symm, twins.edits.symm⟩

theorem trans {third : Namespace} (late : twin.Twins third) :
    ns.Twins third where
  nodes := twins.nodes.euclidean late.nodes.symm
  next := twins.next.trans late.next
  config := twins.config.trans late.config
  loaded := twins.loaded.trans late.loaded
  blocks := twins.blocks.trans late.blocks
  nextBlock := twins.nextBlock.trans late.nextBlock
  nextStamp := twins.nextStamp.trans late.nextStamp
  edits := twins.edits.trans late.edits

/-- Units of work begun on both could be done again where nothing is loaded. -/
theorem opened (carries : Carries .same locks locks') :
    (ns.opened operation locks).Twins (twin.opened operation locks') where
  edits := rfl
  again := by
    let again := { twin with imageLoaded := false }
    have fresh (steps : Nat) : (⟨ns.table.next.val + steps⟩ : InodeId) =
        ⟨again.table.next.val + steps⟩ := by
      rw [twins.next]
    refine ⟨again.opened operation locks', ?_, ?_⟩
    · exact matches_opened twins.nodes fresh (Nat.le_of_eq
        (congrArg _ twins.next.symm)) twins.config.symm rfl carries
    · exact matches_opened (Nodes.matches_same _) (fun _ => rfl) (Nat.le_refl _)
        rfl rfl fun {a b mode} (same : a = b) holds => same ▸ holds

theorem commit (sound : ns.Sound) (sound' : twin.Sound)
    (ext : (ns.opened operation locks).Extends tx)
    (ext' : (twin.opened operation locks').Extends tx') (done : tx.Twins tx') :
    tx.commit.Twins tx'.commit where
  nodes := by
    rw [tree_commit ext, tree_commit ext']
    exact done.nodes
  next := by
    rw [next_commit, next_commit]
    exact done.next
  config := by
    rw [commit_eq sound ext, commit_eq sound' ext']
    exact twins.config
  loaded := by
    rw [commit_eq sound ext, commit_eq sound' ext']
    exact twins.loaded
  blocks := by
    rw [commit_eq sound ext, commit_eq sound' ext']
    exact twins.blocks
  nextBlock := by
    rw [commit_eq sound ext, commit_eq sound' ext']
    exact twins.nextBlock
  nextStamp := by
    rw [commit_eq sound ext, commit_eq sound' ext']
    exact twins.nextStamp
  edits := by
    rw [commit_eq sound ext, commit_eq sound' ext']
    change ns.edits ++ _ = twin.edits ++ _
    rw [twins.edits, twins.loaded, done.edits]

theorem releasing (blocks : List Block) :
    Twins { ns with blocks := ns.blocks.removeAll blocks }
      { twin with blocks := twin.blocks.removeAll blocks } :=
  { twins with blocks := congrArg (BlockMap.removeAll · blocks) twins.blocks }

theorem past (block : Block) : (ns.past block).Twins (twin.past block) :=
  { twins with
    nextBlock := congrArg (max · _) twins.nextBlock
    nextStamp := congrArg (max · _) twins.nextStamp }

theorem nextOut : ns.nextOut = twin.nextOut := by
  rw [Namespace.nextOut, Namespace.nextOut, twins.nextBlock, twins.nextStamp]

theorem tracking {block : Block} {file : InodeId} {targets : List String}
    {done done' : Unit} (h : trackBlock block file targets ns = .ok done ns')
    (h' : trackBlock block file targets twin = .ok done' twin') :
    ns'.Twins twin' := by
  rw [trackBlock, Outcome.modify_eq_ok] at h h'
  subst h h'
  rw [twins.blocks]
  split
  · exact { twins with blocks := rfl }
  · exact twins

end Twins

variable {α β γ δ : Type} {Q : α → β → Prop} {R : γ → δ → Prop}

/-- Where two requests both succeed their answers are related, and twins are
left as twins. -/
def Concurs (Q : α → β → Prop) (request : Request α) (other : Request β) :
    Prop :=
  ∀ ns twin : Namespace, ns.Twins twin → ns.Sound → twin.Sound →
    ∀ a ns' b twin',
    request ns = .ok a ns' → other twin = .ok b twin' → Q a b ∧ ns'.Twins twin'

namespace Concurs

/-- Both units of work get their locks along the same paths. -/
theorem transact {paths : List PathLock} {work : Work α} {other : Work β}
    (concurs : Work.Concurs Q work other) (frames : work.Frames)
    (frames' : other.Frames) :
    Concurs Q (Namespace.transact operation { paths } work)
      (Namespace.transact operation { paths } other) := by
  intro ns twin twins sound sound' a ns' b twin' h h'
  obtain ⟨locks, tx, hplan, hwork, rfl⟩ := exists_of_transact sound.locks h
  obtain ⟨locks', tx', hplan', hwork', rfl⟩ :=
    exists_of_transact sound'.locks h'
  obtain ⟨_, hsame, carries⟩ := LockDemand.mirrors_plan
    (InodeTable.view_matches twins.nodes) paths locks hplan
  cases hplan'.symm.trans hsame
  obtain ⟨hab, done⟩ :=
    concurs _ _ (twins.opened carries) a tx b tx' hwork hwork'
  exact ⟨hab, twins.commit sound sound' (frames.extends_of_ok hwork)
    (frames'.extends_of_ok hwork') done⟩

/-- Both requests are about the same path. -/
theorem resolved (path : String) {next : String → Request α}
    {next' : String → Request β}
    (rest : ∀ path, Concurs Q (next path) (next' path)) :
    Concurs Q (resolvePath path >>= next) (resolvePath path >>= next') := by
  intro ns twin twins sound sound' a ns' b twin' h h'
  obtain ⟨found, mid, hfound, hnext⟩ := Outcome.bind_eq_ok.1 h
  obtain ⟨found', mid', hfound', hnext'⟩ := Outcome.bind_eq_ok.1 h'
  obtain ⟨hresolve, rfl⟩ := resolvePath_eq_ok.1 hfound
  obtain ⟨hresolve', rfl⟩ := resolvePath_eq_ok.1 hfound'
  obtain ⟨_, hsame, rfl⟩ := Path.mirrors_resolveReserved
    (InodeTable.view_matches twins.nodes) path found hresolve
  cases hresolve'.symm.trans hsame
  exact rest _ _ _ twins sound sound' a ns' b twin' hnext hnext'

theorem guarded {c : Prop} [Decidable c] {error error' : Error}
    {rest : PUnit → Request α} {rest' : PUnit → Request β}
    (accepted : Concurs Q (rest ⟨⟩) (rest' ⟨⟩)) :
    Concurs Q (if c then MonadExcept.throw error >>= rest else rest ⟨⟩)
      (if c then MonadExcept.throw error' >>= rest' else rest' ⟨⟩) := by
  intro ns twin twins sound sound' a ns' b twin' h h'
  split at h
  next => cases h
  next hc =>
    rw [if_neg hc] at h'
    exact accepted ns twin twins sound sound' a ns' b twin' h h'

/-- Requests that look at the settings first. -/
theorem configured {next : Namespace → Request α}
    {next' : Namespace → Request β}
    (rest : ∀ ns twin : Namespace, ns.config = twin.config →
      Concurs Q (next ns) (next' twin)) :
    Concurs Q (MonadState.get >>= next) (MonadState.get >>= next') :=
  fun ns twin twins => rest ns twin twins.config ns twin twins

theorem legal {value : Int} {next : Unit → Request α} {next' : Unit → Request β}
    (accepted : Concurs Q (next ()) (next' ())) :
    Concurs Q (requireLegal value >>= next) (requireLegal value >>= next') := by
  intro ns twin twins sound sound' a ns' b twin' h h'
  obtain ⟨_, mid, hlegal, hnext⟩ := Outcome.bind_eq_ok.1 h
  obtain ⟨_, mid', hlegal', hnext'⟩ := Outcome.bind_eq_ok.1 h'
  obtain ⟨_, rfl⟩ := requireLegal_eq_ok.1 hlegal
  obtain ⟨_, rfl⟩ := requireLegal_eq_ok.1 hlegal'
  exact accepted _ _ twins sound sound' a ns' b twin' hnext hnext'

/-- Blocks that are not used any more are forgotten in the end. -/
theorem releasing {request other : Request α} {next : α → Request γ}
    (concurs : Concurs Eq request other) (blocks : α → List Block)
    (answer : α → γ)
    (ends : ∀ a ns, next a ns =
      .ok (answer a) { ns with blocks := ns.blocks.removeAll (blocks a) }) :
    Concurs Eq (request >>= next) (other >>= next) := by
  intro ns twin twins sound sound' c ns' d twin' h h'
  obtain ⟨a, mid, hrequest, hnext⟩ := Outcome.bind_eq_ok.1 h
  obtain ⟨_, mid', hrequest', hnext'⟩ := Outcome.bind_eq_ok.1 h'
  obtain ⟨rfl, twins'⟩ :=
    concurs ns twin twins sound sound' a mid _ mid' hrequest hrequest'
  rw [ends] at hnext hnext'
  cases hnext
  cases hnext'
  exact ⟨rfl, twins'.releasing _⟩

theorem map {request other : Request α} (f : α → γ)
    (concurs : Concurs Eq request other) :
    Concurs Eq (f <$> request) (f <$> other) := by
  intro ns twin twins sound sound' c ns' d twin' h h'
  obtain ⟨a, hrequest, rfl⟩ := Outcome.map_eq_ok.1 h
  obtain ⟨b, hrequest', rfl⟩ := Outcome.map_eq_ok.1 h'
  obtain ⟨rfl, twins'⟩ :=
    concurs ns twin twins sound sound' a ns' b twin' hrequest hrequest'
  exact ⟨rfl, twins'⟩

end Concurs

theorem concurs_mkdirs (path : String) (permission : Permission) :
    Concurs Eq (mkdirs path permission) (mkdirs path permission) :=
  .resolved path fun path => .transact (.makePath path permission)
    (.makePath _ _) (.makePath _ _)

theorem concurs_create (path : String) (options : CreateOptions) :
    Concurs Eq (create path options) (create path options) := by
  refine .resolved path fun path => ?_
  refine .configured fun ns twin same => ?_
  dsimp only
  rw [same]
  refine .guarded (.guarded (.releasing (.transact
    (.repeated (.createFile path options _ _) ?_) (.createFile _ _ _ _)
      (.createFile _ _ _ _)) Prod.snd Prod.fst fun _ _ => rfl))
  rintro ⟨id, replaced⟩ ⟨id', replaced'⟩ _ ⟨rfl, rfl⟩ ⟨rfl, rfl⟩
  rfl

theorem concurs_createSymlink (target link : String) (permission : Permission)
    (createParent : Bool) :
    Concurs Eq (createSymlink target link permission createParent)
      (createSymlink target link permission createParent) := by
  unfold createSymlink
  extract_lets rest
  refine .guarded (.resolved link fun link => .transact (.repeated
    (.symlinkPath _ _ _ _) ?_) (.symlinkPath _ _ _ _) (.symlinkPath _ _ _ _))
  exact fun ha hb => Eq.trans ha (Eq.symm hb)

/-- Work on the file that both find at the path. -/
theorem Concurs.onFile {work : Chain → Work α} (path : String)
    (frames : ∀ chain, (work chain).Frames)
    (concurs : ∀ chain, Work.Concurs Eq (work chain) (work chain)) :
    Concurs Eq (Namespace.onFile operation path work)
      (Namespace.onFile operation path work) :=
  .resolved path fun path => .transact
    ((Work.Concurs.resolve path false).bind fun same => same ▸ concurs _)
    (.bind (.read _) frames) (.bind (.read _) frames)

theorem concurs_addBlock (path client : String) (targets : List String) :
    Concurs Eq (addBlock path client targets)
      (addBlock path client targets) := by
  intro ns twin twins sound sound' block ns' block' twin' h h'
  obtain ⟨rfl, file, mid, hfile, htrack⟩ := addBlock_eq_ok.1 h
  obtain ⟨rfl, file', mid', hfile', htrack'⟩ := addBlock_eq_ok.1 h'
  rw [← twins.nextOut] at hfile' htrack' ⊢
  have concurs :
      Concurs Eq
        (onFile .addBlock path (Work.addBlockAt client ns.nextOut targets))
        (onFile .addBlock path (Work.addBlockAt client ns.nextOut targets)) :=
    .onFile path (.addBlockAt _ _ _)
      fun chain => .repeated (.addBlockAt chain.matches_same _ _ _)
      fun ha hb => Eq.trans ha (Eq.symm hb)
  obtain ⟨rfl, twins'⟩ := concurs _ _ (twins.past _) ⟨sound.books, sound.ledger,
    sound.locks⟩ ⟨sound'.books, sound'.ledger,
      sound'.locks⟩ file mid file' mid' hfile hfile'
  exact ⟨rfl, twins'.tracking htrack htrack'⟩

theorem concurs_abandonBlock (path client : String) (block : Nat) :
    Concurs Eq (abandonBlock path client block)
      (abandonBlock path client block) :=
  .releasing (.onFile path (.abandonAt _ _) (.abandonAt client block)) id
    (!·.isEmpty)
    fun _ _ => rfl

theorem concurs_complete (path client : String) (lastLength : Nat) :
    Concurs Eq (complete path client lastLength)
      (complete path client lastLength) :=
  .onFile path (.completeAt _ _)
    fun chain => .done (.completeAt chain.matches_same _ _)

theorem concurs_append (path : String) (writer : Writer) :
    Concurs Eq (append path writer) (append path writer) :=
  .onFile path (.appendAt _) fun chain => .done (.appendAt chain.matches_same _)

theorem concurs_writeInline (path client : String) (length : Nat) :
    Concurs Eq (writeInline path client length)
      (writeInline path client length) := by
  refine .configured fun ns twin same => ?_
  dsimp only
  rw [same]
  exact .guarded (.onFile path (.writeInlineAt _ _) fun chain =>
    .done (.writeInlineAt chain.matches_same _ _))

theorem concurs_truncate (path : String) (length : Int) :
    Concurs Eq (truncate path length) (truncate path length) :=
  .resolved path fun path => .releasing (.transact
    ((Work.Concurs.resolve path true).bind
      fun same => same ▸ .truncateAt path length _)
    (.bind (.read _) fun _ => .truncateAt _ _ _)
      (.bind (.read _) fun _ => .truncateAt _ _ _))
    id (fun _ => ⟨⟩) fun _ _ => rfl

theorem concurs_delete (path : String) (recursive : Bool) :
    Concurs Eq (delete path recursive) (delete path recursive) := by
  refine .resolved path fun path => ?_
  refine .releasing (.transact (.deletePath path recursive) (.deletePath _ _)
    (.deletePath _ _)) (Option.getD · []) Option.isSome ?_
  rintro (_ | blocks) ns <;> rfl

theorem concurs_rename (source destination : String) :
    Concurs Eq (rename source destination) (rename source destination) :=
  .resolved source fun source => .resolved destination fun destination =>
    .transact (.renamePath source destination) (.renamePath _ _)
      (.renamePath _ _)

theorem concurs_changeLimits (path : String) (edit : Edit) (liftsInodes : Bool)
    (change : Counts → Counts) :
    Concurs Eq (changeLimits path edit liftsInodes change)
      (changeLimits path edit liftsInodes change) :=
  .resolved path
    fun path => .transact (.done (.changeLimits path edit liftsInodes change))
    (.changeLimits _ _ _ _) (.changeLimits _ _ _ _)

theorem concurs_setQuota (path : String) (inodes bytes : Int) :
    Concurs Eq (setQuota path inodes bytes) (setQuota path inodes bytes) := by
  unfold setQuota
  extract_lets rest
  exact .legal (.legal (.guarded (concurs_changeLimits _ _ _ _)))

theorem concurs_setTypeQuota (path : String) (type : StorageType)
    (limit : Int) :
    Concurs Eq (setTypeQuota path type limit)
      (setTypeQuota path type limit) := by
  unfold setTypeQuota
  extract_lets rest
  exact .guarded (.legal (concurs_changeLimits _ _ _ _))

theorem concurs_setStoragePolicy (path : String) (policy : StoragePolicy) :
    Concurs Eq (setStoragePolicy path policy) (setStoragePolicy path policy) :=
  .resolved path fun path => .transact (.done (.setPolicy path policy))
    (.setPolicy _ _)
    (.setPolicy _ _)

theorem concurs_setReplication (path : String) (replication : Nat) :
    Concurs Eq (setReplication path replication)
      (setReplication path replication) := by
  unfold setReplication
  extract_lets rest
  exact .guarded (.resolved path
    fun path => .transact (.done (.setReplication path replication))
      (.setReplication _ _) (.setReplication _ _))

/-- Recounting reports the same directories and the same limits that are
exceeded. -/
theorem concurs_recount : Concurs RecountReport.Agrees recount recount := by
  refine .configured fun ns twin same => ?_
  dsimp only
  rw [same]
  split
  · refine .transact (.of_repeats .recountAll .recountAll fun ha hb => ?_)
      frames_recountAll frames_recountAll
    exact ⟨ha.directories.trans hb.directories.symm,
      ha.violations.trans hb.violations.symm⟩
  · intro ns twin twins _ _ a ns' b twin' h h'
    obtain ⟨rfl, rfl⟩ := Outcome.pure_eq_ok.1 h
    obtain ⟨rfl, rfl⟩ := Outcome.pure_eq_ok.1 h'
    exact ⟨⟨rfl, rfl⟩, twins⟩

end Namespace

end QuotaTree
