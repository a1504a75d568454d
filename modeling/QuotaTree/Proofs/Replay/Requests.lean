/-
Requests made again from their edits.  A request that has written an edit can be
made of the namespace rebuilt so far, and leaves the two alike.
-/
import QuotaTree.Proofs.Replay.Locking
import QuotaTree.Proofs.Replay.Retrace
import QuotaTree.Proofs.Request.Homing

namespace QuotaTree

namespace Namespace

variable {α β γ δ : Type} {p : Pairing} {Q : α → β → Prop} {R : γ → δ → Prop}
  {idle : α → Prop} {config : Config} {edit : Edit} {path : String}
  {ns : Namespace}

/-- When the first request succeeds it has changed nothing at all, or it has
written the edit and the second request can be made of a namespace that is
rebuilt, with a related answer. -/
def Retraces (config : Config) (p : Pairing) (Q : α → β → Prop)
    (idle : α → Prop) (edit : Edit) (request : Request α) (again : Request β) :
    Prop :=
  ∀ ns rebuilt : Namespace, ns.Alike p rebuilt → ns.Sound → rebuilt.Sound →
    ns.config = config →
    ∀ a ns', request ns = .ok a ns' →
      (ns' = ns ∧ idle a) ∨
        ∃ b rebuilt', again rebuilt = .ok b rebuilt' ∧ Q a b ∧
          ns'.Alike p rebuilt' ∧
          ns'.edits = ns.edits ++ [edit]

/-- A unit of work whose locks are planned along the same paths. -/
theorem Alike.transact {rebuilt ns' : Namespace} {operation : Operation}
    {paths : List PathLock} {work : Work α} {again : Work β} {a : α}
    (Q : α → β → Prop) (idle : α → Prop) (alike : ns.Alike p rebuilt)
    (sound : ns.Sound) (sound' : rebuilt.Sound) (frames : work.Frames)
    (frames' : again.Frames)
    (retraces : ∀ {locks locks' tx},
      (ns.opened operation locks).Matches p (rebuilt.opened operation locks') →
      work (ns.opened operation locks) = .ok a tx →
        (tx = ns.opened operation locks ∧ idle a) ∨
          ∃ b tx', again (rebuilt.opened operation locks') = .ok b tx' ∧ Q a b ∧
      tx.Matches p tx' ∧
            tx.edits = (ns.opened operation locks).edits ++ [edit])
    (h : transact operation { paths } work ns = .ok a ns') :
    (ns' = ns ∧ idle a) ∨
      ∃ b rebuilt', Namespace.transact operation { paths } again rebuilt =
          .ok b rebuilt' ∧ Q a b ∧
        ns'.Alike p rebuilt' ∧ ns'.edits = ns.edits ++ [edit] := by
  obtain ⟨locks, tx, hplan, hwork, rfl⟩ := exists_of_transact sound.locks h
  have views := InodeTable.view_matches alike.nodes
  obtain ⟨locks', hplan', carries⟩ :=
    LockDemand.mirrors_plan views paths locks hplan
  have matched :
      (ns.opened operation locks).Matches p (rebuilt.opened operation locks') :=
    alike.opened carries
  rcases retraces matched hwork with ⟨rfl, hidle⟩ |
    ⟨b, tx', hagain, hab, matched', hedits⟩
  · exact .inl ⟨commit_opened sound.locks, hidle⟩
  · have ext := frames.extends_of_ok hwork
    have ext' := frames'.extends_of_ok hagain
    have hcommit :=
      (transact_eq_ok sound'.locks frames').2 ⟨locks', tx', hplan', hagain, rfl⟩
    refine .inr ⟨b, tx'.commit, hcommit,
      hab, alike.commit sound sound' ext ext' matched', ?_⟩
    rw [edits_commit sound alike.loaded ext, hedits]
    rfl

namespace Retraces

theorem transact {operation : Operation} {paths : List PathLock} {work : Work α}
    {again : Work β} (retraces : Work.Retraces p Q idle edit work again)
    (frames : work.Frames) (frames' : again.Frames) :
    Retraces config p Q idle edit (Namespace.transact operation { paths } work)
      (Namespace.transact operation { paths } again) :=
  fun _ _ alike sound sound' _ _ _ h =>
    alike.transact Q idle sound sound' frames frames'
      (fun matched => retraces _ _ matched _ _) h

theorem plain {next : String → Request α} {next' : String → Request β}
    (plain : Path.isReserved path = false)
    (retraces : Retraces config p Q idle edit (next path) (next' path)) :
    Retraces config p Q idle edit (resolvePath path >>= next)
      (resolvePath path >>= next') := by
  intro ns rebuilt alike sound sound' hconfig a ns' h
  rw [resolvePath_bind plain] at h
  rw [resolvePath_bind plain]
  exact retraces ns rebuilt alike sound sound' hconfig a ns' h

theorem guarded {c : Prop} [Decidable c] {error error' : Error}
    {rest : PUnit → Request α} {rest' : PUnit → Request β}
    (accepted : Retraces config p Q idle edit (rest ⟨⟩) (rest' ⟨⟩)) :
    Retraces config p Q idle edit
      (if c then MonadExcept.throw error >>= rest else rest ⟨⟩)
      (if c then MonadExcept.throw error' >>= rest' else rest' ⟨⟩) := by
  intro ns rebuilt alike sound sound' hconfig a ns' h
  split at h
  next => cases h
  next hc =>
    rw [if_neg hc]
    exact accepted ns rebuilt alike sound sound' hconfig a ns' h

/-- A request that looks at the settings first. -/
theorem configured {next : Namespace → Request α}
    {next' : Namespace → Request β}
    (retraces : ∀ ns rebuilt : Namespace, ns.config = config →
      rebuilt.config = config →
      Retraces config p Q idle edit (next ns) (next' rebuilt)) :
    Retraces config p Q idle edit (MonadState.get >>= next)
      (MonadState.get >>= next') :=
  fun ns rebuilt alike sound sound' hconfig =>
    retraces ns rebuilt hconfig
      (alike.config.trans hconfig) ns rebuilt alike sound sound' hconfig

theorem legal {value : Int} {next : Unit → Request α} {next' : Unit → Request β}
    (accepted : Retraces config p Q idle edit (next ()) (next' ())) :
    Retraces config p Q idle edit (requireLegal value >>= next)
      (requireLegal value >>= next') := by
  intro ns rebuilt alike sound sound' hconfig a ns' h
  obtain ⟨_, mid, hlegal, hnext⟩ := Outcome.bind_eq_ok.1 h
  obtain ⟨hvalue, rfl⟩ := requireLegal_eq_ok.1 hlegal
  have hpass : requireLegal value rebuilt = .ok () rebuilt :=
    requireLegal_eq_ok.2 ⟨hvalue, rfl⟩
  rw [Outcome.bind_of_ok hpass]
  exact accepted mid rebuilt alike sound sound' hconfig a ns' hnext

theorem discarded {request : Request α} {again : Request β}
    (retraces : Retraces config p Q idle edit request again) :
    Retraces config p (fun _ _ => True) (fun _ => True) edit (discard request)
      (discard again) := by
  intro ns rebuilt alike sound sound' hconfig _ ns' h
  obtain ⟨a, hrequest⟩ := Outcome.discard_eq_ok.1 h
  rcases retraces ns rebuilt alike sound sound' hconfig a ns' hrequest with
    ⟨rfl, _⟩ | ⟨b, rebuilt', hagain, _, halike⟩
  · exact .inl ⟨rfl, trivial⟩
  · exact .inr ⟨⟨⟩, rebuilt', Outcome.discard_eq_ok.2 ⟨b, hagain⟩, trivial,
      halike⟩

/-- Blocks that are not used any more are forgotten on both sides. -/
theorem releasing {request : Request α} {again : Request β}
    {next : α → Request γ} {next' : β → Request δ}
    (retraces : Retraces config p Q idle edit request again)
    (blocks : α → List Block) (blocks' : β → List Block) (answer : α → γ)
    (answer' : β → δ)
    (first : ∀ a ns, next a ns =
      .ok (answer a) { ns with blocks := ns.blocks.removeAll (blocks a) })
    (second : ∀ b ns, next' b ns =
      .ok (answer' b) { ns with blocks := ns.blocks.removeAll (blocks' b) })
    (same : ∀ {a b}, Q a b → blocks a = blocks' b)
    (still : ∀ {a}, idle a → blocks a = []) :
    Retraces config p (fun _ _ => True) (fun _ => True) edit (request >>= next)
      (again >>= next') := by
  intro ns rebuilt alike sound sound' hconfig c ns' h
  obtain ⟨a, mid, hrequest, hnext⟩ := Outcome.bind_eq_ok.1 h
  rw [first] at hnext
  cases hnext
  rcases retraces ns rebuilt alike sound sound' hconfig a mid hrequest with
    ⟨rfl, hidle⟩ | ⟨b, rebuilt', hagain, hab, halike, hedits⟩
  · rw [still hidle]
    exact .inl ⟨rfl, trivial⟩
  · refine .inr ⟨answer' b, _, (Outcome.bind_of_ok hagain).trans
      (second b rebuilt'), trivial, ?_, hedits⟩
    rw [same hab]
    exact halike.releasing (blocks' b)

end Retraces

section Paths

variable (plain : Path.isReserved path = false)

include plain

theorem retraces_mkdirs (permission : Permission) :
    Retraces config p (fun _ _ => True) (fun _ => True) (.mkdirs path
      permission) (mkdirs path permission) (apply (.mkdirs path permission)) :=
  .plain plain
    (.transact (.makePath path permission) (.makePath path permission)
    (.makePath path permission))

/-- A file is made again with its parents, whether its settings were given or
not. -/
theorem retraces_create (options : CreateOptions) {replication blockSize : Nat}
    (hreplication : options.replication.getD config.defaultReplication =
      replication)
    (hblockSize : options.blockSize.getD config.defaultBlockSize = blockSize) :
    Retraces config p (fun _ _ => True) (fun _ => True) (.create path
      options.permission replication blockSize options.writer options.overwrite)
      (create path options)
      (create path (options.written replication blockSize)) := by
  refine .plain plain (.configured fun ns rebuilt hns hrebuilt => ?_)
  simp only [hns, hreplication, hblockSize, CreateOptions.written,
    Option.getD_some]
  refine .guarded (.guarded ?_)
  refine .releasing (.transact (.of_repeats (.createFile path options _ _))
    (.createFile _ _ _ _) (.createFile _ _ _ _)) Prod.snd Prod.snd Prod.fst
    Prod.fst ?_ ?_ (fun hab => hab.2) id
  · rintro ⟨id, replaced⟩ ns
    rfl
  · rintro ⟨id, replaced⟩ ns
    rfl

theorem retraces_createSymlink (target : String) (permission : Permission)
    (createParent : Bool) :
    Retraces config p p (fun _ => True) (.symlink target path permission
      createParent) (createSymlink target path permission createParent)
      (createSymlink target path permission createParent) := by
  unfold createSymlink
  extract_lets rest
  refine .guarded (.plain plain ?_)
  exact .transact (.of_repeats (.symlinkPath _ _ _ _)) (.symlinkPath _ _ _ _)
    (.symlinkPath _ _ _ _)

theorem retraces_delete (recursive : Bool) :
    Retraces config p (fun _ _ => True) (fun _ => True) (.delete path recursive)
      (delete path recursive) (delete path recursive) := by
  refine .plain plain ?_
  refine .releasing (.transact (.deletePath path recursive) (.deletePath _ _)
    (.deletePath _ _)) (Option.getD · []) (Option.getD · []) Option.isSome
    Option.isSome ?_ ?_ (fun same => congrArg (Option.getD · []) same)
    fun none => congrArg (Option.getD · []) none
  · rintro (_ | blocks) ns <;> rfl
  · rintro (_ | blocks) ns <;> rfl

theorem retraces_rename {destination : String}
    (plain' : Path.isReserved destination = false) :
    Retraces config p (fun _ _ => True) (fun _ => True) (.rename path
      destination) (rename path destination) (rename path destination) :=
  .plain plain
    (.plain plain' (.transact (.renamePath path destination) (.renamePath _ _)
    (.renamePath _ _)))

theorem retraces_changeLimits (edit : Edit) (liftsInodes : Bool)
    (change : Counts → Counts) :
    Retraces config p (fun _ _ => True) (fun _ => True) edit (changeLimits path
      edit liftsInodes change) (changeLimits path edit liftsInodes change) :=
  .plain plain
    (.transact (.of_repeats (.changeLimits path edit liftsInodes change))
    (.changeLimits _ _ _ _) (.changeLimits _ _ _ _))

theorem retraces_setQuota (inodes bytes : Int) :
    Retraces config p (fun _ _ => True) (fun _ => True) (.setQuota path inodes
      bytes) (setQuota path inodes bytes) (setQuota path inodes bytes) := by
  unfold setQuota
  extract_lets rest
  exact .legal (.legal (.guarded (retraces_changeLimits plain _ _ _)))

theorem retraces_setTypeQuota (type : StorageType) (limit : Int) :
    Retraces config p (fun _ _ => True) (fun _ => True) (.setTypeQuota path type
      limit) (setTypeQuota path type limit) (setTypeQuota path type limit) := by
  unfold setTypeQuota
  extract_lets rest
  exact .guarded (.legal (retraces_changeLimits plain _ _ _))

theorem retraces_setStoragePolicy (policy : StoragePolicy) :
    Retraces config p (fun _ _ => True) (fun _ => True) (.setPolicy path policy)
      (setStoragePolicy path policy) (setStoragePolicy path policy) :=
  .plain plain
    (.transact (.of_repeats (.setPolicy path policy)) (.setPolicy path policy)
    (.setPolicy path policy))

theorem retraces_setReplication (replication : Nat) :
    Retraces config p (fun _ _ => True) (fun _ => True)
      (.setReplication path replication) (setReplication path replication)
      (setReplication path replication) := by
  unfold setReplication
  extract_lets rest
  exact .guarded
    (.plain plain (.transact (.of_repeats (.setReplication path replication))
      (.setReplication _ _) (.setReplication _ _)))

section Files

variable (canonical : Path.Canonical path)

include canonical

/-- Work on a file is done again at the path where the file lives. -/
theorem Retraces.onFile {operation : Operation} {work : Chain → Work α}
    {again : Chain → Work β} (frames : ∀ chain, (work chain).Frames)
    (frames' : ∀ chain, (again chain).Frames)
    (retraces : ∀ {chain chain'}, chain.Matches p chain' → chain.path = path →
      Work.Retraces p Q idle edit (work chain) (again chain')) :
    Retraces config p Q idle edit (Namespace.onFile operation path work)
      (Namespace.onFile operation path again) := by
  refine .plain plain
    (.transact ?_ (.bind (.read _) frames) (.bind (.read _) frames'))
  have mirrors {left right : View} (views : left.Matches p right) :
      Outcome.Mirrors (fun chain chain' => chain.Matches p chain' ∧
        chain.path = path) (Chain.resolve left path false)
        (Chain.resolve right path false) := by
    intro chain h
    obtain ⟨chain', hchain', chains⟩ :=
      Chain.mirrors_resolve views false chain h
    exact ⟨chain', hchain', chains, Chain.path_of_resolve canonical h⟩
  exact .read mirrors fun h => retraces h.1 h.2

theorem retraces_complete (client : String) (lastLength : Nat) :
    Retraces config p (fun _ _ => True) (fun _ => True)
      (.complete path client lastLength) (complete path client lastLength)
      (complete path client lastLength) :=
  .onFile plain canonical (.completeAt _ _) (.completeAt _ _)
    fun chains hpath =>
    .of_repeats (hpath ▸ .completeAt chains client lastLength)

theorem retraces_append (writer : Writer) :
    Retraces config p (fun _ _ => True) (fun _ => True) (.append path writer)
      (append path writer) (append path writer) :=
  .onFile plain canonical (.appendAt _) (.appendAt _) fun chains hpath =>
    .of_repeats (hpath ▸ .appendAt chains writer)

theorem retraces_writeInline (client : String) (length : Nat) :
    Retraces config p (fun _ _ => True) (fun _ => True)
      (.writeInline path client length) (writeInline path client length)
      (writeInline path client length) := by
  refine .configured fun ns rebuilt hns hrebuilt => ?_
  rw [hns, hrebuilt]
  refine .guarded
    (.onFile plain canonical (.writeInlineAt _ _) (.writeInlineAt _ _) ?_)
  exact fun chains hpath => .of_repeats
    (hpath ▸ .writeInlineAt chains client length)

theorem retraces_abandonBlock (client : String) (block : Nat) :
    Retraces config p (fun _ _ => True) (fun _ => True)
      (.abandonBlock path client block) (abandonBlock path client block)
      (abandonBlock path client block) := by
  refine .releasing (.onFile plain canonical (.abandonAt _ _) (.abandonAt _ _)
    ?_) id id (!·.isEmpty) (!·.isEmpty) (fun _ _ => rfl) (fun _ _ => rfl) id id
  exact fun chains hpath => hpath ▸ .abandonAt chains client block

/-- The block that is given out to a request is given to it again. -/
theorem Alike.addBlock {rebuilt ns' : Namespace} {client : String}
    {targets : List String} {block : Block} (alike : ns.Alike p rebuilt)
    (sound : ns.Sound) (sound' : rebuilt.Sound)
    (h : addBlock path client targets ns = .ok block ns') :
    ∃ rebuilt', addBlockAs path client block targets rebuilt = .ok () rebuilt' ∧
      ns'.Alike p rebuilt' ∧
      ns'.edits = ns.edits ++ [.addBlock path client block targets] := by
  obtain ⟨rfl, file, mid, hfile, htrack⟩ := addBlock_eq_ok.1 h
  set block := ns.nextOut
  have hnumbered : (ns.past block).Alike p (rebuilt.past block) :=
    alike.numbering (Nat.le_max_left ..)
  have hsound : (ns.past block).Sound :=
    ⟨sound.books, sound.ledger, sound.locks⟩
  have hsound' : (rebuilt.past block).Sound :=
    ⟨sound'.books, sound'.ledger, sound'.locks⟩
  have retraces :
      Retraces ns.config p p (fun _ => False) (.addBlock path client block
        targets) (onFile .addBlock path (Work.addBlockAt client block targets))
        (onFile .addBlock path (Work.addBlockAt client block targets)) :=
    .onFile plain canonical (.addBlockAt _ _ _) (.addBlockAt _ _ _)
      fun chains hpath => .of_repeats
      (hpath ▸ .addBlockAt chains client block targets)
  rcases retraces _ _ hnumbered hsound hsound' rfl file mid hfile with
    ⟨_, h⟩ | ⟨file', mid', hfile', _, halike, hedits⟩
  · exact h.elim
  · rw [onFile, resolvePath_bind plain] at hfile
    obtain ⟨hblocks, hnext⟩ :=
      blocks_of_transact hsound (.bind (.read _) (.addBlockAt _ _ _)) hfile
    have hfresh : mid.blocks[block.id]? = none := by
      rw [hblocks]
      by_contra hne
      exact absurd (alike.numbered _ (Option.isSome_iff_ne_none.2 hne))
        (Nat.lt_irrefl _)
    have hfresh' : mid'.blocks[block.id]? = none :=
      right_none_of_rel (halike.blocks block.id) hfresh
    rw [trackBlock_of_fresh hfresh] at htrack
    cases htrack
    refine ⟨_, ?_, halike.tracking ?_ file file' targets, hedits⟩
    · rw [addBlockAs_eq]
      exact Outcome.bind_eq_ok.2
        ⟨file', mid', hfile', trackBlock_of_fresh hfresh'⟩
    · rw [hnext]
      exact Nat.lt_of_lt_of_le (Nat.lt_succ_self _) (Nat.le_max_right ..)

end Files

end Paths

/-- A file is cut again at the path where it lives. -/
theorem Alike.truncate {rebuilt ns' : Namespace} {chain : Chain} {length : Int}
    (alike : ns.Alike p rebuilt) (sound : ns.Sound) (sound' : rebuilt.Sound)
    (home : IsHome chain.path)
    (ends : Chain.Follows ns.table.view Chain.maxHops chain.path [] (chain, []))
    (h : truncate chain.path length ns = .ok () ns') :
    ns' = ns ∨
    ∃ rebuilt', truncate chain.path length.toNat rebuilt = .ok () rebuilt' ∧
      ns'.Alike p rebuilt' ∧
      ns'.edits = ns.edits ++ [.truncate chain.path length.toNat] := by
  let cut (length : Int) : Work (List Block) := do
    let found ← Work.read (Chain.resolve · chain.path true)
    Work.truncateAt chain.path length found
  have frames (length : Int) : Work.Frames (cut length) :=
    .bind (.read _) fun _ => .truncateAt _ _ _
  have retraces {locks locks' : LockSet} {tx : Transaction}
      {dropped : List Block}
      (matched : (ns.opened .truncate locks).Matches p
        (rebuilt.opened .truncate locks'))
      (hwork : cut length (ns.opened .truncate locks) = .ok dropped tx) :
      (tx = ns.opened .truncate locks ∧ dropped = []) ∨
        ∃ b tx', cut length.toNat (rebuilt.opened .truncate locks') =
            .ok b tx' ∧ dropped = b ∧
          tx.Matches p tx' ∧
          tx.edits = (ns.opened .truncate locks).edits ++
            [.truncate chain.path length.toNat] := by
    obtain ⟨found, _, hread, hcut⟩ := Outcome.bind_eq_ok.1 hwork
    obtain ⟨hresolve, rfl⟩ := Work.read_eq_ok.1 hread
    obtain ⟨links, hlinks⟩ :=
      Chain.follow_eq_ok.1 (Chain.resolve_eq_ok.1 hresolve)
    obtain ⟨rfl, hfound⟩ := ends.unique (hlinks.unveiled veils_opened)
    cases hfound
    obtain ⟨chain', hresolve', chains⟩ :=
      Chain.mirrors_resolve matched.view true _ hresolve
    refine (Work.Retraces.truncateAt chains chain.path chain.path length _ _
      matched _ _ hcut).imp_right ?_
    rintro ⟨b, tx', hcut', htrace⟩
    exact ⟨b, tx', Outcome.bind_eq_ok.2
      ⟨chain', _, Work.read_eq_ok.2 ⟨hresolve', rfl⟩, hcut'⟩, htrace⟩
  rw [Namespace.truncate, resolvePath_bind home.plain] at h
  obtain ⟨dropped, mid, hcut, hrelease⟩ := Outcome.bind_eq_ok.1 h
  cases hrelease
  rcases alike.transact Eq (· = []) sound sound' (frames length)
    (frames _) retraces hcut with
    ⟨rfl, rfl⟩ | ⟨_, rebuilt', hagain, rfl, halike, hedits⟩
  · exact .inl rfl
  · refine .inr ⟨_, ?_, halike.releasing dropped, hedits⟩
    rw [Namespace.truncate, resolvePath_bind home.plain]
    exact (Outcome.bind_of_ok hagain).trans rfl

end Namespace

end QuotaTree
