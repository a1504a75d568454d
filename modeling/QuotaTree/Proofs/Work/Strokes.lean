/-
The strokes that units of work are made of.  A unit of work stores inodes,
enters changes of usage at inodes that are there, and takes inodes out together
with what is pending at them.  What every stroke keeps is kept by the work as a
whole.
-/
import QuotaTree.Proofs.Request.Adjust
import QuotaTree.Proofs.Request.Arrange
import QuotaTree.Proofs.Request.Create
import QuotaTree.Proofs.Request.Settle
import QuotaTree.Proofs.Request.Write
import QuotaTree.Proofs.Tree.Follow
import QuotaTree.Proofs.Work.Preserve

namespace QuotaTree

open Nodes

namespace Chain

variable {view : View} {start chain : Chain} {path : String}
  {names rest : List Name} {found : Chain × List Name}

/-- The inode above the end of a chain, if there is one, can be read. -/
def Anchored (view : View) (chain : Chain) : Prop :=
  ∀ parent ∈ chain.parent?, ∃ inode, view.get parent.last = .ok inode

theorem anchored_root : Anchored view .root :=
  fun _ h => by cases h

/-- A walk goes down from an inode only after it has read it. -/
theorem anchored_of_descend (anchored : Anchored view start)
    (h : descend view path start names = .ok (chain, rest)) :
    Anchored view chain := by
  induction names generalizing start with
  | nil =>
    rw [descend, Outcome.except_pure_eq_ok] at h
    cases h
    exact anchored
  | cons name names ih =>
    obtain ⟨inode, hget, ⟨id, _, hrest⟩ | ⟨_, _, rfl, _⟩⟩ :=
      descend_cons_eq_ok.1 h
    · refine ih (fun parent hparent => ?_) hrest
      cases hparent
      exact ⟨inode, hget⟩
    · exact anchored

theorem Follows.anchored {hops : Nat} {links : List Chain}
    (h : Follows view hops path links found) : Anchored view found.1 := by
  induction h with
  | ends _ descends => exact anchored_of_descend anchored_root descends
  | link _ _ _ _ _ ih => exact ih

theorem anchored_of_resolve {following : Bool}
    (h : resolve view path following = .ok chain) : Anchored view chain := by
  have hexisting := resolve_eq_ok.1 h
  cases following with
  | true =>
    obtain ⟨links, follows⟩ := follow_eq_ok.1 hexisting
    exact follows.anchored
  | false =>
    obtain ⟨names, _, hdescend⟩ := resolveExisting_eq_ok.1 hexisting
    exact anchored_of_descend anchored_root hdescend

end Chain

namespace Transaction

/-- A single stroke of a unit of work. -/
inductive Stroke (tx : Transaction) : Transaction → Prop
  | store (inode : Inode) : Stroke tx (tx.stored inode)
  /-- A change of usage is entered at an inode that is there. -/
  | enter {id : InodeId} (live : (tx.tree id).isSome) (delta : Counts) :
    Stroke tx (tx.accounted id delta)
  /-- Inodes are taken out together with what is pending at them. -/
  | takeOut (ids : List InodeId) :
    Stroke tx ((tx.removedAll ids.reverse).withdrawing ids)
  | allocate (next : InodeId) : Stroke tx (tx.allocated next)
  | journal (edit : Edit) : Stroke tx (tx.journaled edit)
  /-- Updates are to leave the ledger. -/
  | settle (numbers : List Nat) :
    Stroke tx { tx with merged := tx.merged ++ numbers }
  | clear : Stroke tx (Work.cleared tx)

/-- Something that every stroke keeps. -/
def Enduring (holds : Transaction → Prop) : Prop :=
  ∀ {tx tx' : Transaction}, tx.Stroke tx' → holds tx → holds tx'

/-- The inode above the end of a chain, if there is one, is there. -/
def Anchors (tx : Transaction) (chain : Chain) : Prop :=
  ∀ parent ∈ chain.parent?, (tx.tree parent.last).isSome

/-- Something holds, and what is above the end of a chain is there. -/
def Anchoring (holds : Transaction → Prop) (chain : Chain) (tx : Transaction) :
    Prop :=
  holds tx ∧ tx.Anchors chain

section Above

variable {tx : Transaction} {chain : Chain} {inode : Inode}

theorem anchors_of_anchored (anchored : Chain.Anchored tx.view chain) :
    tx.Anchors chain := by
  intro parent h
  obtain ⟨inode, hget⟩ := anchored parent h
  rw [(view_get_eq_ok.1 hget).2]
  rfl

/-- What is there stays there when an inode is stored. -/
theorem isSome_stored {id : InodeId} (live : (tx.tree id).isSome) :
    ((tx.stored inode).tree id).isSome := by
  rw [tree_stored, set_apply]
  split
  · rfl
  · exact live

theorem Anchors.stored (anchors : tx.Anchors chain) :
    (tx.stored inode).Anchors chain :=
  fun parent h => isSome_stored (anchors parent h)

end Above

end Transaction

namespace Work

open Transaction

variable {α : Type} {holds : Transaction → Prop}

/-- A path leads to an inode only by way of the one above. -/
theorem preserves_atChain {work : Chain → Work α} (path : String)
    (following : Bool)
    (each : ∀ chain, Preserves (Anchoring holds chain) (work chain)) :
    Preserves holds (read (Chain.resolve · path following) >>= work) := by
  intro tx a tx' held h
  simp only [Outcome.bind_eq_ok, read_eq_ok] at h
  obtain ⟨chain, _, ⟨hresolve, rfl⟩, hwork⟩ := h
  have anchors := anchors_of_anchored (Chain.anchored_of_resolve hresolve)
  exact ⟨(each chain _ a tx' ⟨held, anchors⟩ hwork).1.1, trivial⟩

theorem preserves_leased (chain : Chain) (client : String) :
    Preserves holds (Work.leased chain client) :=
  (Ensures.read _).andThen fun _ => (Ensures.ofExcept _).bind
    fun _ _ => .pure trivial

theorem preserves_leasedFile (chain : Chain) (client : String) :
    Preserves holds (Work.leasedFile chain client) := by
  refine (preserves_leased _ _).andThen fun inode => ?_
  cases inode.asFile with
  | none => exact .throw _
  | some file => exact .pure trivial

theorem preserves_pendingFor (ids : List InodeId) :
    Preserves holds (Work.pendingFor ids) :=
  Ensures.getState.bind fun _ _ => .pure trivial

theorem preserves_maxDepth : Preserves holds Work.maxDepth :=
  Ensures.getState.bind fun _ _ => .pure trivial

end Work

namespace Transaction.Enduring

open Work Transaction

variable {holds : Transaction → Prop} (enduring : Enduring holds)

include enduring

section Steps

theorem put (inode : Inode) : Preserves holds (Work.put inode) :=
  fun _ _ _ held h => ⟨(put_eq_ok.1 h).2 ▸ enduring (.store inode) held,
    trivial⟩

theorem alloc : Preserves holds Work.alloc := by
  intro tx id tx' held h
  obtain ⟨next, _, _, rfl⟩ := alloc_eq_ok.1 h
  exact ⟨enduring (.allocate next) held, trivial⟩

theorem journal (edit : Edit) : Preserves holds (Work.journal edit) :=
  fun _ _ _ held h => ⟨journal_eq_ok.1 h ▸ enduring (.journal edit) held,
    trivial⟩

end Steps

section Linking

variable {tx : Transaction} {holder inode : Inode} {directory : Directory}
  {parent : InodeId} {name : Name} {ids : List InodeId} {counts : Counts}

theorem linked (live : tx.tree parent = some holder) (held : holds tx) :
    holds (tx.linked holder directory parent inode counts) := by
  have hlive : (tx.tree parent).isSome := live ▸ rfl
  exact enduring (.store _)
    (enduring (.store _) (enduring (.enter hlive counts) held))

theorem unlinked (live : tx.tree parent = some holder) (held : holds tx) :
    holds (tx.unlinked holder parent name ids counts) := by
  have hlive : (tx.tree parent).isSome := live ▸ rfl
  exact enduring (.takeOut ids)
    (enduring (.store _) (enduring (.enter hlive _) held))

theorem linkNew (parent : Chain) (inode : Inode) :
    Preserves holds (Work.linkNew parent inode) := by
  intro tx chain tx' held h
  obtain ⟨holder, directory, links, _, rfl⟩ := link_eq_ok.1 h
  exact ⟨enduring.linked links.opened.live held, trivial⟩

/-- The usage is entered where the inode was and where it comes to be. -/
theorem move {sourceParent parent : Chain} {id : InodeId} {entry name : Name} :
    Preserves holds
      (Work.move (sourceParent.child entry id) sourceParent parent name) := by
  intro tx _ tx' held h
  obtain ⟨inode, holder, ids, again, used, target, directory, moves, links,
    rfl⟩ := move_eq_ok.1 h
  have hlive : (tx.tree sourceParent.last).isSome := moves.opened.live ▸ rfl
  have hfreed : holds (tx.freed holder sourceParent.last entry again used) :=
    enduring (.enter (isSome_stored hlive) _) (enduring (.store _) held)
  exact ⟨enduring.linked links.opened.live hfreed, trivial⟩

theorem unlink (chain : Chain) :
    Preserves holds (Work.unlink chain false none) := by
  intro tx used tx' held h
  cases chain with
  | root => exact absurd h unlink_root
  | child parent name id =>
    obtain ⟨holder, ids, unlinks, rfl⟩ := unlink_eq_ok.1 h
    exact ⟨enduring.unlinked unlinks.opened.live held, trivial⟩

theorem unlinkLeaf (parent : Chain) (name : Name) (id : InodeId) :
    Preserves holds (Work.unlinkLeaf (parent.child name id)) := by
  intro tx inode tx' held h
  obtain ⟨_, holder, opened, rfl⟩ := unlinkLeaf_eq_ok.1 h
  exact ⟨enduring.unlinked opened.live held, trivial⟩

end Linking

section Creating

theorem makeDirectories (permission : Permission) (chain : Chain)
    (names : List Name) :
    Preserves holds (Work.makeDirectories permission chain names) := by
  induction names generalizing chain with
  | nil => exact .pure trivial
  | cons name rest ih =>
    refine enduring.alloc.andThen fun _ => ?_
    exact (enduring.linkNew _ _).andThen fun _ => ih _

theorem enterFile (path : String) (options : CreateOptions)
    (replication blockSize : Nat) (parent : Chain) (name : Name) :
    Preserves holds
      (Work.enterFile path options replication blockSize parent name) := by
  refine .andThen ?_ fun _ => (enduring.journal _).andThen
    fun _ => .pure trivial
  refine (Ensures.read _).andThen fun _ => ?_
  exact enduring.alloc.andThen fun _ => enduring.linkNew _ _

theorem replaceFile (chain : Chain) (path : String) (overwrite : Bool) :
    Preserves holds (Work.replaceFile chain path overwrite) := by
  unfold Work.replaceFile
  refine (Ensures.read _).andThen fun existing => ?_
  split
  · exact .throw _
  · split
    · exact .throw _
    · exact .ite (fun _ => (enduring.unlink _).andThen fun _ => .pure trivial)
        fun _ => .throw _

theorem makePath (path : String) (permission : Permission) :
    Preserves holds (Work.makePath path permission) := by
  refine (Ensures.read _).andThen fun found => ?_
  obtain ⟨chain, rest⟩ := found
  cases rest with
  | nil =>
    refine (Ensures.read _).andThen fun _ => ?_
    exact .ite (fun _ => .pure trivial) fun _ => .throw _
  | cons =>
    exact (enduring.makeDirectories _ _ _).andThen fun _ => enduring.journal _

theorem vacate (path : String) (overwrite : Bool) (chain : Chain)
    (names : List Name) :
    Preserves holds (Work.vacate path overwrite chain names) := by
  cases names with
  | nil =>
    refine (enduring.replaceFile _ _ _).andThen fun replaced => ?_
    cases chain.parent? with
    | none => exact .throw _
    | some parent => exact .pure trivial
  | cons first others => exact .pure trivial

theorem createFile (path : String) (options : CreateOptions)
    (replication blockSize : Nat) :
    Preserves holds (Work.createFile path options replication blockSize) := by
  refine (Ensures.read _).andThen fun found => ?_
  refine (enduring.vacate _ _ _ _).andThen fun place => ?_
  obtain ⟨chain, names, replaced⟩ := place
  cases names with
  | nil => exact .throw _
  | cons first others =>
    refine (Ensures.ofExcept _).bind fun _ _ => ?_
    refine (enduring.makeDirectories _ _ _).andThen fun _ => ?_
    exact (enduring.enterFile _ _ _ _ _ _).andThen fun _ => .pure trivial

theorem symlinkPath (target link : String) (permission : Permission)
    (createParent : Bool) :
    Preserves holds (Work.symlinkPath target link permission createParent) := by
  refine (Ensures.read _).andThen fun found => ?_
  obtain ⟨chain, rest⟩ := found
  cases rest with
  | nil => exact .throw _
  | cons =>
    refine (Ensures.ofExcept _).bind fun _ _ => ?_
    refine (enduring.makeDirectories _ _ _).andThen fun _ => ?_
    refine enduring.alloc.andThen fun _ => ?_
    refine (enduring.linkNew _ _).andThen fun _ => ?_
    exact (enduring.journal _).andThen fun _ => .pure trivial

end Creating

section Arranging

theorem prune (depth : Nat) (chain : Chain) :
    Preserves holds (Work.prune depth chain) := by
  induction depth generalizing chain with
  | zero => exact .throw _
  | succ depth ih =>
    unfold Work.prune
    refine (Ensures.read _).andThen fun inode => ?_
    have each : ∀ entry ∈ inode.entries, Preserves holds (do
        let child := chain.child entry.1 entry.2
        let deeper ← Work.prune depth child
        let removed ← Work.unlinkLeaf child
        pure (deeper ++ removed.blocks)) := fun entry _ =>
      (ih _).andThen fun _ => (enduring.unlinkLeaf _ _ _).andThen
        fun _ => .pure trivial
    exact (Ensures.mapM each).bind fun _ _ => .pure trivial

theorem deleteTree (chain : Chain) (path : String) (recursive : Bool) :
    Preserves holds (Work.deleteTree chain path recursive) := by
  unfold Work.deleteTree
  refine .guarded fun _ => ?_
  refine (Ensures.read _).andThen fun inode => ?_
  refine .guarded fun _ => ?_
  refine preserves_maxDepth.andThen fun depth => ?_
  refine (enduring.prune _ _).andThen fun _ => ?_
  refine (enduring.unlink _).andThen fun _ => ?_
  exact (enduring.journal _).andThen fun _ => .pure trivial

theorem deletePath (path : String) (recursive : Bool) :
    Preserves holds (Work.deletePath path recursive) := by
  refine (Ensures.read _).andThen fun found => ?_
  obtain ⟨chain, rest⟩ := found
  cases rest with
  | cons => exact .pure trivial
  | nil => exact .map (enduring.deleteTree _ _ _)

theorem renamePath (source destination : String) :
    Preserves holds (Work.renamePath source destination) := by
  intro tx done tx' held h
  cases renames_of_ok h with
  | here => exact ⟨held, trivial⟩
  | back => exact ⟨held, trivial⟩
  | moved _ _ _ _ moves =>
    exact ⟨enduring (.journal _) (enduring.move tx () _ held moves).1, trivial⟩

end Arranging

section Writing

variable {chain : Chain} {client path : String}

/-- A file is stored anew. -/
theorem putFile (inode : Inode) :
    Preserves (Anchoring holds chain) (Work.put inode) :=
  fun _ _ _ ⟨held, anchors⟩ h =>
    ⟨(put_eq_ok.1 h).2 ▸ ⟨enduring (.store inode) held, anchors.stored⟩,
      trivial⟩

theorem journalFile (edit : Edit) :
    Preserves (Anchoring holds chain) (Work.journal edit) :=
  fun _ _ _ ⟨held, anchors⟩ h =>
    ⟨journal_eq_ok.1 h ▸ ⟨enduring (.journal edit) held, anchors⟩, trivial⟩

/-- The growth of a file is entered at the directory above it. -/
theorem accountAbove (delta : Counts) (checked : Bool) :
    Preserves (Anchoring holds chain)
      (Work.accountAbove chain delta checked) := by
  rintro tx done tx' ⟨held, anchors⟩ h
  cases chain with
  | root =>
    simp only [Work.accountAbove, account, Chain.length, Outcome.get_bind,
      Nat.lt_irrefl, Nat.sub_self, and_false, if_false, Outcome.pure_eq_ok] at h
    exact ⟨h.2 ▸ ⟨held, anchors⟩, trivial⟩
  | child parent name id =>
    obtain ⟨_, rfl⟩ := accountAbove_eq_ok.1 h
    exact ⟨⟨enduring (.enter (anchors parent rfl) delta) held, anchors⟩,
      trivial⟩

theorem addBlockAt (block : Block) (targets : List String) :
    Preserves (Anchoring holds chain)
      (Work.addBlockAt client block targets chain) := by
  refine (preserves_leased _ _).andThen fun _ => ?_
  refine .andThen ?_ fun _ => (enduring.journalFile _).andThen
    fun _ => .pure trivial
  unfold Work.beginBlock
  refine (Ensures.read _).andThen fun inode => ?_
  split
  · exact .throw _
  · refine .required fun _ => ?_
    refine (enduring.accountAbove _ _).andThen fun _ => ?_
    exact (enduring.putFile _).andThen fun _ => .pure trivial

theorem dropBlock (block : Nat) :
    Preserves (Anchoring holds chain) (Work.dropBlock chain block) := by
  unfold Work.dropBlock
  refine (Ensures.read _).andThen fun inode => ?_
  split
  · exact .throw _
  · split
    · exact .throw _
    · refine .guarded fun _ => ?_
      exact (enduring.putFile _).andThen fun _ => enduring.accountAbove _ _

theorem abandonAt (block : Nat) :
    Preserves (Anchoring holds chain) (Work.abandonAt client block chain) := by
  unfold Work.abandonAt
  refine (preserves_leased _ _).andThen fun inode => ?_
  split
  · exact .pure trivial
  · refine .andThen ((Ensures.read _).andThen fun _ =>
      .optional (enduring.dropBlock _) (.pure trivial)) fun _ => ?_
    exact .ite (fun _ => (enduring.journalFile _).andThen
      fun _ => .pure trivial) fun _ => .pure trivial

theorem completeAt (lastLength : Nat) :
    Preserves (Anchoring holds chain)
      (Work.completeAt client lastLength chain) := by
  refine (preserves_leasedFile _ _).andThen fun found => ?_
  refine .guarded fun _ => ?_
  refine (enduring.putFile _).andThen fun _ => ?_
  exact .optional (enduring.accountAbove _ _) (enduring.journalFile _)

theorem appendAt (writer : Writer) :
    Preserves (Anchoring holds chain) (Work.appendAt writer chain) := by
  unfold Work.appendAt
  refine (Ensures.read _).andThen fun inode => ?_
  split
  · exact .throw _
  · split
    · exact .throw _
    · extract_lets reopened store
      have hstore : ∀ done, Preserves (Anchoring holds chain) (store done) :=
        fun _ => (enduring.putFile _).andThen fun _ => enduring.journalFile _
      split
      · exact (enduring.accountAbove _ _).andThen hstore
      · exact hstore ⟨⟩

theorem writeInlineAt (length : Nat) :
    Preserves (Anchoring holds chain)
      (Work.writeInlineAt client length chain) := by
  refine (preserves_leasedFile _ _).andThen fun found => ?_
  refine .required fun _ => ?_
  refine (enduring.accountAbove _ _).andThen fun _ => ?_
  exact (enduring.putFile _).andThen fun _ => enduring.journalFile _

theorem truncateAt (length : Int) :
    Preserves (Anchoring holds chain) (Work.truncateAt path length chain) := by
  unfold Work.truncateAt
  refine (Ensures.read _).andThen fun inode => ?_
  split
  · exact .throw _
  · split
    · exact .throw _
    · refine .guarded fun _ => ?_
      refine .guarded fun _ => ?_
      refine .ite (fun _ => .pure trivial) fun _ => ?_
      refine (enduring.putFile _).andThen fun _ => ?_
      refine (enduring.accountAbove _ _).andThen fun _ => ?_
      exact (enduring.journalFile _).andThen fun _ => .pure trivial

end Writing

section Adjusting

variable {path : String}

theorem changeLimits (edit : Edit) (liftsInodes : Bool)
    (change : Counts → Counts) :
    Preserves holds (Work.changeLimits path edit liftsInodes change) := by
  refine (Ensures.read _).andThen fun chain => ?_
  refine .guarded fun _ => ?_
  refine (Ensures.read _).andThen fun ids => ?_
  refine (Ensures.read _).andThen fun used => ?_
  refine (preserves_pendingFor _).andThen fun pending => ?_
  refine (Ensures.read _).andThen fun inode => ?_
  cases inode.asDirectory with
  | none => exact .throw _
  | some directory => exact (enduring.put _).andThen fun _ => enduring.journal _

theorem setPolicy (policy : StoragePolicy) :
    Preserves holds (Work.setPolicy path policy) := by
  refine preserves_atChain _ _ fun chain => ?_
  refine (Ensures.read _).andThen fun inode => ?_
  extract_lets finish
  have hfinish : ∀ done, Preserves (Anchoring holds chain) (finish done) :=
    fun _ => enduring.journalFile _
  cases inode.content with
  | directory directory => exact (enduring.putFile _).andThen hfinish
  | file file =>
    exact (enduring.accountAbove _ _).andThen
      fun _ => (enduring.putFile _).andThen hfinish
  | symlink => exact .andThen (.throw _) hfinish

theorem setReplication (replication : Nat) :
    Preserves holds (Work.setReplication path replication) := by
  refine preserves_atChain _ _ fun chain => ?_
  refine (Ensures.read _).andThen fun inode => ?_
  cases inode.asFile with
  | none => exact .throw _
  | some file =>
    refine (enduring.accountAbove _ _).andThen fun _ => ?_
    exact (enduring.putFile _).andThen fun _ => enduring.journalFile _

end Adjusting

section Settling

theorem absorbUpward (delta : Counts) (steps : Nat) (id : InodeId) :
    Preserves holds (Work.absorbUpward delta steps id) := by
  induction steps generalizing id with
  | zero => exact .throw _
  | succ steps ih =>
    unfold Work.absorbUpward
    refine (Ensures.read _).andThen fun inode => ?_
    extract_lets rest
    have hrest : ∀ done, Preserves holds (rest done) := by
      intro done
      cases hparent : inode.parent with
      | none => simp only [rest, hparent]; exact .pure trivial
      | some parent => simp only [rest, hparent]; exact ih parent
    cases inode.quota with
    | none => exact hrest ⟨⟩
    | some quota => exact (enduring.put _).andThen hrest

theorem consume (id : InodeId) : Preserves holds (Work.consume id) := by
  intro tx updates tx' held h
  simp only [Work.consume, Outcome.bind_eq_ok, Work.ensureLocked_eq_ok,
    Outcome.get_bind, Outcome.set_eq_ok, Outcome.pure_eq_ok] at h
  obtain ⟨_, _, ⟨_, rfl⟩, _, _, rfl, rfl, rfl⟩ := h
  exact ⟨enduring (.settle _) held, trivial⟩

theorem mergeAll (ids : List InodeId) :
    Preserves holds (Work.mergeAll ids) := by
  have hmerge : ∀ id, Preserves holds (Work.mergeAt id) := by
    intro id
    unfold Work.mergeAt
    refine (enduring.consume id).andThen fun updates => ?_
    extract_lets delta rest
    have hrest : ∀ done, Preserves holds (rest done) := fun _ => .pure trivial
    refine .ite (fun _ => hrest ⟨⟩) fun _ => ?_
    refine Ensures.getState.bind fun tx _ => ?_
    exact (enduring.absorbUpward delta _ id).andThen hrest
  induction ids with
  | nil => exact .pure trivial
  | cons id rest ih =>
    refine (hmerge id).andThen fun _ => ?_
    exact ih.andThen fun _ => .pure trivial

theorem recount (depth : Nat) (id : InodeId) :
    Preserves holds (Work.recount depth id) := by
  induction depth generalizing id with
  | zero => exact .throw _
  | succ depth ih =>
    unfold Work.recount
    refine (Ensures.read _).andThen fun inode => ?_
    refine (preserves_pendingFor _).andThen fun pending => ?_
    refine (Ensures.mapM fun child _ => ih child).bind fun parts _ => ?_
    extract_lets whole
    cases inode.quota with
    | none => exact .pure trivial
    | some quota => exact (enduring.put _).andThen fun _ => .pure trivial

theorem recountAll : Preserves holds Work.recountAll := by
  intro tx report tx' held h
  obtain ⟨whole, mid, hrecount, _, rfl⟩ := recountAll_eq_ok.1 h
  exact ⟨enduring .clear (enduring.recount _ _ tx whole mid held hrecount).1,
    trivial⟩

end Settling

end Transaction.Enduring

end QuotaTree
