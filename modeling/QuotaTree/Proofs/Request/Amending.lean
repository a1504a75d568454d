/-
Requests that amend one file.  What such a request does is decided by the inodes
on the way to the file: it is refused or amends the file in the same way
wherever these are the same, whatever is pending and whatever has become of
other files.
-/
import QuotaTree.Proofs.Request.Following
import QuotaTree.Proofs.Tree.Home
import QuotaTree.Proofs.Tree.Walk
import QuotaTree.Proofs.Work.Local

namespace QuotaTree

open Nodes Outcome

namespace Chain

variable {nodes after : Nodes} {chain : Chain} {view : View} {path : String}

/-- A chain leads through trees that agree on all its inodes. -/
theorem Leads.of_agree (leads : Leads nodes chain)
    (agree : ∀ x ∈ chain.ids, after x = nodes x) : Leads after chain := by
  induction leads with
  | root => exact .root
  | @child parent name id above entry ih =>
    have habove : ∀ x ∈ parent.ids, after x = nodes x :=
      fun x hx => agree x (List.mem_append_left _ hx)
    refine .child (ih habove) ?_
    rw [Nodes.entryAt, habove _ parent.last_mem_ids]
    exact entry

/-- The path of a file leads to it without a symlink on the way. -/
theorem Leads.follows {ns : Namespace} {file : File}
    (leads : Leads ns.table.tree chain) (sound : ns.Sound)
    (live : ns.table.tree.file chain.last = some file) (hops : Nat) :
    Follows ns.table.view hops chain.path [] (chain, []) := by
  have wf : ns.table.tree.WellFormed := sound.books.wellFormed
  have hnames : Path.components chain.path = .ok chain.names :=
    Path.components_ofNames (sound.books.proper_names leads)
  obtain ⟨found, hdescend, hlast⟩ := @descend_of_walk .root _ _ _ chain.path
    (leads.walk : ns.table.tree.walk _ Chain.root.last = _)
  obtain ⟨leadsFound, _⟩ :=
    Leads.descend (InodeTable.view_reads wf) .root hdescend
  obtain rfl := leadsFound.unique wf leads hlast
  obtain ⟨inode, hlive, hfile⟩ := Option.bind_eq_some_iff.1 live
  refine .ends hnames hdescend fun _ => ?_
  refine ⟨inode, (InodeTable.view_opens _).get hlive, ?_⟩
  intro target hcontent
  rw [Inode.asFile, hcontent] at hfile
  cases hfile

/-- Where no symlink stands on the way, it does not matter whether one would be
followed. -/
theorem Follows.resolveExisting {rest : List Name}
    (h : Follows view maxHops path [] (chain, rest)) (following : Bool) :
    Chain.resolveExisting view path following = .ok (chain, rest) := by
  cases following with
  | true => exact follow_eq_ok.2 ⟨[], h⟩
  | false =>
    cases h with
    | ends components descends =>
      exact resolveExisting_eq_ok.2 ⟨_, components, descends⟩

end Chain

namespace LockDemand

/-- What is locked of a path without symlinks: its inodes for reading, once more
where a symlink at its end would be followed, and its end for writing. -/
def along (following : Bool) (chain : Chain) : LockSet :=
  LockSet.ofList ((if following then PathLock.reading chain else []) ++
    PathLock.reading chain ++
    [(chain.last, .write)])

theorem holds_along {following : Bool} {chain : Chain} {id : InodeId} :
    (along following chain).holds id .read = true ↔ id ∈ chain.ids := by
  have hreading : ∀ item ∈ PathLock.reading chain, item.1 ∈ chain.ids := by
    intro item h
    obtain ⟨x, hx, rfl⟩ := List.mem_map.1 h
    exact hx
  rw [along, LockSet.holds_ofList]
  constructor
  · rintro ⟨item, hmem, rfl, _⟩
    rcases List.mem_append.1 hmem with halong | hlast
    · rcases List.mem_append.1 halong with hlink | hchain
      · split at hlink
        · exact hreading item hlink
        · cases hlink
      · exact hreading item hchain
    · rw [List.mem_singleton.1 hlast]
      exact chain.last_mem_ids
  · intro h
    have hmem : (id, LockMode.read) ∈ PathLock.reading chain :=
      List.mem_map_of_mem h
    exact ⟨_, List.mem_append_left _ (List.mem_append_right _ hmem), rfl, rfl⟩

theorem plan_of_follows {view : View} {path : String} {chain : Chain}
    (h : Chain.Follows view Chain.maxHops path [] (chain, []))
    (following : Bool) :
    (ofPath { path, kind := .write, following }).plan view =
      .ok (along following chain) := by
  refine plan_ofPath_eq_ok.2 ⟨_, ?_, rfl⟩
  simp only [PathLock.demands, h.resolveExisting, bind, Except.bind, pure,
    Except.pure, PathLock.below, PathLock.above, LockKind.mode, List.map_nil,
    List.append_nil]
  cases following <;> rfl

end LockDemand

/-- What a request changes at one inode, and what it enters in the ledger and in
the log. -/
structure Amendment (id : InodeId) where
  inode : Option Inode
  own : ∀ {stored}, inode = some stored → stored.id = id
  updates : List (InodeId × Counts)
  edits : List Edit
  dropped : List Block := []

def Transaction.Confines.amendment {id : InodeId} {before tx : Transaction}
    (confines : before.Confines id tx) (blank : before.writes = ∅) :
    Amendment id where
  inode := tx.writes[id]?.join
  own {stored} h := by
    rcases confines.written id with hsame | ⟨_, inode, hid, hwritten⟩
    · rw [hsame, blank] at h
      cases h
    · rw [hwritten] at h
      cases h
      exact hid
  updates := tx.updates
  edits := tx.edits

namespace Namespace

variable {ns ns' : Namespace} {id other : InodeId} {operation : Operation}
  {locks : LockSet} {tx : Transaction} {chain : Chain} {α β : Type}

def amended (ns : Namespace) (amendment : Amendment id) : Namespace :=
  { ns with
    table := amendment.inode.elim ns.table ns.table.insert
    ledger := ns.ledger.submitAll amendment.updates
    blocks := ns.blocks.removeAll amendment.dropped
    edits := ns.edits ++ if ns.imageLoaded then amendment.edits else [] }

theorem find?_amended (amendment : Amendment id) (x : InodeId) :
    (ns.amended amendment).table.find? x =
      if x = id then amendment.inode.or (ns.table.find? x)
          else ns.table.find? x := by
  obtain ⟨inode, own, updates, edits, dropped⟩ := amendment
  cases inode with
  | none => exact (ite_self _).symm
  | some stored =>
    change (ns.table.insert stored).find? x = _
    rw [InodeTable.find?_insert, own rfl]
    simp only [eq_comm]
    rfl

theorem next_amended (amendment : Amendment id) :
    (ns.amended amendment).table.next = ns.table.next := by
  obtain ⟨inode, own, updates, edits, dropped⟩ := amendment
  cases inode <;> rfl

theorem keyed_confined (confines : (ns.opened operation locks).Confines id tx) :
    tx.Keyed := by
  constructor
  · intro x inode h
    rcases confines.written x with hsame | ⟨rfl, stored, hid, hwritten⟩
    · exact keyed_opened.own (hsame.symm.trans h)
    · rw [hwritten] at h
      cases h
      exact hid
  · intro h
    rcases confines.written .root with hsame | ⟨_, stored, _, hwritten⟩
    · exact keyed_opened.root (hsame.symm.trans h)
    · rw [hwritten] at h
      cases h

theorem tableAfter_confined
    (confines : (ns.opened operation locks).Confines id tx) :
    tx.tableAfter = (ns.amended (confines.amendment rfl)).table := by
  have hbase : tx.base.table = ns.table := by rw [confines.base_eq]; rfl
  refine InodeTable.ext_find? (fun x => ?_) ?_
  · rw [Transaction.find?_tableAfter (keyed_confined confines), find?_amended]
    change tx.find? x = if x = id then
      (tx.writes[id]?.join).or (ns.table.find? x) else ns.table.find? x
    rw [Transaction.find?, hbase]
    rcases confines.written x with hsame | ⟨rfl, stored, hid, hwritten⟩
    · have hnone : tx.writes[x]? = none :=
        hsame.trans Std.ExtTreeMap.getElem?_empty
      simp only [hnone]
      split
      next heq =>
        rw [← heq, hnone]
        rfl
      next => rfl
    · rw [if_pos rfl, hwritten]
      rfl
  · rw [Transaction.next_tableAfter, next_amended, hbase]

/-- What is stored by work that is confined to an inode. -/
theorem commit_confined (free : ns.locks = ∅)
    (confines : (ns.opened operation locks).Confines id tx) :
    tx.commit = ns.amended (confines.amendment rfl) := by
  have htable := tableAfter_confined confines
  have hrelease := @releaseAll_opened ns operation locks free
  have hledger : tx.ledgerAfter = ns.ledger.submitAll tx.updates := by
    rw [confines.rest]
    rfl
  have hlocks :
      (ns.opened operation locks).base.locks.releaseAll tx.locks =
        ns.locks := by
    rw [confines.rest, free]
    exact hrelease
  simp only [Transaction.commit, Transaction.unlock, journal_eq, htable,
    hledger, confines.base_eq, hlocks]
  rfl

theorem rollback_confined (free : ns.locks = ∅)
    (confines : (ns.opened operation locks).Confines id tx) :
    tx.rollback = ns := by
  rw [← @rollback_opened ns operation locks free, confines.rest]
  rfl

/-- A namespace that differs from another one in what has become of an inode, in
what is pending and in the log at most. -/
structure Beyond (other : InodeId) (ns ns' : Namespace) : Prop where
  sound : ns'.Sound
  config : ns'.config = ns.config
  loaded : ns'.imageLoaded = ns.imageLoaded
  size : ns'.table.size = ns.table.size
  nodes : ∀ {x}, x ≠ other → ns'.table.tree x = ns.table.tree x

theorem Beyond.refl (sound : ns.Sound) : ns.Beyond other ns :=
  ⟨sound, rfl, rfl, rfl, fun _ => rfl⟩

/-- What is answered, and what is left, when a request has been decided. -/
def decided (ns : Namespace) :
    Except Error (α × Amendment id) → EStateM.Result Error Namespace α
  | .ok (a, amendment) => .ok a (ns.amended amendment)
  | .error error => .error error ns

/-- A request that amends an inode or is refused, in the same way whatever has
become of another inode. -/
def Amending (ns : Namespace) (other id : InodeId) (request : Request α) :
    Prop :=
  ∃ verdict : Except Error (α × Amendment id),
    ∀ {ns'}, ns.Beyond other ns' → request ns' = ns'.decided verdict

namespace Amending

theorem map {request : Request α} (amending : ns.Amending other id request)
    (f : α → β) : ns.Amending other id (f <$> request) := by
  obtain ⟨verdict, hverdict⟩ := amending
  refine ⟨verdict.map fun found => (f found.1, found.2), fun {ns'} beyond => ?_⟩
  change EStateM.map f request ns' = _
  rw [EStateM.map, hverdict beyond]
  cases verdict <;> rfl

/-- A request that is refused on a condition. -/
theorem guarded {p : Prop} [Decidable p] {error : Error}
    {rest : PUnit → Request α} (accepted : ns.Amending other id (rest ⟨⟩)) :
    ns.Amending other id (if p then MonadExcept.throw error >>= rest
      else rest ⟨⟩) := by
  split
  next => exact ⟨.error error, fun _ => rfl⟩
  next => exact accepted

/-- The settings may be looked at. -/
theorem get_bind {next : Namespace → Request α}
    (amending : ns.Amending other id (next ns))
    (same : ∀ {ns' : Namespace}, ns'.config = ns.config → next ns' = next ns) :
    ns.Amending other id (MonadState.get >>= next) := by
  obtain ⟨verdict, hverdict⟩ := amending
  refine ⟨verdict, fun {ns'} beyond => ?_⟩
  rw [Outcome.get_bind, same beyond.config]
  exact hverdict beyond

/-- The blocks that were cut off are forgotten. -/
theorem released {request : Request (List Block)}
    (amending : ns.Amending other id request) (f : List Block → α) :
    ns.Amending other id (request >>= fun dropped =>
      releaseBlocks dropped >>= fun _ => pure (f dropped)) := by
  obtain ⟨verdict, hverdict⟩ := amending
  refine ⟨verdict.map fun found =>
    (f found.1, { found.2 with dropped := found.2.dropped ++ found.1 }),
    fun {ns'} beyond => ?_⟩
  cases verdict with
  | error error => exact Outcome.bind_of_error (hverdict beyond)
  | ok found =>
    rw [Outcome.bind_of_ok (hverdict beyond)]
    have hblocks : (ns'.blocks.removeAll found.2.dropped).removeAll found.1 =
        ns'.blocks.removeAll (found.2.dropped ++ found.1) :=
      List.foldl_append.symm
    refine congrArg (EStateM.Result.ok (f found.1)) ?_
    exact congrArg (fun blocks => { ns'.amended found.2 with blocks }) hblocks

end Amending

/-- A file with the way to it, on which another inode does not lie. -/
structure Sited (ns : Namespace) (other : InodeId) (chain : Chain) : Prop where
  leads : Chain.Leads ns.table.tree chain
  file : (ns.table.tree.file chain.last).isSome
  off : other ∉ chain.ids

namespace Sited

theorem beyond (sited : ns.Sited other chain) (beyond : ns.Beyond other ns') :
    ns'.Sited other chain where
  leads :=
    sited.leads.of_agree fun x hx => beyond.nodes fun h => sited.off (h ▸ hx)
  file := by
    rw [Nodes.file, beyond.nodes fun h => sited.off (h ▸ chain.last_mem_ids)]
    exact sited.file
  off := sited.off

theorem follows (sited : ns.Sited other chain) (sound : ns.Sound) :
    Chain.Follows ns.table.view Chain.maxHops chain.path [] (chain, []) := by
  obtain ⟨file, hfile⟩ := Option.isSome_iff_exists.1 sited.file
  exact sited.leads.follows sound hfile _

/-- Under the locks the path leads to the file. -/
theorem resolve_opened (sited : ns.Sited other chain) (sound : ns.Sound)
    (following : Bool) :
    Chain.resolve (ns.opened operation (LockDemand.along following chain)).view
      chain.path following = .ok chain := by
  have hshown (x : InodeId) (hx : x ∈ chain.ids) := @shows_opened ns operation
    (LockDemand.along following chain) x (LockDemand.holds_along.2 hx)
  have hfollows := (sited.follows sound).of_shows hshown
    fun link h => absurd h List.not_mem_nil
  exact Chain.resolve_of_ends (hfollows.resolveExisting following)

/-- Along the path of the file there is nothing that a request could fail for
before its work. -/
theorem transact_eq {work : String → Work α} (sited : ns.Sited other chain)
    (sound : ns.Sound) (following : Bool)
    (keyed : ∀ {a tx}, work chain.path (ns.opened operation
      (LockDemand.along following chain)) = .ok a tx → tx.Keyed) :
    (resolvePath chain.path >>= fun path => Namespace.transact operation
      (.ofPath { path, kind := .write, following }) (work path)) ns =
      match work chain.path
          (ns.opened operation (LockDemand.along following chain)) with
      | .ok a tx => .ok a tx.commit
      | .error error tx => .error error tx.rollback := by
  have hpath : resolvePath chain.path ns = .ok chain.path ns :=
    resolvePath_eq_ok.2 ⟨Path.resolveReserved_of_plain
      (sited.leads.isReserved_path sound.books), rfl⟩
  have hplan := LockDemand.plan_of_follows (sited.follows sound) following
  exact (Outcome.bind_of_ok hpath).trans
    (transact_of_plan sound.locks hplan keyed)

/-- The locks do not show the other inode. -/
theorem shares (sited : ns.Sited other chain) (beyond : ns.Beyond other ns')
    (following : Bool) :
    (ns.opened operation (LockDemand.along following chain)).Shares
      (ns'.opened operation (LockDemand.along following chain)).base where
  config := beyond.config
  loaded := beyond.loaded
  size := beyond.size
  nodes {x} allows := by
    have hmem : x ∈ chain.ids := by
      rcases allows with hholds | hcreated
      · exact LockDemand.holds_along.1 hholds
      · cases hcreated
    exact beyond.nodes fun h => sited.off (h ▸ hmem)

end Sited

theorem filed_opened (sound : ns.Sound) :
    (ns.opened operation locks).Filed := by
  intro x inode live
  rw [tree_opened] at live
  exact sound.books.wellFormed.ids live

/-- A request that locks the way to a file, and whose work is confined to it,
amends the file. -/
theorem Amending.transact {following : Bool} {work : String → Work α}
    (sound : ns.Sound) (sited : ns.Sited other chain)
    (confined : ∀ path, Work.LocalTo path following (work path)) :
    ns.Amending other chain.last (resolvePath chain.path >>= fun path =>
      Namespace.transact operation (.ofPath { path, kind := .write, following })
        (work path)) := by
  have hwork {ns' : Namespace} (beyond : ns.Beyond other ns') :=
    confined chain.path (ns'.opened operation
      (LockDemand.along following chain)) chain (filed_opened beyond.sound)
      ((sited.beyond beyond).resolve_opened beyond.sound following)
  have honto {ns' : Namespace} (beyond : ns.Beyond other ns') :
      work chain.path
        (ns'.opened operation (LockDemand.along following chain)) =
        Work.resultOnto (ns'.opened operation
          (LockDemand.along following chain)).base (work chain.path
            (ns.opened operation (LockDemand.along following chain))) :=
    (hwork (.refl sound)).2 _ (sited.shares beyond following)
  have hconfines := (hwork (.refl sound)).1
  have hkeyed {ns' : Namespace} (beyond : ns.Beyond other ns') {a : α}
      {tx : Transaction}
      (hok : work chain.path
        (ns'.opened operation (LockDemand.along following chain)) = .ok a tx) :
      tx.Keyed := by
    have hconfines' := (hwork beyond).1
    rw [hok] at hconfines'
    exact keyed_confined hconfines'
  cases h :
      work chain.path (ns.opened operation (LockDemand.along following chain))
        with
  | ok a tx =>
    rw [h] at hconfines
    refine ⟨.ok (a, hconfines.amendment rfl), fun {ns'} beyond => ?_⟩
    have hconfines' := (hwork beyond).1
    rw [honto beyond, h] at hconfines'
    rw [(sited.beyond beyond).transact_eq beyond.sound following
      (hkeyed beyond), honto beyond, h]
    exact congrArg (EStateM.Result.ok a)
      (commit_confined beyond.sound.locks hconfines')
  | error error tx =>
    refine ⟨.error error, fun {ns'} beyond => ?_⟩
    have hconfines' := (hwork beyond).1
    rw [honto beyond, h] at hconfines'
    rw [(sited.beyond beyond).transact_eq beyond.sound following
      (hkeyed beyond), honto beyond, h]
    exact congrArg (EStateM.Result.error error)
      (rollback_confined beyond.sound.locks hconfines')

end Namespace

end QuotaTree
