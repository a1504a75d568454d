/-
Requests on different files.  Between two merges they may be made in either
order: they are answered alike and leave the same tree and the same blocks, and
what is pending and what is logged differs in its order alone.
-/
import QuotaTree.Proofs.Convergence
import QuotaTree.Proofs.Request.Amending
import QuotaTree.Proofs.Usage.Entries

namespace QuotaTree

open Outcome

namespace Ledger

variable {ledger : Ledger} {first second : List (InodeId × Counts)}

/-- What is pending, without the numbers of the updates. -/
def entries (ledger : Ledger) : List (InodeId × Counts) :=
  ledger.toList.map fun update => (update.inode, update.delta)

theorem Sound.perm_submit (sound : ledger.Sound) (inode : InodeId)
    (delta : Counts) :
    (ledger.submit inode delta).entries.Perm
      ((inode, delta) :: ledger.entries) := by
  have hnew : ⟨ledger.nextId, inode, delta⟩ ∉ ledger.toList := fun h =>
    Nat.lt_irrefl _ (sound.numbered (sound.mem_toList.1 h)).2
  have hlisted : (ledger.submit inode delta).toList.Perm
      (⟨ledger.nextId, inode, delta⟩ :: ledger.toList) := by
    rw [List.perm_ext_iff_of_nodup (sound.submit inode delta).nodup_toList
      (List.nodup_cons.2 ⟨hnew, sound.nodup_toList⟩)]
    intro update
    rw [sound.mem_submit, List.mem_cons, or_comm]
  exact hlisted.map _

/-- Entering a list adds those of its entries that change anything. -/
theorem Sound.perm_submitAll (sound : ledger.Sound)
    (list : List (InodeId × Counts)) :
    (ledger.submitAll list).entries.Perm
      (list.filter (fun entry => !entry.2.isZero) ++ ledger.entries) ∧
      (ledger.submitAll list).nextId =
        (list.filter (fun entry => !entry.2.isZero)).length +
        ledger.nextId := by
  induction list generalizing ledger with
  | nil => exact ⟨.refl _, (Nat.zero_add _).symm⟩
  | cons entry rest ih =>
    rw [Ledger.submitAll, List.foldl_cons]
    by_cases hzero : entry.2.isZero = true
    · simp only [List.filter_cons, hzero, Bool.not_true, Bool.false_eq_true,
        if_true, if_false]
      exact ih sound
    · obtain ⟨hperm, hnext⟩ := ih (sound.submit entry.1 entry.2)
      simp only [List.filter_cons, hzero, Bool.not_false, Bool.false_eq_true,
        if_true, if_false]
      constructor
      · exact hperm.trans
          (((sound.perm_submit _ _).append_left _).trans List.perm_middle)
      · rw [List.length_cons, Nat.succ_add_eq_add_succ]
        exact hnext

/-- In which order two lists are entered makes no difference but to the
numbers. -/
theorem Sound.perm_submitAll_comm (sound : ledger.Sound) :
    ((ledger.submitAll first).submitAll second).entries.Perm
        ((ledger.submitAll second).submitAll first).entries ∧
      ((ledger.submitAll first).submitAll second).nextId =
        ((ledger.submitAll second).submitAll first).nextId := by
  have happend (early late : List (InodeId × Counts)) :
      (ledger.submitAll early).submitAll late =
        ledger.submitAll (early ++ late) := List.foldl_append.symm
  have hperm :=
    (@List.perm_append_comm _ first second).filter fun entry => !entry.2.isZero
  obtain ⟨hentries, hnext⟩ := sound.perm_submitAll (first ++ second)
  obtain ⟨hentries', hnext'⟩ := sound.perm_submitAll (second ++ first)
  rw [happend, happend, hnext, hnext', hperm.length_eq]
  exact ⟨hentries.trans ((hperm.append_right _).trans hentries'.symm), rfl⟩

end Ledger

/-- The calls that change the file at a path and nothing else. -/
inductive Call.Amends (path : String) : Call → Prop
  | complete (client : String) (lastLength : Nat) :
    Amends path (.complete path client lastLength)
  | append (writer : Writer) : Amends path (.append path writer)
  | writeInline (client : String) (length : Nat) :
    Amends path (.writeInline path client length)
  | abandonBlock (client : String) (block : Nat) :
    Amends path (.abandonBlock path client block)
  | truncate (length : Int) : Amends path (.truncate path length)
  | setReplication (replication : Nat) :
    Amends path (.setReplication path replication)
  | setStoragePolicy (policy : StoragePolicy) :
    Amends path (.setStoragePolicy path policy)

namespace Namespace

variable {ns ns' : Namespace} {id other : InodeId} {α β : Type}

/-- Two namespaces that are the same up to the order of what is pending and of
the log. -/
structure Reordered (ns ns' : Namespace) : Prop where
  rest : ns' = { ns with ledger := ns'.ledger, edits := ns'.edits }
  pending : ns'.ledger.entries.Perm ns.ledger.entries
  nextId : ns'.ledger.nextId = ns.ledger.nextId
  edits : ns'.edits.Perm ns.edits

theorem Reordered.refl (ns : Namespace) : ns.Reordered ns :=
  ⟨rfl, .refl _, rfl, .refl _⟩

/-- Two inodes may be amended in either order. -/
theorem reordered_amended (sound : ns.ledger.Sound) (apart : id ≠ other)
    (first : Amendment id) (second : Amendment other) :
    ((ns.amended first).amended second).Reordered
      ((ns.amended second).amended first) := by
  have htable : ((ns.amended second).amended first).table =
      ((ns.amended first).amended second).table := by
    refine InodeTable.ext_find? (fun x => ?_) ?_
    · simp only [find?_amended]
      by_cases hx : x = id
      · have hy : x ≠ other := fun h => apart (hx.symm.trans h)
        simp only [if_pos hx, if_neg hy]
      · simp only [if_neg hx]
    · simp only [next_amended]
  have hblocks : ((ns.amended second).amended first).blocks =
      ((ns.amended first).amended second).blocks := by
    refine Std.ExtTreeMap.ext_getElem? fun number => ?_
    change ((ns.blocks.removeAll second.dropped).removeAll
      first.dropped)[number]? =
      ((ns.blocks.removeAll first.dropped).removeAll second.dropped)[number]?
    simp only [BlockMap.getElem?_removeAll]
    split <;> simp
  obtain ⟨hpending, hnext⟩ :=
    @Ledger.Sound.perm_submitAll_comm _ second.updates first.updates sound
  have hedits (early late : List Edit) :
      (ns.edits ++ early ++ late).Perm (ns.edits ++ late ++ early) := by
    rw [List.append_assoc, List.append_assoc]
    exact List.perm_append_comm.append_left _
  refine ⟨?_, hpending, hnext, hedits _ _⟩
  calc (ns.amended second).amended first
      = { ns with
          table := ((ns.amended second).amended first).table
          ledger := ((ns.amended second).amended first).ledger
          blocks := ((ns.amended second).amended first).blocks
          edits := ((ns.amended second).amended first).edits } := rfl
    _ = { (ns.amended first).amended second with
          ledger := ((ns.amended second).amended first).ledger
          edits := ((ns.amended second).amended first).edits } := by
      rw [htable, hblocks]
      rfl

/-- Two requests are answered alike whichever is made first, and leave the same
up to the order of what is pending and of the log. -/
structure Interchange (ns : Namespace) (first : Request α)
    (second : Request β) : Prop where
  early : answer (first (state (second ns))) = answer (first ns)
  late : answer (second (state (first ns))) = answer (second ns)
  left :
      (state (second (state (first ns)))).Reordered
        (state (first (state (second ns))))

namespace Amending

variable {chain : Chain} {operation : Operation}

theorem onFile {work : Chain → Work α} (sound : ns.Sound)
    (sited : ns.Sited other chain)
    (confined : ∀ chain, Work.Local chain.last (work chain)) :
    ns.Amending other chain.last (Namespace.onFile operation chain.path work) :=
  .transact sound sited fun _ => .resolve_bind confined

/-- Every call on the path of a file amends the file. -/
theorem call {call : Call} (sound : ns.Sound) (sited : ns.Sited other chain)
    (amends : call.Amends chain.path) :
    ns.Amending other chain.last call.ask := by
  cases amends with
  | complete client lastLength =>
    exact .map (onFile sound sited fun _ => .completeAt _ _) _
  | append writer => exact .map (onFile sound sited fun _ => .appendAt _) _
  | writeInline client length =>
    refine .map (.get_bind ?_ ?_) _
    · exact .guarded (onFile sound sited fun _ => .writeInlineAt _ _)
    · intro ns' same
      rw [same]
  | abandonBlock client block =>
    exact .map (released (onFile sound sited fun _ => .abandonAt _ _) _) _
  | truncate length =>
    refine .map ?_ _
    have hcut :
        ns.Amending other chain.last (resolvePath chain.path >>= fun path =>
        Namespace.transact .truncate
          (.ofPath { path, kind := .write, following := true }) (Work.read
            (Chain.resolve · path true) >>= Work.truncateAt path length)) :=
      .transact sound sited fun _ => .resolve_bind fun _ => .truncateAt _ _
    have hreleased := hcut.released fun _ => ()
    rw [bind_assoc] at hreleased
    exact hreleased
  | setReplication replication =>
    refine .map ?_ _
    unfold Namespace.setReplication
    extract_lets rest
    exact .guarded (.transact sound sited fun _ => .setReplication _)
  | setStoragePolicy policy =>
    exact .map (.transact sound sited fun _ => .setPolicy _) _

end Amending

theorem size_amended (amendment : Amendment id)
    (live : (ns.table.tree id).isSome) :
    (ns.amended amendment).table.size = ns.table.size := by
  cases hinode : amendment.inode with
  | none =>
    rw [Namespace.amended, hinode]
    rfl
  | some stored =>
    have hcontains : ns.table.nodes.contains stored.id = true := by
      rw [amendment.own hinode, Std.ExtTreeMap.contains_eq_isSome_getElem?]
      exact live
    rw [Namespace.amended, hinode]
    exact Std.ExtTreeMap.size_insert.trans (if_pos hcontains)

/-- What has been decided leaves a namespace that differs in the inode alone. -/
theorem beyond_decided {verdict : Except Error (α × Amendment other)}
    (live : (ns.table.tree other).isSome)
    (sound : (state (ns.decided verdict)).Sound) :
    ns.Beyond other (state (ns.decided verdict)) := by
  cases verdict with
  | error error => exact .refl sound
  | ok found =>
    obtain ⟨a, amendment⟩ := found
    exact ⟨sound, rfl, rfl, size_amended amendment live,
      fun {x} hx => (find?_amended amendment x).trans (if_neg hx)⟩

/-- Requests that amend two files may be made in either order. -/
theorem Interchange.of_amending {first : Request α} {second : Request β}
    (sound : ns.Sound) (apart : id ≠ other) (early : ns.Amending other id first)
    (late : ns.Amending id other second)
    (beyond : ns.Beyond id (state (first ns)))
    (beyond' : ns.Beyond other (state (second ns))) :
    ns.Interchange first second := by
  obtain ⟨verdict, hverdict⟩ := early
  obtain ⟨verdict', hverdict'⟩ := late
  have answered {γ : Type} {x : InodeId}
      (verdict : Except Error (γ × Amendment x)) (ns ns' : Namespace) :
      answer (ns.decided verdict) = answer (ns'.decided verdict) := by
    cases verdict <;> rfl
  have hfirst := hverdict (.refl sound)
  have hsecond := hverdict' (.refl sound)
  constructor
  case early =>
    rw [hverdict beyond', hfirst]
    exact answered _ _ _
  case late =>
    rw [hverdict' beyond, hsecond]
    exact answered _ _ _
  case left =>
    rw [hverdict' beyond, hverdict beyond', hfirst, hsecond]
    cases verdict with
    | error error => exact .refl _
    | ok found =>
      cases verdict' with
      | error error => exact .refl _
      | ok found' => exact reordered_amended sound.ledger apart found.2 found'.2

theorem Amending.beyond {call : Call} (amending : ns.Amending other id call.ask)
    (sound : ns.Sound) (live : (ns.table.tree id).isSome) :
    ns.Beyond id (state (call.ask ns)) := by
  obtain ⟨verdict, hverdict⟩ := amending
  have hsound : (state (call.ask ns)).Sound := by
    rw [state_ask]
    exact (stepping_call call).sustaining ns sound
  have hdecided := hverdict (.refl sound)
  rw [hdecided] at hsound ⊢
  exact beyond_decided live hsound

/-- A file that is there, by its full path, and another one that does not lie on
the way to it. -/
theorem exists_sited {path : String} (sound : ns.Sound)
    (file : (ns.table.tree.file id).isSome)
    (home : ns.table.view.fullPath id = .ok path)
    (file' : (ns.table.tree.file other).isSome) (apart : id ≠ other) :
    ∃ chain, ns.Sited other chain ∧ chain.last = id ∧ chain.path = path := by
  have wf : ns.table.tree.WellFormed := sound.books.wellFormed
  obtain ⟨found, hfile⟩ := Option.isSome_iff_exists.1 file
  obtain ⟨inode, live, _⟩ := Option.bind_eq_some_iff.1 hfile
  obtain ⟨chain, leads, rfl⟩ := Chain.exists_leads wf live
  have hpath :=
    Except.ok.inj ((InodeTable.fullPath_of_leads wf leads).symm.trans home)
  refine ⟨chain, ⟨leads, file, fun hmem => ?_⟩, rfl, hpath⟩
  -- everything above the file is a directory
  obtain ⟨holder, hholder, hdirectory⟩ :=
    leads.isDirectory_of_mem wf hmem apart.symm
  rw [Nodes.file_of_live hholder, Inode.asFile_of_directory hdirectory] at file'
  cases file'

/-- In every namespace that can come about, calls on two files may be made in
either order. -/
theorem interchange_after (config : Config) (events : List Event)
    {path path' : String} {call call' : Call} (apart : id ≠ other)
    (file :
      (((fresh config).after (events.map Event.run)).table.tree.file id).isSome)
    (file' : (((fresh config).after (events.map Event.run)).table.tree.file
      other).isSome)
    (home : ((fresh config).after (events.map Event.run)).table.view.fullPath
      id = .ok path)
    (home' : ((fresh config).after (events.map Event.run)).table.view.fullPath
      other = .ok path')
    (amends : call.Amends path) (amends' : call'.Amends path') :
    ((fresh config).after (events.map Event.run)).Interchange call.ask
      call'.ask := by
  have sound := (sound_fresh config).after events
  generalize (fresh config).after (events.map Event.run) = ns at *
  obtain ⟨chain, sited, rfl, rfl⟩ := exists_sited sound file home file' apart
  obtain ⟨chain', sited', rfl, rfl⟩ :=
    exists_sited sound file' home' file apart.symm
  have early := Amending.call sound sited amends
  have late := Amending.call sound sited' amends'
  have live {x : InodeId} (file : (ns.table.tree.file x).isSome) :
      (ns.table.tree x).isSome := by
    obtain ⟨found, hfile⟩ := Option.isSome_iff_exists.1 file
    obtain ⟨inode, live, _⟩ := Option.bind_eq_some_iff.1 hfile
    exact live ▸ rfl
  exact .of_amending sound apart early late (early.beyond sound (live file))
    (late.beyond sound (live file'))

/-- Two files below one quota, each with a block that is being written. -/
def neighbourRun : List Event :=
  [.call (.mkdirs "/d" {}), .call (.setQuota "/d" Limit.keep 1100),
    .call (.create "/d/f" { writer := ⟨"c", ""⟩, blockSize := some 100 }),
    .call (.create "/d/g" { writer := ⟨"c", ""⟩, blockSize := some 100 }),
    .call (.addBlock "/d/f" "c" []), .call (.addBlock "/d/g" "c" []),
    .call .mergeUpdates]

/-- Closing one file frees nothing for the other one before it is merged, so the
other one is refused in either order. -/
theorem interchange_after_neighbourRun :
    let ns := (fresh {}).after (neighbourRun.map Event.run)
    let closing := Call.complete "/d/f" "c" 40
    let growing := Call.setReplication "/d/g" 9
    (answer (closing.ask ns)).isOk = true ∧
    (answer (growing.ask ns)).isOk = false ∧
      (state (closing.ask (state (growing.ask ns)))).ledger.entries.length = 1 ∧
      ns.Interchange closing.ask growing.ask :=
  ⟨by decide +kernel, by decide +kernel, by decide +kernel,
    @interchange_after ⟨3⟩ ⟨4⟩ {} neighbourRun "/d/f" "/d/g" _ _ (by decide)
      (by decide +kernel)
      (by decide +kernel) (by decide +kernel) (by decide +kernel)
        (.complete _ _) (.setReplication _)⟩

end Namespace

end QuotaTree
