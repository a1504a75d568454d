/-
Truncating keeps a beginning of a file.  Nothing but the file itself, its blocks
in the block map and what is pending is changed; truncating again leaves what
truncating to the smaller length at once leaves, and what cannot be truncated is
left alone.
-/
import QuotaTree.Proofs.Files.Cuts
import QuotaTree.Proofs.FullPaths
import QuotaTree.Proofs.Interchange
import QuotaTree.Proofs.Request.Refiling
import QuotaTree.Proofs.Symlinks

namespace QuotaTree

open Nodes

/-- A change of usage that is entered if quotas are kept and there is one. -/
theorem Ledger.Sound.pendingAt_submitAll_charge {ledger : Ledger}
    (sound : ledger.Sound) (keeps : Bool) (id : InodeId) (delta : Counts) :
    (ledger.submitAll (if keeps ∧ delta.isZero = false then [(id, delta)]
      else [])).pendingAt = Books.charge ledger.pendingAt keeps id delta := by
  funext x
  rw [(sound.submitAll _).2 x]
  refine congrArg (ledger.pendingAt x + ·) ?_
  by_cases hzero : delta = 0
  · have hskipped : ¬ (keeps = true ∧ delta.isZero = false) := by
      simp [(Counts.isZero_iff delta).2 hzero]
    rw [if_neg hskipped, hzero, ite_self]
    rfl
  · have hentered : delta.isZero = false :=
      Bool.eq_false_iff.2 fun h => hzero ((Counts.isZero_iff delta).1 h)
    by_cases hkeeps : keeps = true <;> by_cases hx : id = x <;>
      simp [hkeeps, hentered, hx, @eq_comm _ x]

namespace Namespace

variable {ns ns' : Namespace} {path : String} {chain : Chain} {id : InodeId}
  {inode : Inode} {file : File} {length : Nat}

/-- A closed file is shortened by one amendment of its inode; at its whole
length nothing is done. -/
def Shortens (ns : Namespace) (length : Nat) (chain : Chain) (inode : Inode)
    (result : EStateM.Result Error Namespace Unit) : Prop :=
  ∀ file, inode.asFile = some file → file.writer = none →
    (length = file.size → result = .ok () ns) ∧
    (length < file.size → ∃ parent, ∃ amendment : Amendment chain.last,
      inode.parent = some parent ∧
      amendment.inode = some (inode.withFile (file.cut length)) ∧
      amendment.updates =
        (if ns.keepsQuota ∧ ((file.cut length).spaceSince file).isZero = false
        then [(parent, (file.cut length).spaceSince file)] else []) ∧
      amendment.dropped = (file.lost length).map BlockInfo.block ∧
      result = .ok () (ns.amended amendment))

theorem truncate_eq_cut (shorter : length ≠ file.size) :
    file.truncate length =
      (file.cut length, (file.lost length).map BlockInfo.block) := by
  refine Prod.ext (if_neg shorter).symm ?_
  unfold File.truncate File.lost
  cases file.inlineSize with
  | some size => simp
  | none => simp [shorter]

theorem obeys_shortens (sound : ns.Sound) (path : String) (length : Nat) :
    ns.Obeys .truncate .path path (ns.Shortens length)
      (truncate path length) := by
  unfold truncate
  refine @obeys_of_acts ns _ { path, kind := .write, following := true } _ _
    (fun path => Work.truncateAt path length) (fun _ => releaseBlocks) _ _ sound
    rfl (by simp) (by simp) (fun _ _ => .truncateAt _ _ _)
    fun {resolved} {chain} {inode} {locks} _ opening file content closed => ?_
  refine ⟨?_, fun shorter => ?_⟩
  · rintro rfl
    rw [truncating_of_whole opening content closed]
    exact congrArg (EStateM.Result.ok ()) (commit_opened sound.locks)
  · obtain ⟨parent, hparent, hwork⟩ := @truncating_of_shorter ns .truncate _ _ _
      _ resolved opening length file sound rfl content closed shorter
    have hid : inode.id = chain.last := sound.books.wellFormed.ids opening.live
    rw [truncate_eq_cut (Nat.ne_of_lt shorter)] at hwork
    obtain ⟨tx, htx, hwork⟩ :
        ∃ tx, tx = _ ∧
          Work.truncateAt resolved length chain (ns.opened .truncate locks) =
            .ok ((file.lost length).map BlockInfo.block) tx := ⟨_, rfl, hwork⟩
    have confines : (ns.opened .truncate locks).Confines chain.last tx := by
      have hlocal :
          Work.Local chain.last (Work.truncateAt resolved length chain) :=
        .truncateAt resolved length
      have h := (hlocal (ns.opened .truncate locks) (filed_opened sound)).1
      rwa [hwork] at h
    refine ⟨parent, { confines.amendment rfl with
      dropped :=
        (file.lost length).map BlockInfo.block }, hparent, ?_, ?_, rfl, ?_⟩
    · change tx.writes[chain.last]?.join = _
      rw [htx, ← hid]
      exact congrArg Option.join Std.ExtTreeMap.getElem?_insert_self
    · change tx.updates = _
      rw [htx]
      rfl
    · rw [hwork]
      change releaseBlocks _ tx.commit = _
      rw [commit_confined sound.locks confines]
      rfl

/-- A closed file has been cut to a length.  Its inode keeps everything else,
the block map has lost the blocks that the file has lost, and what is freed is
entered at the directory. -/
structure CutsTo (ns : Namespace) (id : InodeId) (inode : Inode) (file : File)
    (length : Nat) (cut : File) (lost : List BlockInfo) (ns' : Namespace) :
    Prop where
  cuts : file.CutTo length cut lost
  whole : length = file.size → ns' = ns
  rest : ns' = { ns with
    table := ns'.table, blocks := ns'.blocks,
    ledger := ns'.ledger, edits := ns'.edits }
  table :
    ∀ x, ns'.table.find? x = if x = id then some (inode.withFile cut)
        else ns.table.find? x
  next : ns'.table.next = ns.table.next
  blocks : ∀ number, ns'.blocks[number]? =
    if number ∈ lost.map (·.block.id) then none else ns.blocks[number]?
  pending : ∃ parent, inode.parent = some parent ∧ ns'.ledger.pendingAt =
    Books.charge ns.ledger.pendingAt ns.keepsQuota parent (cut.spaceSince file)

theorem exists_parent_of_file (sound : ns.Sound)
    (live : ns.table.find? id = some inode)
    (content : inode.content = .file file) :
    ∃ parent, inode.parent = some parent := by
  have wf : ns.table.tree.WellFormed := sound.books.wellFormed
  have hne : id ≠ .root := by
    rintro rfl
    obtain ⟨root, hroot, hdirectory, _⟩ := wf.root
    obtain rfl := Option.some.inj (hroot.symm.trans live)
    rw [Inode.isDirectory, Inode.asDirectory, content] at hdirectory
    cases hdirectory
  obtain ⟨parent, _, hparent, _⟩ := wf.entry live hne
  exact ⟨parent, hparent⟩

/-- At its whole length a file is left alone. -/
theorem cutsTo_of_whole (sound : ns.Sound) (ordered : file.Ordered)
    (closed : file.writer = none) (live : ns.table.find? id = some inode)
    (content : inode.content = .file file) :
    ns.CutsTo id inode file file.size (file.cut file.size)
      (file.lost file.size) ns := by
  have hcuts := File.cutTo_cut ordered closed (Nat.le_refl _)
  obtain ⟨hcut, hlost⟩ := hcuts.whole rfl
  refine ⟨hcuts, fun _ => rfl, rfl, fun x => ?_, rfl, fun number => ?_, ?_⟩
  · rw [hcut, Inode.withFile_self content]
    split
    next h => rw [h, live]
    next => rfl
  · rw [hlost]
    exact (if_neg List.not_mem_nil).symm
  · obtain ⟨parent, hparent⟩ := exists_parent_of_file sound live content
    refine ⟨parent, hparent, ?_⟩
    rw [hcut, File.spaceSince_self, Transaction.charge_zero]

theorem cutsTo_amended (sound : ns.Sound) (ordered : file.Ordered)
    (closed : file.writer = none) (shorter : length < file.size)
    {parent : InodeId} {amendment : Amendment id}
    (hparent : inode.parent = some parent)
    (hinode : amendment.inode = some (inode.withFile (file.cut length)))
    (hupdates : amendment.updates = if ns.keepsQuota ∧
      ((file.cut length).spaceSince file).isZero =
        false then [(parent, (file.cut length).spaceSince file)] else [])
    (hdropped : amendment.dropped = (file.lost length).map BlockInfo.block) :
    ns.CutsTo id inode file length (file.cut length) (file.lost length)
      (ns.amended amendment) where
  cuts := File.cutTo_cut ordered closed (Nat.le_of_lt shorter)
  whole h := absurd h (Nat.ne_of_lt shorter)
  rest := rfl
  table x := by
    rw [find?_amended, hinode]
    rfl
  next := next_amended amendment
  blocks number := by
    have h := BlockMap.getElem?_removeAll ns.blocks amendment.dropped number
    rw [hdropped, List.map_map] at h
    rw [amended, hdropped]
    exact h
  pending := by
    refine ⟨parent, hparent, ?_⟩
    rw [amended, hupdates]
    exact sound.ledger.pendingAt_submitAll_charge ns.keepsQuota parent _

/-- A closed file is cut to whatever length it has, by every path that leads to
it, and the paths go on leading where they led. -/
theorem exists_truncate (sound : ns.Sound) (reaches : ns.Reaches path chain)
    (live : ns.table.find? chain.last = some inode)
    (content : inode.content = .file file) (ordered : file.Ordered)
    (closed : file.writer = none) (le : length ≤ file.size) :
    ∃ ns', truncate path length ns = .ok () ns' ∧
      ns.CutsTo chain.last inode file length (file.cut length)
        (file.lost length) ns' ∧
      ns.table.view.Refiled ns'.table.view := by
  have hheeds := (obeys_shortens sound path length).1 reaches.2
  rw [Heeds, reaches.1] at hheeds
  obtain ⟨found, hfound, hshortens⟩ := hheeds
  obtain rfl := Option.some.inj (live.symm.trans hfound)
  obtain ⟨hwhole, hshorter⟩ :=
    hshortens file (Inode.asFile_eq_some.2 content) closed
  rcases Nat.lt_or_eq_of_le le with hlt | rfl
  · obtain ⟨parent, amendment, hparent, hinode, hupdates, hdropped, hresult⟩ :=
      hshorter hlt
    have hcuts :=
      cutsTo_amended sound ordered closed hlt hparent hinode hupdates hdropped
    have hlive : (ns.table.tree chain.last).isSome :=
      Option.isSome_iff_exists.2 ⟨_, live⟩
    exact ⟨_, hresult, hcuts,
      InodeTable.refiled_of_find? live content hcuts.table
        (size_amended amendment hlive)⟩
  · exact ⟨ns, hwhole rfl, cutsTo_of_whole sound ordered closed live content,
      fun _ => .inl rfl, rfl⟩

/-- Two namespaces have the same inodes and the same blocks, and the same is
pending in sum. -/
structure Tallies (ns ns' : Namespace) : Prop where
  table : ns'.table = ns.table
  blocks : ns'.blocks = ns.blocks
  pending : ns'.ledger.pendingAt = ns.ledger.pendingAt

/-- Cutting a file twice comes to the same as cutting it to the smaller length
at once. -/
theorem CutsTo.tallies {less more : Nat} {mid twice once : Namespace}
    (first : ns.CutsTo id inode file more (file.cut more) (file.lost more) mid)
    (ordered : file.Ordered) (h : less ≤ more) (le : more ≤ file.size)
    (second : mid.CutsTo id (inode.withFile (file.cut more)) (file.cut more)
      less ((file.cut more).cut less) ((file.cut more).lost less) twice)
    (direct : ns.CutsTo id inode file less (file.cut less)
      (file.lost less) once) :
    once.Tallies twice where
  table := by
    refine InodeTable.ext_find? (fun x => ?_) ?_
    · rw [second.table, first.table, direct.table, File.cut_cut ordered h le]
      split <;> rfl
    · rw [second.next, first.next, direct.next]
  blocks := by
    refine Std.ExtTreeMap.ext_getElem? fun number => ?_
    rw [second.blocks, first.blocks, direct.blocks]
    simp only [File.map_id_lost_cut ordered h le, List.mem_append]
    by_cases hlater : number ∈ ((file.cut more).lost less).map (·.block.id)
    · rw [if_pos hlater, if_pos (.inl hlater)]
    · rw [if_neg hlater]
      exact if_congr (or_iff_right hlater).symm rfl rfl
  pending := by
    obtain ⟨parent, hparent, hfirst⟩ := first.pending
    obtain ⟨parent', hparent', hsecond⟩ := second.pending
    obtain ⟨parent'', hparent'', hdirect⟩ := direct.pending
    obtain rfl := Option.some.inj (hparent.symm.trans hparent')
    obtain rfl := Option.some.inj (hparent.symm.trans hparent'')
    have hkeeps : mid.keepsQuota = ns.keepsQuota := by
      rw [first.rest]
      rfl
    rw [hsecond, hfirst, hkeeps, hdirect, Transaction.charge_charge,
      File.cut_cut ordered h le, File.spaceSince_add_spaceSince]
    · rw [File.policy_cut, File.policy_cut]
    · rw [File.replication_cut, File.replication_cut]

/-- A file can be truncated by a path that leads to it: while it is closed, to
every length that it has, and in two steps as well as in one; to another length,
or while it is open, it cannot. -/
structure Truncatable (ns : Namespace) (path : String) (id : InodeId)
    (inode : Inode) (file : File) : Prop where
  cuts : file.writer = none → ∀ length : Nat, length ≤ file.size →
    ∃ cut lost ns',
    truncate path length ns = .ok () ns' ∧
    ns.CutsTo id inode file length cut lost ns'
  again : file.writer = none → ∀ less more : Nat, less ≤ more →
    more ≤ file.size →
    ∃ mid twice once, truncate path more ns = .ok () mid ∧
      truncate path less mid = .ok () twice ∧
      truncate path less ns = .ok () once ∧ once.Tallies twice
  refuses : ∀ length : Int, file.writer ≠ none ∨ length < 0 ∨
    file.size < length →
    ∃ error, truncate path length ns = .error error ns

/-- An open file is not truncated, nor is one to a length that it does not
have. -/
theorem exists_truncated_error {length : Int}
    (content : inode.content = .file file)
    (bad : file.writer ≠ none ∨ length < 0 ∨ file.size < length)
    (path : String) : ∃ error, truncated path length inode = .error error := by
  unfold truncated
  simp only [Inode.asFile_eq_some.2 content]
  cases hwriter : file.writer with
  | some holder => exact ⟨_, rfl⟩
  | none =>
    by_cases hnegative : length < 0
    · simp only [if_pos hnegative]
      exact ⟨_, rfl⟩
    · have hlonger : file.size < length.toNat := by
        rcases bad with hopen | hless | hlonger
        · exact absurd hwriter hopen
        · exact absurd hless hnegative
        · omega
      simp only [if_neg hnegative, if_pos hlonger]
      exact ⟨_, rfl⟩

theorem Reaches.truncatable (reaches : ns.Reaches path chain) (sound : ns.Sound)
    (live : ns.table.find? chain.last = some inode)
    (content : inode.content = .file file) (ordered : file.Ordered) :
    ns.Truncatable path chain.last inode file where
  cuts closed length le := by
    obtain ⟨ns', htruncate, hcuts, _⟩ :=
      exists_truncate sound reaches live content ordered closed le
    exact ⟨_, _, ns', htruncate, hcuts⟩
  again closed less more h le := by
    obtain ⟨mid, hfirst, hcuts, hrefiled⟩ :=
      exists_truncate sound reaches live content ordered closed le
    have soundMid : mid.Sound := by
      have hkept := (stepping_truncate path more).sustaining ns sound
      rwa [hfirst] at hkept
    have hlive :
        mid.table.find? chain.last = some (inode.withFile (file.cut more)) :=
      (hcuts.table _).trans (if_pos rfl)
    obtain ⟨twice, hsecond, hcuts', _⟩ :=
      exists_truncate soundMid (reaches.refiled hrefiled) hlive
      rfl (File.ordered_cut ordered closed more)
        ((File.writer_cut file more).trans closed)
      (hcuts.cuts.size.symm ▸ h)
    obtain ⟨once, hdirect, hcuts'', _⟩ :=
      exists_truncate sound reaches live content ordered closed (h.trans le)
    exact ⟨mid, twice, once, hfirst, hsecond, hdirect,
      hcuts.tallies ordered h le hcuts' hcuts''⟩
  refuses length bad := by
    have hheeds := (obeys_truncate sound path length).1 reaches.2
    rw [Heeds, reaches.1] at hheeds
    obtain ⟨found, hfound, resolved, _, htruncates⟩ := hheeds
    obtain rfl := Option.some.inj (live.symm.trans hfound)
    obtain ⟨error, herror⟩ := exists_truncated_error content bad resolved
    rw [herror] at htruncates
    exact ⟨error, htruncates⟩

/-- The full path of a file leads to it. -/
theorem Sound.exists_reaches (sound : ns.Sound)
    (live : ns.table.find? id = some inode)
    (content : inode.content = .file file) :
    ∃ path chain, fullPath id ns = .ok path ns ∧ ns.Reaches path chain ∧
      chain.last = id := by
  obtain ⟨chain, hpath, _, hresolve, _, rfl, _⟩ := sound.locates.home live
  have leads :=
    Chain.Leads.resolve (InodeTable.view_reads sound.books.wellFormed) hresolve
  have hplain := @Path.resolveReserved_of_plain ns.table.view _
    (Chain.Leads.isReserved_path sound.books leads)
  refine ⟨chain.path, chain, hpath,
    leadsTo_of_resolve .path hplain hresolve live ?_, rfl⟩
  intro target hsymlink
  cases content.symm.trans hsymlink

/-- In every namespace that can come about, truncating a closed file keeps as
much of its beginning as is asked for and frees the rest, by its full path and
by every other path that leads to it. -/
theorem truncatable_after (config : Config) (events : List Event) {id : InodeId}
    {inode : Inode} {file : File}
    (live : ((fresh config).after (events.map Event.run)).table.find? id =
      some inode)
    (content : inode.content = .file file) :
    let ns := (fresh config).after (events.map Event.run)
    (∃ path chain, fullPath id ns = .ok path ns ∧ ns.Reaches path chain ∧
      chain.last = id) ∧
      ∀ path chain, ns.Reaches path chain → chain.last = id →
        ns.Truncatable path id inode file := by
  intro ns
  have sound : ns.Sound := (sound_fresh config).after events
  have hfile : ns.table.tree.file id = some file :=
    (Nodes.file_of_live live).trans (Inode.asFile_eq_some.2 content)
  have ordered : file.Ordered := inOrder_after config events hfile
  refine ⟨sound.exists_reaches live content, ?_⟩
  rintro path chain reaches rfl
  exact reaches.truncatable sound live content ordered

def cutRun : List Event :=
  [.call (.create "/d/f"
    { writer := ⟨"c", ""⟩, blockSize := some 10, replication := some 2 }),
    .call (.addBlock "/d/f" "c" []), .call (.addBlock "/d/f" "c" []),
    .call (.addBlock "/d/f" "c" []), .call (.complete "/d/f" "c" 4)]

theorem truncatable_after_cutRun :
    let ns := (fresh {}).after (cutRun.map Event.run)
    ∃ path inode file, fullPath ⟨3⟩ ns = .ok path ns ∧
      inode.content = .file file ∧
      file.writer = none ∧ file.blocks.map (·.block.bytes) = [10, 10, 4] ∧
      ns.Truncatable path ⟨3⟩ inode file := by
  have hfile :
      (((fresh {}).after (cutRun.map Event.run)).table.tree.file ⟨3⟩).map
        (fun file => (file.writer, file.blocks.map (·.block.bytes))) =
        some (none, [10, 10, 4]) := by
    decide +kernel
  obtain ⟨file, hfound, hshape⟩ := Option.map_eq_some_iff.1 hfile
  obtain ⟨inode, live, content⟩ := Option.bind_eq_some_iff.1 hfound
  obtain ⟨⟨path, chain, hpath, reaches, hlast⟩, htruncatable⟩ :=
    truncatable_after {} cutRun live (Inode.asFile_eq_some.1 content)
  rw [Prod.mk.injEq] at hshape
  exact ⟨path, inode, file, hpath, Inode.asFile_eq_some.1 content, hshape.1,
    hshape.2, htruncatable path chain reaches hlast⟩

end Namespace

end QuotaTree
