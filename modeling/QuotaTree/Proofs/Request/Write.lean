/-
Writing files: each request changes the data of one file, and enters the growth
of its usage.
-/
import QuotaTree.Proofs.Request.Rules
import QuotaTree.Proofs.Work.Refile

namespace QuotaTree

open Work Transaction

def File.LeasedTo (file : File) (client : String) : Prop :=
  ∃ writer, file.writer = some writer ∧ writer.client = client

theorem File.LeasedTo.isOpen {file : File} {client : String}
    (lease : file.LeasedTo client) : file.isOpen = true := by
  obtain ⟨writer, hwriter, _⟩ := lease
  rw [File.isOpen, hwriter]
  rfl

namespace Work

variable {tx tx' : Transaction} {chain : Chain} {client : String}
  {inode : Inode} {file : File} {block : Block} {number : Nat}

/-- Only a file that is leased to the client passes. -/
theorem leasedTo_of_checkLease {found : Option File}
    (h : checkLease chain found client = .ok ()) :
    ∃ file, found = some file ∧ file.LeasedTo client := by
  cases found with
  | none => cases h
  | some file =>
    refine ⟨file, rfl, ?_⟩
    cases hwriter : file.writer with
    | none => simp [checkLease, hwriter] at h
    | some writer =>
      simp only [checkLease, hwriter] at h
      split at h
      next hclient => exact ⟨writer, hwriter, hclient⟩
      next => cases h

/-- Work of a client goes on with an inode only if it is a file that is leased
to it. -/
theorem file_of_leased (h : leased chain client tx = .ok inode tx') :
    tx.tree chain.last = some inode ∧
    (∃ file, inode.asFile = some file ∧ file.LeasedTo client) ∧
      tx' = tx := by
  simp only [leased, Outcome.bind_eq_ok, get_eq_ok, Outcome.ofExcept_eq_ok,
    Outcome.pure_eq_ok] at h
  obtain ⟨_, _, ⟨⟨_, live⟩, rfl⟩, _, _, ⟨hlease, rfl⟩, rfl, rfl⟩ := h
  exact ⟨live, leasedTo_of_checkLease hlease, rfl⟩

/-- What is leased is a file. -/
theorem leasedFile_eq_ok :
    leasedFile chain client tx = .ok (inode, file) tx' ↔
      leased chain client tx = .ok inode tx' ∧ inode.asFile = some file := by
  simp only [leasedFile, Outcome.bind_eq_ok]
  constructor
  · rintro ⟨found, mid, hlease, h⟩
    cases hfile : found.asFile with
    | none => simp [hfile] at h
    | some other =>
      simp only [hfile, Outcome.pure_eq_ok, Prod.mk.injEq] at h
      obtain ⟨⟨rfl, rfl⟩, rfl⟩ := h
      exact ⟨hlease, hfile⟩
  · rintro ⟨hlease, hfile⟩
    exact ⟨inode, tx', hlease, by simp [hfile]⟩

theorem file_of_leasedFile
    (h : leasedFile chain client tx = .ok (inode, file) tx') :
    tx.tree chain.last = some inode ∧ inode.asFile = some file ∧
    file.LeasedTo client ∧
      tx' = tx := by
  obtain ⟨hlease, hfile⟩ := leasedFile_eq_ok.1 h
  obtain ⟨live, ⟨other, hother, hleased⟩, rfl⟩ := file_of_leased hlease
  obtain rfl : other = file := Option.some_inj.1 (hother.symm.trans hfile)
  exact ⟨live, hfile, hleased, rfl⟩

theorem refile_beginBlock {info : BlockInfo} (ready : tx.Ready)
    (leads : Chain.Leads tx.tree chain)
    (h : beginBlock chain block tx = .ok info tx') :
    Refile tx.keepsQuota tx.books tx'.books := by
  simp only [beginBlock, Outcome.bind_eq_ok, get_eq_ok] at h
  obtain ⟨inode, _, ⟨⟨_, live⟩, rfl⟩, h⟩ := h
  cases hfile : inode.asFile with
  | none => simp [hfile] at h
  | some file =>
    obtain ⟨parent, name, id, rfl⟩ :=
      exists_child_of_file ready.wellFormed leads live hfile
    simp only [hfile, Outcome.throw_bind] at h
    split at h
    next hopen =>
      simp only [Outcome.bind_eq_ok, accountAbove_eq_ok, put_eq_ok,
        Outcome.pure_eq_ok] at h
      obtain ⟨_, _, ⟨_, rfl⟩, _, _, ⟨_, rfl⟩, _, rfl⟩ := h
      exact refile_accounted ready leads live hfile
        (File.recharged_beginBlock hopen block)
    next => simp at h

/-- The last block is dropped only from an open file. -/
theorem effect_dropBlockIfLast {dropped : Bool} (ready : tx.Ready)
    (leads : Chain.Leads tx.tree chain)
    (h : dropBlockIfLast chain number tx = .ok dropped tx') :
    Effect tx.keepsQuota false tx.books tx'.books := by
  simp only [dropBlockIfLast, Outcome.bind_eq_ok, get_eq_ok] at h
  obtain ⟨inode, _, ⟨⟨_, live⟩, rfl⟩, h⟩ := h
  rw [Outcome.when_eq_ok] at h
  obtain ⟨mid, hdrop, hanswer⟩ := h
  obtain ⟨_, rfl⟩ := Outcome.pure_eq_ok.1 hanswer
  split at hdrop
  next hdroppable =>
    obtain ⟨file, hfile, hboth⟩ := (Option.any_eq_true _ _).1 hdroppable
    rw [Bool.and_eq_true] at hboth
    obtain ⟨hopen, hlast⟩ := hboth
    obtain ⟨info, hinfo, -⟩ := (Option.any_eq_true _ _).1 hlast
    obtain ⟨parent, name, id, rfl⟩ :=
      exists_child_of_file ready.wellFormed leads live hfile
    simp only [dropBlock, Outcome.bind_eq_ok, get_eq_ok] at hdrop
    obtain ⟨again, _, ⟨⟨_, live'⟩, rfl⟩, hdrop⟩ := hdrop
    obtain rfl : inode = again := Option.some_inj.1 (live.symm.trans live')
    simp only [hfile, hinfo, Outcome.throw_bind, Outcome.ite_eq_ok] at hdrop
    split at hdrop
    next => simp at hdrop
    next =>
      simp only [Outcome.bind_eq_ok, put_eq_ok, accountAbove_eq_ok] at hdrop
      obtain ⟨_, _, ⟨_, rfl⟩, _, rfl⟩ := hdrop
      exact .refile (refile_stored ready leads live hfile
        (File.recharged_dropBlock hopen hinfo))
  next =>
    subst hdrop
    exact .refl _ _

theorem Frames.addBlockAt (client : String) (block : Block)
    (targets : List String) (chain : Chain) :
    Frames (addBlockAt client block targets chain) :=
  bind (leased _ _) fun _ => bind (beginBlock _ _) fun _ => bind (journal _)
    fun _ => pure _

theorem refile_addBlockAt {targets : List String} {id : InodeId}
    (ready : tx.Ready) (leads : Chain.Leads tx.tree chain)
    (h : addBlockAt client block targets chain tx = .ok id tx') :
    Refile tx.keepsQuota tx.books tx'.books := by
  simp only [addBlockAt, Outcome.bind_eq_ok, journal_eq_ok,
    Outcome.pure_eq_ok] at h
  obtain ⟨inode, mid, hlease, info, _, hbegin, _, _, rfl, _, rfl⟩ := h
  obtain ⟨_, _, rfl⟩ := file_of_leased hlease
  rw [books_journaled]
  exact refile_beginBlock ready leads hbegin

theorem Frames.abandonAt (client : String) (number : Nat) (chain : Chain) :
    Frames (abandonAt client number chain) := by
  refine bind (leased _ _) fun inode => ?_
  split
  · exact pure _
  · exact bind (dropBlockIfLast _ _) fun _ =>
      ite (bind (journal _) fun _ => pure _) (pure _)

theorem effect_abandonAt {blocks : List Block} (ready : tx.Ready)
    (leads : Chain.Leads tx.tree chain)
    (h : abandonAt client number chain tx = .ok blocks tx') :
    Effect tx.keepsQuota false tx.books tx'.books := by
  simp only [abandonAt, Outcome.bind_eq_ok] at h
  obtain ⟨inode, mid, hlease, h⟩ := h
  obtain ⟨_, ⟨file, hfile, _⟩, rfl⟩ := file_of_leased hlease
  simp only [hfile, Option.bind_some] at h
  cases hfind : file.blocks.find? (·.block.id == number) with
  | none =>
    simp only [hfind, Outcome.pure_eq_ok] at h
    exact h.2 ▸ .refl _ _
  | some info =>
    simp only [hfind, Outcome.bind_eq_ok, Outcome.ite_eq_ok, journal_eq_ok,
      Outcome.pure_eq_ok] at h
    obtain ⟨dropped, last, hdrop, h⟩ := h
    have heffect := effect_dropBlockIfLast ready leads hdrop
    split at h
    next =>
      obtain ⟨_, _, rfl, _, rfl⟩ := h
      exact heffect
    next => exact h.2 ▸ heffect

theorem Frames.completeAt (client : String) (lastLength : Nat) (chain : Chain) :
    Frames (completeAt client lastLength chain) := by
  refine bind (leasedFile _ _) fun found => ?_
  obtain ⟨inode, file⟩ := found
  dsimp -zeta only
  extract_lets closed rest refund last
  have hrest (done : PUnit) : Frames (rest done) := journal _
  have hlast (done : PUnit) : Frames (last done) :=
    bind (put _) fun _ => ite (bind (account _ _ _ _) hrest) (hrest ⟨⟩)
  exact ite (bind (throw _) hlast) (hlast ⟨⟩)

theorem refile_completeAt {lastLength : Nat} {done : Unit} (ready : tx.Ready)
    (leads : Chain.Leads tx.tree chain)
    (h : completeAt client lastLength chain tx = .ok done tx') :
    Refile tx.keepsQuota tx.books tx'.books := by
  simp only [completeAt, Outcome.bind_eq_ok, Prod.exists] at h
  obtain ⟨inode, file, mid, hlease, h⟩ := h
  obtain ⟨live, hfile, _, rfl⟩ := file_of_leasedFile hlease
  obtain ⟨parent, name, id, rfl⟩ :=
    exists_child_of_file ready.wellFormed leads live hfile
  simp only [Outcome.throw_bind, Outcome.ite_eq_ok] at h
  split at h
  next => simp at h
  next hshort =>
    have recharged := File.recharged_complete lastLength fun hopen =>
      Nat.le_of_not_lt fun hlong => hshort ⟨hopen, hlong⟩
    simp only [Outcome.bind_eq_ok, put_eq_ok] at h
    obtain ⟨_, _, ⟨_, rfl⟩, h⟩ := h
    rw [Outcome.when_eq_ok] at h
    obtain ⟨last, hrefund, hjournal⟩ := h
    rw [journal_eq_ok] at hjournal
    subst hjournal
    split at hrefund
    next hopen =>
      rw [if_pos hopen] at recharged
      obtain ⟨_, rfl⟩ := accountAbove_eq_ok.1 hrefund
      exact refile_stored ready leads live hfile recharged
    next hopen =>
      rw [if_neg hopen] at recharged
      subst hrefund
      exact refile_unaccounted ready leads live hfile recharged

theorem Frames.appendAt (writer : Writer) (chain : Chain) :
    Frames (appendAt writer chain) := by
  refine bind (read _) fun inode => ?_
  split
  · exact throw _
  · split
    · exact throw _
    · extract_lets opened last
      have hlast (done : PUnit) : Frames (last done) :=
        bind (put _) fun _ => journal _
      split
      · exact bind (account _ _ _ _) hlast
      · exact hlast ⟨⟩

theorem refile_appendAt {writer : Writer} {done : Unit} (ready : tx.Ready)
    (leads : Chain.Leads tx.tree chain)
    (h : appendAt writer chain tx = .ok done tx') :
    Refile tx.keepsQuota tx.books tx'.books := by
  simp only [appendAt, Outcome.bind_eq_ok, get_eq_ok] at h
  obtain ⟨inode, _, ⟨⟨_, live⟩, rfl⟩, h⟩ := h
  cases hfile : inode.asFile with
  | none => simp [hfile] at h
  | some file =>
    obtain ⟨parent, name, id, rfl⟩ :=
      exists_child_of_file ready.wellFormed leads live hfile
    cases hwriter : file.writer with
    | some holder => simp [hfile, hwriter] at h
    | none =>
      have recharged := File.recharged_append hwriter writer
      simp only [hfile, hwriter] at h
      cases hpartial : file.partialBlock with
      | some info =>
        simp only [hpartial] at recharged
        simp only [hpartial, Outcome.bind_eq_ok, accountAbove_eq_ok, put_eq_ok,
          journal_eq_ok] at h
        obtain ⟨_, _, ⟨_, rfl⟩, _, _, ⟨_, rfl⟩, rfl⟩ := h
        exact refile_accounted ready leads live hfile recharged
      | none =>
        simp only [hpartial] at recharged
        simp only [hpartial, Outcome.bind_eq_ok, put_eq_ok, journal_eq_ok] at h
        obtain ⟨_, _, ⟨_, rfl⟩, rfl⟩ := h
        exact refile_unaccounted ready leads live hfile recharged

theorem Frames.writeInlineAt (client : String) (length : Nat) (chain : Chain) :
    Frames (writeInlineAt client length chain) := by
  refine bind (leasedFile _ _) fun found => ?_
  obtain ⟨inode, file⟩ := found
  dsimp -zeta only
  extract_lets growth last
  have hlast (done : PUnit) : Frames (last done) :=
    bind (account _ _ _ _) fun _ => bind (put _) fun _ => journal _
  exact ite (hlast ⟨⟩) (bind (throw _) hlast)

theorem refile_writeInlineAt {length : Nat} {done : Unit} (ready : tx.Ready)
    (leads : Chain.Leads tx.tree chain)
    (h : writeInlineAt client length chain tx = .ok done tx') :
    Refile tx.keepsQuota tx.books tx'.books := by
  simp only [writeInlineAt, Outcome.bind_eq_ok, Prod.exists] at h
  obtain ⟨inode, file, mid, hlease, h⟩ := h
  obtain ⟨live, hfile, _, rfl⟩ := file_of_leasedFile hlease
  obtain ⟨parent, name, id, rfl⟩ :=
    exists_child_of_file ready.wellFormed leads live hfile
  simp only [Outcome.throw_bind, Outcome.ite_eq_ok] at h
  split at h
  next hempty =>
    rw [List.isEmpty_iff] at hempty
    simp only [Outcome.bind_eq_ok, accountAbove_eq_ok, put_eq_ok,
      journal_eq_ok] at h
    obtain ⟨_, _, ⟨_, rfl⟩, _, _, ⟨_, rfl⟩, rfl⟩ := h
    exact refile_accounted ready leads live hfile
      (File.recharged_inline hempty length)
  next => simp at h

theorem Frames.truncateAt (path : String) (length : Int) (chain : Chain) :
    Frames (truncateAt path length chain) := by
  refine bind (read _) fun inode => ?_
  split
  · exact throw _
  next file _ =>
    split
    · exact throw _
    · extract_lets newLength last guard
      have hlast (done : PUnit) : Frames (last done) :=
        ite (pure _) (bind (put _) fun _ => bind (account _ _ _ _) fun _ =>
          bind (journal _) fun _ => pure _)
      have hguard (done : PUnit) : Frames (guard done) :=
        ite (bind (throw _) hlast) (hlast ⟨⟩)
      exact ite (bind (throw _) hguard) (hguard ⟨⟩)

theorem effect_truncateAt {path : String} {length : Int} {dropped : List Block}
    (ready : tx.Ready) (leads : Chain.Leads tx.tree chain)
    (h : truncateAt path length chain tx = .ok dropped tx') :
    Effect tx.keepsQuota false tx.books tx'.books := by
  simp only [truncateAt, Outcome.bind_eq_ok, get_eq_ok] at h
  obtain ⟨inode, _, ⟨⟨_, live⟩, rfl⟩, h⟩ := h
  cases hfile : inode.asFile with
  | none => simp [hfile] at h
  | some file =>
    obtain ⟨parent, name, id, rfl⟩ :=
      exists_child_of_file ready.wellFormed leads live hfile
    cases hwriter : file.writer with
    | some holder => simp [hfile, hwriter] at h
    | none =>
      simp only [hfile, hwriter, Outcome.throw_bind, Outcome.ite_eq_ok] at h
      split at h
      next => simp at h
      split at h
      next => simp at h
      split at h
      next =>
        obtain ⟨_, rfl⟩ := Outcome.pure_eq_ok.1 h
        exact .refl _ _
      next =>
        simp only [Outcome.bind_eq_ok, put_eq_ok, accountAbove_eq_ok,
          journal_eq_ok, Outcome.pure_eq_ok] at h
        obtain ⟨_, _, ⟨_, rfl⟩, _, _, ⟨_, rfl⟩, _, _, rfl, _, rfl⟩ := h
        exact .refile (refile_stored ready leads live hfile
          (File.recharged_truncate hwriter length.toNat))

end Work

namespace Namespace

variable {α : Type}

theorem stepping_onFile {operation : Operation} {work : Chain → Work α}
    (path : String) (frames : ∀ chain, (work chain).Frames)
    (effect : ∀ {tx tx' value chain}, tx.Ready → Chain.Leads tx.tree chain →
      work chain tx = .ok value tx' →
      Effect tx.keepsQuota false tx.books tx'.books) :
    Stepping false (onFile operation path work) := by
  refine .quiet_bind (.resolvePath path) fun path => ?_
  refine .transact (.bind (.read _) frames) ?_
  intro tx tx' value ready h
  simp only [Outcome.bind_eq_ok, read_eq_ok] at h
  obtain ⟨chain, _, ⟨hresolve, rfl⟩, hwork⟩ := h
  exact effect ready (Chain.Leads.resolve ready.reads hresolve) hwork

theorem quiet_nextBlockOut : Quiet nextBlockOut :=
  fun _ => ⟨rfl, rfl, rfl, rfl, rfl⟩

/-- Entering a block changes the block map at most. -/
theorem trackBlock_eq (ns : Namespace) (block : Block) (file : InodeId)
    (targets : List String) :
    trackBlock block file targets ns =
      .ok ⟨⟩ { ns with blocks := (ns.blocks.add block file
                         targets).toOption.getD ns.blocks } := by
  unfold trackBlock
  rw [Outcome.modify_eq_ok]
  cases ns.blocks.add block file targets <;> rfl

theorem quiet_trackBlock (block : Block)
    (file : InodeId) (targets : List String) :
    Quiet (trackBlock block file targets) := by
  intro ns
  rw [trackBlock_eq]
  exact ⟨rfl, rfl, rfl, rfl, rfl⟩

/-- The namespace when it gives out only later blocks than this one. -/
def past (ns : Namespace) (block : Block) : Namespace :=
  { ns with
    nextBlock := max ns.nextBlock (block.id + 1)
    nextStamp := max ns.nextStamp (block.stamp + 1) }

def nextOut (ns : Namespace) : Block :=
  ⟨ns.nextBlock, 0, ns.nextStamp⟩

section Blocks

variable {ns ns' : Namespace} {block : Block} {file : InodeId}
  {targets : List String}

theorem addBlockAs_eq (path client : String) (block : Block)
    (targets : List String) : addBlockAs path client block targets ns = (do
        let file ← onFile .addBlock path (Work.addBlockAt client block targets)
        trackBlock block file targets : Request Unit) (ns.past block) :=
  rfl

theorem trackBlock_of_fresh (fresh : ns.blocks[block.id]? = none) :
    trackBlock block file targets ns = .ok ⟨⟩ { ns with
      blocks := ns.blocks.insert block.id ⟨file, targets, block.stamp⟩ } := by
  unfold trackBlock BlockMap.add
  rw [Outcome.modify_eq_ok]
  simp only [fresh]

/-- The block given out is begun and then entered, by a namespace that gives out
only later ones. -/
theorem addBlock_eq_ok {path client : String} :
    addBlock path client targets ns = .ok block ns' ↔
      block = ns.nextOut ∧ ∃ file mid,
        onFile .addBlock path (Work.addBlockAt client ns.nextOut targets)
          (ns.past ns.nextOut) = .ok file mid ∧
        trackBlock ns.nextOut file targets mid = .ok () ns' := by
  have hpast :
      ({ ns with nextBlock := ns.nextBlock + 1, nextStamp := ns.nextStamp +
        1 } : Namespace).past ns.nextOut = ns.past ns.nextOut := by
    simp [past, nextOut]
  have hout : nextBlockOut ns = .ok ns.nextOut { ns with
        nextBlock := ns.nextBlock + 1, nextStamp := ns.nextStamp + 1 } := rfl
  rw [addBlock, Outcome.bind_of_ok hout]
  simp only [Outcome.bind_eq_ok, addBlockAs_eq, hpast, Outcome.pure_eq_ok]
  constructor
  · rintro ⟨_, _, ⟨file, mid, hfile, htrack⟩, rfl, rfl⟩
    exact ⟨rfl, file, mid, hfile, htrack⟩
  · rintro ⟨rfl, file, mid, hfile, htrack⟩
    exact ⟨(), ns', ⟨file, mid, hfile, htrack⟩, rfl, rfl⟩

end Blocks

/-- Blocks given out later have greater numbers. -/
theorem quiet_past (block : Block) : Quiet (modify (past · block)) :=
  fun _ => ⟨rfl, rfl, rfl, rfl, rfl⟩

theorem stepping_addBlockAs (path client : String) (block : Block)
    (targets : List String) :
    Stepping false (addBlockAs path client block targets) :=
  .quiet_bind (quiet_past block) fun _ =>
    .bind_quiet
      (stepping_onFile path (.addBlockAt _ _ _) fun ready leads h =>
        .refile (refile_addBlockAt ready leads h))
      fun file => quiet_trackBlock block file targets

theorem stepping_addBlock (path client : String) (targets : List String) :
    Stepping false (addBlock path client targets) :=
  .quiet_bind quiet_nextBlockOut fun block =>
    .bind_quiet (stepping_addBlockAs path client block targets)
      fun _ => .pure block

theorem stepping_abandonBlock (path client : String) (block : Nat) :
    Stepping false (abandonBlock path client block) :=
  .bind_quiet (stepping_onFile path (.abandonAt _ _) effect_abandonAt)
    fun dropped => (Quiet.releaseBlocks dropped).bind fun _ => .pure _

theorem stepping_complete (path client : String) (lastLength : Nat) :
    Stepping false (complete path client lastLength) :=
  stepping_onFile path (.completeAt _ _) fun ready leads h =>
    .refile (refile_completeAt ready leads h)

theorem stepping_append (path : String) (writer : Writer) :
    Stepping false (append path writer) :=
  stepping_onFile path (.appendAt _)
    fun ready leads h => .refile (refile_appendAt ready leads h)

theorem stepping_writeInline (path client : String) (length : Nat) :
    Stepping false (writeInline path client length) := by
  refine .quiet_bind .get fun ns => ?_
  extract_lets limit rest
  exact .guarded (stepping_onFile path (.writeInlineAt _ _) fun ready leads h =>
    .refile (refile_writeInlineAt ready leads h))

theorem stepping_truncate (path : String) (length : Int) :
    Stepping false (truncate path length) := by
  refine .quiet_bind (.resolvePath path) fun path => ?_
  refine .bind_quiet (.transact (.bind (.read _) (.truncateAt _ _)) ?_)
    fun dropped => .releaseBlocks dropped
  intro tx tx' value ready h
  simp only [Outcome.bind_eq_ok, read_eq_ok] at h
  obtain ⟨chain, _, ⟨hresolve, rfl⟩, hwork⟩ := h
  exact effect_truncateAt ready (Chain.Leads.resolve ready.reads hresolve) hwork

end Namespace

end QuotaTree
