/-
Writing to files and setting limits, policies and replications, under a lock for
writing on the inode itself.  Its ancestors are only read, and the usage is
entered as pending.
-/
import QuotaTree.Proofs.Faults.Planning
import QuotaTree.Proofs.Request.Adjust
import QuotaTree.Proofs.Request.Write

namespace QuotaTree

open Nodes

namespace Work

open Transaction

variable {tx : Transaction} {chain : Chain} {rest : List Name}
  {client path : String}

/-- The inode at the end of a chain is there and may be written, and its
ancestors may be read. -/
structure Writes (tx : Transaction) (chain : Chain) (inode : Inode) : Prop where
  held : tx.Held chain
  opened : tx.Opened chain.last inode

theorem exists_writes (ready : tx.Ready) {lock : PathLock}
    (grants : tx.Grants lock chain rest) (kind : lock.kind = .write) :
    ∃ inode, Writes tx chain inode := by
  have held := grants.held ready
  obtain ⟨_, inode, live⟩ := held.last
  refine ⟨inode, held, opened_of_allows ready.wellFormed live ?_⟩
  have last := grants.last
  rwa [kind] at last

namespace Writes

variable {inode : Inode} {α : Type}

theorem get (writes : Writes tx chain inode) :
    Work.get chain.last tx = .ok inode tx :=
  get_eq_ok.2 ⟨⟨writes.opened.read, writes.opened.live⟩, rfl⟩

/-- Growth is refused for a reason of the request, or entered. -/
theorem charge (writes : Writes tx chain inode) {next : Unit → Work α}
    (delta : Counts) (checked : Bool)
    (later : ∀ mid, tx.Extends mid → Faultless (next ()) mid) :
    Faultless (accountAbove chain delta checked >>= next) tx :=
  .bind ((refuses_account (fun _ => writes.held) _ _).mono fun _ _ h => h.1)
    fun _ mid h =>
    later mid ((Frames.account _ _ _ _).extends_of_ok h)

/-- A file is stored with other data, and an edit is written. -/
theorem file (writes : Writes tx chain inode) {mid : Transaction}
    (ext : tx.Extends mid) (new : File) (edit : Edit) :
    Faultless (do put (inode.withFile new); journal edit) mid :=
  .bind (faultless_put (ext.allows writes.opened.write))
    fun _ _ _ => faultless_journal _ _

theorem directory (writes : Writes tx chain inode) (new : Directory)
    (edit : Edit) :
    Faultless (do put (inode.withDirectory new); journal edit) tx :=
  .bind (faultless_put writes.opened.write) fun _ _ _ => faultless_journal _ _

end Writes

variable {inode : Inode} {block : Block} {number : Nat} {checked : Bool}

theorem harmless_checkLease (chain : Chain) (file : Option File)
    (client : String) : Harmless (checkLease chain file client) := by
  unfold checkLease
  split
  · exact .throw rfl
  · split
    · split
      · exact .pure _
      · exact .throw rfl
    · exact .throw rfl

/-- Who has the file open goes on with it. -/
theorem faultless_leased {α : Type} {next : Inode → Work α}
    (writes : Writes tx chain inode)
    (later : ∀ file, inode.asFile = some file → Faultless (next inode) tx) :
    Faultless (leased chain client >>= next) tx := by
  refine .bind (.bind_of_ok writes.get ?_) fun found mid h => ?_
  · exact .bind (.ofExcept (harmless_checkLease _ _ _)) fun _ _ _ => .pure _ _
  · obtain ⟨live, ⟨file, hfile, _⟩, rfl⟩ := file_of_leased h
    obtain rfl : inode = found :=
      Option.some_inj.1 (writes.opened.live.symm.trans live)
    exact later file hfile

/-- No lease is found to be held on what is not a file. -/
theorem faultless_leasedFile {α : Type} {next : Inode × File → Work α}
    (writes : Writes tx chain inode)
    (later : ∀ file, inode.asFile = some file →
      Faultless (next (inode, file)) tx) :
    Faultless (leasedFile chain client >>= next) tx := by
  unfold leasedFile
  rw [bind_assoc]
  refine faultless_leased writes fun file hfile => ?_
  simp only [hfile, pure_bind]
  exact later file hfile

theorem faultless_beginBlock (writes : Writes tx chain inode) :
    Faultless (beginBlock chain block) tx := by
  refine .bind_of_ok writes.get ?_
  cases inode.asFile with
  | none => exact .throw rfl
  | some file =>
    refine .ite (fun _ => ?_) fun _ => .throw_bind rfl
    refine writes.charge _ _ fun mid ext => ?_
    exact .bind (faultless_put (ext.allows writes.opened.write))
      fun _ _ _ => .pure _ _

theorem faultless_addBlockAt {targets : List String}
    (writes : Writes tx chain inode) :
    Faultless (addBlockAt client block targets chain) tx :=
  faultless_leased writes fun _ _ => .bind (faultless_beginBlock writes)
    fun _ _ _ =>
    .bind (faultless_journal _ _) fun _ _ _ => .pure _ _

/-- A block is dropped only when it is the last one of a file. -/
theorem faultless_dropBlockIfLast (writes : Writes tx chain inode) :
    Faultless (dropBlockIfLast chain number) tx := by
  refine .bind_of_ok writes.get
    (.when (fun hdroppable => ?_) fun _ _ => .pure _ _)
  obtain ⟨file, hfile, hboth⟩ := (Option.any_eq_true _ _).1 hdroppable
  rw [Bool.and_eq_true] at hboth
  obtain ⟨info, hinfo, hnumber⟩ := (Option.any_eq_true _ _).1 hboth.2
  refine .bind_of_ok writes.get ?_
  simp only [hfile, hinfo, ne_eq, eq_of_beq hnumber, not_true_eq_false,
    if_false]
  refine .bind (faultless_put writes.opened.write) fun _ mid _ => ?_
  exact (refuses_account (fun h => by cases h) _ _).mono fun _ _ h => h.1

theorem faultless_abandonAt (writes : Writes tx chain inode) :
    Faultless (abandonAt client number chain) tx := by
  refine faultless_leased writes fun file _ => ?_
  split
  · exact .pure _ _
  · refine .bind (faultless_dropBlockIfLast writes) fun _ _ _ => ?_
    exact .ite (fun _ => .bind (faultless_journal _ _) fun _ _ _ => .pure _ _)
      fun _ => .pure _ _

theorem faultless_completeAt {lastLength : Nat}
    (writes : Writes tx chain inode) :
    Faultless (completeAt client lastLength chain) tx := by
  refine faultless_leasedFile writes fun file _ => ?_
  dsimp only
  refine .guarded rfl fun _ => ?_
  refine .bind (faultless_put writes.opened.write) fun _ mid h => ?_
  obtain ⟨_, rfl⟩ := put_eq_ok.1 h
  refine .when (fun _ => ?_) fun _ _ => faultless_journal _ _
  exact (refuses_account (fun _ => writes.held.stored _) _ _).mono
    fun _ _ h => h.1

theorem faultless_appendAt {writer : Writer} (writes : Writes tx chain inode) :
    Faultless (appendAt writer chain) tx := by
  refine .bind_of_ok writes.get ?_
  cases inode.asFile with
  | none => exact .throw rfl
  | some file =>
    dsimp only
    cases file.writer with
    | some holder => exact .throw rfl
    | none =>
      dsimp only
      cases file.partialBlock with
      | some info => exact writes.charge _ _ fun mid ext => writes.file ext _ _
      | none => exact writes.file (.refl _) _ _

theorem faultless_writeInlineAt {length : Nat}
    (writes : Writes tx chain inode) :
    Faultless (writeInlineAt client length chain) tx := by
  refine faultless_leasedFile writes fun file _ => ?_
  refine .ite (fun _ => ?_) fun _ => .throw_bind rfl
  exact writes.charge _ _ fun mid ext => writes.file ext _ _

theorem faultless_setPolicy {policy : StoragePolicy} (ready : tx.Ready)
    (grants : tx.Grants { path, kind := .write } chain rest) :
    Faultless (setPolicy path policy) tx := by
  obtain ⟨inode, writes⟩ := exists_writes ready grants rfl
  refine faultless_resolve grants rfl fun _ => .bind_of_ok writes.get ?_
  cases inode.content with
  | directory directory => exact writes.directory _ _
  | file file => exact writes.charge _ _ fun mid ext => writes.file ext _ _
  | symlink target => exact .throw_bind rfl

theorem faultless_setReplication {replication : Nat} (ready : tx.Ready)
    (grants : tx.Grants { path, kind := .write } chain rest) :
    Faultless (setReplication path replication) tx := by
  obtain ⟨inode, writes⟩ := exists_writes ready grants rfl
  refine faultless_resolve grants rfl fun _ => .bind_of_ok writes.get ?_
  cases inode.asFile with
  | none => exact .throw rfl
  | some file => exact writes.charge _ _ fun mid ext => writes.file ext _ _

theorem faultless_changeLimits {edit : Edit} {liftsInodes : Bool}
    {change : Counts → Counts} (ready : tx.Ready)
    (grants : tx.Grants { path, kind := .write, scope := .subtree,
                          belowMode := .read } chain rest) :
    Faultless (changeLimits path edit liftsInodes change) tx := by
  obtain ⟨inode, writes⟩ := exists_writes ready grants rfl
  refine faultless_resolve grants rfl fun hrest => ?_
  have hread : ∀ x, tx.tree.Under chain.last x → tx.Allows x .read := by
    intro x hx
    by_cases hlast : x = chain.last
    · exact hlast ▸ writes.opened.read
    · exact grants.below hrest rfl x hx hlast
  obtain ⟨ids, hsubtree, _, _, husage⟩ :=
    ready.reads.exists_usage ready.wellFormed writes.opened.live
      fun x hx => view_opens (hread x hx)
  extract_lets id
  refine .guarded rfl fun _ => .bind_of_ok (read_of_ok hsubtree) ?_
  refine .bind_of_ok (read_of_ok husage)
    (.bind_of_ok (pendingFor_eq_ok.2 ⟨rfl, rfl⟩) ?_)
  refine .bind_of_ok writes.get ?_
  cases inode.asDirectory with
  | none => exact .throw rfl
  | some directory => exact writes.directory _ _

end Work

end QuotaTree
