/-
Requests on files that somebody writes.  Opening, cutting and replacing such a
file is refused whoever asks for it, and writing it is refused to anybody but
its writer's client.
-/
import QuotaTree.Proofs.Faults.Planning
import QuotaTree.Proofs.Files.Requests
import QuotaTree.Proofs.Symlinks

namespace QuotaTree

open Nodes Work

namespace Namespace

/-- What calls on a file are refused with while the file is open for a
holder. -/
inductive Refuses (ns : Namespace) (id : InodeId) (holder : Writer) :
    Call → Error → Prop
  | append {path : String} {chain : Chain}
      (located : ns.table.locate path = .ok chain) (last : chain.last = id)
      (writer : Writer) :
    Refuses ns id holder (.append path writer)
      (.beingWritten .append chain.path holder.client)
  | create {path resolved : String} {chain : Chain} {options : CreateOptions}
      (stands : Path.resolveReserved ns.table.view path = .ok resolved)
      (located : Chain.resolve ns.table.view resolved false = .ok chain)
      (last : chain.last = id)
      (replication : options.replication.getD ns.config.defaultReplication ≠ 0)
      (blockSize : options.blockSize.getD ns.config.defaultBlockSize ≠ 0) :
    Refuses ns id holder (.create path options)
      (.beingWritten .create resolved holder.client)
  | truncate {path resolved : String} {chain : Chain}
      (stands : Path.resolveReserved ns.table.view path = .ok resolved)
      (leads : Chain.resolve ns.table.view resolved true = .ok chain)
      (last : chain.last = id) (stays : ¬ ns.Strays .path path) (length : Int) :
    Refuses ns id holder (.truncate path length)
      (.beingWritten .truncate resolved holder.client)
  | addBlock {path client : String} {chain : Chain}
      (located : ns.table.locate path = .ok chain) (last : chain.last = id)
      (other : holder.client ≠ client) (targets : List String) :
    Refuses ns id holder (.addBlock path client targets)
      (.leaseMismatch chain.path holder.client client)
  | abandonBlock {path client : String} {chain : Chain}
      (located : ns.table.locate path = .ok chain) (last : chain.last = id)
      (other : holder.client ≠ client) (block : Nat) :
    Refuses ns id holder (.abandonBlock path client block)
      (.leaseMismatch chain.path holder.client client)
  | complete {path client : String} {chain : Chain}
      (located : ns.table.locate path = .ok chain) (last : chain.last = id)
      (other : holder.client ≠ client) (lastLength : Nat) :
    Refuses ns id holder (.complete path client lastLength)
      (.leaseMismatch chain.path holder.client client)
  | writeInline {path client : String} {chain : Chain} {length : Nat}
      (located : ns.table.locate path = .ok chain) (last : chain.last = id)
      (other : holder.client ≠ client)
      (fits : ¬ (ns.config.maxInline = 0 ∨ ns.config.maxInline < length)) :
    Refuses ns id holder (.writeInline path client length)
      (.leaseMismatch chain.path holder.client client)

variable {ns : Namespace} {path resolved client : String} {chain : Chain}
  {id : InodeId} {file : File} {holder writer : Writer} {error : Error}
  {α : Type}

/-- Under the locks of a request a path leads where it led when they were
planned. -/
theorem exists_grants (sound : ns.Sound) (operation : Operation)
    (kind : LockKind)
    (located : Chain.resolve ns.table.view resolved false = .ok chain) :
    ∃ locks, (LockDemand.ofPath { path := resolved, kind }).plan ns.table.view =
        .ok locks ∧
      (ns.opened operation locks).Grants { path := resolved, kind } chain
        [] := by
  have hresolve := Chain.resolve_eq_ok.1 located
  let lock : PathLock := { path := resolved, kind }
  have hdemands :=
    @PathLock.demands_of_resolve lock ns.table.view chain [] rfl hresolve rfl
  have hplan := LockDemand.plan_ofPath_eq_ok.2 ⟨_, hdemands, rfl⟩
  obtain ⟨other, rest, grants⟩ :=
    LockDemand.grants_of_plan sound.books.wellFormed (by simp [lock]) hplan lock
      (List.mem_singleton_self lock)
  obtain ⟨rfl, rfl⟩ :=
    Prod.mk.inj (Except.ok.inj (hresolve.symm.trans grants.resolves))
  exact ⟨_, hplan, grants_opened grants⟩

section Open

variable {tx : Transaction} {inode : Inode}
  (getting : Work.get chain.last tx = .ok inode tx)
  (content : inode.asFile = some file) (held : file.writer = some holder)

include getting content held

theorem leased_of_other (other : holder.client ≠ client) :
    leased chain client tx =
      .error (.leaseMismatch chain.path holder.client client) tx := by
  rw [leased, Outcome.bind_of_ok getting]
  refine Outcome.bind_of_error ?_
  rw [content, checkLease, held]
  dsimp only
  rw [if_neg other]
  rfl

theorem leasedFile_of_other (other : holder.client ≠ client) :
    leasedFile chain client tx =
      .error (.leaseMismatch chain.path holder.client client) tx :=
  Outcome.bind_of_error (leased_of_other getting content held other)

theorem appendAt_of_open :
    appendAt writer chain tx =
      .error (.beingWritten .append chain.path holder.client) tx := by
  rw [appendAt, Outcome.bind_of_ok getting]
  simp only [content, held]
  rfl

theorem replaceFile_of_open (overwrite : Bool) :
    replaceFile chain path overwrite tx =
      .error (.beingWritten .create path holder.client) tx := by
  rw [replaceFile, Outcome.bind_of_ok getting]
  simp only [content, held]
  rfl

end Open

/-- A request on a file is refused as its work is, with nothing done. -/
theorem onFile_of_error {operation : Operation} {work : Chain → Work α}
    (sound : ns.Sound) (located : ns.table.locate path = .ok chain)
    (hfile : ns.table.tree.file chain.last = some file)
    (refused : ∀ {tx : Transaction}
      {inode}, Work.get chain.last tx = .ok inode tx →
      inode.asFile = some file → work chain tx = .error error tx) :
    onFile operation path work ns = .error error ns := by
  obtain ⟨resolved, stands, hresolve⟩ := InodeTable.locate_eq_ok.1 located
  obtain ⟨locks, plan, grants⟩ := exists_grants sound operation .write hresolve
  obtain ⟨inode, live, content⟩ := Option.bind_eq_some_iff.1 hfile
  rw [onFile, Outcome.bind_of_ok (resolvePath_eq_ok.2 ⟨stands, rfl⟩)]
  refine transact_of_error sound.locks plan ?_
  rw [Outcome.bind_of_ok (read_of_ok (Chain.resolve_of_ends grants.resolves))]
  refine refused (get_eq_ok.2 ⟨⟨grants.along _ chain.last_mem_ids, ?_⟩, rfl⟩)
    content
  rw [tree_opened]
  exact live

/-- A file that is open is not made anew. -/
theorem create_of_open {options : CreateOptions} (sound : ns.Sound)
    (stands : Path.resolveReserved ns.table.view path = .ok resolved)
    (located : Chain.resolve ns.table.view resolved false = .ok chain)
    (hfile : ns.table.tree.file chain.last = some file)
    (held : file.writer = some holder)
    (replication : options.replication.getD ns.config.defaultReplication ≠ 0)
    (blockSize : options.blockSize.getD ns.config.defaultBlockSize ≠ 0) :
    create path options ns =
      .error (.beingWritten .create resolved holder.client) ns := by
  obtain ⟨locks, plan, grants⟩ :=
    exists_grants sound .create .writeWithParent located
  obtain ⟨inode, live, content⟩ := Option.bind_eq_some_iff.1 hfile
  have getting : Work.get chain.last (ns.opened .create locks) =
      .ok inode (ns.opened .create locks) := by
    refine get_eq_ok.2 ⟨⟨grants.along _ chain.last_mem_ids, ?_⟩, rfl⟩
    rw [tree_opened]
    exact live
  rw [create, Outcome.bind_of_ok (resolvePath_eq_ok.2 ⟨stands, rfl⟩),
    Outcome.get_bind]
  extract_lets
  rw [if_neg replication, if_neg blockSize]
  refine Outcome.bind_of_error (transact_of_error sound.locks plan ?_)
  rw [createFile, Outcome.bind_of_ok (read_of_ok grants.resolves)]
  refine Outcome.bind_of_error ?_
  exact Outcome.bind_of_error
    (replaceFile_of_open getting content held options.overwrite)

/-- A file that is open is not cut. -/
theorem truncate_of_open (sound : ns.Sound)
    (stands : Path.resolveReserved ns.table.view path = .ok resolved)
    (leads : Chain.resolve ns.table.view resolved true = .ok chain)
    (hfile : ns.table.tree.file chain.last = some file)
    (held : file.writer = some holder) (stays : ¬ ns.Strays .path path)
    (length : Int) :
    truncate path length ns =
      .error (.beingWritten .truncate resolved holder.client) ns := by
  have hleads : ns.leadsTo path = .ok chain :=
    Outcome.except_bind_eq_ok.2 ⟨resolved, stands, leads⟩
  have heeds := (obeys_truncate sound path length).1 stays
  unfold Heeds at heeds
  rw [hleads] at heeds
  obtain ⟨inode, live, again, hagain, hresult⟩ := heeds
  obtain rfl := Except.ok.inj (stands.symm.trans hagain)
  have htruncated : truncated resolved length inode =
      .error (.beingWritten .truncate resolved holder.client) := by
    simp only [truncated, (file_of_live live).symm.trans hfile, held]
    rfl
  rw [htruncated] at hresult
  exact hresult

/-- Beginning a block in a file that another client writes uses up numbers for
blocks alone. -/
theorem addBlockAs_of_other {block : Block} {targets : List String}
    (sound : ns.Sound) (located : ns.table.locate path = .ok chain)
    (hfile : ns.table.tree.file chain.last = some file)
    (held : file.writer = some holder) (other : holder.client ≠ client) :
    addBlockAs path client block targets ns =
      .error (.leaseMismatch chain.path holder.client client) { ns with
          nextBlock := max ns.nextBlock (block.id + 1)
          nextStamp := max ns.nextStamp (block.stamp + 1) } := by
  let past : Namespace :=
    { ns with
      nextBlock := max ns.nextBlock (block.id + 1)
      nextStamp := max ns.nextStamp (block.stamp + 1) }
  have hsound : past.Sound := ⟨sound.books, sound.ledger, sound.locks⟩
  have hfailed : onFile .addBlock path (addBlockAt client block targets) past =
      .error (.leaseMismatch chain.path holder.client client) past :=
    onFile_of_error hsound located hfile fun getting content =>
      Outcome.bind_of_error (leased_of_other getting content held other)
  exact (Outcome.bind_of_ok rfl).trans (Outcome.bind_of_error hfailed)

/-- What is refused by an open file is refused. -/
theorem error?_of_refuses {call : Call} (sound : ns.Sound)
    (hfile : ns.table.tree.file id = some file)
    (held : file.writer = some holder)
    (refuses : ns.Refuses id holder call error) :
    Outcome.error? (call.run ns) = some error := by
  cases refuses with
  | append located last writer =>
    subst last
    refine Outcome.error?_eq_some.2 ⟨ns, onFile_of_error sound located hfile ?_⟩
    exact fun getting content => appendAt_of_open getting content held
  | create stands located last replication blockSize =>
    subst last
    have hcreate :=
      create_of_open sound stands located hfile held replication blockSize
    exact Outcome.error?_eq_some.2 ⟨ns, Outcome.discard_of_error hcreate⟩
  | truncate stands leads last stays length =>
    subst last
    exact Outcome.error?_eq_some.2
      ⟨ns, truncate_of_open sound stands leads hfile held stays length⟩
  | @addBlock path client chain located last other targets =>
    subst last
    let out : Namespace :=
      { ns with nextBlock := ns.nextBlock + 1, nextStamp := ns.nextStamp + 1 }
    have hsound : out.Sound := ⟨sound.books, sound.ledger, sound.locks⟩
    have hfailed : addBlockAs path client ns.nextOut targets out = _ :=
      addBlockAs_of_other hsound located hfile held other
    have hadd : addBlock path client targets ns = _ :=
      (Outcome.bind_of_ok rfl).trans (Outcome.bind_of_error hfailed)
    exact Outcome.error?_eq_some.2 ⟨_, Outcome.discard_of_error hadd⟩
  | abandonBlock located last other block =>
    subst last
    refine Outcome.error?_eq_some.2
      ⟨ns, Outcome.discard_of_error (Outcome.bind_of_error ?_)⟩
    refine onFile_of_error sound located hfile fun getting content => ?_
    exact Outcome.bind_of_error (leased_of_other getting content held other)
  | complete located last other lastLength =>
    subst last
    refine Outcome.error?_eq_some.2 ⟨ns, onFile_of_error sound located hfile ?_⟩
    intro tx inode getting content
    exact Outcome.bind_of_error (leasedFile_of_other getting content held other)
  | @writeInline path client chain length located last other fits =>
    subst last
    refine Outcome.error?_eq_some.2 ⟨ns, ?_⟩
    change writeInline path client length ns = _
    rw [writeInline, Outcome.get_bind, if_neg fits]
    refine onFile_of_error sound located hfile fun getting content => ?_
    exact Outcome.bind_of_error (leasedFile_of_other getting content held other)

/-- An edit is refused where the call would be that it was written for. -/
theorem error?_apply_of_refuses {edit : Edit} (sound : ns.Sound)
    (hfile : ns.table.tree.file id = some file)
    (held : file.writer = some holder)
    (refuses : ns.Refuses id holder edit.call error) :
    Outcome.error? (apply edit ns) = some error := by
  by_cases plain : edit.begun? = none
  · rw [Edit.apply_eq_run plain]
    exact error?_of_refuses sound hfile held refuses
  · cases edit with
    | addBlock path client block targets =>
      cases refuses with
      | addBlock located last other targets =>
        subst last
        exact Outcome.error?_eq_some.2
          ⟨_, addBlockAs_of_other sound located hfile held other⟩
    | _ => exact absurd rfl plain

end Namespace

end QuotaTree
