/-
Deleting and renaming: a subtree is taken out, or moved as a whole.
-/
import QuotaTree.Proofs.Request.Rules
import QuotaTree.Proofs.Work.Move
import QuotaTree.Proofs.Work.Prune

namespace QuotaTree

open Work Transaction

namespace Work

variable {tx tx' : Transaction} {path source destination : String}
  {recursive : Bool}

theorem Frames.deletePath (path : String) (recursive : Bool) :
    Frames (deletePath path recursive) := by
  refine bind (read _) fun found => ?_
  obtain ⟨chain, rest⟩ := found
  cases rest with
  | nil => exact map (deleteTree _ _ _)
  | cons => exact pure _

theorem turns_deletePath {answer : Option (List Block)} (ready : tx.Ready)
    (h : deletePath path recursive tx = .ok answer tx') : tx.Turns tx' := by
  simp only [deletePath, Outcome.bind_eq_ok, read_eq_ok, Prod.exists] at h
  obtain ⟨chain, rest, _, ⟨hresolve, rfl⟩, h⟩ := h
  cases rest with
  | nil =>
    rw [Outcome.map_eq_ok] at h
    obtain ⟨blocks, hdelete, _⟩ := h
    exact turns_deleteTree ready
      (Chain.Leads.resolveExisting ready.reads hresolve) hdelete
  | cons =>
    obtain ⟨_, rfl⟩ := Outcome.pure_eq_ok.1 h
    exact .refl _

theorem Frames.renamePath (source destination : String) :
    Frames (renamePath source destination) := by
  refine bind (read _) fun sourceChain => ?_
  cases sourceChain with
  | root => exact throw _
  | child sourceParent entry id =>
    refine bind (read _) fun found => ?_
    refine bind (read _) fun inode => ?_
    refine bind (ofExcept _) ?_
    intro place
    cases place with
    | here => exact pure _
    | into parent name =>
      refine ite (throw _) (ite (pure _) ?_)
      exact bind (move _ _ _ _) fun _ => journal _

/-- Where a path leads an inode that is called `own`: into a directory, under
the name that is missing there at the end of the path, or under its own if the
directory itself is at the end. -/
inductive Into (view : View) (path : String) (id : InodeId) (own : Name)
    (chain : Chain) : Name → Prop
  | missing {name : Name}
      (resolves : Chain.resolveExisting view path false = .ok (chain, [name])) :
    Into view path id own chain name
  | present {inode : Inode}
      (resolves : Chain.resolveExisting view path false = .ok (chain, []))
      (other : chain.last ≠ id) (found : view.get chain.last = .ok inode)
      (directory : inode.isDirectory = true) : Into view path id own chain own

/-- What renaming comes to when it succeeds. -/
inductive Renames (tx : Transaction) (source destination : String) :
    Transaction → Prop
  /-- The inode is at its destination. -/
  | here {parent chain : Chain} {entry : Name} {id : InodeId}
      (leaves : Chain.resolve tx.view source false =
        .ok (parent.child entry id))
      (resolves : Chain.resolveExisting tx.view destination false =
        .ok (chain, []))
      (same : chain.last = id) : Renames tx source destination tx
  /-- It would come back to where it is. -/
  | back {parent chain : Chain} {entry : Name} {id : InodeId}
      (leaves : Chain.resolve tx.view source false =
        .ok (parent.child entry id))
      (into : Into tx.view destination id entry chain entry)
      (same : chain.last = parent.last) : Renames tx source destination tx
  | moved {parent chain : Chain} {entry name : Name} {id : InodeId}
      {mid : Transaction}
      (leaves : Chain.resolve tx.view source false =
        .ok (parent.child entry id))
      (into : Into tx.view destination id entry chain name)
      (outside : chain.contains id = false)
      (apart : ¬ (chain.last = parent.last ∧ name = entry))
      (moves : move (parent.child entry id) parent chain name tx = .ok () mid) :
    Renames tx source destination (mid.journaled (.rename source destination))

section Renaming

variable {chain parent : Chain} {id : InodeId} {own name : Name}
  {rest : List Name} {view : View}

theorem Into.leads {nodes : Nodes} (into : Into view path id own chain name)
    (reads : view.Reads nodes) : Chain.Leads nodes chain := by
  cases into with
  | missing resolves => exact .resolveExisting reads resolves
  | present resolves => exact .resolveExisting reads resolves

theorem Into.proper (into : Into view path id own chain name)
    (named : own.Proper) : name.Proper := by
  cases into with
  | missing resolves =>
    exact Chain.proper_of_missing resolves name List.mem_cons_self
  | present => exact named

/-- The destination that is chosen is where the path leads. -/
theorem into_of_destination {inode : Inode} {into : Chain}
    (resolves : Chain.resolveExisting view path false = .ok (chain, rest))
    (found : view.get chain.last = .ok inode)
    (h : Work.destination (parent.child own id) chain rest inode.isDirectory
      path = .ok (.into into name)) :
    into = chain ∧ Into view path id own chain name := by
  unfold Work.destination at h
  split at h
  next =>
    split at h
    next => cases h
    next hother =>
      split at h
      next hdirectory =>
        cases h
        exact ⟨rfl, .present resolves hother found hdirectory⟩
      next => cases h
  next =>
    cases h
    exact ⟨rfl, .missing resolves⟩
  next => cases h

theorem here_of_destination {source : Chain} {isDirectory : Bool}
    (h : Work.destination source chain rest isDirectory path = .ok .here) :
    rest = [] ∧ chain.last = source.last := by
  unfold Work.destination at h
  split at h
  next =>
    split at h
    next hsame => exact ⟨rfl, hsame⟩
    next => split at h <;> cases h
  next => cases h
  next => cases h

theorem renames_of_ok {done : Unit}
    (h : renamePath source destination tx = .ok done tx') :
    Renames tx source destination tx' := by
  simp only [renamePath, Outcome.bind_eq_ok, read_eq_ok] at h
  obtain ⟨sourceChain, _, ⟨leaves, rfl⟩, h⟩ := h
  cases sourceChain with
  | root => simp [Chain.parent?] at h
  | child parent entry id =>
    simp only [Chain.parent?_child, Outcome.bind_eq_ok, Work.get, read_eq_ok,
      Outcome.ofExcept_eq_ok, Prod.exists] at h
    obtain ⟨chain, rest, _, ⟨resolves, rfl⟩, inode, _, ⟨found, rfl⟩, place, _,
      ⟨hplace, rfl⟩, h⟩ := h
    cases place with
    | here =>
      obtain ⟨_, rfl⟩ := Outcome.pure_eq_ok.1 h
      obtain ⟨rfl, same⟩ := here_of_destination hplace
      exact .here leaves resolves same
    | into target name =>
      obtain ⟨rfl, into⟩ := into_of_destination resolves found hplace
      rw [Chain.last_child, Chain.lastName_child, Outcome.ite_eq_ok] at h
      simp only [Outcome.throw_bind, Outcome.ite_eq_ok, Outcome.bind_eq_ok,
        Outcome.pure_eq_ok, journal_eq_ok] at h
      split at h
      next => simp at h
      next outside =>
        split at h
        next same =>
          obtain ⟨same, rfl⟩ := same
          exact h.2 ▸ .back leaves into same
        next apart =>
          obtain ⟨_, mid, moves, rfl⟩ := h
          exact .moved leaves into
            (Bool.eq_false_of_not_eq_true outside) apart moves

theorem turns_renamePath {done : Unit} (ready : tx.Ready)
    (h : renamePath source destination tx = .ok done tx') : tx.Turns tx' := by
  cases renames_of_ok h with
  | here => exact .refl _
  | back => exact .refl _
  | moved leaves into outside apart moves =>
    cases Chain.Leads.resolve ready.reads leaves with
    | child above entered =>
      have named := into.proper (ready.sound.named entered)
      exact (turns_move ready entered
        (into.leads ready.reads) outside named moves).trans (.journaled _ _)

end Renaming

end Work

namespace Namespace

theorem drifting_delete (path : String) (recursive : Bool) :
    Drifting (delete path recursive) := by
  refine (Quiet.resolvePath path).drifting.bind fun path => ?_
  refine .bind (.transact (.deletePath _ _) turns_deletePath) fun deleted => ?_
  cases deleted with
  | none => exact (Quiet.pure false).drifting
  | some blocks =>
    exact ((Quiet.releaseBlocks blocks).bind fun _ => .pure true).drifting

theorem drifting_rename (source destination : String) :
    Drifting (rename source destination) :=
  (Quiet.resolvePath source).drifting.bind fun _ =>
    (Quiet.resolvePath destination).drifting.bind fun _ =>
      .transact (.renamePath _ _) turns_renamePath

end Namespace

end QuotaTree
