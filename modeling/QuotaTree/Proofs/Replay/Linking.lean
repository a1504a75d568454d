/-
Putting inodes below directories and taking them out, done again on a matching
tree.
-/
import QuotaTree.Proofs.Replay.Mirror

namespace QuotaTree

theorem Inode.Matches.blocks {p : Pairing} {inode inode' : Inode}
    (inodes : inode.Matches p inode') : inode.blocks = inode'.blocks := by
  unfold Inode.blocks
  rw [inodes.asFile]

namespace Work

namespace Repeats

variable {p : Pairing} {chain chain' parent parent' : Chain}
  {inode inode' : Inode} {a b : InodeId} {name : Name}

theorem dropEntry (ids : p a b) (name : Name) :
    Repeats p (fun _ _ => True) [] (Work.dropEntry a name)
      (Work.dropEntry b name) :=
  (get ids).bind fun inodes => put (inodes.withoutChild name)

theorem detach (ids : p a b) (name : Name) :
    Repeats p (fun _ _ => True) [] (Work.detach a name)
      (Work.detach b name) := by
  refine (get ids).bind fun {holder holder'} inodes => ?_
  rw [inodes.isDirectory]
  refine ite (fun _ => put (inodes.withoutChild name)) fun _ => ?_
  simp only [Outcome.throw_bind]
  exact throw _ _

theorem link (parents : parent.Matches p parent')
    (inodes : inode.Matches p inode') (counts counts' : Counts)
    (checked : Bool) :
    Repeats p (Chain.Matches p) [] (Work.link parent inode counts checked)
      (Work.link parent' inode' counts' checked) := by
  unfold Work.link
  simp only [Outcome.throw_bind, parents.length, inodes.name]
  refine ite (fun _ => throw _ _) fun _ => ?_
  refine (get parents.last).bind fun {holder holder'} holders => ?_
  have hkind := holders.isDirectory
  unfold Inode.isDirectory at hkind ⊢
  have hdirectory := holders.asDirectory
  generalize holder.asDirectory = found at hkind hdirectory ⊢
  generalize holder'.asDirectory = found' at hkind hdirectory ⊢
  cases hdirectory with
  | none => exact throw _ _
  | @some directory directory' directories =>
    have linked :
        Inode.Matches p
          { inode with name := inode'.name, parent := some parent.last }
          { inode' with parent := some parent'.last } :=
      ⟨inodes.id, rfl, .some parents.last, inodes.permission, inodes.content⟩
    simp only [directories.contains, Option.isSome_some, if_true]
    refine ite (fun _ => (verifyEntry _ _ _ _).bind fun _ => ?_) fun _ => ?_
    all_goals
      refine (account _ _ _ _ _ _ _ _).bind fun _ => ?_
      refine ite (fun _ => (account _ _ _ _ _ _ _ _).bind fun _ => throw _ _)
        fun _ => ?_
      refine (put (holders.withDirectory (directories.insert inodes.id))).bind
        fun _ => ?_
      refine (put linked).bind fun _ => ?_
      exact pure (.child parents inodes.id)

theorem linkNew (parents : parent.Matches p parent')
    (inodes : inode.Matches p inode') :
    Repeats p (Chain.Matches p) [] (Work.linkNew parent inode)
      (Work.linkNew parent' inode') :=
  link parents inodes _ _ true

theorem unlink (chains : chain.Matches p chain') (moving : Bool)
    (given given' : Option Counts) (same : given.isSome = given'.isSome) :
    Repeats p (fun _ _ => True) [] (Work.unlink chain moving given)
      (Work.unlink chain' moving given') := by
  cases chains with
  | root => exact throw _ _
  | @child parent parent' name a b parents ids =>
    unfold Work.unlink
    simp only [Chain.parent?_child, Chain.last_child, Chain.lastName_child]
    refine (subtree ids).bind fun {xs ys} lists => ?_
    cases given <;> cases given' <;> cases same
    all_goals
      -- the usage is found in the tree, or it is given
      first
        | refine (usage ids).bind fun _ => ?_
        | refine bind (Q := fun _ _ => True) (pure trivial) fun _ => ?_
      refine (pendingFor _ _).bind fun _ => ?_
      refine (accountAbove _ _ _ _ _ _).bind fun _ => ?_
      refine ite (fun _ => pure trivial) fun _ => ?_
      refine (dropEntry parents.last name).bind fun _ => ?_
      exact (removeAll (List.rel_reverse lists)).bind
        fun _ => (withdraw _ _).bind fun _ =>
        pure trivial

theorem unlinkLeaf (chains : chain.Matches p chain') :
    Repeats p (Inode.Matches p) [] (Work.unlinkLeaf chain)
      (Work.unlinkLeaf chain') := by
  cases chains with
  | root => exact throw _ _
  | @child parent parent' name a b parents ids =>
    unfold Work.unlinkLeaf
    simp only [Chain.parent?_child, Chain.last_child, Chain.lastName_child,
      Outcome.throw_bind]
    refine (get ids).bind fun inodes => ?_
    simp only [ne_eq, inodes.entries_eq_nil_iff]
    refine ite (fun _ => throw _ _) fun _ => ?_
    refine (pendingFor _ _).bind fun _ => ?_
    refine (accountAbove _ _ _ _ _ _).bind fun _ => ?_
    refine (dropEntry parents.last name).bind fun _ => ?_
    refine (remove ids).bind fun _ => ?_
    exact (withdraw _ _).bind fun _ => pure inodes

theorem prune (depth : Nat) (chains : chain.Matches p chain') :
    Repeats p Eq [] (Work.prune depth chain) (Work.prune depth chain') := by
  induction depth generalizing chain chain' with
  | zero => exact throw _ _
  | succ depth ih =>
    unfold Work.prune
    refine (get chains.last).bind fun {inode inode'} inodes => ?_
    refine bind (Q := List.Forall₂ Eq) (mapM inodes.entries
      fun {entry entry'} hentry => ?_) fun hblocks => pure ?_
    · obtain ⟨name, a⟩ := entry
      obtain ⟨name', b⟩ := entry'
      obtain ⟨rfl, ids⟩ := hentry
      have children :
          Chain.Matches p (chain.child name a) (chain'.child name b) :=
        .child chains ids
      refine (ih children).bind fun hdeeper => ?_
      refine (unlinkLeaf children).bind fun removed => ?_
      refine pure ?_
      rw [hdeeper, removed.blocks]
    · rw [List.forall₂_eq_eq_eq] at hblocks
      rw [hblocks]

theorem deleteTree (chains : chain.Matches p chain') (path : String)
    (recursive : Bool) :
    Repeats p Eq [.delete path recursive] (Work.deleteTree chain path recursive)
      (Work.deleteTree chain' path recursive) := by
  unfold Work.deleteTree
  simp only [Outcome.throw_bind, chains.length]
  refine ite (fun _ => throw _ _) fun _ => ?_
  refine (get chains.last).bind fun inodes => ?_
  simp only [ne_eq, inodes.entries_eq_nil_iff]
  refine ite (fun _ => throw _ _) fun _ => ?_
  refine maxDepth.bind fun hdepth => ?_
  subst hdepth
  refine (prune _ chains).bind fun hbelow => ?_
  refine (unlink chains false none none rfl).bind fun _ => ?_
  refine (journal _ _).bind fun _ => pure ?_
  rw [hbelow, inodes.blocks]

end Repeats

end Work

end QuotaTree
