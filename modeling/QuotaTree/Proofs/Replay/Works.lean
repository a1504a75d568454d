/-
The pieces of work that requests are made of, done again on a matching tree.
-/
import QuotaTree.Proofs.Replay.Linking
import QuotaTree.Request.Write

namespace QuotaTree

open Outcome (Mirrors)

namespace Work

namespace Repeats

variable {p : Pairing} {chain chain' parent parent' source source' : Chain}
  {α β : Type} {Q : α → β → Prop} {edits : List Edit}

theorem makeDirectories (permission : Permission)
    (chains : chain.Matches p chain') (names : List Name) :
    Repeats p (Chain.Matches p) [] (Work.makeDirectories permission chain names)
      (Work.makeDirectories permission chain' names) := by
  induction names generalizing chain chain' with
  | nil => exact pure chains
  | cons name rest ih =>
    refine alloc.bind fun {a b} ids => ?_
    have inodes :
        Inode.Matches p { id := a, name, permission, content := .directory {} }
          { id := b, name, permission, content := .directory {} } :=
      ⟨ids, rfl, .none, rfl, .directory ⟨fun x => by simp, rfl, rfl⟩⟩
    exact (linkNew chains inodes).bind fun chains => ih chains

theorem makeFile (parents : parent.Matches p parent') (name : Name)
    (permission : Permission) (replication blockSize : Nat) (writer : Writer) :
    Repeats p (Chain.Matches p) []
      (Work.makeFile parent name permission replication blockSize writer)
      (Work.makeFile parent' name permission replication blockSize writer) := by
  refine (read fun views => Chain.mirrors_policy views parents).bind
    fun hpolicy => ?_
  subst hpolicy
  refine alloc.bind fun {a b} ids => ?_
  exact linkNew parents ⟨ids, rfl, .none, rfl, .file _⟩

theorem replaceFile (chains : chain.Matches p chain') (path : String)
    (overwrite : Bool) :
    Repeats p Eq [] (Work.replaceFile chain path overwrite)
      (Work.replaceFile chain' path overwrite) := by
  refine (get chains.last).bind fun inodes => ?_
  rw [inodes.asFile]
  split
  · exact throw _ _
  · split
    · exact throw _ _
    · refine ite (fun _ => ?_) fun _ => throw _ _
      exact (unlink chains false none none rfl).bind fun _ => pure rfl

theorem leased (chains : chain.Matches p chain') (client : String) :
    Repeats p (Inode.Matches p) [] (Work.leased chain client)
      (Work.leased chain' client) := by
  refine (get chains.last).bind fun {inode inode'} inodes => ?_
  have hlease : Mirrors Eq (checkLease chain inode.asFile client)
      (checkLease chain' inode'.asFile client) := by
    unfold checkLease
    rw [inodes.asFile, chains.path]
    exact .refl _
  exact (answer hlease).bind fun _ => pure inodes

theorem leasedFile (chains : chain.Matches p chain') (client : String) :
    Repeats p (fun x y => x.1.Matches p y.1 ∧ x.2 = y.2) []
      (Work.leasedFile chain client) (Work.leasedFile chain' client) := by
  refine (leased chains client).bind fun {inode inode'} inodes => ?_
  rw [inodes.asFile]
  split
  · exact throw _ _
  · exact pure ⟨inodes, rfl⟩

theorem beginBlock (chains : chain.Matches p chain') (block : Block) :
    Repeats p Eq [] (Work.beginBlock chain block)
      (Work.beginBlock chain' block) := by
  refine (get chains.last).bind fun inodes => ?_
  simp only [inodes.asFile, Outcome.throw_bind]
  split
  · exact throw _ _
  · refine ite (fun _ => ?_) fun _ => throw _ _
    refine (accountAbove _ _ _ _ _ _).bind fun _ => ?_
    exact (put (inodes.withFile _)).bind fun _ => pure rfl

theorem dropBlock (chains : chain.Matches p chain') (block : Nat) :
    Repeats p (fun _ _ => True) [] (Work.dropBlock chain block)
      (Work.dropBlock chain' block) := by
  refine (get chains.last).bind fun inodes => ?_
  simp only [inodes.asFile, Outcome.throw_bind]
  split
  · exact throw _ _
  · split
    · exact throw _ _
    · refine ite (fun _ => throw _ _) fun _ => ?_
      exact (put (inodes.withFile _)).bind fun _ => accountAbove _ _ _ _ _ _

theorem dropBlockIfLast (chains : chain.Matches p chain') (block : Nat) :
    Repeats p Eq [] (Work.dropBlockIfLast chain block)
      (Work.dropBlockIfLast chain' block) := by
  refine (get chains.last).bind fun inodes => ?_
  simp only [inodes.asFile]
  refine ite (fun _ => ?_) fun _ => pure rfl
  exact (dropBlock chains block).bind fun _ => pure rfl

/-- A check that is made only where quotas are kept is left out when an edit is
applied again. -/
theorem unchecked {reading reading' : View → Except Error Unit} {rest : Work α}
    {rest' : Work β} (repeats : Repeats p Q edits rest rest') :
    Repeats p Q edits (do
        let tx ← MonadState.get
        if tx.keepsQuota then Work.read reading
        rest)
      (do
        let tx ← MonadState.get
        if tx.keepsQuota then Work.read reading'
        rest') := by
  intro left right matched a left' ha
  have hright : (do
      let tx ← MonadState.get
      if tx.keepsQuota then Work.read reading'
      rest' : Work β) right = rest' right := by
    rw [Outcome.get_bind, if_neg (by simp [matched.keepsQuota])]
  rw [hright]
  rw [Outcome.get_bind, Outcome.when_eq_ok] at ha
  obtain ⟨mid, hcheck, hrest⟩ := ha
  have hmid : mid = left := by
    split at hcheck
    · exact (read_eq_ok.1 hcheck).2
    · exact hcheck
  subst hmid
  exact repeats _ _ matched a left' hrest

theorem move (sources : source.Matches p source')
    {sourceParent sourceParent' : Chain}
    (sourceParents : sourceParent.Matches p sourceParent')
    (parents : parent.Matches p parent') (name : Name) :
    Repeats p (fun _ _ => True) [] (Work.move source sourceParent parent name)
      (Work.move source' sourceParent' parent' name) := by
  unfold Work.move
  refine (usage sources.last).bind fun hused => ?_
  refine (subtree sources.last).bind fun _ => ?_
  subst hused
  refine (pendingFor _ _).bind fun _ => unchecked ?_
  refine (get sources.last).bind fun inodes => ?_
  rw [sources.lastName]
  refine (detach sourceParents.last _).bind fun _ => ?_
  refine (verifyEntry _ _ _ _).bind fun _ => ?_
  refine (unlink sources true (some _) (some _) rfl).bind fun _ => ?_
  refine tryCatch ((link parents (inodes.withName name) _ _ false).bind
    fun _ => pure trivial) ?_
  intro error tx a tx' h
  simp at h

end Repeats

end Work

end QuotaTree
