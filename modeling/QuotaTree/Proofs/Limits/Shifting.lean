/-
Quotas and moves.  A move asks the quotas for the usage of the whole subtree
before it changes anything, and only those of the directories that the subtree
is not below already; nothing that comes after the check is refused by a quota.
-/
import QuotaTree.Proofs.Faults.Arranging
import QuotaTree.Proofs.Limits.Verify
import QuotaTree.Proofs.Tree.Shared

namespace QuotaTree

open Nodes Transaction

namespace Chain

variable {view : View} {nodes : Nodes} {growth : Counts} {chain : Chain}
  {chains : List Chain} {top : InodeId}

/-- The exempt inode and those above it are not asked. -/
theorem verifyEach_exempt (view : View) (growth : Counts) (top : InodeId)
    (chains : List Chain) :
    verifyEach view growth (some top) chains = verifyEach view growth none
      (chains.takeWhile fun above => above.last ≠ top) := by
  induction chains with
  | nil => rfl
  | cons chain above ih =>
    by_cases h : chain.last = top
    · simp [verifyEach, h]
    · rw [List.takeWhile_cons_of_pos (by simpa using h), verifyEach, verifyEach,
        ih, if_neg (by simpa using h), if_neg (by simp)]

theorem verifyQuota_exempt_eq (reads : view.Reads nodes)
    (readable : ∀ above ∈ chain.ancestry, above.Readable view) :
    verifyQuota view chain chain.length growth (some top) =
      match refusal nodes growth (chain.beneath top) with
      | some exceeded => .error (.quotaExceeded exceeded)
      | none => .ok () := by
  rw [verifyQuota, upTo_of_length_le (Nat.le_refl _), verifyEach_exempt]
  split
  next =>
    refine verifyEach_eq reads fun above h => ?_
    exact readable above (List.takeWhile_subset _ h)
  next h =>
    have hnone : growth.anyPositive = false := by
      rw [← Bool.not_eq_true]
      exact fun hpositive => h ⟨hpositive, chain.length_pos⟩
    rw [refusal_of_not_anyPositive hnone]
    rfl

end Chain

namespace Work

variable {tx : Transaction} {sourceParent parent : Chain} {name entry : Name}
  {id : InodeId} {used : Counts} {source destination : String}
  {exceeded : QuotaExceeded}

/-- A chain that is held can be read from its end up to the root. -/
theorem readable_of_held {chain : Chain} (held : tx.Held chain) :
    ∀ above ∈ chain.ancestry, above.Readable tx.view := by
  intro above habove
  obtain ⟨allows, inode, live⟩ := (held.of_mem_ancestry habove).last
  exact ⟨inode, view_get_eq_ok.2 ⟨allows, live⟩⟩

/-- A move is refused for a quota exactly if one of the directories that gain
the subtree has no room for it; the refusal is that of the deepest of them. -/
theorem error_of_move_iff (ready : tx.Ready) (keeps : tx.keepsQuota = true)
    (entered : tx.tree.entryAt sourceParent.last entry = some id)
    (held : tx.Held (sourceParent.child entry id)) (target : tx.Held parent)
    (below : ∀ x, tx.tree.Under id x → tx.Allows x .read)
    (own : tx.Allows id .write) (loses : tx.Allows sourceParent.last .write)
    (gains : tx.Allows parent.last .write)
    (husage : tx.view.usage id = .ok used) :
    (∃ tx', move (sourceParent.child entry id) sourceParent parent name tx =
      .error (.quotaExceeded exceeded) tx') ↔
      Chain.refusal tx.tree used
        (parent.beneath ((sourceParent.child entry id).commonAncestor parent)) =
        some exceeded := by
  have verified := @Chain.verifyQuota_exempt_eq _ _ used parent
    ((sourceParent.child entry id).commonAncestor parent) ready.reads
    (readable_of_held target)
  constructor
  · rintro ⟨tx', h⟩
    refine @fails_move tx sourceParent parent entry name id (fun error =>
      ∀ exceeded, error = .quotaExceeded exceeded → _ = some exceeded) ready
      entered held target below own loses gains ?_ ?_ _ tx' h exceeded rfl
    · rintro again error hagain _ herror exceeded rfl
      obtain rfl := Except.ok.inj (husage.symm.trans hagain)
      rw [verified] at herror
      split at herror
      next refused hrefused =>
        rw [hrefused]
        cases herror
        rfl
      next => cases herror
    · rintro error _ hquota exceeded rfl
      cases hquota
  · intro hrefusal
    rw [hrefusal] at verified
    obtain ⟨ids, hids, _⟩ := ready.reads.usage husage
    have hused : usage id tx = .ok used tx := read_of_ok husage
    have hlisted : subtree id tx = .ok ids tx := read_of_ok hids
    refine ⟨tx,
      (Outcome.bind_of_ok hused).trans ((Outcome.bind_of_ok hlisted).trans ?_)⟩
    refine (Outcome.bind_of_ok (pendingFor_eq_ok.2 ⟨rfl, rfl⟩)).trans
      (Outcome.get_bind.trans ?_)
    dsimp only
    rw [if_pos keeps]
    exact Outcome.bind_of_error (read_of_error verified)

/-- Where the path leads is where the inode is moved. -/
theorem destination_of_into {inode : Inode}
    (into : Into tx.view destination id entry parent name)
    (found : tx.view.get parent.last = .ok inode) :
    ∃ rest, Chain.resolveExisting tx.view destination false =
        .ok (parent, rest) ∧
      Work.destination (sourceParent.child entry id) parent rest
        inode.isDirectory destination = .ok (.into parent name) := by
  cases into with
  | missing resolves => exact ⟨[name], resolves, rfl⟩
  | present resolves other again directory =>
    obtain rfl := Except.ok.inj (found.symm.trans again)
    refine ⟨[], resolves, ?_⟩
    rw [Work.destination, if_neg (by exact other), if_pos directory]
    rfl

theorem Into.resolves {view : View}
    (into : Into view destination id entry parent name) :
    ∃ rest, Chain.resolveExisting view destination false =
        .ok (parent, rest) := by
  cases into with
  | missing resolves => exact ⟨_, resolves⟩
  | present resolves => exact ⟨_, resolves⟩

/-- What renaming does once it is known where to. -/
theorem renamePath_eq {inode : Inode}
    (leaves : Chain.resolve tx.view source false =
      .ok (sourceParent.child entry id))
    (into : Into tx.view destination id entry parent name)
    (found : tx.view.get parent.last = .ok inode)
    (outside : parent.contains id = false)
    (apart : ¬ (parent.last = sourceParent.last ∧ name = entry)) :
    renamePath source destination tx =
      (move (sourceParent.child entry id) sourceParent parent name >>= fun _ =>
        journal (.rename source destination)) tx := by
  obtain ⟨rest, resolves, hplace⟩ := @destination_of_into tx sourceParent parent
    name entry id destination inode into found
  have hget : get parent.last tx = .ok inode tx := read_of_ok found
  have hdestination :
      (ofExcept (Work.destination (sourceParent.child entry id) parent rest
        inode.isDirectory destination) : Work Destination) tx =
        .ok (.into parent name) tx := Outcome.ofExcept_eq_ok.2 ⟨hplace, rfl⟩
  refine (Outcome.bind_of_ok (read_of_ok leaves)).trans ?_
  refine (Outcome.bind_of_ok (read_of_ok resolves)).trans ?_
  refine (Outcome.bind_of_ok hget).trans
    ((Outcome.bind_of_ok hdestination).trans ?_)
  simp only [Chain.last_child, outside, Bool.false_eq_true, if_false]
  exact congrFun (if_neg apart) tx

end Work

end QuotaTree
