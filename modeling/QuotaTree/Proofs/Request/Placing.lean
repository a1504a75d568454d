/-
Everything that is pending is pending at an inode that is there.  Usage is only
entered at such inodes, and when one is taken out what is pending at it goes
with it.
-/
import QuotaTree.Proofs.Request.Following
import QuotaTree.Proofs.Request.Lasting
import QuotaTree.Proofs.Settling
import QuotaTree.Proofs.Usage.Entries
import QuotaTree.Proofs.Work.Strokes

namespace QuotaTree

open Nodes

namespace Work

open Transaction

variable {α : Type} {holds : Transaction → Prop}

theorem FileDeed.preserves {work : Chain → Work α} (enduring : Enduring holds)
    (deed : FileDeed work) (chain : Chain) :
    Preserves (Anchoring holds chain) (work chain) := by
  cases deed with
  | addBlock client block targets => exact enduring.addBlockAt _ _
  | abandon client block => exact enduring.abandonAt _
  | complete client lastLength => exact enduring.completeAt _
  | append writer => exact enduring.appendAt _
  | writeInline client length => exact enduring.writeInlineAt _
  | truncate path length => exact enduring.truncateAt _

/-- What every stroke keeps is kept by all that requests do to the tree. -/
theorem Deed.preserves {settable : Prop} {work : Work α}
    (enduring : Enduring holds) (deed : Deed settable work) :
    Preserves holds work := by
  cases deed with
  | makePath path permission => exact enduring.makePath _ _
  | createFile path options replication blockSize =>
    exact enduring.createFile _ _ _ _
  | symlinkPath target link permission createParent =>
    exact enduring.symlinkPath _ _ _ _
  | deletePath path recursive => exact enduring.deletePath _ _
  | renamePath source destination => exact enduring.renamePath _ _
  | changeLimits path edit set admissible => exact enduring.changeLimits _ _ _
  | setPolicy path policy => exact enduring.setPolicy _
  | setReplication path replication => exact enduring.setReplication _
  | atFile path following deed =>
    exact preserves_atChain _ _ (deed.preserves enduring)
  | mergeAll ids => exact enduring.mergeAll ids
  | recountAll => exact enduring.recountAll

end Work

namespace Transaction

variable {tx : Transaction}

/-- All that is entered is for inodes that are there, and so is all that is
listed, or it is to be withdrawn. -/
structure Placed (tx : Transaction) : Prop where
  updates : ∀ entry ∈ tx.updates, (tx.tree entry.1).isSome
  listed : ∀ update ∈ tx.base.ledger.toList,
    update.inode ∈ tx.withdrawn ∨ (tx.tree update.inode).isSome

theorem enduring_placed : Enduring Placed := by
  intro tx tx' stroke placed
  cases stroke with
  | store inode =>
    exact ⟨fun entry h => isSome_stored (placed.updates entry h),
      fun update h => (placed.listed update h).imp_right isSome_stored⟩
  | enter live delta =>
    refine ⟨fun entry h => ?_, placed.listed⟩
    rw [accounted_updates] at h
    split at h
    next =>
      rcases List.mem_append.1 h with hold | hnew
      · exact placed.updates entry hold
      · rwa [List.mem_singleton.1 hnew]
    next => exact placed.updates entry h
  | takeOut ids =>
    have htree {id : InodeId} (h : id ∉ ids) :
        ((tx.removedAll ids.reverse).withdrawing ids).tree id = tx.tree id := by
      rw [tree_withdrawing, tree_removedAll, if_neg (mt List.mem_reverse.1 h)]
    -- what has been entered at the inodes goes with them, and what is listed is
    -- withdrawn
    refine ⟨fun entry h => ?_, fun update h => ?_⟩
    · obtain ⟨hentry, hkept⟩ := List.mem_filter.1 h
      rw [htree (of_decide_eq_true hkept)]
      exact placed.updates entry hentry
    · by_cases hgone : update.inode ∈ ids
      · exact .inl (List.mem_append_right _ hgone)
      · rw [htree hgone]
        exact (placed.listed update h).imp_left (List.mem_append_left _)
  | allocate next => exact ⟨placed.updates, placed.listed⟩
  | journal edit => exact ⟨placed.updates, placed.listed⟩
  | settle numbers => exact ⟨placed.updates, placed.listed⟩
  | clear => exact ⟨placed.updates, placed.listed⟩

/-- What the ledger lists afterwards is for inodes that are there. -/
theorem Placed.live_of_ledgerAfter (placed : tx.Placed)
    (sound : tx.base.ledger.Sound) {update : QuotaUpdate}
    (h : update ∈ tx.ledgerAfter.toList) : (tx.tree update.inode).isSome := by
  have hentered : (∃ entry ∈ tx.updates, entry.1 = update.inode) →
      (tx.tree update.inode).isSome := by
    rintro ⟨entry, hentry, hinode⟩
    exact hinode ▸ placed.updates entry hentry
  unfold ledgerAfter at h
  split at h
  next =>
    refine (((Ledger.sound_clear _).mem_submitAll tx.updates).2 update h).elim
      (fun hold => ?_) hentered
    rw [(Ledger.sound_clear _).mem_toList] at hold
    simp [Ledger.clear] at hold
  next =>
    have hremoved := (sound.remove tx.merged).1
    refine (((hremoved.withdrawAll tx.withdrawn).1.mem_submitAll tx.updates).2
      update h).elim (fun hold => ?_) hentered
    obtain ⟨hleft, hkept⟩ := hremoved.mem_withdrawAll.1 hold
    exact (placed.listed update (sound.mem_remove.1 hleft).1).resolve_left hkept

end Transaction

namespace Namespace

variable {ns : Namespace}

/-- The ledger is in order, and every update in it is for an inode that is
there. -/
structure Placed (ns : Namespace) : Prop where
  ledger : ns.ledger.Sound
  live : ∀ update ∈ ns.ledger.toList, (ns.table.find? update.inode).isSome

theorem lasting_placed : Lasting True Placed where
  beside {ns ns'} beside placed := by
    refine ⟨beside.ledger ▸ placed.ledger, fun update h => ?_⟩
    rw [beside.ledger] at h
    rw [InodeTable.find?, beside.nodes]
    exact placed.live update h
  dropping ids placed :=
    ⟨(placed.ledger.withdrawAll ids).1, fun update h =>
      placed.live update (placed.ledger.mem_withdrawAll.1 h).1⟩
  done {_ _ ns operation locks a tx} deed _ placed h := by
    have ext := deed.frames.extends_of_ok h
    have hopened : (ns.opened operation locks).Placed := by
      refine ⟨fun _ h => absurd h List.not_mem_nil, fun update h => .inr ?_⟩
      rw [tree_opened]
      exact placed.live update h
    have hplaced :=
      (deed.preserves Transaction.enduring_placed _ a tx hopened h).1
    have hsound : tx.base.ledger.Sound := ledger_of_extends ext ▸ placed.ledger
    refine ⟨ledger_commit tx ▸ (Transaction.sound_ledgerAfter hsound).1,
      fun update hupdate => ?_⟩
    rw [ledger_commit] at hupdate
    change (tx.commit.table.tree update.inode).isSome
    rw [tree_commit ext]
    exact hplaced.live_of_ledgerAfter hsound hupdate

theorem placed_fresh (config : Config) : (fresh config).Placed where
  ledger := (sound_fresh config).ledger
  live _ h := by
    rw [(sound_fresh config).ledger.mem_toList] at h
    cases h

end Namespace

end QuotaTree
