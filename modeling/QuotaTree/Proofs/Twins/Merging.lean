/-
What a merge does to one of two twins.  It leaves a twin with an empty ledger;
and where nothing is pending any more the twins are the same, since every quota
then shows what its subtree uses.
-/
import QuotaTree.Proofs.Twins.Requests

namespace QuotaTree

namespace Ledger

/-- Nothing is pending: no update is left, and none is listed for any inode. -/
structure Drained (ledger : Ledger) : Prop where
  updates : ledger.updates = ∅
  listed : ∀ inode, ledger.idsOf inode = []

/-- A ledger is empty as soon as nothing is listed. -/
theorem Sound.drained {ledger : Ledger} (sound : ledger.Sound)
    (listed : ∀ inode, ledger.idsOf inode = []) : ledger.Drained where
  listed := listed
  updates := by
    refine Std.ExtTreeMap.ext_getElem? fun id => ?_
    cases hupdate : ledger.updates[id]? with
    | none => simp
    | some update =>
      have hlisted : id ∈ ledger.idsOf update.inode :=
        sound.listed.2 ⟨update, hupdate, rfl⟩
      rw [listed] at hlisted
      cases hlisted

end Ledger

theorem Directory.Matches.eq_of_cached {left right : Directory}
    (directories : left.Matches .same right)
    (cached : ∀ quota quota', left.quota = some quota →
      right.quota = some quota' →
      quota.cached = quota'.cached) :
    left = right := by
  have hchildren : left.children = right.children := Std.ExtTreeMap.ext_getElem?
    fun name => eq_of_rel_same (directories.children name)
  have hquota : left.quota = right.quota := by
    have quotas := rel_of_map_eq directories.limits
    cases hleft : left.quota with
    | none => exact (right_none_of_rel quotas hleft).symm
    | some quota =>
      obtain ⟨quota', hright, same⟩ := exists_right_of_rel quotas hleft
      have hcached := cached quota quota' hleft hright
      cases quota
      cases quota'
      rw [hright]
      exact congrArg some (congrArg₂ Quota.mk same hcached)
  have hpolicy := directories.policy
  cases left
  cases right
  simp_all

/-- Inodes that match and have cached the same usage are the same. -/
theorem Inode.Matches.eq_of_cached {left right : Inode}
    (inodes : left.Matches .same right)
    (cached : ∀ quota quota', left.quota = some quota →
      right.quota = some quota' →
      quota.cached = quota'.cached) :
    left = right := by
  have hcontent : left.content = right.content := by
    rcases inodes.kinds with ⟨directory, directory', h, h', directories⟩ |
      ⟨file, h, h'⟩ | ⟨target, h, h'⟩
    · rw [h, h']
      refine congrArg _
        (directories.eq_of_cached fun quota quota' hquota hquota' => ?_)
      refine cached quota quota' ?_ ?_
      · rw [Inode.quota, Inode.asDirectory_eq_some.2 h]
        exact hquota
      · rw [Inode.quota, Inode.asDirectory_eq_some.2 h']
        exact hquota'
    · rw [h, h']
    · rw [h, h']
  have hparent := eq_of_rel_same inodes.parent
  obtain ⟨hid, hname, _, hpermission, _⟩ := inodes
  cases left
  cases right
  simp_all [Pairing.same]

namespace Namespace

variable {ns twin : Namespace}

/-- What is pending, and how often a reading has paused, makes no difference to
a twin. -/
theorem twins_of_ledger (ns : Namespace) (ledger : Ledger) (pauses : Nat) :
    Twins { ns with ledger, pauses } ns :=
  ⟨Nodes.matches_same _, rfl, rfl, rfl, rfl, rfl, rfl, rfl⟩

/-- A merge leaves a twin. -/
theorem Merged.twins {ns' : Namespace} (merged : ns.Merged ns') :
    ns'.Twins ns := by
  have hnodes : ns'.table.tree.Matches .same ns.table.tree :=
    (Nodes.matches_same _).recached merged.nodes (.refl _)
  have hnext := merged.next
  rw [merged.rest] at hnodes hnext ⊢
  exact ⟨hnodes, hnext, rfl, rfl, rfl, rfl, rfl, rfl⟩

theorem Merged.drained {ns' : Namespace} {count : Nat} (merged : ns.Merged ns')
    (sound : ns.Sound) (h : mergeUpdates ns = .ok count ns') :
    ns'.ledger.Drained := by
  have hsound := stepping_mergeUpdates.sustaining ns sound
  rw [h] at hsound
  exact hsound.ledger.drained merged.listed

/-- Where both have merged everything, what is cached is the same too. -/
theorem Twins.table_eq (twins : ns.Twins twin) (counted : ns.Counted)
    (counted' : twin.Counted) : ns.table = twin.table := by
  have views := InodeTable.view_matches twins.nodes
  refine InodeTable.ext_find? (fun id => ?_) twins.next
  have hrel :
      Option.Rel (Inode.Matches .same) (ns.table.find? id)
        (twin.table.find? id) := twins.nodes.at_pair rfl
  cases hleft : ns.table.find? id with
  | none => exact (right_none_of_rel hrel hleft).symm
  | some inode =>
    obtain ⟨inode', hright, inodes⟩ := exists_right_of_rel hrel hleft
    rw [hright]
    refine congrArg
      some (inodes.eq_of_cached fun quota quota' hquota hquota' => ?_)
    obtain ⟨_, husage, same⟩ :=
      views.usage rfl _ (counted id inode quota hleft hquota)
    cases husage.symm.trans (counted' id inode' quota' hright hquota')
    exact same

end Namespace

end QuotaTree
