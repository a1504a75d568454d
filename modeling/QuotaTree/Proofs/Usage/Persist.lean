/-
Between two moments at which what quotas have cached is brought up to date, what
is settled in the subtree of a directory does not change, wherever it is moved
and whatever is done below it; and nothing but itself is settled in a new
directory.
-/
import QuotaTree.Proofs.Usage.Effect

namespace QuotaTree

open Nodes

namespace Nodes

def IsDirectory (nodes : Nodes) (id : InodeId) : Prop :=
  ∃ inode, nodes id = some inode ∧ inode.isDirectory = true

theorem Alike.isDirectory {nodes after : Nodes} (alike : nodes.Alike after)
    {id : InodeId} (h : after.IsDirectory id) : nodes.IsDirectory id := by
  obtain ⟨inode, live, hdirectory⟩ := h
  obtain ⟨old, hold, same⟩ := alike.symm.live live
  exact ⟨old, hold, same.isDirectory.trans hdirectory⟩

end Nodes

namespace Books

/-- What is settled in the subtree of a directory is what was settled there, or
the directory is a new one that counts itself alone. -/
structure Persists (books after : Books) : Prop where
  next : books.next.val ≤ after.next.val
  sums : ∀ {top total}, after.nodes.IsDirectory top → after.Sums top total →
    books.nodes.IsDirectory top ∧ books.Sums top total ∨
      books.next.val ≤ top.val ∧ total = Counts.oneInode

theorem Persists.refl (books : Books) : books.Persists books :=
  ⟨Nat.le_refl _, fun hdirectory sums => .inl ⟨hdirectory, sums⟩⟩

theorem Persists.trans {first second third : Books}
    (early : first.Persists second) (late : second.Persists third) :
    first.Persists third where
  next := early.next.trans late.next
  sums hdirectory hsums := by
    rcases late.sums hdirectory hsums with ⟨hdirectory, hsums⟩ | ⟨hnew, htotal⟩
    · exact early.sums hdirectory hsums
    · exact .inr ⟨early.next.trans hnew, htotal⟩

end Books

variable {books after : Books}

/-- While quotas are kept, every change of the tree lets persist what is
settled. -/
theorem Change.persists (change : Change true books after)
    (sound : books.Sound) : books.Persists after where
  next := change.next_le
  sums := by
    intro top total hdirectory hsums
    obtain ⟨inode, live, hinode⟩ := hdirectory
    cases change with
    | skip => exact .inl ⟨⟨inode, live, hinode⟩, hsums⟩
    | adjust recast =>
      exact .inl ⟨recast.alike.isDirectory ⟨inode, live, hinode⟩,
        sums_adjust recast hsums⟩
    | link ins _ _ _ unused =>
      rcases ins.live live with ⟨rfl, rfl⟩ | ⟨hne, old, hold, same⟩
      · refine .inr ⟨unused, ?_⟩
        rw [sums_linked ins sound hsums, Inode.ownUsage_eq,
          Inode.asFile_of_directory hinode]
        rfl
      · exact .inl ⟨⟨old, hold, same.isDirectory ▸ hinode⟩,
          sums_link ins sound hne hsums⟩
    | prune pruning spans =>
      obtain ⟨hkept, old, hold, same⟩ := pruning.live live
      exact .inl ⟨⟨old, hold, same.isDirectory ▸ hinode⟩,
        sums_prune pruning spans sound hkept hsums⟩
    | relocate rel _ _ spans =>
      obtain ⟨old, hold, _, hkind⟩ := rel.live_old live
      exact .inl
        ⟨⟨old, hold, hkind ▸ hinode⟩, sums_relocate rel spans sound hsums⟩

theorem Refile.persists (refile : Refile true books after)
    (shaped : books.Shaped) (fits : books.Fits) (fits' : after.Fits) :
    books.Persists after where
  next := (@Effect.refile true false books after refile).next_le
  sums := by
    intro top total hdirectory hsums
    left
    constructor
    · obtain ⟨live, content, _, _⟩ := refile
      exact (alike_set live (Refile.alike_withFile content _)).isDirectory
        hdirectory
    · obtain ⟨inode, live, hinode⟩ := hdirectory
      exact refile.sums shaped fits fits'
        ((file_of_live live).trans (Inode.asFile_of_directory hinode)) hsums

/-- What is settled persists as long as what is cached is not brought up to
date. -/
theorem Effect.persists (effect : Effect true false books after)
    (sound : books.Sound) (shaped : books.Shaped) (fits : books.Fits)
    (fits' : after.Fits) : books.Persists after := by
  cases effect with
  | changes changes =>
    have hboth : after.Sound ∧ books.Persists after := by
      clear fits'
      induction changes with
      | refl => exact ⟨sound, .refl books⟩
      | tail _ change ih =>
        exact ⟨change.sound ih.1, ih.2.trans (change.persists ih.1)⟩
    exact hboth.2
  | refile refile => exact refile.persists shaped fits fits'
  | mended h => cases h

end QuotaTree
