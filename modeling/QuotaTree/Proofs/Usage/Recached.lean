/-
Trees that differ only in what their quotas have cached.  Merging and recounting
change nothing else.
-/
import QuotaTree.Proofs.Usage.Books
import QuotaTree.Request.Merge

namespace QuotaTree

open Nodes

namespace Inode

/-- The same inode, with another usage cached by its quota if it has one. -/
inductive Recached (inode : Inode) : Inode → Prop
  | same : Recached inode inode
  | cached {quota : Quota} (cached : Counts) (h : inode.quota = some quota) :
    Recached inode (inode.withQuota { quota with cached })

variable {inode new : Inode} {quota : Quota}

/-- Only a directory has a quota. -/
theorem exists_directory_of_quota (h : inode.quota = some quota) :
    ∃ directory, inode.content = .directory directory ∧
      directory.quota = some quota := by
  obtain ⟨directory, hdir, hquota⟩ := Option.bind_eq_some_iff.1 h
  exact ⟨directory, asDirectory_eq_some.1 hdir, hquota⟩

theorem withQuota_eq {directory : Directory}
    (content : inode.content = .directory directory) (quota : Quota) :
    inode.withQuota quota =
      inode.withDirectory { directory with quota := some quota } := by
  simp [withQuota, content]

theorem quota_withQuota (h : inode.quota = some quota) (new : Quota) :
    (inode.withQuota new).quota = some new := by
  obtain ⟨directory, hcontent, _⟩ := exists_directory_of_quota h
  rw [withQuota_eq hcontent]
  rfl

theorem id_withQuota (inode : Inode) (quota : Quota) :
    (inode.withQuota quota).id = inode.id := by
  unfold withQuota
  split <;> rfl

namespace Recached

theorem alike (recached : inode.Recached new) : inode.Alike new := by
  cases recached with
  | same => exact .refl inode
  | cached cached h =>
    obtain ⟨directory, hcontent, _⟩ := exists_directory_of_quota h
    rw [withQuota_eq hcontent]
    refine ⟨⟨rfl, rfl, rfl, ?_⟩, fun name => ?_⟩
    · simp [isDirectory, asDirectory, withDirectory, hcontent]
    · simp [child?, asDirectory, withDirectory, hcontent]

theorem file (recached : inode.Recached new) : new.asFile = inode.asFile := by
  cases recached with
  | same => rfl
  | cached cached h =>
    obtain ⟨directory, hcontent, _⟩ := exists_directory_of_quota h
    rw [withQuota_eq hcontent]
    simp [asFile, withDirectory, hcontent]

theorem isSome_quota (recached : inode.Recached new) :
    new.quota.isSome = inode.quota.isSome := by
  cases recached with
  | same => rfl
  | cached cached h =>
    rw [quota_withQuota h, h, Option.isSome_some, Option.isSome_some]

theorem trans {third : Inode} (early : inode.Recached new)
    (late : new.Recached third) : inode.Recached third := by
  cases late with
  | same => exact early
  | cached cached h =>
    cases early with
    | same => exact .cached cached h
    | @cached before _ hbefore =>
      obtain ⟨directory, hcontent, _⟩ := exists_directory_of_quota hbefore
      rw [quota_withQuota hbefore] at h
      cases h
      have hsame := Recached.cached cached hbefore
      rw [withQuota_eq hcontent] at hsame ⊢
      exact hsame

end Recached

end Inode

/-- The same tree up to what quotas have cached. -/
def Nodes.Recached (nodes after : Nodes) : Prop :=
  ∀ x, Option.Rel Inode.Recached (nodes x) (after x)

namespace Nodes.Recached

variable {nodes after : Nodes}

theorem refl (nodes : Nodes) : nodes.Recached nodes := by
  intro x
  cases nodes x with
  | none => exact .none
  | some inode => exact .some .same

theorem trans {third : Nodes} (early : nodes.Recached after)
    (late : after.Recached third) : nodes.Recached third := by
  intro x
  have hearly := early x
  have hlate := late x
  generalize nodes x = old at hearly
  generalize after x = middle at hearly hlate
  generalize third x = new at hlate
  cases hearly with
  | none => exact hlate
  | some hearly =>
    cases hlate with
    | some hlate => exact .some (hearly.trans hlate)

theorem set {id : InodeId} {inode new : Inode} (live : nodes id = some inode)
    (recached : inode.Recached new) :
    nodes.Recached (nodes.set id (some new)) := by
  intro x
  by_cases h : x = id
  · subst h
    rw [set_self, live]
    exact .some recached
  · rw [set_of_ne _ h]
    exact refl nodes x

theorem recast (recached : nodes.Recached after) : nodes.Recast after where
  alike x := by
    have h := recached x
    generalize nodes x = old at h
    generalize after x = new at h
    cases h with
    | none => exact .none
    | some h => exact .some h.alike
  file x := by
    have h := recached x
    rw [Nodes.file, Nodes.file]
    generalize nodes x = old at h
    generalize after x = new at h
    cases h with
    | none => rfl
    | some h => exact h.file

end Nodes.Recached

end QuotaTree
