/-
Setting the limits and the policy of a directory, and the policy and the
replication of a file.
-/
import QuotaTree.Proofs.Request.Rules
import QuotaTree.Proofs.Work.Refile
import QuotaTree.Request.Limits

namespace QuotaTree

open Work Transaction

namespace Directory

theorem children_withLimits (directory : Directory) (limits cached : Counts)
    (kept : Bool) :
    (directory.withLimits limits cached kept).children =
      directory.children := by
  unfold withLimits
  split <;> split <;> rfl

/-- A quota keeps its cached usage, and a new one starts from the usage
given. -/
theorem cached_withLimits {directory : Directory} {limits cached : Counts}
    {kept : Bool} {quota : Quota}
    (h : (directory.withLimits limits cached kept).quota = some quota) :
    (∃ before, directory.quota = some before ∧ quota.cached = before.cached) ∨
      quota.cached = cached := by
  unfold withLimits at h
  cases hquota : directory.quota with
  | some before =>
    simp only [hquota] at h
    split at h
    · cases h
      exact .inl ⟨before, rfl, rfl⟩
    · cases h
  | none =>
    simp only [hquota] at h
    split at h
    · cases h
      exact .inr rfl
    · rw [hquota] at h
      cases h

end Directory

namespace Work

variable {tx tx' : Transaction} {path : String} {done : Unit}

theorem Frames.changeLimits (path : String) (edit : Edit) (liftsInodes : Bool)
    (change : Counts → Counts) :
    Frames (changeLimits path edit liftsInodes change) := by
  refine bind (read _) fun chain => ?_
  extract_lets id rest
  have hrest (done : PUnit) : Frames (rest done) := by
    refine bind (read _) fun ids => ?_
    refine bind (read _) fun used => ?_
    refine bind (pendingFor _) ?_
    refine fun pending => bind (read _) fun inode => ?_
    split
    · exact throw _
    · exact bind (put _) fun _ => journal _
  exact ite (bind (throw _) hrest) (hrest ⟨⟩)

/-- A new quota starts from what is settled in its subtree. -/
theorem turns_changeLimits {edit : Edit} {liftsInodes : Bool}
    {change : Counts → Counts} (ready : tx.Ready)
    (h : changeLimits path edit liftsInodes change tx = .ok done tx') :
    tx.Turns tx' := by
  simp only [changeLimits, Outcome.bind_eq_ok, read_eq_ok, Outcome.throw_bind,
    Outcome.ite_eq_ok] at h
  obtain ⟨chain, _, ⟨_, rfl⟩, h⟩ := h
  split at h
  next => simp at h
  simp only [Work.subtree, Work.usage, read_eq_ok, pendingFor_eq_ok,
    get_eq_ok] at h
  obtain ⟨ids, _, ⟨hsubtree, rfl⟩, used, _, ⟨husage, rfl⟩, _, _, ⟨rfl, rfl⟩,
    inode, _, ⟨⟨_, live⟩, rfl⟩, h⟩ := h
  cases hdir : inode.asDirectory with
  | none => simp [hdir] at h
  | some directory =>
    simp only [hdir, Outcome.bind_eq_ok, put_eq_ok, journal_eq_ok] at h
    obtain ⟨_, _, ⟨_, rfl⟩, rfl⟩ := h
    refine .trans (turns_adjusted ready live hdir
      (Directory.children_withLimits ..) ?_) (.journaled _ _)
    intro quota hquota
    rcases Directory.cached_withLimits hquota with hkept | hcached
    · exact .inl hkept
    · right
      have nodup := ready.reads.subtree_nodup ready.wellFormed hsubtree
      refine ⟨ids.toFinset, fun x => ?_, ?_⟩
      · rw [List.mem_toFinset]
        exact ready.reads.mem_subtree ready.wellFormed hsubtree x
      · obtain ⟨ids', hids', rfl⟩ := ready.reads.usage husage
        obtain rfl : ids = ids' := Except.ok.inj (hsubtree.symm.trans hids')
        rw [hcached, Counts.sum_map_of_nodup nodup,
          pendingFor_eq ready.plain nodup]
        simp only [Books.settled, Transaction.books, Finset.sum_sub_distrib]

theorem Frames.setPolicy (path : String) (policy : StoragePolicy) :
    Frames (setPolicy path policy) := by
  refine bind (read _) fun chain => ?_
  refine bind (read _) fun inode => ?_
  extract_lets rest
  have hrest (done : PUnit) : Frames (rest done) := journal _
  split
  · exact bind (put _) hrest
  · exact bind (account _ _ _ _) fun _ => bind (put _) hrest
  · exact bind (throw _) hrest

/-- A file is charged anew when its policy is set; of a directory only the
policy changes. -/
theorem effect_setPolicy {policy : StoragePolicy} (ready : tx.Ready)
    (h : setPolicy path policy tx = .ok done tx') :
    Effect tx.keepsQuota false tx.books tx'.books := by
  simp only [setPolicy, Outcome.bind_eq_ok, read_eq_ok, get_eq_ok] at h
  obtain ⟨chain, _, ⟨hresolve, rfl⟩, inode, _, ⟨⟨_, live⟩, rfl⟩, h⟩ := h
  have leads := Chain.Leads.resolve ready.reads hresolve
  cases hcontent : inode.content with
  | directory directory =>
    simp only [hcontent, Outcome.bind_eq_ok, put_eq_ok, journal_eq_ok] at h
    obtain ⟨_, _, ⟨_, rfl⟩, rfl⟩ := h
    have hdir := Inode.asDirectory_eq_some.2 hcontent
    refine .changes
      ((turns_adjusted ready live hdir ?_ ?_).trans (.journaled _ _)).changes
    · rfl
    · exact fun quota hquota => .inl ⟨quota, hquota, rfl⟩
  | file file =>
    have hfile := Inode.asFile_eq_some.2 hcontent
    obtain ⟨parent, name, id, rfl⟩ :=
      exists_child_of_file ready.wellFormed leads live hfile
    simp only [hcontent, Outcome.bind_eq_ok, accountAbove_eq_ok, put_eq_ok,
      journal_eq_ok] at h
    obtain ⟨_, _, ⟨_, rfl⟩, _, _, ⟨_, rfl⟩, rfl⟩ := h
    exact .refile (refile_accounted ready leads live hfile
      (File.recharged_media policy file.replication))
  | symlink => simp [hcontent] at h

theorem Frames.setReplication (path : String) (replication : Nat) :
    Frames (setReplication path replication) := by
  refine bind (read _) fun chain => ?_
  refine bind (read _) fun inode => ?_
  split
  · exact throw _
  · refine bind (account _ _ _ _) fun _ => ?_
    exact bind (put _) fun _ => journal _

theorem refile_setReplication {replication : Nat} (ready : tx.Ready)
    (h : setReplication path replication tx = .ok done tx') :
    Refile tx.keepsQuota tx.books tx'.books := by
  simp only [setReplication, Outcome.bind_eq_ok, read_eq_ok, get_eq_ok] at h
  obtain ⟨chain, _, ⟨hresolve, rfl⟩, inode, _, ⟨⟨_, live⟩, rfl⟩, h⟩ := h
  have leads := Chain.Leads.resolve ready.reads hresolve
  cases hfile : inode.asFile with
  | none => simp [hfile] at h
  | some file =>
    obtain ⟨parent, name, id, rfl⟩ :=
      exists_child_of_file ready.wellFormed leads live hfile
    simp only [hfile, Outcome.bind_eq_ok, accountAbove_eq_ok, put_eq_ok,
      journal_eq_ok] at h
    obtain ⟨_, _, ⟨_, rfl⟩, _, _, ⟨_, rfl⟩, rfl⟩ := h
    exact refile_accounted ready leads live hfile
      (File.recharged_media file.policy replication)

end Work

namespace Namespace

theorem drifting_changeLimits (path : String) (edit : Edit) (liftsInodes : Bool)
    (change : Counts → Counts) :
    Drifting (changeLimits path edit liftsInodes change) :=
  (Quiet.resolvePath path).drifting.bind fun _ =>
    .transact (.changeLimits _ _ _ _) turns_changeLimits

theorem drifting_setQuota (path : String) (inodes bytes : Int) :
    Drifting (setQuota path inodes bytes) := by
  refine (Quiet.requireLegal inodes).drifting.bind fun _ => ?_
  refine (Quiet.requireLegal bytes).drifting.bind fun _ => ?_
  extract_lets rest
  exact .guarded (drifting_changeLimits _ _ _ _)

theorem drifting_setTypeQuota (path : String) (type : StorageType)
    (limit : Int) : Drifting (setTypeQuota path type limit) := by
  unfold setTypeQuota
  extract_lets rest
  exact .guarded ((Quiet.requireLegal limit).drifting.bind fun _ =>
    drifting_changeLimits _ _ _ _)

theorem stepping_setStoragePolicy (path : String) (policy : StoragePolicy) :
    Stepping false (setStoragePolicy path policy) :=
  .quiet_bind (.resolvePath path)
    fun _ => .transact (.setPolicy _ _) effect_setPolicy

theorem stepping_setReplication (path : String) (replication : Nat) :
    Stepping false (setReplication path replication) := by
  unfold setReplication
  extract_lets rest
  exact .guarded
    (.quiet_bind (.resolvePath path) fun _ => .transact (.setReplication _ _)
      fun ready h => .refile (refile_setReplication ready h))

end Namespace

end QuotaTree
