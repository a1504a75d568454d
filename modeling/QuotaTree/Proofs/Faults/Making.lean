/-
Making directories, files and symlinks under a lock for writing on the directory
that is there already.  What is made on the way need not be locked.
-/
import QuotaTree.Proofs.Faults.Planning
import QuotaTree.Proofs.Request.Create

namespace QuotaTree

open Nodes

namespace Transaction

variable {tx tx' : Transaction} {chain parent : Chain} {name : Name}
  {id : InodeId}

/-- Something can be made below the end of a chain. -/
structure Enters (tx : Transaction) (parent : Chain) : Prop where
  ready : tx.Ready
  proper : parent.Proper
  held : tx.Held parent
  opens : tx.Allows parent.last .write

/-- The policies along a chain can be looked at. -/
theorem Held.harmless_policy (held : tx.Held chain) :
    Harmless (chain.policy tx.view) := by
  have heach : ∀ chains : List Chain, (∀ above ∈ chains, tx.Held above) →
      Harmless (Chain.firstPolicy tx.view chains) := by
    intro chains hchains
    induction chains with
    | nil => exact .pure _
    | cons above rest ih =>
      obtain ⟨allows, inode, live⟩ := (hchains above List.mem_cons_self).last
      refine .bind (.of_ok (view_get_eq_ok.2 ⟨allows, live⟩)) fun found _ => ?_
      split
      · exact .pure _
      · refine ih fun other hother => ?_
        exact hchains other (List.mem_cons_of_mem _ hother)
  exact heach _ fun above habove => held.of_mem_ancestry habove

/-- A new identity may be written. -/
theorem Enters.allocated (enters : tx.Enters parent)
    (h : Work.alloc tx = .ok id tx') :
    tx'.Enters parent ∧ tx'.Allows id .write := by
  obtain ⟨turns, _, _⟩ := Work.dead_of_alloc enters.ready h
  have ext := Work.Frames.alloc.extends_of_ok h
  obtain ⟨next, _, rfl, rfl⟩ := Work.alloc_eq_ok.1 h
  refine ⟨⟨turns.ready enters.ready, enters.proper, ?_,
    ext.allows enters.opens⟩, ?_⟩
  · exact enters.held.later ext fun x inode live => ⟨inode, live⟩
  · exact .inr List.mem_cons_self

/-- Below a directory that has just been made something can be made as well. -/
theorem Enters.directory {mid : Transaction} {permission : Permission}
    (enters : tx.Enters parent) (named : name.Proper)
    (halloc : Work.alloc tx = .ok id mid)
    (h : Work.linkNew parent
      { id, name, permission, content := .directory {} } mid = .ok chain tx') :
    tx'.Enters chain := by
  obtain ⟨henters, hown⟩ := enters.allocated halloc
  obtain ⟨turns, proper⟩ :=
    Work.turns_makeDirectory enters.ready enters.proper named halloc h
  have ext := (Work.Frames.link _ _ _ _).extends_of_ok h
  obtain ⟨holder, directory, _, rfl, rfl⟩ := Work.link_eq_ok.1 h
  refine ⟨turns.ready enters.ready, proper, ?_, ext.allows hown⟩
  exact (((henters.held.accounted _ _).stored _).stored _).child
    (ext.allows hown).read (live_stored _)

/-- When an entry has been taken out with all that is below it, something can be
made in its place. -/
theorem Enters.unlinked {used : Counts} (enters : tx.Enters parent)
    (leads : Chain.Leads tx.tree (parent.child name id))
    (h : Work.unlink (parent.child name id) false none tx = .ok used tx') :
    tx'.Enters parent := by
  have wf := enters.ready.wellFormed
  have ext := (Work.Frames.unlink _ _ _).extends_of_ok h
  have hlink := leads.link wf
  cases leads with
  | child above entry =>
    refine ⟨(Work.turns_unlink enters.ready entry h).ready enters.ready,
      enters.proper, ?_, ext.allows enters.opens⟩
    intro x hx
    obtain ⟨allows, inode, live⟩ := enters.held x hx
    refine ⟨ext.allows allows, ?_⟩
    obtain ⟨holder, ids, unlinks, rfl⟩ := Work.unlink_eq_ok.1 h
    have hout : x ∉ ids := by
      rw [enters.ready.reads.mem_subtree wf unlinks.subtree]
      exact fun hunder => wf.not_under_parent hlink
        (hunder.trans ((above.mem_ids wf).1 hx))
    rw [tree_unlinked (wf.ids unlinks.opened.live)]
    simp only [hout, if_false, set_apply]
    split
    · exact ⟨_, rfl⟩
    · exact ⟨inode, live⟩

end Transaction

namespace Work

open Transaction

variable {tx tx' : Transaction} {chain parent : Chain} {name : Name}
  {names rest : List Name} {id : InodeId} {path : String}

/-- Only the identities may run out. -/
theorem faultless_alloc (tx : Transaction) : Faultless alloc tx := by
  intro error after h
  unfold alloc InodeTable.alloc at h
  cases hnext : tx.base.table.next.next? with
  | some next => simp [hnext] at h
  | none =>
    simp only [hnext, EStateM.Result.error.injEq] at h
    exact h.1 ▸ rfl

theorem faultless_linkNew {inode : Inode} (enters : tx.Enters parent)
    (own : tx.Allows inode.id .write) : Faultless (linkNew parent inode) tx :=
  (fails_link (fun _ live => enters.ready.wellFormed.ids live) enters.held
    enters.opens own).mono
    fun _ _ h => h.1.1

theorem faultless_makeDirectories {permission : Permission}
    (enters : tx.Enters parent) (named : ∀ name ∈ names, name.Proper) :
    Faultless (makeDirectories permission parent names) tx := by
  induction names generalizing tx parent with
  | nil => exact .pure _ _
  | cons name rest ih =>
    refine .bind (faultless_alloc tx) fun id mid halloc => ?_
    obtain ⟨henters, hown⟩ := enters.allocated halloc
    refine .bind (faultless_linkNew henters hown) fun chain last hlink => ?_
    exact ih (enters.directory (named name List.mem_cons_self) halloc hlink)
      fun other h => named other (List.mem_cons_of_mem _ h)

theorem enters_makeDirectories {permission : Permission}
    (enters : tx.Enters parent) (named : ∀ name ∈ names, name.Proper)
    (h : makeDirectories permission parent names tx = .ok chain tx') :
    tx'.Enters chain := by
  induction names generalizing tx parent with
  | nil =>
    obtain ⟨rfl, rfl⟩ := Outcome.pure_eq_ok.1 h
    exact enters
  | cons name rest ih =>
    simp only [makeDirectories, Outcome.bind_eq_ok] at h
    obtain ⟨id, mid, halloc, extended, last, hlink, hrest⟩ := h
    exact ih (enters.directory (named name List.mem_cons_self) halloc hlink)
      (fun other h => named other (List.mem_cons_of_mem _ h)) hrest

theorem faultless_enterFile {options : CreateOptions}
    {replication blockSize : Nat} (enters : tx.Enters parent) :
    Faultless
      (enterFile path options replication blockSize parent name) tx := by
  refine .bind
    (.bind (faultless_read enters.held.harmless_policy) fun policy _ h => ?_)
    fun _ _ _ => .bind (faultless_journal _ _) fun _ _ _ => .pure _ _
  obtain ⟨_, rfl⟩ := read_eq_ok.1 h
  refine .bind (faultless_alloc _) fun id mid halloc => ?_
  obtain ⟨henters, hown⟩ := enters.allocated halloc
  exact faultless_linkNew henters hown

/-- A file has nothing below it, so that it can be taken out where it may be
written. -/
theorem faultless_replaceFile {overwrite : Bool} (ready : tx.Ready)
    (leads : Chain.Leads tx.tree chain) (own : tx.Allows chain.last .write)
    (above : ∀ parent, chain.parent? = some parent →
      tx.Allows parent.last .write) :
    Faultless (replaceFile chain path overwrite) tx := by
  have wf := ready.wellFormed
  obtain ⟨inode, live⟩ := leads.live wf
  refine .bind_of_ok (get_eq_ok.2 ⟨⟨own.read, live⟩, rfl⟩) ?_
  cases hfile : inode.asFile with
  | none => exact .throw rfl
  | some file =>
    dsimp only
    cases file.writer with
    | some holder => exact .throw rfl
    | none =>
      refine .ite (fun _ => ?_) fun _ => .throw rfl
      obtain ⟨parent, name, id, rfl⟩ := exists_child_of_file wf leads live hfile
      cases leads with
      | child _ entry =>
        have leaf : ∀ name, inode.child? name = none :=
          Inode.child?_eq_none_of_not_isDirectory (by
            simp [Inode.isDirectory, Inode.asDirectory,
              Inode.asFile_eq_some.1 hfile])
        obtain ⟨used, last, hunlink⟩ :=
          exists_unlink ready entry (above parent rfl)
            fun x hx => (wf.under_iff_of_no_child live leaf).1 hx ▸ own
        exact .bind_of_ok hunlink (.pure _ _)

/-- In the place of a file that has been taken out a new one can be made. -/
theorem enters_replaceFile {overwrite : Bool} {replaced : List Block}
    (ready : tx.Ready) (leads : Chain.Leads tx.tree chain)
    (held : tx.Held chain)
    (above : ∀ parent, chain.parent? = some parent →
      tx.Allows parent.last .write)
    (h : replaceFile chain path overwrite tx = .ok replaced tx') :
    ∃ parent name id, chain = .child parent name id ∧ tx'.Enters parent := by
  simp only [replaceFile, Outcome.bind_eq_ok, get_eq_ok] at h
  obtain ⟨inode, _, ⟨_, rfl⟩, h⟩ := h
  cases hfile : inode.asFile with
  | none => simp [hfile] at h
  | some file =>
    simp only [hfile] at h
    cases hwriter : file.writer with
    | some holder => simp [hwriter] at h
    | none =>
      simp only [hwriter, Outcome.ite_eq_ok, Outcome.bind_eq_ok,
        Outcome.throw_ne_ok, if_false_right] at h
      obtain ⟨_, used, last, hunlink, hlast⟩ := h
      obtain ⟨_, rfl⟩ := Outcome.pure_eq_ok.1 hlast
      cases chain with
      | root => exact absurd hunlink unlink_root
      | child parent name id =>
        have enters : Enters _ parent := ⟨ready,
          (leads.proper ready.wellFormed).1, held.above, above parent rfl⟩
        exact ⟨parent, name, id, rfl, enters.unlinked leads hunlink⟩

/-- A path that is locked for making something in it leads to a directory or to
what is there. -/
theorem enters_of_grants (ready : tx.Ready)
    (grants : tx.Grants { path, kind := .writeWithParent } chain rest) :
    tx.Enters chain where
  ready := ready
  proper := (grants.leads ready).proper ready.wellFormed
  held := grants.held ready
  opens := grants.last

theorem faultless_makePath {permission : Permission} (ready : tx.Ready)
    (grants : tx.Grants { path, kind := .writeWithParent } chain rest) :
    Faultless (makePath path permission) tx := by
  have enters := enters_of_grants ready grants
  refine .bind_of_ok (read_of_ok grants.resolves) ?_
  cases rest with
  | nil =>
    obtain ⟨allows, inode, live⟩ := enters.held.last
    exact .bind_of_ok (get_eq_ok.2 ⟨⟨allows, live⟩, rfl⟩)
      (.ite (fun _ => .pure _ _) fun _ => .throw rfl)
  | cons first others =>
    exact .bind (faultless_makeDirectories enters
      (Chain.proper_of_missing grants.resolves))
      fun _ _ _ => faultless_journal _ _

theorem harmless_allowParents {first : Name} {others : List Name}
    {createParent : Bool} :
    Harmless (allowParents chain first others createParent) := by
  unfold allowParents
  split
  · exact .throw rfl
  · exact .pure _

theorem faultless_vacate {overwrite : Bool} (ready : tx.Ready)
    (grants : tx.Grants { path, kind := .writeWithParent } chain rest) :
    Faultless (vacate path overwrite chain rest) tx := by
  have leads := grants.leads ready
  cases rest with
  | nil =>
    have above := grants.above rfl rfl
    refine .bind (faultless_replaceFile ready leads grants.last above)
      fun replaced mid h => ?_
    obtain ⟨parent, name, id, rfl, _⟩ :=
      enters_replaceFile ready leads (grants.held ready) above h
    exact .pure _ _
  | cons first others => exact .pure _ _

/-- In the place for a file, of which some name is missing, something can be
made. -/
theorem enters_vacate {overwrite : Bool} {place : Chain} {replaced : List Block}
    (ready : tx.Ready)
    (grants : tx.Grants { path, kind := .writeWithParent } chain rest)
    (h : vacate path overwrite chain rest tx =
      .ok (place, names, replaced) tx') :
    tx'.Enters place ∧ names ≠ [] ∧ ∀ name ∈ names.dropLast, name.Proper := by
  rcases exists_of_vacate h with ⟨name, id, rfl, rfl, rfl, hreplace⟩ |
    ⟨hrest, rfl, rfl, rfl, rfl⟩
  · obtain ⟨parent, _, _, heq, enters⟩ := enters_replaceFile ready
      (grants.leads ready) (grants.held ready) (grants.above rfl rfl) hreplace
    obtain ⟨rfl, rfl, rfl⟩ := Chain.child.inj heq
    exact ⟨enters, List.cons_ne_nil _ _, fun _ h => absurd h List.not_mem_nil⟩
  · have named := Chain.proper_of_missing grants.resolves
    exact ⟨enters_of_grants ready grants, hrest, fun name h =>
      named name (List.mem_of_mem_dropLast h)⟩

theorem faultless_createFile {options : CreateOptions}
    {replication blockSize : Nat} (ready : tx.Ready)
    (grants : tx.Grants { path, kind := .writeWithParent } chain rest) :
    Faultless (createFile path options replication blockSize) tx := by
  refine .bind_of_ok (read_of_ok grants.resolves) ?_
  refine .bind (faultless_vacate ready grants) fun found mid hvacate => ?_
  obtain ⟨place, names, replaced⟩ := found
  obtain ⟨enters, missing, hnamed⟩ := enters_vacate ready grants hvacate
  cases names with
  | nil => exact absurd rfl missing
  | cons first others =>
    refine .bind (.ofExcept fun error => harmless_allowParents error)
      fun _ _ hallow => ?_
    obtain ⟨_, rfl⟩ := Outcome.ofExcept_eq_ok.1 hallow
    refine .bind (faultless_makeDirectories enters hnamed)
      fun parent mid hparents => ?_
    exact .bind (faultless_enterFile
      (enters_makeDirectories enters hnamed hparents)) fun _ _ _ => .pure _ _

theorem faultless_symlinkPath {target link : String} {permission : Permission}
    {createParent : Bool} (ready : tx.Ready)
    (grants : tx.Grants { path := link, kind := .writeWithParent } chain rest) :
    Faultless (symlinkPath target link permission createParent) tx := by
  refine .bind_of_ok (read_of_ok grants.resolves) ?_
  cases rest with
  | nil => exact .throw rfl
  | cons first others =>
    have named := Chain.proper_of_missing grants.resolves
    have enters := enters_of_grants ready grants
    refine .bind (.ofExcept fun error => harmless_allowParents error)
      fun _ _ hallow => ?_
    obtain ⟨_, rfl⟩ := Outcome.ofExcept_eq_ok.1 hallow
    have hnamed : ∀ name ∈ (first :: others).dropLast, name.Proper :=
      fun name h => named name (List.mem_of_mem_dropLast h)
    refine .bind (faultless_makeDirectories enters hnamed)
      fun parent mid hparents => ?_
    refine .bind (faultless_alloc _) fun id _ halloc => ?_
    obtain ⟨henters, hown⟩ :=
      (enters_makeDirectories enters hnamed hparents).allocated halloc
    refine .bind (faultless_linkNew henters hown) fun _ _ _ => ?_
    exact .bind (faultless_journal _ _) fun _ _ _ => .pure _ _

end Work

end QuotaTree
