/-
The steps of a unit of work under locks that allow them.  What is asked of the
transaction is that the inodes a step touches are there and may be touched; a
step then fails for a reason of the request, or not at all.
-/
import QuotaTree.Proofs.Faults.Faultless
import QuotaTree.Proofs.Tree.Follow
import QuotaTree.Proofs.Work.Frame
import QuotaTree.Proofs.Work.Prune
import QuotaTree.Proofs.Work.Recount
import QuotaTree.Proofs.Work.Refile

namespace QuotaTree

open Nodes

namespace Transaction

variable {tx tx' : Transaction} {chain parent : Chain} {name : Name}
  {id : InodeId} {mode : LockMode}

/-- What is allowed once stays allowed. -/
theorem Extends.allows (ext : tx.Extends tx') (h : tx.Allows id mode) :
    tx'.Allows id mode := by
  rcases h with held | made
  · left
    rw [ext.locks]
    exact held
  · exact .inr (ext.created ▸ List.mem_append_right _ made)

theorem live_stored (inode : Inode) :
    ∃ found, (tx.stored inode).tree inode.id = some found :=
  ⟨inode, by rw [tree_stored, set_self]⟩

def Held (tx : Transaction) (chain : Chain) : Prop :=
  ∀ x ∈ chain.ids, tx.Allows x .read ∧ ∃ inode, tx.tree x = some inode

namespace Held

theorem of_leads (wf : tx.tree.WellFormed) (leads : Chain.Leads tx.tree chain)
    (along : ∀ x ∈ chain.ids, tx.Allows x .read) : tx.Held chain := by
  induction leads with
  | root =>
    intro x hx
    exact ⟨along x hx, List.mem_singleton.1 hx ▸ Chain.Leads.root.live wf⟩
  | @child parent name id above entry ih =>
    intro x hx
    rcases List.mem_append.1 hx with hmem | hmem
    · exact ih (fun y hy => along y (List.mem_append_left _ hy)) x hmem
    · exact ⟨along x hx,
        List.mem_singleton.1 hmem ▸ (Chain.Leads.child above entry).live wf⟩

theorem last (held : tx.Held chain) :
    tx.Allows chain.last .read ∧ ∃ inode, tx.tree chain.last = some inode :=
  held chain.last chain.last_mem_ids

theorem above (held : tx.Held (parent.child name id)) : tx.Held parent :=
  fun x hx => held x (List.mem_append_left _ hx)

theorem child (held : tx.Held parent) (allows : tx.Allows id .read)
    (live : ∃ inode, tx.tree id = some inode) :
    tx.Held (parent.child name id) := by
  intro x hx
  rcases List.mem_append.1 hx with hx | hx
  · exact held x hx
  · rw [List.mem_singleton.1 hx]
    exact ⟨allows, live⟩

theorem upTo (held : tx.Held chain) (length : Nat) :
    tx.Held (chain.upTo length) := by
  induction chain with
  | root => exact held
  | child parent name id ih =>
    rw [Chain.upTo]
    split
    · exact held
    · exact ih held.above

theorem of_mem_ancestry (held : tx.Held chain) {top : Chain}
    (mem : top ∈ chain.ancestry) : tx.Held top := by
  induction chain with
  | root => rwa [List.mem_singleton.1 mem]
  | child parent name id ih =>
    rcases List.mem_cons.1 mem with rfl | mem
    · exact held
    · exact ih held.above mem

/-- Later on a chain is held as long as its inodes are there. -/
theorem later (held : tx.Held chain) (ext : tx.Extends tx')
    (live : ∀ x inode, tx.tree x = some inode → ∃ new, tx'.tree x = some new) :
    tx'.Held chain :=
  fun x hx =>
    let ⟨allows, inode, hinode⟩ := held x hx
    ⟨ext.allows allows, live x inode hinode⟩

theorem stored (held : tx.Held chain) (inode : Inode) :
    (tx.stored inode).Held chain := by
  intro x hx
  obtain ⟨allows, found, live⟩ := held x hx
  refine ⟨allows, ?_⟩
  rw [tree_stored, set_apply]
  split
  · exact ⟨inode, rfl⟩
  · exact ⟨found, live⟩

theorem accounted (held : tx.Held chain) (id : InodeId) (delta : Counts) :
    (tx.accounted id delta).Held chain :=
  held

/-- The limits above a chain's end can be looked at. -/
theorem harmless_verifyQuota (held : tx.Held chain) (length : Nat)
    (growth : Counts) (exempt : Option InodeId) :
    Harmless (Chain.verifyQuota tx.view chain length growth exempt) := by
  have heach : ∀ chains : List Chain, (∀ above ∈ chains, tx.Held above) →
      Harmless (Chain.verifyEach tx.view growth exempt chains) := by
    intro chains hchains
    induction chains with
    | nil => exact .pure _
    | cons above rest ih =>
      unfold Chain.verifyEach
      split
      next => exact .pure _
      next =>
        obtain ⟨allows, inode, live⟩ := (hchains above List.mem_cons_self).last
        refine .bind (.bind (.of_ok (view_get_eq_ok.2 ⟨allows, live⟩))
          fun found _ => ?_) fun _ _ => ih
          fun other hother => hchains other (List.mem_cons_of_mem _ hother)
        split
        · exact .throw rfl
        · exact .pure _
  unfold Chain.verifyQuota
  split
  · exact heach _ fun above habove => (held.upTo length).of_mem_ancestry habove
  · exact .pure _

end Held

end Transaction

namespace Work

open Transaction

variable {tx tx' : Transaction} {chain parent : Chain} {name : Name}
  {id : InodeId} {inode : Inode} {counts : Counts} {checked : Bool} {α : Type}

theorem fails_read {reading : View → Except Error α}
    {post : Error → Transaction → Prop}
    (h : ∀ error, reading tx.view = .error error → post error tx) :
    Fails (read reading) tx post := by
  cases hreading : reading tx.view with
  | ok a => exact .of_ok (read_of_ok hreading)
  | error error =>
    intro other after hother
    rw [read_of_error hreading] at hother
    cases hother
    exact h error hreading

theorem faultless_read {reading : View → Except Error α}
    (harmless : Harmless (reading tx.view)) : Faultless (read reading) tx :=
  fails_read harmless

theorem faultless_journal (edit : Edit) (tx : Transaction) :
    Faultless (journal edit) tx :=
  .of_ok (a := ()) (journal_eq_ok.2 rfl)

theorem faultless_put (allows : tx.Allows inode.id .write) :
    Faultless (put inode) tx :=
  .of_ok (a := ()) (put_eq_ok.2 ⟨allows, rfl⟩)

/-- Work that fails leaves a later state of its transaction. -/
theorem fails_framed {work : Work α} {post : Error → Transaction → Prop}
    (frames : work.Frames) (fails : Fails work tx post) :
    Fails work tx fun error after => post error after ∧ tx.Extends after := by
  intro error after h
  have ext := frames tx
  rw [h] at ext
  exact ⟨fails error after h, ext⟩

/-- A step that has been refused has done nothing. -/
abbrev Refuses (work : Work α) (tx : Transaction) : Prop :=
  Fails work tx fun error after => error.isInternal = false ∧ after = tx

/-- A change that is not checked only enters what is pending. -/
theorem refuses_account (held : checked = true → tx.Held chain) (length : Nat)
    (delta : Counts) : Refuses (account chain length delta checked) tx := by
  refine .get_bind (.ite (fun _ => ?_) fun _ => .pure _ _)
  dsimp only
  refine .when (fun hchecked => fails_read fun error herror => ⟨?_, rfl⟩)
    fun mid _ => .of_ok rfl
  exact (held hchecked).harmless_verifyQuota _ _ _ error herror

/-- A change that is not checked is not refused. -/
theorem checked_of_account {error : Error} {length : Nat} {delta : Counts}
    (hpos : 0 < length)
    (h : account chain length delta checked tx = .error error tx') :
    checked = true := by
  cases checked with
  | true => rfl
  | false =>
    rw [(@account_eq_ok tx _ () _ chain length false hpos).2
      ⟨affords_unchecked, rfl⟩] at h
    cases h

/-- The limits on names and directories are refused for their own sake. -/
theorem fails_verifyEntry (held : tx.Held parent) (name : Name) :
    Fails (verifyEntry parent name) tx fun error after =>
      (error.isInternal = false ∧ error.isQuota = false) ∧ after = tx := by
  refine .get_bind (.ite (fun _ => fails_read fun error herror => ⟨?_, rfl⟩)
    fun _ => .pure _ _)
  obtain ⟨allows, holder, live⟩ := held.last
  have hget : tx.view.get parent.last = .ok holder :=
    view_get_eq_ok.2 ⟨allows, live⟩
  unfold checkEntry at herror
  dsimp only at herror
  split at herror
  next =>
    cases herror
    exact ⟨rfl, rfl⟩
  next =>
    split at herror
    next =>
      rw [hget] at herror
      change (if _ then throw _ else pure () : Except Error Unit) = _ at herror
      split at herror
      next =>
        cases herror
        exact ⟨rfl, rfl⟩
      next => cases herror
    next => cases herror

/-- An inode can be put below a directory that may be written if it may be
written itself; when it is refused the tree is left as it was, and quotas refuse
it only if they are asked. -/
theorem fails_link
    (hid : ∀ holder, tx.tree parent.last = some holder →
      holder.id = parent.last)
    (held : tx.Held parent) (opens : tx.Allows parent.last .write)
    (own : tx.Allows inode.id .write) :
    Fails (link parent inode counts checked) tx fun error after =>
      (error.isInternal = false ∧ (error.isQuota = true → checked = true)) ∧
        after.tree = tx.tree := by
  obtain ⟨allows, holder, live⟩ := held.last
  unfold link
  extract_lets rest
  refine .guarded ⟨⟨rfl, fun h => by cases h⟩, rfl⟩ fun _ =>
    .bind_of_ok (get_eq_ok.2 ⟨⟨allows, live⟩, rfl⟩) ?_
  cases hcontent : holder.content with
  | directory directory =>
    simp only [Inode.isDirectory, Inode.asDirectory, hcontent,
      Option.isSome_some, if_true]
    refine .when (fun _ => (fails_verifyEntry held _).mono ?_)
      fun mid hmid => ?_
    · rintro error _ ⟨⟨hreason, hquota⟩, rfl⟩
      exact ⟨⟨hreason, fun h => by rw [hquota] at h; cases h⟩, rfl⟩
    obtain ⟨_, rfl⟩ := entry_verified_iff.1 hmid
    refine .bind (fun error after herror => ?_) fun _ mid hmid => ?_
    · obtain ⟨hreason, rfl⟩ :=
        refuses_account (fun _ => held) _ _ error after herror
      exact ⟨⟨hreason, fun _ => checked_of_account parent.length_pos herror⟩,
        rfl⟩
    have ext := (Frames.account _ _ _ _).extends_of_ok hmid
    refine .ite (fun _ => ?_) fun _ => ?_
    · refine .step
        ((account_eq_ok parent.length_pos).2 ⟨affords_unchecked, rfl⟩) ?_
      exact .throw_bind
        ⟨⟨rfl, fun h => by cases h⟩, tree_accounted.trans (tree_account hmid)⟩
    · have hholder : mid.Allows (holder.withDirectory directory).id .write := by
        rw [Inode.id_withDirectory, hid holder live]
        exact ext.allows opens
      refine .step (put_eq_ok.2 ⟨hholder, rfl⟩)
        (.step (put_eq_ok.2 ⟨?_, rfl⟩) (.pure _ _))
      exact ext.allows own
  | file file =>
    simp only [Inode.isDirectory, Inode.asDirectory, hcontent,
      Option.isSome_none, Bool.false_eq_true, if_false]
    exact .throw_bind ⟨⟨rfl, fun h => by cases h⟩, rfl⟩
  | symlink target =>
    simp only [Inode.isDirectory, Inode.asDirectory, hcontent,
      Option.isSome_none, Bool.false_eq_true, if_false]
    exact .throw_bind ⟨⟨rfl, fun h => by cases h⟩, rfl⟩

theorem opened_of_allows (wf : tx.tree.WellFormed)
    (live : tx.tree id = some inode) (allows : tx.Allows id .write) :
    tx.Opened id inode where
  live := live
  read := allows.read
  write := by rwa [wf.ids live]

/-- A subtree that may be written can be taken out of a directory that may be
written. -/
theorem exists_unlink (ready : tx.Ready)
    (entry : tx.tree.entryAt parent.last name = some id)
    (opens : tx.Allows parent.last .write)
    (below : ∀ x, tx.tree.Under id x → tx.Allows x .write) :
    ∃ used tx', unlink (parent.child name id) false none tx = .ok used tx' := by
  have wf := ready.wellFormed
  obtain ⟨holder, hholder, hchild⟩ := entryAt_eq_some.1 entry
  obtain ⟨inode, live, _⟩ := wf.child hholder hchild
  obtain ⟨ids, hsubtree, _, hmem, husage⟩ :=
    ready.reads.exists_usage wf live fun x hx => view_opens (below x hx).read
  refine ⟨_, _, unlink_eq_ok.2
    ⟨holder, ids, ⟨hsubtree, husage, ?_, fun x hx => ⟨?_, ?_⟩⟩, rfl⟩⟩
  · exact opened_of_allows wf hholder opens
  · rintro rfl
    have htop := (under_of_no_parent wf.root_no_parent).1 ((hmem _).1 hx)
    exact wf.child_ne_root hholder hchild htop.symm
  · exact below x ((hmem x).1 hx)

/-- An inode without entries can be taken out of a directory that may be
written. -/
theorem exists_unlinkLeaf (ready : tx.Ready)
    (entry : tx.tree.entryAt parent.last name = some id)
    (leaf : ∀ other, tx.tree.entryAt id other = none)
    (opens : tx.Allows parent.last .write) (own : tx.Allows id .write) :
    ∃ inode tx', unlinkLeaf (parent.child name id) tx = .ok inode tx' := by
  have wf := ready.wellFormed
  obtain ⟨holder, hholder, hchild⟩ := entryAt_eq_some.1 entry
  obtain ⟨inode, live, _⟩ := wf.child hholder hchild
  have hentries : inode.entries = [] := by
    rw [List.eq_nil_iff_forall_not_mem]
    rintro ⟨other, below⟩ hmem
    cases (Inode.mem_entries.1 hmem).symm.trans
      ((entryAt_of_live live other).symm.trans (leaf other))
  exact ⟨inode, _,
    unlinkLeaf_eq_ok.2
      ⟨⟨live, own.read, hentries, wf.child_ne_root hholder hchild, own⟩, holder,
        opened_of_allows wf hholder opens, rfl⟩⟩

/-- A subtree stays recountable while inodes in it are taken out. -/
theorem Recountable.of_clears {steps : Nat}
    (recountable : Recountable tx steps id)
    (clears : tx.tree.Clears tx'.tree id) (ext : tx.Extends tx') :
    Recountable tx' steps id := by
  obtain ⟨⟨inode, live⟩, allows, deep⟩ := recountable
  have hunder {x : InodeId} (hx : tx'.tree.Under id x) : tx.tree.Under id x :=
    hx.mono clears.links
  refine ⟨?_, fun x hx => ext.allows (allows x (hunder hx)), ?_⟩
  · obtain ⟨new, hnew, _⟩ := clears.top live
    exact ⟨new, hnew⟩
  · intro x above below hx habove hbelow
    exact deep x above below (hunder hx) (habove.mono (clears.links · ·))
      (hbelow.mono (clears.links · ·))

end Work

end QuotaTree
