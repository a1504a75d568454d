/-
Work that changes the data of a file asks the quotas above for the growth before
it stores anything, so that what becomes of it is decided by them once its own
checks are passed: these are the checks of the same work where no quotas are
kept.
-/
import QuotaTree.Proofs.Limits.Verify
import QuotaTree.Proofs.Request.Adjust
import QuotaTree.Proofs.Request.Write

namespace QuotaTree

open Nodes Transaction

namespace Outcome

variable {σ α β : Type} {s mid : σ} {a : α} {refusal : Option QuotaExceeded}

/-- A program fails with a refusal of a quota if there is one, and else
succeeds. -/
def Decided (result : EStateM.Result Error σ α)
    (refusal : Option QuotaExceeded) : Prop :=
  match refusal with
  | some exceeded => ∃ state, result = .error (.quotaExceeded exceeded) state
  | none => ∃ a state, result = .ok a state

/-- Steps that succeed may come first. -/
theorem Decided.after_ok {x : EStateM Error σ α} {f : α → EStateM Error σ β}
    (h : x s = .ok a mid) (decided : Decided (f a mid) refusal) :
    Decided ((x >>= f) s) refusal := by
  rw [bind_of_ok h]
  exact decided

/-- Steps that cannot fail may come last. -/
theorem Decided.then_sure {x : EStateM Error σ α} {f : α → EStateM Error σ β}
    (decided : Decided (x s) refusal) (sure : ∀ a t, ∃ b t', f a t = .ok b t') :
    Decided ((x >>= f) s) refusal := by
  cases refusal with
  | some exceeded =>
    obtain ⟨state, herror⟩ := decided
    exact ⟨state, bind_of_error herror⟩
  | none =>
    obtain ⟨a, state, hok⟩ := decided
    obtain ⟨b, last, hlast⟩ := sure a state
    exact ⟨b, last, (bind_of_ok hok).trans hlast⟩

theorem Decided.discarded {x : EStateM Error σ α}
    (decided : Decided (x s) refusal) : Decided (discard x s) refusal := by
  unfold discard
  change Decided (EStateM.map (Function.const α PUnit.unit) x s) refusal
  unfold EStateM.map
  cases refusal with
  | some exceeded =>
    obtain ⟨state, herror⟩ := decided
    exact ⟨state, by rw [herror]⟩
  | none =>
    obtain ⟨a, state, hok⟩ := decided
    exact ⟨⟨⟩, state, by rw [hok]⟩

end Outcome

open Outcome

namespace Transaction

def unkept (tx : Transaction) : Transaction :=
  { tx with
    base :=
      { tx.base with config := { tx.base.config with quotaEnabled := false } } }

end Transaction

namespace Work

variable {α : Type} {tx tx' : Transaction} {parent chain : Chain} {name : Name}
  {id : InodeId} {inode : Inode} {file new : File} {delta : Counts}
  {client : String}

/-- A growth is entered at the parent, unless a quota above refuses it. -/
theorem accountAbove_eq (ready : tx.Ready) (keeps : tx.keepsQuota = true)
    (readable : ∀ above ∈ parent.ancestry, above.Readable tx.view) :
    accountAbove (parent.child name id) delta true tx =
      match Chain.refusal tx.tree delta parent.ancestry with
      | some exceeded => .error (.quotaExceeded exceeded) tx
      | none => .ok () (tx.accounted parent.last delta) := by
  have verified :=
    @Chain.verifyQuota_child_eq _ _ delta parent name id ready.reads readable
  cases hrefusal : Chain.refusal tx.tree delta parent.ancestry with
  | none =>
    rw [hrefusal] at verified
    exact accountAbove_eq_ok.2 ⟨fun _ _ _ => verified, rfl⟩
  | some exceeded =>
    rw [hrefusal] at verified
    have hnonzero : delta.isZero = false := by
      rw [← Bool.not_eq_true, Counts.isZero_iff]
      rintro rfl
      rw [Chain.refusal_of_not_anyPositive (by decide)] at hrefusal
      cases hrefusal
    have hlength : (parent.child name id).length - 1 = parent.length := rfl
    rw [accountAbove, hlength, account, Outcome.get_bind,
      if_pos ⟨keeps, hnonzero, parent.length_pos⟩, if_pos rfl]
    exact bind_of_error (read_of_error verified)

/-- A file is stored anew when the quotas above have room for its growth. -/
theorem decided_regrown {last : Work α} (ready : tx.Ready)
    (keeps : tx.keepsQuota = true)
    (readable : ∀ above ∈ parent.ancestry, above.Readable tx.view)
    (write : tx.Allows inode.id .write)
    (sure : ∀ tx, ∃ a tx', last tx = .ok a tx') :
    Decided ((accountAbove (parent.child name id) delta true >>= fun _ =>
        put (inode.withFile new) >>= fun _ => last) tx)
          (Chain.refusal tx.tree delta parent.ancestry) := by
  have hasked := @accountAbove_eq tx parent name id delta ready keeps readable
  cases hrefusal : Chain.refusal tx.tree delta parent.ancestry with
  | some exceeded =>
    rw [hrefusal] at hasked
    exact ⟨tx, bind_of_error hasked⟩
  | none =>
    rw [hrefusal] at hasked
    have hput : put (inode.withFile new) (tx.accounted parent.last delta) =
        .ok () ((tx.accounted parent.last delta).stored (inode.withFile new)) :=
      put_eq_ok.2 ⟨write, rfl⟩
    obtain ⟨a, tx', hlast⟩ :=
      sure ((tx.accounted parent.last delta).stored (inode.withFile new))
    exact ⟨a, tx', (bind_of_ok hasked).trans ((bind_of_ok hput).trans hlast)⟩

/-- Where no quotas are kept the work turns a file into another one.  Where they
are kept it does so too, unless one of those above has no room for the
growth. -/
structure Regrows (work : Work α) (tx tx' : Transaction) (chain : Chain)
    (file new : File) (delta : Counts) : Prop where
  recharged : file.Recharged new delta
  after : tx'.tree.file chain.last = some new
  decided : Decided (work tx) (Chain.refusal tx.tree delta chain.above)

theorem file_stored {nodes : Nodes} (hid : inode.id = id) :
    (nodes.set (inode.withFile new).id (some (inode.withFile new))).file id =
      some new := by
  rw [Inode.id_withFile, hid, file_of_live (set_self ..)]
  rfl

theorem get_of_live (allows : tx.Allows id .read)
    (live : tx.tree id = some inode) : get id tx = .ok inode tx :=
  get_eq_ok.2 ⟨⟨allows, live⟩, rfl⟩

/-- Work that finds a file at the end of a path and turns it into another
one. -/
def Asks (work : Work α) (path : String) : Prop :=
  ∀ {tx tx' : Transaction} {a : α}, tx.Ready → tx.keepsQuota = true →
    work tx.unkept = .ok a tx' →
      ∃ chain, Chain.resolve tx.view path false = .ok chain ∧
        ∀ {file}, tx.tree.file chain.last = some file →
          ∃ new delta, Regrows work tx tx' chain file new delta

theorem asks_setReplication (path : String) (replication : Nat) :
    Asks (setReplication path replication) path := by
  intro tx tx' done ready keeps h
  have wf := ready.wellFormed
  simp only [setReplication, Outcome.bind_eq_ok, read_eq_ok, get_eq_ok] at h
  obtain ⟨chain, _, ⟨resolved, rfl⟩, inode, _, ⟨⟨hread, live⟩, rfl⟩, h⟩ := h
  refine ⟨chain, resolved, fun {file} hfile => ?_⟩
  have hasFile := (file_of_live live).symm.trans hfile
  obtain ⟨parent, name, id, rfl⟩ := exists_child_of_file wf
    (Chain.Leads.resolve ready.reads resolved) live hasFile
  simp only [hasFile, Outcome.bind_eq_ok, accountAbove_eq_ok, put_eq_ok,
    journal_eq_ok] at h
  obtain ⟨_, _, ⟨_, rfl⟩, _, _, ⟨hwrite, rfl⟩, rfl⟩ := h
  refine ⟨_, _, File.recharged_media file.policy replication, ?_, ?_⟩
  · rw [tree_journaled, tree_stored]
    exact file_stored (wf.ids live)
  · refine .after_ok (read_of_ok resolved)
      (.after_ok (get_of_live hread live) ?_)
    simp only [hasFile]
    exact decided_regrown ready keeps
      (Chain.readable_of_resolve resolved) hwrite fun tx => ⟨(), _, rfl⟩

theorem asks_setPolicy (path : String) (policy : StoragePolicy) :
    Asks (setPolicy path policy) path := by
  intro tx tx' done ready keeps h
  have wf := ready.wellFormed
  simp only [setPolicy, Outcome.bind_eq_ok, read_eq_ok, get_eq_ok] at h
  obtain ⟨chain, _, ⟨resolved, rfl⟩, inode, _, ⟨⟨hread, live⟩, rfl⟩, h⟩ := h
  refine ⟨chain, resolved, fun {file} hfile => ?_⟩
  have hasFile := (file_of_live live).symm.trans hfile
  have hcontent := Inode.asFile_eq_some.1 hasFile
  obtain ⟨parent, name, id, rfl⟩ := exists_child_of_file wf
    (Chain.Leads.resolve ready.reads resolved) live hasFile
  simp only [hcontent, Outcome.bind_eq_ok, accountAbove_eq_ok, put_eq_ok,
    journal_eq_ok] at h
  obtain ⟨_, _, ⟨_, rfl⟩, _, _, ⟨hwrite, rfl⟩, rfl⟩ := h
  refine ⟨_, _, File.recharged_media policy file.replication, ?_, ?_⟩
  · rw [tree_journaled, tree_stored]
    exact file_stored (wf.ids live)
  · refine .after_ok (read_of_ok resolved)
      (.after_ok (get_of_live hread live) ?_)
    simp only [hcontent]
    exact decided_regrown ready keeps
      (Chain.readable_of_resolve resolved) hwrite fun tx => ⟨(), _, rfl⟩

/-- Work on the chain that a path is resolved to first. -/
theorem asks_resolved {path : String} {body : Chain → Work α}
    (regrows : ∀ {tx tx' : Transaction} {chain : Chain} {a : α}, tx.Ready →
      tx.keepsQuota = true → Chain.Leads tx.tree chain →
      (∀ above ∈ chain.above, above.Readable tx.view) →
      body chain tx.unkept = .ok a tx' →
        ∃ file new delta, tx.tree.file chain.last = some file ∧
          Regrows (body chain) tx tx' chain file new delta) :
    Asks (read (Chain.resolve · path false) >>= body) path := by
  intro tx tx' a ready keeps h
  simp only [Outcome.bind_eq_ok, read_eq_ok] at h
  obtain ⟨chain, _, ⟨resolved, rfl⟩, hbody⟩ := h
  refine ⟨chain, resolved, fun {file} hfile => ?_⟩
  obtain ⟨found, new, delta, hfound, regrown⟩ :=
    regrows ready keeps (Chain.Leads.resolve ready.reads resolved)
      (Chain.readable_of_resolve resolved) hbody
  obtain rfl := Option.some_inj.1 (hfile.symm.trans hfound)
  exact ⟨new, delta, regrown.recharged, regrown.after,
    .after_ok (read_of_ok resolved) regrown.decided⟩

/-- Who may write a file may do so whether quotas are kept or not. -/
theorem leased_of_unkept {inode : Inode}
    (h : leased chain client tx.unkept = .ok inode tx') :
    leased chain client tx = .ok inode tx ∧ tx' = tx.unkept := by
  simp only [leased, Outcome.bind_eq_ok, get_eq_ok, Outcome.ofExcept_eq_ok,
    Outcome.pure_eq_ok] at h ⊢
  obtain ⟨found, _, ⟨hread, rfl⟩, _, _, ⟨hlease, rfl⟩, rfl, rfl⟩ := h
  exact ⟨⟨found, tx, ⟨hread, rfl⟩, (), tx, ⟨hlease, rfl⟩, rfl, rfl⟩, rfl⟩

theorem regrows_addBlockAt {block : Block} {targets : List String}
    {answer : InodeId} (ready : tx.Ready) (keeps : tx.keepsQuota = true)
    (leads : Chain.Leads tx.tree chain)
    (readable : ∀ above ∈ chain.above, above.Readable tx.view)
    (h : addBlockAt client block targets chain tx.unkept = .ok answer tx') :
    ∃ file new delta, tx.tree.file chain.last = some file ∧
      Regrows (addBlockAt client block targets chain) tx tx' chain file new
        delta := by
  have wf := ready.wellFormed
  simp only [addBlockAt, Outcome.bind_eq_ok, journal_eq_ok,
    Outcome.pure_eq_ok] at h
  obtain ⟨inode, mid, hlease, info, _, hbegin, _, _, rfl, _, rfl⟩ := h
  obtain ⟨hlease', rfl⟩ := leased_of_unkept hlease
  obtain ⟨live, ⟨file, hasFile, lease⟩, -⟩ := file_of_leased hlease'
  have hopen := lease.isOpen
  obtain ⟨parent, name, id, rfl⟩ := exists_child_of_file wf leads live hasFile
  simp only [beginBlock, Outcome.bind_eq_ok, get_eq_ok] at hbegin
  obtain ⟨again, _, ⟨⟨hread, live'⟩, rfl⟩, hbegin⟩ := hbegin
  obtain rfl : inode = again := Option.some_inj.1 (live.symm.trans live')
  simp only [hasFile, Outcome.throw_bind, hopen, if_true, Outcome.bind_eq_ok,
    accountAbove_eq_ok, put_eq_ok, Outcome.pure_eq_ok] at hbegin
  obtain ⟨_, _, ⟨_, rfl⟩, _, _, ⟨hwrite, rfl⟩, _, rfl⟩ := hbegin
  refine ⟨file, _, _, (file_of_live live).trans hasFile,
    File.recharged_beginBlock hopen block, ?_, ?_⟩
  · rw [tree_journaled, tree_stored]
    exact file_stored (wf.ids live)
  · refine .after_ok hlease'
      (.then_sure (.after_ok (get_of_live hread live) ?_) ?_)
    · simp only [hasFile, hopen, Outcome.throw_bind, if_true]
      exact decided_regrown ready keeps readable hwrite fun tx => ⟨_, _, rfl⟩
    · exact fun _ tx => ⟨_, _, rfl⟩

theorem regrows_writeInlineAt {length : Nat} {done : Unit} (ready : tx.Ready)
    (keeps : tx.keepsQuota = true) (leads : Chain.Leads tx.tree chain)
    (readable : ∀ above ∈ chain.above, above.Readable tx.view)
    (h : writeInlineAt client length chain tx.unkept = .ok done tx') :
    ∃ file new delta, tx.tree.file chain.last = some file ∧
      Regrows
        (writeInlineAt client length chain) tx tx' chain file new delta := by
  have wf := ready.wellFormed
  simp only [writeInlineAt, Outcome.bind_eq_ok, Prod.exists] at h
  obtain ⟨inode, file, mid, hlease, h⟩ := h
  obtain ⟨hlease, hasFile⟩ := leasedFile_eq_ok.1 hlease
  obtain ⟨hlease', rfl⟩ := leased_of_unkept hlease
  obtain ⟨live, -⟩ := file_of_leased hlease'
  obtain ⟨parent, name, id, rfl⟩ := exists_child_of_file wf leads live hasFile
  simp only [Outcome.throw_bind, Outcome.ite_eq_ok] at h
  split at h
  next hempty =>
    simp only [Outcome.bind_eq_ok, accountAbove_eq_ok, put_eq_ok,
      journal_eq_ok] at h
    obtain ⟨_, _, ⟨_, rfl⟩, _, _, ⟨hwrite, rfl⟩, rfl⟩ := h
    refine ⟨file, _, _, (file_of_live live).trans hasFile,
      File.recharged_inline (List.isEmpty_iff.1 hempty) length, ?_, ?_⟩
    · rw [tree_journaled, tree_stored]
      exact file_stored (wf.ids live)
    · refine .after_ok (leasedFile_eq_ok.2 ⟨hlease', hasFile⟩) ?_
      simp only [hempty, Outcome.throw_bind, if_true]
      exact decided_regrown ready keeps readable hwrite fun tx => ⟨(), _, rfl⟩
  next => simp at h

theorem regrows_appendAt {writer : Writer} {done : Unit} (ready : tx.Ready)
    (keeps : tx.keepsQuota = true) (leads : Chain.Leads tx.tree chain)
    (readable : ∀ above ∈ chain.above, above.Readable tx.view)
    (h : appendAt writer chain tx.unkept = .ok done tx') :
    ∃ file new delta, tx.tree.file chain.last = some file ∧
      Regrows (appendAt writer chain) tx tx' chain file new delta := by
  have wf := ready.wellFormed
  simp only [appendAt, Outcome.bind_eq_ok, get_eq_ok] at h
  obtain ⟨inode, _, ⟨⟨hread, live⟩, rfl⟩, h⟩ := h
  cases hasFile : inode.asFile with
  | none => simp [hasFile] at h
  | some file =>
    obtain ⟨parent, name, id, rfl⟩ := exists_child_of_file wf leads live hasFile
    cases hwriter : file.writer with
    | some holder => simp [hasFile, hwriter] at h
    | none =>
      have recharged := File.recharged_append hwriter writer
      have hfile := (file_of_live live).trans hasFile
      simp only [hasFile, hwriter] at h
      cases hpartial : file.partialBlock with
      | some info =>
        simp only [hpartial] at recharged
        simp only [hpartial, Outcome.bind_eq_ok, accountAbove_eq_ok, put_eq_ok,
          journal_eq_ok] at h
        obtain ⟨_, _, ⟨_, rfl⟩, _, _, ⟨hwrite, rfl⟩, rfl⟩ := h
        refine ⟨file, _, _, hfile, recharged, ?_,
          .after_ok (get_of_live hread live) ?_⟩
        · rw [tree_journaled, tree_stored]
          exact file_stored (wf.ids live)
        · simp only [hasFile, hwriter, hpartial]
          exact decided_regrown ready keeps readable hwrite
            fun tx => ⟨(), _, rfl⟩
      | none =>
        simp only [hpartial] at recharged
        simp only [hpartial, Outcome.bind_eq_ok, put_eq_ok, journal_eq_ok] at h
        obtain ⟨_, _, ⟨hwrite, rfl⟩, rfl⟩ := h
        refine ⟨file, _, _, hfile, recharged, ?_,
          .after_ok (get_of_live hread live) ?_⟩
        · rw [tree_journaled, tree_stored]
          exact file_stored (wf.ids live)
        · rw [Chain.refusal_of_not_anyPositive (by decide)]
          simp only [hasFile, hwriter, hpartial]
          exact ⟨(), _, by
            simp only [Outcome.bind_eq_ok, put_eq_ok, journal_eq_ok]
            exact ⟨(), _, ⟨hwrite, rfl⟩, rfl⟩⟩

end Work

end QuotaTree
