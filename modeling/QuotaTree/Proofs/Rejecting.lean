/-
An inode that cannot be put below a directory leaves no trace.  Its usage is
entered before the name is looked up, and where the name is taken the opposite
is entered after it, so the transaction is not what it was; but the two add up
to nothing, and nothing that the transaction answers or leaves tells the
difference.
-/
import QuotaTree.Proofs.Work.Concord

namespace QuotaTree

namespace Work

open Transaction

variable {tx tx' : Transaction} {parent : Chain} {inode : Inode}
  {counts : Counts} {checked : Bool} {error : Error}

/-- Work that has done nothing where it fails. -/
def Recoils {α : Type} (work : Work α) : Prop :=
  ∀ tx error tx', work tx = .error error tx' → tx' = tx

theorem Recoils.read {α : Type} (reading : View → Except Error α) :
    Recoils (Work.read reading) := by
  intro tx error tx' h
  unfold Work.read at h
  cases hreading : reading tx.view with
  | ok value =>
    rw [hreading] at h
    cases h
  | error cause =>
    rw [hreading] at h
    cases h
    rfl

theorem Recoils.verifyEntry (parent : Chain) (name : Name) :
    Recoils (Work.verifyEntry parent name) := by
  intro tx error tx' h
  unfold Work.verifyEntry at h
  rw [Outcome.get_bind] at h
  split at h
  · exact Recoils.read _ tx error tx' h
  · cases h

/-- A change is entered last, when nothing can fail any more. -/
theorem Recoils.account (chain : Chain) (length : Nat) (delta : Counts)
    (checked : Bool) : Recoils (Work.account chain length delta checked) := by
  intro tx error tx' h
  unfold Work.account at h
  rw [Outcome.get_bind] at h
  split at h
  · split at h
    · rcases Outcome.bind_eq_error.1 h with hverify | ⟨_, mid, _, hsubmit⟩
      · exact Recoils.read _ tx error tx' hverify
      · cases hsubmit
    · cases h
  · cases h

/-- What is not checked is entered without fail. -/
theorem account_unchecked (tx : Transaction) (chain : Chain) (delta : Counts) :
    account chain chain.length delta false tx =
      .ok () (tx.accounted chain.last delta) :=
  (account_eq_ok chain.length_pos).2
    ⟨affords_unchecked, by rw [Chain.last_upTo_length]⟩

/-- Where an inode cannot be put below a directory, nothing has been done, or a
change of usage and then its opposite have been entered.  Both inodes may be
written, so nothing fails later. -/
theorem state_of_link_error
    (keyed : ∀ holder, tx.tree parent.last = some holder →
      holder.id = parent.last)
    (above : tx.Allows parent.last .write) (below : tx.Allows inode.id .write)
    (rejected : link parent inode counts checked tx = .error error tx') :
    tx' = tx ∨ tx' =
      (tx.accounted parent.last counts).accounted parent.last (-counts) := by
  unfold link at rejected
  by_cases hreserved : parent.length = 1 ∧ inode.name = Name.ofText reservedName
  · rw [if_pos hreserved] at rejected
    cases rejected
    exact .inl rfl
  rw [if_neg hreserved] at rejected
  rcases Outcome.bind_eq_error.1 rejected with hget | ⟨holder, mid, hget, hbody⟩
  · exact .inl (Recoils.read _ _ _ _ hget)
  obtain ⟨⟨_, live⟩, hmid⟩ := get_eq_ok.1 hget
  rw [hmid] at hbody
  clear rejected
  cases hdirectory : holder.asDirectory with
  | none =>
    rw [Inode.isDirectory, hdirectory] at hbody
    cases hbody
    exact .inl rfl
  | some directory =>
    simp only [Inode.isDirectory, hdirectory, Option.isSome_some,
      if_true] at hbody
    rcases Outcome.when_eq_error.1 hbody with ⟨_, hverify⟩ |
      ⟨mid, hverify, hentered⟩
    · exact .inl (Recoils.verifyEntry _ _ _ _ _ hverify)
    rw [(entry_verified_iff.1 hverify).2] at hentered
    rcases Outcome.bind_eq_error.1 hentered with haccount |
      ⟨_, mid, haccount, hnamed⟩
    · exact .inl (Recoils.account _ _ _ _ _ _ _ haccount)
    have hmid : mid = tx.accounted parent.last counts := by
      rw [((account_eq_ok parent.length_pos).1 haccount).2,
        Chain.last_upTo_length]
    rw [hmid] at hnamed
    split at hnamed
    next htaken =>
      rw [Outcome.bind_of_ok (account_unchecked _ _ _)] at hnamed
      cases hnamed
      exact .inr rfl
    next hfree =>
      have habove : tx.Allows holder.id .write := by
        rw [keyed holder live]
        exact above
      have hstored (changed : Directory) :
          put (holder.withDirectory changed) (tx.accounted parent.last counts) =
            .ok () ((tx.accounted parent.last counts).stored
              (holder.withDirectory changed)) := put_eq_ok.2 ⟨habove, rfl⟩
      have hmoved (changed : Inode) :
          put { inode with parent := some parent.last }
              ((tx.accounted parent.last counts).stored changed) =
            .ok () (((tx.accounted parent.last counts).stored changed).stored
              { inode with parent := some parent.last }) :=
        put_eq_ok.2 ⟨below, rfl⟩
      rw [Outcome.bind_of_ok (hstored _), Outcome.bind_of_ok (hmoved _)]
        at hnamed
      cases hnamed

end Work

namespace Transaction

/-- A change and its opposite are entered both or not at all. -/
theorem concords_accounted (tx : Transaction) (id : InodeId) (delta : Counts) :
    tx.Concords ((tx.accounted id delta).accounted id (-delta)) := by
  have hzero : (-delta).isZero = delta.isZero := by
    rw [Bool.eq_iff_iff, Counts.isZero_iff, Counts.isZero_iff, neg_eq_zero]
  by_cases h : tx.keepsQuota = true ∧ delta.isZero = false
  · have hkeeps : (tx.accounted id delta).keepsQuota = true := h.1
    have hboth : (tx.accounted id delta).accounted id (-delta) =
        tx.entering (tx.updates ++ [(id, delta)] ++ [(id, -delta)]) := by
      rw [accounted, if_pos ⟨hkeeps, hzero.trans h.2⟩]
      simp [h]
    rw [hboth]
    apply Concords.entering
    intro other
    rw [entered_append, entered_append, entered_singleton, entered_singleton]
    by_cases hid : id = other <;> simp [hid]
  · have hneither : (tx.accounted id delta).accounted id (-delta) = tx := by
      simp [accounted, hzero, h]
    rw [hneither]
    exact .refl tx

/-- A transaction that is under way: calls have been made since it was begun on
a namespace. -/
inductive Underway (ns : Namespace) : Transaction → Prop
  | acting (operation : Operation) (locks : LockSet) (acts : List Act) :
      Underway ns (acting { base := ns, operation, locks } acts)

variable {ns : Namespace} {tx tx' : Transaction} {parent : Chain}
  {inode : Inode} {counts : Counts} {checked : Bool} {error : Error}

theorem Underway.sound (underway : tx.Underway ns) (sound : ns.ledger.Sound) :
    tx.base.ledger.Sound := by
  cases underway with
  | acting operation locks acts =>
    obtain ⟨next, _, hbase⟩ :=
      (extends_acting { base := ns, operation, locks } acts).base
    rw [hbase]
    exact sound

/-- Inodes are under their own identities in what the transaction shows. -/
theorem Underway.keyed (underway : tx.Underway ns)
    (keyed : ∀ {id inode}, ns.table.find? id = some inode → inode.id = id)
    {id : InodeId} {inode : Inode} (live : tx.tree id = some inode) :
    inode.id = id := by
  cases underway with
  | acting operation locks acts =>
    have hext := extends_acting { base := ns, operation, locks } acts
    have hwritten : Keyed _ := hext.keyed (keyed_of_unwritten rfl)
    obtain ⟨next, _, hbase⟩ := hext.base
    unfold tree find? at live
    split at live
    next written h => exact hwritten.own (h.trans (congrArg some live))
    next h =>
      rw [hbase] at live
      exact keyed live

/-- An insertion that is rejected is as good as none, whatever the transaction
goes on to do. -/
theorem indistinct_of_link_error (sound : ns.ledger.Sound)
    (keyed : ∀ {id inode}, ns.table.find? id = some inode → inode.id = id)
    (underway : tx.Underway ns) (above : tx.Allows parent.last .write)
    (below : tx.Allows inode.id .write)
    (rejected : Work.link parent inode counts checked tx = .error error tx')
    (acts : List Act) : Indistinct (tx.acting acts) (tx'.acting acts) := by
  have hconcords : tx.Concords tx' := by
    rcases Work.state_of_link_error (fun _ live => underway.keyed keyed live)
      above below rejected with hsame | hboth
    · rw [hsame]
      exact .refl tx
    · rw [hboth]
      exact concords_accounted tx _ _
  apply (hconcords.acting acts).indistinct
  obtain ⟨next, _, hbase⟩ := (extends_acting tx acts).base
  rw [hbase]
  exact underway.sound sound

section Clash

def made (id : InodeId) (name : String) : Inode :=
  { InodeTable.newRoot
    {} with id, name := Name.ofText name, parent := some .root }

def rootAbove (child : Inode) : Inode :=
  (InodeTable.newRoot {}).withDirectory
    { children := (∅ : Std.ExtTreeMap Name InodeId).insert child.name child.id
      quota := some ⟨Counts.unlimited, Counts.oneInode⟩ }

/-- A directory is made and entered into the root, and an identity is taken for
another. -/
def makings : List Act :=
  [.basic .alloc, .basic (.put (rootAbove (made ⟨2⟩ "a"))),
    .basic (.put (made ⟨2⟩ "a")), .basic (.submit .root { inodes := 1 }),
    .basic .alloc]

/-- A transaction that has made these calls on a namespace of its own. -/
def clashing : Transaction :=
  acting
    { base := Namespace.fresh {}, operation := .mkdirs,
      locks := (∅ : LockSet).insert .root .write }
    makings

/-- Another directory, with what is below it, would have the same name. -/
def clash : EStateM.Result Error Transaction Chain :=
  Work.link .root (made ⟨3⟩ "a") { inodes := 4, bytes := 90 } true clashing

theorem indistinct_clashing :
    (Namespace.fresh {}).ledger.Sound ∧ clashing.Underway (Namespace.fresh {}) ∧
      clashing.Allows Chain.root.last .write ∧
      clashing.Allows (made ⟨3⟩ "a").id .write ∧
      Outcome.error? clash = some (.alreadyExists "/a") ∧
      Indistinct (clashing.acting [.basic (.withdraw [⟨2⟩]), .clearLedger])
        ((Outcome.state clash).acting [.basic (.withdraw [⟨2⟩]),
          .clearLedger]) := by
  have hsound : (Namespace.fresh {}).ledger.Sound := Ledger.sound_empty
  have hkeyed {id : InodeId} {inode : Inode}
      (h : (Namespace.fresh {}).table.find? id = some inode) :
      inode.id = id := by
    rw [Namespace.fresh, InodeTable.find?_fresh] at h
    split at h
    next hroot =>
      cases h
      exact hroot
    next => cases h
  have hunderway : clashing.Underway (Namespace.fresh {}) := .acting _ _ _
  have habove : clashing.Allows Chain.root.last .write := by
    unfold Allows
    decide +kernel
  have hbelow : clashing.Allows (made ⟨3⟩ "a").id .write := by
    unfold Allows
    decide +kernel
  have herror :
      Outcome.error? clash = some (.alreadyExists "/a") := by decide +kernel
  obtain ⟨state, hstate⟩ := Outcome.error?_eq_some.1 herror
  refine ⟨hsound, hunderway, habove, hbelow, herror, ?_⟩
  rw [hstate]
  exact indistinct_of_link_error hsound hkeyed hunderway habove hbelow hstate _

/-- The change and its opposite are both there. -/
example : (Outcome.state clash).updates =
    [(.root, { inodes := 1 }), (.root, { inodes := 4, bytes := 90 }),
      (.root, { inodes := -4, bytes := -90 })] := by
  decide +kernel

end Clash

end Transaction

end QuotaTree
