/-
The ledger as a plain list.  Its two maps tell what one list of updates tells,
in the order of their submission: entering puts updates at the end under the
next numbers, everything else takes updates out, and all answers are read off
the list.
-/
import QuotaTree.Proofs.Usage.Entries

namespace QuotaTree

/-- Pending updates as one list, oldest first, with the number that comes
next. -/
structure Roll where
  next : Nat := 0
  updates : List QuotaUpdate := []
  deriving DecidableEq, Repr

namespace Roll

/-- The updates that entries become when they are numbered in order. -/
def numbered (entries : List (InodeId × Counts)) (first : Nat) :
    List QuotaUpdate :=
  (entries.zipIdx first).map fun entry => ⟨entry.2, entry.1.1, entry.1.2⟩

def enter (roll : Roll) (entries : List (InodeId × Counts)) : Roll where
  next := roll.next + entries.length
  updates := roll.updates ++ numbered entries roll.next

def keep (roll : Roll) (kept : QuotaUpdate → Bool) : Roll :=
  { roll with updates := roll.updates.filter kept }

def updatesOf (roll : Roll) (inode : InodeId) : List QuotaUpdate :=
  roll.updates.filter (·.inode = inode)

/-- What an index has where it lists numbers: nothing if there are none. -/
def listing (ids : List Nat) : Option (List Nat) :=
  if ids = [] then none else some ids

/-- What an index by inodes has for an inode. -/
def index (roll : Roll) (inode : InodeId) : Option (List Nat) :=
  listing ((roll.updatesOf inode).map QuotaUpdate.id)

/-- No update in a list is of the same inode and older. -/
def IsOldest (updates : List QuotaUpdate) (update : QuotaUpdate) : Prop :=
  ∀ other ∈ updates, other.inode = update.inode → update.id ≤ other.id

instance (updates : List QuotaUpdate) (update : QuotaUpdate) :
    Decidable (IsOldest updates update) :=
  inferInstanceAs (Decidable (∀ other ∈ updates, other.inode = update.inode →
    update.id ≤ other.id))

def targets (roll : Roll) : List InodeId :=
  (roll.updates.filter fun update => IsOldest roll.updates update).map
    QuotaUpdate.inode

/-- The sum of all updates whose inodes are listed. -/
def outstanding (roll : Roll) (inodes : List InodeId) : Counts :=
  Counts.sum ((roll.updates.filter (·.inode ∈ inodes)).map QuotaUpdate.delta)

/-- The numbers go up along the list, and stay below the next one. -/
structure Ordered (roll : Roll) : Prop where
  ascending : roll.updates.Pairwise (·.id < ·.id)
  below : ∀ update ∈ roll.updates, update.id < roll.next

variable {roll : Roll} {inode other : InodeId} {delta : Counts}
  {update : QuotaUpdate} {kept : QuotaUpdate → Bool}

theorem enter_nil (roll : Roll) : roll.enter [] = roll := by
  simp [enter, numbered]

theorem enter_append (roll : Roll) (first second : List (InodeId × Counts)) :
    roll.enter (first ++ second) = (roll.enter first).enter second := by
  simp [enter, numbered, List.zipIdx_append, Nat.add_assoc]

theorem enter_singleton (roll : Roll) (inode : InodeId) (delta : Counts) :
    roll.enter [(inode, delta)] =
      ⟨roll.next + 1, roll.updates ++ [⟨roll.next, inode, delta⟩]⟩ := rfl

theorem keep_keep (roll : Roll) (first second : QuotaUpdate → Bool) :
    (roll.keep first).keep second =
      roll.keep fun update => first update && second update := by
  simp only [keep, List.filter_filter, Bool.and_comm]

theorem keep_of_all (all : ∀ update ∈ roll.updates, kept update = true) :
    roll.keep kept = roll := by
  have hsame : roll.updates.filter kept = roll.updates :=
    List.filter_eq_self.2 all
  rw [keep, hsame]

theorem updatesOf_keep :
    (roll.keep kept).updatesOf inode = (roll.updatesOf inode).filter kept := by
  simp only [keep, updatesOf, List.filter_filter, Bool.and_comm]

theorem updatesOf_enter :
    (roll.enter [(inode, delta)]).updatesOf other = roll.updatesOf other ++
      if other = inode then [⟨roll.next, inode, delta⟩] else [] := by
  rw [enter_singleton, updatesOf, List.filter_append, ← updatesOf]
  by_cases h : other = inode
  · simp [h]
  · simp [h, eq_comm (a := inode)]

theorem mem_updatesOf : update ∈ roll.updatesOf inode ↔ update ∈ roll.updates ∧
    update.inode = inode := by
  simp [updatesOf]

/-- What is pending at an inode comes to what is pending at others. -/
theorem outstanding_cons {inodes : List InodeId} (h : inode ∉ inodes) :
    roll.outstanding (inode :: inodes) =
      Counts.sum ((roll.updatesOf inode).map QuotaUpdate.delta) +
      roll.outstanding inodes := by
  simp only [outstanding, updatesOf, List.mem_cons, Bool.decide_or]
  induction roll.updates with
  | nil => simp
  | cons update rest ih =>
    by_cases hinode : update.inode = inode
    · simp [hinode, h, ih, Counts.add_assoc]
    · by_cases hmem : update.inode ∈ inodes
      · simp [hinode, hmem, ih, add_left_comm]
      · simp [hinode, hmem, ih]

namespace Ordered

theorem enter (ordered : roll.Ordered) (inode : InodeId) (delta : Counts) :
    (roll.enter [(inode, delta)]).Ordered := by
  rw [enter_singleton]
  constructor
  · rw [List.pairwise_append]
    refine ⟨ordered.ascending, List.pairwise_singleton _ _,
      fun update hupdate last hlast => ?_⟩
    rw [List.mem_singleton.1 hlast]
    exact ordered.below update hupdate
  · intro update hupdate
    rcases List.mem_append.1 hupdate with hold | hnew
    · exact Nat.lt_succ_of_lt (ordered.below update hold)
    · rw [List.mem_singleton.1 hnew]
      exact Nat.lt_succ_self _

theorem keep (ordered : roll.Ordered) (kept : QuotaUpdate → Bool) :
    (roll.keep kept).Ordered where
  ascending := ordered.ascending.filter _
  below update hupdate := ordered.below update (List.mem_filter.1 hupdate).1

/-- Of two ordered lists with the same updates there is only one. -/
theorem eq_of_mem_iff (ordered : roll.Ordered) {updates : List QuotaUpdate}
    (ascending : updates.Pairwise (·.id < ·.id))
    (same : ∀ update, update ∈ updates ↔ update ∈ roll.updates) :
    updates = roll.updates := by
  have nodup {list : List QuotaUpdate} (h : list.Pairwise (·.id < ·.id)) :
      list.Nodup := h.imp fun hlt => by
      rintro rfl
      exact Nat.lt_irrefl _ hlt
  have hperm :=
    (List.perm_ext_iff_of_nodup (nodup ascending) (nodup ordered.ascending)).2
      same
  exact hperm.eq_of_pairwise (fun _ _ _ _ hlt hgt => absurd hgt
    (Nat.lt_asymm hlt)) ascending ordered.ascending

end Ordered

/-- An update after the first one is the oldest of its inode if that is another
inode, and it is so among the updates of other inodes. -/
theorem isOldest_cons_iff {first : QuotaUpdate} {rest : List QuotaUpdate}
    (later : ∀ update ∈ rest, first.id < update.id) (mem : update ∈ rest) :
    IsOldest (first :: rest) update ↔ update.inode ≠ first.inode ∧
      IsOldest
        (rest.filter fun other => !other.inode == first.inode) update := by
  constructor
  · intro h
    constructor
    · intro hinode
      exact absurd (h first List.mem_cons_self hinode.symm)
        (Nat.not_le.2 (later update mem))
    · intro other hother
      exact h other (List.mem_cons_of_mem _ (List.mem_filter.1 hother).1)
  · rintro ⟨hne, h⟩ other hother hinode
    rcases List.mem_cons.1 hother with rfl | hother
    · exact absurd hinode.symm hne
    · apply h other _ hinode
      rw [List.mem_filter]
      simp [hother, hinode, hne]

/-- Going through the inodes of an ordered list, each is met first at its oldest
update. -/
theorem eraseDups_map_inode {updates : List QuotaUpdate}
    (ascending : updates.Pairwise (·.id < ·.id)) :
    (updates.map QuotaUpdate.inode).eraseDups = (updates.filter
      fun update => IsOldest updates update).map QuotaUpdate.inode := by
  -- on the length, since the inode of the first update is struck from all that
  -- is left
  induction hlength :
      updates.length using Nat.strong_induction_on generalizing updates with
  | h length ih =>
    cases updates with
    | nil => rfl
    | cons first rest =>
      obtain ⟨hlater, hrest⟩ := List.pairwise_cons.1 ascending
      have holdest : IsOldest (first :: rest) first := by
        intro other hother _
        rcases List.mem_cons.1 hother with rfl | hother
        · exact Nat.le_refl _
        · exact Nat.le_of_lt (hlater other hother)
      have hshort :
          (rest.filter fun other => !other.inode == first.inode).length <
            length := by
        rw [← hlength]
        exact Nat.lt_succ_of_le (List.length_filter_le _ _)
      have hsame :
          (rest.filter fun update => IsOldest (first :: rest) update) =
            (rest.filter fun other => !other.inode == first.inode).filter
            fun update =>
            IsOldest (rest.filter fun other => !other.inode == first.inode)
              update := by
        rw [List.filter_filter]
        apply List.filter_congr
        intro update hupdate
        rw [Bool.eq_iff_iff]
        simp [isOldest_cons_iff hlater hupdate, and_comm]
      rw [List.filter_cons_of_pos (by simpa using holdest), List.map_cons,
        List.map_cons, List.eraseDups_cons, List.filter_map, hsame]
      exact congrArg _ (ih _ hshort (hrest.filter _) rfl)

end Roll

namespace Ledger

inductive Step where
  | submit (inode : InodeId) (delta : Counts)
  | submitAll (entries : List (InodeId × Counts))
  | withdraw (inode : InodeId)
  | withdrawAll (inodes : List InodeId)
  | remove (ids : List Nat)
  | clear

namespace Step

def run (ledger : Ledger) : Step → Ledger
  | submit inode delta => ledger.submit inode delta
  | submitAll entries => ledger.submitAll entries
  | withdraw inode => ledger.withdraw inode
  | withdrawAll inodes => ledger.withdrawAll inodes
  | remove ids => ledger.remove ids
  | clear => ledger.clear

def onRoll (roll : Roll) : Step → Roll
  | submit inode delta => roll.enter [(inode, delta)]
  | submitAll entries => roll.enter (entries.filter (·.2 ≠ 0))
  | withdraw inode => roll.keep fun update => update.inode ≠ inode
  | withdrawAll inodes => roll.keep fun update => update.inode ∉ inodes
  | remove ids => roll.keep fun update => update.id ∉ ids
  | clear => roll.keep fun _ => false

/-- What the change enters; of a whole list only what changes anything. -/
def entries : Step → List (InodeId × Counts)
  | submit inode delta => [(inode, delta)]
  | submitAll entries => entries.filter (·.2 ≠ 0)
  | _ => []

/-- A change takes updates out of the list or enters some. -/
theorem exists_onRoll (step : Step) (roll : Roll) :
    ∃ kept, step.onRoll roll = (roll.keep kept).enter step.entries := by
  have hall : roll.keep (fun _ => true) = roll :=
    Roll.keep_of_all fun _ _ => rfl
  cases step with
  | submit | submitAll => exact ⟨fun _ => true, by rw [hall]; rfl⟩
  | withdraw | withdrawAll | remove | clear =>
    exact ⟨_, (Roll.enter_nil _).symm⟩

end Step

/-- A ledger holds what a list holds, and its index lists the numbers inode by
inode. -/
structure Tracks (ledger : Ledger) (roll : Roll) : Prop where
  sound : ledger.Sound
  ordered : roll.Ordered
  nextId : ledger.nextId = roll.next
  listed : ∀ update, update ∈ ledger.toList ↔ update ∈ roll.updates
  index : ∀ inode, ledger.byInode[inode]? = roll.index inode

section Index

variable (index : Std.ExtTreeMap InodeId (List Nat)) (ids : List Nat)
  (inode other : InodeId)

theorem index_insert :
    (index.insert inode ids)[other]? = if other = inode then
      some ids else index[other]? := by
  by_cases h : other = inode
  · simp [h]
  · have hne : compare inode other ≠ .eq :=
      fun heq => h (Std.LawfulEqCmp.eq_of_compare heq).symm
    rw [Std.ExtTreeMap.getElem?_insert, if_neg hne, if_neg h]

theorem index_erase :
    (index.erase inode)[other]? = if other = inode then
      none else index[other]? := by
  by_cases h : other = inode
  · simp [h]
  · have hne : compare inode other ≠ .eq :=
      fun heq => h (Std.LawfulEqCmp.eq_of_compare heq).symm
    rw [Std.ExtTreeMap.getElem?_erase, if_neg hne, if_neg h]

/-- An inode whose numbers have all gone is taken out of the index. -/
theorem index_relisted : (if ids.isEmpty then index.erase inode
      else index.insert inode ids)[other]? =
      if other = inode then Roll.listing ids else index[other]? := by
  by_cases h : ids = []
  · rw [if_pos (List.isEmpty_iff.2 h), index_erase, Roll.listing, if_pos h]
  · rw [if_neg fun hempty => h (List.isEmpty_iff.1 hempty), index_insert,
      Roll.listing, if_neg h]

end Index

namespace Tracks

variable {ledger : Ledger} {roll : Roll} {inode other : InodeId}
  {update : QuotaUpdate}

theorem idsOf (tracks : ledger.Tracks roll) (inode : InodeId) :
    ledger.idsOf inode = (roll.updatesOf inode).map QuotaUpdate.id := by
  rw [Ledger.idsOf, tracks.index, Roll.index, Roll.listing]
  split
  next hnone => exact hnone.symm
  next => rfl

theorem empty : Ledger.empty.Tracks {} where
  sound := sound_empty
  ordered := ⟨List.Pairwise.nil, fun _ h => absurd h List.not_mem_nil⟩
  nextId := rfl
  listed update := by simp [Ledger.empty, toList]
  index inode := by
    simp [Ledger.empty, Roll.index, Roll.listing, Roll.updatesOf]

theorem submit (tracks : ledger.Tracks roll) (inode : InodeId)
    (delta : Counts) :
    (ledger.submit inode delta).Tracks (roll.enter [(inode, delta)]) where
  sound := tracks.sound.submit inode delta
  ordered := tracks.ordered.enter inode delta
  nextId := congrArg (· + 1) tracks.nextId
  listed update := by
    rw [tracks.sound.mem_submit, tracks.listed, tracks.nextId,
      Roll.enter_singleton, List.mem_append, List.mem_singleton]
  index other := by
    rw [Roll.index, Roll.updatesOf_enter, Ledger.submit, index_insert,
      tracks.idsOf, tracks.nextId]
    by_cases h : other = inode
    · subst h
      simp [Roll.listing]
    · rw [if_neg h, if_neg h, List.append_nil]
      exact tracks.index other

theorem submitAll (tracks : ledger.Tracks roll)
    (entries : List (InodeId × Counts)) :
    (ledger.submitAll entries).Tracks
      (roll.enter (entries.filter (·.2 ≠ 0))) := by
  induction entries generalizing ledger roll with
  | nil =>
    rw [List.filter_nil, Roll.enter_nil]
    exact tracks
  | cons entry rest ih =>
    rw [Ledger.submitAll, List.foldl_cons]
    by_cases hzero : entry.2 = 0
    · rw [if_pos ((Counts.isZero_iff _).2 hzero),
        List.filter_cons_of_neg (by simpa using hzero)]
      exact ih tracks
    · rw [if_neg fun h => hzero ((Counts.isZero_iff _).1 h),
        List.filter_cons_of_pos (by simpa using hzero), ← List.singleton_append,
        Roll.enter_append]
      exact ih (tracks.submit entry.1 entry.2)

theorem withdraw (tracks : ledger.Tracks roll) (inode : InodeId) :
    (ledger.withdraw inode).Tracks
      (roll.keep fun update => update.inode ≠ inode) where
  sound := tracks.sound.withdraw inode
  ordered := tracks.ordered.keep _
  nextId := tracks.nextId
  listed update := by
    rw [tracks.sound.mem_withdraw, tracks.listed, Roll.keep, List.mem_filter,
      decide_eq_true_eq]
  index other := by
    rw [Roll.index, Roll.updatesOf_keep, Ledger.withdraw, index_erase]
    by_cases h : other = inode
    · subst h
      simp [Roll.updatesOf, Roll.listing]
    · have hall :
          (roll.updatesOf other).filter (·.inode ≠ inode) =
            roll.updatesOf other := by
        rw [List.filter_eq_self]
        intro update hupdate
        simpa [(Roll.mem_updatesOf.1 hupdate).2] using h
      rw [if_neg h, hall]
      exact tracks.index other

theorem withdrawAll (tracks : ledger.Tracks roll) (inodes : List InodeId) :
    (ledger.withdrawAll inodes).Tracks
      (roll.keep fun update => update.inode ∉ inodes) := by
  induction inodes generalizing ledger roll with
  | nil =>
    rw [Roll.keep_of_all (by simp)]
    exact tracks
  | cons head rest ih =>
    have hrest := ih (tracks.withdraw head)
    rw [Roll.keep_keep] at hrest
    simp only [List.mem_cons, not_or, Bool.decide_and]
    exact hrest

theorem removeOne (tracks : ledger.Tracks roll) (id : Nat) :
    (ledger.removeOne id).Tracks (roll.keep fun update => update.id ≠ id) where
  sound := tracks.sound.removeOne id
  ordered := tracks.ordered.keep _
  nextId := (nextId_removeOne ledger id).trans tracks.nextId
  listed update := by
    have hmem : update ∈ (ledger.remove [id]).toList ↔ update ∈ ledger.toList ∧
        update.id ∉ [id] := tracks.sound.mem_remove
    rw [List.mem_singleton, tracks.listed] at hmem
    rw [Roll.keep, List.mem_filter, decide_eq_true_eq]
    exact hmem
  index other := by
    have hkept (h : ∀ update ∈ roll.updatesOf other, update.id ≠ id) :
        (roll.updatesOf other).filter (·.id ≠ id) = roll.updatesOf other := by
      rw [List.filter_eq_self]
      simpa using h
    rw [Roll.index, Roll.updatesOf_keep, Ledger.removeOne]
    cases hfound : ledger.updates[id]? with
    | none =>
      rw [hkept]
      · exact tracks.index other
      rintro update hupdate rfl
      have hlisted := (tracks.listed update).2 (Roll.mem_updatesOf.1 hupdate).1
      rw [tracks.sound.mem_toList, hfound] at hlisted
      cases hlisted
    | some found =>
      refine (index_relisted ..).trans ?_
      by_cases h : other = found.inode
      · rw [if_pos h, ← h, tracks.idsOf, List.filter_map]
        congr 2
        exact List.filter_congr fun update _ => Bool.eq_iff_iff.2 (by simp)
      · rw [if_neg h, hkept]
        · exact tracks.index other
        rintro update hupdate rfl
        obtain ⟨hmem, rfl⟩ := Roll.mem_updatesOf.1 hupdate
        have hlisted :=
          tracks.sound.mem_toList.1 ((tracks.listed update).2 hmem)
        rw [hfound, Option.some_inj] at hlisted
        exact h (congrArg QuotaUpdate.inode hlisted.symm)

theorem remove (tracks : ledger.Tracks roll) (ids : List Nat) :
    (ledger.remove ids).Tracks (roll.keep fun update => update.id ∉ ids) := by
  induction ids generalizing ledger roll with
  | nil =>
    rw [Roll.keep_of_all (by simp)]
    exact tracks
  | cons head rest ih =>
    have hrest := ih (tracks.removeOne head)
    rw [Roll.keep_keep] at hrest
    simp only [List.mem_cons, not_or, Bool.decide_and]
    exact hrest

theorem clear (tracks : ledger.Tracks roll) :
    ledger.clear.Tracks (roll.keep fun _ => false) where
  sound := sound_clear ledger
  ordered := tracks.ordered.keep _
  nextId := tracks.nextId
  listed update := by simp [Ledger.clear, toList, Roll.keep]
  index inode := by
    simp [Ledger.clear, Roll.index, Roll.listing, Roll.updatesOf, Roll.keep]

/-- A change of the ledger is the same change of the list. -/
theorem step (tracks : ledger.Tracks roll) (step : Step) :
    (step.run ledger).Tracks (step.onRoll roll) := by
  cases step with
  | submit inode delta => exact tracks.submit inode delta
  | submitAll entries => exact tracks.submitAll entries
  | withdraw inode => exact tracks.withdraw inode
  | withdrawAll inodes => exact tracks.withdrawAll inodes
  | remove ids => exact tracks.remove ids
  | clear => exact tracks.clear

theorem toList (tracks : ledger.Tracks roll) :
    ledger.toList = roll.updates := by
  apply tracks.ordered.eq_of_mem_iff _ tracks.listed
  rw [Ledger.toList, List.pairwise_map]
  apply Std.ExtTreeMap.ordered_keys_toList.imp_of_mem
  intro first second hfirst hsecond hlt
  rw [Std.ExtTreeMap.mem_toList_iff_getElem?_eq_some] at hfirst hsecond
  rw [(tracks.sound.numbered hfirst).1, (tracks.sound.numbered hsecond).1]
  exact Nat.compare_eq_lt.1 hlt

theorem updatesOf (tracks : ledger.Tracks roll) (inode : InodeId) :
    ledger.updatesOf inode = roll.updatesOf inode := by
  rw [Ledger.updatesOf, tracks.idsOf, List.filterMap_map]
  have hfound : ∀ update ∈ roll.updatesOf inode,
      ((ledger.updates[·]?) ∘ QuotaUpdate.id) update = some update :=
    fun update hupdate => tracks.sound.mem_toList.1
      ((tracks.listed update).2 (Roll.mem_updatesOf.1 hupdate).1)
  rw [List.filterMap_congr hfound, List.filterMap_some]

/-- The sums of several inodes add up to the sum of all their updates. -/
theorem outstanding (tracks : ledger.Tracks roll) {inodes : List InodeId}
    (nodup : inodes.Nodup) :
    ledger.outstanding inodes = roll.outstanding inodes := by
  induction inodes with
  | nil => simp [Ledger.outstanding, Roll.outstanding]
  | cons inode rest ih =>
    obtain ⟨hnot, hrest⟩ := List.nodup_cons.1 nodup
    rw [outstanding_eq_sum, List.map_cons, Counts.sum_cons,
      ← outstanding_eq_sum, ih hrest, Roll.outstanding_cons hnot, pendingAt_eq,
      tracks.updatesOf]

end Tracks

end Ledger

end QuotaTree
