/-
What one unit of work does to the books: any number of changes of the tree, or
one change of a file's data.  Merging and recounting bring up to date what
quotas have cached.
-/
import QuotaTree.Proofs.Usage.Files

namespace QuotaTree

open Nodes

namespace Books

/-- Only the last block of a file may be unfinished, and none of a closed
file. -/
def Shaped (books : Books) : Prop :=
  ∀ ⦃id file⦄, books.nodes.file id = some file → file.Shaped

/-- No file is charged for more bytes than a counter holds. -/
def Fits (books : Books) : Prop :=
  ∀ ⦃id file⦄, books.nodes.file id = some file → file.Fits

theorem Fits.own_nonneg {books : Books} (fits : books.Fits) (id : InodeId)
    (dimension : Dimension) : 0 ≤ (books.nodes.own id).get dimension := by
  cases live : books.nodes id with
  | none => rw [own_of_dead live, Counts.get_zero]
  | some inode =>
    rw [own_of_live live, Inode.ownUsage_eq]
    cases hfile : inode.asFile with
    | none => exact Counts.oneInode_nonneg dimension
    | some file =>
      exact (fits ((file_of_live live).trans hfile)).usage_nonneg dimension

end Books

namespace Inode

variable {inode : Inode}

/-- Only a directory has a quota. -/
theorem isDirectory_of_quota {quota : Quota} (h : inode.quota = some quota) :
    inode.isDirectory = true := by
  obtain ⟨directory, hdirectory, _⟩ := Option.bind_eq_some_iff.1 h
  rw [isDirectory, hdirectory]
  rfl

theorem asFile_of_directory (h : inode.isDirectory = true) :
    inode.asFile = none := by
  unfold isDirectory asDirectory at h
  unfold asFile
  cases hcontent : inode.content <;> simp_all

end Inode

namespace Change

variable {keeps : Bool} {books after : Books}

/-- A file that is there after a change was there before, or has no data. -/
theorem file (change : Change keeps books after) {id : InodeId} {file : File}
    (h : after.nodes.file id = some file) :
    books.nodes.file id = some file ∨ file.blocks = [] := by
  obtain ⟨found, hfound, hfile⟩ := Option.bind_eq_some_iff.1 h
  cases change with
  | skip => exact .inl h
  | adjust recast => exact .inl ((recast.file id).symm.trans h)
  | link ins _ _ _ _ _ _ empty =>
    rcases ins.live hfound with ⟨rfl, rfl⟩ | ⟨_, old, hold, same⟩
    · exact .inr (empty file hfile).1
    · exact .inl (by rw [file_of_live hold, ← same.file, hfile])
  | prune pruning =>
    obtain ⟨_, old, hold, same⟩ := pruning.live hfound
    exact .inl (by rw [file_of_live hold, ← same.file, hfile])
  | relocate rel =>
    left
    rcases rel.live hfound with ⟨rfl, rfl⟩ | ⟨_, old, hold, same⟩
    · obtain ⟨inode, hinode, rfl⟩ := rel.placed
      exact (file_of_live hinode).trans hfile
    · rw [file_of_live hold, ← same.file, hfile]

theorem shaped (change : Change keeps books after) (shaped : books.Shaped) :
    after.Shaped := by
  intro id file h
  rcases change.file h with h | hempty
  · exact shaped h
  · exact File.shaped_of_empty hempty

end Change

theorem Mend.shaped {books after : Books} (mend : Mend books after)
    (shaped : books.Shaped) : after.Shaped :=
  fun id _ h => shaped ((mend.recast.file id).symm.trans h)

/-- The data of a file changes, and the growth of its usage is entered at its
parent. -/
inductive Refile (keeps : Bool) (books : Books) : Books → Prop
  | intro {id parent : InodeId} {inode : Inode} {file new : File}
      {delta : Counts} (live : books.nodes id = some inode)
      (content : inode.asFile = some file)
      (link : books.nodes.HasParent id parent)
      (recharged : file.Recharged new delta) : Refile keeps books { books with
        nodes := books.nodes.set id (some (inode.withFile new))
        pending := Books.charge books.pending keeps parent delta }

namespace Refile

variable {keeps : Bool} {books after : Books} {top : InodeId} {total : Counts}

theorem alike_withFile {inode : Inode} {file : File}
    (content : inode.asFile = some file) (new : File) :
    inode.Alike (inode.withFile new) := by
  have hcontent := Inode.asFile_eq_some.1 content
  refine ⟨⟨rfl, rfl, rfl, ?_⟩, fun name => ?_⟩
  · simp [Inode.isDirectory, Inode.asDirectory, Inode.withFile, hcontent]
  · simp [Inode.child?, Inode.asDirectory, Inode.withFile, hcontent]

theorem sound (refile : Refile keeps books after) (sound : books.Sound) :
    after.Sound := by
  obtain @⟨id, parent, inode, file, new, delta, live, content, link, -⟩ :=
    refile
  have alike := alike_set live (alike_withFile content new)
  exact
    { wellFormed := alike.wellFormed sound.wellFormed
      named := fun h => sound.named ((alike.entryAt _ _).symm.trans h)
      unreserved := (alike.entryAt _ _).trans sound.unreserved
      bounded := sound.bounded
      below := fun h => by
        obtain ⟨old, hold, _⟩ := alike.symm.live h
        exact sound.below hold
      pending := fun h => by
        have hdead := alike.symm.dead h
        obtain ⟨holder, hholder, _⟩ := sound.wellFormed.live_parent link
        exact (Change.charge_of_ne (Nodes.ne_of_live_of_dead hholder
          hdead).symm).trans (sound.pending hdead) }

theorem shaped (refile : Refile keeps books after) (shaped : books.Shaped) :
    after.Shaped := by
  obtain @⟨id, _, inode, file, new, _, live, content, _, recharged⟩ := refile
  intro x other h
  by_cases hx : x = id
  · subst hx
    rw [file_of_live (set_self ..)] at h
    cases h
    exact recharged.shaped (shaped ((file_of_live live).trans content))
  · have hsame :
        (books.nodes.set id (some (inode.withFile new))).file x =
          books.nodes.file x := by
      rw [Nodes.file, Nodes.file, set_of_ne _ hx]
    exact shaped (hsame.symm.trans h)

/-- The growth of a file's usage is pending below every directory above the
file. -/
theorem sums (refile : Refile true books after) (shaped : books.Shaped)
    (fits : books.Fits) (fits' : after.Fits)
    (plain : after.nodes.file top = none) (sums : after.Sums top total) :
    books.Sums top total := by
  obtain @⟨id, parent, inode, file, new, delta, live, content, link,
    recharged⟩ := refile
  obtain ⟨ids, spans, rfl⟩ := sums
  have alike := alike_set live (alike_withFile content new)
  have hfile := (file_of_live live).trans content
  have hnew :
      (books.nodes.set id (some (inode.withFile new))).file id = some new := by
    rw [file_of_live (set_self ..)]
    rfl
  have husage : new.usage = file.usage + delta :=
    recharged.usage (shaped hfile) (fits hfile) (fits' hnew)
  have hown (x : InodeId) :
      (books.nodes.set id (some (inode.withFile new))).own x =
        books.nodes.own x + if x = id then delta else 0 := by
    by_cases hx : x = id
    · subst hx
      rw [own_of_live (set_self ..), own_of_live live, if_pos rfl,
        Inode.ownUsage_eq, Inode.ownUsage_eq, content]
      exact husage
    · rw [Nodes.own, set_of_ne _ hx, Nodes.own, if_neg hx, Counts.add_zero]
  have hne : top ≠ id := by
    rintro rfl
    cases hnew.symm.trans plain
  have hspans : books.nodes.Spans top ids :=
    fun x => (spans x).trans (alike.under top x)
  have hside : id ∈ ids ↔ parent ∈ ids := by
    rw [hspans, hspans, under_iff_of_parent link]
    simp [hne.symm]
  have hsettled (x : InodeId) : Books.settled
      { books with
        nodes := books.nodes.set id (some (inode.withFile new))
        pending := Books.charge books.pending true parent delta } x =
      books.settled x + (if x = id then delta else 0) + if x = parent then
        -delta else 0 := by
    simp only [Books.settled, hown, Change.charge_true]
    split <;> split <;> abel
  refine ⟨ids, hspans, ?_⟩
  rw [Finset.sum_congr rfl fun x _ => hsettled x, Change.sum_add_ite,
    Change.sum_add_ite]
  by_cases h : parent ∈ ids
  · simp [h, hside.2 h]
  · simp [h, mt hside.1 h]

theorem quota (refile : Refile keeps books after) {quota : Quota}
    (h : after.nodes.quota top = some quota) :
    after.nodes.file top = none ∧ books.nodes.quota top = some quota := by
  obtain @⟨id, _, inode, file, new, _, live, content, _, _⟩ := refile
  have hne : top ≠ id := by
    rintro rfl
    have hnone :
        (books.nodes.set top (some (inode.withFile new))).quota top = none := by
      rw [quota_of_live (set_self ..)]
      rfl
    exact Option.some_ne_none _ (h.symm.trans hnone)
  have hplain :
      (books.nodes.set id (some (inode.withFile new))).file top = none := by
    obtain ⟨found, hfound, hquota⟩ := quota_eq_some.1 h
    exact (file_of_live hfound).trans
      (Inode.asFile_of_directory (Inode.isDirectory_of_quota hquota))
  refine ⟨hplain, ?_⟩
  rw [← h]
  change _ = (books.nodes.set id (some (inode.withFile new))).quota top
  rw [Nodes.quota, Nodes.quota, set_of_ne _ hne]

theorem balanced (refile : Refile true books after) (shaped : books.Shaped)
    (fits : books.Fits) (fits' : after.Fits) (balanced : books.Balanced) :
    after.Balanced := by
  intro top quota ids hquota spans
  obtain ⟨plain, hquota⟩ := refile.quota hquota
  exact balanced.cached_eq hquota
    (refile.sums shaped fits fits' plain ⟨ids, spans, rfl⟩)

end Refile

/-- Any number of changes, or one of a file's data; or, where that is done at
all, what quotas have cached is brought up to date. -/
inductive Effect (keeps mends : Bool) (books after : Books) : Prop
  | changes (changes : Relation.ReflTransGen (Change keeps) books after)
  | refile (refile : Refile keeps books after)
  | mended (h : mends = true) (mended : Relation.ReflTransGen Mend books after)

namespace Effect

variable {keeps mends : Bool} {books after : Books}

theorem refl (keeps : Bool) (books : Books) : Effect keeps mends books books :=
  .changes .refl

theorem sound (effect : Effect keeps mends books after) (sound : books.Sound) :
    after.Sound := by
  cases effect with
  | changes changes =>
    induction changes with
    | refl => exact sound
    | tail _ change ih => exact change.sound ih
  | refile refile => exact refile.sound sound
  | mended _ mended =>
    induction mended with
    | refl => exact sound
    | tail _ mend ih => exact mend.sound ih

theorem shaped (effect : Effect keeps mends books after)
    (shaped : books.Shaped) : after.Shaped := by
  cases effect with
  | changes changes =>
    induction changes with
    | refl => exact shaped
    | tail _ change ih => exact change.shaped ih
  | refile refile => exact refile.shaped shaped
  | mended _ mended =>
    induction mended with
    | refl => exact shaped
    | tail _ mend ih => exact mend.shaped ih

theorem next_le (effect : Effect keeps mends books after) :
    books.next.val ≤ after.next.val := by
  cases effect with
  | changes changes =>
    induction changes with
    | refl => exact Nat.le_refl _
    | tail _ change ih => exact ih.trans change.next_le
  | refile refile =>
    cases refile
    exact Nat.le_refl _
  | mended _ mended =>
    induction mended with
    | refl => exact Nat.le_refl _
    | tail _ mend ih => exact mend.next_eq ▸ ih

/-- As long as quotas are kept and counters do not overflow, balanced books stay
balanced. -/
theorem balanced (effect : Effect true mends books after) (sound : books.Sound)
    (shaped : books.Shaped) (fits : books.Fits) (fits' : after.Fits)
    (balanced : books.Balanced) :
    after.Balanced := by
  cases effect with
  | changes changes =>
    have hboth : after.Sound ∧ after.Balanced := by
      clear fits'
      induction changes with
      | refl => exact ⟨sound, balanced⟩
      | tail _ change ih => exact ⟨change.sound ih.1, change.balanced ih.1 ih.2⟩
    exact hboth.2
  | refile refile => exact refile.balanced shaped fits fits' balanced
  | mended _ mended =>
    clear fits'
    induction mended with
    | refl => exact balanced
    | tail _ mend ih => exact mend.balanced ih

end Effect

end QuotaTree
