/-
The work of each request, done again from its edit on a matching tree.  Work
that writes no edit has done nothing, so that there is nothing to do again.
-/
import QuotaTree.Proofs.Replay.Works
import QuotaTree.Proofs.Request.Reading
import QuotaTree.Request.Attributes
import QuotaTree.Request.Limits

namespace QuotaTree

open Outcome (Mirrors)

namespace Directory.Matches

variable {p : Pairing} {left right : Directory}

theorem limits_eq (directories : left.Matches p right) :
    left.limits = right.limits := by
  have hlimits := directories.limits
  unfold Directory.limits
  cases hleft : left.quota <;> cases hright : right.quota <;> simp_all

/-- Setting the same limits keeps directories alike, whatever usage is
cached. -/
theorem withLimits (directories : left.Matches p right)
    (limits cached cached' : Counts) (kept : Bool) :
    (left.withLimits limits cached kept).Matches p
      (right.withLimits limits cached' kept) := by
  have hlimits := directories.limits
  obtain ⟨children, _, policy⟩ := directories
  unfold Directory.withLimits
  cases hleft : left.quota <;> cases hright : right.quota <;> simp only [hleft,
        hright] at hlimits ⊢
  · split
    · exact ⟨children, rfl, policy⟩
    · exact ⟨children, by rw [hleft, hright], policy⟩
  · cases hlimits
  · cases hlimits
  · split
    · exact ⟨children, rfl, policy⟩
    · exact ⟨children, rfl, policy⟩

end Directory.Matches

/-- The options of a file as they are written to the log: its parents may be
made. -/
def CreateOptions.written (options : CreateOptions)
    (replication blockSize : Nat) : CreateOptions where
  permission := options.permission
  replication := some replication
  blockSize := some blockSize
  writer := options.writer
  overwrite := options.overwrite

/-- Places to move to that are the same in two matching trees. -/
inductive Destination.Matches (p : Pairing) : Destination → Destination → Prop
  | here : Matches p .here .here
  | into {left right : Chain} (parents : left.Matches p right) (name : Name) :
    Matches p (.into left name) (.into right name)

namespace Work

variable {α β γ δ : Type} {p : Pairing} {Q : α → β → Prop} {R : γ → δ → Prop}
  {idle : α → Prop} {edit : Edit} {chain chain' : Chain}

theorem Looks.eq_of_ok {work : Work α} (looks : Looks work)
    {tx tx' : Transaction} {a : α} (h : work tx = .ok a tx') : tx' = tx := by
  have hstate := looks tx
  rw [h] at hstate
  exact hstate

/-- When the first work succeeds it has done nothing at all, or it has written
the edit and the second work can be done on a matching tree, with a related
answer. -/
def Retraces (p : Pairing) (Q : α → β → Prop) (idle : α → Prop) (edit : Edit)
    (work : Work α) (again : Work β) : Prop :=
  ∀ left right, Transaction.Matches p left right →
    ∀ a left', work left = .ok a left' →
    (left' = left ∧ idle a) ∨
      ∃ b right', again right = .ok b right' ∧ Q a b ∧ left'.Matches p right' ∧
        left'.edits = left.edits ++ [edit]

theorem mirrors_destination {source source' : Chain}
    (sources : source.Matches p source') (chains : chain.Matches p chain')
    {isDirectory isDirectory' : Bool} (same : isDirectory = isDirectory')
    (rest : List Name) (path : String) :
    Mirrors (Destination.Matches p) (destination source chain rest isDirectory
      path) (destination source' chain' rest isDirectory' path) := by
  subst same
  cases rest with
  | nil =>
    have hsame : chain.last = source.last ↔ chain'.last = source'.last :=
      Pairing.left_eq_iff chains.last sources.last
    simp only [destination, hsame, sources.lastName]
    split
    · exact .pure .here
    · split
      · exact .pure (.into chains _)
      · exact .throw _ _
  | cons name rest =>
    cases rest with
    | nil => exact .pure (.into chains name)
    | cons => exact .throw _ _

theorem Looks.ofExcept (x : Except Error α) :
    Looks (MonadExcept.ofExcept x : Work α) := by
  intro tx
  cases x <;> rfl

namespace Retraces

theorem of_repeats {work : Work α} {again : Work β}
    (repeats : Repeats p Q [edit] work again) :
    Retraces p Q idle edit work again :=
  fun left right matched a left' h =>
    .inr (repeats left right matched a left' h)

/-- Work that only answers. -/
theorem still {a : α} {again : Work β} (h : idle a) :
    Retraces p Q idle edit (pure a) again := by
  intro left right matched a' left' ha
  obtain ⟨rfl, rfl⟩ := Outcome.pure_eq_ok.1 ha
  exact .inl ⟨rfl, h⟩

theorem throw (error : Error) (again : Work β) :
    Retraces p Q idle edit (MonadExcept.throw error : Work α) again := by
  intro left right matched a left' ha
  cases ha

theorem ite {c : Prop} [Decidable c] {work work' : Work α}
    {again again' : Work β} (first : c → Retraces p Q idle edit work again)
    (second : ¬ c → Retraces p Q idle edit work' again') :
    Retraces p Q idle edit (if c then work else work')
      (if c then again else again') := by
  split
  next h => exact first h
  next h => exact second h

/-- Work that looks at the tree first. -/
theorem look {work : Work γ} {again : Work δ} {next : γ → Work α}
    {next' : δ → Work β} (looks : Looks work)
    (first : Repeats p R [] work again)
    (rest : ∀ {c d}, R c d → Retraces p Q idle edit (next c) (next' d)) :
    Retraces p Q idle edit (work >>= next) (again >>= next') := by
  intro left right matched a left' ha
  obtain ⟨c, mid, hc, hnext⟩ := Outcome.bind_eq_ok.1 ha
  obtain rfl := looks.eq_of_ok hc
  obtain ⟨d, mid', hd, hcd, matched', _⟩ := first mid right matched c mid hc
  refine (rest hcd mid mid' matched' a left' hnext).imp_right ?_
  rintro ⟨b, right', hb, h⟩
  exact ⟨b, right', Outcome.bind_eq_ok.2 ⟨d, mid', hd, hb⟩, h⟩

theorem read {reading : View → Except Error γ}
    {reading' : View → Except Error δ} {next : γ → Work α} {next' : δ → Work β}
    (mirrors : ∀ {left right}, View.Matches p left right →
      Mirrors R (reading left) (reading' right))
    (rest : ∀ {c d}, R c d → Retraces p Q idle edit (next c) (next' d)) :
    Retraces p Q idle edit (Work.read reading >>= next)
      (Work.read reading' >>= next') :=
  look (.read _) (Repeats.read mirrors) rest

theorem makePath (path : String) (permission : Permission) :
    Retraces p (fun _ _ => True) (fun _ => True) (.mkdirs path permission)
      (Work.makePath path permission) (Work.makePath path permission) := by
  refine read (fun views => Chain.mirrors_resolveExisting views false)
    fun {found found'} hfound => ?_
  obtain ⟨chain, rest⟩ := found
  obtain ⟨chain', rest'⟩ := found'
  obtain ⟨chains, rfl⟩ := hfound
  cases rest with
  | nil =>
    refine read (fun views => views.get chains.last) fun inodes => ?_
    rw [inodes.isDirectory]
    exact ite (fun _ => still trivial) fun _ => throw _ _
  | cons name rest =>
    exact of_repeats ((Repeats.makeDirectories permission chains _).bind
      fun _ => Repeats.journal _ _)

theorem deletePath (path : String) (recursive : Bool) :
    Retraces p Eq (· = none) (.delete path recursive)
      (Work.deletePath path recursive) (Work.deletePath path recursive) := by
  refine read (fun views => Chain.mirrors_resolveExisting views false)
    fun {found found'} hfound => ?_
  obtain ⟨chain, rest⟩ := found
  obtain ⟨chain', rest'⟩ := found'
  obtain ⟨chains, rfl⟩ := hfound
  cases rest with
  | nil =>
    refine of_repeats ?_
    simp only [map_eq_pure_bind]
    refine (Repeats.deleteTree chains path recursive).bind fun hblocks => ?_
    exact .pure (congrArg some hblocks)
  | cons name rest => exact still rfl

theorem renamePath (source destination : String) :
    Retraces p (fun _ _ => True) (fun _ => True) (.rename source destination)
      (Work.renamePath source destination)
      (Work.renamePath source destination) := by
  refine read (fun views => Chain.mirrors_resolve views false)
    fun {chain chain'} sources => ?_
  have hparents := sources.parent?
  generalize chain.parent? = above at hparents
  generalize chain'.parent? = above' at hparents
  cases hparents with
  | none => exact throw _ _
  | @some sourceParent sourceParent' sourceParents =>
    refine read (fun views => Chain.mirrors_resolveExisting views false)
      fun {found found'} hfound => ?_
    obtain ⟨existing, rest⟩ := found
    obtain ⟨existing', rest'⟩ := found'
    obtain ⟨existings, rfl⟩ := hfound
    refine read (fun views => views.get existings.last) fun inodes => ?_
    refine look (.ofExcept _) (Repeats.answer
      (mirrors_destination sources existings inodes.isDirectory _ _))
      fun hplace => ?_
    cases hplace with
    | here => exact still trivial
    | @into parent parent' parents name =>
      have hcontains := parents.contains sources.last
      have hsame :
          parent.last = sourceParent.last ↔ parent'.last = sourceParent'.last :=
        Pairing.left_eq_iff parents.last sourceParents.last
      simp only [hcontains, hsame, sources.lastName, Outcome.throw_bind]
      refine ite (fun _ => throw _ _) fun _ => ?_
      refine ite (fun _ => still trivial) fun _ => ?_
      exact of_repeats ((Repeats.move sources sourceParents parents name).bind
        fun _ => Repeats.journal _ _)

end Retraces

namespace Repeats

theorem enterFile (path : String) (options : CreateOptions)
    (replication blockSize : Nat) (parents : chain.Matches p chain')
    (name : Name) :
    Repeats p p [.create path options.permission replication blockSize
      options.writer options.overwrite]
      (Work.enterFile path options replication blockSize chain name)
      (Work.enterFile path (options.written replication blockSize) replication
        blockSize chain' name) :=
  (makeFile parents name _ replication blockSize _).bind fun chains =>
    (journal _ _).bind fun _ => pure chains.last

theorem vacate (chains : chain.Matches p chain') (path : String)
    (overwrite : Bool) (names : List Name) :
    Repeats p (fun x y => x.1.Matches p y.1 ∧ x.2.1 = y.2.1 ∧ x.2.2 = y.2.2) []
      (Work.vacate path overwrite chain names)
      (Work.vacate path overwrite chain' names) := by
  cases names with
  | nil =>
    refine (replaceFile chains path overwrite).bind
      fun {replaced _} hreplaced => ?_
    subst hreplaced
    cases chains with
    | root => exact throw _ _
    | child parents ids => exact pure ⟨parents, rfl, rfl⟩
  | cons first others => exact pure ⟨chains, rfl, rfl⟩

/-- A file whose parents were made or were there can be made again with its
parents. -/
theorem createFile (path : String) (options : CreateOptions)
    (replication blockSize : Nat) :
    Repeats p (fun x y => p x.1 y.1 ∧ x.2 = y.2) [.create path
      options.permission replication blockSize options.writer options.overwrite]
      (Work.createFile path options replication blockSize) (Work.createFile path
        (options.written replication blockSize) replication blockSize) := by
  refine (read fun views => Chain.mirrors_resolveExisting views false).bind
    fun {found found'} hfound => ?_
  obtain ⟨chain, rest⟩ := found
  obtain ⟨chain', rest'⟩ := found'
  obtain ⟨chains, rfl⟩ := hfound
  refine (vacate chains path options.overwrite rest).bind
    fun {place place'} hplace => ?_
  obtain ⟨chain, names, replaced⟩ := place
  obtain ⟨chain', names', replaced'⟩ := place'
  obtain ⟨chains, rfl, rfl⟩ := hplace
  cases names with
  | nil => exact throw _ _
  | cons first others =>
    have hallowed : Mirrors (fun _ _ => True)
        (Work.allowParents chain first others options.createParent)
        (Work.allowParents chain' first others true) := by
      intro _ _
      exact ⟨(), by simp [Work.allowParents, Pure.pure, Except.pure], trivial⟩
    refine (answer hallowed).bind fun _ => ?_
    refine (makeDirectories _ chains _).bind fun parents => ?_
    exact (enterFile path options replication blockSize parents _).bind
      fun made =>
      pure ⟨made, rfl⟩

theorem symlinkPath (target link : String) (permission : Permission)
    (createParent : Bool) :
    Repeats p p [.symlink target link permission createParent]
      (Work.symlinkPath target link permission createParent)
      (Work.symlinkPath target link permission createParent) := by
  refine (read fun views => Chain.mirrors_resolveExisting views false).bind
    fun {found found'} hfound => ?_
  obtain ⟨chain, rest⟩ := found
  obtain ⟨chain', rest'⟩ := found'
  obtain ⟨chains, rfl⟩ := hfound
  cases rest with
  | nil => exact throw _ _
  | cons first others =>
    have hallowed :
        Mirrors Eq (Work.allowParents chain first others createParent)
          (Work.allowParents chain' first others createParent) := by
      rw [Work.allowParents, Work.allowParents, chains.path]
      exact .refl _
    refine (answer hallowed).bind fun _ => ?_
    refine (makeDirectories _ chains _).bind fun parents => ?_
    refine alloc.bind fun {a b} ids => ?_
    have inodes (name : Name) :
        Inode.Matches p
          { id := a, name, permission, content := .symlink target }
          { id := b, name, permission, content := .symlink target } :=
      ⟨ids, rfl, .none, rfl, .symlink target⟩
    refine (linkNew parents (inodes _)).bind fun _ => ?_
    exact (journal _ _).bind fun _ => pure ids

theorem changeLimits (path : String) (edit : Edit) (liftsInodes : Bool)
    (change : Counts → Counts) :
    Repeats p (fun _ _ => True) [edit] (Work.changeLimits path edit liftsInodes
      change) (Work.changeLimits path edit liftsInodes change) := by
  refine (read fun views => Chain.mirrors_resolve views false).bind
    fun {chain chain'} chains => ?_
  simp only [Pairing.eq_root_iff chains.last, Outcome.throw_bind]
  refine ite (fun _ => throw _ _) fun _ => ?_
  refine (subtree chains.last).bind fun _ => ?_
  refine (usage chains.last).bind fun _ => ?_
  refine (pendingFor _ _).bind fun _ => ?_
  refine (get chains.last).bind fun {inode inode'} inodes => ?_
  have hdirectory := inodes.asDirectory
  generalize inode.asDirectory = directory at hdirectory
  generalize inode'.asDirectory = directory' at hdirectory
  cases hdirectory with
  | none => exact throw _ _
  | some directories =>
    have hkept : (chain.last == .root) = (chain'.last == .root) := by
      rw [Bool.eq_iff_iff, beq_iff_eq, beq_iff_eq]
      exact Pairing.eq_root_iff chains.last
    dsimp only
    rw [directories.limits_eq, hkept]
    exact (put (inodes.withDirectory (directories.withLimits _ _ _ _))).bind
      fun _ => journal _ _

theorem setPolicy (path : String) (policy : StoragePolicy) :
    Repeats p (fun _ _ => True) [.setPolicy path policy]
      (Work.setPolicy path policy) (Work.setPolicy path policy) := by
  refine (read fun views => Chain.mirrors_resolve views false).bind
    fun {chain chain'} chains => ?_
  refine (get chains.last).bind fun {inode inode'} inodes => ?_
  rcases inodes.kinds with ⟨directory, directory', h, h', directories⟩ |
    ⟨file, h, h'⟩ | ⟨target, h, h'⟩ <;> rw [h, h']
  · have hchanged : Directory.Matches p { directory with policy := some policy }
        { directory' with policy := some policy } :=
      { directories with policy := rfl }
    exact (put (inodes.withDirectory hchanged)).bind fun _ => journal _ _
  · refine (accountAbove _ _ _ _ _ _).bind fun _ => ?_
    exact (put (inodes.withFile _)).bind fun _ => journal _ _
  · exact throw _ _

theorem setReplication (path : String) (replication : Nat) :
    Repeats p (fun _ _ => True) [.setReplication path replication]
      (Work.setReplication path replication)
      (Work.setReplication path replication) := by
  refine (read fun views => Chain.mirrors_resolve views false).bind
    fun {chain chain'} chains => ?_
  refine (get chains.last).bind fun {inode inode'} inodes => ?_
  simp only [inodes.asFile]
  split
  · exact throw _ _
  · refine (accountAbove _ _ _ _ _ _).bind fun _ => ?_
    exact (put (inodes.withFile _)).bind fun _ => journal _ _

section Files

variable (chains : chain.Matches p chain')

include chains

theorem addBlockAt (client : String) (block : Block) (targets : List String) :
    Repeats p p [.addBlock chain.path client block targets]
      (Work.addBlockAt client block targets chain)
      (Work.addBlockAt client block targets chain') :=
  (leased chains client).bind fun _ => (beginBlock chains block).bind fun _ =>
    (journal _ _).bind fun _ => pure chains.last

theorem completeAt (client : String) (lastLength : Nat) :
    Repeats p (fun _ _ => True) [.complete chain.path client lastLength]
      (Work.completeAt client lastLength chain)
      (Work.completeAt client lastLength chain') := by
  refine (leasedFile chains client).bind fun {x y} hleased => ?_
  obtain ⟨inode, file⟩ := x
  obtain ⟨inode', file'⟩ := y
  obtain ⟨inodes, hfile⟩ := hleased
  dsimp only at inodes hfile ⊢
  subst hfile
  simp only [Outcome.throw_bind]
  refine ite (fun _ => throw _ _) fun _ => ?_
  refine (put (inodes.withFile _)).bind fun _ => ?_
  refine ite (fun _ => ?_) fun _ => journal _ _
  exact (accountAbove _ _ _ _ _ _).bind fun _ => journal _ _

theorem appendAt (writer : Writer) :
    Repeats p (fun _ _ => True) [.append chain.path writer]
      (Work.appendAt writer chain) (Work.appendAt writer chain') := by
  refine (get chains.last).bind fun {inode inode'} inodes => ?_
  simp only [inodes.asFile]
  split
  · exact throw _ _
  · split
    · exact throw _ _
    · split
      · refine (accountAbove _ _ _ _ _ _).bind fun _ => ?_
        exact (put (inodes.withFile _)).bind fun _ => journal _ _
      · exact (put (inodes.withFile _)).bind fun _ => journal _ _

theorem writeInlineAt (client : String) (length : Nat) :
    Repeats p (fun _ _ => True) [.writeInline chain.path client length]
      (Work.writeInlineAt client length chain)
      (Work.writeInlineAt client length chain') := by
  refine (leasedFile chains client).bind fun {x y} hleased => ?_
  obtain ⟨inode, file⟩ := x
  obtain ⟨inode', file'⟩ := y
  obtain ⟨inodes, hfile⟩ := hleased
  dsimp only at inodes hfile ⊢
  subst hfile
  simp only [Outcome.throw_bind]
  refine ite (fun _ => ?_) fun _ => throw _ _
  refine (accountAbove _ _ _ _ _ _).bind fun _ => ?_
  exact (put (inodes.withFile _)).bind fun _ => journal _ _

end Files

end Repeats

/-- A block that is not given up has not been touched. -/
theorem eq_of_dropBlockIfLast {block : Nat} {tx tx' : Transaction}
    (h : dropBlockIfLast chain block tx = .ok false tx') : tx' = tx := by
  simp only [dropBlockIfLast, Outcome.bind_eq_ok, get_eq_ok, Outcome.when_eq_ok,
    Outcome.pure_eq_ok] at h
  obtain ⟨inode, tx, ⟨_, rfl⟩, mid, hdrop, hlast, rfl⟩ := h
  rw [hlast] at hdrop
  exact hdrop

/-- A block is given up again if it has been given up. -/
theorem Retraces.abandonAt (chains : chain.Matches p chain') (client : String)
    (block : Nat) :
    Retraces p Eq (· = []) (.abandonBlock chain.path client block)
      (Work.abandonAt client block chain)
      (Work.abandonAt client block chain') := by
  refine look (.bind (.read _) fun _ => .bind (.ofExcept _) fun _ => .pure _)
    (Repeats.leased chains client) fun inodes => ?_
  rw [inodes.asFile]
  split
  next => exact still rfl
  next info _ =>
    intro left right matched a left' h
    obtain ⟨dropped, mid, hdrop, hrest⟩ := Outcome.bind_eq_ok.1 h
    obtain ⟨_, mid', hdrop', rfl, matched', hedits⟩ :=
      Repeats.dropBlockIfLast chains block left right matched dropped mid hdrop
    cases dropped with
    | false =>
      obtain ⟨rfl, rfl⟩ := Outcome.pure_eq_ok.1 hrest
      exact .inl ⟨eq_of_dropBlockIfLast hdrop, rfl⟩
    | true =>
      have repeats : Repeats p Eq [.abandonBlock chain.path client block]
          (do
            journal (.abandonBlock chain.path client block)
            pure [info.block])
          (do
            journal (.abandonBlock chain'.path client block)
            pure [info.block]) :=
        (Repeats.journal _ _).bind fun _ => .pure rfl
      obtain ⟨b, right', hb, hab, matched'', hmore⟩ :=
        repeats mid mid' matched' a left' hrest
      refine .inr ⟨b, right', Outcome.bind_eq_ok.2 ⟨true, mid', hdrop', hb⟩,
        hab, matched'', ?_⟩
      rw [hmore, hedits, List.append_nil]

/-- A file is cut again, at the path where it lives, to the length that it was
cut to. -/
theorem Retraces.truncateAt (chains : chain.Matches p chain')
    (path path' : String) (length : Int) :
    Retraces p Eq (· = []) (.truncate chain.path length.toNat) (Work.truncateAt
      path length chain) (Work.truncateAt path' length.toNat chain') := by
  refine look (.read _) (Repeats.get chains.last) fun inodes => ?_
  simp only [inodes.asFile]
  split
  · exact throw _ _
  · split
    · exact throw _ _
    · have hnonneg : ¬ (length.toNat : Int) < 0 := by omega
      simp only [hnonneg, if_false, Int.toNat_natCast, Outcome.throw_bind]
      by_cases hlength : length < 0
      · rw [if_pos hlength]
        exact throw _ _
      · rw [if_neg hlength]
        refine ite (fun _ => throw _ _) fun _ => ?_
        refine ite (fun _ => still rfl) fun _ => ?_
        refine of_repeats ?_
        refine (Repeats.put (inodes.withFile _)).bind fun _ => ?_
        refine (Repeats.accountAbove _ _ _ _ _ _).bind fun _ => ?_
        exact (Repeats.journal _ _).bind fun _ => .pure rfl

end Work

end QuotaTree
