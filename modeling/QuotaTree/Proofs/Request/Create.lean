/-
Making directories, files and symlinks puts one new inode after the other below
a directory, and a file that is made anew is taken out first.
-/
import QuotaTree.Proofs.Request.Rules

namespace QuotaTree

open Work Transaction

namespace Work

variable {tx tx' : Transaction} {chain : Chain} {path : String}

/-- A file that is made anew is taken out as it was. -/
theorem turns_replaceFile {overwrite : Bool} {replaced : List Block}
    (ready : tx.Ready) (leads : Chain.Leads tx.tree chain)
    (h : replaceFile chain path overwrite tx = .ok replaced tx') :
    tx.Turns tx' := by
  simp only [replaceFile, Outcome.bind_eq_ok, get_eq_ok] at h
  obtain ⟨inode, _, ⟨_, rfl⟩, h⟩ := h
  cases hfile : inode.asFile with
  | none => simp [hfile] at h
  | some file =>
    simp only [hfile] at h
    cases hwriter : file.writer with
    | some holder => simp [hwriter] at h
    | none =>
      simp only [hwriter, Outcome.ite_eq_ok] at h
      split at h
      next =>
        simp only [Outcome.bind_eq_ok, Outcome.pure_eq_ok] at h
        obtain ⟨_, _, hunlink, _, rfl⟩ := h
        cases leads with
        | root => exact absurd hunlink unlink_root
        | child _ entry => exact turns_unlink ready entry hunlink
      next => simp at h

theorem Frames.makePath (path : String) (permission : Permission) :
    Frames (makePath path permission) := by
  refine bind (read _) fun found => ?_
  obtain ⟨chain, rest⟩ := found
  cases rest with
  | nil => exact bind (read _) fun inode => ite (pure _) (throw _)
  | cons name rest => exact bind (makeDirectories _ _ _) fun _ => journal _

theorem turns_makePath {permission : Permission} {done : Unit}
    (ready : tx.Ready) (h : makePath path permission tx = .ok done tx') :
    tx.Turns tx' := by
  simp only [makePath, Outcome.bind_eq_ok, read_eq_ok, Prod.exists] at h
  obtain ⟨chain, rest, _, ⟨hresolve, rfl⟩, h⟩ := h
  cases rest with
  | nil =>
    simp only [Outcome.bind_eq_ok, get_eq_ok, Outcome.ite_eq_ok,
      Outcome.pure_eq_ok] at h
    obtain ⟨inode, _, ⟨_, rfl⟩, h⟩ := h
    split at h
    next => exact h.2 ▸ .refl _
    next => simp at h
  | cons name rest =>
    simp only [Outcome.bind_eq_ok, journal_eq_ok] at h
    obtain ⟨_, mid, hmake, rfl⟩ := h
    have proper :=
      (Chain.Leads.resolveExisting ready.reads hresolve).proper ready.wellFormed
    have named := Chain.proper_of_missing hresolve
    exact (turns_makeDirectories ready proper named hmake).1.trans
      (.journaled _ _)

theorem Frames.enterFile (path : String) (options : CreateOptions)
    (replication blockSize : Nat) (parent : Chain) (name : Name) :
    Frames (enterFile path options replication blockSize parent name) :=
  bind (makeFile _ _ _ _ _ _) fun _ => bind (journal _) fun _ => pure _

theorem turns_enterFile {options : CreateOptions} {replication blockSize : Nat}
    {name : Name} {id : InodeId} (ready : tx.Ready) (proper : chain.Proper)
    (named : name.Proper)
    (h : enterFile path options replication blockSize chain name tx =
      .ok id tx') :
    tx.Turns tx' := by
  simp only [enterFile, Outcome.bind_eq_ok, journal_eq_ok,
    Outcome.pure_eq_ok] at h
  obtain ⟨chain, mid, hmake, _, _, rfl, _, rfl⟩ := h
  exact (turns_makeFile ready proper named hmake).trans (.journaled _ _)

theorem Frames.vacate (path : String) (overwrite : Bool) (chain : Chain)
    (names : List Name) : Frames (vacate path overwrite chain names) := by
  cases names with
  | nil =>
    refine bind (replaceFile _ _ _) fun replaced => ?_
    cases chain.parent? with
    | none => exact throw _
    | some parent => exact pure _
  | cons first others => exact pure _

/-- The place for a file is that of the file taken out, or the one where names
are missing. -/
theorem exists_of_vacate {overwrite : Bool} {rest names : List Name}
    {place : Chain} {replaced : List Block}
    (h : vacate path overwrite chain rest tx =
      .ok (place, names, replaced) tx') :
    (∃ name id, chain = place.child name id ∧ rest = [] ∧ names = [name] ∧
        replaceFile chain path overwrite tx = .ok replaced tx') ∨
      rest ≠ [] ∧ place = chain ∧ names = rest ∧ replaced = [] ∧ tx' = tx := by
  cases rest with
  | nil =>
    simp only [vacate, Outcome.bind_eq_ok] at h
    obtain ⟨blocks, after, hreplace, hparent⟩ := h
    cases chain with
    | root => simp [Chain.parent?] at hparent
    | child parent name id =>
      simp only [Chain.parent?_child, Chain.lastName_child, Outcome.pure_eq_ok,
        Prod.mk.injEq] at hparent
      obtain ⟨⟨rfl, rfl, rfl⟩, rfl⟩ := hparent
      exact .inl ⟨name, id, rfl, rfl, rfl, hreplace⟩
  | cons first others =>
    simp only [vacate, Outcome.pure_eq_ok, Prod.mk.injEq] at h
    obtain ⟨⟨rfl, rfl, rfl⟩, rfl⟩ := h
    exact .inr ⟨List.cons_ne_nil _ _, rfl, rfl, rfl, rfl⟩

theorem Frames.createFile (path : String) (options : CreateOptions)
    (replication blockSize : Nat) :
    Frames (createFile path options replication blockSize) := by
  refine bind (read _) fun found => ?_
  refine bind (vacate _ _ _ _) fun place => ?_
  obtain ⟨chain, names, replaced⟩ := place
  cases names with
  | nil => exact throw _
  | cons first others =>
    refine bind (ofExcept _) fun _ => ?_
    refine bind (makeDirectories _ _ _) fun _ => ?_
    exact bind (enterFile _ _ _ _ _ _) fun _ => pure _

/-- How a file comes to be made, given what exists of its path and the names
that are missing: it takes the place of another one, or it is put below the
parents that are missing. -/
inductive MakesFile (path : String) (options : CreateOptions)
    (replication blockSize : Nat) (tx : Transaction) :
    Chain → List Name → InodeId × List Block → Transaction → Prop
  | replacing {parent : Chain} {name : Name} {old id : InodeId}
      {replaced : List Block} {mid after : Transaction}
      (replace : replaceFile (parent.child name old) path options.overwrite tx =
        .ok replaced mid)
      (enter : enterFile path options replication blockSize parent name mid =
        .ok id after) :
    MakesFile path options replication blockSize tx (parent.child name old) []
      (id, replaced) after
  | adding {chain parent : Chain} {first : Name} {others : List Name}
      {id : InodeId} {mid after : Transaction}
      (parents : makeDirectories options.permission chain
        (first :: others).dropLast tx = .ok parent mid)
      (enter : enterFile path options replication blockSize parent ((first ::
        others).getLast (List.cons_ne_nil first others)) mid = .ok id after) :
    MakesFile path options replication blockSize tx chain (first :: others)
      (id, []) after

theorem exists_of_createFile {options : CreateOptions}
    {replication blockSize : Nat} {answer : InodeId × List Block}
    (h : createFile path options replication blockSize tx = .ok answer tx') :
    ∃ chain rest, Chain.resolveExisting tx.view path false = .ok (chain, rest) ∧
      MakesFile path options replication blockSize tx chain rest answer
        tx' := by
  simp only [createFile, Outcome.bind_eq_ok, read_eq_ok, Prod.exists] at h
  obtain ⟨chain, rest, _, ⟨hresolve, rfl⟩, place, names, replaced, mid, hvacate,
    h⟩ := h
  refine ⟨chain, rest, hresolve, ?_⟩
  rcases exists_of_vacate hvacate with ⟨name, old, rfl, rfl, rfl, hreplace⟩ |
    ⟨hrest, rfl, rfl, rfl, rfl⟩
  · simp only [Outcome.bind_eq_ok, Outcome.ofExcept_eq_ok,
      List.dropLast_singleton, makeDirectories, Outcome.pure_eq_ok] at h
    obtain ⟨_, _, ⟨_, rfl⟩, _, _, ⟨rfl, rfl⟩, id, _, henter, rfl, rfl⟩ := h
    exact .replacing hreplace henter
  · obtain ⟨first, others, rfl⟩ := List.exists_cons_of_ne_nil hrest
    simp only [Outcome.bind_eq_ok, Outcome.ofExcept_eq_ok,
      Outcome.pure_eq_ok] at h
    obtain ⟨_, _, ⟨_, rfl⟩, parent, mid, hparents, id, _, henter, rfl, rfl⟩ := h
    exact .adding hparents henter

theorem turns_createFile {options : CreateOptions} {replication blockSize : Nat}
    {answer : InodeId × List Block} (ready : tx.Ready)
    (h : createFile path options replication blockSize tx = .ok answer tx') :
    tx.Turns tx' := by
  obtain ⟨chain, rest, hresolve, made⟩ := exists_of_createFile h
  have leads := Chain.Leads.resolveExisting ready.reads hresolve
  cases made with
  | replacing hreplace henter =>
    have hreplaced := turns_replaceFile ready leads hreplace
    have proper := (leads.proper ready.wellFormed).1
    cases leads with
    | child _ entry =>
      exact hreplaced.trans (turns_enterFile (hreplaced.ready ready) proper
        (ready.sound.named entry) henter)
  | adding hparents henter =>
    have named := Chain.proper_of_missing hresolve
    obtain ⟨hparents, hproper⟩ :=
      turns_makeDirectories ready (leads.proper ready.wellFormed)
        (fun name h => named name (List.mem_of_mem_dropLast h)) hparents
    exact hparents.trans (turns_enterFile (hparents.ready ready) hproper
      (named _ (List.getLast_mem _)) henter)

theorem Frames.symlinkPath (target link : String) (permission : Permission)
    (createParent : Bool) :
    Frames (symlinkPath target link permission createParent) := by
  refine bind (read _) fun found => ?_
  obtain ⟨chain, rest⟩ := found
  cases rest with
  | nil => exact throw _
  | cons first others =>
    refine bind (ofExcept _) fun _ => ?_
    refine bind (makeDirectories _ _ _) fun _ => ?_
    refine bind alloc fun _ => ?_
    refine bind (Frames.link _ _ _ _) fun _ => ?_
    exact bind (journal _) fun _ => pure _

theorem turns_symlinkPath {target link : String} {permission : Permission}
    {createParent : Bool} {id : InodeId} (ready : tx.Ready)
    (h : symlinkPath target link permission createParent tx = .ok id tx') :
    tx.Turns tx' := by
  simp only [symlinkPath, Outcome.bind_eq_ok, read_eq_ok, Prod.exists] at h
  obtain ⟨chain, rest, _, ⟨hresolve, rfl⟩, h⟩ := h
  have leads := Chain.Leads.resolveExisting ready.reads hresolve
  cases rest with
  | nil => simp at h
  | cons first others =>
    simp only [Outcome.bind_eq_ok, Outcome.ofExcept_eq_ok, journal_eq_ok,
      Outcome.pure_eq_ok] at h
    obtain ⟨_, _, ⟨_, rfl⟩, parent, mid, hparents, id, _, halloc, _, _, hlink,
      _, _, rfl, _,
      rfl⟩ := h
    have named := Chain.proper_of_missing hresolve
    obtain ⟨hparents, hproper⟩ :=
      turns_makeDirectories ready (leads.proper ready.wellFormed)
        (fun name h => named name (List.mem_of_mem_dropLast h)) hparents
    have hlinked := turns_makeSymlink (hparents.ready ready) hproper
      (named _ (List.getLast_mem _)) halloc hlink
    exact (hparents.trans hlinked).trans (.journaled _ _)

end Work

namespace Namespace

theorem drifting_mkdirs (path : String) (permission : Permission) :
    Drifting (mkdirs path permission) :=
  (Quiet.resolvePath path).drifting.bind
    fun _ => .transact (.makePath _ _) turns_makePath

theorem drifting_create (path : String) (options : CreateOptions) :
    Drifting (create path options) := by
  refine (Quiet.resolvePath path).drifting.bind fun path => ?_
  refine Quiet.get.drifting.bind fun ns => ?_
  extract_lets config replication blockSize rest
  refine .guarded
    (.guarded (.bind (.transact (.createFile _ _ _ _) turns_createFile) ?_))
  exact fun answer => ((Quiet.releaseBlocks _).bind fun _ => .pure _).drifting

theorem drifting_createSymlink (target link : String) (permission : Permission)
    (createParent : Bool) :
    Drifting (createSymlink target link permission createParent) := by
  unfold createSymlink
  extract_lets rest
  exact .guarded ((Quiet.resolvePath link).drifting.bind fun link =>
    .transact (.symlinkPath _ _ _ _) turns_symlinkPath)

end Namespace

end QuotaTree
