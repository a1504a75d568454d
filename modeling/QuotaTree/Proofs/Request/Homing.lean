/-
Requests on a file, made at the path where the file lives.  Whatever path has
led to the file, they do the same there.
-/
import QuotaTree.Proofs.Request.Following
import QuotaTree.Proofs.Request.Write
import QuotaTree.Proofs.Tree.Home

namespace QuotaTree

open Transaction

namespace Transaction

variable {tx other : Transaction}

def relocked (tx other : Transaction) : Transaction :=
  { tx with
    base := { tx.base with locks := other.base.locks }
    locks := other.locks }

/-- Nothing that is stored depends on the locks that are given back. -/
theorem commit_relocked
    (h : other.base.locks.releaseAll
      other.locks = tx.base.locks.releaseAll tx.locks) :
    (tx.relocked other).commit = tx.commit := by
  simp only [commit, unlock, Namespace.journal_eq, relocked, h]
  rfl

end Transaction

namespace Work

variable {tx tx' other : Transaction} {path path' : String} {length : Int}
  {chain : Chain} {dropped : List Block}

/-- Cutting a file needs no lock but the one on the file. -/
theorem truncateAt_relocked
    (wf : tx.tree.WellFormed) (leads : Chain.Leads tx.tree chain)
    (allows : other.locks.holds chain.last .write = true)
    (h : truncateAt path length chain tx = .ok dropped tx') :
    truncateAt path' length chain (tx.relocked other) =
      .ok dropped (tx'.relocked other) := by
  have hwrite : (tx.relocked other).Allows chain.last .write := .inl allows
  simp only [truncateAt, Outcome.bind_eq_ok, get_eq_ok] at h ⊢
  obtain ⟨inode, _, ⟨⟨_, live⟩, rfl⟩, h⟩ := h
  refine ⟨inode, _, ⟨⟨hwrite.read, live⟩, rfl⟩, ?_⟩
  cases hfile : inode.asFile with
  | none => simp [hfile] at h
  | some file =>
    obtain ⟨parent, name, id, rfl⟩ := exists_child_of_file wf leads live hfile
    cases hwriter : file.writer with
    | some holder => simp [hfile, hwriter] at h
    | none =>
      simp only [hfile, hwriter, Outcome.throw_bind, Outcome.ite_eq_ok] at h ⊢
      split at h
      next => simp at h
      next hlength =>
        rw [if_neg hlength]
        split at h
        next => simp at h
        next hsize =>
          rw [if_neg hsize]
          split at h
          next hsame =>
            obtain ⟨rfl, rfl⟩ := Outcome.pure_eq_ok.1 h
            rw [if_pos hsame]
            rfl
          next hsame =>
            have hid : inode.id = id := wf.ids live
            simp only [Outcome.bind_eq_ok, put_eq_ok, accountAbove_eq_ok,
              journal_eq_ok, Outcome.pure_eq_ok, Inode.id_withFile] at h
            obtain ⟨_, _, ⟨_, rfl⟩, _, _, ⟨_, rfl⟩, _, _, rfl, rfl, rfl⟩ := h
            rw [if_neg hsame]
            simp only [Outcome.bind_eq_ok, put_eq_ok, accountAbove_eq_ok,
              journal_eq_ok, Outcome.pure_eq_ok, Inode.id_withFile]
            exact ⟨(), _, ⟨hid ▸ hwrite, rfl⟩, (), _, ⟨affords_unchecked, rfl⟩,
              (), _, rfl, trivial,
              rfl⟩

end Work

namespace Namespace

variable {ns ns' : Namespace} {operation : Operation} {α : Type} {path : String}

theorem resolvePath_bind (plain : Path.isReserved path = false)
    (next : String → Request α) :
    (resolvePath path >>= next) ns = next path ns := by
  refine Outcome.bind_of_ok ?_
  rw [resolvePath, Path.resolveReserved_of_plain plain]

theorem relocked_opened {locks locks' : LockSet} :
    (ns.opened operation locks).relocked (ns.opened operation locks') =
      ns.opened operation locks' :=
  rfl

/-- With other locks, as long as the file is locked, the same is stored. -/
theorem truncateAt_opened {locks locks' : LockSet} {length : Int}
    {chain : Chain} {dropped : List Block} {tx : Transaction} (sound : ns.Sound)
    (leads : Chain.Leads ns.table.tree chain) (path' : String)
    (allows : locks'.holds chain.last .write = true)
    (h : Work.truncateAt path length chain (ns.opened operation locks) =
      .ok dropped tx) :
    ∃ tx', Work.truncateAt path' length chain (ns.opened operation locks') =
        .ok dropped tx' ∧
      tx'.commit = tx.commit := by
  have wf : (ns.opened operation locks).tree.WellFormed :=
    tree_opened ▸ sound.books.wellFormed
  have hcut : Work.truncateAt path' length chain
      ((ns.opened operation locks).relocked (ns.opened operation locks')) =
        .ok dropped (tx.relocked (ns.opened operation locks')) :=
    Work.truncateAt_relocked wf (tree_opened ▸ leads) allows h
  rw [relocked_opened] at hcut
  refine ⟨_, hcut, commit_relocked ?_⟩
  rw [releaseAll_of_extends sound
    ((Work.Frames.truncateAt _ _ _).extends_of_ok h)]
  exact releaseAll_opened sound.locks

structure IsHome (home : String) : Prop where
  canonical : Path.Canonical home
  plain : Path.isReserved home = false

/-- A request that does at the path where the file lives what it does at any
path to it. -/
def Homing (request : String → Request α) : Prop :=
  ∀ (ns : Namespace) (path : String) (a : α) (ns' : Namespace), ns.Sound →
    Path.isReserved path = false → request path ns = .ok a ns' →
      ∃ home, IsHome home ∧ request home ns = .ok a ns'

namespace Homing

variable {β : Type}

theorem onFile {work : Chain → Work α} (frames : ∀ chain, (work chain).Frames) :
    Homing (Namespace.onFile operation · work) := by
  intro ns path a ns' sound plain h
  beta_reduce at h ⊢
  rw [Namespace.onFile, resolvePath_bind plain] at h
  obtain ⟨locks, tx, hplan, hwork, rfl⟩ := exists_of_transact sound.locks h
  obtain ⟨chain, _, hread, hwork⟩ := Outcome.bind_eq_ok.1 hwork
  obtain ⟨hresolve, rfl⟩ := Work.read_eq_ok.1 hread
  have hstored := Chain.resolve_unveiled veils_opened hresolve
  have leads : Chain.Leads ns.books.nodes chain :=
    Chain.Leads.resolve (InodeTable.view_reads sound.books.wellFormed) hstored
  have home : IsHome chain.path :=
    ⟨(Chain.resolve_path hresolve).1, leads.isReserved_path sound.books⟩
  -- along both paths the same inodes are locked
  have hplan' :
      (LockDemand.ofPath { path := chain.path, kind := .write }).plan
        ns.table.view = .ok locks := by
    rw [LockDemand.plan_write (Chain.resolve_eq_ok.1 hstored)] at hplan
    rw [LockDemand.plan_write
      (Chain.resolve_eq_ok.1 (Chain.resolve_path hstored).2), hplan]
  refine ⟨chain.path, home, ?_⟩
  rw [Namespace.onFile, resolvePath_bind home.plain]
  refine (transact_eq_ok sound.locks (.bind (.read _) frames)).2
    ⟨locks, tx, hplan', ?_, rfl⟩
  rw [Outcome.bind_of_ok (Work.read_of_ok (Chain.resolve_path hresolve).2)]
  exact hwork

/-- What comes before does not look at the path. -/
theorem after {first : Request β} {rest : β → String → Request α}
    (quiet : Quiet first) (homing : ∀ b, Homing (rest b)) :
    Homing fun path => first >>= fun b => rest b path := by
  intro ns path a ns' sound plain h
  obtain ⟨b, mid, hfirst, hrest⟩ := Outcome.bind_eq_ok.1 h
  have same := quiet ns
  rw [hfirst] at same
  obtain ⟨home, hhome, hmoved⟩ :=
    homing b mid path a ns' (same.sound sound) plain hrest
  exact ⟨home, hhome, (Outcome.bind_of_ok hfirst).trans hmoved⟩

/-- What comes after does not look at the path. -/
theorem followed {request : String → Request β} {next : β → Request α}
    (homing : Homing request) : Homing fun path => request path >>= next := by
  intro ns path a ns' sound plain h
  obtain ⟨b, mid, hrequest, hnext⟩ := Outcome.bind_eq_ok.1 h
  obtain ⟨home, hhome, hmoved⟩ := homing ns path b mid sound plain hrequest
  exact ⟨home, hhome, (Outcome.bind_of_ok hmoved).trans hnext⟩

theorem guarded {c : Prop} [Decidable c] {error : Error}
    {rest : PUnit → String → Request α} (homing : Homing (rest ⟨⟩)) :
    Homing fun path => if c then MonadExcept.throw error >>= (rest · path)
      else rest ⟨⟩ path := by
  by_cases hc : c
  · simp only [if_pos hc]
    intro ns path a ns' sound plain h
    cases h
  · simp only [if_neg hc]
    exact homing

end Homing

theorem homing_addBlock (client : String) (targets : List String) :
    Homing (addBlock · client targets) :=
  .after quiet_nextBlockOut
    fun _ => .followed (.after (fun _ => ⟨rfl, rfl, rfl, rfl, rfl⟩)
    fun _ => .followed (.onFile (.addBlockAt _ _ _)))

theorem homing_abandonBlock (client : String) (block : Nat) :
    Homing (abandonBlock · client block) :=
  .followed (.onFile (.abandonAt _ _))

theorem homing_writeInline (client : String) (length : Nat) :
    Homing (writeInline · client length) :=
  .after .get fun _ => .guarded (.onFile (.writeInlineAt _ _))

/-- A file that was reached through symlinks is cut as well at the path where it
lives, from which no symlink is followed. -/
theorem truncate_home {length : Int} (sound : ns.Sound)
    (plain : Path.isReserved path = false)
    (h : truncate path length ns = .ok () ns') :
    ∃ chain, IsHome chain.path ∧
      Chain.Follows ns.table.view Chain.maxHops chain.path [] (chain, []) ∧
      truncate chain.path length ns = .ok () ns' := by
  rw [truncate, resolvePath_bind plain] at h
  obtain ⟨dropped, mid, hcut, hrelease⟩ := Outcome.bind_eq_ok.1 h
  obtain ⟨locks, tx, hplan, hwork, rfl⟩ := exists_of_transact sound.locks hcut
  obtain ⟨chain, _, hread, hwork⟩ := Outcome.bind_eq_ok.1 hwork
  obtain ⟨hresolve, rfl⟩ := Work.read_eq_ok.1 hread
  have wf : ns.table.tree.WellFormed := sound.books.wellFormed
  obtain ⟨links, hlinks⟩ :=
    Chain.follow_eq_ok.1 (Chain.resolve_eq_ok.1 hresolve)
  have hstored := hlinks.unveiled veils_opened
  have leads : Chain.Leads ns.books.nodes chain :=
    (hstored.leads (InodeTable.view_reads wf)).1
  -- fewer inodes are locked then
  obtain ⟨canonical, hhome⟩ := hstored.home Chain.maxHops
  have home : IsHome chain.path :=
    ⟨canonical, leads.isReserved_path sound.books⟩
  let lock : PathLock :=
    { path := chain.path, kind := .write, following := true }
  obtain ⟨locks', hplan', hlast, _, hopened⟩ :=
    @exists_resolves_opened ns .truncate lock [] chain [] sound rfl
      (by simp [lock]) (by simp [lock]) hhome (by simp [Inside])
  obtain ⟨tx', hcut', hcommit⟩ :=
    truncateAt_opened sound leads chain.path hlast hwork
  refine ⟨chain, home, hhome, ?_⟩
  rw [truncate, resolvePath_bind home.plain]
  refine Outcome.bind_eq_ok.2 ⟨dropped, tx.commit, ?_, hrelease⟩
  refine (transact_eq_ok sound.locks (.bind (.read _)
    fun _ => .truncateAt _ _ _)).2 ⟨locks', tx', hplan', ?_, hcommit.symm⟩
  rw [Outcome.bind_of_ok (Work.read_of_ok (Chain.resolve_of_ends hopened))]
  exact hcut'

end Namespace

end QuotaTree
