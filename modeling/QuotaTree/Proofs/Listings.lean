/-
Listings of subtrees.  Every entry is found anew, along a path that goes on from
the path of its directory by its name; it is the right one, unless the listing
begins with the parent of a numbered inode, where the paths of the entries are
none.
-/
import QuotaTree.Command
import QuotaTree.Proofs.Faults.Planning
import QuotaTree.Proofs.Symlinks
import QuotaTree.Proofs.Tree.Outline
import QuotaTree.Proofs.Tree.Words

namespace QuotaTree

open Nodes

theorem Inode.status_name (inode : Inode) :
    inode.status.name = inode.name.text := by
  unfold status
  cases inode.content <;> rfl

theorem Inode.status_entries (inode : Inode) :
    inode.status.entries = inode.children.length := by
  unfold status children entries asDirectory
  cases inode.content <;> simp

theorem Inode.status_kind (inode : Inode) :
    inode.status.kind = .directory ↔ inode.isDirectory = true := by
  unfold status isDirectory asDirectory
  cases inode.content <;> simp

theorem Inode.asDirectory_eq_none {inode : Inode}
    (leaf : inode.isDirectory = false) : inode.asDirectory = none := by
  rwa [isDirectory, Option.isSome_eq_false_iff, Option.isNone_iff_eq_none]
    at leaf

namespace Namespace

variable {ns ns' : Namespace} {path : String} {chain : Chain} {inode : Inode}

theorem ask_of_ok {α : Type} {request : Request α} {answer : α}
    (h : request ns = .ok answer ns') : ns.ask request = .ok answer := by
  rw [ask, h]

theorem ask_of_error {α : Type} {request : Request α} {error : Error}
    (h : request ns = .error error ns') : ns.ask request = .error error := by
  rw [ask, h]

section Located

variable (sound : ns.Sound) (located : ns.table.locate path = .ok chain)
  (live : ns.table.find? chain.last = some inode)

include sound located live

/-- What is told of the inode at a path is told of the inode that the path leads
to. -/
theorem tell_of_locate {α : Type} (operation : Operation) (tell : Inode → α) :
    (do
      let path ← resolvePath path
      transact operation (.ofPath { path, kind := .read }) do
        let chain ← Work.read (Chain.resolve · path false)
        let inode ← Work.get chain.last
        pure (tell inode) : Request α) ns = .ok (tell inode) ns := by
  obtain ⟨resolved, hresolved, h⟩ := InodeTable.locate_eq_ok.1 located
  have hexisting := Chain.resolve_eq_ok.1 h
  obtain ⟨locks, hplan, hgrants⟩ :=
    @exists_opened ns [{ path := resolved, kind := .read }] sound operation
      fun lock hlock => by
      rw [List.mem_singleton.1 hlock]
      exact ⟨rfl, chain, [], hexisting⟩
  have grants := hgrants _ (List.mem_singleton_self _) chain [] hexisting
  have hget : Work.get chain.last (ns.opened operation locks) =
      .ok inode (ns.opened operation locks) := by
    rw [Work.get_eq_ok, tree_opened]
    exact ⟨⟨grants.along _ chain.last_mem_ids, live⟩, rfl⟩
  rw [Outcome.bind_of_ok (resolvePath_eq_ok.2 ⟨hresolved, rfl⟩)]
  apply transact_of_ok sound.locks hplan
  rw [Outcome.bind_of_ok
    (Work.read_of_ok (Chain.resolve_eq_ok.2 grants.resolves)),
    Outcome.bind_of_ok hget]
  rfl

theorem status_of_locate : status path false ns = .ok inode.status ns :=
  tell_of_locate sound located live .getFileInfo Inode.status

theorem quotaUsage_of_locate : quotaUsage path ns = .ok inode.quota ns :=
  tell_of_locate sound located live .getQuotaUsage Inode.quota

theorem listing_of_locate (directory : inode.isDirectory = true) :
    ∃ list, listing path ns = .ok list ns ∧ List.Forall₂ (fun id status =>
      ∃ entry, ns.table.find? id = some entry ∧
      status = entry.status) inode.children list := by
  obtain ⟨resolved, hresolved, h⟩ := InodeTable.locate_eq_ok.1 located
  have hstops : ∀ target, inode.content ≠ .symlink target := by
    intro target hcontent
    rw [Inode.isDirectory, Inode.asDirectory, hcontent] at directory
    cases directory
  obtain ⟨hleads, hstays⟩ :=
    leadsTo_of_resolve .children hresolved h live hstops
  have hheeds := (obeys_listing sound path).1 hstays
  rw [Heeds, hleads] at hheeds
  obtain ⟨found, hfound, list, hlists, hlisting⟩ := hheeds
  obtain rfl := Option.some.inj (live.symm.trans hfound)
  rw [Lists, if_pos directory] at hlists
  exact ⟨list, hlisting, hlists⟩

end Located

/-- The status of what is at a path is found only if the path leads there. -/
theorem exists_locate_of_status {told : Status} (sound : ns.Sound)
    (h : status path false ns = .ok told ns') :
    ∃ chain inode, ns.table.locate path = .ok chain ∧
      ns.table.find? chain.last = some inode ∧
      told = inode.status := by
  obtain ⟨resolved, mid, hpath, hrest⟩ := Outcome.bind_eq_ok.1 h
  obtain ⟨hresolved, rfl⟩ := resolvePath_eq_ok.1 hpath
  obtain ⟨locks, tx, _, hwork, _⟩ := exists_of_transact sound.locks hrest
  obtain ⟨chain, _, hread, hget⟩ := Outcome.bind_eq_ok.1 hwork
  obtain ⟨hchain, rfl⟩ := Work.read_eq_ok.1 hread
  obtain ⟨inode, _, hinode, htold⟩ := Outcome.bind_eq_ok.1 hget
  obtain ⟨⟨_, live⟩, _⟩ := Work.get_eq_ok.1 hinode
  rw [tree_opened] at live
  have hresolve := Chain.resolve_unveiled veils_opened hchain
  refine ⟨chain, inode,
    InodeTable.locate_eq_ok.2 ⟨resolved, hresolved, hresolve⟩, live, ?_⟩
  cases htold
  rfl

/-- An inode at the end of a chain that is no longer than there are inodes. -/
theorem length_le_size (sound : ns.Sound)
    (leads : Chain.Leads ns.table.tree chain) :
    chain.length ≤ ns.table.size := by
  have wf : ns.table.tree.WellFormed := sound.books.wellFormed
  obtain ⟨depth, hdepth, hlength⟩ := leads.depth wf
  obtain ⟨inode, live⟩ := leads.live wf
  have hdeep : depth < ns.table.size :=
    (InodeTable.view_reads wf).deep live hdepth
  omega

end Namespace

namespace Listing

open Namespace

variable {ns : Namespace} {path : String} {chain : Chain} {inode : Inode}
  {levels depth : Nat} {shown : Option String}

def extend (ns : Namespace) (levels depth : Nat) (path : String)
    (listing : Listing) (child : Status) : Listing :=
  listing.followedBy
    fun () => ofPath ns levels depth none (Path.child path child.name)

/-- A listing that has stopped is not gone on with. -/
theorem foldl_extend_of_failure {listing : Listing} {error : Error}
    (failed : listing.failure = some error) (children : List Status) :
    children.foldl (extend ns levels depth path) listing = listing := by
  induction children with
  | nil => rfl
  | cons child rest ih =>
    rw [List.foldl_cons, extend, followedBy, failed]
    exact ih

theorem extend_entries (entries : List Entry) (child : Status) :
    extend ns levels depth path { entries } child =
      let more := ofPath ns levels depth none (Path.child path child.name)
      { more with entries := entries ++ more.entries } :=
  rfl

/-- The children of a directory are listed one after the other. -/
theorem exists_foldl_extend {ids : List InodeId} {children : List Status}
    (each : List.Forall₂
      (fun id child => ∃ entry, ns.table.find? id = some entry ∧
      ∃ inner, ofPath ns levels depth none (Path.child path child.name) =
          { entries := Entry.ofInode depth entry :: inner } ∧
        ns.table.Outline (depth + 1) entry.children inner) ids children)
    (entries : List Entry) :
    ∃ below, children.foldl (extend ns levels depth path) { entries } =
        { entries := entries ++ below } ∧ ns.table.Outline depth ids below := by
  induction each generalizing entries with
  | nil => exact ⟨[], by rw [List.append_nil]; rfl, .nil⟩
  | @cons id child ids children head tail ih =>
    obtain ⟨entry, live, inner, hchild, hinner⟩ := head
    obtain ⟨outer, hfold, houter⟩ :=
      ih (entries ++ Entry.ofInode depth entry :: inner)
    refine ⟨Entry.ofInode depth entry :: (inner ++ outer), ?_,
      .cons live hinner houter⟩
    rw [List.foldl_cons, extend_entries, hchild]
    rw [List.append_assoc] at hfold
    exact hfold

section Located

variable (sound : ns.Sound) (located : ns.table.locate path = .ok chain)
  (live : ns.table.find? chain.last = some inode)

include sound located live

theorem ofPath_of_leaf (leaf : inode.isDirectory = false) :
    ofPath ns (levels + 1) depth shown path = { entries := [{ Entry.ofInode
      depth inode with shown := shown.getD inode.name.text }] } := by
  have hquota : inode.quota = none := by
    rw [Inode.quota, Inode.asDirectory_eq_none leaf]
    rfl
  have hkind : inode.status.kind ≠ .directory := by
    rw [ne_eq, inode.status_kind, leaf]
    exact Bool.false_ne_true
  rw [ofPath, ask_of_ok (status_of_locate sound located live)]
  dsimp only
  rw [inode.status_name]
  split
  next h => exact absurd h hkind
  next => rw [Entry.ofInode, hquota]

theorem ofPath_of_directory (directory : inode.isDirectory = true)
    {children : List Status} (listed : listing path ns = .ok children ns) :
    ofPath ns (levels + 1) depth shown path =
      children.foldl (extend ns levels (depth + 1) path)
        { entries := [{ Entry.ofInode depth inode with
            shown := shown.getD inode.name.text }] } := by
  have hkind := inode.status_kind.2 directory
  rw [ofPath, ask_of_ok (status_of_locate sound located live)]
  dsimp only
  rw [hkind, ask_of_ok (quotaUsage_of_locate sound located live),
    ask_of_ok listed, inode.status_name]
  rfl

end Located

/-- Along a path that leads to an inode by names, or to one without entries, the
subtree there is listed. -/
theorem exists_ofPath (sound : ns.Sound)
    (enough : ns.table.size < levels + chain.length)
    (located : ns.table.locate path = .ok chain)
    (live : ns.table.find? chain.last = some inode)
    (level : Path.addressedParent? path = none ∨ inode.children = []) :
    ∃ inner, ofPath ns levels depth shown path = { entries := { Entry.ofInode
      depth inode with shown := shown.getD inode.name.text } :: inner } ∧
      ns.table.Outline (depth + 1) inode.children inner := by
  have wf : ns.table.tree.WellFormed := sound.books.wellFormed
  induction levels generalizing depth shown path chain inode with
  | zero =>
    obtain ⟨resolved, _, h⟩ := InodeTable.locate_eq_ok.1 located
    have := length_le_size sound (.resolve (InodeTable.view_reads wf) h)
    omega
  | succ levels ih =>
    cases directory : inode.isDirectory with
    | false =>
      have hnone : inode.children = [] := by
        rw [Inode.children, Inode.entries, Inode.asDirectory_eq_none directory]
        rfl
      rw [ofPath_of_leaf sound located live directory, hnone]
      exact ⟨[], rfl, .nil⟩
    | true =>
      obtain ⟨children, hlisting, hchildren⟩ :=
        listing_of_locate sound located live directory
      rw [ofPath_of_directory sound located live directory hlisting]
      refine exists_foldl_extend ?_ _
      have hboth := (List.forall₂_and_left inode.children children).2
        ⟨fun id hid => hid, hchildren⟩
      refine hboth.imp fun id child hlists => ?_
      obtain ⟨hid, entry, hentry, hchild⟩ := hlists
      refine ⟨entry, hentry, ?_⟩
      have hlevel : Path.addressedParent? path = none :=
        level.resolve_right fun hnone => List.not_mem_nil (hnone ▸ hid)
      obtain ⟨_, hfound, hparent⟩ := (wf.mem_children live).1 hid
      obtain rfl := Option.some.inj (hentry.symm.trans hfound)
      have hlisted : ns.table.tree.entryAt chain.last entry.name = some id :=
        wf.edge.2 ⟨entry, hentry, rfl, hparent⟩
      have proper : entry.name.Proper := sound.books.named hlisted
      rw [hchild, entry.status_name]
      exact ih (by rw [Chain.length]; omega) (locate_child sound hlevel located
        hlisted) hentry
        (.inl (Path.addressedParent?_child proper.component proper.clean))

/-- The entries of the parent of a numbered inode are looked for along paths
that are none. -/
theorem ofPath_of_upward (sound : ns.Sound)
    (located : ns.table.locate path = .ok chain)
    (live : ns.table.find? chain.last = some inode) {numbered : InodeId}
    (upward : Path.addressedParent? path = some numbered) {name : Name}
    {id : InodeId} {rest : List (Name × InodeId)}
    (entries : inode.entries = (name, id) :: rest) :
    ofPath ns (levels + 2) depth shown path =
      { entries := [{ Entry.ofInode depth inode with
          shown := shown.getD inode.name.text }]
        failure := some (.invalidPath (Path.child path name.text)) } := by
  have wf : ns.table.tree.WellFormed := sound.books.wellFormed
  have hlisted : inode.child? name = some id :=
    Inode.mem_entries.1 (entries ▸ List.mem_cons_self)
  have proper : name.Proper :=
    sound.books.named ((entryAt_of_live live name).trans hlisted)
  have directory : inode.isDirectory = true := by
    by_contra hleaf
    rw [inode.child?_eq_none_of_not_isDirectory (Bool.eq_false_iff.2 hleaf)]
      at hlisted
    cases hlisted
  obtain ⟨resolved, hresolved, _⟩ := InodeTable.locate_eq_ok.1 located
  have hrefused := InodeTable.resolveReserved_child_of_upward proper.clean
    (Path.isComponent_ne_nil proper.component) upward hresolved
  obtain ⟨children, hlisting, hchildren⟩ :=
    listing_of_locate sound located live directory
  rw [ofPath_of_directory sound located live directory hlisting]
  rw [Inode.children, entries, List.map_cons] at hchildren
  obtain ⟨child, others, ⟨entry, hentry, rfl⟩, _,
    rfl⟩ := List.forall₂_cons_left_iff.1 hchildren
  obtain ⟨found, hfound, hname, _⟩ := wf.child live hlisted
  obtain rfl := Option.some.inj (hentry.symm.trans hfound)
  have hstatus : status (Path.child path name.text) false ns =
      .error (.invalidPath (Path.child path name.text)) ns :=
    Outcome.bind_of_error (resolvePath_of_error hrefused)
  have hfailed :
      ofPath ns (levels + 1) (depth + 1) none
        (Path.child path entry.status.name) =
        { entries := [],
          failure := some (.invalidPath (Path.child path name.text)) } := by
    rw [entry.status_name, hname, ofPath, ask_of_error hstatus]
  rw [List.foldl_cons, extend_entries, hfailed]
  exact foldl_extend_of_failure rfl others

end Listing

namespace InodeTable

/-- Entries that tell of each inode of a subtree once, from the top down and
with the entries of a directory in the order of their names. -/
structure Depicts (table : InodeTable) (top : InodeId) (shown : String)
    (entries : List Entry) : Prop where
  once : (entries.map Entry.id).Nodup
  holds :
    ∀ x, x ∈ entries.map Entry.id ↔ ∃ steps, table.climb steps x = some top
  tells : ∀ entry ∈ entries, ∃ inode, table.find? entry.id = some inode ∧
    entry.status = inode.status ∧ entry.quota = inode.quota ∧
    entry.shown = (if entry.id = top then shown else inode.name.text) ∧
    table.climb entry.depth entry.id = some top
  /-- No entry stands before one that it lies under. -/
  descends : entries.Pairwise fun earlier later =>
    ∀ steps, table.climb steps earlier.id ≠ some later.id
  /-- The entries of one directory stand in the order of their names. -/
  sorted : entries.Pairwise fun earlier later => ∀ parent,
    table.tree.HasParent earlier.id parent →
    table.tree.HasParent later.id parent →
      table.tree.Precedes earlier.id later.id
  /-- All that lies under an inode stands together. -/
  nested : (entries.map Entry.id).Pairwise table.tree.Comes

variable {table : InodeTable} {top : InodeId} {inode : Inode}
  {inner : List Entry}

theorem Outline.depicts (wf : table.tree.WellFormed)
    (live : table.find? top = some inode)
    (outline : table.Outline 1 inode.children inner) (shown : String) :
    table.Depicts top shown
      ({ Entry.ofInode 0 inode with shown } :: inner) := by
  have whole : table.Outline 0 [top] (Entry.ofInode 0 inode :: (inner ++ [])) :=
    .cons live outline .nil
  rw [List.append_nil] at whole
  have hid : (Entry.ofInode 0 inode).id = top := Outline.id_ofInode wf live
  -- an outline does not tell under which name its first inode is shown
  have hids :
      ({ Entry.ofInode 0 inode with shown } :: inner : List Entry).map
        Entry.id = (Entry.ofInode 0 inode :: inner).map Entry.id := rfl
  have hnested := whole.pairwise_comes wf (List.pairwise_singleton _ _)
  rw [← hids] at hnested
  have hcomes := List.pairwise_map.1 hnested
  constructor
  case once => exact hnested.imp fun comes => comes.ne wf
  case holds =>
    intro x
    refine (whole.mem_iff wf).trans ?_
    rw [← under_iff_climb]
    simp
  case tells =>
    intro entry hmem
    rcases List.mem_cons.1 hmem with rfl | hinner
    · refine ⟨inode, hid.symm ▸ live, rfl, rfl, (if_pos hid).symm, ?_⟩
      exact congrArg some hid
    · have hne : entry.id ≠ top := by
        have hfirst := (List.pairwise_cons.1 hcomes).1 entry hinner
        exact fun heq => hfirst.ne wf (hid.trans heq.symm)
      obtain ⟨found, steps, hfound, rfl, other, hother, hclimb⟩ :=
        whole.tells wf (List.mem_cons_of_mem _ hinner)
      rw [List.mem_singleton.1 hother, ← Nat.zero_add steps] at hclimb
      exact ⟨found, hfound, rfl, rfl, (if_neg hne).symm, hclimb⟩
  case descends =>
    refine hcomes.imp fun {_ _} comes steps hclimb => ?_
    exact comes.not_under wf (under_iff_climb.2 ⟨steps, hclimb⟩)
  case sorted =>
    refine hcomes.imp fun comes _ link link' => ?_
    exact comes.precedes wf link link'
  case nested => exact hnested

end InodeTable

namespace Namespace

open QuotaTree.Path

variable {ns : Namespace} {path : String} {chain : Chain} {inode : Inode}

/-- Along a path that leads to an inode by names, or to one without entries, its
subtree is shown. -/
theorem exists_runInspect (sound : ns.Sound)
    (located : ns.table.locate path = .ok chain)
    (live : ns.table.find? chain.last = some inode)
    (level : addressedParent? path = none ∨ inode.children = []) :
    ∃ entries, ns.table.Depicts chain.last path entries ∧
      Command.runInspect ns path =
        { code := 0, out := String.join (entries.map Entry.line) } := by
  obtain ⟨inner, hlisting, outline⟩ :=
    @Listing.exists_ofPath ns path chain inode (ns.table.size + 1) 0
      (some path) sound (by have := chain.length_pos; omega) located live level
  have hlist : ns.listTree path = _ := hlisting
  refine ⟨_, outline.depicts sound.books.wellFormed live path, ?_⟩
  rw [Command.runInspect, hlist]
  simp [Listing.text]

/-- The parent of a numbered inode is shown without what lies under it. -/
theorem runInspect_of_upward (sound : ns.Sound)
    (located : ns.table.locate path = .ok chain)
    (live : ns.table.find? chain.last = some inode) {numbered : InodeId}
    (upward : addressedParent? path = some numbered) {name : Name}
    {id : InodeId} {rest : List (Name × InodeId)}
    (entries : inode.entries = (name, id) :: rest) :
    Command.runInspect ns path =
      { code := 1
        out := Entry.line { Entry.ofInode 0 inode with shown := path }
        err := CommandError.text
          ⟨(Error.invalidPath (child path name.text)).message, none⟩ } := by
  obtain ⟨resolved, _, h⟩ := InodeTable.locate_eq_ok.1 located
  have leads :=
    Chain.Leads.resolve (InodeTable.view_reads sound.books.wellFormed) h
  have hsize : ns.table.size + 1 = ns.table.size - 1 + 2 := by
    have := length_le_size sound leads
    have := chain.length_pos
    omega
  have hlist : ns.listTree path = _ :=
    (congrArg (Listing.ofPath ns · 0 (some path) path) hsize).trans
      (Listing.ofPath_of_upward sound located live upward entries)
  rw [Command.runInspect, hlist]
  simp [Listing.text]

/-- Whatever log a namespace comes from, the subtree at a path that leads
somewhere is shown whole; but if the path names the parent of an inode that it
numbers, that directory is shown alone, and the first of its entries is
refused. -/
theorem shows_replayed (config : Config) (edits : List Edit)
    {report : RecountReport}
    (replayed : replay edits (fresh config) = .ok report ns) {told : Status}
    {ns' : Namespace} (found : status path false ns = .ok told ns') :
    (addressedParent? path = none ∨ told.entries = 0 →
      ∃ entries, ns.table.Depicts told.id path entries ∧
        Command.runInspect ns path =
        { code := 0, out := String.join (entries.map Entry.line) }) ∧
    (addressedParent? path ≠ none → told.entries ≠ 0 →
      ∃ inode first, ns.table.find? told.id = some inode ∧
      inode.entries.head? = some first ∧
        Command.runInspect ns path =
          { code := 1
            out := Entry.line { Entry.ofInode 0 inode with shown := path }
            err := CommandError.text
              ⟨(Error.invalidPath (child path first.1.text)).message,
                none⟩ }) := by
  have sound : ns.Sound := by
    have hstate := sustaining_replay edits (fresh config) (sound_fresh config)
    rwa [replayed] at hstate
  obtain ⟨chain, inode, located, live,
    rfl⟩ := exists_locate_of_status sound found
  have hid : inode.status.id = chain.last :=
    inode.status_id.trans (sound.books.wellFormed.ids live)
  rw [hid, inode.status_entries]
  constructor
  · intro level
    exact exists_runInspect sound located live
      (level.imp_right List.length_eq_zero_iff.1)
  · intro upward hentries
    obtain ⟨numbered, hnumbered⟩ := Option.ne_none_iff_exists'.1 upward
    cases entries : inode.entries with
    | nil => simp [Inode.children, entries] at hentries
    | cons first rest =>
      refine ⟨inode, first, live, by rw [entries, List.head?_cons], ?_⟩
      exact runInspect_of_upward sound located live hnumbered entries

def limitedLog : List Edit :=
  [.mkdirs "/d/e" {}, .symlink "/d" "/d/L" {} false,
    .setQuota "/d" 10 Limit.none]

theorem shows_limitedLog :
    ∃ report ns, replay limitedLog (fresh {}) = .ok report ns ∧
      (∃ told ns', status "/.reserved/.inodes/2" false ns = .ok told ns' ∧
        ∃ entries, ns.table.Depicts told.id "/.reserved/.inodes/2" entries ∧
          Command.runInspect ns "/.reserved/.inodes/2" =
            { code := 0, out := String.join (entries.map Entry.line) }) ∧
      (∃ told ns', status "/.reserved/.inodes/3/.." false ns = .ok told ns' ∧
        ∃ inode first, ns.table.find? told.id = some inode ∧
        inode.entries.head? = some first ∧
          Command.runInspect ns "/.reserved/.inodes/3/.." =
            { code := 1
              out := Entry.line { Entry.ofInode 0 inode with
                  shown := "/.reserved/.inodes/3/.." }
              err := CommandError.text ⟨(Error.invalidPath
                (child "/.reserved/.inodes/3/.." first.1.text)).message,
                none⟩ }) := by
  have hlog :
      (Outcome.answer (replay limitedLog (fresh {}))).isOk =
        true := by decide +kernel
  have hplace : (Outcome.answer (status "/.reserved/.inodes/2"
        false (Outcome.state (replay limitedLog (fresh {}))))).isOk = true := by
    decide +kernel
  have hparent :
      (Outcome.answer (status "/.reserved/.inodes/3/.." false
        (Outcome.state (replay limitedLog (fresh {}))))).toOption.map
        Status.entries = some 2 := by
    decide +kernel
  obtain ⟨report, ns, hreplay⟩ := Outcome.exists_of_isOk hlog
  rw [hreplay] at hplace hparent
  obtain ⟨told, ns', hstatus⟩ := Outcome.exists_of_isOk hplace
  cases hup : status "/.reserved/.inodes/3/.." false ns with
  | error error last =>
    rw [Outcome.state, hup] at hparent
    cases hparent
  | ok other last =>
    have hentries : other.entries = 2 := by
      rw [Outcome.state, hup] at hparent
      exact Option.some.inj hparent
    refine ⟨report, ns, hreplay, ⟨told, ns', hstatus, ?_⟩,
      ⟨other, last, hup, ?_⟩⟩
    · exact (shows_replayed {} limitedLog hreplay hstatus).1 (.inl (by decide))
    · exact (shows_replayed {} limitedLog hreplay hup).2 (by decide) (by omega)

/-- The subtree at the parent of a numbered inode is not shown, though the path
leads there. -/
theorem not_shown_limitedLog :
    let ns := Outcome.state (replay limitedLog (fresh {}))
    (Outcome.answer (replay limitedLog (fresh {}))).isOk = true ∧
      (Outcome.answer (status "/.reserved/.inodes/3/.." false ns)).toOption.map
        Status.id =
        some ⟨2⟩ ∧
      (Command.runInspect ns "/d").code = 0 ∧
      (Command.runInspect ns "/.reserved/.inodes/3/..").code = 1 ∧
      (Command.runInspect ns "/.reserved/.inodes/3/..").err =
        "Error: Invalid path name /.reserved/.inodes/3/../L\n" := by
  decide +kernel

end Namespace

end QuotaTree
