/-
What a path is resolved to.  The part that exists is as long as it can be, and a
symlink may stand only at the end.  There it is replaced by the path that it
points to, so that the answer is that for the last path on the trail; a trail
that goes on for too long, as one that goes round does, ends in an error.
-/
import QuotaTree.Proofs.Reachable
import QuotaTree.Proofs.Tree.Trail

namespace QuotaTree

open Nodes

namespace Chain

/-- Names lead along a chain, and the rest of them no further: the last inode is
a file, or a directory without the next name. -/
structure LongestPrefix (nodes : Nodes) (names : List Name) (chain : Chain)
    (rest : List Name) : Prop where
  leads : Leads nodes chain
  names : chain.names ++ rest = names
  stops : ∀ name ∈ rest.head?, ∃ inode, nodes chain.last = some inode ∧
    ((∃ file, inode.content = .file file) ∨
      ∃ directory, inode.content = .directory directory ∧
      directory.children[name]? = none)

/-- Names lead to a symlink before they are all used up. -/
structure Crosses (nodes : Nodes) (names : List Name) (link : Chain) :
    Prop where
  leads : Leads nodes link
  early : ∃ rest, rest ≠ [] ∧ link.names ++ rest = names
  symlink : (nodes.target? link.last).isSome

variable {table : InodeTable} {nodes : Nodes} {start chain link : Chain}
  {name : Name} {names rest : List Name} {path : String} {count : Nat}

section Descending

variable {inode : Inode} (live : table.tree start.last = some inode)

include live

/-- One step of a walk in the stored tree. -/
theorem descend_of_live :
    descend table.view path start (name :: rest) =
      match inode.content with
      | .symlink _ => .error (.unresolvedLink path start.path)
      | .file _ => .ok (start, name :: rest)
      | .directory directory =>
        match directory.children[name]? with
        | some id => descend table.view path (start.child name id) rest
        | none => .ok (start, name :: rest) := by
  rw [descend, (InodeTable.view_opens start.last).get live]
  rfl

theorem descend_of_target {target : String}
    (content : inode.content = .symlink target) :
    descend table.view path start (name :: rest) =
      .error (.unresolvedLink path start.path) := by
  rw [descend_of_live live, content]

end Descending

/-- A walk along the names of a chain comes to its end. -/
theorem descend_append_of_leads (leads : Leads table.tree chain) (path : String)
    (rest : List Name) :
    descend table.view path .root (chain.names ++ rest) =
      descend table.view path chain rest := by
  induction leads generalizing rest with
  | root => rfl
  | @child parent name id above entry ih =>
    obtain ⟨holder, live, hchild⟩ := entryAt_eq_some.1 entry
    obtain ⟨directory, hdirectory, hentry⟩ := Option.bind_eq_some_iff.1 hchild
    rw [names_child, List.append_assoc, ih, List.singleton_append,
      descend_of_live live, Inode.asDirectory_eq_some.1 hdirectory]
    dsimp only
    rw [hentry]

/-- A walk finds all of the names that lead anywhere, or stops at a symlink on
the way. -/
theorem descend_spec (wf : table.tree.WellFormed) (path : String)
    (leads : Leads table.tree start) (names : List Name) :
    (∃ chain rest, descend table.view path start names = .ok (chain, rest) ∧
        LongestPrefix table.tree (start.names ++ names) chain rest) ∨
      ∃ link, Crosses table.tree (start.names ++ names) link ∧
        descend table.view path start names =
          .error (.unresolvedLink path link.path) := by
  induction names generalizing start with
  | nil => exact .inl ⟨start, [], rfl, leads, rfl, by simp⟩
  | cons name rest ih =>
    obtain ⟨inode, live⟩ := leads.live wf
    rw [descend_of_live live]
    cases hcontent : inode.content with
    | symlink target =>
      right
      have hsymlink : (table.tree.target? start.last).isSome := by
        rw [target?_eq_some.2 ⟨inode, live, hcontent⟩]
        rfl
      exact ⟨start,
        ⟨leads, ⟨name :: rest, List.cons_ne_nil _ _, rfl⟩, hsymlink⟩, rfl⟩
    | file file =>
      left
      refine ⟨start, name :: rest, rfl, leads, rfl, fun _ _ => ?_⟩
      exact ⟨inode, live, .inl ⟨file, hcontent⟩⟩
    | directory directory =>
      dsimp only
      cases hentry : directory.children[name]? with
      | none =>
        left
        refine ⟨start, name :: rest, rfl, leads, rfl, fun first hfirst => ?_⟩
        rw [List.head?_cons, Option.mem_some_iff] at hfirst
        subst hfirst
        exact ⟨inode, live, .inr ⟨directory, hcontent, hentry⟩⟩
      | some id =>
        have hchild : table.tree.entryAt start.last name = some id := by
          rw [entryAt_of_live live, Inode.child?,
            Inode.asDirectory_eq_some.2 hcontent]
          exact hentry
        have hnames :
            start.names ++ name :: rest =
              (start.child name id).names ++ rest := by
          rw [names_child, List.append_assoc]
          rfl
        rw [hnames]
        exact ih (.child leads hchild)

/-- A path that crosses a symlink is not resolved. -/
theorem Crosses.descend (crosses : Crosses table.tree names link)
    (path : String) :
    Chain.descend table.view path .root names =
      .error (.unresolvedLink path link.path) := by
  obtain ⟨rest, hrest, hnames⟩ := crosses.early
  obtain ⟨target, htarget⟩ := Option.isSome_iff_exists.1 crosses.symlink
  obtain ⟨inode, live, hcontent⟩ := target?_eq_some.1 htarget
  obtain ⟨name, more, rfl⟩ := List.exists_cons_of_ne_nil hrest
  rw [← hnames, descend_append_of_leads crosses.leads,
    descend_of_target live hcontent]

/-- No more of the names lead anywhere. -/
theorem LongestPrefix.length_le (found : LongestPrefix nodes names chain rest)
    {early late : List Name} (split : early ++ late = names)
    (leads : (nodes.walk early .root).isSome) :
    early.length ≤ chain.names.length := by
  rcases List.append_eq_append_iff.1 (split.trans found.names.symm) with
    ⟨more, hmore, _⟩ | ⟨more, rfl, hrest⟩
  · rw [hmore, List.length_append]
    exact Nat.le_add_right _ _
  · cases more with
    | nil => rw [List.append_nil]
    | cons name more =>
      obtain ⟨inode, live, hstops⟩ := found.stops name (by rw [hrest]; rfl)
      have hentry : nodes.entryAt chain.last name = none := by
        rw [entryAt_of_live live, Inode.child?, Inode.asDirectory]
        rcases hstops with ⟨file, hfile⟩ | ⟨directory, hdirectory, hnone⟩
        · rw [hfile]
          rfl
        · rw [hdirectory]
          exact hnone
      rw [walk_append, found.leads.walk, Option.bind_some, walk,
        hentry] at leads
      cases leads

section Following

variable {link : Link} {last : String}

/-- A path that ends in a symlink is resolved to the chain that leads there. -/
theorem exists_chain_of_linkAt (met : table.tree.linkAt path = some link) :
    ∃ chain inode, resolveExisting table.view path false = .ok (chain, []) ∧
      chain.names = link.names ∧ table.view.get chain.last = .ok inode ∧
      inode.content = .symlink link.target := by
  obtain ⟨hnames, hwalk, htarget⟩ := linkAt_eq_some.1 met
  obtain ⟨inode, live, hcontent⟩ := target?_eq_some.1 htarget
  obtain ⟨chain, hleads, hchain, hlast⟩ :=
    @exists_leads_of_walk table.tree _ .root _ .root hwalk
  replace hchain : chain.names = link.names := hchain
  refine ⟨chain, inode, ?_, hchain, ?_, hcontent⟩
  · have hdescend := descend_append_of_leads hleads path []
    rw [List.append_nil, hchain] at hdescend
    rw [resolveExisting_of_components hnames, hdescend]
    rfl
  · rw [hlast]
    exact (InodeTable.view_opens link.id).get live

/-- A path that is resolved to the end, and ends in no symlink, ends in another
kind of inode. -/
theorem exists_inode_of_linkAt_eq_none (wf : table.tree.WellFormed)
    (resolved : resolveExisting table.view path false = .ok (chain, []))
    (unmet : table.tree.linkAt path = none) :
    ∃ inode, table.view.get chain.last = .ok inode ∧
      ∀ target, inode.content ≠ .symlink target := by
  have hleads := Leads.resolveExisting (InodeTable.view_reads wf) resolved
  obtain ⟨inode, live⟩ := hleads.live wf
  refine ⟨inode, (InodeTable.view_opens chain.last).get live,
    fun target hcontent => ?_⟩
  obtain ⟨names, hnames, hwalk⟩ :=
    (InodeTable.exists_resolve_iff wf).1 ⟨chain, resolve_of_ends resolved, rfl⟩
  have hmet : table.tree.linkAt path = some ⟨names, chain.last, target⟩ :=
    linkAt_eq_some.2 ⟨hnames, hwalk, target?_eq_some.2 ⟨inode, live, hcontent⟩⟩
  rw [unmet] at hmet
  cases hmet

/-- A path that ends in no symlink is resolved as if nothing were followed. -/
theorem follow_of_linkAt_eq_none (wf : table.tree.WellFormed) (hops : Nat)
    (unmet : table.tree.linkAt path = none) :
    follow table.view hops path = resolveExisting table.view path false := by
  rw [follow_eq_bind]
  cases hresolved : resolveExisting table.view path false with
  | error error => rfl
  | ok found =>
    obtain ⟨chain, rest⟩ := found
    apply arrive_eq_ok.2
    refine .inl ⟨?_, rfl⟩
    rintro rfl
    exact exists_inode_of_linkAt_eq_none wf hresolved unmet

/-- What comes after a symlink that a path ends in. -/
theorem exists_onward_of_linkAt (hops : Nat)
    (met : table.tree.linkAt path = some link) :
    ∃ chain, chain.names = link.names ∧
      follow table.view hops path =
        onward table.view path chain link.target hops := by
  obtain ⟨chain, inode, hresolved, hchain, hget, hcontent⟩ :=
    exists_chain_of_linkAt met
  refine ⟨chain, hchain, ?_⟩
  rw [follow_eq_bind, hresolved]
  change arrive table.view hops path chain [] = _
  simp only [arrive, hget, bind, Except.bind, hcontent]

theorem targetPath_eq_onward (chain : Chain) (id : InodeId) (target : String) :
    chain.targetPath target = Link.onward ⟨chain.names, id, target⟩ := by
  unfold targetPath Link.onward
  cases chain with
  | root => rfl
  | child parent name id =>
    simp only [parent?_child, names_child, List.dropLast_concat]
    rfl

/-- A symlink at the end of a path is replaced by the path that it stands
for. -/
theorem follow_succ_of_linkAt (hops : Nat)
    (met : table.tree.linkAt path = some link) :
    follow table.view (hops + 1) path = follow table.view hops link.onward := by
  obtain ⟨chain, hchain, hfollow⟩ := exists_onward_of_linkAt (hops + 1) met
  rw [hfollow, onward, targetPath_eq_onward chain link.id, hchain]

theorem follow_zero_of_linkAt (met : table.tree.linkAt path = some link) :
    follow table.view 0 path =
      .error (.unresolvedLink path (Path.ofNames link.names)) := by
  obtain ⟨chain, hchain, hfollow⟩ := exists_onward_of_linkAt 0 met
  rw [hfollow, onward, Chain.path, hchain]
  rfl

/-- Along the trail it makes no difference where it is started from. -/
theorem follow_of_pathAfter (hops : Nat)
    (after : table.tree.pathAfter count path = some last) :
    follow table.view (count + hops) path = follow table.view hops last := by
  induction count generalizing path with
  | zero =>
    rw [Nat.zero_add, Option.some.inj after]
  | succ count ih =>
    obtain ⟨link, hmet, hrest⟩ := Option.bind_eq_some_iff.1 after
    rw [Nat.succ_add, follow_succ_of_linkAt _ hmet]
    exact ih hrest

end Following

/-- The trail is given up at a symlink after 32 others. -/
def GivesUp (table : InodeTable) (path : String) : Prop :=
  ∃ last link, table.tree.pathAfter 32 path = some last ∧
    table.tree.linkAt last = some link ∧
    resolveExisting table.view path true =
      .error (.unresolvedLink last (Path.ofNames link.names))

/-- What a path with these components is resolved to. -/
structure Resolves (table : InodeTable) (path : String) (names : List Name) :
    Prop where
  plain : (∃ chain rest, resolveExisting table.view path false =
        .ok (chain, rest) ∧
      LongestPrefix table.tree names chain rest) ∨
    ∃ link, Crosses table.tree names link ∧
      resolveExisting table.view path false =
        .error (.unresolvedLink path link.path)
  crossing : (∃ stopped link,
      resolveExisting table.view path false =
        .error (.unresolvedLink stopped link)) ↔
    ∃ link, Crosses table.tree names link
  longest :
    ∀ chain rest, resolveExisting table.view path false = .ok (chain, rest) →
    ∀ early late, early ++ late = names → (table.tree.walk early .root).isSome →
      early.length ≤ chain.names.length
  following :
    ∀ count ≤ 32, ∀ last, table.tree.pathAfter count path = some last →
    table.tree.linkAt last = none →
      resolveExisting table.view path true =
        resolveExisting table.view last false
  followed : ∀ found, resolveExisting table.view path true = .ok found →
    table.tree.target? found.1.last = none ∧
      ∃ count ≤ 32, ∃ last, table.tree.pathAfter count path = some last ∧
        table.tree.linkAt last = none ∧
        resolveExisting table.view last false = .ok found
  endless :
    ∀ count ≥ 32, (table.tree.linkAfter count path).isSome → GivesUp table path
  cyclic : ∀ first second left right, first < second →
    table.tree.linkAfter first path = some left →
    table.tree.linkAfter second path = some right →
      left.id = right.id → GivesUp table path

/-- Where the trail ends early enough, its last path is resolved. -/
theorem resolveExisting_of_pathAfter {last : String}
    (wf : table.tree.WellFormed) (le : count ≤ 32)
    (after : table.tree.pathAfter count path = some last)
    (unmet : table.tree.linkAt last = none) :
    resolveExisting table.view path true =
      resolveExisting table.view last false := by
  obtain ⟨hops, hsum⟩ := Nat.exists_eq_add_of_le le
  rw [resolveExisting, if_pos rfl, maxHops, hsum,
    follow_of_pathAfter hops after]
  exact follow_of_linkAt_eq_none wf hops unmet

/-- Where more symlinks are met than are replaced, there is no answer. -/
theorem givesUp_of_linkAfter (h : (table.tree.linkAfter 32 path).isSome) :
    GivesUp table path := by
  obtain ⟨link, hlink⟩ := Option.isSome_iff_exists.1 h
  obtain ⟨last, hafter, hmet⟩ := Option.bind_eq_some_iff.1 hlink
  refine ⟨last, link, hafter, hmet, ?_⟩
  rw [resolveExisting, if_pos rfl]
  exact (follow_of_pathAfter 0 hafter).trans (follow_zero_of_linkAt hmet)

/-- What is found by following is no symlink. -/
theorem target?_of_following (wf : table.tree.WellFormed)
    (found : resolveExisting table.view path true = .ok (chain, rest)) :
    table.tree.target? chain.last = none := by
  rw [resolveExisting, if_pos rfl] at found
  obtain ⟨links, hfollows⟩ := follow_eq_ok.1 found
  obtain ⟨inode, hget, hnot⟩ := hfollows.stops
  have live : table.tree chain.last = some inode :=
    (InodeTable.view_reads wf).get hget
  rw [target?, live, Option.bind_some]
  exact Inode.target?_eq_none.2 hnot

/-- What is found by following is found for the last path of the trail. -/
theorem exists_last_of_following {found : Chain × List Name}
    (wf : table.tree.WellFormed)
    (following : resolveExisting table.view path true = .ok found) :
    ∃ count ≤ 32, ∃ last, table.tree.pathAfter count path = some last ∧
      table.tree.linkAt last = none ∧
      resolveExisting table.view last false = .ok found := by
  rcases exists_pathAfter_or table.tree 32 path with ⟨count, hle, last, hafter,
    hlast⟩ | hmet
  · exact ⟨count, hle, last, hafter, hlast,
      (resolveExisting_of_pathAfter wf hle hafter hlast).symm.trans following⟩
  · obtain ⟨last, link, _, _, hfails⟩ := givesUp_of_linkAfter hmet
    rw [hfails] at following
    cases following

/-- A path is resolved as far as it leads, and along its trail. -/
theorem resolves_of_wellFormed (wf : table.tree.WellFormed)
    (components : Path.components path = .ok names) :
    Resolves table path names := by
  have hplain :
      resolveExisting table.view path false =
        descend table.view path .root names :=
    resolveExisting_of_components components
  have hspec := descend_spec wf path .root names
  rw [← hplain] at hspec
  constructor
  case plain => exact hspec
  case crossing =>
    constructor
    · rintro ⟨stopped, link, hfails⟩
      rcases hspec with ⟨chain, rest, hresolved, _⟩ | ⟨link, hcrosses, _⟩
      · rw [hfails] at hresolved
        cases hresolved
      · exact ⟨link, hcrosses⟩
    · rintro ⟨link, hcrosses⟩
      exact ⟨path, link.path, hplain.trans (hcrosses.descend path)⟩
  case longest =>
    intro chain rest hresolved early late hsplit hleads
    rcases hspec with ⟨_, _, hsame, hprefix⟩ | ⟨_, _, hfails⟩
    · cases hresolved.symm.trans hsame
      exact hprefix.length_le hsplit hleads
    · rw [hfails] at hresolved
      cases hresolved
  case following =>
    intro count hle last hafter hlast
    exact resolveExisting_of_pathAfter wf hle hafter hlast
  case followed =>
    intro found hfound
    exact ⟨target?_of_following wf hfound, exists_last_of_following wf hfound⟩
  case endless =>
    intro count hle hmet
    exact givesUp_of_linkAfter (isSome_linkAfter_of_le hmet hle)
  case cyclic =>
    intro first second left right hlt hfirst hsecond hsame
    exact givesUp_of_linkAfter
      (isSome_linkAfter_of_cycle wf hlt hfirst hsecond hsame 32)

section Tangled

/-- Two symlinks in a directory that point to each other, and others that lead
to the directory and through it. -/
def tangling : List Event :=
  [.call (.mkdirs "/d" {}), .call (.createSymlink "m" "/d/l" {} true),
    .call (.createSymlink "/d/l" "/d/m" {} true),
    .call (.createSymlink "d" "/s" {} true),
    .call (.createSymlink "/s" "/d/t" {} true)]

def tangled : Namespace :=
  (Namespace.fresh {}).after (tangling.map Event.run)

theorem resolves_tangled :
    tangled.table.tree.WellFormed ∧
      Path.components "/d/l" = .ok [Name.ofText "d", Name.ofText "l"] ∧
      Resolves tangled.table "/d/l" [Name.ofText "d", Name.ofText "l"] := by
  have sound : tangled.Sound := (Namespace.sound_fresh {}).after tangling
  have wf : tangled.table.tree.WellFormed := sound.books.wellFormed
  have components :
      Path.components "/d/l" = .ok [Name.ofText "d", Name.ofText "l"] := by
    decide +kernel
  exact ⟨wf, components, resolves_of_wellFormed wf components⟩

/-- The two symlinks take turns. -/
example : tangled.table.tree.pathAfter 32 "/d/l" = some "/d/l" := by
  decide +kernel
example : resolveExisting tangled.table.view "/d/l" true =
    .error (.unresolvedLink "/d/l" "/d/l") := by
  decide +kernel
example : resolveExisting tangled.table.view "/d/t" true =
    .ok (.child .root (Name.ofText "d") ⟨2⟩, []) := by
  decide +kernel
example : resolveExisting tangled.table.view "/s/x" true =
    .error (.unresolvedLink "/s/x" "/s") := by
  decide +kernel

end Tangled

end Chain

end QuotaTree
