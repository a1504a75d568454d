/-
Full paths.  Going up from an inode gives a path, and going down the path comes
back to the inode along its ancestors; and whatever path leads to an inode is
its full path, but for one slash at the end.
-/
import QuotaTree.Proofs.Addressing
import QuotaTree.Proofs.Faults.Planning
import QuotaTree.Proofs.Tree.Home
import QuotaTree.Proofs.Tree.Parts
import QuotaTree.Proofs.Tree.Walk
import Mathlib.Data.List.Chain

namespace QuotaTree

open Nodes

/-- A path without a slash at its end, unless it is that of the root. -/
def Path.trimmed (path : String) : String :=
  if path = "/" then path else String.ofList (dropEndSlash path.toList)

namespace Path.MadeOf

variable {path : String} {parts : List (List Char)}

/-- The names that a path is made of make it again, but for the slash at its
end. -/
theorem ofNames_eq (made : MadeOf path parts) :
    ofNames (namesOf parts) = trimmed path := by
  by_cases hnil : parts = []
  · have hpath : path = "/" := by
      refine String.toList_inj.1 ?_
      rcases made.text with htext | htext
      · have habsolute := made.absolute
        rw [htext, hnil] at habsolute
        cases habsolute
      · rw [htext, hnil]
        rfl
    rw [trimmed, if_pos hpath, hnil, hpath]
    rfl
  · have hfull : namesOf parts ≠ [] := by simpa [namesOf] using hnil
    have hdrop := made.dropEndSlash_eq
    have hroot : path ≠ "/" := by
      rintro rfl
      obtain ⟨part, rest, rfl⟩ := List.exists_cons_of_ne_nil hnil
      cases (show dropEndSlash "/".toList = [] by decide).symm.trans hdrop
    have htexts : (namesOf parts).map (·.text.toList) = parts := by
      rw [namesOf, List.map_map]
      exact List.map_id'' (fun part => by simp) parts
    rw [trimmed, if_neg hroot, hdrop, ← String.toList_inj, toList_ofNames hfull,
      htexts, String.toList_ofList]

end Path.MadeOf

namespace Chain

variable {nodes : Nodes} {view : View} {chain : Chain} {path : String}

/-- On a chain that leads somewhere each inode is the parent of the next one. -/
theorem Leads.isChain_ids (leads : Leads nodes chain) (wf : nodes.WellFormed) :
    chain.ids.IsChain fun above below => nodes.HasParent below above := by
  induction leads with
  | root => exact .singleton _
  | @child parent name id above entry ih =>
    refine ih.append (.singleton _) fun x hx y hy => ?_
    rw [getLast?_ids, Option.mem_some_iff] at hx
    obtain rfl : id = y := by simpa using hy
    exact hx ▸ (Leads.child above entry).link wf

/-- The chain that a path leads to has the path's own text, but for the slash at
its end. -/
theorem path_eq_trimmed (h : resolve view path false = .ok chain) :
    chain.path = Path.trimmed path := by
  obtain ⟨names, hnames, hdescend⟩ :=
    resolveExisting_eq_ok.1 (resolve_eq_ok.1 h)
  obtain ⟨parts, made, rfl⟩ := Path.exists_parts hnames
  have hchain := names_of_descend hdescend
  rw [List.append_nil] at hchain
  rw [← made.ofNames_eq, Chain.path, hchain]
  rfl

end Chain

namespace InodeTable

variable {table : InodeTable} {chain : Chain}

/-- From the root a chain can be found along its own path. -/
theorem resolve_of_leads (wf : table.tree.WellFormed)
    (leads : Chain.Leads table.tree chain)
    (proper : ∀ name ∈ chain.names, name.Proper) :
    Chain.resolve table.view chain.path false = .ok chain := by
  obtain ⟨found, hfound, hlast⟩ := (exists_resolve_iff wf).2
    ⟨chain.names, Path.components_ofNames proper, leads.walk⟩
  obtain rfl :=
    (Chain.Leads.resolve (view_reads wf) hfound).unique wf leads hlast
  exact hfound

end InodeTable

namespace Namespace

variable {ns : Namespace} {chain : Chain} {id : InodeId}

/-- Full paths and identities tell of each other. -/
structure Locates (ns : Namespace) : Prop where
  home : ∀ {id inode}, ns.table.find? id = some inode → ∃ chain : Chain,
    fullPath id ns = .ok chain.path ns ∧
    ns.table.view.fullPath id = .ok chain.path ∧
      Chain.resolve ns.table.view chain.path false = .ok chain ∧
      chainOf chain.path false ns = .ok chain ns ∧ chain.last = id ∧
      (chain.ids.IsChain fun above below =>
        ∃ inode, ns.table.find? below = some inode ∧
        inode.parent = some above) ∧
      resolvePath id.reservedPath ns = .ok chain.path ns
  path : ∀ {path chain}, Chain.resolve ns.table.view path false = .ok chain →
    ns.table.view.fullPath chain.last = .ok chain.path ∧
    chain.path = Path.trimmed path
  distinct : ∀ {first second path}, fullPath first ns = .ok path ns →
    fullPath second ns = .ok path ns → first = second

theorem fullPath_of_leads (sound : ns.Sound)
    (leads : Chain.Leads ns.table.tree chain) :
    fullPath chain.last ns = .ok chain.path ns := by
  have wf : ns.table.tree.WellFormed := sound.books.wellFormed
  obtain ⟨inode, live⟩ := leads.live wf
  have hlive : ns.table.contains chain.last = true := by
    rw [InodeTable.contains,
      show ns.table.find? chain.last = some inode from live]
    rfl
  rw [fullPath, if_pos hlive, InodeTable.fullPath_of_leads wf leads]

/-- The number of an inode stands for its full path. -/
theorem resolvePath_reservedPath (sound : ns.Sound)
    (leads : Chain.Leads ns.table.tree chain) :
    resolvePath chain.last.reservedPath ns = .ok chain.path ns := by
  have h := @resolveReserved_reservedPath ns chain [] sound leads (by simp)
  have hsuffix :
      chain.last.reservedPath ++ Path.suffix [] = chain.last.reservedPath := by
    simp [Path.suffix]
  rw [hsuffix, Path.below, if_pos rfl] at h
  rw [resolvePath, h]

/-- Asked for the inodes along the full path of an inode, the namespace answers
with its chain. -/
theorem chainOf_path (sound : ns.Sound)
    (h : Chain.resolve ns.table.view chain.path false = .ok chain) :
    chainOf chain.path false ns = .ok chain ns := by
  have leads :=
    Chain.Leads.resolve (InodeTable.view_reads sound.books.wellFormed) h
  have hplain : resolvePath chain.path ns = .ok chain.path ns := by
    rw [resolvePath, Path.resolveReserved_of_plain
      (Chain.Leads.isReserved_path sound.books leads)]
  have hexisting := Chain.resolve_eq_ok.1 h
  obtain ⟨locks, hplan, hgrants⟩ :=
    @exists_opened ns [{ path := chain.path, kind := .read }] sound .getFileInfo
      fun lock hlock => by
      rw [List.mem_singleton.1 hlock]
      exact ⟨rfl, chain, [], hexisting⟩
  have grants := hgrants _ (List.mem_singleton_self _) chain [] hexisting
  rw [chainOf, Outcome.bind_of_ok hplain]
  exact transact_of_ok sound.locks hplan
    (Work.read_of_ok (Chain.resolve_eq_ok.2 grants.resolves))

/-- What has a full path is there, at the end of a chain of this path. -/
theorem exists_leads_of_fullPath (sound : ns.Sound) {path : String}
    (h : fullPath id ns = .ok path ns) :
    ∃ chain, Chain.Leads ns.table.tree chain ∧ chain.last = id ∧
      chain.path = path := by
  have hlive : ns.table.contains id = true := by
    by_contra hdead
    rw [fullPath, if_neg hdead] at h
    cases h
  obtain ⟨inode, live⟩ := Option.isSome_iff_exists.1 hlive
  obtain ⟨chain, leads, rfl⟩ := Chain.exists_leads sound.books.wellFormed live
  cases (fullPath_of_leads sound leads).symm.trans h
  exact ⟨chain, leads, rfl, rfl⟩

theorem Sound.locates (sound : ns.Sound) : ns.Locates where
  home {id inode} live := by
    have wf : ns.table.tree.WellFormed := sound.books.wellFormed
    obtain ⟨chain, leads, rfl⟩ := Chain.exists_leads wf live
    have hresolve :=
      InodeTable.resolve_of_leads wf leads (sound.books.proper_names leads)
    exact ⟨chain, fullPath_of_leads sound leads,
      InodeTable.fullPath_of_leads wf leads, hresolve,
      chainOf_path sound hresolve, rfl, leads.isChain_ids wf,
      resolvePath_reservedPath sound leads⟩
  path h := by
    have wf : ns.table.tree.WellFormed := sound.books.wellFormed
    have leads := Chain.Leads.resolve (InodeTable.view_reads wf) h
    exact ⟨InodeTable.fullPath_of_leads wf leads, Chain.path_eq_trimmed h⟩
  distinct {first second path} hfirst hsecond := by
    have wf : ns.table.tree.WellFormed := sound.books.wellFormed
    obtain ⟨left, leads, rfl, hleft⟩ := exists_leads_of_fullPath sound hfirst
    obtain ⟨right, leads', rfl, hright⟩ :=
      exists_leads_of_fullPath sound hsecond
    -- both chains are found along the one path
    have hboth :=
      InodeTable.resolve_of_leads wf leads (sound.books.proper_names leads)
    have hboth' :=
      InodeTable.resolve_of_leads wf leads' (sound.books.proper_names leads')
    rw [hleft, ← hright] at hboth
    rw [Except.ok.inj (hboth.symm.trans hboth')]

/-- In every namespace that can come about, the full path of an inode leads to
it and to it alone, along its ancestors; its number stands for this path, and
every other path that leads to it is this one with a slash more. -/
theorem locates_after (config : Config) (events : List Event) :
    ((fresh config).after (events.map Event.run)).Locates :=
  ((sound_fresh config).after events).locates

end Namespace

end QuotaTree
