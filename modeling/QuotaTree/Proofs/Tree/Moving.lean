/-
Paths in a tree of which a subtree has moved.  Those that led outside of it lead
where they led, also if they go by the number of an inode; only the parent of
the subtree, if addressed by the number of the subtree, is another one.
-/
import QuotaTree.Proofs.Addressing
import QuotaTree.Proofs.Tree.Parts
import QuotaTree.Proofs.Tree.Walk

namespace QuotaTree

open Nodes

/-- The inode that a path numbers to address its parent. -/
def Path.addressedParent? (path : String) : Option InodeId :=
  match (pieces path.toList).filter (· ≠ []) with
  | [first, second, number, last] =>
    if first = reservedName.toList ∧ second = inodesName.toList ∧
        last = dotDot then
      (InodeId.parse (String.ofList number)).toOption
    else none
  | _ => none

namespace InodeTable

variable {table : InodeTable} {path : String} {names : List Name} {x : InodeId}
  (wf : table.tree.WellFormed) (hnames : Path.components path = .ok names)
  (plain : names.head? ≠ some (Name.ofText reservedName))

include wf hnames plain

/-- A path that does not begin with the reserved name leads where its names
do. -/
theorem finds_plain_iff :
    table.Finds path x ↔ table.tree.walk names .root = some x := by
  obtain ⟨parts, made, rfl⟩ := Path.exists_parts hnames
  simp [finds_iff wf, made.resolveReserved_eq plain, made.components_eq]

theorem finds_child_iff (further : names ≠ []) (text : String) :
    table.Finds (Path.child path text) x ↔
    ∃ more, Path.components ("/" ++ text) = .ok more ∧
      table.tree.walk (names ++ more) .root = some x := by
  obtain ⟨parts, made, rfl⟩ := Path.exists_parts hnames
  have hparts : parts ≠ [] := fun h => further (h ▸ rfl)
  simp [finds_iff wf, made.resolveReserved_child text hparts plain,
    made.components_child text]

omit hnames plain in
theorem parentOf_eq_ok {above : Option InodeId} :
    table.view.parentOf x = .ok above ↔ ∃ inode, table.tree x = some inode ∧
    inode.parent = above := by
  unfold View.parentOf
  simp only [Outcome.except_bind_eq_ok, Outcome.except_pure_eq_ok]
  constructor
  · rintro ⟨inode, hget, habove⟩
    exact ⟨inode, (view_reads wf).get hget, habove⟩
  · rintro ⟨inode, live, habove⟩
    exact ⟨inode, (view_opens x).get live, habove⟩

end InodeTable

namespace Namespace

variable {ns ns' : Namespace} {id parent target x top : InodeId}
  {name entry : Name} {lost gained moved : Inode} {path resolved : String}
  {names : List Name} {chain : Chain} {number : List Char}
  {rest : List (List Char)}

theorem namesOf_texts (proper : ∀ name ∈ names, name.Proper) :
    Path.namesOf (names.map (·.text.toList)) = names := by
  rw [Path.namesOf, List.map_map]
  refine (List.map_congr_left fun name hname => ?_).trans (List.map_id names)
  rw [Function.comp_apply, String.ofList_toList, (proper name hname).ofText]
  rfl

/-- A path that goes on from the path of a chain leads below the end of the
chain. -/
theorem under_of_child_path (sound : ns.Sound)
    (leads : Chain.Leads ns.table.tree chain) {components : List String}
    (further : components ≠ [])
    (clean : ∀ part ∈ components.map String.toList, '/' ∉ part ∧ part ≠ [])
    (hnames : Path.components
      (Path.child chain.path (String.intercalate "/" components)) = .ok names)
    (hwalk : ns.table.tree.walk names .root = some x) :
    ns.table.tree.Under chain.last x := by
  have proper := sound.books.proper_names leads
  rw [child_path sound leads further] at hnames
  obtain ⟨parts, made, rfl⟩ := Path.exists_parts hnames
  have hsome : addressParts chain components ≠ [] := by
    simp [addressParts, further]
  have hclean : ∀ part ∈ addressParts chain components, '/' ∉ part ∧
      part ≠ [] := by
    intro part hpart
    rcases List.mem_append.1 hpart with hpart | hpart
    · exact Path.clean_names proper part hpart
    · exact clean part hpart
  have hparts : parts = addressParts chain components := by
    rw [← made.filter_pieces_eq]
    exact Path.filter_pieces (fun part h => (hclean part h).1)
      (fun part h => (hclean part h).2) (toList_below sound leads hsome)
  have hsplit :
      Path.namesOf parts =
        chain.names ++ Path.namesOf (components.map String.toList) := by
    rw [hparts, addressParts, Path.namesOf, List.map_append]
    exact congrArg (· ++ _) (namesOf_texts proper)
  rw [hsplit, walk_append, leads.walk] at hwalk
  exact sound.books.wellFormed.under_of_walk hwalk

theorem parentOf_eq_ok {above : Option InodeId} (sound : ns.Sound) :
    ns.table.view.parentOf x = .ok above ↔
      ∃ inode, ns.table.tree x = some inode ∧ inode.parent = above :=
  InodeTable.parentOf_eq_ok sound.books.wellFormed

theorem eq_root_of_slash (hnames : Path.components "/" = .ok names)
    (hwalk : ns.table.tree.walk names .root = some x) : x = .root := by
  have hroot : Path.components "/" = .ok [] := by decide
  cases hroot.symm.trans hnames
  exact (Option.some.inj hwalk).symm

/-- The path at which an inode lives leads to it. -/
theorem eq_of_fullPath {live : InodeId} {inode : Inode} (sound : ns.Sound)
    (hlive : ns.table.tree live = some inode)
    (h : ns.table.view.fullPath live = .ok resolved)
    (hnames : Path.components resolved = .ok names)
    (hwalk : ns.table.tree.walk names .root = some x) : x = live := by
  have wf : ns.table.tree.WellFormed := sound.books.wellFormed
  obtain ⟨chain, leads, rfl⟩ := Chain.exists_leads wf hlive
  cases (InodeTable.fullPath_of_leads wf leads).symm.trans h
  have hown := Path.components_ofNames (sound.books.proper_names leads)
  obtain rfl := Except.ok.inj (hown.symm.trans hnames)
  exact Option.some.inj (hwalk.symm.trans leads.walk)

/-- What a number leads to lies below the inode that it numbers, but for the
parent of that inode. -/
theorem outside_of_ofReserved {numbered : InodeId} {inode : Inode}
    (sound : ns.Sound) (clean : ∀ part ∈ rest, '/' ∉ part ∧ part ≠ [])
    (other : rest = [Path.dotDot] → numbered ≠ id)
    (hparse : InodeId.parse (String.ofList number) = .ok numbered)
    (live : ns.table.tree numbered = some inode)
    (h : Path.ofReserved ns.table.view path number rest = .ok resolved)
    (hnames : Path.components resolved = .ok names)
    (hwalk : ns.table.tree.walk names .root = some x)
    (outside : ¬ ns.table.tree.Under id x) :
    ¬ ns.table.tree.Under id numbered := by
  have wf : ns.table.tree.WellFormed := sound.books.wellFormed
  intro hunder
  refine outside ?_
  have hgiven : ns.table.view.parentOf numbered = .ok inode.parent :=
    (parentOf_eq_ok sound).2 ⟨inode, live, rfl⟩
  simp only [Path.ofReserved, hparse, hgiven] at h
  split at h
  next hhere =>
    cases h
    rwa [eq_root_of_slash hnames hwalk, ← hhere.1]
  next =>
    split at h
    next => rwa [eq_of_fullPath sound live h hnames hwalk]
    next further =>
      split at h
      next hdots =>
        -- the parent of an inode in the subtree lies in it too, but for that of
        -- its top
        rcases Relation.ReflTransGen.cases_head hunder with
          heq | ⟨up, ⟨found, hfound, hparent⟩, hup⟩
        · exact absurd heq (other hdots)
        · obtain rfl := Option.some.inj (hfound.symm.trans live)
          obtain ⟨holder, hholder, _⟩ := wf.live_parent ⟨found, live, hparent⟩
          simp only [hparent] at h
          split at h
          next htop =>
            cases h
            rwa [eq_root_of_slash hnames hwalk, ← htop]
          next => rwa [eq_of_fullPath sound hholder h hnames hwalk]
      next =>
        split at h
        next => cases h
        next =>
          obtain ⟨chain, leads, rfl⟩ := Chain.exists_leads wf live
          rw [InodeTable.fullPath_of_leads wf leads] at h
          cases h
          exact hunder.trans
            (under_of_child_path sound leads (by simpa using further)
              (by simpa [List.forall_mem_map] using clean) hnames hwalk)

section Relocated

variable (sound : ns.Sound) (sound' : ns'.Sound)
  (rel : ns.table.tree.Relocation id parent target name entry lost gained moved)
  (htree : ns'.table.tree =
    ns.table.tree.relocate id parent target lost gained moved)

include sound sound' rel htree

/-- Outside of the subtree inodes live where they lived. -/
theorem fullPath_of_relocation {inode : Inode}
    (live : ns.table.tree x = some inode)
    (outside : ¬ ns.table.tree.Under id x) :
    ns'.table.view.fullPath x = ns.table.view.fullPath x := by
  obtain ⟨chain, leads, rfl⟩ := Chain.exists_leads sound.books.wellFormed live
  have hleads := rel.leads sound.books.wellFormed leads outside
  rw [← htree] at hleads
  rw [InodeTable.fullPath_of_leads sound.books.wellFormed leads,
    InodeTable.fullPath_of_leads sound'.books.wellFormed hleads]

omit sound in
theorem parentOf_of_relocation {inode : Inode}
    (live : ns.table.tree x = some inode)
    (outside : ¬ ns.table.tree.Under id x) :
    ns'.table.view.parentOf x = .ok inode.parent := by
  have hne : x ≠ id := fun h => outside (h ▸ .refl _ _)
  obtain ⟨found, hfound, same⟩ := rel.live_new live hne
  rw [← htree] at hfound
  exact (parentOf_eq_ok sound').2 ⟨found, hfound, same.parent⟩

theorem ofReserved_of_relocation (clean : ∀ part ∈ rest, '/' ∉ part ∧ part ≠ [])
    (other : rest = [Path.dotDot] →
      InodeId.parse (String.ofList number) ≠ .ok id)
    (h : Path.ofReserved ns.table.view path number rest = .ok resolved)
    (hnames : Path.components resolved = .ok names)
    (hwalk : ns.table.tree.walk names .root = some x)
    (outside : ¬ ns.table.tree.Under id x) :
    Path.ofReserved ns'.table.view path number rest = .ok resolved := by
  have hgiven := h
  unfold Path.ofReserved at h ⊢
  cases hparse : InodeId.parse (String.ofList number) with
  | error => simp [hparse] at h
  | ok numbered =>
    simp only [hparse] at h ⊢
    split
    next hhere => rwa [if_pos hhere] at h
    next hhere =>
      rw [if_neg hhere] at h
      cases habove : ns.table.view.parentOf numbered with
      | error => simp [habove] at h
      | ok above =>
        obtain ⟨inode, live, rfl⟩ := (parentOf_eq_ok sound).1 habove
        have hout := outside_of_ofReserved sound clean
          (fun hdots heq => other hdots (hparse.trans (congrArg _ heq))) hparse
          live hgiven hnames hwalk outside
        have hup : ∀ up, inode.parent = some up →
            ns'.table.view.fullPath up = ns.table.view.fullPath up := by
          intro up hparent
          have link : ns.table.tree.HasParent numbered up :=
            ⟨inode, live, hparent⟩
          obtain ⟨holder, hholder, _⟩ := sound.books.wellFormed.live_parent link
          refine fullPath_of_relocation sound sound' rel htree hholder
            fun hunder => ?_
          exact hout (hunder.trans (.of_parent link))
        rw [parentOf_of_relocation sound' rel htree live hout,
          fullPath_of_relocation sound sound' rel htree live hout]
        simp only [habove] at h
        cases hparent : inode.parent with
        | none => simpa only [hparent] using h
        | some up =>
          simp only [hparent, hup up hparent] at h ⊢
          exact h

theorem resolveReserved_of_relocation
    (other : Path.addressedParent? path ≠ some id)
    (h : Path.resolveReserved ns.table.view path = .ok resolved)
    (hnames : Path.components resolved = .ok names)
    (hwalk : ns.table.tree.walk names .root = some x)
    (outside : ¬ ns.table.tree.Under id x) :
    Path.resolveReserved ns'.table.view path = .ok resolved := by
  have hclean : ∀ part ∈ (Path.pieces path.toList).filter (· ≠ []), '/' ∉ part ∧
      part ≠ [] := by
    intro part hpart
    obtain ⟨hpiece, hfull⟩ := List.mem_filter.1 hpart
    exact ⟨Path.slash_not_mem_of_mem_pieces hpiece, of_decide_eq_true hfull⟩
  unfold Path.addressedParent? at other
  unfold Path.resolveReserved at h ⊢
  split at h
  next first second number rest hparts =>
    simp only [hparts] at hclean other ⊢
    split at h
    next hreserved =>
      rw [if_pos hreserved]
      refine ofReserved_of_relocation sound sound' rel htree (fun part hpart =>
        hclean part (by simp [hpart])) ?_ h hnames hwalk outside
      rintro rfl hparse
      simp [hreserved, hparse, Except.toOption] at other
    next hplain =>
      rw [if_neg hplain]
      exact h
  next => exact h

/-- A path that led outside of the subtree leads where it led. -/
theorem finds_of_relocation (outside : ¬ ns.table.tree.Under id x)
    (other : Path.addressedParent? path ≠ some id) (h : ns.table.Finds path x) :
    ns'.table.Finds path x := by
  obtain ⟨resolved, names, hresolved, hnames, hwalk⟩ :=
    (InodeTable.finds_iff sound.books.wellFormed).1 h
  refine (InodeTable.finds_iff sound'.books.wellFormed).2 ⟨resolved, names,
    resolveReserved_of_relocation sound sound' rel htree other hresolved hnames
      hwalk outside, hnames, ?_⟩
  rw [htree]
  exact rel.walk_outside sound.books.wellFormed hwalk outside

/-- Below the new place of the subtree paths lead where they led below the old
one. -/
theorem finds_child_of_relocation {above under : Chain} {source : String}
    (habove : Chain.Leads ns.table.tree above) (hparent : above.last = parent)
    (hunder : Chain.Leads ns.table.tree under) (htarget : under.last = target)
    (hsource : Path.components source = .ok (above.names ++ [name]))
    (text : String) :
    ns'.table.Finds (Path.child (under.child entry id).path text) x ↔
      ns.table.Finds (Path.child source text) x := by
  subst hparent htarget
  have wf : ns.table.tree.WellFormed := sound.books.wellFormed
  have hold : Chain.Leads ns.table.tree (above.child name id) :=
    .child habove rel.entry_old
  have hnew : Chain.Leads ns'.table.tree (under.child entry id) := by
    refine .child (htree ▸ rel.leads wf hunder rel.outside) ?_
    rw [htree, rel.entryAt wf, if_pos ⟨rfl, rfl⟩]
  have hplace :
      Path.components (under.child entry id).path =
        .ok (under.names ++ [entry]) :=
    Path.components_ofNames (sound'.books.proper_names hnew)
  rw [InodeTable.finds_child_iff sound'.books.wellFormed hplace
    (sound'.books.head_names_ne hnew) (by simp),
    InodeTable.finds_child_iff wf hsource (sound.books.head_names_ne hold)
      (by simp), htree]
  refine exists_congr fun more => ?_
  refine and_congr_right fun _ => ?_
  rw [List.append_assoc, List.append_assoc]
  exact iff_of_eq
    (congrArg (· = some x) (rel.walk_place wf habove.walk hunder.walk))

/-- The old place of the subtree is empty. -/
theorem not_finds_of_relocation {above : Chain} {source : String}
    (habove : Chain.Leads ns.table.tree above) (hparent : above.last = parent)
    (apart : ¬ (target = parent ∧ entry = name))
    (hsource : Path.components source = .ok (above.names ++ [name])) :
    ¬ ns'.table.Finds source x := by
  subst hparent
  have wf : ns.table.tree.WellFormed := sound.books.wellFormed
  have hold : Chain.Leads ns.table.tree (above.child name id) :=
    .child habove rel.entry_old
  rw [InodeTable.finds_plain_iff sound'.books.wellFormed hsource
    (sound.books.head_names_ne hold), htree, rel.walk_gone wf habove.walk apart]
  exact Option.some_ne_none x ∘ Eq.symm

end Relocated

end Namespace

end QuotaTree
